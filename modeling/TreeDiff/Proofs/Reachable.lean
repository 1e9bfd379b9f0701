import Mathlib.Logic.Relation
import TreeDiff.Proofs.Completion

/-!
# Reachable states

A caller may take single steps, several at once or those of an observed run, in any mixture. Every
state it can hold then is bound for the diff by recursion. So no instruction on the way from it
finds a stack that does not fit, and the state is either done, with one diff on its stack, or has a
goal on top.
-/

set_option autoImplicit false

namespace TreeDiff

inductive Tick (l : Limits) : List Instruction × List Value → List Instruction × List Value → Prop
  | work {goal : Goal} {work agenda : List Instruction} {values : List Value} :
      goal.unfold l = .inl work → Tick l (.pursue goal :: agenda, values) (work ++ agenda, values)
  | edit {goal : Goal} {e : Edit} {agenda : List Instruction} {values : List Value} :
      goal.unfold l = .inr e →
      Tick l (.pursue goal :: agenda, values) (agenda, .diff (.edit e) :: values)
  | assembly {i : Instruction} {agenda : List Instruction} {values values' : List Value} :
      i.isGoal = false → i.effect l values = .ok values' →
      Tick l (i :: agenda, values) (agenda, values')

abbrev Ticks (l : Limits) := Relation.ReflTransGen (Tick l)

def Ready : List Instruction → List Value → Prop
  | [], values => ∃ d, values = [.diff d]
  | .pursue _ :: _, _ => True
  | .collect n :: _, values =>
    ∃ (ds : List Diff) (rest : List Value), ds.length = n ∧
      values = (ds.map .diff).reverse ++ rest
  | .merge _ _ slotted arity :: _, values =>
    ∃ (slot : Option Diff) (children : List Diff) (rest : List Value), slotted = slot.isSome ∧
      arity.Fits children ∧ values = arity.laid children ++ (slot.toList.map .diff ++ rest)

theorem tick_completion {l : Limits} {s s' : List Instruction × List Value} {r : List Value}
    (ht : Tick l s s') (h : completion l s.1 s.2 = .ok r) : completion l s'.1 s'.2 = .ok r := by
  cases ht with
  | work hw =>
    rw [completion_append, unfold_completion hw]
    exact h
  | edit he =>
    rw [completion_pursue, unfold_edit he] at h
    exact h
  | assembly hi he =>
    rw [completion_cons, he] at h
    exact h

theorem ticks_completion {l : Limits} {s s' : List Instruction × List Value} {r : List Value}
    (ht : Ticks l s s') (h : completion l s.1 s.2 = .ok r) : completion l s'.1 s'.2 = .ok r := by
  induction ht with
  | refl => exact h
  | tail _ ht ih => exact tick_completion ht ih

theorem completion_ready {l : Limits} {agenda : List Instruction} {values : List Value} {d : Diff}
    (h : completion l agenda values = .ok [.diff d]) : Ready agenda values := by
  cases agenda with
  | nil => cases h; exact ⟨d, rfl⟩
  | cons i agenda =>
    rw [completion_cons] at h
    obtain ⟨values', he, -⟩ := bind_ok h
    cases i with
    | pursue goal => trivial
    | collect n =>
      obtain ⟨ds, rest, hn, hv, -⟩ := collect_effect_ok he
      exact ⟨ds, rest, hn, hv⟩
    | merge old new slotted arity =>
      obtain ⟨slot, children, rest, hn, hf, hv, -⟩ := merge_effect_ok he
      exact ⟨slot, children, rest, hn, hf, hv⟩

theorem settle_ticks (l : Limits) {agenda agenda' : List Instruction} {values values' : List Value}
    (h : settle agenda values = .ok (agenda', values')) :
    Ticks l (agenda, values) (agenda', values') := by
  induction agenda generalizing values with
  | nil => cases h; exact .refl
  | cons i agenda ih =>
    cases hi : i.isGoal with
    | true =>
      have hg : AtGoal (i :: agenda) := by
        intro j hj
        cases hj
        exact hi
      rw [settle_atGoal hg] at h
      cases h
      exact .refl
    | false =>
      rw [settle_assembly l hi] at h
      obtain ⟨v, he, h⟩ := bind_ok h
      exact .head (.assembly hi he) (ih h)

namespace Machine

theorem unfolded_tick (m : Machine) (goal : Goal) (agenda : List Instruction) :
    Tick m.limits (.pursue goal :: agenda, m.values)
      ((m.unfolded goal agenda).agenda, (m.unfolded goal agenda).values) := by
  rw [unfolded]
  split
  · next work hw => exact .work hw
  · next e he => exact .edit he

/-- A step is a tick for its goal and ticks for the assembly that follows. -/
theorem advance_ticks {m m' : Machine} {l : Limits} {r : List Value} (h : m.OnCourse l r)
    (hs : m.advance = .ok (some m')) : Ticks l (m.agenda, m.values) (m'.agenda, m'.values) := by
  rcases advance_onCourse h with ⟨ha, -⟩ | ⟨goal, agenda, -, ha, -⟩
  · rw [advance_done ha] at hs
    cases hs
  rw [advance_pursue ha] at hs
  cases hu : (m.unfolded goal agenda).settled with
  | error e => rw [hu] at hs; cases hs
  | ok m₁ =>
    rw [hu] at hs
    cases hs
    obtain ⟨p, hp, hm⟩ := bind_ok hu
    cases hm
    rw [ha, ← h.limits]
    exact .head (unfolded_tick m goal agenda) (settle_ticks _ hp)

end Machine

/-- The machines that a caller can hold: the first one, and what is left after single steps, after
at most `n` steps, or after an observation. A machine is a value, so that each of them may be
stepped on any number of times. -/
inductive Reachable (l : Limits) (old new : Tree) : Machine → Prop
  | start : Reachable l old new (.start l old new)
  | step {m m' : Machine} : Reachable l old new m → m.step = .ok (.pending m') →
      Reachable l old new m'
  | runFor {m m' : Machine} (n : Nat) : Reachable l old new m →
      m.runFor n = .ok (.pending m') → Reachable l old new m'
  | observe {m m' : Machine} {p : Progress} : Reachable l old new m →
      m.observe = .ok (p, some m') → Reachable l old new m'

namespace Machine

variable {l : Limits} {d : Diff}

theorem nextGoal_of_onCourse {m : Machine} {r : List Value} (h : m.OnCourse l r)
    (hn : m.agenda ≠ []) : ∃ goal agenda, m.agenda = .pursue goal :: agenda ∧
      m.nextGoal? = some goal := by
  rcases advance_onCourse h with ⟨ha, -⟩ | ⟨goal, agenda, -, ha, -⟩
  · exact absurd ha hn
  · refine ⟨goal, agenda, ha, ?_⟩
    rw [nextGoal?, ha]

theorem result_onCourse {m : Machine} (h : m.OnCourse l [.diff d]) (hn : m.agenda = []) :
    m.result = .ok d := by
  have hc := h.completion
  rw [hn, completion_nil] at hc
  injection hc with hv
  rw [result, hv]
  rfl

theorem outcome_onCourse {m : Machine} (h : m.OnCourse l [.diff d]) :
    m.outcome = .ok (if m.agenda = [] then .done d else .pending m) := by
  rw [outcome]
  by_cases hn : m.agenda = []
  · rw [if_pos hn, hn, result_onCourse h hn]
    rfl
  · rw [if_neg hn, if_neg (by simpa using hn)]
    rfl

theorem advanceBy_onCourse {m : Machine} (h : m.OnCourse l [.diff d]) (n : Nat) :
    ∃ m', m.advanceBy n = .ok m' ∧ m'.OnCourse l [.diff d] := by
  induction n generalizing m with
  | zero => exact ⟨m, rfl, h⟩
  | succ n ih =>
    rw [advanceBy]
    rcases advance_onCourse h with ⟨ha, -⟩ | ⟨goal, agenda, m', -, hs, hm, -⟩
    · rw [advance_done ha]
      exact ⟨m, rfl, h⟩
    · rw [hs]
      exact ih hm

theorem step_eq (m : Machine) : m.step = m.runFor 1 := by
  rw [step, runFor, advanceBy]
  cases m.advance with
  | error e => rfl
  | ok o => cases o <;> rfl

theorem runFor_onCourse {m : Machine} (h : m.OnCourse l [.diff d]) (n : Nat) :
    ∃ m', m.advanceBy n = .ok m' ∧ m'.OnCourse l [.diff d] ∧
      m.runFor n = .ok (if m'.agenda = [] then .done d else .pending m') := by
  obtain ⟨m', ha, hm⟩ := advanceBy_onCourse h n
  refine ⟨m', ha, hm, ?_⟩
  rw [runFor, ha]
  exact outcome_onCourse hm

theorem pending_of_runFor {m m' : Machine} (h : m.OnCourse l [.diff d]) {n : Nat}
    (hr : m.runFor n = .ok (.pending m')) : m.advanceBy n = .ok m' ∧ m'.agenda ≠ [] := by
  obtain ⟨m₁, ha, -, he⟩ := runFor_onCourse h n
  rw [hr] at he
  by_cases hn : m₁.agenda = []
  · rw [if_pos hn] at he
    cases he
  · rw [if_neg hn] at he
    cases he
    exact ⟨ha, hn⟩

theorem observe_done {m : Machine} (hn : m.agenda = []) (hr : m.result = .ok d) :
    m.observe = .ok (.done d, none) := by
  rw [observe, nextGoal?, hn]
  show (do return (Progress.done (← m.result), none) :
    Except Fault (Progress × Option Machine)) = _
  rw [hr]
  rfl

theorem observe_pursue {m m' : Machine} {goal : Goal} {agenda : List Instruction}
    (ha : m.agenda = .pursue goal :: agenda) (hs : m.advance = .ok (some m')) :
    m.observe = .ok (.goal goal, some m') := by
  rw [observe, nextGoal?, ha]
  show (do return (Progress.goal goal, (← m.advance).getD m) :
    Except Fault (Progress × Option Machine)) = _
  rw [hs]
  rfl

theorem observe_onCourse {m : Machine} (h : m.OnCourse l [.diff d]) :
    (m.agenda = [] ∧ m.observe = .ok (.done d, none)) ∨
      ∃ goal m', m.advance = .ok (some m') ∧ m.observe = .ok (.goal goal, some m') := by
  rcases advance_onCourse h with ⟨ha, -⟩ | ⟨goal, agenda, m', ha, hs, -⟩
  · exact .inl ⟨ha, observe_done ha (result_onCourse h ha)⟩
  · exact .inr ⟨goal, m', hs, observe_pursue ha hs⟩

theorem progress_done {m : Machine} (hn : m.agenda = []) (hr : m.result = .ok d) :
    m.progress = .ok [.done d] := by
  rw [progress, nextGoal?, hn]
  show (do return [Progress.done (← m.result)] : Except Fault (List Progress)) = _
  rw [hr]
  rfl

theorem progress_pursue {m m' : Machine} {goal : Goal} {agenda : List Instruction}
    {ps : List Progress} (ha : m.agenda = .pursue goal :: agenda)
    (hs : m.advance = .ok (some m')) (hp : m'.progress = .ok ps) :
    m.progress = .ok (.goal goal :: ps) := by
  rw [progress]
  split
  · next hg => rw [nextGoal?, ha] at hg; cases hg
  · next g hg =>
    rw [nextGoal?, ha] at hg
    cases hg
    split
    · next he => rw [hs] at he; cases he
    · next he => rw [hs] at he; cases he
    · next he =>
      rw [hs] at he
      cases he
      rw [hp]
      rfl

theorem progress_onCourse {m : Machine} (h : m.OnCourse l [.diff d]) :
    ∃ ps, m.progress = .ok ps := by
  induction m, h using onCourse_induction with
  | done m h ha hv => exact ⟨_, progress_done ha (result_onCourse h ha)⟩
  | step m h m' h' goal agenda ha hs hn ih =>
    obtain ⟨ps, hp⟩ := ih
    exact ⟨_, progress_pursue ha hs hp⟩

end Machine

theorem runFor_answers {m : Machine} {l : Limits} {d : Diff} (h : m.OnCourse l [.diff d])
    (n : Nat) : ∃ o, m.runFor n = .ok o ∧
      ∀ m', o = .pending m' → ∃ goal, m'.nextGoal? = some goal := by
  obtain ⟨m₁, -, hm, he⟩ := Machine.runFor_onCourse h n
  refine ⟨_, he, ?_⟩
  intro m' ho
  by_cases hn : m₁.agenda = []
  · rw [if_pos hn] at ho
    cases ho
  · rw [if_neg hn] at ho
    cases ho
    obtain ⟨goal, -, -, hg⟩ := Machine.nextGoal_of_onCourse hm hn
    exact ⟨goal, hg⟩

/-- What steps preserve holds of every machine that a caller can reach. -/
theorem reachable_induction {l : Limits} {old new : Tree} {P : Machine → Prop}
    (start : P (.start l old new))
    (advance : ∀ m m', m.OnCourse l [.diff (Tree.comparison l old new)] → P m →
      m.advance = .ok (some m') → P m')
    {m : Machine} (h : Reachable l old new m) :
    m.OnCourse l [.diff (Tree.comparison l old new)] ∧ P m := by
  have next {m m' : Machine} (hm : m.OnCourse l [.diff (Tree.comparison l old new)] ∧ P m)
      (hs : m.advance = .ok (some m')) :
      m'.OnCourse l [.diff (Tree.comparison l old new)] ∧ P m' := by
    refine ⟨?_, advance m m' hm.1 hm.2 hs⟩
    rcases Machine.advance_onCourse hm.1 with ⟨ha, -⟩ | ⟨_, _, m₁, -, hs', hm', -⟩
    · rw [Machine.advance_done ha] at hs
      cases hs
    · rw [hs'] at hs
      cases hs
      exact hm'
  have many (n : Nat) {m m' : Machine}
      (hm : m.OnCourse l [.diff (Tree.comparison l old new)] ∧ P m)
      (hs : m.advanceBy n = .ok m') :
      m'.OnCourse l [.diff (Tree.comparison l old new)] ∧ P m' := by
    induction n generalizing m with
    | zero => cases hs; exact hm
    | succ n ih =>
      rw [Machine.advanceBy] at hs
      obtain ⟨o, ho, hs⟩ := bind_ok hs
      cases o with
      | none => cases hs; exact hm
      | some m₁ => exact ih (next hm ho) hs
  induction h with
  | start => exact ⟨Machine.start_onCourse l old new, start⟩
  | step _ hs ih =>
    rw [Machine.step_eq] at hs
    exact many 1 ih (Machine.pending_of_runFor ih.1 hs).1
  | runFor n _ hs ih => exact many n ih (Machine.pending_of_runFor ih.1 hs).1
  | observe _ hs ih =>
    rcases Machine.observe_onCourse ih.1 with ⟨-, ho⟩ | ⟨_, m₁, ha, ho⟩
    · rw [ho] at hs
      cases hs
    · rw [ho] at hs
      cases hs
      exact next ih ha

theorem reachable_onCourse {l : Limits} {old new : Tree} {m : Machine}
    (h : Reachable l old new m) : m.OnCourse l [.diff (Tree.comparison l old new)] :=
  (reachable_induction (P := fun _ => True) trivial (fun _ _ _ _ _ => trivial) h).1

/-- From a reachable state no instruction ever finds a stack that does not fit, so nothing that a
caller can do ends in a fault; a state that is handed back as pending has a goal on top, and one
with an empty agenda has exactly one value, a diff. -/
theorem reachable_never_faults {l : Limits} {old new : Tree} {m : Machine}
    (h : Reachable l old new m) :
    (∀ agenda values, Ticks l (m.agenda, m.values) (agenda, values) → Ready agenda values) ∧
    (m.agenda ≠ [] → ∃ goal, m.nextGoal? = some goal) ∧
    (m.agenda = [] → ∃ d, m.values = [.diff d]) ∧
    (∃ o, m.advance = .ok o) ∧
    (∃ o, m.step = .ok o ∧ ∀ m', o = .pending m' → ∃ goal, m'.nextGoal? = some goal) ∧
    (∀ n, ∃ o, m.runFor n = .ok o ∧ ∀ m', o = .pending m' → ∃ goal, m'.nextGoal? = some goal) ∧
    (∃ d, m.run = .ok d) ∧ (∃ p, m.observe = .ok p) ∧ ∃ ps, m.progress = .ok ps := by
  have hm := reachable_onCourse h
  refine ⟨?_, ?_, ?_, ?_, ?_, runFor_answers hm, ⟨_, Machine.run_onCourse hm⟩, ?_,
    Machine.progress_onCourse hm⟩
  · intro agenda values ht
    exact completion_ready (ticks_completion ht hm.completion)
  · intro hn
    obtain ⟨goal, -, -, hg⟩ := Machine.nextGoal_of_onCourse hm hn
    exact ⟨goal, hg⟩
  · intro hn
    have hc := hm.completion
    rw [hn, completion_nil] at hc
    injection hc with hv
    exact ⟨_, hv⟩
  · rcases Machine.advance_onCourse hm with ⟨ha, -⟩ | ⟨-, -, m', -, hs, -⟩
    · exact ⟨none, Machine.advance_done ha⟩
    · exact ⟨some m', hs⟩
  · rw [Machine.step_eq]
    exact runFor_answers hm 1
  · rcases Machine.observe_onCourse hm with ⟨-, ho⟩ | ⟨goal, m', -, ho⟩
    · exact ⟨_, ho⟩
    · exact ⟨_, ho⟩

def callOld : Tree :=
  .branch "call" [.leaf "name" "f", .sequence "arguments" [.leaf "name" "x", .leaf "name" "y"]]

def callNew : Tree :=
  .branch "call" [.leaf "name" "g", .sequence "arguments" [.leaf "name" "y", .leaf "number" "1"]]

def callHalfDone : Machine where
  limits := {}
  agenda := [.pursue (.align [.leaf "name" "x", .leaf "name" "y"]
      [.leaf "name" "y", .leaf "number" "1"]),
    .merge (.sequence "arguments" [.leaf "name" "x", .leaf "name" "y"])
      (.sequence "arguments" [.leaf "name" "y", .leaf "number" "1"]) false .list,
    .merge callOld callNew false (.singles 2)]
  values := [.diff (.edit (.replace (.leaf "name" "f") (.leaf "name" "g")))]
  steps := 6

theorem callHalfDone_never_faults :
    Reachable {} callOld callNew callHalfDone ∧ callHalfDone.agenda ≠ [] ∧
      (∃ goal, callHalfDone.nextGoal? = some goal) ∧ ∃ d, callHalfDone.run = .ok d := by
  have hr : Reachable {} callOld callNew callHalfDone := .runFor 6 .start rfl
  have h := reachable_never_faults hr
  have hn : callHalfDone.agenda ≠ [] := nofun
  exact ⟨hr, hn, h.2.1 hn, h.2.2.2.2.2.2.1⟩

end TreeDiff
