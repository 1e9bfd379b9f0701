import TreeDiff.Proofs.Identity
import TreeDiff.Proofs.Matching

/-!
# Traces

The goals that a machine takes apart, one after the other, form its trace. Taking a goal apart puts
the work it stands for on top, so the trace of a goal is the goal followed by the traces of its
work, undisturbed by what lies below. Every merge of the diff takes two goals of its own and every
replacement three, so the diff tells the length of the trace; and the final goals of the trace are
the edits of the diff, in its order.
-/

set_option autoImplicit false

namespace TreeDiff

def Instruction.goal? : Instruction → Option Goal
  | pursue goal => some goal
  | _ => none

theorem goal_weight_le {agenda : List Instruction} {goal : Goal}
    (h : goal ∈ agenda.filterMap Instruction.goal?) : goal.weight ≤ agendaWeight agenda := by
  obtain ⟨i, hi, hg⟩ := List.mem_filterMap.mp h
  cases i with
  | pursue g =>
    cases hg
    exact le_total (List.mem_map_of_mem (f := Instruction.weight) hi)
  | merge old new slot arity => cases hg
  | collect n => cases hg

def Goal.trace (l : Limits) (goal : Goal) : List Goal :=
  match _ : goal.unfold l with
  | .inl work => goal :: (work.filterMap Instruction.goal?).attach.flatMap fun g => g.1.trace l
  | .inr _ => [goal]
termination_by goal.weight
decreasing_by exact Nat.lt_of_le_of_lt (goal_weight_le g.2) (Goal.unfold_weight ‹_›)

def agendaTrace (l : Limits) (agenda : List Instruction) : List Goal :=
  (agenda.filterMap Instruction.goal?).flatMap (Goal.trace l)

section

variable {l : Limits}

theorem trace_work {goal : Goal} {work : List Instruction} (h : goal.unfold l = .inl work) :
    goal.trace l = goal :: agendaTrace l work := by
  rw [Goal.trace]
  split
  · next work' hw =>
    rw [h] at hw
    cases hw
    rw [agendaTrace, List.flatMap_def, List.flatMap_def, List.attach_map_val]
  · next e he =>
    rw [h] at he
    cases he

theorem trace_edit {goal : Goal} {e : Edit} (h : goal.unfold l = .inr e) :
    goal.trace l = [goal] := by
  rw [Goal.trace]
  split
  · next work hw =>
    rw [h] at hw
    cases hw
  · rfl

@[simp] theorem agendaTrace_nil : agendaTrace l [] = [] := rfl

@[simp] theorem agendaTrace_pursue (goal : Goal) (agenda : List Instruction) :
    agendaTrace l (.pursue goal :: agenda) = goal.trace l ++ agendaTrace l agenda := rfl

theorem agendaTrace_assembly {i : Instruction} (hi : i.isGoal = false)
    (agenda : List Instruction) : agendaTrace l (i :: agenda) = agendaTrace l agenda := by
  cases i with
  | pursue goal => cases hi
  | merge old new slot arity => rfl
  | collect n => rfl

@[simp] theorem agendaTrace_append (first rest : List Instruction) :
    agendaTrace l (first ++ rest) = agendaTrace l first ++ agendaTrace l rest := by
  simp [agendaTrace]

@[simp] theorem agendaTrace_pursues (goals : List Goal) :
    agendaTrace l (goals.map .pursue) = goals.flatMap (Goal.trace l) := by
  induction goals with
  | nil => rfl
  | cons goal goals ih => rw [List.map_cons, agendaTrace_pursue, ih, List.flatMap_cons]

/-- Assembly leads to no goals. -/
theorem settle_trace {agenda agenda' : List Instruction} {values values' : List Value}
    (h : settle agenda values = .ok (agenda', values')) :
    agendaTrace l agenda' = agendaTrace l agenda := by
  induction agenda generalizing values with
  | nil => cases h; rfl
  | cons i agenda ih =>
    cases hi : i.isGoal with
    | true =>
      cases i with
      | pursue goal => cases h; rfl
      | merge old new slot arity => cases hi
      | collect n => cases hi
    | false =>
      rw [settle_assembly l hi] at h
      obtain ⟨v, -, h⟩ := bind_ok h
      rw [ih h, agendaTrace_assembly hi]

end

namespace Machine

def trace (m : Machine) : List Goal := agendaTrace m.limits m.agenda

theorem unfolded_trace (m : Machine) (goal : Goal) (agenda : List Instruction) :
    goal :: (m.unfolded goal agenda).trace =
      goal.trace m.limits ++ agendaTrace m.limits agenda := by
  rw [unfolded]
  split
  · next work hw =>
    rw [trace_work hw, trace, agendaTrace_append]
    rfl
  · next e he =>
    rw [trace_edit he]
    rfl

/-- A step takes the first goal of the trace apart and leaves the rest of the trace to go. -/
theorem advance_trace {m m' : Machine} {goal : Goal} {agenda : List Instruction}
    (ha : m.agenda = .pursue goal :: agenda) (hs : m.advance = .ok (some m')) :
    m.trace = goal :: m'.trace := by
  rw [advance_pursue ha] at hs
  cases hu : (m.unfolded goal agenda).settled with
  | error e => rw [hu] at hs; cases hs
  | ok m₁ =>
    rw [hu] at hs
    cases hs
    obtain ⟨p, hp, hm⟩ := bind_ok hu
    cases hm
    show m.trace = goal :: agendaTrace (m.unfolded goal agenda).limits p.1
    rw [settle_trace hp, trace, ha, agendaTrace_pursue, ← unfolded_trace, trace]

theorem trace_nil {m : Machine} (h : m.agenda = []) : m.trace = [] := by
  rw [trace, h, agendaTrace_nil]

/-- The observations of a run are the goals of the trace and the diff. -/
theorem progress_eq {m : Machine} {l : Limits} {d : Diff} (h : m.OnCourse l [.diff d]) :
    m.progress = .ok (m.trace.map .goal ++ [.done d]) := by
  induction m, h using onCourse_induction with
  | done m h ha hv => rw [trace_nil ha, progress_done ha (result_onCourse h ha)]; rfl
  | step m h m' h' goal agenda ha hs hn ih =>
    rw [advance_trace ha hs, progress_pursue ha hs ih]
    rfl

end Machine

namespace Observer

theorem answers_over (k : Nat) : answers k ⟨none⟩ = .ok (List.replicate k none) := by
  induction k with
  | zero => rfl
  | succ k ih =>
    show (do return none :: (← answers k ⟨none⟩) : Except Fault (List (Option Progress))) = _
    rw [ih]
    rfl

theorem answers_cons {m : Machine} {p : Progress} {m' : Option Machine}
    (h : m.observe = .ok (p, m')) (n : Nat) :
    answers (n + 1) m.observer = (do return some p :: (← answers n ⟨m'⟩)) := by
  rw [answers, next]
  show (do
    let q ← (do
      let r ← m.observe
      return (some r.1, ⟨r.2⟩) : Except Fault (Option Progress × Observer))
    return q.1 :: (← q.2.answers n) : Except Fault (List (Option Progress))) = _
  rw [h]
  rfl

/-- Called as often as one likes, an observer answers the goals of the trace, then the diff, and
from then on nothing. -/
theorem answers_eq {m : Machine} {l : Limits} {d : Diff} (h : m.OnCourse l [.diff d]) (k : Nat) :
    m.observer.answers (m.trace.length + 1 + k) =
      .ok (m.trace.map (some ∘ .goal) ++ some (.done d) :: List.replicate k none) := by
  induction m, h using Machine.onCourse_induction with
  | done m h ha hv =>
    have ho := Machine.observe_done ha (Machine.result_onCourse h ha)
    rw [Machine.trace_nil ha, List.length_nil, Nat.zero_add, Nat.add_comm, answers_cons ho,
      answers_over]
    rfl
  | step m h m' h' goal agenda ha hs hn ih =>
    rw [Machine.advance_trace ha hs, List.length_cons,
      show m'.trace.length + 1 + 1 + k = m'.trace.length + 1 + k + 1 by omega,
      answers_cons (Machine.observe_pursue ha hs)]
    show (do return some (Progress.goal goal) :: (← m'.observer.answers _)) = _
    rw [ih]
    rfl

end Observer

namespace Diff

def ownGoals : Diff → Nat
  | merge .. => 2
  | edit (.replace _ _) => 3
  | edit _ => 1

def goalCount (d : Diff) : Nat := total (d.walk.map ownGoals)

theorem goalCount_edit (e : Edit) : (edit e).goalCount = (edit e).ownGoals := by
  rw [goalCount, walk_edit]
  rfl

theorem goalCount_merge (t u : Tag) (form : Form Diff) :
    (merge t u form).goalCount = 2 + total (form.parts.map goalCount) := by
  rw [goalCount, walk_merge, List.map_cons, total_cons]
  congr 1
  induction form.parts with
  | nil => rfl
  | cons d ds ih => rw [List.flatMap_cons, List.map_append, total_append, ih]; rfl

theorem goalCount_eq (d : Diff) :
    d.goalCount =
      2 * d.counts.merges + 3 * d.counts.replaces + d.counts.inserts + d.counts.deletes := by
  simp only [counts_eq, goalCount, edits]
  induction d.walk with
  | nil => rfl
  | cons d ds ih =>
    rw [List.map_cons, total_cons, ih]
    cases d with
    | merge t u form =>
      simp [List.filterMap_cons, List.countP_cons, ownGoals, isMerge, edit?]
      omega
    | edit e =>
      cases e <;>
        simp [List.countP_cons, ownGoals, isMerge, edit?, Edit.isInsert, Edit.isDelete,
          Edit.isReplace] <;>
        omega

/-- Edits of trees that are not empty cost one at least, and two if they replace. -/
theorem edits_le_cost {d : Diff}
    (h : ∀ e ∈ d.edits, (∀ x ∈ e.old?, 0 < x.size) ∧ ∀ y ∈ e.new?, 0 < y.size) :
    d.counts.inserts + d.counts.deletes + 2 * d.counts.replaces ≤ d.cost := by
  simp only [counts_eq, cost]
  generalize d.edits = es at h
  induction es with
  | nil => exact Nat.le_refl _
  | cons e es ih =>
    obtain ⟨⟨ho, hn⟩, hes⟩ := List.forall_mem_cons.mp h
    have hi := ih hes
    rw [List.map_cons, total_cons]
    cases e with
    | insert b =>
      have hb : 0 < (Edit.insert b).newSize := hn b rfl
      simp [List.countP_cons, Edit.isInsert, Edit.isDelete, Edit.isReplace]
      omega
    | delete a =>
      have ha : 0 < (Edit.delete a).oldSize := ho a rfl
      simp [List.countP_cons, Edit.isInsert, Edit.isDelete, Edit.isReplace]
      omega
    | replace a b =>
      have ha : 0 < (Edit.replace a b).oldSize := ho a rfl
      have hb : 0 < (Edit.replace a b).newSize := hn b rfl
      simp [List.countP_cons, Edit.isInsert, Edit.isDelete, Edit.isReplace]
      omega

end Diff

def Goal.ofEdit : Edit → Goal
  | .insert b => insert b
  | .delete a => delete a
  | .replace a b => replace a b

/-- One after the other, the goals lead to the edits of the diffs, in order, and take as many goals
as the diffs do. -/
structure Retraces (l : Limits) (goals : List Goal) (ds : List Diff) : Prop where
  edits : (goals.flatMap (Goal.trace l)).filter Goal.isFinal =
    (ds.flatMap Diff.edits).map Goal.ofEdit
  length : (goals.flatMap (Goal.trace l)).length = total (ds.map Diff.goalCount)

section

variable {l : Limits}

theorem Retraces.nil : Retraces l [] [] := ⟨rfl, rfl⟩

theorem Retraces.append {goals goals' : List Goal} {ds ds' : List Diff} (h : Retraces l goals ds)
    (h' : Retraces l goals' ds') : Retraces l (goals ++ goals') (ds ++ ds') := by
  constructor
  · rw [List.flatMap_append, List.filter_append, h.edits, h'.edits, List.flatMap_append,
      List.map_append]
  · rw [List.flatMap_append, List.length_append, h.length, h'.length, List.map_append, total_append]

theorem Retraces.cons {goal : Goal} {goals : List Goal} {d : Diff} {ds : List Diff}
    (h : Retraces l [goal] [d]) (h' : Retraces l goals ds) :
    Retraces l (goal :: goals) (d :: ds) :=
  h.append h'

theorem retraces_delete (a : Tree) : Retraces l [.delete a] [.edit (.delete a)] := by
  constructor <;> simp [trace_edit (show (Goal.delete a).unfold l = _ from rfl), Goal.isFinal,
    Goal.ofEdit, Diff.goalCount_edit, Diff.ownGoals]

theorem retraces_insert (b : Tree) : Retraces l [.insert b] [.edit (.insert b)] := by
  constructor <;> simp [trace_edit (show (Goal.insert b).unfold l = _ from rfl), Goal.isFinal,
    Goal.ofEdit, Diff.goalCount_edit, Diff.ownGoals]

variable {rec : Tree → Tree → Diff}

theorem slot_retraces {s r : Option Tree}
    (h : ∀ x ∈ s, ∀ y ∈ r, Retraces l [.compare x y] [rec x y]) :
    Retraces l (Plan.slotGoal s r).toList
      ((Plan.slotGoal s r).bind (Goal.ending? rec)).toList := by
  cases s with
  | none =>
    cases r with
    | none => exact .nil
    | some y => exact retraces_insert y
  | some x =>
    cases r with
    | none => exact retraces_delete x
    | some y => exact h x rfl y rfl

theorem entries_retrace {es : List (Entry Tree Tree)}
    (h : ∀ x y, .paired x y ∈ es → Retraces l [.compare x y] [rec x y]) :
    Retraces l (es.map Goal.ofEntry) (es.map (Entry.ending rec)) := by
  induction es with
  | nil => exact .nil
  | cons e es ih =>
    have ht := ih fun x y hm => h x y (List.mem_cons_of_mem _ hm)
    cases e with
    | old a => exact .cons (retraces_delete a) ht
    | new b => exact .cons (retraces_insert b) ht
    | paired x y => exact .cons (h x y List.mem_cons_self) ht

theorem positions_retrace {xs ys : List Tree}
    (h : ∀ x ∈ xs, ∀ y ∈ ys, Retraces l [.compare x y] [rec x y]) :
    Retraces l (List.zipWith Goal.compare xs ys) (List.zipWith rec xs ys) := by
  induction xs generalizing ys with
  | nil => exact .nil
  | cons x xs ih =>
    cases ys with
    | nil => exact .nil
    | cons y ys =>
      refine .cons (h x List.mem_cons_self y List.mem_cons_self) (ih fun a ha b hb => ?_)
      exact h a (List.mem_cons_of_mem _ ha) b (List.mem_cons_of_mem _ hb)

theorem align_trace (xs ys : List Tree) :
    (Goal.align xs ys).trace l =
      .align xs ys :: ((Tree.align l xs ys).map Goal.ofEntry).flatMap (Goal.trace l) := by
  rw [trace_work (show (Goal.align xs ys).unfold l = _ from rfl), agendaTrace_append,
    ← List.map_map, agendaTrace_pursues, agendaTrace_assembly rfl, agendaTrace_nil, List.append_nil]

theorem aligned_trace {a b : Tree} {plan : Plan} (ha : Plan.aligning a b = some plan)
    (hc : plan.children = .aligned a.form.children b.form.children) :
    (Goal.compare a b).trace l =
      .compare a b :: (plan.slot.toList.flatMap (Goal.trace l) ++
        .align a.form.children b.form.children ::
          ((Tree.align l a.form.children b.form.children).map Goal.ofEntry).flatMap
            (Goal.trace l)) := by
  have hu : (Goal.compare a b).unfold l = .inl (plan.agenda a b) := by rw [Goal.unfold, ha]
  rw [trace_work hu, Plan.agenda, hc, agendaTrace_append, agendaTrace_pursues, agendaTrace_pursue,
    agendaTrace_assembly rfl, agendaTrace_nil, List.append_nil, align_trace]

theorem zipped_trace {a b : Tree} {plan : Plan} (ha : Plan.aligning a b = none)
    (hz : Plan.zipping a b = some plan)
    (hc : plan.children = .positional (List.zipWith .compare a.form.children b.form.children)) :
    (Goal.compare a b).trace l =
      .compare a b :: .zip a b :: (plan.slot.toList.flatMap (Goal.trace l) ++
        (List.zipWith .compare a.form.children b.form.children).flatMap (Goal.trace l)) := by
  have hu : (Goal.compare a b).unfold l = .inl [.pursue (.zip a b)] := by rw [Goal.unfold, ha]
  have hw : (Goal.zip a b).unfold l = .inl (plan.agenda a b) := by rw [Goal.unfold, hz]
  rw [trace_work hu, agendaTrace_pursue, agendaTrace_nil, List.append_nil, trace_work hw,
    Plan.agenda, hc, agendaTrace_append, agendaTrace_pursues, agendaTrace_append,
    agendaTrace_pursues, agendaTrace_assembly rfl, agendaTrace_nil, List.append_nil]

theorem replaced_trace {a b : Tree} (h : Plan.matching a b = none) :
    (Goal.compare a b).trace l = [.compare a b, .zip a b, .replace a b] := by
  have ha : Plan.aligning a b = none := by
    unfold Plan.matching at h
    split at h
    · cases h
    · assumption
  have hz : Plan.zipping a b = none := by rwa [Plan.matching, ha] at h
  have hu : (Goal.compare a b).unfold l = .inl [.pursue (.zip a b)] := by rw [Goal.unfold, ha]
  have hw : (Goal.zip a b).unfold l = .inl [.pursue (.replace a b)] := by rw [Goal.unfold, hz]
  rw [trace_work hu, agendaTrace_pursue, agendaTrace_nil, List.append_nil, trace_work hw,
    agendaTrace_pursue, agendaTrace_nil, List.append_nil,
    trace_edit (show (Goal.replace a b).unfold l = _ from rfl)]

/-- A merge takes two goals that are not final, the first before all of its parts and the second
before its slot or after it. -/
theorem retraces_merge {a b : Tree} {t u : Tag} {form : Form Diff} {slots children : List Goal}
    (hs : Retraces l slots form.slot?.toList) (hc : Retraces l children form.children)
    (ht : (∃ xs ys, (Goal.compare a b).trace l = .compare a b ::
        (slots.flatMap (Goal.trace l) ++ .align xs ys :: children.flatMap (Goal.trace l))) ∨
      (Goal.compare a b).trace l = .compare a b :: .zip a b ::
        (slots.flatMap (Goal.trace l) ++ children.flatMap (Goal.trace l))) :
    Retraces l [.compare a b] [.merge t u form] := by
  have h := hs.append hc
  have he := h.edits
  have hl := h.length
  rw [List.flatMap_append, List.filter_append] at he
  rw [List.flatMap_append, List.length_append] at hl
  constructor
  · rw [List.flatMap_singleton, List.flatMap_singleton, Diff.edits_merge, Form.parts, ← he]
    rcases ht with ⟨xs, ys, ht⟩ | ht
    · rw [ht, List.filter_cons_of_neg Bool.false_ne_true, List.filter_append,
        List.filter_cons_of_neg Bool.false_ne_true]
    · rw [ht, List.filter_cons_of_neg Bool.false_ne_true,
        List.filter_cons_of_neg Bool.false_ne_true, List.filter_append]
  · rw [List.flatMap_singleton, List.map_singleton, total_cons, total_nil, Diff.goalCount_merge,
      Form.parts, ← hl]
    rcases ht with ⟨xs, ys, ht⟩ | ht <;> rw [ht] <;> simp <;> omega

/-- The trace of a comparison leads to the edits of its diff. -/
theorem comparison_retraces (a b : Tree) :
    Retraces l [.compare a b] [Tree.comparison l a b] := by
  refine Tree.comparison_induction
    (motive := fun a b d => Retraces l [.compare a b] [d]) ?_ ?_ a b
  · intro a b h
    constructor
    · rw [List.flatMap_singleton, replaced_trace h]
      simp [Goal.isFinal, Goal.ofEdit]
    · rw [List.flatMap_singleton, replaced_trace h]
      simp [Diff.goalCount_edit, Diff.ownGoals]
  · intro a b plan hm hp ih
    obtain ⟨form, hd, -, -, hr, hc⟩ := Plan.diff_form l (Tree.comparison l) hp
    have hslot : Retraces l plan.slot.toList form.slot?.toList := by
      rw [hr, hp.slot]
      exact slot_retraces fun x hx y hy =>
        ih x (Form.slot_mem_parts hx) y (Form.slot_mem_parts hy)
    have hpair : ∀ x ∈ a.form.children, ∀ y ∈ b.form.children,
        Retraces l [.compare x y] [Tree.comparison l x y] := fun x hx y hy =>
      ih x (Form.child_mem_parts hx) y (Form.child_mem_parts hy)
    rw [hd]
    rcases Plan.matching_cases hm with ⟨ha, hw, -⟩ | ⟨ha, hz, hw, -⟩
    · refine retraces_merge hslot ?_ (.inl ⟨_, _, aligned_trace ha hw⟩)
      rw [hc, hw]
      exact entries_retrace fun x y he =>
        hpair x (Tree.mem_of_paired he).1 y (Tree.mem_of_paired he).2
    · refine retraces_merge hslot ?_ (.inr (zipped_trace ha hz hw))
      rw [hc, hw, Work.endings_positional]
      exact positions_retrace hpair

end

theorem start_trace (l : Limits) (old new : Tree) :
    (Machine.start l old new).trace = [Goal.compare old new].flatMap (Goal.trace l) := rfl

/-- Merges and replacements of trees that are not empty take three goals at most for two nodes. -/
theorem Diff.goalCount_le {d : Diff}
    (h : ∀ e ∈ d.edits, (∀ x ∈ e.old?, 0 < x.size) ∧ ∀ y ∈ e.new?, 0 < y.size) :
    2 * d.goalCount ≤ 3 * (d.coverage.old + d.coverage.new) := by
  have hc := edits_le_cost h
  rw [goalCount_eq, coverage_balance]
  omega

theorem comparison_goalCount_le (l : Limits) {old new : Tree} (ho : old.WellSized)
    (hn : new.WellSized) :
    2 * (Tree.comparison l old new).goalCount ≤ 3 * (old.size + new.size) := by
  have hc := Diff.goalCount_le fun e he =>
    have hm := comparison_edits l old new e he
    And.intro (fun x hx => ho.subtree_size_pos (hm.1 x hx))
      fun y hy => hn.subtree_size_pos (hm.2 y hy)
  rwa [comparison_coverage l ho hn] at hc

/-- Watched to its end, a comparison shows finitely many goals, then the diff, and then nothing. The
final goals are the edits of the diff, in its order and with its trees; the merges, replacements,
insertions and deletions of the diff tell how many goals there are. -/
theorem trace_follows_diff (l : Limits) {old new : Tree} (ho : old.WellSized)
    (hn : new.WellSized) :
    ∃ (goals : List Goal) (d : Diff), old.diff l new = .ok d ∧
      (Machine.start l old new).progress = .ok (goals.map .goal ++ [.done d]) ∧
      (∀ k, (Machine.start l old new).observer.answers (goals.length + 1 + k) =
        .ok (goals.map (some ∘ .goal) ++ some (.done d) :: List.replicate k none)) ∧
      goals.filter Goal.isFinal = d.edits.map Goal.ofEdit ∧
      goals.length =
        2 * d.counts.merges + 3 * d.counts.replaces + d.counts.inserts + d.counts.deletes ∧
      goals.length ≤ 3 * (old.size + new.size) / 2 := by
  have hs := Machine.start_onCourse l old new
  obtain ⟨he, hl⟩ := comparison_retraces (l := l) old new
  rw [← start_trace, List.flatMap_singleton] at he
  rw [← start_trace, List.map_singleton, total_cons, total_nil, Nat.add_zero] at hl
  refine ⟨_, _, diff_eq_comparison l old new, Machine.progress_eq hs, Observer.answers_eq hs, he,
    hl.trans (Diff.goalCount_eq _), ?_⟩
  have hle := comparison_goalCount_le l ho hn
  omega

/-- One argument goes, another comes, and the callee is replaced. -/
theorem call_trace :
    callOld.WellSized ∧ callNew.WellSized ∧
      ∃ (goals : List Goal) (d : Diff), callOld.diff {} callNew = .ok d ∧
        (Machine.start {} callOld callNew).progress = .ok (goals.map .goal ++ [.done d]) ∧
        goals.filter Goal.isFinal = d.edits.map Goal.ofEdit ∧ goals.length ≤ 15 := by
  have ho : callOld.WellSized := by
    simp [callOld, Tree.wellSized_branch, Tree.wellSized_sequence, Tree.wellSized_leaf]
  have hn : callNew.WellSized := by
    simp [callNew, Tree.wellSized_branch, Tree.wellSized_sequence, Tree.wellSized_leaf]
  obtain ⟨goals, d, hd, hp, -, he, -, hl⟩ := trace_follows_diff {} ho hn
  exact ⟨ho, hn, goals, d, hd, hp, he, hl⟩

end TreeDiff
