import TreeDiff.Proofs.Traces

/-!
# Slices of a run

A run may be cut into slices of any lengths. Steps taken in two slices are the steps taken at once,
and what is left of the trace after `n` steps is the trace without its first `n` goals. So the
length of the trace decides when a bounded run is done, its entries are the goals on top before each
step, and no way of getting at the diff makes a difference.
-/

set_option autoImplicit false

namespace TreeDiff

namespace Machine

variable {l : Limits} {d : Diff}

theorem advanceBy_over {m : Machine} (h : m.advance = .ok none) (n : Nat) :
    m.advanceBy n = .ok m := by
  cases n with
  | zero => rfl
  | succ n => rw [advanceBy, h]; rfl

theorem advanceBy_add (k n : Nat) (m : Machine) :
    m.advanceBy (k + n) = m.advanceBy k >>= advanceBy n := by
  induction k generalizing m with
  | zero => rw [Nat.zero_add]; rfl
  | succ k ih =>
    rw [Nat.succ_add, advanceBy, advanceBy]
    cases hs : m.advance with
    | error e => rfl
    | ok o =>
      cases o with
      | none => exact (advanceBy_over hs n).symm
      | some m' => exact ih m'

theorem runFor_add {k : Nat} {m m' : Machine} (h : m.advanceBy k = .ok m') (n : Nat) :
    m.runFor (k + n) = m'.runFor n := by
  rw [runFor, advanceBy_add, h]
  rfl

theorem nextGoal_eq {m : Machine} (h : m.OnCourse l [.diff d]) :
    m.nextGoal? = m.trace.head? := by
  rcases advance_onCourse h with ⟨ha, -⟩ | ⟨goal, agenda, m', ha, hs, -⟩
  · rw [nextGoal?, ha, trace_nil ha]
    rfl
  · rw [nextGoal?, ha, advance_trace ha hs]
    rfl

theorem agenda_nil_iff {m : Machine} (h : m.OnCourse l [.diff d]) :
    m.agenda = [] ↔ m.trace = [] := by
  rcases advance_onCourse h with ⟨ha, -⟩ | ⟨goal, agenda, m', ha, hs, -⟩
  · simp [ha, trace_nil ha]
  · simp [ha, advance_trace ha hs]

theorem advanceBy_trace {m m' : Machine} (h : m.OnCourse l [.diff d]) {n : Nat}
    (hn : m.advanceBy n = .ok m') :
    m'.trace = m.trace.drop n ∧ m'.steps = m.steps + min n m.trace.length := by
  induction n generalizing m with
  | zero =>
    cases hn
    simp
  | succ n ih =>
    rcases advance_onCourse h with ⟨ha, -⟩ | ⟨goal, agenda, m₁, ha, hs, h₁, hk⟩
    · rw [advanceBy_over (advance_done ha)] at hn
      cases hn
      simp [trace_nil ha]
    · rw [advanceBy, hs] at hn
      obtain ⟨ht, hc⟩ := ih h₁ hn
      rw [ht, hc, hk, advance_trace ha hs, List.drop_succ_cons, List.length_cons]
      exact ⟨rfl, by omega⟩

/-- A bounded run is done when it has as many steps as the trace has goals; otherwise the rest of
the trace is left. -/
theorem runFor_eq {m : Machine} (h : m.OnCourse l [.diff d]) (n : Nat) :
    ∃ m', m.advanceBy n = .ok m' ∧ m'.OnCourse l [.diff d] ∧ m'.trace = m.trace.drop n ∧
      m'.steps = m.steps + min n m.trace.length ∧
      m.runFor n = .ok (if m.trace.length ≤ n then .done d else .pending m') := by
  obtain ⟨m', hn, h', hr⟩ := runFor_onCourse h n
  obtain ⟨ht, hc⟩ := advanceBy_trace h hn
  refine ⟨m', hn, h', ht, hc, ?_⟩
  rw [hr]
  simp only [agenda_nil_iff h', ht, List.drop_eq_nil_iff]

theorem runFor_done_iff {m : Machine} (h : m.OnCourse l [.diff d]) {n : Nat} {d' : Diff} :
    m.runFor n = .ok (.done d') ↔ m.trace.length ≤ n ∧ d' = d := by
  obtain ⟨m', -, -, -, -, hr⟩ := runFor_eq h n
  rw [hr]
  by_cases hn : m.trace.length ≤ n
  · simp [hn, eq_comm]
  · simp [hn]

theorem runFor_pending {m m' : Machine} (h : m.OnCourse l [.diff d]) {n : Nat}
    (hr : m.runFor n = .ok (.pending m')) :
    m.advanceBy n = .ok m' ∧ m'.OnCourse l [.diff d] ∧ m'.steps = m.steps + n := by
  obtain ⟨m₁, hn, h₁, -, hc, he⟩ := runFor_eq h n
  rw [hr] at he
  by_cases hl : m.trace.length ≤ n
  · rw [if_pos hl] at he
    cases he
  · rw [if_neg hl] at he
    cases he
    exact ⟨hn, h₁, by omega⟩

theorem runFor_goal {m : Machine} (h : m.OnCourse l [.diff d]) {i : Nat}
    (hi : i < m.trace.length) :
    ∃ m', m.runFor i = .ok (.pending m') ∧ m'.nextGoal? = some m.trace[i] := by
  obtain ⟨m', -, h', ht, -, hr⟩ := runFor_eq h i
  refine ⟨m', ?_, ?_⟩
  · rw [hr, if_neg (Nat.not_le.mpr hi)]
  · rw [nextGoal_eq h', ht, List.head?_drop, List.getElem?_eq_getElem hi]

inductive Delivers (m : Machine) (d : Diff) : Prop
  | step : m.step = .ok (.done d) → Delivers m d
  | runFor (n : Nat) : m.runFor n = .ok (.done d) → Delivers m d
  | run : m.run = .ok d → Delivers m d
  | observe (m' : Option Machine) : m.observe = .ok (.done d, m') → Delivers m d

theorem delivers_onCourse {m : Machine} (h : m.OnCourse l [.diff d]) {d' : Diff}
    (hd : m.Delivers d') : d' = d := by
  cases hd with
  | step hs =>
    rw [step_eq] at hs
    exact ((runFor_done_iff h).mp hs).2
  | runFor n hs => exact ((runFor_done_iff h).mp hs).2
  | run hs =>
    rw [run_onCourse h] at hs
    cases hs
    rfl
  | observe m' hs =>
    rcases observe_onCourse h with ⟨-, ho⟩ | ⟨goal, m₁, -, ho⟩
    · rw [ho] at hs
      cases hs
      rfl
    · rw [ho] at hs
      cases hs

end Machine

/-- From every state that a caller can hold, however it came there: a bounded run that is done stays
done and has the diff of an unbounded one; one that is not can be resumed, as if it had not been
stopped; one that takes a single step is a step, and one without any changes nothing. It is done
exactly when it has a step for every goal that an observer of the state is shown, and these are the
goals on top before each step; the observer then gets the diff, once. Whatever hands out a diff, it
is the one that the first state runs to. -/
theorem slices_agree {l : Limits} {old new : Tree} {m : Machine} (h : Reachable l old new m) :
    (∀ k d, m.runFor k = .ok (.done d) →
      (∀ n, m.runFor (k + n) = .ok (.done d)) ∧ m.run = .ok d) ∧
    (∀ k m', m.runFor k = .ok (.pending m') →
      (∀ n, m'.runFor n = m.runFor (k + n)) ∧ m'.steps = m.steps + k ∧ m'.run = m.run) ∧
    m.step = m.runFor 1 ∧ (m.agenda ≠ [] → m.runFor 0 = .ok (.pending m)) ∧
    (∃ (goals : List Goal) (d : Diff), m.run = .ok d ∧
      (∀ k, m.observer.answers (goals.length + 1 + k) =
        .ok (goals.map (some ∘ .goal) ++ some (.done d) :: List.replicate k none)) ∧
      (∀ k, (∃ d', m.runFor k = .ok (.done d')) ↔ goals.length ≤ k) ∧
      ∀ i (hi : i < goals.length),
        ∃ m', m.runFor i = .ok (.pending m') ∧ m'.nextGoal? = some goals[i]) ∧
    m.run = (Machine.start l old new).run ∧
    ∀ d, m.Delivers d → (Machine.start l old new).run = .ok d := by
  have hm := reachable_onCourse h
  have hr := Machine.run_onCourse hm
  have hs := run_start l old new
  refine ⟨?_, ?_, m.step_eq, ?_, ⟨m.trace, _, hr, Observer.answers_eq hm, ?_, fun i hi => ?_⟩,
    hr.trans hs.symm, ?_⟩
  · intro k d hk
    obtain ⟨hl, rfl⟩ := (Machine.runFor_done_iff hm).mp hk
    exact ⟨fun n => (Machine.runFor_done_iff hm).mpr ⟨Nat.le_add_right_of_le hl, rfl⟩, hr⟩
  · intro k m' hk
    obtain ⟨hk, hm', hc⟩ := Machine.runFor_pending hm hk
    exact ⟨fun n => (Machine.runFor_add hk n).symm, hc, (Machine.run_onCourse hm').trans hr.symm⟩
  · intro hn
    exact (Machine.outcome_onCourse hm).trans (by rw [if_neg hn])
  · intro k
    simp [Machine.runFor_done_iff hm]
  · exact Machine.runFor_goal hm hi
  · intro d hd
    rw [hs, Machine.delivers_onCourse hm hd]

def callDiff : Diff :=
  .merge ⟨"call", none⟩ ⟨"call", none⟩ (.branch
    [.edit (.replace (.leaf "name" "f") (.leaf "name" "g")),
      .merge ⟨"arguments", none⟩ ⟨"arguments", none⟩ (.sequence
        [.edit (.delete (.leaf "name" "x")), .merge ⟨"name", none⟩ ⟨"name", none⟩ (.leaf "y"),
          .edit (.insert (.leaf "number" "1"))])])

/-- Five goals are left. After two of them the state can be resumed, and after five it is done. -/
theorem callHalfDone_slices :
    Reachable {} callOld callNew callHalfDone ∧
      (∃ m', callHalfDone.runFor 2 = .ok (.pending m') ∧ m'.steps = 8 ∧
        (∀ n, m'.runFor n = callHalfDone.runFor (2 + n)) ∧ m'.run = callHalfDone.run) ∧
      (∀ n, callHalfDone.runFor (5 + n) = .ok (.done callDiff)) ∧
      (Machine.start {} callOld callNew).run = .ok callDiff := by
  have hr : Reachable {} callOld callNew callHalfDone := .runFor 6 .start rfl
  have h2 : ∃ m', callHalfDone.runFor 2 = .ok (.pending m') := ⟨_, rfl⟩
  have h5 : callHalfDone.runFor 5 = .ok (.done callDiff) := by
    with_unfolding_all rfl
  obtain ⟨hd, hp, -, -, -, -, ha⟩ := slices_agree hr
  obtain ⟨m', h2⟩ := h2
  obtain ⟨hn, hc, hm⟩ := hp 2 m' h2
  exact ⟨hr, ⟨m', h2, hc, hn, hm⟩, (hd 5 callDiff h5).1, ha callDiff (.runFor 5 h5)⟩

end TreeDiff
