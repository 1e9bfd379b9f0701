import TreeDiff.Proofs.Coverage

/-!
# The length of the agenda

No agenda is longer than its two inputs have nodes. Most instructions account for a node of their
own. Those that make a list need not, for both lists may be empty; but each of them stands on the
merge that takes the list, and a merge accounts for two nodes.
-/

set_option autoImplicit false

namespace TreeDiff

namespace Instruction

def room (i : Instruction) : Nat := i.coverage.old + i.coverage.new

def makesList : Instruction → Bool
  | pursue (.align _ _) | collect _ => true
  | _ => false

def takesList : Instruction → Bool
  | merge _ _ _ .list => true
  | _ => false

theorem room_pos {i : Instruction} (hs : i.Sound) (hm : i.makesList = false) : 0 < i.room := by
  cases i with
  | pursue goal =>
    cases goal with
    | align xs ys => cases hm
    | compare a b | zip a b | replace a b =>
      have ha := (hs a (by simp [Goal.trees])).size_pos
      simp only [room, coverage, Goal.coverage]
      omega
    | delete a => exact (hs a (by simp [Goal.trees])).size_pos
    | insert b =>
      have hb := (hs b (by simp [Goal.trees])).size_pos
      simp only [room, coverage, Goal.coverage]
      omega
  | merge old new slotted arity => exact Nat.two_pos
  | collect n => cases hm

theorem room_of_takesList {i : Instruction} (h : i.takesList = true) : i.room = 2 := by
  cases i with
  | merge old new slotted arity => rfl
  | pursue goal => cases h
  | collect n => cases h

end Instruction

def Backed : List Instruction → Prop
  | [] => True
  | i :: agenda =>
    (i.makesList = true → ∃ j ∈ agenda.head?, j.takesList = true) ∧ Backed agenda

theorem backed_cons {i : Instruction} {agenda : List Instruction} (hi : i.makesList = false)
    (h : Backed agenda) : Backed (i :: agenda) :=
  ⟨fun hm => absurd hm (by simp [hi]), h⟩

theorem backed_append {xs ys : List Instruction} (hx : ∀ i ∈ xs, i.makesList = false)
    (hy : Backed ys) : Backed (xs ++ ys) := by
  induction xs with
  | nil => exact hy
  | cons i xs ih =>
    obtain ⟨hi, hx⟩ := List.forall_mem_cons.mp hx
    exact backed_cons hi (ih hx)

/-- A list and the merge that takes it share the two nodes of the merge; all others have one of
their own. -/
theorem length_le_room : {agenda : List Instruction} → Backed agenda →
    (∀ i ∈ agenda, i.Sound) → agenda.length ≤ total (agenda.map Instruction.room)
  | [], _, _ => Nat.le_refl _
  | i :: agenda, hb, hs => by
    obtain ⟨hi, hs⟩ := List.forall_mem_cons.mp hs
    cases hm : i.makesList with
    | false =>
      have hr := Instruction.room_pos hi hm
      have ih := length_le_room hb.2 hs
      rw [List.length_cons, List.map_cons, total_cons]
      omega
    | true =>
      obtain ⟨j, hj, ht⟩ := hb.1 hm
      cases agenda with
      | nil => cases hj
      | cons k agenda =>
        cases hj
        have hr := Instruction.room_of_takesList ht
        have ih := length_le_room hb.2.2 (List.forall_mem_cons.mp hs).2
        simp only [List.length_cons, List.map_cons, total_cons]
        omega

theorem plan_backed {plan : Plan} {a b : Tree} (hp : plan.Matches a b)
    {agenda : List Instruction} (h : Backed agenda) : Backed (plan.agenda a b ++ agenda) := by
  rw [Plan.agenda, List.append_assoc]
  apply backed_append
  · intro i hi
    obtain ⟨goal, hg, rfl⟩ := List.mem_map.mp hi
    rw [hp.slot, Option.mem_toList] at hg
    cases hs : a.form.slot? <;> cases hr : b.form.slot? <;> rw [hs, hr] at hg <;> cases hg <;> rfl
  · rcases hp.children with ⟨hc, -⟩ | ⟨hc, -⟩
    · rw [hc]
      exact ⟨fun _ => ⟨_, rfl, rfl⟩, backed_cons rfl h⟩
    · rw [hc]
      dsimp only
      rw [List.append_assoc]
      refine backed_append ?_ (backed_cons rfl h)
      intro i hi
      obtain ⟨goal, hg, rfl⟩ := List.mem_map.mp hi
      rw [← List.map_uncurry_zip_eq_zipWith] at hg
      obtain ⟨p, -, rfl⟩ := List.mem_map.mp hg
      rfl

theorem unfold_backed {l : Limits} {goal : Goal} {work agenda : List Instruction}
    (hw : goal.unfold l = .inl work) (h : Backed (.pursue goal :: agenda)) :
    Backed (work ++ agenda) := by
  cases Goal.unfolds hw with
  | aligned hp => exact plan_backed (Plan.aligning_matches hp) h.2
  | unaligned => exact backed_cons rfl h.2
  | zipped hp => exact plan_backed (Plan.zipping_matches hp) h.2
  | unzipped => exact backed_cons rfl h.2
  | align =>
    rw [List.append_assoc]
    refine backed_append ?_ ⟨fun _ => h.1 rfl, h.2⟩
    intro i hi
    obtain ⟨e, -, rfl⟩ := List.mem_map.mp hi
    cases e <;> rfl

theorem tick_backed {l : Limits} {s s' : List Instruction × List Value} (ht : Tick l s s')
    (h : Backed s.1) : Backed s'.1 := by
  cases ht with
  | work hw => exact unfold_backed hw h
  | edit he => exact h.2
  | assembly hi he => exact h.2

theorem ticks_backed {l : Limits} {s s' : List Instruction × List Value} (ht : Ticks l s s')
    (h : Backed s.1) : Backed s'.1 := by
  induction ht with
  | refl => exact h
  | tail _ ht ih => exact tick_backed ht ih

theorem reachable_backed {l : Limits} {old new : Tree} {m : Machine}
    (h : Reachable l old new m) : Backed m.agenda := by
  refine (reachable_induction (P := fun m => Backed m.agenda) (backed_cons rfl trivial) ?_ h).2
  intro m₁ m₂ hm hb hs
  exact ticks_backed (Machine.advance_ticks hm hs) hb

theorem room_le_covered (agenda : List Instruction) (values : List Value) :
    total (agenda.map Instruction.room) ≤
      (covered agenda values).old + (covered agenda values).new := by
  have hsum : total (agenda.map Instruction.room) =
      (agenda.map Instruction.coverage).sum.old + (agenda.map Instruction.coverage).sum.new := by
    induction agenda with
    | nil => rfl
    | cons i agenda ih =>
      rw [List.map_cons, total_cons, ih, List.map_cons, List.sum_cons, Instruction.room]
      exact Nat.add_add_add_comm _ _ _ _
  have hadd (c d : Coverage) : (c + d).old = c.old + d.old ∧ (c + d).new = c.new + d.new :=
    ⟨rfl, rfl⟩
  rw [hsum, covered, (hadd _ _).1, (hadd _ _).2]
  omega

theorem length_le_sizes {old new : Tree} {s : List Instruction × List Value} (hb : Backed s.1)
    (h : Accounts old new s) : s.1.length ≤ old.size + new.size := by
  have hr := room_le_covered s.1 s.2
  rw [h.covered] at hr
  exact (length_le_room hb h.sound).trans hr

/-- Whatever state a caller holds, it has no more instructions pending than the two inputs have
nodes together, and neither has the agenda after any instruction that follows. -/
theorem reachable_pending {l : Limits} {old new : Tree} {m : Machine} (ho : old.WellSized)
    (hn : new.WellSized) (h : Reachable l old new m) :
    m.pending ≤ old.size + new.size ∧
      ∀ agenda values, Ticks l (m.agenda, m.values) (agenda, values) →
        agenda.length ≤ old.size + new.size := by
  have hb := reachable_backed h
  have ha := reachable_accounts ho hn h
  refine ⟨length_le_sizes hb ha, ?_⟩
  intro agenda values ht
  exact length_le_sizes (ticks_backed ht hb) (ticks_accounts ht ha)

/-- Where a function without a body gets a name, the bound is met after one step: the name is to be
inserted, two empty lists are to be aligned and both go into a merge. -/
theorem named_function_pending :
    let old : Tree := .container "function" none []
    let new : Tree := .container "function" (some (.leaf "name" "f")) []
    let m : Machine :=
      ⟨{}, [.pursue (.insert (.leaf "name" "f")), .pursue (.align [] []),
        .merge old new true .list], [], 1⟩
    old.WellSized ∧ new.WellSized ∧ Reachable {} old new m ∧ m.pending = 3 ∧
      m.pending ≤ old.size + new.size ∧ old.size + new.size = 3 := by
  intro old new m
  have ho : old.WellSized := by simp [old, Tree.wellSized_container]
  have hn : new.WellSized := by simp [new, Tree.wellSized_container, Tree.wellSized_leaf]
  have hr : Reachable {} old new m := .step .start rfl
  exact ⟨ho, hn, hr, rfl, (reachable_pending ho hn hr).1, rfl⟩

end TreeDiff
