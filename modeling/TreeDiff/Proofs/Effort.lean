import Mathlib.Order.Monotone.Defs
import TreeDiff.Proofs.Charges

/-!
# What effort buys

An estimate adds up the charges of its two trees from the first one on, as many of them as the
effort allows. Together the charges never come to more than the two trees are large. So more effort
never lowers an estimate, and effort for all nodes but one of the two trees is as good as any more.
-/

set_option autoImplicit false

namespace TreeDiff.Tree

theorem total_listCharges_le {ts us : List Tree}
    (h : Across (fun t u => total (charges t u) ≤ t.size + u.size) ts us) :
    total (listCharges ts us) ≤ total (ts.map size) + total (us.map size) := by
  induction ts generalizing us with
  | nil => simp [listCharges]
  | cons t ts ih =>
    cases us with
    | nil => simp [listCharges]
    | cons u us =>
      have hfirst := h.head
      have hrest := ih h.tail
      rw [listCharges, total_append, List.map_cons, List.map_cons, total_cons, total_cons]
      omega

/-- No pair charges more than its two trees are large. -/
theorem total_charges_le {t u : Tree} (ht : t.WellSized) (hu : u.WellSized) :
    total (charges t u) ≤ t.size + u.size := by
  induction t, u using pair_induction with
  | unlike t u h =>
    rw [charges_unlike h]
    exact Nat.le_refl _
  | leaf t u h hl =>
    have := ht.size_eq
    have := hu.size_eq
    rw [charges_leaf h hl, total_cons, total_nil]
    split <;> omega
  | node t u h hl ih =>
    have hp : Across (fun x y => total (charges x y) ≤ x.size + y.size) t.form.parts u.form.parts :=
      fun x hx y hy => ih x hx y hy (ht.part hx) (hu.part hy)
    have hs := total_listCharges_le hp.slots
    have hc := total_listCharges_le hp.children
    rw [charges_node h hl, total_cons, total_append, ht.size_split, hu.size_split]
    omega

theorem estimate_mono (t u : Tree) : Monotone (t.estimate u) := by
  intro m n h
  rw [estimate_eq, estimate_eq]
  exact total_sublist (List.take_sublist_take_left h)

theorem length_charges_lt_size {t u : Tree} (ht : t.WellSized) (hu : u.WellSized) :
    (charges t u).length < t.size + u.size := by
  rw [← ht.nodes_eq, ← hu.nodes_eq]
  exact length_charges_lt t u

/-- Whatever the effort, an estimate is the sum of the first so many charges. There are fewer of
them than the two trees have nodes, and they come to no more than that number; so the estimate grows
with the effort, stays within both sizes, and stands still once the effort reaches the number of
nodes less one. -/
theorem estimate_adds_charges {t u : Tree} (ht : t.WellSized) (hu : u.WellSized) :
    (∀ effort, t.estimate u effort = total ((charges t u).take effort)) ∧
      (charges t u).length ≤ t.size + u.size - 1 ∧ total (charges t u) ≤ t.size + u.size ∧
      Monotone (t.estimate u) ∧ (∀ effort, t.estimate u effort ≤ t.size + u.size) ∧
      ∀ effort, t.size + u.size - 1 ≤ effort → t.estimate u effort = total (charges t u) := by
  have hlen := length_charges_lt_size ht hu
  have hsum := total_charges_le ht hu
  refine ⟨estimate_eq t u, by omega, hsum, estimate_mono t u, ?_, ?_⟩
  · intro effort
    rw [estimate_eq]
    exact (total_sublist (List.take_sublist effort _)).trans hsum
  · intro effort h
    rw [estimate_eq, List.take_of_length_le (by omega)]

/-- A function that has got a name and one more statement, and another argument in the first one. -/
theorem named_function_estimates :
    let t : Tree := .container "function" none [.leaf "name" "x"]
    let u : Tree := .container "function" (some (.leaf "name" "f"))
      [.leaf "name" "y", .branch "call" [.leaf "name" "g"]]
    t.WellSized ∧ u.WellSized ∧ charges t u = [0, 1, 2, 2] ∧
      (List.range 6).map (t.estimate u) = [0, 0, 1, 3, 5, 5] ∧
      (charges t u).length ≤ t.size + u.size - 1 ∧ total (charges t u) ≤ t.size + u.size ∧
      Monotone (t.estimate u) ∧ (∀ effort, t.estimate u effort ≤ 7) ∧
      ∀ effort, 6 ≤ effort → t.estimate u effort = 5 := by
  intro t u
  have ht : t.WellSized := by simp [t, wellSized_container, wellSized_leaf]
  have hu : u.WellSized := by simp [u, wellSized_container, wellSized_branch, wellSized_leaf]
  obtain ⟨-, hlen, hsum, hmono, hle, hample⟩ := estimate_adds_charges ht hu
  exact ⟨ht, hu, by decide, by decide, hlen, hsum, hmono, hle, hample⟩

end TreeDiff.Tree
