import TreeDiff.Proofs.Comparison

/-!
# Which trees are matched

Two sequences and two containers of one category always have a plan, and it aligns their children.
Two leaves of one category have one when their labels agree, and two branches when they have as many
children; it pairs them by position. No other trees have a plan, and what has none is replaced.
-/

set_option autoImplicit false

namespace TreeDiff.Plan

def Unmatched (a b : Tree) : Prop :=
  a.category ≠ b.category ∨ a.shape ≠ b.shape ∨
    (∃ x y, a.form = .leaf x ∧ b.form = .leaf y ∧ x ≠ y) ∨
    ∃ xs ys, a.form = .branch xs ∧ b.form = .branch ys ∧ xs.length ≠ ys.length

theorem comparable_iff {a b : Tree} : a.comparable b = true ↔ a.category = b.category :=
  beq_iff_eq

theorem aligning_cases {a b : Tree} {plan : Plan} (h : aligning a b = some plan) :
    plan.children = .aligned a.form.children b.form.children ∧
      (b.form.shape = .sequence ∨ b.form.shape = .container) := by
  unfold aligning at h
  split at h
  case isFalse => cases h
  case isTrue =>
    split at h
    · next xs ys ha hb =>
      cases h
      rw [ha, hb]
      exact ⟨rfl, .inl rfl⟩
    · next s xs r ys ha hb =>
      cases h
      rw [ha, hb]
      exact ⟨rfl, .inr rfl⟩
    · cases h

theorem children_of_byPosition {slot : Option Goal} {xs ys : List Tree} {plan : Plan}
    (h : byPosition slot xs ys = some plan) :
    plan.children = .positional (List.zipWith .compare xs ys) := by
  unfold byPosition at h
  split at h <;> cases h
  rfl

theorem zipping_children {a b : Tree} {plan : Plan} (h : zipping a b = some plan) :
    plan.children = .positional (List.zipWith .compare a.form.children b.form.children) := by
  unfold zipping at h
  split at h
  case isFalse => cases h
  case isTrue =>
    split at h
    · next ha hb =>
      split at h <;> cases h
      rw [ha, hb]
      rfl
    · next ha hb => rw [ha, hb]; exact children_of_byPosition h
    · next ha hb => rw [ha, hb]; exact children_of_byPosition h
    · next ha hb => rw [ha, hb]; exact children_of_byPosition h
    · next ha hb => rw [ha, hb]; exact children_of_byPosition h
    · cases h

/-- What a list holds is aligned whenever the two trees are of one category and one shape. -/
theorem aligning_ne_none {a b : Tree} (hc : a.category = b.category)
    (hs : a.form.shape = b.form.shape)
    (hl : b.form.shape = .sequence ∨ b.form.shape = .container) : aligning a b ≠ none := by
  unfold aligning
  rw [if_pos (comparable_iff.mpr hc)]
  cases ha : a.form <;> cases hb : b.form <;> simp_all [Form.shape]

/-- A plan aligns the children of sequences and containers, and pairs those of leaves and branches
by position. -/
theorem matching_cases {a b : Tree} {plan : Plan} (h : matching a b = some plan) :
    (aligning a b = some plan ∧ plan.children = .aligned a.form.children b.form.children ∧
      (b.form.shape = .sequence ∨ b.form.shape = .container)) ∨
    (aligning a b = none ∧ zipping a b = some plan ∧
      plan.children = .positional (List.zipWith .compare a.form.children b.form.children) ∧
      (b.form.shape = .leaf ∨ b.form.shape = .branch)) := by
  have hm := matching_matches h
  unfold matching at h
  cases ha : aligning a b with
  | some plan' =>
    rw [ha] at h
    cases h
    exact .inl ⟨rfl, aligning_cases ha⟩
  | none =>
    rw [ha] at h
    refine .inr ⟨rfl, h, zipping_children h, ?_⟩
    have hn := mt (aligning_ne_none hm.category hm.shape) (not_not_intro ha)
    cases hb : b.form.shape with
    | leaf => exact .inl rfl
    | branch => exact .inr rfl
    | sequence => exact absurd (.inl hb) hn
    | container => exact absurd (.inr hb) hn

theorem matching_eq_none {a b : Tree} : matching a b = none ↔ Unmatched a b := by
  unfold matching aligning zipping Unmatched Tree.shape
  by_cases hc : a.category = b.category
  · rw [if_pos (comparable_iff.mpr hc), if_pos (comparable_iff.mpr hc)]
    cases ha : a.form <;> cases hb : b.form <;> simp [hc, Form.shape, byPosition]
  · have hn : a.comparable b ≠ true := mt comparable_iff.mp hc
    simp [hc, hn]

end TreeDiff.Plan
