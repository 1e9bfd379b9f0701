import TreeDiff.Proofs.Comparison
import TreeDiff.Proofs.Sizes

/-!
# Equality and fingerprints

Trees are equal exactly when they are the same tree without fingerprints. So whatever looks at
categories, sizes, forms and labels only, and compares trees by their equality, cannot tell a tree
from an equal one.
-/

set_option autoImplicit false

namespace TreeDiff.Tree

theorem bare_eq (t : Tree) : t.bare = ⟨⟨t.category, none⟩, t.size, t.form.map bare⟩ := by
  rw [bare, fold_eq]

@[simp] theorem bare_category (t : Tree) : t.bare.category = t.category := by
  rw [bare_eq]
  rfl

@[simp] theorem bare_size (t : Tree) : t.bare.size = t.size := by
  rw [bare_eq]

@[simp] theorem bare_form (t : Tree) : t.bare.form = t.form.map bare := by
  rw [bare_eq]

@[simp] theorem bare_shape (t : Tree) : t.bare.shape = t.shape := by
  rw [shape, bare_form, Form.shape_map, ← shape]

@[simp] theorem bare_fingerprint (t : Tree) : t.bare.fingerprint = none := by
  rw [bare_eq]
  rfl

/-- What holds of a tree when it holds of all its parts holds of every tree. -/
theorem induction_parts {P : Tree → Prop}
    (step : ∀ t, (∀ u ∈ t.form.parts, P u) → P t) (t : Tree) : P t := by
  apply step
  intro u hu
  have := nodes_lt_of_part hu
  exact induction_parts step u
termination_by t.nodes

@[simp] theorem bare_bare (t : Tree) : t.bare.bare = t.bare := by
  induction t using induction_parts with
  | step t ih =>
    have hf : (t.form.map bare).map bare = t.form.map bare := by
      rw [Form.map_map]
      exact Form.map_congr ih
    rw [bare_eq t.bare, bare_category, bare_size, bare_form, hf, ← bare_eq]

theorem bare_eq_bare_iff {t u : Tree} :
    t.bare = u.bare ↔
      t.category = u.category ∧ t.size = u.size ∧ t.form.map bare = u.form.map bare := by
  rw [bare_eq, bare_eq]
  simp

mutual

theorem same_iff_bare (t u : Tree) : same t u = true ↔ t.bare = u.bare := by
  rw [bare_eq_bare_iff]
  match t, u with
  | ⟨tag, n, form⟩, ⟨tag', n', form'⟩ =>
    match form, form' with
    | .leaf x, .leaf y => simp [same, Form.map, category, and_assoc, and_left_comm]
    | .sequence xs, .sequence ys =>
      simp [same, Form.map, category, sameAll_iff_bare xs ys, and_assoc, and_left_comm]
    | .container none xs, .container none ys =>
      simp [same, Form.map, category, sameAll_iff_bare xs ys, and_assoc, and_left_comm]
    | .container (some s) xs, .container (some r) ys =>
      simp [same, Form.map, category, same_iff_bare s r, sameAll_iff_bare xs ys, and_assoc,
        and_left_comm]
    | .branch xs, .branch ys =>
      simp [same, Form.map, category, sameAll_iff_bare xs ys, and_assoc, and_left_comm]
    | .container none _, .container (some _) _ | .container (some _) _, .container none _
    | .leaf _, .sequence _ | .leaf _, .container _ _ | .leaf _, .branch _
    | .sequence _, .leaf _ | .sequence _, .container _ _ | .sequence _, .branch _
    | .container _ _, .leaf _ | .container _ _, .sequence _ | .container _ _, .branch _
    | .branch _, .leaf _ | .branch _, .sequence _ | .branch _, .container _ _ =>
      simp [same, Form.map]

theorem sameAll_iff_bare (ts us : List Tree) :
    sameAll ts us = true ↔ ts.map bare = us.map bare := by
  match ts, us with
  | [], [] | [], _ :: _ | _ :: _, [] => simp [sameAll]
  | t :: ts, u :: us => simp [sameAll, same_iff_bare t u, sameAll_iff_bare ts us]

end

theorem beq_iff_bare {t u : Tree} : (t == u) = true ↔ t.bare = u.bare := same_iff_bare t u

theorem beq_eq_bare (t u : Tree) : (t == u) = (t.bare == u.bare) := by
  rw [Bool.eq_iff_iff, beq_iff_bare, beq_iff_bare, bare_bare, bare_bare]

def SameKind (t u : Tree) : Prop := t.category = u.category ∧ t.shape = u.shape

instance (t u : Tree) : Decidable (SameKind t u) :=
  inferInstanceAs (Decidable (t.category = u.category ∧ t.shape = u.shape))

theorem SameKind.symm {t u : Tree} (h : t.SameKind u) : u.SameKind t :=
  ⟨h.1.symm, h.2.symm⟩

theorem SameKind.trans {t u v : Tree} (h : t.SameKind u) (h' : u.SameKind v) : t.SameKind v :=
  ⟨h.1.trans h'.1, h.2.trans h'.2⟩

theorem SameKind.of_bare {t u : Tree} (h : t.bare = u.bare) : t.SameKind u := by
  exact ⟨by simpa using congrArg category h, by simpa using congrArg shape h⟩

theorem bare_eq_of_forms {t u : Tree} (ht : t.WellSized) (hu : u.WellSized)
    (hc : t.category = u.category) (hf : t.form.map bare = u.form.map bare) :
    t.bare = u.bare := by
  have hs : t.form.parts.map size = u.form.parts.map size := by
    have := congrArg (fun form => form.parts.map size) hf
    simpa [Function.comp_def] using this
  refine bare_eq_bare_iff.mpr ⟨hc, ?_, hf⟩
  rw [ht.size_eq, hu.size_eq, hs]

/-- Nodes of one kind are equal when their labels, their slots and their children are. -/
theorem bare_eq_iff_contents {t u : Tree} (ht : t.WellSized) (hu : u.WellSized)
    (h : t.SameKind u) :
    t.bare = u.bare ↔ t.form.label? = u.form.label? ∧
      t.form.slot?.map bare = u.form.slot?.map bare ∧
      t.form.children.map bare = u.form.children.map bare := by
  constructor
  · intro hb
    have hf := (bare_eq_bare_iff.mp hb).2.2
    exact ⟨by simpa using congrArg Form.label? hf, by simpa using congrArg Form.slot? hf,
      by simpa using congrArg Form.children hf⟩
  · rintro ⟨hl, hs, hc⟩
    have hshape : t.form.shape = u.form.shape := h.2
    apply bare_eq_of_forms ht hu h.1
    apply Form.eq_of_contents <;> simp [hshape, hl, hs, hc]

@[simp] theorem comparable_bare (t u : Tree) : t.bare.comparable u.bare = t.comparable u := by
  simp [comparable]

@[simp] theorem equivalent_bare (t u : Tree) : t.bare.equivalent u.bare = t.equivalent u := by
  rw [equivalent, equivalent, comparable_bare, bare_form, bare_form]
  congr 1
  cases t.form with
  | container s xs =>
    cases u.form with
    | container r ys => cases s <;> cases r <;> simp [Form.map, ← beq_eq_bare]
    | _ => simp [Form.map]
  | _ => simp [Form.map]

end TreeDiff.Tree
