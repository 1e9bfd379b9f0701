import TreeDiff.Proofs.Marking

/-!
# One traversal with one stack

The traversal that gives a tree its fingerprints finds every node with just its ancestors on the
stack, and leaves the stack as it was; so the marked tree is what the recursion says. Equal trees
are marked alike, and a marked tree, which is equal to the one it was made from, is left as it is:
as long as a hasher that starts anew comes to the same digests as before.
-/

set_option autoImplicit false

namespace TreeDiff.Tree

def Makes (stack : List UInt64) (act : StateM Spot Tree) (t : Tree) : Prop :=
  ∃ v, t.fingerprint = some v ∧ ∀ sum, act.run ⟨stack, sum⟩ = pure (t, ⟨stack, sum + v⟩)

section

variable {acts : Tree → StateM Spot Tree} {f : Tree → Tree} {stack : List UInt64}

theorem run_mapM {ts : List Tree} (h : ∀ t ∈ ts, Makes stack (acts t) (f t))
    (sum : Fingerprint) :
    (ts.mapM acts).run ⟨stack, sum⟩ =
      pure (ts.map f, ⟨stack, ((ts.map f).filterMap fingerprint).foldl (· + ·) sum⟩) := by
  induction ts generalizing sum with
  | nil => rfl
  | cons t ts ih =>
    obtain ⟨⟨v, hv, ht⟩, h⟩ := List.forall_mem_cons.mp h
    simp [ht, ih h, hv]

theorem run_inOrder {form : Form Tree} (h : ∀ t ∈ form.parts, Makes stack (acts t) (f t))
    (sum : Fingerprint) :
    (form.map acts).inOrder.run ⟨stack, sum⟩ = pure (form.map f,
      ⟨stack, ((form.map f).parts.filterMap fingerprint).foldl (· + ·) sum⟩) := by
  have hchildren := run_mapM fun t ht => h t (Form.child_mem_parts ht)
  cases form with
  | leaf label => rfl
  | sequence ts | branch ts =>
    simp only [Form.children] at hchildren
    simp [Form.inOrder, Form.map, Form.parts, Form.slot?, Form.children, hchildren]
  | container slot ts =>
    simp only [Form.children] at hchildren
    cases slot with
    | none => simp [Form.inOrder, Form.map, Form.parts, Form.slot?, Form.children, hchildren]
    | some s =>
      obtain ⟨v, hv, hs⟩ := h s (Form.slot_mem_parts rfl)
      simp [Form.inOrder, Form.map, Form.parts, Form.slot?, Form.children, hchildren, hs, hv]

end

variable {δ : Type}

theorem tour_makes (H : Hasher δ) (span : Span) (t : Tree) (stack : List UInt64) :
    Makes stack (tour H span t) (t.fingerprintedBelow H span stack) := by
  induction t using induction_parts generalizing stack with
  | step t ih =>
    have hbelow := run_inOrder fun u hu => ih u hu (H.text t.category :: stack)
    rw [← fingerprintedBelow_form] at hbelow
    have hnode := (wellSized_fingerprintedBelow H span t stack).node_eq
    have htag : (t.fingerprintedBelow H span stack).tag =
        ⟨t.category, (t.fingerprintedBelow H span stack).fingerprint⟩ := by
      rw [← fingerprintedBelow_category H span t stack]
      rfl
    rw [htag, fingerprintedBelow_fingerprint] at hnode
    refine ⟨_, fingerprintedBelow_fingerprint H span t stack, fun sum => ?_⟩
    rw [tour, fold_eq, ← tour]
    simp only [StateT.run_bind, StateT.run_get, StateT.run_set, StateT.run_pure, pure_bind, hbelow,
      List.tail_cons, hnode]

theorem fingerprintedBy_eq (H : Hasher δ) (span : Span) (t : Tree) :
    t.fingerprintedBy H span = t.fingerprintedBelow H span [] := by
  obtain ⟨v, -, hrun⟩ := tour_makes H span t []
  rw [fingerprintedBy, hrun]
  rfl

/-- Whatever had come together before, the traversal makes the marked tree, and its stack is empty
again at the end. -/
theorem tour_eq (H : Hasher δ) (span : Span) (t : Tree) (sum : Fingerprint) :
    ∃ v, (t.fingerprintedBy H span).fingerprint = some v ∧
      (tour H span t).run ⟨[], sum⟩ = pure (t.fingerprintedBy H span, ⟨[], sum + v⟩) := by
  obtain ⟨v, hv, hrun⟩ := tour_makes H span t []
  rw [fingerprintedBy_eq]
  exact ⟨v, hv, hrun sum⟩

theorem wellSized_fingerprintedBy (H : Hasher δ) (span : Span) (t : Tree) :
    (t.fingerprintedBy H span).WellSized := by
  rw [fingerprintedBy_eq]
  exact wellSized_fingerprintedBelow H span t []

section

variable {δ' : Type} {H : Hasher δ} {H' : Hasher δ'} {t u : Tree}

theorem bare_fingerprintedBy (H : Hasher δ) (span : Span) (h : t.WellSized) :
    (t.fingerprintedBy H span).bare = t.bare := by
  rw [fingerprintedBy_eq]
  exact bare_fingerprintedBelow H span h []

theorem fingerprintedBy_beq (H : Hasher δ) (span : Span) (h : t.WellSized) :
    (t.fingerprintedBy H span == t) = true :=
  beq_iff_bare.mpr (bare_fingerprintedBy H span h)

/-- Equal trees are marked alike. -/
theorem fingerprintedBy_congr (hH : H.Alike H') (span : Span) (h : (t == u) = true) :
    t.fingerprintedBy H span = u.fingerprintedBy H' span := by
  rw [fingerprintedBy_eq, fingerprintedBy_eq, ← fingerprintedBelow_bare, beq_iff_bare.mp h,
    fingerprintedBelow_bare, fingerprintedBelow_alike hH]

/-- Marking changes nothing but the fingerprints, of which every node has one afterwards, and those
from before have no part in it. Marked again, with a hasher that comes to the same digests, the tree
stays as it is. -/
theorem fingerprinted_decorates (H : Hasher δ) (H' : Hasher δ') (hH : H.Alike H') (span : Span)
    (h : t.WellSized) :
    (∀ path, ((t.fingerprintedBy H span).follow path).map face = (t.follow path).map face) ∧
      (t.fingerprintedBy H span == t) = true ∧
      (∀ u ∈ (t.fingerprintedBy H span).subtrees, u.fingerprint.isSome = true) ∧
      (∀ u, (t == u) = true → t.fingerprintedBy H span = u.fingerprintedBy H' span) ∧
      (t.fingerprintedBy H span).fingerprintedBy H' span = t.fingerprintedBy H span := by
  have hbeq := fingerprintedBy_beq H span h
  refine ⟨faces_eq_of_bare (bare_fingerprintedBy H span h), hbeq, fun u hu => ?_,
    fun u hu => fingerprintedBy_congr hH span hu, ?_⟩
  · rw [fingerprintedBy_eq] at hu
    exact fingerprint_of_mem_subtrees hu
  · exact (fingerprintedBy_congr hH span (beq_iff_bare.mpr (beq_iff_bare.mp hbeq).symm)).symm

/-- A function that comes with a fingerprint of another making. -/
theorem named_function_decorates :
    let t : Tree :=
      (container "function" (some (leaf "name" "f")) [leaf "name" "x"]).withFingerprint .zero
    let marked := t.fingerprinted ⟨1, 2⟩
    Digest.hasher.Alike Digest.hasher ∧ t.WellSized ∧
      (marked.follow [1]).map face = some ("name", 1, .leaf "x") ∧ (marked == t) = true ∧
      (∀ u ∈ marked.subtrees, u.fingerprint.isSome = true) ∧
      marked = t.bare.fingerprinted ⟨1, 2⟩ ∧ marked.fingerprinted ⟨1, 2⟩ = marked := by
  intro t marked
  have hH : Digest.hasher.Alike Digest.hasher := ⟨fun _ => rfl, fun _ => rfl⟩
  have ht : t.WellSized :=
    wellSized_withFingerprint (by simp [wellSized_container, wellSized_leaf]) _
  obtain ⟨hfaces, heq, hall, hblind, hagain⟩ := fingerprinted_decorates _ _ hH ⟨1, 2⟩ ht
  exact ⟨hH, ht, hfaces [1], heq, hall, hblind _ (beq_iff_bare.mpr (bare_bare t).symm), hagain⟩

end

end TreeDiff.Tree
