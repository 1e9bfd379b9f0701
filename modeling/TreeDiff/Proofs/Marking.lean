import TreeDiff.Proofs.Equality
import TreeDiff.Tree.Gram

/-!
# Marking a tree

To give a tree its fingerprints, every node is taken apart and built anew. What is built is the same
tree, node by node, with a fingerprint at every node. The fingerprints that were there before are
not read, and of a hasher only its digests matter.
-/

set_option autoImplicit false

namespace TreeDiff

theorem Hasher.Alike.unit {δ δ' : Type} {H : Hasher δ} {H' : Hasher δ'} (h : H.Alike H')
    (seed : UInt64) : H.unit seed = H'.unit seed := by
  have hs : H.spread = H'.spread := by
    funext seed i
    rw [spread, spread, h.words]
  rw [Hasher.unit, Hasher.unit, hs]

namespace Tree

variable {δ : Type} {H : Hasher δ} {t u : Tree} {span : Span} {above : List UInt64}

def follow : Tree → List Nat → Option Tree
  | t, [] => some t
  | t, i :: path => t.form.parts[i]?.bind (follow · path)

theorem follow_cons (t : Tree) (i : Nat) (path : List Nat) :
    t.follow (i :: path) = t.form.parts[i]?.bind (follow · path) := rfl

def face (t : Tree) : String × Nat × Form Unit := (t.category, t.size, t.form.map fun _ => ())

@[simp] theorem face_bare (t : Tree) : t.bare.face = t.face := by
  rw [face, bare_category, bare_size, bare_form, Form.map_map]
  rfl

theorem follow_bare (t : Tree) (path : List Nat) :
    t.bare.follow path = (t.follow path).map bare := by
  induction path generalizing t with
  | nil => rfl
  | cons i path ih =>
    rw [follow_cons, follow_cons, bare_form, Form.parts_map, List.getElem?_map]
    cases t.form.parts[i]? with
    | none => rfl
    | some u => exact ih u

/-- Equal trees have the same nodes at the same places. -/
theorem faces_eq_of_bare (h : t.bare = u.bare) (path : List Nat) :
    (t.follow path).map face = (u.follow path).map face := by
  have hb := congrArg (fun v => (v.follow path).map face) h
  simpa [follow_bare, Option.map_map, Function.comp_def] using hb

def fingerprintedBelow (H : Hasher δ) (span : Span) : Tree → List UInt64 → Tree :=
  fold fun t below above =>
    let form := below.map (· (H.text t.category :: above))
    let sum := (form.parts.filterMap fingerprint).foldl (· + ·) (direction H span above t)
    node ⟨t.category, some sum⟩ form

theorem direction_congr (hc : t.category = u.category)
    (hp : t.form.parts.map category = u.form.parts.map category) (above : List UInt64) :
    direction H span above t = direction H span above u := by
  have hparts : t.form.parts.map (fun part => H.text part.category) =
      u.form.parts.map fun part => H.text part.category := by
    simpa [Function.comp_def] using congrArg (List.map H.text) hp
  rw [direction, direction, hc, hparts]

section

variable (H : Hasher δ) (span : Span) (t : Tree) (above : List UInt64)

theorem fingerprintedBelow_eq :
    t.fingerprintedBelow H span above =
      let form := t.form.map (·.fingerprintedBelow H span (H.text t.category :: above))
      node ⟨t.category, some ((form.parts.filterMap fingerprint).foldl (· + ·)
        (direction H span above t))⟩ form := by
  rw [fingerprintedBelow, fold_eq, Form.map_map]
  rfl

@[simp] theorem fingerprintedBelow_category :
    (t.fingerprintedBelow H span above).category = t.category := by
  rw [fingerprintedBelow_eq]
  rfl

theorem fingerprintedBelow_form :
    (t.fingerprintedBelow H span above).form =
      t.form.map (·.fingerprintedBelow H span (H.text t.category :: above)) := by
  rw [fingerprintedBelow_eq]
  rfl

theorem fingerprintedBelow_fingerprint :
    (t.fingerprintedBelow H span above).fingerprint =
      some (((t.fingerprintedBelow H span above).form.parts.filterMap fingerprint).foldl (· + ·)
        (direction H span above t)) := by
  rw [fingerprintedBelow_eq]
  rfl

theorem wellSized_fingerprintedBelow : (t.fingerprintedBelow H span above).WellSized := by
  induction t using induction_parts generalizing above with
  | step t ih =>
    rw [fingerprintedBelow_eq]
    apply wellSized_node
    intro u hu
    rw [Form.parts_map] at hu
    obtain ⟨v, hv, rfl⟩ := List.mem_map.mp hu
    exact ih v hv _

/-- What fingerprints a tree has is not looked at. -/
theorem fingerprintedBelow_bare :
    t.bare.fingerprintedBelow H span above = t.fingerprintedBelow H span above := by
  induction t using induction_parts generalizing above with
  | step t ih =>
    have hform : t.bare.form.map (·.fingerprintedBelow H span (H.text t.category :: above)) =
        t.form.map (·.fingerprintedBelow H span (H.text t.category :: above)) := by
      rw [bare_form, Form.map_map]
      exact Form.map_congr fun u hu => ih u hu _
    have hdirection : direction H span above t.bare = direction H span above t := by
      refine direction_congr (bare_category t) ?_ above
      simp [bare_form, Function.comp_def]
    rw [fingerprintedBelow_eq, fingerprintedBelow_eq, bare_category, hform, hdirection]

end

/-- Without its fingerprints, the marked tree is the tree. -/
theorem bare_fingerprintedBelow (H : Hasher δ) (span : Span) (h : t.WellSized)
    (above : List UInt64) : (t.fingerprintedBelow H span above).bare = t.bare := by
  induction t using induction_parts generalizing above with
  | step t ih =>
    apply bare_eq_of_forms (wellSized_fingerprintedBelow H span t above) h
      (fingerprintedBelow_category H span t above)
    rw [fingerprintedBelow_form, Form.map_map]
    exact Form.map_congr fun u hu => ih u hu (h.part hu) _

theorem fingerprint_of_mem_subtrees (hu : u ∈ (t.fingerprintedBelow H span above).subtrees) :
    u.fingerprint.isSome = true := by
  induction t using induction_parts generalizing above with
  | step t ih =>
    rw [subtrees_eq] at hu
    rcases List.mem_cons.mp hu with rfl | hu
    · rw [fingerprintedBelow_fingerprint]
      rfl
    · obtain ⟨v, hv, hu⟩ := List.mem_flatMap.mp hu
      rw [fingerprintedBelow_form, Form.parts_map] at hv
      obtain ⟨w, hw, rfl⟩ := List.mem_map.mp hv
      exact ih w hw hu

/-- Hashers with the same digests mark alike. -/
theorem fingerprintedBelow_alike {δ' : Type} {H' : Hasher δ'} (h : H.Alike H') (span : Span)
    (t : Tree) (above : List UInt64) :
    t.fingerprintedBelow H span above = t.fingerprintedBelow H' span above := by
  induction t using induction_parts generalizing above with
  | step t ih =>
    have hform : t.form.map (·.fingerprintedBelow H span (H.text t.category :: above)) =
        t.form.map (·.fingerprintedBelow H' span (H'.text t.category :: above)) := by
      rw [h.text]
      exact Form.map_congr fun u hu => ih u hu _
    have hdirection : direction H span above t = direction H' span above t := by
      rw [direction, direction, h.unit, h.words, h.text,
        List.map_congr_left fun part _ => h.text part.category]
    rw [fingerprintedBelow_eq, fingerprintedBelow_eq, hform, hdirection]

end Tree

end TreeDiff
