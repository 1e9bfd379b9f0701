import TreeDiff.Proofs.Blindness
import TreeDiff.Proofs.Grams
import TreeDiff.Proofs.Planting

/-!
# Constructed trees

However the constructors are combined, the trees that they make store the right sizes. A size is
then settled by the categories and forms below it, so comparing sizes first never makes two such
trees differ; they are equal when all their nodes are, fingerprints aside. Equal trees may take each
other's place: nothing that guides a diff tells them apart.
-/

set_option autoImplicit false

namespace TreeDiff.Tree

/-- Trees that the constructors make, in any combination: from parts that were made before, from a
tree that is taken apart, by giving fingerprints, or by reading an arena. -/
inductive Built : Tree → Prop
  | node (tag : Tag) {form : Form Tree} (parts : ∀ u ∈ form.parts, Built u) : Built (.node tag form)
  | leaf (category label : String) : Built (.leaf category label)
  | sequence (category : String) {ts : List Tree} (children : ∀ t ∈ ts, Built t) :
      Built (.sequence category ts)
  | container (category : String) {slot : Option Tree} {ts : List Tree}
      (slots : ∀ t ∈ slot, Built t) (children : ∀ t ∈ ts, Built t) :
      Built (.container category slot ts)
  | branch (category : String) {ts : List Tree} (children : ∀ t ∈ ts, Built t) :
      Built (.branch category ts)
  | part {t u : Tree} (whole : Built t) (mem : u ∈ t.form.parts) : Built u
  | withFingerprint {t : Tree} (built : Built t) (v : Fingerprint) : Built (t.withFingerprint v)
  | fingerprinted {t : Tree} (built : Built t) {δ : Type} (H : Hasher δ) (span : Span) :
      Built (t.fingerprintedBy H span)
  | read {σ : Type} {A : Arena σ} {s : σ} {levels : Nat} {h : Handle} {t : Tree}
      (result : (A.readWithin s levels h).run = some (.ok t)) : Built t

/-- Every constructor stores the right size at every node. -/
theorem Built.wellSized {t : Tree} (h : Built t) : t.WellSized := by
  induction h with
  | node tag _ ih => exact wellSized_node tag ih
  | leaf category label => exact wellSized_leaf category label
  | sequence category _ ih => exact wellSized_sequence category ih
  | container category _ _ ihs ih => exact wellSized_container category ihs ih
  | branch category _ ih => exact wellSized_branch category ih
  | part _ hu ih => exact ih.part hu
  | withFingerprint _ v ih => exact wellSized_withFingerprint ih v
  | @fingerprinted t _ _ H span _ => exact wellSized_fingerprintedBy H span t
  | read hr => exact Arena.wellSized_of_readWithin hr

def contents : Tree → Rose Item := rose item

theorem contents_eq_iff {t u : Tree} :
    t.contents = u.contents ↔
      t.item = u.item ∧ t.form.parts.map contents = u.form.parts.map contents :=
  rose_eq_rose_iff

@[simp] theorem item_bare (t : Tree) : t.bare.item = t.item := by
  rw [item, item, bare_category, bare_form, Form.kind_map]

@[simp] theorem contents_bare (t : Tree) : t.bare.contents = t.contents := by
  induction t using induction_parts with
  | step t ih =>
    rw [contents_eq_iff, item_bare, bare_form, Form.parts_map, List.map_map]
    exact ⟨rfl, List.map_congr_left ih⟩

/-- Where sizes are right, the contents settle them. -/
theorem bare_eq_iff_contents_eq {t u : Tree} (ht : t.WellSized) (hu : u.WellSized) :
    t.bare = u.bare ↔ t.contents = u.contents := by
  constructor
  · intro h
    rw [← contents_bare t, h, contents_bare]
  · intro h
    induction t using induction_parts generalizing u with
    | step t ih =>
      obtain ⟨hi, hp⟩ := contents_eq_iff.mp h
      have hc : t.category = u.category := congrArg Item.category hi
      have hk : t.form.kind = u.form.kind := congrArg Item.kind hi
      have hparts : t.form.parts.map bare = u.form.parts.map bare :=
        map_eq_of_map_eq hp fun v hv w hw hvw => ih v hv (ht.part hv) (hu.part hw) hvw
      apply bare_eq_of_forms ht hu hc
      apply Form.eq_of_kind
      · rw [Form.kind_map, Form.kind_map, hk]
      · rw [Form.parts_map, Form.parts_map, hparts]

theorem equivalence_beq : Equivalence fun t u : Tree => (t == u) = true where
  refl _ := beq_iff_bare.mpr rfl
  symm h := beq_iff_bare.mpr (beq_iff_bare.mp h).symm
  trans h h' := beq_iff_bare.mpr ((beq_iff_bare.mp h).trans (beq_iff_bare.mp h'))

/-- Nothing that guides a diff tells two pairs of trees apart: neither what may be paired, nor what
it costs at any effort, nor whether there is a plan of either kind. -/
structure Interchangeable (t u t' u' : Tree) : Prop where
  comparable : t.comparable u = t'.comparable u'
  equivalent : t.equivalent u = t'.equivalent u'
  estimate : ∀ effort, t.estimate u effort = t'.estimate u' effort
  aligning : (Plan.aligning t u).isSome = (Plan.aligning t' u').isSome
  zipping : (Plan.zipping t u).isSome = (Plan.zipping t' u').isSome

theorem interchangeable_bare (t u : Tree) : Interchangeable t.bare u.bare t u where
  comparable := comparable_bare t u
  equivalent := equivalent_bare t u
  estimate := estimate_bare t u
  aligning := by rw [Plan.aligning_bare, Option.isSome_map]
  zipping := by rw [Plan.zipping_bare, Option.isSome_map]

/-- Trees that constructors make, however combined, store the right sizes. So the sizes have no say
in whether they are equal: they are when they are the same without fingerprints, and just as well
when their nodes have the same categories and kinds, whatever sizes are stored. Equality is an
equivalence, and equal trees may take each other's place on either side of a diff. -/
theorem equality_of_built :
    (∀ t, Built t → t.WellSized) ∧
      (∀ t u, Built t → Built u →
        ((t == u) = true ↔ t.bare = u.bare) ∧ ((t == u) = true ↔ t.contents = u.contents)) ∧
      (Equivalence fun t u : Tree => (t == u) = true) ∧
      ∀ t t' u u' : Tree, (t == t') = true → (u == u') = true → Interchangeable t u t' u' := by
  refine ⟨fun _ h => h.wellSized, ?_, equivalence_beq, ?_⟩
  · intro t u ht hu
    rw [← bare_eq_iff_contents_eq ht.wellSized hu.wellSized]
    exact ⟨beq_iff_bare, beq_iff_bare⟩
  · intro t t' u u' ht hu
    have h := interchangeable_bare t u
    have h' := interchangeable_bare t' u'
    rw [beq_iff_bare.mp ht, beq_iff_bare.mp hu] at h
    exact ⟨h.comparable.symm.trans h'.comparable, h.equivalent.symm.trans h'.equivalent,
      fun effort => (h.estimate effort).symm.trans (h'.estimate effort),
      h.aligning.symm.trans h'.aligning, h.zipping.symm.trans h'.zipping⟩

/-- A function with fingerprints and the same function as it is read from a forest. -/
theorem read_function_equality :
    let t := (container "function" (some (leaf "name" "f")) [leaf "name" "x"]).fingerprinted {}
    let f := Forest.arena.after [.add ⟨"function", .container true⟩, .add ⟨"name", .leaf "f"⟩,
      .add ⟨"name", .leaf "x"⟩, .append ⟨1, 0⟩ ⟨2, 0⟩, .append ⟨1, 0⟩ ⟨3, 0⟩]
    let u := container "function" (some (leaf "name" "f")) [leaf "name" "x"]
    Built t ∧ f.tree ⟨1, 0⟩ = .ok u ∧ Built u ∧ t.WellSized ∧ t.contents = u.contents ∧
      (t == u) = true ∧ t.bare = u.bare ∧ Interchangeable t u u t := by
  intro t f u
  have hu : Built (container "function" (some (leaf "name" "f")) [leaf "name" "x"]) :=
    .container _ (by simp [Built.leaf]) (by simp [Built.leaf])
  have ht : Built t := .fingerprinted hu Digest.hasher {}
  have htree : f.tree ⟨1, 0⟩ = .ok u := rfl
  have hc : t.contents = u.contents := rfl
  obtain ⟨hsized, hequal, -, hplace⟩ := equality_of_built
  have hread : (Forest.arena.readWithin f 2 ⟨1, 0⟩).run = some (.ok u) := rfl
  obtain ⟨hbare, hcontents⟩ := hequal t u ht (.read hread)
  have he := hcontents.mpr hc
  exact ⟨ht, htree, .read hread, hsized t ht, hc, he, hbare.mp he,
    hplace t u u t he (equivalence_beq.symm he)⟩

end TreeDiff.Tree
