import TreeDiff.Tree

/-!
# Stored sizes

Every constructor stores the right size, and a tree whose sizes are right is the node made of its
tag and its form: nothing else is in it.
-/

set_option autoImplicit false

namespace TreeDiff.Tree

theorem wellSized_iff (t : Tree) :
    t.WellSized ↔ t.size = 1 + total (t.form.parts.map size) ∧ ∀ u ∈ t.form.parts, u.WellSized := by
  unfold WellSized
  rw [subtrees_eq]
  simp only [List.mem_cons, forall_eq_or_imp, List.mem_flatMap]
  constructor
  · rintro ⟨h, hs⟩
    exact ⟨h, fun u hu v hv => hs v ⟨u, hu, hv⟩⟩
  · rintro ⟨h, hs⟩
    refine ⟨h, ?_⟩
    rintro v ⟨u, hu, hv⟩
    exact hs u hu v hv

theorem WellSized.size_eq {t : Tree} (h : t.WellSized) :
    t.size = 1 + total (t.form.parts.map size) := ((wellSized_iff t).mp h).1

theorem WellSized.part {t u : Tree} (h : t.WellSized) (hu : u ∈ t.form.parts) : u.WellSized :=
  ((wellSized_iff t).mp h).2 u hu

theorem WellSized.slot {t u : Tree} (h : t.WellSized) (hu : u ∈ t.form.slot?) : u.WellSized :=
  h.part (Form.slot_mem_parts hu)

theorem WellSized.child {t u : Tree} (h : t.WellSized) (hu : u ∈ t.form.children) :
    u.WellSized :=
  h.part (Form.child_mem_parts hu)

theorem WellSized.size_split {t : Tree} (h : t.WellSized) :
    t.size = 1 + (total (t.form.slot?.toList.map size) + total (t.form.children.map size)) := by
  rw [h.size_eq, Form.parts, List.map_append, total_append]

theorem WellSized.size_pos {t : Tree} (h : t.WellSized) : 0 < t.size := by
  rw [h.size_eq]
  omega

theorem WellSized.size_leaf {t : Tree} (h : t.WellSized) (hl : t.shape = .leaf) : t.size = 1 := by
  rw [h.size_eq, Form.parts_eq_nil hl]
  rfl

theorem self_mem_subtrees (t : Tree) : t ∈ t.subtrees := by
  rw [subtrees_eq]
  exact List.mem_cons_self

theorem subtrees_of_part {t u : Tree} (hu : u ∈ t.form.parts) : u.subtrees ⊆ t.subtrees := by
  intro v hv
  rw [subtrees_eq t]
  exact List.mem_cons_of_mem _ (List.mem_flatMap.mpr ⟨u, hu, hv⟩)

theorem WellSized.subtree_size_pos {t u : Tree} (h : t.WellSized) (hu : u ∈ t.subtrees) :
    0 < u.size := by
  rw [h u hu]
  omega

theorem wellSized_node (tag : Tag) {form : Form Tree} (h : ∀ u ∈ form.parts, u.WellSized) :
    (node tag form).WellSized :=
  (wellSized_iff _).mpr ⟨rfl, h⟩

/-- A fingerprint at the root changes no size. -/
theorem wellSized_withFingerprint {t : Tree} (h : t.WellSized) (v : Fingerprint) :
    (t.withFingerprint v).WellSized :=
  (wellSized_iff _).mpr ⟨h.size_eq, fun _ hu => h.part hu⟩

theorem WellSized.node_eq {t : Tree} (h : t.WellSized) : node t.tag t.form = t := by
  rw [node, ← h.size_eq]
  cases t
  rfl

theorem wellSized_leaf (category label : String) : (leaf category label).WellSized :=
  wellSized_node _ nofun

theorem wellSized_sequence (category : String) {ts : List Tree} (h : ∀ t ∈ ts, t.WellSized) :
    (sequence category ts).WellSized :=
  wellSized_node _ h

theorem wellSized_container (category : String) {slot : Option Tree} {ts : List Tree}
    (hs : ∀ t ∈ slot, t.WellSized) (h : ∀ t ∈ ts, t.WellSized) :
    (container category slot ts).WellSized := by
  apply wellSized_node
  intro u hu
  rcases List.mem_append.mp hu with hu | hu
  · exact hs u (Option.mem_toList.mp hu)
  · exact h u hu

theorem wellSized_branch (category : String) {ts : List Tree} (h : ∀ t ∈ ts, t.WellSized) :
    (branch category ts).WellSized :=
  wellSized_node _ h

end TreeDiff.Tree
