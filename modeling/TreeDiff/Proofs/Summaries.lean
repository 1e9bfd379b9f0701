import TreeDiff.Proofs.Coverage

/-!
# Summaries of diffs

What a diff says of itself at a glance: whether it has edits, what they cost, how many nodes of each
kind there are and how much of the inputs they account for. All of it is read off one walk, so the
summaries have to agree: a merge accounts for a node of either side, an edit for what it costs.
-/

set_option autoImplicit false

namespace TreeDiff

namespace Diff

mutual

/-- What holds of edits, and of a merge when it holds of all its parts, holds of every diff. -/
theorem induction_parts {P : Diff → Prop} (edit : ∀ e, P (.edit e))
    (merge : ∀ t u form, (∀ d ∈ form.parts, P d) → P (.merge t u form)) (d : Diff) : P d := by
  match d with
  | .edit e => exact edit e
  | .merge t u (.leaf _) => exact merge _ _ _ nofun
  | .merge t u (.sequence ds) => exact merge _ _ _ (induction_all edit merge ds)
  | .merge t u (.container none ds) => exact merge _ _ _ (induction_all edit merge ds)
  | .merge t u (.container (some s) ds) =>
    exact merge _ _ _ (List.forall_mem_cons.mpr
      ⟨induction_parts edit merge s, induction_all edit merge ds⟩)
  | .merge t u (.branch ds) => exact merge _ _ _ (induction_all edit merge ds)

theorem induction_all {P : Diff → Prop} (edit : ∀ e, P (.edit e))
    (merge : ∀ t u form, (∀ d ∈ form.parts, P d) → P (.merge t u form)) (ds : List Diff) :
    ∀ d ∈ ds, P d := by
  match ds with
  | [] => nofun
  | d :: ds =>
    exact List.forall_mem_cons.mpr ⟨induction_parts edit merge d, induction_all edit merge ds⟩

end

@[simp] theorem walk_edit (e : Edit) : (edit e).walk = [edit e] := fold_edit _ _ e

@[simp] theorem walk_merge (t u : Tag) (form : Form Diff) :
    (merge t u form).walk = merge t u form :: form.parts.flatMap walk := by
  rw [walk, fold_merge, Form.parts_map, List.flatMap_def]

@[simp] theorem edits_edit (e : Edit) : (edit e).edits = [e] := by
  rw [edits, walk, fold_edit]
  rfl

@[simp] theorem edits_merge (t u : Tag) (form : Form Diff) :
    (merge t u form).edits = form.parts.flatMap edits := by
  rw [edits, walk_merge, List.filterMap_cons, edit?, List.filterMap_flatMap]
  rfl

@[simp] theorem isMergeOnly_edit (e : Edit) : (edit e).isMergeOnly = false := by
  rw [isMergeOnly, fold_edit]

@[simp] theorem isMergeOnly_merge (t u : Tag) (form : Form Diff) :
    (merge t u form).isMergeOnly = form.parts.all isMergeOnly := by
  rw [isMergeOnly, fold_merge, Form.parts_map, List.all_map]
  rfl

theorem isMergeOnly_iff (d : Diff) : d.isMergeOnly = true ↔ d.edits = [] := by
  induction d using induction_parts with
  | edit e => simp
  | merge t u form ih => simp +contextual [ih]

def Weighty (d : Diff) : Prop := ∀ e ∈ d.edits, 0 < e.oldSize + e.newSize

theorem cost_eq_zero_iff {d : Diff} (h : d.Weighty) : d.cost = 0 ↔ d.edits = [] := by
  unfold Weighty at h
  rw [cost]
  cases he : d.edits with
  | nil => simp
  | cons e es =>
    have := h e (by simp [he])
    simp
    omega

def isMerge : Diff → Bool
  | merge .. => true
  | edit _ => false

end Diff

namespace Edit

def isInsert : Edit → Bool
  | insert _ => true
  | _ => false

def isDelete : Edit → Bool
  | delete _ => true
  | _ => false

def isReplace : Edit → Bool
  | replace _ _ => true
  | _ => false

end Edit

namespace Diff

theorem foldl_counts (ds : List Diff) (k : Counts) :
    ds.foldl Counts.tally k =
      ⟨k.merges + ds.countP isMerge, k.inserts + (ds.filterMap edit?).countP Edit.isInsert,
        k.deletes + (ds.filterMap edit?).countP Edit.isDelete,
        k.replaces + (ds.filterMap edit?).countP Edit.isReplace⟩ := by
  induction ds generalizing k with
  | nil => rfl
  | cons d ds ih =>
    rw [List.foldl_cons, ih]
    cases d with
    | merge t u form =>
      simp [Counts.tally, List.countP_cons, List.filterMap_cons, edit?, isMerge, Nat.add_assoc,
        Nat.add_comm 1]
    | edit e =>
      cases e <;>
        simp [Counts.tally, List.countP_cons, edit?, isMerge, Edit.isInsert, Edit.isDelete,
          Edit.isReplace, Nat.add_assoc, Nat.add_comm 1]

/-- The counts of a diff are the numbers of merges on its walk and of edits of each kind. -/
theorem counts_eq (d : Diff) :
    d.counts = ⟨d.walk.countP isMerge, d.edits.countP Edit.isInsert, d.edits.countP Edit.isDelete,
      d.edits.countP Edit.isReplace⟩ := by
  simpa [counts, edits] using foldl_counts d.walk {}

theorem foldl_coverage (ds : List Diff) (c : Coverage) :
    ds.foldl Coverage.tally c =
      ⟨c.old + ds.countP isMerge + total ((ds.filterMap edit?).map Edit.oldSize),
        c.new + ds.countP isMerge + total ((ds.filterMap edit?).map Edit.newSize)⟩ := by
  induction ds generalizing c with
  | nil => rfl
  | cons d ds ih =>
    rw [List.foldl_cons, ih]
    cases d with
    | merge t u form =>
      simp [Coverage.tally, List.countP_cons, List.filterMap_cons, edit?, isMerge]
      omega
    | edit e =>
      simp [Coverage.tally, edit?, isMerge]
      omega

/-- Merges account for one node of either side, edits for the nodes of the trees they hold. -/
theorem coverage_eq (d : Diff) :
    d.coverage = ⟨d.counts.merges + total (d.edits.map Edit.oldSize),
      d.counts.merges + total (d.edits.map Edit.newSize)⟩ := by
  rw [counts_eq]
  simpa [coverage, edits] using foldl_coverage d.walk {}

theorem cost_eq (d : Diff) :
    d.cost = total (d.edits.map Edit.oldSize) + total (d.edits.map Edit.newSize) := by
  rw [cost]
  induction d.edits with
  | nil => rfl
  | cons e es ih =>
    simp only [List.map_cons, total_cons, ih]
    omega

/-- Of the nodes on both sides, merges account for two each and edits for what they cost. -/
theorem coverage_balance (d : Diff) :
    d.coverage.old + d.coverage.new = 2 * d.counts.merges + d.cost := by
  rw [coverage_eq, cost_eq]
  simp only
  omega

end Diff

theorem comparison_coverage (l : Limits) {old new : Tree} (ho : old.WellSized)
    (hn : new.WellSized) : (Tree.comparison l old new).coverage = ⟨old.size, new.size⟩ := by
  have h := ticks_accounts (Machine.start_onCourse l old new).ticks (start_accounts ho hn)
  rw [← h.covered]
  exact ((add_zero _).trans (add_zero _)).symm

theorem Edit.length_eq (es : List Edit) :
    es.length = es.countP Edit.isInsert + es.countP Edit.isDelete + es.countP Edit.isReplace := by
  induction es with
  | nil => rfl
  | cons e es ih =>
    rw [List.length_cons, ih]
    cases e <;> simp [List.countP_cons, isInsert, isDelete, isReplace] <;> omega

namespace Diff

def WellSized (d : Diff) : Prop :=
  ∀ e ∈ d.edits, (∀ a ∈ e.old?, a.WellSized) ∧ ∀ b ∈ e.new?, b.WellSized

theorem WellSized.weighty {d : Diff} (h : d.WellSized) : d.Weighty := by
  intro e he
  obtain ⟨ho, hn⟩ := h e he
  cases e with
  | insert b => exact Nat.add_pos_right _ (hn b rfl).size_pos
  | delete a => exact Nat.add_pos_left (ho a rfl).size_pos _
  | replace a b => exact Nat.add_pos_left (ho a rfl).size_pos _

theorem counts_edits (d : Diff) : d.counts.edits = d.edits.length := by
  rw [counts_eq, Counts.edits, Edit.length_eq]

/-- Every node of a walk is a merge or an edit. -/
theorem length_walk (d : Diff) : d.walk.length = d.counts.merges + d.counts.edits := by
  rw [counts_edits, counts_eq, edits]
  induction d.walk with
  | nil => rfl
  | cons d ds ih =>
    rw [List.length_cons, ih, List.countP_cons]
    cases d with
    | merge t u form =>
      simp [List.filterMap_cons, edit?, isMerge]
      omega
    | edit e => simp [edit?, isMerge, Nat.add_assoc]

end Diff

/-- The summaries of a diff say the same of it, whatever it is made of. There are no edits on the
walk exactly when none is counted, when the search for one finds none and, as long as the trees of
the edits store the right sizes, when they cost nothing; the counts add up to the nodes of the walk,
and the nodes of both inputs are those that are merged and those that cost. So two inputs cost what
is left of their nodes when those that are merged are taken away. -/
theorem summaries_agree :
    (∀ d : Diff,
      (d.isMergeOnly = true ↔ d.edits = []) ∧ (d.edits = [] ↔ d.counts.edits = 0) ∧
        (d.WellSized → (d.counts.edits = 0 ↔ d.cost = 0)) ∧ d.counts.edits = d.edits.length ∧
        d.walk.length = d.counts.merges + d.counts.inserts + d.counts.deletes + d.counts.replaces ∧
        d.coverage.old + d.coverage.new = 2 * d.counts.merges + d.cost) ∧
    ∀ (l : Limits) (old new : Tree), old.WellSized → new.WellSized →
      ∃ d, old.diff l new = .ok d ∧ 2 * d.counts.merges ≤ old.size + new.size ∧
        d.cost = old.size + new.size - 2 * d.counts.merges := by
  constructor
  · intro d
    have hnone : d.edits = [] ↔ d.counts.edits = 0 := by
      rw [d.counts_edits, List.length_eq_zero_iff]
    have hcost (h : d.WellSized) : d.counts.edits = 0 ↔ d.cost = 0 := by
      rw [← hnone, Diff.cost_eq_zero_iff h.weighty]
    refine ⟨d.isMergeOnly_iff, hnone, hcost, d.counts_edits, ?_, d.coverage_balance⟩
    rw [d.length_walk, Counts.edits]
    omega
  · intro l old new ho hn
    have hb := (Tree.comparison l old new).coverage_balance
    rw [comparison_coverage l ho hn] at hb
    dsimp only at hb
    refine ⟨_, diff_eq_comparison l old new, ?_, ?_⟩ <;> omega

/-- An insertion among the parts of a branch, where no diff of two trees has one, and a replaced
slot; then the diff of two calls. -/
theorem stray_insertion_agrees :
    let x : Tree := .leaf "name" "x"
    let call : Tree := .branch "call" [x]
    let named : Diff := .merge ⟨"function", none⟩ ⟨"function", none⟩
      (.container (some (.edit (.replace x call))) [.edit (.delete call)])
    let d : Diff := .merge ⟨"call", none⟩ ⟨"call", none⟩ (.branch [.edit (.insert x), named])
    d.WellSized ∧ (d.isMergeOnly = true ↔ d.cost = 0) ∧ d.cost = 6 ∧ d.walk.length = 5 ∧
      d.coverage.old + d.coverage.new = 2 * d.counts.merges + d.cost ∧
      call.WellSized ∧ ∃ e, call.diff {} (.branch "call" [call]) = .ok e ∧
        e.cost = 2 + 3 - 2 * e.counts.merges := by
  intro x call named d
  have hx : x.WellSized := by simp [x, Tree.wellSized_leaf]
  have hc : call.WellSized := by simp [call, Tree.wellSized_branch, hx]
  have hd : d.WellSized := by
    simp [d, named, Diff.WellSized, Form.parts, Form.slot?, Form.children, Edit.old?, Edit.new?,
      hx, hc]
  obtain ⟨hall, hdiff⟩ := summaries_agree
  obtain ⟨honly, hnone, hcost, -, -, hbalance⟩ := hall d
  obtain ⟨e, he, -, hsize⟩ := hdiff {} call (.branch "call" [call]) hc
    (Tree.wellSized_branch _ (by simpa using hc))
  exact ⟨hd, honly.trans (hnone.trans (hcost hd)), by decide, by decide, hbalance, hc, e, he, hsize⟩

end TreeDiff
