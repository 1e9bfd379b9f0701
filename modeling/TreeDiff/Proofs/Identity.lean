import TreeDiff.Proofs.Equality
import TreeDiff.Proofs.Summaries
import TreeDiff.Proofs.Surroundings

/-!
# Equal trees

A diff has no edits exactly when its two trees are equal. Equal lists are anchored position by
position before any candidate is looked for, so neither limits nor fingerprints keep equal trees
apart; and where trees differ no limit hides it, for a list of pairs that all hold equal trees is
made of equal lists.
-/

set_option autoImplicit false

namespace TreeDiff

inductive Piece (rec : Tree → Tree → Diff) (xs ys : List Tree) : Diff → Prop
  | compared {x y : Tree} : x ∈ xs → y ∈ ys → Piece rec xs ys (rec x y)
  | deleted {x : Tree} : x ∈ xs → Piece rec xs ys (.edit (.delete x))
  | inserted {y : Tree} : y ∈ ys → Piece rec xs ys (.edit (.insert y))

section

variable {rec : Tree → Tree → Diff}

theorem Piece.mono {xs xs' ys ys' : List Tree} {d : Diff} (h : Piece rec xs ys d)
    (hx : xs ⊆ xs') (hy : ys ⊆ ys') : Piece rec xs' ys' d := by
  cases h with
  | compared ha hb => exact .compared (hx ha) (hy hb)
  | deleted ha => exact .deleted (hx ha)
  | inserted hb => exact .inserted (hy hb)

theorem slot_piece {s r : Option Tree} {d : Diff}
    (h : d ∈ (Plan.slotGoal s r).bind (Goal.ending? rec)) : Piece rec s.toList r.toList d := by
  cases s with
  | none =>
    cases r with
    | none => cases h
    | some y => cases h; exact .inserted (by simp)
  | some x =>
    cases r with
    | none => cases h; exact .deleted (by simp)
    | some y => cases h; exact .compared (by simp) (by simp)

theorem entry_piece (rec : Tree → Tree → Diff) {es : List (Entry Tree Tree)}
    {e : Entry Tree Tree} (h : e ∈ es) :
    Piece rec (es.filterMap Entry.old?) (es.filterMap Entry.new?) (e.ending rec) := by
  cases e with
  | old x => exact .deleted (List.mem_filterMap.mpr ⟨_, h, rfl⟩)
  | new y => exact .inserted (List.mem_filterMap.mpr ⟨_, h, rfl⟩)
  | paired x y =>
    exact .compared (List.mem_filterMap.mpr ⟨_, h, rfl⟩) (List.mem_filterMap.mpr ⟨_, h, rfl⟩)

theorem child_piece {l : Limits} {plan : Plan} {a b : Tree} (hp : plan.Matches a b) {d : Diff}
    (h : d ∈ plan.children.endings l rec) : Piece rec a.form.children b.form.children d := by
  rcases hp.children with ⟨hc, -⟩ | ⟨hc, -⟩
  · rw [hc] at h
    obtain ⟨e, he, rfl⟩ := List.mem_map.mp h
    simpa [Tree.align, Judge.olds_align, Judge.news_align] using entry_piece rec he
  · rw [hc, Work.endings_positional, ← List.map_uncurry_zip_eq_zipWith] at h
    obtain ⟨⟨x, y⟩, hz, rfl⟩ := List.mem_map.mp h
    exact .compared (List.of_mem_zip hz).1 (List.of_mem_zip hz).2

/-- The parts of a merge are diffs of parts of the two trees, or edits of such parts. -/
theorem plan_pieces (l : Limits) (rec : Tree → Tree → Diff) {plan : Plan} {a b : Tree}
    (hp : plan.Matches a b) :
    ∃ form, plan.diff l rec a b = .merge a.tag b.tag form ∧
      ∀ d ∈ form.parts, Piece rec a.form.parts b.form.parts d := by
  obtain ⟨form, hd, -, -, hr, hc⟩ := Plan.diff_form l rec hp
  refine ⟨form, hd, ?_⟩
  intro d h
  rcases List.mem_append.mp h with h | h
  · rw [hr, Option.mem_toList] at h
    exact (slot_piece h).mono (List.subset_append_left _ _) (List.subset_append_left _ _)
  · rw [hc] at h
    exact (child_piece hp h).mono (List.subset_append_right _ _) (List.subset_append_right _ _)

end

/-- Edits hold subtrees of the two inputs. -/
theorem comparison_edits (l : Limits) (a b : Tree) :
    ∀ e ∈ (Tree.comparison l a b).edits,
      (∀ x ∈ e.old?, x ∈ a.subtrees) ∧ ∀ y ∈ e.new?, y ∈ b.subtrees := by
  refine Tree.comparison_induction
    (motive := fun a b d => ∀ e ∈ d.edits,
      (∀ x ∈ e.old?, x ∈ a.subtrees) ∧ ∀ y ∈ e.new?, y ∈ b.subtrees) ?_ ?_ a b
  · intro a b _ e he
    rw [Diff.edits_edit, List.mem_singleton] at he
    subst he
    constructor
    · rintro x ⟨⟩
      exact a.self_mem_subtrees
    · rintro y ⟨⟩
      exact b.self_mem_subtrees
  · intro a b plan _ hp ih e he
    obtain ⟨form, hd, hparts⟩ := plan_pieces l (Tree.comparison l) hp
    rw [hd, Diff.edits_merge] at he
    obtain ⟨d, hm, he⟩ := List.mem_flatMap.mp he
    cases hparts d hm with
    | compared hx hy =>
      obtain ⟨ho, hn⟩ := ih _ hx _ hy e he
      exact ⟨fun u hu => Tree.subtrees_of_part hx (ho u hu),
        fun u hu => Tree.subtrees_of_part hy (hn u hu)⟩
    | @deleted x hx =>
      rw [Diff.edits_edit, List.mem_singleton] at he
      subst he
      refine ⟨?_, nofun⟩
      rintro u ⟨⟩
      exact Tree.subtrees_of_part hx x.self_mem_subtrees
    | @inserted y hy =>
      rw [Diff.edits_edit, List.mem_singleton] at he
      subst he
      refine ⟨nofun, ?_⟩
      rintro u ⟨⟩
      exact Tree.subtrees_of_part hy y.self_mem_subtrees

theorem comparison_weighty (l : Limits) {a b : Tree} (ha : a.WellSized) (hb : b.WellSized) :
    (Tree.comparison l a b).Weighty := by
  intro e he
  obtain ⟨ho, hn⟩ := comparison_edits l a b e he
  cases e with
  | insert y => exact Nat.add_pos_right _ (hb.subtree_size_pos (hn y rfl))
  | delete x => exact Nat.add_pos_left (ha.subtree_size_pos (ho x rfl)) _
  | replace x y => exact Nat.add_pos_left (ha.subtree_size_pos (ho x rfl)) _

def Discerns (rec : Tree → Tree → Diff) (xs ys : List Tree) : Prop :=
  ∀ x ∈ xs, ∀ y ∈ ys, (rec x y).isMergeOnly = true ↔ x.bare = y.bare

section

variable {rec : Tree → Tree → Diff}

theorem slot_mergeOnly {s r : Option Tree} (h : Discerns rec s.toList r.toList) :
    (∀ d ∈ (Plan.slotGoal s r).bind (Goal.ending? rec), d.isMergeOnly = true) ↔
      s.map Tree.bare = r.map Tree.bare := by
  cases s with
  | none => cases r <;> simp [Plan.slotGoal, Goal.ending?]
  | some x =>
    cases r with
    | none => simp [Plan.slotGoal, Goal.ending?]
    | some y => simpa [Plan.slotGoal, Goal.ending?] using h x (by simp) y (by simp)

theorem entries_equal {es : List (Entry Tree Tree)}
    (h : Discerns rec (es.filterMap Entry.old?) (es.filterMap Entry.new?))
    (hm : ∀ e ∈ es, (e.ending rec).isMergeOnly = true) :
    (es.filterMap Entry.old?).map Tree.bare = (es.filterMap Entry.new?).map Tree.bare := by
  induction es with
  | nil => rfl
  | cons e es ih =>
    obtain ⟨he, hes⟩ := List.forall_mem_cons.mp hm
    cases e with
    | old x => simp [Entry.ending] at he
    | new y => simp [Entry.ending] at he
    | paired x y =>
      simp only [List.filterMap_cons, Entry.old?_paired, Entry.new?_paired] at h ⊢
      have hxy : x.bare = y.bare := (h x (by simp) y (by simp)).mp he
      have ht := ih (fun a ha b hb => h a (by simp [ha]) b (by simp [hb])) hes
      rw [List.map_cons, List.map_cons, hxy, ht]

theorem forall₂_of_bare {xs ys : List Tree} (h : xs.map Tree.bare = ys.map Tree.bare) :
    List.Forall₂ (fun x y => (x == y) = true) xs ys := by
  induction xs generalizing ys with
  | nil =>
    cases ys with
    | nil => exact .nil
    | cons y ys => cases h
  | cons x xs ih =>
    cases ys with
    | nil => cases h
    | cons y ys =>
      obtain ⟨hx, ht⟩ := List.cons.inj h
      exact .cons (Tree.beq_iff_bare.mpr hx) (ih ht)

theorem positional_mergeOnly {xs ys : List Tree} (hn : xs.length = ys.length)
    (h : Discerns rec xs ys) :
    (∀ d ∈ List.zipWith rec xs ys, d.isMergeOnly = true) ↔
      xs.map Tree.bare = ys.map Tree.bare := by
  induction xs generalizing ys with
  | nil =>
    cases ys with
    | nil => simp
    | cons y ys => cases hn
  | cons x xs ih =>
    cases ys with
    | nil => cases hn
    | cons y ys =>
      have ht := ih (Nat.succ.inj hn) fun a ha b hb => h a (by simp [ha]) b (by simp [hb])
      simp [h x (by simp) y (by simp), ← ht]

theorem aligned_mergeOnly (l : Limits) {xs ys : List Tree} (h : Discerns rec xs ys) :
    (∀ d ∈ (Tree.align l xs ys).map (Entry.ending rec), d.isMergeOnly = true) ↔
      xs.map Tree.bare = ys.map Tree.bare := by
  constructor
  · intro hm
    have ho : (Tree.align l xs ys).filterMap Entry.old? = xs := Judge.olds_align _ l xs ys
    have hn : (Tree.align l xs ys).filterMap Entry.new? = ys := Judge.news_align _ l xs ys
    have he := entries_equal (ho.symm ▸ hn.symm ▸ h) fun e he => hm _ (List.mem_map_of_mem he)
    rwa [ho, hn] at he
  · intro hxy
    have hn : xs.length = ys.length := by simpa using congrArg List.length hxy
    have ha : Tree.align l xs ys = List.zipWith .paired xs ys :=
      (Tree.judge l).align_of_identical (forall₂_of_bare hxy)
    rw [ha, List.map_zipWith]
    exact (positional_mergeOnly hn h).mpr hxy

theorem plan_mergeOnly (l : Limits) {plan : Plan} {a b : Tree} (hp : plan.Matches a b)
    (ha : a.WellSized) (hb : b.WellSized) (h : Discerns rec a.form.parts b.form.parts) :
    (plan.diff l rec a b).isMergeOnly = true ↔ a.bare = b.bare := by
  obtain ⟨form, hd, -, -, hr, hc⟩ := Plan.diff_form l rec hp
  have hon : Discerns rec a.form.slot?.toList b.form.slot?.toList := fun x hx y hy =>
    h x (Form.slot_mem_parts (Option.mem_toList.mp hx)) y
      (Form.slot_mem_parts (Option.mem_toList.mp hy))
  have hin : Discerns rec a.form.children b.form.children := fun x hx y hy =>
    h x (Form.child_mem_parts hx) y (Form.child_mem_parts hy)
  have hchildren : (∀ d ∈ plan.children.endings l rec, d.isMergeOnly = true) ↔
      a.form.children.map Tree.bare = b.form.children.map Tree.bare := by
    rcases hp.children with ⟨hw, -⟩ | ⟨hw, hn⟩
    · rw [hw]
      exact aligned_mergeOnly l hin
    · rw [hw, Work.endings_positional]
      exact positional_mergeOnly hn hin
  have hparts : (plan.diff l rec a b).isMergeOnly = true ↔
      (∀ d ∈ form.slot?, d.isMergeOnly = true) ∧ ∀ d ∈ form.children, d.isMergeOnly = true := by
    rw [hd, Diff.isMergeOnly_merge, List.all_eq_true, Form.parts, List.forall_mem_append]
    simp
  rw [hparts, hr, hc, slot_mergeOnly hon, hchildren,
    Tree.bare_eq_iff_contents ha hb ⟨hp.category, hp.shape⟩, hp.label, eq_self, true_and]

end

theorem matching_of_bare {a b : Tree} (h : a.bare = b.bare) : Plan.matching a b ≠ none := by
  obtain ⟨hc, -, hf⟩ := Tree.bare_eq_bare_iff.mp h
  have hcomp : a.comparable b = true := by simp [Tree.comparable, hc]
  have hn : a.form.children.length = b.form.children.length := by
    simpa using congrArg (fun form => form.children.length) hf
  rw [Plan.matching, Plan.aligning, Plan.zipping, if_pos hcomp, if_pos hcomp]
  cases ha : a.form <;> cases hb : b.form <;>
    simp_all [Form.map, Form.children, Plan.byPosition]

theorem comparison_mergeOnly (l : Limits) {a b : Tree} (ha : a.WellSized) (hb : b.WellSized) :
    (Tree.comparison l a b).isMergeOnly = true ↔ a.bare = b.bare := by
  revert ha hb
  refine Tree.comparison_induction
    (motive := fun a b d => a.WellSized → b.WellSized → (d.isMergeOnly = true ↔ a.bare = b.bare))
    ?_ ?_ a b
  · intro a b hm _ _
    simp only [Diff.isMergeOnly_edit, Bool.false_eq_true, false_iff]
    exact fun h => matching_of_bare h hm
  · intro a b plan _ hp ih ha hb
    exact plan_mergeOnly l hp ha hb fun x hx y hy => ih x hx y hy (ha.part hx) (hb.part hy)

/-- Whatever the limits and the fingerprints, a diff has no edits exactly when it costs nothing, and
exactly when its two trees are equal; then it merges each of their nodes with its counterpart. -/
theorem mergeOnly_iff_equal (l : Limits) {old new : Tree} (ho : old.WellSized)
    (hn : new.WellSized) :
    ∃ d, old.diff l new = .ok d ∧ (d.isMergeOnly = true ↔ d.cost = 0) ∧
      (d.isMergeOnly = true ↔ (old == new) = true) ∧
      ((old == new) = true → d.counts.merges = old.size ∧ d.counts.merges = new.size) := by
  have hcost := Diff.cost_eq_zero_iff (comparison_weighty l ho hn)
  have honly := Diff.isMergeOnly_iff (Tree.comparison l old new)
  have hequal := comparison_mergeOnly l ho hn
  rw [← Tree.beq_iff_bare] at hequal
  refine ⟨_, diff_eq_comparison l old new, by rw [honly, hcost], hequal, ?_⟩
  intro h
  have hsize : old.size = new.size := (Tree.bare_eq_bare_iff.mp (Tree.beq_iff_bare.mp h)).2.1
  have hb := Diff.coverage_balance (Tree.comparison l old new)
  rw [comparison_coverage l ho hn, hcost.mpr (honly.mp (hequal.mpr h))] at hb
  simp only at hb
  omega

/-- Two statements that read the same, one of them with a fingerprint on the new side. -/
theorem repeated_statement_mergeOnly :
    let x : Tree := .branch "call" [.leaf "name" "f"]
    let old : Tree := .container "function" (some (.leaf "name" "g")) [x, x]
    let new : Tree := .container "function" (some (.leaf "name" "g")) [x, x.withFingerprint .zero]
    old.WellSized ∧ new.WellSized ∧ (old == new) = true ∧
      ∃ d, old.diff {} new = .ok d ∧ d.isMergeOnly = true ∧ d.cost = 0 ∧ d.counts.merges = 6 := by
  intro x old new
  have hx : x.WellSized := by simp [x, Tree.wellSized_branch, Tree.wellSized_leaf]
  have ho : old.WellSized := by simp [old, hx, Tree.wellSized_container, Tree.wellSized_leaf]
  have hn : new.WellSized := by
    simp [new, hx, Tree.wellSized_container, Tree.wellSized_leaf, Tree.wellSized_withFingerprint]
  have he : (old == new) = true := rfl
  obtain ⟨d, hd, hc, hm, hs⟩ := mergeOnly_iff_equal {} ho hn
  have hd' := hm.mpr he
  exact ⟨ho, hn, he, d, hd, hd', hc.mp hd', (hs he).1⟩

end TreeDiff
