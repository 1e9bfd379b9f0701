import TreeDiff.Proofs.Identity
import TreeDiff.Proofs.Matching
import TreeDiff.Proofs.Reach
import TreeDiff.Proofs.Sides

/-!
# The grammar of diffs

Where a node of a diff may stand depends on what it is. Something comes or goes only where a list
or a slot has room for it; trees are replaced only if they cannot be merged, and within a list only
if they share their category, since an alignment pairs no others; and a merge has a diff for its
slot exactly when one of the trees it merges has a slot.
-/

set_option autoImplicit false

namespace TreeDiff

inductive Place where
  | root
  | slot
  | child (shape : Shape)

def Place.Listed (p : Place) : Prop := p = child .sequence ∨ p = child .container

def Form.placed {α : Type} (form : Form α) : List (Place × α) :=
  form.slot?.toList.map (.slot, ·) ++ form.children.map (.child form.shape, ·)

theorem Form.placed_map {α β : Type} (f : α → β) (form : Form α) :
    (form.map f).placed = form.placed.map (Prod.map id f) := by
  cases form with
  | container slot xs => cases slot <;> simp [placed, map, slot?, children, shape]
  | _ => simp [placed, map, slot?, children, shape]

theorem Form.placed_snd {α : Type} (form : Form α) : form.placed.map Prod.snd = form.parts := by
  simp [placed, parts, Function.comp_def]

namespace Diff

def places (d : Diff) (p : Place) : List (Place × Diff) :=
  fold (fun t u form below p =>
      (p, merge t u form) :: below.placed.flatMap fun q => q.2 q.1)
    (fun e p => [(p, edit e)]) d p

@[simp] theorem places_edit (e : Edit) (p : Place) : (edit e).places p = [(p, edit e)] :=
  congrFun (fold_edit _ _ e) p

@[simp] theorem places_merge (t u : Tag) (form : Form Diff) (p : Place) :
    (merge t u form).places p =
      (p, merge t u form) :: form.placed.flatMap fun q => q.2.places q.1 := by
  refine (congrFun (fold_merge _ _ t u form) p).trans ?_
  rw [Form.placed_map, List.flatMap_map]
  rfl

/-- No node is left out. -/
theorem places_walk (d : Diff) (p : Place) : (d.places p).map Prod.snd = d.walk := by
  induction d using induction_parts generalizing p with
  | edit e => simp
  | merge t u form ih =>
    rw [places_merge, walk_merge, List.map_cons, List.map_flatMap, ← form.placed_snd,
      List.flatMap_map]
    congr 1
    apply List.flatMap_congr
    intro q hq
    exact ih q.2 (form.placed_snd ▸ List.mem_map_of_mem hq) q.1

structure SlotLaw (s r : Option Tree) (slot : Option Diff) : Prop where
  isSome : slot.isSome ↔ s.isSome ∨ r.isSome
  insert : ∀ y, slot = some (.edit (.insert y)) ↔ s = none ∧ r = some y
  delete : ∀ x, slot = some (.edit (.delete x)) ↔ s = some x ∧ r = none

def Lawful (old new : Tree) (p : Place) : Diff → Prop
  | merge t u form =>
    t.category = u.category ∧
      (form.shape = .leaf ∨ form.shape = .branch →
        ∀ e, edit e ∈ form.parts → ∃ a b, e = .replace a b) ∧
      ∃ a ∈ old.subtrees, ∃ b ∈ new.subtrees,
        (merge t u form).side .old = some a ∧ (merge t u form).side .new = some b ∧
          SlotLaw a.form.slot? b.form.slot? form.slot?
  | edit (.replace a b) =>
    Plan.Unmatched a b ∧
      (a.category = b.category → a.shape = b.shape → a.shape = .leaf ∨ a.shape = .branch) ∧
      (p.Listed → a.category = b.category)
  | edit (.insert _) => p = .slot ∨ p.Listed
  | edit (.delete _) => p = .slot ∨ p.Listed

theorem Lawful.mono {a b old new : Tree} {p : Place} {d : Diff} (h : d.Lawful a b p)
    (ha : a.subtrees ⊆ old.subtrees) (hb : b.subtrees ⊆ new.subtrees) : d.Lawful old new p := by
  cases d with
  | merge t u form =>
    obtain ⟨hc, hf, x, hx, y, hy, hs⟩ := h
    exact ⟨hc, hf, x, ha hx, y, hb hy, hs⟩
  | edit e => cases e <;> exact h

def Grammatical (old new : Tree) (p : Place) (d : Diff) : Prop :=
  ∀ q node, (q, node) ∈ d.places p → node.Lawful old new q

theorem Grammatical.mono {a b old new : Tree} {p : Place} {d : Diff} (h : d.Grammatical a b p)
    (ha : a.subtrees ⊆ old.subtrees) (hb : b.subtrees ⊆ new.subtrees) :
    d.Grammatical old new p :=
  fun q node hm => (h q node hm).mono ha hb

theorem grammatical_edit {old new : Tree} {p : Place} {e : Edit} :
    (edit e).Grammatical old new p ↔ (edit e).Lawful old new p := by
  simp [Grammatical]

theorem grammatical_merge {old new : Tree} {p : Place} {t u : Tag} {form : Form Diff}
    (h : (merge t u form).Lawful old new p)
    (hp : ∀ q d, (q, d) ∈ form.placed → d.Grammatical old new q) :
    (merge t u form).Grammatical old new p := by
  intro q node hm
  rw [places_merge, List.mem_cons, List.mem_flatMap] at hm
  rcases hm with hm | ⟨⟨p', d⟩, hd, hm⟩
  · cases hm
    exact h
  · exact hp p' d hd q node hm

end Diff

open Diff

/-- If the diff of two trees is an edit, it replaces the one by the other. -/
theorem replace_of_comparison {l : Limits} {a b : Tree} {e : Edit}
    (h : Tree.comparison l a b = .edit e) : e = .replace a b := by
  rw [Tree.comparison_eq, Tree.comparisonBy] at h
  split at h
  · cases h
  · cases h
    rfl

theorem slotLaw_comparison (l : Limits) (s r : Option Tree) :
    SlotLaw s r ((Plan.slotGoal s r).bind (Goal.ending? (Tree.comparison l))) := by
  cases s with
  | none =>
    cases r with
    | none => constructor <;> simp [Plan.slotGoal]
    | some y => constructor <;> simp [Plan.slotGoal, Goal.ending?]
  | some x =>
    cases r with
    | none => constructor <;> simp [Plan.slotGoal, Goal.ending?]
    | some y =>
      have hn (e : Edit) (he : e ≠ .replace x y) : Tree.comparison l x y ≠ .edit e :=
        fun h => he (replace_of_comparison h)
      constructor <;> simp [Plan.slotGoal, Goal.ending?, hn]

theorem unmatched_shape {a b : Tree} (h : Plan.Unmatched a b) (hc : a.category = b.category)
    (hs : a.shape = b.shape) : a.shape = .leaf ∨ a.shape = .branch := by
  rcases h with h | h | ⟨x, y, ha, -⟩ | ⟨xs, ys, ha, -⟩
  · exact absurd hc h
  · exact absurd hs h
  · exact .inl (congrArg Form.shape ha)
  · exact .inr (congrArg Form.shape ha)

def Obeys (rec : Tree → Tree → Diff) (xs ys : List Tree) : Prop :=
  ∀ x ∈ xs, ∀ y ∈ ys, ∀ p : Place, (p.Listed → x.category = y.category) →
    (rec x y).Grammatical x y p

section

variable {l : Limits} {rec : Tree → Tree → Diff} {a b : Tree}

theorem compared_grammatical (h : Obeys rec a.form.parts b.form.parts) {x y : Tree}
    (hx : x ∈ a.form.parts) (hy : y ∈ b.form.parts) {p : Place}
    (hp : p.Listed → x.category = y.category) : (rec x y).Grammatical a b p :=
  (h x hx y hy p hp).mono (Tree.subtrees_of_part hx) (Tree.subtrees_of_part hy)

theorem slot_grammatical (h : Obeys rec a.form.parts b.form.parts) {d : Diff}
    (hd : d ∈ (Plan.slotGoal a.form.slot? b.form.slot?).bind (Goal.ending? rec)) :
    d.Grammatical a b .slot := by
  cases slot_piece hd with
  | compared hx hy =>
    have hx := Form.slot_mem_parts (Option.mem_toList.mp hx)
    have hy := Form.slot_mem_parts (Option.mem_toList.mp hy)
    exact compared_grammatical h hx hy (by rintro (hl | hl) <;> cases hl)
  | deleted hx => exact grammatical_edit.mpr (.inl rfl)
  | inserted hy => exact grammatical_edit.mpr (.inl rfl)

theorem aligned_grammatical (h : Obeys rec a.form.parts b.form.parts) {p : Place}
    (hp : p.Listed) {d : Diff}
    (hd : d ∈ (Work.aligned a.form.children b.form.children).endings l rec) :
    d.Grammatical a b p := by
  obtain ⟨e, he, rfl⟩ := List.mem_map.mp hd
  cases e with
  | old x => exact grammatical_edit.mpr (.inr hp)
  | new y => exact grammatical_edit.mpr (.inr hp)
  | paired x y =>
    obtain ⟨hx, hy⟩ := Tree.mem_of_paired he
    exact compared_grammatical h (Form.child_mem_parts hx) (Form.child_mem_parts hy)
      fun _ => Tree.category_of_paired he

theorem positional_grammatical (h : Obeys rec a.form.parts b.form.parts) {p : Place}
    (hp : ¬ p.Listed) {d : Diff}
    (hd : d ∈ List.zipWith rec a.form.children b.form.children) : d.Grammatical a b p := by
  rw [← List.map_uncurry_zip_eq_zipWith] at hd
  obtain ⟨⟨x, y⟩, hz, rfl⟩ := List.mem_map.mp hd
  obtain ⟨hx, hy⟩ := List.of_mem_zip hz
  exact compared_grammatical h (Form.child_mem_parts hx) (Form.child_mem_parts hy)
    fun hl => absurd hl hp

end

/-- Where nothing comes or goes, edits are replacements. -/
theorem replace_of_lawful {old new : Tree} {p : Place} {e : Edit}
    (h : (edit e).Lawful old new p) (hs : p ≠ .slot) (hl : ¬ p.Listed) :
    ∃ a b, e = .replace a b := by
  cases e with
  | insert b => exact (h.elim hs hl).elim
  | delete a => exact (h.elim hs hl).elim
  | replace a b => exact ⟨a, b, rfl⟩

theorem fixed_of_grammatical {old new : Tree} {form : Form Diff}
    (h : ∀ q d, (q, d) ∈ form.placed → d.Grammatical old new q)
    (hs : form.shape = .leaf ∨ form.shape = .branch) {e : Edit} (he : edit e ∈ form.parts) :
    ∃ a b, e = .replace a b := by
  have hn : form.slot? = none := Form.slot?_eq_none (by rcases hs with hs | hs <;> simp [hs])
  rw [Form.parts, hn, Option.toList_none, List.nil_append] at he
  have hm : (Place.child form.shape, edit e) ∈ form.placed :=
    List.mem_append_right _ (List.mem_map_of_mem he)
  have hslot : Place.child form.shape ≠ .slot := by simp
  refine replace_of_lawful (grammatical_edit.mp (h _ _ hm)) hslot ?_
  rintro (hl | hl) <;> rcases hs with hs | hs <;> simp [hs] at hl

theorem plan_grammatical {l : Limits} {a b : Tree} {plan : Plan}
    (hm : Plan.matching a b = some plan) (ha : a.WellSized) (hb : b.WellSized)
    (h : Obeys (Tree.comparison l) a.form.parts b.form.parts) (p : Place) :
    (plan.diff l (Tree.comparison l) a b).Grammatical a b p := by
  have hp := Plan.matching_matches hm
  obtain ⟨form, hd, hs, -, hr, hc⟩ := Plan.diff_form l (Tree.comparison l) hp
  have hside (s : Side) : (plan.diff l (Tree.comparison l) a b).side s = some (s.pick a b) := by
    rw [plan_side s l hp fun x hx y hy => comparison_side l s x y (ha.part hx) (hb.part hy)]
    cases s with
    | old => exact congrArg some ha.node_eq
    | new => exact congrArg some hb.node_eq
  have hparts : ∀ q d, (q, d) ∈ form.placed → d.Grammatical a b q := by
    intro q d hq
    rcases List.mem_append.mp hq with hq | hq
    · obtain ⟨d, hmem, he⟩ := List.mem_map.mp hq
      cases he
      rw [hr, Option.mem_toList] at hmem
      exact slot_grammatical h hmem
    · obtain ⟨d, hmem, he⟩ := List.mem_map.mp hq
      cases he
      rw [hs]
      rcases Plan.matching_cases hm with ⟨-, hw, hl⟩ | ⟨-, -, hw, hl⟩
      · rw [hc, hw] at hmem
        exact aligned_grammatical h (hl.imp (congrArg _) (congrArg _)) hmem
      · rw [hc, hw, Work.endings_positional] at hmem
        refine positional_grammatical h ?_ hmem
        rintro (hn | hn) <;> rcases hl with hl | hl <;> simp [hl] at hn
  rw [hd] at hside ⊢
  refine grammatical_merge ⟨hp.category, fun hf e => fixed_of_grammatical hparts hf, ?_⟩ hparts
  exact ⟨a, a.self_mem_subtrees, b, b.self_mem_subtrees, hside .old, hside .new,
    hr ▸ slotLaw_comparison l a.form.slot? b.form.slot?⟩

theorem comparison_grammatical (l : Limits) {a b : Tree} (ha : a.WellSized) (hb : b.WellSized)
    {p : Place} (hp : p.Listed → a.category = b.category) :
    (Tree.comparison l a b).Grammatical a b p := by
  revert ha hb p
  refine Tree.comparison_induction
    (motive := fun a b d => a.WellSized → b.WellSized → ∀ {p : Place},
      (p.Listed → a.category = b.category) → d.Grammatical a b p) ?_ ?_ a b
  · intro a b hm _ _ p hp
    have hu := Plan.matching_eq_none.mp hm
    exact grammatical_edit.mpr ⟨hu, unmatched_shape hu, hp⟩
  · intro a b plan hm _ ih ha hb p _
    exact plan_grammatical hm ha hb
      (fun x hx y hy _ => ih x hx y hy (ha.part hx) (hb.part hy)) p

/-- Every node of a diff obeys the laws of its place. Merges join trees of one category, subtrees of
the two inputs, and have a diff for the slot exactly when one of these has a slot. Trees are
replaced only if they cannot be merged; insertions and deletions stand in slots and lists only. -/
theorem diff_lawful (l : Limits) {old new : Tree} (ho : old.WellSized) (hn : new.WellSized) :
    ∃ d, old.diff l new = .ok d ∧ (d.places .root).map Prod.snd = d.walk ∧
      ∀ p node, (p, node) ∈ d.places .root → node.Lawful old new p :=
  ⟨_, diff_eq_comparison l old new, places_walk _ _,
    comparison_grammatical l ho hn (by rintro (hl | hl) <;> cases hl)⟩

/-- A function gets a name, one of its statements becomes another and one of them goes. -/
theorem named_function_lawful :
    let old : Tree := .container "function" none
      [.leaf "statement" "x", .leaf "statement" "y", .branch "call" [.leaf "name" "g"]]
    let new : Tree := .container "function" (some (.leaf "name" "f"))
      [.leaf "statement" "z", .branch "call" [.leaf "name" "h"]]
    old.WellSized ∧ new.WellSized ∧
      ∃ d, old.diff {} new = .ok d ∧
        ∀ p node, (p, node) ∈ d.places .root → node.Lawful old new p := by
  intro old new
  have ho : old.WellSized := by
    simp [old, Tree.wellSized_container, Tree.wellSized_branch, Tree.wellSized_leaf]
  have hn : new.WellSized := by
    simp [new, Tree.wellSized_container, Tree.wellSized_branch, Tree.wellSized_leaf]
  obtain ⟨d, hd, -, hl⟩ := diff_lawful {} ho hn
  exact ⟨ho, hn, d, hd, hl⟩

end TreeDiff
