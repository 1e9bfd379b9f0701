import Mathlib.Data.List.Forall2
import TreeDiff.Proofs.Anchors
import TreeDiff.Proofs.Identity
import TreeDiff.Proofs.Matching
import TreeDiff.Proofs.Sides

/-!
# Insertions and deletions in a list

When the elements of one list are found in order among those of the other, a longest common
subsequence takes in all of them. So nothing on the shorter side is without an identical partner,
and what is without one on the longer side is inserted or deleted, each such element in one edit.
Both cases are one, read for either side.
-/

set_option autoImplicit false

namespace TreeDiff

section

variable {α β : Type}

def Judge.unites (j : Judge α β) : Entry α β → Bool
  | .paired a b => j.identical a b
  | _ => false

theorem length_identicalPairs (j : Judge α β) (es : List (Entry α β)) :
    (j.identicalPairs es).length = (es.filter j.unites).length := by
  induction es with
  | nil => rfl
  | cons e es ih =>
    rw [← List.singleton_append, Judge.identicalPairs_append, List.filter_append,
      List.length_append, List.length_append, ih]
    cases e with
    | old a => rfl
    | new b => rfl
    | paired a b => cases hi : j.identical a b <;> simp [Judge.identicalPairs, Judge.unites, hi]

/-- With as many identical pairs as there are elements on a side, each of these is in such a
pair. -/
theorem unites_of_length {γ : Type} (j : Judge α β) {f : Entry α β → Option γ}
    (hf : ∀ a b, (f (.paired a b)).isSome) {es : List (Entry α β)}
    (h : (es.filterMap f).length ≤ (j.identicalPairs es).length) {e : Entry α β} (he : e ∈ es) :
    f e = none ∨ j.unites e = true := by
  have hs : (es.filter j.unites).Sublist (es.filter fun e => (f e).isSome) := by
    apply List.monotone_filter_right
    intro e hu
    cases e with
    | old a => cases hu
    | new b => cases hu
    | paired a b => exact hf a b
  rw [List.length_filterMap_eq_countP, List.countP_eq_length_filter, length_identicalPairs] at h
  have hq := hs.eq_of_length_le h
  cases hn : f e with
  | none => exact .inl rfl
  | some c =>
    have hm : e ∈ es.filter j.unites := hq ▸ List.mem_filter.mpr ⟨he, by rw [hn]; rfl⟩
    exact .inr (List.mem_filter.mp hm).2

theorem common_of_sublist {identical : α → β → Bool} {xs : List α} {ys : List β}
    (h : List.SublistForall₂ (fun x y => identical x y = true) xs ys) :
    ∃ ps, Common identical xs ys ps ∧ ps.length = xs.length := by
  obtain ⟨zs, hxz, hzy⟩ := List.sublistForall₂_iff.mp h
  have hn := hxz.length_eq
  refine ⟨xs.zip zs, ⟨?_, ?_, fun p hp => List.forall₂_zip hxz hp⟩, ?_⟩
  · rw [List.map_fst_zip hn.le]
  · rwa [List.map_snd_zip hn.ge]
  · rw [List.length_zip, hn, Nat.min_self]

theorem Common.swap {identical : α → β → Bool} {xs : List α} {ys : List β} {ps : List (α × β)}
    (h : Common identical xs ys ps) :
    Common (fun y x => identical x y) ys xs (ps.map Prod.swap) where
  olds := by simpa [Function.comp_def] using h.news
  news := by simpa [Function.comp_def] using h.olds
  identical := by
    intro p hp
    obtain ⟨q, hq, rfl⟩ := List.mem_map.mp hp
    exact h.identical q hq

end

theorem edit?_of_edits {d : Diff} (h : d.edits = []) : d.edit? = none := by
  cases d with
  | merge t u form => rfl
  | edit e => simp at h

section

variable {s : Side} {rec : Tree → Tree → Diff} {es : List (Entry Tree Tree)}

def Keeps (s : Side) (rec : Tree → Tree → Diff) (e : Entry Tree Tree) : Prop :=
  s.ofEntry? e = none ∨ ∃ a b, e = .paired a b ∧ (rec a b).edits = []

/-- Such an entry makes one edit, which holds nothing of side `s` either, or none. -/
theorem ending_keeps {e : Entry Tree Tree} (h : Keeps s rec e) :
    (e.ending rec).edits = (e.ending rec).edit?.toList ∧
      (∀ x ∈ (e.ending rec).edit?, s.ofEdit? x = none) ∧
      (e.ending rec).edit?.toList.length + (s.ofEntry? e).toList.length =
        (s.other.ofEntry? e).toList.length := by
  cases e with
  | old a =>
    cases s with
    | old => rcases h with h | ⟨_, _, h, -⟩ <;> cases h
    | new => exact ⟨Diff.edits_edit _, by rintro x ⟨⟩; rfl, rfl⟩
  | new b =>
    cases s with
    | old => exact ⟨Diff.edits_edit _, by rintro x ⟨⟩; rfl, rfl⟩
    | new => rcases h with h | ⟨_, _, h, -⟩ <;> cases h
  | paired a b =>
    have hab : (rec a b).edits = [] := by
      rcases h with h | ⟨_, _, h, hab⟩
      · cases s <;> cases h
      · cases h
        exact hab
    rw [Entry.ending, hab, edit?_of_edits hab]
    exact ⟨rfl, by rintro x ⟨⟩, by cases s <;> rfl⟩

theorem kept_edits (h : ∀ e ∈ es, Keeps s rec e) :
    (es.map (Entry.ending rec)).flatMap Diff.edits =
      (es.map (Entry.ending rec)).filterMap Diff.edit? := by
  rw [List.filterMap_eq_flatMap_toList, List.flatMap_map, List.flatMap_map]
  apply List.flatMap_congr
  intro e he
  exact (ending_keeps (h e he)).1

theorem kept_side (h : ∀ e ∈ es, Keeps s rec e) :
    ∀ x ∈ (es.map (Entry.ending rec)).filterMap Diff.edit?, s.ofEdit? x = none := by
  intro x hx
  obtain ⟨d, hd, hx⟩ := List.mem_filterMap.mp hx
  obtain ⟨e, he, rfl⟩ := List.mem_map.mp hd
  exact (ending_keeps (h e he)).2.1 x hx

/-- There is one edit for each element by which the other side is longer. -/
theorem kept_length (h : ∀ e ∈ es, Keeps s rec e) :
    ((es.map (Entry.ending rec)).filterMap Diff.edit?).length + (es.filterMap s.ofEntry?).length =
      (es.filterMap s.other.ofEntry?).length := by
  simp only [List.filterMap_eq_flatMap_toList]
  induction es with
  | nil => rfl
  | cons e es ih =>
    obtain ⟨he, hes⟩ := List.forall_mem_cons.mp h
    have hn := (ending_keeps he).2.2
    have ih := ih hes
    simp only [List.map_cons, List.flatMap_cons, List.length_append]
    omega

end

structure SameList (old new : Tree) : Prop where
  category : old.category = new.category
  shape : old.shape = new.shape
  list : new.shape = .sequence ∨ new.shape = .container
  slot : Option.Rel (fun x y => (x == y) = true) old.form.slot? new.form.slot?

def Extends (s : Side) (old new : Tree) : Prop :=
  List.SublistForall₂ (fun x y => (x == y) = true) (s.pick old new).form.children
    (s.other.pick old new).form.children

theorem common_of_extends {s : Side} {old new : Tree} (h : Extends s old new) :
    ∃ ps, Common (· == ·) old.form.children new.form.children ps ∧
      ps.length = (s.pick old new).form.children.length := by
  obtain ⟨ps, hps, hn⟩ := common_of_sublist h
  cases s with
  | old => exact ⟨ps, hps, hn⟩
  | new =>
    have hc : (fun y x : Tree => x == y) = (· == ·) := by
      funext y x
      rw [Bool.eq_iff_iff, Tree.beq_iff_bare, Tree.beq_iff_bare]
      exact eq_comm
    exact ⟨ps.map Prod.swap, hc ▸ hps.swap, by rw [List.length_map, hn]⟩

theorem align_keeps (l : Limits) {s : Side} {old new : Tree} (ho : old.WellSized)
    (hn : new.WellSized) (h : Extends s old new) :
    ∀ e ∈ Tree.align l old.form.children new.form.children,
      Keeps s (Tree.comparison l) e := by
  intro e he
  obtain ⟨ps, hps, hlen⟩ := common_of_extends h
  have hle := Anchoring.length_le_anchors (Tree.judge l).identical hps
  rw [← (Tree.judge l).identicalPairs_align l] at hle
  have hside : ((Tree.align l old.form.children new.form.children).filterMap s.ofEntry?).length ≤
      ((Tree.judge l).identicalPairs
        (Tree.align l old.form.children new.form.children)).length := by
    rw [align_sides, ← s.pick_map Form.children, ← s.pick_map Tree.form, ← hlen]
    exact hle
  have hf (a b : Tree) : (s.ofEntry? (.paired a b)).isSome := by cases s <;> rfl
  refine (unites_of_length (Tree.judge l) hf hside he).imp_right fun hu => ?_
  cases e with
  | old a => cases hu
  | new b => cases hu
  | paired a b =>
    obtain ⟨ha, hb⟩ := Tree.mem_of_paired he
    have hm := comparison_mergeOnly l (ho.child ha) (hn.child hb)
    exact ⟨a, b, rfl, (Diff.isMergeOnly_iff _).mp (hm.mpr (Tree.beq_iff_bare.mp hu))⟩

theorem slot_keeps (l : Limits) {s r : Option Tree} (hs : ∀ x ∈ s, x.WellSized)
    (hr : ∀ y ∈ r, y.WellSized) (h : Option.Rel (fun x y => (x == y) = true) s r) :
    ((Plan.slotGoal s r).bind (Goal.ending? (Tree.comparison l))).toList.flatMap Diff.edits =
      [] := by
  cases h with
  | none => rfl
  | @some x y hxy =>
    have hm := comparison_mergeOnly l (hs x rfl) (hr y rfl)
    have he := (Diff.isMergeOnly_iff _).mp (hm.mpr (Tree.beq_iff_bare.mp hxy))
    exact (List.flatMap_singleton _ _).trans he

theorem total_sizes_eq_zero {f : Edit → Option Tree} {es : List Edit}
    (h : ∀ e ∈ es, f e = none) :
    total (es.map fun e => ((f e).map Tree.size).getD 0) = 0 := by
  induction es with
  | nil => rfl
  | cons e es ih =>
    obtain ⟨he, hes⟩ := List.forall_mem_cons.mp h
    rw [List.map_cons, total_cons, he, ih hes]
    rfl

/-- Edits that hold nothing of a side cost what the other side has more. -/
theorem cost_of_side {s : Side} {d : Diff} (h : ∀ e ∈ d.edits, s.ofEdit? e = none) :
    d.cost + s.pick d.coverage.old d.coverage.new =
      s.other.pick d.coverage.old d.coverage.new := by
  rw [Diff.coverage_eq, Diff.cost_eq]
  cases s with
  | old =>
    have hz : total (d.edits.map Edit.oldSize) = 0 := total_sizes_eq_zero h
    simp only [Side.pick, Side.other]
    omega
  | new =>
    have hz : total (d.edits.map Edit.newSize) = 0 := total_sizes_eq_zero h
    simp only [Side.pick, Side.other]
    omega

/-- Lists of which one extends the other are merged, with an edit for each further element. -/
theorem comparison_extends (l : Limits) {s : Side} {old new : Tree} (ho : old.WellSized)
    (hn : new.WellSized) (hl : SameList old new) (h : Extends s old new) :
    ∃ form, Tree.comparison l old new = .merge old.tag new.tag form ∧
      (Diff.merge old.tag new.tag form).edits = form.children.filterMap Diff.edit? ∧
      (∀ e ∈ (Diff.merge old.tag new.tag form).edits, s.ofEdit? e = none) ∧
      (Diff.merge old.tag new.tag form).edits.length +
          (s.pick old new).form.children.length =
        (s.other.pick old new).form.children.length ∧
      (Diff.merge old.tag new.tag form).cost + (s.pick old new).size =
        (s.other.pick old new).size := by
  obtain ⟨plan, ha⟩ := Option.ne_none_iff_exists'.mp
    (Plan.aligning_ne_none hl.category hl.shape hl.list)
  have hm : Plan.matching old new = some plan := by rw [Plan.matching, ha]
  have hd : Tree.comparison l old new = plan.diff l (Tree.comparison l) old new := by
    rw [Tree.comparison_eq, Tree.comparisonBy, hm]
  obtain ⟨form, hf, -, -, hr, hc⟩ := Plan.diff_form l (Tree.comparison l)
    (Plan.matching_matches hm)
  rw [(Plan.aligning_cases ha).1] at hc
  have hk := align_keeps l ho hn h
  have he : (Diff.merge old.tag new.tag form).edits = form.children.filterMap Diff.edit? := by
    rw [Diff.edits_merge, Form.parts, List.flatMap_append, hr,
      slot_keeps l (fun x hx => ho.slot hx) (fun y hy => hn.slot hy) hl.slot, List.nil_append, hc]
    exact kept_edits hk
  have hs : ∀ e ∈ (Diff.merge old.tag new.tag form).edits, s.ofEdit? e = none := by
    rw [he, hc]
    exact kept_side hk
  refine ⟨form, hd.trans hf, he, hs, ?_, ?_⟩
  · have hlen := kept_length hk
    rw [align_sides, align_sides, ← Side.pick_map _ Form.children, ← Side.pick_map _ Tree.form,
      ← Side.pick_map _ Form.children, ← Side.pick_map _ Tree.form] at hlen
    rwa [he, hc]
  · have hcost := cost_of_side hs
    rw [← hf, ← hd, comparison_coverage l ho hn] at hcost
    rw [← hf, ← hd]
    cases s <;> exact hcost

/-- When the elements of the old list are found in order in the new one, the diff inserts the
others, each by an edit of its own under the root, and changes nothing else; and the other way
around with deletions. The cost is what the longer list has more. -/
theorem list_changes (l : Limits) {old new : Tree} (ho : old.WellSized) (hn : new.WellSized)
    (hl : SameList old new) :
    (List.SublistForall₂ (fun x y => (x == y) = true) old.form.children new.form.children →
      ∃ t u form, old.diff l new = .ok (.merge t u form) ∧
        (Diff.merge t u form).edits = form.children.filterMap Diff.edit? ∧
        (∀ e ∈ (Diff.merge t u form).edits, ∃ b, e = .insert b) ∧
        (Diff.merge t u form).edits.length + old.form.children.length =
          new.form.children.length ∧
        (Diff.merge t u form).cost + old.size = new.size) ∧
    (List.SublistForall₂ (fun x y => (x == y) = true) new.form.children old.form.children →
      ∃ t u form, old.diff l new = .ok (.merge t u form) ∧
        (Diff.merge t u form).edits = form.children.filterMap Diff.edit? ∧
        (∀ e ∈ (Diff.merge t u form).edits, ∃ a, e = .delete a) ∧
        (Diff.merge t u form).edits.length + new.form.children.length =
          old.form.children.length ∧
        (Diff.merge t u form).cost + new.size = old.size) := by
  rw [diff_eq_comparison]
  constructor
  · intro h
    obtain ⟨form, hd, he, hs, hlen, hcost⟩ := comparison_extends l (s := .old) ho hn hl h
    refine ⟨_, _, form, congrArg _ hd, he, ?_, hlen, hcost⟩
    intro e hm
    cases e with
    | insert b => exact ⟨b, rfl⟩
    | delete a => cases hs _ hm
    | replace a b => cases hs _ hm
  · intro h
    obtain ⟨form, hd, he, hs, hlen, hcost⟩ := comparison_extends l (s := .new) ho hn hl h
    refine ⟨_, _, form, congrArg _ hd, he, ?_, hlen, hcost⟩
    intro e hm
    cases e with
    | insert b => cases hs _ hm
    | delete a => exact ⟨a, rfl⟩
    | replace a b => cases hs _ hm

/-- A function body with a repeated statement, and the same with a longer statement in between. -/
theorem repeated_statement_changes :
    let x : Tree := .leaf "statement" "x"
    let y : Tree := .branch "statement" [.leaf "name" "y"]
    let few : Tree := .container "function" (some (.leaf "name" "f")) [x, x]
    let more : Tree := .container "function" (some (.leaf "name" "f"))
      [x, y, x.withFingerprint .zero]
    few.WellSized ∧ more.WellSized ∧
      (∃ d, few.diff {} more = .ok d ∧ d.edits.length = 1 ∧ d.cost = 2 ∧
        ∀ e ∈ d.edits, ∃ b, e = .insert b) ∧
      ∃ d, more.diff {} few = .ok d ∧ d.edits.length = 1 ∧ d.cost = 2 ∧
        ∀ e ∈ d.edits, ∃ a, e = .delete a := by
  intro x y few more
  have hfew : few.WellSized := by
    simp [few, x, Tree.wellSized_container, Tree.wellSized_leaf]
  have hmore : more.WellSized := by
    simp [more, x, y, Tree.wellSized_container, Tree.wellSized_branch, Tree.wellSized_leaf,
      Tree.wellSized_withFingerprint]
  have hs : List.SublistForall₂ (fun x y => (x == y) = true) few.form.children
      more.form.children := .cons rfl (.cons_right (.cons rfl .nil))
  obtain ⟨t, u, form, hi, -, he, hn, hc⟩ :=
    (list_changes {} hfew hmore ⟨rfl, rfl, .inr rfl, .some rfl⟩).1 hs
  obtain ⟨t', u', form', hi', -, he', hn', hc'⟩ :=
    (list_changes {} hmore hfew ⟨rfl, rfl, .inr rfl, .some rfl⟩).2 hs
  exact ⟨hfew, hmore, ⟨_, hi, Nat.add_right_cancel hn, Nat.add_right_cancel hc, he⟩, _, hi',
    Nat.add_right_cancel hn', Nat.add_right_cancel hc', he'⟩

end TreeDiff
