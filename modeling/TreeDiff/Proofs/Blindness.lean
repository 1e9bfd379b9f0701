import TreeDiff.Proofs.Charges
import TreeDiff.Proofs.Choice
import TreeDiff.Proofs.Completion

/-!
# Diffs without fingerprints

Fingerprints only ever serve to draw up a shortlist. Where it has room for every candidate in reach,
or where one of the two trees has no fingerprints at all, a diff without its fingerprints is the
diff of the trees without theirs, whatever the fingerprints are.
-/

set_option autoImplicit false

namespace TreeDiff

def Goal.bare : Goal → Goal
  | compare a b => compare a.bare b.bare
  | zip a b => zip a.bare b.bare
  | align olds news => align (olds.map Tree.bare) (news.map Tree.bare)
  | delete a => delete a.bare
  | insert b => insert b.bare
  | replace a b => replace a.bare b.bare

def Work.bare : Work → Work
  | aligned olds news => aligned (olds.map Tree.bare) (news.map Tree.bare)
  | positional goals => positional (goals.map Goal.bare)

def Plan.bare (plan : Plan) : Plan := ⟨plan.slot.map Goal.bare, plan.children.bare⟩

def Edit.bare : Edit → Edit
  | insert b => insert b.bare
  | delete a => delete a.bare
  | replace a b => replace a.bare b.bare

def Diff.bare : Diff → Diff :=
  fold (fun old new _ below => merge ⟨old.category, none⟩ ⟨new.category, none⟩ below)
    fun e => edit e.bare

@[simp] theorem Diff.bare_merge (old new : Tag) (form : Form Diff) :
    (merge old new form).bare =
      merge ⟨old.category, none⟩ ⟨new.category, none⟩ (form.map bare) := by
  rw [bare, fold_merge]

@[simp] theorem Diff.bare_edit (e : Edit) : (edit e).bare = edit e.bare := by
  rw [bare, fold_edit]

theorem Diff.bare_assemble (old new : Tree) (slot : Option Diff) (children : List Diff) :
    (assemble old new slot children).bare =
      assemble old.bare new.bare (slot.map bare) (children.map bare) := by
  have ht (t : Tree) : t.bare.tag = ⟨t.tag.category, none⟩ := by
    rw [Tree.bare_eq]
    rfl
  rw [assemble, assemble, bare_merge, ht, ht, Tree.bare_form]
  cases new.form <;> rfl

namespace Plan

theorem slotGoal_bare (s r : Option Tree) :
    slotGoal (s.map Tree.bare) (r.map Tree.bare) = (slotGoal s r).map Goal.bare := by
  cases s <;> cases r <;> rfl

theorem byPosition_bare (slot : Option Goal) (xs ys : List Tree) :
    byPosition (slot.map Goal.bare) (xs.map Tree.bare) (ys.map Tree.bare) =
      (byPosition slot xs ys).map bare := by
  have hz : List.zipWith Goal.compare (xs.map Tree.bare) (ys.map Tree.bare) =
      (List.zipWith Goal.compare xs ys).map Goal.bare := by
    rw [List.zipWith_map, List.map_zipWith]
    rfl
  rw [byPosition, byPosition, List.length_map, List.length_map, hz]
  split <;> rfl

theorem aligning_bare (a b : Tree) : aligning a.bare b.bare = (aligning a b).map bare := by
  rw [aligning, aligning, Tree.comparable_bare, Tree.bare_form, Tree.bare_form]
  split
  · cases a.form <;> cases b.form <;> simp [Form.map, bare, Work.bare, slotGoal_bare]
  · rfl

theorem zipping_bare (a b : Tree) : zipping a.bare b.bare = (zipping a b).map bare := by
  rw [zipping, zipping, Tree.comparable_bare, Tree.bare_form, Tree.bare_form]
  split
  · cases a.form with
    | leaf x =>
      cases b.form with
      | leaf y => by_cases hx : x = y <;> simp [Form.map, hx, bare, Work.bare]
      | _ => rfl
    | sequence xs =>
      cases b.form with
      | sequence ys => exact byPosition_bare none xs ys
      | _ => rfl
    | container s xs =>
      cases b.form with
      | container r ys =>
        cases s with
        | none =>
          cases r with
          | none => exact byPosition_bare none xs ys
          | some y => rfl
        | some x =>
          cases r with
          | none => rfl
          | some y => exact byPosition_bare (some (.compare x y)) xs ys
      | _ => cases s <;> rfl
    | branch xs =>
      cases b.form with
      | branch ys => exact byPosition_bare none xs ys
      | _ => rfl
  · rfl

theorem matching_bare (a b : Tree) : matching a.bare b.bare = (matching a b).map bare := by
  rw [matching, matching, aligning_bare, zipping_bare]
  cases aligning a b <;> rfl

end Plan

namespace Tree

def Unmarked (t : Tree) : Prop := ∀ u ∈ t.subtrees, u.fingerprint = none

theorem Unmarked.root {t : Tree} (h : t.Unmarked) : t.fingerprint = none := by
  apply h t
  rw [subtrees_eq]
  exact List.mem_cons_self

theorem Unmarked.part {t u : Tree} (h : t.Unmarked) (hu : u ∈ t.form.parts) : u.Unmarked := by
  intro v hv
  apply h v
  rw [subtrees_eq]
  exact List.mem_cons_of_mem _ (List.mem_flatMap.mpr ⟨u, hu, hv⟩)

/-- The shortlist has room for all that is in reach, or one of the trees has no fingerprints. -/
def Indifferent (l : Limits) (a b : Tree) : Prop :=
  l.window ≤ l.kept ∨ a.Unmarked ∨ b.Unmarked

theorem Indifferent.part {l : Limits} {a b x y : Tree} (h : Indifferent l a b)
    (hx : x ∈ a.form.parts) (hy : y ∈ b.form.parts) : Indifferent l x y :=
  h.imp id (Or.imp (fun h => h.part hx) fun h => h.part hy)

theorem Indifferent.children {l : Limits} {a b : Tree} (h : Indifferent l a b) :
    (judge l).Indifferent l a.form.children b.form.children := by
  refine h.imp id fun h x hx y hy => ?_
  rcases h with h | h
  · have hd := (h.part (Form.child_mem_parts hx)).root
    simp [judge, hd]
  · have hd := (h.part (Form.child_mem_parts hy)).root
    simp [judge, hd]

/-- All that a judge of trees says of trees without fingerprints it says of the trees, but for the
distances. -/
theorem judge_bare (l : Limits) : (judge l).comap bare bare = (judge l).blind := by
  simp [Judge.comap, Judge.blind, judge, ← beq_eq_bare]

theorem align_bare {l : Limits} {xs ys : List Tree} (h : (judge l).Indifferent l xs ys) :
    align l (xs.map bare) (ys.map bare) = (align l xs ys).map (Entry.map bare bare) := by
  rw [align, align, Judge.align_map, judge_bare, Judge.align_blind h]

end Tree

section

variable {l : Limits} {rec rec' : Tree → Tree → Diff}

theorem slot_bare {s r : Option Tree}
    (h : ∀ x ∈ s, ∀ y ∈ r, (rec x y).bare = rec' x.bare y.bare) :
    ((Plan.slotGoal s r).bind (Goal.ending? rec)).map Diff.bare =
      ((Plan.slotGoal s r).map Goal.bare).bind (Goal.ending? rec') := by
  cases s with
  | none => cases r <;> simp [Plan.slotGoal, Goal.bare, Goal.ending?, Edit.bare]
  | some x =>
    cases r with
    | none => simp [Plan.slotGoal, Goal.bare, Goal.ending?, Edit.bare]
    | some y => simpa [Plan.slotGoal, Goal.bare, Goal.ending?] using h x rfl y rfl

theorem endings_bare {plan : Plan} {a b : Tree} (hp : plan.Matches a b)
    (hl : (Tree.judge l).Indifferent l a.form.children b.form.children)
    (h : ∀ x ∈ a.form.children, ∀ y ∈ b.form.children, (rec x y).bare = rec' x.bare y.bare) :
    (plan.children.endings l rec).map Diff.bare = plan.children.bare.endings l rec' := by
  rcases hp.children with ⟨hc, -⟩ | ⟨hc, hn⟩
  · rw [hc]
    show ((Tree.align l _ _).map (Entry.ending rec)).map Diff.bare =
      (Tree.align l (_ : List Tree) _).map (Entry.ending rec')
    rw [Tree.align_bare hl, List.map_map, List.map_map]
    apply List.map_congr_left
    intro e he
    cases e with
    | old x => simp [Entry.ending, Entry.map, Edit.bare]
    | new y => simp [Entry.ending, Entry.map, Edit.bare]
    | paired x y =>
      have hm := Tree.mem_of_paired he
      exact h x hm.1 y hm.2
  · have hz : Work.bare (.positional (List.zipWith .compare a.form.children b.form.children)) =
        .positional (List.zipWith .compare (a.form.children.map Tree.bare)
          (b.form.children.map Tree.bare)) := by
      rw [Work.bare, List.map_zipWith, List.zipWith_map]
      rfl
    rw [hc, hz, Work.endings_positional, Work.endings_positional, List.map_zipWith,
      List.zipWith_map]
    apply List.zipWith_congr
    refine List.forall₂_iff_zip.mpr ⟨hn, fun hxy => ?_⟩
    have hm := List.of_mem_zip hxy
    exact h _ hm.1 _ hm.2

theorem plan_bare {plan : Plan} {a b : Tree} (hp : plan.Matches a b)
    (hl : Tree.Indifferent l a b)
    (h : ∀ x ∈ a.form.parts, ∀ y ∈ b.form.parts, (rec x y).bare = rec' x.bare y.bare) :
    (plan.diff l rec a b).bare = plan.bare.diff l rec' a.bare b.bare := by
  have hs : (plan.slot.bind (Goal.ending? rec)).map Diff.bare =
      (plan.slot.map Goal.bare).bind (Goal.ending? rec') := by
    rw [hp.slot]
    exact slot_bare fun x hx y hy => h x (Form.slot_mem_parts hx) y (Form.slot_mem_parts hy)
  have hc := endings_bare hp hl.children fun x hx y hy =>
    h x (Form.child_mem_parts hx) y (Form.child_mem_parts hy)
  rw [Plan.diff, Diff.bare_assemble, hs, hc]
  rfl

end

/-- Where fingerprints play no part, the diff of the trees without them is the diff without them. -/
theorem comparison_bare {l : Limits} {a b : Tree} (hl : Tree.Indifferent l a b) :
    (Tree.comparison l a b).bare = Tree.comparison l a.bare b.bare := by
  revert hl
  refine Tree.comparison_induction
    (motive := fun a b d => Tree.Indifferent l a b → d.bare = Tree.comparison l a.bare b.bare)
    ?_ ?_ a b
  · intro a b hm _
    rw [Tree.comparison_eq, Tree.comparisonBy, Plan.matching_bare, hm, Diff.bare_edit]
    rfl
  · intro a b plan hm hp ih hl
    rw [Tree.comparison_eq, Tree.comparisonBy, Plan.matching_bare, hm]
    exact plan_bare hp hl fun x hx y hy => ih x hx y hy (hl.part hx hy)

/-- Two diffs of equal trees are the same up to fingerprints, whatever these are, when the shortlist
has room for every candidate in reach or when in each diff one side has no fingerprints. -/
theorem fingerprints_leave_diff {l : Limits} {old old' new new' : Tree}
    (ho : (old == old') = true) (hn : (new == new') = true)
    (h : l.window ≤ l.kept ∨
      (old.Unmarked ∨ new.Unmarked) ∧ (old'.Unmarked ∨ new'.Unmarked)) :
    ∃ d d', old.diff l new = .ok d ∧ old'.diff l new' = .ok d' ∧ d.bare = d'.bare := by
  refine ⟨_, _, diff_eq_comparison l old new, diff_eq_comparison l old' new', ?_⟩
  have hl : Tree.Indifferent l old new := h.imp id And.left
  have hl' : Tree.Indifferent l old' new' := h.imp id And.right
  rw [comparison_bare hl, comparison_bare hl', Tree.beq_iff_bare.mp ho, Tree.beq_iff_bare.mp hn]

/-- An infinite fingerprint on one old name, and an undefined one on the new name; then the same
with the default shortlist, which has no room for all, and no fingerprint on the new side. -/
theorem infinite_fingerprints_leave_diff :
    let old : Tree := .sequence "block" [.leaf "name" "x", .leaf "name" "y"]
    let new : Tree := .sequence "block" [.leaf "name" "z"]
    let old' : Tree := .sequence "block"
      [.leaf "name" "x", (Tree.leaf "name" "y").withFingerprint (.ofList [1 / 0])]
    let new' : Tree := .sequence "block" [(Tree.leaf "name" "z").withFingerprint (.ofList [0 / 0])]
    let wide : Limits := { shortlist := 8 }
    (old == old') = true ∧ (new == new') = true ∧ wide.window ≤ wide.kept ∧ new.Unmarked ∧
      (∃ d d', old.diff wide new = .ok d ∧ old'.diff wide new' = .ok d' ∧ d.bare = d'.bare) ∧
      ∃ d d', old.diff {} new = .ok d ∧ old'.diff {} new = .ok d' ∧ d.bare = d'.bare := by
  intro old new old' new' wide
  have ho : (old == old') = true := rfl
  have hn : (new == new') = true := rfl
  have hw : wide.window ≤ wide.kept := by decide
  have hu : new.Unmarked := by
    intro u h
    simp [new, Tree.sequence, Tree.leaf, Tree.node, Tree.subtrees_eq, Form.parts, Form.slot?,
      Form.children] at h
    rcases h with rfl | rfl <;> rfl
  exact ⟨ho, hn, hw, hu, fingerprints_leave_diff ho hn (.inl hw),
    fingerprints_leave_diff ho rfl (.inr ⟨.inr hu, .inr hu⟩)⟩

end TreeDiff
