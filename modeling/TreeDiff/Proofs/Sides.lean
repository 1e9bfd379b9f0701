import TreeDiff.Proofs.Completion
import TreeDiff.Proofs.Sizes

/-!
# The two sides of a diff

A diff determines both of its inputs. Read for one side, a merge is a node with the tag of that
side over its parts read for the same side, and an edit is the tree that it holds for that side, if
any; parts that are nothing on that side are left out. What is read so is the input, exactly.
-/

set_option autoImplicit false

namespace TreeDiff

namespace Form

variable {α β : Type}

def present : Form (Option α) → Form α
  | leaf label => leaf label
  | sequence xs => sequence (xs.filterMap id)
  | container slot xs => container (slot.bind id) (xs.filterMap id)
  | branch xs => branch (xs.filterMap id)

theorem present_shape (form : Form (Option α)) : form.present.shape = form.shape := by
  cases form <;> rfl

theorem present_label (form : Form (Option α)) : form.present.label? = form.label? := by
  cases form <;> rfl

theorem present_slot (form : Form (Option α)) : form.present.slot? = form.slot?.bind id := by
  cases form <;> rfl

theorem present_children (form : Form (Option α)) :
    form.present.children = form.children.filterMap id := by
  cases form <;> rfl

end Form

inductive Side where
  | old
  | new

namespace Side

def pick {α : Type} : Side → α → α → α
  | old, x, _ => x
  | new, _, y => y

def ofEdit? : Side → Edit → Option Tree
  | old => Edit.old?
  | new => Edit.new?

def ofEntry? : Side → Entry Tree Tree → Option Tree
  | old => Entry.old?
  | new => Entry.new?

def other : Side → Side
  | old => new
  | new => old

theorem pick_map {α β : Type} (s : Side) (f : α → β) (x y : α) :
    f (s.pick x y) = s.pick (f x) (f y) := by
  cases s <;> rfl

theorem pick_self {α : Type} (s : Side) (x : α) : s.pick x x = x := by
  cases s <;> rfl

end Side

def Diff.side (s : Side) : Diff → Option Tree :=
  fold (fun old new _ below => some (.node (s.pick old new) below.present)) s.ofEdit?

theorem side_merge (s : Side) (old new : Tag) (form : Form Diff) :
    (Diff.merge old new form).side s =
      some (.node (s.pick old new) (form.map (Diff.side s)).present) :=
  Diff.fold_merge _ _ old new form

theorem side_edit (s : Side) (e : Edit) : (Diff.edit e).side s = s.ofEdit? e :=
  Diff.fold_edit _ _ e

theorem slot_side (s : Side) {rec : Tree → Tree → Diff} (old new : Option Tree)
    (h : ∀ x ∈ old, ∀ y ∈ new, (rec x y).side s = some (s.pick x y)) :
    ((Plan.slotGoal old new).bind (Goal.ending? rec)).bind (Diff.side s) = s.pick old new := by
  cases old with
  | none =>
    cases new with
    | none => exact (s.pick_self none).symm
    | some y => cases s <;> exact side_edit _ _
  | some x =>
    cases new with
    | none => cases s <;> exact side_edit _ _
    | some y =>
      show (rec x y).side s = _
      rw [h x rfl y rfl, s.pick_map some]

theorem align_sides (s : Side) (l : Limits) (xs ys : List Tree) :
    (Tree.align l xs ys).filterMap s.ofEntry? = s.pick xs ys := by
  cases s with
  | old => exact Judge.olds_align _ l xs ys
  | new => exact Judge.news_align _ l xs ys

theorem aligned_side (s : Side) (l : Limits) {rec : Tree → Tree → Diff} (xs ys : List Tree)
    (h : ∀ x ∈ xs, ∀ y ∈ ys, (rec x y).side s = some (s.pick x y)) :
    ((Tree.align l xs ys).map (Entry.ending rec)).filterMap (Diff.side s) = s.pick xs ys := by
  have he : ∀ e ∈ Tree.align l xs ys, (e.ending rec).side s = s.ofEntry? e := by
    intro e he
    cases e with
    | old x => cases s <;> exact side_edit _ _
    | new y => cases s <;> exact side_edit _ _
    | paired x y =>
      have hm := Tree.mem_of_paired he
      rw [Entry.ending, h x hm.1 y hm.2]
      cases s <;> rfl
  rw [List.filterMap_map]
  exact (List.filterMap_congr he).trans (align_sides s l xs ys)

theorem positional_side (s : Side) {rec : Tree → Tree → Diff} {xs ys : List Tree}
    (hn : xs.length = ys.length)
    (h : ∀ x ∈ xs, ∀ y ∈ ys, (rec x y).side s = some (s.pick x y)) :
    (List.zipWith rec xs ys).filterMap (Diff.side s) = s.pick xs ys := by
  induction xs generalizing ys with
  | nil =>
    cases ys with
    | nil => exact (s.pick_self []).symm
    | cons y ys => cases hn
  | cons x xs ih =>
    cases ys with
    | nil => cases hn
    | cons y ys =>
      have ht := ih (Nat.succ.inj hn) fun a ha b hb =>
        h a (List.mem_cons_of_mem _ ha) b (List.mem_cons_of_mem _ hb)
      rw [List.zipWith_cons_cons, List.filterMap_cons, ht,
        h x List.mem_cons_self y List.mem_cons_self]
      cases s <;> rfl

theorem plan_side (s : Side) (l : Limits) {rec : Tree → Tree → Diff} {plan : Plan} {a b : Tree}
    (hp : plan.Matches a b)
    (h : ∀ x ∈ a.form.parts, ∀ y ∈ b.form.parts, (rec x y).side s = some (s.pick x y)) :
    (plan.diff l rec a b).side s = some (.node (s.pick a b).tag (s.pick a b).form) := by
  obtain ⟨form, hd, hs, hl, hr, hc⟩ := Plan.diff_form l rec hp
  have hf : (form.map (Diff.side s)).present = (s.pick a b).form := by
    rw [s.pick_map Tree.form]
    apply Form.eq_of_contents
    · rw [Form.present_shape, Form.shape_map, hs, s.pick_map Form.shape, hp.shape, s.pick_self]
    · rw [Form.present_label, Form.label?_map, hl, s.pick_map Form.label?, hp.label, s.pick_self]
    · rw [Form.present_slot, Form.slot?_map, hr, s.pick_map Form.slot?, Option.bind_map]
      apply slot_side
      intro x hx y hy
      exact h x (Form.slot_mem_parts hx) y (Form.slot_mem_parts hy)
    · rw [Form.present_children, Form.children_map, List.filterMap_map, hc,
        s.pick_map Form.children]
      have hi : ∀ x ∈ a.form.children, ∀ y ∈ b.form.children,
          (rec x y).side s = some (s.pick x y) := fun x hx y hy =>
        h x (Form.child_mem_parts hx) y (Form.child_mem_parts hy)
      rcases hp.children with ⟨hw, -⟩ | ⟨hw, hn⟩
      · rw [hw]
        exact aligned_side s l _ _ hi
      · rw [hw, Work.endings_positional]
        exact positional_side s hn hi
  rw [hd, side_merge, hf, ← s.pick_map Tree.tag]

theorem comparison_side (l : Limits) (s : Side) (a b : Tree) (ha : a.WellSized)
    (hb : b.WellSized) : (Tree.comparison l a b).side s = some (s.pick a b) := by
  revert ha hb
  refine Tree.comparison_induction
    (motive := fun a b d => a.WellSized → b.WellSized → d.side s = some (s.pick a b)) ?_ ?_ a b
  · intro a b _ _ _
    rw [side_edit]
    cases s <;> rfl
  · intro a b plan _ hp ih ha hb
    rw [plan_side s l hp fun x hx y hy => ih x hx y hy (ha.part hx) (hb.part hy)]
    have hw : (s.pick a b).WellSized := by cases s <;> assumption
    rw [hw.node_eq]

/-- Read for the old side the diff is the old tree, and read for the new side it is the new one. -/
theorem diff_sides (l : Limits) {old new : Tree} (ho : old.WellSized) (hn : new.WellSized) :
    ∃ d, old.diff l new = .ok d ∧ d.side .old = some old ∧ d.side .new = some new :=
  ⟨_, diff_eq_comparison l old new, comparison_side l .old old new ho hn,
    comparison_side l .new old new ho hn⟩

/-- A function loses its name, and one of its two statements changes its place. -/
theorem unnamed_function_sides :
    let old : Tree := .container "function" (some (.leaf "name" "f"))
      [.leaf "statement" "x", .branch "call" [.leaf "name" "g"]]
    let new : Tree := .container "function" none
      [.branch "call" [.leaf "name" "h"], .leaf "statement" "x"]
    old.WellSized ∧ new.WellSized ∧
      ∃ d, old.diff {} new = .ok d ∧ d.side .old = some old ∧ d.side .new = some new := by
  intro old new
  have ho : old.WellSized := by
    simp [old, Tree.wellSized_container, Tree.wellSized_branch, Tree.wellSized_leaf]
  have hn : new.WellSized := by
    simp [new, Tree.wellSized_container, Tree.wellSized_branch, Tree.wellSized_leaf]
  exact ⟨ho, hn, diff_sides {} ho hn⟩

end TreeDiff
