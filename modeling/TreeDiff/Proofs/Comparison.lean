import Mathlib.Data.List.Zip
import TreeDiff.Machine.Run

/-!
# Comparison by recursion

The diff of two trees without a machine: one layer of it is read off the plan for the two trees,
and the parts that the plan compares are diffs of the same kind. A layer looks only at pairs of
parts, so exactly one function on pairs of trees agrees with its own layers everywhere.
-/

set_option autoImplicit false

namespace TreeDiff

namespace Plan

def matching (a b : Tree) : Option Plan :=
  match aligning a b with
  | some plan => some plan
  | none => zipping a b

structure Matches (plan : Plan) (a b : Tree) : Prop where
  category : a.category = b.category
  shape : a.form.shape = b.form.shape
  label : a.form.label? = b.form.label?
  slot : plan.slot = slotGoal a.form.slot? b.form.slot?
  children : plan.children = .aligned a.form.children b.form.children ∧ b.form.shape ≠ .leaf ∨
    plan.children = .positional (List.zipWith .compare a.form.children b.form.children) ∧
      a.form.children.length = b.form.children.length

theorem matches_of_forms {plan : Plan} {a b : Tree} {f g : Form Tree} (ha : a.form = f)
    (hb : b.form = g) (hc : a.category = b.category) (hs : f.shape = g.shape)
    (hl : f.label? = g.label?) (hg : plan.slot = slotGoal f.slot? g.slot?)
    (hw : plan.children = .aligned f.children g.children ∧ g.shape ≠ .leaf ∨
      plan.children = .positional (List.zipWith .compare f.children g.children) ∧
        f.children.length = g.children.length) : plan.Matches a b := by
  subst ha hb
  exact ⟨hc, hs, hl, hg, hw⟩

theorem aligning_matches {a b : Tree} {plan : Plan} (h : aligning a b = some plan) :
    plan.Matches a b := by
  unfold aligning at h
  split at h
  case isFalse => cases h
  case isTrue hc =>
    have hc : a.category = b.category := eq_of_beq hc
    split at h
    · next xs ys ha hb =>
      cases h
      exact matches_of_forms ha hb hc rfl rfl rfl (.inl ⟨rfl, nofun⟩)
    · next s xs r ys ha hb =>
      cases h
      exact matches_of_forms ha hb hc rfl rfl rfl (.inl ⟨rfl, nofun⟩)
    · cases h

theorem byPosition_matches {slot : Option Goal} {plan : Plan} {a b : Tree} {f g : Form Tree}
    (ha : a.form = f) (hb : b.form = g) (hc : a.category = b.category)
    (hs : f.shape = g.shape) (hl : f.label? = g.label?) (hg : slot = slotGoal f.slot? g.slot?)
    (h : byPosition slot f.children g.children = some plan) : plan.Matches a b := by
  unfold byPosition at h
  split at h
  · next hn =>
    cases h
    exact matches_of_forms ha hb hc hs hl hg (.inr ⟨rfl, hn⟩)
  · cases h

theorem zipping_matches {a b : Tree} {plan : Plan} (h : zipping a b = some plan) :
    plan.Matches a b := by
  unfold zipping at h
  split at h
  case isFalse => cases h
  case isTrue hc =>
    have hc : a.category = b.category := eq_of_beq hc
    split at h
    · next x y ha hb =>
      split at h
      · next hx =>
        cases h
        exact matches_of_forms ha hb hc rfl (congrArg some hx) rfl (.inr ⟨rfl, rfl⟩)
      · cases h
    · next ha hb => exact byPosition_matches ha hb hc rfl rfl rfl h
    · next ha hb => exact byPosition_matches ha hb hc rfl rfl rfl h
    · next ha hb => exact byPosition_matches ha hb hc rfl rfl rfl h
    · next ha hb => exact byPosition_matches ha hb hc rfl rfl rfl h
    · cases h

theorem matching_matches {a b : Tree} {plan : Plan} (h : matching a b = some plan) :
    plan.Matches a b := by
  unfold matching at h
  split at h
  · next plan' ha =>
    cases h
    exact aligning_matches ha
  · exact zipping_matches h

end Plan

def Goal.ending? (rec : Tree → Tree → Diff) : Goal → Option Diff
  | compare a b => some (rec a b)
  | delete a => some (.edit (.delete a))
  | insert b => some (.edit (.insert b))
  | replace a b => some (.edit (.replace a b))
  | zip _ _ | align _ _ => none

def Entry.ending (rec : Tree → Tree → Diff) : Entry Tree Tree → Diff
  | old a => .edit (.delete a)
  | new b => .edit (.insert b)
  | paired a b => rec a b

def Work.endings (l : Limits) (rec : Tree → Tree → Diff) : Work → List Diff
  | aligned xs ys => (Tree.align l xs ys).map (Entry.ending rec)
  | positional goals => goals.filterMap (Goal.ending? rec)

def Plan.diff (l : Limits) (rec : Tree → Tree → Diff) (plan : Plan) (a b : Tree) : Diff :=
  .assemble a b (plan.slot.bind (Goal.ending? rec)) (plan.children.endings l rec)

namespace Tree

def comparisonBy (l : Limits) (rec : Tree → Tree → Diff) (a b : Tree) : Diff :=
  match Plan.matching a b with
  | some plan => plan.diff l rec a b
  | none => .edit (.replace a b)

/-- The diff of two trees, layer by layer. The pairs below are all smaller, so that the guard
always holds; see `comparison_eq`. -/
def comparison (l : Limits) (a b : Tree) : Diff :=
  comparisonBy l (fun x y =>
    if _ : x.nodes + y.nodes < a.nodes + b.nodes then comparison l x y else .edit (.replace x y))
    a b
termination_by a.nodes + b.nodes

theorem nodes_lt_of_part {t u : Tree} (h : u ∈ t.form.parts) : u.nodes < t.nodes := by
  have hs : u.nodes ≤ total (t.form.parts.map nodes) := le_total (List.mem_map_of_mem h)
  rw [nodes_eq t]
  omega

theorem mem_of_paired {l : Limits} {xs ys : List Tree} {x y : Tree}
    (h : .paired x y ∈ align l xs ys) : x ∈ xs ∧ y ∈ ys := by
  have hx : x ∈ (align l xs ys).filterMap Entry.old? := List.mem_filterMap.mpr ⟨_, h, rfl⟩
  have hy : y ∈ (align l xs ys).filterMap Entry.new? := List.mem_filterMap.mpr ⟨_, h, rfl⟩
  rw [align, Judge.olds_align] at hx
  rw [align, Judge.news_align] at hy
  exact ⟨hx, hy⟩

end Tree

theorem Diff.assemble_form (old new : Tree) {slot : Option Diff} {children : List Diff}
    (hs : new.form.shape ≠ .container → slot = none)
    (hc : new.form.shape = .leaf → children = []) :
    ∃ form, assemble old new slot children = .merge old.tag new.tag form ∧
      form.shape = new.form.shape ∧ form.label? = new.form.label? ∧ form.slot? = slot ∧
      form.children = children := by
  unfold assemble
  cases hn : new.form with
  | leaf label =>
    rw [hn] at hs hc
    exact ⟨_, rfl, rfl, rfl, (hs nofun).symm, (hc rfl).symm⟩
  | sequence ts =>
    rw [hn] at hs
    exact ⟨_, rfl, rfl, rfl, (hs nofun).symm, rfl⟩
  | container s ts => exact ⟨_, rfl, rfl, rfl, rfl, rfl⟩
  | branch ts =>
    rw [hn] at hs
    exact ⟨_, rfl, rfl, rfl, (hs nofun).symm, rfl⟩

/-- A plan makes a merge of the common shape, and nothing that its goals end in is left out. -/
theorem Plan.diff_form (l : Limits) (rec : Tree → Tree → Diff) {plan : Plan} {a b : Tree}
    (hp : plan.Matches a b) :
    ∃ form, plan.diff l rec a b = .merge a.tag b.tag form ∧
      form.shape = b.form.shape ∧ form.label? = b.form.label? ∧
      form.slot? = (slotGoal a.form.slot? b.form.slot?).bind (Goal.ending? rec) ∧
      form.children = plan.children.endings l rec := by
  rw [Plan.diff, hp.slot]
  apply Diff.assemble_form
  · intro h
    rw [Form.slot?_eq_none h, Form.slot?_eq_none (hp.shape ▸ h)]
    rfl
  · intro h
    have hb := Form.children_eq_nil h
    have ha := Form.children_eq_nil (hp.shape.trans h)
    rcases hp.children with ⟨hc, -⟩ | ⟨hc, -⟩ <;> rw [hc, ha, hb] <;> rfl

theorem Work.endings_positional (l : Limits) (rec : Tree → Tree → Diff) (xs ys : List Tree) :
    (positional (List.zipWith .compare xs ys)).endings l rec = List.zipWith rec xs ys := by
  show (List.zipWith Goal.compare xs ys).filterMap (Goal.ending? rec) = _
  induction xs generalizing ys with
  | nil => rfl
  | cons x xs ih =>
    cases ys with
    | nil => rfl
    | cons y ys => simp [Goal.ending?, ih]

theorem Plan.endings_congr {l : Limits} {f g : Tree → Tree → Diff} {plan : Plan} {a b : Tree}
    (hp : plan.Matches a b)
    (h : ∀ x ∈ a.form.children, ∀ y ∈ b.form.children, f x y = g x y) :
    plan.children.endings l f = plan.children.endings l g := by
  rcases hp.children with ⟨hc, -⟩ | ⟨hc, hn⟩
  · rw [hc]
    apply List.map_congr_left
    intro e he
    cases e with
    | old a => rfl
    | new b => rfl
    | paired x y =>
      have hm := Tree.mem_of_paired he
      exact h x hm.1 y hm.2
  · rw [hc, Work.endings_positional, Work.endings_positional]
    apply List.zipWith_congr
    refine List.forall₂_iff_zip.mpr ⟨hn, fun hz => ?_⟩
    have hm := List.of_mem_zip hz
    exact h _ hm.1 _ hm.2

theorem Plan.slot_congr {f g : Tree → Tree → Diff} (s r : Option Tree)
    (h : ∀ x ∈ s, ∀ y ∈ r, f x y = g x y) :
    (slotGoal s r).bind (Goal.ending? f) = (slotGoal s r).bind (Goal.ending? g) := by
  cases s with
  | none => cases r <;> rfl
  | some x =>
    cases r with
    | none => rfl
    | some y => exact congrArg some (h x rfl y rfl)

namespace Tree

/-- A layer looks only at pairs of parts. -/
theorem comparisonBy_congr {l : Limits} {f g : Tree → Tree → Diff} {a b : Tree}
    (h : ∀ x ∈ a.form.parts, ∀ y ∈ b.form.parts, f x y = g x y) :
    comparisonBy l f a b = comparisonBy l g a b := by
  unfold comparisonBy
  cases hm : Plan.matching a b with
  | none => rfl
  | some plan =>
    have hp := Plan.matching_matches hm
    have hs : plan.slot.bind (Goal.ending? f) = plan.slot.bind (Goal.ending? g) := by
      rw [hp.slot]
      apply Plan.slot_congr
      intro x hx y hy
      exact h x (Form.slot_mem_parts hx) y (Form.slot_mem_parts hy)
    have hc : plan.children.endings l f = plan.children.endings l g :=
      Plan.endings_congr hp fun x hx y hy =>
        h x (Form.child_mem_parts hx) y (Form.child_mem_parts hy)
    show plan.diff l f a b = plan.diff l g a b
    rw [Plan.diff, hs, hc, ← Plan.diff]

theorem comparison_eq (l : Limits) (a b : Tree) :
    comparison l a b = comparisonBy l (comparison l) a b := by
  rw [comparison]
  apply comparisonBy_congr
  intro x hx y hy
  rw [dif_pos (Nat.add_lt_add (nodes_lt_of_part hx) (nodes_lt_of_part hy))]

/-- What holds of replacements without a plan, and of merges when it holds of all comparisons of
parts, holds of every comparison. -/
theorem comparison_induction {l : Limits} {motive : Tree → Tree → Diff → Prop}
    (replace : ∀ a b, Plan.matching a b = none → motive a b (.edit (.replace a b)))
    (merge : ∀ a b plan, Plan.matching a b = some plan → plan.Matches a b →
      (∀ x ∈ a.form.parts, ∀ y ∈ b.form.parts, motive x y (comparison l x y)) →
      motive a b (plan.diff l (comparison l) a b))
    (a b : Tree) : motive a b (comparison l a b) := by
  rw [comparison_eq, comparisonBy]
  split
  · next plan hm =>
    apply merge a b plan hm (Plan.matching_matches hm)
    intro x hx y hy
    have := nodes_lt_of_part hx
    have := nodes_lt_of_part hy
    exact comparison_induction replace merge x y
  · next hm => exact replace a b hm
termination_by a.nodes + b.nodes

end Tree

end TreeDiff
