import TreeDiff.Tree

/-!
# Diffs

A diff is a tree over two trees. Where the two correspond it has a merge, with the tags of both
sides and diffs for parts; where they do not it has an edit, which holds the subtrees that it
inserts, deletes or replaces. Every node of either input stands in exactly one place.
-/

set_option autoImplicit false

namespace TreeDiff

inductive Edit where
  | insert (b : Tree)
  | delete (a : Tree)
  | replace (a b : Tree)
  deriving BEq

namespace Edit

def old? : Edit → Option Tree
  | delete a | replace a _ => some a
  | insert _ => none

def new? : Edit → Option Tree
  | insert b | replace _ b => some b
  | delete _ => none

def text : Edit → String
  | insert b => "+" ++ b.text
  | delete a => "-" ++ a.text
  | replace a b => a.text ++ " → " ++ b.text

def oldSize (e : Edit) : Nat := (e.old?.map Tree.size).getD 0

def newSize (e : Edit) : Nat := (e.new?.map Tree.size).getD 0

end Edit

inductive Diff where
  | merge (old new : Tag) (form : Form Diff)
  | edit (e : Edit)

structure Counts where
  merges : Nat := 0
  inserts : Nat := 0
  deletes : Nat := 0
  replaces : Nat := 0
  deriving DecidableEq, Repr

structure Coverage where
  old : Nat := 0
  new : Nat := 0
  deriving DecidableEq, Repr

namespace Counts

def edits (c : Counts) : Nat := c.inserts + c.deletes + c.replaces

def tally (c : Counts) : Diff → Counts
  | .merge .. => { c with merges := c.merges + 1 }
  | .edit (.insert _) => { c with inserts := c.inserts + 1 }
  | .edit (.delete _) => { c with deletes := c.deletes + 1 }
  | .edit (.replace _ _) => { c with replaces := c.replaces + 1 }

end Counts

namespace Coverage

def tally (c : Coverage) : Diff → Coverage
  | .merge .. => ⟨c.old + 1, c.new + 1⟩
  | .edit e => ⟨c.old + e.oldSize, c.new + e.newSize⟩

end Coverage

namespace Diff

mutual

def fold {β : Type} (f : Tag → Tag → Form Diff → Form β → β) (g : Edit → β) : Diff → β
  | merge t u (.leaf label) => f t u (.leaf label) (.leaf label)
  | merge t u (.sequence ds) => f t u (.sequence ds) (.sequence (foldAll f g ds))
  | merge t u (.container none ds) =>
    f t u (.container none ds) (.container none (foldAll f g ds))
  | merge t u (.container (some d) ds) =>
    f t u (.container (some d) ds) (.container (some (fold f g d)) (foldAll f g ds))
  | merge t u (.branch ds) => f t u (.branch ds) (.branch (foldAll f g ds))
  | edit e => g e

def foldAll {β : Type} (f : Tag → Tag → Form Diff → Form β → β) (g : Edit → β) :
    List Diff → List β
  | [] => []
  | d :: ds => fold f g d :: foldAll f g ds

end

theorem foldAll_eq_map {β : Type} (f : Tag → Tag → Form Diff → Form β → β) (g : Edit → β)
    (ds : List Diff) : foldAll f g ds = ds.map (fold f g) := by
  induction ds with
  | nil => rfl
  | cons d ds ih => rw [foldAll, ih, List.map_cons]

theorem fold_merge {β : Type} (f : Tag → Tag → Form Diff → Form β → β) (g : Edit → β)
    (t u : Tag) (form : Form Diff) :
    (merge t u form).fold f g = f t u form (form.map (fold f g)) := by
  match form with
  | .leaf _ => rfl
  | .sequence _ => simp [fold, Form.map, foldAll_eq_map]
  | .container none _ => simp [fold, Form.map, foldAll_eq_map]
  | .container (some _) _ => simp [fold, Form.map, foldAll_eq_map]
  | .branch _ => simp [fold, Form.map, foldAll_eq_map]

theorem fold_edit {β : Type} (f : Tag → Tag → Form Diff → Form β → β) (g : Edit → β) (e : Edit) :
    (edit e).fold f g = g e := by
  rw [fold]

def walk : Diff → List Diff :=
  fold (fun t u form below => merge t u form :: below.parts.flatten) (fun e => [edit e])

def edit? : Diff → Option Edit
  | edit e => some e
  | merge .. => none

def edits (d : Diff) : List Edit := d.walk.filterMap edit?

def isMergeOnly : Diff → Bool :=
  fold (fun _ _ _ below => below.parts.all id) (fun _ => false)

def counts (d : Diff) : Counts := d.walk.foldl Counts.tally {}

def coverage (d : Diff) : Coverage := d.walk.foldl Coverage.tally {}

def cost (d : Diff) : Nat := total (d.edits.map fun e => e.oldSize + e.newSize)

mutual

def same : Diff → Diff → Bool
  | merge t u form, merge t' u' form' =>
    t == t' && u == u' &&
      match form, form' with
      | .leaf x, .leaf y => x == y
      | .sequence xs, .sequence ys => sameAll xs ys
      | .container none xs, .container none ys => sameAll xs ys
      | .container (some s) xs, .container (some r) ys => same s r && sameAll xs ys
      | .branch xs, .branch ys => sameAll xs ys
      | _, _ => false
  | edit e, edit e' => e == e'
  | _, _ => false

def sameAll : List Diff → List Diff → Bool
  | [], [] => true
  | x :: xs, y :: ys => same x y && sameAll xs ys
  | _, _ => false

end

instance : BEq Diff := ⟨same⟩

end Diff

end TreeDiff
