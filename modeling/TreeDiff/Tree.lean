import TreeDiff.Fingerprint
import TreeDiff.Form

/-!
# Labelled trees

A tree is a node with a tag, a form and the number of its nodes. The number is stored with the
node, so that reading it costs nothing; every constructor below computes it from the parts, and
`WellSized` says that it is right everywhere. Trees are equal when they agree in size, categories,
forms and labels: fingerprints are no part of what a tree is.
-/

set_option autoImplicit false

namespace TreeDiff

structure Tag where
  category : String
  fingerprint : Option Fingerprint := none

instance : BEq Tag := ⟨fun t u => t.category == u.category && t.fingerprint == u.fingerprint⟩

structure Tree where
  tag : Tag
  size : Nat
  form : Form Tree

namespace Tree

def node (tag : Tag) (form : Form Tree) : Tree :=
  ⟨tag, 1 + total (form.parts.map size), form⟩

def leaf (category label : String) : Tree := node ⟨category, none⟩ (.leaf label)

def sequence (category : String) (children : List Tree) : Tree :=
  node ⟨category, none⟩ (.sequence children)

def container (category : String) (slot : Option Tree) (children : List Tree) : Tree :=
  node ⟨category, none⟩ (.container slot children)

def branch (category : String) (children : List Tree) : Tree :=
  node ⟨category, none⟩ (.branch children)

def withFingerprint (t : Tree) (v : Fingerprint) : Tree :=
  ⟨{ t.tag with fingerprint := some v }, t.size, t.form⟩

def category (t : Tree) : String := t.tag.category

def fingerprint (t : Tree) : Option Fingerprint := t.tag.fingerprint

def shape (t : Tree) : Shape := t.form.shape

mutual

def fold {β : Type} (f : Tree → Form β → β) : Tree → β
  | ⟨tag, n, .leaf label⟩ => f ⟨tag, n, .leaf label⟩ (.leaf label)
  | ⟨tag, n, .sequence ts⟩ => f ⟨tag, n, .sequence ts⟩ (.sequence (foldAll f ts))
  | ⟨tag, n, .container none ts⟩ =>
    f ⟨tag, n, .container none ts⟩ (.container none (foldAll f ts))
  | ⟨tag, n, .container (some s) ts⟩ =>
    f ⟨tag, n, .container (some s) ts⟩ (.container (some (fold f s)) (foldAll f ts))
  | ⟨tag, n, .branch ts⟩ => f ⟨tag, n, .branch ts⟩ (.branch (foldAll f ts))

def foldAll {β : Type} (f : Tree → Form β → β) : List Tree → List β
  | [] => []
  | t :: ts => fold f t :: foldAll f ts

end

theorem foldAll_eq_map {β : Type} (f : Tree → Form β → β) (ts : List Tree) :
    foldAll f ts = ts.map (fold f) := by
  induction ts with
  | nil => rfl
  | cons t ts ih => rw [foldAll, ih, List.map_cons]

theorem fold_eq {β : Type} (f : Tree → Form β → β) (t : Tree) :
    t.fold f = f t (t.form.map (fold f)) := by
  match t with
  | ⟨_, _, .leaf _⟩ => rfl
  | ⟨_, _, .sequence _⟩ => simp [fold, Form.map, foldAll_eq_map]
  | ⟨_, _, .container none _⟩ => simp [fold, Form.map, foldAll_eq_map]
  | ⟨_, _, .container (some _) _⟩ => simp [fold, Form.map, foldAll_eq_map]
  | ⟨_, _, .branch _⟩ => simp [fold, Form.map, foldAll_eq_map]

def subtrees : Tree → List Tree :=
  fold fun t below => t :: below.parts.flatten

def nodes : Tree → Nat :=
  fold fun _ below => 1 + total below.parts

def WellSized (t : Tree) : Prop :=
  ∀ u ∈ t.subtrees, u.size = 1 + total (u.form.parts.map size)

def bare : Tree → Tree :=
  fold fun t below => ⟨⟨t.category, none⟩, t.size, below⟩

theorem nodes_eq (t : Tree) : t.nodes = 1 + total (t.form.parts.map nodes) := by
  rw [nodes, fold_eq, Form.parts_map]

theorem subtrees_eq (t : Tree) : t.subtrees = t :: t.form.parts.flatMap subtrees := by
  rw [subtrees, fold_eq, Form.parts_map, List.flatMap_def]

theorem nodes_pos (t : Tree) : 0 < t.nodes := by
  rw [nodes_eq]
  omega

mutual

def same : Tree → Tree → Bool
  | ⟨tag, n, form⟩, ⟨tag', n', form'⟩ =>
    n == n' && tag.category == tag'.category &&
      match form, form' with
      | .leaf x, .leaf y => x == y
      | .sequence xs, .sequence ys => sameAll xs ys
      | .container none xs, .container none ys => sameAll xs ys
      | .container (some s) xs, .container (some r) ys => same s r && sameAll xs ys
      | .branch xs, .branch ys => sameAll xs ys
      | _, _ => false

def sameAll : List Tree → List Tree → Bool
  | [], [] => true
  | x :: xs, y :: ys => same x y && sameAll xs ys
  | _, _ => false

end

instance : BEq Tree := ⟨same⟩

def comparable (t u : Tree) : Bool := t.category == u.category

def equivalent (t u : Tree) : Bool :=
  t.comparable u &&
    match t.form, u.form with
    | .container (some s) _, .container (some r) _ => s == r
    | _, _ => false

def listed (texts : List String) : String :=
  String.join (texts.map (" " ++ ·))

def text : Tree → String :=
  fold fun t below =>
    match below with
    | .leaf label => t.category ++ ":" ++ label
    | .sequence xs => "[" ++ t.category ++ listed xs ++ "]"
    | .container slot xs =>
      "\x7b" ++ t.category ++ " " ++ slot.getD "_" ++ " |" ++ listed xs ++ "\x7d"
    | .branch xs => "(" ++ t.category ++ listed xs ++ ")"

end Tree

end TreeDiff
