/-!
# Arenas

Trees are built and rebuilt in an arena, node by node. A node is named by a handle: the number of
the slot that it occupies and a stamp. The slot of a node that was removed may be used again, under
another stamp. What an arena is made of is left open; it is known by what it answers.
-/

set_option autoImplicit false

namespace TreeDiff

inductive Kind where
  | leaf (label : String)
  | sequence
  | container (slotted : Bool)
  | branch
  deriving DecidableEq, Repr

structure Item where
  category : String
  kind : Kind
  deriving DecidableEq, Repr

structure Handle where
  slot : Nat
  stamp : Nat
  deriving DecidableEq, Repr

inductive ForestError where
  | appendSelf
  | prependSelf
  | removed
  | appendAncestor
  | prependAncestor
  deriving DecidableEq, Repr

def ForestError.message : ForestError → String
  | appendSelf => "Can not append a node to itself"
  | prependSelf => "Can not prepend a node to itself"
  | removed => "Removed node cannot have any parent, siblings, and children"
  | appendAncestor => "Can not append a node to, or insert it after, its descendant"
  | prependAncestor => "Can not prepend a node to, or insert it before, its descendant"

/-- Six edits and three questions. A handle that never was one of this arena gets nothing; whether
the handle of a removed node still gets something is up to the arena, as long as it is found to be
removed. -/
structure Arena (σ : Type) where
  empty : σ
  add : σ → Item → Handle × σ
  append : σ → Handle → Handle → Except ForestError σ
  prepend : σ → Handle → Handle → Except ForestError σ
  detach : σ → Handle → Except ForestError σ
  remove : σ → Handle → Except ForestError σ
  removeAll : σ → Handle → Except ForestError σ
  get : σ → Handle → Option Item
  isRemoved : σ → Handle → Bool
  children : σ → Handle → List Handle

namespace Arena

variable {σ : Type}

def item? (A : Arena σ) (s : σ) (h : Handle) : Option Item :=
  match A.get s h with
  | some item => if A.isRemoved s h then none else some item
  | none => none

inductive Change where
  | add (item : Item)
  | append (parent child : Handle)
  | prepend (parent child : Handle)
  | detach (h : Handle)
  | remove (h : Handle)
  | removeAll (h : Handle)
  deriving DecidableEq, Repr

def attempt (A : Arena σ) (s : σ) : Change → Except ForestError σ
  | .add item => .ok (A.add s item).2
  | .append parent child => A.append s parent child
  | .prepend parent child => A.prepend s parent child
  | .detach h => A.detach s h
  | .remove h => A.remove s h
  | .removeAll h => A.removeAll s h

def change (A : Arena σ) (s : σ) (c : Change) : σ := (A.attempt s c).toOption.getD s

def issues (A : Arena σ) (s : σ) : Change → List Handle
  | .add item => [(A.add s item).1]
  | _ => []

def issuedFrom (A : Arena σ) (s : σ) : List Change → List Handle
  | [] => []
  | c :: cs => A.issues s c ++ A.issuedFrom (A.change s c) cs

def after (A : Arena σ) (cs : List Change) : σ := cs.foldl A.change A.empty

def issued (A : Arena σ) (cs : List Change) : List Handle := A.issuedFrom A.empty cs

end Arena

end TreeDiff
