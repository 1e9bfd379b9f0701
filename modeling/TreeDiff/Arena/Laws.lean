import Mathlib.Logic.Function.Basic
import Mathlib.Logic.Relation
import TreeDiff.Arena

/-!
# What is relied on of an arena

All that handles give access to are the items of nodes and the handles of their children. An arena
is lawful if, whatever its history, it gives no handle twice, and every edit rearranges the links
between its nodes as it should: two nodes are linked unless they are the same, one of them was
removed or the parent is below the child, checked in this order; a node that is linked elsewhere or
detached leaves the place that it had and keeps what is below it; the children of a node that is
removed alone take its place.
-/

set_option autoImplicit false

namespace TreeDiff

abbrev Links := Handle → Option (Item × List Handle)

namespace Links

def Parent (L : Links) (h g : Handle) : Prop := ∃ n, L h = some n ∧ g ∈ n.2

def Below (L : Links) (h g : Handle) : Prop := Relation.ReflTransGen L.Parent h g

def add (L : Links) (h : Handle) (item : Item) : Links := Function.update L h (some (item, []))

def put (L : Links) (h : Handle) (ks : List Handle) : Links := fun g =>
  (L g).map fun n => (n.1, n.2.flatMap fun k => if k = h then ks else [k])

def adopt (L : Links) (parent : Handle) (place : List Handle → List Handle) : Links := fun g =>
  (L g).map fun n => (n.1, if g = parent then place n.2 else n.2)

open Classical in
noncomputable def attach (same ancestor : ForestError) (place : Handle → List Handle → List Handle)
    (L : Links) (parent child : Handle) : Except ForestError Links :=
  if parent = child then .error same
  else if L parent = none ∨ L child = none then .error .removed
  else if L.Below child parent then .error ancestor
  else .ok ((L.put child []).adopt parent (place child))

noncomputable def append : Links → Handle → Handle → Except ForestError Links :=
  attach .appendSelf .appendAncestor fun k ks => ks ++ [k]

noncomputable def prepend : Links → Handle → Handle → Except ForestError Links :=
  attach .prependSelf .prependAncestor fun k ks => k :: ks

def detach (L : Links) (h : Handle) : Except ForestError Links :=
  match L h with
  | none => .error .removed
  | some _ => .ok (L.put h [])

def remove (L : Links) (h : Handle) : Except ForestError Links :=
  match L h with
  | none => .error .removed
  | some n => .ok (Function.update (L.put h n.2) h none)

open Classical in
noncomputable def removeAll (L : Links) (h : Handle) : Except ForestError Links :=
  match L h with
  | none => .error .removed
  | some _ => .ok fun g => if L.Below h g then none else L.put h [] g

end Links

namespace Arena

variable {σ : Type}

def links (A : Arena σ) (s : σ) : Links := fun h =>
  (A.item? s h).map fun item => (item, A.children s h)

structure Lawful (A : Arena σ) : Prop where
  empty : A.links A.empty = fun _ => none
  fresh (cs : List Change) (item : Item) : (A.add (A.after cs) item).1 ∉ A.issued cs
  add (cs : List Change) (item : Item) : A.links (A.add (A.after cs) item).2 =
    (A.links (A.after cs)).add (A.add (A.after cs) item).1 item
  append (cs : List Change) (parent child : Handle) :
    (A.append (A.after cs) parent child).map A.links = (A.links (A.after cs)).append parent child
  prepend (cs : List Change) (parent child : Handle) :
    (A.prepend (A.after cs) parent child).map A.links = (A.links (A.after cs)).prepend parent child
  detach (cs : List Change) (h : Handle) :
    (A.detach (A.after cs) h).map A.links = (A.links (A.after cs)).detach h
  remove (cs : List Change) (h : Handle) :
    (A.remove (A.after cs) h).map A.links = (A.links (A.after cs)).remove h
  removeAll (cs : List Change) (h : Handle) :
    (A.removeAll (A.after cs) h).map A.links = (A.links (A.after cs)).removeAll h

end Arena

end TreeDiff
