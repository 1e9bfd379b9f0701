import TreeDiff.Alignment.Anchor
import TreeDiff.Alignment.Choice
import TreeDiff.Tree.Estimate

/-!
# Alignments

An alignment pairs elements of an old list with elements of a new one and keeps the order of both.
Identical elements are anchored first. Each gap between anchors is filled greedily: a new element
takes the best comparable old element in reach if, seen from there, the new element is the best
one in reach as well. Old elements that are passed over are dropped just before the pair, and those
left at the end of a gap are dropped there.

What the elements are is left open: a judge says how an old and a new element relate.
-/

set_option autoImplicit false

namespace TreeDiff

inductive Entry (α β : Type) where
  | old (a : α)
  | new (b : β)
  | paired (a : α) (b : β)
  deriving DecidableEq, Repr

namespace Entry

variable {α β : Type}

def old? : Entry α β → Option α
  | old a | paired a _ => some a
  | new _ => none

def new? : Entry α β → Option β
  | new b | paired _ b => some b
  | old _ => none

def isPaired : Entry α β → Bool
  | paired _ _ => true
  | _ => false

@[simp] theorem old?_old (a : α) : (old a : Entry α β).old? = some a := rfl

@[simp] theorem old?_new (b : β) : (new b : Entry α β).old? = none := rfl

@[simp] theorem old?_paired (a : α) (b : β) : (paired a b).old? = some a := rfl

@[simp] theorem new?_old (a : α) : (old a : Entry α β).new? = none := rfl

@[simp] theorem new?_new (b : β) : (new b : Entry α β).new? = some b := rfl

@[simp] theorem new?_paired (a : α) (b : β) : (paired a b).new? = some b := rfl

end Entry

structure Judge (α β : Type) where
  comparable : α → β → Bool
  cost : α → β → Nat
  identical : α → β → Bool := fun _ _ => false
  equivalent : α → β → Bool := fun _ _ => false
  distance : α → β → Option Distance := fun _ _ => none

namespace Judge

variable {α β : Type}

def flip (j : Judge α β) : Judge β α where
  comparable b a := j.comparable a b
  cost b a := j.cost a b
  identical b a := j.identical a b
  equivalent b a := j.equivalent a b
  distance b a := j.distance a b

def comap {α' β' : Type} (j : Judge α β) (f : α' → α) (g : β' → β) : Judge α' β' where
  comparable a b := j.comparable (f a) (g b)
  cost a b := j.cost (f a) (g b)
  identical a b := j.identical (f a) (g b)
  equivalent a b := j.equivalent (f a) (g b)
  distance a b := j.distance (f a) (g b)

def ranking (j : Judge α β) (b : β) : Ranking (α × Nat) where
  position c := c.2
  equivalent c := j.equivalent c.1 b
  distance c := j.distance c.1 b
  cost c := j.cost c.1 b

def seek (j : Judge α β) (l : Limits) (i : Nat) (olds : List α) (b : β) : Option (α × Nat) :=
  (j.ranking b).choose l.kept
    ((olds.take (l.room i)).zipIdx.filter fun c => j.comparable c.1 b)

/-- The best old element in reach for `b`, which stands at position `k`, if among `b` and the new
elements that follow it `b` is in turn the best for that element. -/
def partner (j : Judge α β) (l : Limits) (i k : Nat) (olds : List α) (b : β) (bs : List β) :
    Option (α × Nat) :=
  match j.seek l i olds b with
  | none => none
  | some (a, d) =>
    match j.flip.seek l k (b :: bs) a with
    | some (_, 0) => some (a, d)
    | _ => none

def fill (j : Judge α β) (l : Limits) : Nat → Nat → List α → List β → List (Entry α β)
  | _, _, olds, [] => olds.map .old
  | i, k, olds, b :: bs =>
    match j.partner l i k olds b bs with
    | none => .new b :: fill j l i (k + 1) olds bs
    | some (a, d) =>
      (olds.take d).map .old ++
        .paired a b :: fill j l (i + d + 1) (k + 1) (olds.drop (d + 1)) bs

def fillAll (j : Judge α β) (l : Limits) : Nat → Nat → Anchoring α β → List (Entry α β)
  | i, k, .rest olds news => j.fill l i k olds news
  | i, k, .anchor olds news a b beyond =>
    j.fill l i k olds news ++
      .paired a b :: j.fillAll l (i + olds.length + 1) (k + news.length + 1) beyond

def align (j : Judge α β) (l : Limits) (olds : List α) (news : List β) : List (Entry α β) :=
  j.fillAll l 0 0 (.between j.identical olds news)

def alignPositions (j : Judge α β) (l : Limits) (olds : List α) (news : List β) :
    List (Entry (α × Nat) (β × Nat)) :=
  (j.comap Prod.fst Prod.fst).align l olds.zipIdx news.zipIdx

def letters : Judge Char Char where
  comparable a b := a.isAlpha && b.isAlpha
  cost a b := (a.toNat - b.toNat) + (b.toNat - a.toNat)
  identical a b := a == b
  equivalent a b := a.toLower == b.toLower

end Judge

namespace Tree

def judge (l : Limits) : Judge Tree Tree where
  comparable := comparable
  cost t u := t.estimate u l.effort
  identical t u := t == u
  equivalent := equivalent
  distance t u := do return (← t.fingerprint).distance (← u.fingerprint)

def align (l : Limits) (olds news : List Tree) : List (Entry Tree Tree) :=
  (judge l).align l olds news

end Tree

end TreeDiff
