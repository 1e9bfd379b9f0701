import TreeDiff.Goal

/-!
# Plans

A plan says how two matched trees are taken apart into goals for their parts. There are two kinds.
Sequences and containers are aligned: their children form lists in which elements come and go, and
a slot that only one side has is deleted or inserted. Failing that, trees of one shape with as many
parts at the same places are zipped; leaves are zipped only when their labels agree. Nothing is
planned across categories.
-/

set_option autoImplicit false

namespace TreeDiff

inductive Work where
  | aligned (olds news : List Tree)
  | positional (goals : List Goal)

structure Plan where
  slot : Option Goal
  children : Work

namespace Plan

def slotGoal : Option Tree → Option Tree → Option Goal
  | some s, some r => some (.compare s r)
  | some s, none => some (.delete s)
  | none, some r => some (.insert r)
  | none, none => none

def aligning (t u : Tree) : Option Plan :=
  if t.comparable u then
    match t.form, u.form with
    | .sequence xs, .sequence ys => some ⟨none, .aligned xs ys⟩
    | .container s xs, .container r ys => some ⟨slotGoal s r, .aligned xs ys⟩
    | _, _ => none
  else none

def byPosition (slot : Option Goal) (xs ys : List Tree) : Option Plan :=
  if xs.length = ys.length then some ⟨slot, .positional (List.zipWith .compare xs ys)⟩ else none

def zipping (t u : Tree) : Option Plan :=
  if t.comparable u then
    match t.form, u.form with
    | .leaf x, .leaf y => if x = y then some ⟨none, .positional []⟩ else none
    | .sequence xs, .sequence ys => byPosition none xs ys
    | .container none xs, .container none ys => byPosition none xs ys
    | .container (some s) xs, .container (some r) ys => byPosition (some (.compare s r)) xs ys
    | .branch xs, .branch ys => byPosition none xs ys
    | _, _ => none
  else none

end Plan

end TreeDiff
