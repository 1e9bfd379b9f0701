import TreeDiff.Alignment
import TreeDiff.Diff
import TreeDiff.Plan

/-!
# The machine

A diff is computed by a machine with an agenda and a stack of values. The agenda holds goals and,
between them, assembly instructions that fold finished diffs into larger ones. A step takes the
goal on top of the agenda, replaces it by the work it stands for, and then carries out assembly
until a goal is on top again. The state is a plain value: it can be kept, stepped and resumed.
-/

set_option autoImplicit false

namespace TreeDiff

inductive Arity where
  | list
  | singles (n : Nat)
  deriving DecidableEq, Repr

inductive Instruction where
  | pursue (goal : Goal)
  | merge (old new : Tree) (slot : Bool) (arity : Arity)
  | collect (n : Nat)

inductive Value where
  | diff (d : Diff)
  | list (ds : List Diff)

/-- What would stop an assembly. No machine that starts from two trees meets any of these. -/
inductive Fault where
  | emptyStack
  | listForDiff
  | diffForList
  deriving DecidableEq, Repr

structure Machine where
  limits : Limits
  agenda : List Instruction
  values : List Value
  steps : Nat

namespace Plan

def agenda (plan : Plan) (old new : Tree) : List Instruction :=
  plan.slot.toList.map .pursue ++
    match plan.children with
    | .aligned xs ys => [.pursue (.align xs ys), .merge old new plan.slot.isSome .list]
    | .positional goals =>
      goals.map .pursue ++ [.merge old new plan.slot.isSome (.singles goals.length)]

end Plan

namespace Goal

def ofEntry : Entry Tree Tree → Goal
  | .old a => delete a
  | .new b => insert b
  | .paired a b => compare a b

def unfold (l : Limits) : Goal → List Instruction ⊕ Edit
  | compare a b =>
    match Plan.aligning a b with
    | some plan => .inl (plan.agenda a b)
    | none => .inl [.pursue (zip a b)]
  | zip a b =>
    match Plan.zipping a b with
    | some plan => .inl (plan.agenda a b)
    | none => .inl [.pursue (replace a b)]
  | align xs ys =>
    let entries := Tree.align l xs ys
    .inl (entries.map (.pursue ∘ ofEntry) ++ [.collect entries.length])
  | delete a => .inr (.delete a)
  | insert b => .inr (.insert b)
  | replace a b => .inr (.replace a b)

inductive Unfolds (l : Limits) : Goal → List Instruction ⊕ Edit → Prop
  | aligned {a b : Tree} {plan : Plan} : Plan.aligning a b = some plan →
      Unfolds l (compare a b) (.inl (plan.agenda a b))
  | unaligned {a b : Tree} : Plan.aligning a b = none →
      Unfolds l (compare a b) (.inl [.pursue (zip a b)])
  | zipped {a b : Tree} {plan : Plan} : Plan.zipping a b = some plan →
      Unfolds l (zip a b) (.inl (plan.agenda a b))
  | unzipped {a b : Tree} : Plan.zipping a b = none →
      Unfolds l (zip a b) (.inl [.pursue (replace a b)])
  | align {xs ys : List Tree} :
      Unfolds l (align xs ys) (.inl ((Tree.align l xs ys).map (.pursue ∘ ofEntry) ++
        [.collect (Tree.align l xs ys).length]))
  | delete {a : Tree} : Unfolds l (delete a) (.inr (.delete a))
  | insert {b : Tree} : Unfolds l (insert b) (.inr (.insert b))
  | replace {a b : Tree} : Unfolds l (replace a b) (.inr (.replace a b))

theorem unfolds {l : Limits} {goal : Goal} {r : List Instruction ⊕ Edit}
    (h : goal.unfold l = r) : goal.Unfolds l r := by
  subst h
  cases goal with
  | compare a b =>
    rw [unfold]
    split
    · next hp => exact .aligned hp
    · next hp => exact .unaligned hp
  | zip a b =>
    rw [unfold]
    split
    · next hp => exact .zipped hp
    · next hp => exact .unzipped hp
  | align xs ys => exact .align
  | delete a => exact .delete
  | insert b => exact .insert
  | replace a b => exact .replace

end Goal

namespace Value

def takeDiffs : Nat → List Value → List Diff → Except Fault (List Diff × List Value)
  | 0, values, ds => .ok (ds, values)
  | _ + 1, [], _ => .error .emptyStack
  | _ + 1, .list _ :: _, _ => .error .listForDiff
  | n + 1, .diff d :: values, ds => takeDiffs n values (d :: ds)

def takeDiff : List Value → Except Fault (Diff × List Value)
  | [] => .error .emptyStack
  | .list _ :: _ => .error .listForDiff
  | .diff d :: values => .ok (d, values)

def takeList : List Value → Except Fault (List Diff × List Value)
  | [] => .error .emptyStack
  | .diff _ :: _ => .error .diffForList
  | .list ds :: values => .ok (ds, values)

def takeChildren : Arity → List Value → Except Fault (List Diff × List Value)
  | .list, values => takeList values
  | .singles n, values => takeDiffs n values []

def takeSlot : Bool → List Value → Except Fault (Option Diff × List Value)
  | false, values => .ok (none, values)
  | true, values => do
    let (d, values) ← takeDiff values
    return (some d, values)

end Value

def Diff.assemble (old new : Tree) (slot : Option Diff) (children : List Diff) : Diff :=
  .merge old.tag new.tag <|
    match new.form with
    | .leaf label => .leaf label
    | .sequence _ => .sequence children
    | .container _ _ => .container slot children
    | .branch _ => .branch children

def settle : List Instruction → List Value → Except Fault (List Instruction × List Value)
  | [], values => .ok ([], values)
  | .pursue goal :: agenda, values => .ok (.pursue goal :: agenda, values)
  | .collect n :: agenda, values => do
    let (ds, values) ← Value.takeDiffs n values []
    settle agenda (.list ds :: values)
  | .merge old new slot arity :: agenda, values => do
    let (children, values) ← Value.takeChildren arity values
    let (slot, values) ← Value.takeSlot slot values
    settle agenda (.diff (.assemble old new slot children) :: values)

namespace Machine

def start (l : Limits) (old new : Tree) : Machine :=
  ⟨l, [.pursue (.compare old new)], [], 0⟩

def nextGoal? (m : Machine) : Option Goal :=
  match m.agenda with
  | .pursue goal :: _ => some goal
  | _ => none

def pending (m : Machine) : Nat := m.agenda.length

def settled (m : Machine) : Except Fault Machine := do
  let (agenda, values) ← settle m.agenda m.values
  return { m with agenda, values }

def unfolded (m : Machine) (goal : Goal) (agenda : List Instruction) : Machine :=
  match goal.unfold m.limits with
  | .inl work => { m with agenda := work ++ agenda, steps := m.steps + 1 }
  | .inr e =>
    { m with agenda := agenda, values := .diff (.edit e) :: m.values, steps := m.steps + 1 }

def advance (m : Machine) : Except Fault (Option Machine) := do
  let m ← m.settled
  match m.agenda with
  | .pursue goal :: agenda => some <$> (m.unfolded goal agenda).settled
  | _ => return none

def result (m : Machine) : Except Fault Diff := do
  let (d, _) ← Value.takeDiff m.values
  return d

end Machine

inductive Outcome where
  | pending (m : Machine)
  | done (d : Diff)

namespace Machine

def outcome (m : Machine) : Except Fault Outcome :=
  if m.agenda.isEmpty then .done <$> m.result else return .pending m

def advanceBy : Nat → Machine → Except Fault Machine
  | 0, m => return m
  | n + 1, m => do
    match ← m.advance with
    | none => return m
    | some m => m.advanceBy n

def runFor (n : Nat) (m : Machine) : Except Fault Outcome := do
  (← m.advanceBy n).outcome

def step (m : Machine) : Except Fault Outcome := do
  match ← m.advance with
  | none => m.outcome
  | some m => m.outcome

end Machine

end TreeDiff
