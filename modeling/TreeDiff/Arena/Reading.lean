import TreeDiff.Arena
import TreeDiff.Tree

/-!
# Reading an arena

A tree is read from handle to handle, every one of which is looked up. Its nodes must fit their
kinds: a leaf has no children, and a slotted container has at least the slot. Children are read
first, from left to right, and the first node that does not fit is reported. Nothing here says that
reading ends: a reader that is allowed so many levels, and no more, may not be done.
-/

set_option autoImplicit false

namespace TreeDiff

inductive ReadError where
  | removed (slot : Nat)
  | leafWithChildren (slot count : Nat)
  | missingSlot (slot : Nat)
  deriving DecidableEq, Repr

def ReadError.message : ReadError → String
  | removed slot => "node " ++ toString slot ++ " was removed from the arena"
  | leafWithChildren slot count =>
    "leaf node " ++ toString slot ++ " has " ++ toString count ++ " children"
  | missingSlot slot =>
    "container node " ++ toString slot ++ " declares a slot but has no children"

def Kind.form (slot : Nat) : Kind → List Tree → Except ReadError (Form Tree)
  | leaf label, [] => .ok (.leaf label)
  | leaf _, ts => .error (.leafWithChildren slot ts.length)
  | sequence, ts => .ok (.sequence ts)
  | container false, ts => .ok (.container none ts)
  | container true, [] => .error (.missingSlot slot)
  | container true, t :: ts => .ok (.container (some t) ts)
  | branch, ts => .ok (.branch ts)

namespace Arena

variable {σ : Type}

def readWithin (A : Arena σ) (s : σ) : Nat → Handle → ExceptT ReadError Option Tree
  | 0, _ => ExceptT.mk none
  | n + 1, h =>
    match A.item? s h with
    | none => throw (.removed h.slot)
    | some item => do
      let ts ← (A.children s h).mapM (A.readWithin s n)
      let form ← liftM (item.kind.form h.slot ts)
      return .node ⟨item.category, none⟩ form

/-- Reading ends, and that is what comes of it. -/
def Reads (A : Arena σ) (s : σ) (h : Handle) (r : Except ReadError Tree) : Prop :=
  ∃ levels, ∀ n, levels ≤ n → (A.readWithin s n h).run = some r

end Arena

end TreeDiff
