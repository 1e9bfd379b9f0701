import TreeDiff.Digest
import TreeDiff.Tree

/-!
# Grams and fingerprints of trees

The gram of a node is a window on the categories around it: the nearest ancestors, the node itself
and its first parts. Each gram seeds a direction in the space of fingerprints, and the fingerprint
of a node is the sum of the directions of all nodes below it. Labels and shapes take no part.

A tree gets its fingerprints in one traversal that keeps the ancestors on a stack. A node is open
while its parts are made, and adds up their fingerprints as they come.
-/

set_option autoImplicit false

namespace TreeDiff

structure Span where
  above : Nat := 0
  below : Nat := 3
  deriving DecidableEq, Repr

namespace Hasher

variable {δ : Type} (H : Hasher δ)

def spread (seed : UInt64) (i : Nat) : Float :=
  (H.words [seed, i.toUInt64] >>> 11).toFloat / 9007199254740992 * 2 - 1

def unit (seed : UInt64) : Fingerprint :=
  let raw : Vector Float dimensions := Vector.ofFn fun i => H.spread seed i
  let norm := ((raw.map fun x => x * x).foldl (· + ·) 0).sqrt
  if norm > 0 then ⟨raw.map (· / norm)⟩ else ⟨raw⟩

end Hasher

def Fingerprint.unit : UInt64 → Fingerprint := Digest.hasher.unit

def padding : UInt64 := 0x2a2a2a2a2a2a2a2a

def padded (n : Nat) (words : List UInt64) : List UInt64 :=
  words.take n ++ List.replicate (n - words.length) padding

def gram (span : Span) (above : List UInt64) (own : UInt64) (below : List UInt64) : List UInt64 :=
  (padded span.above above).reverse ++ own :: padded span.below below

def Form.inOrder {m : Type → Type} [Monad m] {α : Type} : Form (m α) → m (Form α)
  | leaf label => pure (leaf label)
  | sequence xs => sequence <$> xs.mapM id
  | container none xs => container none <$> xs.mapM id
  | container (some x) xs => do
    let y ← x
    container (some y) <$> xs.mapM id
  | branch xs => branch <$> xs.mapM id

namespace Tree

section

variable {δ : Type} (H : Hasher δ) (span : Span)

def direction (above : List UInt64) (t : Tree) : Fingerprint :=
  H.unit (H.words (gram span above (H.text t.category)
    (t.form.parts.map fun part => H.text part.category)))

structure Spot where
  stack : List UInt64
  sum : Fingerprint

/-- A node that is done leaves the stack, and the sum is its fingerprint and counts for the node
above it. -/
def tour : Tree → StateM Spot Tree :=
  fold fun t below => do
    let before ← get
    set (Spot.mk (H.text t.category :: before.stack) (direction H span before.stack t))
    let form ← below.inOrder
    let after ← get
    set (Spot.mk after.stack.tail (before.sum + after.sum))
    return node ⟨t.category, some after.sum⟩ form

def fingerprintedBy (t : Tree) : Tree := ((tour H span t).run ⟨[], .zero⟩).1

end

def fingerprinted (span : Span) (t : Tree) : Tree := t.fingerprintedBy Digest.hasher span

end Tree

end TreeDiff
