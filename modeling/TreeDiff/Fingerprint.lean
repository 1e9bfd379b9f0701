/-!
# Fingerprints

A fingerprint is a point in a space of fifteen dimensions. Subtrees built from the same grams have
fingerprints close together, and the distance between two fingerprints ranks candidates for a
match. Distances are compared in the total order of floating-point values, where `-0` comes before
`0` and a value that is not a number comes last; but first if its sign is set, as it is when
infinities are subtracted from each other.
-/

set_option autoImplicit false

namespace TreeDiff

structure Distance where
  rank : Int
  deriving DecidableEq, Repr

namespace Distance

def ofBits (bits : UInt64) : Distance :=
  if bits < 0x8000000000000000 then ⟨bits.toNat⟩ else ⟨0x7fffffffffffffff - bits.toNat⟩

def ofFloat (x : Float) : Distance := ofBits x.toBits

def undefined : Distance := ofBits 0xfff8000000000000

end Distance

def dimensions : Nat := 15

structure Fingerprint where
  components : Vector Float dimensions

namespace Fingerprint

instance : BEq Fingerprint := ⟨fun u v => u.components == v.components⟩

def zero : Fingerprint := ⟨Vector.replicate dimensions 0⟩

def ofList (xs : List Float) : Fingerprint := ⟨Vector.ofFn fun i => xs.getD i 0⟩

def add (u v : Fingerprint) : Fingerprint := ⟨u.components.zipWith (· + ·) v.components⟩

instance : Add Fingerprint := ⟨add⟩

def distanceSquared (u v : Fingerprint) : Float :=
  (u.components.zipWith (fun x y => (x - y) * (x - y)) v.components).foldl (· + ·) 0

def clashes (u v : Fingerprint) : Bool :=
  match (u.components.zip v.components).toList.find? fun c => (c.1 - c.2).isNaN with
  | some (x, y) => x.isInf && y.isInf
  | none => false

def distance (u v : Fingerprint) : Distance :=
  if u.clashes v then .undefined else .ofFloat (u.distanceSquared v)

end Fingerprint

end TreeDiff
