import TreeDiff.Fingerprint
import TreeDiff.Limits

/-!
# The choice among candidates

The best of a list of candidates: an equivalent one wins outright; otherwise, if the distance of
every candidate is known, only the nearest few are kept; the one of least cost among those left is
chosen. Ties go to the candidate at the lowest position.
-/

set_option autoImplicit false

namespace TreeDiff

structure Ranking (γ : Type) where
  position : γ → Nat
  equivalent : γ → Bool
  distance : γ → Option Distance
  cost : γ → Nat

namespace Ranking

variable {γ : Type} (r : Ranking γ)

def nearer (x y : Distance × γ) : Bool :=
  x.1.rank < y.1.rank || (x.1.rank == y.1.rank && r.position x.2 ≤ r.position y.2)

def shortlist (kept : Nat) (candidates : List γ) : List γ :=
  match candidates.mapM fun c => (r.distance c).map fun d => (d, c) with
  | none => candidates
  | some ranked => ((ranked.mergeSort r.nearer).take kept).map Prod.snd

def cheaper (x y : γ) : Bool :=
  r.cost x < r.cost y || (r.cost x == r.cost y && r.position x < r.position y)

def cheapest : List γ → Option γ
  | [] => none
  | x :: xs =>
    match cheapest xs with
    | none => some x
    | some y => if r.cheaper y x then some y else some x

def choose (kept : Nat) (candidates : List γ) : Option γ :=
  match candidates.find? r.equivalent with
  | some c => some c
  | none => r.cheapest (r.shortlist kept candidates)

end Ranking

end TreeDiff
