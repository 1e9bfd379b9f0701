import TreeDiff.Tree

/-!
# Estimated cost

An estimate of what it takes to turn one tree into another, used to rank candidates. Parts are
paired by position. A part without a partner costs its size, a pair of different category or shape
costs both sizes, and any other pair costs what its parts cost. Every node looked at takes one unit
of effort; once the effort is used up, the rest is taken to be free.
-/

set_option autoImplicit false

namespace TreeDiff.Tree

def aloneCost : List Tree → Nat → Nat × Nat
  | [], effort => (0, effort)
  | _, 0 => (0, 0)
  | t :: ts, effort + 1 =>
    let (cost, left) := aloneCost ts effort
    (t.size + cost, left)

mutual

def pairCost : Tree → Tree → Nat → Nat × Nat
  | _, _, 0 => (0, 0)
  | ⟨tag, n, form⟩, ⟨tag', n', form'⟩, effort + 1 =>
    if tag.category == tag'.category then
      match form, form' with
      | .leaf x, .leaf y => (if x == y then 0 else 2, effort)
      | .sequence xs, .sequence ys => listCost xs ys effort
      | .container none xs, .container none ys => listCost xs ys effort
      | .container (some s) xs, .container none ys =>
        let (cost, left) := aloneCost [s] effort
        let (more, left) := listCost xs ys left
        (cost + more, left)
      | .container none xs, .container (some r) ys =>
        let (cost, left) := aloneCost [r] effort
        let (more, left) := listCost xs ys left
        (cost + more, left)
      | .container (some s) xs, .container (some r) ys =>
        let (cost, left) := pairCost s r effort
        let (more, left) := listCost xs ys left
        (cost + more, left)
      | .branch xs, .branch ys => listCost xs ys effort
      | _, _ => (n + n', effort)
    else (n + n', effort)

def listCost : List Tree → List Tree → Nat → Nat × Nat
  | [], ys, effort => aloneCost ys effort
  | x :: xs, [], effort => aloneCost (x :: xs) effort
  | x :: xs, y :: ys, effort =>
    let (cost, left) := pairCost x y effort
    let (more, left) := listCost xs ys left
    (cost + more, left)

end

def estimate (t u : Tree) (effort : Nat) : Nat := (pairCost t u effort).1

end TreeDiff.Tree
