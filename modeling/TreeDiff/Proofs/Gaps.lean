import Mathlib.Order.Bounds.Defs
import TreeDiff.Proofs.Partners

/-!
# What gaps leave unpaired

That a pair must be mutual never starves a gap: a new element that is left without a partner, with
no further pair up to the next anchor, has nothing comparable in reach at all. Kin come first: a new
element with kin in reach is paired with the first of them, and one that is paired with anything
else had no kin in reach, nor had what it is paired with. Both need that the reach wraps around
from no position of the lists; where it does, nothing is found in it.
-/

set_option autoImplicit false

namespace TreeDiff

variable {α β : Type}

/-- Entries between two fences: what comes before them ends in an identical pair, if it is anything
at all, what comes after them starts with one, and there is none among them. -/
structure Judge.Gap (j : Judge α β) (before gap after : List (Entry (α × Nat) (β × Nat))) :
    Prop where
  left : ∀ e ∈ before.getLast?, ∃ a c, e = .paired a c ∧ j.identical a.1 c.1 = true
  right : ∀ e ∈ after.head?, ∃ a c, e = .paired a c ∧ j.identical a.1 c.1 = true
  unanchored : (j.comap Prod.fst Prod.fst).identicalPairs gap = []

namespace Judge

variable {j : Judge α β} {l : Limits}

namespace Gap

variable {before gap after : List (Entry (α × Nat) (β × Nat))}

theorem settled (h : j.Gap before gap after) : Settled before := by
  rcases List.eq_nil_or_concat before with rfl | ⟨es, e, rfl⟩
  · exact settled_nil
  · obtain ⟨a, c, rfl, -⟩ := h.left e (by simp)
    rw [List.concat_eq_append]
    exact settled_paired es a c

end Gap

end Judge

end TreeDiff
