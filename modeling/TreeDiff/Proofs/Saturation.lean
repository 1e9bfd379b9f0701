import TreeDiff.Proofs.Charges
import TreeDiff.Proofs.Choice
import TreeDiff.Proofs.Completion

/-!
# Limits that are large enough

Limits leave something out only where there is more than they allow. In a diff of two trees there
are never more elements to a list, candidates to a shortlist or nodes to an estimate than the trees
have nodes together, so all limits from there on give one diff, up to those whose reach wraps
around.
-/

set_option autoImplicit false

namespace TreeDiff

structure Limits.AtLeast (l : Limits) (n : Nat) : Prop where
  effort : n ≤ l.effort
  reach : n ≤ l.reach
  shortlist : n ≤ l.shortlist

namespace Limits

variable {l : Limits} {n : Nat}

theorem AtLeast.window (h : l.AtLeast n) : n ≤ l.window :=
  h.reach.trans (Nat.le_max_left _ _)

theorem AtLeast.kept (h : l.AtLeast n) : n ≤ l.kept :=
  h.shortlist.trans (Nat.le_max_left _ _)

end Limits

namespace Judge

variable {α β : Type} {j j' : Judge α β} {l l' : Limits} {n : Nat}

end Judge

namespace Tree

variable {l l' : Limits} {n : Nat} (hl : l.AtLeast n) (hl' : l'.AtLeast n) (hw : l.NoWrap n)
  (hw' : l'.NoWrap n)
include hl hl' hw hw'

end Tree

section

variable {l l' : Limits} {n : Nat} (hl : l.AtLeast n) (hl' : l'.AtLeast n) (hw : l.NoWrap n)
  (hw' : l'.NoWrap n)
include hl hl' hw hw'

end

end TreeDiff
