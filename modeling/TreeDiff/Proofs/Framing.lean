import TreeDiff.Proofs.Completion

/-!
# Work on top of other work

A machine whose agenda lies on top of further instructions, and whose values lie on top of further
values, takes the steps it would take alone, until its own work is done; only then does assembly go
on below. So a comparison on top of any agenda is the stand-alone comparison of its two trees.
-/

set_option autoImplicit false

namespace TreeDiff

namespace Machine

end Machine

end TreeDiff
