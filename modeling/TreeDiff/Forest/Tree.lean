import TreeDiff.Arena.Reading
import TreeDiff.Forest

/-!
# Trees from a forest

A forest is read as any arena is. A level for every slot is enough; what stands here for a reader
that is not done is never met.
-/

set_option autoImplicit false

namespace TreeDiff

def Forest.tree (f : Forest) (h : Handle) : Except ReadError Tree :=
  (Forest.arena.readWithin f (f.slots + 1) h).run.getD (.error (.removed h.slot))

end TreeDiff
