import TreeDiff.Tree

/-!
# Goals

A goal is one piece of work that a diff still owes. Comparing, zipping and aligning lead to further
goals; the other three are final and each ends in one edit.
-/

set_option autoImplicit false

namespace TreeDiff

inductive Goal where
  | compare (a b : Tree)
  | zip (a b : Tree)
  | align (olds news : List Tree)
  | delete (a : Tree)
  | insert (b : Tree)
  | replace (a b : Tree)
  deriving BEq

namespace Goal

def isFinal : Goal → Bool
  | delete _ | insert _ | replace _ _ => true
  | _ => false

def text : Goal → String
  | compare a b => "diff(" ++ a.category ++ ", " ++ b.category ++ ")"
  | zip a b => "zip(" ++ a.category ++ ", " ++ b.category ++ ")"
  | align olds news => "align(" ++ toString olds.length ++ " ~ " ++ toString news.length ++ ")"
  | delete a => "delete(" ++ a.category ++ ")"
  | insert b => "insert(" ++ b.category ++ ")"
  | replace a b => "replace(" ++ a.category ++ ", " ++ b.category ++ ")"

end Goal

end TreeDiff
