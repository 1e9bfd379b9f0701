/-!
# Dumps

A dump shows a value by its constructors, for people who look into a program. It is laid out on one
line, or with every item on a line of its own, indented by four spaces for each level.
-/

set_option autoImplicit false

namespace TreeDiff

inductive Dump where
  | word (text : String)
  | record (name : String) (fields : List (String × Dump))
  | tuple (name : String) (items : List Dump)
  | list (items : List Dump)

namespace Dump

def option : Option Dump → Dump
  | none => word "None"
  | some d => tuple "Some" [d]

def inlineBlock (left space right : String) : List String → String
  | [] => left ++ right
  | items => left ++ space ++ ", ".intercalate items ++ space ++ right

def indented (s : String) : String :=
  "    " ++ String.join (s.toList.map fun c => if c == '\n' then "\n    " else c.toString)

def tallBlock (left right : String) : List String → String
  | [] => left ++ right
  | items => left ++ "\n" ++ String.join (items.map fun s => indented s ++ ",\n") ++ right

mutual

def inline : Dump → String
  | word text => text
  | record name fields => inlineBlock (name ++ " \x7b") " " "\x7d" (inlineFields fields)
  | tuple name items => inlineBlock (name ++ "(") "" ")" (inlineAll items)
  | list items => inlineBlock "[" "" "]" (inlineAll items)

def inlineAll : List Dump → List String
  | [] => []
  | d :: ds => inline d :: inlineAll ds

def inlineFields : List (String × Dump) → List String
  | [] => []
  | (name, d) :: fields => (name ++ ": " ++ inline d) :: inlineFields fields

end

mutual

def tall : Dump → String
  | word text => text
  | record name fields => tallBlock (name ++ " \x7b") "\x7d" (tallFields fields)
  | tuple name items => tallBlock (name ++ "(") ")" (tallAll items)
  | list items => tallBlock "[" "]" (tallAll items)

def tallAll : List Dump → List String
  | [] => []
  | d :: ds => tall d :: tallAll ds

def tallFields : List (String × Dump) → List String
  | [] => []
  | (name, d) :: fields => (name ++ ": " ++ tall d) :: tallFields fields

end

end Dump

end TreeDiff
