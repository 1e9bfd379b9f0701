import TreeDiff.Diff
import TreeDiff.Dump
import TreeDiff.Forest
import TreeDiff.Text.Decimal
import TreeDiff.Text.Quoted

/-!
# Dumps of trees and diffs

How each type of the library is dumped. An edit within a diff shows its text.
-/

set_option autoImplicit false

namespace TreeDiff

namespace Dump

def quoted (s : String) : Dump := word (Quoted.quoted s)

def nat (n : Nat) : Dump := word (toString n)

end Dump

open Dump

def Fingerprint.dump (v : Fingerprint) : Dump :=
  tuple "FeatureVector" [list (v.components.toList.map fun x => word (Decimal.ofFloat x))]

def Tag.dump (t : Tag) : Dump :=
  record "Annotation"
    [("category", quoted t.category), ("features", option (t.fingerprint.map Fingerprint.dump))]

def Form.dump : Form Dump → Dump
  | leaf label => tuple "Leaf" [quoted label]
  | sequence ds => tuple "Sequence" [list ds]
  | container slot ds => record "Container" [("slot", option slot), ("children", list ds)]
  | branch ds => tuple "Branch" [list ds]

def Tree.dump : Tree → Dump :=
  fold fun t below =>
    record "Term"
      [("category", quoted t.category), ("features", option (t.fingerprint.map Fingerprint.dump)),
        ("syntax", below.dump)]

def Diff.dump : Diff → Dump :=
  fold
    (fun t u _ below =>
      record "Merge" [("old", quoted t.category), ("new", quoted u.category), ("syntax", below.dump)])
    (fun e => word e.text)

def Counts.dump (c : Counts) : Dump :=
  record "DiffStats"
    [("merges", nat c.merges), ("inserts", nat c.inserts), ("deletes", nat c.deletes),
      ("replaces", nat c.replaces)]

def Coverage.dump (c : Coverage) : Dump :=
  record "Coverage" [("old", nat c.old), ("new", nat c.new)]

def Kind.dump : Kind → Dump
  | leaf label => tuple "Leaf" [quoted label]
  | sequence => word "Sequence"
  | container slotted => record "Container" [("has_slot", word (toString slotted))]
  | branch => word "Branch"

def Item.dump (i : Item) : Dump :=
  record "TermNode" [("category", quoted i.category), ("kind", i.kind.dump)]

end TreeDiff
