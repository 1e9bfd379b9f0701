import TreeDiff.Arena

/-!
# Forests

A forest is an arena that keeps its nodes as the trees that they make up. Slots are numbered from
one. That of a node that was removed is used again, the one that has been free the longest first,
under a new stamp.
-/

set_option autoImplicit false

namespace TreeDiff

namespace Handle

def renewed (h : Handle) : Handle := ⟨h.slot, h.stamp + 1⟩

end Handle

structure Plant where
  handle : Handle
  item : Item
  children : List Plant

namespace Plant

mutual

def find? (h : Handle) : Plant → Option Plant
  | ⟨g, item, ps⟩ => if g = h then some ⟨g, item, ps⟩ else findIn? h ps

def findIn? (h : Handle) : List Plant → Option Plant
  | [] => none
  | p :: ps =>
    match find? h p with
    | some q => some q
    | none => findIn? h ps

end

mutual

def replace (h : Handle) (f : Plant → List Plant) : Plant → List Plant
  | ⟨g, item, ps⟩ => if g = h then f ⟨g, item, ps⟩ else [⟨g, item, replaceIn h f ps⟩]

def replaceIn (h : Handle) (f : Plant → List Plant) : List Plant → List Plant
  | [] => []
  | p :: ps => replace h f p ++ replaceIn h f ps

end

mutual

def handles : Plant → List Handle
  | ⟨g, _, ps⟩ => handlesIn ps ++ [g]

def handlesIn : List Plant → List Handle
  | [] => []
  | p :: ps => handles p ++ handlesIn ps

end

end Plant

structure Forest where
  roots : List Plant
  free : List Handle
  slots : Nat

namespace Forest

def empty : Forest := ⟨[], [], 0⟩

def find? (f : Forest) (h : Handle) : Option Plant := Plant.findIn? h f.roots

def item? (f : Forest) (h : Handle) : Option Item := (f.find? h).map Plant.item

def add (f : Forest) (item : Item) : Handle × Forest :=
  match f.free with
  | h :: free => (h, { f with roots := f.roots ++ [⟨h, item, []⟩], free })
  | [] =>
    let h : Handle := ⟨f.slots + 1, 0⟩
    (h, { f with roots := f.roots ++ [⟨h, item, []⟩], slots := f.slots + 1 })

def link (f : Forest) (parent : Handle) (child : Plant)
    (place : Plant → List Plant → List Plant) : Forest :=
  { f with
    roots :=
      Plant.replaceIn parent (fun p => [{ p with children := place child p.children }])
        (Plant.replaceIn child.handle (fun _ => []) f.roots) }

def attach (f : Forest) (same ancestor : ForestError) (place : Plant → List Plant → List Plant)
    (parent child : Handle) : Except ForestError Forest :=
  if parent = child then .error same
  else
    match f.find? parent, f.find? child with
    | some _, some p =>
      if (p.find? parent).isSome then .error ancestor else .ok (f.link parent p place)
    | _, _ => .error .removed

def append (f : Forest) (parent child : Handle) : Except ForestError Forest :=
  f.attach .appendSelf .appendAncestor (fun p ps => ps ++ [p]) parent child

def prepend (f : Forest) (parent child : Handle) : Except ForestError Forest :=
  f.attach .prependSelf .prependAncestor (fun p ps => p :: ps) parent child

def detach (f : Forest) (h : Handle) : Except ForestError Forest :=
  match f.find? h with
  | none => .error .removed
  | some p => .ok { f with roots := Plant.replaceIn h (fun _ => []) f.roots ++ [p] }

def remove (f : Forest) (h : Handle) : Except ForestError Forest :=
  match f.find? h with
  | none => .error .removed
  | some _ =>
    .ok { f with
      roots := Plant.replaceIn h Plant.children f.roots
      free := f.free ++ [h.renewed] }

def removeAll (f : Forest) (h : Handle) : Except ForestError Forest :=
  match f.find? h with
  | none => .error .removed
  | some p =>
    .ok { f with
      roots := Plant.replaceIn h (fun _ => []) f.roots
      free := f.free ++ p.handles.map Handle.renewed }

def childrenOf (f : Forest) (h : Handle) : List Handle :=
  ((f.find? h).map fun p => p.children.map Plant.handle).getD []

def arena : Arena Forest where
  empty := empty
  add := add
  append := append
  prepend := prepend
  detach := detach
  remove := remove
  removeAll := removeAll
  get := item?
  isRemoved f h := (f.find? h).isNone
  children := childrenOf

end Forest

end TreeDiff
