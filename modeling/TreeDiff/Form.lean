/-!
# The forms of a node

A node of a labelled tree takes one of four forms. The form is generic in what stands for the
parts of the node, so that input trees, diff trees and values computed bottom-up share it. The
parts of a node are read in one order everywhere: the slot of a container first, then the children.
-/

set_option autoImplicit false

namespace TreeDiff

def total (ns : List Nat) : Nat := ns.foldr (· + ·) 0

@[simp] theorem total_nil : total [] = 0 := rfl

@[simp] theorem total_cons (n : Nat) (ns : List Nat) : total (n :: ns) = n + total ns := rfl

@[simp] theorem total_append (ms ns : List Nat) : total (ms ++ ns) = total ms + total ns := by
  induction ms with
  | nil => simp
  | cons m ms ih => simp [ih, Nat.add_assoc]

theorem le_total {n : Nat} {ns : List Nat} (h : n ∈ ns) : n ≤ total ns := by
  induction ns with
  | nil => cases h
  | cons m ns ih =>
    rw [total_cons]
    rcases List.mem_cons.mp h with rfl | h
    · omega
    · have := ih h
      omega

theorem total_sublist {ms ns : List Nat} (h : ms.Sublist ns) : total ms ≤ total ns := by
  induction h with
  | slnil => exact Nat.le_refl _
  | cons n _ ih =>
    rw [total_cons]
    omega
  | cons_cons n _ ih =>
    rw [total_cons, total_cons]
    omega

theorem total_replicate (k n : Nat) : total (List.replicate k n) = k * n := by
  induction k with
  | zero => rw [List.replicate_zero, total_nil, Nat.zero_mul]
  | succ k ih => rw [List.replicate_succ, total_cons, ih, Nat.succ_mul, Nat.add_comm]

inductive Shape where
  | leaf
  | sequence
  | container
  | branch
  deriving DecidableEq, Repr

inductive Form (α : Type) where
  | leaf (label : String)
  | sequence (children : List α)
  | container (slot : Option α) (children : List α)
  | branch (children : List α)
  deriving DecidableEq, Repr

namespace Form

variable {α β : Type}

def shape : Form α → Shape
  | leaf _ => .leaf
  | sequence _ => .sequence
  | container _ _ => .container
  | branch _ => .branch

def label? : Form α → Option String
  | leaf label => some label
  | _ => none

def slot? : Form α → Option α
  | container slot _ => slot
  | _ => none

def children : Form α → List α
  | leaf _ => []
  | sequence xs => xs
  | container _ xs => xs
  | branch xs => xs

def parts (form : Form α) : List α :=
  form.slot?.toList ++ form.children

def arity (form : Form α) : Nat :=
  form.parts.length

def map (f : α → β) : Form α → Form β
  | leaf label => leaf label
  | sequence xs => sequence (xs.map f)
  | container slot xs => container (slot.map f) (xs.map f)
  | branch xs => branch (xs.map f)

@[simp] theorem shape_map (f : α → β) (form : Form α) : (form.map f).shape = form.shape := by
  cases form <;> rfl

@[simp] theorem label?_map (f : α → β) (form : Form α) : (form.map f).label? = form.label? := by
  cases form <;> rfl

@[simp] theorem slot?_map (f : α → β) (form : Form α) :
    (form.map f).slot? = form.slot?.map f := by
  cases form <;> rfl

@[simp] theorem children_map (f : α → β) (form : Form α) :
    (form.map f).children = form.children.map f := by
  cases form <;> rfl

@[simp] theorem parts_map (f : α → β) (form : Form α) :
    (form.map f).parts = form.parts.map f := by
  cases form with
  | container slot xs => cases slot <;> rfl
  | _ => rfl

@[simp] theorem arity_map (f : α → β) (form : Form α) : (form.map f).arity = form.arity := by
  simp [arity]

@[simp] theorem map_map {γ : Type} (f : α → β) (g : β → γ) (form : Form α) :
    (form.map f).map g = form.map (g ∘ f) := by
  cases form <;> simp [map]

theorem slot_mem_parts {form : Form α} {x : α} (h : x ∈ form.slot?) : x ∈ form.parts :=
  List.mem_append_left _ (Option.mem_toList.mpr h)

theorem child_mem_parts {form : Form α} {x : α} (h : x ∈ form.children) : x ∈ form.parts :=
  List.mem_append_right _ h

theorem slot_subset_parts (form : Form α) : form.slot?.toList ⊆ form.parts :=
  List.subset_append_left _ _

theorem children_subset_parts (form : Form α) : form.children ⊆ form.parts :=
  List.subset_append_right _ _

/-- Mapping depends only on what the function does to the parts. -/
theorem map_congr {f g : α → β} {form : Form α} (h : ∀ x ∈ form.parts, f x = g x) :
    form.map f = form.map g := by
  have hc : form.children.map f = form.children.map g :=
    List.map_congr_left fun x hx => h x (child_mem_parts hx)
  cases form with
  | leaf label => rfl
  | sequence xs => exact congrArg sequence hc
  | container slot xs =>
    have hs : slot.map f = slot.map g := Option.map_congr fun x hx => h x (slot_mem_parts hx)
    rw [map, map, hs, show xs.map f = xs.map g from hc]
  | branch xs => exact congrArg branch hc

theorem slot?_eq_none {form : Form α} (h : form.shape ≠ .container) : form.slot? = none := by
  cases form with
  | container slot xs => exact absurd rfl h
  | _ => rfl

theorem children_eq_nil {form : Form α} (h : form.shape = .leaf) : form.children = [] := by
  cases form with
  | leaf label => rfl
  | _ => cases h

theorem label?_eq_none {form : Form α} (h : form.shape ≠ .leaf) : form.label? = none := by
  cases form with
  | leaf label => exact absurd rfl h
  | _ => rfl

theorem parts_eq_nil {form : Form α} (h : form.shape = .leaf) : form.parts = [] := by
  cases form with
  | leaf label => rfl
  | _ => cases h

/-- A form is its shape, its label, its slot and its children. -/
theorem eq_of_contents {f g : Form α} (hs : f.shape = g.shape) (hl : f.label? = g.label?)
    (hr : f.slot? = g.slot?) (hc : f.children = g.children) : f = g := by
  cases f <;> cases g <;> cases hs
  case leaf x y => exact congrArg leaf (Option.some.inj hl)
  case sequence xs ys => exact congrArg sequence hc
  case container s xs r ys =>
    cases hr
    cases hc
    rfl
  case branch xs ys => exact congrArg branch hc

end Form

end TreeDiff
