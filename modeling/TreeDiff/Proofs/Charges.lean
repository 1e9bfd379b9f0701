import TreeDiff.Proofs.Equality

/-!
# What an estimate adds up

Every node that an estimate looks at charges something, and what it charges depends neither on the
effort nor on fingerprints. The charges stand in the order in which the nodes are looked at, and an
estimate adds up as many of them as the effort allows. There are fewer of them than there are nodes,
so an effort as large as the two trees leaves none out.
-/

set_option autoImplicit false

namespace TreeDiff.Tree

mutual

def charges : Tree → Tree → List Nat
  | ⟨tag, n, form⟩, ⟨tag', n', form'⟩ =>
    if tag.category == tag'.category then
      match form, form' with
      | .leaf x, .leaf y => [if x == y then 0 else 2]
      | .sequence xs, .sequence ys => 0 :: listCharges xs ys
      | .container none xs, .container none ys => 0 :: listCharges xs ys
      | .container (some s) xs, .container none ys => 0 :: s.size :: listCharges xs ys
      | .container none xs, .container (some r) ys => 0 :: r.size :: listCharges xs ys
      | .container (some s) xs, .container (some r) ys => 0 :: (charges s r ++ listCharges xs ys)
      | .branch xs, .branch ys => 0 :: listCharges xs ys
      | _, _ => [n + n']
    else [n + n']

def listCharges : List Tree → List Tree → List Nat
  | [], ys => ys.map size
  | x :: xs, [] => (x :: xs).map size
  | x :: xs, y :: ys => charges x y ++ listCharges xs ys

end

def spend (cs : List Nat) (effort : Nat) : Nat × Nat := (total (cs.take effort), effort - cs.length)

@[simp] theorem spend_nil (effort : Nat) : spend [] effort = (0, effort) := by
  simp [spend]

@[simp] theorem spend_zero (cs : List Nat) : spend cs 0 = (0, 0) := by
  simp [spend]

@[simp] theorem spend_cons (c : Nat) (cs : List Nat) (effort : Nat) :
    spend (c :: cs) (effort + 1) = (c + (spend cs effort).1, (spend cs effort).2) := by
  simp [spend]

theorem spend_append (cs ds : List Nat) (effort : Nat) :
    spend (cs ++ ds) effort =
      ((spend cs effort).1 + (spend ds (spend cs effort).2).1,
        (spend ds (spend cs effort).2).2) := by
  simp [spend, List.take_append, Nat.sub_add_eq]

theorem spend_ite (p : Prop) [Decidable p] (cs ds : List Nat) (effort : Nat) :
    spend (if p then cs else ds) effort = if p then spend cs effort else spend ds effort :=
  apply_ite (spend · effort) p cs ds

theorem aloneCost_eq (ts : List Tree) (effort : Nat) :
    aloneCost ts effort = spend (ts.map size) effort := by
  induction ts generalizing effort with
  | nil => simp [aloneCost]
  | cons t ts ih => cases effort <;> simp [aloneCost, ih]

theorem spend_alone (t : Tree) (cs : List Nat) (effort : Nat) :
    spend (t.size :: cs) effort =
      ((aloneCost [t] effort).1 + (spend cs (aloneCost [t] effort).2).1,
        (spend cs (aloneCost [t] effort).2).2) := by
  rw [aloneCost_eq, ← spend_append]
  rfl

mutual

theorem pairCost_eq (t u : Tree) (effort : Nat) :
    pairCost t u effort = spend (charges t u) effort := by
  match t, u, effort with
  | _, _, 0 => simp [pairCost]
  | ⟨tag, n, form⟩, ⟨tag', n', form'⟩, effort + 1 =>
    match form, form' with
    | .leaf x, .leaf y => simp [pairCost, charges, spend_ite]
    | .sequence xs, .sequence ys | .branch xs, .branch ys
    | .container none xs, .container none ys =>
      simp [pairCost, charges, spend_ite, listCost_eq xs ys]
    | .container (some s) xs, .container none ys | .container none xs, .container (some s) ys =>
      simp [pairCost, charges, spend_ite, spend_alone, listCost_eq xs ys]
    | .container (some s) xs, .container (some r) ys =>
      simp [pairCost, charges, spend_ite, spend_append, pairCost_eq s r, listCost_eq xs ys]
    | .leaf _, .sequence _ | .leaf _, .container _ _ | .leaf _, .branch _
    | .sequence _, .leaf _ | .sequence _, .container _ _ | .sequence _, .branch _
    | .container _ _, .leaf _ | .container _ _, .sequence _ | .container _ _, .branch _
    | .branch _, .leaf _ | .branch _, .sequence _ | .branch _, .container _ _ =>
      simp [pairCost, charges]

theorem listCost_eq (ts us : List Tree) (effort : Nat) :
    listCost ts us effort = spend (listCharges ts us) effort := by
  match ts, us with
  | [], us => rw [listCost, listCharges, aloneCost_eq]
  | t :: ts, [] => rw [listCost, listCharges, aloneCost_eq]
  | t :: ts, u :: us =>
    rw [listCharges, spend_append, ← pairCost_eq t u, ← listCost_eq ts us]
    rfl

end

theorem estimate_eq (t u : Tree) (effort : Nat) :
    t.estimate u effort = total ((charges t u).take effort) := by
  rw [estimate, pairCost_eq, spend]

theorem charges_eq (t u : Tree) :
    charges t u =
      if t.SameKind u then
        if t.shape = .leaf then [if t.form.label? = u.form.label? then 0 else 2]
        else 0 :: (listCharges t.form.slot?.toList u.form.slot?.toList ++
          listCharges t.form.children u.form.children)
      else [t.size + u.size] := by
  obtain ⟨tag, n, form⟩ := t
  obtain ⟨tag', n', form'⟩ := u
  cases form with
  | container s xs =>
    cases form' with
    | container r ys =>
      cases s <;> cases r <;>
        simp [charges, listCharges, SameKind, category, shape, Form.shape, Form.slot?,
          Form.children]
    | _ => simp [charges, SameKind, shape, Form.shape]
  | _ =>
    cases form' <;>
      simp [charges, listCharges, SameKind, category, shape, Form.shape, Form.slot?,
        Form.children, Form.label?]

theorem charges_unlike {t u : Tree} (h : ¬t.SameKind u) : charges t u = [t.size + u.size] := by
  rw [charges_eq, if_neg h]

theorem charges_leaf {t u : Tree} (h : t.SameKind u) (hl : t.shape = .leaf) :
    charges t u = [if t.form.label? = u.form.label? then 0 else 2] := by
  rw [charges_eq, if_pos h, if_pos hl]

theorem charges_node {t u : Tree} (h : t.SameKind u) (hl : t.shape ≠ .leaf) :
    charges t u = 0 :: (listCharges t.form.slot?.toList u.form.slot?.toList ++
      listCharges t.form.children u.form.children) := by
  rw [charges_eq, if_pos h, if_neg hl]

def Across (P : Tree → Tree → Prop) (ts us : List Tree) : Prop := ∀ t ∈ ts, ∀ u ∈ us, P t u

namespace Across

variable {P : Tree → Tree → Prop} {t u : Tree} {ts us : List Tree}

theorem head (h : Across P (t :: ts) (u :: us)) : P t u :=
  h t List.mem_cons_self u List.mem_cons_self

theorem tail (h : Across P (t :: ts) (u :: us)) : Across P ts us :=
  fun x hx y hy => h x (List.mem_cons_of_mem _ hx) y (List.mem_cons_of_mem _ hy)

theorem slots (h : Across P t.form.parts u.form.parts) :
    Across P t.form.slot?.toList u.form.slot?.toList :=
  fun x hx y hy => h x (t.form.slot_subset_parts hx) y (u.form.slot_subset_parts hy)

theorem children (h : Across P t.form.parts u.form.parts) :
    Across P t.form.children u.form.children :=
  fun x hx y hy => h x (t.form.children_subset_parts hx) y (u.form.children_subset_parts hy)

end Across

/-- What holds of every pair when it holds of pairs that are not looked into, and of any other pair
when it holds of all pairs of their parts. -/
theorem pair_induction {P : Tree → Tree → Prop} (unlike : ∀ t u, ¬t.SameKind u → P t u)
    (leaf : ∀ t u, t.SameKind u → t.shape = .leaf → P t u)
    (node : ∀ t u, t.SameKind u → t.shape ≠ .leaf → Across P t.form.parts u.form.parts → P t u)
    (t u : Tree) : P t u := by
  induction t using induction_parts generalizing u with
  | step t ih =>
    by_cases h : t.SameKind u
    · by_cases hl : t.shape = .leaf
      · exact leaf t u h hl
      · exact node t u h hl fun x hx y _ => ih x hx y
    · exact unlike t u h

theorem listCharges_bare {ts us : List Tree}
    (h : Across (fun t u => charges t.bare u.bare = charges t u) ts us) :
    listCharges (ts.map bare) (us.map bare) = listCharges ts us := by
  induction ts generalizing us with
  | nil => simp [listCharges]
  | cons t ts ih =>
    cases us with
    | nil => simp [listCharges]
    | cons u us => rw [List.map_cons, List.map_cons, listCharges, listCharges, h.head, ih h.tail]

theorem sameKind_bare_iff {t u : Tree} : t.bare.SameKind u.bare ↔ t.SameKind u := by
  rw [SameKind, SameKind, bare_category, bare_category, bare_shape, bare_shape]

theorem charges_bare (t u : Tree) : charges t.bare u.bare = charges t u := by
  induction t, u using pair_induction with
  | unlike t u h =>
    rw [charges_unlike h, charges_unlike (mt sameKind_bare_iff.mp h), bare_size, bare_size]
  | leaf t u h hl =>
    rw [charges_leaf h hl, charges_leaf (sameKind_bare_iff.mpr h) ((bare_shape t).trans hl)]
    simp
  | node t u h hl ih =>
    have hl' : t.bare.shape ≠ .leaf := bare_shape t ▸ hl
    rw [charges_node h hl, charges_node (sameKind_bare_iff.mpr h) hl', ← listCharges_bare ih.slots,
      ← listCharges_bare ih.children]
    simp [Option.toList_map]

@[simp] theorem estimate_bare (t u : Tree) (effort : Nat) :
    t.bare.estimate u.bare effort = t.estimate u effort := by
  rw [estimate_eq, estimate_eq, charges_bare]

theorem WellSized.nodes_eq {t : Tree} (h : t.WellSized) : t.nodes = t.size := by
  induction t using induction_parts with
  | step t ih =>
    have hp : t.form.parts.map nodes = t.form.parts.map size :=
      List.map_congr_left fun u hu => ih u hu (h.part hu)
    rw [Tree.nodes_eq, hp, ← h.size_eq]

theorem length_le_nodes (ts : List Tree) : ts.length ≤ total (ts.map nodes) := by
  induction ts with
  | nil => exact Nat.zero_le _
  | cons t ts ih =>
    have := nodes_pos t
    rw [List.length_cons, List.map_cons, total_cons]
    omega

theorem nodes_split (t : Tree) :
    t.nodes = 1 + (total (t.form.slot?.toList.map nodes) + total (t.form.children.map nodes)) := by
  rw [nodes_eq, Form.parts, List.map_append, total_append]

theorem length_listCharges_le {ts us : List Tree}
    (h : Across (fun t u => (charges t u).length < t.nodes + u.nodes) ts us) :
    (listCharges ts us).length ≤ total (ts.map nodes) + total (us.map nodes) := by
  induction ts generalizing us with
  | nil => simpa [listCharges] using length_le_nodes us
  | cons t ts ih =>
    cases us with
    | nil => simpa [listCharges] using length_le_nodes (t :: ts)
    | cons u us =>
      have hfirst := h.head
      have hrest := ih h.tail
      rw [listCharges, List.length_append, List.map_cons, List.map_cons, total_cons, total_cons]
      omega

/-- The two nodes at the top are looked at together. -/
theorem length_charges_lt (t u : Tree) : (charges t u).length < t.nodes + u.nodes := by
  induction t, u using pair_induction with
  | unlike t u h =>
    have := nodes_pos t
    have := nodes_pos u
    rw [charges_unlike h, List.length_singleton]
    omega
  | leaf t u h hl =>
    have := nodes_pos t
    have := nodes_pos u
    rw [charges_leaf h hl, List.length_singleton]
    omega
  | node t u h hl ih =>
    have hs := length_listCharges_le ih.slots
    have hc := length_listCharges_le ih.children
    rw [charges_node h hl, List.length_cons, List.length_append, t.nodes_split, u.nodes_split]
    omega

/-- With effort enough for both trees, an estimate adds up all charges. -/
theorem estimate_of_ample {t u : Tree} {effort : Nat} (h : t.nodes + u.nodes ≤ effort) :
    t.estimate u effort = total (charges t u) := by
  have := length_charges_lt t u
  rw [estimate_eq, List.take_of_length_le (by omega)]

end TreeDiff.Tree
