import TreeDiff.Proofs.Effort

/-!
# The estimate as a metric

Two trees charge each other the same, in either order, so an estimate is symmetric whatever the
effort. Equal trees charge nothing; of trees that differ some charge tells, and it stands among the
first charges, as many as the larger tree has nodes. All charges together obey the triangle
inequality, and with effort for three trees so does the estimate.
-/

set_option autoImplicit false

namespace TreeDiff.Tree

theorem listCharges_comm {ts us : List Tree}
    (h : Across (fun t u => charges t u = charges u t) ts us) :
    listCharges ts us = listCharges us ts := by
  induction ts generalizing us with
  | nil => cases us <;> rfl
  | cons t ts ih =>
    cases us with
    | nil => rfl
    | cons u us => rw [listCharges, listCharges, h.head, ih h.tail]

theorem charges_comm (t u : Tree) : charges t u = charges u t := by
  induction t, u using pair_induction with
  | unlike t u h => rw [charges_unlike h, charges_unlike fun h' => h h'.symm, Nat.add_comm]
  | leaf t u h hl =>
    have hr : u.shape = .leaf := h.2.symm.trans hl
    rw [charges_leaf h hl, charges_leaf h.symm hr]
    simp only [eq_comm]
  | node t u h hl ih =>
    have hr : u.shape ≠ .leaf := h.2 ▸ hl
    rw [charges_node h hl, charges_node h.symm hr, listCharges_comm ih.slots,
      listCharges_comm ih.children]

structure Tells (same : Prop) (m n : Nat) (cs : List Nat) : Prop where
  zeros : same → m = n ∧ cs = List.replicate m 0
  shows : ¬same → 0 < total (cs.take (max m n))

namespace Tells

variable {p q : Prop} {m n m' n' : Nat} {cs ds : List Nat}

theorem congr (h : Tells p m n cs) (hpq : p ↔ q) : Tells q m n cs :=
  ⟨fun hq => h.zeros (hpq.mpr hq), fun hq => h.shows fun hp => hq (hpq.mp hp)⟩

theorem root : Tells True 1 1 [0] :=
  ⟨fun _ => ⟨rfl, rfl⟩, fun h => (h trivial).elim⟩

/-- A first charge that is not zero tells at once. -/
theorem of_head {c : Nat} (hc : 0 < c) (hn : 0 < max m n) (hp : ¬p) : Tells p m n (c :: cs) where
  zeros h := (hp h).elim
  shows _ := by
    obtain ⟨k, hk⟩ := Nat.exists_eq_succ_of_ne_zero hn.ne'
    rw [hk, List.take_succ_cons, total_cons]
    omega

theorem append (h : Tells p m n cs) (h' : Tells q m' n' ds) :
    Tells (p ∧ q) (m + m') (n + n') (cs ++ ds) where
  zeros := by
    rintro ⟨hp, hq⟩
    obtain ⟨rfl, rfl⟩ := h.zeros hp
    obtain ⟨rfl, rfl⟩ := h'.zeros hq
    exact ⟨rfl, List.replicate_append_replicate⟩
  shows := by
    intro hn
    by_cases hp : p
    · -- The first charges are zeros, one for each node, so as much effort is left for the others.
      obtain ⟨rfl, rfl⟩ := h.zeros hp
      have hs := h'.shows fun hq => hn ⟨hp, hq⟩
      have hleft : max (m + m') (m + n') - m = max m' n' := by omega
      rw [List.take_append, List.length_replicate, hleft, total_append]
      omega
    · have hs := h.shows hp
      have hle : max m n ≤ max (m + m') (n + n') := by omega
      have ht := total_sublist (List.take_sublist_take_left (l := cs) hle)
      rw [List.take_append, total_append]
      omega

end Tells

theorem tells_listCharges {ts us : List Tree} (hts : ∀ t ∈ ts, 0 < t.size)
    (hus : ∀ u ∈ us, 0 < u.size)
    (h : Across (fun t u => Tells (t.bare = u.bare) t.size u.size (charges t u)) ts us) :
    Tells (ts.map bare = us.map bare) (total (ts.map size)) (total (us.map size))
      (listCharges ts us) := by
  induction ts generalizing us with
  | nil =>
    cases us with
    | nil => exact ⟨fun _ => ⟨rfl, rfl⟩, fun hn => (hn rfl).elim⟩
    | cons u us =>
      have hu := hus u List.mem_cons_self
      refine .of_head hu ?_ (by simp)
      rw [List.map_cons, total_cons]
      omega
  | cons t ts ih =>
    obtain ⟨ht, hts⟩ := List.forall_mem_cons.mp hts
    cases us with
    | nil =>
      refine .of_head ht ?_ (by simp)
      rw [List.map_cons, total_cons]
      omega
    | cons u us =>
      obtain ⟨-, hus⟩ := List.forall_mem_cons.mp hus
      refine (h.head.append (ih hts hus h.tail)).congr ?_
      rw [List.map_cons, List.map_cons, List.cons.injEq]

theorem map_toList_bare_iff {s r : Option Tree} :
    s.toList.map bare = r.toList.map bare ↔ s.map bare = r.map bare := by
  cases s <;> cases r <;> simp

theorem tells_charges {t u : Tree} (ht : t.WellSized) (hu : u.WellSized) :
    Tells (t.bare = u.bare) t.size u.size (charges t u) := by
  induction t, u using pair_induction with
  | unlike t u h =>
    have := ht.size_pos
    rw [charges_unlike h]
    exact .of_head (by omega) (by omega) fun hb => h (.of_bare hb)
  | leaf t u h hl =>
    have hr : u.shape = .leaf := h.2.symm.trans hl
    have hempty {form : Form Tree} (hf : form.shape = .leaf) :
        form.slot? = none ∧ form.children = [] := by
      simpa [Form.parts] using Form.parts_eq_nil hf
    have hiff : t.bare = u.bare ↔ t.form.label? = u.form.label? := by
      rw [bare_eq_iff_contents ht hu h, (hempty hl).1, (hempty hl).2, (hempty hr).1, (hempty hr).2]
      simp
    rw [charges_leaf h hl, ht.size_leaf hl, hu.size_leaf hr, hiff]
    by_cases hx : t.form.label? = u.form.label?
    · rw [if_pos hx]
      exact Tells.root.congr (iff_of_true trivial hx)
    · rw [if_neg hx]
      exact .of_head (by omega) (by omega) hx
  | node t u h hl ih =>
    have hr : u.shape ≠ .leaf := h.2 ▸ hl
    have hp : Across (fun x y => Tells (x.bare = y.bare) x.size y.size (charges x y))
        t.form.parts u.form.parts := fun x hx y hy => ih x hx y hy (ht.part hx) (hu.part hy)
    have hpos {v : Tree} (hv : v.WellSized) : ∀ x ∈ v.form.parts, 0 < x.size :=
      fun x hx => (hv.part hx).size_pos
    have hs := tells_listCharges (fun x hx => hpos ht x (t.form.slot_subset_parts hx))
      (fun y hy => hpos hu y (u.form.slot_subset_parts hy)) hp.slots
    have hc := tells_listCharges (fun x hx => hpos ht x (t.form.children_subset_parts hx))
      (fun y hy => hpos hu y (u.form.children_subset_parts hy)) hp.children
    rw [charges_node h hl, ht.size_split, hu.size_split, bare_eq_iff_contents ht hu h]
    refine (Tells.root.append (hs.append hc)).congr ?_
    rw [true_and, map_toList_bare_iff, Form.label?_eq_none hl, Form.label?_eq_none hr, eq_self,
      true_and]

theorem total_size_le {ts us : List Tree}
    (h : Across (fun t u => t.size ≤ u.size + total (charges t u)) ts us) :
    total (ts.map size) ≤ total (us.map size) + total (listCharges ts us) := by
  induction ts generalizing us with
  | nil => simp
  | cons t ts ih =>
    cases us with
    | nil => simp [listCharges]
    | cons u us =>
      have hfirst := h.head
      have hrest := ih h.tail
      rw [listCharges, total_append, List.map_cons, List.map_cons, total_cons, total_cons]
      omega

/-- The charges make up for what one tree is larger than the other. -/
theorem size_le {t u : Tree} (ht : t.WellSized) (hu : u.WellSized) :
    t.size ≤ u.size + total (charges t u) := by
  induction t, u using pair_induction with
  | unlike t u h =>
    rw [charges_unlike h, total_cons]
    omega
  | leaf t u h hl =>
    have := ht.size_leaf hl
    have := hu.size_pos
    omega
  | node t u h hl ih =>
    have hp : Across (fun x y => x.size ≤ y.size + total (charges x y)) t.form.parts u.form.parts :=
      fun x hx y hy => ih x hx y hy (ht.part hx) (hu.part hy)
    have hs := total_size_le hp.slots
    have hc := total_size_le hp.children
    rw [charges_node h hl, total_cons, total_append, ht.size_split, hu.size_split]
    omega

theorem listCharges_triangle {xs ys zs : List Tree} (hx : ∀ x ∈ xs, x.WellSized)
    (hy : ∀ y ∈ ys, y.WellSized) (hz : ∀ z ∈ zs, z.WellSized)
    (h : ∀ x ∈ xs, Across
      (fun y z => total (charges x z) ≤ total (charges x y) + total (charges y z)) ys zs) :
    total (listCharges xs zs) ≤ total (listCharges xs ys) + total (listCharges ys zs) := by
  induction xs generalizing ys zs with
  | nil =>
    have hsize := total_size_le fun z hz' y hy' => size_le (hz z hz') (hy y hy')
    rw [listCharges_comm fun z _ y _ => charges_comm z y] at hsize
    simpa [listCharges] using hsize
  | cons x xs ih =>
    cases ys with
    | nil =>
      have hsum := total_listCharges_le fun x' hx' z hz' => total_charges_le (hx x' hx') (hz z hz')
      simpa [listCharges] using hsum
    | cons y ys =>
      cases zs with
      | nil =>
        have hsize := total_size_le fun x' hx' y' hy' => size_le (hx x' hx') (hy y' hy')
        simpa [listCharges, Nat.add_comm] using hsize
      | cons z zs =>
        obtain ⟨hfirst, hrest⟩ := List.forall_mem_cons.mp h
        have hhead := hfirst.head
        have htail := ih (List.forall_mem_cons.mp hx).2 (List.forall_mem_cons.mp hy).2
          (List.forall_mem_cons.mp hz).2 fun x' hx' => (hrest x' hx').tail
        rw [listCharges, listCharges, listCharges, total_append, total_append, total_append]
        omega

/-- A pair of different kinds is charged both sizes, which is as much as any way past it saves. -/
theorem triangle_of_unlike {a b c : Tree} (ha : a.WellSized) (hb : b.WellSized)
    (hc : c.WellSized) (h : ¬(a.SameKind b ∧ b.SameKind c)) :
    total (charges a c) ≤ total (charges a b) + total (charges b c) := by
  by_cases hab : a.SameKind b
  · have hbc : ¬b.SameKind c := fun hbc => h ⟨hab, hbc⟩
    have hac : ¬a.SameKind c := fun hac => hbc (hab.symm.trans hac)
    have hsize := size_le ha hb
    rw [charges_unlike hac, charges_unlike hbc, total_cons, total_cons, total_nil]
    omega
  · rw [charges_unlike hab, total_cons, total_nil]
    by_cases hbc : b.SameKind c
    · have hac : ¬a.SameKind c := fun hac => hab (hac.trans hbc.symm)
      have hsize := size_le hc hb
      rw [charges_comm] at hsize
      rw [charges_unlike hac, total_cons, total_nil]
      omega
    · have hsum := total_charges_le ha hc
      rw [charges_unlike hbc, total_cons, total_nil]
      omega

/-- All charges of a pair are no more than those of the two pairs on a way through a third tree. -/
theorem total_charges_triangle {a b c : Tree} (ha : a.WellSized) (hb : b.WellSized)
    (hc : c.WellSized) :
    total (charges a c) ≤ total (charges a b) + total (charges b c) := by
  induction a using induction_parts generalizing b c with
  | step a ih =>
    by_cases h : a.SameKind b ∧ b.SameKind c
    · obtain ⟨hab, hbc⟩ := h
      have hac := hab.trans hbc
      by_cases hl : a.shape = .leaf
      · have hl' : b.shape = .leaf := hab.2.symm.trans hl
        rw [charges_leaf hac hl, charges_leaf hab hl, charges_leaf hbc hl']
        simp only [total_cons, total_nil]
        split_ifs <;> simp_all
      · have hl' : b.shape ≠ .leaf := hab.2 ▸ hl
        have hp : ∀ x ∈ a.form.parts, Across
            (fun y z => total (charges x z) ≤ total (charges x y) + total (charges y z))
            b.form.parts c.form.parts :=
          fun x hx y hy z hz => ih x hx (ha.part hx) (hb.part hy) (hc.part hz)
        have hslots := listCharges_triangle
          (fun x hx => ha.part (a.form.slot_subset_parts hx))
          (fun y hy => hb.part (b.form.slot_subset_parts hy))
          (fun z hz => hc.part (c.form.slot_subset_parts hz))
          fun x hx => (hp x (a.form.slot_subset_parts hx)).slots
        have hchildren := listCharges_triangle
          (fun x hx => ha.child hx) (fun y hy => hb.child hy) (fun z hz => hc.child hz)
          fun x hx => (hp x (a.form.children_subset_parts hx)).children
        rw [charges_node hac hl, charges_node hab hl, charges_node hbc hl']
        simp only [total_cons, total_append]
        omega
    · exact triangle_of_unlike ha hb hc h

theorem estimate_comm (t u : Tree) (effort : Nat) : t.estimate u effort = u.estimate t effort := by
  rw [estimate_eq, estimate_eq, charges_comm]

theorem estimate_of_equal {t u : Tree} (ht : t.WellSized) (hu : u.WellSized)
    (h : (t == u) = true) (effort : Nat) : t.estimate u effort = 0 := by
  obtain ⟨-, hz⟩ := (tells_charges ht hu).zeros (beq_iff_bare.mp h)
  rw [estimate_eq, hz, List.take_replicate, total_replicate, Nat.mul_zero]

theorem equal_of_estimate {t u : Tree} (ht : t.WellSized) (hu : u.WellSized) {effort : Nat}
    (he : max t.size u.size ≤ effort) (h : t.estimate u effort = 0) : (t == u) = true := by
  by_contra hn
  have hs := (tells_charges ht hu).shows fun hb => hn (beq_iff_bare.mpr hb)
  have hm := estimate_mono t u he
  rw [h, estimate_eq] at hm
  omega

/-- An estimate is the same in either order and nothing between equal trees, whatever the effort.
With effort for the larger tree, it is nothing between equal trees only; and with effort for three
trees, a way through the second is never estimated to be shorter than the direct one. -/
theorem estimate_metric {a b c : Tree} (ha : a.WellSized) (hb : b.WellSized) (hc : c.WellSized) :
    (∀ effort, a.estimate b effort = b.estimate a effort) ∧
      ((a == b) = true → ∀ effort, a.estimate b effort = 0) ∧
      (∀ effort, max a.size b.size ≤ effort → a.estimate b effort = 0 → (a == b) = true) ∧
      ∀ effort, a.size + b.size + c.size ≤ effort →
        a.estimate c effort ≤ a.estimate b effort + b.estimate c effort := by
  refine ⟨estimate_comm a b, estimate_of_equal ha hb, ?_, ?_⟩
  · intro effort he h
    exact equal_of_estimate ha hb he h
  · intro effort he
    have htri := total_charges_triangle ha hb hc
    rw [← ha.nodes_eq, ← hb.nodes_eq, ← hc.nodes_eq] at he
    rw [estimate_of_ample (by omega), estimate_of_ample (by omega), estimate_of_ample (by omega)]
    exact htri

/-- Two lists of arguments that differ in the last one, the first once more with a fingerprint, and
a shorter list. With effort for all nodes but the last the difference does not show. -/
theorem last_argument_metric :
    let list (ts : List Tree) : Tree := .sequence "arguments" ts
    let a := list [.leaf "name" "x", .leaf "name" "y"]
    let a' := a.withFingerprint .zero
    let b := list [.leaf "name" "x", .leaf "name" "z"]
    let c := list [.leaf "name" "w"]
    a.WellSized ∧ a'.WellSized ∧ b.WellSized ∧ c.WellSized ∧
      max a.size a'.size ≤ 3 ∧ a.estimate a' 3 = 0 ∧ (a == a') = true ∧
      (∀ effort, a.estimate a' effort = 0) ∧
      a.estimate b 2 = 0 ∧ a.estimate b 3 = 2 ∧ (a == b) = false ∧
      (∀ effort, a.estimate b effort = b.estimate a effort) ∧
      a.size + b.size + c.size ≤ 8 ∧ a.estimate c 8 ≤ a.estimate b 8 + b.estimate c 8 := by
  intro list a a' b c
  have ha : a.WellSized := by simp [a, list, wellSized_sequence, wellSized_leaf]
  have ha' : a'.WellSized := wellSized_withFingerprint ha .zero
  have hb : b.WellSized := by simp [b, list, wellSized_sequence, wellSized_leaf]
  have hc : c.WellSized := by simp [c, list, wellSized_sequence, wellSized_leaf]
  have hmax : max a.size a'.size ≤ 3 := by decide
  have hzero : a.estimate a' 3 = 0 := by decide
  have hsize : a.size + b.size + c.size ≤ 8 := by decide
  obtain ⟨-, hequal, htold, -⟩ := estimate_metric ha ha' hb
  obtain ⟨hcomm, -, -, htri⟩ := estimate_metric ha hb hc
  have heq := htold 3 hmax hzero
  exact ⟨ha, ha', hb, hc, hmax, hzero, heq, hequal heq, by decide, by decide, by decide, hcomm,
    hsize, htri 8 hsize⟩

end TreeDiff.Tree
