import Mathlib.Data.List.Induction
import TreeDiff.Proofs.Building
import TreeDiff.Proofs.Equality
import TreeDiff.Proofs.Grams

/-!
# Planting

Every tree can be planted in every arena: under whatever handles its nodes get, there is a plant
that depicts it, and a history that builds that plant. Reading undoes planting. What was built is
read as the tree that it depicts, slots where there were slots, but without fingerprints, and what
stood in the arena before is read as it was.
-/

set_option autoImplicit false

namespace TreeDiff

theorem Kind.form_parts (slot : Nat) (form : Form Tree) :
    form.kind.form slot form.parts = .ok form := by
  cases form with
  | container s ts => cases s <;> rfl
  | _ => rfl

theorem Tree.WellSized.bare {t : Tree} (h : t.WellSized) : t.bare.WellSized := by
  induction t using induction_parts with
  | step t ih =>
    have hn : t.bare = node ⟨t.category, none⟩ (t.form.map Tree.bare) := by
      rw [bare_eq, node, Form.parts_map, List.map_map, h.size_eq,
        List.map_congr_left (f := size ∘ Tree.bare) (g := size) fun u _ => bare_size u]
    rw [hn]
    apply wellSized_node
    rw [Form.parts_map]
    exact List.forall_mem_map.mpr fun u hu => ih u hu (h.part hu)

namespace Arena

variable {σ : Type} {A : Arena σ} {s : σ}

theorem mapM_readWithin_of_ok {n : Nat} {ps : List Plant} {ts : List Tree}
    (h : List.Forall₂ (fun p t => (A.readWithin s n p.handle).run = some (.ok t)) ps ts) :
    ((ps.map Plant.handle).mapM (A.readWithin s n)).run = some (.ok ts) := by
  induction h with
  | nil => rfl
  | cons hp _ ih =>
    rw [List.map_cons, List.mapM_cons, ExceptT.run_bind, hp]
    simp only [Option.bind_eq_bind, Option.bind_some, ExceptT.run_bind, ih]
    rfl

theorem readWithin_of_depicts {p : Plant} {t : Tree} (hp : (A.links s).Stands p)
    (hd : p.Depicts t) (ht : t.WellSized) {n : Nat} (hn : p.handles.length ≤ n) :
    (A.readWithin s n p.handle).run = some (.ok t) := by
  induction t using Tree.induction_parts generalizing p n with
  | step t ih =>
    obtain ⟨hcategory, hkind, hunmarked, hparts⟩ := hd
    rw [Plant.handles_eq, List.length_append, List.length_singleton] at hn
    obtain ⟨n, rfl⟩ := Nat.exists_eq_succ_of_ne_zero (Nat.ne_zero_of_lt hn)
    have hts : List.Forall₂ (fun p t => (A.readWithin s n p.handle).run = some (.ok t)) p.children
        t.form.parts := by
      refine List.forall₂_iff_get.mpr ⟨hparts.length_eq, fun i hi hi' => ?_⟩
      have hc : p.children.get ⟨i, hi⟩ ∈ p.children := List.get_mem _ _
      have hu : t.form.parts.get ⟨i, hi'⟩ ∈ t.form.parts := List.get_mem _ _
      have hl := (Plant.handles_sublist_of_mem hc).length_le
      exact ih _ hu ((Links.stands_iff.mp hp).2 _ hc) (hparts.get hi hi') (ht.part hu) (by omega)
    have htag : t.tag = ⟨p.item.category, none⟩ := by
      rw [← hcategory, Tree.category, ← hunmarked, Tree.fingerprint]
    rw [readWithin_of_children hp (mapM_readWithin_of_ok hts)]
    change some (p.item.kind.form p.handle.slot t.form.parts >>= fun form => _) = _
    rw [show p.item.kind = t.form.kind from hkind.symm, Kind.form_parts, ← htag]
    exact congrArg (some ∘ Except.ok) ht.node_eq

/-- A plant that stands is read as the tree that it depicts, if the sizes of that are right. -/
theorem reads_of_depicts {p : Plant} {t : Tree} (hp : (A.links s).Stands p) (hd : p.Depicts t)
    (ht : t.WellSized) : A.Reads s p.handle (.ok t) :=
  ⟨_, fun _ hn => readWithin_of_depicts hp hd ht hn⟩

end Arena

def Tree.items : Tree → List Item :=
  fold fun t below => below.parts.flatten ++ [t.item]

theorem Tree.items_eq (t : Tree) : t.items = t.form.parts.flatMap items ++ [t.item] := by
  rw [items, fold_eq, Form.parts_map, List.flatMap_def]

structure Plant.Bears (p : Plant) (hs : List Handle) (t : Tree) : Prop where
  depicts : p.Depicts t.bare
  handles : p.postorder.map handle = hs
  items : p.postorder.map item = t.items

theorem Plant.bears_parts {ts : List Tree}
    (hts : ∀ t ∈ ts, ∀ hs : List Handle, hs.length = t.items.length → ∃ p : Plant, p.Bears hs t)
    (hs : List Handle) (hl : hs.length = (ts.flatMap Tree.items).length) :
    ∃ ps, List.Forall₂ Depicts ps (ts.map Tree.bare) ∧ (postorderIn ps).map handle = hs ∧
      (postorderIn ps).map item = ts.flatMap Tree.items := by
  induction ts generalizing hs with
  | nil =>
    obtain rfl := List.length_eq_zero_iff.mp hl
    exact ⟨[], .nil, rfl, rfl⟩
  | cons t ts ih =>
    obtain ⟨ht, hts⟩ := List.forall_mem_cons.mp hts
    rw [List.flatMap_cons, List.length_append] at hl
    have hfirst : (hs.take t.items.length).length = t.items.length := by
      rw [List.length_take]
      omega
    have hrest : (hs.drop t.items.length).length = (ts.flatMap Tree.items).length := by
      rw [List.length_drop]
      omega
    obtain ⟨p, hp⟩ := ht _ hfirst
    obtain ⟨ps, hd, hhs, hitems⟩ := ih hts _ hrest
    refine ⟨p :: ps, .cons hp.depicts hd, ?_, ?_⟩
    · rw [postorderIn, List.map_append, hp.handles, hhs, List.take_append_drop]
    · rw [postorderIn, List.map_append, hp.items, hitems, List.flatMap_cons]

/-- The nodes of a tree may bear any handles. -/
theorem Tree.exists_plant (t : Tree) : ∀ hs : List Handle, hs.length = t.items.length →
    ∃ p : Plant, p.Bears hs t := by
  induction t using induction_parts with
  | step t ih =>
    intro hs hl
    rw [items_eq, List.length_append, List.length_singleton] at hl
    obtain rfl | ⟨below, h, rfl⟩ := List.eq_nil_or_concat' hs
    · cases hl
    · rw [List.length_append, List.length_singleton] at hl
      obtain ⟨ps, hd, hhs, hitems⟩ := Plant.bears_parts ih _ (Nat.succ.inj hl)
      refine ⟨⟨h, t.item, ps⟩, ?_, ?_, ?_⟩
      · refine .node (bare_category t) ?_ (bare_fingerprint t) ?_
        · rw [bare_form, Form.kind_map]
          rfl
        · rw [bare_form, Form.parts_map]
          exact hd
      · rw [Plant.postorder, List.map_append, hhs]
        rfl
      · rw [Plant.postorder, List.map_append, hitems, items_eq]
        rfl

namespace Arena

section

variable {σ : Type} {A : Arena σ} {s : σ} {cs₀ : List Change}

theorem constructs_adds (items : List Item) : A.Constructs s (items.map .add) := by
  induction items using List.reverseRecOn with
  | nil => exact .start
  | append_singleton items item ih =>
    rw [List.map_append]
    exact ih.add item

theorem Constructs.appends {cs ds : List Change} (hc : A.Constructs s cs)
    (hds : ∀ d ∈ ds, ∃ parent ∈ A.issuedFrom s cs, ∃ child ∈ A.issuedFrom s cs,
      d = .append parent child) : A.Constructs s (cs ++ ds) := by
  induction ds using List.reverseRecOn with
  | nil => rwa [List.append_nil]
  | append_singleton ds d ih =>
    obtain ⟨parent, hp, child, hchild, rfl⟩ := hds d (by simp)
    rw [← List.append_assoc]
    apply (ih fun d hd => hds d (List.mem_append_left _ hd)).append
    · rw [issuedFrom_append]
      exact List.mem_append_left _ hp
    · rw [issuedFrom_append]
      exact List.mem_append_left _ hchild

end

def adoptions (q : Plant) : List Change := q.children.map fun c => .append q.handle c.handle

theorem adoptions_item? {qs : List Plant} : (qs.flatMap adoptions).filterMap Change.item? = [] := by
  refine List.filterMap_eq_nil_iff.mpr fun c hc => ?_
  obtain ⟨q, -, hc⟩ := List.mem_flatMap.mp hc
  obtain ⟨r, -, rfl⟩ := List.mem_map.mp hc
  rfl

theorem appended_adoptions (h : Handle) (q : Plant) :
    appended h (adoptions q) = if q.handle = h then q.children.map Plant.handle else [] := by
  rw [appended, adoptions, List.filterMap_map]
  by_cases hq : q.handle = h
  · rw [if_pos hq, ← List.filterMap_eq_map]
    refine List.filterMap_congr fun c _ => ?_
    rw [Function.comp_apply, Change.child?, if_pos hq]
    rfl
  · rw [if_neg hq]
    refine List.filterMap_eq_nil_iff.mpr fun c _ => ?_
    rw [Function.comp_apply, Change.child?, if_neg hq]

theorem appended_flatMap_adoptions {qs : List Plant} (hn : (qs.map Plant.handle).Nodup) {q : Plant}
    (hq : q ∈ qs) : appended q.handle (qs.flatMap adoptions) = q.children.map Plant.handle := by
  have hnone {rs : List Plant} (hr : q.handle ∉ rs.map Plant.handle) :
      appended q.handle (rs.flatMap adoptions) = [] := by
    rw [appended, List.filterMap_flatMap]
    refine List.flatMap_eq_nil_iff.mpr fun r hrs => ?_
    change appended q.handle (adoptions r) = []
    rw [appended_adoptions, if_neg fun he => hr (List.mem_map.mpr ⟨r, hrs, he⟩)]
  obtain ⟨before, beyond, rfl⟩ := List.append_of_mem hq
  rw [List.map_append, List.map_cons, List.nodup_middle, List.nodup_cons, List.mem_append,
    not_or] at hn
  rw [List.flatMap_append, List.flatMap_cons, appended_append, appended_append, hnone hn.1.1,
    hnone hn.1.2, appended_adoptions, if_pos rfl, List.nil_append, List.append_nil]

/-- All nodes may be made first, to be appended afterwards. -/
theorem Lawful.exists_builds {σ : Type} {A : Arena σ} (hA : A.Lawful) (cs₀ : List Change)
    (t : Tree) : ∃ cs p, A.Builds (A.after cs₀) cs p ∧ p.Depicts t.bare := by
  have hitems : (t.items.map Change.add).filterMap Change.item? = t.items := by
    rw [List.filterMap_map]
    exact List.filterMap_some
  obtain ⟨p, hp⟩ := t.exists_plant (A.issuedFrom (A.after cs₀) (t.items.map .add)) (by
    rw [length_issuedFrom, hitems])
  have hadds := List.Nodup.of_append_right (hA.issued_append_nodup cs₀ (t.items.map .add))
  have hsub : ∀ q ∈ p.postorder, q.handle ∈ A.issuedFrom (A.after cs₀) (t.items.map .add) := by
    intro q hq
    rw [← hp.handles]
    exact List.mem_map_of_mem hq
  have hnone (h : Handle) : appended h (t.items.map .add) = [] := by
    rw [appended, List.filterMap_map]
    exact List.filterMap_eq_nil_iff.mpr fun _ _ => rfl
  refine ⟨t.items.map .add ++ p.postorder.flatMap adoptions, p, ⟨?_, ?_, ?_⟩, hp.depicts⟩
  · apply (constructs_adds t.items).appends
    intro d hd
    obtain ⟨q, hq, hd⟩ := List.mem_flatMap.mp hd
    obtain ⟨c, hc, rfl⟩ := List.mem_map.mp hd
    exact ⟨_, hsub q hq, _, hsub c (Plant.child_mem_postorder hq hc), rfl⟩
  · have hlast (s : σ) : A.made s (p.postorder.flatMap adoptions) = [] := by
      rw [made, adoptions_item?, List.zip_nil_right]
    rw [made_append, hlast, List.append_nil, made, hitems, ← hp.handles, ← hp.items, List.zip_map']
  · intro q hq
    rw [appended_append, hnone, List.nil_append]
    apply appended_flatMap_adoptions _ hq
    rw [hp.handles]
    exact hadds

end Arena

/-- In every lawful arena, whatever its history: every tree can be built, and however it is built,
nothing is refused on the way, at the root the tree is read without its fingerprints, and whatever
could be read before is read as before. -/
theorem built_tree_reads_back {σ : Type} (A : Arena σ) (hA : A.Lawful) (cs₀ : List Arena.Change)
    {t : Tree} (ht : t.WellSized) :
    let s := A.after cs₀
    (∃ cs p, A.Builds s cs p ∧ p.Depicts t.bare) ∧
      ∀ cs p, A.Builds s cs p → p.Depicts t.bare →
        ∃ s', cs.foldlM A.attempt s = .ok s' ∧ A.Reads s' p.handle (.ok t.bare) ∧
          ∀ h u, A.Reads s h (.ok u) → A.Reads s' h (.ok u) := by
  intro s
  refine ⟨hA.exists_builds cs₀ t, ?_⟩
  intro cs p hb hd
  obtain ⟨s', hu, hp, hkept⟩ := hb.finished hA
  refine ⟨s', hu.run, Arena.reads_of_depicts hp hd ht.bare, ?_⟩
  intro h u hr
  by_cases hl : A.links s h = none
  · cases hr.unique (Arena.reads_of_none hl)
  · obtain ⟨q, rfl, hq⟩ := (hA.after_sound cs₀).exists_stands hl
    obtain ⟨r, hr', hy⟩ := Arena.reads_of_stands hq
    obtain rfl := hr'.unique hr
    exact Arena.reads_of_depicts (hkept q hq) hy.ok.1 hy.ok.2

/-- A function goes where a node was removed, its body being a container without a slot; all nodes
are made before any is appended. -/
theorem nested_function_reads_back :
    let cs₀ : List Arena.Change :=
      [.add ⟨"call", .branch⟩, .add ⟨"name", .leaf "f"⟩, .append ⟨1, 0⟩ ⟨2, 0⟩,
        .add ⟨"name", .leaf "g"⟩, .remove ⟨3, 0⟩]
    let f := Forest.arena.after cs₀
    let t : Tree := .fingerprinted {} (.container "function" (some (.leaf "name" "f"))
      [.container "body" none [.leaf "name" "x"]])
    let cs : List Arena.Change :=
      [.add ⟨"function", .container true⟩, .add ⟨"name", .leaf "f"⟩,
        .add ⟨"body", .container false⟩, .add ⟨"name", .leaf "x"⟩, .append ⟨3, 1⟩ ⟨4, 0⟩,
        .append ⟨3, 1⟩ ⟨5, 0⟩, .append ⟨5, 0⟩ ⟨6, 0⟩]
    let p : Plant :=
      ⟨⟨3, 1⟩, ⟨"function", .container true⟩, [⟨⟨4, 0⟩, ⟨"name", .leaf "f"⟩, []⟩,
        ⟨⟨5, 0⟩, ⟨"body", .container false⟩, [⟨⟨6, 0⟩, ⟨"name", .leaf "x"⟩, []⟩]⟩]⟩
    Forest.arena.Lawful ∧ t.WellSized ∧ Forest.arena.Builds f cs p ∧ p.Depicts t.bare ∧
      ∃ g, cs.foldlM Forest.arena.attempt f = .ok g ∧
        Forest.arena.Reads g ⟨3, 1⟩ (.ok t.bare) ∧
        Forest.arena.Reads g ⟨1, 0⟩ (.ok (.branch "call" [.leaf "name" "f"])) := by
  intro cs₀ f t cs p
  have hA := Forest.arena_lawful
  have ht : t.WellSized := Tree.wellSized_fingerprintedBy Digest.hasher {} _
  have hd : p.Depicts t.bare :=
    .node rfl rfl rfl (.cons (.node rfl rfl rfl .nil)
      (.cons (.node rfl rfl rfl (.cons (.node rfl rfl rfl .nil) .nil)) .nil))
  have hb : Forest.arena.Builds f cs p := by
    refine ⟨?_, by decide, by decide⟩
    exact (Arena.constructs_adds [⟨"function", .container true⟩, ⟨"name", .leaf "f"⟩,
      ⟨"body", .container false⟩, ⟨"name", .leaf "x"⟩]).appends (by decide)
  have hcall : Forest.arena.Reads f ⟨1, 0⟩ (.ok (.branch "call" [.leaf "name" "f"])) :=
    Forest.reads_tree cs₀ ⟨1, 0⟩
  obtain ⟨g, hrun, hread, hbefore⟩ := (built_tree_reads_back _ hA cs₀ ht).2 cs p hb hd
  exact ⟨hA, ht, hb, hd, g, hrun, hread, hbefore ⟨1, 0⟩ _ hcall⟩

end TreeDiff
