import Mathlib.Data.List.Pairwise
import TreeDiff.Proofs.Handles

/-!
# Nodes

A plant stands in an arena if every one of its nodes is linked there as in the plant. Where the
nodes make up trees, every node is at the top of a plant that stands there; the nodes below it are
those of the plant, and no handle is borne by two of them.
-/

set_option autoImplicit false

namespace TreeDiff

namespace Plant

mutual

def postorder : Plant → List Plant
  | ⟨g, item, ps⟩ => postorderIn ps ++ [⟨g, item, ps⟩]

def postorderIn : List Plant → List Plant
  | [] => []
  | p :: ps => postorder p ++ postorderIn ps

end

/-- A plant is reached from its children. -/
theorem induction_children {P : Plant → Prop} (step : ∀ p, (∀ c ∈ p.children, P c) → P p)
    (p : Plant) : P p := by
  apply step
  intro c hc
  have hlt : sizeOf c < sizeOf p := by
    have := List.sizeOf_lt_of_mem hc
    cases p
    simp only [mk.sizeOf_spec] at this ⊢
    omega
  exact induction_children step c
termination_by sizeOf p

theorem postorderIn_eq_flatMap (ps : List Plant) : postorderIn ps = ps.flatMap postorder := by
  induction ps with
  | nil => rfl
  | cons p ps ih => rw [postorderIn, ih, List.flatMap_cons]

theorem postorder_eq (p : Plant) : p.postorder = postorderIn p.children ++ [p] := by
  cases p
  rfl

theorem self_mem_postorder (p : Plant) : p ∈ p.postorder := by
  rw [postorder_eq]
  exact List.mem_append_right _ (List.mem_singleton.mpr rfl)

theorem mem_postorderIn {p q : Plant} {ps : List Plant} (hp : p ∈ ps) (hq : q ∈ p.postorder) :
    q ∈ postorderIn ps := by
  rw [postorderIn_eq_flatMap]
  exact List.mem_flatMap.mpr ⟨p, hp, hq⟩

theorem mem_postorder_of_children {p q : Plant} (hq : q ∈ postorderIn p.children) :
    q ∈ p.postorder := by
  rw [postorder_eq]
  exact List.mem_append_left _ hq

theorem postorder_subset {p : Plant} : ∀ q ∈ p.postorder, q.postorder ⊆ p.postorder := by
  induction p using induction_children with
  | step p ih =>
    intro q hq
    rw [postorder_eq] at hq
    rcases List.mem_append.mp hq with hq | hq
    · rw [postorderIn_eq_flatMap] at hq
      obtain ⟨c, hc, hq⟩ := List.mem_flatMap.mp hq
      intro r hr
      exact mem_postorder_of_children (mem_postorderIn hc (ih c hc q hq hr))
    · rw [List.mem_singleton.mp hq]
      exact List.Subset.refl _

theorem child_mem_postorder {p q c : Plant} (hq : q ∈ p.postorder) (hc : c ∈ q.children) :
    c ∈ p.postorder :=
  postorder_subset q hq (mem_postorder_of_children (mem_postorderIn hc c.self_mem_postorder))

theorem handlesIn_eq_flatMap (ps : List Plant) : handlesIn ps = ps.flatMap handles := by
  induction ps with
  | nil => rfl
  | cons p ps ih => rw [handlesIn, ih, List.flatMap_cons]

theorem map_handle_postorder (p : Plant) : p.postorder.map handle = p.handles := by
  induction p using induction_children with
  | step p ih =>
    have hc : p.children.flatMap (fun c => c.postorder.map handle) = p.children.flatMap handles :=
      List.flatMap_congr ih
    rw [postorder_eq, handles_eq, handlesIn_eq_flatMap, ← hc, List.map_append,
      postorderIn_eq_flatMap, List.map_flatMap]
    rfl

theorem handles_sublist_of_mem_postorder {p q : Plant} (hq : q ∈ p.postorder) :
    q.handles.Sublist p.handles := by
  induction p using induction_children with
  | step p ih =>
    rw [postorder_eq] at hq
    rcases List.mem_append.mp hq with hq | hq
    · rw [postorderIn_eq_flatMap] at hq
      obtain ⟨c, hc, hq⟩ := List.mem_flatMap.mp hq
      rw [handles_eq p]
      exact ((ih c hc hq).trans (handles_sublist_of_mem hc)).trans (List.sublist_append_left _ _)
    · rw [List.mem_singleton.mp hq]

theorem exists_of_mem_handles {h : Handle} {p : Plant} (hh : h ∈ p.handles) :
    ∃ q ∈ p.postorder, q.handle = h := by
  rw [← map_handle_postorder] at hh
  exact List.mem_map.mp hh

theorem handlesIn_perm_of_forall {ps : List Plant} (hps : ∀ p ∈ ps,
      p.handles.Perm (p.handle :: p.postorder.flatMap fun q => q.children.map handle)) :
    (handlesIn ps).Perm
      (ps.map handle ++ (postorderIn ps).flatMap fun q => q.children.map handle) := by
  induction ps with
  | nil => exact .refl _
  | cons p ps ih =>
    obtain ⟨hp, hps⟩ := List.forall_mem_cons.mp hps
    refine List.perm_iff_count.mpr fun g => ?_
    have hp := hp.count_eq g
    have ih := (ih hps).count_eq g
    simp only [handlesIn, postorderIn, List.map_cons, List.flatMap_append, List.count_append,
      List.count_cons] at hp ih ⊢
    omega

/-- Every node is the plant itself or a child of one of its nodes. -/
theorem handles_perm (p : Plant) :
    p.handles.Perm (p.handle :: p.postorder.flatMap fun q => q.children.map handle) := by
  induction p using induction_children with
  | step p ih =>
    refine List.perm_iff_count.mpr fun g => ?_
    have hc := (handlesIn_perm_of_forall ih).count_eq g
    rw [handles_eq, postorder_eq]
    simp only [List.flatMap_append, List.flatMap_singleton, List.count_append,
      List.count_cons, List.count_nil] at hc ⊢
    omega

/-- Where no handle is borne twice, no node is a child of two others, nor a child twice. -/
theorem children_nodup {p : Plant} (hn : p.handles.Nodup) :
    (p.postorder.flatMap fun q => q.children.map handle).Nodup :=
  (List.nodup_cons.mp (p.handles_perm.nodup_iff.mp hn)).2

theorem parent_unique {p : Plant} (hn : p.handles.Nodup) {q r : Plant} (hq : q ∈ p.postorder)
    (hr : r ∈ p.postorder) {h : Handle} (hhq : h ∈ q.children.map handle)
    (hhr : h ∈ r.children.map handle) : q = r := by
  by_contra hne
  have hd := (List.nodup_flatMap.mp (children_nodup hn)).2
  have : Std.Symm (Function.onFun List.Disjoint fun q : Plant => q.children.map handle) :=
    ⟨fun _ _ hd _ hr hq => hd hq hr⟩
  exact hd.forall hq hr hne hhq hhr

end Plant

namespace Links

def Stands (L : Links) (p : Plant) : Prop :=
  ∀ q ∈ p.postorder, L q.handle = some (q.item, q.children.map Plant.handle)

instance (L : Links) (p : Plant) : Decidable (L.Stands p) :=
  inferInstanceAs (Decidable (∀ q ∈ p.postorder, _))

section

variable {L : Links} {p : Plant} {h : Handle}

theorem stands_iff : L.Stands p ↔
    L p.handle = some (p.item, p.children.map Plant.handle) ∧ ∀ c ∈ p.children, L.Stands c := by
  rw [Stands, Plant.postorder_eq, Plant.postorderIn_eq_flatMap]
  simp only [List.mem_append, List.mem_flatMap, List.mem_singleton]
  constructor
  · intro hp
    exact ⟨hp p (.inr rfl), fun c hc q hq => hp q (.inl ⟨c, hc, hq⟩)⟩
  · rintro ⟨hp, hc⟩ q (⟨c, hcp, hq⟩ | rfl)
    · exact hc c hcp q hq
    · exact hp

theorem Stands.congr {L' : Links} (hp : L.Stands p) (he : ∀ g ∈ p.handles, L' g = L g) :
    L'.Stands p := by
  intro q hq
  rw [he q.handle ?_, hp q hq]
  rw [← Plant.map_handle_postorder]
  exact List.mem_map_of_mem hq

theorem Stands.parent (hp : L.Stands p) {c : Plant} (hc : c ∈ p.children) :
    L.Parent p.handle c.handle :=
  ⟨_, (stands_iff.mp hp).1, List.mem_map_of_mem hc⟩

/-- The nodes of a plant that stands are those below its top. -/
theorem Stands.mem_handles_iff (hp : L.Stands p) : h ∈ p.handles ↔ L.Below p.handle h := by
  constructor
  · intro hh
    induction p using Plant.induction_children with
    | step p ih =>
      rw [Plant.handles_eq, Plant.handlesIn_eq_flatMap] at hh
      rcases List.mem_append.mp hh with hh | hh
      · obtain ⟨c, hc, hh⟩ := List.mem_flatMap.mp hh
        exact .head (hp.parent hc) (ih c hc ((stands_iff.mp hp).2 c hc) hh)
      · rw [List.mem_singleton.mp hh]
        exact .refl
  · intro hb
    induction hb with
    | refl => exact Plant.mem_handles p.find?_handle
    | tail _ hpar ih =>
      obtain ⟨q, hq, rfl⟩ := Plant.exists_of_mem_handles ih
      obtain ⟨n, hn, hg⟩ := hpar
      rw [hp q hq, Option.some_inj] at hn
      subst hn
      obtain ⟨c, hc, rfl⟩ := List.mem_map.mp hg
      rw [← Plant.map_handle_postorder]
      exact List.mem_map_of_mem (Plant.child_mem_postorder hq hc)

/-- Of two nodes above a third one is above the other. -/
theorem Sound.below_total (hs : L.Sound) {a b k : Handle} (ha : L.Below a k) (hb : L.Below b k) :
    L.Below a b ∨ L.Below b a := by
  induction ha with
  | refl => exact .inr hb
  | @tail x k hx hk ih =>
    rcases hs.eq_or_below hb hk with rfl | hb
    · exact .inl (hx.tail hk)
    · exact ih hb

/-- Siblings have no node below them in common. -/
theorem Sound.siblings_disjoint (hs : L.Sound) {a b k : Handle} (ha : L.Parent h a)
    (hb : L.Parent h b) (hab : a ≠ b) (hak : L.Below a k) : ¬ L.Below b k := by
  intro hbk
  rcases hs.below_total hak hbk with hl | hl
  · exact (hs.eq_or_below hl hb).elim hab (hs.not_below ha)
  · exact (hs.eq_or_below hl ha).elim hab.symm (hs.not_below hb)

theorem Sound.handles_nodup (hs : L.Sound) (hp : L.Stands p) : p.handles.Nodup := by
  induction p using Plant.induction_children with
  | step p ih =>
    obtain ⟨htop, hc⟩ := stands_iff.mp hp
    have hbelow {c : Plant} (hcp : c ∈ p.children) {k : Handle} (hk : k ∈ c.handles) :
        L.Below c.handle k := (hc c hcp).mem_handles_iff.mp hk
    rw [Plant.handles_eq, Plant.handlesIn_eq_flatMap]
    refine List.nodup_append.mpr ⟨List.nodup_flatMap.mpr ⟨fun c hcp => ih c hcp (hc c hcp), ?_⟩,
      List.nodup_singleton _, ?_⟩
    · refine (List.pairwise_map.mp (hs.once htop)).imp_of_mem fun {c d} hcp hdp hcd k hk hk' => ?_
      exact hs.siblings_disjoint (hp.parent hcp) (hp.parent hdp) hcd (hbelow hcp hk)
        (hbelow hdp hk')
    · rintro k hk _ hk' rfl
      obtain ⟨c, hcp, hk⟩ := List.mem_flatMap.mp hk
      rw [List.mem_singleton.mp hk'] at hk
      exact hs.not_below (hp.parent hcp) (hbelow hcp hk)

/-- Every node is at the top of a plant that stands, since every way down ends. -/
theorem Sound.exists_stands (hs : L.Sound) (hh : L h ≠ none) :
    ∃ p : Plant, p.handle = h ∧ L.Stands p := by
  induction h using hs.founded.induction with
  | h h ih =>
    obtain ⟨⟨item, ks⟩, hn⟩ := Option.ne_none_iff_exists'.mp hh
    have hks : ∀ k ∈ ks, ∃ p : Plant, p.handle = k ∧ L.Stands p := fun k hk =>
      ih k ⟨_, hn, hk⟩ (hs.closed ⟨_, hn, hk⟩)
    obtain ⟨ps, hps⟩ : ∃ ps : List Plant, ps.map Plant.handle = ks ∧ ∀ p ∈ ps, L.Stands p := by
      clear hn ih
      induction ks with
      | nil => exact ⟨[], rfl, List.forall_mem_nil _⟩
      | cons k ks ih =>
        obtain ⟨⟨p, hp, hpl⟩, hks⟩ := List.forall_mem_cons.mp hks
        obtain ⟨ps, hps, hpsl⟩ := ih hks
        exact ⟨p :: ps, by rw [List.map_cons, hp, hps], List.forall_mem_cons.mpr ⟨hpl, hpsl⟩⟩
    exact ⟨⟨h, item, ps⟩, rfl, stands_iff.mpr ⟨by rw [hn, ← hps.1], hps.2⟩⟩

/-- What is found in a forest stands there. -/
theorem stands_of_findIn? {ps : List Plant} (hn : (Plant.handlesIn ps).Nodup)
    (hp : Plant.findIn? h ps = some p) : (Plant.linksIn ps).Stands p := by
  induction p using Plant.induction_children generalizing h with
  | step p ih =>
    have hd : p.handles.Nodup := hn.sublist (Plant.handles_sublist_handlesIn hp)
    refine stands_iff.mpr ⟨?_, fun c hc => ?_⟩
    · rw [Plant.handle_of_findIn? hp, Plant.linksIn_handle hp]
    · exact ih c hc (Plant.findIn?_trans hn hp (Plant.find?_child hd hc))

end

end Links

end TreeDiff
