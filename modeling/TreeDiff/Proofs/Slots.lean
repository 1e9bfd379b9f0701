import Mathlib.Data.List.Perm.Basic
import TreeDiff.Proofs.Edits
import TreeDiff.Proofs.Histories

/-!
# Slots of a forest

Every slot of a forest has one node or is free, and its newest handle is the one that the node bears
or the next one will. So no handle is given twice, none is borne by two nodes, and a forest is a
lawful arena.
-/

set_option autoImplicit false

namespace TreeDiff

namespace Forest

variable {f : Forest} {h : Handle} {p : Plant}

structure Releases (f g : Forest) (gone : List Handle) : Prop where
  live : f.live.Perm (g.live ++ gone)
  free : g.free = f.free ++ gone.map Handle.renewed
  slots : g.slots = f.slots

theorem releases_refl (f : Forest) : f.Releases f [] := ⟨by simp, by simp, rfl⟩

theorem link_releases {parent : Handle} {place : Plant → List Plant → List Plant}
    (hplace : ∀ q qs, (place q qs).Perm (q :: qs)) (hn : f.live.Nodup) (hp : f.find? h = some p)
    (hparent : (f.find? parent).isSome) (ha : p.find? parent = none) :
    f.Releases (f.link parent p place) [] := by
  refine ⟨?_, by simp [link], rfl⟩
  have hd := Plant.handlesIn_without hn hp
  obtain ⟨r, hr⟩ := Option.isSome_iff_exists.mp hparent
  obtain ⟨q, hq⟩ := Plant.exists_findIn?_without hn hp (Plant.mem_handlesIn hr)
    (Plant.find?_eq_none.mp ha)
  have hl := Plant.handlesIn_replaceIn (fun q => [{ q with children := place p q.children }])
    (List.Nodup.of_append_left (hd.nodup_iff.mp hn)) hq
  have hc := Plant.handlesIn_perm (hplace p q.children)
  rw [Plant.handlesIn_singleton, Plant.handles_eq, Plant.handles_eq] at hl
  rw [Plant.handlesIn] at hc
  refine List.perm_iff_count.mpr fun g => ?_
  have hd := hd.count_eq g
  have hl := hl.count_eq g
  have hc := hc.count_eq g
  rw [link, live, live, Plant.handle_of_findIn? hp]
  simp only [List.count_append, List.append_nil] at hd hl hc ⊢
  omega

theorem attach_releases {same ancestor : ForestError} {place : Plant → List Plant → List Plant}
    (hplace : ∀ q qs, (place q qs).Perm (q :: qs)) (hn : f.live.Nodup) {parent child : Handle}
    {g : Forest} (hg : f.attach same ancestor place parent child = .ok g) : f.Releases g [] := by
  rw [attach] at hg
  split at hg
  · cases hg
  split at hg
  · next q p hq hp =>
    split at hg
    · cases hg
    · next ha =>
      cases hg
      exact link_releases hplace hn hp (by rw [hq]; rfl) (Option.not_isSome_iff_eq_none.mp ha)
  · cases hg

theorem detach_releases (hn : f.live.Nodup) {g : Forest} (hg : f.detach h = .ok g) :
    f.Releases g [] := by
  rw [detach] at hg
  split at hg
  · cases hg
  · next p hp =>
    cases hg
    refine ⟨?_, by simp, rfl⟩
    simpa [live] using Plant.handlesIn_without hn hp

theorem remove_releases (hn : f.live.Nodup) {g : Forest} (hg : f.remove h = .ok g) :
    f.Releases g [h] := by
  rw [remove] at hg
  split at hg
  · cases hg
  · next p hp =>
    cases hg
    exact ⟨Plant.handlesIn_spliced hn hp, rfl, rfl⟩

theorem removeAll_releases (hn : f.live.Nodup) {g : Forest} (hg : f.removeAll h = .ok g) :
    ∃ gone, f.Releases g gone := by
  rw [removeAll] at hg
  split at hg
  · cases hg
  · next p hp =>
    cases hg
    exact ⟨p.handles, Plant.handlesIn_without hn hp, rfl, rfl⟩

theorem change_releases (hn : f.live.Nodup) {c : Arena.Change} (hc : arena.issues f c = []) :
    ∃ gone, f.Releases (arena.change f c) gone := by
  rw [Arena.change]
  cases hr : arena.attempt f c with
  | error e => exact ⟨[], f.releases_refl⟩
  | ok g =>
    cases c with
    | add item => cases hc
    | append parent child =>
      exact ⟨[], attach_releases (fun _ _ => List.perm_append_singleton _ _) hn hr⟩
    | prepend parent child => exact ⟨[], attach_releases (fun _ _ => .refl _) hn hr⟩
    | detach h => exact ⟨[], detach_releases hn hr⟩
    | remove h => exact ⟨[h], remove_releases hn hr⟩
    | removeAll h => exact removeAll_releases hn hr

structure Sound (f : Forest) (issued : List Handle) : Prop where
  live_issued : f.live ⊆ issued
  slots : ((f.live ++ f.free).map Handle.slot).Perm (List.range' 1 f.slots)
  numbered : ∀ h ∈ issued, h.slot ≤ f.slots
  live_newest : ∀ h ∈ issued, ∀ g ∈ f.live, h.slot = g.slot → h.stamp ≤ g.stamp
  free_newer : ∀ h ∈ issued, ∀ g ∈ f.free, h.slot = g.slot → h.stamp < g.stamp

theorem empty_sound : empty.Sound [] where
  live_issued := List.nil_subset []
  slots := .refl _
  numbered := nofun
  live_newest := nofun
  free_newer := nofun

namespace Sound

variable {issued : List Handle}

theorem live_nodup (h : f.Sound issued) : f.live.Nodup := by
  have hs := h.slots.nodup_iff.mpr (List.nodup_range' 1)
  rw [List.map_append] at hs
  exact List.Nodup.of_map _ (List.Nodup.of_append_left hs)

theorem length_live_le (h : f.Sound issued) : f.live.length ≤ f.slots := by
  have hl := h.slots.length_eq
  rw [List.length_map, List.length_append, List.length_range'] at hl
  omega

theorem release (h : f.Sound issued) {g : Forest} {gone : List Handle} (hg : f.Releases g gone) :
    g.Sound issued where
  live_issued := fun k hk => h.live_issued (hg.live.symm.subset (List.mem_append_left _ hk))
  slots := by
    rw [hg.slots, hg.free]
    refine List.Perm.trans (List.perm_iff_count.mpr fun n => ?_) h.slots
    have hl := (hg.live.map Handle.slot).count_eq n
    have hr : (gone.map Handle.renewed).map Handle.slot = gone.map Handle.slot := by
      simp [Handle.renewed, Function.comp_def]
    simp only [List.map_append, List.count_append, hr] at hl ⊢
    omega
  numbered := by
    rw [hg.slots]
    exact h.numbered
  live_newest k hk x hx := h.live_newest k hk x (hg.live.symm.subset (List.mem_append_left _ hx))
  free_newer k hk x hx hs := by
    rw [hg.free] at hx
    rcases List.mem_append.mp hx with hx | hx
    · exact h.free_newer k hk x hx hs
    · obtain ⟨y, hy, rfl⟩ := List.mem_map.mp hx
      have := h.live_newest k hk y (hg.live.symm.subset (List.mem_append_right _ hy)) hs
      exact Nat.lt_succ_of_le this

/-- A new node may bear a handle that is newer than all others of its slot, if the slot was free or
is new. -/
theorem issue (h : f.Sound issued) {g : Forest} {k : Handle} (hlive : g.live = f.live ++ [k])
    (hfree : g.free ⊆ f.free) (hslots : ((f.live ++ k :: g.free).map Handle.slot).Perm
      (List.range' 1 g.slots)) (hle : f.slots ≤ g.slots)
    (hnew : ∀ x ∈ issued, x.slot = k.slot → x.stamp < k.stamp) : g.Sound (issued ++ [k]) := by
  have hd : ((f.live ++ k :: g.free).map Handle.slot).Nodup :=
    hslots.nodup_iff.mpr (List.nodup_range' 1)
  rw [List.map_append, List.map_cons, List.nodup_middle, List.nodup_cons] at hd
  have hother {x : Handle} (hx : x ∈ f.live ∨ x ∈ g.free) : k.slot ≠ x.slot := by
    intro hs
    rw [hs] at hd
    exact hd.1 (List.mem_append.mpr (hx.imp List.mem_map_of_mem List.mem_map_of_mem))
  constructor
  case live_issued =>
    rw [hlive]
    exact List.append_subset.mpr
      ⟨List.subset_append_of_subset_left _ h.live_issued, List.subset_append_right _ _⟩
  case slots =>
    rwa [hlive, List.append_assoc]
  case numbered =>
    intro x hx
    rcases List.mem_append.mp hx with hx | hx
    · exact Nat.le_trans (h.numbered x hx) hle
    · have hm : x.slot ∈ List.range' 1 g.slots := hslots.subset (by simp_all)
      have := List.mem_range'_1.mp hm
      omega
  case live_newest =>
    intro x hx y hy hs
    rw [hlive] at hy
    rcases List.mem_append.mp hx with hx | hx <;> rcases List.mem_append.mp hy with hy | hy
    · exact h.live_newest x hx y hy hs
    · cases List.mem_singleton.mp hy
      exact Nat.le_of_lt (hnew x hx hs)
    · cases List.mem_singleton.mp hx
      exact absurd hs (hother (.inl hy))
    · cases List.mem_singleton.mp hx
      cases List.mem_singleton.mp hy
      exact Nat.le_refl _
  case free_newer =>
    intro x hx y hy hs
    rcases List.mem_append.mp hx with hx | hx
    · exact h.free_newer x hx y (hfree hy) hs
    · cases List.mem_singleton.mp hx
      exact absurd hs (hother (.inr hy))

/-- The next handle is newer than all others of its slot. -/
theorem add_newer (h : f.Sound issued) (item : Item) :
    ∀ x ∈ issued, x.slot = (f.add item).1.slot → x.stamp < (f.add item).1.stamp := by
  intro x hx hs
  rw [Forest.add] at hs ⊢
  cases hf : f.free with
  | nil =>
    rw [hf] at hs
    have := h.numbered x hx
    rw [show x.slot = f.slots + 1 from hs] at this
    omega
  | cons k free =>
    rw [hf] at hs
    exact h.free_newer x hx k (by simp [hf]) hs

theorem add_fresh (h : f.Sound issued) (item : Item) : (f.add item).1 ∉ issued :=
  fun hm => Nat.lt_irrefl _ (h.add_newer item _ hm rfl)

theorem add (h : f.Sound issued) (item : Item) :
    (f.add item).2.Sound (issued ++ [(f.add item).1]) := by
  have hs := h.slots
  have hnew := h.add_newer item
  rw [Forest.add] at hnew ⊢
  cases hf : f.free with
  | nil =>
    rw [hf] at hnew
    refine h.issue (by simp [live, Plant.handles, Plant.handlesIn]) (by simp [hf]) ?_
      (Nat.le_succ _) hnew
    rw [hf, List.append_nil] at hs
    simp only [List.map_append, List.range'_1_concat]
    refine hs.append ?_
    simp [Nat.add_comm]
  | cons k free =>
    rw [hf] at hnew
    refine h.issue (by simp [live, Plant.handles, Plant.handlesIn]) (by simp [hf]) ?_
      (Nat.le_refl _) hnew
    rw [hf] at hs
    exact hs

/-- The step lemma: a change may give a handle to a new node, and keeps the rest in order. -/
theorem change (h : f.Sound issued) (c : Arena.Change) :
    (arena.change f c).Sound (issued ++ arena.issues f c) := by
  rcases arena.eq_add_or_issues_eq_nil f c with ⟨item, rfl⟩ | hc
  · exact h.add item
  · obtain ⟨gone, hg⟩ := change_releases h.live_nodup hc
    rw [hc, List.append_nil]
    exact h.release hg

end Sound

/-- The run lemma: whatever its history, a forest has its slots in order. -/
theorem after_sound (cs : List Arena.Change) :
    (arena.after cs).Sound (arena.issued cs) := by
  induction cs using List.reverseRecOn with
  | nil => exact empty_sound
  | append_singleton cs c ih =>
    rw [Arena.after_snoc, Arena.issued_snoc]
    exact ih.change c

theorem after_live_nodup (cs : List Arena.Change) : (arena.after cs).live.Nodup :=
  (after_sound cs).live_nodup

/-- No plant that stands has more nodes than there are slots. -/
theorem length_handles_le {cs : List Arena.Change} (hp : (arena.links (arena.after cs)).Stands p)
    (hn : p.handles.Nodup) : p.handles.length ≤ (arena.after cs).slots := by
  refine (List.subperm_of_subset hn fun k hk => ?_).length_le.trans (after_sound cs).length_live_le
  obtain ⟨q, hq, rfl⟩ := Plant.exists_of_mem_handles hk
  by_contra hlive
  have hq := hp q hq
  rw [links_eq, Plant.linksIn_eq_none.mpr hlive] at hq
  cases hq

theorem arena_lawful : arena.Lawful where
  empty := by
    funext h
    rfl
  fresh cs item := (after_sound cs).add_fresh item
  add cs item := links_add item fun hm =>
    (after_sound cs).add_fresh item ((after_sound cs).live_issued hm)
  append cs parent child := map_append (after_live_nodup cs) parent child
  prepend cs parent child := map_prepend (after_live_nodup cs) parent child
  detach cs h := map_detach (after_live_nodup cs) h
  remove cs h := map_remove (after_live_nodup cs) h
  removeAll cs h := map_removeAll (after_live_nodup cs) h

end Forest

end TreeDiff
