import TreeDiff.Proofs.Nodes

/-!
# Edits of a forest

A forest finds its nodes by going through its trees. Where no handle is borne by two nodes, every
edit changes the links between them as it should, and refuses what it should.
-/

set_option autoImplicit false

namespace TreeDiff

namespace Links

@[simp] theorem put_self (L : Links) (h : Handle) : L.put h [h] = L := by
  funext g
  have hs (ks : List Handle) : ks.flatMap (fun k => if k = h then [h] else [k]) = ks := by
    refine (List.flatMap_congr fun k _ => ?_).trans (List.flatMap_singleton' ks)
    split
    · next hk => rw [hk]
    · rfl
  rw [put]
  simp only [hs]
  exact Option.map_id'

end Links

namespace Plant

variable {ps qs : List Plant} {h g : Handle} {p q : Plant}

theorem linksIn_eq_some_iff (hn : (handlesIn ps).Nodup) {n : Item × List Handle} :
    linksIn ps g = some n ↔ ∃ p ∈ ps, linksIn [p] g = some n := by
  constructor
  · intro hg
    induction ps with
    | nil => cases hg
    | cons p ps ih =>
      rw [linksIn_cons] at hg
      rcases Option.or_eq_some_iff.mp hg with hg | ⟨-, hg⟩
      · exact ⟨p, List.mem_cons_self, hg⟩
      · obtain ⟨q, hq, hg⟩ := ih (List.Nodup.of_append_right hn) hg
        exact ⟨q, List.mem_cons_of_mem p hq, hg⟩
  · rintro ⟨p, hp, hg⟩
    obtain ⟨before, beyond, rfl⟩ := List.append_of_mem hp
    rw [handlesIn_append, handlesIn] at hn
    have hgp : g ∈ p.handles := by
      rw [← handlesIn_singleton]
      by_contra hgp
      rw [linksIn_eq_none.mpr hgp] at hg
      cases hg
    have hb : linksIn before g = none := linksIn_eq_none.mpr fun hb =>
      List.disjoint_of_nodup_append hn hb (List.mem_append_left _ hgp)
    rw [linksIn_append, hb, linksIn_cons, hg]
    rfl

theorem linksIn_perm (hp : ps.Perm qs) (hn : (handlesIn ps).Nodup) : linksIn ps = linksIn qs := by
  funext g
  refine Option.ext fun n => ?_
  rw [linksIn_eq_some_iff hn, linksIn_eq_some_iff ((handlesIn_perm hp).nodup_iff.mp hn)]
  simp only [hp.mem_iff]

/-- The top of a plant is nobody's child there. -/
theorem linksIn_put_top (hn : p.handles.Nodup) (ks : List Handle) :
    (linksIn [p]).put p.handle ks = linksIn [p] := by
  refine Links.put_eq_self fun a hp => ?_
  rw [handles_eq] at hn
  refine List.disjoint_of_nodup_append hn ?_ (List.mem_singleton.mpr rfl)
  obtain ⟨n, ha, hc⟩ := hp
  rw [linksIn_singleton] at ha
  split at ha
  · cases ha
    obtain ⟨c, hcp, hc⟩ := List.mem_map.mp hc
    rw [← hc]
    exact (handles_sublist_of_mem hcp).subset (mem_handles c.find?_handle)
  · exact mem_handlesIn_of_parent ⟨n, ha, hc⟩

section

variable (hn : (handlesIn ps).Nodup) (hq : findIn? h ps = some q)

include hn hq

theorem linksIn_of_mem (hg : g ∈ q.handles) : linksIn ps g = linksIn [q] g := by
  rw [← handlesIn_singleton] at hg
  obtain ⟨r, hr⟩ := exists_findIn? hg
  have hqr : q.find? g = some r := by
    rw [findIn?] at hr
    split at hr
    · next hf => rwa [hf]
    · cases hr
  rw [linksIn, linksIn, hr, findIn?_trans hn hq hqr]

/-- Below the node itself nothing changes when its place is taken. -/
theorem put_linksIn_of_mem (ks : List Handle) (hg : g ∈ q.handles) :
    (linksIn ps).put h ks g = linksIn [q] g := by
  obtain rfl := handle_of_findIn? hq
  rw [Links.put, linksIn_of_mem hn hq hg]
  exact congrFun (linksIn_put_top (hn.sublist (handles_sublist_handlesIn hq)) ks) g

theorem linksIn_without : linksIn (replaceIn h (fun _ => []) ps) g =
    if g ∈ q.handles then none else (linksIn ps).put h [] g := by
  rw [linksIn_replaceIn hn hq fun k hk => absurd hk List.not_mem_nil]
  simp only [handlesIn, List.not_mem_nil, or_false, List.map_nil]
  rfl

theorem linksIn_detached :
    linksIn (replaceIn h (fun _ => []) ps ++ [q]) = (linksIn ps).put h [] := by
  funext g
  rw [linksIn_append, linksIn_without hn hq]
  split
  · next hg => rw [Option.none_or, put_linksIn_of_mem hn hq [] hg]
  · next hg =>
    have hq : linksIn [q] g = none := linksIn_eq_none.mpr (by rwa [handlesIn_singleton])
    rw [hq, Option.or_none]

theorem linksIn_spliced : linksIn (replaceIn h children ps) =
    Function.update ((linksIn ps).put h (q.children.map handle)) h none := by
  have hsub : handlesIn q.children ⊆ q.handles := by
    rw [handles_eq]
    exact List.subset_append_left _ _
  have htop : h ∈ q.handles := by
    rw [← handle_of_findIn? hq]
    exact mem_handles q.find?_handle
  funext g
  rw [linksIn_replaceIn hn hq fun k hk _ => hsub hk]
  by_cases hg : g = h
  · subst hg
    have hd := hn.sublist (handles_sublist_handlesIn hq)
    rw [handles_eq, handle_of_findIn? hq] at hd
    have hc : g ∉ handlesIn q.children := fun hc =>
      List.disjoint_of_nodup_append hd hc (List.mem_singleton.mpr rfl)
    rw [if_pos (.inl htop), linksIn_eq_none.mpr hc, Function.update_self]
  · rw [Function.update_of_ne hg]
    split
    · next hgq =>
      have hgq := hgq.elim id fun hgc => hsub hgc
      rw [put_linksIn_of_mem hn hq _ hgq, linksIn_singleton, if_neg]
      rw [handle_of_findIn? hq]
      exact Ne.symm hg
    · rfl

end

section

variable {place : Plant → List Plant → List Plant} {place' : Handle → List Handle → List Handle}
  (hperm : ∀ p ps, (place p ps).Perm (p :: ps))

include hperm

theorem mem_handlesIn_adopted (p q : Plant) :
    g ∈ handlesIn [{ q with children := place p q.children }] ↔ g ∈ q.handles ∨ g ∈ p.handles := by
  rw [handlesIn_singleton, handles_eq, handles_eq, List.mem_append, List.mem_append,
    (handlesIn_perm (hperm p q.children)).mem_iff, handlesIn, List.mem_append]
  tauto

/-- What a node is given for a child brings its own links. -/
theorem linksIn_adopter (hplace : ∀ p ps, (place p ps).map handle = place' p.handle (ps.map handle))
    (hn : (q.handles ++ p.handles).Nodup) :
    linksIn [{ q with children := place p q.children }] =
      (linksIn [q, p]).adopt q.handle (place' p.handle) := by
  have hd := List.disjoint_of_nodup_append hn
  have hchildren : linksIn (place p q.children) = linksIn (p :: q.children) := by
    refine linksIn_perm (hperm p q.children) ?_
    rw [(handlesIn_perm (hperm p q.children)).nodup_iff, handlesIn, List.nodup_append_comm]
    refine hn.sublist (List.Sublist.append_right ?_ _)
    rw [handles_eq]
    exact List.sublist_append_left _ _
  funext g
  rw [linksIn_singleton]
  dsimp only
  by_cases hg : q.handle = g
  · subst hg
    rw [if_pos rfl, hplace, Links.adopt, linksIn_cons, linksIn_singleton, if_pos rfl]
    simp
  · rw [if_neg hg, Links.adopt_of_ne _ (Ne.symm hg), hchildren, linksIn_cons, linksIn_cons q,
      linksIn_singleton q, if_neg hg]
    -- No node is in both, so it does not matter which is looked through first.
    by_cases hgp : g ∈ p.handles
    · have hgc : linksIn q.children g = none := linksIn_eq_none.mpr fun hgc => by
        refine hd ?_ hgp
        rw [handles_eq]
        exact List.mem_append_left _ hgc
      rw [hgc, Option.or_none, Option.none_or]
    · rw [linksIn_eq_none.mpr (by rwa [handlesIn_singleton]), Option.none_or, Option.or_none]

/-- A plant that stands beside others goes among the children of one of their nodes. -/
theorem linksIn_adopted (hplace : ∀ p ps, (place p ps).map handle = place' p.handle (ps.map handle))
    (hn : (handlesIn (ps ++ [p])).Nodup) (hq : findIn? h ps = some q) :
    linksIn (replaceIn h (fun q => [{ q with children := place p q.children }]) ps) =
      (linksIn (ps ++ [p])).adopt h (place' p.handle) := by
  rw [handlesIn_append, handlesIn_singleton] at hn
  have hnps := List.Nodup.of_append_left hn
  have hd := List.disjoint_of_nodup_append hn
  obtain rfl := handle_of_findIn? hq
  have hnq : (q.handles ++ p.handles).Nodup :=
    hn.sublist ((handles_sublist_handlesIn hq).append_right _)
  funext g
  rw [linksIn_replaceIn hnps hq fun k hk hkp =>
    ((mem_handlesIn_adopted hperm p q).mp hk).resolve_right (hd hkp)]
  simp only [mem_handlesIn_adopted hperm, or_self_left, List.map_singleton, Links.put_self]
  split
  · next hg =>
    have hsame : linksIn [q, p] g = linksIn (ps ++ [p]) g := by
      rw [linksIn_cons, linksIn_append]
      rcases hg with hgq | hgp
      · rw [linksIn_of_mem hnps hq hgq]
      · have hgps : g ∉ handlesIn ps := fun hgps => hd hgps hgp
        have hgq : g ∉ handlesIn [q] := by
          rw [handlesIn_singleton]
          exact fun hgq => hgps ((handles_sublist_handlesIn hq).subset hgq)
        rw [linksIn_eq_none.mpr hgps, linksIn_eq_none.mpr hgq]
    rw [linksIn_adopter hperm hplace hnq, Links.adopt, Links.adopt, hsame]
  · next hg =>
    rw [not_or] at hg
    have hgq : g ≠ q.handle := fun hgq => hg.1 (hgq ▸ mem_handles q.find?_handle)
    rw [Links.adopt_of_ne _ hgq, linksIn_append,
      linksIn_eq_none.mpr (show g ∉ handlesIn [p] by rw [handlesIn_singleton]; exact hg.2),
      Option.or_none]

end

end Plant

namespace Forest

def live (f : Forest) : List Handle := Plant.handlesIn f.roots

variable {f : Forest} {h : Handle} {p : Plant}

theorem links_eq (f : Forest) : arena.links f = Plant.linksIn f.roots := by
  funext h
  cases hp : Plant.findIn? h f.roots <;>
    simp [Arena.links, Arena.item?, arena, item?, childrenOf, find?, Plant.linksIn, hp]

theorem roots_add (f : Forest) (item : Item) :
    (f.add item).2.roots = f.roots ++ [⟨(f.add item).1, item, []⟩] := by
  rw [add]
  cases f.free <;> rfl

theorem links_add (item : Item) (hfresh : (f.add item).1 ∉ f.live) :
    arena.links (f.add item).2 = (arena.links f).add (f.add item).1 item := by
  funext g
  rw [links_eq, links_eq, roots_add, Plant.linksIn_append, Plant.linksIn_singleton]
  by_cases hg : g = (f.add item).1
  · subst hg
    rw [if_pos rfl, Plant.linksIn_eq_none.mpr hfresh, Links.add_self]
    rfl
  · rw [if_neg (Ne.symm hg), Links.add_of_ne item hg]
    exact Option.or_none

theorem links_eq_none : arena.links f h = none ↔ f.find? h = none := by
  rw [links_eq, Plant.linksIn, Option.map_eq_none_iff, find?]

section

variable (hn : f.live.Nodup)

include hn

theorem links_link {place : Plant → List Plant → List Plant}
    {place' : Handle → List Handle → List Handle} (hperm : ∀ p ps, (place p ps).Perm (p :: ps))
    (hplace : ∀ p ps, (place p ps).map Plant.handle = place' p.handle (ps.map Plant.handle))
    {parent : Handle} (hp : f.find? h = some p) (hparent : f.find? parent ≠ none)
    (hbelow : parent ∉ p.handles) :
    arena.links (f.link parent p place) =
      ((arena.links f).put h []).adopt parent (place' h) := by
  obtain rfl := Plant.handle_of_findIn? hp
  have hlive : parent ∈ f.live := by
    by_contra hlive
    exact hparent (Plant.findIn?_eq_none.mpr hlive)
  obtain ⟨q, hq⟩ := Plant.exists_findIn?_without hn hp hlive hbelow
  rw [links_eq, links_eq, ← Plant.linksIn_detached hn hp]
  refine Plant.linksIn_adopted hperm hplace ?_ hq
  rw [Plant.handlesIn_append, Plant.handlesIn_singleton]
  exact (Plant.handlesIn_without hn hp).nodup_iff.mp hn

theorem map_attach {same ancestor : ForestError} {place : Plant → List Plant → List Plant}
    {place' : Handle → List Handle → List Handle} (hperm : ∀ p ps, (place p ps).Perm (p :: ps))
    (hplace : ∀ p ps, (place p ps).map Plant.handle = place' p.handle (ps.map Plant.handle))
    (parent child : Handle) :
    (f.attach same ancestor place parent child).map arena.links =
      (arena.links f).attach same ancestor place' parent child := by
  rw [attach, Links.attach]
  by_cases hpc : parent = child
  · rw [if_pos hpc, if_pos hpc]
    rfl
  · rw [if_neg hpc, if_neg hpc]
    simp only [links_eq_none]
    cases hq : f.find? parent with
    | none => rfl
    | some q =>
      cases hp : f.find? child with
      | none => rfl
      | some p =>
        have hbelow : (arena.links f).Below child parent ↔ parent ∈ p.handles := by
          rw [(Links.stands_of_findIn? hn hp).mem_handles_iff, links_eq,
            Plant.handle_of_findIn? hp]
        simp only [reduceCtorEq, or_self, if_false, hbelow]
        by_cases hb : parent ∈ p.handles
        · rw [if_pos hb, if_pos (Option.isSome_iff_ne_none.mpr fun hn =>
            Plant.find?_eq_none.mp hn hb)]
          rfl
        · rw [if_neg hb, Plant.find?_eq_none.mpr hb]
          exact congrArg Except.ok (links_link hn hperm hplace hp (by simp [hq]) hb)

theorem map_append (parent child : Handle) :
    (f.append parent child).map arena.links = (arena.links f).append parent child := by
  rw [append, Links.append]
  refine map_attach hn (fun _ _ => List.perm_append_singleton _ _) (fun p ps => ?_) parent child
  exact List.map_append

theorem map_prepend (parent child : Handle) :
    (f.prepend parent child).map arena.links = (arena.links f).prepend parent child := by
  rw [prepend, Links.prepend]
  exact map_attach hn (fun _ _ => .refl _) (fun p ps => List.map_cons) parent child

theorem map_detach (h : Handle) :
    (f.detach h).map arena.links = (arena.links f).detach h := by
  rw [detach, Links.detach]
  cases hp : f.find? h with
  | none =>
    rw [links_eq_none.mpr hp]
    rfl
  | some p =>
    rw [links_eq, Plant.linksIn_handle hp]
    refine congrArg Except.ok ?_
    rw [links_eq, Plant.linksIn_detached hn hp]

theorem map_remove (h : Handle) :
    (f.remove h).map arena.links = (arena.links f).remove h := by
  rw [remove, Links.remove]
  cases hp : f.find? h with
  | none =>
    rw [links_eq_none.mpr hp]
    rfl
  | some p =>
    rw [links_eq, Plant.linksIn_handle hp]
    refine congrArg Except.ok ?_
    rw [links_eq, Plant.linksIn_spliced hn hp]

theorem map_removeAll (h : Handle) :
    (f.removeAll h).map arena.links = (arena.links f).removeAll h := by
  rw [removeAll, Links.removeAll]
  cases hp : f.find? h with
  | none =>
    rw [links_eq_none.mpr hp]
    rfl
  | some p =>
    rw [links_eq, Plant.linksIn_handle hp]
    refine congrArg Except.ok (funext fun g => ?_)
    have hbelow : (Plant.linksIn f.roots).Below h g ↔ g ∈ p.handles := by
      rw [(Links.stands_of_findIn? hn hp).mem_handles_iff, Plant.handle_of_findIn? hp]
    rw [links_eq, Plant.linksIn_without hn hp]
    simp only [hbelow]

end

end Forest

end TreeDiff
