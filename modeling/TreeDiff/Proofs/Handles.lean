import TreeDiff.Forest
import TreeDiff.Proofs.Links

/-!
# Handles

Where no handle is borne by two nodes of a forest, a node is found by its handle, wherever it
stands, and so are all nodes below it. A replacement takes away the handles of what is replaced and
brings those of what takes its place; all others stay.
-/

set_option autoImplicit false

namespace TreeDiff

namespace Plant

@[simp] theorem handlesIn_append (ps qs : List Plant) :
    handlesIn (ps ++ qs) = handlesIn ps ++ handlesIn qs := by
  induction ps with
  | nil => rfl
  | cons p ps ih => rw [List.cons_append, handlesIn, handlesIn, ih, List.append_assoc]

@[simp] theorem handlesIn_singleton (p : Plant) : handlesIn [p] = p.handles := by
  rw [handlesIn, handlesIn, List.append_nil]

theorem handles_eq (p : Plant) : p.handles = handlesIn p.children ++ [p.handle] := by
  cases p
  rfl

theorem handles_sublist_of_mem {p : Plant} {ps : List Plant} (hp : p ∈ ps) :
    p.handles.Sublist (handlesIn ps) := by
  obtain ⟨before, beyond, rfl⟩ := List.append_of_mem hp
  rw [handlesIn_append, handlesIn]
  exact (List.sublist_append_left _ _).trans (List.sublist_append_right _ _)

theorem handlesIn_perm {ps qs : List Plant} (h : ps.Perm qs) :
    (handlesIn ps).Perm (handlesIn qs) := by
  induction h with
  | nil => exact .refl _
  | cons p _ ih => exact ih.append_left p.handles
  | swap p q ps =>
    simp only [handlesIn, ← List.append_assoc]
    exact List.perm_append_comm.append_right _
  | trans _ _ ih ih' => exact ih.trans ih'

mutual

theorem handle_of_find? {h : Handle} {q : Plant} : ∀ {p : Plant}, p.find? h = some q → q.handle = h
  | ⟨g, item, ps⟩, hq => by
    rw [find?] at hq
    split at hq
    · next hg =>
      cases hq
      exact hg
    · exact handle_of_findIn? hq

theorem handle_of_findIn? {h : Handle} {q : Plant} :
    ∀ {ps : List Plant}, findIn? h ps = some q → q.handle = h
  | [], hq => by cases hq
  | p :: ps, hq => by
    rw [findIn?] at hq
    split at hq
    · next hp =>
      cases hq
      exact handle_of_find? hp
    · exact handle_of_findIn? hq

end

mutual

/-- What is found stands among what it was looked for in, with all its handles. -/
theorem handles_sublist {h : Handle} {q : Plant} :
    ∀ {p : Plant}, p.find? h = some q → q.handles.Sublist p.handles
  | ⟨g, item, ps⟩, hq => by
    rw [find?] at hq
    split at hq
    · cases hq
      exact List.Sublist.refl _
    · exact (handles_sublist_handlesIn hq).trans (List.sublist_append_left _ _)

theorem handles_sublist_handlesIn {h : Handle} {q : Plant} :
    ∀ {ps : List Plant}, findIn? h ps = some q → q.handles.Sublist (handlesIn ps)
  | [], hq => by cases hq
  | p :: ps, hq => by
    rw [findIn?] at hq
    split at hq
    · next hp =>
      cases hq
      exact (handles_sublist hp).trans (List.sublist_append_left _ _)
    · exact (handles_sublist_handlesIn hq).trans (List.sublist_append_right _ _)

end

mutual

theorem find?_eq_none {h : Handle} : ∀ {p : Plant}, p.find? h = none ↔ h ∉ p.handles
  | ⟨g, item, ps⟩ => by
    rw [find?, handles]
    split
    · next hg => simp [hg]
    · next hg =>
      have ih : findIn? h ps = none ↔ h ∉ handlesIn ps := findIn?_eq_none
      simp [ih, Ne.symm hg]

theorem findIn?_eq_none {h : Handle} :
    ∀ {ps : List Plant}, findIn? h ps = none ↔ h ∉ handlesIn ps
  | [] => by simp [findIn?, handlesIn]
  | p :: ps => by
    rw [findIn?, handlesIn, List.mem_append, not_or, ← find?_eq_none, ← findIn?_eq_none]
    cases p.find? h <;> simp

end

theorem exists_findIn? {h : Handle} {ps : List Plant} (hh : h ∈ handlesIn ps) :
    ∃ p, findIn? h ps = some p := by
  refine Option.ne_none_iff_exists'.mp fun hn => ?_
  exact findIn?_eq_none.mp hn hh

theorem mem_handles {h : Handle} {p q : Plant} (hq : p.find? h = some q) : h ∈ p.handles := by
  by_contra hn
  rw [find?_eq_none.mpr hn] at hq
  cases hq

theorem mem_handlesIn {h : Handle} {ps : List Plant} {q : Plant} (hq : findIn? h ps = some q) :
    h ∈ handlesIn ps := by
  by_contra hn
  rw [findIn?_eq_none.mpr hn] at hq
  cases hq

mutual

/-- What is found below what is found is found from above as well. -/
theorem find?_trans {h g : Handle} {q r : Plant} :
    ∀ {p : Plant}, p.handles.Nodup → p.find? h = some q → q.find? g = some r → p.find? g = some r
  | ⟨k, item, ps⟩, hn, hq, hr => by
    rw [find?] at hq
    split at hq
    · cases hq
      exact hr
    · have hr := findIn?_trans (List.Nodup.of_append_left hn) hq hr
      have hg : k ≠ g := by
        rintro rfl
        exact List.disjoint_of_nodup_append hn (mem_handlesIn hr) List.mem_cons_self
      rw [find?, if_neg hg, hr]

theorem findIn?_trans {h g : Handle} {q r : Plant} :
    ∀ {ps : List Plant}, (handlesIn ps).Nodup → findIn? h ps = some q → q.find? g = some r →
      findIn? g ps = some r
  | [], _, hq, _ => by cases hq
  | p :: ps, hn, hq, hr => by
    rw [handlesIn] at hn
    rw [findIn?] at hq
    split at hq
    · next hp =>
      cases hq
      rw [findIn?, find?_trans (List.Nodup.of_append_left hn) hp hr]
    · have hr := findIn?_trans (List.Nodup.of_append_right hn) hq hr
      have hg : p.find? g = none := find?_eq_none.mpr fun hg =>
        List.disjoint_of_nodup_append hn hg (mem_handlesIn hr)
      rw [findIn?, hg, hr]

end

theorem find?_handle (p : Plant) : p.find? p.handle = some p := by
  cases p
  rw [find?, if_pos rfl]

theorem findIn?_of_mem {ps : List Plant} {p : Plant} (hn : (handlesIn ps).Nodup) (hp : p ∈ ps) :
    findIn? p.handle ps = some p := by
  induction ps with
  | nil => cases hp
  | cons q ps ih =>
    rw [handlesIn] at hn
    rw [findIn?]
    rcases List.mem_cons.mp hp with rfl | hp
    · rw [find?_handle]
    · have hf := ih (List.Nodup.of_append_right hn) hp
      have hq : q.find? p.handle = none := find?_eq_none.mpr fun hq =>
        List.disjoint_of_nodup_append hn hq (mem_handlesIn hf)
      rw [hq, hf]

theorem find?_child {p c : Plant} (hn : p.handles.Nodup) (hc : c ∈ p.children) :
    p.find? c.handle = some c := by
  rw [handles_eq] at hn
  have hf := findIn?_of_mem (List.Nodup.of_append_left hn) hc
  have hg : p.handle ≠ c.handle := fun hg =>
    List.disjoint_of_nodup_append hn (mem_handlesIn hf) (List.mem_singleton.mpr hg.symm)
  cases p
  rw [find?, if_neg hg]
  exact hf

mutual

theorem replace_of_not_mem {h : Handle} (f : Plant → List Plant) :
    ∀ {p : Plant}, h ∉ p.handles → p.replace h f = [p]
  | ⟨g, item, ps⟩, hp => by
    rw [handles, List.mem_append, not_or] at hp
    have hg : g ≠ h := fun hg => hp.2 (List.mem_singleton.mpr hg.symm)
    rw [replace, if_neg hg, replaceIn_of_not_mem f hp.1]

theorem replaceIn_of_not_mem {h : Handle} (f : Plant → List Plant) :
    ∀ {ps : List Plant}, h ∉ handlesIn ps → replaceIn h f ps = ps
  | [], _ => rfl
  | p :: ps, hp => by
    rw [handlesIn, List.mem_append, not_or] at hp
    rw [replaceIn, replace_of_not_mem f hp.1, replaceIn_of_not_mem f hp.2, List.singleton_append]

end

mutual

/-- A replacement takes the handles of what is found away and brings those of what is put there. -/
theorem handlesIn_replace {h : Handle} (f : Plant → List Plant) {q : Plant} :
    ∀ {p : Plant}, p.handles.Nodup → p.find? h = some q →
      (handlesIn (p.replace h f) ++ q.handles).Perm (p.handles ++ handlesIn (f q))
  | ⟨g, item, ps⟩, hn, hq => by
    rw [find?] at hq
    rw [replace]
    split at hq
    · next hg =>
      cases hq
      rw [if_pos hg]
      exact List.perm_append_comm
    · next hg =>
      have ih := handlesIn_replaceIn f (List.Nodup.of_append_left hn) hq
      rw [if_neg hg, handlesIn_singleton, handles, handles]
      refine List.perm_iff_count.mpr fun k => ?_
      have ih := ih.count_eq k
      simp only [List.count_append] at ih ⊢
      omega

theorem handlesIn_replaceIn {h : Handle} (f : Plant → List Plant) {q : Plant} :
    ∀ {ps : List Plant}, (handlesIn ps).Nodup → findIn? h ps = some q →
      (handlesIn (replaceIn h f ps) ++ q.handles).Perm (handlesIn ps ++ handlesIn (f q))
  | [], _, hq => by cases hq
  | p :: ps, hn, hq => by
    rw [handlesIn] at hn
    rw [findIn?] at hq
    rw [replaceIn, handlesIn_append, handlesIn]
    split at hq
    · next hp =>
      cases hq
      have ih := handlesIn_replace f (List.Nodup.of_append_left hn) hp
      rw [replaceIn_of_not_mem f (List.disjoint_of_nodup_append hn (mem_handles hp))]
      refine List.perm_iff_count.mpr fun k => ?_
      have ih := ih.count_eq k
      simp only [List.count_append] at ih ⊢
      omega
    · next hp =>
      have ih := handlesIn_replaceIn f (List.Nodup.of_append_right hn) hq
      rw [replace_of_not_mem f (find?_eq_none.mp hp), handlesIn_singleton, List.append_assoc,
        List.append_assoc]
      exact ih.append_left _

end

section

variable {h : Handle} {ps : List Plant} {q : Plant}

theorem handlesIn_without (hn : (handlesIn ps).Nodup) (hq : findIn? h ps = some q) :
    (handlesIn ps).Perm (handlesIn (replaceIn h (fun _ => []) ps) ++ q.handles) := by
  have hl := (handlesIn_replaceIn (fun _ => []) hn hq).symm
  rwa [handlesIn, List.append_nil] at hl

/-- What is not in the plant that is taken away is still found. -/
theorem exists_findIn?_without (hn : (handlesIn ps).Nodup) (hq : findIn? h ps = some q)
    {g : Handle} (hg : g ∈ handlesIn ps) (hgq : g ∉ q.handles) :
    ∃ r, findIn? g (replaceIn h (fun _ => []) ps) = some r := by
  have hm := (handlesIn_without hn hq).subset hg
  exact exists_findIn? ((List.mem_append.mp hm).resolve_right hgq)

theorem handlesIn_spliced (hn : (handlesIn ps).Nodup) (hq : findIn? h ps = some q) :
    (handlesIn ps).Perm (handlesIn (replaceIn h children ps) ++ [h]) := by
  have hl := handlesIn_replaceIn children hn hq
  rw [handles_eq, handle_of_findIn? hq] at hl
  refine List.perm_iff_count.mpr fun g => ?_
  have hl := hl.count_eq g
  simp only [List.count_append] at hl ⊢
  omega

end

def linksIn (ps : List Plant) : Links := fun h =>
  (findIn? h ps).map fun p => (p.item, p.children.map handle)

section

variable {h g : Handle} {ps qs : List Plant} {F : Plant → List Plant} {q : Plant}

theorem findIn?_append : findIn? h (ps ++ qs) = (findIn? h ps).or (findIn? h qs) := by
  induction ps with
  | nil => rfl
  | cons p ps ih =>
    rw [List.cons_append, findIn?, findIn?, ih]
    cases p.find? h <;> rfl

theorem linksIn_append (ps qs : List Plant) :
    linksIn (ps ++ qs) g = (linksIn ps g).or (linksIn qs g) := by
  rw [linksIn, linksIn, linksIn, findIn?_append]
  cases findIn? g ps <;> rfl

theorem linksIn_cons (p : Plant) (ps : List Plant) :
    linksIn (p :: ps) g = (linksIn [p] g).or (linksIn ps g) :=
  linksIn_append [p] ps

theorem linksIn_singleton (p : Plant) :
    linksIn [p] g = if p.handle = g then some (p.item, p.children.map handle)
      else linksIn p.children g := by
  obtain ⟨k, item, ps⟩ := p
  rw [linksIn, findIn?, find?, findIn?]
  by_cases hk : k = g
  · rw [if_pos hk, if_pos hk]
    rfl
  · rw [if_neg hk, if_neg hk, linksIn]
    cases findIn? g ps <;> rfl

theorem linksIn_eq_none : linksIn ps g = none ↔ g ∉ handlesIn ps := by
  rw [linksIn, Option.map_eq_none_iff, findIn?_eq_none]

theorem linksIn_handle (hq : findIn? h ps = some q) :
    linksIn ps h = some (q.item, q.children.map handle) := by
  rw [linksIn, hq, Option.map_some]

/-- The children at the top take the place of the one that is replaced. -/
theorem map_handle_replaceIn (hn : (handlesIn ps).Nodup) (hq : findIn? h ps = some q) :
    (replaceIn h F ps).map handle =
      (ps.map handle).flatMap fun k => if k = h then (F q).map handle else [k] := by
  have hpart (p : Plant) (hp : p ∈ ps) : (p.replace h F).map handle =
      if p.handle = h then (F q).map handle else [p.handle] := by
    by_cases hh : p.handle = h
    · have hf := findIn?_of_mem hn hp
      rw [hh, hq, Option.some_inj] at hf
      subst hf
      obtain ⟨k, item, rs⟩ := q
      rw [replace, if_pos hh, if_pos hh]
    · obtain ⟨k, item, rs⟩ := p
      rw [replace, if_neg hh, if_neg hh]
      rfl
  have hmap : (replaceIn h F ps).map handle = ps.flatMap fun p => (p.replace h F).map handle := by
    clear hn hq hpart
    induction ps with
    | nil => rfl
    | cons p ps ih => rw [replaceIn, List.map_append, ih, List.flatMap_cons]
  rw [hmap, List.flatMap_congr hpart, List.flatMap_map]

theorem mem_handlesIn_of_parent (hp : (linksIn ps).Parent h g) : g ∈ handlesIn ps := by
  obtain ⟨n, hn, hg⟩ := hp
  obtain ⟨q, hq, rfl⟩ := Option.map_eq_some_iff.mp hn
  obtain ⟨c, hc, rfl⟩ := List.mem_map.mp hg
  have hcq : c.handle ∈ q.handles := by
    rw [handles_eq]
    exact List.mem_append_left _ ((handles_sublist_of_mem hc).subset (mem_handles c.find?_handle))
  exact (handles_sublist_handlesIn hq).subset hcq

theorem linksIn_put_of_not_mem (ks : List Handle) (hp : h ∉ handlesIn ps) :
    (linksIn ps).put h ks = linksIn ps :=
  Links.put_eq_self fun _ hh => hp (mem_handlesIn_of_parent hh)

mutual

/-- A replacement brings the links of what is put in; in all others, its top takes the place of what
is replaced. -/
theorem linksIn_replace : ∀ {p : Plant}, p.handles.Nodup → p.find? h = some q →
    (∀ k ∈ handlesIn (F q), k ∈ p.handles → k ∈ q.handles) →
    linksIn (p.replace h F) g = if g ∈ q.handles ∨ g ∈ handlesIn (F q) then linksIn (F q) g
      else (linksIn [p]).put h ((F q).map handle) g
  | ⟨k, item, ps⟩, hn, hq, hF => by
    rw [find?] at hq
    rw [replace]
    split at hq
    · next hk =>
      cases hq
      rw [if_pos hk]
      split
      · rfl
      · next hg =>
        rw [not_or] at hg
        have hp : linksIn [⟨k, item, ps⟩] g = none := by
          rw [linksIn_eq_none, handlesIn_singleton]
          exact hg.1
        rw [linksIn_eq_none.mpr hg.2, Links.put_eq_none.mpr hp]
    · next hk =>
      have hnps := List.Nodup.of_append_left hn
      have ih := linksIn_replaceIn hnps hq fun x hx hxp => hF x hx (List.mem_append_left _ hxp)
      rw [if_neg hk, linksIn_singleton, Links.put, linksIn_singleton]
      dsimp only
      by_cases hg : k = g
      · subst hg
        have hkq : k ∉ q.handles := fun hkq =>
          List.disjoint_of_nodup_append hn ((handles_sublist_handlesIn hq).subset hkq)
            (List.mem_singleton.mpr rfl)
        have hkF : k ∉ handlesIn (F q) := fun hkF =>
          hkq (hF k hkF (List.mem_append_right _ (List.mem_singleton.mpr rfl)))
        rw [if_pos rfl, if_pos rfl, if_neg (not_or.mpr ⟨hkq, hkF⟩), map_handle_replaceIn hnps hq]
        rfl
      · rw [if_neg hg, if_neg hg, ih]
        rfl

theorem linksIn_replaceIn : ∀ {ps : List Plant}, (handlesIn ps).Nodup → findIn? h ps = some q →
    (∀ k ∈ handlesIn (F q), k ∈ handlesIn ps → k ∈ q.handles) →
    linksIn (replaceIn h F ps) g = if g ∈ q.handles ∨ g ∈ handlesIn (F q) then linksIn (F q) g
      else (linksIn ps).put h ((F q).map handle) g
  | [], _, hq, _ => by cases hq
  | p :: ps, hn, hq, hF => by
    rw [handlesIn] at hn hF
    have hd := List.disjoint_of_nodup_append hn
    rw [findIn?] at hq
    rw [replaceIn, linksIn_append, Links.put, linksIn_cons, Option.map_or]
    split at hq
    · next r hp =>
      cases hq
      have hps := linksIn_put_of_not_mem ((F q).map handle) (hd (mem_handles hp))
      have ih := linksIn_replace (List.Nodup.of_append_left hn) hp fun x hx hxp =>
        hF x hx (List.mem_append_left _ hxp)
      rw [replaceIn_of_not_mem F (hd (mem_handles hp)), ih]
      split
      · next hg =>
        cases hl : linksIn (F q) g with
        | some n => rfl
        | none =>
          have hgp := (handles_sublist hp).subset (hg.resolve_right (linksIn_eq_none.mp hl))
          rw [Option.none_or, linksIn_eq_none.mpr (hd hgp)]
      · rw [show (linksIn ps g).map _ = _ from congrFun hps g]
        rfl
    · next hp =>
      have hhp := find?_eq_none.mp hp
      have hone : (linksIn [p]).put h ((F q).map handle) = linksIn [p] :=
        linksIn_put_of_not_mem _ (by rwa [handlesIn_singleton])
      have ih := linksIn_replaceIn (List.Nodup.of_append_right hn) hq fun x hx hxp =>
        hF x hx (List.mem_append_right _ hxp)
      rw [replace_of_not_mem F hhp, ih]
      split
      · next hg =>
        have hgp : g ∉ p.handles := by
          intro hgp
          have hgq := hg.elim id fun hgF => hF g hgF (List.mem_append_left _ hgp)
          exact hd hgp ((handles_sublist_handlesIn hq).subset hgq)
        rw [linksIn_eq_none.mpr (by rwa [handlesIn_singleton]), Option.none_or]
      · rw [show (linksIn [p] g).map _ = _ from congrFun hone g]
        rfl

end

end

end Plant

end TreeDiff
