import Mathlib.Data.List.Nodup
import Mathlib.Order.WellFounded
import TreeDiff.Arena.Laws

/-!
# Links

The nodes of an arena make up trees: a child is never removed before its parent lets it go, has one
parent and is its child once, and every way down ends. Every edit keeps to that. A node is gone when
it is removed alone, or when it is below one that is removed with all below it, and never otherwise.
-/

set_option autoImplicit false

namespace TreeDiff

namespace Links

structure Sound (L : Links) : Prop where
  closed {h g : Handle} : L.Parent h g → L g ≠ none
  single {h g k : Handle} : L.Parent h k → L.Parent g k → h = g
  once {h : Handle} {n : Item × List Handle} : L h = some n → n.2.Nodup
  founded : WellFounded fun g h => L.Parent h g

section

variable {L L' : Links} {h g : Handle}

theorem ne_none_of_parent (hp : L.Parent h g) : L h ≠ none := by
  obtain ⟨n, hn, -⟩ := hp
  simp [hn]

theorem ne_none_of_below (hb : L.Below h g) (hg : L g ≠ none) : L h ≠ none := by
  rcases Relation.ReflTransGen.cases_head hb with rfl | ⟨k, hk, -⟩
  · exact hg
  · exact ne_none_of_parent hk

/-- No node is below one of its children. -/
theorem Sound.not_below (hs : L.Sound) (hp : L.Parent h g) : ¬ L.Below g h := by
  intro hb
  have hc : Relation.TransGen L.Parent h h := Relation.TransGen.head' hp hb
  have hw : WellFounded (Relation.TransGen fun g h => L.Parent h g) := hs.founded.transGen
  exact hw.irrefl.irrefl h (Relation.transGen_swap.mpr hc)

theorem Sound.eq_or_below (hs : L.Sound) {k : Handle} (hb : L.Below h k) (hp : L.Parent g k) :
    h = k ∨ L.Below h g := by
  rcases Relation.ReflTransGen.cases_tail hb with rfl | ⟨x, hx, hk⟩
  · exact .inl rfl
  · rw [hs.single hp hk]
    exact .inr hx

theorem empty_sound : Sound fun _ => none where
  closed hp := absurd rfl (ne_none_of_parent hp)
  single hp := absurd rfl (ne_none_of_parent hp)
  once h := nomatch h
  founded := ⟨fun h => ⟨h, fun _ hp => absurd rfl (ne_none_of_parent hp)⟩⟩

/-- Taking nodes and links away keeps trees trees. -/
theorem Sound.mono (hs : L.Sound) (hp : ∀ h g, L'.Parent h g → L.Parent h g ∧ L' g ≠ none)
    (ho : ∀ h n, L' h = some n → n.2.Nodup) : L'.Sound where
  closed h := (hp _ _ h).2
  single h h' := hs.single (hp _ _ h).1 (hp _ _ h').1
  once := ho _ _
  founded := Subrelation.wf (fun h => (hp _ _ h).1) hs.founded

end

section

variable {L : Links} {h a b : Handle} {ks : List Handle}

theorem below_mono {L' : Links} (hp : ∀ a b, L'.Parent a b → L.Parent a b) (hb : L'.Below a b) :
    L.Below a b :=
  Relation.ReflTransGen.mono (fun a b => hp a b) a b hb

@[simp] theorem add_self (item : Item) : L.add h item h = some (item, []) :=
  Function.update_self _ _ _

theorem add_of_ne (item : Item) (ha : a ≠ h) : L.add h item a = L a :=
  Function.update_of_ne ha _ _

theorem parent_add {item : Item} (hp : (L.add h item).Parent a b) : L.Parent a b := by
  obtain ⟨n, hn, hb⟩ := hp
  by_cases ha : a = h
  · subst ha
    rw [add_self] at hn
    cases hn
    cases hb
  · rw [add_of_ne item ha] at hn
    exact ⟨n, hn, hb⟩

theorem add_sound (hs : L.Sound) (item : Item) : (L.add h item).Sound := by
  refine hs.mono (fun a b hp => ⟨parent_add hp, ?_⟩) fun a n hn => ?_
  · by_cases hb : b = h
    · simp [hb]
    · rw [add_of_ne item hb]
      exact hs.closed (parent_add hp)
  · by_cases ha : a = h
    · subst ha
      rw [add_self] at hn
      cases hn
      exact List.nodup_nil
    · rw [add_of_ne item ha] at hn
      exact hs.once hn

theorem put_eq_none : L.put h ks a = none ↔ L a = none := Option.map_eq_none_iff

theorem parent_put :
    (L.put h ks).Parent a b ↔ L.Parent a b ∧ b ≠ h ∨ L.Parent a h ∧ b ∈ ks := by
  simp only [Parent, put, Option.map_eq_some_iff]
  constructor
  · rintro ⟨_, ⟨n, hn, rfl⟩, hb⟩
    obtain ⟨k, hk, hb⟩ := List.mem_flatMap.mp hb
    by_cases hkh : k = h
    · subst hkh
      rw [if_pos rfl] at hb
      exact .inr ⟨⟨n, hn, hk⟩, hb⟩
    · rw [if_neg hkh, List.mem_singleton] at hb
      subst hb
      exact .inl ⟨⟨n, hn, hk⟩, hkh⟩
  · rintro (⟨⟨n, hn, hb⟩, hbh⟩ | ⟨⟨n, hn, hh⟩, hb⟩)
    · exact ⟨_, ⟨n, hn, rfl⟩, List.mem_flatMap.mpr ⟨b, hb, by simp [hbh]⟩⟩
    · exact ⟨_, ⟨n, hn, rfl⟩, List.mem_flatMap.mpr ⟨h, hh, by simpa using hb⟩⟩

theorem parent_put_nil : (L.put h []).Parent a b ↔ L.Parent a b ∧ b ≠ h := by
  simp [parent_put]

theorem put_once (hs : L.Sound) (hks : ks.Nodup) (hd : ∀ k ∈ ks, ¬ (L.put h []).Parent a k)
    {n : Item × List Handle} (hn : L.put h ks a = some n) : n.2.Nodup := by
  obtain ⟨m, hm, rfl⟩ := Option.map_eq_some_iff.mp hn
  have ho := hs.once hm
  have hparent {k : Handle} (hk : k ∈ m.2) (hkh : k ≠ h) : (L.put h []).Parent a k :=
    parent_put_nil.mpr ⟨⟨m, hm, hk⟩, hkh⟩
  refine List.nodup_flatMap.mpr ⟨fun k _ => ?_, ho.pairwise_of_forall_ne fun j hj k hk hjk => ?_⟩
  · split
    · exact hks
    · exact List.nodup_singleton k
  · change List.Disjoint _ _
    by_cases hjh : j = h <;> by_cases hkh : k = h
    · exact absurd (hjh.trans hkh.symm) hjk
    · simpa [hjh, hkh] using fun hm => hd k hm (hparent hk hkh)
    · simpa [hjh, hkh] using fun hm => hd j hm (hparent hj hjh)
    · simpa [hjh, hkh] using hjk.symm

theorem put_nil_sound (hs : L.Sound) : (L.put h []).Sound := by
  refine hs.mono (fun a b hp => ?_) fun a n hn => put_once hs List.nodup_nil ?_ hn
  · obtain ⟨hp, -⟩ := parent_put_nil.mp hp
    exact ⟨hp, put_eq_none.not.mpr (hs.closed hp)⟩
  · exact List.forall_mem_nil _

/-- A child that no node has is in no place to be taken. -/
theorem put_eq_self (hh : ∀ a, ¬ L.Parent a h) : L.put h ks = L := by
  funext a
  rw [put]
  cases ha : L a with
  | none => rfl
  | some n =>
    have hn : n.2.flatMap (fun k => if k = h then ks else [k]) = n.2.flatMap fun k => [k] := by
      refine List.flatMap_congr fun k hk => if_neg ?_
      rintro rfl
      exact hh a ⟨n, ha, hk⟩
    rw [Option.map_some, hn, List.flatMap_singleton']

section

variable {place : Handle → List Handle → List Handle} {child parent : Handle}

theorem adopt_eq_none {f : List Handle → List Handle} : L.adopt parent f a = none ↔ L a = none :=
  Option.map_eq_none_iff

theorem adopt_of_ne (f : List Handle → List Handle) (ha : a ≠ parent) :
    L.adopt parent f a = L a := by
  simp only [adopt, if_neg ha]
  exact Option.map_id'

theorem parent_adopt (hplace : ∀ k ks, (place k ks).Perm (k :: ks)) :
    (L.adopt parent (place child)).Parent a b →
      L.Parent a b ∨ a = parent ∧ b = child := by
  rintro ⟨_, ha, hb⟩
  obtain ⟨n, hn, rfl⟩ := Option.map_eq_some_iff.mp ha
  by_cases ha : a = parent
  · rw [if_pos ha] at hb
    rcases List.mem_cons.mp ((hplace child n.2).subset hb) with hb | hb
    · exact .inr ⟨ha, hb⟩
    · exact .inl ⟨n, hn, hb⟩
  · rw [if_neg ha] at hb
    exact .inl ⟨n, hn, hb⟩

/-- A node that has no parent may be linked to one that is not below it. -/
theorem adopt_sound (hplace : ∀ k ks, (place k ks).Perm (k :: ks)) (hs : L.Sound)
    (hchild : L child ≠ none) (halone : ∀ a, ¬ L.Parent a child) (hb : ¬ L.Below child parent) :
    (L.adopt parent (place child)).Sound where
  closed hp := by
    rw [Ne, adopt_eq_none]
    rcases parent_adopt hplace hp with hp | ⟨-, rfl⟩
    · exact hs.closed hp
    · exact hchild
  single hp hq := by
    rcases parent_adopt hplace hp with hp | ⟨hp, hk⟩ <;>
      rcases parent_adopt hplace hq with hq | ⟨hq, hk'⟩
    · exact hs.single hp hq
    · exact absurd hp (hk' ▸ halone _)
    · exact absurd hq (hk ▸ halone _)
    · rw [hp, hq]
  once ha := by
    obtain ⟨n, hn, rfl⟩ := Option.map_eq_some_iff.mp ha
    have ho := hs.once hn
    dsimp only
    split
    · have hc : child ∉ n.2 := fun hc => halone _ ⟨n, hn, hc⟩
      exact (hplace child n.2).nodup_iff.mpr (List.nodup_cons.mpr ⟨hc, ho⟩)
    · exact ho
  founded := by
    -- Below the child nothing is new, for the parent is not there.
    have hbelow (g : Handle) :
        L.Below child g → Acc (fun g h => (L.adopt parent (place child)).Parent h g) g := by
      induction g using hs.founded.induction with
      | h g ih =>
        intro hg
        refine ⟨g, fun k hk => ?_⟩
        rcases parent_adopt hplace hk with hk | ⟨rfl, -⟩
        · exact ih k hk (hg.tail hk)
        · exact absurd hg hb
    refine ⟨fun h => ?_⟩
    induction h using hs.founded.induction with
    | h h ih =>
      refine ⟨h, fun k hk => ?_⟩
      rcases parent_adopt hplace hk with hk | ⟨-, rfl⟩
      · exact ih k hk
      · exact hbelow k .refl

end

/-- A node that stands alone goes behind the children that are there. -/
theorem append_of_alone {parent child : Handle} (hp : L parent ≠ none) (hc : L child ≠ none)
    (halone : ∀ a, ¬ L.Parent a child) (hb : ¬ L.Below child parent) :
    L.append parent child = .ok (L.adopt parent fun ks => ks ++ [child]) := by
  have hne : parent ≠ child := by
    rintro rfl
    exact hb .refl
  rw [append, attach, if_neg hne, if_neg (not_or.mpr ⟨hp, hc⟩), if_neg hb, put_eq_self halone]

end

structure Releases (L L' : Links) (gone : Handle → Prop) : Prop where
  sound : L'.Sound
  live (h : Handle) : L' h ≠ none ↔ L h ≠ none ∧ ¬ gone h

section

variable {L L' : Links} {h : Handle}

theorem releases_refl (hs : L.Sound) : L.Releases L fun _ => False := ⟨hs, by simp⟩

theorem attach_releases {same ancestor : ForestError} {place : Handle → List Handle → List Handle}
    (hplace : ∀ k ks, (place k ks).Perm (k :: ks)) (hs : L.Sound) {parent child : Handle}
    (ha : L.attach same ancestor place parent child = .ok L') :
    L.Releases L' fun _ => False := by
  rw [attach] at ha
  split at ha
  · cases ha
  split at ha
  · cases ha
  split at ha
  · cases ha
  · next hlive hbelow =>
    cases ha
    rw [not_or] at hlive
    refine ⟨adopt_sound hplace (put_nil_sound hs) (put_eq_none.not.mpr hlive.2) ?_ ?_, ?_⟩
    · intro a hp
      exact (parent_put_nil.mp hp).2 rfl
    · exact fun hb => hbelow (below_mono (fun _ _ hp => (parent_put_nil.mp hp).1) hb)
    · simp [adopt_eq_none, put_eq_none]

theorem detach_releases (hs : L.Sound) (hd : L.detach h = .ok L') :
    L.Releases L' fun _ => False := by
  rw [detach] at hd
  split at hd
  · cases hd
  · cases hd
    exact ⟨put_nil_sound hs, by simp [put_eq_none]⟩

section

variable {n : Item × List Handle} {a b : Handle}

/-- The children of a node that is removed alone get its parent; all other links stay. -/
theorem parent_removed (hn : L h = some n)
    (hp : Parent (Function.update (L.put h n.2) h none) a b) :
    a ≠ h ∧ (L.Parent a b ∧ b ≠ h ∨ L.Parent a h ∧ L.Parent h b) := by
  obtain ⟨m, hm, hb⟩ := hp
  have ha : a ≠ h := by
    rintro rfl
    simp at hm
  rw [Function.update_of_ne ha] at hm
  exact ⟨ha, (parent_put.mp ⟨m, hm, hb⟩).imp_right (And.imp_right fun hb => ⟨n, hn, hb⟩)⟩

theorem removed_sound (hs : L.Sound) (hn : L h = some n) :
    Sound (Function.update (L.put h n.2) h none) where
  closed hp := by
    obtain ⟨hlive, hb⟩ : L _ ≠ none ∧ _ ≠ h := by
      rcases (parent_removed hn hp).2 with ⟨hp, hb⟩ | ⟨-, hb⟩
      · exact ⟨hs.closed hp, hb⟩
      · refine ⟨hs.closed hb, ?_⟩
        rintro rfl
        exact hs.not_below hb .refl
    rw [Function.update_of_ne hb]
    exact put_eq_none.not.mpr hlive
  single hp hq := by
    obtain ⟨ha, hp⟩ := parent_removed hn hp
    obtain ⟨hb, hq⟩ := parent_removed hn hq
    rcases hp with ⟨hp, -⟩ | ⟨hp, hk⟩ <;> rcases hq with ⟨hq, -⟩ | ⟨hq, hk'⟩
    · exact hs.single hp hq
    · exact absurd (hs.single hp hk') ha
    · exact absurd (hs.single hq hk) hb
    · exact hs.single hp hq
  once {a m} hm := by
    have ha : a ≠ h := by
      rintro rfl
      simp at hm
    rw [Function.update_of_ne ha] at hm
    refine put_once hs (hs.once hn) (fun k hk hp => ha ?_) hm
    exact hs.single (parent_put_nil.mp hp).1 ⟨n, hn, hk⟩
  founded := by
    refine Subrelation.wf (fun {b a} hp => ?_) hs.founded.transGen
    rcases (parent_removed hn hp).2 with ⟨hp, -⟩ | ⟨ha, hb⟩
    · exact .single hp
    · exact .tail (.single hb) ha

end

theorem remove_releases (hs : L.Sound) (hr : L.remove h = .ok L') :
    L.Releases L' fun g => g = h := by
  rw [remove] at hr
  split at hr
  · cases hr
  · next n hn =>
    cases hr
    refine ⟨removed_sound hs hn, fun g => ?_⟩
    by_cases hg : g = h
    · simp [hg]
    · simp [hg, put_eq_none]

open Classical in
theorem parent_removedAll {a b : Handle}
    (hp : Parent (fun g => if L.Below h g then none else L.put h [] g) a b) :
    ¬ L.Below h a ∧ L.Parent a b ∧ b ≠ h := by
  obtain ⟨m, hm, hb⟩ := hp
  dsimp only at hm
  split at hm
  · cases hm
  · next ha => exact ⟨ha, parent_put_nil.mp ⟨m, hm, hb⟩⟩

theorem removeAll_releases (hs : L.Sound) (hr : L.removeAll h = .ok L') :
    L.Releases L' fun g => L.Below h g := by
  rw [removeAll] at hr
  split at hr
  · cases hr
  · cases hr
    refine ⟨hs.mono (fun a b hp => ?_) fun a m hm => ?_, fun g => ?_⟩
    · obtain ⟨ha, hp, hb⟩ := parent_removedAll hp
      refine ⟨hp, ?_⟩
      rw [if_neg fun hbelow => (hs.eq_or_below hbelow hp).elim (hb ∘ Eq.symm) ha]
      exact put_eq_none.not.mpr (hs.closed hp)
    · split at hm
      · cases hm
      · exact put_once hs List.nodup_nil (List.forall_mem_nil _) hm
    · split
      · next hg => simp [hg]
      · next hg => simp [hg, put_eq_none]

theorem eq_none_of_remove {e : ForestError} (hr : L.remove h = .error e) : L h = none := by
  rw [remove] at hr
  split at hr
  · assumption
  · cases hr

theorem eq_none_of_removeAll {e : ForestError} (hr : L.removeAll h = .error e) : L h = none := by
  rw [removeAll] at hr
  split at hr
  · assumption
  · cases hr

end

end Links

end TreeDiff
