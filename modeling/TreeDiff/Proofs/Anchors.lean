import Mathlib.Data.List.Sort
import Mathlib.Order.Bounds.Defs
import TreeDiff.Proofs.Relabelling
import TreeDiff.Proofs.Table

/-!
# The anchors are a longest common subsequence

Whatever relation stands for identity, no pairs chosen in the order of both lists are more than the
anchors: a pair at the common start or end can be put in the place of whatever else is chosen there,
and what is between is solved cell by cell. So a gap holds no identical elements that could still be
paired in order, and the identical pairs of an alignment are its anchors.
-/

set_option autoImplicit false

namespace TreeDiff

variable {α β : Type}

structure Common (identical : α → β → Bool) (olds : List α) (news : List β)
    (ps : List (α × β)) : Prop where
  olds : (ps.map Prod.fst).Sublist olds
  news : (ps.map Prod.snd).Sublist news
  identical : ∀ p ∈ ps, identical p.1 p.2 = true

namespace Common

variable {identical : α → β → Bool} {olds : List α} {news : List β} {ps : List (α × β)}

theorem tail {a : α} {b : β} (h : Common identical (a :: olds) (b :: news) ps) :
    Common identical olds news ps.tail where
  olds := by simpa using h.olds.tail
  news := by simpa using h.news.tail
  identical p hp := h.identical p (List.mem_of_mem_tail hp)

theorem reverse (h : Common identical olds news ps) :
    Common identical olds.reverse news.reverse ps.reverse where
  olds := by simpa using h.olds.reverse
  news := by simpa using h.news.reverse
  identical p hp := h.identical p (List.mem_reverse.mp hp)

/-- What is chosen before an identical pair, the pair, and what is chosen behind it. -/
theorem join {xs : List α} {ys : List β} {qs : List (α × β)} {a : α} {b : β}
    (h : Common identical olds news ps) (hi : identical a b = true)
    (h' : Common identical xs ys qs) :
    Common identical (olds ++ a :: xs) (news ++ b :: ys) (ps ++ (a, b) :: qs) where
  olds := by simpa using h.olds.append (h'.olds.cons_cons a)
  news := by simpa using h.news.append (h'.news.cons_cons b)
  identical := by
    refine List.forall_mem_append.mpr ⟨h.identical, ?_⟩
    exact List.forall_mem_cons.mpr ⟨hi, h'.identical⟩

/-- Unless the two heads are identical, one of them is not used. -/
theorem skip {a : α} {b : β} (h : Common identical (a :: olds) (b :: news) ps)
    (hi : identical a b = false) :
    Common identical olds (b :: news) ps ∨ Common identical (a :: olds) news ps := by
  cases ps with
  | nil => exact .inl ⟨List.nil_sublist _, List.nil_sublist _, nofun⟩
  | cons p ps =>
    rcases List.sublist_cons_iff.mp h.olds with ho | ⟨r, hr, -⟩
    · exact .inl ⟨ho, h.news, h.identical⟩
    rcases List.sublist_cons_iff.mp h.news with hn | ⟨s, hs, -⟩
    · exact .inr ⟨h.olds, hn, h.identical⟩
    · have hp := h.identical p List.mem_cons_self
      rw [(List.cons.inj hr).1, (List.cons.inj hs).1, hi] at hp
      cases hp

theorem length_le_count (h : Common identical olds news ps) :
    ps.length ≤ (Cell.solve identical olds news).count := by
  fun_induction Cell.solve identical olds news generalizing ps with
  | case1 news => simpa using h.olds.length_le
  | case2 a olds ih => simpa using h.news.length_le.trans (Nat.zero_le _)
  | case3 a olds b news ih₁ ih₂ ih₃ =>
    unfold Cell.combine
    split
    -- Whatever is chosen first, to take the two heads instead leaves no less for the rest.
    · have ht := ih₃ h.tail
      rw [List.length_tail] at ht
      show ps.length ≤ (Cell.solve identical olds news).count + 1
      omega
    · next hi =>
      have hs : ps.length ≤ (Cell.solve identical olds (b :: news)).count ∨
          ps.length ≤ (Cell.solve identical (a :: olds) news).count :=
        (h.skip (by simpa using hi)).imp ih₁ ih₂
      split <;> simp only <;> omega

/-- Without as many pairs as the lists have in common at their start, the rest is chosen from what
follows it. -/
theorem drop_start (h : Common identical olds news ps) :
    Common identical (Anchoring.common identical olds news).2.1
      (Anchoring.common identical olds news).2.2
      (ps.drop (Anchoring.common identical olds news).1.length) := by
  fun_induction Anchoring.common identical olds news generalizing ps with
  | case1 a as b bs hi pairs olds news hc ih =>
    have ht := ih h.tail
    rw [hc] at ht
    simpa [List.drop_tail] using ht
  | case2 => exact h
  | case3 => exact h

end Common

namespace Anchoring

theorem anchors_sublist_olds (c : Anchoring α β) : (c.anchors.map Prod.fst).Sublist c.olds := by
  induction c with
  | rest olds news => exact List.nil_sublist _
  | anchor olds news a b beyond ih => exact (ih.cons_cons a).trans (List.sublist_append_right _ _)

theorem anchors_sublist_news (c : Anchoring α β) : (c.anchors.map Prod.snd).Sublist c.news := by
  induction c with
  | rest olds news => exact List.nil_sublist _
  | anchor olds news a b beyond ih => exact (ih.cons_cons b).trans (List.sublist_append_right _ _)

@[simp] theorem anchors_skipOld (a : α) (c : Anchoring α β) :
    (c.skipOld a).anchors = c.anchors := by
  cases c <;> rfl

@[simp] theorem anchors_skipNew (b : β) (c : Anchoring α β) :
    (c.skipNew b).anchors = c.anchors := by
  cases c <;> rfl

@[simp] theorem anchors_before (ps : List (α × β)) (c : Anchoring α β) :
    (before ps c).anchors = ps ++ c.anchors := by
  induction ps with
  | nil => rfl
  | cons p ps ih => simpa [before, anchors] using ih

@[simp] theorem anchors_after (c : Anchoring α β) (ps : List (α × β)) :
    (c.after ps).anchors = c.anchors ++ ps := by
  induction c with
  | rest olds news => cases ps <;> simp [after, anchors]
  | anchor olds news a b beyond ih => simp [after, anchors, ih]

variable (identical : α → β → Bool)

theorem anchors_solve (olds : List α) (news : List β) :
    (Cell.solve identical olds news).anchoring.anchors.length =
        (Cell.solve identical olds news).count ∧
      ∀ p ∈ (Cell.solve identical olds news).anchoring.anchors, identical p.1 p.2 = true := by
  fun_induction Cell.solve identical olds news with
  | case1 => simp [anchors]
  | case2 a olds ih => simpa using ih
  | case3 a olds b news ih₁ ih₂ ih₃ =>
    unfold Cell.combine
    split
    · next hi => simpa [anchors, hi] using ih₃
    · split
      · simpa using ih₁
      · simpa using ih₂

theorem identical_common (olds : List α) (news : List β) :
    ∀ p ∈ (common identical olds news).1, identical p.1 p.2 = true := by
  fun_induction common identical olds news with
  | case1 a as b bs hi pairs olds news hc ih => simp_all
  | case2 => simp
  | case3 => simp

def commonEnd (olds : List α) (news : List β) : List (α × β) × List α × List β :=
  common identical (common identical olds news).2.1.reverse
    (common identical olds news).2.2.reverse

theorem anchors_between (olds : List α) (news : List β) :
    (between identical olds news).anchors =
      (common identical olds news).1 ++
        ((Cell.solve identical (commonEnd identical olds news).2.1.reverse
            (commonEnd identical olds news).2.2.reverse).anchoring.anchors ++
          (commonEnd identical olds news).1.reverse) := by
  show (before _ ((longest identical (commonEnd identical olds news).2.1.reverse
    (commonEnd identical olds news).2.2.reverse).after
      (commonEnd identical olds news).1.reverse)).anchors = _
  rw [anchors_before, anchors_after, longest_eq]

theorem common_anchors_between (olds : List α) (news : List β) :
    Common identical olds news (between identical olds news).anchors where
  olds := by simpa using anchors_sublist_olds (between identical olds news)
  news := by simpa using anchors_sublist_news (between identical olds news)
  identical := by
    rw [anchors_between]
    refine List.forall_mem_append.mpr ⟨identical_common identical _ _, ?_⟩
    refine List.forall_mem_append.mpr ⟨(anchors_solve identical _ _).2, ?_⟩
    intro p hp
    exact identical_common identical _ _ p (List.mem_reverse.mp hp)

/-- No choice of identical pairs in order is longer than the anchors. -/
theorem length_le_anchors {olds : List α} {news : List β} {ps : List (α × β)}
    (h : Common identical olds news ps) :
    ps.length ≤ (between identical olds news).anchors.length := by
  have hend : Common identical (commonEnd identical olds news).2.1.reverse
      (commonEnd identical olds news).2.2.reverse
      ((ps.drop (common identical olds news).1.length).reverse.drop
        (commonEnd identical olds news).1.length).reverse :=
    h.drop_start.reverse.drop_start.reverse
  have hc := hend.length_le_count
  rw [List.length_reverse, List.length_drop, List.length_reverse, List.length_drop] at hc
  rw [anchors_between, List.length_append, List.length_append, (anchors_solve identical _ _).1,
    List.length_reverse]
  omega

end Anchoring

def Entry.pair? : Entry α β → Option (α × β)
  | paired a b => some (a, b)
  | _ => none

@[simp] theorem Entry.pair?_old (a : α) : (old a : Entry α β).pair? = none := rfl

@[simp] theorem Entry.pair?_paired (a : α) (b : β) : (paired a b).pair? = some (a, b) := rfl

theorem pairs_sublist_olds (es : List (Entry α β)) :
    ((es.filterMap Entry.pair?).map Prod.fst).Sublist (es.filterMap Entry.old?) := by
  induction es with
  | nil => exact .slnil
  | cons e es ih =>
    cases e with
    | old a => exact ih.cons a
    | new b => exact ih
    | paired a b => exact ih.cons_cons a

theorem pairs_sublist_news (es : List (Entry α β)) :
    ((es.filterMap Entry.pair?).map Prod.snd).Sublist (es.filterMap Entry.new?) := by
  induction es with
  | nil => exact .slnil
  | cons e es ih =>
    cases e with
    | old a => exact ih
    | new b => exact ih.cons b
    | paired a b => exact ih.cons_cons b

namespace Anchoring

def gaps : Anchoring α β → List (List α × List β)
  | rest olds news => [(olds, news)]
  | anchor olds news _ _ beyond => (olds, news) :: beyond.gaps

variable (identical : α → β → Bool) {gap : List α × List β} {ps : List (α × β)}

/-- What is chosen from a gap can be chosen along with the anchors. -/
theorem exists_common_of_gap {c : Anchoring α β} (hc : ∀ p ∈ c.anchors, identical p.1 p.2 = true)
    (hg : gap ∈ c.gaps) (hp : Common identical gap.1 gap.2 ps) :
    ∃ qs, Common identical c.olds c.news qs ∧ qs.length = c.anchors.length + ps.length := by
  induction c with
  | rest olds news =>
    obtain rfl := List.mem_singleton.mp hg
    exact ⟨ps, hp, by simp [anchors]⟩
  | anchor olds news a b beyond ih =>
    obtain ⟨hab, hc⟩ := List.forall_mem_cons.mp hc
    rcases List.mem_cons.mp hg with rfl | hg
    · have hb : Common identical beyond.olds beyond.news beyond.anchors :=
        ⟨anchors_sublist_olds beyond, anchors_sublist_news beyond, hc⟩
      refine ⟨_, hp.join hab hb, ?_⟩
      simp [anchors]
      omega
    · obtain ⟨qs, hqs, hlen⟩ := ih hc hg
      have hnil : Common identical olds news [] := ⟨List.nil_sublist _, List.nil_sublist _, nofun⟩
      refine ⟨_, hnil.join hab hqs, ?_⟩
      simp [anchors, hlen]
      omega

theorem eq_nil_of_gap {olds : List α} {news : List β}
    (hg : gap ∈ (between identical olds news).gaps) (hp : Common identical gap.1 gap.2 ps) : ps = [] := by
  obtain ⟨qs, hqs, hlen⟩ :=
    exists_common_of_gap identical (common_anchors_between identical olds news).identical hg hp
  rw [olds_between, news_between] at hqs
  have := length_le_anchors identical hqs
  exact List.length_eq_zero_iff.mp (by omega)

end Anchoring

namespace Judge

variable (j : Judge α β) (l : Limits)

def identicalPairs (es : List (Entry α β)) : List (α × β) :=
  (es.filterMap Entry.pair?).filter fun p => j.identical p.1 p.2

@[simp] theorem identicalPairs_append (es fs : List (Entry α β)) :
    j.identicalPairs (es ++ fs) = j.identicalPairs es ++ j.identicalPairs fs := by
  simp [identicalPairs]

theorem common_identicalPairs (es : List (Entry α β)) :
    Common j.identical (es.filterMap Entry.old?) (es.filterMap Entry.new?)
      (j.identicalPairs es) where
  olds := (List.filter_sublist.map _).trans (pairs_sublist_olds es)
  news := (List.filter_sublist.map _).trans (pairs_sublist_news es)
  identical _ hp := (List.mem_filter.mp hp).2

theorem anchors_sublist_pairs {c : Anchoring α β} {i k : Nat}
    (h : ∀ p ∈ c.anchors, j.identical p.1 p.2 = true) :
    c.anchors.Sublist (j.identicalPairs (j.fillAll l i k c)) := by
  induction c generalizing i k with
  | rest olds news => exact List.nil_sublist _
  | anchor olds news a b beyond ih =>
    obtain ⟨hi, h⟩ := List.forall_mem_cons.mp h
    have hp (es : List (Entry α β)) :
        j.identicalPairs (.paired a b :: es) = (a, b) :: j.identicalPairs es := by
      simp [identicalPairs, show j.identical a b = true from hi]
    rw [fillAll, identicalPairs_append, hp]
    exact ((ih h).cons_cons _).trans (List.sublist_append_right _ _)

/-- The identical pairs of an alignment are the anchors. -/
theorem identicalPairs_align (olds : List α) (news : List β) :
    j.identicalPairs (j.align l olds news) =
      (Anchoring.between j.identical olds news).anchors := by
  have hc := j.common_identicalPairs (j.align l olds news)
  rw [olds_align, news_align] at hc
  exact ((j.anchors_sublist_pairs l
    (Anchoring.common_anchors_between j.identical olds news).identical).eq_of_length_le
      (Anchoring.length_le_anchors j.identical hc)).symm

/-- Nothing identical is paired in a gap, from wherever it is filled. -/
theorem identicalPairs_gap {olds : List α} {news : List β} {gap : List α × List β}
    (h : gap ∈ (Anchoring.between j.identical olds news).gaps) (i k : Nat) :
    j.identicalPairs (j.fill l i k gap.1 gap.2) = [] := by
  have hc := j.common_identicalPairs (j.fill l i k gap.1 gap.2)
  rw [olds_fill, news_fill] at hc
  exact Anchoring.eq_nil_of_gap j.identical h hc

end Judge

structure Chain (identical : α → β → Bool) (olds : List α) (news : List β)
    (ps : List (Nat × Nat)) : Prop where
  increasing : ps.Pairwise fun p q => p.1 < q.1 ∧ p.2 < q.2
  identical : ∀ p ∈ ps, ∃ a b, olds[p.1]? = some a ∧ news[p.2]? = some b ∧ identical a b = true

section

variable {identical : α → β → Bool} {olds : List α} {news : List β}

theorem zipIdx_increasing (xs : List α) : xs.zipIdx.Pairwise fun x y => x.2 < y.2 := by
  rw [← List.pairwise_map (f := Prod.snd) (R := (· < ·)), List.zipIdx_map_snd]
  exact List.pairwise_lt_range'

/-- A strictly increasing choice of elements with their positions keeps the order of the list. -/
theorem sublist_zipIdx {xs : List α} {ys : List (α × Nat)} (hm : ys ⊆ xs.zipIdx)
    (hi : ys.Pairwise fun x y => x.2 < y.2) : ys.Sublist xs.zipIdx := by
  have : Std.Antisymm (fun x y : α × Nat => x.2 < y.2) := ⟨fun x y h h' => by omega⟩
  have hn : ys.Nodup := hi.imp fun {x y} h he => by
    rw [he] at h
    omega
  exact List.sublist_of_subperm_of_pairwise (List.subperm_of_subset hn hm) hi
    (zipIdx_increasing xs)

/-- Pairs in the order of both lists have increasing positions. -/
theorem increasing_pairs {ps : List ((α × Nat) × (β × Nat))}
    (ho : (ps.map Prod.fst).Sublist olds.zipIdx) (hn : (ps.map Prod.snd).Sublist news.zipIdx) :
    ps.Pairwise fun p q => p.1.2 < q.1.2 ∧ p.2.2 < q.2.2 := by
  have ho := List.pairwise_map.mp ((zipIdx_increasing olds).sublist ho)
  have hn := List.pairwise_map.mp ((zipIdx_increasing news).sublist hn)
  exact ho.and hn

theorem Common.chain {ps : List ((α × Nat) × (β × Nat))}
    (h : Common (fun x y => identical x.1 y.1) olds.zipIdx news.zipIdx ps) :
    Chain identical olds news (ps.map (Prod.map Prod.snd Prod.snd)) where
  increasing := List.pairwise_map.mpr (increasing_pairs h.olds h.news)
  identical := by
    intro p hp
    obtain ⟨q, hq, rfl⟩ := List.mem_map.mp hp
    have ho := h.olds.subset (List.mem_map_of_mem hq)
    have hn := h.news.subset (List.mem_map_of_mem hq)
    exact ⟨q.1.1, q.2.1, List.mk_mem_zipIdx_iff_getElem?.mp ho,
      List.mk_mem_zipIdx_iff_getElem?.mp hn, h.identical q hq⟩

theorem Chain.common {ps : List (Nat × Nat)} (h : Chain identical olds news ps) :
    ∃ qs, Common (fun x y => identical x.1 y.1) olds.zipIdx news.zipIdx qs ∧
      qs.map (Prod.map Prod.snd Prod.snd) = ps := by
  have hq : ∃ qs : List ((α × Nat) × (β × Nat)), qs.map (Prod.map Prod.snd Prod.snd) = ps ∧
      ∀ q ∈ qs, q.1 ∈ olds.zipIdx ∧ q.2 ∈ news.zipIdx ∧ identical q.1.1 q.2.1 = true := by
    have hi := h.identical
    clear h
    induction ps with
    | nil => exact ⟨[], rfl, nofun⟩
    | cons p ps ih =>
      obtain ⟨⟨a, b, ha, hb, hab⟩, hi⟩ := List.forall_mem_cons.mp hi
      obtain ⟨qs, rfl, hqs⟩ := ih hi
      refine ⟨((a, p.1), (b, p.2)) :: qs, rfl, List.forall_mem_cons.mpr ⟨?_, hqs⟩⟩
      exact ⟨List.mk_mem_zipIdx_iff_getElem?.mpr ha, List.mk_mem_zipIdx_iff_getElem?.mpr hb, hab⟩
  obtain ⟨qs, rfl, hqs⟩ := hq
  have hi := List.pairwise_map.mp h.increasing
  refine ⟨qs, ⟨sublist_zipIdx ?_ ?_, sublist_zipIdx ?_ ?_, fun q hq => (hqs q hq).2.2⟩, rfl⟩
  · rintro x hx
    obtain ⟨q, hq, rfl⟩ := List.mem_map.mp hx
    exact (hqs q hq).1
  · exact List.pairwise_map.mpr (hi.imp fun h => h.1)
  · rintro x hx
    obtain ⟨q, hq, rfl⟩ := List.mem_map.mp hx
    exact (hqs q hq).2.1
  · exact List.pairwise_map.mpr (hi.imp fun h => h.2)

end

namespace Anchoring

theorem positions_map {α' β' : Type} (f : α → α') (g : β → β') (c : Anchoring α β) (i k : Nat) :
    (c.map f g).positions i k = c.positions i k := by
  induction c generalizing i k with
  | rest => rfl
  | anchor xs ys a b beyond ih => simp [map, positions, ih]

/-- Where elements carry their positions, the anchors carry theirs. -/
theorem positions_of_zipIdx {olds : List α} {news : List β} (c : Anchoring (α × Nat) (β × Nat))
    {i k : Nat} (ho : c.olds = olds.zipIdx.drop i) (hn : c.news = news.zipIdx.drop k) :
    c.anchors.map (Prod.map Prod.snd Prod.snd) = c.positions i k := by
  induction c generalizing i k with
  | rest => rfl
  | anchor xs ys a b beyond ih =>
    obtain ⟨-, -, ha, hos⟩ := cut_at ho
    obtain ⟨-, -, hb, hns⟩ := cut_at hn
    rw [List.getElem?_zipIdx, Nat.zero_add] at ha hb
    obtain ⟨x, -, rfl⟩ := Option.map_eq_some_iff.mp ha
    obtain ⟨y, -, rfl⟩ := Option.map_eq_some_iff.mp hb
    exact congrArg _ (ih hos hns)

theorem anchors_zipIdx (identical : α → β → Bool) (olds : List α) (news : List β) :
    (between (fun x y => identical x.1 y.1) olds.zipIdx news.zipIdx).anchors.map
      (Prod.map Prod.snd Prod.snd) = (between identical olds news).positions 0 0 := by
  have hm := between_map identical (Prod.fst : α × Nat → α) (Prod.fst : β × Nat → β) olds.zipIdx
    news.zipIdx
  rw [List.zipIdx_map_fst, List.zipIdx_map_fst] at hm
  rw [hm, positions_map]
  exact positions_of_zipIdx _ (olds_between _ _ _) (news_between _ _ _)

end Anchoring

def Judge.identicalPositions (j : Judge α β) (l : Limits) (olds : List α) (news : List β) :
    List (Nat × Nat) :=
  ((j.comap Prod.fst Prod.fst).identicalPairs (j.alignPositions l olds news)).map
    (Prod.map Prod.snd Prod.snd)

/-- As many pairs of an alignment are identical as a strictly increasing sequence of identical
positions can have at most. They are the anchors, which the flat table has as well, so that no pair
made in a gap is identical. -/
theorem identical_pairs_longest (j : Judge α β) (l : Limits) (olds : List α) (news : List β) :
    Chain j.identical olds news (j.identicalPositions l olds news) ∧
      IsGreatest {n | ∃ ps, Chain j.identical olds news ps ∧ ps.length = n}
        (j.identicalPositions l olds news).length ∧
      j.identicalPositions l olds news = (Anchoring.between j.identical olds news).positions 0 0 ∧
      pinned? j.identical olds news = some (j.identicalPositions l olds news) ∧
      ∀ gap ∈ (Anchoring.between j.identical olds news).gaps, ∀ i k a b,
        .paired a b ∈ j.fill l i k gap.1 gap.2 → j.identical a b = false := by
  have hpairs : j.identicalPositions l olds news =
      (Anchoring.between (fun x y => j.identical x.1 y.1) olds.zipIdx news.zipIdx).anchors.map
        (Prod.map Prod.snd Prod.snd) :=
    congrArg _ ((j.comap Prod.fst Prod.fst).identicalPairs_align l olds.zipIdx news.zipIdx)
  have hp := hpairs.trans (Anchoring.anchors_zipIdx j.identical olds news)
  have hc : Chain j.identical olds news (j.identicalPositions l olds news) :=
    hpairs ▸ (Anchoring.common_anchors_between _ olds.zipIdx news.zipIdx).chain
  refine ⟨hc, ⟨⟨_, hc, rfl⟩, ?_⟩, hp, hp ▸ pinned_eq j.identical olds news, ?_⟩
  · rintro n ⟨ps, hps, rfl⟩
    obtain ⟨qs, hqs, rfl⟩ := hps.common
    rw [hpairs, List.length_map, List.length_map]
    exact Anchoring.length_le_anchors _ hqs
  · intro gap hg i k a b hab
    by_contra hi
    have hm : (a, b) ∈ j.identicalPairs (j.fill l i k gap.1 gap.2) :=
      List.mem_filter.mpr ⟨List.mem_filterMap.mpr ⟨_, hab, rfl⟩, by simpa using hi⟩
    rw [j.identicalPairs_gap l hg] at hm
    cases hm

end TreeDiff
