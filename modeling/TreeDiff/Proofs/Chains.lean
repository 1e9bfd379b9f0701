import TreeDiff.Proofs.Anchors

/-!
# Chains and the gaps between anchors

A chain that no other exceeds need not be the only one. One chain is no later than another when no
position in it is. The anchors are the only longest chain that is no later than they are just when
no gap has another partner for the anchor that closes it: a chain that is no later has to agree with
them in one position of each pair, and a pair can be moved on its own.
-/

set_option autoImplicit false

namespace TreeDiff

variable {α β : Type} {identical : α → β → Bool} {olds : List α} {news : List β}
  {ps qs : List (Nat × Nat)}

theorem chain_cons {p : Nat × Nat} :
    Chain identical olds news (p :: ps) ↔
      (∃ a b, olds[p.1]? = some a ∧ news[p.2]? = some b ∧ identical a b = true) ∧
        (∀ q ∈ ps, p.1 < q.1 ∧ p.2 < q.2) ∧ Chain identical olds news ps := by
  constructor
  · intro h
    obtain ⟨hp, hps⟩ := List.pairwise_cons.mp h.increasing
    obtain ⟨hi, his⟩ := List.forall_mem_cons.mp h.identical
    exact ⟨hi, hp, hps, his⟩
  · rintro ⟨hi, hp, h⟩
    exact ⟨List.pairwise_cons.mpr ⟨hp, h.increasing⟩, List.forall_mem_cons.mpr ⟨hi, h.identical⟩⟩

namespace Chain

theorem sublist (h : Chain identical olds news ps) (hs : qs.Sublist ps) :
    Chain identical olds news qs :=
  ⟨h.increasing.sublist hs, fun p hp => h.identical p (hs.subset hp)⟩

theorem append (h : Chain identical olds news ps) (h' : Chain identical olds news qs)
    (hb : ∀ p ∈ ps, ∀ q ∈ qs, p.1 < q.1 ∧ p.2 < q.2) : Chain identical olds news (ps ++ qs) :=
  ⟨List.pairwise_append.mpr ⟨h.increasing, h'.increasing, hb⟩,
    List.forall_mem_append.mpr ⟨h.identical, h'.identical⟩⟩

theorem in_range (h : Chain identical olds news ps) {p : Nat × Nat} (hp : p ∈ ps) :
    p.1 < olds.length ∧ p.2 < news.length := by
  obtain ⟨a, b, ha, hb, -⟩ := h.identical p hp
  exact ⟨(List.getElem?_eq_some_iff.mp ha).1, (List.getElem?_eq_some_iff.mp hb).1⟩

/-- The pairs that follow each take up a position on either side. -/
theorem room_ahead (h : Chain identical olds news (ps ++ qs)) {p : Nat × Nat} (hp : p ∈ ps) :
    p.1 + qs.length < olds.length ∧ p.2 + qs.length < news.length := by
  induction qs generalizing ps p with
  | nil => exact h.in_range (List.mem_append_left _ hp)
  | cons q qs ih =>
    have hc : Chain identical olds news ((ps ++ [q]) ++ qs) := by simpa using h
    have hq := ih hc (List.mem_append_right _ List.mem_cons_self)
    have hpq := (List.pairwise_append.mp h.increasing).2.2 p hp q List.mem_cons_self
    rw [List.length_cons]
    omega

/-- A chain in what is left of two lists, its positions counted from there. -/
theorem past (h : Chain identical olds news ps) {i k : Nat}
    (hb : ∀ p ∈ ps, i ≤ p.1 ∧ k ≤ p.2) :
    Chain identical (olds.drop i) (news.drop k) (ps.map fun p => (p.1 - i, p.2 - k)) where
  increasing := by
    refine List.pairwise_map.mpr (h.increasing.imp_of_mem ?_)
    intro p q hp hq hpq
    have hp := hb p hp
    have hq := hb q hq
    simp only
    omega
  identical := by
    intro q hq
    obtain ⟨p, hp, rfl⟩ := List.mem_map.mp hq
    obtain ⟨a, b, ha, hb', hab⟩ := h.identical p hp
    have hp := hb p hp
    refine ⟨a, b, ?_, ?_, hab⟩
    · rw [List.getElem?_drop, Nat.add_sub_cancel' hp.1, ha]
    · rw [List.getElem?_drop, Nat.add_sub_cancel' hp.2, hb']

/-- Where the lists may go on does not matter to a chain that ends before. -/
theorem take_iff {i k : Nat} (hb : ∀ p ∈ ps, p.1 < i ∧ p.2 < k) :
    Chain identical (olds.take i) (news.take k) ps ↔ Chain identical olds news ps := by
  have hr (p : Nat × Nat) (hp : p ∈ ps) :
      (olds.take i)[p.1]? = olds[p.1]? ∧ (news.take k)[p.2]? = news[p.2]? :=
    ⟨List.getElem?_take_of_lt (hb p hp).1, List.getElem?_take_of_lt (hb p hp).2⟩
  constructor
  · intro h
    refine ⟨h.increasing, fun p hp => ?_⟩
    rw [← (hr p hp).1, ← (hr p hp).2]
    exact h.identical p hp
  · intro h
    refine ⟨h.increasing, fun p hp => ?_⟩
    rw [(hr p hp).1, (hr p hp).2]
    exact h.identical p hp

theorem exists_common (h : Chain identical olds news ps) :
    ∃ cs, Common identical olds news cs ∧ cs.length = ps.length := by
  obtain ⟨cs, hcs, rfl⟩ := h.common
  refine ⟨cs.map (Prod.map Prod.fst Prod.fst), ⟨?_, ?_, ?_⟩, by simp⟩
  · simpa [Function.comp_def] using hcs.olds.map Prod.fst
  · simpa [Function.comp_def] using hcs.news.map Prod.fst
  · intro p hp
    obtain ⟨c, hc, rfl⟩ := List.mem_map.mp hp
    exact hcs.identical c hc

theorem length_le_anchors (h : Chain identical olds news ps) :
    ps.length ≤ (Anchoring.between identical olds news).anchors.length := by
  obtain ⟨cs, hcs, hl⟩ := h.exists_common
  rw [← hl]
  exact Anchoring.length_le_anchors identical hcs

/-- A chain that starts late is bounded by the cell it starts in. -/
theorem length_le_count (h : Chain identical olds news ps) {i k : Nat}
    (hb : ∀ p ∈ ps, i ≤ p.1 ∧ k ≤ p.2) :
    ps.length ≤ (Cell.solve identical (olds.drop i) (news.drop k)).count := by
  obtain ⟨cs, hcs, hl⟩ := (h.past hb).exists_common
  rw [List.length_map] at hl
  rw [← hl]
  exact hcs.length_le_count

end Chain

structure Longest (identical : α → β → Bool) (olds : List α) (news : List β)
    (ps : List (Nat × Nat)) : Prop where
  chain : Chain identical olds news ps
  length_le : ∀ qs, Chain identical olds news qs → qs.length ≤ ps.length

theorem Longest.length_eq (h : Longest identical olds news ps)
    (h' : Longest identical olds news qs) : ps.length = qs.length :=
  Nat.le_antisymm (h'.length_le ps h.chain) (h.length_le qs h'.chain)

theorem Longest.of_length (h : Longest identical olds news ps)
    (hq : Chain identical olds news qs) (hl : qs.length = ps.length) :
    Longest identical olds news qs :=
  ⟨hq, fun rs hr => hl ▸ h.length_le rs hr⟩

def NoLater (ps qs : List (Nat × Nat)) : Prop :=
  List.Forall₂ (fun p q => p.1 ≤ q.1 ∧ p.2 ≤ q.2) ps qs

theorem NoLater.refl (ps : List (Nat × Nat)) : NoLater ps ps :=
  List.forall₂_same.mpr fun _ _ => ⟨Nat.le_refl _, Nat.le_refl _⟩

def Earliest (identical : α → β → Bool) (olds : List α) (news : List β)
    (ps : List (Nat × Nat)) : Prop :=
  ∀ qs, Longest identical olds news qs → NoLater qs ps → qs = ps

namespace Anchoring

theorem length_positions (c : Anchoring α β) (i k : Nat) :
    (c.positions i k).length = c.anchors.length := by
  induction c generalizing i k with
  | rest xs ys => rfl
  | anchor xs ys a b beyond ih => rw [positions, anchors, List.length_cons, List.length_cons, ih]

/-- The positions of anchors are a chain that starts where the anchoring does. -/
theorem chain_positions {c : Anchoring α β} {i k : Nat} (ho : c.olds = olds.drop i)
    (hn : c.news = news.drop k) (hc : ∀ p ∈ c.anchors, identical p.1 p.2 = true) :
    Chain identical olds news (c.positions i k) ∧ ∀ p ∈ c.positions i k, i ≤ p.1 ∧ k ≤ p.2 := by
  induction c generalizing i k with
  | rest xs ys => exact ⟨⟨.nil, nofun⟩, nofun⟩
  | anchor xs ys a b beyond ih =>
    obtain ⟨-, -, ha, hos⟩ := cut_at ho
    obtain ⟨-, -, hb, hns⟩ := cut_at hn
    obtain ⟨hab, hc⟩ := List.forall_mem_cons.mp hc
    obtain ⟨hchain, hpast⟩ := ih hos hns hc
    refine ⟨chain_cons.mpr ⟨⟨a, b, ha, hb, hab⟩, ?_, hchain⟩, ?_⟩
    · intro p hp
      have := hpast p hp
      simp only
      omega
    · refine List.forall_mem_cons.mpr ⟨by simp, ?_⟩
      intro p hp
      have := hpast p hp
      omega

theorem longest_between (identical : α → β → Bool) (olds : List α) (news : List β) :
    Longest identical olds news ((between identical olds news).positions 0 0) where
  chain := (chain_positions (olds_between identical olds news) (news_between identical olds news)
    (common_anchors_between identical olds news).identical).1
  length_le qs hq := by
    rw [length_positions]
    exact hq.length_le_anchors

/-- No element of a gap is identical to the partner of its counterpart in the anchor that closes
the gap. -/
def Tight (identical : α → β → Bool) : Anchoring α β → Prop
  | rest _ _ => True
  | anchor olds news a b beyond =>
    (∀ x ∈ olds, identical x b = false) ∧ (∀ y ∈ news, identical a y = false) ∧
      beyond.Tight identical

theorem gap_between_differs {gap : List α × List β}
    (hg : gap ∈ (between identical olds news).gaps) {x : α} {y : β} (hx : x ∈ gap.1)
    (hy : y ∈ gap.2) : identical x y = false := by
  by_contra hi
  have hp : Common identical gap.1 gap.2 [(x, y)] :=
    ⟨List.singleton_sublist.mpr hx, List.singleton_sublist.mpr hy,
      List.forall_mem_singleton.mpr (by simpa using hi)⟩
  cases eq_nil_of_gap identical hg hp

/-- What stands in a gap that starts at position `i`. -/
theorem getElem?_gap {γ : Type} {ws xs beyond : List γ} {x : γ} {i n : Nat}
    (h : xs ++ x :: beyond = ws.drop i) (hn : n < xs.length) : ws[i + n]? = some xs[n] := by
  rw [← List.getElem?_drop, ← h, List.getElem?_append_left hn, List.getElem?_eq_getElem hn]

/-- What stands in a gap, or closes it. -/
theorem mem_gap_or_eq {γ : Type} {ws xs beyond : List γ} {x y : γ} {i n : Nat}
    (h : xs ++ x :: beyond = ws.drop i) (hi : i ≤ n) (hn : n ≤ i + xs.length)
    (hy : ws[n]? = some y) : y ∈ xs ∨ y = x ∧ n = i + xs.length := by
  obtain ⟨-, -, hx, -⟩ := cut_at h
  rcases Nat.lt_or_eq_of_le hn with hlt | rfl
  · have hg := getElem?_gap h (show n - i < xs.length by omega)
    rw [Nat.add_sub_cancel' hi, hy] at hg
    rw [Option.some.inj hg]
    exact .inl (List.getElem_mem _)
  · rw [hx] at hy
    exact .inr ⟨(Option.some.inj hy).symm, rfl⟩

/-- In tight gaps no pair can come sooner. -/
theorem eq_of_tight {c : Anchoring α β} {i k : Nat} (ho : c.olds = olds.drop i)
    (hn : c.news = news.drop k) (ht : c.Tight identical)
    (hg : ∀ gap ∈ c.gaps, ∀ x ∈ gap.1, ∀ y ∈ gap.2, identical x y = false)
    (hq : Chain identical olds news qs) (hb : ∀ q ∈ qs, i ≤ q.1 ∧ k ≤ q.2)
    (hl : NoLater qs (c.positions i k)) : qs = c.positions i k := by
  induction c generalizing i k qs with
  | rest xs ys => exact List.forall₂_nil_right_iff.mp hl
  | anchor xs ys a b beyond ih =>
    obtain ⟨-, -, -, hos⟩ := cut_at ho
    obtain ⟨-, -, -, hns⟩ := cut_at hn
    obtain ⟨htx, hty, ht⟩ := ht
    obtain ⟨hgap, hg⟩ := List.forall_mem_cons.mp hg
    cases hl with
    | @cons q _ qs _ hle hl =>
      obtain ⟨⟨x, y, hx, hy, hxy⟩, hlt, hq⟩ := chain_cons.mp hq
      obtain ⟨hqb, -⟩ := List.forall_mem_cons.mp hb
      have hqe : q = (i + xs.length, k + ys.length) := by
        rcases mem_gap_or_eq ho hqb.1 hle.1 hx with hold | ⟨rfl, hold⟩ <;>
          rcases mem_gap_or_eq hn hqb.2 hle.2 hy with hnew | ⟨rfl, hnew⟩
        · rw [hgap x hold y hnew] at hxy
          cases hxy
        · rw [htx x hold] at hxy
          cases hxy
        · rw [hty y hnew] at hxy
          cases hxy
        · exact Prod.ext hold hnew
      rw [positions, hqe]
      refine congrArg _ (ih hos hns ht hg hq ?_ hl)
      intro r hr
      have := hlt r hr
      rw [hqe] at this
      simp only at this
      omega

/-- A gap that is not tight lets a pair come sooner. -/
theorem tight_of_unique {c : Anchoring α β} {i k : Nat} (ho : c.olds = olds.drop i)
    (hn : c.news = news.drop k) (hc : ∀ p ∈ c.anchors, identical p.1 p.2 = true)
    (h : ∀ qs, Chain identical olds news qs → (∀ q ∈ qs, i ≤ q.1 ∧ k ≤ q.2) →
      NoLater qs (c.positions i k) → qs = c.positions i k) : c.Tight identical := by
  induction c generalizing i k with
  | rest xs ys => trivial
  | anchor xs ys a b beyond ih =>
    obtain ⟨-, hxs, ha, hos⟩ := cut_at ho
    obtain ⟨-, hys, hb, hns⟩ := cut_at hn
    obtain ⟨hab, hcs⟩ := List.forall_mem_cons.mp hc
    obtain ⟨hchain, hpast⟩ := chain_positions hos hns hcs
    have hmoved {p : Nat × Nat} {x : α} {y : β} (hx : olds[p.1]? = some x)
        (hy : news[p.2]? = some y) (hi : i ≤ p.1 ∧ k ≤ p.2)
        (hle : p.1 ≤ i + xs.length ∧ p.2 ≤ k + ys.length) (hxy : identical x y = true) :
        p = (i + xs.length, k + ys.length) := by
      have he := h (p :: beyond.positions (i + xs.length + 1) (k + ys.length + 1)) ?_ ?_
        (.cons hle (NoLater.refl _))
      · exact (List.cons.inj he).1
      · refine chain_cons.mpr ⟨⟨x, y, hx, hy, hxy⟩, ?_, hchain⟩
        intro q hq
        have := hpast q hq
        omega
      · refine List.forall_mem_cons.mpr ⟨hi, ?_⟩
        intro q hq
        have := hpast q hq
        omega
    refine ⟨?_, ?_, ?_⟩
    · intro x hx
      by_contra hi
      obtain ⟨n, hlt, rfl⟩ := List.getElem_of_mem hx
      have he := hmoved (p := (i + n, k + ys.length)) (getElem?_gap ho hlt) hb (by simp)
        (by simp; omega) (by simpa using hi)
      have := congrArg Prod.fst he
      simp only at this
      omega
    · intro y hy
      by_contra hi
      obtain ⟨n, hlt, rfl⟩ := List.getElem_of_mem hy
      have he := hmoved (p := (i + xs.length, k + n)) ha (getElem?_gap hn hlt) (by simp)
        (by simp; omega) (by simpa using hi)
      have := congrArg Prod.snd he
      simp only at this
      omega
    · refine ih hos hns hcs ?_
      intro qs hq hqb hl
      have he := h ((i + xs.length, k + ys.length) :: qs) ?_ ?_
        (.cons ⟨Nat.le_refl _, Nat.le_refl _⟩ hl)
      · exact (List.cons.inj he).2
      · refine chain_cons.mpr ⟨⟨a, b, ha, hb, hab⟩, ?_, hq⟩
        intro q hq
        have := hqb q hq
        simp only
        omega
      · refine List.forall_mem_cons.mpr ⟨by simp, ?_⟩
        intro q hq
        have := hqb q hq
        omega

/-- The anchors are the only longest chain that is no later than they are, just when all gaps are
tight. -/
theorem earliest_iff_tight (identical : α → β → Bool) (olds : List α) (news : List β) :
    Earliest identical olds news ((between identical olds news).positions 0 0) ↔
      (between identical olds news).Tight identical := by
  have hlongest := longest_between identical olds news
  have ho := olds_between identical olds news
  have hn := news_between identical olds news
  constructor
  · intro h
    refine tight_of_unique (i := 0) (k := 0) ho hn
      (common_anchors_between identical olds news).identical ?_
    intro qs hq _ hl
    exact h qs (hlongest.of_length hq hl.length_eq) hl
  · intro h qs hq hl
    exact eq_of_tight ho hn h (fun gap hg x hx y hy => gap_between_differs hg hx hy) hq.chain
      (fun q _ => ⟨Nat.zero_le _, Nat.zero_le _⟩) hl

end Anchoring

end TreeDiff
