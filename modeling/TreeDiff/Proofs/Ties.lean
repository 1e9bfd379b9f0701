import TreeDiff.Proofs.Chains
import TreeDiff.Proofs.Table

/-!
# Ties among longest chains

Where several chains are longest, the anchors before the common end take every new element as early
as any of these chains does. On the old side, and at the common end on either side, they need not:
an old element is skipped whenever that loses no anchor, and the common end is anchored before
anything else is looked at.
-/

set_option autoImplicit false

namespace TreeDiff

variable {α β : Type} {identical : α → β → Bool} {olds : List α} {news : List β}
  {ps qs : List (Nat × Nat)}

namespace Cell

theorem chain_solve (identical : α → β → Bool) (olds : List α) (news : List β) (i k : Nat) :
    Chain identical olds news
        ((solve identical (olds.drop i) (news.drop k)).anchoring.positions i k) ∧
      ∀ p ∈ (solve identical (olds.drop i) (news.drop k)).anchoring.positions i k,
        i ≤ p.1 ∧ k ≤ p.2 :=
  Anchoring.chain_positions (olds_solve identical _ _) (news_solve identical _ _)
    (Anchoring.anchors_solve identical _ _).2

theorem length_positions_solve (identical : α → β → Bool) (olds : List α) (news : List β)
    (i k : Nat) :
    ((solve identical olds news).anchoring.positions i k).length =
      (solve identical olds news).count := by
  rw [Anchoring.length_positions, (Anchoring.anchors_solve identical _ _).1]

/-- A common start is anchored cell by cell. -/
theorem solve_append {front : List α} {front' : List β}
    (h : List.Forall₂ (fun a b => identical a b = true) front front') (olds : List α)
    (news : List β) :
    (solve identical (front ++ olds) (front' ++ news)).anchoring =
      .before (front.zip front') (solve identical olds news).anchoring := by
  induction h with
  | nil => rfl
  | @cons a b _ _ hi _ ih =>
    rw [List.cons_append, List.cons_append, solve, combine, if_pos hi]
    exact congrArg (Anchoring.anchor [] [] a b) ih

end Cell

/-- Past a pair of a longest chain, the cells hold no more anchors than the chain has pairs. -/
theorem count_le_of_longest {done ahead : List (Nat × Nat)} {q : Nat × Nat}
    (h : Longest identical olds news (done ++ q :: ahead)) {i k : Nat} (hi : q.1 < i)
    (hk : q.2 < k) : (Cell.solve identical (olds.drop i) (news.drop k)).count ≤ ahead.length := by
  obtain ⟨hcells, hpast⟩ := Cell.chain_solve identical olds news i k
  have hdone : Chain identical olds news (done ++ [q]) :=
    h.chain.sublist ((List.singleton_sublist.mpr List.mem_cons_self).append_left done)
  have hq := (List.pairwise_append.mp h.chain.increasing).2.2
  have hmore := h.length_le _ (hdone.append hcells ?_)
  · simp only [List.length_append, List.length_cons, List.length_nil,
      Cell.length_positions_solve] at hmore
    omega
  · intro p hp r hr
    have hr := hpast r hr
    rcases List.mem_append.mp hp with hp | hp
    · have := hq p hp q List.mem_cons_self
      omega
    · obtain rfl := List.mem_singleton.mp hp
      omega

/-- Where a new element is skipped, a longest chain that comes this far does not use it: an old
element further on would leave too few pairs, and one further back room for one more. -/
theorem past_skipped {done ahead : List (Nat × Nat)}
    (h : Longest identical olds news (done ++ ahead)) {i k : Nat} (hi : i < olds.length)
    (hk : k < news.length) (hdiffer : identical olds[i] news[k] = false)
    (hcount : ahead.length = (Cell.solve identical (olds.drop i) (news.drop (k + 1))).count)
    (hfewer : (Cell.solve identical (olds.drop (i + 1)) (news.drop k)).count <
      (Cell.solve identical (olds.drop i) (news.drop (k + 1))).count)
    (hahead : ∀ p ∈ ahead, k ≤ p.2) : ∀ p ∈ ahead, k + 1 ≤ p.2 := by
  cases ahead with
  | nil => nofun
  | cons q ahead =>
    have hchain := h.chain.sublist (List.sublist_append_right done (q :: ahead))
    obtain ⟨⟨a, b, ha, hb, hab⟩, hlt, -⟩ := chain_cons.mp hchain
    have hkq := hahead q List.mem_cons_self
    have hne : q.2 ≠ k := by
      intro hq
      rcases Nat.lt_trichotomy q.1 i with hback | heq | hfurther
      · have hmore := count_le_of_longest h hback (show q.2 < k + 1 by omega)
        rw [List.length_cons] at hcount
        omega
      · rw [heq, List.getElem?_eq_getElem hi] at ha
        rw [hq, List.getElem?_eq_getElem hk] at hb
        rw [← Option.some.inj ha, ← Option.some.inj hb, hdiffer] at hab
        cases hab
      · have hfew : (q :: ahead).length ≤
            (Cell.solve identical (olds.drop (i + 1)) (news.drop k)).count := by
          refine hchain.length_le_count (List.forall_mem_cons.mpr ⟨⟨hfurther, hkq⟩, ?_⟩)
          intro p hp
          have := hlt p hp
          omega
        omega
    refine List.forall_mem_cons.mpr ⟨by omega, ?_⟩
    intro p hp
    have := hlt p hp
    omega

/-- From any cell on, what is left of a longest chain is nowhere ahead of the anchors on the new
side. -/
theorem new_first (done : List (Nat × Nat)) {ahead : List (Nat × Nat)}
    (h : Longest identical olds news (done ++ ahead)) (i k : Nat)
    (hcount : ahead.length = (Cell.solve identical (olds.drop i) (news.drop k)).count)
    (hahead : ∀ p ∈ ahead, k ≤ p.2) :
    List.Forall₂ (fun p q => p.2 ≤ q.2)
      ((Cell.solve identical (olds.drop i) (news.drop k)).anchoring.positions i k) ahead := by
  have hlength := Cell.length_positions_solve identical (olds.drop i) (news.drop k) i k
  by_cases hi : i < olds.length
  · by_cases hk : k < news.length
    · rw [Cell.solve_drop identical hi hk, Cell.combine] at hcount ⊢
      cases hdiffer : identical olds[i] news[k] with
      | true =>
        simp only [hdiffer, if_true] at hcount ⊢
        cases ahead with
        | nil => cases hcount
        | cons q ahead =>
          obtain ⟨hq, -⟩ := List.forall_mem_cons.mp hahead
          refine .cons hq (new_first (done ++ [q]) (by simpa using h) (i + 1) (k + 1)
            (Nat.succ.inj hcount) ?_)
          intro p hp
          have hc := h.chain.sublist (List.sublist_append_right done (q :: ahead))
          have := (chain_cons.mp hc).2.1 p hp
          omega
      | false =>
        simp only [hdiffer, Bool.false_eq_true, if_false] at hcount ⊢
        split at hcount
        · next hle =>
          rw [if_pos hle, Anchoring.positions_skipOld]
          exact new_first done h (i + 1) k hcount hahead
        · next hle =>
          rw [if_neg hle, Anchoring.positions_skipNew]
          exact new_first done h i (k + 1) hcount
            (past_skipped h hi hk hdiffer hcount (Nat.lt_of_not_le hle) hahead)
    · rw [List.drop_of_length_le (by omega : news.length ≤ k), Cell.count_solve_nil] at hcount
      rw [List.drop_of_length_le (by omega : news.length ≤ k), Cell.positions_solve_nil,
        List.length_eq_zero_iff.mp hcount]
      exact .nil
  · rw [List.drop_of_length_le (by omega : olds.length ≤ i), Cell.solve] at hcount hlength ⊢
    rw [List.length_eq_zero_iff.mp hcount, List.length_eq_zero_iff.mp hlength]
    exact .nil
termination_by olds.length - i + (news.length - k)

def closing (identical : α → β → Bool) (olds : List α) (news : List β) : Nat :=
  commonLength identical (olds.drop (commonLength identical olds news)).reverse
    (news.drop (commonLength identical olds news)).reverse

theorem common_start (identical : α → β → Bool) (olds : List α) (news : List β) :
    List.Forall₂ (fun a b => identical a b = true)
      (olds.take (commonLength identical olds news))
      (news.take (commonLength identical olds news)) := by
  have hle := commonLength_le identical olds news
  refine List.forall₂_iff_zip.mpr ⟨by simp; omega, ?_⟩
  intro a b hab
  have hc := Anchoring.identical_common identical olds news
  rw [Anchoring.common_eq] at hc
  refine hc (a, b) ?_
  rwa [List.zip_eq_zipWith, List.take_zipWith]

/-- The anchors are those of the cells up to the common end, and then the common end. -/
theorem positions_closing (identical : α → β → Bool) (olds : List α) (news : List β) :
    (Anchoring.between identical olds news).positions 0 0 =
      (Cell.solve identical (olds.take (olds.length - closing identical olds news))
          (news.take (news.length - closing identical olds news))).anchoring.positions 0 0 ++
        diagonal (closing identical olds news) (olds.length - closing identical olds news)
          (news.length - closing identical olds news) := by
  have hstart := commonLength_le identical olds news
  have hclose := commonLength_le identical (olds.drop (commonLength identical olds news)).reverse
    (news.drop (commonLength identical olds news)).reverse
  rw [← closing] at hclose
  simp only [List.length_reverse, List.length_drop] at hclose
  have hsolve := common_start identical olds news
  rw [positions_between identical olds news _ _ rfl rfl, ← closing, ← List.append_assoc]
  generalize commonLength identical olds news = start at *
  generalize closing identical olds news = close at *
  have ho : olds.length - close = start + (olds.length - start - close) := by omega
  have hn : news.length - close = start + (news.length - start - close) := by omega
  rw [ho, hn, List.take_add, List.take_add, Cell.solve_append hsolve, Anchoring.positions_before,
    List.length_zip, List.length_take, List.length_take, Nat.min_eq_left hstart.1,
    Nat.min_eq_left hstart.2, Nat.min_self, Nat.zero_add]

/-- Without its last pairs, as many as there are anchors at the common end, a longest chain is one
of what stands before the common end. -/
theorem longest_before_closing {ps qs : List (Nat × Nat)}
    (h : Longest identical olds news (ps ++ qs)) (hl : qs.length = closing identical olds news) :
    Longest identical (olds.take (olds.length - closing identical olds news))
      (news.take (news.length - closing identical olds news)) ps where
  chain := by
    refine (Chain.take_iff ?_).mpr (h.chain.sublist (List.sublist_append_left ps qs))
    intro p hp
    have := h.chain.room_ahead hp
    omega
  length_le rs hr := by
    have hclosing := (Anchoring.longest_between identical olds news).chain
    rw [positions_closing] at hclosing
    have hrange (p : Nat × Nat) (hp : p ∈ rs) :
        p.1 < olds.length - closing identical olds news ∧
          p.2 < news.length - closing identical olds news := by
      have := hr.in_range hp
      rw [List.length_take, List.length_take] at this
      omega
    have hmore := h.length_le _ (((Chain.take_iff hrange).mp hr).append
      (hclosing.sublist (List.sublist_append_right _ _)) ?_)
    · rw [List.length_append, List.length_append, diagonal, List.length_map, List.length_range]
        at hmore
      omega
    · intro p hp q hq
      have := hrange p hp
      obtain ⟨d, -, rfl⟩ := List.mem_map.mp hq
      simp only
      omega

/-- Before the common end, no longest chain takes a new element sooner than the anchors do. -/
theorem news_first {qs : List (Nat × Nat)} (h : Longest identical olds news qs) :
    let ps := (Anchoring.between identical olds news).positions 0 0
    let n := ps.length - closing identical olds news
    List.Forall₂ (fun p q => p.2 ≤ q.2) (ps.take n) (qs.take n) := by
  intro ps n
  have hlength : ps.length = qs.length :=
    (Anchoring.longest_between identical olds news).length_eq h
  have hdiagonal (k i j : Nat) : (diagonal k i j).length = k := by
    rw [diagonal, List.length_map, List.length_range]
  have hsplit : ps = _ := positions_closing identical olds news
  have htotal := congrArg List.length hsplit
  rw [List.length_append, hdiagonal] at htotal
  have hq : Longest identical olds news (qs.take n ++ qs.drop n) := by
    rwa [List.take_append_drop]
  have hbefore := longest_before_closing hq (by rw [List.length_drop]; omega)
  have hcount : (qs.take n).length = (Cell.solve identical
      (olds.take (olds.length - closing identical olds news))
      (news.take (news.length - closing identical olds news))).count := by
    rw [List.length_take, ← Cell.length_positions_solve identical _ _ 0 0]
    omega
  have hfirst := new_first [] hbefore 0 0 hcount fun _ _ => Nat.zero_le _
  rw [hsplit, List.take_left' (by omega)]
  exact hfirst

/-- The anchors, which the flat table has as well, are a longest chain. Before the common end none
takes a new element sooner; and none but they themselves is no later, just when no gap holds another
partner for the anchor that closes it. -/
theorem anchors_among_longest (identical : α → β → Bool) (olds : List α) (news : List β) :
    let ps := (Anchoring.between identical olds news).positions 0 0
    let n := ps.length - closing identical olds news
    pinned? identical olds news = some ps ∧ Longest identical olds news ps ∧
      (∀ qs, Longest identical olds news qs →
        List.Forall₂ (fun p q => p.2 ≤ q.2) (ps.take n) (qs.take n)) ∧
      (Earliest identical olds news ps ↔ (Anchoring.between identical olds news).Tight identical) :=
  ⟨pinned_eq identical olds news, Anchoring.longest_between identical olds news,
    fun _ h => news_first h, Anchoring.earliest_iff_tight identical olds news⟩

/-- The first `p` and the first `s` of the new list would make a longest chain too, but the anchors
skip an old `p` that they can spare, and take the `s` at the common end. -/
theorem repeated_letters_not_earliest :
    let olds := ['p', 'p', 'q', 's']
    let news := ['x', 'p', 's', 'y', 's']
    let ps := (Anchoring.between (· == ·) olds news).positions 0 0
    ps = [(1, 1), (3, 4)] ∧ Longest (· == ·) olds news [(0, 1), (3, 2)] ∧
      NoLater [(0, 1), (3, 2)] ps ∧ ¬ Earliest (· == ·) olds news ps := by
  intro olds news ps
  have hps : ps = [(1, 1), (3, 4)] := by decide
  have hlongest : Longest (· == ·) olds news ps := Anchoring.longest_between _ olds news
  have hchain : Chain (· == ·) olds news [(0, 1), (3, 2)] := by
    refine ⟨by decide, List.forall_mem_cons.mpr ⟨?_, List.forall_mem_singleton.mpr ?_⟩⟩
    · exact ⟨'p', 'p', rfl, rfl, rfl⟩
    · exact ⟨'s', 's', rfl, rfl, rfl⟩
  have hother := hlongest.of_length hchain (by rw [hps]; rfl)
  have hsooner : NoLater [(0, 1), (3, 2)] ps := by
    rw [hps]
    exact .cons (by decide) (.cons (by decide) .nil)
  refine ⟨hps, hother, hsooner, ?_⟩
  intro h
  have he := h _ hother hsooner
  rw [hps] at he
  exact absurd he (by decide)

end TreeDiff
