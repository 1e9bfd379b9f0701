import TreeDiff.Proofs.Partners

/-!
# The shortlist

The choice among candidates without sorting them. A candidate is on the shortlist exactly when
fewer others are nearer than the shortlist has room for, nearness being a matter of distance and
then of position. What is chosen is the first candidate that is equivalent or, when none is, the one
of least cost on the shortlist, and of those the first.
-/

set_option autoImplicit false

namespace TreeDiff

/-- In an increasing list, an element is among the first `k` when fewer than `k` are smaller. -/
theorem mem_take_iff_countP {α β : Type} [LinearOrder β] (f : α → β) {xs : List α}
    (h : xs.Pairwise fun x y => f x < f y) {x : α} (hx : x ∈ xs) (k : Nat) :
    x ∈ xs.take k ↔ xs.countP (fun y => f y < f x) < k := by
  induction xs generalizing k with
  | nil => cases hx
  | cons y xs ih =>
    obtain ⟨hy, hxs⟩ := List.pairwise_cons.mp h
    cases k with
    | zero => simp
    | succ k =>
      rw [List.take_succ_cons, List.mem_cons, List.countP_cons]
      by_cases he : x = y
      · subst he
        have hnone : xs.countP (fun z => f z < f x) = 0 :=
          List.countP_eq_zero.mpr fun z hz => by simpa using (hy z hz).le
        simp [hnone]
      · have hm := (List.mem_cons.mp hx).resolve_left he
        have hlt := hy x hm
        simp [he, hlt, ih hxs hm]

namespace Ranking

variable {γ : Type} (r : Ranking γ)

def place (d : Distance) (x : γ) : Int ×ₗ Nat := toLex (d.rank, r.position x)

def closer (x y : γ) : Bool :=
  match r.distance x, r.distance y with
  | some d, some e => r.place d x < r.place e y
  | _, _ => false

/-- The candidates that are left to choose from when none is equivalent: all, when a distance is not
known, and otherwise those than which fewer than `kept` are closer. -/
def contenders (kept : Nat) (xs : List γ) : List γ :=
  if ∀ x ∈ xs, (r.distance x).isSome then
    xs.filter fun x => xs.countP (r.closer · x) < kept
  else xs

theorem nearer_iff {p q : Distance × γ} :
    r.nearer p q = true ↔ r.place p.1 p.2 ≤ r.place q.1 q.2 := by
  simp [nearer, place, Prod.Lex.toLex_le_toLex]

theorem distance_of_mapM {xs : List γ} {ranked : List (Distance × γ)}
    (h : xs.mapM (fun c => (r.distance c).map fun d => (d, c)) = some ranked) :
    ∀ p ∈ ranked, r.distance p.2 = some p.1 := by
  induction xs generalizing ranked with
  | nil =>
    cases h
    nofun
  | cons x xs ih =>
    rw [List.mapM_cons] at h
    cases hx : r.distance x with
    | none => simp [hx] at h
    | some d =>
      cases hs : xs.mapM fun c => (r.distance c).map fun d => (d, c) with
      | none => simp [hx, hs] at h
      | some rest =>
        simp only [hx, hs, Option.map_some, Option.bind_eq_bind, Option.bind_some] at h
        cases h
        exact List.forall_mem_cons.mpr ⟨hx, ih hs⟩

theorem exists_unknown_of_mapM {xs : List γ}
    (h : xs.mapM (fun c => (r.distance c).map fun d => (d, c)) = none) :
    ∃ x ∈ xs, r.distance x = none := by
  induction xs with
  | nil => cases h
  | cons x xs ih =>
    rw [List.mapM_cons] at h
    cases hx : r.distance x with
    | none => exact ⟨x, List.mem_cons_self, hx⟩
    | some d =>
      cases hs : xs.mapM fun c => (r.distance c).map fun d => (d, c) with
      | none =>
        obtain ⟨y, hy, hd⟩ := ih hs
        exact ⟨y, List.mem_cons_of_mem x hy, hd⟩
      | some rest => simp [hx, hs] at h

theorem closer_of_known {p q : Distance × γ} (hp : r.distance p.2 = some p.1)
    (hq : r.distance q.2 = some q.1) :
    r.closer p.2 q.2 = decide (r.place p.1 p.2 < r.place q.1 q.2) := by
  rw [closer, hp, hq]

/-- Sorted by distance and position, candidates at different positions are in increasing order. -/
theorem pairwise_place {ranked : List (Distance × γ)}
    (h : (ranked.map Prod.snd).Pairwise fun x y => r.position x < r.position y) :
    (ranked.mergeSort r.nearer).Pairwise fun p q => r.place p.1 p.2 < r.place q.1 q.2 := by
  have hsorted : (ranked.mergeSort r.nearer).Pairwise fun p q => r.nearer p q = true := by
    apply List.pairwise_mergeSort
    · intro p q s hpq hqs
      rw [nearer_iff] at hpq hqs ⊢
      exact hpq.trans hqs
    · intro p q
      rw [Bool.or_eq_true, nearer_iff, nearer_iff]
      exact LinearOrder.le_total _ _
  have hdistinct : ranked.Pairwise fun p q => r.position p.2 ≠ r.position q.2 :=
    (List.pairwise_map.mp h).imp fun hpq => hpq.ne
  have hdistinct := ((List.mergeSort_perm ranked r.nearer).pairwise_iff fun hpq => hpq.symm).mpr
    hdistinct
  refine (hsorted.and hdistinct).imp fun {p q} hpq => ?_
  refine lt_of_le_of_ne (r.nearer_iff.mp hpq.1) fun he => hpq.2 ?_
  exact congrArg Prod.snd (toLex_inj.mp he)

/-- A ranked candidate is kept when few enough of the others are closer. -/
theorem mem_take_mergeSort_iff (kept : Nat) {ranked : List (Distance × γ)}
    (hd : ∀ p ∈ ranked, r.distance p.2 = some p.1)
    (h : (ranked.map Prod.snd).Pairwise fun x y => r.position x < r.position y)
    {p : Distance × γ} (hp : p ∈ ranked) :
    p ∈ (ranked.mergeSort r.nearer).take kept ↔
      (ranked.map Prod.snd).countP (r.closer · p.2) < kept := by
  have hsorted := List.mergeSort_perm ranked r.nearer
  have hcount : (ranked.map Prod.snd).countP (r.closer · p.2) =
      (ranked.mergeSort r.nearer).countP fun q => r.place q.1 q.2 < r.place p.1 p.2 := by
    rw [List.countP_map, hsorted.countP_eq]
    apply List.countP_congr
    intro q hq
    rw [Function.comp, r.closer_of_known (hd q hq) (hd p hp)]
  rw [hcount]
  exact mem_take_iff_countP (fun q => r.place q.1 q.2) (r.pairwise_place h)
    (List.mem_mergeSort.mpr hp) kept

/-- What the shortlist keeps, without sorting. -/
theorem mem_shortlist_iff (kept : Nat) {xs : List γ}
    (h : xs.Pairwise fun x y => r.position x < r.position y) {x : γ} :
    x ∈ r.shortlist kept xs ↔ x ∈ r.contenders kept xs := by
  rw [shortlist, contenders]
  split
  · next hr =>
    obtain ⟨y, hy, hd⟩ := r.exists_unknown_of_mapM hr
    have hn : ¬∀ x ∈ xs, (r.distance x).isSome := fun hk => by simpa [hd] using hk y hy
    rw [if_neg hn]
  · next ranked hr =>
    have hd := r.distance_of_mapM hr
    obtain rfl := snd_of_mapM r.distance hr
    have hk : ∀ x ∈ ranked.map Prod.snd, (r.distance x).isSome := by
      intro x hx
      obtain ⟨p, hp, rfl⟩ := List.mem_map.mp hx
      rw [hd p hp]
      rfl
    rw [if_pos hk, List.mem_filter, decide_eq_true_iff]
    constructor
    · intro hx
      obtain ⟨p, hp, rfl⟩ := List.mem_map.mp hx
      have hm := List.mem_mergeSort.mp (List.mem_of_mem_take hp)
      exact ⟨List.mem_map_of_mem hm, (r.mem_take_mergeSort_iff kept hd h hm).mp hp⟩
    · rintro ⟨hx, hlt⟩
      obtain ⟨p, hp, rfl⟩ := List.mem_map.mp hx
      exact List.mem_map_of_mem ((r.mem_take_mergeSort_iff kept hd h hp).mpr hlt)

end Ranking

/-- What is chosen among candidates at increasing positions. There is no choice exactly when there
is no candidate. An equivalent candidate is chosen before any other, and the first of them before
the rest; otherwise the choice is one of the contenders, and none of them is cheaper, or as cheap
and at a lower position. -/
theorem choice_among_contenders {γ : Type} (r : Ranking γ) (l : Limits) {xs : List γ}
    (h : xs.Pairwise fun x y => r.position x < r.position y) :
    (r.choose l.kept xs = none ↔ xs = []) ∧
      ((∃ x ∈ xs, r.equivalent x = true) →
        ∃ x ∈ xs, r.choose l.kept xs = some x ∧ r.equivalent x = true ∧
          ∀ y ∈ xs, r.equivalent y = true → r.position x ≤ r.position y) ∧
      (xs ≠ [] → (∀ x ∈ xs, r.equivalent x = false) →
        ∃ x ∈ r.contenders l.kept xs, r.choose l.kept xs = some x ∧
          ∀ y ∈ r.contenders l.kept xs, r.key x ≤ r.key y) := by
  refine ⟨r.choose_eq_none l.kept_pos, ?_, ?_⟩
  · rintro ⟨c, hc, he⟩
    obtain ⟨x, hx⟩ := Option.isSome_iff_exists.mp (List.find?_isSome.mpr ⟨c, hc, he⟩)
    exact ⟨x, List.mem_of_find?_eq_some hx, r.choose_of_equivalent hx, List.find?_some hx,
      fun y hy hey => position_le_of_find? r.position h hx hy hey⟩
  · intro hne hn
    obtain ⟨x, hx⟩ := Option.ne_none_iff_exists'.mp (mt (r.choose_eq_none l.kept_pos).mp hne)
    have hfind : xs.find? r.equivalent = none := List.find?_eq_none.mpr (by simpa using hn)
    have hleast := hx
    rw [Ranking.choose, hfind] at hleast
    refine ⟨x, (r.mem_shortlist_iff l.kept h).mp (r.mem_of_cheapest hleast), hx, ?_⟩
    intro y hy
    exact r.key_cheapest_le hleast y ((r.mem_shortlist_iff l.kept h).mpr hy)

/-- Candidates at `-0` come before one at `0` and one whose distance is not a number, which would be
cheaper; an equivalent one is chosen all the same. -/
theorem signed_zeros_choice :
    let distance : Nat → Option Distance
      | 1 => some (.ofBits 0x7ff8000000000000)
      | 3 => some (.ofBits 0)
      | _ => some (.ofBits 0x8000000000000000)
    let r : Ranking Nat := ⟨id, fun _ => false, distance, fun i => if i = 1 then 0 else 5⟩
    let s : Ranking Nat := { r with equivalent := fun i => i % 2 = 1 }
    let l : Limits := { shortlist := 2 }
    let xs := [1, 3, 4, 6]
    xs.Pairwise (· < ·) ∧ r.contenders l.kept xs = [4, 6] ∧ r.choose l.kept xs ≠ none ∧
      (∃ x ∈ r.contenders l.kept xs, r.choose l.kept xs = some x ∧
        ∀ y ∈ r.contenders l.kept xs, r.key x ≤ r.key y) ∧
      ∃ x ∈ xs, s.choose l.kept xs = some x ∧ s.equivalent x = true ∧
        ∀ y ∈ xs, s.equivalent y = true → s.position x ≤ s.position y := by
  intro distance r s l xs
  have hxs : xs.Pairwise (· < ·) := by decide
  obtain ⟨hnone, -, hleast⟩ := choice_among_contenders r l hxs
  obtain ⟨-, hequivalent, -⟩ := choice_among_contenders s l hxs
  have hne : xs ≠ [] := by decide
  exact ⟨hxs, by decide, mt hnone.mp hne, hleast hne fun _ _ => rfl,
    hequivalent ⟨1, by decide, by decide⟩⟩

end TreeDiff
