import TreeDiff.Proofs.Turns

/-!
# Partners

A new element has a partner in its turn when the best old element in reach has no better new element
to look back to. The last new element of a gap that has anything comparable in reach is looked back
to by whatever it chooses, so it has a partner; and an equivalent element is always looked back to,
since nothing that comes later in the gap is preferred to it.
-/

set_option autoImplicit false

namespace TreeDiff

/-- Of elements at increasing positions the first that is found stands before all others. -/
theorem position_le_of_find? {γ : Type} (position : γ → Nat) {xs : List γ} {p : γ → Bool}
    {x y : γ} (ho : xs.Pairwise fun x y => position x < position y) (hf : xs.find? p = some x)
    (hy : y ∈ xs) (hp : p y = true) : position x ≤ position y := by
  obtain ⟨-, first, beyond, rfl, hfirst⟩ := List.find?_eq_some_iff_append.mp hf
  rcases List.mem_append.mp hy with hy | hy
  · have := hfirst y hy
    simp_all
  · rcases List.mem_cons.mp hy with rfl | hy
    · exact Nat.le_refl _
    · exact (List.rel_of_pairwise_cons (List.pairwise_append.mp ho).2.1 hy).le

namespace Ranking

variable {γ : Type} (r : Ranking γ)

theorem shortlist_eq_nil {kept : Nat} {xs : List γ} (hk : 0 < kept) :
    r.shortlist kept xs = [] ↔ xs = [] := by
  rw [shortlist]
  split
  · rfl
  · next ranked hr =>
    rw [← snd_of_mapM r.distance hr, List.map_eq_nil_iff, List.map_eq_nil_iff, List.take_eq_nil_iff,
      ← List.length_eq_zero_iff (l := ranked.mergeSort _), List.length_mergeSort,
      List.length_eq_zero_iff]
    exact or_iff_right hk.ne'

theorem choose_eq_none {kept : Nat} {xs : List γ} (hk : 0 < kept) :
    r.choose kept xs = none ↔ xs = [] := by
  rw [choose]
  split
  · next x hx =>
    have := List.mem_of_find?_eq_some hx
    simp only [reduceCtorEq, false_iff]
    rintro rfl
    cases this
  · rw [r.cheapest_eq_none, r.shortlist_eq_nil hk]

theorem choose_of_equivalent {kept : Nat} {xs : List γ} {x : γ}
    (h : xs.find? r.equivalent = some x) : r.choose kept xs = some x := by
  rw [choose, h]

end Ranking

namespace Judge

variable {α β : Type} {j : Judge α β} {l : Limits} {i k : Nat}

theorem comparable_of_seek {olds : List α} {b : β} {a : α} {d : Nat}
    (h : j.seek l i olds b = some (a, d)) :
    (olds.take (l.room i))[d]? = some a ∧ j.comparable a b = true := by
  have hm := List.mem_filter.mp ((j.ranking b).mem_of_choose h)
  exact ⟨List.mk_mem_zipIdx_iff_getElem?.mp hm.1, hm.2⟩

def akin (j : Judge α β) (a : α) (b : β) : Bool := j.comparable a b && j.equivalent a b

/-- The first of kin in reach is chosen, whatever else is. -/
theorem seek_akin {olds before beyond : List α} {a : α} {b : β}
    (h : olds.take (l.room i) = before ++ a :: beyond) (ha : j.akin a b = true)
    (hb : ∀ x ∈ before, j.akin x b = false) :
    j.seek l i olds b = some (a, before.length) := by
  apply (j.ranking b).choose_of_equivalent
  rw [List.find?_filter]
  simp only [Bool.decide_and, Bool.decide_eq_true]
  rw [h, List.find?_eq_some_iff_append]
  refine ⟨ha, before.zipIdx, beyond.zipIdx (before.length + 1), ?_, ?_⟩
  · rw [List.zipIdx_append, Nat.zero_add, List.zipIdx_cons]
  · rintro ⟨x, d⟩ hx
    have hx := hb x (List.mem_of_getElem? (List.mk_mem_zipIdx_iff_getElem?.mp hx))
    exact congrArg Bool.not hx

theorem seeks_of_partner {olds : List α} {b : β} {bs : List β} {a : α} {d : Nat}
    (h : j.partner l i k olds b bs = some (a, d)) :
    j.seek l i olds b = some (a, d) ∧ j.flip.seek l k (b :: bs) a = some (b, 0) := by
  unfold partner at h
  split at h
  · cases h
  · next hs =>
    split at h <;> cases h
    next c hf =>
    obtain rfl : b = c := Option.some.inj (j.flip.getElem?_of_seek l hf)
    exact ⟨hs, hf⟩

theorem partner_of_seeks {olds : List α} {b : β} {bs : List β} {a : α} {d : Nat}
    (hs : j.seek l i olds b = some (a, d)) (hf : j.flip.seek l k (b :: bs) a = some (b, 0)) :
    j.partner l i k olds b bs = some (a, d) := by
  simp [partner, hs, hf]

/-- Of two that are of kin each looks back to the other, whatever else is in reach of it. -/
theorem partner_akin {olds : List α} {a : α} {b : β} {d : Nat} (bs : List β)
    (hk : 0 < l.room k) (hs : j.seek l i olds b = some (a, d)) (ha : j.akin a b = true) :
    j.partner l i k olds b bs = some (a, d) := by
  have hf : (b :: bs).take (l.room k) = [] ++ b :: bs.take (l.room k - 1) := List.take_cons hk
  exact partner_of_seeks hs (j.flip.seek_akin hf ha nofun)

/-- With kin in reach, a turn ends in a pair with the first of kin. -/
theorem Decides.akin {xs passed before beyond : List α} {a : α} {b : β} {ys : List β}
    {e : Entry α β} {rest : List (Entry α β)} (h : j.Decides l i k xs b ys passed e rest)
    (hk : 0 < l.room k) (hx : xs.take (l.room i) = before ++ a :: beyond)
    (ha : j.akin a b = true) (hb : ∀ x ∈ before, j.akin x b = false) : e = .paired a b := by
  have hp := partner_akin ys hk (seek_akin hx ha hb) ha
  cases h with
  | alone hn =>
    rw [hn] at hp
    cases hp
  | taken hn =>
    rw [hn] at hp
    cases hp
    rfl

end Judge

end TreeDiff
