import TreeDiff.Proofs.Relabelling
import TreeDiff.Proofs.Table

/-!
# Alignments by position

An alignment once more, its lists read at positions: each gap is a range of positions, and whatever
is read or cut out of range gives nothing at all. The alignment by positions always has a result,
and it is the alignment.
-/

set_option autoImplicit false

namespace TreeDiff

variable {α β : Type}

namespace Judge

variable (j : Judge α β) (l : Limits)

def seek? (olds : List α) (stop i : Nat) (b : β) : Option (Option Nat) := do
  let inReach ← (List.range' i (min stop ((i + l.window) % wordSize) - i)).mapM
    fun p => do return (← olds[p]?, p)
  return ((j.ranking b).choose l.kept (inReach.filter fun c => j.comparable c.1 b)).map Prod.snd

def partner? (olds : List α) (news : List β) (oldStop newStop i k : Nat) (b : β) :
    Option (Option (α × Nat)) := do
  match ← j.seek? l olds oldStop i b with
  | none => return none
  | some p =>
    let a ← olds[p]?
    return if (← j.flip.seek? l news newStop k a) = some k then some (a, p) else none

def fill? (olds : List α) (news : List β) (oldStop newStop i k : Nat) :
    Option (List (Entry α β)) :=
  if k < newStop then do
    let b ← news[k]?
    match ← j.partner? l olds news oldStop newStop i k b with
    | none => return .new b :: (← fill? olds news oldStop newStop i (k + 1))
    | some (a, p) =>
      return (← slice? olds i p).map .old ++ .paired a b ::
        (← fill? olds news oldStop newStop (p + 1) (k + 1))
  else do return (← slice? olds i oldStop).map .old
termination_by newStop - k

def fillAll? (olds : List α) (news : List β) :
    List (Nat × Nat) → Nat → Nat → Option (List (Entry α β))
  | [], i, k => j.fill? l olds news olds.length news.length i k
  | (p, q) :: anchors, i, k => do
    let gap ← j.fill? l olds news p q i k
    return gap ++ .paired (← olds[p]?) (← news[q]?) ::
      (← fillAll? olds news anchors (p + 1) (q + 1))

def align? (olds : List α) (news : List β) : Option (List (Entry α β)) := do
  j.fillAll? l olds news (← pinned? j.identical olds news) 0 0

end Judge

namespace Ranking

variable {γ : Type}

/-- Only the order of positions matters to a choice. -/
theorem choose_congr {r s : Ranking γ} (he : r.equivalent = s.equivalent)
    (hd : r.distance = s.distance) (hc : r.cost = s.cost)
    (hp : ∀ x y, r.position x < r.position y ↔ s.position x < s.position y)
    (kept : Nat) (xs : List γ) : r.choose kept xs = s.choose kept xs := by
  have hn : r.nearer = s.nearer := by
    funext x y
    have := hp y.2 x.2
    have hle : r.position x.2 ≤ r.position y.2 ↔ s.position x.2 ≤ s.position y.2 := by omega
    simp [nearer, hle]
  have hcheaper : r.cheaper = s.cheaper := by
    funext x y
    simp [cheaper, hc, hp]
  have hcheapest (ys : List γ) : r.cheapest ys = s.cheapest ys := by
    induction ys with
    | nil => rfl
    | cons y ys ih => rw [cheapest, cheapest, ih, hcheaper]
  have hs : r.shortlist kept xs = s.shortlist kept xs := by
    rw [shortlist, shortlist, hd, hn]
  rw [choose, choose, he, hs, hcheapest]

end Ranking

namespace Judge

variable (j : Judge α β) (l : Limits)

theorem reads_eq (olds : List α) {i n : Nat} (h : i + n ≤ olds.length) :
    (List.range' i n).mapM (fun p => do return (← olds[p]?, p)) =
      some (((olds.drop i).take n).zipIdx i) := by
  induction n generalizing i with
  | zero => simp
  | succ n ih =>
    rw [List.range'_succ, List.mapM_cons, ih (by omega), List.getElem?_eq_getElem (by omega),
      List.drop_eq_getElem_cons (by omega : i < olds.length), List.take_succ_cons,
      List.zipIdx_cons]
    rfl

theorem seek?_eq (olds : List α) {stop i : Nat} (b : β) (hi : i ≤ stop)
    (hs : stop ≤ olds.length) :
    j.seek? l olds stop i b =
      some ((j.seek l i ((olds.take stop).drop i) b).map fun c => i + c.2) := by
  have hreach : (olds.drop i).take (min stop ((i + l.window) % wordSize) - i) =
      ((olds.take stop).drop i).take (l.room i) := by
    rw [List.drop_take, List.take_take, Limits.room]
    congr 1
    omega
  have hshift (kept : Nat) (cs : List (α × Nat)) :
      ((j.ranking b).comap fun c => (c.1, i + c.2)).choose kept cs =
        (j.ranking b).choose kept cs := by
    refine Ranking.choose_congr (r := (j.ranking b).comap fun c => (c.1, i + c.2))
      (s := j.ranking b) rfl rfl rfl ?_ kept cs
    intro x y
    exact Nat.add_lt_add_iff_left
  rw [seek?, reads_eq olds (by omega), hreach, List.zipIdx_eq_map_add]
  simp only [Option.bind_eq_bind, Option.bind_some]
  rw [List.filter_map, Ranking.choose_map, hshift, seek, Option.map_map]
  rfl

theorem partner?_eq (olds : List α) (news : List β) {oldStop newStop i k : Nat} (b : β)
    (bs : List β) (ho : oldStop ≤ olds.length) (hn : newStop ≤ news.length) (hi : i ≤ oldStop)
    (hk : k ≤ newStop) (hb : (news.take newStop).drop k = b :: bs) :
    j.partner? l olds news oldStop newStop i k b =
      some ((j.partner l i k ((olds.take oldStop).drop i) b bs).map fun c => (c.1, i + c.2)) := by
  rw [partner?, partner, j.seek?_eq l olds b hi ho, Option.bind_eq_bind, Option.bind_some]
  cases hs : j.seek l i ((olds.take oldStop).drop i) b with
  | none => rfl
  | some c =>
    obtain ⟨a, p⟩ := c
    have ha : olds[i + p]? = some a := by
      have hp := j.getElem?_of_seek l hs
      rw [List.getElem?_drop, List.getElem?_take] at hp
      split at hp
      · exact hp
      · cases hp
    simp only [Option.map_some, ha, Option.bind_eq_bind, Option.bind_some,
      j.flip.seek?_eq l news a hk hn, hb]
    cases j.flip.seek l k (b :: bs) a with
    | none => rfl
    | some c => obtain ⟨_, _ | q⟩ := c <;> simp

/-- A gap filled at positions is the gap filled, from wherever both have come. -/
theorem fill?_eq (olds : List α) (news : List β) {oldStop newStop i k : Nat}
    (ho : oldStop ≤ olds.length) (hn : newStop ≤ news.length) (hi : i ≤ oldStop)
    (hk : k ≤ newStop) :
    j.fill? l olds news oldStop newStop i k =
      some (j.fill l i k ((olds.take oldStop).drop i) ((news.take newStop).drop k)) := by
  by_cases hkn : k < newStop
  · have hb : (news.take newStop).drop k = news[k] :: (news.take newStop).drop (k + 1) := by
      rw [List.drop_eq_getElem_cons (by simp; omega), List.getElem_take]
    rw [fill?, if_pos hkn, List.getElem?_eq_getElem (by omega), Option.bind_eq_bind,
      Option.bind_some, j.partner?_eq l olds news news[k] _ ho hn hi hk hb, hb, fill]
    cases hp : j.partner l i k ((olds.take oldStop).drop i) news[k] _ with
    | none =>
      have hskip := fill?_eq olds news ho hn hi hkn
      simp [hskip]
    | some c =>
      obtain ⟨a, p⟩ := c
      obtain ⟨hlt, -⟩ := List.getElem?_eq_some_iff.mp (j.getElem?_of_partner l hp)
      rw [List.length_drop, List.length_take] at hlt
      have hrest := fill?_eq olds news (i := i + p + 1) ho hn (by omega) hkn
      have hcut : (olds.take (i + p)).drop i = ((olds.take oldStop).drop i).take p := by
        rw [List.drop_take, List.drop_take, List.take_take]
        congr 1
        omega
      have hslice : slice? olds i (i + p) = some ((olds.take (i + p)).drop i) :=
        slice?_eq (Nat.le_add_right i p) (by omega)
      simp only [Option.map_some, Option.bind_eq_bind, Option.bind_some, hrest, hslice, hcut,
        List.drop_drop]
      rfl
  · have hend : (news.take newStop).drop k = [] := by
      apply List.drop_of_length_le
      rw [List.length_take]
      omega
    rw [fill?, if_neg hkn, slice?_eq hi ho, hend, fill]
    rfl
termination_by newStop - k

/-- From wherever both lists have come, the gaps and the anchors between them lie in range. -/
theorem fillAll?_eq (olds : List α) (news : List β) (c : Anchoring α β) {i k : Nat}
    (hi : i ≤ olds.length) (hk : k ≤ news.length) (ho : c.olds = olds.drop i)
    (hn : c.news = news.drop k) :
    j.fillAll? l olds news (c.positions i k) i k = some (j.fillAll l i k c) := by
  induction c generalizing i k with
  | rest xs ys =>
    obtain rfl : xs = olds.drop i := ho
    obtain rfl : ys = news.drop k := hn
    have h := j.fill?_eq l olds news (Nat.le_refl _) (Nat.le_refl _) hi hk
    rw [List.take_length, List.take_length] at h
    exact h
  | anchor xs ys a b beyond ih =>
    obtain ⟨hol, hog, hoa, hob⟩ := cut_at ho
    obtain ⟨hnl, hng, hnb, hnn⟩ := cut_at hn
    have hgap := j.fill?_eq l olds news (Nat.le_of_lt hol) (Nat.le_of_lt hnl)
      (Nat.le_add_right i xs.length) (Nat.le_add_right k ys.length)
    rw [Anchoring.positions, fillAll?, hgap, hog, hng, hoa, hnb, ih hol hnl hob hnn]
    rfl

/-- Whatever the judge answers, every position is in range. -/
theorem align?_eq (olds : List α) (news : List β) :
    j.align? l olds news = some (j.align l olds news) := by
  rw [align?, pinned_eq]
  exact j.fillAll?_eq l olds news _ (Nat.zero_le _) (Nat.zero_le _)
    (Anchoring.olds_between _ _ _) (Anchoring.news_between _ _ _)

end Judge

end TreeDiff
