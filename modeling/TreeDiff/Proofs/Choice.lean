import Mathlib.Data.Prod.Lex
import Mathlib.Data.List.Perm.Basic
import TreeDiff.Proofs.Relabelling

/-!
# The choice among candidates

The cheapest candidate is the one with the least key, its cost and then its position. So it does not
depend on the order in which candidates are listed, and a shortlist that has room for all of them
changes nothing; nor does one that cannot be drawn up, for want of a distance.
-/

set_option autoImplicit false

namespace TreeDiff

namespace Ranking

variable {γ : Type} (r : Ranking γ)

def key (x : γ) : Nat ×ₗ Nat := toLex (r.cost x, r.position x)

theorem cheaper_iff {x y : γ} : r.cheaper x y = true ↔ r.key x < r.key y := by
  simp [cheaper, key, Prod.Lex.toLex_lt_toLex]

theorem position_eq_of_key {x y : γ} (h : r.key x = r.key y) : r.position x = r.position y := by
  have h : (r.cost x, r.position x) = (r.cost y, r.position y) := toLex_inj.mp h
  exact congrArg Prod.snd h

theorem cheapest_eq_none {xs : List γ} : r.cheapest xs = none ↔ xs = [] := by
  cases xs with
  | nil => simp [cheapest]
  | cons x xs =>
    rw [cheapest]
    cases r.cheapest xs with
    | none => simp
    | some y => simp only; split <;> simp

theorem key_cheapest_le {xs : List γ} {x : γ} (h : r.cheapest xs = some x) :
    ∀ y ∈ xs, r.key x ≤ r.key y := by
  induction xs generalizing x with
  | nil => nofun
  | cons z xs ih =>
    rw [cheapest] at h
    cases hc : r.cheapest xs with
    | none =>
      rw [hc] at h
      cases h
      obtain rfl := r.cheapest_eq_none.mp hc
      simp
    | some y =>
      simp only [hc] at h
      have hy := ih hc
      split at h
      · next hlt =>
        cases h
        exact List.forall_mem_cons.mpr ⟨(r.cheaper_iff.mp hlt).le, hy⟩
      · next hle =>
        cases h
        have hz : r.key z ≤ r.key y := not_lt.mp fun hlt => hle (r.cheaper_iff.mpr hlt)
        exact List.forall_mem_cons.mpr ⟨le_rfl, fun w hw => hz.trans (hy w hw)⟩

def Placed (xs : List γ) : Prop := ∀ x ∈ xs, ∀ y ∈ xs, r.position x = r.position y → x = y

theorem cheapest_perm {xs ys : List γ} (hp : xs.Perm ys) (hd : r.Placed xs) :
    r.cheapest xs = r.cheapest ys := by
  cases hx : r.cheapest xs with
  | none =>
    obtain rfl := r.cheapest_eq_none.mp hx
    rw [hp.symm.eq_nil]
    rfl
  | some x =>
    cases hy : r.cheapest ys with
    | none =>
      obtain rfl := r.cheapest_eq_none.mp hy
      rw [hp.eq_nil] at hx
      cases hx
    | some y =>
      have hmx := r.mem_of_cheapest hx
      have hmy := hp.mem_iff.mpr (r.mem_of_cheapest hy)
      have hxy := r.key_cheapest_le hx y hmy
      have hyx := r.key_cheapest_le hy x (hp.mem_iff.mp hmx)
      rw [hd x hmx y hmy (r.position_eq_of_key (le_antisymm hxy hyx))]

/-- With room for all candidates, the shortlist only reorders them. -/
theorem shortlist_perm {kept : Nat} {xs : List γ} (h : xs.length ≤ kept) :
    (r.shortlist kept xs).Perm xs := by
  rw [shortlist]
  split
  · exact .refl xs
  · next ranked hr =>
    have hx := snd_of_mapM r.distance hr
    have hn : ranked.length = xs.length := by simpa using congrArg List.length hx
    have ht : (ranked.mergeSort r.nearer).take kept = ranked.mergeSort r.nearer := by
      apply List.take_of_length_le
      rw [List.length_mergeSort]
      omega
    have hp := (List.mergeSort_perm ranked r.nearer).map Prod.snd
    rwa [hx, ← ht] at hp

theorem shortlist_of_unknown {kept : Nat} {xs : List γ} (h : ∀ x ∈ xs, r.distance x = none) :
    r.shortlist kept xs = xs := by
  cases xs with
  | nil => simp [shortlist]
  | cons x xs => simp [shortlist, List.mapM_cons, h x]

def blind : Ranking γ := { r with distance := fun _ => none }

theorem cheapest_blind (xs : List γ) : r.blind.cheapest xs = r.cheapest xs := by
  induction xs with
  | nil => rfl
  | cons x xs ih =>
    rw [cheapest, cheapest, ih]
    rfl

/-- Distances play no part in a choice when there is room for all candidates, or when there are no
distances. -/
theorem choose_blind {kept : Nat} {xs : List γ} (hd : r.Placed xs)
    (h : xs.length ≤ kept ∨ ∀ x ∈ xs, r.distance x = none) :
    r.blind.choose kept xs = r.choose kept xs := by
  have hs : r.blind.shortlist kept xs = xs := r.blind.shortlist_of_unknown fun _ _ => rfl
  have hc : r.cheapest xs = r.cheapest (r.shortlist kept xs) := by
    rcases h with h | h
    · exact r.cheapest_perm (r.shortlist_perm h).symm hd
    · rw [r.shortlist_of_unknown h]
  have he : r.blind.equivalent = r.equivalent := rfl
  rw [choose, choose, hs, cheapest_blind, hc, he]

end Ranking

namespace Judge

variable {α β : Type}

structure Alike (j j' : Judge α β) (l l' : Limits) (m n s t : Nat) (olds : List α)
    (news : List β) : Prop where
  forward : ∀ i xs, i + xs.length ≤ m → xs.Sublist olds →
    ∀ b ∈ news, j.seek l i xs b = j'.seek l' (i + s) xs b
  backward : ∀ k ys, k + ys.length ≤ n → ys.Sublist news →
    ∀ a ∈ olds, j.flip.seek l k ys a = j'.flip.seek l' (k + t) ys a

section

variable {j j' : Judge α β} {l l' : Limits} {m n s t : Nat}

theorem Alike.mono {olds xs : List α} {news ys : List β} (h : Alike j j' l l' m n s t olds news)
    (hx : xs.Sublist olds) (hy : ys.Sublist news) : Alike j j' l l' m n s t xs ys where
  forward i zs hi hz b hb := h.forward i zs hi (hz.trans hx) b (hy.subset hb)
  backward k zs hk hz a ha := h.backward k zs hk (hz.trans hy) a (hx.subset ha)

theorem partner_alike {i k : Nat} {olds : List α} {b : β} {bs : List β}
    (h : Alike j j' l l' m n s t olds (b :: bs)) (hi : i + olds.length ≤ m)
    (hk : k + (b :: bs).length ≤ n) :
    j.partner l i k olds b bs = j'.partner l' (i + s) (k + t) olds b bs := by
  rw [partner, partner, h.forward i olds hi (List.Sublist.refl _) b List.mem_cons_self]
  cases hs : j'.seek l' (i + s) olds b with
  | none => rfl
  | some c =>
    have hm := List.mem_of_getElem? (j'.getElem?_of_seek l' hs)
    simp only [h.backward k (b :: bs) hk (List.Sublist.refl _) c.1 hm]

theorem fill_alike {i k : Nat} {olds : List α} {news : List β}
    (h : Alike j j' l l' m n s t olds news) (hi : i + olds.length ≤ m)
    (hk : k + news.length ≤ n) :
    j.fill l i k olds news = j'.fill l' (i + s) (k + t) olds news := by
  induction news generalizing i k olds with
  | nil => rfl
  | cons b bs ih =>
    have hb : bs.Sublist (b :: bs) := List.sublist_cons_self _ _
    have hk' : k + 1 + bs.length ≤ n := by
      rw [List.length_cons] at hk
      omega
    rw [fill, fill, partner_alike h hi hk]
    split
    · rw [ih (h.mono (List.Sublist.refl _) hb) hi hk', Nat.add_right_comm k]
    · next a d hp =>
      obtain ⟨hd, -⟩ := List.getElem?_eq_some_iff.mp (j'.getElem?_of_partner l' hp)
      rw [ih (h.mono (List.drop_sublist _ _) hb) (by rw [List.length_drop]; omega) hk',
        Nat.add_right_comm (i + d), Nat.add_right_comm i, Nat.add_right_comm k]

theorem fillAll_alike {i k : Nat} {c : Anchoring α β} (h : Alike j j' l l' m n s t c.olds c.news)
    (hi : i + c.olds.length ≤ m) (hk : k + c.news.length ≤ n) :
    j.fillAll l i k c = j'.fillAll l' (i + s) (k + t) c := by
  induction c generalizing i k with
  | rest olds news => exact fill_alike h hi hk
  | anchor olds news a b beyond ih =>
    have ho : beyond.olds.Sublist (olds ++ a :: beyond.olds) :=
      (List.sublist_cons_self _ _).trans (List.sublist_append_right _ _)
    have hn : beyond.news.Sublist (news ++ b :: beyond.news) :=
      (List.sublist_cons_self _ _).trans (List.sublist_append_right _ _)
    simp only [Anchoring.olds, Anchoring.news, List.length_append, List.length_cons] at hi hk
    rw [fillAll, fillAll,
      fill_alike (h.mono (List.sublist_append_left _ _) (List.sublist_append_left _ _)) (by omega)
        (by omega),
      ih (h.mono ho hn) (by omega) (by omega), Nat.add_right_comm (i + _), Nat.add_right_comm i,
      Nat.add_right_comm (k + _), Nat.add_right_comm k]

/-- Judges that agree on identity and choose alike align alike. -/
theorem align_alike {olds : List α} {news : List β} (hi : j.identical = j'.identical)
    (h : Alike j j' l l' olds.length news.length 0 0 olds news) :
    j.align l olds news = j'.align l' olds news := by
  have ho := Anchoring.olds_between j'.identical olds news
  have hn := Anchoring.news_between j'.identical olds news
  rw [align, align, hi]
  exact fillAll_alike (by rwa [ho, hn]) (by rw [ho, Nat.zero_add]) (by rw [hn, Nat.zero_add])

end

variable (j : Judge α β) (l : Limits)

def blind : Judge α β := { j with distance := fun _ _ => none }

def Indifferent (olds : List α) (news : List β) : Prop :=
  l.window ≤ l.kept ∨ ∀ a ∈ olds, ∀ b ∈ news, j.distance a b = none

/-- Candidates stand at different positions. -/
theorem placed_candidates (xs : List α) (b : β) :
    (j.ranking b).Placed (xs.zipIdx.filter fun c => j.comparable c.1 b) := by
  rintro ⟨a, i⟩ ha ⟨a', i'⟩ ha' hp
  have ha := List.mk_mem_zipIdx_iff_getElem?.mp (List.mem_filter.mp ha).1
  have ha' := List.mk_mem_zipIdx_iff_getElem?.mp (List.mem_filter.mp ha').1
  obtain rfl : i = i' := hp
  rw [ha] at ha'
  rw [Option.some.inj ha']

variable {j l}

theorem Indifferent.mono {olds xs : List α} {news ys : List β} (h : j.Indifferent l olds news)
    (hx : xs ⊆ olds) (hy : ys ⊆ news) : j.Indifferent l xs ys :=
  h.imp id fun h a ha b hb => h a (hx ha) b (hy hb)

theorem Indifferent.flip {olds : List α} {news : List β} (h : j.Indifferent l olds news) :
    j.flip.Indifferent l news olds :=
  h.imp id fun h b hb a ha => h a ha b hb

theorem seek_blind {i : Nat} {olds : List α} {b : β} (h : j.Indifferent l olds [b]) :
    j.blind.seek l i olds b = j.seek l i olds b := by
  refine (j.ranking b).choose_blind (j.placed_candidates _ b) ?_
  rcases h with h | h
  · left
    refine (List.length_filter_le _ _).trans (le_trans ?_ h)
    rw [List.length_zipIdx]
    exact (List.length_take_le _ _).trans (l.room_le_window i)
  · right
    rintro ⟨a, i⟩ ha
    have ha := List.mk_mem_zipIdx_iff_getElem?.mp (List.mem_filter.mp ha).1
    exact h a (List.mem_of_mem_take (List.mem_of_getElem? ha)) b List.mem_cons_self

theorem Indifferent.alike {olds : List α} {news : List β} (h : j.Indifferent l olds news)
    (m n : Nat) : Alike j.blind j l l m n 0 0 olds news where
  forward _ _ _ hx _ hb :=
    seek_blind (h.mono hx.subset (List.cons_subset.mpr ⟨hb, List.nil_subset _⟩))
  backward _ _ _ hy _ ha :=
    seek_blind (h.mono (List.cons_subset.mpr ⟨ha, List.nil_subset _⟩) hy.subset).flip

/-- An alignment that is indifferent to distances is the one made without them. -/
theorem align_blind {olds : List α} {news : List β} (h : j.Indifferent l olds news) :
    j.blind.align l olds news = j.align l olds news :=
  align_alike rfl (h.alike _ _)

end Judge

end TreeDiff
