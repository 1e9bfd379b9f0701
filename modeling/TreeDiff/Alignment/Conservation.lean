import TreeDiff.Alignment

/-!
# Conservation

An alignment loses nothing, repeats nothing and reorders nothing: its old elements, read in order,
are the old list, and its new elements are the new list. This holds for every judge, step by step:
for the choice of a candidate, for a gap, for the rows that solve for the anchors, and for all.
-/

set_option autoImplicit false

namespace TreeDiff

namespace Ranking

variable {γ : Type} (r : Ranking γ)

theorem mem_of_cheapest {x : γ} {xs : List γ} (h : r.cheapest xs = some x) : x ∈ xs := by
  induction xs generalizing x with
  | nil => simp [cheapest] at h
  | cons y ys ih =>
    rw [cheapest] at h
    cases hy : r.cheapest ys with
    | none => simp_all
    | some z =>
      have := ih hy
      simp only [hy] at h
      split at h <;> simp_all

theorem snd_of_mapM (f : γ → Option Distance) {xs : List γ} {ranked : List (Distance × γ)}
    (h : xs.mapM (fun c => (f c).map fun d => (d, c)) = some ranked) :
    ranked.map Prod.snd = xs := by
  induction xs generalizing ranked with
  | nil => simp_all
  | cons x xs ih =>
    rw [List.mapM_cons] at h
    cases hx : f x <;> cases hs : xs.mapM (fun c => (f c).map fun d => (d, c)) <;> simp_all
    rw [← h, List.map_cons, ih]

theorem mem_of_shortlist {kept : Nat} {x : γ} {xs : List γ} (h : x ∈ r.shortlist kept xs) :
    x ∈ xs := by
  unfold shortlist at h
  split at h
  · exact h
  · next ranked hr =>
    obtain ⟨p, hp, rfl⟩ := List.mem_map.1 h
    rw [← snd_of_mapM _ hr]
    exact List.mem_map_of_mem (List.mem_mergeSort.1 (List.mem_of_mem_take hp))

theorem mem_of_choose {kept : Nat} {x : γ} {xs : List γ} (h : r.choose kept xs = some x) :
    x ∈ xs := by
  unfold choose at h
  split at h
  · next y hy =>
    cases h
    exact List.mem_of_find?_eq_some hy
  · exact r.mem_of_shortlist (r.mem_of_cheapest h)

end Ranking

namespace Judge

variable {α β : Type} (j : Judge α β) (l : Limits)

theorem getElem?_of_seek {i : Nat} {olds : List α} {b : β} {a : α} {d : Nat}
    (h : j.seek l i olds b = some (a, d)) : olds[d]? = some a := by
  have h := (List.mem_filter.1 ((j.ranking b).mem_of_choose h)).1
  rw [List.mk_mem_zipIdx_iff_getElem?, List.getElem?_take] at h
  split at h <;> simp_all

theorem getElem?_of_partner {i k : Nat} {olds : List α} {b : β} {bs : List β} {a : α} {d : Nat}
    (h : j.partner l i k olds b bs = some (a, d)) : olds[d]? = some a := by
  unfold partner at h
  split at h
  · cases h
  · next hs =>
    split at h <;> cases h
    exact j.getElem?_of_seek l hs

theorem filterMap_old?_map_old (xs : List α) :
    (xs.map (Entry.old : α → Entry α β)).filterMap Entry.old? = xs := by
  induction xs with
  | nil => rfl
  | cons x xs ih => simp [ih]

theorem filterMap_new?_map_old (xs : List α) :
    (xs.map (Entry.old : α → Entry α β)).filterMap Entry.new? = [] := by
  induction xs with
  | nil => rfl
  | cons x xs ih => simp [List.filterMap_cons, ih]

theorem olds_fill (i k : Nat) (olds : List α) (news : List β) :
    (j.fill l i k olds news).filterMap Entry.old? = olds := by
  induction news generalizing i k olds with
  | nil => rw [fill, filterMap_old?_map_old]
  | cons b bs ih =>
    rw [fill]
    split
    · rw [List.filterMap_cons, Entry.old?_new, ih]
    · next a d h =>
      obtain ⟨hd, rfl⟩ := List.getElem?_eq_some_iff.1 (j.getElem?_of_partner l h)
      rw [List.filterMap_append, filterMap_old?_map_old, List.filterMap_cons, Entry.old?_paired, ih]
      simp

theorem news_fill (i k : Nat) (olds : List α) (news : List β) :
    (j.fill l i k olds news).filterMap Entry.new? = news := by
  induction news generalizing i k olds with
  | nil => rw [fill, filterMap_new?_map_old]
  | cons b bs ih =>
    rw [fill]
    split
    · rw [List.filterMap_cons, Entry.new?_new, ih]
    · rw [List.filterMap_append, filterMap_new?_map_old, List.filterMap_cons, Entry.new?_paired, ih,
        List.nil_append]

end Judge

namespace Anchoring

variable {α β : Type}

def olds : Anchoring α β → List α
  | rest olds _ => olds
  | anchor olds _ a _ beyond => olds ++ a :: beyond.olds

def news : Anchoring α β → List β
  | rest _ news => news
  | anchor _ news _ b beyond => news ++ b :: beyond.news

@[simp] theorem olds_skipOld (a : α) (c : Anchoring α β) : (c.skipOld a).olds = a :: c.olds := by
  cases c <;> rfl

@[simp] theorem news_skipOld (a : α) (c : Anchoring α β) : (c.skipOld a).news = c.news := by
  cases c <;> rfl

@[simp] theorem olds_skipNew (b : β) (c : Anchoring α β) : (c.skipNew b).olds = c.olds := by
  cases c <;> rfl

@[simp] theorem news_skipNew (b : β) (c : Anchoring α β) : (c.skipNew b).news = b :: c.news := by
  cases c <;> rfl

@[simp] theorem olds_before (ps : List (α × β)) (c : Anchoring α β) :
    (before ps c).olds = ps.map Prod.fst ++ c.olds := by
  induction ps with
  | nil => rfl
  | cons p ps ih => simpa [before, olds] using ih

@[simp] theorem news_before (ps : List (α × β)) (c : Anchoring α β) :
    (before ps c).news = ps.map Prod.snd ++ c.news := by
  induction ps with
  | nil => rfl
  | cons p ps ih => simpa [before, news] using ih

@[simp] theorem olds_after (c : Anchoring α β) (ps : List (α × β)) :
    (c.after ps).olds = c.olds ++ ps.map Prod.fst := by
  induction c with
  | rest => cases ps <;> simp [after, olds]
  | anchor _ _ _ _ _ ih => simp [after, olds, ih]

@[simp] theorem news_after (c : Anchoring α β) (ps : List (α × β)) :
    (c.after ps).news = c.news ++ ps.map Prod.snd := by
  induction c with
  | rest => cases ps <;> simp [after, news]
  | anchor _ _ _ _ _ ih => simp [after, news, ih]

end Anchoring

namespace Cell

variable {α β : Type}

def solve (identical : α → β → Bool) : List α → List β → Cell α β
  | [], news => ⟨0, .rest [] news⟩
  | a :: olds, [] => ⟨(solve identical olds []).count, (solve identical olds []).anchoring.skipOld a⟩
  | a :: olds, b :: news =>
    combine identical a b (solve identical olds (b :: news)) (solve identical (a :: olds) news)
      (solve identical olds news)
termination_by olds news => olds.length + news.length

theorem olds_solve (identical : α → β → Bool) (olds : List α) (news : List β) :
    (solve identical olds news).anchoring.olds = olds := by
  fun_induction solve identical olds news with
  | case1 => rfl
  | case2 a olds ih => simp [ih]
  | case3 a olds b news ih₁ ih₂ ih₃ =>
    unfold combine
    split
    · simp [Anchoring.olds, ih₃]
    · split <;> simp [ih₁, ih₂]

theorem news_solve (identical : α → β → Bool) (olds : List α) (news : List β) :
    (solve identical olds news).anchoring.news = news := by
  fun_induction solve identical olds news with
  | case1 => rfl
  | case2 a olds ih => simp [ih]
  | case3 a olds b news ih₁ ih₂ ih₃ =>
    unfold combine
    split
    · simp [Anchoring.news, ih₃]
    · split <;> simp [ih₁, ih₂]

end Cell

namespace Row

variable {α β : Type} (identical : α → β → Bool)

def solve (olds : List α) : List β → Row α β
  | [] => last (Cell.solve identical olds [])
  | b :: news => next b (Cell.solve identical olds (b :: news)) (solve olds news)

@[simp] theorem first_solve (olds : List α) (news : List β) :
    (solve identical olds news).first = Cell.solve identical olds news := by
  cases news <;> rfl

theorem bottom_eq (news : List β) : bottom news = solve identical [] news := by
  induction news with
  | nil => simp [bottom, solve, Cell.solve]
  | cons b news ih => simp [bottom, solve, Cell.solve, ih]

theorem above_solve (a : α) (olds : List α) (news : List β) :
    above identical a (solve identical olds news) = solve identical (a :: olds) news := by
  induction news with
  | nil => simp [solve, above, Cell.solve]
  | cons b news ih => simp [solve, above, ih, Cell.solve]

theorem foldr_above (olds : List α) (news : List β) :
    olds.foldr (above identical) (bottom news) = solve identical olds news := by
  induction olds with
  | nil => exact bottom_eq identical news
  | cons a olds ih => rw [List.foldr_cons, ih, above_solve]

end Row

namespace Anchoring

variable {α β : Type} (identical : α → β → Bool)

theorem longest_eq (olds : List α) (news : List β) :
    longest identical olds news = (Cell.solve identical olds news).anchoring := by
  rw [longest, Row.foldr_above, Row.first_solve]

theorem olds_common (olds : List α) (news : List β) :
    (common identical olds news).1.map Prod.fst ++ (common identical olds news).2.1 = olds := by
  fun_induction common identical olds news <;> simp_all

theorem news_common (olds : List α) (news : List β) :
    (common identical olds news).1.map Prod.snd ++ (common identical olds news).2.2 = news := by
  fun_induction common identical olds news <;> simp_all

@[simp] theorem olds_between (olds : List α) (news : List β) :
    (between identical olds news).olds = olds := by
  have h := olds_common identical olds news
  have h' := olds_common identical (common identical olds news).2.1.reverse
    (common identical olds news).2.2.reverse
  have h' := congrArg List.reverse h'
  simp only [List.reverse_append, List.reverse_reverse] at h'
  simp only [between, longest_eq, olds_before, olds_after, Cell.olds_solve, List.map_reverse, h']
  exact h

@[simp] theorem news_between (olds : List α) (news : List β) :
    (between identical olds news).news = news := by
  have h := news_common identical olds news
  have h' := news_common identical (common identical olds news).2.1.reverse
    (common identical olds news).2.2.reverse
  have h' := congrArg List.reverse h'
  simp only [List.reverse_append, List.reverse_reverse] at h'
  simp only [between, longest_eq, news_before, news_after, Cell.news_solve, List.map_reverse, h']
  exact h

end Anchoring

namespace Judge

variable {α β : Type} (j : Judge α β) (l : Limits)

theorem olds_fillAll (i k : Nat) (c : Anchoring α β) :
    (j.fillAll l i k c).filterMap Entry.old? = c.olds := by
  induction c generalizing i k with
  | rest olds news => exact j.olds_fill l i k olds news
  | anchor olds news a b beyond ih =>
    simp [fillAll, Anchoring.olds, olds_fill, ih]

theorem news_fillAll (i k : Nat) (c : Anchoring α β) :
    (j.fillAll l i k c).filterMap Entry.new? = c.news := by
  induction c generalizing i k with
  | rest olds news => exact j.news_fill l i k olds news
  | anchor olds news a b beyond ih =>
    simp [fillAll, Anchoring.news, news_fill, ih]

theorem olds_align (olds : List α) (news : List β) :
    (j.align l olds news).filterMap Entry.old? = olds := by
  rw [align, olds_fillAll, Anchoring.olds_between]

theorem news_align (olds : List α) (news : List β) :
    (j.align l olds news).filterMap Entry.new? = news := by
  rw [align, news_fillAll, Anchoring.news_between]

end Judge

namespace Entry

variable {α β : Type}

def weigh (f : α → Nat) (g : β → Nat) : Entry α β → Nat
  | old a => f a
  | new b => g b
  | paired a b => f a + g b

theorem total_weigh (f : α → Nat) (g : β → Nat) (es : List (Entry α β)) :
    total (es.map (weigh f g)) =
      total ((es.filterMap old?).map f) + total ((es.filterMap new?).map g) := by
  induction es with
  | nil => rfl
  | cons e es ih => cases e <;> simp [weigh, List.filterMap_cons, ih] <;> omega

end Entry

/-- Whatever is measured of the elements, an alignment measures as much as its two lists. -/
theorem Judge.total_weigh_align {α β : Type} (j : Judge α β) (l : Limits) (f : α → Nat)
    (g : β → Nat) (olds : List α) (news : List β) :
    total ((j.align l olds news).map (Entry.weigh f g)) =
      total (olds.map f) + total (news.map g) := by
  rw [Entry.total_weigh, olds_align, news_align]

end TreeDiff
