import TreeDiff.Alignment.Conservation

/-!
# Relabelled alignments

An alignment looks at elements through its judge only. When a judge sees elements through two
functions, it aligns two lists as it would align what it sees of them. In particular an alignment
with positions is the alignment without them, each element with its place in its list.
-/

set_option autoImplicit false

namespace TreeDiff

variable {α α' β β' : Type}

namespace Entry

def map (f : α → α') (g : β → β') : Entry α β → Entry α' β'
  | old a => old (f a)
  | new b => new (g b)
  | paired a b => paired (f a) (g b)

end Entry

namespace Ranking

variable {γ δ : Type} (r : Ranking γ)

def comap (f : δ → γ) : Ranking δ where
  position := r.position ∘ f
  equivalent := r.equivalent ∘ f
  distance := r.distance ∘ f
  cost := r.cost ∘ f

theorem cheapest_map (f : δ → γ) (xs : List δ) :
    r.cheapest (xs.map f) = ((r.comap f).cheapest xs).map f := by
  induction xs with
  | nil => rfl
  | cons x xs ih =>
    rw [List.map_cons, cheapest, cheapest, ih]
    cases (r.comap f).cheapest xs with
    | none => rfl
    | some y =>
      simp only [Option.map_some, show r.cheaper (f y) (f x) = (r.comap f).cheaper y x from rfl]
      split <;> rfl

theorem mapM_pair (d : γ → Option Distance) (f : δ → γ) (xs : List δ) :
    (xs.map f).mapM (fun c => (d c).map fun x => (x, c)) =
      (xs.mapM fun c => (d (f c)).map fun x => (x, c)).map (List.map (Prod.map id f)) := by
  induction xs with
  | nil => rfl
  | cons x xs ih =>
    rw [List.map_cons, List.mapM_cons, List.mapM_cons, ih]
    cases d (f x) with
    | none => rfl
    | some y => cases xs.mapM fun c => (d (f c)).map fun x => (x, c) <;> rfl

theorem shortlist_map (f : δ → γ) (kept : Nat) (xs : List δ) :
    r.shortlist kept (xs.map f) = ((r.comap f).shortlist kept xs).map f := by
  have hd : (r.comap f).distance = fun c => r.distance (f c) := rfl
  rw [shortlist, shortlist, mapM_pair, hd]
  cases xs.mapM fun c => (r.distance (f c)).map fun d => (d, c) with
  | none => rfl
  | some ranked =>
    have hs : (ranked.map (Prod.map id f)).mergeSort r.nearer =
        (ranked.mergeSort (r.comap f).nearer).map (Prod.map id f) :=
      (List.map_mergeSort (f := Prod.map id f) (s := r.nearer) fun _ _ _ _ => rfl).symm
    simp [hs, ← List.map_take]

theorem choose_map (f : δ → γ) (kept : Nat) (xs : List δ) :
    r.choose kept (xs.map f) = ((r.comap f).choose kept xs).map f := by
  have he : (r.comap f).equivalent = r.equivalent ∘ f := rfl
  rw [choose, choose, List.find?_map, he]
  cases xs.find? (r.equivalent ∘ f) with
  | some x => rfl
  | none =>
    rw [Option.map_none, shortlist_map]
    exact r.cheapest_map f _

end Ranking

namespace Judge

variable (j : Judge α β) (l : Limits) (f : α' → α) (g : β' → β)

theorem seek_map (i : Nat) (olds : List α') (b : β') :
    j.seek l i (olds.map f) (g b) = ((j.comap f g).seek l i olds b).map (Prod.map f id) := by
  rw [seek, seek, ← List.map_take, List.zipIdx_map, List.filter_map]
  exact (j.ranking (g b)).choose_map (Prod.map f id) l.kept _

theorem partner_map (i k : Nat) (olds : List α') (b : β') (bs : List β') :
    j.partner l i k (olds.map f) (g b) (bs.map g) =
      ((j.comap f g).partner l i k olds b bs).map (Prod.map f id) := by
  rw [partner, partner, seek_map]
  cases (j.comap f g).seek l i olds b with
  | none => rfl
  | some c =>
    obtain ⟨a, d⟩ := c
    have hs := j.flip.seek_map l g f k (b :: bs) a
    simp only [Option.map_some, Prod.map_apply, id_eq]
    have hf : (j.comap f g).flip = j.flip.comap g f := rfl
    rw [← List.map_cons, hs, hf]
    cases (j.flip.comap g f).seek l k (b :: bs) a with
    | none => rfl
    | some c => obtain ⟨_, _ | _⟩ := c <;> rfl

theorem fill_map (i k : Nat) (olds : List α') (news : List β') :
    j.fill l i k (olds.map f) (news.map g) =
      ((j.comap f g).fill l i k olds news).map (Entry.map f g) := by
  induction news generalizing i k olds with
  | nil => simp [fill, Entry.map]
  | cons b bs ih =>
    rw [List.map_cons, fill, fill, partner_map]
    cases (j.comap f g).partner l i k olds b bs with
    | none => simp [ih, Entry.map]
    | some c => simp [← List.map_take, ← List.map_drop, ih, Entry.map]

end Judge

namespace Anchoring

def map (f : α → α') (g : β → β') : Anchoring α β → Anchoring α' β'
  | rest olds news => rest (olds.map f) (news.map g)
  | anchor olds news a b beyond => anchor (olds.map f) (news.map g) (f a) (g b) (beyond.map f g)

variable (f : α → α') (g : β → β')

theorem skipOld_map (a : α) (c : Anchoring α β) :
    (c.skipOld a).map f g = (c.map f g).skipOld (f a) := by
  cases c <;> rfl

theorem skipNew_map (b : β) (c : Anchoring α β) :
    (c.skipNew b).map f g = (c.map f g).skipNew (g b) := by
  cases c <;> rfl

theorem before_map (ps : List (α × β)) (c : Anchoring α β) :
    (before ps c).map f g = before (ps.map (Prod.map f g)) (c.map f g) := by
  induction ps with
  | nil => rfl
  | cons p ps ih => simpa [before, map] using ih

theorem after_map (c : Anchoring α β) (ps : List (α × β)) :
    (c.after ps).map f g = (c.map f g).after (ps.map (Prod.map f g)) := by
  induction c with
  | rest => cases ps <;> simp [after, map, before_map]
  | anchor _ _ _ _ _ ih => simp [after, map, ih]

end Anchoring

section

variable (identical : α → β → Bool) (f : α' → α) (g : β' → β)

theorem Cell.solve_map (olds : List α') (news : List β') :
    Cell.solve identical (olds.map f) (news.map g) =
      ⟨(Cell.solve (fun a b => identical (f a) (g b)) olds news).count,
        (Cell.solve (fun a b => identical (f a) (g b)) olds news).anchoring.map f g⟩ := by
  fun_induction Cell.solve (fun a b => identical (f a) (g b)) olds news with
  | case1 news => simp [Cell.solve, Anchoring.map]
  | case2 a olds ih =>
    simp only [List.map_nil, List.map_cons] at ih ⊢
    simp [Cell.solve, ih, Anchoring.skipOld_map]
  | case3 a olds b news ih₁ ih₂ ih₃ =>
    simp only [List.map_cons] at ih₁ ih₂ ih₃ ⊢
    rw [Cell.solve, ih₁, ih₂, ih₃, Cell.combine, Cell.combine]
    split
    · rfl
    · split <;> simp [Anchoring.skipOld_map, Anchoring.skipNew_map]

namespace Anchoring

theorem longest_map (olds : List α') (news : List β') :
    longest identical (olds.map f) (news.map g) =
      (longest (fun a b => identical (f a) (g b)) olds news).map f g := by
  rw [longest_eq, longest_eq, Cell.solve_map]

theorem common_map (olds : List α') (news : List β') :
    common identical (olds.map f) (news.map g) =
      Prod.map (List.map (Prod.map f g)) (Prod.map (List.map f) (List.map g))
        (common (fun a b => identical (f a) (g b)) olds news) := by
  fun_induction common (fun a b => identical (f a) (g b)) olds news with
  | case1 a as b bs hi pairs olds news hc ih => simp_all [common]
  | case2 a as b bs hi => simp [common, hi]
  | case3 olds news hcons =>
    cases olds with
    | nil => simp [common]
    | cons a as =>
      cases news with
      | nil => simp [common]
      | cons b bs => exact absurd rfl (hcons a as b bs rfl)

theorem between_map (olds : List α') (news : List β') :
    between identical (olds.map f) (news.map g) =
      (between (fun a b => identical (f a) (g b)) olds news).map f g := by
  simp only [between, common_map, Prod.map_fst, Prod.map_snd, ← List.map_reverse, longest_map,
    after_map, before_map]

end Anchoring

end

namespace Judge

variable (j : Judge α β) (l : Limits) (f : α' → α) (g : β' → β)

theorem fillAll_map (i k : Nat) (c : Anchoring α' β') :
    j.fillAll l i k (c.map f g) = ((j.comap f g).fillAll l i k c).map (Entry.map f g) := by
  induction c generalizing i k with
  | rest olds news => exact j.fill_map l f g i k olds news
  | anchor olds news a b beyond ih => simp [fillAll, Anchoring.map, fill_map, ih, Entry.map]

/-- To align what a judge sees of two lists is to align the lists by what it sees. -/
theorem align_map (olds : List α') (news : List β') :
    j.align l (olds.map f) (news.map g) =
      ((j.comap f g).align l olds news).map (Entry.map f g) := by
  rw [align, align, Anchoring.between_map, fillAll_map]
  rfl

/-- Without the positions, an alignment with positions is the alignment. -/
theorem alignPositions_map (olds : List α) (news : List β) :
    (j.alignPositions l olds news).map (Entry.map Prod.fst Prod.fst) = j.align l olds news := by
  rw [alignPositions, ← align_map, List.zipIdx_map_fst, List.zipIdx_map_fst]

end Judge

end TreeDiff
