import TreeDiff.Alignment.Conservation

/-!
# Anchors from a flat table

The anchors once more, as positions: the counts of all cells stand in one array, row after row,
which is filled from its end and then walked from its start. Whatever is read or written is named by
its position, and a position out of range gives nothing at all. There is always a result, so no
position is out of range, and it is the positions of the anchors that the rows are solved for.
-/

set_option autoImplicit false

namespace TreeDiff

variable {α β : Type}

def slice? (xs : List α) (i k : Nat) : Option (List α) :=
  if i ≤ k ∧ k ≤ xs.length then some ((xs.take k).drop i) else none

def difference? (m n : Nat) : Option Nat := if n ≤ m then some (m - n) else none

def write? {γ : Type} (xs : Array γ) (i : Nat) (x : γ) : Option (Array γ) :=
  if i < xs.size then some (xs.setIfInBounds i x) else none

theorem slice?_eq {xs : List α} {i k : Nat} (hi : i ≤ k) (hk : k ≤ xs.length) :
    slice? xs i k = some ((xs.take k).drop i) := if_pos ⟨hi, hk⟩

theorem difference?_eq {m n : Nat} (h : n ≤ m) : difference? m n = some (m - n) := if_pos h

/-- What stands around an element of the list that starts at position `i`. -/
theorem cut_at {γ : Type} {xs before beyond : List γ} {x : γ} {i : Nat}
    (h : before ++ x :: beyond = xs.drop i) :
    i + before.length < xs.length ∧ (xs.take (i + before.length)).drop i = before ∧
      xs[i + before.length]? = some x ∧ beyond = xs.drop (i + before.length + 1) := by
  have hl := congrArg List.length h
  rw [List.length_append, List.length_cons, List.length_drop] at hl
  refine ⟨by omega, ?_, ?_, ?_⟩
  · rw [List.drop_take, ← h, Nat.add_sub_cancel_left, List.take_left]
  · rw [← List.getElem?_drop, ← h, List.getElem?_append_right (Nat.le_refl _), Nat.sub_self]
    rfl
  · rw [Nat.add_assoc, ← List.drop_drop, ← h, ← List.drop_drop, List.drop_left]
    rfl

def diagonal (n i k : Nat) : List (Nat × Nat) := (List.range n).map fun d => (i + d, k + d)

theorem diagonal_succ (n i k : Nat) :
    diagonal (n + 1) i k = (i, k) :: diagonal n (i + 1) (k + 1) := by
  simp [diagonal, List.range_succ_eq_map, Function.comp_def, Nat.add_comm, Nat.add_left_comm]

namespace Anchoring

def positions : Anchoring α β → Nat → Nat → List (Nat × Nat)
  | rest _ _, _, _ => []
  | anchor olds news _ _ beyond, i, k =>
    (i + olds.length, k + news.length) ::
      beyond.positions (i + olds.length + 1) (k + news.length + 1)

theorem positions_skipOld (a : α) (c : Anchoring α β) (i k : Nat) :
    (c.skipOld a).positions i k = c.positions (i + 1) k := by
  cases c with
  | rest => rfl
  | anchor olds => simp [skipOld, positions, Nat.add_comm, Nat.add_left_comm]

theorem positions_skipNew (b : β) (c : Anchoring α β) (i k : Nat) :
    (c.skipNew b).positions i k = c.positions i (k + 1) := by
  cases c with
  | rest => rfl
  | anchor olds => simp [skipNew, positions, Nat.add_comm, Nat.add_left_comm]

theorem positions_before (ps : List (α × β)) (c : Anchoring α β) (i k : Nat) :
    (before ps c).positions i k =
      diagonal ps.length i k ++ c.positions (i + ps.length) (k + ps.length) := by
  induction ps generalizing i k with
  | nil => rfl
  | cons p ps ih =>
    show (i, k) :: (before ps c).positions (i + 1) (k + 1) = _
    rw [ih, List.length_cons, diagonal_succ, List.cons_append, Nat.add_right_comm i,
      Nat.add_right_comm k]
    rfl

theorem positions_after (c : Anchoring α β) (ps : List (α × β)) (i k : Nat) :
    (c.after ps).positions i k =
      c.positions i k ++ diagonal ps.length (i + c.olds.length) (k + c.news.length) := by
  induction c generalizing i k with
  | rest xs ys =>
    cases ps with
    | nil => rfl
    | cons p ps =>
      show (i + xs.length, k + ys.length) ::
        (before ps (rest [] [])).positions (i + xs.length + 1) (k + ys.length + 1) = _
      rw [positions_before, List.length_cons, diagonal_succ]
      exact congrArg _ (List.append_nil _)
  | anchor xs ys a b beyond ih =>
    simp [after, positions, ih, olds, news, Nat.add_assoc, Nat.add_comm 1]

end Anchoring

structure Grid where
  rows : Nat
  columns : Nat
  identical : Array Bool

namespace Grid

variable (g : Grid)

def identical? (i k : Nat) : Option Bool := g.identical[i * g.columns + k]?

def count? (counts : Array Nat) (i k : Nat) : Option Nat := counts[i * (g.columns + 1) + k]?

def cell? (counts : Array Nat) (i k : Nat) : Option Nat := do
  if ← g.identical? i k then
    return (← g.count? counts (i + 1) (k + 1)) + 1
  else
    return max (← g.count? counts (i + 1) k) (← g.count? counts i (k + 1))

def fillRow (i : Nat) : Nat → Array Nat → Option (Array Nat)
  | 0, counts => some counts
  | k + 1, counts => do
    let count ← g.cell? counts i k
    fillRow i k (← write? counts (i * (g.columns + 1) + k) count)

def fillRows : Nat → Array Nat → Option (Array Nat)
  | 0, counts => some counts
  | i + 1, counts => do fillRows i (← g.fillRow i g.columns counts)

def counts? : Option (Array Nat) :=
  g.fillRows g.rows (Array.replicate ((g.rows + 1) * (g.columns + 1)) 0)

def walk (start : Nat) (counts : Array Nat) (i k : Nat) : Option (List (Nat × Nat)) :=
  if i < g.rows ∧ k < g.columns then do
    if ← g.identical? i k then
      return (start + i, start + k) :: (← walk start counts (i + 1) (k + 1))
    else if (← g.count? counts i (k + 1)) ≤ (← g.count? counts (i + 1) k) then
      walk start counts (i + 1) k
    else
      walk start counts i (k + 1)
  else return []
termination_by g.rows - i + (g.columns - k)

end Grid

def commonLength (identical : α → β → Bool) (xs : List α) (ys : List β) : Nat :=
  ((xs.zip ys).takeWhile fun p => identical p.1 p.2).length

def identicalAt? (identical : α → β → Bool) (olds : List α) (news : List β) (i k : Nat) :
    Option Bool := do
  return identical (← olds[i]?) (← news[k]?)

def grid? (identical : α → β → Bool) (olds : List α) (news : List β) (start rows columns : Nat) :
    Option Grid := do
  let table ← (List.range (rows * columns)).mapM fun d =>
    identicalAt? identical olds news (start + d / columns) (start + d % columns)
  return ⟨rows, columns, table.toArray⟩

def middle? (identical : α → β → Bool) (olds : List α) (news : List β)
    (start rows columns : Nat) : Option (List (Nat × Nat)) :=
  if 0 < rows ∧ 0 < columns then do
    let g ← grid? identical olds news start rows columns
    g.walk start (← g.counts?) 0 0
  else some []

def pinned? (identical : α → β → Bool) (olds : List α) (news : List β) :
    Option (List (Nat × Nat)) := do
  let start := commonLength identical olds news
  let close := commonLength identical (← slice? olds start olds.length).reverse
    (← slice? news start news.length).reverse
  let rows ← difference? (← difference? olds.length start) close
  let columns ← difference? (← difference? news.length start) close
  let middle ← middle? identical olds news start rows columns
  return diagonal start 0 0 ++ middle ++
    diagonal close (← difference? olds.length close) (← difference? news.length close)

theorem Cell.count_solve_nil (identical : α → β → Bool) (xs : List α) :
    (Cell.solve identical xs []).count = 0 := by
  induction xs with
  | nil => simp [Cell.solve]
  | cons x xs ih => simp [Cell.solve, ih]

theorem Cell.positions_solve_nil (identical : α → β → Bool) (xs : List α) (i k : Nat) :
    (Cell.solve identical xs []).anchoring.positions i k = [] := by
  induction xs generalizing i with
  | nil => simp [Cell.solve, Anchoring.positions]
  | cons x xs ih => simp [Cell.solve, Anchoring.positions_skipOld, ih]

theorem Cell.solve_drop (identical : α → β → Bool) {xs : List α} {ys : List β} {i k : Nat}
    (hi : i < xs.length) (hk : k < ys.length) :
    Cell.solve identical (xs.drop i) (ys.drop k) =
      Cell.combine identical xs[i] ys[k] (Cell.solve identical (xs.drop (i + 1)) (ys.drop k))
        (Cell.solve identical (xs.drop i) (ys.drop (k + 1)))
        (Cell.solve identical (xs.drop (i + 1)) (ys.drop (k + 1))) := by
  rw [List.drop_eq_getElem_cons hi, List.drop_eq_getElem_cons hk, Cell.solve]

/-- Two cells of a table in rows of `width` do not share a place. -/
theorem eq_of_place {width i i' k k' : Nat} (hk : k < width) (hk' : k' < width)
    (h : i * width + k = i' * width + k') : i = i' ∧ k = k' := by
  have hw : 0 < width := by omega
  have hi := congrArg (· / width) h
  have hm := congrArg (· % width) h
  simp only [Nat.mul_comm _ width, Nat.mul_add_div hw, Nat.mul_add_mod, Nat.div_eq_of_lt hk,
    Nat.div_eq_of_lt hk', Nat.mod_eq_of_lt hk, Nat.mod_eq_of_lt hk'] at hi hm
  exact ⟨by omega, hm⟩

theorem place_lt {height width i k : Nat} (hi : i < height) (hk : k < width) :
    i * width + k < height * width :=
  calc i * width + k < i * width + width := by omega
    _ = (i + 1) * width := (Nat.succ_mul i width).symm
    _ ≤ height * width := Nat.mul_le_mul_right width hi

namespace Grid

structure Tells (g : Grid) (identical : α → β → Bool) (xs : List α) (ys : List β) : Prop where
  rows : g.rows = xs.length
  columns : g.columns = ys.length
  identical : ∀ (i k : Nat) (hi : i < xs.length) (hk : k < ys.length),
    g.identical? i k = some (identical xs[i] ys[k])

structure Solved (g : Grid) (identical : α → β → Bool) (xs : List α) (ys : List β)
    (i k : Nat) (counts : Array Nat) : Prop where
  size : counts.size = (g.rows + 1) * (g.columns + 1)
  count : ∀ i' k', i' ≤ g.rows → k' ≤ g.columns → (i < i' ∨ i = i' ∧ k ≤ k' ∨ g.columns ≤ k') →
    g.count? counts i' k' = some (Cell.solve identical (xs.drop i') (ys.drop k')).count

section

variable {g : Grid} {identical : α → β → Bool} {xs : List α} {ys : List β} {counts : Array Nat}

theorem solved_start (hg : g.Tells identical xs ys) :
    g.Solved identical xs ys g.rows 0
      (Array.replicate ((g.rows + 1) * (g.columns + 1)) 0) where
  size := Array.size_replicate
  count i k hi hk h := by
    have hp := place_lt (Nat.lt_succ_of_le hi) (Nat.lt_succ_of_le hk)
    have hc : (Cell.solve identical (xs.drop i) (ys.drop k)).count = 0 := by
      by_cases hx : xs.length ≤ i
      · rw [List.drop_of_length_le hx]
        simp [Cell.solve]
      · have hr := hg.rows
        have hy : ys.length ≤ k := by
          rw [← hg.columns]
          omega
        rw [List.drop_of_length_le hy, Cell.count_solve_nil]
    rw [hc, count?, Array.getElem?_replicate, if_pos hp]

theorem Solved.cell? (hg : g.Tells identical xs ys) {i k : Nat} (hi : i < xs.length)
    (hk : k < ys.length) (h : g.Solved identical xs ys i (k + 1) counts) :
    g.cell? counts i k = some (Cell.solve identical (xs.drop i) (ys.drop k)).count := by
  have hr := hg.rows
  have hc := hg.columns
  have hacross := h.count (i + 1) (k + 1) (by omega) (by omega) (.inl (by omega))
  have hbelow := h.count (i + 1) k (by omega) (by omega) (.inl (by omega))
  have hright := h.count i (k + 1) (by omega) (by omega) (.inr (.inl ⟨rfl, Nat.le_refl _⟩))
  rw [Grid.cell?, hg.identical i k hi hk, hacross, hbelow, hright, Cell.solve_drop _ hi hk,
    Cell.combine]
  cases identical xs[i] ys[k] with
  | true => rfl
  | false =>
    simp only [Bool.false_eq_true, if_false]
    split
    · next hle => exact congrArg some (Nat.max_eq_left hle)
    · next hlt => exact congrArg some (Nat.max_eq_right (by omega))

theorem Solved.write {i k n : Nat} (hi : i ≤ g.rows) (hk : k ≤ g.columns)
    (h : g.Solved identical xs ys i (k + 1) counts)
    (hn : n = (Cell.solve identical (xs.drop i) (ys.drop k)).count) :
    ∃ counts', write? counts (i * (g.columns + 1) + k) n = some counts' ∧
      g.Solved identical xs ys i k counts' := by
  have hp := place_lt (Nat.lt_succ_of_le hi) (Nat.lt_succ_of_le hk)
  refine ⟨_, if_pos (h.size ▸ hp), by rw [Array.size_setIfInBounds, h.size], ?_⟩
  intro i' k' hi' hk' hd
  by_cases he : i = i' ∧ k = k'
  · obtain ⟨rfl, rfl⟩ := he
    rw [count?, Array.getElem?_setIfInBounds_self_of_lt (h.size ▸ hp), hn]
  · have hold : i < i' ∨ i = i' ∧ k + 1 ≤ k' ∨ g.columns ≤ k' := by
      omega
    have hne : i * (g.columns + 1) + k ≠ i' * (g.columns + 1) + k' := fun hp =>
      he (eq_of_place (Nat.lt_succ_of_le hk) (Nat.lt_succ_of_le hk') hp)
    rw [count?, Array.getElem?_setIfInBounds_ne hne]
    exact h.count i' k' hi' hk' hold

theorem fillRow_solved (hg : g.Tells identical xs ys) {i k : Nat} (hi : i < xs.length)
    (hk : k ≤ ys.length) (h : g.Solved identical xs ys i k counts) :
    ∃ counts', g.fillRow i k counts = some counts' ∧ g.Solved identical xs ys i 0 counts' := by
  induction k generalizing counts with
  | zero => exact ⟨counts, rfl, h⟩
  | succ k ih =>
    have hr := hg.rows
    have hc := hg.columns
    obtain ⟨written, hw, hs⟩ := h.write (by omega) (by omega) rfl
    obtain ⟨filled, hf, hs⟩ := ih (by omega) hs
    refine ⟨filled, ?_, hs⟩
    rw [fillRow, h.cell? hg hi hk, Option.bind_eq_bind, Option.bind_some, hw]
    exact hf

theorem fillRows_solved (hg : g.Tells identical xs ys) {i : Nat} (hi : i ≤ xs.length)
    (h : g.Solved identical xs ys i 0 counts) :
    ∃ counts', g.fillRows i counts = some counts' ∧ g.Solved identical xs ys 0 0 counts' := by
  induction i generalizing counts with
  | zero => exact ⟨counts, rfl, h⟩
  | succ i ih =>
    have hrow : g.Solved identical xs ys i g.columns counts :=
      ⟨h.size, fun i' k' hi' hk' hd => h.count i' k' hi' hk' (by omega)⟩
    obtain ⟨row, hr, hs⟩ := fillRow_solved hg hi (Nat.le_of_eq hg.columns) hrow
    obtain ⟨filled, hf, hs⟩ := ih (by omega) hs
    refine ⟨filled, ?_, hs⟩
    rw [fillRows, hr]
    exact hf

theorem counts_solved (hg : g.Tells identical xs ys) :
    ∃ counts, g.counts? = some counts ∧ g.Solved identical xs ys 0 0 counts :=
  fillRows_solved hg (Nat.le_of_eq hg.rows) (solved_start hg)

/-- The walk follows the solution cell by cell. -/
theorem walk_eq (hg : g.Tells identical xs ys) (h : g.Solved identical xs ys 0 0 counts)
    (start i k : Nat) (hi : i ≤ xs.length) (hk : k ≤ ys.length) :
    g.walk start counts i k =
      some ((Cell.solve identical (xs.drop i) (ys.drop k)).anchoring.positions
        (start + i) (start + k)) := by
  have hr := hg.rows
  have hc := hg.columns
  by_cases hin : i < g.rows ∧ k < g.columns
  · have hx : i < xs.length := by omega
    have hy : k < ys.length := by omega
    have hbelow := h.count (i + 1) k (by omega) (by omega) (.inl (by omega))
    have hright := h.count i (k + 1) (by omega) (by omega) (by omega)
    rw [walk, if_pos hin, hg.identical i k hx hy, hbelow, hright, Cell.solve_drop _ hx hy,
      Cell.combine]
    cases identical xs[i] ys[k] with
    | true =>
      have hacross := walk_eq hg h start (i + 1) (k + 1) hx hy
      simp only [Option.bind_eq_bind, Option.bind_some, if_true, hacross]
      rfl
    | false =>
      simp only [Option.bind_eq_bind, Option.bind_some, Bool.false_eq_true, if_false]
      split
      · rw [walk_eq hg h start (i + 1) k hx hk, Anchoring.positions_skipOld, Nat.add_assoc]
      · rw [walk_eq hg h start i (k + 1) hi hy, Anchoring.positions_skipNew, Nat.add_assoc]
  · rw [walk, if_neg hin]
    by_cases hx : i < xs.length
    · rw [List.drop_of_length_le (by omega : ys.length ≤ k), Cell.positions_solve_nil]
      rfl
    · rw [List.drop_of_length_le (by omega : xs.length ≤ i), Cell.solve]
      rfl
termination_by g.rows - i + (g.columns - k)

end

end Grid

theorem mapM_eq_some {γ δ : Type} {f : γ → Option δ} {xs : List γ} {ys : List δ}
    (h : xs.map f = ys.map some) : xs.mapM f = some ys := by
  induction xs generalizing ys with
  | nil =>
    cases ys with
    | nil => rfl
    | cons y ys => cases h
  | cons x xs ih =>
    cases ys with
    | nil => cases h
    | cons y ys =>
      obtain ⟨hx, hxs⟩ := List.cons.inj h
      rw [List.mapM_cons, hx, ih hxs]
      rfl

theorem exists_map_some {γ δ : Type} {f : γ → Option δ} {xs : List γ}
    (h : ∀ x ∈ xs, ∃ y, f x = some y) : ∃ ys : List δ, xs.map f = ys.map some := by
  induction xs with
  | nil => exact ⟨[], rfl⟩
  | cons x xs ih =>
    obtain ⟨⟨y, hy⟩, hxs⟩ := List.forall_mem_cons.mp h
    obtain ⟨ys, hys⟩ := ih hxs
    exact ⟨y :: ys, by rw [List.map_cons, List.map_cons, hy, hys]⟩

section

variable (identical : α → β → Bool)

theorem grid_tells {olds : List α} {news : List β} {start rows columns : Nat}
    (ho : start + rows ≤ olds.length) (hn : start + columns ≤ news.length) :
    ∃ g, grid? identical olds news start rows columns = some g ∧
      g.Tells identical ((olds.drop start).take rows) ((news.drop start).take columns) := by
  have hread (i k : Nat) (hi : i < rows) (hk : k < columns) :
      identicalAt? identical olds news (start + i) (start + k) =
        some (identical olds[start + i] news[start + k]) := by
    rw [identicalAt?, List.getElem?_eq_getElem (by omega), List.getElem?_eq_getElem (by omega)]
    rfl
  have hreads : ∀ d ∈ List.range (rows * columns), ∃ x,
      identicalAt? identical olds news (start + d / columns) (start + d % columns) = some x := by
    intro d hd
    have hd := List.mem_range.mp hd
    have hc : 0 < columns := Nat.pos_of_mul_pos_left (Nat.zero_lt_of_lt hd)
    have hi : d / columns < rows := Nat.div_lt_of_lt_mul (Nat.mul_comm rows columns ▸ hd)
    exact ⟨_, hread _ _ hi (Nat.mod_lt d hc)⟩
  obtain ⟨table, ht⟩ := exists_map_some hreads
  refine ⟨⟨rows, columns, table.toArray⟩, by rw [grid?, mapM_eq_some ht]; rfl, ?_, ?_, ?_⟩
  · have hl : rows ≤ (olds.drop start).length := by simp; omega
    exact (List.length_take_of_le hl).symm
  · have hl : columns ≤ (news.drop start).length := by simp; omega
    exact (List.length_take_of_le hl).symm
  · intro i k hi hk
    rw [List.length_take, List.length_drop] at hi hk
    have hi : i < rows := by omega
    have hk : k < columns := by omega
    have hp := congrArg (fun table => table[i * columns + k]?) ht
    have hd : (i * columns + k) / columns = i := by
      rw [Nat.mul_comm, Nat.mul_add_div (by omega), Nat.div_eq_of_lt hk, Nat.add_zero]
    have hm : (i * columns + k) % columns = k := by
      rw [Nat.mul_comm, Nat.mul_add_mod, Nat.mod_eq_of_lt hk]
    simp only [List.getElem?_map, List.getElem?_range (place_lt hi hk), Option.map_some, hd, hm,
      hread i k hi hk] at hp
    rw [Grid.identical?, List.getElem?_toArray, List.getElem_take, List.getElem_take,
      List.getElem_drop, List.getElem_drop]
    simpa using hp.symm

theorem commonLength_le (xs : List α) (ys : List β) :
    commonLength identical xs ys ≤ xs.length ∧ commonLength identical xs ys ≤ ys.length := by
  have hs : ((xs.zip ys).takeWhile fun p => identical p.1 p.2).Sublist (xs.zip ys) :=
    List.takeWhile_sublist _
  have h := hs.length_le
  rw [List.length_zip] at h
  exact Nat.le_min.mp h

theorem Anchoring.common_eq (xs : List α) (ys : List β) :
    common identical xs ys =
      ((xs.zip ys).take (commonLength identical xs ys), xs.drop (commonLength identical xs ys),
        ys.drop (commonLength identical xs ys)) := by
  induction xs generalizing ys with
  | nil => simp [common, commonLength]
  | cons x xs ih =>
    cases ys with
    | nil => simp [common, commonLength]
    | cons y ys =>
      cases hi : identical x y with
      | true => simp [common, commonLength, hi, ih ys]
      | false => simp [common, commonLength, hi]

theorem middle_eq {olds : List α} {news : List β} {start rows columns : Nat}
    (ho : start + rows ≤ olds.length) (hn : start + columns ≤ news.length) :
    middle? identical olds news start rows columns =
      some ((Cell.solve identical ((olds.drop start).take rows)
        ((news.drop start).take columns)).anchoring.positions start start) := by
  rw [middle?]
  split
  · obtain ⟨g, hg, ht⟩ := grid_tells identical ho hn
    obtain ⟨counts, hc, hs⟩ := Grid.counts_solved ht
    simp only [hg, hc, Option.bind_eq_bind, Option.bind_some]
    exact Grid.walk_eq ht hs start 0 0 (Nat.zero_le _) (Nat.zero_le _)
  · next hempty =>
    by_cases hr : rows = 0
    · rw [hr, List.take_zero, Cell.solve]
      rfl
    · rw [show columns = 0 by omega, List.take_zero, Cell.positions_solve_nil]

/-- The positions of the anchors: those of the common start, those of the cells in between, and
those of the common end. -/
theorem positions_between (olds : List α) (news : List β) (start close : Nat)
    (hs : start = commonLength identical olds news)
    (hc : close = commonLength identical (olds.drop start).reverse (news.drop start).reverse) :
    (Anchoring.between identical olds news).positions 0 0 =
      diagonal start 0 0 ++
        ((Cell.solve identical ((olds.drop start).take (olds.length - start - close))
              ((news.drop start).take (news.length - start - close))).anchoring.positions
            start start ++
          diagonal close (olds.length - close) (news.length - close)) := by
  have hstart := hs ▸ commonLength_le identical olds news
  have hclose := hc ▸ commonLength_le identical (olds.drop start).reverse (news.drop start).reverse
  simp only [List.length_reverse, List.length_drop] at hclose
  simp only [Anchoring.between, Anchoring.common_eq, ← hs, ← hc, List.drop_reverse,
    List.reverse_reverse, List.length_drop, Anchoring.longest_eq, Anchoring.positions_before,
    Anchoring.positions_after, List.length_take, List.length_reverse, List.length_zip,
    Cell.olds_solve, Cell.news_solve, Nat.zero_add]
  have ho : start + (olds.length - start - close) = olds.length - close := by omega
  have hn : start + (news.length - start - close) = news.length - close := by omega
  rw [Nat.min_eq_left (Nat.le_min.mpr hstart), Nat.min_eq_left (Nat.le_min.mpr hclose),
    Nat.min_eq_left (Nat.sub_le _ _), Nat.min_eq_left (Nat.sub_le _ _), ho, hn]

/-- Every position is in range, and the positions that are found are those of the anchors. -/
theorem pinned_eq (olds : List α) (news : List β) :
    pinned? identical olds news = some ((Anchoring.between identical olds news).positions 0 0) := by
  have hstart := commonLength_le identical olds news
  generalize hs : commonLength identical olds news = start at hstart
  have hclose := commonLength_le identical (olds.drop start).reverse (news.drop start).reverse
  generalize hc : commonLength identical (olds.drop start).reverse (news.drop start).reverse = close
    at hclose
  simp only [List.length_reverse, List.length_drop] at hclose
  rw [pinned?, hs, slice?_eq hstart.1 (Nat.le_refl _), slice?_eq hstart.2 (Nat.le_refl _),
    List.take_length, List.take_length]
  simp only [Option.bind_eq_bind, Option.bind_some, hc]
  rw [difference?_eq hstart.1, difference?_eq hstart.2]
  simp only [Option.bind_some]
  rw [difference?_eq hclose.1, difference?_eq hclose.2]
  simp only [Option.bind_some]
  rw [middle_eq identical (by omega) (by omega), difference?_eq (by omega),
    difference?_eq (by omega), positions_between identical olds news start close hs.symm hc.symm,
    ← List.append_assoc]
  rfl

end

end TreeDiff
