import TreeDiff.Proofs.Accounting
import TreeDiff.Proofs.Choice

/-!
# Turns

The new elements of a gap have their turns one after the other. A turn finds the old elements that
lie behind the last pair, up to the next anchor, and the new elements that are left in the gap; it
ends in a pair, which passes over some of the old elements, or in an insertion, which passes over
none. Wherever the entry of a new element stands in an alignment, such a turn has put it there.
-/

set_option autoImplicit false

namespace TreeDiff

variable {α β : Type}

/-- Where one list is split at an element in two ways, the elements are the same or one of them
stands before the other. -/
theorem splits_cases {γ : Type} {xs ys xs' ys' : List γ} {x x' : γ}
    (h : xs ++ x :: ys = xs' ++ x' :: ys') :
    (∃ mid, xs = xs' ++ x' :: mid ∧ ys' = mid ++ x :: ys) ∨ (xs' = xs ∧ x' = x ∧ ys' = ys) ∨
      ∃ mid, xs' = xs ++ x :: mid ∧ ys = mid ++ x' :: ys' := by
  rcases List.append_eq_append_iff.mp h with ⟨mid, hx, hy⟩ | ⟨mid, hx, hy⟩
  · cases mid with
    | nil =>
      obtain ⟨rfl, rfl⟩ := List.cons.inj hy
      exact .inr (.inl ⟨by simpa using hx, rfl, rfl⟩)
    | cons z mid =>
      obtain ⟨rfl, rfl⟩ := List.cons.inj hy
      exact .inr (.inr ⟨mid, hx, rfl⟩)
  · cases mid with
    | nil =>
      obtain ⟨rfl, rfl⟩ := List.cons.inj hy
      exact .inr (.inl ⟨by simpa using hx.symm, rfl, rfl⟩)
    | cons z mid =>
      obtain ⟨rfl, rfl⟩ := List.cons.inj hy
      exact .inl ⟨mid, hx, rfl⟩

def Settled (es : List (Entry α β)) : Prop :=
  (es.filterMap Entry.old?).getLast? = (es.filterMap Entry.pair?).getLast?.map Prod.fst

theorem settled_nil : Settled ([] : List (Entry α β)) := rfl

theorem settled_new (b : β) : Settled [(.new b : Entry α β)] := rfl

/-- Whatever stands before a pair, its old element is the last one. -/
theorem settled_paired (es : List (Entry α β)) (a : α) (b : β) :
    Settled (es ++ [.paired a b]) := by
  simp [Settled]

theorem Settled.append {es fs : List (Entry α β)} (he : Settled es) (hf : Settled fs) :
    Settled (es ++ fs) := by
  unfold Settled at *
  rw [List.filterMap_append, List.filterMap_append, List.getLast?_append, List.getLast?_append,
    he, hf]
  cases (fs.filterMap Entry.pair?).getLast? <;> rfl

namespace Judge

variable (j : Judge α β) (l : Limits)

/-- What a turn of `b`, at position `k`, comes to when `xs`, from position `i` on, and, after `b`,
`ys` are left in its gap: the old elements passed over, the entry of `b`, and the rest of the
gap. -/
inductive Decides (i k : Nat) (xs : List α) (b : β) (ys : List β) :
    List α → Entry α β → List (Entry α β) → Prop
  | alone : j.partner l i k xs b ys = none →
      Decides i k xs b ys [] (.new b) (j.fill l i (k + 1) xs ys)
  | taken {a : α} {d : Nat} : j.partner l i k xs b ys = some (a, d) →
      Decides i k xs b ys (xs.take d) (.paired a b)
        (j.fill l (i + d + 1) (k + 1) (xs.drop (d + 1)) ys)

variable {j l}

theorem fill_decides (i k : Nat) (xs : List α) (b : β) (ys : List β) :
    ∃ passed e rest, j.Decides l i k xs b ys passed e rest ∧ e.new? = some b ∧
      j.fill l i k xs (b :: ys) = passed.map Entry.old ++ e :: rest := by
  rw [fill]
  cases hp : j.partner l i k xs b ys with
  | none => exact ⟨[], .new b, _, .alone hp, rfl, rfl⟩
  | some c => exact ⟨_, .paired c.1 b, _, .taken hp, rfl, rfl⟩

/-- After a turn the gap goes on with the old elements behind its pair, or with all of them. -/
theorem Decides.goes_on {i k : Nat} {xs passed : List α} {b : β} {ys : List β} {e : Entry α β}
    {rest : List (Entry α β)} (h : j.Decides l i k xs b ys passed e rest) :
    Settled (passed.map .old ++ [e]) ∧
      ∃ left, xs = (passed.map Entry.old ++ [e]).filterMap Entry.old? ++ left ∧
        rest = j.fill l (i + ((passed.map Entry.old ++ [e]).filterMap Entry.old?).length) (k + 1)
          left ys := by
  cases h with
  | alone hp => exact ⟨settled_new b, xs, rfl, rfl⟩
  | @taken a d hp =>
    obtain ⟨hd, rfl⟩ := List.getElem?_eq_some_iff.mp (j.getElem?_of_partner l hp)
    have hgone : ((xs.take d).map Entry.old ++ [Entry.paired xs[d] b]).filterMap Entry.old? =
        xs.take (d + 1) := by
      rw [List.filterMap_append, filterMap_old?_map_old, List.filterMap_cons, Entry.old?_paired,
        List.filterMap_nil, List.take_append_getElem]
    refine ⟨settled_paired _ _ b, xs.drop (d + 1), ?_, ?_⟩
    · rw [hgone, List.take_append_drop]
    · rw [hgone, List.length_take_of_le hd, Nat.add_assoc]

/-- An entry with a new element stands behind all old ones that come first. -/
theorem splits_past_olds {as : List α} {es before after : List (Entry α β)} {e : Entry α β} {b : β}
    (h : as.map .old ++ es = before ++ e :: after) (he : e.new? = some b) :
    ∃ mid, before = as.map .old ++ mid ∧ es = mid ++ e :: after := by
  induction as generalizing before with
  | nil => exact ⟨before, rfl, h⟩
  | cons a as ih =>
    cases before with
    | nil =>
      obtain ⟨rfl, -⟩ := List.cons.inj h
      cases he
    | cons f before =>
      obtain ⟨rfl, ht⟩ := List.cons.inj h
      obtain ⟨mid, rfl, hm⟩ := ih ht
      exact ⟨mid, rfl, hm⟩

end Judge

def Limits.inReach {γ : Type} (l : Limits) (xs : List γ) (start stop : Nat) (p : γ → Bool) :
    Set Nat :=
  {i | start ≤ i ∧ i < min stop (start + l.window) ∧ ∃ x, xs[i]? = some x ∧ p x = true}

section

variable {γ : Type} {ws : List γ} {before xs beyond : List (γ × Nat)}

end

namespace Judge

variable {j : Judge α β} {l : Limits}

end Judge

end TreeDiff
