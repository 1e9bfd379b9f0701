/-!
# Limits

How many nodes the estimate of a cost may look at (`effort`), how many elements past the last match
may be candidates for the next one (`reach`, at least one), and how many of the nearest candidates
by fingerprint have their cost estimated (`shortlist`, at least one).
-/

set_option autoImplicit false

namespace TreeDiff

def wordSize : Nat := 18446744073709551616

structure Limits where
  effort : Nat := 10
  reach : Nat := 8
  shortlist : Nat := 3
  deriving DecidableEq, Repr

namespace Limits

def window (l : Limits) : Nat := max l.reach 1

def kept (l : Limits) : Nat := max l.shortlist 1

/-- How many elements from position `i` on are in reach. The position where the reach ends is a
word: where the sum wraps around, the reach ends before it starts. -/
def room (l : Limits) (i : Nat) : Nat := (i + l.window) % wordSize - i

def NoWrap (l : Limits) (n : Nat) : Prop := n + l.window < wordSize

instance (l : Limits) (n : Nat) : Decidable (l.NoWrap n) :=
  inferInstanceAs (Decidable (n + l.window < wordSize))

theorem window_pos (l : Limits) : 0 < l.window := Nat.le_max_right _ _

theorem kept_pos (l : Limits) : 0 < l.kept := Nat.le_max_right _ _

theorem room_le_window (l : Limits) (i : Nat) : l.room i ≤ l.window := by
  have := Nat.mod_le (i + l.window) wordSize
  rw [room]
  omega

variable {l : Limits} {m n : Nat}

theorem NoWrap.mono (h : l.NoWrap n) (hm : m ≤ n) : l.NoWrap m :=
  Nat.lt_of_le_of_lt (Nat.add_le_add_right hm _) h

theorem NoWrap.room_eq (h : l.NoWrap n) : l.room n = l.window := by
  rw [room, Nat.mod_eq_of_lt h, Nat.add_sub_cancel_left]

theorem NoWrap.room_pos (h : l.NoWrap n) : 0 < l.room n := by
  rw [h.room_eq]
  exact l.window_pos

end Limits

end TreeDiff
