/-!
# Anchors

Identical elements of two lists anchor the lists to each other. The anchors are the pairs of a
longest common subsequence: the common start and the common end of the lists are taken first, and
what is between them is solved by rows, one row for each tail of the old list and in it one cell
for each tail of the new list. Between two anchors lies a gap, which holds the elements of both
lists that are not anchored there.
-/

set_option autoImplicit false

namespace TreeDiff

inductive Anchoring (α β : Type) where
  | rest (olds : List α) (news : List β)
  | anchor (olds : List α) (news : List β) (a : α) (b : β) (beyond : Anchoring α β)

namespace Anchoring

variable {α β : Type}

def anchors : Anchoring α β → List (α × β)
  | rest _ _ => []
  | anchor _ _ a b beyond => (a, b) :: beyond.anchors

def skipOld (a : α) : Anchoring α β → Anchoring α β
  | rest olds news => rest (a :: olds) news
  | anchor olds news x y beyond => anchor (a :: olds) news x y beyond

def skipNew (b : β) : Anchoring α β → Anchoring α β
  | rest olds news => rest olds (b :: news)
  | anchor olds news x y beyond => anchor olds (b :: news) x y beyond

def before (pairs : List (α × β)) (c : Anchoring α β) : Anchoring α β :=
  pairs.foldr (fun p c => anchor [] [] p.1 p.2 c) c

def after : Anchoring α β → List (α × β) → Anchoring α β
  | rest olds news, [] => rest olds news
  | rest olds news, p :: ps => anchor olds news p.1 p.2 (before ps (rest [] []))
  | anchor olds news a b beyond, ps => anchor olds news a b (beyond.after ps)

end Anchoring

structure Cell (α β : Type) where
  count : Nat
  anchoring : Anchoring α β

namespace Cell

variable {α β : Type}

/-- The cell of `a :: as` and `b :: bs`, from the cell of `as` and `b :: bs` (`down`), that of
`a :: as` and `bs` (`right`) and that of `as` and `bs` (`across`). Identical elements are always
anchored; otherwise the old element is skipped unless that loses an anchor. -/
def combine (identical : α → β → Bool) (a : α) (b : β) (down right across : Cell α β) :
    Cell α β :=
  if identical a b then ⟨across.count + 1, .anchor [] [] a b across.anchoring⟩
  else if right.count ≤ down.count then ⟨down.count, down.anchoring.skipOld a⟩
  else ⟨right.count, right.anchoring.skipNew b⟩

end Cell

inductive Row (α β : Type) where
  | last (cell : Cell α β)
  | next (b : β) (cell : Cell α β) (row : Row α β)

namespace Row

variable {α β : Type}

def first : Row α β → Cell α β
  | last cell => cell
  | next _ cell _ => cell

def bottom : List β → Row α β
  | [] => last ⟨0, .rest [] []⟩
  | b :: bs => next b ⟨0, .rest [] (b :: bs)⟩ (bottom bs)

def above (identical : α → β → Bool) (a : α) : Row α β → Row α β
  | last cell => last ⟨cell.count, cell.anchoring.skipOld a⟩
  | next b down row =>
    let higher := above identical a row
    next b (Cell.combine identical a b down higher.first row.first) higher

end Row

namespace Anchoring

variable {α β : Type} (identical : α → β → Bool)

def longest (olds : List α) (news : List β) : Anchoring α β :=
  (olds.foldr (Row.above identical) (Row.bottom news)).first.anchoring

def common : List α → List β → List (α × β) × List α × List β
  | a :: as, b :: bs =>
    if identical a b then
      let (pairs, olds, news) := common as bs
      ((a, b) :: pairs, olds, news)
    else ([], a :: as, b :: bs)
  | olds, news => ([], olds, news)

def between (olds : List α) (news : List β) : Anchoring α β :=
  let (start, olds, news) := common identical olds news
  let (close, olds, news) := common identical olds.reverse news.reverse
  before start ((longest identical olds.reverse news.reverse).after close.reverse)

end Anchoring

end TreeDiff
