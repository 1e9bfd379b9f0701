import Mathlib.Data.List.Chain
import TreeDiff.Proofs.Anchors
import TreeDiff.Proofs.Positions

/-!
# Alignments account for both lists

Whatever its judge answers, an alignment names every position of either list once and in order, and
where elements have no partner the new ones stand before the old ones. Made by position, it never
reads a list or a table where there is nothing.
-/

set_option autoImplicit false

namespace TreeDiff

variable {α β : Type}

namespace Entry

def Ordered : Entry α β → Entry α β → Prop
  | old _, new _ => False
  | _, _ => True

theorem ordered_new (b : β) (e : Entry α β) : Ordered (.new b) e := by
  cases e <;> trivial

theorem ordered_paired_left (a : α) (b : β) (e : Entry α β) : Ordered (.paired a b) e := by
  cases e <;> trivial

theorem ordered_paired_right (a : α) (b : β) (e : Entry α β) : Ordered e (.paired a b) := by
  cases e <;> trivial

theorem isChain_map_old (as : List α) :
    (as.map (Entry.old : α → Entry α β)).IsChain Ordered := by
  induction as with
  | nil => exact .nil
  | cons a as ih =>
    rw [List.map_cons, List.isChain_cons]
    refine ⟨?_, ih⟩
    intro e he
    cases as <;> cases he
    trivial

/-- A pair may stand anywhere. -/
theorem isChain_paired {es fs : List (Entry α β)} (hes : es.IsChain Ordered)
    (hfs : fs.IsChain Ordered) (a : α) (b : β) :
    (es ++ .paired a b :: fs).IsChain Ordered := by
  refine List.isChain_append.mpr ⟨hes, List.isChain_cons.mpr ⟨?_, hfs⟩, ?_⟩
  · intro f _
    exact ordered_paired_left a b f
  · intro e _ f hf
    cases hf
    exact ordered_paired_right a b e

/-- Entries without pairs are new elements and then old ones. -/
theorem blocks_of_isChain {es : List (Entry α β)} (h : es.IsChain Ordered)
    (hp : ∀ e ∈ es, e.isPaired = false) :
    ∃ (bs : List β) (as : List α), es = bs.map .new ++ as.map .old := by
  induction es with
  | nil => exact ⟨[], [], rfl⟩
  | cons e es ih =>
    obtain ⟨he, hp⟩ := List.forall_mem_cons.mp hp
    obtain ⟨hfirst, hes⟩ := List.isChain_cons.mp h
    obtain ⟨bs, as, rfl⟩ := ih hes hp
    cases e with
    | new b => exact ⟨b :: bs, as, rfl⟩
    | paired a b => cases he
    | old a =>
      cases bs with
      | nil => exact ⟨[], a :: as, rfl⟩
      | cons b bs => exact (hfirst (.new b) rfl).elim

end Entry

namespace Judge

variable (j : Judge α β) (l : Limits)

theorem isChain_fill (i k : Nat) (olds : List α) (news : List β) :
    (j.fill l i k olds news).IsChain Entry.Ordered := by
  induction news generalizing i k olds with
  | nil => exact Entry.isChain_map_old olds
  | cons b bs ih =>
    rw [fill]
    split
    · exact List.isChain_cons.mpr ⟨fun e _ => Entry.ordered_new b e, ih _ _ olds⟩
    · exact Entry.isChain_paired (Entry.isChain_map_old _) (ih _ _ _) _ _

theorem isChain_fillAll (i k : Nat) (c : Anchoring α β) :
    (j.fillAll l i k c).IsChain Entry.Ordered := by
  induction c generalizing i k with
  | rest olds news => exact j.isChain_fill l i k olds news
  | anchor olds news a b beyond ih =>
    exact Entry.isChain_paired (j.isChain_fill l i k olds news) (ih _ _) a b

end Judge

structure Account (xs : List α) (ys : List β) (es : List (Entry (α × Nat) (β × Nat))) :
    Prop where
  olds : es.filterMap Entry.old? = xs.zipIdx
  news : es.filterMap Entry.new? = ys.zipIdx
  oldPositions : (es.filterMap Entry.old?).map Prod.snd = List.range xs.length
  newPositions : (es.filterMap Entry.new?).map Prod.snd = List.range ys.length
  increasing : (es.filterMap Entry.pair?).Pairwise fun p q => p.1.2 < q.1.2 ∧ p.2.2 < q.2.2
  ordered : es.IsChain Entry.Ordered
  blocks : ∀ block, block <:+: es → (∀ e ∈ block, e.isPaired = false) →
    ∃ (bs : List (β × Nat)) (as : List (α × Nat)), block = bs.map .new ++ as.map .old

theorem account_of_zipIdx {olds : List α} {news : List β}
    {es : List (Entry (α × Nat) (β × Nat))} (ho : es.filterMap Entry.old? = olds.zipIdx)
    (hn : es.filterMap Entry.new? = news.zipIdx) (hc : es.IsChain Entry.Ordered) :
    Account olds news es where
  olds := ho
  news := hn
  oldPositions := by rw [ho, List.zipIdx_map_snd, List.range_eq_range']
  newPositions := by rw [hn, List.zipIdx_map_snd, List.range_eq_range']
  increasing := increasing_pairs (ho ▸ pairs_sublist_olds es) (hn ▸ pairs_sublist_news es)
  ordered := hc
  blocks _ hb := Entry.blocks_of_isChain <| List.IsChain.infix hc hb

/-- An alignment made by position reads nothing out of range, whatever the lists, the limits and the
judge. It accounts for both lists. -/
theorem alignment_accounts (j : Judge α β) (l : Limits) (olds : List α) (news : List β) :
    j.align? l olds news = some (j.align l olds news) ∧
      (j.alignPositions l olds news).map (Entry.map Prod.fst Prod.fst) = j.align l olds news ∧
      Account olds news (j.alignPositions l olds news) := by
  refine ⟨j.align?_eq l olds news, j.alignPositions_map l olds news, account_of_zipIdx ?_ ?_ ?_⟩
  · exact Judge.olds_align _ l olds.zipIdx news.zipIdx
  · exact Judge.news_align _ l olds.zipIdx news.zipIdx
  · exact Judge.isChain_fillAll _ l 0 0 _

end TreeDiff
