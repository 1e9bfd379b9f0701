import TreeDiff.Proofs.Equality
import TreeDiff.Proofs.Partners

/-!
# Pairs in reach

On the way from one pair of an alignment to the next, old elements are passed over; they stand right
before the pair. Fewer are passed over than a window holds, and the two elements are comparable,
unless they are identical. So trees of different categories are never paired, and only equal ones
from further away than the limits reach.
-/

set_option autoImplicit false

namespace TreeDiff

variable {α β : Type}

namespace Entry

def pass (as : List α) : Entry α β → List α
  | old a => as ++ [a]
  | new _ => as
  | paired _ _ => []

def passed (es : List (Entry α β)) : List α := es.foldl pass []

@[simp] theorem passed_concat (es : List (Entry α β)) (e : Entry α β) :
    passed (es ++ [e]) = pass (passed es) e := by
  rw [passed, List.foldl_append]
  rfl

theorem passed_append {es : List (Entry α β)} (h : passed es = []) (fs : List (Entry α β)) :
    passed (es ++ fs) = passed fs := by
  rw [passed, List.foldl_append, ← passed, h]
  rfl

theorem passed_map_old (as : List α) : passed (as.map (Entry.old : α → Entry α β)) = as := by
  induction as using List.reverseRecOn with
  | nil => rfl
  | append_singleton as a ih => rw [List.map_append, List.map_singleton, passed_concat, ih, pass]

/-- Where no new element follows an old one, what has been passed over stands at the end. -/
theorem passed_suffix {es : List (Entry α β)} (h : es.IsChain Ordered) :
    (passed es).map Entry.old <:+ es := by
  induction es using List.reverseRecOn with
  | nil => exact List.suffix_refl _
  | append_singleton es e ih =>
    obtain ⟨hes, -, hlast⟩ := List.isChain_append.mp h
    rw [passed_concat]
    obtain ⟨fs, hfs⟩ := ih hes
    cases e with
    | old a =>
      refine ⟨fs, ?_⟩
      rw [pass, List.map_append, ← List.append_assoc, hfs]
      rfl
    | paired a b => exact List.nil_suffix
    | new b =>
      rcases List.eq_nil_or_concat (passed es) with hp | ⟨as, a, hp⟩
      · rw [pass, hp]
        exact List.nil_suffix
      · have hend : Entry.old a ∈ es.getLast? := by
          rw [← hfs, hp]
          simp
        exact (hlast _ hend (.new b) rfl).elim

end Entry

namespace Judge

variable {j : Judge α β} {l : Limits} {i k : Nat}

theorem Decides.passed_eq_nil {xs gone : List α} {b : β} {ys : List β} {e : Entry α β}
    {rest : List (Entry α β)} (h : j.Decides l i k xs b ys gone e rest) :
    Entry.passed (gone.map .old ++ [e]) = [] := by
  cases h with
  | alone hp => rfl
  | taken hp => exact Entry.passed_concat _ _

/-- A turn takes what is comparable and in reach. -/
theorem Decides.in_reach {xs gone : List α} {a : α} {b c : β} {ys : List β}
    {rest : List (Entry α β)} (h : j.Decides l i k xs c ys gone (.paired a b) rest) :
    j.comparable a b = true ∧ gone.length < l.window := by
  cases h with
  | @taken _ d hp =>
    obtain ⟨ha, hc⟩ := comparable_of_seek (seeks_of_partner hp).1
    obtain ⟨hd, -⟩ := List.getElem?_eq_some_iff.mp ha
    rw [List.length_take] at hd
    have := l.room_le_window i
    refine ⟨hc, ?_⟩
    rw [List.length_take]
    omega

theorem fill_in_reach {olds : List α} {news : List β} {before after : List (Entry α β)} {a : α}
    {b : β} (h : j.fill l i k olds news = before ++ .paired a b :: after) :
    j.comparable a b = true ∧ (Entry.passed before).length < l.window := by
  induction news generalizing i k olds before with
  | nil =>
    rw [fill, ← List.append_nil (olds.map _)] at h
    obtain ⟨mid, -, hm⟩ := splits_past_olds h rfl
    simp at hm
  | cons c cs ih =>
    obtain ⟨gone, e, rest, hd, -, hfill⟩ := fill_decides (j := j) (l := l) i k olds c cs
    obtain ⟨mid, rfl, hm⟩ := splits_past_olds (hfill.symm.trans h) rfl
    cases mid with
    | nil =>
      obtain ⟨rfl, -⟩ := List.cons.inj hm
      rw [List.append_nil, Entry.passed_map_old]
      exact hd.in_reach
    | cons f mid =>
      obtain ⟨rfl, hr⟩ := List.cons.inj hm
      obtain ⟨-, left, -, rfl⟩ := hd.goes_on
      rw [List.append_cons, Entry.passed_append hd.passed_eq_nil]
      exact ih hr

theorem fillAll_in_reach {c : Anchoring α β} {before after : List (Entry α β)} {a : α} {b : β}
    (h : j.fillAll l i k c = before ++ .paired a b :: after) :
    (a, b) ∈ c.anchors ∨
      j.comparable a b = true ∧ (Entry.passed before).length < l.window := by
  induction c generalizing i k before with
  | rest olds news => exact .inr (fill_in_reach h)
  | anchor olds news x y beyond ih =>
    rcases splits_cases h with ⟨mid, hm, -⟩ | ⟨-, hp, -⟩ | ⟨mid, rfl, hm⟩
    · exact .inr (fill_in_reach hm)
    · cases hp
      exact .inl List.mem_cons_self
    · rw [List.append_cons, Entry.passed_append (Entry.passed_concat _ _)]
      exact (ih hm).imp_left (List.mem_cons_of_mem _)

theorem align_in_reach {olds : List α} {news : List β} {before after : List (Entry α β)} {a : α}
    {b : β} (h : j.align l olds news = before ++ .paired a b :: after) :
    j.identical a b = true ∨
      j.comparable a b = true ∧ (Entry.passed before).length < l.window :=
  (fillAll_in_reach h).imp_left
    ((Anchoring.common_anchors_between j.identical olds news).identical _)

/-- What is passed over on the way to a pair stands right before it. -/
theorem align_passed_suffix {olds : List α} {news : List β} {before after : List (Entry α β)}
    (h : j.align l olds news = before ++ after) :
    (Entry.passed before).map Entry.old <:+ before := by
  have hc := j.isChain_fillAll l 0 0 (.between j.identical olds news)
  rw [← align, h] at hc
  exact Entry.passed_suffix (List.isChain_append.mp hc).1

end Judge

theorem Tree.category_of_paired {l : Limits} {xs ys : List Tree} {x y : Tree}
    (h : .paired x y ∈ align l xs ys) : x.category = y.category := by
  obtain ⟨before, after, h⟩ := List.append_of_mem h
  rcases Judge.align_in_reach h with h | ⟨h, -⟩
  · exact (bare_eq_bare_iff.mp (beq_iff_bare.mp h)).1
  · exact beq_iff_eq.mp h

/-- The elements of a pair are identical; or they are comparable, and on the way from the pair
before it fewer old elements are passed over than a window holds. Whichever it is, those passed over
stand right before the pair. So paired trees have one category, and they are equal where as many as
a window or more are passed over. -/
theorem pairs_in_reach (j : Judge α β) (l : Limits) :
    (∀ olds news before a b after, j.align l olds news = before ++ .paired a b :: after →
      (Entry.passed before).map Entry.old <:+ before ∧
        (j.identical a b = true ∨
          j.comparable a b = true ∧ (Entry.passed before).length < l.window)) ∧
      ∀ ts us before t u after, Tree.align l ts us = before ++ .paired t u :: after →
        t.category = u.category ∧
          (l.window ≤ (Entry.passed before).length → (t == u) = true) := by
  constructor
  · intro olds news before a b after h
    exact ⟨Judge.align_passed_suffix h, Judge.align_in_reach h⟩
  · intro ts us before t u after h
    have hm : .paired t u ∈ Tree.align l ts us := by
      rw [h]
      simp
    refine ⟨Tree.category_of_paired hm, ?_⟩
    intro hfar
    rcases Judge.align_in_reach h with hi | ⟨-, hnear⟩
    · exact hi
    · omega

/-- With two letters in reach, `w` takes the nearer one of them and `x` is anchored past two more.
With one tree in reach, the last one is paired with its like past two others. -/
theorem distant_letter_in_reach :
    let j := Judge.letters
    let l : Limits := { reach := 2 }
    let near : List (Entry Char Char) := [.old 'a']
    let far : List (Entry Char Char) := [.old 'a', .paired 'b' 'w', .old 'c', .old 'd']
    let name (s : String) : Tree := .leaf "name" s
    let first : List (Entry Tree Tree) := [.old (name "a"), .old (name "b")]
    j.align l ['a', 'b', 'c', 'd', 'x'] ['w', 'x'] = far ++ [.paired 'x' 'x'] ∧
      Entry.passed near = ['a'] ∧ j.identical 'b' 'w' = false ∧ j.comparable 'b' 'w' = true ∧
      Entry.passed far = ['c', 'd'] ∧ (Entry.passed far).map .old <:+ far ∧
      ¬(Entry.passed far).length < l.window ∧ j.identical 'x' 'x' = true ∧
      Tree.align { reach := 1 } [name "a", name "b", name "c"] [name "c"] =
        first ++ [.paired (name "c") (name "c")] ∧
      Limits.window { reach := 1 } ≤ (Entry.passed first).length ∧ (name "c" == name "c") = true := by
  intro j l near far name first
  have h : j.align l ['a', 'b', 'c', 'd', 'x'] ['w', 'x'] = far ++ .paired 'x' 'x' :: [] := by
    decide +kernel
  have h' : j.align l ['a', 'b', 'c', 'd', 'x'] ['w', 'x'] =
      near ++ .paired 'b' 'w' :: [.old 'c', .old 'd', .paired 'x' 'x'] := h
  have ht : Tree.align { reach := 1 } [name "a", name "b", name "c"] [name "c"] =
      first ++ .paired (name "c") (name "c") :: [] := rfl
  have hbw : j.identical 'b' 'w' = false := by decide
  have hfar : ¬(Entry.passed far).length < l.window := by decide
  have hfirst : Limits.window { reach := 1 } ≤ (Entry.passed first).length := by decide
  obtain ⟨hletters, -⟩ := pairs_in_reach j l
  obtain ⟨-, htrees⟩ := pairs_in_reach j { reach := 1 }
  obtain ⟨-, hnear⟩ := hletters _ _ _ _ _ _ h'
  obtain ⟨hright, hlast⟩ := hletters _ _ _ _ _ _ h
  refine ⟨h, rfl, hbw, ?_, rfl, hright, hfar, ?_, ht, hfirst, (htrees _ _ _ _ _ _ ht).2 hfirst⟩
  · exact (hnear.resolve_left (by simp [hbw])).1
  · exact hlast.resolve_right fun hl => hfar hl.2

end TreeDiff
