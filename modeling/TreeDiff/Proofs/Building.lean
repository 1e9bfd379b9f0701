import TreeDiff.Proofs.Reading

/-!
# Building trees

To build a plant, a history makes all its nodes and appends to each its children in order. It may
go from node to node as it likes, and go on from any arena, where its nodes may get slots that were
used before: nothing that it does is refused, and in the end the plant stands in the arena, beside
all that stood there before.
-/

set_option autoImplicit false

namespace TreeDiff

namespace Arena

def Change.item? : Change → Option Item
  | .add item => some item
  | _ => none

def Change.child? (h : Handle) : Change → Option Handle
  | .append parent child => if parent = h then some child else none
  | _ => none

def appended (h : Handle) (cs : List Change) : List Handle := cs.filterMap (Change.child? h)

section

variable {σ : Type}

def made (A : Arena σ) (s : σ) (cs : List Change) : List (Handle × Item) :=
  (A.issuedFrom s cs).zip (cs.filterMap Change.item?)

inductive Constructs (A : Arena σ) (s : σ) : List Change → Prop
  | start : Constructs A s []
  | add {cs : List Change} (before : Constructs A s cs) (item : Item) :
      Constructs A s (cs ++ [.add item])
  | append {cs : List Change} {parent child : Handle} (before : Constructs A s cs)
      (parent_made : parent ∈ A.issuedFrom s cs) (child_made : child ∈ A.issuedFrom s cs) :
      Constructs A s (cs ++ [.append parent child])

structure Builds (A : Arena σ) (s : σ) (cs : List Change) (p : Plant) : Prop where
  constructs : A.Constructs s cs
  nodes : (A.made s cs).Perm (p.postorder.map fun q => (q.handle, q.item))
  children : ∀ q ∈ p.postorder, appended q.handle cs = q.children.map Plant.handle

variable {A : Arena σ} {s t : σ}

theorem change_of_attempt {c : Change} (h : A.attempt s c = .ok t) : A.change s c = t := by
  rw [change, h]
  rfl

theorem foldl_change {cs : List Change} (h : cs.foldlM A.attempt s = .ok t) :
    cs.foldl A.change s = t := by
  induction cs generalizing s with
  | nil =>
    cases h
    rfl
  | cons c cs ih =>
    rw [List.foldlM_cons] at h
    cases hc : A.attempt s c with
    | error e =>
      rw [hc] at h
      cases h
    | ok s' =>
      rw [hc] at h
      rw [List.foldl_cons, change_of_attempt hc]
      exact ih h

theorem length_issuedFrom (cs : List Change) :
    (A.issuedFrom s cs).length = (cs.filterMap Change.item?).length := by
  induction cs generalizing s with
  | nil => rfl
  | cons c cs ih =>
    rw [issuedFrom, List.length_append, ih, List.filterMap_cons]
    cases c <;> simp [issues, Change.item?, Nat.add_comm]

theorem made_append (cs ds : List Change) :
    A.made s (cs ++ ds) = A.made s cs ++ A.made (cs.foldl A.change s) ds := by
  rw [made, issuedFrom_append, List.filterMap_append, List.zip_append (length_issuedFrom cs)]
  rfl

theorem map_fst_made (cs : List Change) : (A.made s cs).map Prod.fst = A.issuedFrom s cs :=
  List.map_fst_zip (Nat.le_of_eq (length_issuedFrom cs))

theorem exists_made {cs : List Change} {h : Handle} (hh : h ∈ A.issuedFrom s cs) :
    ∃ item, (h, item) ∈ A.made s cs := by
  rw [← map_fst_made] at hh
  obtain ⟨⟨_, item⟩, hm, rfl⟩ := List.mem_map.mp hh
  exact ⟨item, hm⟩

theorem appended_append (h : Handle) (cs ds : List Change) :
    appended h (cs ++ ds) = appended h cs ++ appended h ds := List.filterMap_append

theorem appended_singleton (h parent child : Handle) :
    appended h [.append parent child] = if parent = h then [child] else [] := by
  rw [appended, List.filterMap_cons, Change.child?, List.filterMap_nil]
  by_cases hp : parent = h
  · rw [if_pos hp, if_pos hp]
  · rw [if_neg hp, if_neg hp]

/-- What is appended was made, and so was what it is appended to. -/
theorem Constructs.made_of_appended {cs : List Change} (hc : A.Constructs s cs)
    {parent child : Handle} (h : child ∈ appended parent cs) :
    parent ∈ A.issuedFrom s cs ∧ child ∈ A.issuedFrom s cs := by
  induction hc with
  | start => cases h
  | add _ item ih =>
    rw [appended_append, List.mem_append] at h
    rw [issuedFrom_append]
    exact (ih (h.resolve_right nofun)).imp (List.mem_append_left _) (List.mem_append_left _)
  | append _ hp hc ih =>
    rw [appended_append, List.mem_append] at h
    rw [issuedFrom_append]
    refine And.imp (List.mem_append_left _) (List.mem_append_left _) ?_
    rcases h with h | h
    · exact ih h
    · rw [appended_singleton] at h
      split at h
      · next he =>
        rw [List.mem_singleton.mp h, ← he]
        exact ⟨hp, hc⟩
      · cases h

theorem Constructs.appended_eq_nil {cs : List Change} (hc : A.Constructs s cs) {h : Handle}
    (hh : h ∉ A.issuedFrom s cs) : appended h cs = [] :=
  List.eq_nil_iff_forall_not_mem.mpr fun _ hk => hh (hc.made_of_appended hk).1

end

structure Underway {σ : Type} (A : Arena σ) (cs₀ cs : List Change) (t : σ) : Prop where
  run : cs.foldlM A.attempt (A.after cs₀) = .ok t
  kept : ∀ h ∉ A.issuedFrom (A.after cs₀) cs, A.links t h = A.links (A.after cs₀) h
  built : ∀ n ∈ A.made (A.after cs₀) cs, A.links t n.1 = some (n.2, appended n.1 cs)

namespace Underway

variable {σ : Type} {A : Arena σ} {cs₀ cs : List Change} {t : σ}

theorem start (A : Arena σ) (cs₀ : List Change) : A.Underway cs₀ [] (A.after cs₀) where
  run := rfl
  kept _ _ := rfl
  built _ hn := nomatch hn

theorem after_eq (h : A.Underway cs₀ cs t) : A.after (cs₀ ++ cs) = t := by
  rw [after_append, foldl_change h.run]

theorem run_snoc (h : A.Underway cs₀ cs t) {c : Change} {t' : σ} (hc : A.attempt t c = .ok t') :
    (cs ++ [c]).foldlM A.attempt (A.after cs₀) = .ok t' := by
  rw [List.foldlM_append, h.run]
  change [c].foldlM A.attempt t = _
  rw [List.foldlM_cons, hc]
  rfl

theorem issuedFrom_snoc (h : A.Underway cs₀ cs t) (c : Change) :
    A.issuedFrom (A.after cs₀) (cs ++ [c]) = A.issuedFrom (A.after cs₀) cs ++ A.issues t c := by
  rw [issuedFrom_append, foldl_change h.run, issuedFrom, issuedFrom, List.append_nil]

theorem ne_none_of_mem (h : A.Underway cs₀ cs t) {k : Handle}
    (hk : k ∈ A.issuedFrom (A.after cs₀) cs) : A.links t k ≠ none := by
  obtain ⟨item, hm⟩ := exists_made hk
  rw [h.built _ hm]
  nofun

theorem add (h : A.Underway cs₀ cs t) (hA : A.Lawful) (hc : A.Constructs (A.after cs₀) cs)
    (item : Item) : A.Underway cs₀ (cs ++ [.add item]) (A.add t item).2 := by
  have hlinks : A.links (A.add t item).2 = (A.links t).add (A.add t item).1 item := by
    have hl := hA.add (cs₀ ++ cs) item
    rwa [h.after_eq] at hl
  have hfresh : (A.add t item).1 ∉ A.issuedFrom (A.after cs₀) cs := by
    have hf := hA.fresh (cs₀ ++ cs) item
    rw [h.after_eq, issued_append] at hf
    exact fun hm => hf (List.mem_append_right _ hm)
  have happended (k : Handle) : appended k (cs ++ [.add item]) = appended k cs := by
    rw [appended_append]
    exact List.append_nil _
  refine ⟨h.run_snoc rfl, fun k hk => ?_, fun n hn => ?_⟩
  · rw [h.issuedFrom_snoc, List.mem_append, not_or] at hk
    rw [hlinks, Links.add_of_ne item fun he => hk.2 (List.mem_singleton.mpr he)]
    exact h.kept k hk.1
  · rw [hlinks, happended]
    rw [made_append, foldl_change h.run, List.mem_append] at hn
    rcases hn with hn | hn
    · have hm : n.1 ∈ A.issuedFrom (A.after cs₀) cs := by
        rw [← map_fst_made]
        exact List.mem_map_of_mem hn
      have hne : n.1 ≠ (A.add t item).1 := fun he => hfresh (he ▸ hm)
      rw [Links.add_of_ne item hne]
      exact h.built n hn
    · obtain rfl := List.mem_singleton.mp hn
      rw [Links.add_self, hc.appended_eq_nil hfresh]

/-- The nodes made since have not got the child, and those before do not know it. -/
theorem no_parent (h : A.Underway cs₀ cs t) (hA : A.Lawful) {child : Handle}
    (hchild : child ∈ A.issuedFrom (A.after cs₀) cs) (halone : ∀ k, child ∉ appended k cs)
    (a : Handle) : ¬ (A.links t).Parent a child := by
  intro ha
  by_cases hm : a ∈ A.issuedFrom (A.after cs₀) cs
  · obtain ⟨item, hm⟩ := exists_made hm
    obtain ⟨n, hn, hc⟩ := ha
    rw [h.built _ hm, Option.some_inj] at hn
    subst hn
    exact halone a hc
  · have ha : (A.links (A.after cs₀)).Parent a child := by
      obtain ⟨n, hn, hc⟩ := ha
      exact ⟨n, (h.kept a hm).symm.trans hn, hc⟩
    have hlive := hA.mem_issued_of_live ((hA.after_sound cs₀).closed ha)
    exact List.disjoint_of_nodup_append (hA.issued_append_nodup cs₀ cs) hlive hchild

/-- A node that stands alone is appended to one that is not below it. -/
theorem append (h : A.Underway cs₀ cs t) (hA : A.Lawful) {parent child : Handle}
    (hp : parent ∈ A.issuedFrom (A.after cs₀) cs) (hchild : child ∈ A.issuedFrom (A.after cs₀) cs)
    (halone : ∀ k, child ∉ appended k cs) (hbelow : ¬ (A.links t).Below child parent) :
    ∃ t', A.Underway cs₀ (cs ++ [.append parent child]) t' := by
  have hdue : (A.append t parent child).map A.links =
      .ok ((A.links t).adopt parent fun ks => ks ++ [child]) := by
    have hl := hA.append (cs₀ ++ cs) parent child
    rwa [h.after_eq, Links.append_of_alone (h.ne_none_of_mem hp) (h.ne_none_of_mem hchild)
      (h.no_parent hA hchild halone) hbelow] at hl
  obtain ⟨t', ht', hlinks⟩ : ∃ t', A.append t parent child = .ok t' ∧
      A.links t' = (A.links t).adopt parent fun ks => ks ++ [child] := by
    cases hr : A.append t parent child with
    | error e =>
      rw [hr] at hdue
      cases hdue
    | ok t' =>
      rw [hr] at hdue
      exact ⟨t', rfl, Except.ok.inj hdue⟩
  refine ⟨t', h.run_snoc ht', fun k hk => ?_, fun n hn => ?_⟩
  · rw [h.issuedFrom_snoc, List.mem_append, not_or] at hk
    have hne : k ≠ parent := fun he => hk.1 (he ▸ hp)
    rw [hlinks, Links.adopt_of_ne _ hne]
    exact h.kept k hk.1
  · rw [made_append, show A.made _ [.append parent child] = [] from rfl, List.append_nil] at hn
    rw [hlinks, Links.adopt, h.built n hn, appended_append, appended_singleton]
    by_cases he : parent = n.1
    · simp [he]
    · simp [he, Ne.symm he]

end Underway

structure Fits {σ : Type} (A : Arena σ) (s : σ) (cs : List Change) (p : Plant) : Prop where
  nodup : p.handles.Nodup
  made : A.issuedFrom s cs ⊆ p.handles
  children : ∀ q ∈ p.postorder, appended q.handle cs <+: q.children.map Plant.handle

namespace Fits

variable {σ : Type} {A : Arena σ} {s : σ} {cs ds : List Change} {p q : Plant}
  {parent child : Handle}

theorem of_append (h : A.Fits s (cs ++ ds) p) : A.Fits s cs p where
  nodup := h.nodup
  made k hk := h.made (by
    rw [issuedFrom_append]
    exact List.mem_append_left _ hk)
  children q hq := by
    have hc := h.children q hq
    rw [appended_append] at hc
    exact (List.prefix_append _ _).trans hc

theorem next (h : A.Fits s (cs ++ [.append q.handle child]) p) (hq : q ∈ p.postorder) :
    appended q.handle cs ++ [child] <+: q.children.map Plant.handle := by
  have hc := h.children q hq
  rwa [appended_append, appended_singleton, if_pos rfl] at hc

theorem next_mem (h : A.Fits s (cs ++ [.append q.handle child]) p) (hq : q ∈ p.postorder) :
    child ∈ q.children.map Plant.handle :=
  (h.next hq).subset (List.mem_append_right _ (List.mem_singleton.mpr rfl))

/-- What is appended has not been appended before: it has one parent, and is its child once. -/
theorem alone (h : A.Fits s (cs ++ [.append q.handle child]) p) (hc : A.Constructs s cs)
    (hq : q ∈ p.postorder) (k : Handle) : child ∉ appended k cs := by
  intro hk
  obtain ⟨r, hr, rfl⟩ :=
    Plant.exists_of_mem_handles (h.of_append.made (hc.made_of_appended hk).1)
  have hrc := (h.of_append.children r hr).subset hk
  obtain rfl := Plant.parent_unique h.nodup hr hq hrc (h.next_mem hq)
  have hd := (List.nodup_flatMap.mp (Plant.children_nodup h.nodup)).1 r hr
  exact List.disjoint_of_nodup_append (hd.sublist (h.next hq).sublist) hk
    (List.mem_singleton.mpr rfl)

/-- What is below a node so far is below it in the plant. -/
theorem mem_handles_of_below {cs₀ : List Change} {t : σ} (h : A.Fits (A.after cs₀) cs p)
    (hc : A.Constructs (A.after cs₀) cs) (hu : A.Underway cs₀ cs t) (hq : q ∈ p.postorder)
    (hm : q.handle ∈ A.issuedFrom (A.after cs₀) cs) {k : Handle}
    (hk : (A.links t).Below q.handle k) :
    k ∈ A.issuedFrom (A.after cs₀) cs ∧ k ∈ q.handles := by
  induction hk with
  | refl => exact ⟨hm, Plant.mem_handles q.find?_handle⟩
  | tail _ hpar ih =>
    obtain ⟨r, hr, rfl⟩ := Plant.exists_of_mem_handles ih.2
    obtain ⟨item, hmade⟩ := exists_made ih.1
    obtain ⟨n, hn, hk⟩ := hpar
    rw [hu.built _ hmade, Option.some_inj] at hn
    subst hn
    refine ⟨(hc.made_of_appended hk).2, ?_⟩
    have hrp : r ∈ p.postorder := Plant.postorder_subset q hq hr
    obtain ⟨c, hcr, rfl⟩ := List.mem_map.mp ((h.children r hrp).subset hk)
    rw [← Plant.map_handle_postorder]
    exact List.mem_map_of_mem (Plant.child_mem_postorder hr hcr)

/-- No node is below a child that it is given, for it is not in the plant either. -/
theorem not_below {cs₀ : List Change} {t : σ}
    (h : A.Fits (A.after cs₀) (cs ++ [.append q.handle child]) p)
    (hc : A.Constructs (A.after cs₀) cs) (hu : A.Underway cs₀ cs t) (hq : q ∈ p.postorder)
    (hm : child ∈ A.issuedFrom (A.after cs₀) cs) : ¬ (A.links t).Below child q.handle := by
  intro hb
  obtain ⟨c, hcq, rfl⟩ := List.mem_map.mp (h.next_mem hq)
  have hd := h.nodup.sublist (Plant.handles_sublist_of_mem_postorder hq)
  rw [Plant.handles_eq] at hd
  have hmem := (h.of_append.mem_handles_of_below hc hu (Plant.child_mem_postorder hq hcq) hm hb).2
  exact List.disjoint_of_nodup_append hd ((Plant.handles_sublist_of_mem hcq).subset hmem)
    (List.mem_singleton.mpr rfl)

end Fits

section

variable {σ : Type} {A : Arena σ} {cs₀ cs : List Change} {p : Plant}

/-- The run lemma: a history that builds a plant is not refused anything, as far as it goes. -/
theorem Constructs.underway (hA : A.Lawful) (hc : A.Constructs (A.after cs₀) cs)
    (hp : A.Fits (A.after cs₀) cs p) : ∃ t, A.Underway cs₀ cs t := by
  induction hc with
  | start => exact ⟨_, .start A cs₀⟩
  | add before item ih =>
    obtain ⟨t, h⟩ := ih hp.of_append
    exact ⟨_, h.add hA before item⟩
  | append before hparent hchild ih =>
    obtain ⟨t, h⟩ := ih hp.of_append
    obtain ⟨q, hq, rfl⟩ := Plant.exists_of_mem_handles (hp.of_append.made hparent)
    exact h.append hA hparent hchild (hp.alone before hq) (hp.not_below before h hq hchild)

namespace Builds

theorem handles_perm (h : A.Builds (A.after cs₀) cs p) :
    (A.issuedFrom (A.after cs₀) cs).Perm p.handles := by
  rw [← map_fst_made, ← Plant.map_handle_postorder]
  have hm := h.nodes.map Prod.fst
  rwa [List.map_map] at hm

theorem fits (h : A.Builds (A.after cs₀) cs p) (hA : A.Lawful) : A.Fits (A.after cs₀) cs p := by
  have hd := List.Nodup.of_append_right (hA.issued_append_nodup cs₀ cs)
  exact ⟨h.handles_perm.nodup_iff.mp hd, h.handles_perm.subset,
    fun q hq => ⟨[], by rw [h.children q hq, List.append_nil]⟩⟩

/-- In the end the plant stands in the arena, beside all that stood there before. -/
theorem finished (h : A.Builds (A.after cs₀) cs p) (hA : A.Lawful) :
    ∃ t, A.Underway cs₀ cs t ∧ (A.links t).Stands p ∧
      ∀ q, (A.links (A.after cs₀)).Stands q → (A.links t).Stands q := by
  obtain ⟨t, hu⟩ := h.constructs.underway hA (h.fits hA)
  refine ⟨t, hu, fun q hq => ?_, fun q hq => hq.congr fun k hk => hu.kept k fun hm => ?_⟩
  · have hm : (q.handle, q.item) ∈ A.made (A.after cs₀) cs :=
      h.nodes.symm.subset (List.mem_map.mpr ⟨q, hq, rfl⟩)
    rw [hu.built _ hm, h.children q hq]
  · obtain ⟨r, hr, rfl⟩ := Plant.exists_of_mem_handles hk
    have hlive : A.links (A.after cs₀) r.handle ≠ none := by simp [hq r hr]
    have hn := hA.issued_append_nodup cs₀ cs
    exact List.disjoint_of_nodup_append hn (hA.mem_issued_of_live hlive) hm

end Builds

end

end Arena

end TreeDiff
