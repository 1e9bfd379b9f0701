import Mathlib.Algebra.BigOperators.Group.List.Basic
import TreeDiff.Proofs.Reachable
import TreeDiff.Proofs.Sizes

/-!
# Conservation of coverage

At every point of a run each node of either input is accounted for once: by a finished diff, by a
merge that waits for its parts, or by a goal that is still to be taken apart. Every instruction
passes on exactly the nodes that it accounts for, so that the final diff covers both inputs.
-/

set_option autoImplicit false

namespace TreeDiff

namespace Coverage

instance : Zero Coverage := ⟨⟨0, 0⟩⟩

instance : Add Coverage := ⟨fun c d => ⟨c.old + d.old, c.new + d.new⟩⟩

@[simp] theorem mk_add (m n p q : Nat) : (⟨m, n⟩ + ⟨p, q⟩ : Coverage) = ⟨m + p, n + q⟩ := rfl

theorem zero_mk : (0 : Coverage) = ⟨0, 0⟩ := rfl

instance : AddCommMonoid Coverage where
  add_assoc c d e := by cases c; cases d; cases e; simp [Nat.add_assoc]
  zero_add c := by cases c; simp [zero_mk]
  add_zero c := by cases c; simp [zero_mk]
  add_comm c d := by cases c; cases d; simp [Nat.add_comm]
  nsmul := nsmulRec

theorem tally_eq (c : Coverage) (d : Diff) : c.tally d = c + Coverage.tally {} d := by
  cases d with
  | merge old new form => rfl
  | edit e => cases c; simp [tally]

theorem foldl_tally (c : Coverage) (ds : List Diff) :
    ds.foldl tally c = c + (ds.map (Coverage.tally {})).sum := by
  induction ds generalizing c with
  | nil => exact (add_zero c).symm
  | cons d ds ih => rw [List.foldl_cons, ih, tally_eq, List.map_cons, List.sum_cons, add_assoc]

end Coverage

theorem coverage_eq (d : Diff) : d.coverage = (d.walk.map (Coverage.tally {})).sum := by
  rw [Diff.coverage, Coverage.foldl_tally]
  exact zero_add _

theorem coverage_edit (e : Edit) : (Diff.edit e).coverage = ⟨e.oldSize, e.newSize⟩ := by
  rw [coverage_eq, Diff.walk, Diff.fold_edit]
  simp [Coverage.tally]

theorem coverage_merge (old new : Tag) (form : Form Diff) :
    (Diff.merge old new form).coverage = ⟨1, 1⟩ + (form.parts.map Diff.coverage).sum := by
  have hw : (Diff.merge old new form).walk =
      .merge old new form :: (form.parts.map Diff.walk).flatten := by
    rw [Diff.walk, Diff.fold_merge, Form.parts_map]
  rw [coverage_eq, hw, List.map_cons, List.sum_cons]
  congr 1
  induction form.parts with
  | nil => rfl
  | cons d ds ih =>
    rw [List.map_cons, List.flatten_cons, List.map_append, List.sum_append, ih, ← coverage_eq,
      List.map_cons, List.sum_cons]

def Value.coverage : Value → Coverage
  | diff d => d.coverage
  | list ds => (ds.map Diff.coverage).sum

def Goal.coverage : Goal → Coverage
  | compare a b | zip a b | replace a b => ⟨a.size, b.size⟩
  | align xs ys => ⟨total (xs.map Tree.size), total (ys.map Tree.size)⟩
  | delete a => ⟨a.size, 0⟩
  | insert b => ⟨0, b.size⟩

def Instruction.coverage : Instruction → Coverage
  | pursue goal => goal.coverage
  | merge .. => ⟨1, 1⟩
  | collect _ => 0

def covered (agenda : List Instruction) (values : List Value) : Coverage :=
  (values.map Value.coverage).sum + (agenda.map Instruction.coverage).sum

def Goal.trees : Goal → List Tree
  | compare a b | zip a b | replace a b => [a, b]
  | align xs ys => xs ++ ys
  | delete a => [a]
  | insert b => [b]

def Instruction.Sound : Instruction → Prop
  | pursue goal => ∀ t ∈ goal.trees, t.WellSized
  | merge _ new slotted arity =>
    (new.form.shape ≠ .container → slotted = false) ∧ (new.form.shape = .leaf → arity = .singles 0)
  | collect _ => True

theorem size_parts {t : Tree} (h : t.WellSized) :
    t.size = 1 + (total (t.form.slot?.toList.map Tree.size) +
      total (t.form.children.map Tree.size)) := by
  rw [h.size_eq, Form.parts, List.map_append, total_append]

theorem slot_coverage (old new : Option Tree) :
    (((Plan.slotGoal old new).toList.map .pursue).map Instruction.coverage).sum =
      ⟨total (old.toList.map Tree.size), total (new.toList.map Tree.size)⟩ := by
  cases old <;> cases new <;> simp [Plan.slotGoal, Instruction.coverage, Goal.coverage]
  rfl

theorem compare_coverage {xs ys : List Tree} (hn : xs.length = ys.length) :
    (((List.zipWith Goal.compare xs ys).map .pursue).map Instruction.coverage).sum =
      ⟨total (xs.map Tree.size), total (ys.map Tree.size)⟩ := by
  induction xs generalizing ys with
  | nil =>
    cases ys with
    | nil => rfl
    | cons y ys => cases hn
  | cons x xs ih =>
    cases ys with
    | nil => cases hn
    | cons y ys =>
      rw [List.zipWith_cons_cons, List.map_cons, List.map_cons, List.sum_cons,
        ih (Nat.succ.inj hn)]
      rfl

theorem entries_coverage (es : List (Entry Tree Tree)) :
    ((es.map (.pursue ∘ Goal.ofEntry)).map Instruction.coverage).sum =
      ⟨total ((es.filterMap Entry.old?).map Tree.size),
        total ((es.filterMap Entry.new?).map Tree.size)⟩ := by
  induction es with
  | nil => rfl
  | cons e es ih =>
    rw [List.map_cons, List.map_cons, List.sum_cons, ih]
    cases e <;> simp [Instruction.coverage, Goal.ofEntry, Goal.coverage, List.filterMap_cons]

theorem plan_coverage {plan : Plan} {a b : Tree} (hp : plan.Matches a b) (ha : a.WellSized)
    (hb : b.WellSized) :
    ((plan.agenda a b).map Instruction.coverage).sum = ⟨a.size, b.size⟩ := by
  rw [size_parts ha, size_parts hb, Plan.agenda, List.map_append, List.sum_append, hp.slot,
    slot_coverage]
  rcases hp.children with ⟨hc, -⟩ | ⟨hc, hn⟩
  · rw [hc]
    simp [Instruction.coverage, Goal.coverage]
    omega
  · rw [hc]
    dsimp only
    rw [List.map_append, List.sum_append, compare_coverage hn]
    simp [Instruction.coverage]
    omega

theorem slotGoal_trees {s r : Option Tree} {goal : Goal} (h : goal ∈ Plan.slotGoal s r) :
    ∀ t ∈ goal.trees, t ∈ s ∨ t ∈ r := by
  intro t ht
  cases s with
  | none =>
    cases r with
    | none => cases h
    | some y =>
      cases h
      cases List.mem_singleton.mp ht
      exact .inr rfl
  | some x =>
    cases r with
    | none =>
      cases h
      cases List.mem_singleton.mp ht
      exact .inl rfl
    | some y =>
      cases h
      rcases List.mem_pair.mp ht with rfl | rfl
      · exact .inl rfl
      · exact .inr rfl

theorem compare_trees {xs ys : List Tree} {goal : Goal}
    (h : goal ∈ List.zipWith Goal.compare xs ys) : ∀ t ∈ goal.trees, t ∈ xs ∨ t ∈ ys := by
  intro t ht
  rw [← List.map_uncurry_zip_eq_zipWith] at h
  obtain ⟨⟨x, y⟩, hz, rfl⟩ := List.mem_map.mp h
  have hm := List.of_mem_zip hz
  rcases List.mem_pair.mp ht with rfl | rfl
  · exact .inl hm.1
  · exact .inr hm.2

theorem plan_sound {plan : Plan} {a b : Tree} (hp : plan.Matches a b) (ha : a.WellSized)
    (hb : b.WellSized) : ∀ i ∈ plan.agenda a b, i.Sound := by
  have hm {arity : Arity} (h : b.form.shape = .leaf → arity = .singles 0) :
      (Instruction.merge a b plan.slot.isSome arity).Sound := by
    refine ⟨?_, h⟩
    intro hs
    rw [hp.slot, Form.slot?_eq_none hs, Form.slot?_eq_none (hp.shape ▸ hs)]
    rfl
  intro i hi
  rcases List.mem_append.mp hi with hi | hi
  · obtain ⟨goal, hg, rfl⟩ := List.mem_map.mp hi
    rw [hp.slot] at hg
    intro t ht
    rcases slotGoal_trees (Option.mem_toList.mp hg) t ht with ht | ht
    · exact ha.slot ht
    · exact hb.slot ht
  · rcases hp.children with ⟨hc, hl⟩ | ⟨hc, hn⟩
    · rw [hc] at hi
      rcases List.mem_cons.mp hi with rfl | hi
      · intro t ht
        rcases List.mem_append.mp ht with ht | ht
        · exact ha.child ht
        · exact hb.child ht
      · obtain rfl := List.mem_singleton.mp hi
        exact hm fun h => absurd h hl
    · rw [hc] at hi
      rcases List.mem_append.mp hi with hi | hi
      · obtain ⟨goal, hg, rfl⟩ := List.mem_map.mp hi
        intro t ht
        rcases compare_trees hg t ht with ht | ht
        · exact ha.child ht
        · exact hb.child ht
      · obtain rfl := List.mem_singleton.mp hi
        apply hm
        intro h
        rw [Form.children_eq_nil h, List.zipWith_nil_right]
        rfl

theorem entry_trees {es : List (Entry Tree Tree)} {e : Entry Tree Tree} (h : e ∈ es) :
    ∀ t ∈ (Goal.ofEntry e).trees, t ∈ es.filterMap Entry.old? ∨ t ∈ es.filterMap Entry.new? := by
  intro t ht
  cases e with
  | old a =>
    cases List.mem_singleton.mp ht
    exact .inl (List.mem_filterMap.mpr ⟨_, h, rfl⟩)
  | new b =>
    cases List.mem_singleton.mp ht
    exact .inr (List.mem_filterMap.mpr ⟨_, h, rfl⟩)
  | paired a b =>
    rcases List.mem_pair.mp ht with rfl | rfl
    · exact .inl (List.mem_filterMap.mpr ⟨_, h, rfl⟩)
    · exact .inr (List.mem_filterMap.mpr ⟨_, h, rfl⟩)

/-- A goal hands on the nodes of its trees to the work that it stands for. -/
theorem unfold_coverage {l : Limits} {goal : Goal} {work : List Instruction}
    (hs : (Instruction.pursue goal).Sound) (h : goal.unfold l = .inl work) :
    (work.map Instruction.coverage).sum = goal.coverage := by
  cases Goal.unfolds h with
  | aligned hp =>
    exact plan_coverage (Plan.aligning_matches hp) (hs _ (by simp [Goal.trees]))
      (hs _ (by simp [Goal.trees]))
  | unaligned => exact add_zero _
  | zipped hp =>
    exact plan_coverage (Plan.zipping_matches hp) (hs _ (by simp [Goal.trees]))
      (hs _ (by simp [Goal.trees]))
  | unzipped => exact add_zero _
  | @align xs ys =>
    rw [List.map_append, List.sum_append, entries_coverage, Tree.align, Judge.olds_align,
      Judge.news_align]
    exact add_zero _

theorem edit_coverage {l : Limits} {goal : Goal} {e : Edit} (h : goal.unfold l = .inr e) :
    (Diff.edit e).coverage = goal.coverage := by
  rw [coverage_edit]
  cases Goal.unfolds h <;> rfl

theorem unfold_sound {l : Limits} {goal : Goal} {work : List Instruction}
    (hs : (Instruction.pursue goal).Sound) (h : goal.unfold l = .inl work) :
    ∀ i ∈ work, i.Sound := by
  intro i hi
  cases Goal.unfolds h with
  | aligned hp =>
    exact plan_sound (Plan.aligning_matches hp) (hs _ (by simp [Goal.trees]))
      (hs _ (by simp [Goal.trees])) i hi
  | unaligned =>
    cases List.mem_singleton.mp hi
    exact hs
  | zipped hp =>
    exact plan_sound (Plan.zipping_matches hp) (hs _ (by simp [Goal.trees]))
      (hs _ (by simp [Goal.trees])) i hi
  | unzipped =>
    cases List.mem_singleton.mp hi
    exact hs
  | @align xs ys =>
    rcases List.mem_append.mp hi with hi | hi
    · obtain ⟨e, he, rfl⟩ := List.mem_map.mp hi
      intro t ht
      apply hs
      have hm := entry_trees he t ht
      rw [Tree.align, Judge.olds_align, Judge.news_align] at hm
      exact List.mem_append.mpr hm
    · cases List.mem_singleton.mp hi
      trivial

theorem laid_coverage (arity : Arity) (ds : List Diff) :
    ((arity.laid ds).map Value.coverage).sum = (ds.map Diff.coverage).sum := by
  cases arity with
  | list => exact add_zero _
  | singles n =>
    rw [Arity.laid, List.map_reverse, List.sum_reverse, List.map_map]
    rfl

/-- Assembly moves the nodes of the diffs that it folds, and those of the merge itself, into one
value. -/
theorem effect_coverage {l : Limits} {i : Instruction} {values values' : List Value}
    (hi : i.isGoal = false) (hs : i.Sound) (he : i.effect l values = .ok values') :
    (values'.map Value.coverage).sum = (values.map Value.coverage).sum + i.coverage := by
  cases i with
  | pursue goal => cases hi
  | collect n =>
    obtain ⟨ds, rest, -, rfl, rfl⟩ := collect_effect_ok he
    have hd := laid_coverage (.singles n) ds
    rw [Arity.laid] at hd
    rw [List.map_append, List.sum_append, hd, List.map_cons, List.sum_cons]
    exact (add_zero _).symm
  | merge old new slotted arity =>
    obtain ⟨slot, children, rest, hn, hf, rfl, rfl⟩ := merge_effect_ok he
    have hslot : new.form.shape ≠ .container → slot = none := by
      intro h
      apply Option.not_isSome_iff_eq_none.mp
      rw [← hn, hs.1 h]
      exact Bool.false_ne_true
    have hleaf : new.form.shape = .leaf → children = [] := by
      intro h
      rw [hs.2 h] at hf
      exact List.eq_nil_of_length_eq_zero hf
    obtain ⟨form, hm, -, -, hr, hc⟩ := Diff.assemble_form old new hslot hleaf
    have hd : (Diff.assemble old new slot children).coverage =
        ⟨1, 1⟩ + ((slot.toList.map Diff.coverage).sum + (children.map Diff.coverage).sum) := by
      rw [hm, coverage_merge, Form.parts, hr, hc, List.map_append, List.sum_append]
    have hv : ((slot.toList.map Value.diff).map Value.coverage).sum =
        (slot.toList.map Diff.coverage).sum := by
      rw [List.map_map]
      rfl
    rw [List.map_append, List.map_append, List.sum_append, List.sum_append, laid_coverage, hv,
      List.map_cons, List.sum_cons, Value.coverage, hd, Instruction.coverage]
    ac_rfl

structure Accounts (old new : Tree) (s : List Instruction × List Value) : Prop where
  sound : ∀ i ∈ s.1, i.Sound
  covered : covered s.1 s.2 = ⟨old.size, new.size⟩

variable {l : Limits} {old new : Tree}

theorem start_accounts (ho : old.WellSized) (hn : new.WellSized) :
    Accounts old new ((Machine.start l old new).agenda, (Machine.start l old new).values) := by
  constructor
  · intro i hi
    cases List.mem_singleton.mp hi
    intro t ht
    rcases List.mem_pair.mp ht with rfl | rfl
    · exact ho
    · exact hn
  · exact (zero_add _).trans (add_zero _)

theorem tick_accounts {s s' : List Instruction × List Value} (ht : Tick l s s')
    (h : Accounts old new s) : Accounts old new s' := by
  have hc := h.covered
  cases ht with
  | @work goal work agenda values hw =>
    obtain ⟨hg, ha⟩ := List.forall_mem_cons.mp h.sound
    constructor
    · exact List.forall_mem_append.mpr ⟨unfold_sound hg hw, ha⟩
    · rw [← hc, covered, List.map_append, List.sum_append, unfold_coverage hg hw]
      rfl
  | @edit goal e agenda values he =>
    constructor
    · exact (List.forall_mem_cons.mp h.sound).2
    · rw [← hc, covered, covered, List.map_cons, List.sum_cons, List.map_cons, List.sum_cons,
        Value.coverage, edit_coverage he, Instruction.coverage]
      ac_rfl
  | @assembly i agenda values values' hi he =>
    obtain ⟨hg, ha⟩ := List.forall_mem_cons.mp h.sound
    constructor
    · exact ha
    · rw [← hc, covered, covered, effect_coverage hi hg he, List.map_cons, List.sum_cons,
        add_assoc]

theorem ticks_accounts {s s' : List Instruction × List Value} (ht : Ticks l s s')
    (h : Accounts old new s) : Accounts old new s' := by
  induction ht with
  | refl => exact h
  | tail _ ht ih => exact tick_accounts ht ih

/-- Instruction by instruction, a machine on course empties its agenda. -/
theorem Machine.OnCourse.ticks {m : Machine} {r : List Value} (h : m.OnCourse l r) :
    Ticks l (m.agenda, m.values) ([], r) := by
  induction m, h using onCourse_induction with
  | done m h ha hv => rw [ha, hv]
  | step m h m' h' goal agenda ha hs hn ih => exact (advance_ticks h hs).trans ih

theorem reachable_accounts {m : Machine} (ho : old.WellSized) (hn : new.WellSized)
    (h : Reachable l old new m) : Accounts old new (m.agenda, m.values) := by
  refine (reachable_induction (P := fun m => Accounts old new (m.agenda, m.values))
    (start_accounts ho hn) ?_ h).2
  intro m₁ m₂ hm ha hs
  exact ticks_accounts (Machine.advance_ticks hm hs) ha

/-- Whatever state a caller holds, and after whichever instructions, every node of both inputs is
covered; so it is in the diff that the state runs to, which is the diff of the inputs. -/
theorem reachable_coverage {m : Machine} (ho : old.WellSized) (hn : new.WellSized)
    (h : Reachable l old new m) :
    covered m.agenda m.values = ⟨old.size, new.size⟩ ∧
    (∀ agenda values, Ticks l (m.agenda, m.values) (agenda, values) →
      covered agenda values = ⟨old.size, new.size⟩) ∧
    ∃ d, m.run = .ok d ∧ old.diff l new = .ok d ∧ d.coverage = ⟨old.size, new.size⟩ := by
  have hm := reachable_onCourse h
  have ha := reachable_accounts ho hn h
  refine ⟨ha.covered, ?_, _, Machine.run_onCourse hm, diff_eq_comparison l old new, ?_⟩
  · intro agenda values ht
    exact (ticks_accounts ht ha).covered
  · rw [← (ticks_accounts hm.ticks ha).covered]
    exact ((add_zero _).trans (add_zero _)).symm

theorem callHalfDone_coverage :
    callOld.WellSized ∧ callNew.WellSized ∧ Reachable {} callOld callNew callHalfDone ∧
      covered callHalfDone.agenda callHalfDone.values = ⟨5, 5⟩ ∧
      ∃ d, callHalfDone.run = .ok d ∧ d.coverage = ⟨5, 5⟩ := by
  have ho : callOld.WellSized := by
    simp [callOld, Tree.wellSized_branch, Tree.wellSized_sequence, Tree.wellSized_leaf]
  have hn : callNew.WellSized := by
    simp [callNew, Tree.wellSized_branch, Tree.wellSized_sequence, Tree.wellSized_leaf]
  have hr : Reachable {} callOld callNew callHalfDone := .runFor 6 .start rfl
  obtain ⟨hc, -, d, hd, -, hf⟩ := reachable_coverage ho hn hr
  exact ⟨ho, hn, hr, hc, d, hd, hf⟩

end TreeDiff
