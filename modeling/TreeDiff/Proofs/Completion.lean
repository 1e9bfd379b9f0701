import TreeDiff.Proofs.Comparison

/-!
# Completion

Every instruction has an effect on the stack that can be told beforehand: a goal leaves the diff,
or the list of diffs, that it ends in, and assembly folds what lies on top. The completion of an
agenda is the effect of all its instructions. Taking a goal apart does not change it, nor does
carrying out assembly, so a machine completes to the same stack in all its states.
-/

set_option autoImplicit false

namespace TreeDiff

theorem bind_ok {α β : Type} {x : Except Fault α} {f : α → Except Fault β} {r : β}
    (h : x >>= f = .ok r) : ∃ y, x = .ok y ∧ f y = .ok r := by
  cases x with
  | error e => cases h
  | ok y => exact ⟨y, rfl, h⟩

namespace Arity

def laid : Arity → List Diff → List Value
  | list, ds => [.list ds]
  | singles _, ds => (ds.map .diff).reverse

def Fits : Arity → List Diff → Prop
  | list, _ => True
  | singles n, ds => ds.length = n

end Arity

namespace Value

theorem takeDiffs_append (ds acc : List Diff) (values : List Value) :
    takeDiffs ds.length (ds.map .diff ++ values) acc = .ok (ds.reverse ++ acc, values) := by
  induction ds generalizing acc with
  | nil => rfl
  | cons d ds ih =>
    show takeDiffs ds.length (ds.map .diff ++ values) (d :: acc) = _
    rw [ih, List.reverse_cons, List.append_assoc, List.singleton_append]

/-- Diffs are taken only off a stack that has them on top, in the order in which they lie. -/
theorem takeDiffs_ok {n : Nat} {values rest : List Value} {ds acc : List Diff}
    (h : takeDiffs n values acc = .ok (ds, rest)) :
    ∃ es : List Diff, es.length = n ∧ values = es.map .diff ++ rest ∧ ds = es.reverse ++ acc := by
  induction n generalizing values acc with
  | zero =>
    cases h
    exact ⟨[], rfl, rfl, rfl⟩
  | succ n ih =>
    cases values with
    | nil => cases h
    | cons v values =>
      cases v with
      | list es => cases h
      | diff d =>
        obtain ⟨es, hn, hv, hd⟩ := ih h
        refine ⟨d :: es, congrArg (· + 1) hn, congrArg (Value.diff d :: ·) hv, ?_⟩
        rw [hd, List.reverse_cons, List.append_assoc, List.singleton_append]

theorem takeChildren_laid {arity : Arity} {ds : List Diff} (h : arity.Fits ds)
    (values : List Value) : takeChildren arity (arity.laid ds ++ values) = .ok (ds, values) := by
  cases arity with
  | list => rfl
  | singles n =>
    cases h
    have hr := takeDiffs_append ds.reverse [] values
    rwa [List.length_reverse, List.map_reverse, List.reverse_reverse, List.append_nil] at hr

theorem takeChildren_ok {arity : Arity} {values rest : List Value} {ds : List Diff}
    (h : takeChildren arity values = .ok (ds, rest)) :
    arity.Fits ds ∧ values = arity.laid ds ++ rest := by
  cases arity with
  | list =>
    cases values with
    | nil => cases h
    | cons v values =>
      cases v with
      | diff d => cases h
      | list es => cases h; exact ⟨trivial, rfl⟩
  | singles n =>
    obtain ⟨es, hn, rfl, rfl⟩ := takeDiffs_ok h
    rw [List.append_nil]
    refine ⟨(List.length_reverse).trans hn, ?_⟩
    show _ = (es.reverse.map Value.diff).reverse ++ rest
    rw [List.map_reverse, List.reverse_reverse]

theorem takeSlot_append (slot : Option Diff) (values : List Value) :
    takeSlot slot.isSome (slot.toList.map .diff ++ values) = .ok (slot, values) := by
  cases slot <;> rfl

theorem takeSlot_ok {slotted : Bool} {values rest : List Value} {slot : Option Diff}
    (h : takeSlot slotted values = .ok (slot, rest)) :
    slotted = slot.isSome ∧ values = slot.toList.map .diff ++ rest := by
  cases slotted with
  | false => cases h; exact ⟨rfl, rfl⟩
  | true =>
    cases values with
    | nil => cases h
    | cons v values =>
      cases v with
      | diff d => cases h; exact ⟨rfl, rfl⟩
      | list es => cases h

end Value

def Goal.value (l : Limits) : Goal → Value
  | compare a b => .diff (Tree.comparison l a b)
  | zip a b =>
    .diff <|
      match Plan.zipping a b with
      | some plan => plan.diff l (Tree.comparison l) a b
      | none => .edit (.replace a b)
  | align xs ys => .list ((Tree.align l xs ys).map (Entry.ending (Tree.comparison l)))
  | delete a => .diff (.edit (.delete a))
  | insert b => .diff (.edit (.insert b))
  | replace a b => .diff (.edit (.replace a b))

namespace Instruction

def isGoal : Instruction → Bool
  | pursue _ => true
  | _ => false

def effect (l : Limits) : Instruction → List Value → Except Fault (List Value)
  | pursue goal, values => .ok (goal.value l :: values)
  | collect n, values => do
    let (ds, values) ← Value.takeDiffs n values []
    return .list ds :: values
  | merge old new slot arity, values => do
    let (children, values) ← Value.takeChildren arity values
    let (slot, values) ← Value.takeSlot slot values
    return .diff (.assemble old new slot children) :: values

end Instruction

theorem collect_effect (l : Limits) (ds : List Diff) (values : List Value) :
    (Instruction.collect ds.length).effect l ((ds.map .diff).reverse ++ values) =
      .ok (.list ds :: values) := by
  have ht : Value.takeDiffs ds.length ((ds.map .diff).reverse ++ values) [] = .ok (ds, values) :=
    Value.takeChildren_laid (show (Arity.singles ds.length).Fits ds from rfl) values
  rw [Instruction.effect, ht]
  rfl

theorem collect_effect_ok {l : Limits} {n : Nat} {values values' : List Value}
    (h : (Instruction.collect n).effect l values = .ok values') :
    ∃ ds rest, ds.length = n ∧ values = (ds.map .diff).reverse ++ rest ∧
      values' = .list ds :: rest := by
  obtain ⟨⟨ds, rest⟩, ht, hr⟩ := bind_ok h
  have hc : Value.takeChildren (.singles n) values = .ok (ds, rest) := ht
  obtain ⟨hn, hv⟩ := Value.takeChildren_ok hc
  cases hr
  exact ⟨ds, rest, hn, hv, rfl⟩

/-- A merge finds its children on top and its slot, when it has one, right under them. -/
theorem merge_effect (l : Limits) (a b : Tree) (slot : Option Diff) {arity : Arity}
    {children : List Diff} (h : arity.Fits children) (values : List Value) :
    (Instruction.merge a b slot.isSome arity).effect l
        (arity.laid children ++ (slot.toList.map .diff ++ values)) =
      .ok (.diff (.assemble a b slot children) :: values) := by
  rw [Instruction.effect, Value.takeChildren_laid h]
  show (do
    let p ← Value.takeSlot slot.isSome (slot.toList.map .diff ++ values)
    return Value.diff (.assemble a b p.1 children) :: p.2 : Except Fault (List Value)) = _
  rw [Value.takeSlot_append]
  rfl

theorem merge_effect_ok {l : Limits} {a b : Tree} {slotted : Bool} {arity : Arity}
    {values values' : List Value}
    (h : (Instruction.merge a b slotted arity).effect l values = .ok values') :
    ∃ slot children rest, slotted = slot.isSome ∧ arity.Fits children ∧
      values = arity.laid children ++ (slot.toList.map .diff ++ rest) ∧
      values' = .diff (.assemble a b slot children) :: rest := by
  obtain ⟨⟨children, under⟩, hc, hu⟩ := bind_ok h
  obtain ⟨⟨slot, rest⟩, hs, hr⟩ := bind_ok hu
  obtain ⟨hf, rfl⟩ := Value.takeChildren_ok hc
  obtain ⟨hn, rfl⟩ := Value.takeSlot_ok hs
  cases hr
  exact ⟨slot, children, rest, hn, hf, rfl, rfl⟩

def completion (l : Limits) (agenda : List Instruction) (values : List Value) :
    Except Fault (List Value) :=
  agenda.foldlM (fun values i => i.effect l values) values

theorem completion_nil (l : Limits) (values : List Value) :
    completion l [] values = .ok values := rfl

theorem completion_pursue (l : Limits) (goal : Goal) (agenda : List Instruction)
    (values : List Value) :
    completion l (.pursue goal :: agenda) values =
      completion l agenda (goal.value l :: values) := rfl

theorem completion_cons (l : Limits) (i : Instruction) (agenda : List Instruction)
    (values : List Value) :
    completion l (i :: agenda) values = i.effect l values >>= completion l agenda := rfl

theorem completion_append (l : Limits) (first rest : List Instruction) (values : List Value) :
    completion l (first ++ rest) values = completion l first values >>= completion l rest :=
  List.foldlM_append

theorem completion_pursues (l : Limits) (goals : List Goal) (values : List Value) :
    completion l (goals.map .pursue) values =
      .ok ((goals.map (Goal.value l)).reverse ++ values) := by
  induction goals generalizing values with
  | nil => rfl
  | cons goal goals ih =>
    rw [List.map_cons, completion_pursue, ih, List.map_cons, List.reverse_cons, List.append_assoc,
      List.singleton_append]

theorem value_ofEntry (l : Limits) (e : Entry Tree Tree) :
    (Goal.ofEntry e).value l = .diff (e.ending (Tree.comparison l)) := by
  cases e <;> rfl

theorem slotGoal_isSome (rec : Tree → Tree → Diff) (s r : Option Tree) :
    ((Plan.slotGoal s r).bind (Goal.ending? rec)).isSome = (Plan.slotGoal s r).isSome := by
  cases s <;> cases r <;> rfl

theorem slotGoal_values (l : Limits) (s r : Option Tree) :
    (Plan.slotGoal s r).toList.map (Goal.value l) =
      ((Plan.slotGoal s r).bind (Goal.ending? (Tree.comparison l))).toList.map .diff := by
  cases s <;> cases r <;> rfl

theorem compare_values (l : Limits) (xs ys : List Tree) :
    (List.zipWith Goal.compare xs ys).map (Goal.value l) =
      (List.zipWith (Tree.comparison l) xs ys).map .diff := by
  rw [List.map_zipWith, List.map_zipWith]
  rfl

theorem merge_completion (l : Limits) (a b : Tree) (slot : Option Diff) {arity : Arity}
    {children : List Diff} (h : arity.Fits children) (values : List Value) :
    completion l [.merge a b slot.isSome arity]
        (arity.laid children ++ (slot.toList.map .diff ++ values)) =
      .ok (.diff (.assemble a b slot children) :: values) := by
  rw [completion_cons, merge_effect l a b slot h]
  rfl

theorem plan_completion {l : Limits} {plan : Plan} {a b : Tree} (hp : plan.Matches a b)
    (values : List Value) :
    completion l (plan.agenda a b) values =
      .ok (.diff (plan.diff l (Tree.comparison l) a b) :: values) := by
  have hs : completion l (plan.slot.toList.map .pursue) values =
      .ok ((plan.slot.bind (Goal.ending? (Tree.comparison l))).toList.map .diff ++ values) := by
    rw [completion_pursues, hp.slot, slotGoal_values]
    cases (Plan.slotGoal a.form.slot? b.form.slot?).bind (Goal.ending? _) <;> rfl
  have hn : plan.slot.isSome =
      (plan.slot.bind (Goal.ending? (Tree.comparison l))).isSome := by
    rw [hp.slot, slotGoal_isSome]
  unfold Plan.agenda Plan.diff
  rw [completion_append, hs]
  show completion l _ _ = _
  rcases hp.children with ⟨hc, -⟩ | ⟨hc, -⟩
  · rw [hc]
    show completion l [.pursue (.align _ _), .merge a b plan.slot.isSome .list] _ = _
    rw [hn, completion_pursue]
    exact merge_completion l a b _ (show Arity.list.Fits _ from trivial) values
  · rw [hc]
    show completion l (_ ++ [.merge a b plan.slot.isSome (.singles _)]) _ = _
    rw [hn, completion_append, completion_pursues, compare_values, Work.endings_positional]
    apply merge_completion l a b _ _ values
    simp [Arity.Fits]

/-- The work that a goal stands for has the effect of the goal. -/
theorem unfold_completion {l : Limits} {goal : Goal} {work : List Instruction}
    (h : goal.unfold l = .inl work) (values : List Value) :
    completion l work values = .ok (goal.value l :: values) := by
  cases Goal.unfolds h with
  | aligned ha =>
    rw [Goal.value, Tree.comparison_eq, Tree.comparisonBy, Plan.matching, ha,
      plan_completion (Plan.aligning_matches ha)]
  | unaligned ha =>
    rw [Goal.value, Tree.comparison_eq, Tree.comparisonBy, Plan.matching, ha]
    rfl
  | zipped hz => rw [Goal.value, hz, plan_completion (Plan.zipping_matches hz)]
  | unzipped hz => rw [Goal.value, hz, completion_pursue, completion_nil, Goal.value]
  | @align xs ys =>
    have hv : (Goal.value l ∘ Goal.ofEntry) = Value.diff ∘ Entry.ending (Tree.comparison l) :=
      funext (value_ofEntry l)
    rw [← List.map_map, completion_append, completion_pursues, List.map_map, hv, ← List.map_map,
      ← List.length_map (f := Entry.ending (Tree.comparison l))]
    show completion l [_] _ = _
    rw [completion_cons, collect_effect]
    rfl

theorem unfold_edit {l : Limits} {goal : Goal} {e : Edit} (h : goal.unfold l = .inr e) :
    goal.value l = .diff (.edit e) := by
  cases Goal.unfolds h <;> rfl

def AtGoal (agenda : List Instruction) : Prop := ∀ i ∈ agenda.head?, i.isGoal = true

theorem atGoal_nil : AtGoal [] := nofun

theorem atGoal_pursue (goal : Goal) (agenda : List Instruction) :
    AtGoal (.pursue goal :: agenda) := by
  intro i hi
  cases hi
  rfl

theorem settle_assembly (l : Limits) {i : Instruction} (hi : i.isGoal = false)
    (agenda : List Instruction) (values : List Value) :
    settle (i :: agenda) values = i.effect l values >>= settle agenda := by
  cases i with
  | pursue goal => cases hi
  | collect n =>
    rw [settle, Instruction.effect, bind_assoc]
    rfl
  | merge old new slot arity =>
    rw [settle, Instruction.effect, bind_assoc]
    congr 1
    funext p
    rw [bind_assoc]
    rfl

theorem settle_atGoal {agenda : List Instruction} (h : AtGoal agenda) (values : List Value) :
    settle agenda values = .ok (agenda, values) := by
  cases agenda with
  | nil => rfl
  | cons i agenda =>
    cases i with
    | pursue goal => rfl
    | collect n => cases h _ rfl
    | merge old new slot arity => cases h _ rfl

theorem settle_completes {l : Limits} {agenda : List Instruction} {values r : List Value}
    (h : completion l agenda values = .ok r) :
    ∃ agenda' values', settle agenda values = .ok (agenda', values') ∧ AtGoal agenda' ∧
      completion l agenda' values' = .ok r := by
  induction agenda generalizing values with
  | nil => exact ⟨[], values, rfl, atGoal_nil, h⟩
  | cons i agenda ih =>
    cases hi : i.isGoal with
    | true =>
      have hg : AtGoal (i :: agenda) := by
        intro j hj
        cases hj
        exact hi
      exact ⟨_, _, settle_atGoal hg values, hg, h⟩
    | false =>
      rw [completion_cons] at h
      obtain ⟨values', he, h⟩ := bind_ok h
      rw [settle_assembly l hi, he]
      exact ih h

namespace Machine

structure OnCourse (m : Machine) (l : Limits) (r : List Value) : Prop where
  limits : m.limits = l
  atGoal : AtGoal m.agenda
  completion : completion l m.agenda m.values = .ok r

theorem start_onCourse (l : Limits) (old new : Tree) :
    (start l old new).OnCourse l [.diff (Tree.comparison l old new)] :=
  ⟨rfl, atGoal_pursue _ _, rfl⟩

theorem settled_atGoal {m : Machine} (h : AtGoal m.agenda) : m.settled = .ok m := by
  rw [settled, settle_atGoal h]
  rfl

theorem settled_onCourse {m : Machine} {l : Limits} {r : List Value} (hl : m.limits = l)
    (h : TreeDiff.completion l m.agenda m.values = .ok r) :
    ∃ m', m.settled = .ok m' ∧ m'.OnCourse l r ∧ m'.steps = m.steps := by
  obtain ⟨agenda, values, hs, hg, hc⟩ := settle_completes h
  refine ⟨{ m with agenda, values }, ?_, ⟨hl, hg, hc⟩, rfl⟩
  rw [settled, hs]
  rfl

theorem unfolded_completion (m : Machine) (goal : Goal) (agenda : List Instruction) :
    completion m.limits (m.unfolded goal agenda).agenda (m.unfolded goal agenda).values =
      completion m.limits (.pursue goal :: agenda) m.values := by
  rw [completion_pursue, unfolded]
  split
  · next work hw => rw [completion_append, unfold_completion hw]; rfl
  · next e he => rw [unfold_edit he]

theorem unfolded_limits (m : Machine) (goal : Goal) (agenda : List Instruction) :
    (m.unfolded goal agenda).limits = m.limits := by
  rw [unfolded]
  split <;> rfl

theorem unfolded_steps (m : Machine) (goal : Goal) (agenda : List Instruction) :
    (m.unfolded goal agenda).steps = m.steps + 1 := by
  rw [unfolded]
  split <;> rfl

theorem advance_pursue {m : Machine} {goal : Goal} {agenda : List Instruction}
    (h : m.agenda = .pursue goal :: agenda) :
    m.advance = some <$> (m.unfolded goal agenda).settled := by
  have hs : m.settled = .ok m := settled_atGoal (by rw [h]; exact atGoal_pursue _ _)
  rw [advance, hs]
  simp only [bind, Except.bind, h]

theorem advance_done {m : Machine} (h : m.agenda = []) : m.advance = .ok none := by
  have hs : m.settled = .ok m := settled_atGoal (by rw [h]; exact atGoal_nil)
  rw [advance, hs]
  simp only [bind, Except.bind, h]
  rfl

/-- A step keeps the course, and the course is over when the agenda is empty. -/
theorem advance_onCourse {m : Machine} {l : Limits} {r : List Value} (h : m.OnCourse l r) :
    (m.agenda = [] ∧ m.values = r) ∨
      ∃ goal agenda m', m.agenda = .pursue goal :: agenda ∧ m.advance = .ok (some m') ∧
        m'.OnCourse l r ∧ m'.steps = m.steps + 1 := by
  cases ha : m.agenda with
  | nil =>
    have hc := h.completion
    rw [ha, completion_nil] at hc
    cases hc
    exact .inl ⟨rfl, rfl⟩
  | cons i agenda =>
    have hi := h.atGoal i (by rw [ha]; rfl)
    cases i with
    | collect n => cases hi
    | merge old new slot arity => cases hi
    | pursue goal =>
      have hc : completion l (m.unfolded goal agenda).agenda (m.unfolded goal agenda).values =
          .ok r := by
        rw [← h.limits, unfolded_completion, h.limits, ← ha]
        exact h.completion
      obtain ⟨m', hs, hm, hn⟩ := settled_onCourse ((unfolded_limits ..).trans h.limits) hc
      refine .inr ⟨goal, agenda, m', rfl, ?_, hm, hn.trans (unfolded_steps ..)⟩
      rw [advance_pursue ha, hs]
      rfl

/-- What holds of machines that are done, and of a machine when it holds after its next step, holds
of every machine on course. -/
theorem onCourse_induction {l : Limits} {r : List Value} {P : (m : Machine) → m.OnCourse l r → Prop}
    (done : ∀ m h, m.agenda = [] → m.values = r → P m h)
    (step : ∀ m h m' h' goal agenda, m.agenda = .pursue goal :: agenda →
      m.advance = .ok (some m') → m'.steps = m.steps + 1 → P m' h' → P m h)
    (m : Machine) (h : m.OnCourse l r) : P m h := by
  rcases advance_onCourse h with ⟨ha, hv⟩ | ⟨goal, agenda, m', ha, hs, h', hn⟩
  · exact done m h ha hv
  · have := advance_weight hs
    exact step m h m' h' goal agenda ha hs hn (onCourse_induction done step m' h')
termination_by m.weight

theorem run_done {m : Machine} (h : m.agenda = []) : m.run = m.result := by
  rw [run]
  split
  · next e he => rw [advance_done h] at he; cases he
  · rfl
  · next m' he => rw [advance_done h] at he; cases he

theorem run_advance {m m' : Machine} (hs : m.advance = .ok (some m')) : m.run = m'.run := by
  rw [run]
  split
  · next e he => rw [hs] at he; cases he
  · next he => rw [hs] at he; cases he
  · next he => rw [hs] at he; cases he; rfl

theorem run_onCourse {m : Machine} {l : Limits} {d : Diff} (h : m.OnCourse l [.diff d]) :
    m.run = .ok d := by
  induction m, h using onCourse_induction with
  | done m h ha hv =>
    rw [run_done ha, result, hv]
    rfl
  | step m h m' h' goal agenda ha hs hn ih => rw [run_advance hs, ih]

end Machine

theorem run_start (l : Limits) (old new : Tree) :
    (Machine.start l old new).run = .ok (Tree.comparison l old new) :=
  Machine.run_onCourse (Machine.start_onCourse l old new)

theorem diff_eq_comparison (l : Limits) (old new : Tree) :
    old.diff l new = .ok (Tree.comparison l old new) := run_start l old new

end TreeDiff
