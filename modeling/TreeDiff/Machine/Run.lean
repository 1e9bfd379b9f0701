import TreeDiff.Alignment.Conservation
import TreeDiff.Machine

/-!
# Runs

Every step makes the agenda lighter: a goal weighs more than all the work it stands for, because
the parts of two trees have two nodes fewer than the trees, and an alignment conserves its lists.
So a machine can be run to its end, and so can the sequence of the goals that it meets on the way.
-/

set_option autoImplicit false

namespace TreeDiff

def pairWeight (a b : Tree) : Nat := 4 * a.nodes + 4 * b.nodes

def listWeight (ts : List Tree) : Nat := total (ts.map fun t => 4 * t.nodes)

def Goal.weight : Goal → Nat
  | compare a b => pairWeight a b
  | zip a b => pairWeight a b - 1
  | align xs ys => listWeight xs + listWeight ys + 2
  | delete _ | insert _ | replace _ _ => 1

def Instruction.weight : Instruction → Nat
  | pursue goal => goal.weight
  | merge .. | collect _ => 1

def agendaWeight (agenda : List Instruction) : Nat := total (agenda.map Instruction.weight)

@[simp] theorem agendaWeight_nil : agendaWeight [] = 0 := rfl

@[simp] theorem agendaWeight_cons (i : Instruction) (agenda : List Instruction) :
    agendaWeight (i :: agenda) = i.weight + agendaWeight agenda := rfl

@[simp] theorem agendaWeight_append (xs ys : List Instruction) :
    agendaWeight (xs ++ ys) = agendaWeight xs + agendaWeight ys := by
  simp [agendaWeight]

def Machine.weight (m : Machine) : Nat := agendaWeight m.agenda

theorem four_nodes (t : Tree) : 4 * t.nodes = 4 + listWeight t.form.parts := by
  rw [Tree.nodes_eq, listWeight]
  induction t.form.parts with
  | nil => rfl
  | cons x xs ih => simp only [List.map_cons, total_cons] at ih ⊢; omega

theorem listWeight_parts (form : Form Tree) :
    listWeight form.parts = listWeight form.slot?.toList + listWeight form.children := by
  simp [Form.parts, listWeight]

theorem four_le_nodes (t : Tree) : 4 ≤ 4 * t.nodes := by
  have := t.nodes_pos
  omega

theorem zipWith_weight (xs ys : List Tree) :
    total ((List.zipWith Goal.compare xs ys).map Goal.weight) ≤ listWeight xs + listWeight ys := by
  induction xs generalizing ys with
  | nil => simp
  | cons x xs ih =>
    cases ys with
    | nil => simp
    | cons y ys =>
      have := ih ys
      simp only [listWeight, List.zipWith_cons_cons, List.map_cons, total_cons, Goal.weight,
        pairWeight] at this ⊢
      omega

namespace Plan

def Fits (plan : Plan) (a b : Tree) : Prop :=
  (plan.slot.map Goal.weight).getD 0 +
      (match plan.children with
        | .aligned xs ys => listWeight xs + listWeight ys
        | .positional goals => total (goals.map Goal.weight)) ≤
    listWeight a.form.parts + listWeight b.form.parts

theorem slotGoal_weight (s r : Option Tree) :
    ((slotGoal s r).map Goal.weight).getD 0 ≤ listWeight s.toList + listWeight r.toList := by
  cases s with
  | none =>
    cases r with
    | none => simp [slotGoal]
    | some r => have := four_le_nodes r; simp [slotGoal, Goal.weight, listWeight]; omega
  | some s =>
    cases r with
    | none => have := four_le_nodes s; simp [slotGoal, Goal.weight, listWeight]; omega
    | some r => simp [slotGoal, Goal.weight, listWeight, pairWeight]

theorem fits_of_aligning {a b : Tree} {plan : Plan} (h : aligning a b = some plan) :
    plan.Fits a b := by
  unfold aligning at h
  split at h
  · split at h
    · next xs ys ha hb => cases h; simp [Fits, ha, hb, Form.parts, Form.slot?, Form.children]
    · next s xs r ys ha hb =>
      cases h
      have := slotGoal_weight s r
      simp only [Fits, ha, hb, listWeight_parts, Form.slot?, Form.children] at this ⊢
      omega
    · cases h
  · cases h

theorem fits_of_byPosition {a b : Tree} {slot : Option Goal} {xs ys : List Tree} {plan : Plan}
    (h : byPosition slot xs ys = some plan) (ha : a.form.children = xs) (hb : b.form.children = ys)
    (hs : (slot.map Goal.weight).getD 0 ≤
      listWeight a.form.slot?.toList + listWeight b.form.slot?.toList) :
    plan.Fits a b := by
  unfold byPosition at h
  split at h
  · cases h
    have := zipWith_weight xs ys
    simp only [Fits, listWeight_parts, ha, hb] at this ⊢
    omega
  · cases h

theorem fits_of_zipping {a b : Tree} {plan : Plan} (h : zipping a b = some plan) :
    plan.Fits a b := by
  unfold zipping at h
  split at h
  · split at h
    · split at h <;> cases h
      simp [Fits]
    · next ha hb => exact fits_of_byPosition h (by rw [ha]; rfl) (by rw [hb]; rfl) (by simp)
    · next ha hb => exact fits_of_byPosition h (by rw [ha]; rfl) (by rw [hb]; rfl) (by simp)
    · next s xs r ys ha hb =>
      refine fits_of_byPosition h (by rw [ha]; rfl) (by rw [hb]; rfl) ?_
      rw [ha, hb]
      exact slotGoal_weight (some s) (some r)
    · next ha hb => exact fits_of_byPosition h (by rw [ha]; rfl) (by rw [hb]; rfl) (by simp)
    · cases h
  · cases h

theorem map_pursue_weight (goals : List Goal) :
    agendaWeight (goals.map .pursue) = total (goals.map Goal.weight) := by
  simp [agendaWeight, Function.comp_def, Instruction.weight]

theorem agenda_weight {plan : Plan} {a b : Tree} (h : plan.Fits a b) :
    agendaWeight (plan.agenda a b) + 5 ≤ pairWeight a b := by
  have ha := four_nodes a
  have hb := four_nodes b
  have hs : agendaWeight (plan.slot.toList.map .pursue) =
      (plan.slot.map Goal.weight).getD 0 := by
    cases plan.slot <;> simp [Instruction.weight]
  unfold Fits at h
  unfold agenda pairWeight
  rw [agendaWeight_append, hs]
  cases hc : plan.children with
  | aligned xs ys =>
    simp only [hc, agendaWeight_cons, agendaWeight_nil, Instruction.weight, Goal.weight] at h ⊢
    omega
  | positional goals =>
    simp only [hc, agendaWeight_append, map_pursue_weight, agendaWeight_cons, agendaWeight_nil,
      Instruction.weight] at h ⊢
    omega

end Plan

theorem Goal.weight_pos (goal : Goal) : 0 < goal.weight := by
  cases goal with
  | zip a b => have := four_le_nodes a; simp only [weight, pairWeight]; omega
  | compare a b => have := four_le_nodes a; simp only [weight, pairWeight]; omega
  | _ => simp [weight]

theorem entries_weight (es : List (Entry Tree Tree)) :
    agendaWeight (es.map (.pursue ∘ Goal.ofEntry)) ≤
      total (es.map (Entry.weigh (fun t => 4 * t.nodes) (fun t => 4 * t.nodes))) := by
  induction es with
  | nil => simp
  | cons e es ih =>
    simp only [List.map_cons, agendaWeight_cons, total_cons, Function.comp_apply]
    refine Nat.add_le_add ?_ ih
    cases e with
    | old a => exact Nat.le_trans (show 1 ≤ 4 by decide) (four_le_nodes a)
    | new b => exact Nat.le_trans (show 1 ≤ 4 by decide) (four_le_nodes b)
    | paired a b => exact Nat.le_refl _

/-- The work that a goal leads to is lighter than the goal. -/
theorem Goal.unfold_weight {l : Limits} {goal : Goal} {work : List Instruction}
    (h : goal.unfold l = .inl work) : agendaWeight work < goal.weight := by
  cases Goal.unfolds h with
  | @aligned a b plan hp =>
    have := Plan.agenda_weight (Plan.fits_of_aligning hp)
    simp only [weight]
    omega
  | @unaligned a b =>
    have := four_le_nodes a
    simp only [agendaWeight_cons, agendaWeight_nil, Instruction.weight, weight, pairWeight]
    omega
  | @zipped a b plan hp =>
    have := Plan.agenda_weight (Plan.fits_of_zipping hp)
    simp only [weight]
    omega
  | @unzipped a b =>
    have := four_le_nodes a
    have := four_le_nodes b
    simp only [agendaWeight_cons, agendaWeight_nil, Instruction.weight, weight, pairWeight]
    omega
  | @align xs ys =>
    have := entries_weight (Tree.align l xs ys)
    rw [Tree.align, Judge.total_weigh_align] at this
    simp only [agendaWeight_append, agendaWeight_cons, agendaWeight_nil, Instruction.weight, weight,
      Tree.align, listWeight] at this ⊢
    omega

theorem settle_weight {agenda agenda' : List Instruction} {values values' : List Value}
    (h : settle agenda values = .ok (agenda', values')) :
    agendaWeight agenda' ≤ agendaWeight agenda := by
  induction agenda generalizing values with
  | nil => cases h; exact Nat.le_refl _
  | cons i agenda ih =>
    cases i with
    | pursue goal => cases h; exact Nat.le_refl _
    | collect n =>
      rw [settle] at h
      cases hd : Value.takeDiffs n values [] with
      | error e => simp [hd, bind, Except.bind] at h
      | ok p =>
        simp only [hd, bind, Except.bind] at h
        exact Nat.le_trans (ih h) (by simp)
    | merge old new slot arity =>
      rw [settle] at h
      cases hc : Value.takeChildren arity values with
      | error e => simp [hc, bind, Except.bind] at h
      | ok p =>
        simp only [hc, bind, Except.bind] at h
        cases hs : Value.takeSlot slot p.2 with
        | error e => simp [hs] at h
        | ok q =>
          simp only [hs] at h
          exact Nat.le_trans (ih h) (by simp)

namespace Machine

theorem settled_weight {m m' : Machine} (h : m.settled = .ok m') : m'.weight ≤ m.weight := by
  unfold settled at h
  cases hs : settle m.agenda m.values with
  | error e => simp [hs, bind, Except.bind] at h
  | ok p =>
    simp only [hs, bind, Except.bind, pure, Except.pure, Except.ok.injEq] at h
    subst h
    exact settle_weight hs

/-- Every step makes the agenda lighter. -/
theorem advance_weight {m m' : Machine} (h : m.advance = .ok (some m')) :
    m'.weight < m.weight := by
  unfold advance at h
  cases hs : m.settled with
  | error e => simp [hs, bind, Except.bind] at h
  | ok m₁ =>
    simp only [hs, bind, Except.bind] at h
    refine Nat.lt_of_lt_of_le ?_ (settled_weight hs)
    split at h
    · next goal agenda ha =>
      cases hu : (m₁.unfolded goal agenda).settled with
      | error e => simp [hu, Functor.map, Except.map] at h
      | ok m₂ =>
        simp only [hu, Functor.map, Except.map, Except.ok.injEq, Option.some.injEq] at h
        subst h
        refine Nat.lt_of_le_of_lt (settled_weight hu) ?_
        simp only [weight, ha, agendaWeight_cons, Instruction.weight, unfolded]
        split
        · next work hw =>
          have := Goal.unfold_weight hw
          simp only [agendaWeight_append]
          omega
        · have := goal.weight_pos
          simp only
          omega
    · cases h

def run (m : Machine) : Except Fault Diff :=
  match _ : m.advance with
  | .error e => .error e
  | .ok none => m.result
  | .ok (some m') => m'.run
termination_by m.weight
decreasing_by exact advance_weight ‹_›

end Machine

inductive Progress where
  | goal (g : Goal)
  | done (d : Diff)

namespace Machine

def observe (m : Machine) : Except Fault (Progress × Option Machine) := do
  match m.nextGoal? with
  | some g => return (.goal g, (← m.advance).getD m)
  | none => return (.done (← m.result), none)

def progress (m : Machine) : Except Fault (List Progress) :=
  match m.nextGoal? with
  | none => do return [.done (← m.result)]
  | some g =>
    match _ : m.advance with
    | .error e => .error e
    | .ok none => .ok [.goal g]
    | .ok (some m') => do return .goal g :: (← m'.progress)
termination_by m.weight
decreasing_by exact advance_weight ‹_›

end Machine

structure Observer where
  machine : Option Machine

def Machine.observer (m : Machine) : Observer := ⟨some m⟩

namespace Observer

def next (o : Observer) : Except Fault (Option Progress × Observer) :=
  match o.machine with
  | none => return (none, o)
  | some m => do
    let (p, m') ← m.observe
    return (some p, ⟨m'⟩)

def answers : Nat → Observer → Except Fault (List (Option Progress))
  | 0, _ => return []
  | n + 1, o => do
    let (p, o') ← o.next
    return p :: (← o'.answers n)

end Observer

def Tree.diff (l : Limits) (old new : Tree) : Except Fault Diff := (Machine.start l old new).run

end TreeDiff
