import TreeDiff.Forest.Tree
import TreeDiff.Proofs.Sizes
import TreeDiff.Proofs.Slots

/-!
# Reading

What is read at a node is decided by the plant that stands there: the first of its nodes in
post-order that does not fit its kind is reported, and if all fit, the tree is theirs node for node.
The reader goes from handle to handle and looks every one of them up. It ends since every way down
does, it never comes to a node twice, and it never finds that a node below one that it found was
removed.
-/

set_option autoImplicit false

namespace TreeDiff

def Form.kind {α : Type} : Form α → Kind
  | leaf label => .leaf label
  | sequence _ => .sequence
  | container slot _ => .container slot.isSome
  | branch _ => .branch

@[simp] theorem Form.kind_map {α β : Type} (f : α → β) (form : Form α) :
    (form.map f).kind = form.kind := by
  cases form <;> simp [map, kind]

theorem Form.eq_of_kind {α : Type} {f g : Form α} (hk : f.kind = g.kind)
    (hp : f.parts = g.parts) : f = g := by
  cases f with
  | container s xs =>
    cases g with
    | container r ys => cases s <;> cases r <;> simp_all [kind, parts, slot?, children]
    | _ => cases hk
  | _ => cases g <;> simp_all [kind, parts, slot?, children]

def Tree.item (t : Tree) : Item := ⟨t.category, t.form.kind⟩

theorem Kind.parts_of_form {kind : Kind} {slot : Nat} {ts : List Tree} {form : Form Tree}
    (h : kind.form slot ts = .ok form) : form.parts = ts := by
  cases kind with
  | leaf label =>
    cases ts with
    | nil =>
      cases h
      rfl
    | cons t ts => cases h
  | container slotted =>
    cases slotted with
    | false =>
      cases h
      rfl
    | true =>
      cases ts with
      | nil => cases h
      | cons t ts =>
        cases h
        rfl
  | _ =>
    cases h
    rfl

namespace Plant

def defect? (p : Plant) : Option ReadError :=
  match p.item.kind, p.children with
  | .leaf _, _ :: _ => some (.leafWithChildren p.handle.slot p.children.length)
  | .container true, [] => some (.missingSlot p.handle.slot)
  | _, _ => none

/-- The tree is the plant, node for node: categories, kinds and labels are the same, no node has a
fingerprint, and the parts of a node, of which a slot is the first, are its children in order. -/
inductive Depicts : Plant → Tree → Prop
  | node {p : Plant} {t : Tree} (category : t.category = p.item.category)
      (kind : t.form.kind = p.item.kind) (unmarked : t.fingerprint = none)
      (parts : List.Forall₂ Depicts p.children t.form.parts) : Depicts p t

theorem form_of_defect {p : Plant} {e : ReadError} {ts : List Tree} (hd : p.defect? = some e)
    (hn : ts.length = p.children.length) : p.item.kind.form p.handle.slot ts = .error e := by
  obtain ⟨g, ⟨category, kind⟩, ps⟩ := p
  unfold defect? at hd
  split at hd
  · next label q qs hk hq =>
    cases hd
    subst hq hk
    cases ts with
    | nil => cases hn
    | cons t ts =>
      rw [← hn]
      rfl
  · next hk hq =>
    cases hd
    subst hq hk
    obtain rfl := List.length_eq_zero_iff.mp hn
    rfl
  · cases hd

theorem form_of_fit {p : Plant} {ts : List Tree} (hd : p.defect? = none)
    (hn : ts.length = p.children.length) :
    ∃ form, p.item.kind.form p.handle.slot ts = .ok form ∧ form.kind = p.item.kind ∧
      form.parts = ts := by
  obtain ⟨g, ⟨category, kind⟩, ps⟩ := p
  cases kind with
  | leaf label =>
    cases ps with
    | nil =>
      obtain rfl := List.length_eq_zero_iff.mp hn
      exact ⟨.leaf label, rfl, rfl, rfl⟩
    | cons q qs => cases hd
  | sequence => exact ⟨.sequence ts, rfl, rfl, rfl⟩
  | container slotted =>
    cases slotted with
    | false => exact ⟨.container none ts, rfl, rfl, rfl⟩
    | true =>
      cases ps with
      | nil => cases hd
      | cons q qs =>
        cases ts with
        | nil => cases hn
        | cons t ts => exact ⟨.container (some t) ts, rfl, rfl, rfl⟩
  | branch => exact ⟨.branch ts, rfl, rfl, rfl⟩

theorem defect?_ne_removed (p : Plant) (k : Nat) : p.defect? ≠ some (.removed k) := by
  unfold defect?
  split <;> nofun

/-- The first node in post-order that does not fit is reported; if all fit, there is a tree. -/
def Yields (p : Plant) (r : Except ReadError Tree) : Prop :=
  match p.postorder.findSome? defect? with
  | some e => r = .error e
  | none => ∃ t, r = .ok t ∧ p.Depicts t ∧ t.WellSized ∧ t.size = p.postorder.length

theorem Yields.ne_removed {p : Plant} {k : Nat} : ¬ p.Yields (.error (.removed k)) := by
  intro hr
  unfold Yields at hr
  split at hr
  · next e he =>
    cases hr
    obtain ⟨q, -, hq⟩ := List.exists_of_findSome?_eq_some he
    exact q.defect?_ne_removed k hq
  · obtain ⟨t, ht, -⟩ := hr
    cases ht

theorem Yields.ok {p : Plant} {t : Tree} (hr : p.Yields (.ok t)) : p.Depicts t ∧ t.WellSized := by
  unfold Yields at hr
  split at hr
  · cases hr
  · obtain ⟨u, hu, hd, hw, -⟩ := hr
    cases hu
    exact ⟨hd, hw⟩

def YieldAll (ps : List Plant) (r : Except ReadError (List Tree)) : Prop :=
  match (postorderIn ps).findSome? defect? with
  | some e => r = .error e
  | none => ∃ ts, r = .ok ts ∧ List.Forall₂ Depicts ps ts ∧ (∀ t ∈ ts, t.WellSized) ∧
      total (ts.map Tree.size) = (postorderIn ps).length

theorem YieldAll.nil : YieldAll [] (.ok []) := ⟨[], rfl, .nil, List.forall_mem_nil _, rfl⟩

theorem YieldAll.cons {p : Plant} {ps : List Plant} {r : Except ReadError Tree}
    {rs : Except ReadError (List Tree)} (hr : p.Yields r) (hrs : YieldAll ps rs) :
    YieldAll (p :: ps) (do let t ← r; let ts ← rs; return t :: ts) := by
  rw [YieldAll, postorderIn, List.findSome?_append]
  unfold Yields at hr
  unfold YieldAll at hrs
  cases hp : p.postorder.findSome? defect? with
  | some e =>
    rw [hp] at hr
    subst hr
    rfl
  | none =>
    rw [hp] at hr
    obtain ⟨t, rfl, hd, hw, hs⟩ := hr
    rw [Option.none_or]
    cases hps : (postorderIn ps).findSome? defect? with
    | some e =>
      rw [hps] at hrs
      subst hrs
      rfl
    | none =>
      rw [hps] at hrs
      obtain ⟨ts, rfl, hds, hws, hss⟩ := hrs
      refine ⟨t :: ts, rfl, .cons hd hds, List.forall_mem_cons.mpr ⟨hw, hws⟩, ?_⟩
      rw [List.map_cons, total_cons, hs, hss, List.length_append]

/-- What a node yields is decided by what its children do and whether it fits its kind. -/
theorem YieldAll.yields {p : Plant} {rs : Except ReadError (List Tree)}
    (hrs : YieldAll p.children rs) : p.Yields (do
      let ts ← rs
      let form ← p.item.kind.form p.handle.slot ts
      return .node ⟨p.item.category, none⟩ form) := by
  rw [Yields, postorder_eq, List.findSome?_append]
  unfold YieldAll at hrs
  cases hc : (postorderIn p.children).findSome? defect? with
  | some e =>
    rw [hc] at hrs
    subst hrs
    rfl
  | none =>
    rw [hc] at hrs
    obtain ⟨ts, rfl, hds, hws, hss⟩ := hrs
    simp only [Option.none_or, List.findSome?_singleton]
    cases hd : p.defect? with
    | some e =>
      change (p.item.kind.form p.handle.slot ts >>= fun form => _) = _
      rw [form_of_defect hd hds.length_eq.symm]
      rfl
    | none =>
      obtain ⟨form, hform, hk, hparts⟩ := form_of_fit hd hds.length_eq.symm
      refine ⟨.node ⟨p.item.category, none⟩ form, ?_, ?_, ?_, ?_⟩
      · change (p.item.kind.form p.handle.slot ts >>= fun form => _) = _
        rw [hform]
        rfl
      · exact .node rfl hk rfl (by rw [Tree.node, hparts]; exact hds)
      · exact Tree.wellSized_node _ (by rw [hparts]; exact hws)
      · rw [Tree.node, hparts, hss]
        simp [Nat.add_comm]

end Plant

namespace Arena

variable {σ : Type} {A : Arena σ} {s : σ} {p : Plant}

theorem links_eq_some {h : Handle} {item : Item} {ks : List Handle}
    (hl : A.links s h = some (item, ks)) : A.item? s h = some item ∧ A.children s h = ks := by
  obtain ⟨i, hi, he⟩ := Option.map_eq_some_iff.mp hl
  cases he
  exact ⟨hi, rfl⟩

theorem Reads.unique {h : Handle} {r r' : Except ReadError Tree} (hr : A.Reads s h r)
    (hr' : A.Reads s h r') : r = r' := by
  obtain ⟨n, hn⟩ := hr
  obtain ⟨n', hn'⟩ := hr'
  have h := hn (max n n') (Nat.le_max_left n n')
  rwa [hn' _ (Nat.le_max_right n n'), Option.some_inj, eq_comm] at h

theorem run_readWithin (n : Nat) (h : Handle) : (A.readWithin s (n + 1) h).run =
    match A.item? s h with
    | none => some (.error (.removed h.slot))
    | some item => ((A.children s h).mapM (A.readWithin s n)).run.map fun r => do
        let ts ← r
        let form ← item.kind.form h.slot ts
        return .node ⟨item.category, none⟩ form := by
  rw [readWithin]
  cases A.item? s h with
  | none => rfl
  | some item =>
    dsimp only
    rw [ExceptT.run_bind]
    rcases ((A.children s h).mapM (A.readWithin s n)).run with _ | ⟨e | ts⟩
    · rfl
    · rfl
    · change (do let form ← liftM (item.kind.form h.slot ts); _ : ExceptT _ Option Tree).run =
        some (item.kind.form h.slot ts >>= fun form => _)
      cases item.kind.form h.slot ts <;> rfl

theorem readWithin_of_none {h : Handle} (hl : A.links s h = none) {n : Nat} (hn : 1 ≤ n) :
    (A.readWithin s n h).run = some (.error (.removed h.slot)) := by
  obtain ⟨n, rfl⟩ := Nat.exists_eq_succ_of_ne_zero (Nat.ne_zero_of_lt hn)
  rw [run_readWithin, Option.map_eq_none_iff.mp hl]

theorem reads_of_none {h : Handle} (hl : A.links s h = none) :
    A.Reads s h (.error (.removed h.slot)) :=
  ⟨1, fun _ => readWithin_of_none hl⟩

theorem readWithin_of_children {n : Nat} (hp : (A.links s).Stands p)
    {r : Except ReadError (List Tree)}
    (hc : ((p.children.map Plant.handle).mapM (A.readWithin s n)).run = some r) :
    (A.readWithin s (n + 1) p.handle).run = some (do
      let ts ← r
      let form ← p.item.kind.form p.handle.slot ts
      return .node ⟨p.item.category, none⟩ form) := by
  obtain ⟨hi, hk⟩ := links_eq_some (Links.stands_iff.mp hp).1
  rw [run_readWithin, hi]
  dsimp only
  rw [hk, hc, Option.map_some]

theorem exists_of_mapM {f : Handle → ExceptT ReadError Option Tree} {hs : List Handle}
    {ts : List Tree} (h : (hs.mapM f).run = some (.ok ts)) :
    ∀ t ∈ ts, ∃ k ∈ hs, (f k).run = some (.ok t) := by
  induction hs generalizing ts with
  | nil =>
    cases h
    exact List.forall_mem_nil _
  | cons k hs ih =>
    rw [List.mapM_cons, ExceptT.run_bind] at h
    rcases hk : (f k).run with _ | ⟨e | t⟩
    · rw [hk] at h
      cases h
    · rw [hk] at h
      cases h
    · rcases hks : (hs.mapM f).run with _ | ⟨e | us⟩ <;>
        simp only [hk, hks, Option.bind_eq_bind, Option.bind_some, ExceptT.run_bind] at h <;>
        cases h
      refine List.forall_mem_cons.mpr ⟨⟨k, List.mem_cons_self, hk⟩, fun u hu => ?_⟩
      obtain ⟨j, hj, hu⟩ := ih hks u hu
      exact ⟨j, List.mem_cons_of_mem k hj, hu⟩

/-- Whatever the arena is like, what is read of it has the right sizes. -/
theorem wellSized_of_readWithin {n : Nat} {h : Handle} {t : Tree}
    (hr : (A.readWithin s n h).run = some (.ok t)) : t.WellSized := by
  induction n generalizing h t with
  | zero => cases hr
  | succ n ih =>
    rw [run_readWithin] at hr
    split at hr
    · cases hr
    · next item _ =>
      obtain ⟨e | ts, hts, hr⟩ := Option.map_eq_some_iff.mp hr
      · cases hr
      · change (item.kind.form h.slot ts >>= fun form => _) = _ at hr
        cases hf : item.kind.form h.slot ts with
        | error e =>
          rw [hf] at hr
          cases hr
        | ok form =>
          rw [hf] at hr
          cases hr
          refine Tree.wellSized_node _ fun u hu => ?_
          rw [Kind.parts_of_form hf] at hu
          obtain ⟨k, -, hu⟩ := exists_of_mapM hts u hu
          exact ih hu

theorem mapM_readWithin {ps : List Plant}
    (hps : ∀ p ∈ ps, ∃ r, (∀ n, p.handles.length ≤ n → (A.readWithin s n p.handle).run = some r) ∧
      p.Yields r) :
    ∃ r, (∀ n, (Plant.handlesIn ps).length ≤ n →
      ((ps.map Plant.handle).mapM (A.readWithin s n)).run = some r) ∧ Plant.YieldAll ps r := by
  induction ps with
  | nil => exact ⟨.ok [], fun _ _ => rfl, .nil⟩
  | cons p ps ih =>
    obtain ⟨⟨r, hr, hy⟩, hps⟩ := List.forall_mem_cons.mp hps
    obtain ⟨rs, hrs, hys⟩ := ih hps
    refine ⟨do let t ← r; let ts ← rs; return t :: ts, fun n hn => ?_, Plant.YieldAll.cons hy hys⟩
    rw [Plant.handlesIn, List.length_append] at hn
    have hr := hr n (by omega)
    have hrs := hrs n (by omega)
    rw [List.map_cons, List.mapM_cons, ExceptT.run_bind, hr]
    cases r with
    | error e => rfl
    | ok t =>
      simp only [Option.bind_eq_bind, Option.bind_some, ExceptT.run_bind, hrs]
      cases rs <;> rfl

/-- Where a plant stands, reading ends with what it yields; a level for every node is enough. -/
theorem readWithin_of_stands (hp : (A.links s).Stands p) :
    ∃ r, (∀ n, p.handles.length ≤ n → (A.readWithin s n p.handle).run = some r) ∧
      p.Yields r := by
  induction p using Plant.induction_children with
  | step p ih =>
    obtain ⟨rs, hrs, hys⟩ := mapM_readWithin fun c hc => ih c hc ((Links.stands_iff.mp hp).2 c hc)
    refine ⟨_, fun n hn => ?_, hys.yields⟩
    rw [Plant.handles_eq, List.length_append, List.length_singleton] at hn
    obtain ⟨n, rfl⟩ := Nat.exists_eq_succ_of_ne_zero (Nat.ne_zero_of_lt hn)
    exact readWithin_of_children hp (hrs n (Nat.le_of_succ_le_succ hn))

theorem reads_of_stands (hp : (A.links s).Stands p) : ∃ r, A.Reads s p.handle r ∧ p.Yields r := by
  obtain ⟨r, hr, hy⟩ := readWithin_of_stands hp
  exact ⟨r, ⟨_, hr⟩, hy⟩

end Arena

/-- What stands for a reader that is not done is never met. -/
theorem Forest.reads_tree (cs : List Arena.Change) (h : Handle) :
    Forest.arena.Reads (Forest.arena.after cs) h ((Forest.arena.after cs).tree h) := by
  rw [Forest.tree]
  by_cases hl : Forest.arena.links (Forest.arena.after cs) h = none
  · rw [Arena.readWithin_of_none hl (Nat.le_add_left 1 _)]
    exact Arena.reads_of_none hl
  · have hs := Forest.arena_lawful.after_sound cs
    obtain ⟨p, rfl, hp⟩ := hs.exists_stands hl
    obtain ⟨r, hr, -⟩ := Arena.readWithin_of_stands hp
    have hlevels := Forest.length_handles_le hp (hs.handles_nodup hp)
    rw [hr _ (Nat.le_succ_of_le hlevels)]
    exact ⟨_, hr⟩

/-- Whatever the history of a lawful arena: reading ends, with the tree at the node or with the
reason why there is none. The node itself was removed just when its handle was never given or has
been freed, for no handle is given twice, whatever happens to its slot. Otherwise a plant stands
there: it has the nodes below the handle, each once, with their items and children. The first of
them in post-order that does not fit its kind is reported; and if all fit, the tree is theirs, as
large as there are. -/
theorem reading_outcome {σ : Type} (A : Arena σ) (hA : A.Lawful) (cs : List Arena.Change)
    (h : Handle) :
    let s := A.after cs
    (A.issued cs).Nodup ∧
      (∃! r, A.Reads s h r) ∧
      (∀ k, A.Reads s h (.error (.removed k)) ↔ k = h.slot ∧ A.Stale cs h) ∧
      (¬ A.Stale cs h → ∃ p r, p.handle = h ∧ (A.links s).Stands p ∧ p.handles.Nodup ∧
        (∀ g, g ∈ p.handles ↔ (A.links s).Below h g) ∧ A.Reads s h r ∧ p.Yields r) := by
  intro s
  have hs : (A.links s).Sound := hA.after_sound cs
  have hstale : A.links s h = none ↔ A.Stale cs h := hA.eq_none_iff cs h
  have hplant (hh : ¬ A.Stale cs h) : ∃ p r, p.handle = h ∧ (A.links s).Stands p ∧
      p.handles.Nodup ∧ (∀ g, g ∈ p.handles ↔ (A.links s).Below h g) ∧ A.Reads s h r ∧
      p.Yields r := by
    obtain ⟨p, rfl, hp⟩ := hs.exists_stands (hstale.not.mpr hh)
    obtain ⟨r, hr, hy⟩ := Arena.reads_of_stands hp
    exact ⟨p, r, rfl, hp, hs.handles_nodup hp, fun g => hp.mem_handles_iff, hr, hy⟩
  have hremoved (hh : A.Stale cs h) : A.Reads s h (.error (.removed h.slot)) :=
    Arena.reads_of_none (hstale.mpr hh)
  have hread : ∃ r, A.Reads s h r := by
    by_cases hh : A.Stale cs h
    · exact ⟨_, hremoved hh⟩
    · obtain ⟨p, r, -, -, -, -, hr, -⟩ := hplant hh
      exact ⟨r, hr⟩
  refine ⟨hA.issued_nodup cs, hread.imp fun r hr => ⟨hr, fun _ hr' => hr'.unique hr⟩,
    fun k => ⟨fun hk => ?_, ?_⟩, hplant⟩
  · by_cases hh : A.Stale cs h
    · cases hk.unique (hremoved hh)
      exact ⟨rfl, hh⟩
    · obtain ⟨p, r, -, -, -, -, hr, hy⟩ := hplant hh
      cases hr.unique hk
      exact absurd hy Plant.Yields.ne_removed
  · rintro ⟨rfl, hh⟩
    exact hremoved hh

/-- The slot of a removed leaf is used again, for a container whose own slot is missing at first. -/
theorem reused_slot_reading :
    let cs : List Arena.Change :=
      [.add ⟨"call", .branch⟩, .add ⟨"name", .leaf "f"⟩, .append ⟨1, 0⟩ ⟨2, 0⟩, .remove ⟨2, 0⟩,
        .add ⟨"function", .container true⟩, .prepend ⟨1, 0⟩ ⟨2, 1⟩]
    let f := Forest.arena.after cs
    Forest.arena.Lawful ∧ Forest.arena.Stale cs ⟨2, 0⟩ ∧
      Forest.arena.Reads f ⟨2, 0⟩ (.error (.removed 2)) ∧
      ¬ Forest.arena.Stale cs ⟨1, 0⟩ ∧
      (∃ p r, p.handle = ⟨1, 0⟩ ∧ (Forest.arena.links f).Stands p ∧ p.handles.Nodup ∧
        (∀ g, g ∈ p.handles ↔ (Forest.arena.links f).Below ⟨1, 0⟩ g) ∧
        Forest.arena.Reads f ⟨1, 0⟩ r ∧ p.Yields r) ∧
      f.tree ⟨2, 0⟩ = .error (.removed 2) ∧ f.tree ⟨1, 0⟩ = .error (.missingSlot 2) := by
  intro cs f
  have hA := Forest.arena_lawful
  have hstale : Forest.arena.Stale cs ⟨2, 0⟩ :=
    .inr ⟨cs.take 3, .remove ⟨2, 0⟩, ⟨cs.drop 4, rfl⟩, by decide, rfl⟩
  have hlive : ¬ Forest.arena.Stale cs ⟨1, 0⟩ := by
    rw [← hA.eq_none_iff]
    decide
  refine ⟨hA, hstale, ((reading_outcome _ hA cs ⟨2, 0⟩).2.2.1 2).mpr ⟨rfl, hstale⟩, hlive,
    (reading_outcome _ hA cs ⟨1, 0⟩).2.2.2 hlive, rfl, rfl⟩

/-- With a child for its slot, the container fits. -/
example :
    (Forest.arena.after [.add ⟨"function", .container true⟩, .add ⟨"name", .leaf "f"⟩,
      .append ⟨1, 0⟩ ⟨2, 0⟩]).tree ⟨1, 0⟩ =
      .ok (.container "function" (some (.leaf "name" "f")) []) := rfl

end TreeDiff
