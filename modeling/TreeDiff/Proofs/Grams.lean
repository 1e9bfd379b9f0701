import TreeDiff.Proofs.Tour

/-!
# What a fingerprint depends on

The fingerprint of a node is read off the categories around it: those of its nearest ancestors, on
its own way from the root, and those of the nodes below it. So wherever the same categories stand
below, and as many ancestors as a gram has room for agree, the fingerprints agree throughout.
-/

set_option autoImplicit false

namespace TreeDiff

inductive Rose (α : Type) where
  | node (value : α) (parts : List (Rose α))

def Rose.value {α : Type} : Rose α → α
  | node a _ => a

def Span.near (span : Span) (ancestors : List String) : List String :=
  ancestors.drop (ancestors.length - span.above)

theorem Span.length_near_le (span : Span) (ancestors : List String) :
    (span.near ancestors).length ≤ span.above := by
  rw [near, List.length_drop]
  omega

theorem padded_take (n : Nat) (words : List UInt64) : padded n (words.take n) = padded n words := by
  rw [padded, padded, List.take_take, Nat.min_self, List.length_take]
  congr 2
  omega

/-- Where `f` and `g` take one value along two lists, so do functions of what they take. -/
theorem map_eq_of_map_eq {α β γ δ : Type} {f : α → γ} {g : β → γ} {f' : α → δ} {g' : β → δ}
    {xs : List α} {ys : List β} (h : xs.map f = ys.map g)
    (hf : ∀ x ∈ xs, ∀ y ∈ ys, f x = g y → f' x = g' y) : xs.map f' = ys.map g' := by
  induction xs generalizing ys with
  | nil =>
    obtain rfl := List.map_eq_nil_iff.mp h.symm
    rfl
  | cons x xs ih =>
    cases ys with
    | nil => cases h
    | cons y ys =>
      obtain ⟨hxy, h⟩ := List.cons.inj h
      have hrest : ∀ v ∈ xs, ∀ w ∈ ys, f v = g w → f' v = g' w := fun v hv w hw =>
        hf v (List.mem_cons_of_mem x hv) w (List.mem_cons_of_mem y hw)
      rw [List.map_cons, List.map_cons, hf x List.mem_cons_self y List.mem_cons_self hxy,
        ih h hrest]

theorem filterMap_eq_of_map {α β : Type} {f : α → Option β} {xs : List α} {ys : List β}
    (h : xs.map f = ys.map some) : xs.filterMap f = ys := by
  have hid : (xs.map f).filterMap id = xs.filterMap f := List.filterMap_map
  rw [← hid, h, List.filterMap_map, Function.id_comp, List.filterMap_some]

namespace Tree

variable {δ : Type} {H : Hasher δ} {t u : Tree} {span : Span}

def rose {α : Type} (f : Tree → α) : Tree → Rose α :=
  fold fun t below => .node (f t) below.parts

theorem rose_eq {α : Type} (f : Tree → α) (t : Tree) :
    t.rose f = .node (f t) (t.form.parts.map (rose f)) := by
  rw [rose, fold_eq, Form.parts_map]

theorem rose_eq_rose_iff {α : Type} {f : Tree → α} :
    t.rose f = u.rose f ↔
      f t = f u ∧ t.form.parts.map (rose f) = u.form.parts.map (rose f) := by
  rw [rose_eq, rose_eq, Rose.node.injEq]

/-- Trees with one tree of values have one value at their roots. -/
theorem value_eq_of_rose {α : Type} {f : Tree → α} (h : t.rose f = u.rose f) : f t = f u :=
  (rose_eq_rose_iff.mp h).1

def ancestry : Tree → List Nat → List String
  | _, [] => []
  | t, i :: path => t.category :: (t.form.parts[i]?.map (ancestry · path)).getD []

def window (H : Hasher δ) (span : Span) (ancestors : List String) (t : Tree) : List UInt64 :=
  let above := (span.near ancestors).map H.text
  let below := (t.form.parts.take span.below).map fun part => H.text part.category
  List.replicate (span.above - above.length) padding ++ above ++
    H.text t.category :: (below ++ List.replicate (span.below - below.length) padding)

def context (H : Hasher δ) (span : Span) (ancestors : List String) : List UInt64 :=
  ((span.near ancestors).map H.text).reverse

theorem context_eq (H : Hasher δ) (span : Span) (ancestors : List String) :
    context H span ancestors = ((ancestors.map H.text).reverse).take span.above := by
  rw [context, Span.near, List.take_reverse, List.length_map, List.map_drop]

theorem direction_context (H : Hasher δ) (span : Span) (ancestors : List String) (t : Tree) :
    direction H span (context H span ancestors) t =
      H.unit (H.words (window H span ancestors t)) := by
  have ha : (padded span.above (context H span ancestors)).reverse =
      List.replicate (span.above - ((span.near ancestors).map H.text).length) padding ++
        (span.near ancestors).map H.text := by
    have hle := span.length_near_le ancestors
    rw [padded, context, List.take_of_length_le (by simpa using hle), List.reverse_append,
      List.reverse_replicate, List.reverse_reverse, List.length_reverse]
  have hb : padded span.below (t.form.parts.map fun part => H.text part.category) =
      (t.form.parts.take span.below).map (fun part => H.text part.category) ++
        List.replicate (span.below - (t.form.parts.take span.below).length) padding := by
    have hle : ((t.form.parts.take span.below).map fun part => H.text part.category).length
        ≤ span.below := by
      rw [List.length_map]
      exact List.length_take_le _ _
    rw [← padded_take, ← List.map_take, padded, List.take_of_length_le hle, List.length_map]
  rw [direction, gram, ha, hb, window, List.length_map, List.length_map]

/-- Ancestors beyond the room of a gram make no difference to a node or to what is below it. -/
theorem fingerprintedBelow_take (H : Hasher δ) (span : Span) (t : Tree) (above : List UInt64) :
    t.fingerprintedBelow H span (above.take span.above) = t.fingerprintedBelow H span above := by
  induction t using induction_parts generalizing above with
  | step t ih =>
    have hstack : (H.text t.category :: above.take span.above).take span.above =
        (H.text t.category :: above).take span.above := by
      cases span.above with
      | zero => rfl
      | succ n =>
        rw [List.take_succ_cons, List.take_succ_cons, List.take_take,
          Nat.min_eq_left (Nat.le_succ n)]
    have hf : t.form.map (·.fingerprintedBelow H span
          (H.text t.category :: above.take span.above)) =
        t.form.map (·.fingerprintedBelow H span (H.text t.category :: above)) := by
      apply Form.map_congr
      intro u hu
      rw [← ih u hu, hstack, ih u hu]
    have hdirection : direction H span (above.take span.above) t = direction H span above t := by
      rw [direction, direction, gram, gram, padded_take]
    rw [fingerprintedBelow_eq, fingerprintedBelow_eq, hf, hdirection]

/-- At the end of a path stands the node marked below the ancestors it has there. -/
theorem follow_fingerprintedBelow (span : Span) (t : Tree) (above : List UInt64)
    (path : List Nat) :
    (t.fingerprintedBelow H span above).follow path = (t.follow path).map
      (·.fingerprintedBelow H span (((t.ancestry path).map H.text).reverse ++ above)) := by
  induction path generalizing t above with
  | nil => rfl
  | cons i path ih =>
    rw [follow_cons, follow_cons, fingerprintedBelow_form, Form.parts_map, List.getElem?_map,
      ancestry]
    cases t.form.parts[i]? with
    | none => rfl
    | some u => simp [ih]

theorem follow_fingerprintedBy (H : Hasher δ) (span : Span) (t : Tree) (path : List Nat) :
    (t.fingerprintedBy H span).follow path =
      (t.follow path).map (·.fingerprintedBelow H span (context H span (t.ancestry path))) := by
  rw [fingerprintedBy_eq, follow_fingerprintedBelow, List.append_nil, context_eq]
  simp only [fingerprintedBelow_take]

/-- All parts of a marked node have their fingerprints. -/
theorem exists_fingerprints (H : Hasher δ) (span : Span) (t : Tree) (above : List UInt64) :
    ∃ vs : List Fingerprint,
      (t.fingerprintedBelow H span above).form.parts.map fingerprint = vs.map some := by
  refine ⟨(t.fingerprintedBelow H span above).form.parts.map (·.fingerprint.getD .zero), ?_⟩
  rw [List.map_map]
  apply List.map_congr_left
  intro u hu
  have hs := fingerprint_of_mem_subtrees (subtrees_of_part hu (self_mem_subtrees u))
  obtain ⟨v, hv⟩ := Option.isSome_iff_exists.mp hs
  simp [hv]

/-- The same categories below the same ancestors are marked alike throughout. -/
theorem fingerprints_eq_of_categories (h : t.rose category = u.rose category)
    (above : List UInt64) :
    (t.fingerprintedBelow H span above).rose fingerprint =
      (u.fingerprintedBelow H span above).rose fingerprint := by
  induction t using induction_parts generalizing u above with
  | step t ih =>
    obtain ⟨hc, hp⟩ := rose_eq_rose_iff.mp h
    have hdirection : direction H span above t = direction H span above u :=
      direction_congr hc (map_eq_of_map_eq hp fun v _ w _ hvw => value_eq_of_rose hvw) above
    have hbelow : (t.fingerprintedBelow H span above).form.parts.map (rose fingerprint) =
        (u.fingerprintedBelow H span above).form.parts.map (rose fingerprint) := by
      rw [fingerprintedBelow_form, fingerprintedBelow_form, Form.parts_map, Form.parts_map,
        List.map_map, List.map_map, hc]
      exact map_eq_of_map_eq hp fun v hv w _ hvw => ih v hv hvw _
    obtain ⟨vs, hvs⟩ := exists_fingerprints H span u above
    have hvs' := map_eq_of_map_eq hbelow fun v _ w _ hvw => value_eq_of_rose hvw
    refine rose_eq_rose_iff.mpr ⟨?_, hbelow⟩
    rw [fingerprintedBelow_fingerprint, fingerprintedBelow_fingerprint, hdirection,
      filterMap_eq_of_map hvs, filterMap_eq_of_map (hvs'.trans hvs)]

/-- The traversal with one stack marks the tree and leaves the stack empty. A marked node has the
sum of the direction of its own gram, with the last of its ancestors and the first of its parts, and
the fingerprints of its parts, in their order. So nodes with the same categories below them and the
same last ancestors have the same fingerprints throughout, wherever they are; and when a gram has no
room for ancestors, a node is marked as it would be on its own. -/
theorem fingerprints_from_grams (H : Hasher δ) (span : Span) {path : List Nat}
    (h : t.follow path = some u) :
    ∃ (m : Tree) (vs : List Fingerprint),
      (∀ sum, ∃ v, (tour H span t).run ⟨[], sum⟩ =
        pure (t.fingerprintedBy H span, ⟨[], sum + v⟩)) ∧
      (t.fingerprintedBy H span).follow path = some m ∧ m.form.parts.map fingerprint = vs.map some ∧
      m.fingerprint =
        some (vs.foldl (· + ·) (H.unit (H.words (window H span (t.ancestry path) u)))) ∧
      (∀ (t' u' m' : Tree) (path' : List Nat), t'.follow path' = some u' →
        (t'.fingerprintedBy H span).follow path' = some m' → u.rose category = u'.rose category →
          span.near (t.ancestry path) = span.near (t'.ancestry path') →
            m.rose fingerprint = m'.rose fingerprint) ∧
      (span.above = 0 → m = u.fingerprintedBy H span) := by
  obtain ⟨vs, hvs⟩ := exists_fingerprints H span u (context H span (t.ancestry path))
  refine ⟨_, vs, fun sum => (tour_eq H span t sum).imp fun _ => And.right,
    by rw [follow_fingerprintedBy, h, Option.map_some], hvs, ?_, ?_, ?_⟩
  · rw [fingerprintedBelow_fingerprint, direction_context, filterMap_eq_of_map hvs]
  · intro t' u' m' path' h' hm hc hn
    rw [follow_fingerprintedBy, h', Option.map_some] at hm
    obtain rfl := Option.some.inj hm
    rw [context, hn]
    exact fingerprints_eq_of_categories hc _
  · intro hz
    rw [context_eq, hz, List.take_zero, fingerprintedBy_eq]

/-- An argument of a call, as a container with a slot in one tree and, further down, as a branch in
another. -/
theorem arguments_of_calls_alike :
    let u : Tree := container "argument" (some (leaf "name" "x")) []
    let u' : Tree := branch "argument" [leaf "name" "y"]
    let t : Tree := branch "call" [leaf "name" "f", u]
    let t' : Tree := sequence "body" [branch "call" [u']]
    t.follow [1] = some u ∧ t'.follow [0, 0] = some u' ∧ u.rose category = u'.rose category ∧
      t.ancestry [1] = ["call"] ∧ t'.ancestry [0, 0] = ["body", "call"] ∧
      ∃ (m m' : Tree) (vs : List Fingerprint), (t.fingerprinted ⟨1, 2⟩).follow [1] = some m ∧
        (t'.fingerprinted ⟨1, 2⟩).follow [0, 0] = some m' ∧
        m.form.parts.map fingerprint = vs.map some ∧
        m.fingerprint = some (vs.foldl (· + ·) (.unit (Digest.hasher.words
          [Digest.hasher.text "call", Digest.hasher.text "argument", Digest.hasher.text "name",
            padding]))) ∧
        m.rose fingerprint = m'.rose fingerprint := by
  intro u u' t t'
  have hu : t.follow [1] = some u := rfl
  have hu' : t'.follow [0, 0] = some u' := rfl
  have hc : u.rose category = u'.rose category := rfl
  obtain ⟨m, vs, -, hm, hvs, hv, hsame, -⟩ := fingerprints_from_grams Digest.hasher ⟨1, 2⟩ hu
  obtain ⟨m', -, -, hm', -⟩ := fingerprints_from_grams Digest.hasher ⟨1, 2⟩ hu'
  exact ⟨hu, hu', hc, rfl, rfl, m, m', vs, hm, hm', hvs, hv, hsame t' u' m' _ hu' hm' hc rfl⟩

end Tree

end TreeDiff
