import Mathlib.Data.List.Induction
import TreeDiff.Proofs.Links

/-!
# Histories

Whatever the history of a lawful arena, its nodes make up trees, and a handle names a node unless it
was never given or its node has gone since. No handle is given twice, so one that is stale is stale
for good, even if its slot is used again.
-/

set_option autoImplicit false

namespace TreeDiff

namespace Arena

def Frees (L : Links) : Change → Handle → Prop
  | .remove g, h => h = g
  | .removeAll g, h => L.Below g h
  | _, _ => False

def Freed {σ : Type} (A : Arena σ) (cs : List Change) (h : Handle) : Prop :=
  ∃ before c, before ++ [c] <+: cs ∧ A.links (A.after before) h ≠ none ∧
    Frees (A.links (A.after before)) c h

def Stale {σ : Type} (A : Arena σ) (cs : List Change) (h : Handle) : Prop :=
  h ∉ A.issued cs ∨ A.Freed cs h

section

variable {σ : Type} {A : Arena σ} {s : σ} {cs : List Change} {h : Handle}

theorem after_append (cs : List Change) (ds : List Change) :
    A.after (cs ++ ds) = ds.foldl A.change (A.after cs) := List.foldl_append

theorem after_snoc (cs : List Change) (c : Change) :
    A.after (cs ++ [c]) = A.change (A.after cs) c := after_append cs [c]

theorem issuedFrom_append (cs ds : List Change) :
    A.issuedFrom s (cs ++ ds) = A.issuedFrom s cs ++ A.issuedFrom (cs.foldl A.change s) ds := by
  induction cs generalizing s with
  | nil => rfl
  | cons c cs ih => rw [List.cons_append, issuedFrom, issuedFrom, ih, List.foldl_cons,
      List.append_assoc]

theorem issued_append (cs ds : List Change) :
    A.issued (cs ++ ds) = A.issued cs ++ A.issuedFrom (A.after cs) ds := issuedFrom_append cs ds

theorem issued_snoc (cs : List Change) (c : Change) :
    A.issued (cs ++ [c]) = A.issued cs ++ A.issues (A.after cs) c := by
  rw [issued_append, issuedFrom, issuedFrom, List.append_nil]

/-- A change that is no addition gives no handle. -/
theorem eq_add_or_issues_eq_nil (A : Arena σ) (s : σ) (c : Change) :
    (∃ item, c = .add item) ∨ A.issues s c = [] := by
  cases c with
  | add item => exact .inl ⟨item, rfl⟩
  | _ => exact .inr rfl

theorem change_add (item : Item) : A.change s (.add item) = (A.add s item).2 := rfl

theorem freed_snoc {c : Change} : A.Freed (cs ++ [c]) h ↔
    A.Freed cs h ∨ A.links (A.after cs) h ≠ none ∧ Frees (A.links (A.after cs)) c h := by
  constructor
  · rintro ⟨before, d, hp, hd⟩
    rcases List.prefix_concat_iff.mp hp with he | hp
    · obtain ⟨rfl, hcd⟩ := List.append_inj' he rfl
      cases hcd
      exact .inr hd
    · exact .inl ⟨before, d, hp, hd⟩
  · rintro (⟨before, d, hp, hd⟩ | hd)
    · exact ⟨before, d, hp.trans (List.prefix_append cs [c]), hd⟩
    · exact ⟨cs, c, List.prefix_refl _, hd⟩

/-- An edit that is allowed or refused as it should be releases what it should. -/
theorem releases_of_map {L : Links} {gone : Handle → Prop} {r : Except ForestError σ}
    {due : Except ForestError Links} (hr : r.map A.links = due) (hL : A.links s = L)
    (hok : ∀ L', due = .ok L' → L.Releases L' gone)
    (herror : ∀ e, due = .error e → L.Releases L gone) :
    L.Releases (A.links (r.toOption.getD s)) gone := by
  cases r with
  | error e =>
    have h := herror e hr.symm
    rwa [← hL] at h ⊢
  | ok t => exact hok _ hr.symm

namespace Lawful

theorem change_releases (hA : A.Lawful) (hs : (A.links (A.after cs)).Sound) {c : Change}
    (hc : A.issues (A.after cs) c = []) : (A.links (A.after cs)).Releases
      (A.links (A.change (A.after cs) c)) (Frees (A.links (A.after cs)) c) := by
  have hrefl := Links.releases_refl hs
  cases c with
  | add item => cases hc
  | append parent child =>
    refine releases_of_map (hA.append cs parent child) rfl (fun L' hL => ?_) fun _ _ => hrefl
    exact Links.attach_releases (fun _ _ => List.perm_append_singleton _ _) hs hL
  | prepend parent child =>
    refine releases_of_map (hA.prepend cs parent child) rfl (fun L' hL => ?_) fun _ _ => hrefl
    exact Links.attach_releases (fun _ _ => .refl _) hs hL
  | detach h =>
    exact releases_of_map (hA.detach cs h) rfl (fun L' hL => Links.detach_releases hs hL)
      fun _ _ => hrefl
  | remove h =>
    refine releases_of_map (hA.remove cs h) rfl (fun L' hL => Links.remove_releases hs hL) ?_
    intro e he
    refine ⟨hs, fun g => ⟨fun hg => ⟨hg, ?_⟩, And.left⟩⟩
    rintro rfl
    exact hg (Links.eq_none_of_remove he)
  | removeAll h =>
    refine releases_of_map (hA.removeAll cs h) rfl (fun L' hL => Links.removeAll_releases hs hL) ?_
    intro e he
    refine ⟨hs, fun g => ⟨fun hg => ⟨hg, fun hb => ?_⟩, And.left⟩⟩
    exact Links.ne_none_of_below hb hg (Links.eq_none_of_removeAll he)

theorem links_nil (hA : A.Lawful) : A.links (A.after []) = fun _ => none := hA.empty

theorem links_add (hA : A.Lawful) (cs : List Change) (item : Item) :
    A.links (A.after (cs ++ [.add item])) =
      (A.links (A.after cs)).add (A.add (A.after cs) item).1 item := by
  rw [after_snoc, change_add]
  exact hA.add cs item

/-- Whatever the history, the nodes make up trees. -/
theorem after_sound (hA : A.Lawful) (cs : List Change) : (A.links (A.after cs)).Sound := by
  induction cs using List.reverseRecOn with
  | nil =>
    rw [hA.links_nil]
    exact Links.empty_sound
  | append_singleton cs c ih =>
    rcases A.eq_add_or_issues_eq_nil (A.after cs) c with ⟨item, rfl⟩ | hc
    · rw [hA.links_add]
      exact Links.add_sound ih item
    · rw [after_snoc]
      exact (hA.change_releases ih hc).sound

theorem issued_nodup (hA : A.Lawful) (cs : List Change) : (A.issued cs).Nodup := by
  induction cs using List.reverseRecOn with
  | nil => exact List.nodup_nil
  | append_singleton cs c ih =>
    rw [issued_snoc]
    rcases A.eq_add_or_issues_eq_nil (A.after cs) c with ⟨item, rfl⟩ | hc
    · rw [issues, List.nodup_append_comm, List.singleton_append, List.nodup_cons]
      exact ⟨hA.fresh cs item, ih⟩
    · rwa [hc, List.append_nil]

theorem issued_append_nodup (hA : A.Lawful) (cs ds : List Change) :
    (A.issued cs ++ A.issuedFrom (A.after cs) ds).Nodup := by
  rw [← issued_append]
  exact hA.issued_nodup _

theorem mem_issued_of_live (hA : A.Lawful) (hh : A.links (A.after cs) h ≠ none) :
    h ∈ A.issued cs := by
  induction cs using List.reverseRecOn with
  | nil =>
    rw [hA.links_nil] at hh
    exact absurd rfl hh
  | append_singleton cs c ih =>
    rw [issued_snoc, List.mem_append]
    rcases A.eq_add_or_issues_eq_nil (A.after cs) c with ⟨item, rfl⟩ | hc
    · rw [hA.links_add] at hh
      by_cases hn : h = (A.add (A.after cs) item).1
      · exact .inr (List.mem_singleton.mpr hn)
      · rw [Links.add_of_ne item hn] at hh
        exact .inl (ih hh)
    · rw [after_snoc, (hA.change_releases (hA.after_sound cs) hc).live] at hh
      exact .inl (ih hh.1)

theorem mem_issued_of_freed (hA : A.Lawful) (hf : A.Freed cs h) : h ∈ A.issued cs := by
  obtain ⟨before, c, ⟨ds, rfl⟩, hlive, -⟩ := hf
  rw [List.append_assoc, issued_append]
  exact List.mem_append_left _ (hA.mem_issued_of_live hlive)

/-- A handle names a node if it was given and its node has not gone since, and in no other case. -/
theorem live_iff (hA : A.Lawful) (cs : List Change) (h : Handle) :
    A.links (A.after cs) h ≠ none ↔ h ∈ A.issued cs ∧ ¬ A.Freed cs h := by
  induction cs using List.reverseRecOn with
  | nil =>
    rw [hA.links_nil]
    simp [issued, issuedFrom]
  | append_singleton cs c ih =>
    rw [freed_snoc, issued_snoc, List.mem_append]
    rcases A.eq_add_or_issues_eq_nil (A.after cs) c with ⟨item, rfl⟩ | hc
    · rw [hA.links_add, issues, List.mem_singleton]
      by_cases hh : h = (A.add (A.after cs) item).1
      · subst hh
        have hnot : ¬ A.Freed cs (A.add (A.after cs) item).1 := fun hf =>
          hA.fresh cs item (hA.mem_issued_of_freed hf)
        simp [hnot, Frees]
      · rw [Links.add_of_ne item hh, ih]
        simp [hh, Frees]
    · rw [after_snoc, (hA.change_releases (hA.after_sound cs) hc).live, ih, hc]
      simp only [List.not_mem_nil, or_false]
      tauto

theorem eq_none_iff (hA : A.Lawful) (cs : List Change) (h : Handle) :
    A.links (A.after cs) h = none ↔ A.Stale cs h := by
  rw [← not_iff_not, ← Ne, hA.live_iff, Stale, not_or, not_not]

end Lawful

end

end Arena

end TreeDiff
