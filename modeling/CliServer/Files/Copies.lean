import CliServer.Files.InMemory
import CliServer.Files.JsonFile

/-!
# What a copy promises

`CopyLaw` relates the views of a file tree before and after a copy.  The in-memory and the JSON provider make the
missing parents of `dest` and then put a copy there of what is at `src` by then; `copyLaw_iff_of_put` says when that
is what was at `src` before.  It is not where a parent was made inside of `src` (`InMemory.copyLaw_iff`), nor where
something was taken out of it (`JsonFile.copyLaw_iff`).
-/

namespace CliServer

open NamedTree

variable {κ γ : Type*} {before after view : View κ γ} {src dest p : List κ}

/-- What may stand at a path that a copy is not about: what stood there, and at most a parent directory of `dest` is
new. -/
def Kept (before : View κ γ) (dest p : List κ) (now : Option (Kind γ)) : Prop :=
  now = before p ∨ (before p = none ∧ p <+: dest ∧ now = some .node)

/-- What a copy promises, of the views before and after it and whether it raised. -/
structure CopyLaw (before after : View κ γ) (raised : Bool) (src dest : List κ) : Prop where
  /-- The subtree at `dest` is the old one at `src`. -/
  copied : raised = false → ∀ x, after (dest ++ x) = before (src ++ x)
  /-- The subtree at `src` stays, unless it overlaps `dest`. -/
  source : raised = false → ¬ src <+: dest → ¬ dest <+: src → ∀ x, after (src ++ x) = before (src ++ x)
  /-- What is below neither stays, and at most parent directories of `dest` come. -/
  frame : raised = false → ∀ p, ¬ src <+: p → ¬ dest <+: p → Kept before dest p (after p)

/-- A copy is refused: of nothing, to the root or through a file. -/
def CopyRefused (view : View κ γ) (src dest : List κ) : Prop :=
  view src = none ∨ dest = [] ∨ Blocked view dest.dropLast

theorem CopyLaw.of_raised : CopyLaw before after true src dest where
  copied h := nomatch h
  source h := nomatch h
  frame h := nomatch h

/-- A copy is about what is below `dest`, and below `src` where that is above `dest`. -/
theorem copyLaw_iff : CopyLaw before after false src dest ↔ (∀ x, after (dest ++ x) = before (src ++ x)) ∧
    ∀ p, ¬ dest <+: p → ¬ (src <+: p ∧ src <+: dest) → Kept before dest p (after p) := by
  constructor
  · intro h
    refine ⟨h.copied rfl, ?_⟩
    intro p hdest hsrc
    by_cases hp : src <+: p
    · obtain ⟨x, rfl⟩ := hp
      have hnot : ¬ src <+: dest := fun habove => hsrc ⟨List.prefix_append src x, habove⟩
      have hapart : ¬ dest <+: src := fun habove => hdest (habove.trans (List.prefix_append src x))
      exact .inl (h.source rfl hnot hapart x)
    · exact h.frame rfl p hp hdest
  · rintro ⟨hcopied, hkept⟩
    refine ⟨fun _ => hcopied, ?_, ?_⟩
    · intro _ hnot hapart x
      have hdest : ¬ dest <+: src ++ x := by
        intro hbelow
        rcases List.prefix_or_prefix_of_prefix hbelow (List.prefix_append src x) with h | h
        · exact hapart h
        · exact hnot h
      rcases hkept (src ++ x) hdest (fun h => hnot h.2) with h | ⟨_, hparent, _⟩
      · exact h
      · exact absurd ((List.prefix_append src x).trans hparent) hnot
    · intro _ p hsrc hdest
      exact hkept p hdest (fun h => hsrc h.1)

/-- To put a copy at `dest`, after its missing parents were made. -/
private theorem copyLaw_iff_of_put [DecidableEq κ] (copy : View κ γ)
    (hafter : ∀ p, after p = if dest <+: p then copy (p.drop dest.length) else withParents before dest.dropLast p) :
    CopyLaw before after false src dest ↔ ∀ x, copy x = before (src ++ x) := by
  have hdest : ∀ x, after (dest ++ x) = copy x := by
    intro x
    rw [hafter, if_pos (List.prefix_append dest x), List.drop_left]
  rw [copyLaw_iff]
  constructor
  · intro h x
    rw [← hdest, h.1]
  · intro h
    refine ⟨(fun x => by rw [hdest, h]), ?_⟩
    intro p hp _
    rw [hafter, if_neg hp, withParents]
    split
    · next hmade => exact .inr ⟨hmade.2.2, hmade.2.1.trans (List.dropLast_prefix dest), rfl⟩
    · exact .inl rfl

/-- The copy law of the spelled paths is that of the paths. -/
theorem copyLaw_along_iff {κ' : Type*} {read : List κ → Option (List κ')} {spell : κ' → κ}
    (hread : ∀ p q, read p = some q ↔ p = q.map spell) {before after : View κ' γ} {raised : Bool} {src dest : List κ'} :
    CopyLaw (along read before) (along read after) raised (src.map spell) (dest.map spell) ↔
      CopyLaw before after raised src dest := by
  have hkept : ∀ p : List κ', Kept (along read before) (dest.map spell) (p.map spell) (along read after (p.map spell)) ↔
      Kept before dest p (after p) := by
    intro p
    rw [Kept, Kept, along_spelled hread, along_spelled hread, prefix_spelled_iff hread]
  have habove := prefix_spelled_iff hread (p := src) (q := dest)
  have hbelow := prefix_spelled_iff hread (p := dest) (q := src)
  constructor
  · intro h
    refine ⟨fun hok x => ?_, fun hok hsrc hdest x => ?_, fun hok p hsrc hdest => ?_⟩
    · have hcopied := h.copied hok (x.map spell)
      rwa [← List.map_append, ← List.map_append, along_spelled hread, along_spelled hread] at hcopied
    · have hsource := h.source hok (mt habove.1 hsrc) (mt hbelow.1 hdest) (x.map spell)
      rwa [← List.map_append, along_spelled hread, along_spelled hread] at hsource
    · refine (hkept p).1 (h.frame hok (p.map spell) ?_ ?_)
      · exact mt (prefix_spelled_iff hread).1 hsrc
      · exact mt (prefix_spelled_iff hread).1 hdest
  · intro h
    -- at a path that no path spells, nothing stands before or after
    refine ⟨fun hok x => ?_, fun hok hsrc hdest x => ?_, fun hok p hsrc hdest => ?_⟩
    · rcases along_append (γ := γ) hread x with ⟨y, rfl⟩ | hnone
      · rw [← List.map_append, ← List.map_append, along_spelled hread, along_spelled hread]
        exact h.copied hok y
      · rw [hnone, hnone]
    · rcases along_append (γ := γ) hread x with ⟨y, rfl⟩ | hnone
      · rw [← List.map_append, along_spelled hread, along_spelled hread]
        exact h.source hok (mt habove.2 hsrc) (mt hbelow.2 hdest) y
      · rw [hnone, hnone]
    · cases hp : read p with
      | none => exact .inl (by rw [along, along, hp]; rfl)
      | some q =>
        obtain rfl := (hread p q).1 hp
        refine (hkept q).2 (h.frame hok q ?_ ?_)
        · exact mt (prefix_spelled_iff hread).2 hsrc
        · exact mt (prefix_spelled_iff hread).2 hdest

section Tree

variable {τ : Type*} [DecidableEq κ] {root : Forest κ γ} {s d : List κ}

/-- In a tree, the parents that are made change what is at `src` if one of them is missing there. -/
private theorem withParents_below_iff :
    (∀ x, withParents (node root).view dest.dropLast (src ++ x) = (node root).view (src ++ x)) ↔
    (src <+: dest.dropLast → (node root).view dest.dropLast ≠ none) := by
  constructor
  · rintro h ⟨x, hx⟩ hnone
    have hparent := h x
    have hroot : dest.dropLast ≠ [] := by
      intro hnil
      rw [hnil, view_nil_node] at hnone
      cases hnone
    rw [hx, withParents, if_pos ⟨hroot, List.prefix_refl _, hnone⟩, hnone] at hparent
    cases hparent
  · intro h x
    rw [withParents, if_neg]
    rintro ⟨_, hprefix, hnone⟩
    exact view_ne_none_above hprefix (h ((List.prefix_append src x).trans hprefix)) hnone

/-- How a copy in a tree comes to the point where the copy is put at `dest`. -/
private theorem not_copyRefused (hsome : (node root).view src ≠ none) (hdest : dest ≠ [])
    (hblocked : ¬ Blocked (node root).view dest.dropLast) : ¬ CopyRefused (node root).view src dest := by
  rintro (h | h | h)
  · exact hsome h
  · exact hdest h
  · exact hblocked h

/-- A copy is refused, or puts what is at `src` at `dest`. -/
theorem InMemory.copyAt_cases (root : Forest κ γ) (s d : List κ) (src dest : τ) :
    (CopyRefused (node root).view s d ∧
        ∃ after e, copyAt root s d src dest = (after, some e) ∧ (node after).view = (node root).view) ∨
      ¬ CopyRefused (node root).view s d ∧ ∃ after, copyAt root s d src dest = (after, none) ∧
        ∀ q, (node after).view q = if d <+: q then withParents (node root).view d.dropLast (s ++ q.drop d.length)
          else withParents (node root).view d.dropLast q := by
  unfold copyAt
  cases hfind : resolve root s with
  | none => exact .inl ⟨.inl (view_eq_none_iff.2 hfind), root, _, rfl, rfl⟩
  | some srcNode =>
    by_cases hd : d = []
    · exact .inl ⟨.inr (.inl hd), root, _, by simp [hd]; rfl, rfl⟩
    have hsome : (node root).view s ≠ none := by
      rw [Ne, view_eq_none_iff]
      intro h
      rw [resolve, h] at hfind
      cases hfind
    rcases ensureParents_error dest root d.dropLast with
      ⟨made, hmade, hblocked, hview⟩ | ⟨made, hmade, hblocked, hview⟩
    · exact .inl ⟨.inr (.inr hblocked), made, _, by simp [hd, hmade]; rfl, hview⟩
    · have hstill : (node made).view s ≠ none := by
        rw [hview, withParents_ne_none hsome]
        exact hsome
      have hparent : (node made).view d.dropLast = some .node := by
        rw [hview]
        exact withParents_self hblocked
      refine .inr ⟨not_copyRefused hsome hd hblocked, putCopy made srcNode s d hd, by simp [hd, hmade], ?_⟩
      intro q
      rw [view_putCopy srcNode hd hstill hparent, hview]

/-- When the in-memory provider keeps the copy law: it copies the source with the directories it has just made in it. -/
theorem InMemory.copyLaw_iff (root : Forest κ γ) (s d : List κ) (src dest : τ) :
    CopyLaw (node root).view (node (copyAt root s d src dest).1).view (copyAt root s d src dest).2.isSome s d ↔
      CopyRefused (node root).view s d ∨ (s <+: d.dropLast → (node root).view d.dropLast ≠ none) := by
  rcases copyAt_cases root s d src dest with ⟨hrefused, after, e, hcopy, -⟩ | ⟨hrefused, after, hcopy, hview⟩
  · rw [hcopy]
    exact iff_of_true CopyLaw.of_raised (.inl hrefused)
  · rw [hcopy, or_iff_right hrefused, ← withParents_below_iff]
    exact copyLaw_iff_of_put _ hview

/-- A copy is refused, or puts at `dest` what is at `src` once `dest` is removed. -/
theorem JsonFile.copyAt_cases (provider : SavedTree κ γ) (s d : List κ) (src dest : τ) :
    (CopyRefused (node provider.root).view s d ∧ ∃ after e, copyAt provider s d src dest = (after, some e) ∧
        (node after.root).view = (node provider.root).view) ∨
      ¬ CopyRefused (node provider.root).view s d ∧ ∃ after, copyAt provider s d src dest = (after, none) ∧
        ∀ q, (node after.root).view q = if d <+: q
          then beside (withParents (node provider.root).view d.dropLast) s d (q.drop d.length)
          else withParents (node provider.root).view d.dropLast q := by
  unfold copyAt
  cases hfind : resolve provider.root s with
  | none => exact .inl ⟨.inl (view_eq_none_iff.2 hfind), provider, _, rfl, rfl⟩
  | some srcNode =>
    by_cases hd : d = []
    · exact .inl ⟨.inr (.inl hd), provider, _, by simp [hd]; rfl, rfl⟩
    have hsome : (node provider.root).view s ≠ none := by
      rw [Ne, view_eq_none_iff]
      intro h
      rw [resolve, h] at hfind
      cases hfind
    rcases ensureParents_error dest provider.root d.dropLast with
      ⟨made, hmade, hblocked, hview⟩ | ⟨made, hmade, hblocked, hview⟩
    · exact .inl ⟨.inr (.inr hblocked), { provider with root := made }, _, by simp [hd, hmade]; rfl, hview⟩
    · have hstill : (node made).view s ≠ none := by
        rw [hview, withParents_ne_none hsome]
        exact hsome
      have hparent : (node made).view d.dropLast = some .node := by
        rw [hview]
        exact withParents_self hblocked
      refine .inr ⟨not_copyRefused hsome hd hblocked, save { provider with root := putCopy made srcNode s d hd },
        by simp [hd, hmade], ?_⟩
      intro q
      rw [← hview]
      exact view_putCopy srcNode hd hstill hparent q

/-- What is taken out of the source is missed if something was there. -/
private theorem JsonFile.beside_withParents_iff (hd : d ≠ [])
    (hblocked : ¬ Blocked (node root).view d.dropLast) :
    (∀ x, beside (withParents (node root).view d.dropLast) s d x = (node root).view (s ++ x)) ↔
      (s <+: d → s = d ∨ (node root).view d = none ∧ (node root).view d.dropLast ≠ none) := by
  have hparents : (s <+: d.dropLast → (node root).view d.dropLast ≠ none) →
      ∀ x, withParents (node root).view d.dropLast (s ++ x) = (node root).view (s ++ x) := withParents_below_iff.2
  constructor
  · intro h habove
    by_contra hlost
    push Not at hlost
    obtain ⟨hne, hlost⟩ := hlost
    have hnot : ¬ d <+: s := by
      intro hbelow
      exact hne (habove.eq_of_length_le hbelow.length_le)
    have hnone : (node root).view d = none := by
      obtain ⟨r, rfl⟩ := habove
      rw [← h r, beside, if_pos ⟨hnot, List.prefix_refl _⟩]
    have hparent : (node root).view d.dropLast = some .node := by
      obtain ⟨y, hy⟩ := prefix_dropLast_of_ne habove hne
      have hlast := h y
      rw [beside, if_neg, hy, withParents_self hblocked] at hlast
      · exact hlast.symm
      · rintro ⟨_, hbelow⟩
        have hlen := hbelow.length_le
        have hpos : 0 < d.length := List.length_pos_of_ne_nil hd
        rw [hy, List.length_dropLast] at hlen
        omega
    rw [hlost hnone] at hparent
    cases hparent
  · intro h x
    by_cases habove : s <+: d
    · rcases h habove with rfl | ⟨hnone, hparent⟩
      · rw [beside, if_neg (fun hlost => hlost.1 (List.prefix_refl s)), withParents_of_not_above]
        intro hprefix
        have hlen := ((List.prefix_append s x).trans hprefix).length_le
        have hpos : 0 < s.length := List.length_pos_of_ne_nil hd
        rw [List.length_dropLast] at hlen
        omega
      · rw [beside]
        split
        · next hlost =>
          obtain ⟨y, hy⟩ := hlost.2
          rw [← hy, view_append_eq_none hnone]
        · exact hparents (fun _ => hparent) x
    · rw [beside_eq (fun h => absurd h habove)]
      exact hparents (fun hinside => absurd (hinside.trans (List.dropLast_prefix d)) habove) x

/-- When the JSON provider keeps the copy law: it also takes what was at `dest` out of the source. -/
theorem JsonFile.copyLaw_iff (provider : SavedTree κ γ) (s d : List κ) (src dest : τ) :
    CopyLaw (node provider.root).view (node (copyAt provider s d src dest).1.root).view
        (copyAt provider s d src dest).2.isSome s d ↔
      CopyRefused (node provider.root).view s d ∨
        (s <+: d → s = d ∨ (node provider.root).view d = none ∧ (node provider.root).view d.dropLast ≠ none) := by
  rcases copyAt_cases provider s d src dest with ⟨hrefused, after, e, hcopy, -⟩ | ⟨hrefused, after, hcopy, hview⟩
  · rw [hcopy]
    exact iff_of_true CopyLaw.of_raised (.inl hrefused)
  · rw [hcopy, or_iff_right hrefused, ← beside_withParents_iff]
    · exact copyLaw_iff_of_put _ hview
    · exact fun h => hrefused (.inr (.inl h))
    · exact fun h => hrefused (.inr (.inr h))

end Tree

end CliServer
