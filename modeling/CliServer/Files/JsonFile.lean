import CliServer.Files.Trees

/-!
# The JSON file provider

The tree of the in-memory provider with the children in lists, written to a file after each change.  `move` takes away
what is at `dest` before it copies, and deleting a name that is not there is no error, so it keeps the move law where
the in-memory provider does, and in a few more places.
-/

namespace CliServer

open NamedTree

/-- The tree of the JSON provider, and the one its file holds, where there is a file. -/
structure SavedTree (κ γ : Type*) where
  root : Forest κ γ
  saved : Option (Forest κ γ)

/-- The trees of the JSON provider; a content is its text. -/
abbrev JsonFile := SavedTree Name (FileData utf8Length)

namespace JsonFile

section Generic

variable {τ κ γ : Type*} [DecidableEq κ]

/-- `_save`. -/
def save (provider : SavedTree κ γ) : SavedTree κ γ := { provider with saved := some provider.root }

/-- The lines of `copy` and `move` that put the copy at `dest`; `srcNode` is the object that was found at `src`. -/
def putCopy (root : Forest κ γ) (srcNode : NamedTree κ γ) (src dest : List κ) (hdest : dest ≠ []) : Forest κ γ :=
  let name := dest.getLast hdest
  let removed := root.alter (fun children => children.discard name) dest.dropLast
  -- the object has the directories that were just made in it, and stays what it is when it goes with what was removed
  let srcNode := (resolve removed src).getD ((resolve root src).getD srcNode)
  removed.alter (fun children => children ++ [(name, deepCopy srcNode)]) dest.dropLast

/-- The lines of `move` that remove the old location. -/
def removeOld (root : Forest κ γ) (src : List κ) (hsrc : src ≠ []) : Forest κ γ :=
  match resolve root src.dropLast with
  | none => root
  | some _ => root.alter (fun children => children.discard (src.getLast hsrc)) src.dropLast

/-- `copy`, of the normalised paths. -/
def copyAt (provider : SavedTree κ γ) (srcNorm destNorm : List κ) (src dest : τ) :
    SavedTree κ γ × Option (PathError τ) :=
  match resolve provider.root srcNorm with
  | none => (provider, some (.notFound src))
  | some srcNode =>
    if hdest : destNorm = [] then (provider, some (.isADirectory dest))
    else match ensureParents dest provider.root destNorm.dropLast with
      | (root, some e) => ({ provider with root := root }, some e)
      | (root, none) => (save { provider with root := putCopy root srcNode srcNorm destNorm hdest }, none)

/-- `move`, of the normalised paths. -/
def moveAt (provider : SavedTree κ γ) (srcNorm destNorm : List κ) (src dest : τ) :
    SavedTree κ γ × Option (PathError τ) :=
  if hsrc : srcNorm = [] then (provider, some (.permission src))
  else match resolve provider.root srcNorm with
    | none => (provider, some (.notFound src))
    | some srcNode =>
      if hdest : destNorm = [] then (provider, some (.isADirectory dest))
      else match ensureParents dest provider.root destNorm.dropLast with
        | (root, some e) => ({ provider with root := root }, some e)
        | (root, none) =>
          let root := putCopy root srcNode srcNorm destNorm hdest
          (save { provider with root := removeOld root srcNorm hsrc }, none)

end Generic

/-- `copy`. -/
def copy (provider : JsonFile) (src dest : Str) : JsonFile × Option FileError :=
  copyAt provider (normalizePath src) (normalizePath dest) src dest

/-- `move`. -/
def move (provider : JsonFile) (src dest : Str) : JsonFile × Option FileError :=
  moveAt provider (normalizePath src) (normalizePath dest) src dest

section Law

variable {τ κ γ : Type*} [DecidableEq κ] {root made : Forest κ γ} {s d : List κ}

theorem view_removeOld (root : Forest κ γ) (hs : s ≠ []) (q : List κ) :
    (node (removeOld root s hs)).view q = if s <+: q then none else (node root).view q := by
  cases h : resolve root s.dropLast with
  | none =>
    simp only [removeOld, h]
    split
    · next hq =>
      obtain ⟨x, rfl⟩ := (List.dropLast_prefix s).trans hq
      exact view_append_eq_none (view_eq_none_iff.2 h) x
    · rfl
  | some _ =>
    simp only [removeOld, h]
    exact view_drop root hs q

/-- What is copied from `src`, which may be above `dest`: what was removed there is not in it any more. -/
def beside (view : View κ γ) (s d : List κ) : View κ γ := fun x =>
  if ¬ d <+: s ∧ d <+: s ++ x then none else view (s ++ x)

theorem beside_eq {view : View κ γ} (hnot : s <+: d → s = d) (x : List κ) : beside view s d x = view (s ++ x) := by
  rw [beside, if_neg]
  rintro ⟨hd, habove⟩
  rcases List.prefix_or_prefix_of_prefix habove (List.prefix_append s x) with h | h
  · exact hd h
  · exact hd (hnot h ▸ List.prefix_refl s)

/-- The copy is put at `dest`. -/
theorem view_putCopy (srcNode : NamedTree κ γ) (hd : d ≠ []) (hsome : (node made).view s ≠ none)
    (hparent : (node made).view d.dropLast = some .node) (q : List κ) :
    (node (putCopy made srcNode s d hd)).view q =
      if d <+: q then beside (node made).view s d (q.drop d.length) else (node made).view q := by
  have hremoved : ∀ q, (node (made.alter (fun children => children.discard (d.getLast hd)) d.dropLast)).view q =
      if d <+: q then none else (node made).view q := fun q => view_drop made hd q
  unfold putCopy
  simp only [deepCopy_eq]
  generalize made.alter (fun children => children.discard (d.getLast hd)) d.dropLast = removed at hremoved
  obtain ⟨u, hu⟩ := Option.isSome_iff_exists.1 (find_isSome_of_view_ne_none hsome)
  have hnotParent : ¬ d <+: d.dropLast := by
    intro h
    have hlen := h.length_le
    have hpos : 0 < d.length := List.length_pos_of_ne_nil hd
    rw [List.length_dropLast] at hlen
    omega
  have hcopy : ∀ x, ((resolve removed s).getD ((resolve made s).getD srcNode)).view x =
      beside (node made).view s d x := by
    intro x
    rw [beside]
    cases hfind : resolve removed s with
    | none =>
      have hmade : resolve made s = some u := hu
      have hgone := hremoved s
      rw [view_eq_none_iff.2 hfind] at hgone
      -- only what was at or below `dest` was removed
      have hbelow : d <+: s := by
        by_contra hd
        rw [if_neg hd] at hgone
        exact hsome hgone.symm
      rw [Option.getD_none, hmade, Option.getD_some, if_neg (fun h => h.1 hbelow), view_append_of_find hu]
    | some v =>
      have hnot : ¬ d <+: s := by
        intro hbelow
        have hgone : (node removed).view s = none := by rw [hremoved, if_pos hbelow]
        rw [view_eq_none_iff] at hgone
        rw [resolve, hgone] at hfind
        cases hfind
      rw [Option.getD_some, ← view_append_of_find hfind, hremoved]
      simp only [hnot, not_false_eq_true, true_and]
  have hnode : (node removed).view d.dropLast = some .node := by rw [hremoved, if_neg hnotParent, hparent]
  have hnew : ∀ cs, (node removed).find d.dropLast = some (node cs) → cs.lookup (d.getLast hd) = none := by
    intro cs hcs
    have hlast : (node cs).view [d.getLast hd] = none := by
      rw [← view_append_of_find hcs, List.dropLast_append_getLast hd, hremoved, if_pos (List.prefix_refl d)]
    rw [view_node_cons] at hlast
    cases hlookup : cs.lookup (d.getLast hd) with
    | none => rfl
    | some t => simp [hlookup, view] at hlast
  rw [view_put hd hnode (fun cs hcs k => Forest.lookup_append_new (hnew cs hcs) _ k), hremoved, hcopy]
  split <;> rfl

/-- A refused move leaves the tree alone; any other is a copy and a deletion. -/
theorem moveAt_cases (provider : SavedTree κ γ) (s d : List κ) (src dest : τ) :
    (MoveRefused (node provider.root).view s d ∧
        ∃ after e, moveAt provider s d src dest = (after, some e) ∧
          (node after.root).view = (node provider.root).view) ∨
      ¬ MoveRefused (node provider.root).view s d ∧
        ∃ (after : SavedTree κ γ) (copy : View κ γ), moveAt provider s d src dest = (after, none) ∧
          (¬ s <+: d → ∀ x, copy x = (node provider.root).view (s ++ x)) ∧
          ∀ q, (node after.root).view q = if s <+: q then none
            else if d <+: q then copy (q.drop d.length) else withParents (node provider.root).view d.dropLast q := by
  unfold moveAt MoveRefused
  by_cases hs : s = []
  · exact .inl ⟨.inl hs, provider, _, by rw [dif_pos hs], rfl⟩
  cases hfind : resolve provider.root s with
  | none => exact .inl ⟨.inr (.inl (view_eq_none_iff.2 hfind)), provider, _, by simp [hs]; rfl, rfl⟩
  | some srcNode =>
    by_cases hd : d = []
    · exact .inl ⟨.inr (.inr (.inl hd)), provider, _, by simp [hs, hd]; rfl, rfl⟩
    have hsome : (node provider.root).view s ≠ none := by
      rw [Ne, view_eq_none_iff]
      intro h
      rw [resolve, h] at hfind
      cases hfind
    rcases ensureParents_error dest provider.root d.dropLast with
      ⟨made, hmade, hblocked, hview⟩ | ⟨made, hmade, hblocked, hview⟩
    · exact .inl ⟨.inr (.inr (.inr hblocked)), { provider with root := made }, _,
        by simp [hs, hd, hmade]; rfl, hview⟩
    right
    refine ⟨?_, ?_⟩
    · rintro (h | h | h | h)
      · exact hs h
      · exact hsome h
      · exact hd h
      · exact hblocked h
    have hstill : (node made).view s ≠ none := by
      rw [hview, withParents_ne_none hsome]
      exact hsome
    have hparent : (node made).view d.dropLast = some .node := by
      rw [hview]
      exact withParents_self hblocked
    refine ⟨save { provider with root := removeOld (putCopy made srcNode s d hd) s hs }, beside (node made).view s d,
      ?_, ?_, ?_⟩
    · simp [hs, hd, hmade]
    · intro hnot x
      rw [beside_eq (fun h => absurd h hnot), hview]
      apply withParents_of_not_above
      intro h
      exact hnot ((List.prefix_append s x).trans (h.trans (List.dropLast_prefix d)))
    · intro q
      rw [← hview, ← view_putCopy srcNode hd hstill hparent]
      exact view_removeOld _ hs q

/-- When the JSON provider keeps the move law. -/
theorem moveLaw_iff (provider : SavedTree κ γ) (s d : List κ) (src dest : τ) :
    MoveLaw (node provider.root).view (node (moveAt provider s d src dest).1.root).view
        (moveAt provider s d src dest).2.isSome s d ↔
      MoveRefused (node provider.root).view s d ∨
        ¬ s <+: d ∧ ∀ r, r ≠ [] → s = d ++ r → (node provider.root).view (s ++ r) = none := by
  rcases moveAt_cases provider s d src dest with
    ⟨hrefused, after, e, hmove, hview⟩ | ⟨hrefused, after, copy, hmove, hcopy, hview⟩
  · rw [hmove]
    constructor
    · exact fun _ => .inl hrefused
    · exact fun _ => moveLaw_raised_iff.2 hview
  · rw [or_iff_right hrefused, hmove]
    exact moveLaw_tree_iff copy (fun h => hrefused (.inr (.inl h))) hcopy hview

end Law

end JsonFile

end CliServer
