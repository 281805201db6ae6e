import CliServer.Files.Trees

/-!
# The in-memory file provider

`move` copies the source to its new place and then deletes the name it had, also when the copy was put over or into the
source.  `InMemory.moveLaw_iff` says when that is a move.
-/

namespace CliServer

open NamedTree

/-- The tree of the in-memory provider; a content is its bytes. -/
abbrev InMemory := FileTree (List.length : List UInt8 → Nat)

namespace InMemory

/-- `write_file`, of the bytes `raw`. -/
def writeFile (root : InMemory) (path : Str) (raw : List UInt8) : InMemory × Option FileError :=
  writeNode root (normalizePath path) path { content := raw, size := raw.length, size_eq := rfl }

section Generic

variable {τ κ γ : Type*} [DecidableEq κ]

/-- The lines of `copy` and `move` that put the copy at `dest`; `srcNode` is the object that was found at `src`. -/
def putCopy (root : Forest κ γ) (srcNode : NamedTree κ γ) (src dest : List κ) (hdest : dest ≠ []) : Forest κ γ :=
  -- the object has the directories that were just made in it
  let srcNode := (resolve root src).getD srcNode
  root.alter (fun children => children.assign (dest.getLast hdest) (deepCopy srcNode)) dest.dropLast

/-- The last lines of `move`: `del src_parent.children[src_parts[-1]]`; the error names the key, the `text` of a name.
-/
def removeOld (text : κ → τ) (root : Forest κ γ) (src : List κ) (hsrc : src ≠ []) :
    Forest κ γ × Option (PathError τ) :=
  match resolve root src.dropLast with
  | none => (root, none)
  | some srcParent =>
    let name := src.getLast hsrc
    if (srcParent.find [name]).isNone then (root, some (.keyError (text name)))
    else (root.alter (fun children => children.discard name) src.dropLast, none)

/-- `copy`, of the normalised paths. -/
def copyAt (root : Forest κ γ) (srcNorm destNorm : List κ) (src dest : τ) : Forest κ γ × Option (PathError τ) :=
  match resolve root srcNorm with
  | none => (root, some (.notFound src))
  | some srcNode =>
    if hdest : destNorm = [] then (root, some (.isADirectory dest))
    else match ensureParents dest root destNorm.dropLast with
      | (root, some e) => (root, some e)
      | (root, none) => (putCopy root srcNode srcNorm destNorm hdest, none)

/-- `move`, of the normalised paths. -/
def moveAt (text : κ → τ) (root : Forest κ γ) (srcNorm destNorm : List κ) (src dest : τ) :
    Forest κ γ × Option (PathError τ) :=
  -- `FileStoragePermissionError` is not among the names this module imports
  if hsrc : srcNorm = [] then (root, some .nameError)
  else match resolve root srcNorm with
    | none => (root, some (.notFound src))
    | some srcNode =>
      if hdest : destNorm = [] then (root, some (.isADirectory dest))
      else match ensureParents dest root destNorm.dropLast with
        | (root, some e) => (root, some e)
        | (root, none) => removeOld text (putCopy root srcNode srcNorm destNorm hdest) srcNorm hsrc

end Generic

/-- `copy`. -/
def copy (root : InMemory) (src dest : Str) : InMemory × Option FileError :=
  copyAt root (normalizePath src) (normalizePath dest) src dest

/-- `move`. -/
def move (root : InMemory) (src dest : Str) : InMemory × Option FileError :=
  moveAt Name.text root (normalizePath src) (normalizePath dest) src dest

section Law

variable {τ κ γ : Type*} [DecidableEq κ] {root tree : Forest κ γ} {s d : List κ}

theorem removeOld_cases (text : κ → τ) (root : Forest κ γ) {src : List κ} (hsrc : src ≠ []) :
    (∃ tree, removeOld text root src hsrc = (tree, none) ∧
    ((node root).view src.dropLast = none ∨ (node root).view src ≠ none) ∧
        ∀ p, (node tree).view p = if src <+: p then none else (node root).view p) ∨
      ∃ e, removeOld text root src hsrc = (root, some e) ∧ (node root).view src.dropLast ≠ none ∧
        (node root).view src = none := by
  have hlast : src.dropLast ++ [src.getLast hsrc] = src := List.dropLast_append_getLast hsrc
  cases hparent : resolve root src.dropLast with
  | none =>
    have hnone : (node root).view src.dropLast = none := view_eq_none_iff.2 hparent
    refine .inl ⟨root, by simp [removeOld, hparent], .inl hnone, ?_⟩
    intro p
    split
    · next h =>
      obtain ⟨x, rfl⟩ := (List.dropLast_prefix src).trans h
      exact view_append_eq_none hnone x
    · rfl
  | some srcParent =>
    have hsome : (node root).view src.dropLast ≠ none := by
      intro h
      rw [view_eq_none_iff] at h
      rw [resolve, h] at hparent
      cases hparent
    have hchild : (node root).view src = srcParent.view [src.getLast hsrc] := by
      rw [← view_append_of_find hparent, hlast]
    by_cases hkey : (srcParent.find [src.getLast hsrc]).isNone
    · refine .inr ⟨_, by simp only [removeOld, hparent, hkey, if_true]; rfl, hsome, ?_⟩
      rw [hchild, view_eq_none_iff]
      simpa using hkey
    · refine .inl ⟨_, by simp only [removeOld, hparent, hkey]; rfl, .inr ?_, fun p => view_drop root hsrc p⟩
      rw [hchild, Ne, view_eq_none_iff]
      simpa using hkey

/-- The copy is put at `dest`: of what is at `src` when the parents of `dest` are made. -/
theorem view_putCopy (srcNode : NamedTree κ γ) (hd : d ≠ []) (hsome : (node tree).view s ≠ none)
    (hparent : (node tree).view d.dropLast = some .node) (q : List κ) :
    (node (putCopy tree srcNode s d hd)).view q =
      if d <+: q then (node tree).view (s ++ q.drop d.length) else (node tree).view q := by
  obtain ⟨u, hu⟩ := Option.isSome_iff_exists.1 (find_isSome_of_view_ne_none hsome)
  have hnode : resolve tree s = some u := hu
  rw [putCopy, hnode, Option.getD_some, deepCopy_eq,
    view_put hd hparent (fun cs _ k => Forest.lookup_assign cs (d.getLast hd) u k), ← view_append_of_find hu]

/-- A refused move leaves the tree alone; any other has put a copy at `dest` when it comes to delete `src`. -/
theorem moveAt_cases (text : κ → τ) (root : Forest κ γ) (s d : List κ) (src dest : τ) :
    (MoveRefused (node root).view s d ∧
        ∃ tree e, moveAt text root s d src dest = (tree, some e) ∧ (node tree).view = (node root).view) ∨
      ¬ MoveRefused (node root).view s d ∧
        ∃ tree hsrc, moveAt text root s d src dest = removeOld text tree s hsrc ∧
          ∀ q, (node tree).view q = if d <+: q then withParents (node root).view d.dropLast (s ++ q.drop d.length)
            else withParents (node root).view d.dropLast q := by
  unfold moveAt MoveRefused
  by_cases hs : s = []
  · exact .inl ⟨.inl hs, root, _, by rw [dif_pos hs], rfl⟩
  · cases hfind : resolve root s with
    | none => exact .inl ⟨.inr (.inl (view_eq_none_iff.2 hfind)), root, _, by simp [hs]; rfl, rfl⟩
    | some srcNode =>
      by_cases hd : d = []
      · exact .inl ⟨.inr (.inr (.inl hd)), root, _, by simp [hs, hd]; rfl, rfl⟩
      · have hsome : (node root).view s ≠ none := by
          rw [Ne, view_eq_none_iff]
          intro h
          rw [resolve, h] at hfind
          cases hfind
        rcases ensureParents_error dest root d.dropLast with
          ⟨made, hmade, hblocked, hview⟩ | ⟨made, hmade, hblocked, hview⟩
        · exact .inl ⟨.inr (.inr (.inr hblocked)), made, _, by simp [hs, hd, hmade]; rfl, hview⟩
        · right
          refine ⟨?_, ?_⟩
          · rintro (h | h | h | h)
            · exact hs h
            · exact hsome h
            · exact hd h
            · exact hblocked h
          -- the source is still there
          have hstill : (node made).view s ≠ none := by
            rw [hview, withParents_ne_none hsome]
            exact hsome
          have hparent : (node made).view d.dropLast = some .node := by
            rw [hview]
            exact withParents_self hblocked
          refine ⟨putCopy made srcNode s d hd, hs, ?_, ?_⟩
          · simp [hs, hd, hmade]
          · intro q
            rw [view_putCopy srcNode hd hstill hparent, hview]

/-- Where the copy is not made inside the source, it is a copy of what was there. -/
private theorem view_copied (hnot : ¬ s <+: d) (hview : ∀ q, (node tree).view q = if d <+: q
      then withParents (node root).view d.dropLast (s ++ q.drop d.length)
      else withParents (node root).view d.dropLast q)
    (x : List κ) : (node tree).view (d ++ x) = (node root).view (s ++ x) := by
  rw [hview, if_pos (List.prefix_append d x), List.drop_left]
  apply withParents_of_not_above
  intro h
  exact hnot ((List.prefix_append s x).trans (h.trans (List.dropLast_prefix d)))

/-- Once the copy is at `dest`, deleting `src` completes a move when `dest` is not at or below `src`, and `src`, if it
is below `dest`, was not in a directory that the copy brings along. -/
private theorem removeOld_law_iff (text : κ → τ) (hsrc : s ≠ []) (hsome : (node root).view s ≠ none)
    (hview : ∀ q, (node tree).view q = if d <+: q
      then withParents (node root).view d.dropLast (s ++ q.drop d.length)
      else withParents (node root).view d.dropLast q) :
    MoveLaw (node root).view (node (removeOld text tree s hsrc).1).view (removeOld text tree s hsrc).2.isSome s d ↔
      ¬ s <+: d ∧ ∀ r, r ≠ [] → s = d ++ r → (node root).view (s ++ r.dropLast) = none := by
  rcases removeOld_cases text tree hsrc with ⟨after, hremove, hparent, hafter⟩ | ⟨e, hremove, hparent, hnone⟩
  · have hlaw : MoveLaw (node root).view (node after).view false s d ↔
        ¬ s <+: d ∧ ∀ r, r ≠ [] → s = d ++ r → (node root).view (s ++ r) = none := by
      refine moveLaw_tree_iff (fun x => withParents (node root).view d.dropLast (s ++ x)) hsome ?_ ?_
      · intro hnot x
        rw [← view_copied hnot hview, hview, if_pos (List.prefix_append d x), List.drop_left]
      · intro p
        rw [hafter, hview]
    rw [hremove, Option.isSome_none, hlaw]
    constructor
    · rintro ⟨hnot, hfree⟩
      refine ⟨hnot, ?_⟩
      intro r hr heq
      have hlast : (node tree).view s = none := by
        rw [heq, view_copied hnot hview, hfree r hr heq]
      have hdrop : (node tree).view s.dropLast = none := hparent.resolve_right (fun h => h hlast)
      rwa [heq, List.dropLast_append_of_ne_nil hr, view_copied hnot hview] at hdrop
    · rintro ⟨hnot, hfree⟩
      refine ⟨hnot, ?_⟩
      intro r hr heq
      obtain ⟨y, hy⟩ := List.dropLast_prefix r
      rw [← hy, ← List.append_assoc]
      exact view_append_eq_none (hfree r hr heq) y
  · rw [hremove, Option.isSome_some, moveLaw_raised_iff]
    constructor
    · intro h
      rw [h] at hnone
      exact absurd hnone hsome
    · rintro ⟨hnot, hfree⟩
      exfalso
      by_cases hd : d <+: s
      · obtain ⟨r, rfl⟩ := hd
        have hr : r ≠ [] := by
          rintro rfl
          rw [List.append_nil] at hnot
          exact hnot (List.prefix_refl d)
        rw [List.dropLast_append_of_ne_nil hr, view_copied hnot hview] at hparent
        exact hparent (hfree r hr rfl)
      · rw [hview, if_neg hd, withParents_ne_none hsome] at hnone
        exact hsome hnone

/-- When the in-memory provider keeps the move law. -/
theorem moveLaw_iff (text : κ → τ) (root : Forest κ γ) (s d : List κ) (src dest : τ) :
    MoveLaw (node root).view (node (moveAt text root s d src dest).1).view (moveAt text root s d src dest).2.isSome
        s d ↔
      MoveRefused (node root).view s d ∨
        ¬ s <+: d ∧ ∀ r, r ≠ [] → s = d ++ r → (node root).view (s ++ r.dropLast) = none := by
  rcases moveAt_cases text root s d src dest with
    ⟨hrefused, tree, e, hmove, hview⟩ | ⟨hrefused, tree, hsrc, hmove, hview⟩
  · rw [hmove]
    constructor
    · exact fun _ => .inl hrefused
    · exact fun _ => moveLaw_raised_iff.2 hview
  · rw [or_iff_right hrefused, hmove]
    exact removeOld_law_iff text hsrc (fun h => hrefused (.inr (.inl h))) hview

end Law

end InMemory

end CliServer
