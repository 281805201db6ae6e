import CliServer.Files.Paths
import CliServer.Lib.NamedTree

/-!
# What a move promises

`MoveLaw` relates the views of a file tree before and after a move.  The three providers move by copying and deleting:
they make the missing parent directories (`withParents`), put a copy at `dest` and delete what is at `src`.
`moveLaw_iff` says when the outcome of this, whatever the copy is, is a move.
-/

namespace CliServer

open NamedTree

/-- What stands at each path of a file tree: a directory, or a file. -/
abbrev FileView (γ : Type*) := NamedTree.View Name γ

/-- What a move promises, of the views before and after it and whether it raised. -/
structure MoveLaw {κ γ : Type*} (before after : View κ γ) (raised : Bool) (src dest : List κ) : Prop where
  /-- A move that raises changes nothing. -/
  raises : raised = true → after = before
  /-- Nor does a move of a path to itself. -/
  same : raised = false → src = dest → after = before
  /-- The subtree at `dest` is the old one at `src`. -/
  moved : raised = false → src ≠ dest → ∀ x, after (dest ++ x) = before (src ++ x)
  /-- Nothing is left at `src`. -/
  gone : raised = false → src ≠ dest → ∀ x, after (src ++ x) = none
  /-- What is below neither stays, and at most parent directories of `dest` come. -/
  frame : raised = false → src ≠ dest → ∀ p, ¬ src <+: p → ¬ dest <+: p →
    after p = before p ∨ (before p = none ∧ p <+: dest ∧ after p = some .node)

/-- Anything shorter than a path is above its last name. -/
theorem prefix_dropLast_of_ne {κ : Type*} {p q : List κ} (h : p <+: q) (hne : p ≠ q) : p <+: q.dropLast := by
  obtain ⟨x, rfl⟩ := h
  have hx : x ≠ [] := by
    rintro rfl
    exact hne (List.append_nil p).symm
  rw [List.dropLast_append_of_ne_nil hx]
  exact List.prefix_append p x.dropLast

variable {κ γ : Type*}

/-- A file is in the way of the directories of a path. -/
def Blocked (view : View κ γ) (parents : List κ) : Prop :=
  ∃ q v, q ≠ [] ∧ q <+: parents ∧ view q = some (.leaf v)

/-- The view with the missing directories of a path. -/
def withParents [DecidableEq κ] (view : View κ γ) (parents : List κ) : View κ γ := fun q =>
  if q ≠ [] ∧ q <+: parents ∧ view q = none then some .node else view q

/-- A move is refused: of the root or of nothing, to the root or through a file. -/
def MoveRefused (view : View κ γ) (src dest : List κ) : Prop :=
  src = [] ∨ view src = none ∨ dest = [] ∨ Blocked view dest.dropLast

theorem MoveLaw.of_unchanged {view : View κ γ} {src dest : List κ} : MoveLaw view view true src dest where
  raises _ := rfl
  same h := nomatch h
  moved h := nomatch h
  gone h := nomatch h
  frame h := nomatch h

theorem moveLaw_raised_iff {before after : View κ γ} {src dest : List κ} :
    MoveLaw before after true src dest ↔ after = before := by
  constructor
  · intro h
    exact h.raises rfl
  · intro h
    rw [h]
    exact MoveLaw.of_unchanged

/-- Nothing may be missing at `dest`. -/
theorem not_moveLaw_of_gone {before after : View κ γ} {src dest : List κ} (hsrc : before src ≠ none)
    (hgone : after dest = none) : ¬ MoveLaw before after false src dest := by
  intro h
  by_cases heq : src = dest
  · rw [h.same rfl heq, ← heq] at hgone
    exact hsrc hgone
  · have hmoved := h.moved rfl heq []
    rw [List.append_nil, List.append_nil, hgone] at hmoved
    exact hsrc hmoved.symm

/-- Copying to `dest`, after the directories of `parents` were made, and deleting `src` is a move when `dest` is not at
or below `src`, the copy is what the law asks for and no other directory was made than parents of `dest`. -/
theorem moveLaw_iff [DecidableEq κ] {before after : View κ γ} (copy : View κ γ) {src dest parents : List κ}
    (hsrc : before src ≠ none)
    (hafter : ∀ p, after p = if src <+: p then none
      else if dest <+: p then copy (p.drop dest.length) else withParents before parents p) :
    MoveLaw before after false src dest ↔ ¬ src <+: dest ∧
      (∀ x, (if src <+: dest ++ x then none else copy x) = before (src ++ x)) ∧
      ∀ p, p ≠ [] → p <+: parents → before p = none → ¬ src <+: p → ¬ dest <+: p → p <+: dest := by
  have hdest : ∀ x, after (dest ++ x) = if src <+: dest ++ x then none else copy x := by
    intro x
    rw [hafter, if_pos (List.prefix_append dest x), List.drop_left]
  constructor
  · intro h
    have hnot : ¬ src <+: dest := by
      intro hbelow
      exact not_moveLaw_of_gone hsrc (by rw [hafter, if_pos hbelow]) h
    have hne : src ≠ dest := by
      intro heq
      exact hnot (heq ▸ List.prefix_refl src)
    refine ⟨hnot, ?_, ?_⟩
    · intro x
      rw [← hdest]
      exact h.moved rfl hne x
    · intro p hp hprefix hnone hs hd
      have hmade : after p = some .node := by
        rw [hafter, if_neg hs, if_neg hd, withParents, if_pos ⟨hp, hprefix, hnone⟩]
      rcases h.frame rfl hne p hs hd with hsame | ⟨-, habove, -⟩
      · rw [hmade, hnone] at hsame
        cases hsame
      · exact habove
  · rintro ⟨hnot, hcopy, hparents⟩
    refine ⟨(fun h => nomatch h), ?_, ?_, ?_, ?_⟩
    · intro _ heq
      exact absurd (heq ▸ List.prefix_refl src) hnot
    · intro _ _ x
      rw [hdest, hcopy]
    · intro _ _ x
      rw [hafter, if_pos (List.prefix_append src x)]
    · intro _ _ p hs hd
      rw [hafter, if_neg hs, if_neg hd, withParents]
      split
      · next h => exact .inr ⟨h.2.2, hparents p h.1 h.2.1 h.2.2 hs hd, rfl⟩
      · exact .inl rfl

/-! ### At other names -/

section Along

variable {κ' : Type*} {read : List κ → Option (List κ')} {spell : κ' → κ} {before after : View κ' γ}
  {src dest : List κ'}

/-- The view at the names of which those of another view are spellings; nothing stands at the other paths. -/
def along (read : List κ → Option (List κ')) (view : View κ' γ) : View κ γ := fun p => (read p).bind view

theorem along_spelled (hread : ∀ p q, read p = some q ↔ p = q.map spell) (view : View κ' γ) (q : List κ') :
    along read view (q.map spell) = view q := by
  rw [along, (hread _ q).2 rfl, Option.bind_some]

theorem along_injective (hread : ∀ p q, read p = some q ↔ p = q.map spell) {view view' : View κ' γ} :
    along read view = along read view' ↔ view = view' := by
  constructor
  · intro h
    funext q
    rw [← along_spelled hread view, ← along_spelled hread view', h]
  · rintro rfl
    rfl

private theorem spell_injective (hread : ∀ p q, read p = some q ↔ p = q.map spell) :
    Function.Injective (List.map spell) := by
  intro q q' h
  have hq := (hread _ q).2 rfl
  rw [h, (hread _ q').2 rfl] at hq
  exact (Option.some.inj hq).symm

/-- A path goes on below a spelled one in spelled names, or nothing stands there. -/
theorem along_append (hread : ∀ p q, read p = some q ↔ p = q.map spell) (x : List κ) :
    (∃ y : List κ', x = y.map spell) ∨
      ∀ (q : List κ') (view : View κ' γ), along read view (q.map spell ++ x) = none := by
  refine or_iff_not_imp_left.2 fun hx q view => ?_
  rw [along, Option.bind_eq_none_iff]
  intro p hp
  obtain ⟨a, b, -, -, hb⟩ := List.map_eq_append_iff.1 ((hread _ p).1 hp).symm
  exact absurd ⟨b, hb.symm⟩ hx

theorem prefix_spelled_iff (hread : ∀ p q, read p = some q ↔ p = q.map spell) {p q : List κ'} :
    p.map spell <+: q.map spell ↔ p <+: q := by
  constructor
  · rintro ⟨x, hx⟩
    obtain ⟨a, b, rfl, ha, -⟩ := List.map_eq_append_iff.1 hx.symm
    rw [spell_injective hread ha.symm]
    exact List.prefix_append a b
  · rintro ⟨x, rfl⟩
    exact ⟨x.map spell, List.map_append.symm⟩

/-- The move law of the spelled paths is that of the paths. -/
theorem moveLaw_along_iff (hread : ∀ p q, read p = some q ↔ p = q.map spell) {raised : Bool} :
    MoveLaw (along read before) (along read after) raised (src.map spell) (dest.map spell) ↔
      MoveLaw before after raised src dest := by
  have hinj := spell_injective hread
  constructor
  · intro h
    refine ⟨fun hraised => (along_injective hread).1 (h.raises hraised), fun hok heq => ?_, fun hok hne x => ?_,
      fun hok hne x => ?_, fun hok hne p hsrc hdest => ?_⟩
    · exact (along_injective hread).1 (h.same hok (congrArg _ heq))
    · have hmoved := h.moved hok (hinj.ne hne) (x.map spell)
      rwa [← List.map_append, ← List.map_append, along_spelled hread, along_spelled hread] at hmoved
    · have hgone := h.gone hok (hinj.ne hne) (x.map spell)
      rwa [← List.map_append, along_spelled hread] at hgone
    · have hframe := h.frame hok (hinj.ne hne) (p.map spell) (mt (prefix_spelled_iff hread).1 hsrc)
        (mt (prefix_spelled_iff hread).1 hdest)
      rwa [along_spelled hread, along_spelled hread, prefix_spelled_iff hread] at hframe
  · intro h
    refine ⟨fun hraised => by rw [h.raises hraised], fun hok heq => by rw [h.same hok (hinj heq)], fun hok hne x => ?_,
      fun hok hne x => ?_, fun hok hne p hsrc hdest => ?_⟩
    · have hne' : src ≠ dest := fun heq => hne (congrArg _ heq)
      rcases along_append (γ := γ) hread x with ⟨y, rfl⟩ | hnone
      · rw [← List.map_append, ← List.map_append, along_spelled hread, along_spelled hread]
        exact h.moved hok hne' y
      · rw [hnone, hnone]
    · have hne' : src ≠ dest := fun heq => hne (congrArg _ heq)
      rcases along_append (γ := γ) hread x with ⟨y, rfl⟩ | hnone
      · rw [← List.map_append, along_spelled hread]
        exact h.gone hok hne' y
      · exact hnone src after
    · have hne' : src ≠ dest := fun heq => hne (congrArg _ heq)
      cases hp : read p with
      | none => exact .inl (by rw [along, along, hp]; rfl)
      | some q =>
        obtain rfl := (hread p q).1 hp
        rw [along_spelled hread, along_spelled hread, prefix_spelled_iff hread]
        exact h.frame hok hne' q (mt (prefix_spelled_iff hread).2 hsrc) (mt (prefix_spelled_iff hread).2 hdest)

end Along

/-! ### In a tree -/

section Tree

variable [DecidableEq κ] {root tree : Forest κ γ} {src dest : List κ}

/-- The directories of a path that no file is in the way of. -/
theorem withParents_self {parents : List κ} (h : ¬ Blocked (node root).view parents) :
    withParents (node root).view parents parents = some .node := by
  rw [withParents]
  split
  · rfl
  · next hsome =>
    cases hview : (node root).view parents with
    | none =>
      refine absurd ⟨?_, List.prefix_refl parents, hview⟩ hsome
      rintro rfl
      rw [view_nil_node] at hview
      cases hview
    | some kind =>
      cases kind with
      | node => rfl
      | leaf file =>
        refine absurd ⟨parents, file, ?_, List.prefix_refl parents, hview⟩ h
        rintro rfl
        rw [view_nil_node] at hview
        cases hview

theorem withParents_ne_none {view : View κ γ} {parents p : List κ} (h : view p ≠ none) :
    withParents view parents p = view p := by
  rw [withParents, if_neg]
  exact fun hmade => h hmade.2.2

/-- To put a tree under the last name of a path. -/
theorem view_put {f : Forest κ γ → Forest κ γ} {copy : NamedTree κ γ} (hdest : dest ≠ [])
    (hparent : (node tree).view dest.dropLast = some .node)
    (hf : ∀ cs, (node tree).find dest.dropLast = some (node cs) →
      ∀ k, (f cs).lookup k = if k = dest.getLast hdest then some copy else cs.lookup k) (q : List κ) :
    (node (tree.alter f dest.dropLast)).view q =
      if dest <+: q then copy.view (q.drop dest.length) else (node tree).view q := by
  obtain ⟨inner, hinner⟩ := find_of_view_node hparent
  have hlast : dest.dropLast ++ [dest.getLast hdest] = dest := List.dropLast_append_getLast hdest
  have hlen : dest.dropLast.length + 1 = dest.length := by
    have hpos : 0 < dest.length := List.length_pos_of_ne_nil hdest
    rw [List.length_dropLast]
    omega
  have hview := view_alter hinner (hf inner hinner) q
  rwa [hlast, hlen, Option.bind_some] at hview

/-- To drop the last name of a path. -/
theorem view_drop (tree : Forest κ γ) (hsrc : src ≠ []) (q : List κ) :
    (node (tree.alter (fun cs => cs.discard (src.getLast hsrc)) src.dropLast)).view q =
      if src <+: q then none else (node tree).view q := by
  rw [view_alter_discard, List.dropLast_append_getLast hsrc]

theorem withParents_of_not_above {view : View κ γ} {parents p : List κ} (h : ¬ p <+: parents) :
    withParents view parents p = view p := by
  rw [withParents, if_neg]
  exact fun hmade => h hmade.2.1

/-- In a tree, when the copy is the subtree at `src`: the law is kept when `dest` is not at or below `src` and `src`,
where it lies below `dest`, has nothing in it that would end up at or below `src` again. -/
theorem moveLaw_tree_iff {after : View κ γ} (copy : View κ γ) (hsrc : (node root).view src ≠ none)
    (hcopy : ¬ src <+: dest → ∀ x, copy x = (node root).view (src ++ x))
    (hafter : ∀ p, after p = if src <+: p then none
      else if dest <+: p then copy (p.drop dest.length) else withParents (node root).view dest.dropLast p) :
    MoveLaw (node root).view after false src dest ↔
      ¬ src <+: dest ∧ ∀ r, r ≠ [] → src = dest ++ r → (node root).view (src ++ r) = none := by
  rw [moveLaw_iff copy hsrc hafter]
  constructor
  · rintro ⟨hnot, hmoved, -⟩
    refine ⟨hnot, ?_⟩
    intro r _ heq
    rw [← hmoved r, if_pos (heq ▸ List.prefix_refl src)]
  · rintro ⟨hnot, hnone⟩
    refine ⟨hnot, ?_, ?_⟩
    · intro x
      split
      · next hbelow =>
        -- src and dest are on one path, so src is the one further down
        obtain ⟨r, hr⟩ : dest <+: src := by
          rcases List.prefix_or_prefix_of_prefix hbelow (List.prefix_append dest x) with h | h
          · exact absurd h hnot
          · exact h
        have hne : r ≠ [] := by
          rintro rfl
          rw [List.append_nil] at hr
          exact hnot (hr ▸ List.prefix_refl dest)
        have hrx : r <+: x := by
          rw [← hr] at hbelow
          exact (List.prefix_append_right_inj dest).1 hbelow
        obtain ⟨y, rfl⟩ := hrx
        rw [← List.append_assoc, view_append_eq_none (hnone r hne hr.symm)]
      · exact hcopy hnot x
    · intro p _ hp _ _ _
      exact hp.trans (List.dropLast_prefix dest)

end Tree

end CliServer
