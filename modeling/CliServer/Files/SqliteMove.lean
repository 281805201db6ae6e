import CliServer.Files.SqliteRows

/-!
# The moves of the SQLite provider

`Touched` are the paths that a move has to do with.  Where `LIKE` finds among them only those below the source
(`LikeExact`), `Sqlite.moveLaw_iff` says when the provider keeps the move law.
-/

namespace CliServer

open NamedTree

namespace Sqlite

/-- The directories that are made for `dest`: its parent, normalised once more. -/
def parentsOf (dest : Path) : Path := sqlParts (key dest.dropLast)

/-- What a move has to do with: the rows of the table and those it makes. -/
def Touched (t : Table) (src dest : Path) (k : Str) : Prop :=
  t.kindAt k ≠ none ∨ k ∈ directoryKeys [] (parentsOf dest) ∨ k = key dest ∨
    ∃ y, t.kindAt (key src ++ '/' :: y) ≠ none ∧ k = key dest ++ '/' :: y

/-- Of these, the pattern of the source finds only what is below the source. -/
def LikeExact (L : Like) (t : Table) (src dest : Path) : Prop :=
  ∀ k, Touched t src dest k → L.finds (below (key src)) k = true → key src ++ ['/'] <+: k

theorem parentsOf_length {d : Path} (hd : d ≠ []) : (parentsOf d).length < d.length := by
  have hlen := (sqlParts_key d.dropLast).2
  have hpos : 0 < d.length := List.length_pos_of_ne_nil hd
  rw [List.length_dropLast] at hlen
  unfold parentsOf
  omega

theorem parentsOf_dropLast (d : Path) : (parentsOf d).dropLast <+: d :=
  (sqlParts_key d.dropLast).1.trans ((List.dropLast_prefix d.dropLast).trans (List.dropLast_prefix d))

section Rows

variable {L : Like} {t t₁ : Table} {s d : Path}

/-- No directory is made below `dest`. -/
private theorem kindAt_below_dest (hd : d ≠ []) (hmade : Made t t₁ (directoryKeys [] (parentsOf d))) {p : Path}
    (hp : d <+: p) :
    t₁.kindAt (key p) = t.kindAt (key p) := by
  rw [hmade.2, if_neg]
  rintro ⟨hmem, _⟩
  have hlen := (hp.trans (key_mem_directoryKeys.1 hmem).2).length_le
  have hshort := parentsOf_length hd
  omega

/-- What is below the source is what was there, unless `dest` is below it. -/
private theorem kindAt_below_src (srcRow : Row) (destParent : Option Str) (hs : s ≠ [])
    (hmade : Made t t₁ (directoryKeys [] (parentsOf d))) (hnot : ¬ s <+: d) (y : Str) :
    (t₁.replace (destRow (key d) destParent srcRow)).kindAt (key s ++ '/' :: y) = t.kindAt (key s ++ '/' :: y) := by
  have hbelow : ∀ p, key s ++ '/' :: y = key p → ∃ x, x ≠ [] ∧ p = s ++ x := by
    intro p hp
    refine (key_prefix_iff hs).1 ⟨y, ?_⟩
    rw [← hp]
    simp
  have hdest : key s ++ '/' :: y ≠ (destRow (key d) destParent srcRow).path := by
    intro h
    obtain ⟨x, _, hx⟩ := hbelow d h
    exact hnot ⟨x, hx.symm⟩
  rw [Table.kindAt_replace, if_neg hdest, hmade.2, if_neg]
  rintro ⟨hmem, _⟩
  obtain ⟨q, hq, hprefix, heq⟩ := mem_directoryKeys.1 hmem
  rw [List.nil_append, ← key_of_ne_nil hq] at heq
  obtain ⟨x, hx, rfl⟩ := hbelow q heq
  -- a directory made below the source has its parent on the way to `dest`
  have hsx : s <+: (s ++ x).dropLast := by
    rw [List.dropLast_append_of_ne_nil hx]
    exact List.prefix_append s x.dropLast
  have hlast : (s ++ x).dropLast <+: (parentsOf d).dropLast := by
    by_cases h : s ++ x = parentsOf d
    · rw [h]
    · exact (List.dropLast_prefix _).trans (prefix_dropLast_of_ne hprefix h)
  exact hnot (hsx.trans (hlast.trans (parentsOf_dropLast d)))

private theorem touched_of_replace (srcRow : Row) (destParent : Option Str)
    (hmade : Made t t₁ (directoryKeys [] (parentsOf d))) {k : Str}
    (h : (t₁.replace (destRow (key d) destParent srcRow)).kindAt k ≠ none) : Touched t s d k := by
  by_cases hk : k = key d
  · exact .inr (.inr (.inl hk))
  · have hne : k ≠ (destRow (key d) destParent srcRow).path := hk
    rw [Table.kindAt_replace, if_neg hne, hmade.2] at h
    by_cases hmem : k ∈ directoryKeys [] (parentsOf d)
    · exact .inr (.inl hmem)
    · rw [if_neg (fun hmade => hmem hmade.1)] at h
      exact .inl h

/-- The table when the rows are written and the source is still there. -/
private theorem kindAt_written (srcRow : Row) (destParent : Option Str) (hs : s ≠ [])
    (hmade : Made t t₁ (directoryKeys [] (parentsOf d)))
    (hnot : ¬ s <+: d) (hlike : LikeExact L t s d) :
    (∀ k, ¬ key d ++ ['/'] <+: k → (copyRows L t₁ (key s) (key d) destParent srcRow).kindAt k =
        if k = key d then some srcRow.kind else t₁.kindAt k) ∧
      ∀ y, (copyRows L t₁ (key s) (key d) destParent srcRow).kindAt (key d ++ '/' :: y) =
        if srcRow.type = .directory ∧ t.kindAt (key s ++ '/' :: y) ≠ none then t.kindAt (key s ++ '/' :: y)
        else t₁.kindAt (key d ++ '/' :: y) := by
  obtain ⟨hout, hin⟩ := kindAt_copyRows L t₁ (key s) (key d) destParent srcRow
    (fun k hk => hlike k (touched_of_replace srcRow destParent hmade hk))
  refine ⟨?_, ?_⟩
  · intro k hk
    rw [hout k hk, Table.kindAt_replace]
    rfl
  · intro y
    have hne : key d ++ '/' :: y ≠ (destRow (key d) destParent srcRow).path := by
      intro h
      have hlen := congrArg List.length h
      simp [destRow] at hlen
    rw [hin, kindAt_below_src srcRow destParent hs hmade hnot, Table.kindAt_replace _ _ (key d ++ '/' :: y), if_neg hne]

private theorem touched_of_written (srcRow : Row) (destParent : Option Str) (hs : s ≠ [])
    (hmade : Made t t₁ (directoryKeys [] (parentsOf d))) (hnot : ¬ s <+: d)
    (hlike : LikeExact L t s d) {k : Str} (h : (copyRows L t₁ (key s) (key d) destParent srcRow).kindAt k ≠ none) :
    Touched t s d k := by
  obtain ⟨hout, hin⟩ := kindAt_written srcRow destParent hs hmade hnot hlike
  have hreplace : ∀ k, k = key d ∨ t₁.kindAt k ≠ none → Touched t s d k := by
    intro k hk
    apply touched_of_replace srcRow destParent hmade
    rw [Table.kindAt_replace]
    split
    · exact Option.some_ne_none _
    · next hne => exact hk.resolve_left hne
  by_cases hk : key d ++ ['/'] <+: k
  · obtain ⟨y, rfl⟩ := hk
    rw [List.append_assoc, List.singleton_append] at h ⊢
    rw [hin] at h
    split at h
    · next hcopied => exact .inr (.inr (.inr ⟨y, hcopied.2, rfl⟩))
    · exact hreplace _ (.inr h)
  · rw [hout k hk] at h
    split at h
    · next hdest => exact hreplace k (.inl hdest)
    · exact hreplace k (.inr h)

/-- What the last statement of `move` leaves. -/
def removeOld (L : Like) (t : Table) (srcNorm : Str) : Table :=
  t.delete fun path => path = srcNorm || L.finds (below srcNorm) path

private theorem view_removeOld_src (L : Like) (t : Table) (hs : s ≠ []) {p : Path} (hp : s <+: p) :
    (removeOld L t (key s)).view p = none := by
  rw [Table.view, removeOld, Table.kindAt_delete, if_pos]
  obtain ⟨x, rfl⟩ := hp
  by_cases hx : x = []
  · simp [hx]
  · obtain ⟨y, hy⟩ := (key_prefix_iff hs).2 ⟨x, hx, rfl⟩
    have hself := L.finds_below (key s) y
    rw [← hy, List.append_assoc, List.singleton_append, hself, Bool.or_true]

private theorem view_removeOld_other {t₃ : Table} (hs : s ≠ []) (hlike : LikeExact L t s d)
    (htouched : ∀ k, t₃.kindAt k ≠ none → Touched t s d k) {p : Path} (hp : ¬ s <+: p) :
    (removeOld L t₃ (key s)).view p = t₃.view p := by
  rw [Table.view, removeOld, Table.kindAt_delete]
  split
  · next hmatch =>
    by_contra hsome
    have hne : key p ≠ key s := by
      intro h
      exact hp (key_injective h ▸ List.prefix_refl s)
    have hlikes : L.finds (below (key s)) (key p) = true := by simpa [hne] using hmatch
    obtain ⟨x, _, hx⟩ := (key_prefix_iff hs).1 (hlike (key p) (htouched (key p) (fun h => hsome h.symm)) hlikes)
    exact hp ⟨x, hx.symm⟩
  · rfl

/-- The directories made for `dest` are parents of it, but for the last one where white space was dropped. -/
private theorem parents_made_iff {view : FileView Str} (hd : d ≠ []) (hsome : view s ≠ none) (hnot : ¬ s <+: d) :
    (∀ p, p ≠ [] → p <+: parentsOf d → view p = none → ¬ s <+: p → ¬ d <+: p → p <+: d) ↔
      view (parentsOf d) ≠ none ∨ parentsOf d <+: d := by
  constructor
  · intro h
    by_cases hnil : parentsOf d = []
    · right
      rw [hnil]
      exact List.nil_prefix
    by_cases hnone : view (parentsOf d) = none
    · right
      refine h (parentsOf d) hnil (List.prefix_refl _) hnone ?_ ?_
      · intro hbelow
        by_cases heq : s = parentsOf d
        · rw [heq] at hsome
          exact hsome hnone
        · exact hnot ((prefix_dropLast_of_ne hbelow heq).trans (parentsOf_dropLast d))
      · intro hbelow
        have hlen := hbelow.length_le
        have hshort := parentsOf_length hd
        omega
    · exact .inl hnone
  · intro h p _ hprefix hnone _ _
    by_cases heq : p = parentsOf d
    · rw [heq] at hnone ⊢
      exact h.resolve_left (fun hne => hne hnone)
    · exact (prefix_dropLast_of_ne hprefix heq).trans (parentsOf_dropLast d)

/-- When a move that makes the parents of `dest` keeps the move law. -/
private theorem moveLaw_written_iff {srcRow : Row} (destParent : Option Str) (hs : s ≠ []) (hd : d ≠ [])
    (hsrc : t.select (key s) = some srcRow)
    (hmade : Made t t₁ (directoryKeys [] (parentsOf d))) (hlike : LikeExact L t s d) :
    MoveLaw t.view (removeOld L (copyRows L t₁ (key s) (key d) destParent srcRow) (key s)).view false s d ↔
      ¬ s <+: d ∧ (t.view (parentsOf d) ≠ none ∨ parentsOf d <+: d) ∧
        (∀ x, s <+: d ++ x → t.view (s ++ x) = none) ∧
        ∀ x, x ≠ [] → ¬ s <+: d ++ x →
          t.view (d ++ x) = t.view (s ++ x) ∨ (t.view s = some .node ∧ t.view (s ++ x) ≠ none) := by
  have hkind : t.view s = some srcRow.kind := by rw [Table.view, Table.kindAt, hsrc, Option.map_some]
  have hsome : t.view s ≠ none := by rw [hkind]; exact Option.some_ne_none _
  by_cases hnot : s <+: d
  · have hgone := view_removeOld_src L (copyRows L t₁ (key s) (key d) destParent srcRow) hs hnot
    exact iff_of_false (not_moveLaw_of_gone hsome hgone) (fun h => h.1 hnot)
  obtain ⟨hout, hin⟩ := kindAt_written srcRow destParent hs hmade hnot hlike
  have htouched : ∀ k, (copyRows L t₁ (key s) (key d) destParent srcRow).kindAt k ≠ none → Touched t s d k :=
    fun k => touched_of_written srcRow destParent hs hmade hnot hlike
  generalize copyRows L t₁ (key s) (key d) destParent srcRow = t₃ at hout hin htouched
  -- what is written at and below `dest`
  have hdest : t₃.view d = t.view s := by
    rw [Table.view, hout, if_pos rfl, hkind]
    intro h
    have hlen := h.length_le
    rw [List.length_append, List.length_singleton] at hlen
    omega
  have hcopy : ∀ x, x ≠ [] → t₃.view (d ++ x) =
      if t.view s = some .node ∧ t.view (s ++ x) ≠ none then t.view (s ++ x) else t.view (d ++ x) := by
    intro x hx
    obtain ⟨n, x, rfl⟩ := List.exists_cons_of_ne_nil hx
    have hkey : ∀ p : Path, p ≠ [] → key (p ++ n :: x) = key p ++ '/' :: (n.text ++ joined x) :=
      fun p hp => key_append hp (n :: x)
    have hbelow := kindAt_below_dest hd hmade (List.prefix_append d (n :: x))
    have htype : srcRow.type = .directory ↔ t.view s = some .node := by
      rw [hkind, Row.kind, Option.some_inj]
      cases srcRow.type <;> simp
    rw [hkey d hd] at hbelow
    simp only [Table.view, hkey d hd, hkey s hs, hin, hbelow] at htype ⊢
    simp only [htype]
  have hafter : ∀ p, (removeOld L t₃ (key s)).view p = if s <+: p then none
      else if d <+: p then (fun x => t₃.view (d ++ x)) (p.drop d.length) else withParents t.view (parentsOf d) p := by
    intro p
    by_cases hp : s <+: p
    · rw [if_pos hp, view_removeOld_src L t₃ hs hp]
    · rw [if_neg hp, view_removeOld_other hs hlike htouched hp]
      by_cases hdp : d <+: p
      · obtain ⟨x, rfl⟩ := hdp
        rw [if_pos (List.prefix_append d x), List.drop_left]
      · have hne : key p ≠ key d := by
          intro h
          exact hdp (key_injective h ▸ List.prefix_refl d)
        rw [if_neg hdp, ← hmade.view_eq, Table.view, hout, if_neg hne]
        · rfl
        · intro h
          obtain ⟨x, _, hx⟩ := (key_prefix_iff hd).1 h
          exact hdp ⟨x, hx.symm⟩
  rw [CliServer.moveLaw_iff (fun x => t₃.view (d ++ x)) hsome hafter, parents_made_iff hd hsome hnot]
  constructor
  · rintro ⟨_, hmoved, hparents⟩
    refine ⟨hnot, hparents, ?_, ?_⟩
    · intro x hx
      rw [← hmoved x, if_pos hx]
    · intro x hx hstays
      have heq := hmoved x
      rw [if_neg hstays, hcopy x hx] at heq
      split at heq
      · next hcopied => exact .inr hcopied
      · exact .inl heq
  · rintro ⟨_, hparents, hnone, hcovered⟩
    refine ⟨hnot, ?_, hparents⟩
    intro x
    split
    · next hx => exact (hnone x hx).symm
    · next hstays =>
      by_cases hx : x = []
      · rw [hx, List.append_nil, List.append_nil, hdest]
      · rw [hcopy x hx]
        split
        · rfl
        · next hcopied => exact (hcovered x hx hstays).resolve_right hcopied

end Rows

/-! ### The whole move -/

/-- A move that is refused before it inserts a directory: of the root or of nothing, to the root, or through a file
whose parents are all there. -/
def RefusedAtOnce (view : FileView Str) (src dest : Path) : Prop :=
  src = [] ∨ dest = [] ∨ view src = none ∨
    ∃ p content, p ≠ [] ∧ p <+: parentsOf dest ∧ view p = some (.leaf content) ∧ ∀ q, q ≠ [] → q <+: p → view q ≠ none

/-- `dest` is not at or below `src`, no other directory is made than parents of `dest`, nothing of the source would be
below the source again, and nothing below `dest` stays that is not replaced. -/
def MovesCleanly (view : FileView Str) (src dest : Path) : Prop :=
  ¬ Blocked view (parentsOf dest) ∧ ¬ src <+: dest ∧ (view (parentsOf dest) ≠ none ∨ parentsOf dest <+: dest) ∧
    (∀ x, src <+: dest ++ x → view (src ++ x) = none) ∧
    ∀ x, x ≠ [] → ¬ src <+: dest ++ x →
      view (dest ++ x) = view (src ++ x) ∨ (view src = some .node ∧ view (src ++ x) ≠ none)

/-- A move of a source whose path is too long for `LIKE` raises an error in the end: it has changed nothing when the
parents of `dest` were there and `dest` was what the source is.  For a file this needs a row that `LIKE` is asked
about. -/
def Unaltered (t : Table) (src dest : Path) : Prop :=
  (∀ q, q ≠ [] → q <+: parentsOf dest → t.view q ≠ none) ∧ t.view dest = t.view src ∧
    (t.view src = some .node ∨ ∃ row ∈ t.rows, row.path ≠ key src)

variable {L : Like} {t t' : Table} {s d : Path}

/-- What a move does when the parents of `dest` are made. -/
def moveRows (L : Like) (t : Table) (s d : Path) (srcRow : Row) : Table × Option FileError :=
  if srcRow.type = .directory ∧ L.refuses (below (key s)) = true then
    (t.replace (destRow (key d) (parentPath (key d)) srcRow), some .operational)
  else deleteTree L (copyRows L t (key s) (key d) (parentPath (key d)) srcRow) (key s)

/-- How a move ends: refused, with the parents of `dest` made up to a file in the way, or with the rows written. -/
theorem moveAt_cases (L : Like) (t : Table) (s d : Path) (src dest : Str) :
    ((s = [] ∨ d = [] ∨ t.view s = none) ∧ ∃ e, moveAt L t (key s) (key d) src dest = (t, some e)) ∨
      s ≠ [] ∧ d ≠ [] ∧ ∃ srcRow, t.select (key s) = some srcRow ∧
        ((∃ t', Made t t' (directoryKeys [] (parentsOf d)) ∧
            moveAt L t (key s) (key d) src dest = moveRows L t' s d srcRow) ∨
          ∃ t' e p n rest content, parentsOf d = p ++ n :: rest ∧ Made t t' (directoryKeys [] p) ∧
            t.kindAt (joined (p ++ [n])) = some (.leaf content) ∧
            moveAt L t (key s) (key d) src dest = (t', some e)) := by
  unfold moveAt copyAt
  by_cases hs : s = []
  · exact .inl ⟨.inl hs, _, by simp [hs, key]; rfl⟩
  by_cases hd : d = []
  · exact .inl ⟨.inr (.inl hd), _, by simp only [key_eq_slash_iff, if_neg hs, if_pos hd]; rfl⟩
  cases hsrc : t.select (key s) with
  | none =>
    have hnone : t.view s = none := by rw [Table.view, Table.kindAt, hsrc, Option.map_none]
    exact .inl ⟨.inr (.inr hnone), _, by simp only [key_eq_slash_iff, if_neg hs, if_neg hd]; rfl⟩
  | some srcRow =>
    refine .inr ⟨hs, hd, srcRow, rfl, ?_⟩
    simp only [key_eq_slash_iff, if_neg hs, if_neg hd, ensureParent_key t hd]
    rcases ensureParents_cases t (key d.dropLast) with
      ⟨t', hrun, hmade⟩ | ⟨t', e, p, n, rest, content, hparts, hrun, hmade, hleaf⟩
    · refine .inl ⟨t', hmade, ?_⟩
      rw [hrun, moveRows]
      by_cases hlong : srcRow.type = .directory ∧ L.refuses (below (key s)) = true
      · simp only [if_pos hlong]
      · simp only [if_neg hlong]
    · exact .inr ⟨t', e, p, n, rest, content, hparts, hmade, hleaf, by rw [hrun]⟩

/-- The directories that were made before a file stopped it are no change when they were there. -/
private theorem view_eq_iff_of_stopped {p rest : Path} {n : Name} {content : Str}
    (hparts : parentsOf d = p ++ n :: rest)
    (hmade : Made t t' (directoryKeys [] p)) (hleaf : t.kindAt (joined (p ++ [n])) = some (.leaf content)) :
    t'.view = t.view ↔ ∃ p content, p ≠ [] ∧ p <+: parentsOf d ∧ t.view p = some (.leaf content) ∧
      ∀ q, q ≠ [] → q <+: p → t.view q ≠ none := by
  have hfile : t.view (p ++ [n]) = some (.leaf content) := by
    rw [Table.view, key_of_ne_nil (by simp)]
    exact hleaf
  have hbefore : p ++ [n] <+: parentsOf d := ⟨rest, by rw [hparts]; simp⟩
  rw [hmade.view_eq]
  constructor
  · intro h
    refine ⟨p ++ [n], content, by simp, hbefore, hfile, ?_⟩
    intro q hq hprefix
    by_cases heq : q = p ++ [n]
    · rw [heq, hfile]
      exact Option.some_ne_none _
    · have hqp : q <+: p := by
        have hlast := prefix_dropLast_of_ne hprefix heq
        rwa [List.dropLast_concat] at hlast
      intro hnone
      have hsame := congrFun h q
      rw [withParents, if_pos ⟨hq, hqp, hnone⟩, hnone] at hsame
      cases hsame
  · rintro ⟨p', content', hp', hprefix, hleaf', habove⟩
    funext q
    rw [withParents, if_neg]
    rintro ⟨hq, hqp, hnone⟩
    -- the file is not above the one that stopped it
    have hpp : p <+: p' := by
      rcases List.prefix_or_prefix_of_prefix hprefix ((List.prefix_append p [n]).trans hbefore) with h | h
      · exact absurd ⟨p', content', hp', h, hleaf'⟩ hmade.not_blocked
      · exact h
    exact habove q hq (hqp.trans hpp) hnone

private theorem refusedAtOnce_iff (hs : s ≠ []) (hd : d ≠ []) (hsome : t.view s ≠ none) : RefusedAtOnce t.view s d ↔
    ∃ p content, p ≠ [] ∧ p <+: parentsOf d ∧ t.view p = some (.leaf content) ∧
      ∀ q, q ≠ [] → q <+: p → t.view q ≠ none := by
  rw [RefusedAtOnce, or_iff_right hs, or_iff_right hd, or_iff_right hsome]

private theorem not_refusedAtOnce_of_made (hs : s ≠ []) (hd : d ≠ []) (hsome : t.view s ≠ none)
    (hmade : Made t t' (directoryKeys [] (parentsOf d))) : ¬ RefusedAtOnce t.view s d := by
  rw [refusedAtOnce_iff hs hd hsome]
  rintro ⟨p, content, hp, hprefix, hfile, _⟩
  exact hmade.not_blocked ⟨p, content, hp, hprefix, hfile⟩

/-- A move that ends before it writes the rows keeps the move law when it was refused at once. -/
private theorem moveLaw_cases (L : Like) (t : Table) (s d : Path) (src dest : Str) :
    (MoveLaw t.view (moveAt L t (key s) (key d) src dest).1.view (moveAt L t (key s) (key d) src dest).2.isSome s d ↔
        RefusedAtOnce t.view s d) ∧ (RefusedAtOnce t.view s d ∨ Blocked t.view (parentsOf d)) ∨
    ∃ (_ : s ≠ []) (_ : d ≠ []) (srcRow : Row) (t' : Table),
      t.select (key s) = some srcRow ∧ Made t t' (directoryKeys [] (parentsOf d)) ∧ ¬ RefusedAtOnce t.view s d ∧
        moveAt L t (key s) (key d) src dest = moveRows L t' s d srcRow := by
  rcases moveAt_cases L t s d src dest with ⟨hrefused, e, hmove⟩ | ⟨hs, hd, srcRow, hsrc, hend⟩
  · have hatOnce : RefusedAtOnce t.view s d := by
      rcases hrefused with h | h | h
      · exact .inl h
      · exact .inr (.inl h)
      · exact .inr (.inr (.inl h))
    refine .inl ⟨?_, .inl hatOnce⟩
    rw [hmove]
    exact iff_of_true MoveLaw.of_unchanged hatOnce
  have hsome : t.view s ≠ none := by
    rw [Table.view, Table.kindAt, hsrc]
    exact Option.some_ne_none _
  rcases hend with ⟨t', hmade, hmove⟩ | ⟨t', e, p, n, rest, content, hparts, hmade, hleaf, hmove⟩
  · exact .inr ⟨hs, hd, srcRow, t', hsrc, hmade, not_refusedAtOnce_of_made hs hd hsome hmade, hmove⟩
  · refine .inl ⟨?_, .inr ?_⟩
    · rw [hmove, Option.isSome_some, moveLaw_raised_iff, view_eq_iff_of_stopped hparts hmade hleaf,
        refusedAtOnce_iff hs hd hsome]
    · refine ⟨p ++ [n], content, by simp, ⟨rest, by rw [hparts]; simp⟩, ?_⟩
      rw [Table.view, key_of_ne_nil (by simp)]
      exact hleaf

/-- A move that is refused at once keeps the move law. -/
theorem moveLaw_of_refusedAtOnce (L : Like) (src dest : Str) (h : RefusedAtOnce t.view s d) :
    MoveLaw t.view (moveAt L t (key s) (key d) src dest).1.view (moveAt L t (key s) (key d) src dest).2.isSome s d := by
  rcases moveLaw_cases L t s d src dest with ⟨hlaw, -⟩ | ⟨-, -, -, -, -, -, hrefused, -⟩
  · exact hlaw.2 h
  · exact absurd h hrefused

private theorem moveRows_of_short (hshort : L.refuses (below (key s)) = false) (srcRow : Row) :
    moveRows L t s d srcRow =
      (removeOld L (copyRows L t (key s) (key d) (parentPath (key d)) srcRow) (key s), none) := by
  simp [moveRows, deleteTree, hshort, removeOld]

/-- When the SQLite provider keeps the move law, where `LIKE` finds only what is below the source. -/
theorem moveLaw_iff (src dest : Str) (hshort : L.refuses (below (key s)) = false) (hlike : LikeExact L t s d) :
    MoveLaw t.view (moveAt L t (key s) (key d) src dest).1.view (moveAt L t (key s) (key d) src dest).2.isSome s d ↔
      RefusedAtOnce t.view s d ∨ MovesCleanly t.view s d := by
  rcases moveLaw_cases L t s d src dest with ⟨hlaw, hstopped⟩ | ⟨hs, hd, srcRow, t', hsrc, hmade, hrefused, hmove⟩
  · rw [hlaw]
    constructor
    · exact .inl
    · rintro (h | h)
      · exact h
      · exact hstopped.resolve_right h.1
  · rw [hmove, moveRows_of_short hshort, or_iff_right hrefused, MovesCleanly, and_iff_right hmade.not_blocked]
    exact moveLaw_written_iff _ hs hd hsrc hmade hlike

/-- `LIKE` also finds a path outside of the source at which something has to be after the move. -/
def LikeLoses (L : Like) (t : Table) (src dest : Path) : Prop :=
  ∃ p, ¬ src <+: p ∧ L.finds (below (key src)) (key p) = true ∧
    ((¬ dest <+: p ∧ t.view p ≠ none) ∨ ∃ x, p = dest ++ x ∧ t.view (src ++ x) ≠ none)

/-- Then the move law is kept by a refused move only. -/
theorem moveLaw_iff_of_likeLoses (src dest : Str) (hshort : L.refuses (below (key s)) = false)
    (hlike : LikeLoses L t s d) :
    MoveLaw t.view (moveAt L t (key s) (key d) src dest).1.view (moveAt L t (key s) (key d) src dest).2.isSome s d ↔
      RefusedAtOnce t.view s d := by
  rcases moveLaw_cases L t s d src dest with ⟨hlaw, _⟩ | ⟨hs, hd, srcRow, t', hsrc, hmade, hrefused, hmove⟩
  · exact hlaw
  · refine iff_of_false ?_ hrefused
    rw [hmove, moveRows_of_short hshort]
    intro hlaw
    obtain ⟨p, hp, hmatch, hneeded⟩ := hlike
    have hlost : (removeOld L (copyRows L t' (key s) (key d) (parentPath (key d)) srcRow) (key s)).view p = none := by
      rw [Table.view, removeOld, Table.kindAt_delete, if_pos]
      simp [hmatch]
    rcases hneeded with ⟨hother, hthere⟩ | ⟨x, rfl, hthere⟩
    · by_cases heq : s = d
      · rw [hlaw.same rfl heq] at hlost
        exact hthere hlost
      · rcases hlaw.frame rfl heq p hp hother with h | ⟨h, _⟩
        · rw [hlost] at h
          exact hthere h.symm
        · exact hthere h
    · have hne : s ≠ d := by
        intro heq
        exact hp (heq ▸ List.prefix_append _ x)
      rw [hlaw.moved rfl hne x] at hlost
      exact hthere hlost

/-! ### A source whose path is too long -/

/-- The row at `dest` is no change when its parents were there and it was what the source is. -/
private theorem view_replace_eq_iff {srcRow : Row} (destParent : Option Str) (hd : d ≠ [])
    (hmade : Made t t' (directoryKeys [] (parentsOf d))) (hkind : t.view s = some srcRow.kind) :
    (t'.replace (destRow (key d) destParent srcRow)).view = t.view ↔
      (∀ q, q ≠ [] → q <+: parentsOf d → t.view q ≠ none) ∧ t.view d = t.view s := by
  have hview : ∀ q, (t'.replace (destRow (key d) destParent srcRow)).view q =
      if q = d then t.view s else withParents t.view (parentsOf d) q := by
    intro q
    have hkey : key q = (destRow (key d) destParent srcRow).path ↔ q = d := key_injective.eq_iff
    rw [Table.view, Table.kindAt_replace, hkind, ← hmade.view_eq]
    simp only [hkey]
    rfl
  constructor
  · intro h
    refine ⟨fun q hq hprefix hnone => ?_, ?_⟩
    · have hsame := congrFun h q
      have hne : q ≠ d := by
        rintro rfl
        have hlen := hprefix.length_le
        have hshort := parentsOf_length hd
        omega
      rw [hview, if_neg hne, withParents, if_pos ⟨hq, hprefix, hnone⟩, hnone] at hsame
      cases hsame
    · rw [← congrFun h d, hview, if_pos rfl]
  · rintro ⟨hparents, hsame⟩
    funext q
    rw [hview]
    split
    · next hq => rw [hq, hsame]
    · rw [withParents, if_neg]
      exact fun hmade => hparents q hmade.1 hmade.2.1 hmade.2.2

theorem exists_other_row_iff {k : Str} : (∃ row ∈ t.rows, row.path ≠ k) ↔ ∃ k', k' ≠ k ∧ t.kindAt k' ≠ none := by
  constructor
  · rintro ⟨row, hmem, hne⟩
    exact ⟨row.path, hne, by rw [Table.kindAt_of_mem_rows hmem]; exact Option.some_ne_none _⟩
  · rintro ⟨k', hne, hthere⟩
    obtain ⟨kind, hkind⟩ := Option.ne_none_iff_exists'.1 hthere
    obtain ⟨row, hrow, -⟩ := Option.map_eq_some_iff.1 hkind
    obtain ⟨hmem, hpath⟩ := Table.mem_rows_of_select hrow
    exact ⟨row, hmem, hpath.symm ▸ hne⟩

/-- When a move of a source whose path is too long for `LIKE` keeps the move law. -/
theorem moveLaw_iff_of_long (src dest : Str) (hlong : L.refuses (below (key s)) = true) :
    MoveLaw t.view (moveAt L t (key s) (key d) src dest).1.view (moveAt L t (key s) (key d) src dest).2.isSome s d ↔
      RefusedAtOnce t.view s d ∨ Unaltered t s d := by
  rcases moveLaw_cases L t s d src dest with ⟨hlaw, hstopped⟩ | ⟨hs, hd, srcRow, t', hsrc, hmade, hrefused, hmove⟩
  · rw [hlaw]
    constructor
    · exact .inl
    · rintro (h | h)
      · exact h
      · rcases hstopped with hrefused | ⟨p, content, hp, hprefix, hfile⟩
        · exact hrefused
        · exact .inr (.inr (.inr ⟨p, content, hp, hprefix, hfile, fun q hq hqp => h.1 q hq (hqp.trans hprefix)⟩))
  · have hkind : t.view s = some srcRow.kind := by rw [Table.view, Table.kindAt, hsrc, Option.map_some]
    have hsame := view_replace_eq_iff (parentPath (key d)) hd hmade hkind
    rw [hmove, moveRows, or_iff_right hrefused, Unaltered]
    cases htype : srcRow.type with
    | directory =>
      have hnode : t.view s = some .node := by rw [hkind, Row.kind, htype]
      rw [if_pos ⟨rfl, hlong⟩, Option.isSome_some, moveLaw_raised_iff, hsame, hnode]
      simp
    | file =>
      have hfile : t.view s ≠ some .node := by
        rw [hkind, Row.kind, htype]
        simp
      have hrows : copyRows L t' (key s) (key d) (parentPath (key d)) srcRow =
          t'.replace (destRow (key d) (parentPath (key d)) srcRow) := by simp [copyRows, htype]
      have hreplace : ∀ k, (t'.replace (destRow (key d) (parentPath (key d)) srcRow)).kindAt k ≠ none ↔
          k = key d ∨ t'.kindAt k ≠ none := by
        intro k
        have hdest : (destRow (key d) (parentPath (key d)) srcRow).path = key d := rfl
        rw [Table.kindAt_replace, hdest]
        by_cases hk : k = key d <;> simp [hk]
      rw [if_neg (by simp), deleteTree, hrows]
      simp only [hlong, true_and]
      split
      · next hother =>
        -- the error of the last statement, which was asked about another row
        rw [Option.isSome_some, moveLaw_raised_iff, hsame]
        refine ⟨fun h => ⟨h.1, h.2, .inr ?_⟩, fun h => ⟨h.1, h.2.1⟩⟩
        obtain ⟨k, hk, hthere⟩ := exists_other_row_iff.1 hother
        refine exists_other_row_iff.2 ⟨k, hk, ?_⟩
        rcases (hreplace k).1 hthere with rfl | hmadeThere
        · show t.view d ≠ none
          rw [h.2, hkind]
          exact Option.some_ne_none _
        · rw [hmade.2] at hmadeThere
          split at hmadeThere
          · next hnew =>
            obtain ⟨q, hq, hprefix, rfl⟩ := mem_directoryKeys.1 hnew.1
            rw [List.nil_append, ← key_of_ne_nil hq] at hnew
            exact absurd hnew.2 (h.1 q hq hprefix)
          · exact hmadeThere
      · next hother =>
        refine iff_of_false (not_moveLaw_of_gone (by rw [hkind]; exact Option.some_ne_none _) ?_) ?_
        · have hdest : key d = key s := by
            by_contra hne
            exact hother (exists_other_row_iff.2 ⟨key d, hne, (hreplace _).2 (.inl rfl)⟩)
          rw [Table.view, Table.kindAt_delete, if_pos (by simp [hdest])]
        · rintro ⟨-, -, h | h⟩
          · exact hfile h
          · obtain ⟨k, hk, hthere⟩ := exists_other_row_iff.1 h
            refine hother (exists_other_row_iff.2 ⟨k, hk, (hreplace k).2 (.inr ?_)⟩)
            rw [hmade.2]
            split
            · exact Option.some_ne_none _
            · exact hthere

end Sqlite

/-- A table with two directories whose names `LIKE` confuses: `/a_b`, which is empty, and `/axb`, with a file `c`. -/
def similarNames : Table where
  rows :=
    [Sqlite.directoryRow "/".toList [], Sqlite.directoryRow "/a_b".toList "a_b".toList,
      Sqlite.directoryRow "/axb".toList "axb".toList,
      { path := "/axb/c".toList, name := "c".toList, type := .file, content := some "text".toList, size := 4,
        permissions := some "-rw-r--r--".toList, parentPath := some "/axb".toList }]
  unique := by decide

theorem similarNames_paths {k : Str} (h : similarNames.kindAt k ≠ none) :
    k = "/".toList ∨ k = "/a_b".toList ∨ k = "/axb".toList ∨ k = "/axb/c".toList := by
  by_contra hk
  push Not at hk
  obtain ⟨h₁, h₂, h₃, h₄⟩ := hk
  apply h
  rw [Table.kindAt, Table.select, List.find?_eq_none.2]
  · rfl
  · intro row hrow
    simp only [similarNames, List.mem_cons, List.not_mem_nil, or_false] at hrow
    rcases hrow with rfl | rfl | rfl | rfl <;> simp_all [Sqlite.directoryRow, eq_comm]

end CliServer
