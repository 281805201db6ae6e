import CliServer.Files.Sqlite

/-!
# The rows that the SQLite provider writes

`_ensure_parents` inserts the missing directories one by one, and what was inserted stays when a file in the way stops
it (`makeParents_cases`).  `copy` then writes a row at `dest` and one for each row it takes to be below the source
(`kindAt_copyRows`).
-/

namespace CliServer

open NamedTree

namespace Sqlite

variable {t t₁ t' : Table} {k : Str} {keys : List Str}

/-! ### Making parents -/

/-- The directories of `keys` are there, and none of them was a file. -/
def Made (t t' : Table) (keys : List Str) : Prop :=
  (∀ a ∈ keys, ∀ content, t.kindAt a ≠ some (.leaf content)) ∧
    ∀ k, t'.kindAt k = if k ∈ keys ∧ t.kindAt k = none then some .node else t.kindAt k

/-- The keys of the directories of `parts`, below `current`. -/
def directoryKeys (current : Path) : Path → List Str
  | [] => []
  | part :: parts => joined (current ++ [part]) :: directoryKeys (current ++ [part]) parts

theorem mem_directoryKeys {current parts : Path} :
    k ∈ directoryKeys current parts ↔ ∃ q, q ≠ [] ∧ q <+: parts ∧ k = joined (current ++ q) := by
  induction parts generalizing current with
  | nil =>
    constructor
    · intro h
      cases h
    · rintro ⟨q, hq, hprefix, _⟩
      exact absurd (List.prefix_nil.1 hprefix) hq
  | cons part parts ih =>
    rw [directoryKeys, List.mem_cons, ih]
    constructor
    · rintro (rfl | ⟨q, _, hprefix, rfl⟩)
      · exact ⟨[part], by simp, List.prefix_append [part] parts, rfl⟩
      · exact ⟨part :: q, by simp, List.cons_prefix_cons.2 ⟨rfl, hprefix⟩, by simp⟩
    · rintro ⟨q, hq, hprefix, rfl⟩
      obtain ⟨n, q, rfl⟩ := List.exists_cons_of_ne_nil hq
      obtain ⟨rfl, htail⟩ := List.cons_prefix_cons.1 hprefix
      by_cases hnil : q = []
      · left
        rw [hnil]
      · exact .inr ⟨q, hnil, htail, by simp⟩

private theorem made_nil (t : Table) : Made t t [] := by
  refine ⟨?_, ?_⟩
  · intro a ha
    cases ha
  · intro k
    simp

private theorem Made.cons_of_directory {c : Str} (hc : t.kindAt c = some .node) (h : Made t t' keys) :
    Made t t' (c :: keys) := by
  refine ⟨?_, ?_⟩
  · intro a ha content
    rcases List.mem_cons.1 ha with rfl | ha
    · rw [hc]
      exact fun heq => nomatch heq
    · exact h.1 a ha content
  · intro k
    rw [h.2 k]
    by_cases hk : k = c
    · simp [hk, hc]
    · simp [hk]

private theorem Made.cons_of_new {c : Str} (hc : t.kindAt c = none)
    (hnew : ∀ k, t₁.kindAt k = if k = c then some .node else t.kindAt k) (h : Made t₁ t' keys) :
    Made t t' (c :: keys) := by
  refine ⟨?_, ?_⟩
  · intro a ha content
    by_cases hac : a = c
    · rw [hac, hc]
      exact fun heq => nomatch heq
    · have hleaf := h.1 a ((List.mem_cons.1 ha).resolve_left hac) content
      rwa [hnew, if_neg hac] at hleaf
  · intro k
    rw [h.2 k, hnew]
    by_cases hk : k = c
    · simp [hk, hc]
    · simp [hk]

/-! The next directory is there, or is made. -/

theorem makeParents_of_select {current part : Str} {existing : Row}
    (hselect : t.select (current ++ '/' :: part) = some existing) (parts : List Str) :
    makeParents t current (part :: parts) =
      if existing.type ≠ .directory then (t, some (.notADirectory (current ++ '/' :: part)))
      else makeParents t (current ++ '/' :: part) parts := by
  rw [makeParents]
  split
  · next other hother =>
    rw [hselect] at hother
    cases hother
    rfl
  · next hnone =>
    rw [hselect] at hnone
    cases hnone

theorem makeParents_of_missing {current part : Str} (hselect : t.select (current ++ '/' :: part) = none)
    (parts : List Str) :
    makeParents t current (part :: parts) =
      makeParents (t.insert (directoryRow (current ++ '/' :: part) part) (Table.path_notMem_of_select hselect))
        (current ++ '/' :: part) parts := by
  rw [makeParents]
  split
  · next other hother =>
    rw [hselect] at hother
    cases hother
  · rfl

/-- The loop makes the missing directories, up to a file in the way. -/
theorem makeParents_cases (t : Table) (current parts : Path) :
    (∃ t', makeParents t (joined current) (parts.map Name.text) = (t', none) ∧
        Made t t' (directoryKeys current parts)) ∨
      ∃ t' p n rest content, parts = p ++ n :: rest ∧
        makeParents t (joined current) (parts.map Name.text) =
          (t', some (.notADirectory (joined (current ++ (p ++ [n]))))) ∧
        Made t t' (directoryKeys current p) ∧ t.kindAt (joined (current ++ (p ++ [n]))) = some (.leaf content) := by
  induction parts generalizing t current with
  | nil => exact .inl ⟨t, rfl, made_nil t⟩
  | cons part parts ih =>
    have hcurrent : joined (current ++ [part]) = joined current ++ '/' :: part.text := joined_concat current part
    have hbelow : ∀ q, joined (current ++ (part :: q)) = joined (current ++ [part] ++ q) := by simp
    simp only [List.map_cons, makeParents]
    split
    · next existing hselect =>
      have hkind : t.kindAt (joined (current ++ [part])) = some existing.kind := by
        rw [hcurrent, Table.kindAt, hselect, Option.map_some]
      by_cases htype : existing.type = .directory
      · have hnode : t.kindAt (joined (current ++ [part])) = some .node := by
          rw [hkind, Row.kind, htype]
        rw [if_neg (by simpa using htype), ← hcurrent]
        rcases ih t (current ++ [part]) with ⟨t', hrun, hmade⟩ | ⟨t', p, n, rest, content, rfl, hrun, hmade, hleaf⟩
        · exact .inl ⟨t', hrun, hmade.cons_of_directory hnode⟩
        · refine .inr ⟨t', part :: p, n, rest, content, rfl, ?_, hmade.cons_of_directory hnode, ?_⟩
          · rw [hrun, List.cons_append, hbelow]
          · rw [List.cons_append, hbelow]
            exact hleaf
      · rw [if_pos htype]
        refine .inr ⟨t, [], part, parts, existing.content.getD [], rfl, ?_, made_nil t, ?_⟩
        · rw [List.nil_append, hcurrent]
        · rw [List.nil_append, hkind, Row.kind]
          cases hcase : existing.type with
          | file => rfl
          | directory => exact absurd hcase htype
    · next hselect =>
      have hnone : t.kindAt (joined (current ++ [part])) = none := by
        rw [hcurrent, Table.kindAt, hselect, Option.map_none]
      have hnew : ∀ k, (t.insert (directoryRow (joined current ++ '/' :: part.text) part.text)
          (Table.path_notMem_of_select hselect)).kindAt k =
            if k = joined (current ++ [part]) then some .node else t.kindAt k := by
        intro k
        rw [hcurrent]
        exact Table.kindAt_insert _ k
      generalize t.insert (directoryRow (joined current ++ '/' :: part.text) part.text)
        (Table.path_notMem_of_select hselect) = t₁ at hnew
      rw [← hcurrent]
      rcases ih t₁ (current ++ [part]) with ⟨t', hrun, hmade⟩ | ⟨t', p, n, rest, content, rfl, hrun, hmade, hleaf⟩
      · exact .inl ⟨t', hrun, hmade.cons_of_new hnone hnew⟩
      · refine .inr ⟨t', part :: p, n, rest, content, rfl, ?_, hmade.cons_of_new hnone hnew, ?_⟩
        · rw [hrun, List.cons_append, hbelow]
        · rw [List.cons_append, hbelow]
          rw [hnew] at hleaf
          split at hleaf
          · cases hleaf
          · exact hleaf

/-- `_ensure_parents` makes the missing directories of the path it normalises to, up to a file in the way. -/
theorem ensureParents_cases (t : Table) (path : Str) :
    (∃ t', ensureParents t path = (t', none) ∧ Made t t' (directoryKeys [] (sqlParts path))) ∨
      ∃ t' e p n rest content, sqlParts path = p ++ n :: rest ∧ ensureParents t path = (t', some e) ∧
        Made t t' (directoryKeys [] p) ∧ t.kindAt (joined (p ++ [n])) = some (.leaf content) := by
  by_cases hnil : sqlParts path = []
  · refine .inl ⟨t, ?_, ?_⟩
    · simp [ensureParents, normalizeSql, hnil, key]
    · rw [hnil]
      exact made_nil t
  · have hrun : ensureParents t path = makeParents t (joined []) ((sqlParts path).map Name.text) := by
      rw [ensureParents]
      simp only [normalizeSql, key_eq_slash_iff, if_neg hnil, split_key hnil, joined_nil]
    rw [hrun]
    rcases makeParents_cases t [] (sqlParts path) with
      ⟨t', hmake, hmade⟩ | ⟨t', p, n, rest, content, hparts, hmake, hmade, hleaf⟩
    · exact .inl ⟨t', hmake, hmade⟩
    · exact .inr ⟨t', _, p, n, rest, content, hparts, hmake, hmade, hleaf⟩

/-- What `write_file` and `copy` do for the parent of a place. -/
theorem ensureParent_key (t : Table) {d : Path} (hd : d ≠ []) :
    ensureParent t (parentPath (key d)) = ensureParents t (key d.dropLast) := by
  rw [parentPath_key hd, ensureParent]
  split
  · next h =>
    have hroot : d.dropLast = [] := key_eq_slash_iff.1 (h.resolve_left (key_ne_nil _))
    have hparts : sqlParts (key []) = [] := List.length_eq_zero_iff.1 (Nat.le_zero.1 (sqlParts_key []).2)
    rw [hroot, ensureParents, normalizeSql, hparts]
    rfl
  · rfl

theorem key_mem_directoryKeys {p e : Path} : key p ∈ directoryKeys [] e ↔ p ≠ [] ∧ p <+: e := by
  rw [mem_directoryKeys]
  constructor
  · rintro ⟨q, hq, hprefix, heq⟩
    rw [List.nil_append, ← key_of_ne_nil hq] at heq
    rw [key_injective heq]
    exact ⟨hq, hprefix⟩
  · rintro ⟨hp, hprefix⟩
    exact ⟨p, hp, hprefix, by rw [List.nil_append, key_of_ne_nil hp]⟩

theorem Made.view_eq {e : Path} (h : Made t t' (directoryKeys [] e)) : t'.view = withParents t.view e := by
  funext p
  rw [Table.view, h.2, withParents]
  simp only [key_mem_directoryKeys, and_assoc]
  rfl

theorem Made.not_blocked {e : Path} (h : Made t t' (directoryKeys [] e)) : ¬ Blocked t.view e := by
  rintro ⟨q, content, hq, hprefix, hleaf⟩
  exact h.1 (key q) (key_mem_directoryKeys.2 ⟨hq, hprefix⟩) content hleaf

/-! ### Copying -/

private theorem kindAt_foldl_replace (f : Row → Row) {l : List Row} (hl : (l.map fun row => (f row).path).Nodup)
    (t : Table) :
    (∀ row ∈ l, (l.foldl (fun t row => t.replace (f row)) t).kindAt (f row).path = some (f row).kind) ∧
      ∀ k, (∀ row ∈ l, (f row).path ≠ k) → (l.foldl (fun t row => t.replace (f row)) t).kindAt k = t.kindAt k := by
  induction l generalizing t with
  | nil => exact ⟨fun _ h => (nomatch h), fun _ _ => rfl⟩
  | cons a l ih =>
    rw [List.map_cons, List.nodup_cons] at hl
    obtain ⟨hin, hout⟩ := ih hl.2 (t.replace (f a))
    refine ⟨?_, ?_⟩
    · intro row hrow
      rcases List.mem_cons.1 hrow with rfl | hrow
      · rw [List.foldl_cons, hout, Table.kindAt_replace, if_pos rfl]
        intro b hb heq
        exact hl.1 (List.mem_map.2 ⟨b, hb, heq⟩)
      · exact hin row hrow
    · intro k hk
      rw [List.foldl_cons, hout k fun row hrow => hk row (List.mem_cons_of_mem a hrow), Table.kindAt_replace,
        if_neg fun h => hk a List.mem_cons_self h.symm]

/-- Where `LIKE` finds what is below the source and nothing else, what is below `dest` afterwards is what was below the
source, or what was there. -/
theorem kindAt_copyRows (L : Like) (t : Table) (srcNorm destNorm : Str) (destParent : Option Str) (srcRow : Row)
    (hlike : ∀ k, (t.replace (destRow destNorm destParent srcRow)).kindAt k ≠ none →
      L.finds (below srcNorm) k = true → srcNorm ++ ['/'] <+: k) :
    (∀ k, ¬ destNorm ++ ['/'] <+: k → (copyRows L t srcNorm destNorm destParent srcRow).kindAt k =
        (t.replace (destRow destNorm destParent srcRow)).kindAt k) ∧
      ∀ y, (copyRows L t srcNorm destNorm destParent srcRow).kindAt (destNorm ++ '/' :: y) =
        if srcRow.type = .directory ∧
        (t.replace (destRow destNorm destParent srcRow)).kindAt (srcNorm ++ '/' :: y) ≠ none
        then (t.replace (destRow destNorm destParent srcRow)).kindAt (srcNorm ++ '/' :: y)
        else (t.replace (destRow destNorm destParent srcRow)).kindAt (destNorm ++ '/' :: y) := by
  unfold copyRows
  generalize t.replace (destRow destNorm destParent srcRow) = t₂ at hlike
  by_cases hdir : srcRow.type = .directory
  · simp only [hdir, if_true, true_and]
    have hpath : ∀ row ∈ t₂.rows.filter (fun row => L.finds (below srcNorm) row.path),
        ∃ y, row.path = srcNorm ++ '/' :: y ∧ (descendantRow srcNorm destNorm row).path = destNorm ++ '/' :: y := by
      intro row hrow
      obtain ⟨hmem, hmatch⟩ := List.mem_filter.1 hrow
      obtain ⟨y, hy⟩ := hlike row.path (by rw [Table.kindAt_of_mem_rows hmem]; exact Option.some_ne_none _) hmatch
      refine ⟨y, by rw [← hy]; simp, ?_⟩
      rw [descendantRow, ← hy]
      simp
    have hnodup : ((t₂.rows.filter (fun row => L.finds (below srcNorm) row.path)).map
        fun row => (descendantRow srcNorm destNorm row).path).Nodup := by
      refine List.Nodup.map_on ?_ (t₂.unique.of_map.filter _)
      intro a ha b hb heq
      obtain ⟨y, hay, hy⟩ := hpath a ha
      obtain ⟨z, hbz, hz⟩ := hpath b hb
      rw [hy, hz, List.append_cancel_left_eq] at heq
      have hsame : a.path = b.path := by rw [hay, hbz, heq]
      exact List.inj_on_of_nodup_map t₂.unique (List.mem_filter.1 ha).1 (List.mem_filter.1 hb).1 hsame
    obtain ⟨hin, hout⟩ := kindAt_foldl_replace (descendantRow srcNorm destNorm) hnodup t₂
    refine ⟨?_, ?_⟩
    · intro k hk
      refine hout k ?_
      intro row hrow heq
      obtain ⟨y, _, hy⟩ := hpath row hrow
      refine hk ⟨y, ?_⟩
      rw [← heq, hy]
      simp
    · intro y
      cases hbelow : t₂.select (srcNorm ++ '/' :: y) with
      | some row =>
        obtain ⟨hmem, hrow⟩ := Table.mem_rows_of_select hbelow
        have hkind : t₂.kindAt (srcNorm ++ '/' :: y) = some row.kind := by
          rw [← hrow]
          exact Table.kindAt_of_mem_rows hmem
        have hfound : row ∈ t₂.rows.filter (fun row => L.finds (below srcNorm) row.path) := by
          refine List.mem_filter.2 ⟨hmem, ?_⟩
          rw [hrow]
          exact L.finds_below srcNorm y
        obtain ⟨z, hz, hnew⟩ := hpath row hfound
        have hyz : '/' :: y = '/' :: z := List.append_cancel_left (hrow.symm.trans hz)
        rw [if_pos (by rw [hkind]; exact Option.some_ne_none _), hkind, hyz, ← hnew]
        exact hin row hfound
      | none =>
        have hkind : t₂.kindAt (srcNorm ++ '/' :: y) = none := by rw [Table.kindAt, hbelow, Option.map_none]
        rw [if_neg (by rw [hkind]; exact fun h => h rfl)]
        refine hout _ ?_
        intro row hrow heq
        obtain ⟨z, hz, hnew⟩ := hpath row hrow
        have hyz : '/' :: z = '/' :: y := List.append_cancel_left (hnew.symm.trans heq)
        rw [← hyz, ← hz, Table.kindAt_of_mem_rows (List.mem_filter.1 hrow).1] at hkind
        cases hkind
  · simp [hdir]

end Sqlite

end CliServer
