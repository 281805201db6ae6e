import CliServer.Files.Like
import CliServer.Files.Moves

/-!
# The SQLite file provider

One table holds a row for each file and directory, with its path as the key.  `Table.kindAt` says what stands at a key,
and what each statement of the provider does is said of it.  `copy` and `move` find the rows below the source by a
`LIKE` pattern made of its path.  A path has no surrogate that stands alone; `SqliteTexts` is about those that have.
-/

namespace CliServer

open NamedTree

/-- The values of the column `type`. -/
inductive EntryType
  | file
  | directory
  deriving DecidableEq

/-- A row of the table `files`, without its id and times. -/
structure Row where
  path : Str
  name : Str
  type : EntryType
  content : Option Str
  size : Nat
  permissions : Option Str
  parentPath : Option Str

/-- What a row says is there; the content that is not there is read as the empty one. -/
def Row.kind (row : Row) : Kind Str :=
  match row.type with
  | .file => .leaf (row.content.getD [])
  | .directory => .node

/-! ### The table -/

/-- The table `files`: its paths are unique. -/
structure Table where
  rows : List Row
  unique : (rows.map Row.path).Nodup

namespace Table

/-- `SELECT * FROM files WHERE path = ?`. -/
def select (t : Table) (path : Str) : Option Row := t.rows.find? fun row => row.path = path

/-- `DELETE FROM files WHERE ...`. -/
def delete (t : Table) (matching : Str → Bool) : Table where
  rows := t.rows.filter fun row => !matching row.path
  unique := t.unique.sublist (List.filter_sublist.map Row.path)

/-- `INSERT` of a row whose path is not in the table. -/
def insert (t : Table) (row : Row) (h : row.path ∉ t.rows.map Row.path) : Table where
  rows := t.rows ++ [row]
  unique := by
    rw [List.map_append, List.nodup_append]
    refine ⟨t.unique, by simp, ?_⟩
    intro a ha b hb
    rw [List.map_singleton, List.mem_singleton] at hb
    rintro rfl
    exact h (hb ▸ ha)

private theorem path_notMem_delete (t : Table) (path : Str) :
    path ∉ (t.delete fun p => p = path).rows.map Row.path := by
  simp [delete]

theorem path_notMem_of_select {t : Table} {path : Str} (h : t.select path = none) : path ∉ t.rows.map Row.path := by
  rw [select, List.find?_eq_none] at h
  intro hmem
  obtain ⟨row, hrow, hpath⟩ := List.mem_map.1 hmem
  exact h row hrow (by simpa using hpath)

/-- `DELETE FROM files WHERE path = ?`, and the `INSERT` of a row with this path. -/
def replace (t : Table) (row : Row) : Table :=
  (t.delete fun p => p = row.path).insert row (t.path_notMem_delete row.path)

/-- What stands at a key. -/
def kindAt (t : Table) (path : Str) : Option (Kind Str) := (t.select path).map Row.kind

/-- What stands at each path. -/
def view (t : Table) : FileView Str := fun p => t.kindAt (key p)

variable {t : Table} {row : Row} {k : Str}

theorem kindAt_delete (t : Table) (matching : Str → Bool) (k : Str) :
    (t.delete matching).kindAt k = if matching k then none else t.kindAt k := by
  have hfind : (t.delete matching).select k = if matching k then none else t.select k := by
    simp only [select, delete, List.find?_filter]
    by_cases hk : matching k = true
    · rw [if_pos hk, List.find?_eq_none]
      intro row _ h
      rw [decide_eq_true_eq] at h
      have hpath : row.path = k := by simpa using h.2
      rw [hpath, hk] at h
      exact absurd h.1 (by simp)
    · rw [if_neg hk]
      congr 1
      funext row
      by_cases hrow : row.path = k <;> simp [hrow, hk]
  rw [kindAt, hfind, kindAt]
  split <;> rfl

theorem kindAt_insert (h : row.path ∉ t.rows.map Row.path) (k : Str) :
    (t.insert row h).kindAt k = if k = row.path then some row.kind else t.kindAt k := by
  simp only [kindAt, select, insert, List.find?_append]
  by_cases hk : k = row.path
  · have hnone : t.rows.find? (fun r => r.path = k) = none := by
      rw [List.find?_eq_none]
      intro r hr hpath
      refine h (List.mem_map.2 ⟨r, hr, ?_⟩)
      rw [← hk]
      simpa using hpath
    rw [hnone]
    simp [hk]
  · have hne : ¬ row.path = k := fun h => hk h.symm
    simp [hk, hne]

theorem kindAt_replace (t : Table) (row : Row) (k : Str) :
    (t.replace row).kindAt k = if k = row.path then some row.kind else t.kindAt k := by
  rw [replace, kindAt_insert, kindAt_delete]
  by_cases hk : k = row.path <;> simp [hk]

theorem mem_rows_of_select {path : Str} (h : t.select path = some row) : row ∈ t.rows ∧ row.path = path := by
  refine ⟨List.mem_of_find?_eq_some h, ?_⟩
  simpa using List.find?_some h

theorem select_of_mem_rows (h : row ∈ t.rows) : t.select row.path = some row := by
  have hsome : (t.select row.path).isSome := by
    rw [select, List.find?_isSome]
    exact ⟨row, h, by simp⟩
  obtain ⟨r, hr⟩ := Option.isSome_iff_exists.1 hsome
  obtain ⟨hmem, hpath⟩ := mem_rows_of_select hr
  rw [hr, List.inj_on_of_nodup_map t.unique hmem h hpath]

theorem kindAt_of_mem_rows (h : row ∈ t.rows) : t.kindAt row.path = some row.kind := by
  rw [kindAt, select_of_mem_rows h, Option.map_some]

end Table

/-! ### The operations -/

namespace Sqlite

/-- The row of a directory that `_ensure_parents` makes. -/
def directoryRow (current part : Str) : Row where
  path := current
  name := part
  type := .directory
  content := none
  size := 0
  permissions := some "drwxr-xr-x".toList
  parentPath := parentPath current

/-- The loop of `_ensure_parents`; `current` is the path so far. -/
def makeParents : Table → Str → List Str → Table × Option FileError
  | t, _, [] => (t, none)
  | t, current, part :: parts =>
    let current := current ++ '/' :: part
    match h : t.select current with
    | some existing =>
      if existing.type ≠ .directory then (t, some (.notADirectory current)) else makeParents t current parts
    | none => makeParents (t.insert (directoryRow current part) (Table.path_notMem_of_select h)) current parts

/-- `_ensure_parents`. -/
def ensureParents (t : Table) (path : Str) : Table × Option FileError :=
  let norm := normalizeSql path
  if norm = ['/'] then (t, none) else makeParents t [] ((stripSlashes norm).splitOn '/')

/-- The row that `copy` makes of the source. -/
def destRow (destNorm : Str) (destParent : Option Str) (srcRow : Row) : Row where
  path := destNorm
  name := baseName destNorm
  type := srcRow.type
  content := srcRow.content
  size := srcRow.size
  permissions := srcRow.permissions
  parentPath := destParent

/-- The row that `copy` makes of a row below the source. -/
def descendantRow (srcNorm destNorm : Str) (desc : Row) : Row where
  path := destNorm ++ desc.path.drop srcNorm.length
  name := desc.name
  type := desc.type
  content := desc.content
  size := desc.size
  permissions := desc.permissions
  parentPath := parentPath (destNorm ++ desc.path.drop srcNorm.length)

section Like

variable (L : Like)

/-- The lines of `copy` that write the rows: of the source, and of what is below it. -/
def copyRows (t : Table) (srcNorm destNorm : Str) (destParent : Option Str) (srcRow : Row) : Table :=
  let t := t.replace (destRow destNorm destParent srcRow)
  if srcRow.type = .directory then
    let descendants := t.rows.filter fun row => L.finds (below srcNorm) row.path
    descendants.foldl (fun t desc => t.replace (descendantRow srcNorm destNorm desc)) t
  else t

/-- `if parent and parent != "/"`: `_ensure_parents`. -/
def ensureParent (t : Table) : Option Str → Table × Option FileError
  | none => (t, none)
  | some parent => if parent = [] ∨ parent = ['/'] then (t, none) else ensureParents t parent

/-- `copy`, of the normalised paths. -/
def copyAt (t : Table) (srcNorm destNorm src dest : Str) : Table × Option FileError :=
  if destNorm = ['/'] then (t, some (.isADirectory dest))
  else match t.select srcNorm with
    | none => (t, some (.notFound src))
    | some srcRow =>
      let destParent := parentPath destNorm
      match ensureParent t destParent with
      | (t, some e) => (t, some e)
      | (t, none) =>
        -- the rows below the source are asked for when the row at `dest` is written
        if srcRow.type = .directory ∧ L.refuses (below srcNorm) = true then
          (t.replace (destRow destNorm destParent srcRow), some .operational)
        else (copyRows L t srcNorm destNorm destParent srcRow, none)

/-- `copy`. -/
def copy (t : Table) (src dest : Str) : Table × Option FileError :=
  copyAt L t (normalizeSql src) (normalizeSql dest) src dest

/-- `DELETE FROM files WHERE path = ? OR path LIKE ?`; `LIKE` is computed for every row but that of the path. -/
def deleteTree {τ : Type*} (t : Table) (norm : Str) : Table × Option (PathError τ) :=
  if L.refuses (below norm) = true ∧ ∃ row ∈ t.rows, row.path ≠ norm then (t, some .operational)
  else (t.delete fun path => path = norm || L.finds (below norm) path, none)

/-- `move`, of the normalised paths. -/
def moveAt (t : Table) (srcNorm destNorm src dest : Str) : Table × Option FileError :=
  if srcNorm = ['/'] then (t, some (.permission src))
  else if destNorm = ['/'] then (t, some (.isADirectory dest))
  else match t.select srcNorm with
    | none => (t, some (.notFound src))
    | some _ =>
      -- copy then remove source
      match copyAt L t srcNorm destNorm src dest with
      | (t, some e) => (t, some e)
      | (t, none) => deleteTree L t srcNorm

/-- `move`. -/
def move (t : Table) (src dest : Str) : Table × Option FileError :=
  moveAt L t (normalizeSql src) (normalizeSql dest) src dest

end Like

end Sqlite

end CliServer
