import CliServer.Files.Providers

/-!
# The SQLite provider

The remaining operations of the provider on the table `files`, and what each leaves at the keys.
-/

namespace CliServer

open NamedTree

/-- `UPDATE files SET ... WHERE path = ?`, which leaves the path. -/
def Table.update (t : Table) (path : Str) (f : Row → Row) (hf : ∀ row, (f row).path = row.path) : Table where
  rows := t.rows.map fun row => if row.path = path then f row else row
  unique := by
    have hpaths : Row.path ∘ (fun row => if row.path = path then f row else row) = Row.path := by
      funext row
      simp only [Function.comp_apply]
      split
      · exact hf row
      · rfl
    rw [List.map_map, hpaths]
    exact t.unique

theorem Table.select_update_self {t : Table} {path : Str} {f : Row → Row} (hf : ∀ row, (f row).path = row.path)
    {row : Row}
    (h : t.select path = some row) : (t.update path f hf).select path = some (f row) := by
  obtain ⟨hmem, hpath⟩ := Table.mem_rows_of_select h
  have hnew : f row ∈ (t.update path f hf).rows := List.mem_map.2 ⟨row, hmem, if_pos hpath⟩
  have hselect := Table.select_of_mem_rows hnew
  rw [hf, hpath] at hselect
  exact hselect

theorem Table.select_insert_self {t : Table} {row : Row} (h : row.path ∉ t.rows.map Row.path) :
    (t.insert row h).select row.path = some row :=
  Table.select_of_mem_rows (List.mem_append_right _ (List.mem_singleton.2 rfl))

/-- The columns of a listing. -/
def Row.entry (row : Row) : FileEntry := ⟨row.name, row.type, row.size, row.permissions⟩

namespace Sqlite

/-- The row of a new file. -/
def fileRow (norm text : Str) (parent : Option Str) : Row where
  path := norm
  name := baseName norm
  type := .file
  content := some text
  size := utf8Length text
  permissions := some (permissionsOf .file)
  parentPath := parent

/-- The lines of `write_file` after the parents were made. -/
def writeRow {τ : Type*} (t : Table) (path : τ) (norm text : Str) : Table × Option (PathError τ) :=
  match h : t.select norm with
  | some existing =>
    if existing.type = .directory then (t, some (.isADirectory path))
    else (t.update norm (fun row => { row with content := some text, size := utf8Length text }) fun _ => rfl, none)
  | none => (t.insert (fileRow norm text (parentPath norm)) (Table.path_notMem_of_select h), none)

/-- `write_file`, of the normalised path. -/
def writeAt (t : Table) (norm path text : Str) : Table × Option FileError :=
  if norm = ['/'] then (t, some (.isADirectory path))
  else match ensureParent t (parentPath norm) with
    | (t, some e) => (t, some e)
    | (t, none) => writeRow t path norm text

/-- `write_file`. -/
def writeFile (t : Table) (path : Str) (content : Content) : Table × Option FileError :=
  writeAt t (normalizeSql path) path content.decoded

/-- `list`, of the normalised path. -/
def listAt {τ : Type*} (t : Table) (norm : Str) (path : τ) : Except (PathError τ) (List FileEntry) :=
  match t.select norm with
  | none => .error (.notFound path)
  | some row =>
    if row.type ≠ .directory then .error (.notADirectory path)
    else .ok (sortedEntries ((t.rows.filter fun row => row.parentPath = some norm).map Row.entry))

/-- `list`. -/
def list (t : Table) (path : Str) : Except FileError (List FileEntry) := listAt t (normalizeSql path) path

/-- `read_file`, and `get_download_stream`. -/
def readText {α : Type} (f : Str → α) (t : Table) (path : Str) : Except FileError α :=
  match t.select (normalizeSql path) with
  | none => .error (.notFound path)
  | some row => if row.type = .directory then .error (.isADirectory path) else .ok (f (row.content.getD []))

/-- `stat`, of the normalised path. -/
def statAt {τ : Type*} (t : Table) (norm : Str) (path : τ) : Except (PathError τ) FileEntry :=
  match t.select norm with
  | none => .error (.notFound path)
  | some row => .ok row.entry

/-- `stat`. -/
def stat (t : Table) (path : Str) : Except FileError FileEntry := statAt t (normalizeSql path) path

/-- What `mkdir` checks of the parent. -/
def checkParent {τ : Type*} (t : Table) (path : τ) : Option Str → Option (PathError τ)
  | none => none
  | some parent =>
    if parent = [] then none
    else match t.select parent with
      | none => some (.notFound path)
      | some row => if row.type ≠ .directory then some (.notADirectory path) else none

/-- The lines of `mkdir` after the parent was checked. -/
def makeRow {τ : Type*} (t : Table) (path : τ) (norm : Str) : Table × Option (PathError τ) :=
  match h : t.select norm with
  | some existing => if existing.type ≠ .directory then (t, some (.exists path)) else (t, none)
  | none => (t.insert (directoryRow norm (baseName norm)) (Table.path_notMem_of_select h), none)

/-- `mkdir`, of the normalised path. -/
def mkdirAt (t : Table) (norm path : Str) (recursive : Bool) : Table × Option FileError :=
  if norm = ['/'] then (t, none)
  else if recursive then ensureParents t norm
  else match checkParent t path (parentPath norm) with
    | some e => (t, some e)
    | none => makeRow t path norm

/-- `mkdir`. -/
def mkdir (t : Table) (path : Str) (recursive : Bool) : Table × Option FileError :=
  mkdirAt t (normalizeSql path) path recursive

/-- `remove`, of the normalised path. -/
def removeAt {τ : Type*} (L : Like) (t : Table) (norm : Str) (path : τ) (recursive : Bool) :
    Table × Option (PathError τ) :=
  if norm = ['/'] then (t, some (.permission path))
  else match t.select norm with
    | none => (t, some (.notFound path))
    | some row =>
      if row.type = .directory ∧ recursive = false ∧ (t.rows.any fun row => row.parentPath = some norm) then
        (t, some (.notADirectory path))
      else if recursive then deleteTree L t norm
      else (t.delete fun path => path = norm, none)

/-- `remove`. -/
def remove (L : Like) (t : Table) (path : Str) (recursive : Bool) : Table × Option FileError :=
  removeAt L t (normalizeSql path) path recursive

/-- The SQLite provider. -/
def provider : FileProvider Table where
  readFile := readText id
  writeFile := writeFile
  stat := stat
  getDownloadStream := readText fun text => [Utf8.encode text]
  uploadFile t path content := writeFile t path (.bytes content)
  list := list
  mkdir := mkdir
  remove := remove .sqlite
  copy := copy .sqlite
  move := move .sqlite
  exists_ t path := (t.select (normalizeSql path)).isSome

/-- The table that the constructor makes. -/
def initial : Table where
  rows :=
    [{ path := ['/'], name := [], type := .directory, content := none, size := 0,
       permissions := some (permissionsOf .directory), parentPath := none }]
  unique := by simp

end Sqlite

end CliServer
