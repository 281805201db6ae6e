import CliServer.Files.SqliteRuns
import CliServer.Lib.Simulation

/-!
# What the providers have in common

`Common.provider` is a file provider on views: the operations of the three providers where they agree, in terms of
what stands at each path.  `Agreed` says of an operation, on what there is, that nothing comes into play in which the
providers differ; a provider that `Follows` the common one operation by operation simulates it.
-/

namespace CliServer

open NamedTree

/-- What `stat` says of what stands under this name. -/
def kindEntry (name : Str) : Kind Str → FileEntry
  | .leaf text => ⟨name, .file, utf8Length text, some (permissionsOf .file)⟩
  | .node => ⟨name, .directory, 0, some (permissionsOf .directory)⟩

theorem Name.text_injective : Function.Injective Name.text := by
  intro n m h
  cases n
  cases m
  cases h
  rfl

/-! ### Listings -/

/-- The entries of a directory, in the order of their names. -/
structure IsListing (view : FileView Str) (p : Path) (entries : List FileEntry) : Prop where
  sorted : entries.Pairwise fun a b => a.name < b.name
  mem_iff : ∀ entry, entry ∈ entries ↔ ∃ n kind, view (p ++ [n]) = some kind ∧ entry = kindEntry n.text kind

variable {view : FileView Str} {p : Path}

/-- A directory has one listing. -/
theorem IsListing.unique {entries entries' : List FileEntry} (h : IsListing view p entries)
    (h' : IsListing view p entries') : entries = entries' := by
  have hsame : ∀ entry, entry ∈ entries ↔ entry ∈ entries' := fun entry => by rw [h.mem_iff, h'.mem_iff]
  have hnodup : entries.Nodup := h.sorted.imp fun hlt heq => by
    rw [heq] at hlt
    exact lt_irrefl _ hlt
  have hnodup' : entries'.Nodup := h'.sorted.imp fun hlt heq => by
    rw [heq] at hlt
    exact lt_irrefl _ hlt
  have hperm : entries.Perm entries' := (List.perm_ext_iff_of_nodup hnodup hnodup').2 hsame
  refine hperm.eq_of_pairwise (fun a b _ _ hab hba => ?_) h.sorted h'.sorted
  exact absurd (hab.trans hba) (lt_irrefl _)

/-- Entries whose names are distinct are listed in the order of their names. -/
theorem isListing_sortedEntries {entries : List FileEntry} (hnames : (entries.map FileEntry.name).Nodup)
    (hmem : ∀ entry, entry ∈ entries ↔ ∃ n kind, view (p ++ [n]) = some kind ∧ entry = kindEntry n.text kind) :
    IsListing view p (sortedEntries entries) := by
  have hperm : (sortedEntries entries).Perm entries := List.mergeSort_perm _ _
  refine ⟨?_, fun entry => by rw [hperm.mem_iff, hmem]⟩
  have hle : (sortedEntries entries).Pairwise fun a b => decide (a.name ≤ b.name) = true :=
    List.pairwise_mergeSort (fun a b c => by simpa using le_trans) (fun a b => by simpa using le_total a.name b.name)
      entries
  have hne : (sortedEntries entries).Pairwise fun a b => a.name ≠ b.name :=
    List.pairwise_map.1 ((hperm.map FileEntry.name).nodup_iff.2 hnames)
  refine hle.imp₂ (fun a b hab hdiff => ?_) hne
  exact lt_of_le_of_ne (of_decide_eq_true hab) hdiff

open scoped Classical in
/-- The listing of a directory. -/
noncomputable def listing (view : FileView Str) (p : Path) : List FileEntry :=
  if h : ∃ entries, IsListing view p entries then h.choose else []

theorem IsListing.eq_listing {entries : List FileEntry} (h : IsListing view p entries) : listing view p = entries := by
  have hsome : ∃ entries, IsListing view p entries := ⟨entries, h⟩
  rw [listing, dif_pos hsome]
  exact hsome.choose_spec.unique h

/-! ### The operations -/

namespace Common

noncomputable section

open scoped Classical

/-- `list`. -/
def list (view : FileView Str) (path : Str) : Except FileError (List FileEntry) :=
  match view (normalizePath path) with
  | none => .error (.notFound path)
  | some (.leaf _) => .error (.notADirectory path)
  | some .node => .ok (listing view (normalizePath path))

/-- `read_file`, and `get_download_stream`. -/
def read {α : Type} (f : Str → α) (view : FileView Str) (path : Str) : Except FileError α :=
  match view (normalizePath path) with
  | none => .error (.notFound path)
  | some .node => .error (.isADirectory path)
  | some (.leaf text) => .ok (f text)

/-- `stat`. -/
def stat (view : FileView Str) (path : Str) : Except FileError FileEntry :=
  match view (normalizePath path) with
  | none => .error (.notFound path)
  | some kind => .ok (kindEntry (lastName (normalizePath path)) kind)

/-- `write_file`. -/
def writeFile (view : FileView Str) (path : Str) (content : Content) : FileView Str × Option FileError :=
  let d := normalizePath path
  if d = [] then (view, some (.isADirectory path))
  else if Blocked view d.dropLast then (view, some (.notADirectory path))
  else if view d = some .node then (view, some (.isADirectory path))
  else (Function.update (withParents view d.dropLast) d (some (.leaf content.decoded)), none)

/-- `mkdir`. -/
def mkdir (view : FileView Str) (path : Str) (recursive : Bool) : FileView Str × Option FileError :=
  let d := normalizePath path
  if d = [] then (view, none)
  else if recursive = true then
    if Blocked view d then (view, some (.notADirectory path)) else (withParents view d, none)
  else match view d.dropLast with
    | none => (view, some (.notFound path))
    | some (.leaf _) => (view, some (.notADirectory path))
    | some .node =>
      match view d with
      | some (.leaf _) => (view, some (.exists path))
      | some .node => (view, none)
      | none => (Function.update view d (some .node), none)

/-- `remove`. -/
def remove (view : FileView Str) (path : Str) (recursive : Bool) : FileView Str × Option FileError :=
  let d := normalizePath path
  if d = [] then (view, some (.permission path))
  else if view d = none then (view, some (.notFound path))
  else if view d = some .node ∧ recursive = false ∧ ∃ n, view (d ++ [n]) ≠ none then (view, some (.notADirectory path))
  else (fun q => if d <+: q then none else view q, none)

/-- What stands at `s` put at `d`, in directories that are made where they are missing. -/
def put (view : FileView Str) (s d : Path) : FileView Str := fun q =>
  if d <+: q then view (s ++ q.drop d.length) else withParents view d.dropLast q

/-- `copy`. -/
def copy (view : FileView Str) (src dest : Str) : FileView Str × Option FileError :=
  let s := normalizePath src
  let d := normalizePath dest
  if view s = none then (view, some (.notFound src))
  else if d = [] then (view, some (.isADirectory dest))
  else if Blocked view d.dropLast then (view, some (.notADirectory dest))
  else (put view s d, none)

/-- `move`; what is moved to or below itself is gone. -/
def move (view : FileView Str) (src dest : Str) : FileView Str × Option FileError :=
  let s := normalizePath src
  let d := normalizePath dest
  if s = [] then (view, some (.permission src))
  else if view s = none then (view, some (.notFound src))
  else if d = [] then (view, some (.isADirectory dest))
  else if Blocked view d.dropLast then (view, some (.notADirectory dest))
  else (fun q => if s <+: q then none else put view s d q, none)

/-- The operations on views. -/
def provider : FileProvider (FileView Str) where
  readFile := read id
  writeFile := writeFile
  stat := stat
  getDownloadStream := read fun text => [Utf8.encode text]
  uploadFile view path content := writeFile view path (.bytes content)
  list := list
  mkdir := mkdir
  remove := remove
  copy := copy
  move := move
  exists_ view path := (view (normalizePath path)).isSome

end

end Common

/-! ### Where the providers agree -/

/-- The two normalisations of a path agree. -/
def SamePath (path : Str) : Prop := normalizePath path = sqlParts path

instance (path : Str) : Decidable (SamePath path) := inferInstanceAs (Decidable (_ = _))

/-- The directories that SQLite makes for a path are its parents. -/
def SameParents (d : Path) : Prop := Sqlite.parentsOf d = d.dropLast

instance (d : Path) : Decidable (SameParents d) := inferInstanceAs (Decidable (_ = _))

/-- What is below `s` covers what is below `d`, apart from what goes. -/
def Covers (view : FileView Str) (s d : Path) (gone : Path → Prop) : Prop :=
  ∀ x, x ≠ [] → view (d ++ x) ≠ none → view (s ++ x) ≠ none ∨ gone (d ++ x)

/-- The first checks of a copy and a move come out alike, and where a copy is made, `fits` holds. -/
def Transfers (view : FileView Str) (s d : Path) (fits : Prop) : Prop :=
  (view s ≠ none ∨ d ≠ []) ∧ (view s ≠ none → d ≠ [] → SameParents d ∧ (¬Blocked view d.dropLast → fits))

/-- SQLite's `LIKE` does not refuse the pattern of what is below this path. -/
def Patterned (d : Path) : Prop := Like.sqlite.refuses (below (key d)) = false

instance (d : Path) : Decidable (Patterned d) := inferInstanceAs (Decidable (_ = _))

/-- A copy comes out alike: of what is not above its destination and covers what is there, or of the root if it is
empty. -/
def CopyFits (view : FileView Str) (s d : Path) : Prop :=
  (s = [] ∧ d.dropLast = [] ∧ ∀ x, x ≠ [] → view x = none) ∨
    ((s <+: d → s = d) ∧ (view s = some .node → Patterned s ∧ Sqlite.CopyExact .sqlite view s d) ∧
      Covers view s d fun _ => False)

/-- A move comes out alike; out of a directory over that directory, the copy has what the move then deletes. -/
def MoveFits (view : FileView Str) (s d : Path) : Prop :=
  Patterned s ∧ Sqlite.MoveExact .sqlite view s d ∧ Covers view s d (fun p => s <+: p) ∧
    ∀ r, r ≠ [] → s = d ++ r → view (s ++ r.dropLast) ≠ none → view (s ++ r) ≠ none

/-- Nothing comes into play in which the providers differ. -/
def Agreed (view : FileView Str) : FileOp → Prop
  | .list path | .readFile path | .stat path | .exists_ path | .getDownloadStream path => SamePath path
  | .writeFile path content =>
    SamePath path ∧ SameParents (sqlParts path) ∧ Utf8.encode content.decoded = content.raw
  | .uploadFile path content => SamePath path ∧ SameParents (sqlParts path) ∧ Utf8.Valid content
  | .mkdir path recursive =>
    let d := sqlParts path
    SamePath path ∧ if recursive = true then sqlParts (key d) = d else ¬Blocked view d.dropLast.dropLast
  | .remove path recursive =>
    let d := sqlParts path
    SamePath path ∧ d ≠ [] ∧ (recursive = true → view d ≠ none →
      Patterned d ∧ ∀ p, view p ≠ none → (Sqlite.Gone .sqlite d p ↔ d <+: p))
  | .copy src dest =>
    let s := sqlParts src
    let d := sqlParts dest
    SamePath src ∧ SamePath dest ∧ Transfers view s d (CopyFits view s d)
  | .move src dest =>
    let s := sqlParts src
    let d := sqlParts dest
    SamePath src ∧ SamePath dest ∧ s ≠ [] ∧ Transfers view s d (MoveFits view s d)

/-! ### Following the common provider -/

section Follows

variable {σ : Type} {R : σ → FileView Str → Prop}

/-- An operation ends with the same outcome, and leaves states that are related. -/
def EndsAlike (R : σ → FileView Str → Prop) (run : σ × Option FileError) (common : FileView Str × Option FileError) :
    Prop :=
  FileOutcome.ofOption run.2 = FileOutcome.ofOption common.2 ∧ R run.1 common.1

theorem EndsAlike.of_eq {run : σ × Option FileError} {common : FileView Str × Option FileError} (h : run.2 = common.2)
    (hR : R run.1 common.1) : EndsAlike R run common := ⟨congrArg FileOutcome.ofOption h, hR⟩

/-- Where the providers agree, each operation is the common one. -/
structure Follows (provider : FileProvider σ) (R : σ → FileView Str → Prop) : Prop where
  list : ∀ {s view path}, R s view → SamePath path → provider.list s path = Common.list view path
  readFile : ∀ {s view path}, R s view → SamePath path → provider.readFile s path = Common.read id view path
  stat : ∀ {s view path}, R s view → SamePath path → provider.stat s path = Common.stat view path
  exists_ : ∀ {s view path}, R s view → SamePath path → provider.exists_ s path = (view (normalizePath path)).isSome
  getDownloadStream : ∀ {s view path}, R s view → SamePath path →
    provider.getDownloadStream s path = Common.read (fun text => [Utf8.encode text]) view path
  writeFile : ∀ {s view path content}, R s view → Agreed view (.writeFile path content) →
    EndsAlike R (provider.writeFile s path content) (Common.writeFile view path content)
  uploadFile : ∀ {s view path content}, R s view → Agreed view (.uploadFile path content) →
    EndsAlike R (provider.uploadFile s path content) (Common.writeFile view path (.bytes content))
  mkdir : ∀ {s view path recursive}, R s view → Agreed view (.mkdir path recursive) →
    EndsAlike R (provider.mkdir s path recursive) (Common.mkdir view path recursive)
  remove : ∀ {s view path recursive}, R s view → Agreed view (.remove path recursive) →
    EndsAlike R (provider.remove s path recursive) (Common.remove view path recursive)
  copy : ∀ {s view src dest}, R s view → Agreed view (.copy src dest) →
    EndsAlike R (provider.copy s src dest) (Common.copy view src dest)
  move : ∀ {s view src dest}, R s view → Agreed view (.move src dest) →
    EndsAlike R (provider.move s src dest) (Common.move view src dest)

theorem Follows.simulates {provider : FileProvider σ} (h : Follows provider R) :
    Simulation.Simulates provider.run Common.provider.run R Agreed := by
  intro s view op hR hagreed
  cases op with
  | list path => exact ⟨congrArg (FileOutcome.ofExcept .listing) (h.list hR hagreed), hR⟩
  | readFile path => exact ⟨congrArg (FileOutcome.ofExcept .text) (h.readFile hR hagreed), hR⟩
  | stat path => exact ⟨congrArg (FileOutcome.ofExcept .stats) (h.stat hR hagreed), hR⟩
  | exists_ path => exact ⟨congrArg FileOutcome.flag (h.exists_ hR hagreed), hR⟩
  | getDownloadStream path => exact ⟨congrArg (FileOutcome.ofExcept .stream) (h.getDownloadStream hR hagreed), hR⟩
  | writeFile path content => exact h.writeFile hR hagreed
  | uploadFile path content => exact h.uploadFile hR hagreed
  | mkdir path recursive => exact h.mkdir hR hagreed
  | remove path recursive => exact h.remove hR hagreed
  | copy src dest => exact h.copy hR hagreed
  | move src dest => exact h.move hR hagreed

end Follows

end CliServer
