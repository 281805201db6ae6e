import CliServer.Files.OsFiles
import CliServer.Lib.Transition

/-!
# The allowed roots of the operating system's files

`_validate` compares texts: a path is allowed if it is that of a root, or begins with a root's and a slash.  `remove`
and `move` refuse the roots themselves; what is in a directory goes with it, an allowed root among it as well.
`os_confined_iff` says when the texts decide what lies below a root, and when every root stays where it is.
-/

namespace CliServer

open Transition

/-- A file or directory, with what tells it from any other. -/
structure FsEntry where
  ino : Nat
  type : EntryType
  deriving DecidableEq

/-- What is at each path: whatever is there is in a directory. -/
structure FileSystem where
  entry : Path → Option FsEntry
  closed : ∀ p n, entry (p ++ [n]) ≠ none → ∃ ino, entry p = some ⟨ino, .directory⟩

/-- What the operating system's calls raise, besides the errors of the provider. -/
inductive OsError where
  | storage (e : FileError)
  | os (message : Str)
  deriving DecidableEq

/-- The calls of `os` and `shutil`: `realpath` names the path without links, the others say what they leave and raise.
-/
structure OsCalls where
  realpath : FileSystem → Str → Path
  remove : FileSystem → Path → FileSystem × Option Str
  rmdir : FileSystem → Path → FileSystem × Option Str
  rmtree : FileSystem → Path → FileSystem × Option Str
  move : FileSystem → Path → Path → FileSystem × Option Str

namespace FileSystem

/-- `os.path.isdir`. -/
def isDir (fs : FileSystem) (p : Path) : Bool := (fs.entry p).any fun e => e.type = .directory

/-- Where `shutil.move` puts the source: a directory that is there gets it under its own name. -/
def target (fs : FileSystem) (src dest : Path) : Path := if fs.isDir dest then dest ++ src.getLast?.toList else dest

end FileSystem

/-- What is documented of the calls: they change only what they are about; `rmdir` removes no directory that has
something in it, and `rmtree` all that is below; `move` leaves everything as it is where the destination is the source
itself (the same file), and otherwise does not replace a directory, nor anything in the directory it moves to, may make
missing directories, and does not move anything into itself. -/
structure OsDocumented (calls : OsCalls) : Prop where
  remove_frame : ∀ fs q p, ¬q <+: p → (calls.remove fs q).1.entry p = fs.entry p
  rmdir_frame : ∀ fs q p, ¬q <+: p → (calls.rmdir fs q).1.entry p = fs.entry p
  rmdir_nonempty : ∀ fs q n, fs.entry (q ++ [n]) ≠ none → (calls.rmdir fs q).1 = fs
  rmtree_frame : ∀ fs q p, ¬q <+: p → (calls.rmtree fs q).1.entry p = fs.entry p
  rmtree_done : ∀ fs q p, (calls.rmtree fs q).2 = none → q <+: p → (calls.rmtree fs q).1.entry p = none
  move_changes : ∀ fs src dest p, (calls.move fs src dest).1.entry p ≠ fs.entry p →
    src <+: p ∨
      (fs.target src dest <+: p ∧ fs.isDir (fs.target src dest) = false ∧
        (fs.isDir dest = true → fs.entry (fs.target src dest) = none)) ∨
      (p <+: fs.target src dest ∧ fs.entry p = none)
  move_same : ∀ fs src dest, fs.entry src ≠ none → fs.entry src = fs.entry dest → (calls.move fs src dest).1 = fs
  move_done : ∀ fs src dest, fs.entry src ≠ fs.entry dest → (calls.move fs src dest).2 = none →
    ¬src <+: fs.target src dest ∧ fs.isDir (fs.target src dest) = false ∧
    ∀ p, src <+: p → ¬fs.target src dest <+: p → (calls.move fs src dest).1.entry p = none

namespace OsCalls

variable (calls : OsCalls) (roots : List Path) (fs : FileSystem)

/-- The platform that the calls see, with the allowed paths as `realpath` resolved them. -/
def os : Os where
  realpath path := key (calls.realpath fs path)
  dirname path := (parentPath path).getD path
  basename := baseName
  sep := '/'
  linesep := .lf
  newMode := permissionsOf .file
  allowedPaths := roots.map key

/-- `_validate`. -/
def validated (path : Str) : Except FileError Path := do
  let _ ← Disk.validate (calls.os roots fs) path
  return calls.realpath fs path

/-- `_ensure_not_root`. -/
def ensureNotRoot (resolved : Path) (path : Str) : Except FileError Unit :=
  if key resolved ∈ (calls.os roots fs).allowedPaths then .error (.permission path) else .ok ()

/-- `if not os.path.exists(resolved)`. -/
def ensureExists (resolved : Path) (path : Str) : Except FileError Unit :=
  if (fs.entry resolved).isNone then .error (.notFound path) else .ok ()

/-- The lines of `remove` that check the path. -/
def checkRemove (path : Str) : Except FileError Path := do
  let resolved ← calls.validated roots fs path
  calls.ensureNotRoot roots fs resolved path
  ensureExists fs resolved path
  return resolved

/-- The lines of `move` that check the paths. -/
def checkMove (src dest : Str) : Except FileError (Path × Path) := do
  let resolvedSrc ← calls.validated roots fs src
  let resolvedDest ← calls.validated roots fs dest
  calls.ensureNotRoot roots fs resolvedSrc src
  calls.ensureNotRoot roots fs resolvedDest dest
  ensureExists fs resolvedSrc src
  return (resolvedSrc, resolvedDest)

/-- `remove`. -/
def removePath (path : Str) (recursive : Bool) : FileSystem × Option OsError :=
  match calls.checkRemove roots fs path with
  | .error e => (fs, some (.storage e))
  | .ok resolved =>
    let run := if fs.isDir resolved then
        if recursive then calls.rmtree fs resolved else calls.rmdir fs resolved
      else calls.remove fs resolved
    (run.1, run.2.map .os)

/-- `move`. -/
def movePath (src dest : Str) : FileSystem × Option OsError :=
  match calls.checkMove roots fs src dest with
  | .error e => (fs, some (.storage e))
  | .ok (resolvedSrc, resolvedDest) =>
    let run := calls.move fs resolvedSrc resolvedDest
    (run.1, run.2.map .os)

end OsCalls

inductive OsAction where
  | remove (path : Str) (recursive : Bool)
  | move (src dest : Str)
  deriving DecidableEq

/-- What a call raises. -/
def OsCalls.raised (calls : OsCalls) (roots : List Path) (fs : FileSystem) : OsAction → Option OsError
  | .remove path recursive => (calls.removePath roots fs path recursive).2
  | .move src dest => (calls.movePath roots fs src dest).2

/-- One call of the provider, whatever it raises. -/
def osStep (calls : OsCalls) (roots : List Path) (fs : FileSystem) : OsAction → Option FileSystem
  | .remove path recursive => some (calls.removePath roots fs path recursive).1
  | .move src dest => some (calls.movePath roots fs src dest).1

/-! ### What is accepted -/

section

variable {calls : OsCalls} {roots : List Path} {fs : FileSystem} {path src dest : Str} {q d r : Path}

/-- The path is an allowed root, or below one. -/
def BelowRoot (roots : List Path) (q : Path) : Prop := ∃ r ∈ roots, r <+: q

/-- The text of the root and a slash begins no path. -/
private theorem key_slash_prefix_iff : key r ++ ['/'] <+: key q ↔ r ≠ [] ∧ ∃ x, x ≠ [] ∧ q = r ++ x := by
  by_cases hr : r = []
  · subst hr
    refine iff_of_false (fun h => ?_) fun h => h.1 rfl
    have hroot : key [] ++ ['/'] = ['/', '/'] := rfl
    rw [hroot] at h
    obtain ⟨rest, hrest⟩ := h
    cases q with
    | nil =>
      have hlength := congrArg List.length hrest
      simp [key] at hlength
    | cons n q =>
      rw [key_of_ne_nil (List.cons_ne_nil n q), joined_cons, List.cons_append, List.cons.injEq] at hrest
      obtain ⟨c, text, htext⟩ := List.exists_cons_of_ne_nil n.ne_nil
      rw [htext, List.cons_append, List.cons_append, List.cons.injEq] at hrest
      exact n.no_slash (htext ▸ hrest.2.1 ▸ List.mem_cons_self)
  · rw [key_prefix_iff hr, and_iff_right hr]

private theorem validated_eq_ok_iff : calls.validated roots fs path = .ok q ↔
    calls.realpath fs path = q ∧ ∃ r ∈ roots, r = q ∨ r ≠ [] ∧ r <+: q := by
  have hone : ∀ r : Path, (decide (key (calls.realpath fs path) = key r) ||
      (key r ++ ['/']).isPrefixOf (key (calls.realpath fs path))) = true ↔
        r = calls.realpath fs path ∨ r ≠ [] ∧ r <+: calls.realpath fs path := by
    intro r
    rw [Bool.or_eq_true, decide_eq_true_eq, List.isPrefixOf_iff_prefix, key_slash_prefix_iff, key_injective.eq_iff]
    constructor
    · rintro (heq | ⟨hr, x, -, heq⟩)
      · exact .inl heq.symm
      · exact .inr ⟨hr, x, heq.symm⟩
    · rintro (heq | ⟨hr, x, heq⟩)
      · exact .inl heq.symm
      · by_cases hx : x = []
        · rw [hx, List.append_nil] at heq
          exact .inl heq.symm
        · exact .inr ⟨hr, x, hx, heq.symm⟩
  have hany : ((calls.os roots fs).allowedPaths.any fun allowed =>
      decide ((calls.os roots fs).realpath path = allowed) ||
        (allowed ++ [(calls.os roots fs).sep]).isPrefixOf ((calls.os roots fs).realpath path)) = true ↔
      ∃ r ∈ roots, r = calls.realpath fs path ∨ r ≠ [] ∧ r <+: calls.realpath fs path := by
    rw [List.any_eq_true]
    constructor
    · rintro ⟨allowed, hmem, hallowed⟩
      obtain ⟨r, hr, rfl⟩ := List.mem_map.1 hmem
      exact ⟨r, hr, (hone r).1 hallowed⟩
    · rintro ⟨r, hr, h⟩
      exact ⟨key r, List.mem_map.2 ⟨r, hr, rfl⟩, (hone r).2 h⟩
  unfold OsCalls.validated Disk.validate
  dsimp only
  split
  · next haccepted =>
    constructor
    · intro h
      obtain rfl := Except.ok.inj h
      exact ⟨rfl, hany.1 haccepted⟩
    · rintro ⟨rfl, -⟩
      rfl
  · next hrefused =>
    constructor
    · intro h
      cases h
    · rintro ⟨rfl, h⟩
      exact absurd (hany.2 h) hrefused

/-- A path is accepted exactly if it is below a root, unless that root is the root of the file system. -/
private theorem validated_iff_below : (calls.validated roots fs path = .ok (calls.realpath fs path) ↔
      BelowRoot roots (calls.realpath fs path)) ↔
    ([] ∈ roots → calls.realpath fs path = [] ∨ ∃ r ∈ roots, r ≠ [] ∧ r <+: calls.realpath fs path) := by
  rw [validated_eq_ok_iff, and_iff_right rfl]
  generalize calls.realpath fs path = q
  constructor
  · intro hiff hroot
    obtain ⟨r, hr, rfl | hbelow⟩ := hiff.2 ⟨[], hroot, List.nil_prefix⟩
    · by_cases hnil : r = []
      · exact .inl hnil
      · exact .inr ⟨r, hr, hnil, List.prefix_refl r⟩
    · exact .inr ⟨r, hr, hbelow⟩
  · intro h
    constructor
    · rintro ⟨r, hr, rfl | ⟨-, hbelow⟩⟩
      · exact ⟨r, hr, List.prefix_refl r⟩
      · exact ⟨r, hr, hbelow⟩
    · rintro ⟨r, hr, hbelow⟩
      by_cases hnil : r = []
      · subst hnil
        rcases h hr with rfl | ⟨r', hr', hbelow'⟩
        · exact ⟨[], hr, .inl rfl⟩
        · exact ⟨r', hr', .inr hbelow'⟩
      · exact ⟨r, hr, .inr ⟨hnil, hbelow⟩⟩

/-! ### What is removed and moved -/

private theorem ok_of_bind_eq_ok {ε α β : Type} {x : Except ε α} {f : α → Except ε β} {b : β} (h : x >>= f = .ok b) :
    ∃ a, x = .ok a ∧ f a = .ok b := by
  cases x with
  | error e => cases h
  | ok a => exact ⟨a, rfl, h⟩

private theorem notMem_of_ensureNotRoot (h : calls.ensureNotRoot roots fs q path = .ok ()) : q ∉ roots := by
  unfold OsCalls.ensureNotRoot at h
  split at h
  · cases h
  · next hnot => exact fun hmem => hnot (List.mem_map.2 ⟨q, hmem, rfl⟩)

private theorem entry_of_ensureExists (h : OsCalls.ensureExists fs q path = .ok ()) : fs.entry q ≠ none := by
  unfold OsCalls.ensureExists at h
  split at h
  · cases h
  · next hsome => exact fun hnone => hsome (by rw [hnone]; rfl)

private theorem checkRemove_ok (h : calls.checkRemove roots fs path = .ok q) : q ∉ roots ∧ fs.entry q ≠ none := by
  obtain ⟨q', -, h⟩ := ok_of_bind_eq_ok h
  obtain ⟨_, hroot, h⟩ := ok_of_bind_eq_ok h
  obtain ⟨_, hexists, h⟩ := ok_of_bind_eq_ok h
  obtain rfl := Except.ok.inj h
  exact ⟨notMem_of_ensureNotRoot hroot, entry_of_ensureExists hexists⟩

private theorem checkMove_ok (h : calls.checkMove roots fs src dest = .ok (q, d)) :
    q ∉ roots ∧ d ∉ roots ∧ fs.entry q ≠ none := by
  obtain ⟨q', -, h⟩ := ok_of_bind_eq_ok h
  obtain ⟨d', -, h⟩ := ok_of_bind_eq_ok h
  obtain ⟨_, hsrc, h⟩ := ok_of_bind_eq_ok h
  obtain ⟨_, hdest, h⟩ := ok_of_bind_eq_ok h
  obtain ⟨_, hexists, h⟩ := ok_of_bind_eq_ok h
  obtain ⟨rfl, rfl⟩ := Prod.mk.inj (Except.ok.inj h)
  exact ⟨notMem_of_ensureNotRoot hsrc, notMem_of_ensureNotRoot hdest, entry_of_ensureExists hexists⟩

private theorem FileSystem.isDir_iff : fs.isDir q = true ↔ ∃ ino, fs.entry q = some ⟨ino, .directory⟩ := by
  unfold isDir
  cases hentry : fs.entry q with
  | none => simp
  | some e =>
    obtain ⟨ino, type⟩ := e
    simp

private theorem FileSystem.entry_ne_none (h : fs.isDir q = true) : fs.entry q ≠ none := by
  obtain ⟨ino, hino⟩ := isDir_iff.1 h
  rw [hino]
  exact Option.some_ne_none _

/-- Whatever is above something is a directory. -/
private theorem FileSystem.isDir_above (h : q <+: r) (hne : q ≠ r) (hthere : fs.entry r ≠ none) :
    fs.isDir q = true := by
  obtain ⟨x, rfl⟩ := h
  induction x using List.reverseRecOn with
  | nil => exact absurd (List.append_nil q).symm hne
  | append_singleton x n ih =>
    rw [← List.append_assoc] at hthere
    obtain ⟨ino, hino⟩ := fs.closed _ n hthere
    by_cases hx : x = []
    · rw [hx, List.append_nil] at hino
      exact isDir_iff.2 ⟨ino, hino⟩
    · exact ih (by simp [hx]) (by rw [hino]; exact Option.some_ne_none _)

/-- No allowed root is in the directory. -/
def NoRootIn (roots : List Path) (fs : FileSystem) (q : Path) : Prop := ∀ r ∈ roots, q <+: r → fs.isDir r = false

/-- What a call removes with all that is in it, or moves to another place, has no allowed root in it. -/
def SparesRoots (calls : OsCalls) (roots : List Path) (fs : FileSystem) : OsAction → Prop
  | .remove path recursive => recursive = true → ∀ q, calls.checkRemove roots fs path = .ok q → NoRootIn roots fs q
  | .move src dest => ∀ q d, calls.checkMove roots fs src dest = .ok (q, d) → fs.entry q ≠ fs.entry d →
    NoRootIn roots fs q

variable (h : OsDocumented calls)

include h

private theorem removePath_keeps {recursive : Bool} (hspares : SparesRoots calls roots fs (.remove path recursive))
    (hr : r ∈ roots)
    (hdir : fs.isDir r = true) : (calls.removePath roots fs path recursive).1.entry r = fs.entry r := by
  unfold OsCalls.removePath
  cases hcheck : calls.checkRemove roots fs path with
  | error e => rfl
  | ok q =>
    obtain ⟨hroot, hthere⟩ := checkRemove_ok hcheck
    have hne : q ≠ r := fun heq => hroot (heq ▸ hr)
    have hentry : fs.entry r ≠ none := FileSystem.entry_ne_none hdir
    dsimp only
    by_cases hbelow : q <+: r
    · rw [if_pos (FileSystem.isDir_above hbelow hne hentry)]
      cases recursive with
      | true =>
        have hno := hspares rfl q hcheck r hr hbelow
        rw [hdir] at hno
        cases hno
      | false =>
        -- the directory is not empty
        obtain ⟨x, rfl⟩ := hbelow
        obtain ⟨n, x, rfl⟩ := List.exists_cons_of_ne_nil (fun hx : x = [] => hne (by rw [hx, List.append_nil]))
        have hchild : fs.entry (q ++ [n]) ≠ none := by
          by_cases hx : x = []
          · rwa [hx] at hentry
          · have habove : q ++ [n] <+: q ++ n :: x := ⟨x, by simp⟩
            exact FileSystem.entry_ne_none (FileSystem.isDir_above habove (by simpa using Ne.symm hx) hentry)
        rw [if_neg (by decide), h.rmdir_nonempty fs q n hchild]
    · split
      · split
        · exact h.rmtree_frame fs q r hbelow
        · exact h.rmdir_frame fs q r hbelow
      · exact h.remove_frame fs q r hbelow

private theorem movePath_keeps (hspares : SparesRoots calls roots fs (.move src dest)) (hr : r ∈ roots)
    (hdir : fs.isDir r = true) :
    (calls.movePath roots fs src dest).1.entry r = fs.entry r := by
  unfold OsCalls.movePath
  cases hcheck : calls.checkMove roots fs src dest with
  | error e => rfl
  | ok resolved =>
    obtain ⟨q, d⟩ := resolved
    obtain ⟨-, hdest, hthere⟩ := checkMove_ok hcheck
    have hentry : fs.entry r ≠ none := FileSystem.entry_ne_none hdir
    dsimp only
    by_cases hsame : fs.entry q = fs.entry d
    · rw [h.move_same fs q d hthere hsame]
    by_contra hchanged
    rcases h.move_changes fs q d r hchanged with hbelow | ⟨hbelow, hfile, hfree⟩ | ⟨-, hnone⟩
    · have hno := hspares q d hcheck hsame r hr hbelow
      rw [hdir] at hno
      cases hno
    · -- what is below the target is in a directory that is there
      by_cases heq : fs.target q d = r
      · rw [heq, hdir] at hfile
        cases hfile
      · rw [FileSystem.isDir_above hbelow heq hentry] at hfile
        cases hfile
    · exact hentry hnone

private theorem osStep_keeps {a : OsAction} {after : FileSystem} (hspares : SparesRoots calls roots fs a)
    (hst : osStep calls roots fs a = some after) (hr : r ∈ roots) (hdir : fs.isDir r = true) :
    after.entry r = fs.entry r := by
  cases a with
  | remove path recursive =>
    obtain rfl := Option.some.inj hst
    exact removePath_keeps h hspares hr hdir
  | move src dest =>
    obtain rfl := Option.some.inj hst
    exact movePath_keeps h hspares hr hdir

/-- A call that does not spare them and raises nothing takes a root away. -/
private theorem OsCalls.takes_root {a : OsAction} (hnot : ¬SparesRoots calls roots fs a)
    (hdone : calls.raised roots fs a = none) :
    ∃ r ∈ roots, fs.isDir r = true ∧ ∀ after, osStep calls roots fs a = some after → after.entry r = none := by
  cases a with
  | remove path recursive =>
    simp only [SparesRoots, NoRootIn, not_forall, Bool.not_eq_false] at hnot
    obtain ⟨rfl, q, hcheck, r, hr, hbelow, hdir⟩ := hnot
    have hne : q ≠ r := fun heq => (checkRemove_ok hcheck).1 (heq ▸ hr)
    have hentry : fs.entry r ≠ none := FileSystem.entry_ne_none hdir
    refine ⟨r, hr, hdir, fun after hafter => ?_⟩
    obtain rfl := Option.some.inj hafter
    have hrun : calls.removePath roots fs path true = ((calls.rmtree fs q).1, (calls.rmtree fs q).2.map .os) := by
      unfold OsCalls.removePath
      rw [hcheck]
      dsimp only
      rw [if_pos (FileSystem.isDir_above hbelow hne hentry), if_pos rfl]
    rw [OsCalls.raised, hrun, Option.map_eq_none_iff] at hdone
    rw [hrun]
    exact h.rmtree_done fs q r hdone hbelow
  | move src dest =>
    simp only [SparesRoots, NoRootIn, not_forall, Bool.not_eq_false] at hnot
    obtain ⟨q, d, hcheck, hsame, r, hr, hbelow, hdir⟩ := hnot
    refine ⟨r, hr, hdir, fun after hafter => ?_⟩
    obtain rfl := Option.some.inj hafter
    have hrun : calls.movePath roots fs src dest = ((calls.move fs q d).1, (calls.move fs q d).2.map .os) := by
      unfold OsCalls.movePath
      rw [hcheck]
    rw [OsCalls.raised, hrun, Option.map_eq_none_iff] at hdone
    rw [hrun]
    obtain ⟨hoff, hfile, hgone⟩ := h.move_done fs q d hsame hdone
    refine hgone r hbelow fun htarget => ?_
    -- the target is above what is moved, which is there
    have habove : fs.target q d <+: q := by
      rcases List.prefix_or_prefix_of_prefix hbelow htarget with h' | h'
      · exact absurd h' hoff
      · exact h'
    have hne : fs.target q d ≠ q := by
      intro heq
      rw [heq] at hoff
      exact hoff (List.prefix_refl q)
    rw [FileSystem.isDir_above habove hne (checkMove_ok hcheck).2.2] at hfile
    cases hfile

/-- A path below an allowed root is accepted unless that root is `/`; in a run that removes no directory with a root in
it, nor moves one to another place, every root stays what it was, and a call that does so loses one. -/
theorem os_confined_iff (roots : List Path) :
    (∀ fs path, (calls.validated roots fs path = .ok (calls.realpath fs path) ↔
    BelowRoot roots (calls.realpath fs path)) ↔
      ([] ∈ roots → calls.realpath fs path = [] ∨ ∃ r ∈ roots, r ≠ [] ∧ r <+: calls.realpath fs path)) ∧
    (∀ fs₀ history fs, GuardedRun (osStep calls roots) (SparesRoots calls roots) fs₀ history fs →
      ∀ r ∈ roots, fs₀.isDir r = true → fs.entry r = fs₀.entry r) ∧
    (∀ fs a, ¬SparesRoots calls roots fs a → calls.raised roots fs a = none →
      ∃ r ∈ roots, fs.isDir r = true ∧ ∀ after, osStep calls roots fs a = some after → after.entry r = none) := by
  refine ⟨fun fs path => validated_iff_below, ?_, fun fs a hnot hdone => calls.takes_root h hnot hdone⟩
  intro fs₀ history fs hrun r hr hdir
  refine hrun.invariant (I := fun fs => fs.entry r = fs₀.entry r) rfl ?_
  intro s a t hkept hspares hst
  have hthere : s.isDir r = true := by
    rw [FileSystem.isDir, hkept]
    exact hdir
  rw [osStep_keeps h hspares hst hr hthere, hkept]

end

/-! ### A file system without links -/

namespace Posix

/-- `os.path.realpath` where there are no links. -/
def realpath (_ : FileSystem) (path : Str) : Path := (pieces path).foldl addPiece []

/-- The files without what is at a path and below it. -/
def cut (fs : FileSystem) (q : Path) : FileSystem where
  entry p := if q <+: p then none else fs.entry p
  closed := by
    intro p n hthere
    by_cases hbelow : q <+: p ++ [n]
    · exact absurd (if_pos hbelow) hthere
    · rw [if_neg hbelow] at hthere
      rw [if_neg fun h => hbelow (h.trans (List.prefix_append p [n]))]
      exact fs.closed p n hthere

/-- `move` to a place in a directory that is there, at which there is nothing, or a file. -/
def Legal (fs : FileSystem) (src dest : Path) : Prop :=
  fs.entry src ≠ none ∧ ¬src <+: fs.target src dest ∧ fs.isDir (fs.target src dest) = false ∧
    (fs.isDir dest = true → fs.entry (fs.target src dest) = none) ∧ fs.isDir (fs.target src dest).dropLast = true

instance (fs : FileSystem) (src dest : Path) : Decidable (Legal fs src dest) := by
  unfold Legal
  infer_instance

/-- The files with what was at one path at another. -/
def renamed (fs : FileSystem) (src target : Path) (hoff : ¬src <+: target)
    (hdir : fs.isDir target.dropLast = true) : FileSystem where
  entry p := if target <+: p then fs.entry (src ++ p.drop target.length) else if src <+: p then none else fs.entry p
  closed := by
    intro p n hthere
    by_cases hbelow : target <+: p
    · obtain ⟨x, rfl⟩ := hbelow
      rw [if_pos (List.prefix_append target x), List.drop_left]
      rw [List.append_assoc, if_pos (List.prefix_append target _), List.drop_left, ← List.append_assoc] at hthere
      exact fs.closed _ n hthere
    · rw [if_neg hbelow]
      by_cases heq : target = p ++ [n]
      · obtain rfl : p = target.dropLast := by rw [heq, List.dropLast_concat]
        rw [if_neg fun h => hoff (h.trans (List.dropLast_prefix target))]
        exact FileSystem.isDir_iff.1 hdir
      · have hnot : ¬target <+: p ++ [n] := fun h => (List.prefix_concat_iff.1 h).elim heq hbelow
        rw [if_neg hnot] at hthere
        by_cases hsrc : src <+: p ++ [n]
        · exact absurd (if_pos hsrc) hthere
        · rw [if_neg hsrc] at hthere
          rw [if_neg fun h => hsrc (h.trans (List.prefix_append p [n]))]
          exact fs.closed p n hthere

/-- Whether the directory is empty. -/
def Vacant (fs : FileSystem) (q : Path) : Prop := ∀ n, fs.entry (q ++ [n]) = none

open Classical in
/-- The calls as they are without links. -/
noncomputable def calls : OsCalls where
  realpath := realpath
  remove fs q := if fs.isDir q then (fs, some "Is a directory".toList) else (cut fs q, none)
  rmdir fs q := if Vacant fs q then (cut fs q, none) else (fs, some "Directory not empty".toList)
  rmtree fs q := (cut fs q, none)
  move fs src dest := if fs.entry src ≠ none ∧ fs.entry src = fs.entry dest then (fs, none)
    else if h : Legal fs src dest then (renamed fs src (fs.target src dest) h.2.1 h.2.2.2.2, none)
    else (fs, some "Cannot move".toList)

private theorem cut_entry_of_not_prefix {fs : FileSystem} {q p : Path} (h : ¬q <+: p) :
    (cut fs q).entry p = fs.entry p :=
  if_neg h

theorem documented : OsDocumented calls where
  remove_frame fs q p hp := by
    dsimp only [calls]
    split
    · rfl
    · exact cut_entry_of_not_prefix hp
  rmdir_frame fs q p hp := by
    dsimp only [calls]
    split
    · exact cut_entry_of_not_prefix hp
    · rfl
  rmdir_nonempty fs q n hthere := by
    dsimp only [calls]
    rw [if_neg fun h => hthere (h n)]
  rmtree_frame fs q p hp := cut_entry_of_not_prefix hp
  rmtree_done fs q p _ hp := if_pos hp
  move_changes fs src dest p hchanged := by
    dsimp only [calls] at hchanged
    by_cases hsame : fs.entry src ≠ none ∧ fs.entry src = fs.entry dest
    · rw [if_pos hsame] at hchanged
      exact absurd rfl hchanged
    rw [if_neg hsame] at hchanged
    by_cases hlegal : Legal fs src dest
    · obtain ⟨-, -, hfile, hfree, -⟩ := id hlegal
      rw [dif_pos hlegal] at hchanged
      by_cases htarget : fs.target src dest <+: p
      · exact .inr (.inl ⟨htarget, hfile, hfree⟩)
      · by_cases hsrc : src <+: p
        · exact .inl hsrc
        · exact absurd ((if_neg htarget).trans (if_neg hsrc)) hchanged
    · rw [dif_neg hlegal] at hchanged
      exact absurd rfl hchanged
  move_same fs src dest hthere hsame := by
    dsimp only [calls]
    rw [if_pos ⟨hthere, hsame⟩]
  move_done fs src dest hother hdone := by
    have hnot : ¬(fs.entry src ≠ none ∧ fs.entry src = fs.entry dest) := fun h => hother h.2
    by_cases hlegal : Legal fs src dest
    · obtain ⟨-, hoff, hfile, -, -⟩ := id hlegal
      refine ⟨hoff, hfile, fun p hsrc htarget => ?_⟩
      dsimp only [calls]
      rw [if_neg hnot, dif_pos hlegal]
      exact (if_neg htarget).trans (if_pos hsrc)
    · dsimp only [calls] at hdone
      rw [if_neg hnot, dif_neg hlegal] at hdone
      cases hdone

/-- Directories one in the other. -/
def nested (deep : Path) : FileSystem where
  entry p := if p <+: deep then some ⟨p.length, .directory⟩ else none
  closed := by
    intro p n hthere
    by_cases hdeep : p ++ [n] <+: deep
    · exact ⟨p.length, if_pos ((List.prefix_append p [n]).trans hdeep)⟩
    · exact absurd (if_neg hdeep) hthere

def srv : Name := ⟨"srv".toList, by decide, by decide, by decide, by decide⟩

def files : Name := ⟨"files".toList, by decide, by decide, by decide, by decide⟩

def share : Name := ⟨"share".toList, by decide, by decide, by decide, by decide⟩

/-- The directory `/srv/files/share`. -/
def tree : FileSystem := nested [srv, files, share]

theorem os_confined_iff_share :
    calls.validated [[srv]] tree "/srv/files".toList = .ok [srv, files] ∧
      ∃ history fs, GuardedRun (osStep calls [[srv]]) (SparesRoots calls [[srv]]) tree history fs ∧
        fs.entry [srv, files] = none ∧ fs.entry [srv] = tree.entry [srv] := by
  obtain ⟨haccepts, hkeeps, -⟩ := os_confined_iff documented [[srv]]
  have hresolved : calls.realpath tree "/srv/files".toList = [srv, files] := by
    change (pieces "/srv/files".toList).foldl addPiece [] = [srv, files]
    decide +kernel
  have haccepted := (haccepts tree "/srv/files".toList).2 fun hroot =>
    absurd hroot (by decide)
  rw [hresolved] at haccepted
  have hvalid := haccepted.2 ⟨[srv], List.mem_singleton.2 rfl, [files], rfl⟩
  have hcheck : calls.checkRemove [[srv]] tree "/srv/files".toList = .ok [srv, files] := by
    unfold OsCalls.checkRemove
    rw [hvalid]
    decide +kernel
  have hspares : SparesRoots calls [[srv]] tree (.remove "/srv/files".toList true) := by
    intro _ q hq r hr hbelow
    obtain rfl := Except.ok.inj (hcheck.symm.trans hq)
    obtain rfl := List.mem_singleton.1 hr
    exact absurd hbelow (by decide)
  have hrun : GuardedRun (osStep calls [[srv]]) (SparesRoots calls [[srv]]) tree
      ([] ++ [⟨tree, .remove "/srv/files".toList true, (calls.removePath [[srv]] tree "/srv/files".toList true).1⟩])
      (calls.removePath [[srv]] tree "/srv/files".toList true).1 := .step .start hspares rfl
  refine ⟨hvalid, _, _, hrun, ?_, hkeeps _ _ _ hrun [srv] (List.mem_singleton.2 rfl) (by decide)⟩
  unfold OsCalls.removePath
  rw [hcheck]
  decide +kernel

/-- With `/` allowed nothing but `/` is accepted, and a root in another goes with the directory that it is in. -/
theorem share_lost :
    (∃ roots fs path, BelowRoot roots (calls.realpath fs path) ∧
      calls.validated roots fs path ≠ .ok (calls.realpath fs path)) ∧
    ∃ roots fs₀ history fs r, Run (osStep calls roots) fs₀ history fs ∧ r ∈ roots ∧ fs₀.isDir r = true ∧
      fs.entry r = none := by
  constructor
  · refine ⟨[[]], nested [srv], "/srv".toList, ⟨[], List.mem_singleton.2 rfl, List.nil_prefix⟩, fun haccepted => ?_⟩
    obtain ⟨-, r, hr, hrest⟩ := validated_eq_ok_iff.1 haccepted
    obtain rfl := List.mem_singleton.1 hr
    rcases hrest with hroot | ⟨hroot, -⟩
    · have hresolved : [] = (pieces "/srv".toList).foldl addPiece [] := hroot
      exact absurd hresolved (by decide +kernel)
    · exact hroot rfl
  · refine ⟨[[srv], [srv, files, share]], tree, _, _, [srv, files, share],
      GuardedRun.step (a := .remove "/srv/files".toList true) GuardedRun.start trivial rfl, by decide, by decide, ?_⟩
    have hresolved : calls.realpath tree "/srv/files".toList = [srv, files] := by
      change (pieces "/srv/files".toList).foldl addPiece [] = [srv, files]
      decide +kernel
    have hvalid : calls.validated [[srv], [srv, files, share]] tree "/srv/files".toList =
        .ok [srv, files] := validated_eq_ok_iff.2 ⟨hresolved, [srv], by decide, .inr ⟨by decide, [files], rfl⟩⟩
    have hcheck : calls.checkRemove [[srv], [srv, files, share]] tree "/srv/files".toList =
        .ok [srv, files] := by
      unfold OsCalls.checkRemove
      rw [hvalid]
      decide +kernel
    unfold OsCalls.removePath
    rw [hcheck]
    decide +kernel

end Posix

end CliServer
