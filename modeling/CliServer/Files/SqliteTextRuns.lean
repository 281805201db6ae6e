import CliServer.Files.SqliteRuns
import CliServer.Files.SqliteTexts

/-!
# Runs of the SQLite provider on Python's texts

Which calls leave the rows a tree (`SqliteFileStorage.Keeps`): those of the paths in `SqliteRuns`, and all whose path
or text cannot be encoded, which raise when at most directories were made.
-/

namespace CliServer

open Json (Text ofChars)
open NamedTree Transition

/-- The calls that may change something; `upload_file` is `write_file` of bytes. -/
inductive SqliteCall where
  | writeFile (path : Text) (content : FileContent)
  | mkdir (path : Text) (recursive : Bool)
  | remove (path : Text) (recursive : Bool)
  | copy (src dest : Text)
  | move (src dest : Text)

namespace SqliteFileStorage

open SegmentPath (IsName)
open Sqlite (Leaves)

variable {t t' : Table} {kept : Prop}

/-- One call: the table it leaves, and what it raises. -/
def call (t : Table) : SqliteCall → Table × Option StatementError
  | .writeFile path content => writeFile t path content
  | .mkdir path recursive => mkdir t path recursive
  | .remove path recursive => remove t path recursive
  | .copy src dest => copy t src dest
  | .move src dest => move t src dest

def step (t : Table) (c : SqliteCall) : Option Table := some (call t c).1

/-- The call leaves the rows a tree. -/
def Keeps (view : FileView Str) : SqliteCall → Prop
  | .writeFile path content => bind? content.decoded ≠ none → ∀ d, place? path = some d → Sqlite.WriteKeeps view d
  | .mkdir _ _ => True
  | .remove path recursive => recursive = true → ∀ d, place? path = some d → Sqlite.RemoveKeeps .sqlite view d
  | .copy src dest => ∀ s d, place? src = some s → place? dest = some d → Sqlite.CopyKeeps .sqlite view s d
  | .move src dest => ∀ s d, place? src = some s → place? dest = some d → Sqlite.MoveKeeps .sqlite view s d

/-- `LIKE` finds only what is below the source of a copy or a move, where it is asked. -/
def Exact (view : FileView Str) : SqliteCall → Prop
  | .copy src dest => ∀ s d, place? src = some s → place? dest = some d →
    view s = some .node → Like.sqlite.refuses (below (key s)) = false → Sqlite.CopyExact .sqlite view s d
  | .move src dest => ∀ s d, place? src = some s → place? dest = some d →
    Like.sqlite.refuses (below (key s)) = false → Sqlite.MoveExact .sqlite view s d
  | _ => True

/-- The directories that are made before a name that cannot be encoded leave the rows a tree. -/
private theorem stopped_leaves (hformed : t.Formed) (hclosed : Closed t.view) (names : List Text) (hkept : kept) :
    Leaves (stopped t names) kept := by
  -- the loop ends with its last name or at a file: either way what it has made are directories below each other
  have hmade : ∃ p, Sqlite.Made t (stopped t names) (Sqlite.directoryKeys [] p) := by
    rcases Sqlite.makeParents_cases t [] (leading names) with
      ⟨t', hrun, hmade⟩ | ⟨t', p, n, rest, content, -, hrun, hmade, -⟩
    · exact ⟨_, by rw [stopped, ← joined_nil, hrun]; exact hmade⟩
    · exact ⟨_, by rw [stopped, ← joined_nil, hrun]; exact hmade⟩
  obtain ⟨p, hmade⟩ := hmade
  refine .of_closed (Sqlite.makeParents_formed hformed [] (leading names)) ?_ hkept
  rw [hmade.view_eq]
  exact hclosed.withParents hmade.not_blocked

section Leaves

variable (hformed : t.Formed) (hclosed : Closed t.view)
include hformed hclosed

private theorem unchanged_leaves (h : t' = t ∨ ∃ names, t' = stopped t names) (hkept : kept) : Leaves t' kept := by
  rcases h with rfl | ⟨names, rfl⟩
  · exact .of_closed hformed hclosed hkept
  · exact stopped_leaves hformed hclosed names hkept

private theorem writeFile_leaves (path : Text) (content : FileContent) :
    Leaves (writeFile t path content).1 (Keeps t.view (.writeFile path content)) := by
  cases hraw : bind? content.decoded with
  | none => exact unchanged_leaves hformed hclosed (writeFile_of_none (.inl hraw)) fun hbind => absurd hraw hbind
  | some raw =>
    cases hplace : place? path with
    | none =>
      refine unchanged_leaves hformed hclosed (writeFile_of_none (.inr hplace)) fun _ d hd => ?_
      cases hplace.symm.trans hd
    | some d =>
      have hwrite := Sqlite.writeAt_leaves hformed hclosed d [] raw
      rw [(writeFile_agrees hraw hplace []).1]
      refine ⟨hwrite.formed, hwrite.closed_iff.trans ?_⟩
      simp [Keeps, hraw, hplace]

private theorem mkdir_leaves (path : Text) (recursive : Bool) : Leaves (mkdir t path recursive).1 True := by
  cases hplace : place? path with
  | none => exact unchanged_leaves hformed hclosed (mkdir_of_none hplace) trivial
  | some d =>
    rw [(mkdir_agrees hplace []).1]
    exact Sqlite.mkdirAt_leaves hformed hclosed d [] recursive

private theorem remove_leaves (path : Text) (recursive : Bool) :
    Leaves (remove t path recursive).1 (Keeps t.view (.remove path recursive)) := by
  cases hplace : place? path with
  | none =>
    refine unchanged_leaves hformed hclosed (.inl (remove_of_none hplace)) fun _ d hd => ?_
    cases hplace.symm.trans hd
  | some d =>
    have hremove := Sqlite.removeAt_leaves .sqlite hformed hclosed d [] recursive
    rw [(remove_agrees hplace []).1]
    refine ⟨hremove.formed, hremove.closed_iff.trans ?_⟩
    simp [Keeps, hplace]

private theorem copy_leaves (src dest : Text) (hexact : Exact t.view (.copy src dest)) :
    Leaves (copy t src dest).1 (Keeps t.view (.copy src dest)) := by
  by_cases hnone : place? src = none ∨ place? dest = none
  · refine unchanged_leaves hformed hclosed (copy_of_none hnone) fun s d hs hd => ?_
    simp [hs, hd] at hnone
  · obtain ⟨hsrc, hdest⟩ := not_or.1 hnone
    obtain ⟨s, hs⟩ := Option.ne_none_iff_exists'.1 hsrc
    obtain ⟨d, hd⟩ := Option.ne_none_iff_exists'.1 hdest
    have hcopy := Sqlite.copyAt_leaves .sqlite hformed hclosed s d [] [] (hexact s d hs hd)
    rw [(copy_agrees hs hd [] []).1]
    refine ⟨hcopy.formed, hcopy.closed_iff.trans ?_⟩
    simp [Keeps, hs, hd]

private theorem move_leaves (src dest : Text) (hexact : Exact t.view (.move src dest)) :
    Leaves (move t src dest).1 (Keeps t.view (.move src dest)) := by
  by_cases hnone : place? src = none ∨ place? dest = none
  · refine unchanged_leaves hformed hclosed (move_of_none hnone) fun s d hs hd => ?_
    simp [hs, hd] at hnone
  · obtain ⟨hsrc, hdest⟩ := not_or.1 hnone
    obtain ⟨s, hs⟩ := Option.ne_none_iff_exists'.1 hsrc
    obtain ⟨d, hd⟩ := Option.ne_none_iff_exists'.1 hdest
    have hmove := Sqlite.moveAt_leaves .sqlite hformed hclosed s d [] [] (hexact s d hs hd)
    rw [(move_agrees hs hd [] []).1]
    refine ⟨hmove.formed, hmove.closed_iff.trans ?_⟩
    simp [Keeps, hs, hd]

private theorem call_leaves (c : SqliteCall) (hexact : Exact t.view c) : Leaves (call t c).1 (Keeps t.view c) := by
  cases c with
  | writeFile path content => exact writeFile_leaves hformed hclosed path content
  | mkdir path recursive => exact mkdir_leaves hformed hclosed path recursive
  | remove path recursive => exact remove_leaves hformed hclosed path recursive
  | copy src dest => exact copy_leaves hformed hclosed src dest hexact
  | move src dest => exact move_leaves hformed hclosed src dest hexact

end Leaves

/-! ### What is asked -/

private theorem mapError_eq_ok_iff {ε ε' α : Type*} {f : ε → ε'} {r : Except ε α} {a : α} :
    r.mapError f = .ok a ↔ r = .ok a := by
  cases r <;> simp [Except.mapError]

section Queries

variable {path : Text} {p : Path}

private theorem exists_of_place (hplace : place? path = some p) : exists_ t path = .ok (t.select (key p)).isSome := by
  rw [exists_, bind_of_place hplace]

private theorem stat_of_place (hplace : place? path = some p) {entry : FileEntry} :
    stat t path = .ok entry ↔ Sqlite.statAt t (key p) path = .ok entry := by
  rw [stat, bind_of_place hplace]
  exact mapError_eq_ok_iff

private theorem list_of_place (hplace : place? path = some p) {entries : List FileEntry} :
    list t path = .ok entries ↔ Sqlite.listAt t (key p) path = .ok entries := by
  rw [list, bind_of_place hplace]
  exact mapError_eq_ok_iff

/-- A path below a directory, by a name that can be encoded. -/
private theorem place_append {dir : Text} {d : Path} {name : Str} (hdir : place? dir = some d)
    (hnames : sqlNames path = sqlNames dir ++ [ofChars name]) : ∃ n, n.text = name ∧ place? path = some (d ++ [n]) := by
  have hname : IsName slashPoint dotPoint (ofChars name) := by
    have hmem : ofChars name ∈ sqlNames path := by rw [hnames]; simp
    exact isName_of_mem_sqlNames hmem
  cases hn : name? (ofChars name) with
  | none =>
    have hbind := (name_eq_none_iff hname).1 hn
    rw [bind_ofChars] at hbind
    cases hbind
  | some n =>
    have hspelled := name_eq_some_iff.1 hn
    refine ⟨n, ofChars_injective hspelled.symm, place_eq_some_iff.2 ?_⟩
    rw [hnames, place_eq_some_iff.1 hdir, hspelled, List.map_append, List.map_singleton]

/-- `exists`, `stat` and `list` agree on what there is. -/
theorem queries_agree (hformed : t.Formed) (hclosed : Closed t.view) (path : Text) :
    (exists_ t path = .ok true ↔ ∃ entry, stat t path = .ok entry) ∧
    ∀ dir n, sqlNames path = sqlNames dir ++ [n] →
      (∀ entry, stat t path = .ok entry →
        ∃ entries, list t dir = .ok entries ∧ entry ∈ entries ∧ ofChars entry.name = n) ∧
      ∀ entries, list t dir = .ok entries → (∃ entry ∈ entries, ofChars entry.name = n) →
        exists_ t path = .ok true := by
  cases hplace : place? path with
  | none =>
    have hraises : bind? (normalFormSql path) = none := by rw [bind_normalFormSql, hplace, Option.map_none]
    have hexists : exists_ t path = .error .unicodeEncode := by rw [exists_, hraises]
    have hstat : stat t path = .error .unicodeEncode := by rw [stat, hraises]
    rw [hexists, hstat]
    refine ⟨by simp, fun dir n hnames => ⟨by simp, ?_⟩⟩
    rintro entries hlist ⟨entry, -, rfl⟩
    cases hdir : place? dir with
    | none =>
      rw [list, bind_normalFormSql, hdir] at hlist
      cases hlist
    | some d =>
      obtain ⟨n, -, hthere⟩ := place_append hdir hnames
      cases hplace.symm.trans hthere
  | some p =>
    obtain ⟨hexists, hlists⟩ := Table.queries_agree hformed hclosed p path
    simp only [exists_of_place hplace, stat_of_place hplace, Except.ok.injEq]
    refine ⟨hexists, fun dir n hnames => ?_⟩
    rw [place_eq_some_iff.1 hplace] at hnames
    obtain ⟨d, last, rfl, hd, hlast⟩ := List.map_eq_append_iff.1 hnames
    obtain ⟨n, rfl, rfl⟩ := List.map_eq_singleton_iff.1 hlast
    obtain ⟨hlisted, hfound⟩ := hlists d n dir rfl
    have hdir : place? dir = some d := place_eq_some_iff.2 hd.symm
    have hname : ∀ entry : FileEntry, ofChars entry.name = n.spelled ↔ entry.name = n.text :=
      fun entry => ofChars_injective.eq_iff
    simp only [list_of_place hdir, hname]
    exact ⟨hlisted, hfound⟩

end Queries

/-- In every run whose calls all keep it, the rows are a tree in every state, and `exists`, `stat` and `list` agree on
what there is; and where `LIKE` finds only what is below the source, a call leaves a tree with its root exactly if it
keeps it. -/
theorem rows_form_tree {history : List (Move Table SqliteCall)}
    (h : GuardedRun step (fun t c => Exact t.view c ∧ Keeps t.view c) Sqlite.initial history t) :
    (t.IsTree ∧ ∀ path : Text,
      (exists_ t path = .ok true ↔ ∃ entry, stat t path = .ok entry) ∧
      ∀ dir n, sqlNames path = sqlNames dir ++ [n] →
        (∀ entry, stat t path = .ok entry →
          ∃ entries, list t dir = .ok entries ∧ entry ∈ entries ∧ ofChars entry.name = n) ∧
        ∀ entries, list t dir = .ok entries → (∃ entry ∈ entries, ofChars entry.name = n) →
          exists_ t path = .ok true) ∧
    ∀ c, Exact t.view c → ((call t c).1.IsTree ∧ (call t c).1.view [] = some .node ↔ Keeps t.view c) := by
  -- every row spells its place, and what is there is closed: kept by each call that meets the condition
  have hkept : t.Formed ∧ Closed t.view := by
    refine h.invariant (I := fun t => t.Formed ∧ Closed t.view) ⟨Sqlite.initial_formed, Sqlite.initial_closed⟩ ?_
    intro t c t' ⟨hformed, hclosed⟩ ⟨hexact, hkeeps⟩ hst
    obtain rfl := Option.some.inj hst
    have hleaves := call_leaves hformed hclosed c hexact
    exact ⟨hleaves.formed, hleaves.closed_iff.2 hkeeps⟩
  obtain ⟨hformed, hclosed⟩ := hkept
  refine ⟨⟨(hformed.isTree_iff hclosed.root).2 hclosed, queries_agree hformed hclosed⟩, fun c hexact => ?_⟩
  have hleaves := call_leaves hformed hclosed c hexact
  rw [← hleaves.closed_iff]
  constructor
  · rintro ⟨htree, hroot⟩
    exact (hleaves.formed.isTree_iff hroot).1 htree
  · intro hclosed'
    exact ⟨(hleaves.formed.isTree_iff hclosed'.root).2 hclosed', hclosed'.root⟩

/-- A file is written, an empty directory is made and removed, and a file is copied to a name that cannot be encoded,
whose directory is made. -/
theorem rows_form_tree_write :
    ∃ history t, GuardedRun step (fun t c => Exact t.view c ∧ Keeps t.view c) Sqlite.initial history t ∧ t.IsTree ∧
      exists_ t (ofChars "/d/x".toList) = .ok true ∧ exists_ t (ofChars "/n".toList) = .ok true := by
  let write := SqliteCall.writeFile (ofChars "/d/x".toList) (.text (ofChars "1".toList))
  let make := SqliteCall.mkdir (ofChars "/e".toList) false
  let drop := SqliteCall.remove (ofChars "/e".toList) true
  let copyTo := SqliteCall.copy (ofChars "/d/x".toList) (ofChars "/n/".toList ++ [0xD800])
  let t₁ := (call Sqlite.initial write).1
  let t₂ := (call t₁ make).1
  let t₃ := (call t₂ drop).1
  let t₄ := (call t₃ copyTo).1
  have hplace : ∀ {path : Str} {d : Path}, place? (ofChars path) = some d → d = sqlParts path := by
    intro path d hd
    rw [place_ofChars] at hd
    exact (Option.some.inj hd).symm
  have hkept : Sqlite.ParentKept Sqlite.initial.view (sqlParts "/d/x".toList) := by
    right
    decide +kernel
  have hdown : Sqlite.GoneDown .sqlite t₂.view (sqlParts "/e".toList) :=
    Sqlite.goneDown_sqlite _ (by decide +kernel) (by decide +kernel)
  have hwrite : Keeps Sqlite.initial.view write := by
    intro _ d hd
    rw [hplace hd]
    exact .inr (.inr hkept)
  have hdrop : Keeps t₂.view drop := by
    intro _ d hd
    rw [hplace hd]
    exact .inr (.inr (.inr hdown))
  have hnone : place? (ofChars "/n/".toList ++ [0xD800]) = none := by decide +kernel
  have hrun : GuardedRun step (fun t c => Exact t.view c ∧ Keeps t.view c) Sqlite.initial
      ([] ++ [⟨Sqlite.initial, write, t₁⟩] ++ [⟨t₁, make, t₂⟩] ++ [⟨t₂, drop, t₃⟩] ++ [⟨t₃, copyTo, t₄⟩]) t₄ := by
    refine .step (.step (.step (.step .start ⟨trivial, hwrite⟩ rfl) ⟨trivial, trivial⟩ rfl) ⟨trivial, hdrop⟩ rfl)
      ⟨fun s d _ hd => ?_, fun s d _ hd => ?_⟩ rfl
    · rw [hnone] at hd
      cases hd
    · rw [hnone] at hd
      cases hd
  exact ⟨_, _, hrun, (rows_form_tree hrun).1.1, by decide +kernel, by decide +kernel⟩

/-- A file copied over a directory: the file in the directory stays, and the row of its parent is that of a file. -/
theorem rows_form_tree_broken :
    ∃ history t, Run step Sqlite.initial history t ∧ ¬t.IsTree := by
  have hexec : (exec step Sqlite.initial
      [.writeFile (ofChars "/d/x".toList) (.text (ofChars "1".toList)),
        .writeFile (ofChars "/a".toList) (.text (ofChars "2".toList)),
        .copy (ofChars "/a".toList) (ofChars "/d".toList)]).any (fun x =>
          (x.2.select "/d/x".toList).any (fun row => row.parentPath = some "/d".toList) &&
          (x.2.select "/d".toList).any (fun row => row.type = .file)) = true := by decide +kernel
  obtain ⟨⟨history, t⟩, hrun, hrows⟩ := (Option.any_eq_true _ _).1 hexec
  refine ⟨history, t, run_of_exec hrun, fun htree => ?_⟩
  simp only [Bool.and_eq_true, Option.any_eq_true, decide_eq_true_eq] at hrows
  obtain ⟨⟨row, hselect, hparent⟩, parentRow, hselectParent, htype⟩ := hrows
  obtain ⟨hmem, hpath⟩ := Table.mem_rows_of_select hselect
  obtain ⟨parent, found, hsame, hfound, hdirectory, -⟩ := htree.parent row hmem (by rw [hpath]; decide)
  obtain rfl := Option.some.inj (hparent.symm.trans hsame)
  obtain rfl := Option.some.inj (hselectParent.symm.trans hfound)
  rw [htype] at hdirectory
  cases hdirectory

end SqliteFileStorage

end CliServer
