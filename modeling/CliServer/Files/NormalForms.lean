import CliServer.CodePoints
import CliServer.Files.JsonNodes
import CliServer.Files.S3
import CliServer.Files.SqliteProvider
import CliServer.Files.SqliteRows
import CliServer.Lib.SegmentPaths

/-!
# Normal forms of paths

The text that `_normalize_path` of each provider gives.  Its segments are names, and it does not lead out of the root;
but white space is stripped before the segments are resolved, so that a segment with blanks at its ends can come to
stand at an end of the normal form.  The normal form is that of itself exactly when this does not happen
(`normalize_canonical_iff`), and then `_ensure_parents`, which normalises again, makes the directory that was meant.
-/

namespace CliServer

open Json (CodePoint Text ofChar ofChars)
open SegmentPath (EndsClean FirstKept IsName LastKept StartsClean join)
open StackWord (Keeps)

/-- What `_normalize_path` of the in-memory, the JSON and the S3 provider returns. -/
def normalForm (path : Text) : Text := [slashPoint].intercalate (normalizeText path)

/-- What `_normalize_path` of the SQLite provider returns. -/
def normalFormSql (path : Text) : Text :=
  let path := stripText path
  if path = [] ∨ path = [dotPoint] ∨ path = [slashPoint] then [slashPoint]
  else
    let parts := (path.splitOn slashPoint).foldl addSegment []
    if parts = [] then [slashPoint] else [slashPoint] ++ [slashPoint].intercalate parts

/-- The providers that have a `_normalize_path`. -/
inductive PathProvider where
  | inMemory
  | json
  | s3
  | sqlite

namespace PathProvider

/-- `_normalize_path`. -/
def normalize : PathProvider → Text → Text
  | inMemory => normalForm
  | json => normalForm
  | s3 => normalForm
  | sqlite => normalFormSql

/-- The normal form of the root. -/
def root : PathProvider → Text
  | sqlite => [slashPoint]
  | _ => []

/-- What is left of a path when its ends are stripped, before it is split. -/
def stripped : PathProvider → Text → Text
  | sqlite, path => stripText path
  | _, path => stripText (stripBy (· = slashPoint) path)

/-- The segments of a normal form, after the root. -/
def segmentsOf (provider : PathProvider) (norm : Text) : List Text :=
  if norm = provider.root then [] else (norm.drop provider.root.length).splitOn slashPoint

/-- The normal form of a path is as it is to be. -/
structure Canonical (provider : PathProvider) (path : Text) : Prop where
  rooted : provider.root <+: provider.normalize path
  names : ∀ segment ∈ provider.segmentsOf (provider.normalize path),
    segment ≠ [] ∧ segment ≠ [dotPoint] ∧ segment ≠ [dotPoint, dotPoint]
  /-- Whoever walks along it from the root does not go above the root. -/
  inside : Keeps ((provider.segmentsOf (provider.normalize path)).map (SegmentPath.step dotPoint))
  fixed : provider.normalize (provider.normalize path) = provider.normalize path

/-- The first name that is kept of the path does not begin with a blank. -/
def CleanStart (path : Text) : Prop :=
  ∀ name, FirstKept slashPoint dotPoint path name → ∀ c ∈ name.head?, isSpacePoint c = false

/-- The last name that is kept of the path does not end in a blank. -/
def CleanEnd (path : Text) : Prop :=
  ∀ name, LastKept slashPoint dotPoint path name → ∀ c ∈ name.getLast?, isSpacePoint c = false

/-- No blank comes to stand at an end of the normal form; a slash before it keeps its beginning. -/
def Clean (provider : PathProvider) (path : Text) : Prop :=
  (provider ≠ sqlite → CleanStart (provider.stripped path)) ∧ CleanEnd (provider.stripped path)

end PathProvider

/-! ### The names of a path -/

private theorem addSegment_eq (parts : List Text) (segment : Text) :
    addSegment parts segment = (SegmentPath.step dotPoint segment).apply parts := by
  unfold addSegment SegmentPath.step
  split
  · rfl
  · split <;> rfl

/-- The names that are left of a path. -/
abbrev namesOf (path : Text) : List Text := SegmentPath.resolve slashPoint dotPoint path

theorem isName_of_mem_namesOf {path name : Text} (h : name ∈ namesOf path) : IsName slashPoint dotPoint name :=
  SegmentPath.isName_of_mem_resolve h

private theorem foldl_addSegment (path : Text) :
    (path.splitOn slashPoint).foldl addSegment [] = namesOf path := by
  have hstep : addSegment = fun parts segment => (SegmentPath.step dotPoint segment).apply parts :=
    funext fun parts => funext fun segment => addSegment_eq parts segment
  rw [hstep, namesOf, SegmentPath.resolve, StackWord.run, List.foldl_map]

/-- The texts that are left out before the loop have no names. -/
private theorem namesOf_trivial {path : Text} (h : path = [] ∨ path = [dotPoint] ∨ path = [slashPoint]) :
    namesOf path = [] := by
  rcases h with rfl | rfl | rfl <;> decide

private theorem normalizeText_eq (path : Text) :
    normalizeText path = namesOf (PathProvider.inMemory.stripped path) := by
  change (if _ then _ else _) = _
  split
  · next h => exact (namesOf_trivial (h.imp_right .inl)).symm
  · exact foldl_addSegment _

theorem normalFormSql_eq (path : Text) :
    normalFormSql path = slashPoint :: join slashPoint (namesOf (PathProvider.sqlite.stripped path)) := by
  change (if _ then _ else _) = _
  split
  · next h =>
    rw [PathProvider.stripped, namesOf_trivial h]
    rfl
  · rw [foldl_addSegment]
    split
    · next hnil =>
      rw [PathProvider.stripped, hnil]
      rfl
    · rfl

namespace PathProvider

/-- The normal form of a path is that of the root, with the names of the path after it. -/
private theorem normalize_eq (provider : PathProvider) (path : Text) :
    provider.normalize path = provider.root ++ join slashPoint (namesOf (provider.stripped path)) := by
  cases provider with
  | sqlite => exact normalFormSql_eq path
  | _ => exact congrArg (join slashPoint) (normalizeText_eq path)

private theorem segmentsOf_normalize (provider : PathProvider) (path : Text) :
    provider.segmentsOf (provider.normalize path) = namesOf (provider.stripped path) := by
  have hnames : ∀ name ∈ namesOf (provider.stripped path), IsName slashPoint dotPoint name :=
    fun name => isName_of_mem_namesOf
  have hroot : provider.root ++ join slashPoint (namesOf (provider.stripped path)) = provider.root ↔
      namesOf (provider.stripped path) = [] := by
    rw [List.append_right_eq_self, SegmentPath.join_eq_nil_iff fun name hname => (hnames name hname).ne_nil]
  rw [segmentsOf, normalize_eq, List.drop_left]
  by_cases hnil : namesOf (provider.stripped path) = []
  · rw [if_pos (hroot.2 hnil), hnil]
  · rw [if_neg (mt hroot.1 hnil), SegmentPath.splitOn_join hnames hnil]

/-- No slash is stripped from names that are joined. -/
theorem trim_slash_join {names : List Text} (h : ∀ n ∈ names, IsName slashPoint dotPoint n) :
    stripBy (· = slashPoint) (join slashPoint names) = join slashPoint names := by
  refine (SegmentPath.trim_join_eq_iff fun n hn => (h n hn).ne_nil).2 ⟨fun n hn c hc => ?_, fun n hn c hc => ?_⟩
  · refine decide_eq_false ?_
    rintro rfl
    exact (h n (List.mem_of_mem_head? hn)).no_sep (List.mem_of_mem_head? hc)
  · refine decide_eq_false ?_
    rintro rfl
    exact (h n (List.mem_of_mem_getLast? hn)).no_sep (List.mem_of_mem_getLast? hc)

private theorem cleanStart_iff {path : Text} : CleanStart path ↔ StartsClean isSpacePoint (namesOf path) :=
  forall_congr' fun _ => imp_congr_left SegmentPath.head?_resolve.symm

private theorem cleanEnd_iff {path : Text} : CleanEnd path ↔ EndsClean isSpacePoint (namesOf path) :=
  forall_congr' fun _ => imp_congr_left SegmentPath.getLast?_resolve.symm

/-- Names that are joined without a slash before them are stripped of blanks at both ends. -/
private theorem normalForm_join_iff {names : List Text} (h : ∀ n ∈ names, IsName slashPoint dotPoint n) :
    normalForm (join slashPoint names) = join slashPoint names ↔
      StartsClean isSpacePoint names ∧ EndsClean isSpacePoint names := by
  have hform : normalForm (join slashPoint names) =
      join slashPoint (namesOf (stripText (join slashPoint names))) := by
    rw [normalForm, normalizeText_eq, stripped, trim_slash_join h]
    · rfl
    · exact fun heq => nomatch heq
  rw [hform]
  exact SegmentPath.join_resolve_trim_eq_iff h

/-- With a slash before them, only at the end. -/
private theorem normalFormSql_join_iff {names : List Text} (h : ∀ n ∈ names, IsName slashPoint dotPoint n) :
    normalFormSql (slashPoint :: join slashPoint names) = slashPoint :: join slashPoint names ↔
      EndsClean isSpacePoint names := by
  rw [normalFormSql_eq]
  exact SegmentPath.cons_join_resolve_trim_eq_iff (by decide) h

/-- A normal form is that of itself when no blank stands at its ends. -/
private theorem fixed_iff (provider : PathProvider) (path : Text) :
    provider.normalize (provider.normalize path) = provider.normalize path ↔ provider.Clean path := by
  have hnames : ∀ name ∈ namesOf (provider.stripped path), IsName slashPoint dotPoint name :=
    fun name => isName_of_mem_namesOf
  rw [Clean, cleanStart_iff, cleanEnd_iff, normalize_eq provider path]
  generalize namesOf (provider.stripped path) = names at hnames
  cases provider with
  | sqlite =>
    refine (normalFormSql_join_iff hnames).trans ⟨fun hend => ⟨fun hne => absurd rfl hne, hend⟩, And.right⟩
  | _ =>
    refine (normalForm_join_iff hnames).trans (and_congr_left' ⟨fun hstart _ => hstart, fun hstart => hstart ?_⟩)
    exact fun heq => nomatch heq

private theorem canonical_iff (provider : PathProvider) (path : Text) :
    provider.Canonical path ↔ provider.Clean path := by
  have hnames : ∀ name ∈ namesOf (provider.stripped path), IsName slashPoint dotPoint name :=
    fun name => isName_of_mem_namesOf
  rw [← fixed_iff]
  constructor
  · exact Canonical.fixed
  · intro hfixed
    refine ⟨?_, ?_, ?_, hfixed⟩
    · rw [normalize_eq]
      exact List.prefix_append _ _
    · rw [segmentsOf_normalize]
      intro segment hmem
      have hname := hnames segment hmem
      exact ⟨hname.ne_nil, hname.ne_dot, hname.ne_dots⟩
    · rw [segmentsOf_normalize]
      exact SegmentPath.keeps_map_step hnames

end PathProvider

/-! ### Texts without surrogates -/

private theorem stripSlashes_ofChars (path : Str) :
    stripBy (· = slashPoint) (ofChars path) = ofChars (stripSlashes path) := by
  have hslash : (fun c => decide (c = slashPoint)) ∘ ofChar = fun c => decide (c = '/') := by
    funext c
    exact decide_eq_decide.2 ⟨fun h => Json.ofChar_injective h, congrArg ofChar⟩
  have hmap := SegmentPath.trim_map (fun c => decide (c = slashPoint)) path (f := ofChar)
  rw [hslash] at hmap
  exact hmap

private theorem text_addPiece (parts : Path) (piece : Piece) :
    (addPiece parts piece).map Name.text = (SegmentPath.step '.' piece.1).apply (parts.map Name.text) := by
  unfold addPiece SegmentPath.step
  split
  · rfl
  · split
    · exact List.map_dropLast
    · exact List.map_append

private theorem text_pieces (path : Str) :
    ((pieces path).foldl addPiece []).map Name.text = SegmentPath.resolve '/' '.' path := by
  have hloop : ∀ (l : List Piece) (parts : Path), (l.foldl addPiece parts).map Name.text =
      StackWord.run (parts.map Name.text) ((l.map Subtype.val).map (SegmentPath.step '.')) := by
    intro l
    induction l with
    | nil => exact fun _ => rfl
    | cons piece l ih =>
      intro parts
      rw [List.foldl_cons, ih, text_addPiece]
      rfl
  have hval : (pieces path).map Subtype.val = path.splitOn '/' := by simp [pieces]
  rw [hloop, hval]
  rfl

private theorem text_normalizePath (path : Str) :
    (normalizePath path).map Name.text = SegmentPath.resolve '/' '.' (strip (stripSlashes path)) := by
  rw [normalizePath]
  split
  · next h => rcases h with h | h <;> rw [h] <;> decide
  · exact text_pieces _

theorem text_sqlParts (path : Str) :
    (sqlParts path).map Name.text = SegmentPath.resolve '/' '.' (strip path) := by
  rw [sqlParts]
  split
  · next h => rcases h with h | h | h <;> rw [h] <;> decide
  · exact text_pieces _

theorem namesOf_ofChars (path : Str) : namesOf (ofChars path) = (SegmentPath.resolve '/' '.' path).map ofChars :=
  SegmentPath.resolve_map (fun _ _ => Json.ofChar_injective) path

theorem normalForm_ofChars (path : Str) : normalForm (ofChars path) = ofChars (S3.normalize path) := by
  rw [normalForm, normalizeText_eq, PathProvider.stripped, stripSlashes_ofChars, stripText_ofChars, namesOf_ofChars,
    ← text_normalizePath]
  · exact SegmentPath.join_map ofChar '/' _
  · exact fun heq => nomatch heq

private theorem normalFormSql_ofChars (path : Str) : normalFormSql (ofChars path) = ofChars (normalizeSql path) := by
  rw [normalFormSql_eq, PathProvider.stripped, stripText_ofChars, namesOf_ofChars, ← text_sqlParts, normalizeSql,
    key_eq_cons]
  exact congrArg (slashPoint :: ·) (SegmentPath.join_map ofChar '/' _)

/-! ### `_ensure_parents` -/

/-- On an empty table the directories of the names are made. -/
theorem Sqlite.ensureParents_empty (path : Str) : ∃ t', ensureParents ⟨[], List.nodup_nil⟩ path = (t', none) ∧
    ∀ k, t'.kindAt k = some .node ↔ k ∈ directoryKeys [] (sqlParts path) := by
  have hempty : ∀ k, Table.kindAt ⟨[], List.nodup_nil⟩ k = none := fun _ => rfl
  rcases ensureParents_cases ⟨[], List.nodup_nil⟩ path with ⟨t', hrun, -, hkind⟩ | ⟨_, _, _, _, _, _, _, _, _, hleaf⟩
  · refine ⟨t', hrun, fun k => ?_⟩
    rw [hkind, hempty]
    by_cases hk : k ∈ directoryKeys [] (sqlParts path)
    · simp [hk]
    · simp [hk]
  · cases hleaf

private theorem prefix_of_directoryKeys {p q : Path}
    (h : ∀ k, k ∈ Sqlite.directoryKeys [] p → k ∈ Sqlite.directoryKeys [] q) : p <+: q := by
  by_cases hp : p = []
  · rw [hp]
    exact List.nil_prefix
  · exact (Sqlite.key_mem_directoryKeys.1 (h _ (Sqlite.key_mem_directoryKeys.2 ⟨hp, List.prefix_refl p⟩))).2

/-- Two paths have the same directories made of them exactly when they have the same names. -/
private theorem Sqlite.ensureParents_eq_iff {p q : Str} :
    (∀ t, ensureParents t p = ensureParents t q) ↔ sqlParts p = sqlParts q := by
  constructor
  · intro h
    obtain ⟨made, hp, hpkeys⟩ := ensureParents_empty p
    obtain ⟨made', hq, hqkeys⟩ := ensureParents_empty q
    rw [h, hq, Prod.mk.injEq] at hp
    obtain ⟨rfl, -⟩ := hp
    have hpq := prefix_of_directoryKeys fun k hk => (hqkeys k).1 ((hpkeys k).2 hk)
    have hqp := prefix_of_directoryKeys fun k hk => (hpkeys k).1 ((hqkeys k).2 hk)
    exact hpq.eq_of_length_le hqp.length_le
  · intro h t
    rw [ensureParents, ensureParents, normalizeSql, normalizeSql, h]

/-! ### Normalising again -/

/-- The normal form of a path is as it is to be, and `_ensure_parents` of it makes what is meant by the path, exactly
when no blank comes to stand at an end of it: of the in-memory, the JSON and the S3 provider at neither end, of the
SQLite provider not at the last. -/
theorem normalize_canonical_iff (provider : PathProvider) (path : Text) :
    (provider.Canonical path ↔ provider.Clean path) ∧
      ∀ s : Str, (∀ t, Sqlite.ensureParents t (normalizeSql s) = Sqlite.ensureParents t s) ↔
        PathProvider.sqlite.Clean (ofChars s) := by
  refine ⟨provider.canonical_iff path, fun s => ?_⟩
  have hsame : sqlParts (normalizeSql s) = sqlParts s ↔ normalizeSql (normalizeSql s) = normalizeSql s :=
    key_injective.eq_iff.symm
  rw [Sqlite.ensureParents_eq_iff, hsame, ← PathProvider.fixed_iff, ← ofChars_injective.eq_iff]
  change _ ↔ normalFormSql (normalFormSql (ofChars s)) = normalFormSql (ofChars s)
  rw [normalFormSql_ofChars, normalFormSql_ofChars]

/-- The normal form of `./ a` begins with a blank, and that of `/a /.` ends in one, which are stripped the next time:
the directory that `mkdir` makes of `/a /.` is not there under this path. -/
theorem normal_forms_not_fixed :
    (normalForm (ofChars "./ a".toList) = ofChars " a".toList ∧
      normalForm (ofChars " a".toList) = ofChars "a".toList ∧
      ¬ PathProvider.inMemory.Canonical (ofChars "./ a".toList) ∧
      ¬ PathProvider.json.Canonical (ofChars "./ a".toList) ∧ ¬ PathProvider.s3.Canonical (ofChars "./ a".toList)) ∧
    normalFormSql (ofChars "/a /.".toList) = ofChars "/a ".toList ∧
      normalFormSql (ofChars "/a ".toList) = ofChars "/a".toList ∧
      ¬ PathProvider.sqlite.Canonical (ofChars "/a /.".toList) ∧
      (Sqlite.mkdir Sqlite.initial "/a /.".toList true).2 = none ∧
      Sqlite.provider.exists_ (Sqlite.mkdir Sqlite.initial "/a /.".toList true).1 "/a /.".toList = false ∧
      Sqlite.provider.exists_ (Sqlite.mkdir Sqlite.initial "/a /.".toList true).1 "/a".toList = true := by
  have hform : normalForm (ofChars "./ a".toList) = ofChars " a".toList := by decide +kernel
  have hagain : normalForm (ofChars " a".toList) = ofChars "a".toList := by decide +kernel
  have hsql : normalFormSql (ofChars "/a /.".toList) = ofChars "/a ".toList := by decide +kernel
  have hsqlAgain : normalFormSql (ofChars "/a ".toList) = ofChars "/a".toList := by decide +kernel
  have hmoved : ofChars "a".toList ≠ ofChars " a".toList := by decide
  have hsqlMoved : ofChars "/a".toList ≠ ofChars "/a ".toList := by decide
  have hnot : normalForm (normalForm (ofChars "./ a".toList)) ≠ normalForm (ofChars "./ a".toList) := by
    rwa [hform, hagain]
  refine ⟨⟨hform, hagain, fun h => hnot h.fixed, fun h => hnot h.fixed, fun h => hnot h.fixed⟩, hsql, hsqlAgain,
    fun h => hsqlMoved ?_, ?_⟩
  · have hfixed : normalFormSql (normalFormSql (ofChars "/a /.".toList)) = normalFormSql (ofChars "/a /.".toList) :=
      h.fixed
    rwa [hsql, hsqlAgain] at hfixed
  · decide +kernel

end CliServer
