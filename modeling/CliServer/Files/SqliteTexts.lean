import CliServer.Files.Copies
import CliServer.Files.NormalForms
import CliServer.Files.SqliteMove
import CliServer.Files.SqliteProvider

/-!
# The SQLite provider on Python's texts

A path may have surrogates that stand alone.  `sqlite3` encodes each text that a statement is given, and raises
`UnicodeEncodeError` for such a one; what was inserted before stays.  Where the normal forms can be encoded, the calls
are those of the other modules (`Agrees`); where only that of `dest` cannot, the directories before the first name that
cannot are made (`copy_of_dest_none`).
-/

namespace CliServer

open Json (CodePoint Text ofChar ofChars)
open NamedTree
open SegmentPath (IsName join)

/-- What `sqlite3` makes of a text that is given to a statement; `none`: it raises `UnicodeEncodeError`. -/
def bind? (text : Text) : Option Str := if text.any isSurrogate then none else some (text.map fun c => Char.ofNat c.val)

/-- What the provider raises: an error with a path, or `UnicodeEncodeError`. -/
inductive StatementError where
  | path (e : PathError Text)
  | unicodeEncode
  deriving DecidableEq

namespace SqliteFileStorage

/-- The loop of `_ensure_parents`; `current` is the path so far. -/
def makeParents : Table → Text → List Text → Table × Option StatementError
  | t, _, [] => (t, none)
  | t, current, part :: parts =>
    let current := current ++ slashPoint :: part
    match bind? current, bind? part with
    | some path, some name =>
      match h : t.select path with
      | some existing =>
        if existing.type ≠ .directory then (t, some (.path (.notADirectory current))) else makeParents t current parts
      | none => makeParents (t.insert (Sqlite.directoryRow path name) (Table.path_notMem_of_select h)) current parts
    | _, _ => (t, some .unicodeEncode)

/-- `_ensure_parents`. -/
def ensureParents (t : Table) (path : Text) : Table × Option StatementError :=
  let norm := normalFormSql path
  if norm = [slashPoint] then (t, none) else makeParents t [] ((stripBy (· = slashPoint) norm).splitOn slashPoint)

/-- `if parent and parent != "/"`: `_ensure_parents`. -/
def ensureParent (t : Table) : Option Text → Table × Option StatementError
  | none => (t, none)
  | some parent => if parent = [] ∨ parent = [slashPoint] then (t, none) else ensureParents t parent

/-- What a statement raises that was given its texts. -/
def raised {α : Type*} : α × Option (PathError Text) → α × Option StatementError
  | (a, e) => (a, e.map .path)

variable (t : Table)

/-- `write_file`, and `upload_file`. -/
def writeFile (path : Text) (content : FileContent) : Table × Option StatementError :=
  let norm := normalFormSql path
  if norm = [slashPoint] then (t, some (.path (.isADirectory path)))
  else match bind? content.decoded with
    -- `text.encode("utf-8")`
    | none => (t, some .unicodeEncode)
    | some text =>
      match ensureParent t (parentOf slashPoint norm) with
      | (t, some e) => (t, some e)
      | (t, none) =>
        match bind? norm with
        | none => (t, some .unicodeEncode)
        | some norm => raised (Sqlite.writeRow t path norm text)

/-- What `mkdir` checks of the parent. -/
def checkParent (path : Text) : Option Text → Option StatementError
  | none => none
  | some parent =>
    if parent = [] then none
    else match bind? parent with
      | none => some .unicodeEncode
      | some parent => (Sqlite.checkParent t path (some parent)).map .path

/-- `mkdir`. -/
def mkdir (path : Text) (recursive : Bool) : Table × Option StatementError :=
  let norm := normalFormSql path
  if norm = [slashPoint] then (t, none)
  else if recursive then ensureParents t norm
  else match checkParent t path (parentOf slashPoint norm) with
    | some e => (t, some e)
    | none =>
      match bind? norm with
      | none => (t, some .unicodeEncode)
      | some norm => raised (Sqlite.makeRow t path norm)

/-- `remove`. -/
def remove (path : Text) (recursive : Bool) : Table × Option StatementError :=
  let norm := normalFormSql path
  if norm = [slashPoint] then (t, some (.path (.permission path)))
  else match bind? norm with
    | none => (t, some .unicodeEncode)
    | some norm => raised (Sqlite.removeAt .sqlite t norm path recursive)

/-- `copy`. -/
def copy (src dest : Text) : Table × Option StatementError :=
  let srcNorm := normalFormSql src
  let destNorm := normalFormSql dest
  if destNorm = [slashPoint] then (t, some (.path (.isADirectory dest)))
  else match bind? srcNorm with
    | none => (t, some .unicodeEncode)
    | some srcNorm =>
      match t.select srcNorm with
      | none => (t, some (.path (.notFound src)))
      | some srcRow =>
        match ensureParent t (parentOf slashPoint destNorm) with
        | (t, some e) => (t, some e)
        | (t, none) =>
          -- `DELETE FROM files WHERE path = ?`
          match bind? destNorm with
          | none => (t, some .unicodeEncode)
          | some destNorm =>
            if srcRow.type = .directory ∧ Like.sqlite.refuses (below srcNorm) = true then
              (t.replace (Sqlite.destRow destNorm (parentPath destNorm) srcRow), some (.path .operational))
            else (Sqlite.copyRows .sqlite t srcNorm destNorm (parentPath destNorm) srcRow, none)

/-- `move`. -/
def move (src dest : Text) : Table × Option StatementError :=
  let srcNorm := normalFormSql src
  if srcNorm = [slashPoint] then (t, some (.path (.permission src)))
  else if normalFormSql dest = [slashPoint] then (t, some (.path (.isADirectory dest)))
  else match bind? srcNorm with
    | none => (t, some .unicodeEncode)
    | some srcNorm =>
      match t.select srcNorm with
      | none => (t, some (.path (.notFound src)))
      | some _ =>
        -- copy then remove source
        match copy t src dest with
        | (t, some e) => (t, some e)
        | (t, none) => raised (Sqlite.deleteTree .sqlite t srcNorm)

/-- `exists`. -/
def exists_ (path : Text) : Except StatementError Bool :=
  match bind? (normalFormSql path) with
  | none => .error .unicodeEncode
  | some norm => .ok (t.select norm).isSome

/-- `stat`. -/
def stat (path : Text) : Except StatementError FileEntry :=
  match bind? (normalFormSql path) with
  | none => .error .unicodeEncode
  | some norm => (Sqlite.statAt t norm path).mapError .path

/-- `list`. -/
def list (path : Text) : Except StatementError (List FileEntry) :=
  match bind? (normalFormSql path) with
  | none => .error .unicodeEncode
  | some norm => (Sqlite.listAt t norm path).mapError .path

end SqliteFileStorage

/-! ### Texts that can be encoded -/

variable {text : Text} {s : Str}

private theorem isSurrogate_ofChar (c : Char) : isSurrogate (ofChar c) = false := by
  have hvalid := c.valid
  rw [isSurrogate, Json.val_ofChar, Bool.and_eq_false_iff, decide_eq_false_iff_not, decide_eq_false_iff_not]
  rcases hvalid with h | h
  · exact .inl (by change ¬ 0xD800 ≤ c.val.toNat; omega)
  · exact .inr (by change ¬ c.val.toNat < 0xE000; omega)

private theorem ofChar_ofNat {c : CodePoint} (h : isSurrogate c = false) : ofChar (Char.ofNat c.val) = c := by
  have hvalid : c.val.isValidChar := by
    have hlt := c.isLt
    rw [isSurrogate, Bool.and_eq_false_iff, decide_eq_false_iff_not, decide_eq_false_iff_not] at h
    rw [Nat.isValidChar]
    omega
  refine Fin.ext ?_
  rw [Json.val_ofChar, Char.toNat_ofNat, if_pos hvalid]

theorem bind_eq_none_iff : bind? text = none ↔ ∃ c ∈ text, isSurrogate c = true := by
  rw [bind?, ← List.any_eq_true]
  split <;> simp_all

/-- The texts that can be encoded are those of characters. -/
theorem bind_eq_some_iff : bind? text = some s ↔ text = ofChars s := by
  have hof : ∀ s' : Str, bind? text = some s' → text = ofChars s' := by
    intro s' h
    have hnone : ∀ c ∈ text, isSurrogate c = false := by
      intro c hc
      rw [Bool.eq_false_iff]
      intro hsurrogate
      rw [bind_eq_none_iff.2 ⟨c, hc, hsurrogate⟩] at h
      cases h
    rw [bind?] at h
    split at h
    · cases h
    · obtain rfl := Option.some.inj h
      rw [ofChars, List.map_map]
      exact (List.map_id text).symm.trans (List.map_congr_left fun c hc => (ofChar_ofNat (hnone c hc)).symm)
  constructor
  · exact hof s
  · rintro rfl
    cases hbind : bind? (ofChars s) with
    | none =>
      obtain ⟨c, hc, hsurrogate⟩ := bind_eq_none_iff.1 hbind
      obtain ⟨d, -, rfl⟩ := List.mem_map.1 hc
      rw [isSurrogate_ofChar] at hsurrogate
      cases hsurrogate
    | some s' => rw [ofChars_injective (hof s' hbind)]

@[simp] theorem bind_ofChars (s : Str) : bind? (ofChars s) = some s := bind_eq_some_iff.2 rfl

/-! ### Names that can be encoded -/

/-- The name, as a text. -/
def Name.spelled (n : Name) : Text := ofChars n.text

/-- The name that a text is, where it can be encoded. -/
def name? (text : Text) : Option Name :=
  match bind? text with
  | none => none
  | some s =>
    if h : s ≠ [] ∧ s ≠ ['.'] ∧ s ≠ ['.', '.'] ∧ '/' ∉ s then some ⟨s, h.1, h.2.1, h.2.2.1, h.2.2.2⟩ else none

/-- The path of names. -/
def path? : List Text → Option Path
  | [] => some []
  | text :: texts =>
    match name? text, path? texts with
    | some n, some p => some (n :: p)
    | _, _ => none

/-- The names up to the first one that cannot be encoded. -/
def leading : List Text → Path
  | [] => []
  | text :: texts =>
    match name? text with
    | none => []
    | some n => n :: leading texts

theorem name_eq_some_iff {n : Name} : name? text = some n ↔ text = n.spelled := by
  rw [name?, Name.spelled]
  constructor
  · intro h
    split at h
    · cases h
    · next s hs =>
      split at h
      · obtain rfl := Option.some.inj h
        exact bind_eq_some_iff.1 hs
      · cases h
  · rintro rfl
    simp [n.ne_nil, n.ne_dot, n.ne_dots, n.no_slash]

private theorem path_eq_some_iff (texts : List Text) (p : Path) :
    path? texts = some p ↔ texts = p.map Name.spelled := by
  induction texts generalizing p with
  | nil => cases p <;> simp [path?]
  | cons text texts ih =>
    cases p with
    | nil =>
      rw [path?]
      split <;> simp
    | cons n p =>
      rw [List.map_cons, List.cons.injEq, ← name_eq_some_iff, ← ih p, path?]
      cases name? text <;> cases path? texts <;> simp

/-- A name of a normalised path that is no `Name` cannot be encoded. -/
theorem name_eq_none_iff (h : IsName slashPoint dotPoint text) : name? text = none ↔ bind? text = none := by
  rw [name?]
  split
  · next hnone => simp [hnone]
  · next s hs =>
    obtain rfl := bind_eq_some_iff.1 hs
    have hname : s ≠ [] ∧ s ≠ ['.'] ∧ s ≠ ['.', '.'] ∧ '/' ∉ s :=
      ⟨fun heq => h.ne_nil (by rw [heq]; rfl), fun heq => h.ne_dot (by rw [heq]; rfl),
        fun heq => h.ne_dots (by rw [heq]; rfl), fun hmem => h.no_sep (List.mem_map_of_mem hmem)⟩
    simp [hname, hs]

private theorem leading_append {texts : List Text} (h : ∀ text ∈ texts, IsName slashPoint dotPoint text) :
    ∃ rest, texts = (leading texts).map Name.spelled ++ rest ∧ (rest = [] ↔ path? texts ≠ none) ∧
      ∀ text ∈ rest.head?, bind? text = none := by
  induction texts with
  | nil => exact ⟨[], rfl, by simp [path?], by simp⟩
  | cons text texts ih =>
    obtain ⟨htext, htexts⟩ := List.forall_mem_cons.1 h
    rw [leading, path?]
    cases hname : name? text with
    | none => exact ⟨text :: texts, rfl, by simp, by simpa using (name_eq_none_iff htext).1 hname⟩
    | some n =>
      obtain ⟨rest, hsplit, hrest, hhead⟩ := ih htexts
      refine ⟨rest, ?_, ?_, hhead⟩
      · rw [List.map_cons, List.cons_append, ← hsplit, name_eq_some_iff.1 hname]
      · rw [hrest]
        cases path? texts <;> simp

/-! ### Normal forms -/

/-- The names of a path of the SQLite provider. -/
def sqlNames (path : Text) : List Text := namesOf (stripText path)

/-- The place that a path names, where it can be encoded. -/
def place? (path : Text) : Option Path := path? (sqlNames path)

/-- The names of the directory that `_ensure_parents` makes for a path: its parent, normalised once more. -/
def parentNames (path : Text) : List Text := sqlNames (slashPoint :: join slashPoint (sqlNames path).dropLast)

section Forms

variable {path : Text} {p : Path}

theorem isName_of_mem_sqlNames (h : text ∈ sqlNames path) : IsName slashPoint dotPoint text := isName_of_mem_namesOf h

private theorem normalFormSql_names (path : Text) :
    normalFormSql path = slashPoint :: join slashPoint (sqlNames path) :=
  normalFormSql_eq path

theorem place_eq_some_iff : place? path = some p ↔ sqlNames path = p.map Name.spelled := path_eq_some_iff _ p

private theorem join_spelled (p : Path) : slashPoint :: join slashPoint (p.map Name.spelled) = ofChars (key p) := by
  have hnames : p.map Name.spelled = (p.map Name.text).map ofChars := by simp [Name.spelled]
  rw [key_eq_cons, hnames]
  exact congrArg (slashPoint :: ·) (SegmentPath.join_map ofChar '/' _)

private theorem mem_join {c : CodePoint} {names : List Text} (htext : text ∈ names) (hc : c ∈ text) :
    c ∈ join slashPoint names := by
  cases names with
  | nil => cases htext
  | cons first names =>
    rw [SegmentPath.join_cons, List.mem_append]
    rcases List.mem_cons.1 htext with rfl | hrest
    · exact .inl hc
    · exact .inr (List.mem_flatMap.2 ⟨text, hrest, List.mem_cons_of_mem _ hc⟩)

/-- What a statement is given for a path. -/
theorem bind_normalFormSql (path : Text) : bind? (normalFormSql path) = (place? path).map key := by
  rw [normalFormSql_names]
  cases hplace : place? path with
  | some p => rw [place_eq_some_iff.1 hplace, join_spelled, bind_ofChars, Option.map_some]
  | none =>
    have hnames : ∀ text ∈ sqlNames path, IsName slashPoint dotPoint text := fun _ => isName_of_mem_sqlNames
    obtain ⟨rest, hsplit, hrest, hhead⟩ := leading_append hnames
    -- a surrogate in one of the names is one in the whole text
    obtain ⟨bad, rest, rfl⟩ := List.exists_cons_of_ne_nil fun hnil => hrest.1 hnil hplace
    obtain ⟨c, hc, hsurrogate⟩ := bind_eq_none_iff.1 (hhead bad rfl)
    have hbad : bad ∈ sqlNames path := by
      rw [hsplit]
      simp
    exact bind_eq_none_iff.2 ⟨c, List.mem_cons_of_mem _ (mem_join hbad hc), hsurrogate⟩

private theorem normalFormSql_eq_slash_iff : normalFormSql path = [slashPoint] ↔ sqlNames path = [] := by
  have hnames : ∀ text ∈ sqlNames path, text ≠ [] := fun _ h => (isName_of_mem_sqlNames h).ne_nil
  rw [normalFormSql_names, List.cons.injEq, SegmentPath.join_eq_nil_iff hnames]
  exact and_iff_right rfl

private theorem sqlNames_eq_nil_iff (h : place? path = some p) : sqlNames path = [] ↔ p = [] := by
  rw [place_eq_some_iff.1 h, List.map_eq_nil_iff]

private theorem sqlNames_ofChars (path : Str) : sqlNames (ofChars path) = (sqlParts path).map Name.spelled := by
  rw [sqlNames, stripText_ofChars, namesOf_ofChars, ← text_sqlParts, List.map_map]
  rfl

theorem place_ofChars (path : Str) : place? (ofChars path) = some (sqlParts path) :=
  place_eq_some_iff.2 (sqlNames_ofChars path)

private theorem parentOf_normalFormSql (h : sqlNames path ≠ []) : parentOf slashPoint (normalFormSql path) =
    some (slashPoint :: join slashPoint (sqlNames path).dropLast) := by
  rw [normalFormSql_names, parentOf_join (fun text htext => ?_) h]
  have hname : IsName slashPoint dotPoint text := isName_of_mem_sqlNames htext
  exact ⟨hname.ne_nil, hname.no_sep⟩

end Forms

/-- What stands at each path of texts. -/
def Table.textView (t : Table) : View Text Str := along path? t.view

/-! ### The calls -/

namespace SqliteFileStorage

/-- A call on texts leaves the table that the call on characters leaves, and raises when that does. -/
def Agrees (result : Table × Option StatementError) (operation : Table × Option FileError) : Prop :=
  result.1 = operation.1 ∧ result.2.isSome = operation.2.isSome

variable {t : Table} {path src dest : Text} {p s d : Path} {content : FileContent} {recursive : Bool}

/-! The next directory is there, or is made. -/

theorem makeParents_of_select {current part : Text} {norm name : Str} {existing : Row}
    (hcurrent : bind? (current ++ slashPoint :: part) = some norm) (hname : bind? part = some name)
    (hselect : t.select norm = some existing) (parts : List Text) :
    makeParents t current (part :: parts) =
      if existing.type ≠ .directory then (t, some (.path (.notADirectory (current ++ slashPoint :: part))))
      else makeParents t (current ++ slashPoint :: part) parts := by
  rw [makeParents, hcurrent, hname]
  dsimp only
  split
  · next other hother =>
    rw [hselect] at hother
    cases hother
    rfl
  · next hnone =>
    rw [hselect] at hnone
    cases hnone

theorem makeParents_of_missing {current part : Text} {norm name : Str}
    (hcurrent : bind? (current ++ slashPoint :: part) = some norm) (hname : bind? part = some name)
    (hselect : t.select norm = none) (parts : List Text) :
    makeParents t current (part :: parts) =
      makeParents (t.insert (Sqlite.directoryRow norm name) (Table.path_notMem_of_select hselect))
        (current ++ slashPoint :: part) parts := by
  rw [makeParents, hcurrent, hname]
  dsimp only
  split
  · next other hother =>
    rw [hselect] at hother
    cases hother
  · rfl

/-- One round of the loop, for a name that can be encoded. -/
private theorem makeParents_cons (t : Table) (current : Str) (n : Name) (parts : List Text) :
    (∃ existing, t.select (current ++ '/' :: n.text) = some existing ∧ existing.type ≠ .directory ∧
        (∃ e, makeParents t (ofChars current) (n.spelled :: parts) = (t, some e)) ∧
        ∀ parts, ∃ e, Sqlite.makeParents t current (n.text :: parts) = (t, some e)) ∨
      ∃ t', makeParents t (ofChars current) (n.spelled :: parts) =
          makeParents t' (ofChars (current ++ '/' :: n.text)) parts ∧
        ∀ parts, Sqlite.makeParents t current (n.text :: parts) =
          Sqlite.makeParents t' (current ++ '/' :: n.text) parts := by
  have hcurrent : ofChars current ++ slashPoint :: n.spelled = ofChars (current ++ '/' :: n.text) := by
    simp [ofChars, Name.spelled, slashPoint]
  have hpath : bind? (ofChars current ++ slashPoint :: n.spelled) = some (current ++ '/' :: n.text) := by
    rw [hcurrent, bind_ofChars]
  have hname : bind? n.spelled = some n.text := bind_ofChars n.text
  cases hselect : t.select (current ++ '/' :: n.text) with
  | none =>
    refine .inr ⟨_, ?_, Sqlite.makeParents_of_missing hselect⟩
    rw [makeParents_of_missing hpath hname hselect, hcurrent]
  | some existing =>
    by_cases htype : existing.type = .directory
    · refine .inr ⟨t, ?_, fun parts => ?_⟩
      · rw [makeParents_of_select hpath hname hselect, if_neg (not_not.2 htype), hcurrent]
      · rw [Sqlite.makeParents_of_select hselect, if_neg (not_not.2 htype)]
    · refine .inl ⟨existing, rfl, htype, ?_, fun parts => ?_⟩
      · rw [makeParents_of_select hpath hname hselect, if_pos htype]
        exact ⟨_, rfl⟩
      · rw [Sqlite.makeParents_of_select hselect, if_pos htype]
        exact ⟨_, rfl⟩

/-- The loop makes the directories up to the first name that cannot be encoded, where it raises. -/
private theorem makeParents_spelled (t : Table) (current : Str) (p : Path) {rest : List Text}
    (hrest : ∀ text ∈ rest.head?, bind? text = none) :
    (makeParents t (ofChars current) (p.map Name.spelled ++ rest)).1 =
        (Sqlite.makeParents t current (p.map Name.text)).1 ∧
      ((makeParents t (ofChars current) (p.map Name.spelled ++ rest)).2.isSome = true ↔
        (Sqlite.makeParents t current (p.map Name.text)).2.isSome = true ∨ rest ≠ []) := by
  -- on the names that can be encoded; then the loop is over, or comes to the first that cannot
  induction p generalizing t current with
  | nil =>
    cases rest with
    | nil => simp [makeParents, Sqlite.makeParents]
    | cons bad rest =>
      have hbad : bind? bad = none := hrest bad rfl
      have hstop : makeParents t (ofChars current) (bad :: rest) = (t, some .unicodeEncode) := by
        simp only [makeParents]
        split
        · next hname =>
          rw [hbad] at hname
          cases hname
        · rfl
      simp [hstop, Sqlite.makeParents]
  | cons n p ih =>
    simp only [List.map_cons, List.cons_append]
    rcases makeParents_cons t current n (p.map Name.spelled ++ rest) with
      ⟨-, -, -, ⟨e, hrun⟩, hsame⟩ | ⟨t', hrun, hsame⟩
    · obtain ⟨e', hrun'⟩ := hsame (p.map Name.text)
      simp [hrun, hrun']
    · rw [hrun, hsame]
      exact ih t' _

private theorem ensureParents_eq (t : Table) (path : Text) :
    ensureParents t path = makeParents t [] (sqlNames path) := by
  have hnames : ∀ text ∈ sqlNames path, IsName slashPoint dotPoint text := fun _ => isName_of_mem_sqlNames
  rw [ensureParents]
  by_cases hnil : sqlNames path = []
  · rw [if_pos (normalFormSql_eq_slash_iff.2 hnil), hnil, makeParents]
  · have hstrip : stripBy (· = slashPoint) (slashPoint :: join slashPoint (sqlNames path)) =
        join slashPoint (sqlNames path) := by
      have hslash : stripBy (· = slashPoint) (slashPoint :: join slashPoint (sqlNames path)) =
          stripBy (· = slashPoint) (join slashPoint (sqlNames path)) := by simp [stripBy]
      rw [hslash, PathProvider.trim_slash_join hnames]
    rw [if_neg (mt normalFormSql_eq_slash_iff.1 hnil), normalFormSql_names, hstrip,
      SegmentPath.splitOn_join hnames hnil]

private theorem ensureParent_eq (t : Table) (h : sqlNames path ≠ []) :
    ensureParent t (parentOf slashPoint (normalFormSql path)) = makeParents t [] (parentNames path) := by
  rw [parentOf_normalFormSql h, ensureParent, parentNames, ← ensureParents_eq]
  simp only [List.cons_ne_nil, false_or]
  split
  · next hroot =>
    rw [hroot, ensureParents]
    exact (if_pos rfl).symm
  · rfl

theorem Agrees.cases {result : Table × Option StatementError} {operation : Table × Option FileError}
    (h : Agrees result operation) : (∃ t' e e', result = (t', some e) ∧ operation = (t', some e')) ∨
      ∃ t', result = (t', none) ∧ operation = (t', none) := by
  obtain ⟨t₁, e₁⟩ := result
  obtain ⟨t₂, e₂⟩ := operation
  obtain ⟨htable, herror⟩ := h
  obtain rfl : t₁ = t₂ := htable
  cases e₁ <;> cases e₂
  · exact .inr ⟨t₁, rfl, rfl⟩
  · cases herror
  · cases herror
  · exact .inl ⟨t₁, _, _, rfl, rfl⟩

private theorem ensureParents_agrees (t : Table) (path : Str) :
    Agrees (ensureParents t (ofChars path)) (Sqlite.ensureParents t path) := by
  have hnone : ∀ text ∈ ([] : List Text).head?, bind? text = none := by simp
  have hloop := makeParents_spelled t [] (sqlParts path) hnone
  have heq : Sqlite.ensureParents t path = Sqlite.makeParents t [] ((sqlParts path).map Name.text) := by
    rw [Sqlite.ensureParents, normalizeSql]
    by_cases hnil : sqlParts path = []
    · rw [if_pos (key_eq_slash_iff.2 hnil), hnil]
      rfl
    · rw [if_neg (mt key_eq_slash_iff.1 hnil), split_key hnil]
  rw [ensureParents_eq, sqlNames_ofChars, heq]
  rw [List.append_nil] at hloop
  exact ⟨hloop.1, Bool.eq_iff_iff.2 (hloop.2.trans (by simp))⟩

private theorem ensureParent_agrees (hplace : place? path = some p) (hp : p ≠ []) :
    Agrees (ensureParent t (parentOf slashPoint (normalFormSql path)))
      (Sqlite.ensureParent t (parentPath (key p))) := by
  have hnames : sqlNames path ≠ [] := mt (sqlNames_eq_nil_iff hplace).1 hp
  have hparent : slashPoint :: join slashPoint (sqlNames path).dropLast = ofChars (key p.dropLast) := by
    rw [place_eq_some_iff.1 hplace, ← List.map_dropLast, join_spelled]
  rw [ensureParent_eq t hnames, parentNames, ← ensureParents_eq, hparent, Sqlite.ensureParent_key t hp]
  exact ensureParents_agrees t _

theorem bind_of_place (hplace : place? path = some p) : bind? (normalFormSql path) = some (key p) := by
  rw [bind_normalFormSql, hplace, Option.map_some]

private theorem normalFormSql_of_place (hplace : place? path = some p) :
    normalFormSql path = [slashPoint] ↔ key p = ['/'] := by
  rw [normalFormSql_eq_slash_iff, sqlNames_eq_nil_iff hplace, key_eq_slash_iff]

theorem copy_agrees (hs : place? src = some s) (hd : place? dest = some d) (src' dest' : Str) :
    Agrees (copy t src dest) (Sqlite.copyAt .sqlite t (key s) (key d) src' dest') := by
  unfold copy Sqlite.copyAt
  simp only [bind_of_place hs, bind_of_place hd, normalFormSql_of_place hd]
  by_cases hroot : key d = ['/']
  · simp only [if_pos hroot]
    exact ⟨rfl, rfl⟩
  simp only [if_neg hroot]
  cases t.select (key s) with
  | none => exact ⟨rfl, rfl⟩
  | some srcRow =>
    have hparents := ensureParent_agrees (t := t) hd (mt key_eq_slash_iff.2 hroot)
    rcases hparents.cases with ⟨t', e, e', hmade, hmade'⟩ | ⟨t', hmade, hmade'⟩
    · simp only [hmade, hmade']
      exact ⟨rfl, rfl⟩
    · simp only [hmade, hmade']
      split
      · exact ⟨rfl, rfl⟩
      · exact ⟨rfl, rfl⟩

/-- What is raised at the last does not depend on how the paths are named. -/
private theorem deleteTree_agrees (t : Table) (norm : Str) :
    Agrees (raised (Sqlite.deleteTree .sqlite t norm)) (Sqlite.deleteTree .sqlite t norm) := by
  unfold Sqlite.deleteTree
  split
  · exact ⟨rfl, rfl⟩
  · exact ⟨rfl, rfl⟩

theorem move_agrees (hs : place? src = some s) (hd : place? dest = some d) (src' dest' : Str) :
    Agrees (move t src dest) (Sqlite.moveAt .sqlite t (key s) (key d) src' dest') := by
  unfold move Sqlite.moveAt
  simp only [bind_of_place hs, normalFormSql_of_place hs, normalFormSql_of_place hd]
  by_cases hroot : key s = ['/']
  · simp only [if_pos hroot]
    exact ⟨rfl, rfl⟩
  simp only [if_neg hroot]
  by_cases hroot : key d = ['/']
  · simp only [if_pos hroot]
    exact ⟨rfl, rfl⟩
  simp only [if_neg hroot]
  cases t.select (key s) with
  | none => exact ⟨rfl, rfl⟩
  | some srcRow =>
    have hcopy := copy_agrees (t := t) hs hd src' dest'
    rcases hcopy.cases with ⟨t', e, e', hcopied, hcopied'⟩ | ⟨t', hcopied, hcopied'⟩
    · simp only [hcopied, hcopied']
      exact ⟨rfl, rfl⟩
    · simp only [hcopied, hcopied']
      exact deleteTree_agrees t' _

theorem writeFile_agrees {raw : Str} (hraw : bind? content.decoded = some raw) (hplace : place? path = some p)
    (path' : Str) : Agrees (writeFile t path content) (Sqlite.writeAt t (key p) path' raw) := by
  have hrow : ∀ t' : Table,
      Agrees (raised (Sqlite.writeRow t' path (key p) raw)) (Sqlite.writeRow t' path' (key p) raw) := by
    intro t'
    unfold Sqlite.writeRow
    split
    · split <;> exact ⟨rfl, rfl⟩
    · exact ⟨rfl, rfl⟩
  unfold writeFile Sqlite.writeAt
  simp only [bind_of_place hplace, normalFormSql_of_place hplace, hraw]
  by_cases hroot : key p = ['/']
  · simp only [if_pos hroot]
    exact ⟨rfl, rfl⟩
  simp only [if_neg hroot]
  have hparents := ensureParent_agrees (t := t) hplace (mt key_eq_slash_iff.2 hroot)
  rcases hparents.cases with ⟨t', e, e', hmade, hmade'⟩ | ⟨t', hmade, hmade'⟩
  · simp only [hmade, hmade']
    exact ⟨rfl, rfl⟩
  · simp only [hmade, hmade']
    exact hrow t'

theorem mkdir_agrees (hplace : place? path = some p) (path' : Str) :
    Agrees (mkdir t path recursive) (Sqlite.mkdirAt t (key p) path' recursive) := by
  have hrow : Agrees (raised (Sqlite.makeRow t path (key p))) (Sqlite.makeRow t path' (key p)) := by
    unfold Sqlite.makeRow
    split
    · split <;> exact ⟨rfl, rfl⟩
    · exact ⟨rfl, rfl⟩
  unfold mkdir Sqlite.mkdirAt
  simp only [bind_of_place hplace, normalFormSql_of_place hplace]
  by_cases hroot : key p = ['/']
  · simp only [if_pos hroot]
    exact ⟨rfl, rfl⟩
  simp only [if_neg hroot]
  have hp : p ≠ [] := mt key_eq_slash_iff.2 hroot
  have hform : normalFormSql path = ofChars (key p) := bind_eq_some_iff.1 (bind_of_place hplace)
  cases recursive with
  | true =>
    simp only [if_true, hform]
    exact ensureParents_agrees t _
  | false =>
    have hparent : parentOf slashPoint (normalFormSql path) = some (ofChars (key p.dropLast)) := by
      rw [parentOf_normalFormSql (mt (sqlNames_eq_nil_iff hplace).1 hp), place_eq_some_iff.1 hplace,
        ← List.map_dropLast, join_spelled]
    have hne : ofChars (key p.dropLast) ≠ [] := mt List.map_eq_nil_iff.1 (key_ne_nil _)
    simp only [Bool.false_eq_true, if_false, hparent, parentPath_key hp, checkParent, if_neg hne, bind_ofChars,
      Sqlite.checkParent, if_neg (key_ne_nil _)]
    cases t.select (key p.dropLast) with
    | none => exact ⟨rfl, rfl⟩
    | some row =>
      by_cases htype : row.type = .directory
      · simp only [htype, ne_eq, not_true_eq_false, if_false, Option.map_none]
        exact hrow
      · simp only [htype, ne_eq, not_false_eq_true, if_true, Option.map_some]
        exact ⟨rfl, rfl⟩

theorem remove_agrees (hplace : place? path = some p) (path' : Str) :
    Agrees (remove t path recursive) (Sqlite.removeAt .sqlite t (key p) path' recursive) := by
  unfold remove
  simp only [bind_of_place hplace, normalFormSql_of_place hplace]
  unfold Sqlite.removeAt
  by_cases hroot : key p = ['/']
  · simp only [if_pos hroot]
    exact ⟨rfl, rfl⟩
  simp only [if_neg hroot]
  cases t.select (key p) with
  | none => exact ⟨rfl, rfl⟩
  | some row =>
    simp only
    split
    · exact ⟨rfl, rfl⟩
    · split
      · exact deleteTree_agrees t _
      · exact ⟨rfl, rfl⟩

/-! ### Texts that cannot be encoded -/

/-- What `_ensure_parents` leaves of names of which one cannot be encoded: the directories before it are made. -/
def stopped (t : Table) (names : List Text) : Table := (Sqlite.makeParents t [] ((leading names).map Name.text)).1

private theorem makeParents_stopped (t : Table) {names : List Text}
    (h : ∀ text ∈ names, IsName slashPoint dotPoint text) :
    (makeParents t [] names).1 = stopped t names := by
  obtain ⟨rest, hsplit, -, hhead⟩ := leading_append h
  have hloop := makeParents_spelled t [] (leading names) hhead
  rw [← hsplit] at hloop
  exact hloop.1

theorem copy_of_src_none (hs : place? src = none) (t : Table) (dest : Text) : ∃ e, copy t src dest = (t, some e) := by
  unfold copy
  simp only [bind_normalFormSql, hs, Option.map_none]
  split
  · exact ⟨_, rfl⟩
  · exact ⟨_, rfl⟩

/-- A copy to a path that cannot be encoded raises; of something that is there, when the parents are made. -/
theorem copy_of_dest_none (hs : place? src = some s) (hd : place? dest = none) :
    ∃ e, copy t src dest = (if t.view s = none then t else stopped t (parentNames dest), some e) := by
  have hnames : sqlNames dest ≠ [] := by
    intro hnil
    rw [place?, hnil] at hd
    cases hd
  have hmade : (makeParents t [] (parentNames dest)).1 = stopped t (parentNames dest) :=
    makeParents_stopped t fun _ h => isName_of_mem_sqlNames h
  unfold copy
  simp only [bind_of_place hs, bind_normalFormSql dest, hd, Option.map_none,
    if_neg (mt normalFormSql_eq_slash_iff.1 hnames)]
  cases hselect : t.select (key s) with
  | none =>
    have hnone : t.view s = none := Option.map_eq_none_iff.2 hselect
    exact ⟨_, by rw [if_pos hnone]⟩
  | some srcRow =>
    have hsome : t.view s ≠ none := by
      rw [Table.view, Table.kindAt, hselect]
      exact Option.some_ne_none _
    rw [if_neg hsome, ensureParent_eq t hnames, ← hmade]
    rcases makeParents t [] (parentNames dest) with ⟨t', _ | e⟩
    · exact ⟨_, rfl⟩
    · exact ⟨_, rfl⟩

theorem move_of_src_none (hs : place? src = none) (t : Table) (dest : Text) : ∃ e, move t src dest = (t, some e) := by
  unfold move
  simp only [bind_normalFormSql, hs, Option.map_none]
  split
  · exact ⟨_, rfl⟩
  · split
    · exact ⟨_, rfl⟩
    · exact ⟨_, rfl⟩

theorem move_of_dest_none (hs : place? src = some s) (hd : place? dest = none) :
    ∃ e, move t src dest = (if s = [] ∨ t.view s = none then t else stopped t (parentNames dest), some e) := by
  have hnames : sqlNames dest ≠ [] := by
    intro hnil
    rw [place?, hnil] at hd
    cases hd
  unfold move
  simp only [bind_of_place hs, normalFormSql_of_place hs, key_eq_slash_iff,
    if_neg (mt normalFormSql_eq_slash_iff.1 hnames)]
  by_cases hroot : s = []
  · simp only [hroot, if_true, true_or]
    exact ⟨_, rfl⟩
  simp only [hroot, false_or, if_false]
  cases hselect : t.select (key s) with
  | none =>
    have hnone : t.view s = none := Option.map_eq_none_iff.2 hselect
    exact ⟨_, by rw [if_pos hnone]⟩
  | some srcRow =>
    obtain ⟨e, hcopy⟩ := copy_of_dest_none (t := t) hs hd
    exact ⟨e, by simp only [hcopy]⟩

/-- So a copy of which one path cannot be encoded leaves the table as it is, or makes directories only. -/
theorem copy_of_none (h : place? src = none ∨ place? dest = none) :
    (copy t src dest).1 = t ∨ ∃ names, (copy t src dest).1 = stopped t names := by
  cases hs : place? src with
  | none =>
    obtain ⟨e, hcopy⟩ := copy_of_src_none hs t dest
    rw [hcopy]
    exact .inl rfl
  | some s =>
    obtain ⟨e, hcopy⟩ := copy_of_dest_none (t := t) hs (h.resolve_left (by simp [hs]))
    rw [hcopy]
    dsimp only
    split
    · exact .inl rfl
    · exact .inr ⟨_, rfl⟩

/-- So does a move. -/
theorem move_of_none (h : place? src = none ∨ place? dest = none) :
    (move t src dest).1 = t ∨ ∃ names, (move t src dest).1 = stopped t names := by
  cases hs : place? src with
  | none =>
    obtain ⟨e, hmove⟩ := move_of_src_none hs t dest
    rw [hmove]
    exact .inl rfl
  | some s =>
    obtain ⟨e, hmove⟩ := move_of_dest_none (t := t) hs (h.resolve_left (by simp [hs]))
    rw [hmove]
    dsimp only
    split
    · exact .inl rfl
    · exact .inr ⟨_, rfl⟩

theorem remove_of_none (hplace : place? path = none) : (remove t path recursive).1 = t := by
  unfold remove
  simp only [bind_normalFormSql, hplace, Option.map_none]
  split <;> rfl

/-- A directory whose path cannot be encoded: with `recursive`, those before the first name that cannot are made. -/
theorem mkdir_of_none (hplace : place? path = none) :
    (mkdir t path recursive).1 = t ∨ ∃ names, (mkdir t path recursive).1 = stopped t names := by
  unfold mkdir
  simp only [bind_normalFormSql, hplace, Option.map_none]
  split
  · exact .inl rfl
  · cases recursive with
    | true =>
      refine .inr ⟨sqlNames (normalFormSql path), ?_⟩
      rw [if_pos rfl, ensureParents_eq]
      exact makeParents_stopped t fun _ h => isName_of_mem_sqlNames h
    | false =>
      rw [if_neg (by simp)]
      cases checkParent t path (parentOf slashPoint (normalFormSql path)) with
      | none => exact .inl rfl
      | some e => exact .inl rfl

/-- A file whose path or text cannot be encoded. -/
theorem writeFile_of_none (h : bind? content.decoded = none ∨ place? path = none) :
    (writeFile t path content).1 = t ∨ ∃ names, (writeFile t path content).1 = stopped t names := by
  unfold writeFile
  by_cases hroot : sqlNames path = []
  · simp only [if_pos (normalFormSql_eq_slash_iff.2 hroot), true_or]
  simp only [if_neg (mt normalFormSql_eq_slash_iff.1 hroot)]
  cases hraw : bind? content.decoded with
  | none => exact .inl rfl
  | some raw =>
    have hplace : place? path = none := h.resolve_left (by simp [hraw])
    have hmade : (makeParents t [] (parentNames path)).1 = stopped t (parentNames path) :=
      makeParents_stopped t fun _ h => isName_of_mem_sqlNames h
    right
    refine ⟨parentNames path, ?_⟩
    rw [← hmade, ensureParent_eq t hroot, bind_normalFormSql, hplace]
    rcases makeParents t [] (parentNames path) with ⟨t', _ | e⟩
    · rfl
    · rfl

/-- No directory of a path is made: each that is missing has a file above it. -/
def NothingMade (view : FileView Str) (parts : Path) : Prop :=
  ∀ q, q ≠ [] → q <+: parts → view q = none → ∃ p content, p ≠ [] ∧ p <+: q ∧ view p = some (.leaf content)

private theorem stopped_view_iff (t : Table) (names : List Text) :
    (stopped t names).view = t.view ↔ NothingMade t.view (leading names) := by
  rw [stopped]
  -- what is made are the parents up to the name that stops it, if any
  have hmade : ∃ p,
      Sqlite.Made t (Sqlite.makeParents t [] ((leading names).map Name.text)).1 (Sqlite.directoryKeys [] p) ∧
      p <+: leading names ∧ ∀ q, q <+: leading names → q <+: p ∨ ∃ p' content, p' ≠ [] ∧ p' <+: q ∧
        t.view p' = some (.leaf content) := by
    rcases Sqlite.makeParents_cases t [] (leading names) with
      ⟨t', hrun, hmade⟩ | ⟨t', p, n, rest, content, hsplit, hrun, hmade, hleaf⟩
    · exact ⟨leading names, by rw [← joined_nil, hrun]; exact hmade, List.prefix_refl _, fun q hq => .inl hq⟩
    · refine ⟨p, by rw [← joined_nil, hrun]; exact hmade, ⟨n :: rest, hsplit.symm⟩, fun q hq => ?_⟩
      have hfile : p ++ [n] <+: leading names := ⟨rest, by rw [hsplit]; simp⟩
      rcases List.prefix_or_prefix_of_prefix hq hfile with h | h
      · by_cases heq : q = p ++ [n]
        · refine .inr ⟨p ++ [n], content, by simp, by rw [heq], ?_⟩
          rw [Table.view, key_of_ne_nil (by simp)]
          exact hleaf
        · have hlast := prefix_dropLast_of_ne h heq
          rw [List.dropLast_concat] at hlast
          exact .inl hlast
      · refine .inr ⟨p ++ [n], content, by simp, h, ?_⟩
        rw [Table.view, key_of_ne_nil (by simp)]
        exact hleaf
  obtain ⟨p, hmade, hp, hends⟩ := hmade
  rw [hmade.view_eq]
  constructor
  · intro h q hq hprefix hnone
    rcases hends q hprefix with habove | hfile
    · have hsame := congrFun h q
      rw [withParents, if_pos ⟨hq, habove, hnone⟩, hnone] at hsame
      cases hsame
    · exact hfile
  · intro h
    funext q
    rw [withParents, if_neg]
    rintro ⟨hq, habove, hnone⟩
    obtain ⟨p', content, hp', hprefix, hfile⟩ := h q hq (habove.trans hp) hnone
    exact hmade.not_blocked ⟨p', content, hp', hprefix.trans habove, hfile⟩

/-! ### The laws -/

/-- A move from a path that cannot be encoded changes nothing. -/
theorem moveLaw_of_src_none (t : Table) (hs : place? src = none) (dest : Text) :
    MoveLaw t.textView (move t src dest).1.textView (move t src dest).2.isSome (sqlNames src) (sqlNames dest) := by
  obtain ⟨e, hmove⟩ := move_of_src_none hs t dest
  rw [hmove]
  exact MoveLaw.of_unchanged

/-- A move to a path that cannot be encoded raises; the parents that were made before are to be there. -/
theorem moveLaw_of_dest_none_iff (t : Table) (hs : place? src = some s) (hd : place? dest = none) :
    MoveLaw t.textView (move t src dest).1.textView (move t src dest).2.isSome (sqlNames src) (sqlNames dest) ↔
      s = [] ∨ t.view s = none ∨ NothingMade t.view (leading (parentNames dest)) := by
  obtain ⟨e, hmove⟩ := move_of_dest_none (t := t) hs hd
  rw [hmove, Option.isSome_some, moveLaw_raised_iff, Table.textView, Table.textView, along_injective path_eq_some_iff,
    ← or_assoc]
  split
  · next hrefused => exact iff_of_true rfl (.inl hrefused)
  · next hrefused => rw [or_iff_right hrefused, stopped_view_iff]

/-- A move between paths that can be encoded is that of the paths. -/
theorem moveLaw_spelled_iff (t : Table) (hs : place? src = some s) (hd : place? dest = some d) :
    MoveLaw t.textView (move t src dest).1.textView (move t src dest).2.isSome (sqlNames src) (sqlNames dest) ↔
      MoveLaw t.view (Sqlite.moveAt .sqlite t (key s) (key d) [] []).1.view
        (Sqlite.moveAt .sqlite t (key s) (key d) [] []).2.isSome s d := by
  have hmove := move_agrees (t := t) hs hd [] []
  rw [hmove.1, hmove.2, place_eq_some_iff.1 hs, place_eq_some_iff.1 hd]
  exact moveLaw_along_iff path_eq_some_iff

/-- A copy from or to a path that cannot be encoded raises. -/
theorem copyLaw_of_none (t : Table) (h : place? src = none ∨ place? dest = none) :
    CopyLaw t.textView (copy t src dest).1.textView (copy t src dest).2.isSome (sqlNames src) (sqlNames dest) := by
  have hraised : (copy t src dest).2.isSome = true := by
    cases hs : place? src with
    | none =>
      obtain ⟨e, hcopy⟩ := copy_of_src_none hs t dest
      rw [hcopy]
      rfl
    | some s =>
      have hd : place? dest = none := h.resolve_left (by simp [hs])
      obtain ⟨e, hcopy⟩ := copy_of_dest_none (t := t) hs hd
      rw [hcopy]
      rfl
  rw [hraised]
  exact CopyLaw.of_raised

/-- A copy between paths that can be encoded is that of the paths. -/
theorem copyLaw_spelled_iff (t : Table) (hs : place? src = some s) (hd : place? dest = some d) :
    CopyLaw t.textView (copy t src dest).1.textView (copy t src dest).2.isSome (sqlNames src) (sqlNames dest) ↔
      CopyLaw t.view (Sqlite.copyAt .sqlite t (key s) (key d) [] []).1.view
        (Sqlite.copyAt .sqlite t (key s) (key d) [] []).2.isSome s d := by
  have hcopy := copy_agrees (t := t) hs hd [] []
  rw [hcopy.1, hcopy.2, place_eq_some_iff.1 hs, place_eq_some_iff.1 hd]
  exact copyLaw_along_iff path_eq_some_iff

end SqliteFileStorage

end CliServer
