import CliServer.Lib.Json

/-!
# JSON values

All JSON values, with their texts as `json.dumps` writes them on one line.  `loads` reads a text; a number, a truth
value and `null` are read as a word up to the next character that cannot be in one.  What was dumped is read back
(`loads_dumps`), and reading depends only on what is read: a value is read the same before any text that does not
continue it (`scan_append`). So no text with more behind a value is read (`loads_append`), and no part of a value
either (`loads_of_append_eq`).
-/

open Json (Text quote scanString skip isBlank joinSurrogates)

namespace JsonValue

/-! ### Words -/

/-- The characters of a number or of one of the words of JSON. -/
def isWordChar (c : Char) : Bool := c.isAlphanum || c = '+' || c = '-' || c = '.'

/-- Some digits, and nothing else. -/
def isDigits (cs : List Char) : Bool := cs ≠ [] && cs.all Char.isDigit

def dropSign (signs cs : List Char) : List Char :=
  match cs with
  | c :: rest => if c ∈ signs then rest else cs
  | [] => []

/-- What may follow the fraction. -/
def isExponent : List Char → Bool
  | [] => true
  | c :: cs => (c = 'e' || c = 'E') && isDigits (dropSign ['+', '-'] cs)

/-- What may follow the integer part. -/
def isFraction : List Char → Bool
  | '.' :: cs => cs.takeWhile Char.isDigit ≠ [] && isExponent (cs.dropWhile Char.isDigit)
  | cs => isExponent cs

/-- A number, or one of the constants that Python reads as well. -/
def isNumber (cs : List Char) : Bool :=
  (match dropSign ['-'] cs with
    | '0' :: cs => isFraction cs
    | cs => cs.takeWhile Char.isDigit ≠ [] && isFraction (cs.dropWhile Char.isDigit)) ||
  cs ∈ ["NaN".toList, "Infinity".toList, "-Infinity".toList]

/-- The text of a number. -/
structure Number where
  text : List Char
  word : text.all isWordChar = true
  valid : isNumber text = true

end JsonValue

/-- A JSON value; the members of an object are in the order in which they were written. -/
inductive JsonValue where
  | null
  | bool (value : Bool)
  | num (n : JsonValue.Number)
  | str (s : Text)
  | arr (items : List JsonValue)
  | obj (members : List (Text × JsonValue))

namespace JsonValue

/-! ### Writing -/

mutual

/-- `json.dumps(value)`. -/
def dumps : JsonValue → List Char
  | null => "null".toList
  | bool value => if value then "true".toList else "false".toList
  | num n => n.text
  | str s => quote s
  | arr [] => ['[', ']']
  | arr (item :: items) => '[' :: dumps item ++ dumpsItems items ++ [']']
  | obj [] => ['{', '}']
  | obj ((key, value) :: members) => '{' :: quote key ++ [':', ' '] ++ dumps value ++ dumpsMembers members ++ ['}']

def dumpsItems : List JsonValue → List Char
  | [] => []
  | item :: items => ',' :: ' ' :: dumps item ++ dumpsItems items

def dumpsMembers : List (Text × JsonValue) → List Char
  | [] => []
  | (key, value) :: members => ',' :: ' ' :: quote key ++ [':', ' '] ++ dumps value ++ dumpsMembers members

end

/-! ### Reading -/

/-- `d[key] = value`: a key that is there keeps its place. -/
def setItem (d : List (Text × JsonValue)) (member : Text × JsonValue) : List (Text × JsonValue) :=
  if member.1 ∈ d.map Prod.fst then d.map fun m => if m.1 = member.1 then member else m else d ++ [member]

/-- `dict(pairs)`. -/
def dict (pairs : List (Text × JsonValue)) : List (Text × JsonValue) := pairs.foldl setItem []

/-- The value of a word. -/
def ofWord (w : List Char) : Option JsonValue :=
  if w = "null".toList then some null
  else if w = "true".toList then some (bool true)
  else if w = "false".toList then some (bool false)
  else if h : w.all isWordChar = true ∧ isNumber w = true then some (num ⟨w, h.1, h.2⟩)
  else none

/-- A value that is a word, and what follows. -/
def scanWord (cs : List Char) : Option (JsonValue × List Char) :=
  (ofWord (cs.takeWhile isWordChar)).map fun value => (value, cs.dropWhile isWordChar)

mutual

/-- `scan_once`; every level takes one of `fuel`. -/
def scan : Nat → List Char → Option (JsonValue × List Char)
  | 0, _ => none
  | fuel + 1, cs =>
    match cs with
    | '"' :: cs => (scanString cs).map fun r => (str r.1, r.2)
    | '{' :: cs =>
      match skip cs with
      | '}' :: cs => some (obj [], cs)
      | cs => (scanMembers fuel cs).map fun r => (obj (dict r.1), r.2)
    | '[' :: cs =>
      match skip cs with
      | ']' :: cs => some (arr [], cs)
      | cs => (scanItems fuel cs).map fun r => (arr r.1, r.2)
    | cs => scanWord cs

def scanItems : Nat → List Char → Option (List JsonValue × List Char)
  | 0, _ => none
  | fuel + 1, cs =>
    (scan fuel cs).bind fun r =>
      match skip r.2 with
      | ',' :: cs => (scanItems fuel (skip cs)).map fun items => (r.1 :: items.1, items.2)
      | ']' :: cs => some ([r.1], cs)
      | _ => none

def scanMembers : Nat → List Char → Option (List (Text × JsonValue) × List Char)
  | 0, _ => none
  | fuel + 1, cs =>
    match cs with
    | '"' :: cs =>
      (scanString cs).bind fun key =>
        match skip key.2 with
        | ':' :: cs =>
          (scan fuel (skip cs)).bind fun r =>
            match skip r.2 with
            | ',' :: cs => (scanMembers fuel (skip cs)).map fun members => ((key.1, r.1) :: members.1, members.2)
            | '}' :: cs => some ([(key.1, r.1)], cs)
            | _ => none
        | _ => none
    | _ => none

end

/-- `json.loads(text)`. -/
def loads (cs : List Char) : Option JsonValue :=
  (scan (cs.length + 1) (skip cs)).bind fun r => if skip r.2 = [] then some r.1 else none

/-! ### What follows -/

/-- What follows a value does not go on with a word. -/
def EndsWord (rest : List Char) : Prop := ∀ c cs, rest = c :: cs → isWordChar c = false

private theorem endsWord_nil : EndsWord [] := fun _ _ h => by cases h

theorem endsWord_cons {c : Char} (hc : isWordChar c = false) (cs : List Char) : EndsWord (c :: cs) := by
  intro d tail h
  rw [← (List.cons.inj h).1]
  exact hc

private theorem takeWhile_append_of_endsWord {ext : List Char} (hext : EndsWord ext) (cs : List Char) :
    (cs ++ ext).takeWhile isWordChar = cs.takeWhile isWordChar ∧
      (cs ++ ext).dropWhile isWordChar = cs.dropWhile isWordChar ++ ext := by
  induction cs with
  | nil =>
    cases ext with
    | nil => exact ⟨rfl, rfl⟩
    | cons c ext => simp [hext c ext rfl]
  | cons c cs ih =>
    by_cases hc : isWordChar c = true
    · simp [hc, ih.1, ih.2]
    · simp [hc]

private theorem skip_cons_of_blank {c : Char} (hc : isBlank c = true) (cs : List Char) : skip (c :: cs) = skip cs :=
  List.dropWhile_cons_of_pos hc

/-- The blanks before a character are the same before more text. -/
private theorem skip_append {cs tail ext : List Char} {c : Char} (h : skip cs = c :: tail) :
    skip (cs ++ ext) = c :: (tail ++ ext) := by
  induction cs with
  | nil => cases h
  | cons d cs ih =>
    by_cases hd : isBlank d = true
    · rw [skip_cons_of_blank hd] at h
      rw [List.cons_append, skip_cons_of_blank hd, ih h]
    · rw [Json.skip_cons (by simpa using hd)] at h
      cases h
      rw [List.cons_append, Json.skip_cons (by simpa using hd)]

/-! ### Reading before more text -/

/-- A literal is read the same before more text. -/
private theorem pieces_append {cs ext : List Char} {r : List Json.Piece × List Char} (h : Json.pieces cs = some r) :
    Json.pieces (cs ++ ext) = some (r.1, r.2 ++ ext) := by
  induction cs using Json.pieces.induct generalizing r with
  | case1 => cases h
  | case2 cs =>
    rw [Json.pieces.eq_def] at h
    cases h
    rw [List.cons_append, Json.pieces.eq_def]
    rfl
  | case3 a b c d cs hne ih =>
    have hread : ∀ cs, Json.pieces ('\\' :: 'u' :: a :: b :: c :: d :: cs) =
        (Json.hexNumber? a b c d).bind fun n => (Json.pieces cs).map fun r => (.escaped n :: r.1, r.2) := fun cs => by
      rw [Json.pieces.eq_def]
      rfl
    rw [hread, Option.bind_eq_some_iff] at h
    obtain ⟨n, hn, h⟩ := h
    obtain ⟨r', hr', rfl⟩ := Option.map_eq_some_iff.1 h
    simp only [List.cons_append]
    rw [hread, hn, Option.bind_some, ih hr']
    rfl
  | case4 letter cs hletter hne ih =>
    by_cases hu : letter = 'u'
    · -- an escape that is cut off
      subst hu
      have hcut : Json.pieces ('\\' :: 'u' :: cs) =
          (Json.shortEscape? 'u').bind fun n => (Json.pieces cs).map fun r => (.raw n :: r.1, r.2) := by
        rw [Json.pieces.eq_def]
        simp only [hne, if_false, if_true]
      rw [hcut] at h
      cases h
    · rw [Json.pieces_short hu, Option.bind_eq_some_iff] at h
      obtain ⟨n, hn, h⟩ := h
      obtain ⟨r', hr', rfl⟩ := Option.map_eq_some_iff.1 h
      rw [List.cons_append, List.cons_append, Json.pieces_short hu, hn, Option.bind_some, ih hr']
      rfl
  | case5 hne =>
    rw [Json.pieces.eq_def] at h
    cases h
  | case6 c cs hquote hbackslash hcontrol =>
    rw [Json.pieces.eq_def] at h
    simp only [hquote, hbackslash, hcontrol, if_false, if_true] at h
    cases h
  | case7 c cs hquote hbackslash hcontrol ih =>
    have hraw : 0x20 ≤ c.toNat := Nat.le_of_not_lt hcontrol
    rw [Json.pieces_raw hquote hbackslash hraw] at h
    obtain ⟨r', hr', rfl⟩ := Option.map_eq_some_iff.1 h
    rw [List.cons_append, Json.pieces_raw hquote hbackslash hraw, ih hr']
    rfl

private theorem scanString_append {cs ext : List Char} {r : Text × List Char} (h : scanString cs = some r) :
    scanString (cs ++ ext) = some (r.1, r.2 ++ ext) := by
  obtain ⟨r', hr', rfl⟩ := Option.map_eq_some_iff.1 h
  rw [scanString, pieces_append hr']
  rfl

private theorem scanWord_append {cs ext : List Char} {r : JsonValue × List Char} (hext : EndsWord ext)
    (h : scanWord cs = some r) :
    scanWord (cs ++ ext) = some (r.1, r.2 ++ ext) := by
  obtain ⟨value, hvalue, rfl⟩ := Option.map_eq_some_iff.1 h
  obtain ⟨htake, hdrop⟩ := takeWhile_append_of_endsWord hext cs
  rw [scanWord, htake, hdrop, hvalue]
  rfl

/-- With no more fuel, what is read of a text is read of it before more text. -/
def ExtendsValues (fuel : Nat) : Prop :=
  ∀ (fuel' : Nat) (cs ext : List Char) (r : JsonValue × List Char), fuel ≤ fuel' →
  EndsWord ext → scan fuel cs = some r → scan fuel' (cs ++ ext) = some (r.1, r.2 ++ ext)

def ExtendsItems (fuel : Nat) : Prop :=
  ∀ (fuel' : Nat) (cs ext : List Char) (r : List JsonValue × List Char), fuel ≤ fuel' →
  EndsWord ext → scanItems fuel cs = some r → scanItems fuel' (cs ++ ext) = some (r.1, r.2 ++ ext)

def ExtendsMembers (fuel : Nat) : Prop :=
  ∀ (fuel' : Nat) (cs ext : List Char) (r : List (Text × JsonValue) × List Char),
  fuel ≤ fuel' → EndsWord ext → scanMembers fuel cs = some r → scanMembers fuel' (cs ++ ext) = some (r.1, r.2 ++ ext)

private theorem scan_nil (fuel : Nat) : scan fuel [] = none := by cases fuel <;> rfl

private theorem scanItems_nil (fuel : Nat) : scanItems fuel [] = none := by
  cases fuel with
  | zero => rfl
  | succ fuel => rw [scanItems, scan_nil, Option.bind_none]

private theorem scanMembers_nil (fuel : Nat) : scanMembers fuel [] = none := by cases fuel <;> rfl

/-- The blanks before what is read are the same before more text. -/
private theorem skip_append_of_read {α : Type*} {read : List Char → Option α} {cs ext : List Char} {r : α}
    (hnil : read [] = none) (h : read (skip cs) = some r) : skip (cs ++ ext) = skip cs ++ ext := by
  cases hskip : skip cs with
  | nil =>
    rw [hskip, hnil] at h
    cases h
  | cons c tail => exact skip_append hskip

private theorem extendsItems_succ {fuel : Nat} (hvalues : ExtendsValues fuel) (hitems : ExtendsItems fuel) :
    ExtendsItems (fuel + 1) := by
  intro fuel' cs ext r hfuel hext h
  obtain ⟨fuel', rfl⟩ : ∃ n, fuel' = n + 1 := ⟨fuel' - 1, by omega⟩
  rw [scanItems, Option.bind_eq_some_iff] at h
  obtain ⟨item, hitem, h⟩ := h
  rw [scanItems, hvalues fuel' cs ext item (by omega) hext hitem, Option.bind_some]
  dsimp only
  split at h
  · next rest hskip =>
    obtain ⟨items, hread, rfl⟩ := Option.map_eq_some_iff.1 h
    have hblank : skip (rest ++ ext) = skip rest ++ ext := skip_append_of_read (scanItems_nil fuel) hread
    simp only [skip_append hskip, hblank, hitems fuel' (skip rest) ext items (by omega) hext hread, Option.map_some]
  · next rest hskip =>
    cases h
    simp only [skip_append hskip]
  · cases h

private theorem extendsMembers_succ {fuel : Nat} (hvalues : ExtendsValues fuel) (hmembers : ExtendsMembers fuel) :
    ExtendsMembers (fuel + 1) := by
  intro fuel' cs ext r hfuel hext h
  obtain ⟨fuel', rfl⟩ : ∃ n, fuel' = n + 1 := ⟨fuel' - 1, by omega⟩
  simp only [scanMembers] at h
  split at h
  · next cs =>
    rw [Option.bind_eq_some_iff] at h
    obtain ⟨key, hkey, h⟩ := h
    rw [List.cons_append]
    simp only [scanMembers, scanString_append hkey, Option.bind_some]
    split at h
    · next afterKey hcolon =>
      rw [Option.bind_eq_some_iff] at h
      obtain ⟨value, hvalue, h⟩ := h
      have hbefore : skip (afterKey ++ ext) = skip afterKey ++ ext := skip_append_of_read (scan_nil fuel) hvalue
      simp only [skip_append hcolon, hbefore, hvalues fuel' _ ext value (by omega) hext hvalue, Option.bind_some]
      split at h
      · next rest hskip =>
        obtain ⟨members, hread, rfl⟩ := Option.map_eq_some_iff.1 h
        have hblank : skip (rest ++ ext) = skip rest ++ ext := skip_append_of_read (scanMembers_nil fuel) hread
        simp only [skip_append hskip, hblank, hmembers fuel' (skip rest) ext members (by omega) hext hread,
          Option.map_some]
      · next rest hskip =>
        cases h
        simp only [skip_append hskip]
      · cases h
    · cases h
  · cases h

theorem scan_arr {fuel : Nat} {cs : List Char} (h : ∀ tail, skip cs ≠ ']' :: tail) :
    scan (fuel + 1) ('[' :: cs) = (scanItems fuel (skip cs)).map fun r => (arr r.1, r.2) := by
  simp only [scan]

theorem scan_obj {fuel : Nat} {cs : List Char} (h : ∀ tail, skip cs ≠ '}' :: tail) :
    scan (fuel + 1) ('{' :: cs) = (scanMembers fuel (skip cs)).map fun r => (obj (dict r.1), r.2) := by
  simp only [scan]

/-- A text that does not begin with another character does not do so before more text. -/
private theorem ne_cons_append {d : Char} {cs ext : List Char} (hcs : cs ≠ []) (h : ∀ tail, cs ≠ d :: tail) :
    ∀ tail, cs ++ ext ≠ d :: tail := by
  cases cs with
  | nil => exact absurd rfl hcs
  | cons c cs =>
    intro tail heq
    obtain ⟨rfl, -⟩ := List.cons.inj heq
    exact h cs rfl

private theorem extendsValues_succ {fuel : Nat} (hitems : ExtendsItems fuel) (hmembers : ExtendsMembers fuel) :
    ExtendsValues (fuel + 1) := by
  intro fuel' cs ext r hfuel hext h
  obtain ⟨fuel', rfl⟩ : ∃ n, fuel' = n + 1 := ⟨fuel' - 1, by omega⟩
  simp only [scan] at h
  split at h
  · next cs =>
    obtain ⟨s, hs, rfl⟩ := Option.map_eq_some_iff.1 h
    rw [List.cons_append]
    simp only [scan, scanString_append hs, Option.map_some]
  · next cs =>
    split at h
    · next rest hskip =>
      cases h
      rw [List.cons_append]
      simp only [scan, skip_append hskip]
    · next hnot =>
      obtain ⟨members, hread, rfl⟩ := Option.map_eq_some_iff.1 h
      have hblank : skip (cs ++ ext) = skip cs ++ ext := skip_append_of_read (scanMembers_nil fuel) hread
      have hne : skip cs ≠ [] := fun hnil => by simp [hnil, scanMembers_nil] at hread
      have hread' := hmembers fuel' (skip cs) ext members (by omega) hext hread
      rw [List.cons_append, scan_obj (hblank ▸ ne_cons_append hne fun tail heq => hnot tail heq), hblank, hread']
      rfl
  · next cs =>
    split at h
    · next rest hskip =>
      cases h
      rw [List.cons_append]
      simp only [scan, skip_append hskip]
    · next hnot =>
      obtain ⟨items, hread, rfl⟩ := Option.map_eq_some_iff.1 h
      have hblank : skip (cs ++ ext) = skip cs ++ ext := skip_append_of_read (scanItems_nil fuel) hread
      have hne : skip cs ≠ [] := fun hnil => by simp [hnil, scanItems_nil] at hread
      have hread' := hitems fuel' (skip cs) ext items (by omega) hext hread
      rw [List.cons_append, scan_arr (hblank ▸ ne_cons_append hne fun tail heq => hnot tail heq), hblank, hread']
      rfl
  · next hquote hbrace hbracket =>
    have hcs : cs ≠ [] := by
      rintro rfl
      cases h
    have hword := scanWord_append hext h
    simp only [scan]
    split
    · next heq => exact absurd heq (ne_cons_append hcs (fun tail heq => hquote tail heq) _)
    · next heq => exact absurd heq (ne_cons_append hcs (fun tail heq => hbrace tail heq) _)
    · next heq => exact absurd heq (ne_cons_append hcs (fun tail heq => hbracket tail heq) _)
    · exact hword

private theorem extends_ (fuel : Nat) : ExtendsValues fuel ∧ ExtendsItems fuel ∧ ExtendsMembers fuel := by
  induction fuel with
  | zero =>
    refine ⟨fun fuel' cs ext r _ _ h => ?_, fun fuel' cs ext r _ _ h => ?_, fun fuel' cs ext r _ _ h => ?_⟩ <;> cases h
  | succ fuel ih =>
    obtain ⟨hvalues, hitems, hmembers⟩ := ih
    exact ⟨extendsValues_succ hitems hmembers, extendsItems_succ hvalues hitems, extendsMembers_succ hvalues hmembers⟩

/-- A value is read the same before any text that does not go on with it. -/
private theorem scan_append {fuel fuel' : Nat} {cs ext : List Char} {r : JsonValue × List Char} (hfuel : fuel ≤ fuel')
    (hext : EndsWord ext)
    (h : scan fuel cs = some r) : scan fuel' (cs ++ ext) = some (r.1, r.2 ++ ext) :=
  (extends_ fuel).1 fuel' cs ext r hfuel hext h

/-! ### Reading what was written -/

mutual

/-- The value with the surrogates of its texts joined; of the members whose keys become one the last is kept. -/
def join : JsonValue → JsonValue
  | null => null
  | bool value => bool value
  | num n => num n
  | str s => str (joinSurrogates s)
  | arr items => arr (joinItems items)
  | obj members => obj (dict (joinMembers members))

def joinItems : List JsonValue → List JsonValue
  | [] => []
  | item :: items => join item :: joinItems items

def joinMembers : List (Text × JsonValue) → List (Text × JsonValue)
  | [] => []
  | (key, value) :: members => (joinSurrogates key, join value) :: joinMembers members

end

mutual

/-- The levels that `scan` needs. -/
def size : JsonValue → Nat
  | null => 1
  | bool _ => 1
  | num _ => 1
  | str _ => 1
  | arr items => 1 + sizeItems items
  | obj members => 1 + sizeMembers members

def sizeItems : List JsonValue → Nat
  | [] => 0
  | item :: items => 1 + size item + sizeItems items

def sizeMembers : List (Text × JsonValue) → Nat
  | [] => 0
  | (_, value) :: members => 1 + size value + sizeMembers members

end

/-- The values that are words. -/
def IsWord : JsonValue → Prop
  | null | bool _ | num _ => True
  | _ => False

private theorem number_ne {w : List Char} (hw : isNumber w = false) (n : Number) : n.text ≠ w := by
  rintro rfl
  rw [n.valid] at hw
  cases hw

/-- A word is not empty, has only its characters, and is read as its value. -/
theorem dumps_word {value : JsonValue} (h : IsWord value) :
    dumps value ≠ [] ∧ (dumps value).all isWordChar = true ∧ ofWord (dumps value) = some value ∧
    join value = value := by
  cases value with
  | null => exact ⟨by decide, rfl, rfl, by rw [join]⟩
  | bool value => cases value <;> exact ⟨by decide, rfl, rfl, by rw [join]⟩
  | num n =>
    rw [dumps]
    refine ⟨number_ne (by decide) n, n.word, ?_, by rw [join]⟩
    rw [ofWord, if_neg (number_ne (by decide) n), if_neg (number_ne (by decide) n), if_neg (number_ne (by decide) n),
      dif_pos ⟨n.word, n.valid⟩]
  | str s => cases h
  | arr items => cases h
  | obj members => cases h

private theorem wordChar_ne {c d : Char} (hc : isWordChar c = true) (hd : isWordChar d = false) : c ≠ d := by
  rintro rfl
  rw [hc] at hd
  cases hd

private theorem isBlank_of_wordChar {c : Char} (hc : isWordChar c = true) : isBlank c = false := by
  have hspace := wordChar_ne hc (d := ' ') (by decide)
  have htab := wordChar_ne hc (d := '\t') (by decide)
  have hline := wordChar_ne hc (d := '\n') (by decide)
  have hreturn := wordChar_ne hc (d := '\r') (by decide)
  simp [isBlank, hspace, htab, hline, hreturn]

private theorem scan_word {value : JsonValue} (h : IsWord value) (fuel : Nat) {rest : List Char}
    (hrest : EndsWord rest) :
    scan (fuel + 1) (dumps value ++ rest) = some (value, rest) := by
  obtain ⟨hne, hall, hvalue, -⟩ := dumps_word h
  obtain ⟨htake, hdrop⟩ := takeWhile_append_of_endsWord hrest (dumps value)
  have hself : (dumps value).takeWhile isWordChar = dumps value :=
    List.takeWhile_eq_self_iff.2 (List.all_eq_true.1 hall)
  have hnone : (dumps value).dropWhile isWordChar = [] := List.dropWhile_eq_nil_iff.2 (List.all_eq_true.1 hall)
  have hword : scanWord (dumps value ++ rest) = some (value, rest) := by
    rw [scanWord, htake, hdrop, hself, hnone, hvalue]
    rfl
  obtain ⟨c, cs, hcs⟩ := List.exists_cons_of_ne_nil hne
  have hc : isWordChar c = true := List.all_eq_true.1 hall c (hcs ▸ List.mem_cons_self)
  rw [← hword, hcs, List.cons_append]
  simp only [scan]
  split
  · next heq => exact absurd (List.cons.inj heq).1 (wordChar_ne hc (by decide))
  · next heq => exact absurd (List.cons.inj heq).1 (wordChar_ne hc (by decide))
  · next heq => exact absurd (List.cons.inj heq).1 (wordChar_ne hc (by decide))
  · rfl

/-- A value begins with a character that is neither blank nor a closing bracket. -/
private theorem dumps_head (value : JsonValue) : ∃ c cs, dumps value = c :: cs ∧ isBlank c = false ∧ c ≠ ']' := by
  have hword : IsWord value → ∃ c cs, dumps value = c :: cs ∧ isBlank c = false ∧ c ≠ ']' := by
    intro h
    obtain ⟨hne, hall, -⟩ := dumps_word h
    obtain ⟨c, cs, hcs⟩ := List.exists_cons_of_ne_nil hne
    have hc : isWordChar c = true := List.all_eq_true.1 hall c (hcs ▸ List.mem_cons_self)
    exact ⟨c, cs, hcs, isBlank_of_wordChar hc, wordChar_ne hc (by decide)⟩
  cases value with
  | null => exact hword trivial
  | bool value => exact hword trivial
  | num n => exact hword trivial
  | str s => exact ⟨_, _, rfl, by decide, by decide⟩
  | arr items => cases items <;> exact ⟨_, _, rfl, by decide, by decide⟩
  | obj members => cases members <;> exact ⟨_, _, rfl, by decide, by decide⟩

private theorem skip_dumps (value : JsonValue) (cs : List Char) : skip (dumps value ++ cs) = dumps value ++ cs := by
  obtain ⟨c, tail, hdump, hblank, -⟩ := dumps_head value
  rw [hdump, List.cons_append, Json.skip_cons hblank]

private theorem skip_space (cs : List Char) : skip (' ' :: cs) = skip cs := skip_cons_of_blank (by decide) cs

/-- With this fuel every value that needs no more is read back. -/
def ScansValues (fuel : Nat) : Prop := ∀ (value : JsonValue) (rest : List Char), size value ≤ fuel → EndsWord rest →
  scan fuel (dumps value ++ rest) = some (join value, rest)

def ScansItems (fuel : Nat) : Prop := ∀ (item : JsonValue) (items : List JsonValue) (rest : List Char),
  sizeItems (item :: items) ≤ fuel →
    scanItems fuel (dumps item ++ (dumpsItems items ++ ']' :: rest)) = some (joinItems (item :: items), rest)

def ScansMembers (fuel : Nat) : Prop :=
  ∀ (key : Text) (value : JsonValue) (members : List (Text × JsonValue)) (rest : List Char),
  sizeMembers ((key, value) :: members) ≤ fuel →
    scanMembers fuel (quote key ++ (':' :: ' ' :: (dumps value ++ (dumpsMembers members ++ '}' :: rest)))) =
      some (joinMembers ((key, value) :: members), rest)

private theorem endsWord_items (items : List JsonValue) (cs : List Char) (hcs : EndsWord cs) :
    EndsWord (dumpsItems items ++ cs) := by
  cases items with
  | nil => exact hcs
  | cons item items => exact endsWord_cons (by decide) _

private theorem endsWord_members (members : List (Text × JsonValue)) (cs : List Char) (hcs : EndsWord cs) :
    EndsWord (dumpsMembers members ++ cs) := by
  cases members with
  | nil => exact hcs
  | cons member members => exact endsWord_cons (by decide) _

theorem scansItems_succ {fuel : Nat} (hvalues : ScansValues fuel) (hitems : ScansItems fuel) :
    ScansItems (fuel + 1) := by
  intro item items rest hfuel
  rw [sizeItems] at hfuel
  have hscan := hvalues item _ (by omega) (endsWord_items items (']' :: rest) (endsWord_cons (by decide) _))
  rw [scanItems, hscan, Option.bind_some]
  cases items with
  | nil =>
    have hskip : skip (dumpsItems [] ++ ']' :: rest) = ']' :: rest := by
      rw [dumpsItems, List.nil_append, Json.skip_cons (by decide)]
    simp only [hskip, joinItems]
  | cons next items =>
    have hskip : skip (dumpsItems (next :: items) ++ ']' :: rest) =
        ',' :: ' ' :: (dumps next ++ (dumpsItems items ++ ']' :: rest)) := by
      have htext : dumpsItems (next :: items) ++ ']' :: rest =
          ',' :: ' ' :: (dumps next ++ (dumpsItems items ++ ']' :: rest)) := by
        simp [dumpsItems]
      rw [htext, Json.skip_cons (by decide)]
    have hrest := hitems next items rest (by omega)
    simp only [hskip, skip_space, skip_dumps, hrest, Option.map_some, joinItems]

theorem skip_quote (s : Text) (cs : List Char) : skip (quote s ++ cs) = quote s ++ cs := by
  rw [Json.quote_append, Json.skip_cons (by decide)]

theorem scansMembers_succ {fuel : Nat} (hvalues : ScansValues fuel) (hmembers : ScansMembers fuel) :
    ScansMembers (fuel + 1) := by
  intro key value members rest hfuel
  rw [sizeMembers] at hfuel
  have hscan := hvalues value _ (by omega) (endsWord_members members ('}' :: rest) (endsWord_cons (by decide) _))
  rw [Json.quote_append]
  simp only [scanMembers, Json.scanString_quote, Option.bind_some, Json.skip_cons (show isBlank ':' = false by decide), skip_space,
    skip_dumps, hscan]
  cases members with
  | nil =>
    have hskip : skip (dumpsMembers [] ++ '}' :: rest) = '}' :: rest := by
      rw [dumpsMembers, List.nil_append, Json.skip_cons (by decide)]
    simp only [hskip, joinMembers]
  | cons member members =>
    obtain ⟨next, nextValue⟩ := member
    have hskip : skip (dumpsMembers ((next, nextValue) :: members) ++ '}' :: rest) =
        ',' :: ' ' :: (quote next ++ (':' :: ' ' :: (dumps nextValue ++ (dumpsMembers members ++ '}' :: rest)))) := by
      have htext : dumpsMembers ((next, nextValue) :: members) ++ '}' :: rest =
          ',' :: ' ' :: (quote next ++ (':' :: ' ' :: (dumps nextValue ++ (dumpsMembers members ++ '}' :: rest)))) := by
        simp [dumpsMembers]
      rw [htext, Json.skip_cons (by decide)]
    have hrest := hmembers next nextValue members rest (by omega)
    simp only [hskip, skip_space, skip_quote, hrest, Option.map_some, joinMembers]

theorem scansValues_succ {fuel : Nat} (hitems : ScansItems fuel) (hmembers : ScansMembers fuel) :
    ScansValues (fuel + 1) := by
  intro value rest hfuel hrest
  have hword : IsWord value → scan (fuel + 1) (dumps value ++ rest) = some (join value, rest) := fun h => by
    rw [scan_word h fuel hrest, (dumps_word h).2.2.2]
  cases value with
  | null => exact hword trivial
  | bool value => exact hword trivial
  | num n => exact hword trivial
  | str s =>
    have hscan := Json.scanString_quote s rest
    rw [dumps, Json.quote_append]
    simp only [scan, hscan, Option.map_some, join]
  | arr items =>
    cases items with
    | nil =>
      simp only [dumps, List.cons_append, List.nil_append, scan, Json.skip_cons (show isBlank ']' = false by decide),
        join, joinItems]
    | cons item items =>
      rw [size] at hfuel
      have hread := hitems item items rest (by omega)
      have htext : dumps (arr (item :: items)) ++ rest =
          '[' :: (dumps item ++ (dumpsItems items ++ ']' :: rest)) := by simp [dumps]
      have hne : ∀ tail, skip (dumps item ++ (dumpsItems items ++ ']' :: rest)) ≠ ']' :: tail := by
        intro tail heq
        obtain ⟨c, cs, hdump, -, hc⟩ := dumps_head item
        rw [skip_dumps, hdump, List.cons_append] at heq
        exact hc (List.cons.inj heq).1
      rw [htext, scan_arr hne, skip_dumps, hread]
      rfl
  | obj members =>
    cases members with
    | nil =>
      simp only [dumps, List.cons_append, List.nil_append, scan, Json.skip_cons (show isBlank '}' = false by decide), join,
        joinMembers]
      rfl
    | cons member members =>
      obtain ⟨key, value⟩ := member
      rw [size] at hfuel
      have hread := hmembers key value members rest (by omega)
      have htext : dumps (obj ((key, value) :: members)) ++ rest =
          '{' :: (quote key ++ (':' :: ' ' :: (dumps value ++ (dumpsMembers members ++ '}' :: rest)))) := by
            simp [dumps]
      have hne : ∀ tail, skip (quote key ++ (':' :: ' ' :: (dumps value ++ (dumpsMembers members ++ '}' :: rest)))) ≠
          '}' :: tail := by
        intro tail heq
        rw [skip_quote, Json.quote_append] at heq
        exact absurd (List.cons.inj heq).1 (by decide)
      rw [htext, scan_obj hne, skip_quote, hread]
      rfl

theorem scans (fuel : Nat) : ScansValues fuel ∧ ScansItems fuel ∧ ScansMembers fuel := by
  induction fuel with
  | zero =>
    refine ⟨fun value rest hfuel => ?_, fun item items rest hfuel => ?_, fun key value members rest hfuel => ?_⟩
    · cases value <;> simp [size] at hfuel
    · simp [sizeItems] at hfuel
    · simp [sizeMembers] at hfuel
  | succ fuel ih =>
    obtain ⟨hvalues, hitems, hmembers⟩ := ih
    exact ⟨scansValues_succ hitems hmembers, scansItems_succ hvalues hitems, scansMembers_succ hvalues hmembers⟩

mutual

theorem size_le_length (value : JsonValue) : size value ≤ (dumps value).length := by
  have hword : IsWord value → 1 ≤ (dumps value).length := fun h => List.length_pos_iff.2 (dumps_word h).1
  cases value with
  | null => exact hword trivial
  | bool value => exact hword trivial
  | num n => exact hword trivial
  | str s =>
    rw [size, dumps, quote, List.cons_append, List.length_cons]
    omega
  | arr items =>
    cases items with
    | nil => simp [size, sizeItems, dumps]
    | cons item items =>
      have hitem := size_le_length item
      have hitems := sizeItems_le_length items
      simp only [size, sizeItems, dumps, List.cons_append, List.length_cons, List.length_append]
      omega
  | obj members =>
    cases members with
    | nil => simp [size, sizeMembers, dumps]
    | cons member members =>
      obtain ⟨key, value⟩ := member
      have hvalue := size_le_length value
      have hmembers := sizeMembers_le_length members
      simp only [size, sizeMembers, dumps, List.cons_append, List.length_cons, List.length_append]
      omega

theorem sizeItems_le_length (items : List JsonValue) : sizeItems items ≤ (dumpsItems items).length := by
  cases items with
  | nil => exact Nat.le_refl 0
  | cons item items =>
    have hitem := size_le_length item
    have hitems := sizeItems_le_length items
    simp only [sizeItems, dumpsItems, List.cons_append, List.length_cons, List.length_append]
    omega

theorem sizeMembers_le_length (members : List (Text × JsonValue)) :
    sizeMembers members ≤ (dumpsMembers members).length := by
  cases members with
  | nil => exact Nat.le_refl 0
  | cons member members =>
    obtain ⟨key, value⟩ := member
    have hvalue := size_le_length value
    have hmembers := sizeMembers_le_length members
    simp only [sizeMembers, dumpsMembers, List.cons_append, List.length_cons, List.length_append]
    omega

end

/-- A value is read back before any text that does not go on with it. -/
private theorem scan_dumps (value : JsonValue) {fuel : Nat} {rest : List Char} (hfuel : (dumps value).length ≤ fuel)
    (hrest : EndsWord rest) :
    scan fuel (dumps value ++ rest) = some (join value, rest) :=
  (scans fuel).1 value rest ((size_le_length value).trans hfuel) hrest

/-- What was dumped is loaded with its surrogates joined. -/
theorem loads_dumps (value : JsonValue) : loads (dumps value) = some (join value) := by
  have hscan := scan_dumps value (Nat.le_succ _) endsWord_nil
  have hskip := skip_dumps value []
  rw [List.append_nil] at hscan hskip
  rw [loads, hskip, hscan]
  rfl

/-- With more behind it than blanks, it is not. -/
theorem loads_append (value : JsonValue) {rest : List Char} (hrest : EndsWord rest) (hblank : skip rest ≠ []) :
    loads (dumps value ++ rest) = none := by
  have hfuel : (dumps value).length ≤ (dumps value ++ rest).length + 1 := by
    rw [List.length_append]
    omega
  rw [loads, skip_dumps, scan_dumps value hfuel hrest, Option.bind_some, if_neg hblank]

/-- A part of what was dumped, up to a character that does not go on with a word, is not loaded. -/
theorem loads_of_append_eq {value : JsonValue} {part rest : List Char} (h : dumps value = part ++ rest)
    (hne : rest ≠ []) (hrest : EndsWord rest) : loads part = none := by
  cases hload : loads part with
  | none => rfl
  | some v =>
    rw [loads, Option.bind_eq_some_iff] at hload
    obtain ⟨r, hscan, -⟩ := hload
    have hpart : skip part = part := by
      have hskip := skip_dumps value []
      rw [List.append_nil, h] at hskip
      have hne' : skip part ≠ [] := fun hnil => by simp [hnil, scan_nil] at hscan
      obtain ⟨c, tail, hc⟩ := List.exists_cons_of_ne_nil hne'
      rw [skip_append hc, ← List.cons_append] at hskip
      rw [hc]
      exact List.append_cancel_right hskip
    rw [hpart] at hscan
    have hlong : scan (max (part.length + 1) (dumps value).length) (part ++ rest) = some (r.1, r.2 ++ rest) :=
      scan_append (Nat.le_max_left _ _) hrest hscan
    have hwhole : scan (max (part.length + 1) (dumps value).length) (dumps value ++ []) = some (join value, []) :=
      scan_dumps value (Nat.le_max_right _ _) endsWord_nil
    rw [← h] at hlong
    rw [List.append_nil, hlong, Option.some.injEq, Prod.mk.injEq] at hwhole
    exact absurd (List.append_eq_nil_iff.1 hwhole.2).2 hne

end JsonValue
