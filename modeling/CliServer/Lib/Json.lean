import Mathlib

/-!
# JSON

Texts are lists of code points, in which a surrogate may stand alone (Python's `str`).  `dump` writes a value in
ASCII, indented by two, and `load` reads one: it takes the escapes of a high and a low surrogate for one code point,
whether they were written for one or for two.  So what is loaded is what was dumped with its surrogates joined
(`load_dump`).

Of the values there are those without floats, negative numbers and truth values.
-/

namespace Json

abbrev CodePoint := Fin 0x110000

abbrev Text := List CodePoint

instance instLawfulBEqCodePoint : LawfulBEq CodePoint := inferInstance

instance instLawfulBEqText : LawfulBEq Text := inferInstance

def ofChar (c : Char) : CodePoint := Fin.ofNat 0x110000 c.toNat

theorem val_ofChar (c : Char) : (ofChar c).val = c.toNat := by
  refine Nat.mod_eq_of_lt ?_
  rcases c.valid with h | h
  · exact lt_trans h (by decide)
  · exact h.2

theorem ofChar_injective {c d : Char} (h : ofChar c = ofChar d) : c = d := by
  have hnat : c.toNat = d.toNat := by rw [← val_ofChar, ← val_ofChar, h]
  exact Char.ext (UInt32.toNat_inj.1 hnat)

/-- The text of characters. -/
def ofChars (s : List Char) : Text := s.map ofChar

def isHigh (n : Nat) : Bool := 0xD800 ≤ n && n < 0xDC00

def isLow (n : Nat) : Bool := 0xDC00 ≤ n && n < 0xE000

/-- The code point of a high and a low surrogate. -/
def joined (high low : Nat) : Nat := 0x10000 + (high - 0xD800) * 0x400 + (low - 0xDC00)

/-- Joins each high surrogate with a low one that follows. -/
def joinSurrogates : Text → Text
  | [] => []
  | [c] => [c]
  | c :: d :: s =>
    if isHigh c && isLow d then Fin.ofNat 0x110000 (joined c d) :: joinSurrogates s else c :: joinSurrogates (d :: s)

/-- A text without high surrogates has none to join. -/
theorem joinSurrogates_eq_self {s : Text} (h : ∀ c ∈ s, isHigh c.val = false) : joinSurrogates s = s := by
  induction s using joinSurrogates.induct with
  | case1 => rfl
  | case2 c => rfl
  | case3 c d s hjoin _ =>
    rw [h c List.mem_cons_self] at hjoin
    cases hjoin
  | case4 c d s hnot ih => rw [joinSurrogates, if_neg hnot, ih fun e he => h e (List.mem_cons_of_mem _ he)]

/-! ### String literals -/

def hexDigit (n : Nat) : Char := if n < 10 then Char.ofNat (0x30 + n) else Char.ofNat (0x61 + (n - 10))

def hexValue? (c : Char) : Option Nat :=
  let n := c.toNat
  if 0x30 ≤ n ∧ n ≤ 0x39 then some (n - 0x30)
  else if 0x41 ≤ n ∧ n ≤ 0x46 then some (n - 0x41 + 10)
  else if 0x61 ≤ n ∧ n ≤ 0x66 then some (n - 0x61 + 10)
  else none

/-- `\uXXXX`. -/
def unicodeEscape (n : Nat) : List Char :=
  ['\\', 'u', hexDigit (n / 0x1000), hexDigit (n / 0x100 % 0x10), hexDigit (n / 0x10 % 0x10), hexDigit (n % 0x10)]

/-- The characters that have an escape of their own, with its letter. -/
def shortEscapes : List (Nat × Char) :=
  [(0x22, '"'), (0x5C, '\\'), (0x0A, 'n'), (0x0D, 'r'), (0x09, 't'), (0x0C, 'f'), (0x08, 'b')]

/-- A code point as it is written. -/
def escape (c : CodePoint) : List Char :=
  match shortEscapes.lookup c.val with
  | some letter => ['\\', letter]
  | none =>
    if 0x20 ≤ c.val ∧ c.val < 0x7F then [Char.ofNat c.val]
    else if c.val < 0x10000 then unicodeEscape c.val
    else unicodeEscape (0xD800 + (c.val - 0x10000) / 0x400) ++ unicodeEscape (0xDC00 + (c.val - 0x10000) % 0x400)

def quote (s : Text) : List Char := '"' :: s.flatMap escape ++ ['"']

/-- What is read of a literal: a character, or the number of a `\uXXXX`. -/
inductive Piece where
  | raw (n : Nat)
  | escaped (n : Nat)

/-- The number of a letter after a backslash. -/
def shortEscape? (letter : Char) : Option Nat :=
  if letter = '/' then some 0x2F else (shortEscapes.find? (·.2 = letter)).map Prod.fst

/-- The number of four hexadecimal digits. -/
def hexNumber? (a b c d : Char) : Option Nat := do
  let a ← hexValue? a
  let b ← hexValue? b
  let c ← hexValue? c
  let d ← hexValue? d
  return ((a * 0x10 + b) * 0x10 + c) * 0x10 + d

/-- The pieces of a literal up to its closing quote, and what follows. -/
def pieces : List Char → Option (List Piece × List Char)
  | [] => none
  | c :: cs =>
    if c = '"' then some ([], cs)
    else if c = '\\' then
      match cs with
      | 'u' :: a :: b :: c :: d :: cs =>
        (hexNumber? a b c d).bind fun n => (pieces cs).map fun r => (.escaped n :: r.1, r.2)
      | letter :: cs => (shortEscape? letter).bind fun n => (pieces cs).map fun r => (.raw n :: r.1, r.2)
      | [] => none
    -- control characters
    else if c.toNat < 0x20 then none
    else (pieces cs).map fun r => (.raw c.toNat :: r.1, r.2)

/-- The text of the pieces. -/
def textOf : List Piece → Text
  | [] => []
  | .escaped n :: .escaped m :: ps =>
    if isHigh n && isLow m then Fin.ofNat 0x110000 (joined n m) :: textOf ps
    else Fin.ofNat 0x110000 n :: textOf (.escaped m :: ps)
  | .escaped n :: ps => Fin.ofNat 0x110000 n :: textOf ps
  | .raw n :: ps => Fin.ofNat 0x110000 n :: textOf ps

/-- A literal after its opening quote. -/
def scanString (cs : List Char) : Option (Text × List Char) := (pieces cs).map fun r => (textOf r.1, r.2)

/-- The pieces that are read of a code point. -/
def piecesOf (c : CodePoint) : List Piece :=
  if (shortEscapes.lookup c.val).isSome ∨ 0x20 ≤ c.val ∧ c.val < 0x7F then [.raw c.val]
  else if c.val < 0x10000 then [.escaped c.val]
  else [.escaped (0xD800 + (c.val - 0x10000) / 0x400), .escaped (0xDC00 + (c.val - 0x10000) % 0x400)]

theorem pieces_raw {c : Char} (hquote : c ≠ '"') (hbackslash : c ≠ '\\') (hcontrol : 0x20 ≤ c.toNat) (cs : List Char) :
    pieces (c :: cs) = (pieces cs).map fun r => (.raw c.toNat :: r.1, r.2) := by
  rw [pieces.eq_def]
  simp only [hquote, hbackslash, if_false, Nat.not_lt.2 hcontrol]

theorem pieces_short {letter : Char} (hletter : letter ≠ 'u') (cs : List Char) :
    pieces ('\\' :: letter :: cs) =
      (shortEscape? letter).bind fun n => (pieces cs).map fun r => (.raw n :: r.1, r.2) := by
  rw [pieces.eq_def]
  simp only [if_neg (show '\\' ≠ '"' by decide), if_true]
  split
  · next h => exact absurd (List.cons.inj h).1 hletter
  · next h =>
    obtain ⟨rfl, rfl⟩ := List.cons.inj h
    rfl
  · next h => cases h

theorem hexValue?_hexDigit {n : Nat} (hn : n < 16) : hexValue? (hexDigit n) = some n := by
  interval_cases n <;> decide

private theorem pieces_unicodeEscape {n : Nat} (hn : n < 0x10000) (cs : List Char) :
    pieces (unicodeEscape n ++ cs) = (pieces cs).map fun r => (.escaped n :: r.1, r.2) := by
  have hnumber : hexNumber? (hexDigit (n / 0x1000)) (hexDigit (n / 0x100 % 0x10)) (hexDigit (n / 0x10 % 0x10))
      (hexDigit (n % 0x10)) = some n := by
    have hself : ((n / 0x1000 * 0x10 + n / 0x100 % 0x10) * 0x10 + n / 0x10 % 0x10) * 0x10 + n % 0x10 = n := by omega
    rw [hexNumber?, hexValue?_hexDigit (by omega), hexValue?_hexDigit (by omega), hexValue?_hexDigit (by omega),
      hexValue?_hexDigit (by omega)]
    exact congrArg some hself
  have hread : pieces (unicodeEscape n ++ cs) = (hexNumber? (hexDigit (n / 0x1000)) (hexDigit (n / 0x100 % 0x10))
      (hexDigit (n / 0x10 % 0x10)) (hexDigit (n % 0x10))).bind
        fun n => (pieces cs).map fun r => (.escaped n :: r.1, r.2) := by
    rw [pieces.eq_def]
    rfl
  rw [hread, hnumber, Option.bind_some]

private theorem pieces_escape (c : CodePoint) (cs : List Char) :
    pieces (escape c ++ cs) = (pieces cs).map fun r => (piecesOf c ++ r.1, r.2) := by
  cases hshort : shortEscapes.lookup c.val with
  | some letter =>
    have hescape : escape c = ['\\', letter] := by rw [escape, hshort]
    have hpieces : piecesOf c = [.raw c.val] := if_pos (.inl (by rw [hshort]; rfl))
    have hletter : letter ≠ 'u' ∧ shortEscape? letter = some c.val := by
      obtain ⟨before, after, hsplit, -⟩ := List.lookup_eq_some_iff.1 hshort
      have hmem : (c.val, letter) ∈ shortEscapes := hsplit ▸ List.mem_append_right _ List.mem_cons_self
      have hall : ∀ e ∈ shortEscapes, e.2 ≠ 'u' ∧ shortEscape? e.2 = some e.1 := by decide
      exact hall _ hmem
    rw [hescape, hpieces]
    show pieces ('\\' :: letter :: cs) = _
    rw [pieces_short hletter.1, hletter.2]
    rfl
  | none =>
    have hnone : ¬ (shortEscapes.lookup c.val).isSome := by rw [hshort]; decide
    by_cases hprint : 0x20 ≤ c.val ∧ c.val < 0x7F
    · have hescape : escape c = [Char.ofNat c.val] := by rw [escape, hshort]; exact if_pos hprint
      have hpieces : piecesOf c = [.raw c.val] := if_pos (.inr hprint)
      have htoNat : (Char.ofNat c.val).toNat = c.val := by
        rw [Char.ofNat, dif_pos (.inl (by omega))]
        rfl
      have hne : ∀ d : Char, (shortEscapes.lookup d.toNat).isSome → Char.ofNat c.val ≠ d := by
        intro d hd heq
        rw [← heq, htoNat] at hd
        exact hnone hd
      rw [hescape, hpieces, List.singleton_append, pieces_raw (hne '"' (by decide)) (hne '\\' (by decide))
        (htoNat.symm ▸ hprint.1), htoNat]
      rfl
    · have hother : ¬ ((shortEscapes.lookup c.val).isSome ∨ 0x20 ≤ c.val ∧ c.val < 0x7F) := not_or.2 ⟨hnone, hprint⟩
      by_cases hbmp : c.val < 0x10000
      · have hescape : escape c = unicodeEscape c.val := by
          rw [escape, hshort]
          exact (if_neg hprint).trans (if_pos hbmp)
        have hpieces : piecesOf c = [.escaped c.val] := (if_neg hother).trans (if_pos hbmp)
        rw [hescape, hpieces, pieces_unicodeEscape hbmp]
        rfl
      · have hescape : escape c = unicodeEscape (0xD800 + (c.val - 0x10000) / 0x400) ++
            unicodeEscape (0xDC00 + (c.val - 0x10000) % 0x400) := by
          rw [escape, hshort]
          exact (if_neg hprint).trans (if_neg hbmp)
        have hpieces : piecesOf c = [.escaped (0xD800 + (c.val - 0x10000) / 0x400),
            .escaped (0xDC00 + (c.val - 0x10000) % 0x400)] := (if_neg hother).trans (if_neg hbmp)
        have hlt := c.2
        rw [hescape, hpieces, List.append_assoc, pieces_unicodeEscape (by omega), pieces_unicodeEscape (by omega),
          Option.map_map]
        rfl

private theorem ofNat_val (c : CodePoint) : Fin.ofNat 0x110000 c.val = c := Fin.ext (Nat.mod_eq_of_lt c.2)

private theorem textOf_escaped {n : Nat} {ps : List Piece}
    (h : ∀ m rest, ps = .escaped m :: rest → (isHigh n && isLow m) = false) :
    textOf (.escaped n :: ps) = Fin.ofNat 0x110000 n :: textOf ps := by
  match ps with
  | [] => rfl
  | .raw m :: rest => rfl
  | .escaped m :: rest => simp [textOf, h m rest rfl]

private theorem piecesOf_surrogate {c : CodePoint} (h : 0xD800 ≤ c.val ∧ c.val < 0xE000) :
    piecesOf c = [.escaped c.val] := by
  have hshort : shortEscapes.lookup c.val = none := by
    rw [List.lookup_eq_none_iff]
    intro e he
    have hall : ∀ e ∈ shortEscapes, e.1 < 0x80 := by decide
    have hlt := hall e he
    rw [bne_iff_ne]
    omega
  have hother : ¬ ((shortEscapes.lookup c.val).isSome ∨ 0x20 ≤ c.val ∧ c.val < 0x7F) := by
    rw [hshort]
    rintro (h | h)
    · cases h
    · omega
  rw [piecesOf, if_neg hother, if_pos (by omega)]

/-- A code point that is no high surrogate is read on its own. -/
private theorem textOf_piecesOf {c : CodePoint} (h : isHigh c.val = false) (ps : List Piece) :
    textOf (piecesOf c ++ ps) = c :: textOf ps := by
  unfold piecesOf
  split
  · exact congrArg (· :: textOf ps) (ofNat_val c)
  · split
    · rw [List.singleton_append, textOf_escaped fun m rest _ => by rw [h, Bool.false_and], ofNat_val]
    · next hastral =>
      have hlt := c.2
      have hhigh : isHigh (0xD800 + (c.val - 0x10000) / 0x400) = true := by
        rw [isHigh, Bool.and_eq_true, decide_eq_true_eq, decide_eq_true_eq]
        omega
      have hlow : isLow (0xDC00 + (c.val - 0x10000) % 0x400) = true := by
        rw [isLow, Bool.and_eq_true, decide_eq_true_eq, decide_eq_true_eq]
        omega
      have hjoined : joined (0xD800 + (c.val - 0x10000) / 0x400) (0xDC00 + (c.val - 0x10000) % 0x400) = c.val := by
        unfold joined
        omega
      rw [List.cons_append, List.singleton_append, textOf, hhigh, hlow, hjoined, ofNat_val]
      rfl

/-- The first piece of a code point is a low surrogate only when the code point is. -/
private theorem isLow_piecesOf {c : CodePoint} {m : Nat} {ps rest : List Piece}
    (h : piecesOf c ++ ps = .escaped m :: rest)
    (hlow : isLow m = true) : isLow c.val = true := by
  unfold piecesOf at h
  split at h
  · cases h
  · split at h
    · obtain ⟨hm, -⟩ := List.cons.inj h
      rw [Piece.escaped.inj hm]
      exact hlow
    · obtain ⟨hm, -⟩ := List.cons.inj h
      have hlt := c.2
      rw [← Piece.escaped.inj hm, isLow, Bool.and_eq_true, decide_eq_true_eq, decide_eq_true_eq] at hlow
      omega

private theorem surrogate_of_high {c : CodePoint} (h : isHigh c.val = true) : piecesOf c = [.escaped c.val] := by
  rw [isHigh, Bool.and_eq_true, decide_eq_true_eq, decide_eq_true_eq] at h
  exact piecesOf_surrogate (by omega)

private theorem surrogate_of_low {c : CodePoint} (h : isLow c.val = true) : piecesOf c = [.escaped c.val] := by
  rw [isLow, Bool.and_eq_true, decide_eq_true_eq, decide_eq_true_eq] at h
  exact piecesOf_surrogate (by omega)

/-- A high surrogate is, too, before anything but a low one. -/
private theorem textOf_piecesOf_high {c : CodePoint} (h : isHigh c.val = true) {ps : List Piece}
    (hps : ∀ m rest, ps = .escaped m :: rest → isLow m = false) : textOf (piecesOf c ++ ps) = c :: textOf ps := by
  rw [surrogate_of_high h, List.singleton_append,
    textOf_escaped fun m rest heq => by rw [hps m rest heq, Bool.and_false], ofNat_val]

private theorem textOf_pieces (s : Text) : textOf (s.flatMap piecesOf) = joinSurrogates s := by
  induction s using joinSurrogates.induct with
  | case1 => rfl
  | case2 c =>
    rw [List.flatMap_cons, List.flatMap_nil]
    by_cases hc : isHigh c.val = true
    · exact textOf_piecesOf_high hc fun m rest h => by cases h
    · exact textOf_piecesOf (Bool.eq_false_iff.2 hc) []
  | case3 c d s hjoin ih =>
    obtain ⟨hc, hd⟩ := Bool.and_eq_true_iff.1 hjoin
    rw [joinSurrogates, if_pos hjoin, ← ih, List.flatMap_cons, List.flatMap_cons, surrogate_of_high hc,
      surrogate_of_low hd]
    exact if_pos hjoin
  | case4 c d s hnot ih =>
    rw [joinSurrogates, if_neg hnot, ← ih, List.flatMap_cons]
    by_cases hc : isHigh c.val = true
    · refine textOf_piecesOf_high hc fun m rest h => ?_
      rw [Bool.eq_false_iff]
      intro hm
      exact hnot (by rw [hc, isLow_piecesOf h hm]; rfl)
    · exact textOf_piecesOf (Bool.eq_false_iff.2 hc) _

/-- A literal is read back with its surrogates joined. -/
theorem scanString_quote (s : Text) (cs : List Char) :
    scanString (s.flatMap escape ++ '"' :: cs) = some (joinSurrogates s, cs) := by
  have hpieces : pieces (s.flatMap escape ++ '"' :: cs) = some (s.flatMap piecesOf, cs) := by
    induction s with
    | nil => rw [List.flatMap_nil, List.flatMap_nil, List.nil_append, pieces.eq_def]; rfl
    | cons c s ih =>
      rw [List.flatMap_cons, List.append_assoc, pieces_escape, ih]
      rfl
  rw [scanString, hpieces, Option.map_some, textOf_pieces]

/-! ### Values -/

end Json

/-- A JSON value; an object has the members as they were written. -/
inductive Json where
  | null
  | num (n : Nat)
  | str (s : Json.Text)
  | arr (items : List Json)
  | obj (members : List (Json.Text × Json))

namespace Json

/-- A line break, and the indentation. -/
def newline (level : Nat) : List Char := '\n' :: List.replicate (2 * level) ' '

def digitChar (d : Nat) : Char := Char.ofNat (0x30 + d)

/-- `str(n)`. -/
def decimal (n : Nat) : List Char := if n = 0 then ['0'] else (Nat.digits 10 n).reverse.map digitChar

mutual

/-- `json.dump(value, f, indent=2)`. -/
def dumpAt (level : Nat) : Json → List Char
  | null => ['n', 'u', 'l', 'l']
  | num n => decimal n
  | str s => quote s
  | arr [] => ['[', ']']
  | arr (item :: items) =>
    '[' :: newline (level + 1) ++ dumpAt (level + 1) item ++ dumpItems (level + 1) items ++ newline level ++ [']']
  | obj [] => ['{', '}']
  | obj ((key, value) :: members) =>
    '{' :: newline (level + 1) ++ quote key ++ [':', ' '] ++ dumpAt (level + 1) value ++
      dumpMembers (level + 1) members ++ newline level ++ ['}']

def dumpItems (level : Nat) : List Json → List Char
  | [] => []
  | item :: items => ',' :: newline level ++ dumpAt level item ++ dumpItems level items

def dumpMembers (level : Nat) : List (Text × Json) → List Char
  | [] => []
  | (key, value) :: members =>
    ',' :: newline level ++ quote key ++ [':', ' '] ++ dumpAt level value ++ dumpMembers level members

end

def dump (value : Json) : List Char := dumpAt 0 value

def isBlank (c : Char) : Bool := c = ' ' || c = '\t' || c = '\n' || c = '\r'

def skip (cs : List Char) : List Char := cs.dropWhile isBlank

def digit? (c : Char) : Option Nat := if 0x30 ≤ c.toNat ∧ c.toNat ≤ 0x39 then some (c.toNat - 0x30) else none

/-- The digits at the start. -/
def scanDigits : List Char → List Nat × List Char
  | [] => ([], [])
  | c :: cs =>
    match digit? c with
    | some d => (d :: (scanDigits cs).1, (scanDigits cs).2)
    | none => ([], c :: cs)

/-- A number does not go on after a zero. -/
def scanNumber : List Char → Option (Json × List Char)
  | '0' :: cs => some (num 0, cs)
  | cs =>
    match scanDigits cs with
    | ([], _) => none
    | (d :: ds, rest) => some (num ((d :: ds).foldl (fun n d => 10 * n + d) 0), rest)

mutual

/-- `scan_once`; every level takes one of `fuel`. -/
def scan : Nat → List Char → Option (Json × List Char)
  | 0, _ => none
  | fuel + 1, cs =>
    match cs with
    | '"' :: cs => (scanString cs).map fun r => (str r.1, r.2)
    | '{' :: cs =>
      match skip cs with
      | '}' :: cs => some (obj [], cs)
      | cs => (scanMembers fuel cs).map fun r => (obj r.1, r.2)
    | '[' :: cs =>
      match skip cs with
      | ']' :: cs => some (arr [], cs)
      | cs => (scanItems fuel cs).map fun r => (arr r.1, r.2)
    | 'n' :: 'u' :: 'l' :: 'l' :: cs => some (null, cs)
    | cs => scanNumber cs

def scanItems : Nat → List Char → Option (List Json × List Char)
  | 0, _ => none
  | fuel + 1, cs =>
    (scan fuel cs).bind fun r =>
      match skip r.2 with
      | ',' :: cs => (scanItems fuel (skip cs)).map fun items => (r.1 :: items.1, items.2)
      | ']' :: cs => some ([r.1], cs)
      | _ => none

def scanMembers : Nat → List Char → Option (List (Text × Json) × List Char)
  | 0, _ => none
  | fuel + 1, cs =>
    match cs with
    | '"' :: cs =>
      (scanString cs).bind fun key =>
        match skip key.2 with
        | ':' :: cs =>
          (scan fuel (skip cs)).bind fun r =>
            match skip r.2 with
            | ',' :: cs => (scanMembers fuel (skip cs)).map fun members => ((key.1, r.1) :: members.1, members.2)
            | '}' :: cs => some ([(key.1, r.1)], cs)
            | _ => none
        | _ => none
    | _ => none

end

/-- `json.load(f)`. -/
def load (cs : List Char) : Option Json :=
  (scan (cs.length + 1) (skip cs)).bind fun r => if skip r.2 = [] then some r.1 else none

mutual

/-- The value with the surrogates of its texts joined. -/
def join : Json → Json
  | null => null
  | num n => num n
  | str s => str (joinSurrogates s)
  | arr items => arr (joinItems items)
  | obj members => obj (joinMembers members)

def joinItems : List Json → List Json
  | [] => []
  | item :: items => join item :: joinItems items

def joinMembers : List (Text × Json) → List (Text × Json)
  | [] => []
  | (key, value) :: members => (joinSurrogates key, join value) :: joinMembers members

end

mutual

/-- The levels that `scan` needs. -/
def size : Json → Nat
  | null => 1
  | num _ => 1
  | str _ => 1
  | arr items => 1 + sizeItems items
  | obj members => 1 + sizeMembers members

def sizeItems : List Json → Nat
  | [] => 0
  | item :: items => 1 + size item + sizeItems items

def sizeMembers : List (Text × Json) → Nat
  | [] => 0
  | (_, value) :: members => 1 + size value + sizeMembers members

end

/-! ### Numbers and blanks -/

/-- What follows a value does not go on with a number. -/
def NoDigit (rest : List Char) : Prop := ∀ c cs, rest = c :: cs → digit? c = none

private theorem digit?_digitChar {d : Nat} (hd : d < 10) : digit? (digitChar d) = some d := by
  interval_cases d <;> decide

private theorem scanDigits_map {ds : List Nat} (hds : ∀ d ∈ ds, d < 10) {rest : List Char} (hrest : NoDigit rest) :
    scanDigits (ds.map digitChar ++ rest) = (ds, rest) := by
  induction ds with
  | nil =>
    cases rest with
    | nil => rfl
    | cons c cs => rw [List.map_nil, List.nil_append, scanDigits, hrest c cs rfl]
  | cons d ds ih =>
    rw [List.map_cons, List.cons_append, scanDigits, digit?_digitChar (hds d List.mem_cons_self),
      ih fun d hd => hds d (List.mem_cons_of_mem _ hd)]

/-- The digits of a positive number, the first of which is not zero. -/
private theorem digits_reverse {n : Nat} (hn : n ≠ 0) : ∃ d ds, (Nat.digits 10 n).reverse = d :: ds ∧ d ≠ 0 ∧
    (∀ e ∈ d :: ds, e < 10) ∧ (d :: ds).foldl (fun n d => 10 * n + d) 0 = n := by
  have hne : Nat.digits 10 n ≠ [] := Nat.digits_ne_nil_iff_ne_zero.2 hn
  obtain ⟨d, ds, hds⟩ := List.exists_cons_of_ne_nil (mt List.reverse_eq_nil_iff.1 hne)
  have hvalue : (Nat.digits 10 n).reverse.foldl (fun n d => 10 * n + d) 0 = n := by
    rw [List.foldl_reverse]
    have hfoldr := (Nat.ofDigits_eq_foldr 10 (Nat.digits 10 n)).symm.trans (Nat.ofDigits_digits 10 n)
    simpa [Nat.add_comm] using hfoldr
  have hlt : ∀ e ∈ d :: ds, e < 10 := by
    intro e he
    rw [← hds] at he
    exact Nat.digits_lt_base (by norm_num) (List.mem_reverse.1 he)
  have hfirst : (Nat.digits 10 n).getLast hne = d := by
    have hhead := List.head_reverse (mt List.reverse_eq_nil_iff.1 hne)
    simp only [hds, List.head_cons] at hhead
    exact hhead.symm
  exact ⟨d, ds, hds, hfirst ▸ Nat.getLast_digit_ne_zero 10 hn, hlt, hds ▸ hvalue⟩

private theorem scanNumber_decimal (n : Nat) {rest : List Char} (hrest : NoDigit rest) :
    scanNumber (decimal n ++ rest) = some (num n, rest) := by
  unfold decimal
  split
  · next hzero => rw [hzero]; rfl
  · next hpos =>
    obtain ⟨d, ds, hds, hfirst, hlt, hvalue⟩ := digits_reverse hpos
    have hscan := scanDigits_map hlt hrest
    have hne : digitChar d ≠ '0' := by
      have hd := hlt d List.mem_cons_self
      interval_cases d <;> first | exact absurd rfl hfirst | decide
    rw [hds]
    rw [List.map_cons, List.cons_append] at hscan ⊢
    unfold scanNumber
    split
    · next h => exact absurd (List.cons.inj h).1 hne
    · rw [hscan]
      exact congrArg (fun n => some (num n, rest)) hvalue

/-- A number begins with a digit. -/
private theorem decimal_cons (n : Nat) : ∃ d cs, decimal n = digitChar d :: cs ∧ d < 10 := by
  unfold decimal
  split
  · exact ⟨0, [], rfl, by norm_num⟩
  · next hpos =>
    obtain ⟨d, ds, hds, -, hlt, -⟩ := digits_reverse hpos
    exact ⟨d, ds.map digitChar, by rw [hds, List.map_cons], hlt d List.mem_cons_self⟩

private theorem scan_number {c : Char} {d : Nat} (hc : digit? c = some d) (fuel : Nat) (cs : List Char) :
    scan (fuel + 1) (c :: cs) = scanNumber (c :: cs) := by
  have hne : ∀ e : Char, digit? e = none → c ≠ e := by
    rintro e he rfl
    rw [hc] at he
    cases he
  simp only [scan]
  split
  · next h => exact absurd (List.cons.inj h).1 (hne _ (by decide))
  · next h => exact absurd (List.cons.inj h).1 (hne _ (by decide))
  · next h => exact absurd (List.cons.inj h).1 (hne _ (by decide))
  · next h => exact absurd (List.cons.inj h).1 (hne _ (by decide))
  · rfl

private theorem skip_newline (level : Nat) (cs : List Char) : skip (newline level ++ cs) = skip cs := by
  have hspaces : ∀ n, skip (List.replicate n ' ' ++ cs) = skip cs := by
    intro n
    induction n with
    | zero => rfl
    | succ n ih => rw [List.replicate_succ, List.cons_append, skip, List.dropWhile_cons_of_pos (by decide)]; exact ih
  rw [newline, List.cons_append, skip, List.dropWhile_cons_of_pos (by decide)]
  exact hspaces _

theorem skip_cons {c : Char} (hc : isBlank c = false) (cs : List Char) : skip (c :: cs) = c :: cs :=
  List.dropWhile_cons_of_neg (by rw [hc]; decide)

/-- A value begins with a character that is neither blank nor a closing bracket. -/
private theorem dumpAt_head (level : Nat) (value : Json) :
    ∃ c cs, dumpAt level value = c :: cs ∧ isBlank c = false ∧ c ≠ ']' := by
  cases value with
  | null => exact ⟨_, _, rfl, by decide, by decide⟩
  | num n =>
    obtain ⟨d, cs, hcs, hd⟩ := decimal_cons n
    have hchar : isBlank (digitChar d) = false ∧ digitChar d ≠ ']' := by interval_cases d <;> decide
    exact ⟨digitChar d, cs, hcs, hchar⟩
  | str s => exact ⟨_, _, rfl, by decide, by decide⟩
  | arr items =>
    cases items with
    | nil => exact ⟨_, _, rfl, by decide, by decide⟩
    | cons item items => exact ⟨_, _, rfl, by decide, by decide⟩
  | obj members =>
    cases members with
    | nil => exact ⟨_, _, rfl, by decide, by decide⟩
    | cons member members => exact ⟨_, _, rfl, by decide, by decide⟩

private theorem skip_dumpAt (level : Nat) (value : Json) (cs : List Char) :
    skip (newline level ++ (dumpAt level value ++ cs)) = dumpAt level value ++ cs := by
  obtain ⟨c, tail, hdump, hblank, -⟩ := dumpAt_head level value
  rw [skip_newline, hdump, List.cons_append, skip_cons hblank]

theorem quote_append (s : Text) (rest : List Char) : quote s ++ rest = '"' :: (s.flatMap escape ++ '"' :: rest) := by
  simp [quote]

theorem scan_arr {fuel : Nat} {c : Char} {cs tail : List Char} (hskip : skip cs = c :: tail) (hc : c ≠ ']') :
    scan (fuel + 1) ('[' :: cs) = (scanItems fuel (skip cs)).map fun r => (arr r.1, r.2) := by
  simp only [scan, hskip]
  split
  · next h => exact absurd (List.cons.inj h).1 hc
  · rfl

theorem scan_obj {fuel : Nat} {c : Char} {cs tail : List Char} (hskip : skip cs = c :: tail) (hc : c ≠ '}') :
    scan (fuel + 1) ('{' :: cs) = (scanMembers fuel (skip cs)).map fun r => (obj r.1, r.2) := by
  simp only [scan, hskip]
  split
  · next h => exact absurd (List.cons.inj h).1 hc
  · rfl

private theorem noDigit_cons {c : Char} (hc : digit? c = none) (cs : List Char) : NoDigit (c :: cs) := by
  intro d tail h
  rw [← (List.cons.inj h).1]
  exact hc

private theorem noDigit_newline (level : Nat) (cs : List Char) :
    NoDigit (newline level ++ cs) := noDigit_cons (by decide) _

private theorem noDigit_items (level : Nat) (items : List Json) (cs : List Char) (hcs : NoDigit cs) :
    NoDigit (dumpItems level items ++ cs) := by
  cases items with
  | nil => exact hcs
  | cons item items => exact noDigit_cons (by decide) _

private theorem noDigit_members (level : Nat) (members : List (Text × Json)) (cs : List Char) (hcs : NoDigit cs) :
    NoDigit (dumpMembers level members ++ cs) := by
  cases members with
  | nil => exact hcs
  | cons member members => exact noDigit_cons (by decide) _

/-! ### Reading what was written -/

/-- With this fuel every value that needs no more is read back. -/
def ScansValues (fuel : Nat) : Prop := ∀ (level : Nat) (value : Json) (rest : List Char), size value ≤ fuel →
  NoDigit rest → scan fuel (dumpAt level value ++ rest) = some (join value, rest)

def ScansItems (fuel : Nat) : Prop :=
  ∀ (level : Nat) (item : Json) (items : List Json) (outer : Nat) (rest : List Char),
  sizeItems (item :: items) ≤ fuel →
    scanItems fuel (dumpAt level item ++ (dumpItems level items ++ (newline outer ++ ']' :: rest))) =
      some (joinItems (item :: items), rest)

def ScansMembers (fuel : Nat) : Prop := ∀ (level : Nat) (key : Text) (value : Json) (members : List (Text × Json))
  (outer : Nat) (rest : List Char), sizeMembers ((key, value) :: members) ≤ fuel →
    scanMembers fuel (quote key ++ (':' :: ' ' :: (dumpAt level value ++
      (dumpMembers level members ++ (newline outer ++ '}' :: rest))))) =
      some (joinMembers ((key, value) :: members), rest)

theorem scansItems_succ {fuel : Nat} (hvalues : ScansValues fuel) (hitems : ScansItems fuel) :
    ScansItems (fuel + 1) := by
  intro level item items outer rest hfuel
  rw [sizeItems] at hfuel
  have hscan := hvalues level item _ (by omega) (noDigit_items level items _ (noDigit_newline outer (']' :: rest)))
  rw [scanItems, hscan, Option.bind_some]
  cases items with
  | nil =>
    have hskip : skip (dumpItems level [] ++ (newline outer ++ ']' :: rest)) = ']' :: rest := by
      rw [dumpItems, List.nil_append, skip_newline, skip_cons (by decide)]
    simp only [hskip, joinItems]
  | cons next items =>
    have hskip : skip (dumpItems level (next :: items) ++ (newline outer ++ ']' :: rest)) =
        ',' :: (newline level ++ (dumpAt level next ++ (dumpItems level items ++ (newline outer ++ ']' :: rest)))) := by
      have htext : dumpItems level (next :: items) ++ (newline outer ++ ']' :: rest) =
          ',' :: (newline level ++ (dumpAt level next ++ (dumpItems level items ++ (newline outer ++ ']' :: rest)))) := by
        simp [dumpItems]
      rw [htext, skip_cons (by decide)]
    have hrest := hitems level next items outer rest (by omega)
    simp only [hskip, skip_dumpAt, hrest, Option.map_some, joinItems]

theorem skip_quote (level : Nat) (s : Text) (cs : List Char) :
    skip (newline level ++ (quote s ++ cs)) = quote s ++ cs := by
  rw [skip_newline, quote_append, skip_cons (by decide)]

theorem scansMembers_succ {fuel : Nat} (hvalues : ScansValues fuel) (hmembers : ScansMembers fuel) :
    ScansMembers (fuel + 1) := by
  intro level key value members outer rest hfuel
  rw [sizeMembers] at hfuel
  have hscan := hvalues level value _ (by omega) (noDigit_members level members _ (noDigit_newline outer ('}' :: rest)))
  have hblank : ∀ cs, skip (' ' :: (dumpAt level value ++ cs)) = dumpAt level value ++ cs := by
    intro cs
    obtain ⟨c, tail, hdump, hc, -⟩ := dumpAt_head level value
    rw [hdump, List.cons_append, skip, List.dropWhile_cons_of_pos (by decide)]
    exact skip_cons hc _
  rw [quote_append]
  simp only [scanMembers, scanString_quote, Option.bind_some, skip_cons (show isBlank ':' = false by decide), hblank, hscan]
  cases members with
  | nil =>
    have hskip : skip (dumpMembers level [] ++ (newline outer ++ '}' :: rest)) = '}' :: rest := by
      rw [dumpMembers, List.nil_append, skip_newline, skip_cons (by decide)]
    simp only [hskip, joinMembers]
  | cons member members =>
    obtain ⟨next, nextValue⟩ := member
    have hskip : skip (dumpMembers level ((next, nextValue) :: members) ++ (newline outer ++ '}' :: rest)) =
        ',' :: (newline level ++ (quote next ++ (':' :: ' ' :: (dumpAt level nextValue ++
          (dumpMembers level members ++ (newline outer ++ '}' :: rest)))))) := by
      have htext : dumpMembers level ((next, nextValue) :: members) ++ (newline outer ++ '}' :: rest) =
          ',' :: (newline level ++ (quote next ++ (':' :: ' ' :: (dumpAt level nextValue ++
            (dumpMembers level members ++ (newline outer ++ '}' :: rest)))))) := by simp [dumpMembers]
      rw [htext, skip_cons (by decide)]
    have hrest := hmembers level next nextValue members outer rest (by omega)
    simp only [hskip, skip_quote, hrest, Option.map_some, joinMembers]

theorem scansValues_succ {fuel : Nat} (hitems : ScansItems fuel) (hmembers : ScansMembers fuel) :
    ScansValues (fuel + 1) := by
  intro level value rest hfuel hrest
  cases value with
  | null => rfl
  | num n =>
    obtain ⟨d, cs, hcs, hd⟩ := decimal_cons n
    have hscan := scanNumber_decimal n hrest
    rw [hcs, List.cons_append] at hscan
    rw [dumpAt, hcs, List.cons_append, scan_number (digit?_digitChar hd), hscan, join]
  | str s =>
    have hscan := scanString_quote s rest
    rw [dumpAt, quote_append]
    show (scanString _).map _ = _
    rw [hscan]
    rfl
  | arr items =>
    cases items with
    | nil => rfl
    | cons item items =>
      rw [size] at hfuel
      have hread := hitems (level + 1) item items level rest (by omega)
      have hskip := skip_dumpAt (level + 1) item (dumpItems (level + 1) items ++ (newline level ++ ']' :: rest))
      have htext : dumpAt level (arr (item :: items)) ++ rest =
        '[' :: (newline (level + 1) ++ (dumpAt (level + 1) item ++
          (dumpItems (level + 1) items ++ (newline level ++ ']' :: rest)))) := by simp [dumpAt]
      obtain ⟨c, tail, hdump, -, hc⟩ := dumpAt_head (level + 1) item
      have hhead := hskip.trans (congrArg (· ++ _) hdump)
      rw [htext, scan_arr hhead hc, hskip, hread]
      rfl
  | obj members =>
    cases members with
    | nil => rfl
    | cons member members =>
      obtain ⟨key, value⟩ := member
      rw [size] at hfuel
      have hread := hmembers (level + 1) key value members level rest (by omega)
      have htext : dumpAt level (obj ((key, value) :: members)) ++ rest = '{' :: (newline (level + 1) ++ (quote key ++
          (':' :: ' ' :: (dumpAt (level + 1) value ++ (dumpMembers (level + 1) members ++
            (newline level ++ '}' :: rest)))))) := by simp [dumpAt]
      have hskip := skip_quote (level + 1) key (':' :: ' ' :: (dumpAt (level + 1) value ++
        (dumpMembers (level + 1) members ++ (newline level ++ '}' :: rest))))
      have hhead := hskip.trans (quote_append key _)
      rw [htext, scan_obj hhead (by decide), hskip, hread]
      rfl

theorem scans (fuel : Nat) : ScansValues fuel ∧ ScansItems fuel ∧ ScansMembers fuel := by
  induction fuel with
  | zero =>
    refine ⟨fun level value rest hfuel => ?_, fun level item items outer rest hfuel => ?_,
      fun level key value members outer rest hfuel => ?_⟩
    · cases value <;> simp [size] at hfuel
    · simp [sizeItems] at hfuel
    · simp [sizeMembers] at hfuel
  | succ fuel ih =>
    obtain ⟨hvalues, hitems, hmembers⟩ := ih
    exact ⟨scansValues_succ hitems hmembers, scansItems_succ hvalues hitems, scansMembers_succ hvalues hmembers⟩

/-! ### Enough fuel -/

mutual

theorem size_le_length (level : Nat) (value : Json) : size value ≤ (dumpAt level value).length := by
  cases value with
  | null => exact Nat.le_add_left 1 3
  | num n =>
    obtain ⟨d, cs, hcs, -⟩ := decimal_cons n
    rw [size, dumpAt, hcs, List.length_cons]
    omega
  | str s =>
    rw [size, dumpAt, quote, List.cons_append, List.length_cons]
    omega
  | arr items =>
    cases items with
    | nil => exact Nat.le_add_left 1 1
    | cons item items =>
      have hitem := size_le_length (level + 1) item
      have hitems := sizeItems_le_length (level + 1) items
      simp only [size, sizeItems, dumpAt, newline, List.cons_append, List.length_cons, List.length_append]
      omega
  | obj members =>
    cases members with
    | nil => exact Nat.le_add_left 1 1
    | cons member members =>
      obtain ⟨key, value⟩ := member
      have hvalue := size_le_length (level + 1) value
      have hmembers := sizeMembers_le_length (level + 1) members
      simp only [size, sizeMembers, dumpAt, newline, List.cons_append, List.length_cons, List.length_append]
      omega

theorem sizeItems_le_length (level : Nat) (items : List Json) : sizeItems items ≤ (dumpItems level items).length := by
  cases items with
  | nil => exact Nat.le_refl 0
  | cons item items =>
    have hitem := size_le_length level item
    have hitems := sizeItems_le_length level items
    simp only [sizeItems, dumpItems, newline, List.cons_append, List.length_cons, List.length_append]
    omega

theorem sizeMembers_le_length (level : Nat) (members : List (Text × Json)) :
    sizeMembers members ≤ (dumpMembers level members).length := by
  cases members with
  | nil => exact Nat.le_refl 0
  | cons member members =>
    obtain ⟨key, value⟩ := member
    have hvalue := size_le_length level value
    have hmembers := sizeMembers_le_length level members
    simp only [sizeMembers, dumpMembers, newline, List.cons_append, List.length_cons, List.length_append]
    omega

end

/-- What was dumped is loaded with its surrogates joined. -/
theorem load_dump (value : Json) : load (dump value) = some (join value) := by
  have hfuel : size value ≤ (dump value).length + 1 := (size_le_length 0 value).trans (Nat.le_succ _)
  have hscan := (scans _).1 0 value [] hfuel fun c cs h => by cases h
  obtain ⟨c, tail, hdump, hc, -⟩ := dumpAt_head 0 value
  have hskip : skip (dump value) = dump value := by
    rw [dump, hdump]
    exact skip_cons hc tail
  rw [List.append_nil] at hscan
  rw [load, hskip]
  show (scan _ (dumpAt 0 value)).bind _ = _
  rw [hscan]
  rfl

end Json
