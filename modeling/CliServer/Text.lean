import Mathlib

/-!
# Text

Text is a list of characters, so that Python's `str` operations are list operations: `strip` removes white space at
both ends, `split` is `List.splitOn`, `join` is `List.intercalate`.  `lower` is `str.lower`: it is given for the
characters an identifier may have, and a `CaseTable` says what it is for the others.
-/

namespace CliServer

/-- Text, as Python indexes it. -/
abbrev Str := List Char

instance instLawfulBEqStr : LawfulBEq Str := inferInstance

/-- `str.isspace` of one character. -/
def isSpace (c : Char) : Bool :=
  let n := c.toNat
  (9 ≤ n && n ≤ 13) || (0x1c ≤ n && n ≤ 0x20) || n == 0x85 || n == 0xa0 || n == 0x1680 ||
    (0x2000 ≤ n && n ≤ 0x200a) || n == 0x2028 || n == 0x2029 || n == 0x202f || n == 0x205f || n == 0x3000

/-- `str.strip()`. -/
def strip (s : Str) : Str := (s.dropWhile isSpace).rdropWhile isSpace

/-- `str.strip("/")`. -/
def stripSlashes (s : Str) : Str := (s.dropWhile (· = '/')).rdropWhile (· = '/')

/-- The lower case of the ASCII characters, and of the four others that `[a-z]` matches when case is ignored. -/
def lowerChar (c : Char) : Option Str :=
  if c.toNat < 128 then some [c.toLower]
  else if c = '\u0130' then some ['i', '\u0307']
  else if c = '\u0131' then some ['\u0131']
  else if c = '\u017f' then some ['\u017f']
  else if c = '\u212a' then some ['k']
  else none

/-- The lower case of any other character, which may depend on what stands before and after it. -/
abbrev CaseTable := Str → Char → Str → Str

/-- `lower` of the rest of a text, after `before`. -/
def lowerFrom (t : CaseTable) (before : Str) : Str → Str
  | [] => []
  | c :: s => (lowerChar c).getD (t before c s) ++ lowerFrom t (before ++ [c]) s

/-- `str.lower()`. -/
def lower (t : CaseTable) (s : Str) : Str := lowerFrom t [] s

/-- The zeros of the decimal digits that `\d` matches: each is followed by the digits 1 to 9. -/
def decimalZeros : List Nat :=
  [0x30, 0x660, 0x6f0, 0x7c0, 0x966, 0x9e6, 0xa66, 0xae6, 0xb66, 0xbe6, 0xc66, 0xce6, 0xd66, 0xde6, 0xe50, 0xed0,
    0xf20, 0x1040, 0x1090, 0x17e0, 0x1810, 0x1946, 0x19d0, 0x1a80, 0x1a90, 0x1b50, 0x1bb0, 0x1c40, 0x1c50, 0xa620,
    0xa8d0, 0xa900, 0xa9d0, 0xa9f0, 0xaa50, 0xabf0, 0xff10, 0x104a0, 0x10d30, 0x11066, 0x110f0, 0x11136, 0x111d0,
    0x112f0, 0x11450, 0x114d0, 0x11650, 0x116c0, 0x11730, 0x118e0, 0x11950, 0x11c50, 0x11d50, 0x11da0, 0x16a60,
    0x16ac0, 0x16b50, 0x1d7ce, 0x1d7d8, 0x1d7e2, 0x1d7ec, 0x1d7f6, 0x1e140, 0x1e2f0, 0x1e950, 0x1fbf0]

/-- The value of a decimal digit. -/
def decimalValue (c : Char) : Option Nat :=
  (decimalZeros.find? fun z => z ≤ c.toNat && c.toNat ≤ z + 9).map fun z => c.toNat - z

/-- `int(s)` of a text of decimal digits, whose values are `ds`. -/
def digitsToNat (ds : List Nat) : Nat := ds.foldl (fun n d => 10 * n + d) 0

private theorem dropWhile_start {s t : Str} (h : t <+: s.dropWhile isSpace) : t.dropWhile isSpace = t := by
  cases t with
  | nil => rfl
  | cons c t =>
    obtain ⟨u, hu⟩ := h
    have hne : s.dropWhile isSpace ≠ [] := by
      rw [← hu]
      exact List.cons_ne_nil _ _
    have hc := List.head_dropWhile_not isSpace hne
    simp only [← hu, List.cons_append, List.head_cons] at hc
    rw [List.dropWhile_cons_of_neg (by simp [hc])]

theorem strip_strip (s : Str) : strip (strip s) = strip s := by
  have hstart := List.rdropWhile_prefix isSpace (s.dropWhile isSpace)
  unfold strip
  rw [dropWhile_start hstart, List.rdropWhile_idempotent]

theorem getLast?_rdropWhile_ne {α : Type*} {p : α → Bool} {l : List α} {c : α} (hc : p c = true) :
    (l.rdropWhile p).getLast? ≠ some c := by
  intro hlast
  obtain ⟨hne, rfl⟩ := List.mem_getLast?_eq_getLast hlast
  exact List.rdropWhile_last_not p l hne hc

/-- Stripped text does not end in white space. -/
theorem getLast?_strip_ne {s : Str} {c : Char} (hc : isSpace c = true) : (strip s).getLast? ≠ some c :=
  getLast?_rdropWhile_ne hc

/-- Text without white space is not changed by `strip`. -/
theorem strip_eq_self {s : Str} (h : ∀ c ∈ s, isSpace c = false) : strip s = s := by
  have hleft : s.dropWhile isSpace = s := by
    cases s with
    | nil => rfl
    | cons c s => rw [List.dropWhile_cons_of_neg (by simp [h c])]
  have hright : s.rdropWhile isSpace = s := by
    rw [List.rdropWhile_eq_self_iff]
    intro hne
    simp [h _ (List.getLast_mem hne)]
  rw [strip, hleft, hright]

theorem lower_eq_flatMap (t : CaseTable) {s : Str} (h : ∀ c ∈ s, (lowerChar c).isSome = true) :
    lower t s = s.flatMap fun c => (lowerChar c).getD [] := by
  have hfrom : ∀ before, lowerFrom t before s = s.flatMap fun c => (lowerChar c).getD [] := by
    induction s with
    | nil => exact fun _ => rfl
    | cons c s ih =>
      intro before
      obtain ⟨l, hl⟩ := Option.isSome_iff_exists.1 (h c List.mem_cons_self)
      rw [lowerFrom, ih (fun d hd => h d (List.mem_cons_of_mem _ hd)), List.flatMap_cons, hl]
      rfl
  exact hfrom []

end CliServer
