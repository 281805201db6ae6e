import CliServer.Lib.Json
import CliServer.Text

/-!
# Texts with surrogates

A text of Python may have surrogates that stand alone: it is a list of code points, and the texts of characters are
those without surrogates.  A surrogate is in no class of a regular expression here, and is no white space.
-/

namespace CliServer

open Json (CodePoint Text ofChar ofChars)

/-- The character of a code point; a surrogate is none. -/
def char? (c : CodePoint) : Option Char :=
  if h : c.val.isValidChar then some (Char.ofNatAux c.val h) else none

/-- `str.isspace` of one code point. -/
def isSpacePoint (c : CodePoint) : Bool := isSpace (Char.ofNat c.val)

/-- `str.strip()`. -/
def stripText (s : Text) : Text := (s.dropWhile isSpacePoint).rdropWhile isSpacePoint

theorem ofChars_injective : Function.Injective ofChars := List.map_injective_iff.2 fun _ _ => Json.ofChar_injective

theorem char?_ofChar (c : Char) : char? (ofChar c) = some c := by
  have hvalid : (ofChar c).val.isValidChar := by
    rw [Json.val_ofChar]
    exact c.valid
  rw [char?, dif_pos hvalid, Option.some_inj]
  refine Char.ext (UInt32.toNat_inj.1 ?_)
  show (ofChar c).val = c.toNat
  exact Json.val_ofChar c

theorem char?_eq_some_iff {c : CodePoint} {d : Char} : char? c = some d ↔ c = ofChar d := by
  constructor
  · intro h
    unfold char? at h
    split at h
    · rename_i hvalid
      obtain rfl := Option.some.inj h
      refine Fin.ext ?_
      rw [Json.val_ofChar]
      rfl
    · cases h
  · rintro rfl
    exact char?_ofChar d

/-- The code points of a class of characters. -/
theorem any_char?_iff {p : Char → Bool} {c : CodePoint} : (char? c).any p = true ↔ ∃ d, p d = true ∧ c = ofChar d := by
  rw [Option.any_eq_true]
  constructor
  · rintro ⟨d, hd, hp⟩
    exact ⟨d, hp, char?_eq_some_iff.1 hd⟩
  · rintro ⟨d, hp, rfl⟩
    exact ⟨d, char?_ofChar d, hp⟩

/-- Texts of characters are those whose code points are. -/
theorem map_char?_eq_iff {s : Text} {v : Str} : s.map char? = v.map some ↔ s = ofChars v := by
  induction s generalizing v with
  | nil => cases v <;> simp [ofChars]
  | cons c s ih =>
    cases v with
    | nil => simp [ofChars]
    | cons d v =>
      rw [List.map_cons, List.map_cons, List.cons.injEq, ih, char?_eq_some_iff, ofChars, ofChars, List.map_cons,
        List.cons.injEq]

private theorem isSpacePoint_ofChar (c : Char) : isSpacePoint (ofChar c) = isSpace c := by
  rw [isSpacePoint, Json.val_ofChar, Char.ofNat_toNat]

theorem stripText_ofChars (s : Str) : stripText (ofChars s) = ofChars (strip s) := by
  have hspace : isSpacePoint ∘ ofChar = isSpace := funext isSpacePoint_ofChar
  rw [stripText, strip, ofChars, List.dropWhile_map, hspace, List.rdropWhile, List.rdropWhile, ← List.map_reverse,
    List.dropWhile_map, hspace]
  exact List.map_reverse.symm

/-- Stripped text does not end in white space. -/
theorem getLast?_stripText_ne {s : Text} {c : CodePoint} (hc : isSpacePoint c = true) :
    (stripText s).getLast? ≠ some c := getLast?_rdropWhile_ne hc

end CliServer
