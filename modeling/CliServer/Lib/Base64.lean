import Mathlib

/-!
# Base64

Three bytes are four characters of 64; what is missing of the last three is padded.  Decoding skips the characters that
are none of these, and stops at the padding that completes four (`decodeFrom_filter`); it reads what was encoded
(`decode_encode`).
-/

namespace Base64

/-- The character of a value, from 0 to 63. -/
def digit (value : Nat) : Char :=
  if value < 26 then Char.ofNat (65 + value)
  else if value < 52 then Char.ofNat (71 + value)
  else if value < 62 then Char.ofNat (value - 4)
  else if value = 62 then '+' else '/'

def value? (c : Char) : Option Nat :=
  if 65 ≤ c.toNat ∧ c.toNat ≤ 90 then some (c.toNat - 65)
  else if 97 ≤ c.toNat ∧ c.toNat ≤ 122 then some (c.toNat - 71)
  else if 48 ≤ c.toNat ∧ c.toNat ≤ 57 then some (c.toNat + 4)
  else if c = '+' then some 62
  else if c = '/' then some 63
  else none

def encode : List UInt8 → List Char
  | [] => []
  | [a] => [digit (a.toNat / 4), digit (a.toNat % 4 * 16), '=', '=']
  | [a, b] => [digit (a.toNat / 4), digit (a.toNat % 4 * 16 + b.toNat / 16), digit (b.toNat % 16 * 4), '=']
  | a :: b :: c :: bytes =>
    digit (a.toNat / 4) :: digit (a.toNat % 4 * 16 + b.toNat / 16) :: digit (b.toNat % 16 * 4 + c.toNat / 64) ::
      digit (c.toNat % 64) :: encode bytes

/-- How many of four characters were read, with what they leave for the next byte. -/
inductive Quad where
  | start
  | one (left : Nat)
  | two (left : Nat) (padded : Bool)
  | three (left : Nat)

/-- Data that ends within four characters is refused. -/
def decodeFrom : Quad → List Char → Option (List UInt8)
  | .start, [] => some []
  | _, [] => none
  | quad, c :: s =>
    if c = '=' then
      match quad with
      | .start => decodeFrom .start s
      | .one left => decodeFrom (.one left) s
      | .two left padded => if padded then some [] else decodeFrom (.two left true) s
      | .three _ => some []
    else match value? c, quad with
      | none, quad => decodeFrom quad s
      | some v, .start => decodeFrom (.one v) s
      | some v, .one left => (decodeFrom (.two (v % 16) false) s).map (UInt8.ofNat (left * 4 + v / 16) :: ·)
      | some v, .two left _ => (decodeFrom (.three (v % 4)) s).map (UInt8.ofNat (left * 16 + v / 4) :: ·)
      | some v, .three left => (decodeFrom .start s).map (UInt8.ofNat (left * 64 + v) :: ·)

/-- Only ASCII is decoded. -/
def decode (s : List Char) : Option (List UInt8) := if s.all (·.toNat < 128) then decodeFrom .start s else none

/-! ### Characters -/

/-- A character of the encoding. -/
def significant (c : Char) : Bool := c = '=' || (value? c).isSome

private theorem value?_digit {v : Nat} (hv : v < 64) : value? (digit v) = some v := by
  revert hv
  revert v
  decide

private theorem digit_ne_pad {v : Nat} (hv : v < 64) : digit v ≠ '=' := by
  intro heq
  have hvalue := value?_digit hv
  rw [heq] at hvalue
  cases hvalue

private theorem toNat_lt_of_significant {c : Char} (h : significant c = true) : c.toNat < 128 := by
  rcases (Bool.or_eq_true _ _).mp h with hpad | hvalue
  · rw [of_decide_eq_true hpad]
    decide
  · by_contra hlarge
    have hplus : c ≠ '+' := by
      rintro rfl
      exact hlarge (by decide)
    have hslash : c ≠ '/' := by
      rintro rfl
      exact hlarge (by decide)
    simp only [value?, hplus, hslash, if_false] at hvalue
    grind

private theorem significant_digit {v : Nat} (hv : v < 64) : significant (digit v) = true := by
  simp [significant, value?_digit hv]

theorem significant_of_mem_encode (bytes : List UInt8) : ∀ c ∈ encode bytes, significant c = true := by
  have hpad : significant '=' = true := by decide
  fun_induction encode bytes with
  | case1 => simp
  | case2 a =>
    have ha := a.toNat_lt
    simp only [List.forall_mem_cons, List.not_mem_nil, false_implies, implies_true, and_true, hpad]
    exact ⟨significant_digit (by omega), significant_digit (by omega)⟩
  | case3 a b =>
    have ha := a.toNat_lt
    have hb := b.toNat_lt
    simp only [List.forall_mem_cons, List.not_mem_nil, false_implies, implies_true, and_true, hpad]
    exact ⟨significant_digit (by omega), significant_digit (by omega), significant_digit (by omega)⟩
  | case4 a b c bytes ih =>
    have ha := a.toNat_lt
    have hb := b.toNat_lt
    have hc := c.toNat_lt
    simp only [List.forall_mem_cons]
    exact ⟨significant_digit (by omega), significant_digit (by omega), significant_digit (by omega),
      significant_digit (by omega), ih⟩

theorem encode_ne_nil {bytes : List UInt8} (h : bytes ≠ []) : encode bytes ≠ [] := by
  fun_cases encode bytes with
  | case1 => exact absurd rfl h
  | case2 => exact List.cons_ne_nil _ _
  | case3 => exact List.cons_ne_nil _ _
  | case4 => exact List.cons_ne_nil _ _

/-! ### What is decoded -/

variable {c : Char} {s : List Char} {v left : Nat} {padded : Bool}

private theorem decodeFrom_start (hv : v < 64) : decodeFrom .start (digit v :: s) = decodeFrom (.one v) s := by
  simp [decodeFrom, digit_ne_pad hv, value?_digit hv]

theorem decodeFrom_one (hv : v < 64) : decodeFrom (.one left) (digit v :: s) =
    (decodeFrom (.two (v % 16) false) s).map (UInt8.ofNat (left * 4 + v / 16) :: ·) := by
  simp [decodeFrom, digit_ne_pad hv, value?_digit hv]

theorem decodeFrom_two (hv : v < 64) : decodeFrom (.two left padded) (digit v :: s) =
    (decodeFrom (.three (v % 4)) s).map (UInt8.ofNat (left * 16 + v / 4) :: ·) := by
  simp [decodeFrom, digit_ne_pad hv, value?_digit hv]

theorem decodeFrom_three (hv : v < 64) : decodeFrom (.three left) (digit v :: s) =
    (decodeFrom .start s).map (UInt8.ofNat (left * 64 + v) :: ·) := by
  simp [decodeFrom, digit_ne_pad hv, value?_digit hv]

private theorem ofNat_eq {a : UInt8} {n : Nat} (h : n = a.toNat) : UInt8.ofNat n = a := by
  rw [h, UInt8.ofNat_toNat]

private theorem decodeFrom_encode (bytes : List UInt8) : decodeFrom .start (encode bytes) = some bytes := by
  fun_induction encode bytes with
  | case1 => rfl
  | case2 a =>
    have ha := a.toNat_lt
    have hfirst : UInt8.ofNat (a.toNat / 4 * 4 + a.toNat % 4 * 16 / 16) = a := ofNat_eq (by omega)
    rw [decodeFrom_start (by omega), decodeFrom_one (by omega), hfirst]
    rfl
  | case3 a b =>
    have ha := a.toNat_lt
    have hb := b.toNat_lt
    have hfirst : UInt8.ofNat (a.toNat / 4 * 4 + (a.toNat % 4 * 16 + b.toNat / 16) / 16) = a := ofNat_eq (by omega)
    have hsecond : UInt8.ofNat ((a.toNat % 4 * 16 + b.toNat / 16) % 16 * 16 + b.toNat % 16 * 4 / 4) = b :=
      ofNat_eq (by omega)
    rw [decodeFrom_start (by omega), decodeFrom_one (by omega), decodeFrom_two (by omega), hfirst, hsecond]
    rfl
  | case4 a b c bytes ih =>
    have ha := a.toNat_lt
    have hb := b.toNat_lt
    have hc := c.toNat_lt
    have hfirst : UInt8.ofNat (a.toNat / 4 * 4 + (a.toNat % 4 * 16 + b.toNat / 16) / 16) = a := ofNat_eq (by omega)
    have hsecond : UInt8.ofNat ((a.toNat % 4 * 16 + b.toNat / 16) % 16 * 16 + (b.toNat % 16 * 4 + c.toNat / 64) / 4) =
      b := ofNat_eq (by omega)
    have hthird : UInt8.ofNat ((b.toNat % 16 * 4 + c.toNat / 64) % 4 * 64 + c.toNat % 64) = c := ofNat_eq (by omega)
    rw [decodeFrom_start (by omega), decodeFrom_one (by omega), decodeFrom_two (by omega),
      decodeFrom_three (by omega), hfirst, hsecond, hthird, ih]
    rfl

/-- Characters that do not belong to the encoding are skipped, wherever they are. -/
private theorem decodeFrom_filter (quad : Quad) (s : List Char) :
    decodeFrom quad (s.filter significant) = decodeFrom quad s := by
  induction s generalizing quad with
  | nil => rfl
  | cons c s ih =>
    by_cases hpad : c = '='
    · subst hpad
      have hsig : significant '=' = true := by decide
      rw [List.filter_cons_of_pos hsig]
      cases quad <;> simp [decodeFrom, ih]
    · cases hvalue : value? c with
      | none =>
        have hsig : ¬significant c = true := by simp [significant, hpad, hvalue]
        rw [List.filter_cons_of_neg hsig, ih]
        cases quad <;> simp [decodeFrom, hpad, hvalue]
      | some v =>
        have hsig : significant c = true := by simp [significant, hvalue]
        rw [List.filter_cons_of_pos hsig]
        cases quad <;> simp [decodeFrom, hpad, hvalue, ih]

/-- What was encoded is decoded, whatever ASCII characters that do not belong to the encoding were put into it. -/
theorem decode_of_filter {bytes : List UInt8} (hascii : ∀ c ∈ s, c.toNat < 128)
    (hs : s.filter significant = encode bytes) : decode s = some bytes := by
  have hall : s.all (·.toNat < 128) = true := List.all_eq_true.2 fun c hc => decide_eq_true (hascii c hc)
  rw [decode, if_pos hall, ← decodeFrom_filter, hs, decodeFrom_encode]

theorem decode_encode (bytes : List UInt8) : decode (encode bytes) = some bytes := by
  have hsig := significant_of_mem_encode bytes
  exact decode_of_filter (fun c hc => toNat_lt_of_significant (hsig c hc)) (List.filter_eq_self.2 hsig)

theorem encode_injective : Function.Injective encode := fun bytes bytes' h => by
  have hdecoded := congrArg decode h
  rwa [decode_encode, decode_encode, Option.some_inj] at hdecoded

end Base64
