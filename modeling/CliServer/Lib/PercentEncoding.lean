import Mathlib

/-!
# Percent-encoding

`encode keep` writes a byte that `keep` does not keep as `%` and two hexadecimal digits; `decode` reads such a triple
in either case of the digits and leaves everything else as it is.  Whatever was encoded decodes to itself, as long as
`%` is not kept (`decode_encode`).
-/

namespace PercentEncoding

def percent : UInt8 := 0x25

/-- The upper case digit of a number less than 16. -/
def hexDigit (n : Nat) : UInt8 := if n < 10 then UInt8.ofNat (0x30 + n) else UInt8.ofNat (0x41 + (n - 10))

def hexValue? (b : UInt8) : Option Nat :=
  let n := b.toNat
  if 0x30 ≤ n ∧ n ≤ 0x39 then some (n - 0x30)
  else if 0x41 ≤ n ∧ n ≤ 0x46 then some (n - 0x41 + 10)
  else if 0x61 ≤ n ∧ n ≤ 0x66 then some (n - 0x61 + 10)
  else none

def encodeByte (keep : UInt8 → Bool) (b : UInt8) : List UInt8 :=
  if keep b then [b] else [percent, hexDigit (b.toNat / 16), hexDigit (b.toNat % 16)]

def encode (keep : UInt8 → Bool) (bytes : List UInt8) : List UInt8 := bytes.flatMap (encodeByte keep)

def decode : List UInt8 → List UInt8
  | [] => []
  | [a] => [a]
  | [a, b] => [a, b]
  | a :: b :: c :: bytes =>
    if a = percent then
      match hexValue? b, hexValue? c with
      | some high, some low => UInt8.ofNat (high * 16 + low) :: decode bytes
      | _, _ => a :: decode (b :: c :: bytes)
    else a :: decode (b :: c :: bytes)

theorem hexValue?_hexDigit {n : Nat} (hn : n < 16) : hexValue? (hexDigit n) = some n := by
  interval_cases n <;> decide

theorem decode_cons_ne {b : UInt8} (hb : b ≠ percent) (bytes : List UInt8) :
    decode (b :: bytes) = b :: decode bytes := by
  match bytes with
  | [] => rfl
  | [_] => rfl
  | _ :: _ :: _ => rw [decode, if_neg hb]

private theorem decode_encodeByte {keep : UInt8 → Bool} (hkeep : keep percent = false) (b : UInt8)
    (bytes : List UInt8) :
    decode (encodeByte keep b ++ bytes) = b :: decode bytes := by
  unfold encodeByte
  by_cases hb : keep b = true
  · have hne : b ≠ percent := by
      rintro rfl
      rw [hkeep] at hb
      cases hb
    rw [if_pos hb, List.singleton_append, decode_cons_ne hne]
  · have hlt : b.toNat < 256 := b.toNat_lt_size
    have hself : b.toNat / 16 * 16 + b.toNat % 16 = b.toNat := by omega
    rw [if_neg hb, List.cons_append, List.cons_append, List.singleton_append, decode, if_pos rfl,
      hexValue?_hexDigit (by omega), hexValue?_hexDigit (by omega)]
    dsimp only
    rw [hself, UInt8.ofNat_toNat]

/-- Decoding gives back what was encoded. -/
theorem decode_encode {keep : UInt8 → Bool} (hkeep : keep percent = false) (bytes : List UInt8) :
    decode (encode keep bytes) = bytes := by
  induction bytes with
  | nil => rfl
  | cons b bytes ih =>
    rw [encode, List.flatMap_cons, decode_encodeByte hkeep]
    exact congrArg (b :: ·) ih

/-- A byte that is no digit is in no triple that begins before it. -/
theorem decode_append {b : UInt8} (hb : hexValue? b = none) (xs ys : List UInt8) :
    decode (xs ++ b :: ys) = decode xs ++ decode (b :: ys) := by
  -- one byte before it
  have hone : ∀ a, decode (a :: b :: ys) = a :: decode (b :: ys) := by
    intro a
    cases ys with
    | nil => rfl
    | cons c ys =>
      rw [decode, hb]
      split <;> rfl
  induction xs using decode.induct with
  | case1 => rfl
  | case2 a => exact hone a
  | case3 a c =>
    have htwo : decode (a :: c :: b :: ys) = a :: decode (c :: b :: ys) := by
      rw [decode]
      split
      · rw [hb]
        cases hexValue? c <;> rfl
      · rfl
    rw [List.cons_append, List.cons_append, List.nil_append, htwo, hone]
    rfl
  | case4 c d bytes high low hd hc ih =>
    rw [List.cons_append, List.cons_append, List.cons_append, decode, if_pos rfl, hc, hd]
    dsimp only
    rw [ih, ← List.cons_append, decode, if_pos rfl, hc, hd]
  | case5 c d bytes hnone ih =>
    rw [List.cons_append, List.cons_append] at ih
    rw [List.cons_append, List.cons_append, List.cons_append, decode, if_pos rfl, decode, if_pos rfl]
    split
    · next high low hc hd => exact absurd hd (hnone high low hc)
    · rw [ih, List.cons_append]
  | case6 a c d bytes ha ih =>
    rw [List.cons_append, List.cons_append] at ih
    rw [List.cons_append, List.cons_append, List.cons_append, decode, if_neg ha, decode, if_neg ha, ih,
      List.cons_append]

theorem decode_cons_triple {b c : UInt8} {high low : Nat} (hb : hexValue? b = some high) (hc : hexValue? c = some low)
    (bytes : List UInt8) : decode (percent :: b :: c :: bytes) = UInt8.ofNat (high * 16 + low) :: decode bytes := by
  rw [decode, if_pos rfl, hb, hc]

theorem decode_ne_nil {bytes : List UInt8} (h : bytes ≠ []) : decode bytes ≠ [] := by
  cases bytes using decode.induct with
  | case1 => exact absurd rfl h
  | case2 a => exact List.cons_ne_nil _ _
  | case3 a b => exact List.cons_ne_nil _ _
  | case4 b c bytes high low hc hb ih =>
    rw [decode_cons_triple hb hc]
    exact List.cons_ne_nil _ _
  | case5 b c bytes hnone ih =>
    rw [decode, if_pos rfl]
    split
    · exact List.cons_ne_nil _ _
    · exact List.cons_ne_nil _ _
  | case6 a b c bytes ha ih =>
    rw [decode, if_neg ha]
    exact List.cons_ne_nil _ _

/-- Where there is no other digit than `d`, it is left, or it is in a triple. -/
theorem digit_mem_decode {d : UInt8} {value : Nat} (hd : hexValue? d = some value) {bytes : List UInt8}
    (honly : ∀ b ∈ bytes, (hexValue? b).isSome = true → b = d) (hmem : d ∈ bytes) :
    d ∈ decode bytes ∨ UInt8.ofNat (value * 16 + value) ∈ decode bytes := by
  have hpercent : d ≠ percent := by
    rintro rfl
    cases hd
  induction bytes using decode.induct with
  | case1 => exact absurd hmem List.not_mem_nil
  | case2 a => exact .inl hmem
  | case3 a b => exact .inl hmem
  | case4 b c bytes high low hc hb ih =>
    obtain rfl : b = d := honly b (by simp) (by rw [hb]; rfl)
    obtain rfl : c = b := honly c (by simp) (by rw [hc]; rfl)
    rw [decode_cons_triple hd hd]
    exact .inr List.mem_cons_self
  | case5 b c bytes hnone ih =>
    have hrest := ih (fun b hb => honly b (List.mem_cons_of_mem _ hb)) ((List.mem_cons.1 hmem).resolve_left hpercent)
    rw [decode, if_pos rfl]
    split
    · next high low hb hc => exact absurd hc (hnone high low hb)
    · exact hrest.imp (List.mem_cons_of_mem _) (List.mem_cons_of_mem _)
  | case6 a b c bytes ha ih =>
    rw [decode, if_neg ha]
    rcases List.mem_cons.1 hmem with rfl | hmem
    · exact .inl List.mem_cons_self
    · have hrest := ih (fun b hb => honly b (List.mem_cons_of_mem _ hb)) hmem
      exact hrest.imp (List.mem_cons_of_mem _) (List.mem_cons_of_mem _)

end PercentEncoding
