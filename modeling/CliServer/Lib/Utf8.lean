import Mathlib

/-!
# UTF-8

`encode`, and the decoder that puts U+FFFD for what is not UTF-8: an automaton that has read the beginning of a
character (`Pending`) and knows between which bytes the next one has to be.  A byte outside of these ends the
character with one U+FFFD and is read again as a first byte.  What was encoded decodes to itself (`decode_encode`),
and bytes come back when they are UTF-8, and only then (`encode_decode_iff`).
-/

namespace Utf8

def encode (s : List Char) : List UInt8 := s.flatMap String.utf8EncodeChar

/-- The beginning of a character: the bits so far, the number of bytes it still needs, and the bounds of the next one.
-/
structure Pending where
  value : Nat
  needed : Nat
  lower : Nat
  upper : Nat

def replacement : Char := '\uFFFD'

/-- A byte where a character starts. -/
def lead (b : UInt8) : List Char × Option Pending :=
  let n := b.toNat
  if n < 0x80 then ([Char.ofNat n], none)
  -- continuation bytes, and overlong forms of one byte
  else if n < 0xC2 then ([replacement], none)
  else if n < 0xE0 then ([], some ⟨n - 0xC0, 1, 0x80, 0xBF⟩)
  -- no overlong forms, and no surrogates
  else if n < 0xF0 then ([], some ⟨n - 0xE0, 2, if n = 0xE0 then 0xA0 else 0x80, if n = 0xED then 0x9F else 0xBF⟩)
  -- no overlong forms, and nothing above U+10FFFF
  else if n < 0xF5 then ([], some ⟨n - 0xF0, 3, if n = 0xF0 then 0x90 else 0x80, if n = 0xF4 then 0x8F else 0xBF⟩)
  else ([replacement], none)

/-- One byte: the characters it completes, and what is pending then. -/
def next : Option Pending → UInt8 → List Char × Option Pending
  | none, b => lead b
  | some p, b =>
    if p.lower ≤ b.toNat ∧ b.toNat ≤ p.upper then
      let value := p.value * 64 + (b.toNat - 0x80)
      if p.needed = 1 then ([Char.ofNat value], none) else ([], some ⟨value, p.needed - 1, 0x80, 0xBF⟩)
    else (replacement :: (lead b).1, (lead b).2)

def decodeFrom : Option Pending → List UInt8 → List Char
  | none, [] => []
  | some _, [] => [replacement]
  | pending, b :: bytes => (next pending b).1 ++ decodeFrom (next pending b).2 bytes

def decode (bytes : List UInt8) : List Char := decodeFrom none bytes

@[simp] theorem decodeFrom_nil : decodeFrom none [] = [] := rfl

theorem decodeFrom_cons (pending : Option Pending) (b : UInt8) (bytes : List UInt8) :
    decodeFrom pending (b :: bytes) = (next pending b).1 ++ decodeFrom (next pending b).2 bytes := by
  cases pending <;> rfl

@[simp] theorem encode_nil : encode [] = [] := rfl

@[simp] theorem encode_cons (c : Char) (s : List Char) : encode (c :: s) = String.utf8EncodeChar c ++ encode s := rfl

/-- A byte in its bounds is taken. -/
private theorem decodeFrom_some {p : Pending} {n : Nat} (hlower : p.lower ≤ n) (hupper : n ≤ p.upper) (hn : n < 256)
    (bytes : List UInt8) : decodeFrom (some p) (UInt8.ofNat n :: bytes) =
      if p.needed = 1 then Char.ofNat (p.value * 64 + (n - 0x80)) :: decodeFrom none bytes
      else decodeFrom (some ⟨p.value * 64 + (n - 0x80), p.needed - 1, 0x80, 0xBF⟩) bytes := by
  have hval : (UInt8.ofNat n).toNat = n := by simp [Nat.mod_eq_of_lt hn]
  rw [decodeFrom_cons]
  simp only [next, hval, hlower, hupper, and_self, if_true]
  split <;> rfl

section Lead

variable {n : Nat} (bytes : List UInt8)

theorem decodeFrom_one (hn : n < 0x80) :
    decodeFrom none (UInt8.ofNat n :: bytes) = Char.ofNat n :: decodeFrom none bytes := by
  have hval : (UInt8.ofNat n).toNat = n := by simp; omega
  rw [decodeFrom_cons]
  simp [next, lead, hval, hn]

theorem decodeFrom_two (hlower : 0xC2 ≤ n) (hupper : n < 0xE0) : decodeFrom none (UInt8.ofNat n :: bytes) =
    decodeFrom (some ⟨n - 0xC0, 1, 0x80, 0xBF⟩) bytes := by
  have hval : (UInt8.ofNat n).toNat = n := by simp; omega
  have h₁ : ¬n < 0x80 := by omega
  have h₂ : ¬n < 0xC2 := by omega
  rw [decodeFrom_cons]
  simp [next, lead, hval, h₁, h₂, hupper]

theorem decodeFrom_three (hlower : 0xE0 ≤ n) (hupper : n < 0xF0) : decodeFrom none (UInt8.ofNat n :: bytes) =
    decodeFrom (some ⟨n - 0xE0, 2, if n = 0xE0 then 0xA0 else 0x80, if n = 0xED then 0x9F else 0xBF⟩) bytes := by
  have hval : (UInt8.ofNat n).toNat = n := by simp; omega
  have h₁ : ¬n < 0x80 := by omega
  have h₂ : ¬n < 0xC2 := by omega
  have h₃ : ¬n < 0xE0 := by omega
  rw [decodeFrom_cons]
  simp [next, lead, hval, h₁, h₂, h₃, hupper]

private theorem decodeFrom_four (hlower : 0xF0 ≤ n) (hupper : n < 0xF5) : decodeFrom none (UInt8.ofNat n :: bytes) =
    decodeFrom (some ⟨n - 0xF0, 3, if n = 0xF0 then 0x90 else 0x80, if n = 0xF4 then 0x8F else 0xBF⟩) bytes := by
  have hval : (UInt8.ofNat n).toNat = n := by simp; omega
  have h₁ : ¬n < 0x80 := by omega
  have h₂ : ¬n < 0xC2 := by omega
  have h₃ : ¬n < 0xE0 := by omega
  have h₄ : ¬n < 0xF0 := by omega
  rw [decodeFrom_cons]
  simp [next, lead, hval, h₁, h₂, h₃, h₄, hupper]

end Lead

/-- The bytes of a character are decoded to it. -/
private theorem decodeFrom_encodeChar (c : Char) (bytes : List UInt8) :
    decodeFrom none (String.utf8EncodeChar c ++ bytes) = c :: decodeFrom none bytes := by
  have hvalid : c.val.toNat < 0xD800 ∨ 0xDFFF < c.val.toNat ∧ c.val.toNat < 0x110000 := c.valid
  have hself : Char.ofNat c.val.toNat = c := Char.ofNat_toNat c
  unfold String.utf8EncodeChar
  generalize c.val.toNat = v at hvalid hself
  by_cases h₁ : v ≤ 0x7f
  · simp only [h₁, if_true, List.cons_append, List.nil_append]
    rw [decodeFrom_one bytes (by omega), hself]
  by_cases h₂ : v ≤ 0x7ff
  · simp only [h₁, h₂, if_true, if_false, List.cons_append, List.nil_append]
    have hvalue : (v / 64 % 0x20 + 0xc0 - 0xC0) * 64 + (v % 0x40 + 0x80 - 0x80) = v := by omega
    rw [decodeFrom_two _ (by omega) (by omega), decodeFrom_some (by simp) (by simp only []; omega) (by omega)]
    simp only [if_true]
    rw [hvalue, hself]
  by_cases h₃ : v ≤ 0xffff
  · simp only [h₁, h₂, h₃, if_true, if_false, List.cons_append, List.nil_append]
    have hvalue : ((v / 4096 % 0x10 + 0xe0 - 0xE0) * 64 + (v / 64 % 0x40 + 0x80 - 0x80)) * 64 +
        (v % 0x40 + 0x80 - 0x80) = v := by omega
    rw [decodeFrom_three _ (by omega) (by omega), decodeFrom_some ?_ ?_ (by omega)]
    · simp only [show (2 : Nat) ≠ 1 by omega, if_false]
      rw [decodeFrom_some (by simp) (by simp only []; omega) (by omega)]
      simp only [if_true]
      rw [hvalue, hself]
    · simp only []
      split <;> omega
    · simp only []
      split <;> omega
  · simp only [h₁, h₂, h₃, if_false, List.cons_append, List.nil_append]
    have hvalue : (((v / 262144 % 0x08 + 0xf0 - 0xF0) * 64 + (v / 4096 % 0x40 + 0x80 - 0x80)) * 64 +
        (v / 64 % 0x40 + 0x80 - 0x80)) * 64 + (v % 0x40 + 0x80 - 0x80) = v := by omega
    rw [decodeFrom_four _ (by omega) (by omega), decodeFrom_some ?_ ?_ (by omega)]
    · simp only [show (3 : Nat) ≠ 1 by omega, if_false]
      rw [decodeFrom_some (by simp) (by simp only []; omega) (by omega)]
      simp only [show (3 : Nat) - 1 ≠ 1 by omega, if_false]
      rw [decodeFrom_some (by simp) (by simp only []; omega) (by omega)]
      simp only [if_true]
      rw [hvalue, hself]
    · simp only []
      split <;> omega
    · simp only []
      split <;> omega

theorem decode_encode (s : List Char) : decode (encode s) = s := by
  induction s with
  | nil => rfl
  | cons c s ih =>
    rw [encode_cons, decode, decodeFrom_encodeChar]
    exact congrArg (c :: ·) ih

/-! ### ASCII within other bytes -/

/-- A first byte is a character, or the beginning of one. -/
theorem lead_cases (b : UInt8) :
    (∃ c, lead b = ([c], none)) ∨ ∃ p : Pending, lead b = ([], some p) ∧ 0x80 ≤ p.lower := by
  unfold lead
  by_cases h₁ : b.toNat < 0x80
  · exact .inl ⟨_, if_pos h₁⟩
  by_cases h₂ : b.toNat < 0xC2
  · exact .inl ⟨_, by simp only [h₁, h₂, if_true, if_false]; rfl⟩
  by_cases h₃ : b.toNat < 0xE0
  · exact .inr ⟨_, by simp only [h₁, h₂, h₃, if_true, if_false]; rfl, le_rfl⟩
  by_cases h₄ : b.toNat < 0xF0
  · refine .inr ⟨⟨b.toNat - 0xE0, 2, if b.toNat = 0xE0 then 0xA0 else 0x80, if b.toNat = 0xED then 0x9F else 0xBF⟩, ?_, ?_⟩
    · simp only [h₁, h₂, h₃, h₄, if_true, if_false]
    · dsimp only
      split <;> omega
  by_cases h₅ : b.toNat < 0xF5
  · refine .inr ⟨⟨b.toNat - 0xF0, 3, if b.toNat = 0xF0 then 0x90 else 0x80, if b.toNat = 0xF4 then 0x8F else 0xBF⟩, ?_, ?_⟩
    · simp only [h₁, h₂, h₃, h₄, h₅, if_true, if_false]
    · dsimp only
      split <;> omega
  · exact .inl ⟨_, by simp only [h₁, h₂, h₃, h₄, h₅, if_false]; rfl⟩

private theorem next_lower {pending : Option Pending} {b : UInt8} {p : Pending} (h : (next pending b).2 = some p) :
    0x80 ≤ p.lower := by
  have hlead : (lead b).2 = some p → 0x80 ≤ p.lower := by
    intro h
    rcases lead_cases b with ⟨c, hc⟩ | ⟨q, hq, hlower⟩
    · rw [hc] at h
      cases h
    · rw [hq] at h
      rw [← Option.some.inj h]
      exact hlower
  cases pending with
  | none => exact hlead h
  | some q =>
    rw [next] at h
    split_ifs at h with hbounds hneeded
    · simp only [Option.some.injEq] at h
      rw [← h]
    · exact hlead h

private theorem decodeFrom_ascii {pending : Option Pending} {b : UInt8}
    (hpending : ∀ p, pending = some p → 0x80 ≤ p.lower)
    (hb : b.toNat < 0x80) (bytes : List UInt8) :
    decodeFrom pending (b :: bytes) = decodeFrom pending [] ++ Char.ofNat b.toNat :: decode bytes := by
  have hlead : lead b = ([Char.ofNat b.toNat], none) := by simp only [lead, hb, if_true]
  cases pending with
  | none =>
    rw [decodeFrom_cons, next, hlead]
    rfl
  | some p =>
    have hbounds : ¬(p.lower ≤ b.toNat ∧ b.toNat ≤ p.upper) := by
      have hlower := hpending p rfl
      omega
    rw [decodeFrom_cons, next, if_neg hbounds, hlead]
    rfl

private theorem decodeFrom_append_ascii {pending : Option Pending} {b : UInt8}
    (hpending : ∀ p, pending = some p → 0x80 ≤ p.lower) (hb : b.toNat < 0x80) (xs ys : List UInt8) :
    decodeFrom pending (xs ++ b :: ys) = decodeFrom pending xs ++ Char.ofNat b.toNat :: decode ys := by
  induction xs generalizing pending with
  | nil => exact decodeFrom_ascii hpending hb ys
  | cons a xs ih =>
    rw [List.cons_append, decodeFrom_cons, decodeFrom_cons, ih fun _ => next_lower, List.append_assoc]

/-- An ASCII byte is its character, whatever stands before and after it. -/
theorem decode_append_ascii {b : UInt8} (hb : b.toNat < 0x80) (xs ys : List UInt8) :
    decode (xs ++ b :: ys) = decode xs ++ Char.ofNat b.toNat :: decode ys :=
  decodeFrom_append_ascii (fun _ h => absurd h (Option.some_ne_none _).symm) hb xs ys

theorem mem_decode_ascii {b : UInt8} (hb : b.toNat < 0x80) {bytes : List UInt8} (hmem : b ∈ bytes) :
    Char.ofNat b.toNat ∈ decode bytes := by
  obtain ⟨xs, ys, rfl⟩ := List.append_of_mem hmem
  rw [decode_append_ascii hb]
  exact List.mem_append_right _ List.mem_cons_self

private theorem decodeFrom_some_ne_nil (p : Pending) (bytes : List UInt8) : decodeFrom (some p) bytes ≠ [] := by
  induction bytes generalizing p with
  | nil => exact List.cons_ne_nil _ _
  | cons b bytes ih =>
    rw [decodeFrom_cons, next]
    split_ifs
    · exact List.cons_ne_nil _ _
    · exact ih _
    · exact List.append_ne_nil_of_left_ne_nil (List.cons_ne_nil _ _) _

theorem decode_ne_nil {bytes : List UInt8} (h : bytes ≠ []) : decode bytes ≠ [] := by
  obtain ⟨b, bytes, rfl⟩ := List.exists_cons_of_ne_nil h
  rw [decode, decodeFrom_cons, next]
  rcases lead_cases b with ⟨c, hc⟩ | ⟨p, hp, -⟩
  · rw [hc]
    exact List.cons_ne_nil _ _
  · rw [hp]
    exact decodeFrom_some_ne_nil p bytes

/-- The bytes are UTF-8. -/
def Valid (bytes : List UInt8) : Prop := ∃ s, encode s = bytes

/-- Decoding loses nothing exactly if the bytes are UTF-8. -/
theorem encode_decode_iff {bytes : List UInt8} : encode (decode bytes) = bytes ↔ Valid bytes := by
  constructor
  · intro h
    exact ⟨_, h⟩
  · rintro ⟨s, rfl⟩
    rw [decode_encode]

theorem length_encode (s : List Char) : (encode s).length = (s.map Char.utf8Size).sum := by
  induction s with
  | nil => rfl
  | cons c s ih => simp [ih]

end Utf8
