import CliServer.Lib.Utf8

/-!
# Strict decoding of UTF-8

`decodeStrict` refuses bytes that are not UTF-8.  When more bytes may follow, a character that is cut at the end is
left for them, and so are the first two bytes of a surrogate, which no character has.  What is decoded is the text
that the bytes encode, up to such a rest (`decodeStrict_eq_some_iff`).
-/

namespace Utf8

/-- The byte cannot stand there. -/
def Refused : Option Pending → UInt8 → Prop
  | none, b => 0x80 ≤ b.toNat ∧ b.toNat < 0xC2 ∨ 0xF5 ≤ b.toNat
  | some p, b => b.toNat < p.lower ∨ p.upper < b.toNat

instance instDecidableRefused (pending : Option Pending) : DecidablePred (Refused pending) :=
  match pending with
  | none => fun b => inferInstanceAs (Decidable (0x80 ≤ b.toNat ∧ b.toNat < 0xC2 ∨ 0xF5 ≤ b.toNat))
  | some p => fun b => inferInstanceAs (Decidable (b.toNat < p.lower ∨ p.upper < b.toNat))

/-- After `0xED`, the byte makes it the beginning of a surrogate. -/
def surrogateStart : Option Pending → UInt8 → Bool
  | none, _ => false
  | some p, b => p.upper = 0x9F ∧ 0xA0 ≤ b.toNat ∧ b.toNat ≤ 0xBF

def decodeStrictFrom (final : Bool) : Option Pending → List UInt8 → Option (List Char)
  | none, [] => some []
  | some _, [] => if final then none else some []
  | pending, b :: bytes =>
    if Refused pending b then
      if final = false ∧ bytes = [] ∧ surrogateStart pending b then some [] else none
    else (decodeStrictFrom final (next pending b).2 bytes).map ((next pending b).1 ++ ·)

/-- The text of the bytes, or `none` if they are not UTF-8; unless they are `final`, they may end in the middle of a
character. -/
def decodeStrict (final : Bool) (bytes : List UInt8) : Option (List Char) := decodeStrictFrom final none bytes

/-! ### The bytes of a character -/

section Chars

variable {a b c d : UInt8}

private theorem toNat_val_ofNat {v : Nat} (h : v < 0xD800 ∨ 0xDFFF < v ∧ v < 0x110000) :
    (Char.ofNat v).val.toNat = v := by
  rw [Char.ofNat, dif_pos h]
  rfl

private theorem encodeChar_one (ha : a.toNat < 0x80) : String.utf8EncodeChar (Char.ofNat a.toNat) = [a] := by
  have h₁ : a.toNat ≤ 0x7f := by omega
  unfold String.utf8EncodeChar
  rw [toNat_val_ofNat (by omega)]
  simp [h₁]

private theorem encodeChar_two (ha : 0xC2 ≤ a.toNat ∧ a.toNat < 0xE0) (hb : 0x80 ≤ b.toNat ∧ b.toNat ≤ 0xBF) :
    String.utf8EncodeChar (Char.ofNat ((a.toNat - 0xC0) * 64 + (b.toNat - 0x80))) = [a, b] := by
  unfold String.utf8EncodeChar
  rw [toNat_val_ofNat (by omega)]
  generalize hv : (a.toNat - 0xC0) * 64 + (b.toNat - 0x80) = v
  have h₁ : ¬v ≤ 0x7f := by omega
  have h₂ : v ≤ 0x7ff := by omega
  have hfirst : v / 64 % 0x20 + 0xc0 = a.toNat := by omega
  have hsecond : v % 0x40 + 0x80 = b.toNat := by omega
  simp only [h₁, h₂, if_true, if_false, hfirst, hsecond, UInt8.ofNat_toNat]

private theorem encodeChar_three (ha : 0xE0 ≤ a.toNat ∧ a.toNat < 0xF0)
    (hb : (if a.toNat = 0xE0 then 0xA0 else 0x80) ≤ b.toNat ∧ b.toNat ≤ if a.toNat = 0xED then 0x9F else 0xBF)
    (hc : 0x80 ≤ c.toNat ∧ c.toNat ≤ 0xBF) :
    String.utf8EncodeChar (Char.ofNat (((a.toNat - 0xE0) * 64 + (b.toNat - 0x80)) * 64 + (c.toNat - 0x80))) =
      [a, b, c] := by
  have hlower : 0x80 ≤ b.toNat ∧ (a.toNat = 0xE0 → 0xA0 ≤ b.toNat) := by split at hb <;> omega
  have hupper : b.toNat ≤ 0xBF ∧ (a.toNat = 0xED → b.toNat ≤ 0x9F) := by split at hb <;> split at hb <;> omega
  unfold String.utf8EncodeChar
  rw [toNat_val_ofNat (by omega)]
  generalize hv : ((a.toNat - 0xE0) * 64 + (b.toNat - 0x80)) * 64 + (c.toNat - 0x80) = v
  have h₁ : ¬v ≤ 0x7f := by omega
  have h₂ : ¬v ≤ 0x7ff := by omega
  have h₃ : v ≤ 0xffff := by omega
  have hfirst : v / 4096 % 0x10 + 0xe0 = a.toNat := by omega
  have hsecond : v / 64 % 0x40 + 0x80 = b.toNat := by omega
  have hthird : v % 0x40 + 0x80 = c.toNat := by omega
  simp only [h₁, h₂, h₃, if_true, if_false, hfirst, hsecond, hthird, UInt8.ofNat_toNat]

private theorem encodeChar_four (ha : 0xF0 ≤ a.toNat ∧ a.toNat < 0xF5)
    (hb : (if a.toNat = 0xF0 then 0x90 else 0x80) ≤ b.toNat ∧ b.toNat ≤ if a.toNat = 0xF4 then 0x8F else 0xBF)
    (hc : 0x80 ≤ c.toNat ∧ c.toNat ≤ 0xBF) (hd : 0x80 ≤ d.toNat ∧ d.toNat ≤ 0xBF) :
    String.utf8EncodeChar (Char.ofNat ((((a.toNat - 0xF0) * 64 + (b.toNat - 0x80)) * 64 + (c.toNat - 0x80)) * 64 +
      (d.toNat - 0x80))) = [a, b, c, d] := by
  have hlower : 0x80 ≤ b.toNat ∧ (a.toNat = 0xF0 → 0x90 ≤ b.toNat) := by split at hb <;> omega
  have hupper : b.toNat ≤ 0xBF ∧ (a.toNat = 0xF4 → b.toNat ≤ 0x8F) := by split at hb <;> split at hb <;> omega
  unfold String.utf8EncodeChar
  rw [toNat_val_ofNat (by omega)]
  generalize hv : (((a.toNat - 0xF0) * 64 + (b.toNat - 0x80)) * 64 + (c.toNat - 0x80)) * 64 + (d.toNat - 0x80) = v
  have h₁ : ¬v ≤ 0x7f := by omega
  have h₂ : ¬v ≤ 0x7ff := by omega
  have h₃ : ¬v ≤ 0xffff := by omega
  have hfirst : v / 262144 % 0x08 + 0xf0 = a.toNat := by omega
  have hsecond : v / 4096 % 0x40 + 0x80 = b.toNat := by omega
  have hthird : v / 64 % 0x40 + 0x80 = c.toNat := by omega
  have hfourth : v % 0x40 + 0x80 = d.toNat := by omega
  simp only [h₁, h₂, h₃, if_false, hfirst, hsecond, hthird, hfourth, UInt8.ofNat_toNat]

end Chars

/-! ### What has been read of a character -/

/-- The bytes are those that the character still needs. -/
def Pending.Fits (p : Pending) : List UInt8 → Prop
  | [] => False
  | b :: more => (p.lower ≤ b.toNat ∧ b.toNat ≤ p.upper) ∧ more.length + 1 = p.needed ∧
    ∀ c ∈ more, 0x80 ≤ c.toNat ∧ c.toNat ≤ 0xBF

/-- The character that these bytes complete. -/
def Pending.completed (p : Pending) (more : List UInt8) : Char :=
  Char.ofNat (more.foldl (fun v b => v * 64 + (b.toNat - 0x80)) p.value)

private theorem Pending.completed_cons (p : Pending) (b : UInt8) (more : List UInt8) (needed lower upper : Nat) :
    p.completed (b :: more) = Pending.completed ⟨p.value * 64 + (b.toNat - 0x80), needed, lower, upper⟩ more := by
  simp only [completed, List.foldl_cons]

/-- `read` is the beginning of a character of which `p` is pending. -/
structure Pending.Reads (p : Pending) (read : List UInt8) : Prop where
  needed_pos : 0 < p.needed
  lower_ge : 0x80 ≤ p.lower
  lower_le : p.lower ≤ p.upper
  upper_le : p.upper ≤ 0xBF
  encode_completed : ∀ more, p.Fits more → String.utf8EncodeChar (p.completed more) = read ++ more
  surrogate : p.upper = 0x9F → read = [0xED]

theorem Pending.reads_lead {b : UInt8} {p : Pending} (h : lead b = ([], some p)) : p.Reads [b] := by
  unfold lead at h
  dsimp only at h
  by_cases h₁ : b.toNat < 0x80
  · rw [if_pos h₁] at h
    cases (Prod.mk.inj h).2
  by_cases h₂ : b.toNat < 0xC2
  · rw [if_neg h₁, if_pos h₂] at h
    cases (Prod.mk.inj h).2
  by_cases h₃ : b.toNat < 0xE0
  · rw [if_neg h₁, if_neg h₂, if_pos h₃] at h
    obtain rfl := Option.some.inj (Prod.mk.inj h).2
    refine ⟨by simp, by simp, by simp, by simp, fun more hmore => ?_, by simp⟩
    match more, hmore with
    | [c], ⟨hc, _, _⟩ => exact encodeChar_two ⟨by omega, h₃⟩ hc
  by_cases h₄ : b.toNat < 0xF0
  · rw [if_neg h₁, if_neg h₂, if_neg h₃, if_pos h₄] at h
    obtain rfl := Option.some.inj (Prod.mk.inj h).2
    refine ⟨by simp, ?_, ?_, ?_, fun more hmore => ?_, fun hupper => ?_⟩
    · dsimp only; split <;> omega
    · dsimp only; split <;> split <;> omega
    · dsimp only; split <;> omega
    · match more, hmore with
      | [c, d], ⟨hc, _, hd⟩ => exact encodeChar_three ⟨by omega, h₄⟩ hc (hd d (by simp))
    · dsimp only at hupper
      split at hupper
      · next heq => rw [← UInt8.toNat_inj.1 (heq.trans (by rfl : 0xED = (0xED : UInt8).toNat))]
      · cases hupper
  by_cases h₅ : b.toNat < 0xF5
  · rw [if_neg h₁, if_neg h₂, if_neg h₃, if_neg h₄, if_pos h₅] at h
    obtain rfl := Option.some.inj (Prod.mk.inj h).2
    refine ⟨by simp, ?_, ?_, ?_, fun more hmore => ?_, fun hupper => ?_⟩
    · dsimp only; split <;> omega
    · dsimp only; split <;> split <;> omega
    · dsimp only; split <;> omega
    · match more, hmore with
      | [c, d, e], ⟨hc, _, hd⟩ => exact encodeChar_four ⟨by omega, h₅⟩ hc (hd d (by simp)) (hd e (by simp))
    · dsimp only at hupper
      split at hupper <;> cases hupper
  · rw [if_neg h₁, if_neg h₂, if_neg h₃, if_neg h₄, if_neg h₅] at h
    cases (Prod.mk.inj h).2

variable {p : Pending} {read : List UInt8} {b : UInt8}

/-- A byte that leaves more to be read. -/
theorem Pending.Reads.step (h : p.Reads read) (hlower : p.lower ≤ b.toNat) (hupper : b.toNat ≤ p.upper)
    (hneeded : p.needed ≠ 1) :
    Pending.Reads ⟨p.value * 64 + (b.toNat - 0x80), p.needed - 1, 0x80, 0xBF⟩ (read ++ [b]) := by
  have hpos := h.needed_pos
  refine ⟨by dsimp only; omega, by simp, by simp, by simp, fun more hmore => ?_, by simp⟩
  match more, hmore with
  | c :: more, ⟨hc, hlength, hmore⟩ =>
    dsimp only at hc hlength
    have hfits : p.Fits (b :: c :: more) := by
      refine ⟨⟨hlower, hupper⟩, by rw [List.length_cons]; omega, fun d hd => ?_⟩
      rcases List.mem_cons.1 hd with rfl | hd
      · exact hc
      · exact hmore d hd
    rw [← p.completed_cons, h.encode_completed _ hfits, List.append_cons]

/-- The last byte. -/
theorem Pending.Reads.last (h : p.Reads read) (hlower : p.lower ≤ b.toNat) (hupper : b.toNat ≤ p.upper)
    (hneeded : p.needed = 1) :
    String.utf8EncodeChar (Char.ofNat (p.value * 64 + (b.toNat - 0x80))) = read ++ [b] :=
  h.encode_completed [b] ⟨⟨hlower, hupper⟩, hneeded.symm, by simp⟩

/-- The beginning of a character. -/
def Cut (tail : List UInt8) : Prop := ∃ c more, more ≠ [] ∧ String.utf8EncodeChar c = tail ++ more

/-- The first two bytes of a surrogate. -/
def SurrogateCut (tail : List UInt8) : Prop := ∃ b : UInt8, 0xA0 ≤ b.toNat ∧ b.toNat ≤ 0xBF ∧ tail = [0xED, b]

theorem Pending.Reads.cut (h : p.Reads read) : Cut read := by
  have hpos := h.needed_pos
  have hbounds := h.lower_le.trans h.upper_le
  have hval : (UInt8.ofNat p.lower).toNat = p.lower := by simp; omega
  have hfits : p.Fits (UInt8.ofNat p.lower :: List.replicate (p.needed - 1) 0x80) := by
    refine ⟨⟨hval.ge, hval.le.trans h.lower_le⟩, ?_, fun c hc => ?_⟩
    · rw [List.length_replicate]
      omega
    · rw [List.eq_of_mem_replicate hc]
      decide
  exact ⟨_, _, List.cons_ne_nil _ _, h.encode_completed _ hfits⟩

/-! ### What is decoded -/

/-- What may be left at the end. -/
def Rest (final : Bool) (tail : List UInt8) : Prop := tail = [] ∨ final = false ∧ (Cut tail ∨ SurrogateCut tail)

/-- A byte that is not refused completes a character, or more of it is pending. -/
theorem accept_cases {pending : Option Pending} (h : pending.elim (read = []) (Pending.Reads · read))
    (hb : ¬Refused pending b) :
    (∃ c, next pending b = ([c], none) ∧ String.utf8EncodeChar c = read ++ [b]) ∨
      ∃ p', next pending b = ([], some p') ∧ p'.Reads (read ++ [b]) := by
  cases pending with
  | none =>
    obtain rfl : read = [] := h
    unfold Refused at hb
    have hnext : next none b = lead b := rfl
    by_cases h₁ : b.toNat < 0x80
    · exact .inl ⟨_, by rw [hnext, lead, if_pos h₁], encodeChar_one h₁⟩
    · have hpending : ∃ p', lead b = ([], some p') := by
        unfold lead
        dsimp only
        rw [if_neg h₁, if_neg (by omega)]
        split
        · exact ⟨_, rfl⟩
        · split
          · exact ⟨_, rfl⟩
          · rw [if_pos (by omega)]
            exact ⟨_, rfl⟩
      obtain ⟨p', hp'⟩ := hpending
      exact .inr ⟨p', hp', Pending.reads_lead hp'⟩
  | some p =>
    have hreads : p.Reads read := h
    have hlower : p.lower ≤ b.toNat := by
      by_contra hlt
      exact hb (.inl (not_le.1 hlt))
    have hupper : b.toNat ≤ p.upper := by
      by_contra hlt
      exact hb (.inr (not_le.1 hlt))
    by_cases hneeded : p.needed = 1
    · refine .inl ⟨_, ?_, hreads.last hlower hupper hneeded⟩
      simp only [next, hlower, hupper, hneeded, and_self, if_true]
    · refine .inr ⟨_, ?_, hreads.step hlower hupper hneeded⟩
      simp only [next, hlower, hupper, hneeded, and_self, if_true, if_false]

/-- What has been read and the bytes are the text that was decoded, and a rest. -/
private theorem eq_of_decodeStrictFrom {final : Bool} {pending : Option Pending} {bytes : List UInt8} {s : List Char}
    (hread : pending.elim (read = []) (Pending.Reads · read)) (h : decodeStrictFrom final pending bytes = some s) :
    ∃ tail, read ++ bytes = encode s ++ tail ∧ Rest final tail := by
  induction bytes generalizing pending read s with
  | nil =>
    cases pending with
    | none =>
      obtain rfl : read = [] := hread
      obtain rfl : [] = s := Option.some.inj h
      exact ⟨[], rfl, .inl rfl⟩
    | some p =>
      cases final with
      | true => cases h
      | false =>
        obtain rfl : [] = s := Option.some.inj h
        exact ⟨read, by simp, .inr ⟨rfl, .inl (Pending.Reads.cut hread)⟩⟩
  | cons b bytes ih =>
    rw [decodeStrictFrom] at h
    split at h
    · split at h
      · next hstart =>
        obtain ⟨rfl, rfl, hsurrogate⟩ := hstart
        obtain rfl : [] = s := Option.some.inj h
        refine ⟨read ++ [b], rfl, .inr ⟨rfl, .inr ?_⟩⟩
        cases pending with
        | none => cases hsurrogate
        | some p =>
          obtain ⟨hupper, hb⟩ := of_decide_eq_true hsurrogate
          exact ⟨b, hb.1, hb.2, by rw [Pending.Reads.surrogate hread hupper]; rfl⟩
      · cases h
    · next hb =>
      obtain ⟨t, ht, rfl⟩ := Option.map_eq_some_iff.1 h
      rcases accept_cases hread hb with ⟨c, hnext, hc⟩ | ⟨p', hnext, hp'⟩
      · rw [hnext] at ht
        obtain ⟨tail, htail, hrest⟩ := @ih [] none t rfl ht
        refine ⟨tail, ?_, hrest⟩
        rw [hnext, List.cons_append, List.nil_append, encode_cons, hc, List.append_assoc (read ++ [b]), ← htail,
          List.append_cons]
        rfl
      · rw [hnext] at ht
        obtain ⟨tail, htail, hrest⟩ := @ih (read ++ [b]) (some p') t hp' ht
        refine ⟨tail, ?_, hrest⟩
        rw [hnext, List.append_cons, htail]
        rfl

/-! ### What the bytes of a text are decoded to -/

section Encoded

variable (final : Bool) {n : Nat} (bytes : List UInt8)

private theorem decodeStrictFrom_cons {pending : Option Pending} (hb : ¬Refused pending b) :
    decodeStrictFrom final pending (b :: bytes) =
      (decodeStrictFrom final (next pending b).2 bytes).map ((next pending b).1 ++ ·) := by
  rw [decodeStrictFrom, if_neg hb]

/-- A byte in its bounds is taken. -/
private theorem decodeStrictFrom_some {p : Pending} (hlower : p.lower ≤ n) (hupper : n ≤ p.upper) (hn : n < 256) :
    decodeStrictFrom final (some p) (UInt8.ofNat n :: bytes) =
      if p.needed = 1 then (decodeStrictFrom final none bytes).map (Char.ofNat (p.value * 64 + (n - 0x80)) :: ·)
      else decodeStrictFrom final (some ⟨p.value * 64 + (n - 0x80), p.needed - 1, 0x80, 0xBF⟩) bytes := by
  have hval : (UInt8.ofNat n).toNat = n := by simp [Nat.mod_eq_of_lt hn]
  have hb : ¬Refused (some p) (UInt8.ofNat n) := by
    rw [Refused, hval]
    omega
  rw [decodeStrictFrom_cons final bytes hb]
  simp only [next, hval, hlower, hupper, and_self, if_true]
  split <;> simp

private theorem decodeStrictFrom_none (h : n < 0x80 ∨ 0xC2 ≤ n ∧ n < 0xF5) :
    decodeStrictFrom final none (UInt8.ofNat n :: bytes) =
      (decodeStrictFrom final (lead (UInt8.ofNat n)).2 bytes).map ((lead (UInt8.ofNat n)).1 ++ ·) := by
  have hval : (UInt8.ofNat n).toNat = n := by simp; omega
  have hb : ¬Refused none (UInt8.ofNat n) := by
    rw [Refused, hval]
    omega
  exact decodeStrictFrom_cons final bytes hb

private theorem decodeStrictFrom_one (hn : n < 0x80) : decodeStrictFrom final none (UInt8.ofNat n :: bytes) =
    (decodeStrictFrom final none bytes).map (Char.ofNat n :: ·) := by
  have hval : (UInt8.ofNat n).toNat = n := by simp; omega
  rw [decodeStrictFrom_none final bytes (.inl hn)]
  simp [lead, hval, hn]

private theorem decodeStrictFrom_two (hlower : 0xC2 ≤ n) (hupper : n < 0xE0) :
    decodeStrictFrom final none (UInt8.ofNat n :: bytes) =
    decodeStrictFrom final (some ⟨n - 0xC0, 1, 0x80, 0xBF⟩) bytes := by
  have hval : (UInt8.ofNat n).toNat = n := by simp; omega
  have h₁ : ¬n < 0x80 := by omega
  have h₂ : ¬n < 0xC2 := by omega
  rw [decodeStrictFrom_none final bytes (by omega)]
  simp [lead, hval, h₁, h₂, hupper]

private theorem decodeStrictFrom_three (hlower : 0xE0 ≤ n) (hupper : n < 0xF0) :
    decodeStrictFrom final none (UInt8.ofNat n :: bytes) =
      decodeStrictFrom final
        (some ⟨n - 0xE0, 2, if n = 0xE0 then 0xA0 else 0x80, if n = 0xED then 0x9F else 0xBF⟩) bytes := by
  have hval : (UInt8.ofNat n).toNat = n := by simp; omega
  have h₁ : ¬n < 0x80 := by omega
  have h₂ : ¬n < 0xC2 := by omega
  have h₃ : ¬n < 0xE0 := by omega
  rw [decodeStrictFrom_none final bytes (by omega)]
  simp [lead, hval, h₁, h₂, h₃, hupper]

private theorem decodeStrictFrom_four (hlower : 0xF0 ≤ n) (hupper : n < 0xF5) :
    decodeStrictFrom final none (UInt8.ofNat n :: bytes) =
      decodeStrictFrom final
        (some ⟨n - 0xF0, 3, if n = 0xF0 then 0x90 else 0x80, if n = 0xF4 then 0x8F else 0xBF⟩) bytes := by
  have hval : (UInt8.ofNat n).toNat = n := by simp; omega
  have h₁ : ¬n < 0x80 := by omega
  have h₂ : ¬n < 0xC2 := by omega
  have h₃ : ¬n < 0xE0 := by omega
  have h₄ : ¬n < 0xF0 := by omega
  rw [decodeStrictFrom_none final bytes (by omega)]
  simp [lead, hval, h₁, h₂, h₃, h₄, hupper]

theorem decodeStrictFrom_encodeChar (c : Char) : decodeStrictFrom final none (String.utf8EncodeChar c ++ bytes) =
    (decodeStrictFrom final none bytes).map (c :: ·) := by
  have hvalid : c.val.toNat < 0xD800 ∨ 0xDFFF < c.val.toNat ∧ c.val.toNat < 0x110000 := c.valid
  have hself : Char.ofNat c.val.toNat = c := Char.ofNat_toNat c
  unfold String.utf8EncodeChar
  generalize c.val.toNat = v at hvalid hself
  by_cases h₁ : v ≤ 0x7f
  · simp only [h₁, if_true, List.cons_append, List.nil_append]
    rw [decodeStrictFrom_one final bytes (by omega), hself]
  by_cases h₂ : v ≤ 0x7ff
  · simp only [h₁, h₂, if_true, if_false, List.cons_append, List.nil_append]
    have hvalue : (v / 64 % 0x20 + 0xc0 - 0xC0) * 64 + (v % 0x40 + 0x80 - 0x80) = v := by omega
    rw [decodeStrictFrom_two _ _ (by omega) (by omega),
      decodeStrictFrom_some _ _ (by simp) (by simp only []; omega) (by omega)]
    simp only [if_true]
    rw [hvalue, hself]
  by_cases h₃ : v ≤ 0xffff
  · simp only [h₁, h₂, h₃, if_true, if_false, List.cons_append, List.nil_append]
    have hvalue : ((v / 4096 % 0x10 + 0xe0 - 0xE0) * 64 + (v / 64 % 0x40 + 0x80 - 0x80)) * 64 +
        (v % 0x40 + 0x80 - 0x80) = v := by omega
    rw [decodeStrictFrom_three _ _ (by omega) (by omega), decodeStrictFrom_some _ _ ?_ ?_ (by omega)]
    · simp only [show (2 : Nat) ≠ 1 by omega, if_false]
      rw [decodeStrictFrom_some _ _ (by simp) (by simp only []; omega) (by omega)]
      simp only [if_true]
      rw [hvalue, hself]
    · simp only []
      split <;> omega
    · simp only []
      split <;> omega
  · simp only [h₁, h₂, h₃, if_false, List.cons_append, List.nil_append]
    have hvalue : (((v / 262144 % 0x08 + 0xf0 - 0xF0) * 64 + (v / 4096 % 0x40 + 0x80 - 0x80)) * 64 +
        (v / 64 % 0x40 + 0x80 - 0x80)) * 64 + (v % 0x40 + 0x80 - 0x80) = v := by omega
    rw [decodeStrictFrom_four _ _ (by omega) (by omega), decodeStrictFrom_some _ _ ?_ ?_ (by omega)]
    · simp only [show (3 : Nat) ≠ 1 by omega, if_false]
      rw [decodeStrictFrom_some _ _ (by simp) (by simp only []; omega) (by omega)]
      simp only [show (3 : Nat) - 1 ≠ 1 by omega, if_false]
      rw [decodeStrictFrom_some _ _ (by simp) (by simp only []; omega) (by omega)]
      simp only [if_true]
      rw [hvalue, hself]
    · simp only []
      split <;> omega
    · simp only []
      split <;> omega

end Encoded

theorem decodeStrict_encode_append (final : Bool) (s : List Char) (tail : List UInt8) :
    decodeStrict final (encode s ++ tail) = (decodeStrict final tail).map (s ++ ·) := by
  induction s with
  | nil => simp
  | cons c s ih =>
    rw [encode_cons, List.append_assoc, decodeStrict, decodeStrictFrom_encodeChar]
    unfold decodeStrict at ih
    rw [ih, Option.map_map]
    rfl

/-- The beginning of what is decoded is decoded, if more may follow. -/
private theorem decodeStrictFrom_of_append {pending : Option Pending} {xs ys : List UInt8} {s : List Char}
    (h : decodeStrictFrom true pending (xs ++ ys) = some s) :
    ∃ t, decodeStrictFrom false pending xs = some t ∧ t <+: s := by
  induction xs generalizing pending s with
  | nil =>
    refine ⟨[], ?_, List.nil_prefix⟩
    cases pending <;> rfl
  | cons b xs ih =>
    rw [List.cons_append, decodeStrictFrom] at h
    split at h
    · split at h
      · next hfalse => cases hfalse.1
      · cases h
    · next hb =>
      obtain ⟨s', hs', rfl⟩ := Option.map_eq_some_iff.1 h
      obtain ⟨t, ht, hpre⟩ := ih hs'
      refine ⟨(next pending b).1 ++ t, ?_, (List.prefix_append_right_inj _).2 hpre⟩
      rw [decodeStrictFrom_cons false xs hb, ht]
      rfl

private theorem decodeStrict_cut {tail : List UInt8} (h : Cut tail) : decodeStrict false tail = some [] := by
  obtain ⟨c, more, hmore, hc⟩ := h
  have hwhole : decodeStrictFrom true none (tail ++ more) = some [c] := by
    rw [← hc, ← List.append_nil (String.utf8EncodeChar c), decodeStrictFrom_encodeChar]
    rfl
  obtain ⟨t, ht, hpre⟩ := decodeStrictFrom_of_append hwhole
  obtain ⟨rest, hrest, -⟩ := @eq_of_decodeStrictFrom [] false none tail t rfl ht
  rcases List.prefix_cons_iff.1 hpre with rfl | ⟨t', rfl, ht'⟩
  · exact ht
  · -- a part of the character is not the whole of it
    obtain rfl := List.prefix_nil.1 ht'
    have hlength := congrArg List.length hc
    have hlength' := congrArg List.length hrest
    have hpos := List.length_pos_iff.2 hmore
    simp only [List.nil_append, encode_cons, encode_nil, List.append_nil, List.length_append] at hlength hlength'
    omega

private theorem decodeStrict_rest {final : Bool} {tail : List UInt8} (h : Rest final tail) :
    decodeStrict final tail = some [] := by
  rcases h with rfl | ⟨rfl, h | ⟨b, hlower, hupper, rfl⟩⟩
  · rfl
  · exact decodeStrict_cut h
  · have hb : Refused (some ⟨0xED - 0xE0, 2, 0x80, 0x9F⟩) b := .inr (by simp only []; omega)
    have hlead : decodeStrict false [0xED, b] =
        (decodeStrictFrom false (some ⟨0xED - 0xE0, 2, 0x80, 0x9F⟩) [b]).map ([] ++ ·) :=
      rfl
    rw [hlead, decodeStrictFrom, if_pos hb, if_pos ⟨rfl, rfl, decide_eq_true ⟨rfl, hlower, hupper⟩⟩]
    rfl

/-- What is decoded is the text that the bytes encode, up to a rest. -/
theorem decodeStrict_eq_some_iff {final : Bool} {bytes : List UInt8} {s : List Char} :
    decodeStrict final bytes = some s ↔ ∃ tail, bytes = encode s ++ tail ∧ Rest final tail := by
  constructor
  · exact @eq_of_decodeStrictFrom [] final none bytes s rfl
  · rintro ⟨tail, rfl, htail⟩
    rw [decodeStrict_encode_append, decodeStrict_rest htail]
    simp

/-! ### Zero bytes -/

private theorem zero_mem_encodeChar {c : Char} (h : 0 ∈ String.utf8EncodeChar c) : c = '\x00' := by
  have hself : Char.ofNat c.val.toNat = c := Char.ofNat_toNat c
  unfold String.utf8EncodeChar at h
  generalize c.val.toNat = v at h hself
  have hzero : ∀ {n : Nat}, (0 : UInt8) = UInt8.ofNat n → n % 256 = 0 := fun heq => by
    simpa using (congrArg UInt8.toNat heq).symm
  have hv : v = 0 := by
    by_cases h₁ : v ≤ 0x7f
    · simp only [h₁, if_true, List.mem_singleton] at h
      have := hzero h
      omega
    by_cases h₂ : v ≤ 0x7ff
    · simp only [h₁, h₂, if_true, if_false, List.mem_cons, List.not_mem_nil, or_false] at h
      rcases h with h | h <;> have := hzero h <;> omega
    by_cases h₃ : v ≤ 0xffff
    · simp only [h₁, h₂, h₃, if_true, if_false, List.mem_cons, List.not_mem_nil, or_false] at h
      rcases h with h | h | h <;> have := hzero h <;> omega
    · simp only [h₁, h₂, h₃, if_false, List.mem_cons, List.not_mem_nil, or_false] at h
      rcases h with h | h | h | h <;> have := hzero h <;> omega
  rw [← hself, hv]

theorem zero_mem_encode_iff {s : List Char} : 0 ∈ encode s ↔ '\x00' ∈ s := by
  constructor
  · intro h
    obtain ⟨c, hc, hzero⟩ := List.mem_flatMap.1 h
    exact zero_mem_encodeChar hzero ▸ hc
  · intro h
    exact List.mem_flatMap.2 ⟨_, h, by decide⟩

theorem zero_notMem_rest {final : Bool} {tail : List UInt8} (h : Rest final tail) : 0 ∉ tail := by
  rintro hzero
  rcases h with rfl | ⟨-, ⟨c, more, hmore, hc⟩ | ⟨b, hlower, -, rfl⟩⟩
  · cases hzero
  · have hmem : 0 ∈ String.utf8EncodeChar c := hc ▸ List.mem_append_left more hzero
    rw [zero_mem_encodeChar hmem] at hc
    have hlength := congrArg List.length hc
    have hpos := List.length_pos_iff.2 hmore
    have hpos' := List.length_pos_of_mem hzero
    rw [List.length_append, show (String.utf8EncodeChar '\x00').length = 1 from rfl] at hlength
    omega
  · simp only [List.mem_cons, List.not_mem_nil, or_false] at hzero
    rcases hzero with hzero | rfl
    · cases hzero
    · simp at hlower

/-! ### Texts cut at a number of bytes -/

/-- `t` is the longest beginning of `s` that has at most `maxBytes` bytes. -/
structure LongestFitting (maxBytes : Nat) (s t : List Char) : Prop where
  isPrefix : t <+: s
  fits : (encode t).length ≤ maxBytes
  longest : ∀ u, u <+: s → (encode u).length ≤ maxBytes → u <+: t

theorem LongestFitting.self {maxBytes : Nat} {s : List Char} (h : (encode s).length ≤ maxBytes) :
    LongestFitting maxBytes s s := ⟨List.prefix_refl s, h, fun _ hu _ => hu⟩

/-- The first bytes of a text are those of the characters that fit, and the beginning of the next one. -/
private theorem take_encode (maxBytes : Nat) (s : List Char) :
    ∃ t tail, (encode s).take maxBytes = encode t ++ tail ∧ (tail = [] ∨ Cut tail) ∧ LongestFitting maxBytes s t := by
  induction s generalizing maxBytes with
  | nil => exact ⟨[], [], by simp, .inl rfl, .self (Nat.zero_le _)⟩
  | cons c s ih =>
    rw [encode_cons]
    by_cases hfits : (String.utf8EncodeChar c).length ≤ maxBytes
    · obtain ⟨t, tail, htake, htail, hlongest⟩ := ih (maxBytes - (String.utf8EncodeChar c).length)
      refine ⟨c :: t, tail, ?_, htail, (List.prefix_cons_inj c).2 hlongest.isPrefix, ?_, fun u hu hfit => ?_⟩
      · rw [List.take_append, List.take_of_length_le hfits, htake, encode_cons, List.append_assoc]
      · have hfit := hlongest.fits
        rw [encode_cons, List.length_append]
        omega
      · rcases List.prefix_cons_iff.1 hu with rfl | ⟨u', rfl, hu'⟩
        · exact List.nil_prefix
        · rw [encode_cons, List.length_append] at hfit
          exact (List.prefix_cons_inj c).2 (hlongest.longest u' hu' (by omega))
    · rw [List.take_append_of_le_length (by omega)]
      refine ⟨[], (String.utf8EncodeChar c).take maxBytes, rfl, .inr ?_, List.nil_prefix, Nat.zero_le _,
        fun u hu hfit => ?_⟩
      · refine ⟨c, (String.utf8EncodeChar c).drop maxBytes, ?_, (List.take_append_drop _ _).symm⟩
        rw [Ne, List.drop_eq_nil_iff]
        exact hfits
      · rcases List.prefix_cons_iff.1 hu with rfl | ⟨u', rfl, -⟩
        · exact List.nil_prefix
        · rw [encode_cons, List.length_append] at hfit
          omega

/-- The bytes end where a character does, or within one. -/
theorem decodeStrict_take_encode {maxBytes : Nat} {s : List Char} :
    ∃ t, decodeStrict (decide ((encode s).length ≤ maxBytes)) ((encode s).take maxBytes) = some t ∧
      LongestFitting maxBytes s t := by
  by_cases hle : (encode s).length ≤ maxBytes
  · refine ⟨s, ?_, .self hle⟩
    rw [List.take_of_length_le hle]
    exact decodeStrict_eq_some_iff.2 ⟨[], (List.append_nil _).symm, .inl rfl⟩
  · obtain ⟨t, tail, htake, htail, hlongest⟩ := take_encode maxBytes s
    refine ⟨t, ?_, hlongest⟩
    rw [decide_eq_false hle]
    refine decodeStrict_eq_some_iff.2 ⟨tail, htake, ?_⟩
    rcases htail with rfl | hcut
    · exact .inl rfl
    · exact .inr ⟨rfl, .inl hcut⟩

end Utf8
