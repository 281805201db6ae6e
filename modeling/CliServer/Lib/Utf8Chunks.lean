import CliServer.Lib.Utf8Strict

/-!
# Decoding UTF-8 in chunks

A decoder that is given its bytes in chunks keeps the bytes of a character that is not complete yet, at most three, and
puts them before the next chunk.  However the bytes are cut, the text of a chunk stands before the text of the bytes
that are left and of all that follow (`decode_decodeChunk`).
-/

namespace Utf8

/-- The bytes of the character that is pending after one more byte, if those of `pending` are `read`. -/
def pendingBytes (read : List UInt8) (pending : Option Pending) (b : UInt8) : List UInt8 :=
  match next pending b with
  | (_, none) => []
  | ([], some _) => read ++ [b]
  | (_ :: _, some _) => [b]

/-- The text of a chunk, and the bytes that are left for the next one; `read` are the bytes of `pending`. -/
def decodeChunkFrom (read : List UInt8) (pending : Option Pending) : List UInt8 → List Char × List UInt8
  | [] => ([], read)
  | b :: bytes =>
    if bytes = [] ∧ surrogateStart pending b then ([], read ++ [b])
    else
      let (s, rest) := decodeChunkFrom (pendingBytes read pending b) (next pending b).2 bytes
      ((next pending b).1 ++ s, rest)

/-- `decode(chunk)` of an incremental decoder with `buffer`. -/
def decodeChunk (buffer chunk : List UInt8) : List Char × List UInt8 := decodeChunkFrom [] none (buffer ++ chunk)

variable {pending : Option Pending} {read : List UInt8}

/-- A byte that is not refused completes a character, or is not the last one of it. -/
private theorem accept_output {b : UInt8} (hb : ¬Refused pending b) :
    (∃ c, next pending b = ([c], none)) ∨ ∃ p, next pending b = ([], some p) := by
  cases pending with
  | none =>
    rcases lead_cases b with ⟨c, hc⟩ | ⟨p, hp, -⟩
    · exact .inl ⟨c, hc⟩
    · exact .inr ⟨p, hp⟩
  | some p =>
    have hbounds : p.lower ≤ b.toNat ∧ b.toNat ≤ p.upper := by
      rw [Refused] at hb
      omega
    rw [next, if_pos hbounds]
    dsimp only
    split
    · exact .inl ⟨_, rfl⟩
    · exact .inr ⟨_, rfl⟩

private theorem next_of_refused {b : UInt8} (hb : Refused pending b) :
    (next pending b).1 ≠ [] ∧ (next pending b).2 = (lead b).2 := by
  cases pending with
  | none =>
    refine ⟨?_, rfl⟩
    rcases lead_cases b with ⟨c, hc⟩ | ⟨p, hp, -⟩
    · rw [next, hc]
      exact List.cons_ne_nil _ _
    · unfold lead at hp
      unfold Refused at hb
      dsimp only at hp
      split_ifs at hp <;> first | omega | cases (Prod.mk.inj hp).2
  | some p =>
    have hbounds : ¬(p.lower ≤ b.toNat ∧ b.toNat ≤ p.upper) := by
      rcases hb with hb | hb <;> omega
    rw [next, if_neg hbounds]
    exact ⟨List.cons_ne_nil _ _, rfl⟩

/-- Nothing is pending after the byte, or the character goes on, or another one begins. -/
private theorem pendingBytes_cases (read : List UInt8) (pending : Option Pending) (b : UInt8) :
    ((next pending b).2 = none ∧ pendingBytes read pending b = []) ∨
      (∃ p, ¬Refused pending b ∧ next pending b = ([], some p) ∧ pendingBytes read pending b = read ++ [b]) ∨
      ∃ p, (next pending b).2 = some p ∧ lead b = ([], some p) ∧ pendingBytes read pending b = [b] := by
  by_cases hb : Refused pending b
  · obtain ⟨houtput, hstate⟩ := next_of_refused hb
    obtain ⟨c, s, hcons⟩ := List.exists_cons_of_ne_nil houtput
    rcases lead_cases b with ⟨d, hd⟩ | ⟨p, hp, -⟩
    · have hnext : next pending b = (c :: s, none) := Prod.ext hcons (by rw [hstate, hd])
      exact .inl ⟨by rw [hnext], by rw [pendingBytes, hnext]⟩
    · have hnext : next pending b = (c :: s, some p) := Prod.ext hcons (by rw [hstate, hp])
      exact .inr (.inr ⟨p, by rw [hnext], hp, by rw [pendingBytes, hnext]⟩)
  · have hsome := accept_output hb
    rcases hsome with ⟨c, hnext⟩ | ⟨p, hnext⟩
    · exact .inl ⟨by rw [hnext], by rw [pendingBytes, hnext]⟩
    · exact .inr (.inl ⟨p, hb, hnext, by rw [pendingBytes, hnext]⟩)

/-- The bytes of what is pending lead to it. -/
private theorem decodeFrom_pendingBytes (hread : ∀ more, decodeFrom none (read ++ more) = decodeFrom pending more)
    (b : UInt8)
    (more : List UInt8) :
    decodeFrom none (pendingBytes read pending b ++ more) = decodeFrom (next pending b).2 more := by
  rcases pendingBytes_cases read pending b with ⟨hnext, hbytes⟩ | ⟨p, -, hnext, hbytes⟩ | ⟨p, hnext, hlead, hbytes⟩
  · rw [hnext, hbytes, List.nil_append]
  · rw [hbytes, List.append_assoc, List.singleton_append, hread, decodeFrom_cons, hnext, List.nil_append]
  · rw [hnext, hbytes, List.singleton_append, decodeFrom_cons]
    show (lead b).1 ++ decodeFrom (lead b).2 more = decodeFrom (some p) more
    rw [hlead, List.nil_append]

private theorem decode_decodeChunkFrom (hread : ∀ more, decodeFrom none (read ++ more) = decodeFrom pending more)
    (bytes more : List UInt8) :
    (decodeChunkFrom read pending bytes).1 ++ decode ((decodeChunkFrom read pending bytes).2 ++ more) =
      decode (read ++ (bytes ++ more)) := by
  induction bytes generalizing pending read with
  | nil => rfl
  | cons b bytes ih =>
    rw [decodeChunkFrom]
    split
    · next hstart => rw [hstart.1, List.nil_append, List.append_assoc]
    · have hrest := ih (decodeFrom_pendingBytes hread b)
      dsimp only
      rw [List.append_assoc, hrest, decode, decode, decodeFrom_pendingBytes hread, List.cons_append, hread,
        decodeFrom_cons]

/-- What is decoded of a chunk is decoded for good: it stands before the text of what is left, whatever follows. -/
theorem decode_decodeChunk (buffer chunk more : List UInt8) :
    (decodeChunk buffer chunk).1 ++ decode ((decodeChunk buffer chunk).2 ++ more) =
      decode (buffer ++ chunk ++ more) := by
  rw [decodeChunk, decode_decodeChunkFrom fun _ => rfl]
  rfl

/-! ### What is left -/

private theorem rest_decodeChunkFrom (hread : pending.elim (read = []) (Pending.Reads · read)) (bytes : List UInt8) :
    Rest false (decodeChunkFrom read pending bytes).2 := by
  induction bytes generalizing pending read with
  | nil =>
    cases pending with
    | none => exact .inl hread
    | some p => exact .inr ⟨rfl, .inl (Pending.Reads.cut hread)⟩
  | cons b bytes ih =>
    rw [decodeChunkFrom]
    split
    · next hstart =>
      cases pending with
      | none => cases hstart.2
      | some p =>
        obtain ⟨hupper, hb⟩ := of_decide_eq_true hstart.2
        exact .inr ⟨rfl, .inr ⟨b, hb.1, hb.2, by rw [Pending.Reads.surrogate hread hupper]; rfl⟩⟩
    · refine ih ?_
      rcases pendingBytes_cases read pending b with ⟨hnext, hbytes⟩ | ⟨p, hb, hnext, hbytes⟩ | ⟨p, hnext, hlead, hbytes⟩
      · rw [hnext, hbytes]
        rfl
      · rcases accept_cases hread hb with ⟨c, hnext', -⟩ | ⟨p', hnext', hp'⟩
        · rw [hnext] at hnext'
          cases (Prod.mk.inj hnext').1
        · rw [hnext', hbytes]
          exact hp'
      · rw [hnext, hbytes]
        exact Pending.reads_lead hlead

theorem length_rest_le {final : Bool} {tail : List UInt8} (h : Rest final tail) : tail.length ≤ 3 := by
  rcases h with rfl | ⟨-, ⟨c, more, hmore, hc⟩ | ⟨b, -, -, rfl⟩⟩
  · exact Nat.zero_le _
  · have hlength := congrArg List.length hc
    have hpos := List.length_pos_iff.2 hmore
    have hsize : (String.utf8EncodeChar c).length ≤ 4 := by
      rw [String.length_utf8EncodeChar]
      exact Char.utf8Size_le_four c
    rw [List.length_append] at hlength
    omega
  · simp

/-- At most the beginning of a character is left. -/
theorem rest_decodeChunk (buffer chunk : List UInt8) : Rest false (decodeChunk buffer chunk).2 :=
  @rest_decodeChunkFrom none [] rfl _

end Utf8
