import CliServer.CodePoints
import CliServer.Lib.JsonValues
import CliServer.Lib.Transition
import CliServer.Lib.Utf8Chunks

/-!
# The text of a terminal

`_read_pty_output` decodes the chunks that are read from the PTY and sends each as a message, before the next one is
read; `_read_websocket_input` encodes what the client types and writes it in as many parts as the PTY takes.  However
the bytes are cut, the client is shown the text of the bytes (`output_shown`), and the PTY is given the bytes of the
text (`input_written`).
-/

namespace CliServer.Shell

open Transition
open Json (Text ofChars)

/-! ### Output -/

/-- Where `_read_pty_output` is suspended. -/
inductive OutputPhase where
  /-- In `_read_pty`. -/
  | reading
  /-- In `send_text`; `last`: of the tail, after which it returns. -/
  | sending (text : Str) (last : Bool)
  | ended (failed : Bool)
  deriving DecidableEq

/-- The buffer of the decoder, and the messages that were sent. -/
structure Output where
  buffer : List UInt8 := []
  phase : OutputPhase := .reading
  sent : List Str := []

inductive OutputAction where
  /-- `_read_pty` returns, at the end of the output with no byte. -/
  | read (chunk : List UInt8)
  | sent
  /-- The await raises. -/
  | fails

def typeKey : Text := ofChars "type".toList

def dataKey : Text := ofChars "data".toList

/-- `{"type": kind, "data": data}`. -/
def dataMessage (kind : String) (data : Text) : JsonValue :=
  .obj [(typeKey, .str (ofChars kind.toList)), (dataKey, .str data)]

/-- A message of the output. -/
def stdoutMessage (text : Str) : Str := (dataMessage "stdout" (ofChars text)).dumps

/-- `if text: await websocket.send_text(...)`. -/
def Output.send (s : Output) (text : Str) (last : Bool) : Output :=
  { s with phase := if text ≠ [] then .sending text last else if last then .ended false else .reading }

def outputStep (s : Output) : OutputAction → Option Output
  | .read chunk =>
    match s.phase with
    | .reading =>
      if chunk = [] then some (Output.send { s with buffer := [] } (Utf8.decode s.buffer) true)
      else
        let (text, rest) := Utf8.decodeChunk s.buffer chunk
        some (Output.send { s with buffer := rest } text false)
    | _ => none
  | .sent =>
    match s.phase with
    | .sending text last =>
      some { s with sent := s.sent ++ [stdoutMessage text], phase := if last then .ended false else .reading }
    | _ => none
  | .fails =>
    match s.phase with
    | .ended _ => none
    | _ => some { s with phase := .ended true }

/-- The bytes that an action reads. -/
def OutputAction.bytes : OutputAction → List UInt8
  | .read chunk => chunk
  | _ => []

/-- The bytes that were read. -/
def bytesRead (ms : List (Move Output OutputAction)) : List UInt8 := ms.flatMap fun m => m.act.bytes

/-- What the client shows of a message. -/
def shownOf (message : Str) : Text :=
  match JsonValue.loads message with
  | some (.obj members) =>
    match members.lookup typeKey, members.lookup dataKey with
    | some (.str kind), some (.str data) => if kind = ofChars "stdout".toList then data else []
    | _, _ => []
  | _ => []

/-- What the client shows of the messages. -/
def shown (messages : List Str) : Text := messages.flatMap shownOf

/-- Texts of characters have no surrogates to be joined. -/
private theorem joinSurrogates_ofChars (s : Str) : Json.joinSurrogates (ofChars s) = ofChars s := by
  refine Json.joinSurrogates_eq_self fun c hc => ?_
  obtain ⟨d, -, rfl⟩ := List.mem_map.1 hc
  have hvalid : d.toNat < 0xD800 ∨ 0xDFFF < d.toNat ∧ d.toNat < 0x110000 := d.valid
  rw [Json.val_ofChar, Json.isHigh, Bool.and_eq_false_iff, decide_eq_false_iff_not, decide_eq_false_iff_not]
  omega

/-- A message is read as it was written, with the surrogates of its data joined. -/
private theorem loads_dataMessage (kind : String) (data : Text) :
    JsonValue.loads (dataMessage kind data).dumps = some (dataMessage kind (Json.joinSurrogates data)) := by
  rw [JsonValue.loads_dumps, dataMessage, JsonValue.join, JsonValue.joinMembers, JsonValue.joinMembers,
    JsonValue.joinMembers, JsonValue.join, JsonValue.join, typeKey, dataKey, joinSurrogates_ofChars,
    joinSurrogates_ofChars, joinSurrogates_ofChars, JsonValue.dict, List.foldl_cons, List.foldl_cons, List.foldl_nil,
    JsonValue.setItem, JsonValue.setItem]
  rfl

private theorem lookup_dataMessage (kind data : Text) :
    List.lookup dataKey [(typeKey, JsonValue.str kind), (dataKey, JsonValue.str data)] = some (.str data) := by
  have hne : (dataKey == typeKey) = false := by decide
  rw [List.lookup_cons, hne, List.lookup_cons_self]

private theorem shownOf_stdoutMessage (text : Str) : shownOf (stdoutMessage text) = ofChars text := by
  rw [shownOf, stdoutMessage, loads_dataMessage, joinSurrogates_ofChars, dataMessage]
  simp only [List.lookup_cons_self, lookup_dataMessage, if_true]

private theorem shown_map_stdoutMessage (texts : List Str) :
    shown (texts.map stdoutMessage) = ofChars texts.flatten := by
  induction texts with
  | nil => rfl
  | cons text texts ih =>
    rw [List.map_cons, shown, List.flatMap_cons, shownOf_stdoutMessage, ← shown, ih, List.flatten_cons, ofChars,
      ofChars, ofChars, List.map_append]

/-- The text that is being sent. -/
def OutputPhase.text : OutputPhase → Str
  | .sending text _ => text
  | _ => []

@[simp] theorem OutputPhase.text_reading : OutputPhase.reading.text = [] := rfl

@[simp] theorem OutputPhase.text_sending (text : Str) (last : Bool) : (OutputPhase.sending text last).text = text := rfl

/-- The texts that were sent, with what is sent and what is left, are the text of the bytes. -/
structure Output.Settled (bytes : List UInt8) (s : Output) (texts : List Str) : Prop where
  sent : s.sent = texts.map stdoutMessage
  nonempty : ∀ text ∈ texts, text ≠ []
  /-- More may come as long as the tail has not been decoded. -/
  open_ : s.phase = .reading ∨ (∃ text, s.phase = .sending text false) → ∀ more,
    texts.flatten ++ s.phase.text ++ Utf8.decode (s.buffer ++ more) = Utf8.decode (bytes ++ more)
  last : ∀ text, s.phase = .sending text true → texts.flatten ++ text = Utf8.decode bytes
  complete : s.phase = .ended false → texts.flatten = Utf8.decode bytes
  isPrefix : texts.flatten <+: Utf8.decode bytes
  sending : ∀ text last, s.phase = .sending text last → text ≠ []
  rest : Utf8.Rest false s.buffer

variable {s s' : Output} {bytes chunk : List UInt8} {texts : List Str}

private theorem Output.Settled.read_end (h : s.Settled bytes texts) (hphase : s.phase = .reading) :
    (Output.send { s with buffer := [] } (Utf8.decode s.buffer) true).Settled bytes texts := by
  have hall : texts.flatten ++ Utf8.decode s.buffer = Utf8.decode bytes := by
    have hopen := h.open_ (.inl hphase) []
    rwa [hphase, List.append_nil, List.append_nil, OutputPhase.text_reading, List.append_nil] at hopen
  unfold Output.send
  split
  · next htail => exact ⟨h.sent, h.nonempty, by simp, fun text heq => by cases heq; exact hall, by simp, h.isPrefix,
      fun text last heq => by cases heq; exact htail, .inl rfl⟩
  · next htail =>
    rw [not_not] at htail
    rw [htail, List.append_nil] at hall
    exact ⟨h.sent, h.nonempty, by simp, by simp, fun _ => hall, h.isPrefix, by simp, .inl rfl⟩

private theorem Output.Settled.read_chunk (h : s.Settled bytes texts) (hphase : s.phase = .reading)
    (chunk : List UInt8) :
    (Output.send { s with buffer := (Utf8.decodeChunk s.buffer chunk).2 } (Utf8.decodeChunk s.buffer chunk).1
      false).Settled (bytes ++ chunk) texts := by
  have hall : ∀ more, texts.flatten ++ (Utf8.decodeChunk s.buffer chunk).1 ++
      Utf8.decode ((Utf8.decodeChunk s.buffer chunk).2 ++ more) = Utf8.decode (bytes ++ chunk ++ more) := by
    intro more
    have hopen := h.open_ (.inl hphase) (chunk ++ more)
    rw [hphase, OutputPhase.text_reading, List.append_nil] at hopen
    rw [List.append_assoc, Utf8.decode_decodeChunk, List.append_assoc, hopen, List.append_assoc]
  have hprefix : texts.flatten <+: Utf8.decode (bytes ++ chunk) := by
    have hmore := hall []
    rw [List.append_nil (bytes ++ chunk), List.append_assoc] at hmore
    exact ⟨_, hmore⟩
  have hrest := Utf8.rest_decodeChunk s.buffer chunk
  unfold Output.send
  split
  · next htext => exact ⟨h.sent, h.nonempty, fun _ => hall, by simp, by simp, hprefix,
      fun text last heq => by cases heq; exact htext, hrest⟩
  · next htext =>
    rw [not_not] at htext
    rw [htext] at hall
    exact ⟨h.sent, h.nonempty, fun _ => hall, by simp, by simp, hprefix, by simp, hrest⟩

private theorem Output.Settled.sent_text {text : Str} {last : Bool} (h : s.Settled bytes texts)
    (hphase : s.phase = .sending text last) :
    Output.Settled bytes
      { s with sent := s.sent ++ [stdoutMessage text], phase := if last then .ended false else .reading }
      (texts ++ [text]) := by
  have hsent : s.sent ++ [stdoutMessage text] = (texts ++ [text]).map stdoutMessage := by
    rw [h.sent, List.map_append, List.map_singleton]
  have hflatten : (texts ++ [text]).flatten = texts.flatten ++ text := by simp
  have hnonempty : ∀ t ∈ texts ++ [text], t ≠ [] := by
    intro t ht
    rcases List.mem_append.1 ht with ht | ht
    · exact h.nonempty t ht
    · rw [List.mem_singleton.1 ht]
      exact h.sending text last hphase
  cases last with
  | true =>
    have hall := h.last text hphase
    rw [← hflatten] at hall
    exact ⟨hsent, hnonempty, by simp, by simp, fun _ => hall, hall ▸ List.prefix_refl _, by simp, h.rest⟩
  | false =>
    have hall := h.open_ (.inr ⟨text, hphase⟩)
    rw [hphase, OutputPhase.text_sending, ← hflatten] at hall
    refine ⟨hsent, hnonempty, fun _ more => ?_, by simp, by simp, ?_, by simp, h.rest⟩
    · rw [if_neg Bool.false_ne_true, OutputPhase.text_reading, List.append_nil]
      exact hall more
    · have hmore := hall []
      rw [List.append_nil bytes] at hmore
      exact ⟨_, hmore⟩

theorem Output.Settled.step {a : OutputAction} (h : s.Settled bytes texts) (hst : outputStep s a = some s') :
    ∃ texts', s'.Settled (bytes ++ a.bytes) texts' := by
  cases a with
  | read chunk =>
    simp only [outputStep] at hst
    split at hst
    · next hphase =>
      split at hst
      · next hchunk =>
        obtain rfl := Option.some.inj hst
        rw [hchunk, OutputAction.bytes, List.append_nil]
        exact ⟨texts, h.read_end hphase⟩
      · obtain rfl := Option.some.inj hst
        exact ⟨texts, h.read_chunk hphase chunk⟩
    · cases hst
  | sent =>
    simp only [outputStep] at hst
    split at hst
    · next text last hphase =>
      obtain rfl := Option.some.inj hst
      have hbytes : bytes ++ OutputAction.sent.bytes = bytes := List.append_nil bytes
      rw [hbytes]
      exact ⟨texts ++ [text], h.sent_text hphase⟩
    · cases hst
  | fails =>
    simp only [outputStep] at hst
    split at hst
    · cases hst
    · obtain rfl := Option.some.inj hst
      have hbytes : bytes ++ OutputAction.fails.bytes = bytes := List.append_nil bytes
      rw [hbytes]
      exact ⟨texts, h.sent, h.nonempty, by simp, by simp, by simp, h.isPrefix, by simp, h.rest⟩

private theorem settled_of_run {ms : List (Move Output OutputAction)} (h : Run outputStep {} ms s) :
    ∃ texts, s.Settled (bytesRead ms) texts := by
  refine h.history (I := fun ms s => ∃ texts, s.Settled (bytesRead ms) texts) ⟨[], ?_⟩ fun ms s a t hs _ hst => ?_
  · exact ⟨rfl, by simp, fun _ _ => rfl, by simp, by simp, List.prefix_refl _, by simp, .inl rfl⟩
  · obtain ⟨texts, hs⟩ := hs
    rw [bytesRead, List.flatMap_append, ← bytesRead, List.flatMap_singleton]
    exact hs.step hst

/-- However the output is cut into chunks, the client is shown the beginning of its text; once it is at its end, all of
it; and whenever more is awaited, all but the beginning of a character, of at most three bytes. -/
theorem output_shown {ms : List (Move Output OutputAction)} (h : Run outputStep {} ms s) :
    shown s.sent <+: ofChars (Utf8.decode (bytesRead ms)) ∧
      (s.phase = .ended false → shown s.sent = ofChars (Utf8.decode (bytesRead ms))) ∧
      (s.phase = .reading → s.buffer.length ≤ 3 ∧
        ∀ more, shown s.sent ++ ofChars (Utf8.decode (s.buffer ++ more)) =
          ofChars (Utf8.decode (bytesRead ms ++ more))) := by
  obtain ⟨texts, hs⟩ := settled_of_run h
  rw [hs.sent, shown_map_stdoutMessage]
  refine ⟨hs.isPrefix.map Json.ofChar, fun hphase => by rw [hs.complete hphase], fun hphase =>
    ⟨Utf8.length_rest_le hs.rest, fun more => ?_⟩⟩
  have hopen := hs.open_ (.inl hphase) more
  rw [hphase, OutputPhase.text_reading, List.append_nil] at hopen
  rw [← hopen, ofChars, ofChars, ofChars, List.map_append]

/-- The Euro sign arrives in two chunks, and the beginning of another character at the end. -/
theorem output_shown_cut : ∃ ms, ∃ s : Output, Run outputStep {} ms s ∧ s.phase = .ended false ∧
    bytesRead ms = [0xE2, 0x82, 0xAC, 0xF0] ∧ shown s.sent = ofChars ['\u20ac', '\ufffd'] := by
  let actions : List OutputAction := [.read [0xE2], .read [0x82, 0xAC, 0xF0], .sent, .read [], .sent]
  have hexec : (exec outputStep {} actions).any (fun r => decide (r.2.phase = .ended false ∧
      bytesRead r.1 = [0xE2, 0x82, 0xAC, 0xF0])) = true := by
    decide +kernel
  obtain ⟨⟨ms, s⟩, hexec, hs⟩ := (Option.any_eq_true _ _).1 hexec
  obtain ⟨hphase, hbytes⟩ := of_decide_eq_true hs
  refine ⟨ms, s, run_of_exec hexec, hphase, hbytes, ?_⟩
  rw [(output_shown (run_of_exec hexec)).2.1 hphase, hbytes]
  decide +kernel

/-! ### Input -/

/-- What `json.loads` raises: a `ValueError`, or a `RecursionError`. -/
inductive ReadError where
  | valueError
  | recursionError

/-- What `int` raises: a `TypeError` or a `ValueError`, or an `OverflowError`. -/
inductive IntError where
  | badValue
  | overflow

/-- `_dim`; `none` if it raises. -/
def dim (int : JsonValue → Except IntError ℤ) (value : JsonValue) (default : Nat) : Option Nat :=
  match int value with
  | .ok number => some (if 0 < number ∧ number ≤ 1000 then number.toNat else default)
  | .error .badValue => some default
  | .error .overflow => none

/-- Where `_read_websocket_input` is suspended. -/
inductive InputPhase where
  /-- In `receive_text`. -/
  | receiving
  /-- In `_write_pty`, with what is still to be written. -/
  | writing (view : List UInt8)
  | ended
  deriving DecidableEq

/-- The bytes that the PTY has taken, and the size it was set to. -/
structure Input where
  phase : InputPhase := .receiving
  written : List UInt8 := []
  size : Nat × Nat

inductive InputAction where
  /-- `resizes`: the `ioctl` of a resize does not fail. -/
  | receive (raw : Str) (resizes : Bool)
  /-- The PTY takes some of the bytes. -/
  | write (count : Nat)
  /-- The client is gone, the PTY cannot be written to, or the task is cancelled. -/
  | fails

/-- `data.encode("utf-8", "replace")`. -/
def encodeReplace (data : Text) : List UInt8 :=
  data.flatMap fun c => match char? c with
    | some c => String.utf8EncodeChar c
    | none => [0x3F]

section Input

variable (loads : Str → Except ReadError JsonValue) (int : JsonValue → Except IntError ℤ)

/-- `msg.get(key)`. -/
def member (members : List (Text × JsonValue)) (key : String) : JsonValue :=
  (members.lookup (ofChars key.toList)).getD .null

/-- `_write_pty` of a typed text, which writes nothing if there is none. -/
def Input.type (s : Input) : Option JsonValue → Input
  | some (.str data) => if data = [] then s else { s with phase := .writing (encodeReplace data) }
  | _ => s

/-- `self._set_pty_size(...)`, of the members of a resize. -/
def Input.resize (s : Input) (members : List (Text × JsonValue)) (resizes : Bool) : Input :=
  match dim int (member members "cols") 80, dim int (member members "rows") 24 with
  | some cols, some rows => if resizes then { s with size := (cols, rows) } else s
  | _, _ => { s with phase := .ended }

/-- What is done with a message. -/
def Input.handle (s : Input) (members : List (Text × JsonValue)) (resizes : Bool) : Input :=
  match member members "type" with
  | .str kind =>
    if kind = ofChars "stdin".toList then s.type (members.lookup dataKey)
    else if kind = ofChars "resize".toList then s.resize int members resizes
    else s
  | _ => s

def inputStep (s : Input) : InputAction → Option Input
  | .receive raw resizes =>
    if s.phase ≠ .receiving then none
    else match loads raw with
      | .ok (.obj members) => some (s.handle int members resizes)
      | .ok _ | .error .valueError => some s
      | .error .recursionError => some { s with phase := .ended }
  | .write count =>
    match s.phase with
    | .writing view =>
      if view.length < count then none
      else
        let rest := view.drop count
        some { s with
          written := s.written ++ view.take count
          phase := if rest = [] then .receiving else .writing rest }
    | _ => none
  | .fails =>
    if s.phase = .ended then none else some { s with phase := .ended }

/-- The bytes of what a message has as its data. -/
def dataBytes : Option JsonValue → List UInt8
  | some (.str data) => encodeReplace data
  | _ => []

/-- The bytes that are typed with a message. -/
def typed (raw : Str) : List UInt8 :=
  match loads raw with
  | .ok (.obj members) =>
    match member members "type" with
    | .str kind => if kind = ofChars "stdin".toList then dataBytes (members.lookup dataKey) else []
    | _ => []
  | _ => []

/-- The bytes that an action types. -/
def InputAction.typed : InputAction → List UInt8
  | .receive raw _ => Shell.typed loads raw
  | _ => []

/-- The bytes that were typed. -/
def typedBytes (ms : List (Move Input InputAction)) : List UInt8 := ms.flatMap fun m => m.act.typed loads

/-- The messages that were received. -/
def received (ms : List (Move Input InputAction)) : List Str :=
  ms.filterMap fun m => match m.act with
    | .receive raw _ => some raw
    | _ => none

/-- The message of a client that types a text. -/
def stdinMessage (text : Str) : JsonValue := dataMessage "stdin" (ofChars text)

private theorem encodeReplace_ofChars (s : Str) : encodeReplace (ofChars s) = Utf8.encode s := by
  rw [encodeReplace, ofChars, List.flatMap_map, Utf8.encode]
  refine List.flatMap_congr fun c _ => ?_
  rw [char?_ofChar]

variable {loads}

/-- What a client types are the bytes of its text. -/
private theorem typed_stdinMessage {text : Str} (h : loads (stdinMessage text).dumps = .ok (stdinMessage text)) :
    typed loads (stdinMessage text).dumps = Utf8.encode text := by
  have hmember : member [(typeKey, .str (ofChars "stdin".toList)), (dataKey, .str (ofChars text))] "type" =
      .str (ofChars "stdin".toList) := by
    rw [member, ← typeKey, List.lookup_cons_self]
    rfl
  rw [typed, h, stdinMessage, dataMessage]
  simp only [hmember, lookup_dataMessage, if_true, dataBytes, encodeReplace_ofChars]

/-- What was written, and what is being written, are the bytes that were typed. -/
structure Input.Kept (bytes : List UInt8) (s : Input) : Prop where
  receiving : s.phase = .receiving → s.written = bytes
  writing : ∀ view, s.phase = .writing view → s.written ++ view = bytes
  ended : s.phase = .ended → s.written <+: bytes

variable {int} {s s' : Input} {bytes : List UInt8}

theorem Input.Kept.type (h : s.Kept bytes) (hphase : s.phase = .receiving) (data : Option JsonValue) :
    (s.type data).Kept (bytes ++ dataBytes data) := by
  have hself : s.Kept (bytes ++ []) := by rwa [List.append_nil]
  unfold Input.type dataBytes
  split
  · next data =>
    split
    · next hdata =>
      rw [hdata]
      exact hself
    · exact ⟨by simp, fun view hview => by cases hview; exact congrArg (· ++ _) (h.receiving hphase), by simp⟩
  · exact hself

private theorem Input.Kept.resize (h : s.Kept bytes) (hphase : s.phase = .receiving) (members : List (Text × JsonValue))
    (resizes : Bool) : (s.resize int members resizes).Kept bytes := by
  have hwritten := h.receiving hphase
  unfold Input.resize
  split
  · split
    · exact ⟨fun _ => hwritten, h.writing, h.ended⟩
    · exact h
  · exact ⟨by simp, by simp, fun _ => hwritten ▸ List.prefix_refl _⟩

/-- What a message types is written next, and nothing else of it. -/
theorem Input.Kept.handle {members : List (Text × JsonValue)} {raw : Str} (h : s.Kept bytes)
    (hphase : s.phase = .receiving) (hraw : loads raw = .ok (.obj members)) (resizes : Bool) :
    (s.handle int members resizes).Kept (bytes ++ typed loads raw) := by
  rw [typed, hraw]
  unfold Input.handle
  dsimp only
  cases member members "type" with
  | str kind =>
    dsimp only
    split
    · exact h.type hphase _
    · rw [List.append_nil]
      split
      · exact h.resize hphase members resizes
      · exact h
  | _ => rwa [List.append_nil]

theorem Input.Kept.write {view : List UInt8} (h : s.Kept bytes) (hphase : s.phase = .writing view) (count : Nat) :
    Input.Kept bytes { s with
      written := s.written ++ view.take count
      phase := if view.drop count = [] then .receiving else .writing (view.drop count) } := by
  have hall : s.written ++ view.take count ++ view.drop count = bytes := by
    rw [List.append_assoc, List.take_append_drop]
    exact h.writing view hphase
  split
  · next hnil =>
    rw [hnil, List.append_nil] at hall
    exact ⟨fun _ => hall, by simp, by simp⟩
  · exact ⟨by simp, fun view hview => by cases hview; exact hall, by simp⟩

theorem Input.Kept.step {a : InputAction} (h : s.Kept bytes) (hst : inputStep loads int s a = some s') :
    s'.Kept (bytes ++ a.typed loads) := by
  cases a with
  | receive raw resizes =>
    simp only [inputStep] at hst
    split at hst
    · cases hst
    · next hphase =>
      rw [not_not] at hphase
      rw [InputAction.typed]
      split at hst
      · next members hraw =>
        obtain rfl := Option.some.inj hst
        exact h.handle hphase hraw resizes
      · next value hnot hraw =>
        obtain rfl := Option.some.inj hst
        have hnone : typed loads raw = [] := by
          rw [typed, hraw]
          cases value with
          | obj members => exact absurd rfl (hnot members)
          | _ => rfl
        rwa [hnone, List.append_nil]
      · next hraw =>
        obtain rfl := Option.some.inj hst
        rwa [typed, hraw, List.append_nil]
      · next hraw =>
        obtain rfl := Option.some.inj hst
        rw [typed, hraw, List.append_nil]
        exact ⟨by simp, by simp, fun _ => h.receiving hphase ▸ List.prefix_refl _⟩
  | write count =>
    have hbytes : bytes ++ (InputAction.write count).typed loads = bytes := List.append_nil bytes
    simp only [inputStep] at hst
    rw [hbytes]
    split at hst
    · next view hphase =>
      split at hst
      · cases hst
      · obtain rfl := Option.some.inj hst
        exact h.write hphase count
    · cases hst
  | fails =>
    have hbytes : bytes ++ InputAction.fails.typed loads = bytes := List.append_nil bytes
    simp only [inputStep] at hst
    rw [hbytes]
    split at hst
    · cases hst
    · obtain rfl := Option.some.inj hst
      refine ⟨by simp, by simp, fun _ => ?_⟩
      cases hphase : s.phase with
      | receiving => exact h.receiving hphase ▸ List.prefix_refl _
      | writing view => exact ⟨view, h.writing view hphase⟩
      | ended => exact h.ended hphase

/-- The bytes that were typed are those of the texts of the messages that type something. -/
private theorem typedBytes_eq_encode {ms : List (Move Input InputAction)} {texts : List Str}
    (htexts : (received ms).filter (fun raw => typed loads raw ≠ []) = texts.map fun text => (stdinMessage text).dumps)
    (hloads : ∀ text ∈ texts, loads (stdinMessage text).dumps = .ok (stdinMessage text)) :
    typedBytes loads ms = Utf8.encode texts.flatten := by
  have hreceived : typedBytes loads ms = (received ms).flatMap (typed loads) := by
    clear htexts
    unfold typedBytes received
    induction ms with
    | nil => rfl
    | cons m ms ih =>
      rw [List.flatMap_cons, List.filterMap_cons, ih]
      cases m.act <;> rfl
  have hfilter : ∀ raws : List Str,
      raws.flatMap (typed loads) = (raws.filter fun raw => typed loads raw ≠ []).flatMap (typed loads) := by
    intro raws
    induction raws with
    | nil => rfl
    | cons raw raws ih =>
      rw [List.flatMap_cons, ih, List.filter_cons]
      by_cases hraw : typed loads raw = []
      · rw [if_neg (by simpa using hraw), hraw, List.nil_append]
      · rw [if_pos (by simpa using hraw), List.flatMap_cons]
  rw [hreceived, hfilter, htexts]
  clear htexts
  induction texts with
  | nil => rfl
  | cons text texts ih =>
    rw [List.map_cons, List.flatMap_cons, typed_stdinMessage (hloads text List.mem_cons_self),
      ih fun t ht => hloads t (List.mem_cons_of_mem _ ht), List.flatten_cons, Utf8.encode, Utf8.encode, Utf8.encode,
      List.flatMap_append]

/-- However the PTY takes them, it is given the bytes that were typed, in their order: the beginning of them at any
time, and whenever a message is awaited, all of them.  They are the bytes of the texts that the client typed, whatever
other messages it sent. -/
theorem input_written {ms : List (Move Input InputAction)} {size : Nat × Nat}
    (h : Run (inputStep loads int) { size := size } ms s) :
    s.written <+: typedBytes loads ms ∧ (s.phase = .receiving → s.written = typedBytes loads ms) ∧
      ∀ texts : List Str,
        (received ms).filter (fun raw => typed loads raw ≠ []) = texts.map (fun text => (stdinMessage text).dumps) →
        (∀ text ∈ texts, loads (stdinMessage text).dumps = .ok (stdinMessage text)) →
          typedBytes loads ms = Utf8.encode texts.flatten := by
  have hkept : s.Kept (typedBytes loads ms) := by
    refine h.history (I := fun ms s => s.Kept (typedBytes loads ms)) ⟨fun _ => rfl, by simp, by simp⟩
      fun ms s a t hs _ hst => ?_
    rw [typedBytes, List.flatMap_append, ← typedBytes, List.flatMap_singleton]
    exact hs.step hst
  refine ⟨?_, hkept.receiving, fun texts => typedBytes_eq_encode⟩
  cases hphase : s.phase with
  | receiving => exact hkept.receiving hphase ▸ List.prefix_refl _
  | writing view => exact ⟨view, hkept.writing view hphase⟩
  | ended => exact hkept.ended hphase

end Input

/-- `json.loads` of texts that are not nested too deeply. -/
def loadsText (raw : Str) : Except ReadError JsonValue :=
  match JsonValue.loads raw with
  | some value => .ok value
  | none => .error .valueError

/-- A character of two bytes is typed, that the PTY takes one by one, then a message that is not JSON, and a letter. -/
theorem input_written_twice : ∃ ms, ∃ s : Input,
    Run (inputStep loadsText fun _ => .error .badValue) { size := (80, 24) } ms s ∧
      s.written = Utf8.encode ['\u00e9', 'a'] := by
  let actions : List InputAction := [.receive (stdinMessage ['\u00e9']).dumps true, .write 1, .write 1,
    .receive ['x'] true, .receive (stdinMessage ['a']).dumps true, .write 1]
  have hexec : (exec (inputStep loadsText fun _ => .error .badValue) { size := (80, 24) } actions).any (fun r =>
      decide (r.2.phase = .receiving ∧ (received r.1).filter (fun raw => typed loadsText raw ≠ []) =
        [['\u00e9'], ['a']].map fun text => (stdinMessage text).dumps)) = true := by
    decide +kernel
  obtain ⟨⟨ms, s⟩, hexec, hs⟩ := (Option.any_eq_true _ _).1 hexec
  obtain ⟨hphase, hreceived⟩ := of_decide_eq_true hs
  obtain ⟨-, hall, htexts⟩ := input_written (run_of_exec hexec)
  refine ⟨ms, s, run_of_exec hexec, ?_⟩
  rw [hall hphase, htexts _ hreceived fun text _ => ?_]
  · rfl
  · rw [loadsText, stdinMessage, loads_dataMessage, joinSurrogates_ofChars]

end CliServer.Shell
