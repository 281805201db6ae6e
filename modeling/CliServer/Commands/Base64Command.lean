import CliServer.Commands.ShellWords
import CliServer.Lib.Base64
import CliServer.Lib.Utf8Strict

/-!
# The `base64` command

What `base64 encode` answers, `base64 decode` reads back, quoted or not and broken into lines or not
(`base64_round_trip`).
-/

namespace CliServer

/-- The positional arguments of a `CliProcessCommand`. -/
structure Positional where
  positionals : Option (List Str) := none
  value : Option Str := none

/-- `get_positionals`. -/
def getPositionals (command : Positional) : List Str :=
  command.positionals.getD (splitShellWords (command.value.getD []))

/-- `get_positional_text`. -/
def getPositionalText (command : Positional) : Str := [' '].intercalate (getPositionals command)

/-- `_Base64EncodeProcessor.handle_async`. -/
def base64Encode (command : Positional) : Str :=
  let text := getPositionalText command
  if text = [] then "Usage: base64 encode <text>".toList else Base64.encode (Utf8.encode text)

/-- `base64.b64decode(text).decode("utf-8")`. -/
def decodeBase64Text (text : Str) : Option Str := (Base64.decode text).bind (Utf8.decodeStrict true)

/-- `_Base64DecodeProcessor.handle_async`. -/
def base64Decode (command : Positional) : Str :=
  let text := getPositionalText command
  if text = [] then "Usage: base64 decode <base64string>".toList
  else (decodeBase64Text text).getD "Error: Invalid Base64 input".toList

/-! ### Positional arguments -/

variable {text : Str}

private theorem getPositionalText_single (text : Str) (value : Option Str) :
    getPositionalText { positionals := some [text], value := value } = text := List.intercalate_singleton

/-- A quoted text is one argument. -/
private theorem getPositionalText_quoted (text : Str) :
    getPositionalText { value := some (quoteShellWord text) } = text := by
  have hwords : splitShellWords ([' '].intercalate [quoteShellWord text]) = [text] :=
    splitShellWords_joined (.cons (spells_quote text) .nil)
  rw [List.intercalate_singleton] at hwords
  show [' '].intercalate (splitShellWords (quoteShellWord text)) = text
  rw [hwords, List.intercalate_singleton]

/-! ### Encoding and decoding -/

private theorem utf8_encode_ne_nil (h : text ≠ []) : Utf8.encode text ≠ [] := by
  intro heq
  rw [← Utf8.decode_encode text, heq] at h
  exact h rfl

private theorem decodeBase64Text_of_filter {s : Str} (hascii : ∀ c ∈ s, c.toNat < 128)
    (hs : s.filter Base64.significant = Base64.encode (Utf8.encode text)) : decodeBase64Text s = some text := by
  have hdecoded := Utf8.decodeStrict_encode_append true text []
  rw [List.append_nil] at hdecoded
  rw [decodeBase64Text, Base64.decode_of_filter hascii hs, Option.bind_some, hdecoded]
  simp [Utf8.decodeStrict, Utf8.decodeStrictFrom]

/-- What is answered for a text is decoded to that text, whatever ASCII characters that are not of Base64 come in
between; and a text that is decoded is encoded to what has the same bytes. -/
theorem base64_round_trip (text : Str) (htext : text ≠ []) :
    (∀ value, base64Encode { positionals := some [text], value := value } = Base64.encode (Utf8.encode text)) ∧
    base64Encode { value := some (quoteShellWord text) } = Base64.encode (Utf8.encode text) ∧
    (∀ command : Positional, (∀ c ∈ getPositionalText command, c.toNat < 128) →
      (getPositionalText command).filter Base64.significant = Base64.encode (Utf8.encode text) →
        base64Decode command = text) ∧
    (∀ s, decodeBase64Text s = some text →
      Base64.decode s = Base64.decode (base64Encode { positionals := some [text] })) := by
  have hencode : ∀ command : Positional, getPositionalText command = text →
      base64Encode command = Base64.encode (Utf8.encode text) := fun command hcommand => by
    simp only [base64Encode, hcommand, if_neg htext]
  refine ⟨fun value => hencode _ (getPositionalText_single text value), hencode _ (getPositionalText_quoted text),
    fun command hascii hfilter => ?_, fun s hs => ?_⟩
  · have hne : getPositionalText command ≠ [] := by
      intro hnil
      rw [hnil, List.filter_nil] at hfilter
      exact Base64.encode_ne_nil (utf8_encode_ne_nil htext) hfilter.symm
    simp only [base64Decode, if_neg hne, decodeBase64Text_of_filter hascii hfilter, Option.getD_some]
  · obtain ⟨bytes, hbytes, hstrict⟩ := Option.bind_eq_some_iff.1 hs
    obtain ⟨tail, rfl, htail⟩ := Utf8.decodeStrict_eq_some_iff.1 hstrict
    obtain rfl : tail = [] := htail.resolve_right fun h => Bool.noConfusion h.1
    rw [hbytes, hencode _ (getPositionalText_single text none), Base64.decode_encode, List.append_nil]

/-- The encoding comes in two arguments. -/
theorem base64_round_trip_two :
    base64Decode { positionals := some [['4', 'o', 'K', 's'], ['I', 'Q', '=', '=']] } = ['\u20ac', '!'] := by
  let command : Positional := { positionals := some [['4', 'o', 'K', 's'], ['I', 'Q', '=', '=']] }
  have hascii : (getPositionalText command).all (fun c => c.toNat < 128) = true := by decide +kernel
  refine (base64_round_trip ['\u20ac', '!'] (by decide)).2.2.1 command (fun c hc => ?_) (by decide +kernel)
  exact of_decide_eq_true (List.all_eq_true.1 hascii c hc)

end CliServer
