import CliServer.Text

/-!
# The words of a Redis command

`_parse_command_args` splits a command into words; a quoted part is one word, or a part of one.  A word is kept when
text has been read for it, so a quoted word that is empty is lost, and no other (`parseCommandArgs_command_iff`).
-/

namespace CliServer

namespace RedisWords

/-- The loop of `_parse_command_args`, with its `parts`, `current` and `quote`. -/
def scanArgs (parts : List Str) (current : Str) (quote : Option Char) : Str → List Str
  | [] => if current = [] then parts else parts ++ [current]
  | ch :: s =>
    match quote with
    | some q => if ch = q then scanArgs parts current none s else scanArgs parts (current ++ [ch]) quote s
    | none =>
      if ch = '\'' ∨ ch = '"' then scanArgs parts current (some ch) s
      else if isSpace ch then
        if current = [] then scanArgs parts current none s else scanArgs (parts ++ [current]) [] none s
      else scanArgs parts (current ++ [ch]) none s

/-- `_parse_command_args`. -/
def parseCommandArgs (query : Str) : List Str := scanArgs [] [] none (strip query)

/-- A word in quotes that it does not have. -/
structure QuotedWord where
  quote : Char
  word : Str
  isQuote : quote = '\'' ∨ quote = '"'
  free : quote ∉ word

def QuotedWord.text (w : QuotedWord) : Str := w.quote :: (w.word ++ [w.quote])

/-- White space, at least one character. -/
structure Blanks where
  text : Str
  nonempty : text ≠ []
  blank : ∀ c ∈ text, isSpace c = true

/-- The words of a command, with white space between them. -/
structure Command where
  first : QuotedWord
  rest : List (Blanks × QuotedWord)

def Command.text (command : Command) : Str := command.first.text ++ command.rest.flatMap fun r => r.1.text ++ r.2.text

def Command.words (command : Command) : List Str := command.first.word :: command.rest.map (·.2.word)

/-- A word that is kept. -/
def kept (current : Str) : List Str := if current = [] then [] else [current]

section Scan

variable {parts : List Str} {current : Str} {s : Str}

private theorem isSpace_quote {q : Char} (hq : q = '\'' ∨ q = '"') : isSpace q = false := by
  rcases hq with rfl | rfl
  · rfl
  · rfl

private theorem scanArgs_inside {q : Char} {word : Str} (hfree : q ∉ word) :
    scanArgs parts current (some q) (word ++ q :: s) = scanArgs parts (current ++ word) none s := by
  induction word generalizing current with
  | nil => rw [List.nil_append, List.append_nil, scanArgs, if_pos rfl]
  | cons c word ih =>
    have hc : c ≠ q := (List.ne_of_not_mem_cons hfree).symm
    rw [List.cons_append, scanArgs, if_neg hc, ih (List.not_mem_of_not_mem_cons hfree), List.append_assoc]
    rfl

/-- A quoted word is added to the one that is read. -/
private theorem scanArgs_text (w : QuotedWord) :
    scanArgs parts current none (w.text ++ s) = scanArgs parts (current ++ w.word) none s := by
  have htext : w.text ++ s = w.quote :: (w.word ++ w.quote :: s) := by
    rw [QuotedWord.text]
    simp
  rw [htext, scanArgs, if_pos w.isQuote, scanArgs_inside w.free]

private theorem scanArgs_blank (hs : ∀ c ∈ s, isSpace c = true) (rest : Str) :
    scanArgs parts [] none (s ++ rest) = scanArgs parts [] none rest := by
  induction s with
  | nil => rfl
  | cons c s ih =>
    obtain ⟨hc, hs⟩ := List.forall_mem_cons.1 hs
    have hquote : ¬(c = '\'' ∨ c = '"') := fun hquote => by
      rw [isSpace_quote hquote] at hc
      cases hc
    rw [List.cons_append, scanArgs, if_neg hquote, if_pos hc, if_pos rfl, ih hs]

/-- White space ends the word that is read. -/
private theorem scanArgs_blanks (b : Blanks) (rest : Str) :
    scanArgs parts current none (b.text ++ rest) = scanArgs (parts ++ kept current) [] none rest := by
  obtain ⟨c, s, htext⟩ := List.exists_cons_of_ne_nil b.nonempty
  have hblank := b.blank
  rw [htext] at hblank ⊢
  obtain ⟨hc, hs⟩ := List.forall_mem_cons.1 hblank
  have hquote : ¬(c = '\'' ∨ c = '"') := fun hquote => by
    rw [isSpace_quote hquote] at hc
    cases hc
  rw [List.cons_append, scanArgs, if_neg hquote, if_pos hc, kept]
  split
  · next hnil => rw [hnil, List.append_nil, scanArgs_blank hs]
  · rw [scanArgs_blank hs]

/-- The words that follow. -/
private theorem scanArgs_rest (rest : List (Blanks × QuotedWord)) :
    scanArgs parts current none (rest.flatMap fun r => r.1.text ++ r.2.text) =
      parts ++ (kept current ++ (rest.map (·.2.word)).filter (· ≠ [])) := by
  induction rest generalizing parts current with
  | nil =>
    rw [List.flatMap_nil, scanArgs, kept]
    split
    · simp
    · simp
  | cons r rest ih =>
    rw [List.flatMap_cons, List.append_assoc, scanArgs_blanks, scanArgs_text, List.nil_append, ih, List.map_cons,
      List.filter_cons]
    by_cases hword : r.2.word = []
    · simp [hword, kept]
    · simp [hword, kept]

end Scan

private theorem Command.text_ends (command : Command) :
    ∃ c m d, command.text = c :: (m ++ [d]) ∧ isSpace c = false ∧ isSpace d = false := by
  have hfirst := isSpace_quote command.first.isQuote
  rcases List.eq_nil_or_concat command.rest with hrest | ⟨rest, r, hrest⟩
  · exact ⟨_, command.first.word, _, by rw [Command.text, hrest]; simp [QuotedWord.text], hfirst, hfirst⟩
  · refine ⟨command.first.quote, command.first.word ++ (command.first.quote :: (rest.flatMap (fun r => r.1.text ++ r.2.text) ++
      (r.1.text ++ r.2.quote :: r.2.word))), r.2.quote, ?_, hfirst, isSpace_quote r.2.isQuote⟩
    rw [Command.text, hrest]
    simp [QuotedWord.text]

private theorem strip_text (command : Command) : strip command.text = command.text := by
  obtain ⟨c, m, d, htext, hc, hd⟩ := command.text_ends
  rw [htext, strip, List.dropWhile_cons_of_neg (by simp [hc]), ← List.cons_append,
    List.rdropWhile_concat_neg _ _ _ (by simp [hd])]

private theorem parseCommandArgs_command (command : Command) :
    parseCommandArgs command.text = command.words.filter (· ≠ []) := by
  rw [parseCommandArgs, strip_text, Command.text, scanArgs_text, List.nil_append, scanArgs_rest, Command.words,
    List.nil_append, List.filter_cons]
  by_cases hword : command.first.word = []
  · simp [hword, kept]
  · simp [hword, kept]

/-- The words of a command are those that were written, if and only if none is empty. -/
theorem parseCommandArgs_command_iff (command : Command) :
    parseCommandArgs command.text = command.words ↔ ∀ word ∈ command.words, word ≠ [] := by
  rw [parseCommandArgs_command, List.filter_eq_self]
  simp

/-- A single blank. -/
def blank : Blanks where
  text := [' ']
  nonempty := List.cons_ne_nil _ _
  blank := fun c hc => by rw [List.mem_singleton.1 hc]; rfl

/-- `"SET" 'k' ""`. -/
def setEmpty : Command where
  first := ⟨'"', ['S', 'E', 'T'], .inr rfl, by decide⟩
  rest := [(blank, ⟨'\'', ['k'], .inl rfl, by decide⟩), (blank, ⟨'"', [], .inr rfl, List.not_mem_nil⟩)]

/-- It is read without its value. -/
theorem empty_word_lost : setEmpty.words = [['S', 'E', 'T'], ['k'], []] ∧
    parseCommandArgs setEmpty.text = [['S', 'E', 'T'], ['k']] := by
  decide

end RedisWords

end CliServer
