import CliServer.Text

/-!
# Shell words

`split_shell_words` splits a text into words like a shell, `quote_shell_word` writes a word so that it is read back
unchanged, and `_raw_command` writes the call of a command tool as such a text.  A text `Spells` a word when the loop,
wherever it is, adds the word to the one it reads; what a quoted word spells follows from its form, and texts that spell
one after the other spell the words one after the other.
-/

namespace CliServer

def doubleQuote : Char := '\x22'

def singleQuote : Char := '\x27'

def backslash : Char := '\x5c'

/-! ### Splitting -/

/-- What stands before the next single quote, and after it: `text.find`. -/
def singleQuoted : Str → Option (Str × Str)
  | [] => none
  | c :: s => if c = singleQuote then some ([], s) else (singleQuoted s).map fun r => (c :: r.1, r.2)

/-- What a double quote opens, without its escapes, and what stands after the closing quote. -/
def doubleQuoted : Str → Option (Str × Str)
  | [] => none
  | [c] => if c = doubleQuote then some ([], []) else none
  | c :: d :: s =>
    if c = backslash ∧ (d = doubleQuote ∨ d = backslash) then (doubleQuoted s).map fun r => (d :: r.1, r.2)
    else if c = doubleQuote then some ([], d :: s)
    else (doubleQuoted (d :: s)).map fun r => (c :: r.1, r.2)

/-- What the quote `ch` opens, if it is one that is closed. -/
def quotedPart (ch : Char) (s : Str) : Option (Str × Str) :=
  if ch = singleQuote then singleQuoted s
  else if ch = doubleQuote then doubleQuoted s
  else none

private theorem singleQuoted_length {s : Str} {r : Str × Str} (h : singleQuoted s = some r) :
    r.2.length < s.length := by
  induction s generalizing r with
  | nil => cases h
  | cons c s ih =>
    rw [singleQuoted] at h
    split at h
    · obtain rfl := Option.some.inj h
      exact Nat.lt_succ_self _
    · obtain ⟨r', hr', rfl⟩ := Option.map_eq_some_iff.1 h
      have hlt := ih hr'
      show r'.2.length < s.length + 1
      omega

private theorem doubleQuoted_length {s : Str} {r : Str × Str} (h : doubleQuoted s = some r) :
    r.2.length < s.length := by
  induction s using doubleQuoted.induct generalizing r with
  | case1 => cases h
  | case2 => simp [doubleQuoted] at h; simp [← h]
  | case3 c hc => simp [doubleQuoted, hc] at h
  | case4 c d s hescape ih =>
    rw [doubleQuoted, if_pos hescape] at h
    obtain ⟨r', hr', rfl⟩ := Option.map_eq_some_iff.1 h
    have hlt := ih hr'
    show r'.2.length < s.length + 2
    omega
  | case5 d s hescape =>
    rw [doubleQuoted, if_neg hescape, if_pos rfl] at h
    obtain rfl := Option.some.inj h
    exact Nat.lt_succ_self _
  | case6 c d s hescape hclose ih =>
    rw [doubleQuoted, if_neg hescape, if_neg hclose] at h
    obtain ⟨r', hr', rfl⟩ := Option.map_eq_some_iff.1 h
    have hlt := ih hr'
    show r'.2.length < s.length + 2
    simp only [List.length_cons] at hlt
    omega

private theorem quotedPart_length {ch : Char} {s : Str} {r : Str × Str} (h : quotedPart ch s = some r) :
    r.2.length < s.length := by
  unfold quotedPart at h
  split at h
  · exact singleQuoted_length h
  · split at h
    · exact doubleQuoted_length h
    · cases h

/-- The loop of `split_shell_words`, with its `words`, `current` and `in_word`. -/
def splitLoop (words : List Str) (current : Str) (inWord : Bool) : Str → List Str
  | [] => if inWord then words ++ [current] else words
  | ch :: s =>
    if ch = backslash ∧ s ≠ [] then splitLoop words (current ++ s.take 1) true (s.drop 1)
    else match _h : quotedPart ch s with
      | some (buf, rest) => splitLoop words (current ++ buf) true rest
      | none =>
        if isSpace ch then splitLoop (if inWord then words ++ [current] else words) [] false s
        else splitLoop words (current ++ [ch]) true s
termination_by s => s.length
decreasing_by
  · simp
  · have hlt : rest.length < s.length := quotedPart_length _h
    simp only [List.length_cons]
    omega
  · simp
  · simp

/-- `split_shell_words`. -/
def splitShellWords (text : Str) : List Str := splitLoop [] [] false text

/-! ### Quoting -/

/-- `_NEEDS_QUOTING`. -/
def needsQuoting (c : Char) : Bool :=
  isSpace c || c ∈ [doubleQuote, singleQuote, backslash, '|', '&', ';', '<', '>', '(', ')', '$', '\x60']

/-- `str.replace` of one character. -/
def replaceChar (c : Char) (by_ : Str) (s : Str) : Str := s.flatMap fun d => if d = c then by_ else [d]

/-- `quote_shell_word`. -/
def quoteShellWord (value : Str) : Str :=
  if value ≠ [] ∧ ¬ value.any needsQuoting then value
  else if doubleQuote ∉ value then
    [doubleQuote] ++ replaceChar backslash [backslash, backslash] value ++ [doubleQuote]
  else if singleQuote ∉ value then [singleQuote] ++ value ++ [singleQuote]
  else
    let escaped := replaceChar backslash [backslash, backslash] value
    [doubleQuote] ++ replaceChar doubleQuote [backslash, doubleQuote] escaped ++ [doubleQuote]

/-- An argument of a tool call; of what is neither a boolean nor a list, and of the items of a list, the text that `str`
gives. -/
inductive ArgValue where
  | bool (value : Bool)
  | list (items : List Str)
  | string (value : Str)
  | other (text : Str)

/-- The part of the raw command that an argument makes. -/
def rawArgument (key : Str) : ArgValue → Str
  | .bool value => if value then "--".toList ++ key else "--".toList ++ key ++ "=false".toList
  | .list items => "--".toList ++ key ++ "=".toList ++ quoteShellWord ([','].intercalate items)
  | .string value => "--".toList ++ key ++ "=".toList ++ quoteShellWord value
  | .other text => "--".toList ++ key ++ "=".toList ++ quoteShellWord text

/-- `_raw_command`. -/
def rawCommand (path : List Str) (value : Option Str) (args : List (Str × ArgValue)) : Str :=
  let parts := path
  let parts := parts ++ (value.filter (· ≠ [])).toList.map quoteShellWord
  [' '].intercalate (parts ++ args.map fun arg => rawArgument arg.1 arg.2)

/-- A word without white space, quotes and the characters a shell gives a meaning. -/
def IsPlain (w : Str) : Prop := w ≠ [] ∧ ∀ c ∈ w, needsQuoting c = false

instance (w : Str) : Decidable (IsPlain w) :=
  decidable_of_iff (w ≠ [] ∧ (w.all fun c => needsQuoting c = false) = true) (by simp [IsPlain])

/-- The word that an argument is read back as. -/
def argumentWord (key : Str) : ArgValue → Str
  | .bool value => if value then "--".toList ++ key else "--".toList ++ key ++ "=false".toList
  | .list items => "--".toList ++ key ++ "=".toList ++ [','].intercalate items
  | .string value => "--".toList ++ key ++ "=".toList ++ value
  | .other text => "--".toList ++ key ++ "=".toList ++ text

/-! ### What a text spells -/

/-- Wherever the loop is, it adds the word to the one it reads and goes on after the text. -/
def Spells (text word : Str) : Prop := ∀ words current inWord rest,
  splitLoop words current inWord (text ++ rest) = splitLoop words (current ++ word) true rest

theorem Spells.append {text₁ text₂ word₁ word₂ : Str} (h₁ : Spells text₁ word₁) (h₂ : Spells text₂ word₂) :
    Spells (text₁ ++ text₂) (word₁ ++ word₂) := by
  intro words current inWord rest
  rw [List.append_assoc, h₁, h₂, List.append_assoc]

private theorem needsQuoting_eq_false {c : Char} (h : needsQuoting c = false) :
    isSpace c = false ∧ c ≠ doubleQuote ∧ c ≠ singleQuote ∧ c ≠ backslash := by
  simp only [needsQuoting, Bool.or_eq_false_iff, decide_eq_false_iff_not, List.mem_cons, not_or] at h
  exact ⟨h.1, h.2.1, h.2.2.1, h.2.2.2.1⟩

/-- An ordinary character spells itself. -/
private theorem spells_char {c : Char} (h : needsQuoting c = false) : Spells [c] [c] := by
  obtain ⟨hspace, hdouble, hsingle, hbackslash⟩ := needsQuoting_eq_false h
  intro words current inWord rest
  have hquoted : quotedPart c rest = none := by
    rw [quotedPart, if_neg hsingle, if_neg hdouble]
  rw [List.singleton_append, splitLoop, if_neg (fun h => hbackslash h.1)]
  split
  · rename_i hsome
    rw [hquoted] at hsome
    cases hsome
  · rw [hspace]
    rfl

private theorem spells_plain {w : Str} (h : IsPlain w) : Spells w w := by
  obtain ⟨hne, hchars⟩ := h
  induction w with
  | nil => exact absurd rfl hne
  | cons c w ih =>
    have hc : Spells [c] [c] := spells_char (hchars c List.mem_cons_self)
    by_cases hw : w = []
    · rw [hw]
      exact hc
    · have hrest : Spells w w := ih hw fun d hd => hchars d (List.mem_cons_of_mem _ hd)
      exact hc.append hrest

/-- A quoted part spells what the quotes enclose. -/
private theorem spells_quoted {q : Char} {text word : Str} (hq : q ≠ backslash)
    (h : ∀ rest, quotedPart q (text ++ rest) = some (word, rest)) : Spells (q :: text) word := by
  intro words current inWord rest
  rw [List.cons_append, splitLoop, if_neg (fun h => hq h.1)]
  split
  · rename_i hsome
    rw [h] at hsome
    obtain ⟨rfl, rfl⟩ := Prod.mk.inj (Option.some.inj hsome)
    rfl
  · rename_i hnone
    rw [h] at hnone
    cases hnone

private theorem singleQuoted_append {w : Str} (h : singleQuote ∉ w) (rest : Str) :
    singleQuoted (w ++ singleQuote :: rest) = some (w, rest) := by
  induction w with
  | nil => simp [singleQuoted]
  | cons c w ih =>
    obtain ⟨hc, hw⟩ := not_or.1 (List.mem_cons.not.1 h)
    rw [List.cons_append, singleQuoted, if_neg (Ne.symm hc), ih hw]
    rfl

/-- A text as it stands between double quotes. -/
def escapeDouble (w : Str) : Str :=
  w.flatMap fun c => if c = doubleQuote ∨ c = backslash then [backslash, c] else [c]

private theorem doubleQuoted_escape (w rest : Str) :
    doubleQuoted (escapeDouble w ++ doubleQuote :: rest) = some (w, rest) := by
  induction w with
  | nil => cases rest <;> simp [escapeDouble, doubleQuoted, doubleQuote, backslash]
  | cons c w ih =>
    have hcons : escapeDouble (c :: w) ++ doubleQuote :: rest =
        (if c = doubleQuote ∨ c = backslash then [backslash, c] else [c]) ++
          (escapeDouble w ++ doubleQuote :: rest) := by
      simp [escapeDouble]
    rw [hcons]
    split
    · rename_i hescape
      show doubleQuoted (backslash :: c :: (escapeDouble w ++ doubleQuote :: rest)) = some (c :: w, rest)
      rw [doubleQuoted, if_pos ⟨rfl, hescape⟩, ih]
      rfl
    · rename_i hplain
      obtain ⟨hquote, hbackslash⟩ := not_or.1 hplain
      obtain ⟨d, s, hds⟩ : ∃ d s, escapeDouble w ++ doubleQuote :: rest = d :: s :=
        List.exists_cons_of_ne_nil (by simp)
      rw [hds] at ih ⊢
      show doubleQuoted (c :: d :: s) = some (c :: w, rest)
      rw [doubleQuoted, if_neg (fun h => hbackslash h.1), if_neg hquote, ih]
      rfl

/-- Without a double quote only the backslashes are escaped. -/
private theorem replaceChar_backslash {w : Str} (h : doubleQuote ∉ w) :
    replaceChar backslash [backslash, backslash] w = escapeDouble w := by
  induction w with
  | nil => rfl
  | cons c w ih =>
    obtain ⟨hc, hw⟩ := not_or.1 (List.mem_cons.not.1 h)
    have hc : c ≠ doubleQuote := Ne.symm hc
    have hrest := ih hw
    simp only [replaceChar, escapeDouble, List.flatMap_cons] at hrest ⊢
    rw [hrest]
    by_cases hbackslash : c = backslash <;> simp [hbackslash, hc]

/-- The two replacements one after the other escape both. -/
private theorem replaceChar_both (w : Str) :
    replaceChar doubleQuote [backslash, doubleQuote] (replaceChar backslash [backslash, backslash] w) =
      escapeDouble w := by
  induction w with
  | nil => rfl
  | cons c w ih =>
    simp only [replaceChar, escapeDouble, List.flatMap_cons, List.flatMap_append] at ih ⊢
    rw [ih]
    have hne : backslash ≠ doubleQuote := by decide
    by_cases hbackslash : c = backslash
    · simp [hbackslash, hne]
    · by_cases hquote : c = doubleQuote <;> simp [hquote, hbackslash, Ne.symm hne]

private theorem spells_double (w : Str) : Spells ([doubleQuote] ++ escapeDouble w ++ [doubleQuote]) w := by
  have hquoted : ∀ rest, quotedPart doubleQuote (escapeDouble w ++ [doubleQuote] ++ rest) = some (w, rest) := by
    intro rest
    have hsingle : doubleQuote ≠ singleQuote := by decide
    rw [quotedPart, if_neg hsingle, if_pos rfl, List.append_assoc]
    exact doubleQuoted_escape w rest
  exact spells_quoted (by decide) hquoted

private theorem spells_single {w : Str} (h : singleQuote ∉ w) : Spells ([singleQuote] ++ w ++ [singleQuote]) w := by
  have hquoted : ∀ rest, quotedPart singleQuote (w ++ [singleQuote] ++ rest) = some (w, rest) := by
    intro rest
    rw [quotedPart, if_pos rfl, List.append_assoc]
    exact singleQuoted_append h rest
  exact spells_quoted (by decide) hquoted

/-- A quoted word spells the word. -/
theorem spells_quote (w : Str) : Spells (quoteShellWord w) w := by
  unfold quoteShellWord
  split
  · rename_i hplain
    refine spells_plain ⟨hplain.1, fun c hc => ?_⟩
    have hany := hplain.2
    simp only [List.any_eq_true, not_exists, not_and, Bool.not_eq_true] at hany
    exact hany c hc
  · split
    · rename_i hquote
      rw [replaceChar_backslash hquote]
      exact spells_double w
    · split
      · rename_i hsingle
        exact spells_single hsingle
      · have hescaped := spells_double w
        rw [← replaceChar_both] at hescaped
        exact hescaped

/-! ### Words joined by spaces -/

/-- A space ends the word that is being read. -/
private theorem splitLoop_space (words : List Str) (current rest : Str) :
    splitLoop words current true (' ' :: rest) = splitLoop (words ++ [current]) [] false rest := by
  have hquoted : quotedPart ' ' rest = none := by
    rw [quotedPart, if_neg (by decide), if_neg (by decide)]
  rw [splitLoop, if_neg (fun h => absurd h.1 (by decide))]
  split
  · rename_i hsome
    rw [hquoted] at hsome
    cases hsome
  · have hspace : isSpace ' ' = true := by decide
    rw [hspace]
    rfl

private theorem splitLoop_joined {texts ws : List Str} (h : List.Forall₂ Spells texts ws) (words : List Str) :
    splitLoop words [] false ([' '].intercalate texts) = words ++ ws := by
  induction h generalizing words with
  | nil => simp [splitLoop]
  | @cons text w texts ws hfirst hrest ih =>
    cases hrest with
    | nil =>
      have hlast := hfirst words [] false []
      rw [List.append_nil, List.nil_append] at hlast
      rw [List.intercalate_singleton, hlast, splitLoop]
      rfl
    | @cons text' w' texts ws hnext hrest =>
      rw [List.intercalate_cons_cons, List.append_assoc, hfirst, List.singleton_append, splitLoop_space, ih]
      simp

/-- Texts that spell words, joined by spaces, are split into the words. -/
theorem splitShellWords_joined {texts ws : List Str} (h : List.Forall₂ Spells texts ws) :
    splitShellWords ([' '].intercalate texts) = ws := splitLoop_joined h []

/-! ### The raw command -/

private theorem spells_flag {key : Str} (h : ∀ c ∈ key, needsQuoting c = false) :
    Spells ("--".toList ++ key) ("--".toList ++ key) := by
  refine spells_plain ⟨by simp, fun c hc => ?_⟩
  rcases List.mem_append.1 hc with hc | hc
  · obtain rfl : c = '-' := by simpa using hc
    decide
  · exact h c hc

private theorem spells_argument {key : Str} (h : ∀ c ∈ key, needsQuoting c = false) (value : ArgValue) :
    Spells (rawArgument key value) (argumentWord key value) := by
  have hflag := spells_flag h
  have hequals : Spells "=".toList "=".toList := spells_plain (by decide)
  cases value with
  | bool value =>
    cases value with
    | true => exact hflag
    | false => exact hflag.append (spells_plain (by decide))
  | list items => exact (hflag.append hequals).append (spells_quote _)
  | string value => exact (hflag.append hequals).append (spells_quote value)
  | other text => exact (hflag.append hequals).append (spells_quote text)

/-- Quoted words are read back, and so are the words of a raw command. -/
theorem quoting_round_trip :
    (∀ ws : List Str, splitShellWords ([' '].intercalate (ws.map quoteShellWord)) = ws) ∧
    ∀ (path : List Str) (value : Option Str) (args : List (Str × ArgValue)), (∀ w ∈ path, IsPlain w) →
      (∀ arg ∈ args, IsPlain arg.1) →
      splitShellWords (rawCommand path value args) =
        path ++ (value.filter (· ≠ [])).toList ++ args.map fun arg => argumentWord arg.1 arg.2 := by
  constructor
  · intro ws
    refine splitShellWords_joined ?_
    rw [List.forall₂_map_left_iff]
    exact List.forall₂_same.2 fun w _ => spells_quote w
  · intro path value args hpath hargs
    refine splitShellWords_joined (List.rel_append (List.rel_append ?_ ?_) ?_)
    · exact List.forall₂_same.2 fun w hw => spells_plain (hpath w hw)
    · rw [List.forall₂_map_left_iff]
      exact List.forall₂_same.2 fun w _ => spells_quote w
    · rw [List.forall₂_map_left_iff, List.forall₂_map_right_iff]
      exact List.forall₂_same.2 fun arg harg => spells_argument (hargs arg harg).2 arg.2

/-- The positional value and two arguments of a call, one of them to be quoted. -/
theorem quoting_round_trip_echo :
    let args := [("text".toList, .string "it's \x22x\x22".toList), ("upper".toList, .bool true)]
    splitShellWords (rawCommand ["echo".toList] (some "a b".toList) args) =
      ["echo".toList, "a b".toList, "--text=it's \x22x\x22".toList, "--upper".toList] :=
  quoting_round_trip.2 ["echo".toList] (some "a b".toList) _ (by decide) (by decide)

end CliServer
