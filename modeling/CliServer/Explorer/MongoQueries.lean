import CliServer.Text
import CliServer.Lib.JsonValues

/-!
# The arguments of a Mongo query

`_parse_query` takes `db.collection.operation(...)` apart.  The arguments are JSON texts with commas between them: the
loop of `_split_and_parse_args` ends an argument at a comma where the brackets so far balance.  Brackets and commas
inside the strings count as well, so the arguments of a query are read back exactly when none is cut at one of its own
commas, the brackets of each but the last balance, and `json.loads` gives the same values (`parseQuery_query_iff`).
-/

open JsonValue (dumps loads join)

namespace CliServer

namespace MongoQueries

/-- `\w`; for the characters outside ASCII `t` says which are. -/
def isWord (t : Char → Bool) (c : Char) : Bool := if c.toNat < 128 then c.isAlphanum || c = '_' else t c

/-- What `([\s\S]*)\)$` captures: `$` matches before a last line break as well. -/
def captured (s : Str) : Option Str :=
  match s.reverse with
  | ')' :: r => some r.reverse
  | '\n' :: ')' :: r => some r.reverse
  | _ => none

/-- The groups of `^db\.(\w+)\.(\w+)\(([\s\S]*)\)$`. -/
def matchQuery (t : Char → Bool) : Str → Option (Str × Str × Str)
  | 'd' :: 'b' :: '.' :: s =>
    match s.dropWhile (isWord t) with
    | '.' :: rest =>
      match rest.dropWhile (isWord t) with
      | '(' :: args =>
        let collection := s.takeWhile (isWord t)
        let operation := rest.takeWhile (isWord t)
        if collection ≠ [] ∧ operation ≠ [] then (captured args).map fun args => (collection, operation, args) else none
      | _ => none
    | _ => none
  | _ => none

/-- The depth after a character. -/
def depthAfter (depth : Int) (c : Char) : Int :=
  if c = '\x7b' ∨ c = '[' then depth + 1 else if c = '\x7d' ∨ c = ']' then depth - 1 else depth

/-- The loop of `_split_and_parse_args`, with its `args`, `depth` and `current`. -/
def splitArgs (args : List Str) (depth : Int) (current : Str) : Str → List Str
  | [] => if current = [] then args else args ++ [strip current]
  | c :: s =>
    if c = ',' ∧ depth = 0 then splitArgs (args ++ [strip current]) depth [] s
    else splitArgs args (depthAfter depth c) (current ++ [c]) s

/-- `_split_and_parse_args`. -/
def splitAndParseArgs (argsStr : Str) : Option (List JsonValue) := (splitArgs [] 0 [] argsStr).mapM loads

/-- `_parse_query`. -/
def parseQuery (t : Char → Bool) (query : Str) : Option (Str × Str × List JsonValue) :=
  (matchQuery t query).bind fun m =>
    let argsStr := strip m.2.2
    if argsStr = [] then some (m.1, m.2.1, []) else (splitAndParseArgs argsStr).map fun args => (m.1, m.2.1, args)

/-- A text of word characters. -/
structure Word (t : Char → Bool) where
  text : Str
  word : ∀ c ∈ text, isWord t c = true

/-- The texts of the arguments, joined by `", "`. -/
def argsText (args : List JsonValue) : Str := [',', ' '].intercalate (args.map dumps)

def query {t : Char → Bool} (c op : Word t) (args : List JsonValue) : Str :=
  ['d', 'b', '.'] ++ c.text ++ ['.'] ++ op.text ++ ['('] ++ argsText args ++ [')']

/-- The depth after a text. -/
def depthOf (depth : Int) (s : Str) : Int := s.foldl depthAfter depth

/-- The loop ends no argument at a comma of the text. -/
def Uncut (depth : Int) (s : Str) : Prop := ∀ before after, s = before ++ ',' :: after → depthOf depth before ≠ 0

section White

variable {blank s more : Str}

/-- `strip` drops the white space at the start, and some at the end. -/
private theorem strip_append_tail (s : Str) :
    ∃ tail, (∀ c ∈ tail, isSpace c = true) ∧ s.dropWhile isSpace = strip s ++ tail := by
  refine ⟨((s.dropWhile isSpace).reverse.takeWhile isSpace).reverse, fun c hc => ?_, ?_⟩
  · exact List.mem_takeWhile_imp (List.mem_reverse.1 hc)
  · rw [strip, List.rdropWhile, ← List.reverse_append, List.takeWhile_append_dropWhile, List.reverse_reverse]

/-- A text that does not begin with white space. -/
def Starts (s : Str) : Prop := ∃ c cs, s = c :: cs ∧ isSpace c = false

theorem Starts.append (hs : Starts s) (more : Str) : Starts (s ++ more) := by
  obtain ⟨c, cs, rfl, hc⟩ := hs
  exact ⟨c, cs ++ more, rfl, hc⟩

private theorem dropWhile_blank (hblank : ∀ c ∈ blank, isSpace c = true) (hs : Starts s) :
    (blank ++ s).dropWhile isSpace = s := by
  obtain ⟨c, cs, rfl, hc⟩ := hs
  have hnil : blank.dropWhile isSpace = [] := List.dropWhile_eq_nil_iff.2 hblank
  rw [List.dropWhile_append, hnil, List.isEmpty_nil, if_pos rfl, List.dropWhile_cons_of_neg (by simp [hc])]

/-- Before a character that is not white space nothing is dropped at the end. -/
private theorem strip_comma (hblank : ∀ c ∈ blank, isSpace c = true) (hs : Starts s) (more : Str) :
    ∃ more', strip (blank ++ (s ++ ',' :: more)) = s ++ ',' :: more' := by
  obtain ⟨tail, htail, hstrip⟩ := strip_append_tail (blank ++ (s ++ ',' :: more))
  rw [dropWhile_blank hblank (hs.append _)] at hstrip
  have hcomma : isSpace ',' = false := by decide
  rcases List.append_eq_append_iff.1 hstrip with ⟨rest, hrest, hmore⟩ | ⟨rest, hrest, hmore⟩
  · cases rest with
    | nil =>
      rw [List.nil_append] at hmore
      have hmem := htail ',' (hmore ▸ List.mem_cons_self)
      rw [hcomma] at hmem
      cases hmem
    | cons c rest =>
      obtain ⟨rfl, -⟩ := List.cons.inj hmore
      exact ⟨rest, hrest⟩
  · have hmem := htail ',' (hmore ▸ List.mem_append_right _ List.mem_cons_self)
    rw [hcomma] at hmem
    cases hmem

end White

private theorem isSpace_of_wordChar {c : Char} (hc : JsonValue.isWordChar c = true) : isSpace c = false := by
  have hlow : 0x20 < c.toNat ∧ c.toNat < 0x80 := by
    simp only [JsonValue.isWordChar, Char.isAlphanum, Char.isAlpha, Char.isUpper, Char.isLower, Char.isDigit,
      Bool.or_eq_true, Bool.and_eq_true, decide_eq_true_eq, ge_iff_le, UInt32.le_iff_toNat_le] at hc
    rcases hc with (((((hc | hc) | hc) | rfl) | rfl) | rfl)
    · exact ⟨Nat.lt_of_lt_of_le (by decide) hc.1, Nat.lt_of_le_of_lt hc.2 (by decide)⟩
    · exact ⟨Nat.lt_of_lt_of_le (by decide) hc.1, Nat.lt_of_le_of_lt hc.2 (by decide)⟩
    · exact ⟨Nat.lt_of_lt_of_le (by decide) hc.1, Nat.lt_of_le_of_lt hc.2 (by decide)⟩
    all_goals decide
  simp only [isSpace, Bool.or_eq_false_iff, Bool.and_eq_false_iff, decide_eq_false_iff_not, beq_eq_false_iff_ne]
  omega

/-- A JSON text does not begin with white space. -/
private theorem starts_dumps (value : JsonValue) : Starts (dumps value) := by
  have hword : JsonValue.IsWord value → Starts (dumps value) := by
    intro h
    obtain ⟨hne, hall, -⟩ := JsonValue.dumps_word h
    obtain ⟨c, cs, hcs⟩ := List.exists_cons_of_ne_nil hne
    exact ⟨c, cs, hcs, isSpace_of_wordChar (List.all_eq_true.1 hall c (hcs ▸ List.mem_cons_self))⟩
  cases value with
  | null => exact hword trivial
  | bool value => exact hword trivial
  | num n => exact hword trivial
  | str s => exact ⟨_, _, rfl, by decide⟩
  | arr items => cases items <;> exact ⟨_, _, rfl, by decide⟩
  | obj members => cases members <;> exact ⟨_, _, rfl, by decide⟩

/-- Nor does it end with it. -/
private theorem ends_dumps (value : JsonValue) : Starts (dumps value).reverse := by
  have hlast : ∀ (cs : Str) (c : Char), dumps value = cs ++ [c] → isSpace c = false → Starts (dumps value).reverse := by
    intro cs c h hc
    exact ⟨c, cs.reverse, by rw [h, List.reverse_append]; rfl, hc⟩
  have hword : JsonValue.IsWord value → Starts (dumps value).reverse := by
    intro h
    obtain ⟨hne, hall, -⟩ := JsonValue.dumps_word h
    obtain ⟨cs, c, hcs⟩ := List.eq_nil_or_concat (dumps value) |>.resolve_left hne
    rw [List.concat_eq_append] at hcs
    exact hlast cs c hcs (isSpace_of_wordChar (List.all_eq_true.1 hall c (hcs ▸ List.mem_append_right _ List.mem_cons_self)))
  cases value with
  | null => exact hword trivial
  | bool value => exact hword trivial
  | num n => exact hword trivial
  | str s => exact hlast _ _ rfl (by decide)
  | arr items =>
    cases items with
    | nil => exact hlast ['['] ']' rfl (by decide)
    | cons item items => exact hlast _ _ rfl (by decide)
  | obj members =>
    cases members with
    | nil => exact hlast ['\x7b'] '\x7d' rfl (by decide)
    | cons member members => exact hlast _ _ rfl (by decide)

/-- A text with no white space at its ends is stripped of what is around it. -/
private theorem strip_between {blank s : Str} (hblank : ∀ c ∈ blank, isSpace c = true) (hs : Starts s)
    (hends : Starts s.reverse) :
    strip (blank ++ s) = s := by
  obtain ⟨c, cs, hc, hspace⟩ := hends
  rw [strip, dropWhile_blank hblank hs, List.rdropWhile, hc, List.dropWhile_cons_of_neg (by simp [hspace]), ← hc,
    List.reverse_reverse]

section Split

variable {args : List Str} {depth : Int} {current text s : Str}

private theorem splitArgs_args (args : List Str) (depth : Int) (current s : Str) :
    splitArgs args depth current s = args ++ splitArgs [] depth current s := by
  induction s generalizing args depth current with
  | nil =>
    rw [splitArgs, splitArgs]
    split <;> simp
  | cons c s ih =>
    rw [splitArgs, splitArgs]
    split
    · rw [ih, ih ([] ++ [strip current]), List.nil_append, List.append_assoc]
    · rw [ih]

private theorem splitArgs_comma : splitArgs [] 0 current (',' :: s) = strip current :: splitArgs [] 0 [] s := by
  rw [splitArgs, if_pos ⟨rfl, rfl⟩, splitArgs_args]
  rfl

/-- A text with no comma to cut it at is added to the argument. -/
private theorem splitArgs_uncut (h : Uncut depth text) :
    splitArgs args depth current (text ++ s) = splitArgs args (depthOf depth text) (current ++ text) s := by
  induction text generalizing depth current with
  | nil => rw [List.append_nil]; rfl
  | cons c text ih =>
    have hc : ¬(c = ',' ∧ depth = 0) := by
      rintro ⟨rfl, hdepth⟩
      exact h [] text rfl hdepth
    have htext : Uncut (depthAfter depth c) text := by
      intro before after heq
      exact h (c :: before) after (by rw [heq, List.cons_append])
    rw [List.cons_append, splitArgs, if_neg hc, ih htext, List.append_assoc]
    rfl

/-- A text that is cut is cut at a first comma. -/
private theorem exists_cut (h : ¬Uncut depth text) :
    ∃ before after, text = before ++ ',' :: after ∧ depthOf depth before = 0 ∧ Uncut depth before := by
  induction text generalizing depth with
  | nil => exact absurd (fun before after heq => by simp at heq) h
  | cons c text ih =>
    by_cases hc : c = ',' ∧ depth = 0
    · obtain ⟨rfl, rfl⟩ := hc
      exact ⟨[], text, rfl, rfl, fun before after heq => by simp at heq⟩
    · have htext : ¬Uncut (depthAfter depth c) text := by
        intro hall
        refine h fun before after heq => ?_
        cases before with
        | nil =>
          obtain ⟨rfl, -⟩ := List.cons.inj heq
          exact fun hdepth => hc ⟨rfl, hdepth⟩
        | cons d before =>
          obtain ⟨rfl, hrest⟩ := List.cons.inj heq
          exact hall before after hrest
      obtain ⟨before, after, rfl, hdepth, huncut⟩ := ih htext
      refine ⟨c :: before, after, rfl, hdepth, fun first rest heq => ?_⟩
      cases first with
      | nil =>
        obtain ⟨rfl, -⟩ := List.cons.inj heq
        exact fun hdepth => hc ⟨rfl, hdepth⟩
      | cons d first =>
        obtain ⟨rfl, hrest⟩ := List.cons.inj heq
        exact huncut first rest hrest

/-- The argument that is read goes on with some of what follows. -/
private theorem exists_splitArgs (depth : Int) (hcurrent : current ≠ []) (s : Str) :
    ∃ more rest, splitArgs [] depth current s = strip (current ++ more) :: rest := by
  induction s generalizing depth current with
  | nil => exact ⟨[], [], by rw [splitArgs, if_neg hcurrent, List.append_nil]; rfl⟩
  | cons c s ih =>
    rw [splitArgs]
    split
    · exact ⟨[], splitArgs [] depth [] s, by rw [splitArgs_args, List.append_nil]; rfl⟩
    · obtain ⟨more, rest, h⟩ := ih (depthAfter depth c)
        (List.append_ne_nil_of_right_ne_nil current (List.cons_ne_nil c []))
      exact ⟨c :: more, rest, by rw [h, List.append_assoc]; rfl⟩

end Split

section Load

variable {value : JsonValue} {blank : Str}

private theorem mapM_loads_cons (text : Str) (texts : List Str) :
    (text :: texts).mapM loads = (loads text).bind fun value => (texts.mapM loads).map (value :: ·) := by
  rw [List.mapM_cons]
  cases loads text with
  | none => rfl
  | some value => cases texts.mapM loads <;> rfl

private theorem endsWord_of_space {c : Char} (hc : isSpace c = true) (cs : Str) : JsonValue.EndsWord (c :: cs) := by
  refine JsonValue.endsWord_cons (Bool.eq_false_iff.2 fun hword => ?_) cs
  rw [isSpace_of_wordChar hword] at hc
  cases hc

/-- What is left of a text that is cut is not loaded. -/
private theorem splitArgs_cut (hblank : ∀ c ∈ blank, isSpace c = true) (h : ¬Uncut 0 (dumps value)) (s : Str) :
    (splitArgs [] 0 blank (dumps value ++ s)).mapM loads = none := by
  obtain ⟨before, after, htext, hdepth, huncut⟩ := exists_cut h
  have hsplit : splitArgs [] 0 blank (dumps value ++ s) = strip (blank ++ before) :: splitArgs [] 0 []
      (after ++ s) := by
    rw [htext, List.append_assoc, splitArgs_uncut huncut, hdepth, List.cons_append, splitArgs_comma]
  have hbefore : (blank ++ before).dropWhile isSpace = before := by
    cases before with
    | nil => rw [List.append_nil, List.dropWhile_eq_nil_iff.2 hblank]
    | cons c before =>
      obtain ⟨d, cs, hd, hspace⟩ := starts_dumps value
      rw [htext, List.cons_append] at hd
      obtain ⟨rfl, -⟩ := List.cons.inj hd
      exact dropWhile_blank hblank ⟨c, before, rfl, hspace⟩
  obtain ⟨tail, htail, hstrip⟩ := strip_append_tail (blank ++ before)
  rw [hbefore] at hstrip
  have hpart : dumps value = strip (blank ++ before) ++ (tail ++ ',' :: after) := by
    rw [← List.append_assoc, ← hstrip, htext]
  have hends : JsonValue.EndsWord (tail ++ ',' :: after) := by
    cases tail with
    | nil => exact JsonValue.endsWord_cons (by decide) after
    | cons c tail => exact endsWord_of_space (htail c List.mem_cons_self) _
  rw [hsplit, mapM_loads_cons, JsonValue.loads_of_append_eq hpart (by simp) hends, Option.bind_none]

/-- Nor is a text whose brackets do not balance at the next comma. -/
private theorem splitArgs_unbalanced (hblank : ∀ c ∈ blank, isSpace c = true) (huncut : Uncut 0 (dumps value))
    (hdepth : depthOf 0 (dumps value) ≠ 0) (s : Str) :
    (splitArgs [] 0 blank (dumps value ++ ',' :: s)).mapM loads = none := by
  rw [splitArgs_uncut huncut, splitArgs, if_neg (fun h => hdepth h.2)]
  obtain ⟨more, rest, hsplit⟩ := exists_splitArgs (depthAfter (depthOf 0 (dumps value)) ',')
    (List.append_ne_nil_of_right_ne_nil (blank ++ dumps value) (List.cons_ne_nil ',' [])) s
  obtain ⟨more', hstrip⟩ := strip_comma hblank (starts_dumps value) more
  have hpiece : strip (blank ++ dumps value ++ [','] ++ more) = dumps value ++ ',' :: more' := by
    rw [← hstrip]
    simp
  have hnone : loads (dumps value ++ ',' :: more') = none :=
    JsonValue.loads_append value (JsonValue.endsWord_cons (by decide) more') (by
      rw [Json.skip_cons (by decide)]
      exact List.cons_ne_nil _ _)
  rw [hsplit, hpiece, mapM_loads_cons, hnone, Option.bind_none]

/-- A text that is not cut, with balanced brackets, is an argument. -/
private theorem splitArgs_value (hblank : ∀ c ∈ blank, isSpace c = true) (huncut : Uncut 0 (dumps value))
    (hdepth : depthOf 0 (dumps value) = 0) (s : Str) :
    splitArgs [] 0 blank (dumps value ++ ',' :: ' ' :: s) = dumps value :: splitArgs [] 0 [' '] s := by
  rw [splitArgs_uncut huncut, hdepth, splitArgs_comma, strip_between hblank (starts_dumps value) (ends_dumps value),
    splitArgs, if_neg (by decide)]
  rfl

private theorem splitArgs_last (hblank : ∀ c ∈ blank, isSpace c = true) (huncut : Uncut 0 (dumps value)) :
    splitArgs [] 0 blank (dumps value) = [dumps value] := by
  obtain ⟨c, cs, htext, -⟩ := starts_dumps value
  have hne : blank ++ dumps value ≠ [] := List.append_ne_nil_of_right_ne_nil blank (htext ▸ List.cons_ne_nil c cs)
  have hsplit : splitArgs [] 0 blank (dumps value ++ []) = splitArgs [] (depthOf 0 (dumps value))
      (blank ++ dumps value) [] :=
    splitArgs_uncut huncut
  rw [List.append_nil, splitArgs, if_neg hne, strip_between hblank (starts_dumps value) (ends_dumps value)] at hsplit
  exact hsplit

end Load

/-- No argument is cut, and the brackets of each but the last balance. -/
def Separated (args : List JsonValue) : Prop :=
  (∀ value ∈ args, Uncut 0 (dumps value)) ∧ ∀ value ∈ args.dropLast, depthOf 0 (dumps value) = 0

private theorem separated_cons (value next : JsonValue) (args : List JsonValue) :
    Separated (value :: next :: args) ↔
    Uncut 0 (dumps value) ∧ depthOf 0 (dumps value) = 0 ∧ Separated (next :: args) := by
  simp only [Separated, List.forall_mem_cons, List.dropLast_cons_cons]
  tauto

private theorem argsText_cons (value next : JsonValue) (args : List JsonValue) :
    argsText (value :: next :: args) = dumps value ++ ',' :: ' ' :: argsText (next :: args) := by
  rw [argsText, List.map_cons, List.map_cons, List.intercalate_cons_cons]
  simp [argsText]

private theorem argsText_singleton (value : JsonValue) : argsText [value] = dumps value := by
  rw [argsText, List.map_singleton, List.intercalate_singleton]

/-- What is read after white space. -/
private theorem splitArgs_argsText_iff {blank : Str} (hblank : ∀ c ∈ blank, isSpace c = true) (value : JsonValue)
    (args : List JsonValue) : (splitArgs [] 0 blank (argsText (value :: args))).mapM loads = some (value :: args) ↔
      Separated (value :: args) ∧ ∀ v ∈ value :: args, join v = v := by
  induction args generalizing value blank with
  | nil =>
    rw [argsText_singleton]
    by_cases huncut : Uncut 0 (dumps value)
    · have hread : [dumps value].mapM loads = some [join value] := by
        rw [mapM_loads_cons, JsonValue.loads_dumps]
        rfl
      simp [splitArgs_last hblank huncut, hread, Separated, huncut]
    · have hnone := splitArgs_cut hblank huncut []
      rw [List.append_nil] at hnone
      simp [hnone, Separated, huncut]
  | cons next args ih =>
    rw [argsText_cons, separated_cons]
    by_cases huncut : Uncut 0 (dumps value)
    · by_cases hdepth : depthOf 0 (dumps value) = 0
      · have hspace : ∀ c ∈ [' '], isSpace c = true := by simp [isSpace]
        rw [splitArgs_value hblank huncut hdepth, mapM_loads_cons, JsonValue.loads_dumps, Option.bind_some,
          List.forall_mem_cons]
        constructor
        · intro h
          obtain ⟨rest, hrest, hcons⟩ := Option.map_eq_some_iff.1 h
          obtain ⟨hvalue, rfl⟩ := List.cons.inj hcons
          obtain ⟨hseparated, hjoin⟩ := (ih hspace next).1 hrest
          exact ⟨⟨huncut, hdepth, hseparated⟩, hvalue, hjoin⟩
        · rintro ⟨⟨-, -, hseparated⟩, hvalue, hjoin⟩
          rw [(ih hspace next).2 ⟨hseparated, hjoin⟩, hvalue]
          rfl
      · simp [splitArgs_unbalanced hblank huncut hdepth, hdepth]
    · simp [splitArgs_cut hblank huncut, huncut]

private theorem starts_argsText (value : JsonValue) (args : List JsonValue) : Starts (argsText (value :: args)) := by
  cases args with
  | nil => exact argsText_singleton value ▸ starts_dumps value
  | cons next args => exact argsText_cons value next args ▸ (starts_dumps value).append _

private theorem ends_argsText (value : JsonValue) (args : List JsonValue) :
    Starts (argsText (value :: args)).reverse := by
  induction args generalizing value with
  | nil => exact argsText_singleton value ▸ ends_dumps value
  | cons next args ih =>
    have htext : argsText (value :: next :: args) = (dumps value ++ [',', ' ']) ++ argsText (next :: args) := by
      rw [argsText_cons]
      simp
    rw [htext, List.reverse_append]
    exact (ih next).append _

private theorem captured_append (s : Str) : captured (s ++ [')']) = some s := by
  rw [captured, List.reverse_append]
  simp

private theorem isWord_dot (t : Char → Bool) : isWord t '.' = false := rfl

private theorem isWord_paren (t : Char → Bool) : isWord t '(' = false := rfl

section Names

variable {t : Char → Bool}

/-- The name before a character that is in none. -/
theorem Word.read (w : Word t) {c : Char} (hc : isWord t c = false) (s : Str) :
    (w.text ++ c :: s).takeWhile (isWord t) = w.text ∧ (w.text ++ c :: s).dropWhile (isWord t) = c :: s := by
  have hnone : w.text.dropWhile (isWord t) = [] := List.dropWhile_eq_nil_iff.2 w.word
  constructor
  · rw [List.takeWhile_append_of_pos w.word, List.takeWhile_cons_of_neg (by simp [hc]), List.append_nil]
  · rw [List.dropWhile_append, hnone, List.isEmpty_nil, if_pos rfl, List.dropWhile_cons_of_neg (by simp [hc])]

private theorem matchQuery_query (c op : Word t) (args : List JsonValue) :
    matchQuery t (query c op args) = if c.text ≠ [] ∧
    op.text ≠ [] then some (c.text, op.text, argsText args) else none := by
  have hquery : query c op args =
      'd' :: 'b' :: '.' :: (c.text ++ '.' :: (op.text ++ '(' :: (argsText args ++ [')']))) := by
    simp [query]
  obtain ⟨hcollection, hrest⟩ := c.read (isWord_dot t) (op.text ++ '(' :: (argsText args ++ [')']))
  obtain ⟨hoperation, hargs⟩ := op.read (isWord_paren t) (argsText args ++ [')'])
  simp only [hquery, matchQuery, hrest, hargs, hcollection, hoperation, captured_append, Option.map_some]

/-- A query is read back exactly when it has its names, the loop cuts it where its arguments end, and `json.loads`
gives the same values. -/
theorem parseQuery_query_iff (c op : Word t) (args : List JsonValue) :
    parseQuery t (query c op args) = some (c.text, op.text, args) ↔
      (c.text ≠ [] ∧ op.text ≠ []) ∧ Separated args ∧ ∀ value ∈ args, join value = value := by
  rw [parseQuery, matchQuery_query]
  by_cases hnames : c.text ≠ [] ∧ op.text ≠ []
  · rw [if_pos hnames, Option.bind_some]
    cases args with
    | nil => simp [argsText, strip, Separated, hnames]
    | cons value args =>
      have hnil : ∀ c ∈ ([] : Str), isSpace c = true := fun c hc => by cases hc
      have hstrip : strip (argsText (value :: args)) = argsText (value :: args) :=
        strip_between hnil (starts_argsText value args) (ends_argsText value args)
      have hne : argsText (value :: args) ≠ [] := by
        obtain ⟨d, cs, htext, -⟩ := starts_argsText value args
        rw [htext]
        exact List.cons_ne_nil d cs
      have hread := splitArgs_argsText_iff hnil value args
      rw [← splitAndParseArgs] at hread
      simp only [hstrip, if_neg hne, and_iff_right hnames, ← hread, Option.map_eq_some_iff]
      constructor
      · rintro ⟨read, hargs, heq⟩
        simp only [Prod.mk.injEq, true_and] at heq
        rw [hargs, heq]
      · intro hargs
        exact ⟨_, hargs, rfl⟩
  · rw [if_neg hnames, Option.bind_none]
    simp [hnames]

end Names

/-- A closing brace inside a string: the object is cut behind that string. -/
theorem brace_cuts :
    let users : Word fun _ => false := ⟨['u', 's', 'e', 'r', 's'], List.all_eq_true.1 rfl⟩
    let find : Word fun _ => false := ⟨['f', 'i', 'n', 'd'], List.all_eq_true.1 rfl⟩
    let filter : JsonValue := .obj [(Json.ofChars ['n', 'a', 'm', 'e'], .str (Json.ofChars ['\x7d'])),
      (Json.ofChars ['a', 'g', 'e'], .num ⟨['1'], by decide, by decide⟩)]
    query users find [filter] = "db.users.find(\x7b\"name\": \"\x7d\", \"age\": 1\x7d)".toList ∧
      parseQuery (fun _ => false) (query users find [filter]) = none := by
  exact ⟨by decide, rfl⟩

end MongoQueries

end CliServer
