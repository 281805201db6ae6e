import CliServer.Lib.Json
import CliServer.Lib.PercentEncoding
import CliServer.Lib.Utf8
import CliServer.Text

/-!
# Query strings

The credentials that the server takes from a query string: the first `ticket` that is not blank, by `parse_qs`, and the
bearer token in the last `_header_Authorization`.  A query string is the text of the URL, so its characters are visible
ASCII characters, and `unquote` sees only these.
-/

namespace CliServer

open Json (CodePoint Text ofChar ofChars)

namespace QueryStrings

/-- A visible ASCII character. -/
def urlChar (c : CodePoint) : Bool := 0x21 ≤ c.val && c.val ≤ 0x7E

/-- The byte of a character, a blank for `+`. -/
def plusByte (c : CodePoint) : UInt8 := if c = ofChar '+' then 0x20 else UInt8.ofNat c.val

/-- `unquote(s.replace("+", " "))`. -/
def unquotePlus (s : Text) : Str := Utf8.decode (PercentEncoding.decode (s.map plusByte))

/-- The name of a field, before its first `=`. -/
def fieldName (field : Text) : Str := unquotePlus (field.takeWhile (· ≠ ofChar '='))

/-- The value of a field, still quoted; nothing where there is no `=`. -/
def rawValue (field : Text) : Text := (field.dropWhile (· ≠ ofChar '=')).tail

/-- `parse_qs(query)`, without what it does not keep: fields of a blank value. -/
def parseQs (query : Text) : List (Str × Str) :=
  ((query.splitOn (ofChar '&')).filter (rawValue · ≠ [])).map fun f => (fieldName f, unquotePlus (rawValue f))

/-- `_query_param`. -/
def queryParam (query : Text) (name : Str) : Option Str := ((parseQs query).find? (·.1 = name)).map Prod.snd

/-- `websocket.query_params`, which keeps blank values. -/
def queryParams (query : Text) : List (Str × Str) :=
  ((query.splitOn (ofChar '&')).filter (· ≠ [])).map fun f => (fieldName f, unquotePlus (rawValue f))

/-- `query_params.get(name)`: of several fields the last. -/
def lastParam (query : Text) (name : Str) : Option Str := ((queryParams query).reverse.find? (·.1 = name)).map Prod.snd

def ticketName : Str := ['t', 'i', 'c', 'k', 'e', 't']

def headerName : Str :=
  ['_', 'h', 'e', 'a', 'd', 'e', 'r', '_', 'A', 'u', 't', 'h', 'o', 'r', 'i', 'z', 'a', 't', 'i', 'o', 'n']

/-- `"bearer "`. -/
def scheme : Str := ['b', 'e', 'a', 'r', 'e', 'r', ' ']

/-- `presented_token`, of the `Authorization` header and the query string. -/
def presentedToken (t : CaseTable) (authorization : Option Str) (query : Text) : Option Str :=
  let header := authorization.getD []
  let value := if header = [] then (lastParam query headerName).getD [] else header
  if value = [] then none
  else
    let value := strip value
    if lower t (value.take 7) ≠ scheme then none
    else
      let token := strip (value.drop 7)
      if token = [] then none else some token

/-! ### Unquoting -/

section Unquoting

variable {c : CodePoint} {s u v : Text}

/-- The character that is left of one that is not quoted. -/
def plainChar (c : CodePoint) : Char := Char.ofNat (plusByte c).toNat

/-- Not a digit of a triple, nor the beginning of one. -/
structure Plain (c : CodePoint) : Prop where
  digit : PercentEncoding.hexValue? (plusByte c) = none
  percent : plusByte c ≠ PercentEncoding.percent
  ascii : (plusByte c).toNat < 0x80

theorem unquotePlus_cons (hpercent : plusByte c ≠ PercentEncoding.percent) (hascii : (plusByte c).toNat < 0x80) :
    unquotePlus (c :: v) = plainChar c :: unquotePlus v := by
  rw [unquotePlus, List.map_cons, PercentEncoding.decode_cons_ne hpercent]
  exact Utf8.decode_append_ascii hascii [] _

/-- What stands before and after a plain character is unquoted by itself. -/
theorem unquotePlus_append (hc : Plain c) (u v : Text) :
    unquotePlus (u ++ c :: v) = unquotePlus u ++ plainChar c :: unquotePlus v := by
  rw [unquotePlus, List.map_append, List.map_cons, PercentEncoding.decode_append hc.digit,
    PercentEncoding.decode_cons_ne hc.percent, Utf8.decode_append_ascii hc.ascii]
  rfl

/-- An encoded blank. -/
def blank20 : Text := ofChars ['%', '2', '0']

theorem unquotePlus_blank20 (u v : Text) :
    unquotePlus (u ++ (blank20 ++ v)) = unquotePlus u ++ ' ' :: unquotePlus v := by
  have hmap : (u ++ (blank20 ++ v)).map plusByte =
      u.map plusByte ++ PercentEncoding.percent :: 0x32 :: 0x30 :: v.map plusByte := by
    rw [List.map_append, List.map_append]
    rfl
  have htriple := PercentEncoding.decode_cons_triple (b := 0x32) (c := 0x30) rfl rfl (v.map plusByte)
  rw [unquotePlus, hmap, PercentEncoding.decode_append rfl, htriple]
  exact Utf8.decode_append_ascii (by decide) _ _

theorem mem_unquotePlus (hc : Plain c) (hmem : c ∈ s) : plainChar c ∈ unquotePlus s := by
  obtain ⟨u, v, rfl⟩ := List.append_of_mem hmem
  rw [unquotePlus_append hc]
  exact List.mem_append_right _ List.mem_cons_self

/-- A `%` at the end is left. -/
private theorem unquotePlus_percent (u : Text) : unquotePlus (u ++ [ofChar '%']) = unquotePlus u ++ ['%'] := by
  rw [unquotePlus, List.map_append, List.map_singleton]
  have hlast : PercentEncoding.decode (u.map plusByte ++ [plusByte (ofChar '%')]) =
      PercentEncoding.decode (u.map plusByte) ++ [plusByte (ofChar '%')] := PercentEncoding.decode_append rfl _ []
  rw [hlast]
  exact Utf8.decode_append_ascii (by decide) _ []

private theorem unquotePlus_percent_two (u : Text) :
    unquotePlus (u ++ [ofChar '%', ofChar '2']) = unquotePlus u ++ ['%', '2'] := by
  rw [unquotePlus, List.map_append]
  have hlast : PercentEncoding.decode (u.map plusByte ++ [plusByte (ofChar '%'), plusByte (ofChar '2')]) =
      PercentEncoding.decode (u.map plusByte) ++ [plusByte (ofChar '%'), plusByte (ofChar '2')] :=
    PercentEncoding.decode_append rfl _ [plusByte (ofChar '2')]
  have hdecode := Utf8.decode_append_ascii (b := 0x25) (by decide) (PercentEncoding.decode (u.map plusByte)) [0x32]
  exact (congrArg Utf8.decode hlast).trans hdecode

theorem unquotePlus_eq_nil_iff : unquotePlus s = [] ↔ s = [] := by
  constructor
  · intro h
    by_contra hs
    exact Utf8.decode_ne_nil (PercentEncoding.decode_ne_nil (mt List.map_eq_nil_iff.1 hs)) h
  · rintro rfl
    rfl

end Unquoting

/-! ### The first and the last field -/

section Fields

variable {name r b : Text} {n : Str}

private theorem takeWhile_field (hname : ofChar '=' ∉ name) (r : Text) :
    (name ++ ofChar '=' :: r).takeWhile (· ≠ ofChar '=') = name := by
  have hall : ∀ c ∈ name, decide (c ≠ ofChar '=') = true := fun c hc => decide_eq_true fun heq => hname (heq ▸ hc)
  rw [List.takeWhile_append_of_pos hall, List.takeWhile_cons_of_neg (by simp), List.append_nil]

private theorem dropWhile_field (hname : ofChar '=' ∉ name) (r : Text) :
    (name ++ ofChar '=' :: r).dropWhile (· ≠ ofChar '=') = ofChar '=' :: r := by
  have hall : ∀ c ∈ name, decide (c ≠ ofChar '=') = true := fun c hc => decide_eq_true fun heq => hname (heq ▸ hc)
  rw [List.dropWhile_append_of_pos hall, List.dropWhile_cons_of_neg (by simp)]

private theorem fieldName_field (hname : ofChar '=' ∉ name) (r : Text) :
    fieldName (name ++ ofChar '=' :: r) = unquotePlus name := by
  rw [fieldName, takeWhile_field hname]

private theorem rawValue_field (hname : ofChar '=' ∉ name) (r : Text) : rawValue (name ++ ofChar '=' :: r) = r := by
  rw [rawValue, dropWhile_field hname, List.tail_cons]

/-- The fields, where the first one is known. -/
private theorem splitOn_field {field : Text} (hfield : ofChar '&' ∉ field) (hb : b = [] ∨ ∃ b', b = ofChar '&' :: b') :
    ∃ fields, (field ++ b).splitOn (ofChar '&') = field :: fields := by
  rcases hb with rfl | ⟨b', rfl⟩
  · rw [List.append_nil]
    exact ⟨[], List.splitOn_eq_singleton hfield⟩
  · refine ⟨b'.splitOn (ofChar '&'), ?_⟩
    rw [List.splitOn_append_cons_self, List.splitOn_eq_singleton hfield, List.singleton_append]

/-- `_query_param` finds the first field, if its value is not blank. -/
theorem queryParam_first (hname : ofChar '=' ∉ name) (hfield : ofChar '&' ∉ name ++ ofChar '=' :: r) (hr : r ≠ [])
    (hb : b = [] ∨ ∃ b', b = ofChar '&' :: b') :
    queryParam (name ++ ofChar '=' :: (r ++ b)) (unquotePlus name) = some (unquotePlus r) := by
  obtain ⟨fields, hsplit⟩ := splitOn_field hfield hb
  have hvalue : decide (rawValue (name ++ ofChar '=' :: r) ≠ []) = true := by
    rw [rawValue_field hname]
    exact decide_eq_true hr
  rw [List.append_assoc, List.cons_append] at hsplit
  rw [queryParam, parseQs, hsplit, List.filter_cons, if_pos hvalue, List.map_cons, fieldName_field hname,
    rawValue_field hname, List.find?_cons_of_pos (by simp)]
  rfl

/-- A query string of one field. -/
theorem lastParam_single (hname : ofChar '=' ∉ name) (hfield : ofChar '&' ∉ name ++ ofChar '=' :: r) :
    lastParam (name ++ ofChar '=' :: r) (unquotePlus name) = some (unquotePlus r) := by
  have hne : decide (name ++ ofChar '=' :: r ≠ []) = true :=
    decide_eq_true (List.append_ne_nil_of_right_ne_nil _ (List.cons_ne_nil _ _))
  rw [lastParam, queryParams, List.splitOn_eq_singleton hfield, List.filter_cons, if_pos hne, List.filter_nil,
    List.map_singleton, fieldName_field hname, rawValue_field hname, List.reverse_singleton,
    List.find?_cons_of_pos (by simp)]
  rfl

end Fields

/-! ### The token -/

section Token

variable {t : CaseTable} {query : Text} {word token : Str}

private theorem rdropWhile_append {p : Char → Bool} (xs : Str) {ys : Str} (h : ys.rdropWhile p ≠ []) :
    (xs ++ ys).rdropWhile p = xs ++ ys.rdropWhile p := by
  have hne : ys.reverse.dropWhile p ≠ [] := mt (fun h => by rw [List.rdropWhile, h]; rfl) h
  rw [List.rdropWhile, List.reverse_append, List.dropWhile_append, if_neg (by simpa using hne), List.reverse_append,
    List.reverse_reverse, List.rdropWhile]

theorem strip_ne_nil_iff {s : Str} : strip s ≠ [] ↔ ∃ c ∈ s, isSpace c = false := by
  rw [strip, Ne, List.rdropWhile_eq_nil_iff]
  push Not
  simp only [Bool.not_eq_true]
  constructor
  · rintro ⟨c, hc, hspace⟩
    exact ⟨c, (List.dropWhile_suffix _).subset hc, hspace⟩
  · rintro ⟨c, hc, hspace⟩
    rw [← List.takeWhile_append_dropWhile (p := isSpace) (l := s), List.mem_append] at hc
    rcases hc with hc | hc
    · rw [List.mem_takeWhile_imp hc] at hspace
      cases hspace
    · exact ⟨c, hc, hspace⟩

private theorem strip_rdropWhile (s : Str) : strip (s.rdropWhile isSpace) = strip s := by
  have hblanks : ∀ c ∈ s.takeWhile isSpace, isSpace c = true := fun _ hc => List.mem_takeWhile_imp hc
  cases hrest : s.dropWhile isSpace with
  | nil =>
    have hall : s.rdropWhile isSpace = [] := List.rdropWhile_eq_nil_iff.2 (List.dropWhile_eq_nil_iff.1 hrest)
    rw [hall, strip, strip, hrest]
    rfl
  | cons c rest =>
    have hc : isSpace c = false := by
      have hhead := List.head_dropWhile_not isSpace (hrest ▸ List.cons_ne_nil c rest)
      simpa [hrest] using hhead
    have hne : (c :: rest).rdropWhile isSpace ≠ [] := by
      rw [Ne, List.rdropWhile_eq_nil_iff]
      intro hall
      rw [hall c List.mem_cons_self] at hc
      cases hc
    have hsplit : s = s.takeWhile isSpace ++ c :: rest := by rw [← hrest, List.takeWhile_append_dropWhile]
    have hdrop : ((c :: rest).rdropWhile isSpace).dropWhile isSpace = (c :: rest).rdropWhile isSpace := by
      obtain ⟨d, rest', hd⟩ := List.exists_cons_of_ne_nil hne
      obtain ⟨w, hw⟩ := List.rdropWhile_prefix isSpace (c :: rest)
      rw [hd] at hw ⊢
      obtain rfl : d = c := (List.cons.inj hw).1
      exact List.dropWhile_cons_of_neg (by simp [hc])
    rw [strip, strip, hrest]
    rw [hsplit, rdropWhile_append _ hne, List.dropWhile_append_of_pos hblanks, hdrop]
    exact List.rdropWhile_idempotent _ _

/-- `presented_token`, of a value with the scheme and a token. -/
theorem presentedToken_eq {value : Str} (hvalue : lastParam query headerName = some value)
    (hscheme : value.dropWhile isSpace = word ++ ' ' :: token) (hword : word.length = 6)
    (hlower : lower t (word ++ [' ']) = scheme)
    (htoken : strip token ≠ []) : presentedToken t none query = some (strip token) := by
  have hne : token.rdropWhile isSpace ≠ [] := by
    obtain ⟨c, hc, hspace⟩ := strip_ne_nil_iff.1 htoken
    rw [Ne, List.rdropWhile_eq_nil_iff]
    intro hall
    rw [hall c hc] at hspace
    cases hspace
  have hvalue' : value ≠ [] := by
    rintro rfl
    exact absurd hscheme.symm (List.append_ne_nil_of_right_ne_nil _ (List.cons_ne_nil _ _))
  have hstrip : strip value = (word ++ [' ']) ++ token.rdropWhile isSpace := by
    rw [strip, hscheme, ← rdropWhile_append _ hne, List.append_assoc]
    rfl
  have hseven : (word ++ [' ']).length = 7 := by rw [List.length_append, hword]; rfl
  rw [presentedToken, hvalue]
  simp only [Option.getD_none, Option.getD_some, if_true, if_neg hvalue', hstrip]
  rw [List.take_left' hseven, List.drop_left' hseven, hlower, strip_rdropWhile, if_neg (by simp), if_neg htoken]

end Token

/-! ### The scheme -/

/-- What is before the blank of the scheme, without the blanks around the value. -/
def schemeWord (e : Text) : Str := (unquotePlus e).dropWhile isSpace

/-- The beginning of a value that is read as `bearer`, before the blank. -/
def ReadsBearer (t : CaseTable) (e : Text) : Prop :=
  (schemeWord e).length = 6 ∧ lower t (schemeWord e ++ [' ']) = scheme

section Scheme

variable {t : CaseTable} {e : Text} {x : Char}

private theorem count_le_lowerFrom (hx : lowerChar x = some [x]) (before s : Str) :
    s.count x ≤ (lowerFrom t before s).count x := by
  induction s generalizing before with
  | nil => exact Nat.zero_le _
  | cons c s ih =>
    rw [lowerFrom, List.count_append, List.count_cons]
    have hrest := ih (before ++ [c])
    split
    · next hc =>
      obtain rfl : c = x := beq_iff_eq.1 hc
      rw [hx, Option.getD_some, List.count_singleton_self]
      omega
    · omega

/-- A character without case that is not in `bearer` is not in the word. -/
theorem ReadsBearer.not_mem (h : ReadsBearer t e) (hx : lowerChar x = some [x])
    (hcount : scheme.count x ≤ [' '].count x) :
    x ∉ schemeWord e := by
  have hle := count_le_lowerFrom (t := t) hx [] (schemeWord e ++ [' '])
  have hlower : lowerFrom t [] (schemeWord e ++ [' ']) = scheme := h.2
  rw [hlower, List.count_append] at hle
  rw [← List.count_eq_zero]
  omega

/-- A character that is no blank, or stands behind one that is none. -/
private theorem mem_schemeWord {a b : Str} (h : unquotePlus e = a ++ x :: b)
    (hx : isSpace x = false ∨ ∃ c ∈ a, isSpace c = false) :
    x ∈ schemeWord e := by
  rw [schemeWord, h, List.dropWhile_append]
  split
  · next hempty =>
    rw [List.isEmpty_iff, List.dropWhile_eq_nil_iff] at hempty
    have hspace : isSpace x = false := hx.resolve_right fun ⟨c, hc, hspace⟩ => by
      rw [hempty c hc] at hspace
      cases hspace
    rw [List.dropWhile_cons_of_neg (by simp [hspace])]
    exact List.mem_cons_self
  · exact List.mem_append_right _ List.mem_cons_self

theorem ReadsBearer.lacks {c : CodePoint} (h : ReadsBearer t e) (hc : Plain c) (hspace : isSpace (plainChar c) = false)
    (hlower : lowerChar (plainChar c) = some [plainChar c]) (hcount : scheme.count (plainChar c) = 0) : c ∉ e := by
  intro hmem
  obtain ⟨u, v, rfl⟩ := List.append_of_mem hmem
  exact h.not_mem hlower (by omega) (mem_schemeWord (unquotePlus_append hc u v) (.inl hspace))

/-- Behind a plain character that is no blank, there is no other encoded blank. -/
theorem ReadsBearer.no_blank {c : CodePoint} {u v : Text} (h : ReadsBearer t (u ++ c :: (blank20 ++ v))) (hc : Plain c)
    (hspace : isSpace (plainChar c) = false) : False := by
  have hsplit := unquotePlus_blank20 (u ++ [c]) v
  rw [unquotePlus_append hc, List.append_assoc, List.singleton_append] at hsplit
  exact h.not_mem (x := ' ') (by decide) (by decide)
    (mem_schemeWord hsplit (.inr ⟨plainChar c, List.mem_append_right _ List.mem_cons_self, hspace⟩))

/-- Nor the beginning of one. -/
theorem ReadsBearer.no_percent {u : Text} : ¬ReadsBearer t (u ++ [ofChar '%']) ∧
    ¬ReadsBearer t (u ++ [ofChar '%', ofChar '2']) :=
  ⟨fun h => h.not_mem (x := '%') (by decide) (by decide) (mem_schemeWord (unquotePlus_percent u) (.inl (by decide))),
    fun h => h.not_mem (x := '%') (by decide) (by decide)
    (mem_schemeWord (unquotePlus_percent_two u) (.inl (by decide)))⟩

end Scheme

end QueryStrings

end CliServer
