import CliServer.CodePoints
import CliServer.Commands.Authorization
import CliServer.Lib.JsonValues
import CliServer.Users.Namespace

/-!
# Identifiers

The checks of names, emails, permissions, token names and names of MCP tools, of any text, and the languages that are
documented for them.  Names, emails and permissions are stripped before they are checked.  A token name and the name of
a tool are checked as they come, by patterns that end in `$`, which also matches before a newline at the end: so the
checks are exact but for a text that is a token name followed by one newline (`checks_exact_iff`).
-/

namespace CliServer

open Json (CodePoint Text ofChar ofChars)

/-- The line feed. -/
def lineFeed : CodePoint := ofChar '\n'

/-! ### The checks -/

/-- `has_control_chars`. -/
def hasControlCharsText (value : Text) : Bool :=
  value.any fun c => c.val < 0x20 || c.val = 0x7f || (0xd800 ≤ c.val && c.val ≤ 0xdfff)

/-- `validate_name`. -/
def validateNameText (value : Text) : Except UsersApiError Text :=
  if value = [] then .error (badRequest "name is required".toList)
  else if nameMax < value.length then .error (badRequest "name must be at most 64 characters".toList)
  else if Regex.acceptsLine lineFeed (nameRe.comap char?) value then .ok value
  else .error (badRequest ("invalid name: must start with a letter or digit and contain only " ++
    "letters, digits, '.', '_', '@' or '-'").toList)

/-- The lookahead of `EMAIL_RE`: 1 to 64 characters before the first `@`. -/
def emailLocalLengthText (s : Text) : Bool :=
  let localPart := s.takeWhile (· ≠ ofChar '@')
  0 < localPart.length && localPart.length ≤ 64 && localPart.length < s.length

/-- `validate_email`. -/
def validateEmailText (value : Text) : Except UsersApiError Text :=
  if value = [] then .error (badRequest "email is required".toList)
  else if emailMax < value.length ∨ hasControlCharsText value ∨
      ¬ (emailLocalLengthText value ∧ (emailRe.comap char?).accepts value) then
    .error (badRequest "invalid email".toList)
  else .ok value

/-- Whether `validate_permissions` accepts a permission. -/
def validPermissionText (raw : Text) : Bool :=
  stripText raw ≠ [] ∧ (stripText raw).length ≤ permissionMax ∧
    Regex.acceptsLine lineFeed (permissionRe.comap char?) (stripText raw)

/-- `_validate_name` of the tokens controller. -/
def validateTokenName (raw : JsonValue) : Except UsersApiError Text :=
  let invalid := .error (badRequest "name must be 1-64 characters of [A-Za-z0-9._ -]".toList)
  match raw with
  | .str raw => if Regex.acceptsLine lineFeed (tokenNameRe.comap char?) raw then .ok raw else invalid
  | _ => invalid

/-- Whether `tools` takes the name of a tool, which may be `None`. -/
def validToolName (name : Option Text) : Bool :=
  Regex.acceptsLine lineFeed (toolNameRe.comap char?) (name.getD [])

/-- What is checked. -/
inductive Identifier where
  | name
  | email
  | permission
  | tokenName
  | toolName
  deriving DecidableEq

/-- The identifier that is taken from a text: names, emails and permissions are stripped. -/
def Identifier.accepted : Identifier → Text → Option Text
  | .name, s => (validateNameText (stripText s)).toOption
  | .email, s => (validateEmailText (stripText s)).toOption
  | .permission, s => if validPermissionText s then some (stripText s) else none
  | .tokenName, s => (validateTokenName (.str s)).toOption
  | .toolName, s => if validToolName (some s) then some s else none

/-! ### What is documented -/

/-- The characters from `a` to `b`. -/
def charRange (a b : Char) : List Char := (List.range (b.toNat + 1 - a.toNat)).map fun i => Char.ofNat (a.toNat + i)

/-- `A-Za-z0-9`. -/
def alphanumerics : List Char := charRange 'A' 'Z' ++ charRange 'a' 'z' ++ charRange '0' '9'

/-- From 1 to 64 of the characters. -/
def WordOf (chars : List Char) (x : Text) : Prop :=
  1 ≤ x.length ∧ x.length ≤ 64 ∧ ∀ c ∈ x, c ∈ ofChars chars

/-- The name of a user or group: 1-64 characters of `[A-Za-z0-9][A-Za-z0-9._@-]*`. -/
def IsUserName (x : Text) : Prop :=
  WordOf (alphanumerics ++ ['.', '_', '@', '-']) x ∧ ∀ c ∈ x.head?, c ∈ ofChars alphanumerics

/-- The name of a token: 1-64 characters of `[A-Za-z0-9._ -]`. -/
def IsTokenName (x : Text) : Prop := WordOf (alphanumerics ++ ['.', '_', ' ', '-']) x

/-- The name of a tool: 1-64 characters of `[a-z0-9_-]`. -/
def IsToolName (x : Text) : Prop := WordOf (charRange 'a' 'z' ++ charRange '0' '9' ++ ['_', '-']) x

/-- A control character, or a surrogate. -/
def IsControl (c : CodePoint) : Prop := c.val < 0x20 ∨ 0x7f ≤ c.val ∧ c.val ≤ 0x9f ∨ 0xd800 ≤ c.val ∧ c.val ≤ 0xdfff

/-- The line breaks of `str.splitlines`. -/
def IsLineBreak (c : CodePoint) : Prop :=
  0x0a ≤ c.val ∧ c.val ≤ 0x0d ∨ 0x1c ≤ c.val ∧ c.val ≤ 0x1e ∨ c.val = 0x85 ∨ c.val = 0x2028 ∨ c.val = 0x2029

/-- The checks take exactly what is documented from a text, and no line feed. -/
structure ChecksExact (s : Text) : Prop where
  name : ∀ x, Identifier.name.accepted s = some x ↔ x = stripText s ∧ IsUserName x
  email : ∀ x, Identifier.email.accepted s = some x → ∀ c ∈ x, ¬ IsControl c ∧ ¬ IsLineBreak c
  permission : ∀ x, Identifier.permission.accepted s = some x → ∀ c ∈ x, ¬ IsControl c ∧ ¬ IsLineBreak c
  tokenName : ∀ x, Identifier.tokenName.accepted s = some x ↔ x = s ∧ IsTokenName x
  toolName : ∀ x, Identifier.toolName.accepted s = some x ↔ x = s ∧ IsToolName x
  noLineFeed : ∀ (i : Identifier) (x : Text), i.accepted s = some x → lineFeed ∉ x

/-! ### Texts of characters -/

variable {s x : Text} {c : CodePoint}

private theorem map_char?_ofChars (v : Str) : (ofChars v).map char? = v.map some := map_char?_eq_iff.2 rfl

private theorem accepts_ofChars (r : Regex Char) (v : Str) : (r.comap char?).accepts (ofChars v) = r.accepts v :=
  Regex.accepts_comap_of_map (map_char?_ofChars v)

private theorem acceptsLine_ofChars (r : Regex Char) (v : Str) :
    Regex.acceptsLine lineFeed (r.comap char?) (ofChars v) = Regex.acceptsLine '\n' r v :=
  Regex.acceptsLine_comap_of_map (fun _ => char?_eq_some_iff) (map_char?_ofChars v)

private theorem ofChars_eq_nil_iff {v : Str} : ofChars v = [] ↔ v = [] := List.map_eq_nil_iff

private theorem length_ofChars (v : Str) : (ofChars v).length = v.length := List.length_map _

theorem validateNameText_ofChars (v : Str) : validateNameText (ofChars v) = (validateName v).map ofChars := by
  simp only [validateNameText, validateName, ofChars_eq_nil_iff, length_ofChars, acceptsLine_ofChars]
  split_ifs <;> rfl

private theorem hasControlCharsText_ofChars (v : Str) : hasControlCharsText (ofChars v) = hasControlChars v := by
  rw [hasControlCharsText, hasControlChars, ofChars, List.any_map]
  refine congrArg v.any (funext fun d => ?_)
  have hdel : d = '\u007f' ↔ d.toNat = 0x7f := Char.toNat_inj.symm
  have hvalid : d.toNat < 0xd800 ∨ 0xdfff < d.toNat ∧ d.toNat < 0x110000 := d.valid
  have hsurrogate : ¬ (0xd800 ≤ d.toNat ∧ d.toNat ≤ 0xdfff) := by omega
  rw [Function.comp_apply, Json.val_ofChar, Bool.eq_iff_iff]
  simp only [Bool.or_eq_true, Bool.and_eq_true, decide_eq_true_eq, hdel, hsurrogate, or_false]

private theorem emailLocalLengthText_ofChars (v : Str) : emailLocalLengthText (ofChars v) = emailLocalLength v := by
  have hat : (fun c : CodePoint => decide (c ≠ ofChar '@')) ∘ ofChar = fun d => decide (d ≠ '@') :=
    funext fun d => decide_eq_decide.2 (not_congr ⟨Json.ofChar_injective, congrArg ofChar⟩)
  simp only [emailLocalLengthText, emailLocalLength, ofChars, List.takeWhile_map, hat, List.length_map]

theorem validateEmailText_ofChars (v : Str) : validateEmailText (ofChars v) = (validateEmail v).map ofChars := by
  simp only [validateEmailText, validateEmail, ofChars_eq_nil_iff, length_ofChars, hasControlCharsText_ofChars,
    emailLocalLengthText_ofChars, accepts_ofChars]
  split_ifs <;> rfl

theorem validPermissionText_ofChars (v : Str) : validPermissionText (ofChars v) = validPermission v := by
  simp only [validPermissionText, validPermission, stripText_ofChars, ne_eq, ofChars_eq_nil_iff, length_ofChars,
    acceptsLine_ofChars]

theorem validateTokenName_ofChars (v : Str) : validateTokenName (.str (ofChars v)) =
    if Regex.acceptsLine '\n' tokenNameRe v then .ok (ofChars v)
    else .error (badRequest "name must be 1-64 characters of [A-Za-z0-9._ -]".toList) := by
  rw [validateTokenName, acceptsLine_ofChars]

theorem validToolName_ofChars (v : Str) :
    validToolName (some (ofChars v)) = Regex.acceptsLine '\n' toolNameRe v := acceptsLine_ofChars toolNameRe v

/-! ### Character classes -/

/-- Below the surrogates every number is the code of a character. -/
private theorem mem_charRange {a b d : Char} (hb : b.toNat < 0xd800) :
    d ∈ charRange a b ↔ a.toNat ≤ d.toNat ∧ d.toNat ≤ b.toNat := by
  rw [charRange, List.mem_map]
  constructor
  · rintro ⟨i, hi, rfl⟩
    have hi := List.mem_range.1 hi
    rw [Char.toNat_ofNat, if_pos (.inl (by omega))]
    omega
  · rintro ⟨ha, hd⟩
    refine ⟨d.toNat - a.toNat, List.mem_range.2 (by omega), ?_⟩
    rw [Nat.add_sub_cancel' ha, Char.ofNat_toNat]

private theorem isUpper_iff (d : Char) : d.isUpper = true ↔ d ∈ charRange 'A' 'Z' := by
  rw [mem_charRange (by decide), Char.isUpper, decide_eq_true_eq]
  exact Iff.rfl

private theorem isLower_iff (d : Char) : d.isLower = true ↔ d ∈ charRange 'a' 'z' := by
  rw [mem_charRange (by decide), Char.isLower, Bool.and_eq_true, decide_eq_true_eq, decide_eq_true_eq]
  exact Iff.rfl

private theorem isDigit_iff (d : Char) : d.isDigit = true ↔ d ∈ charRange '0' '9' := by
  rw [mem_charRange (by decide), Char.isDigit, Bool.and_eq_true, decide_eq_true_eq, decide_eq_true_eq]
  exact Iff.rfl

private theorem isAlphanum_iff (d : Char) : d.isAlphanum = true ↔ d ∈ alphanumerics := by
  rw [Char.isAlphanum, Char.isAlpha, Bool.or_eq_true, Bool.or_eq_true, isUpper_iff, isLower_iff, isDigit_iff,
    alphanumerics, List.mem_append, List.mem_append]

/-- Letters, digits and the characters of a list. -/
private theorem isAlphanum_or_iff (l : List Char) (d : Char) :
    (d.isAlphanum || decide (d ∈ l)) = true ↔ d ∈ alphanumerics ++ l := by
  rw [Bool.or_eq_true, decide_eq_true_eq, isAlphanum_iff, List.mem_append (t := l)]

private theorem isToolNameChar_iff (d : Char) :
    isToolNameChar d = true ↔ d ∈ charRange 'a' 'z' ++ charRange '0' '9' ++ ['_', '-'] := by
  simp only [isToolNameChar, Bool.or_eq_true, decide_eq_true_eq, isLower_iff, isDigit_iff, List.mem_append,
    List.mem_cons, List.not_mem_nil, or_false, or_assoc]

private theorem any_char?_mem_iff {p : Char → Bool} {l : List Char} (hp : ∀ d, p d = true ↔ d ∈ l) :
    (char? c).any p = true ↔ c ∈ ofChars l := by
  rw [any_char?_iff, ofChars, List.mem_map]
  exact exists_congr fun d => and_congr (hp d) eq_comm

/-! ### What the patterns match -/

/-- A pattern of 1 to 64 characters of a class. -/
private theorem mem_lang_word {p : Char → Bool} {l : List Char} (hp : ∀ d, p d = true ↔ d ∈ l) :
    x ∈ ((Regex.times (.set p) 63 1).comap char?).lang ↔ WordOf l x := by
  rw [Regex.comap_times, Regex.comap, Regex.mem_lang_times_set]
  simp only [any_char?_mem_iff hp]
  exact Iff.rfl

private theorem mem_lang_tokenNameRe : x ∈ (tokenNameRe.comap char?).lang ↔ IsTokenName x :=
  mem_lang_word (isAlphanum_or_iff ['.', '_', ' ', '-'])

private theorem mem_lang_toolNameRe :
    x ∈ (toolNameRe.comap char?).lang ↔ IsToolName x := mem_lang_word isToolNameChar_iff

private theorem mem_lang_nameRe : x ∈ (nameRe.comap char?).lang ∧ x.length ≤ nameMax ↔ IsUserName x := by
  have hfirst : ∀ {c}, (char? c).any Char.isAlphanum = true ↔ c ∈ ofChars alphanumerics :=
    any_char?_mem_iff isAlphanum_iff
  have hrest : ∀ {c}, ((char? c).any fun d => d.isAlphanum || decide (d ∈ ['.', '_', '@', '-'])) = true ↔
      c ∈ ofChars (alphanumerics ++ ['.', '_', '@', '-']) := any_char?_mem_iff (isAlphanum_or_iff _)
  constructor
  · rintro ⟨hx, hlen⟩
    obtain ⟨u, ⟨c, hc, rfl⟩, v, hv, rfl⟩ := Regex.mem_lang_cat.1 hx
    have hc := hfirst.1 hc
    have hv : ∀ d ∈ v, d ∈ ofChars (alphanumerics ++ ['.', '_', '@', '-']) :=
      fun d hd => hrest.1 (Regex.mem_lang_star_set.1 hv d hd)
    refine ⟨⟨Nat.succ_pos _, hlen, List.forall_mem_cons.2 ⟨?_, hv⟩⟩, fun d hd => ?_⟩
    · rw [ofChars, List.map_append]
      exact List.mem_append_left _ hc
    · rwa [← Option.some.inj hd]
  · rintro ⟨⟨hmin, hmax, hall⟩, hhead⟩
    cases x with
    | nil => exact absurd hmin (by decide)
    | cons c v =>
      obtain ⟨-, hv⟩ := List.forall_mem_cons.1 hall
      refine ⟨Regex.mem_lang_cat.2 ⟨[c], ⟨c, hfirst.2 (hhead c rfl), rfl⟩, v, ?_, rfl⟩, hmax⟩
      exact Regex.mem_lang_star_set.2 fun d hd => hrest.2 (hv d hd)

/-! ### What is accepted -/

private theorem acceptsLine_stripText {r : Regex CodePoint} :
    Regex.acceptsLine lineFeed r (stripText s) = true ↔ stripText s ∈ r.lang := by
  rw [Regex.acceptsLine_of_getLast_ne _ (getLast?_stripText_ne (by decide)), Regex.accepts_iff]

private theorem validateNameText_toOption (value : Text) : (validateNameText value).toOption =
    if value ≠ [] ∧ value.length ≤ nameMax ∧ Regex.acceptsLine lineFeed (nameRe.comap char?) value = true then
      some value
    else none := by
  unfold validateNameText
  by_cases hne : value = []
  · rw [if_pos hne, if_neg fun h => h.1 hne]
    rfl
  by_cases hlen : nameMax < value.length
  · rw [if_neg hne, if_pos hlen, if_neg fun h => absurd h.2.1 (Nat.not_le.2 hlen)]
    rfl
  by_cases hre : Regex.acceptsLine lineFeed (nameRe.comap char?) value = true
  · rw [if_neg hne, if_neg hlen, if_pos hre, if_pos ⟨hne, Nat.not_lt.1 hlen, hre⟩]
    rfl
  · rw [if_neg hne, if_neg hlen, if_neg hre, if_neg fun h => hre h.2.2]
    rfl

/-- Names are what is documented: no line feed is left at the end of a stripped text. -/
private theorem accepted_name_iff : Identifier.name.accepted s = some x ↔ x = stripText s ∧ IsUserName x := by
  rw [Identifier.accepted, validateNameText_toOption, Option.ite_none_right_eq_some, acceptsLine_stripText]
  constructor
  · rintro ⟨⟨-, hlen, hre⟩, hx⟩
    obtain rfl := Option.some.inj hx
    exact ⟨rfl, mem_lang_nameRe.1 ⟨hre, hlen⟩⟩
  · rintro ⟨rfl, hname⟩
    obtain ⟨hre, hlen⟩ := mem_lang_nameRe.2 hname
    exact ⟨⟨List.length_pos_iff.1 hname.1.1, hlen, hre⟩, rfl⟩

/-- A token name is what is documented, or this with a line feed at its end. -/
private theorem accepted_tokenName_iff :
    Identifier.tokenName.accepted s = some x ↔ x = s ∧ (IsTokenName s ∨ ∃ n, IsTokenName n ∧ s = n ++ [lineFeed]) := by
  have hite : Identifier.tokenName.accepted s =
      if Regex.acceptsLine lineFeed (tokenNameRe.comap char?) s = true then some s else none := by
    rw [Identifier.accepted, validateTokenName]
    split <;> rfl
  rw [hite, Option.ite_none_right_eq_some, Regex.acceptsLine_iff, and_comm, Option.some_inj, eq_comm]
  simp only [mem_lang_tokenNameRe]

/-- So is the name of a tool. -/
private theorem accepted_toolName_iff :
    Identifier.toolName.accepted s = some x ↔ x = s ∧ (IsToolName s ∨ ∃ n, IsToolName n ∧ s = n ++ [lineFeed]) := by
  rw [Identifier.accepted, Option.ite_none_right_eq_some, validToolName, Option.getD_some, Regex.acceptsLine_iff,
    and_comm, Option.some_inj, eq_comm]
  simp only [mem_lang_toolNameRe]

/-- The characters of emails and permissions. -/
def IdentifierChar (d : Char) : Prop := Graphic d ∨ d ∈ ['\u0130', '\u0131', '\u017f', '\u212a']

private theorem IdentifierChar.not_control {d : Char} (h : IdentifierChar d) :
    ¬ IsControl (ofChar d) ∧ ¬ IsLineBreak (ofChar d) := by
  have hnat : 0x21 ≤ d.toNat ∧ d.toNat ≤ 0x7e ∨ d.toNat ∈ [0x130, 0x131, 0x17f, 0x212a] :=
    h.imp_right (List.mem_map_of_mem (f := Char.toNat))
  simp only [List.mem_cons, List.not_mem_nil, or_false] at hnat
  rw [IsControl, IsLineBreak, Json.val_ofChar]
  omega

/-- A text that is matched by a pattern of such characters. -/
private theorem not_control_of_accepts {r : Regex Char} (hr : ∀ v, r.accepts v = true → ∀ d ∈ v, IdentifierChar d)
    (h : (r.comap char?).accepts x = true) : ∀ c ∈ x, ¬ IsControl c ∧ ¬ IsLineBreak c := by
  obtain ⟨v, hv, hre⟩ := Regex.accepts_comap.1 h
  rw [map_char?_eq_iff.1 hv]
  intro c hc
  obtain ⟨d, hd, rfl⟩ := List.mem_map.1 hc
  exact (hr v hre d hd).not_control

/-- `validate_email` returns the email it gets. -/
private theorem validateEmailText_ok {value email : Text} (h : validateEmailText value = .ok email) :
    email = value ∧ (emailRe.comap char?).accepts value = true := by
  unfold validateEmailText at h
  split at h
  · cases h
  · split at h
    · cases h
    · rename_i hok
      have hboth := not_not.1 fun hno => hok (.inr (.inr hno))
      exact ⟨(Except.ok.inj h).symm, hboth.2⟩

private theorem accepted_email (h : Identifier.email.accepted s = some x) :
    ∀ c ∈ x, ¬ IsControl c ∧ ¬ IsLineBreak c := by
  obtain ⟨rfl, hre⟩ := validateEmailText_ok (ok_of_toOption h)
  exact not_control_of_accepts (fun v hv d hd => .inl (graphic_of_emailRe hv d hd)) hre

private theorem identifierChar_of_isPermissionChar {d : Char} (h : isPermissionChar d = true) : IdentifierChar d := by
  rw [isPermissionChar, Bool.or_eq_true, decide_eq_true_eq] at h
  rcases h with h | h
  · exact .inl (graphic_of_isAlphanum h)
  · rcases List.mem_append (s := ['_', '.', '-']) |>.1 h with h | h
    · exact .inl (graphic_of_all rfl d h)
    · exact .inr h

private theorem within_permissionRe : Regex.Within IdentifierChar permissionRe := by
  have hclass : Regex.Within IdentifierChar (.set isPermissionChar) := fun _ => identifierChar_of_isPermissionChar
  have hlit : ∀ d, Graphic d → Regex.Within IdentifierChar (.lit [d]) := fun d hd =>
    Regex.within_lit fun c hc => .inl (List.mem_singleton.1 hc ▸ hd)
  have hstar := hlit '*' ⟨by decide, by decide⟩
  have hcolon := hlit ':' ⟨by decide, by decide⟩
  exact ⟨hstar, ⟨hclass, hclass⟩, hcolon, ⟨hclass, hclass⟩, hstar⟩

private theorem accepted_permission (h : Identifier.permission.accepted s = some x) :
    ∀ c ∈ x, ¬ IsControl c ∧ ¬ IsLineBreak c := by
  rw [Identifier.accepted, Option.ite_none_right_eq_some] at h
  obtain ⟨hvalid, hx⟩ := h
  obtain rfl := Option.some.inj hx
  obtain ⟨-, -, hline⟩ := of_decide_eq_true hvalid
  have hre := (Regex.accepts_iff _ _).2 (acceptsLine_stripText.1 hline)
  exact not_control_of_accepts (fun v hv => Regex.forall_mem_of_accepts within_permissionRe hv) hre

/-! ### No line feed -/

private theorem WordOf.lineFeed_notMem {l : List Char} (h : WordOf l x) (hl : '\n' ∉ l) : lineFeed ∉ x := by
  intro hmem
  obtain ⟨d, hd, heq⟩ := List.mem_map.1 (h.2.2 lineFeed hmem)
  exact hl (Json.ofChar_injective heq ▸ hd)

private theorem IsUserName.lineFeed_notMem (h : IsUserName x) : lineFeed ∉ x :=
  h.1.lineFeed_notMem ((isAlphanum_or_iff _ _).not.1 (by decide))

private theorem IsTokenName.lineFeed_notMem (h : IsTokenName x) : lineFeed ∉ x :=
  WordOf.lineFeed_notMem h ((isAlphanum_or_iff _ _).not.1 (by decide))

/-- The name of a tool would do as a token name. -/
private theorem IsToolName.isTokenName (h : IsToolName x) : IsTokenName x := by
  have hsub : charRange 'a' 'z' ++ charRange '0' '9' ++ ['_', '-'] ⊆ alphanumerics ++ ['.', '_', ' ', '-'] := by
    intro d hd
    rw [← isToolNameChar_iff] at hd
    rw [← isAlphanum_or_iff]
    simp only [isToolNameChar, Bool.or_eq_true, decide_eq_true_eq] at hd
    rcases hd with ((hd | hd) | rfl) | rfl
    · rw [Char.isAlphanum, Char.isAlpha, hd, Bool.or_true, Bool.true_or, Bool.true_or]
    · rw [Char.isAlphanum, hd, Bool.or_true, Bool.true_or]
    · decide
    · decide
  exact ⟨h.1, h.2.1, fun c hc => List.map_subset ofChar hsub (h.2.2 c hc)⟩

/-- The checks are exact unless the text is a token name followed by one line feed. -/
theorem checks_exact_iff (s : Text) : ChecksExact s ↔ ¬ ∃ n, IsTokenName n ∧ s = n ++ [lineFeed] := by
  constructor
  · rintro h ⟨n, hn, rfl⟩
    have haccepted := accepted_tokenName_iff.2 ⟨rfl, .inr ⟨n, hn, rfl⟩⟩
    exact h.noLineFeed .tokenName _ haccepted (List.mem_append_right _ List.mem_cons_self)
  · intro hno
    have htoken : ∀ {x}, Identifier.tokenName.accepted s = some x ↔ x = s ∧ IsTokenName x := by
      intro x
      rw [accepted_tokenName_iff, or_iff_left hno]
      exact and_congr_right fun hx => hx ▸ Iff.rfl
    have htool : ∀ {x}, Identifier.toolName.accepted s = some x ↔ x = s ∧ IsToolName x := by
      intro x
      rw [accepted_toolName_iff, or_iff_left fun ⟨n, hn, hs⟩ => hno ⟨n, hn.isTokenName, hs⟩]
      exact and_congr_right fun hx => hx ▸ Iff.rfl
    have hbreak : IsLineBreak lineFeed := .inl ⟨by decide, by decide⟩
    refine ⟨fun _ => accepted_name_iff, fun _ => accepted_email, fun _ => accepted_permission, fun _ => htoken,
      fun _ => htool, fun i x hx => ?_⟩
    cases i with
    | name => exact (accepted_name_iff.1 hx).2.lineFeed_notMem
    | email => exact fun hmem => (accepted_email hx _ hmem).2 hbreak
    | permission => exact fun hmem => (accepted_permission hx _ hmem).2 hbreak
    | tokenName => exact (htoken.1 hx).2.lineFeed_notMem
    | toolName => exact (htool.1 hx).2.isTokenName.lineFeed_notMem

/-- `ci` with a line feed at its end, as the name of a token and of a tool. -/
theorem line_feed_accepted :
    let s := ofChars "ci\n".toList
    Identifier.tokenName.accepted s = some s ∧ Identifier.toolName.accepted s = some s ∧ ¬ ChecksExact s := by
  intro s
  have htoken : Identifier.tokenName.accepted s = some s := by decide +kernel
  have htool : Identifier.toolName.accepted s = some s := by decide +kernel
  exact ⟨htoken, htool, fun h => h.noLineFeed .tokenName s htoken (by decide +kernel)⟩

end CliServer
