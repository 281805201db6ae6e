import Mathlib

/-!
# Splitting a URL

`urlsplit` takes a URL apart as Python's `urllib.parse` does, and `hostname` and `port` what stands between the slashes.
An authority may be spelled in several ways, with capital letters or with the port of the scheme left out (`Spells`);
each of them is read as the same host and port (`hostname_spells`, `port_spells`).
-/

namespace Url

/-- What is used of other libraries: `str.lower`, the normal form NFKC, and `_check_bracketed_host`. -/
structure Library where
  lower : List Char → List Char
  nfkc : List Char → List Char
  isBracketedHost : List Char → Bool

/-- What is before the first `c`: `partition(c)[0]`. -/
def before (c : Char) (s : List Char) : List Char := s.takeWhile (· ≠ c)

/-- What follows the first `c`: `partition(c)[2]`. -/
def after (c : Char) (s : List Char) : List Char := (s.dropWhile (· ≠ c)).drop 1

section Partition

variable {c : Char} {s : List Char}

private theorem all_ne (h : c ∉ s) : ∀ d ∈ s, decide (d ≠ c) = true := by
  intro d hd
  refine decide_eq_true ?_
  rintro rfl
  exact h hd

private theorem before_append (h : c ∉ s) (rest : List Char) : before c (s ++ c :: rest) = s := by
  rw [before, List.takeWhile_append_of_pos (all_ne h), List.takeWhile_cons_of_neg (by simp), List.append_nil]

theorem after_append (h : c ∉ s) (rest : List Char) : after c (s ++ c :: rest) = rest := by
  rw [after, List.dropWhile_append_of_pos (all_ne h), List.dropWhile_cons_of_neg (by simp)]
  rfl

private theorem before_of_notMem (h : c ∉ s) : before c s = s := List.takeWhile_eq_self_iff.2 (all_ne h)

private theorem after_of_notMem (h : c ∉ s) : after c s = [] := by
  rw [after, List.dropWhile_eq_nil_iff.2 (all_ne h)]
  rfl

end Partition

/-! ### `urlsplit` -/

structure SplitResult where
  scheme : List Char
  netloc : List Char
  path : List Char := []
  query : List Char := []
  fragment : List Char := []
  deriving DecidableEq

def isSchemeChar (c : Char) : Bool := c.isAlphanum || c ∈ ['+', '-', '.']

/-- The scheme, if there is one, and the rest. -/
def splitScheme (lib : Library) (url : List Char) : List Char × List Char :=
  let scheme := before ':' url
  if ':' ∈ url ∧ (scheme.head?.any Char.isAlpha) ∧ scheme.all isSchemeChar then (lib.lower scheme, after ':' url)
  else ([], url)

/-- The `_hostinfo` of a netloc, behind the user. -/
def hostAndPort (netloc : List Char) : List Char := netloc.rtakeWhile (· ≠ '@')

/-- `_check_bracketed_netloc`. -/
def checkBracketedNetloc (lib : Library) (netloc : List Char) : Bool :=
  let info := hostAndPort netloc
  if '[' ∈ info then
    let bracketed := after '[' info
    let rest := after ']' bracketed
    before '[' info = [] && (rest = [] || rest.head? = some ':') && lib.isBracketedHost (before ']' bracketed)
  else lib.isBracketedHost (before ':' info)

/-- `_checknetloc`: no character stands for one that ends the netloc. -/
def checkNetloc (lib : Library) (netloc : List Char) : Bool :=
  netloc.all (fun c => c.toNat < 128) ||
    let n := netloc.filter fun c => c ∉ ['@', ':', '#', '?']
    n = lib.nfkc n || (lib.nfkc n).all fun c => c ∉ ['/', '?', '#', '@', ':']

def isDelimiter (c : Char) : Bool := c ∈ ['/', '?', '#']

/-- What is left of the URL once the netloc is taken off. -/
def splitPath (lib : Library) (scheme netloc url : List Char) : Option SplitResult :=
  let fragment := after '#' url
  let url := before '#' url
  if checkNetloc lib netloc then some ⟨scheme, netloc, before '?' url, after '?' url, fragment⟩ else none

/-- `urlsplit`; `none`: it raises `ValueError`. -/
def urlsplit (lib : Library) (url : List Char) : Option SplitResult :=
  let url := (url.dropWhile fun c => c.toNat ≤ 0x20).filter fun c => c ∉ ['\t', '\r', '\n']
  let (scheme, url) := splitScheme lib url
  if url.take 2 = ['/', '/'] then
    let netloc := (url.drop 2).takeWhile fun c => !isDelimiter c
    let rest := (url.drop 2).dropWhile fun c => !isDelimiter c
    if decide ('[' ∈ netloc) != decide (']' ∈ netloc) then none
    else if '[' ∈ netloc ∧ checkBracketedNetloc lib netloc = false then none
    else splitPath lib scheme netloc rest
  else splitPath lib scheme [] url

/-! ### The authority -/

/-- `_hostinfo`: the host, and the port unless it is empty. -/
def hostinfo (netloc : List Char) : List Char × Option (List Char) :=
  let info := hostAndPort netloc
  let host := if '[' ∈ info then before ']' (after '[' info) else before ':' info
  let port := if '[' ∈ info then after ':' (after ']' (after '[' info)) else after ':' info
  (host, if port = [] then none else some port)

/-- `hostname`: a zone keeps its letters. -/
def hostname (lib : Library) (netloc : List Char) : Option (List Char) :=
  let host := (hostinfo netloc).1
  if host = [] then none
  else if '%' ∈ host then some (lib.lower (before '%' host) ++ '%' :: after '%' host)
  else some (lib.lower host)

def portValue (digits : List Char) : Nat := Nat.ofDigitChars 10 digits 0

/-- `port`; the outer `none`: it raises `ValueError`. -/
def port (netloc : List Char) : Option (Option Nat) :=
  match (hostinfo netloc).2 with
  | none => some none
  | some digits =>
    if digits.all Char.isDigit ∧ portValue digits ≤ 65535 then some (some (portValue digits)) else none

/-! ### Ways to write an authority -/

/-- A visible ASCII character that does not end a host. -/
def isHostChar (c : Char) : Bool := 0x20 < c.toNat && c.toNat < 0x7f && c ∉ ['/', '?', '#', '@', '[', ']', '%']

/-- A host, in small letters, and a port. -/
@[ext] structure Authority where
  host : List Char
  port : Nat
  host_ne_nil : host ≠ []
  host_chars : ∀ c ∈ host, isHostChar c = true ∧ c.toLower = c
  port_le : port ≤ 65535

/-- An address with colons stands in brackets. -/
def bracket (name : List Char) : List Char := if ':' ∈ name then '[' :: (name ++ [']']) else name

/-- The text behind the host, where `default` is the port of the scheme. -/
inductive SpellsPort (default port : Nat) : List Char → Prop
  | omitted (h : port = default) : SpellsPort default port []
  | empty (h : port = default) : SpellsPort default port [':']
  | digits (ds : List Char) (hne : ds ≠ []) (hdigits : ds.all Char.isDigit = true) (hvalue : portValue ds = port) :
      SpellsPort default port (':' :: ds)

/-- The text names the host and the port; its letters may be capital. -/
def Spells (default : Nat) (a : Authority) (text : List Char) : Prop :=
  ∃ name portText, text = bracket name ++ portText ∧ name.map Char.toLower = a.host ∧ SpellsPort default a.port portText

/-- The usual way: the port of the scheme is left out. -/
def Authority.text (default : Nat) (a : Authority) : List Char :=
  bracket a.host ++ if a.port = default then [] else ':' :: Nat.toDigits 10 a.port

section Spells

variable {default number : Nat} {a : Authority} {name portText text : List Char} {c : Char}

theorem isHostChar_iff :
    isHostChar c = true ↔ 0x20 < c.toNat ∧ c.toNat < 0x7f ∧ c.toNat ∉ [0x2f, 0x3f, 0x23, 0x40, 0x5b, 0x5d, 0x25] := by
  have hmem : c ∈ ['/', '?', '#', '@', '[', ']', '%'] ↔ c.toNat ∈ [0x2f, 0x3f, 0x23, 0x40, 0x5b, 0x5d, 0x25] := by
    simp only [List.mem_cons, List.not_mem_nil, or_false, ← Char.toNat_inj]
    rfl
  simp only [isHostChar, hmem, Bool.and_eq_true, decide_eq_true_eq, and_assoc]

private theorem isHostChar_of_toLower (h : isHostChar c.toLower = true) : isHostChar c = true := by
  unfold Char.toLower at h
  split at h
  · next hupper =>
    have hlo : 65 ≤ c.toNat := hupper.1
    have hhi : c.toNat ≤ 90 := hupper.2
    rw [isHostChar_iff]
    simp only [List.mem_cons, List.not_mem_nil, or_false]
    omega
  · exact h

private theorem isHostChar_of_isDigit (h : c.isDigit = true) : isHostChar c = true := by
  have hlo : 48 ≤ c.toNat := (Char.isDigit_iff_toNat.1 h).1
  have hhi : c.toNat ≤ 57 := (Char.isDigit_iff_toNat.1 h).2
  rw [isHostChar_iff]
  simp only [List.mem_cons, List.not_mem_nil, or_false]
  omega

private theorem isHostChar_of_name (h : name.map Char.toLower = a.host) : ∀ c ∈ name, isHostChar c = true := by
  intro c hc
  refine isHostChar_of_toLower (a.host_chars _ ?_).1
  rw [← h]
  exact List.mem_map_of_mem hc

private theorem name_ne_nil (h : name.map Char.toLower = a.host) : name ≠ [] := by
  rintro rfl
  exact a.host_ne_nil h.symm

theorem SpellsPort.chars (h : SpellsPort default number portText) : ∀ c ∈ portText, isHostChar c = true := by
  intro c hc
  cases h with
  | omitted => cases hc
  | empty =>
    obtain rfl := List.mem_singleton.1 hc
    decide
  | digits ds hne hdigits hvalue =>
    rcases List.mem_cons.1 hc with rfl | hc
    · decide
    · exact isHostChar_of_isDigit (List.all_eq_true.1 hdigits c hc)

private theorem notMem_of_chars (h : ∀ c ∈ name, isHostChar c = true) (hc : isHostChar c = false) : c ∉ name := by
  intro hmem
  rw [h c hmem] at hc
  cases hc

/-- The characters of an authority: those of a host, and brackets. -/
theorem Spells.chars (h : Spells default a text) : ∀ c ∈ text, isHostChar c = true ∨ c = '[' ∨ c = ']' := by
  obtain ⟨name, portText, rfl, hname, hport⟩ := h
  intro c hc
  have hnames := isHostChar_of_name hname
  rcases List.mem_append.1 hc with hc | hc
  · unfold bracket at hc
    split at hc
    · rcases List.mem_cons.1 hc with rfl | hc
      · exact .inr (.inl rfl)
      · rcases List.mem_append.1 hc with hc | hc
        · exact .inl (hnames c hc)
        · exact .inr (.inr (List.mem_singleton.1 hc))
    · exact .inl (hnames c hc)
  · exact .inl (hport.chars c hc)

theorem Spells.notMem (h : Spells default a text) (hc : isHostChar c = false) (hopen : c ≠ '[') (hclose : c ≠ ']') :
    c ∉ text := by
  intro hmem
  rcases h.chars c hmem with hhost | rfl | rfl
  · rw [hhost] at hc
    cases hc
  · exact hopen rfl
  · exact hclose rfl

theorem Spells.ne_nil (h : Spells default a text) : text ≠ [] := by
  obtain ⟨name, portText, rfl, hname, -⟩ := h
  unfold bracket
  split
  · exact List.cons_ne_nil _ _
  · exact List.append_ne_nil_of_left_ne_nil (name_ne_nil hname) _

/-- Without a user, all of the netloc is host and port. -/
private theorem hostAndPort_spells (h : Spells default a text) : hostAndPort text = text := by
  rw [hostAndPort, List.rtakeWhile_eq_self_iff]
  intro c hc
  refine decide_eq_true ?_
  rintro rfl
  exact h.notMem (by decide) (by decide) (by decide) hc

theorem spells_text (default : Nat) (a : Authority) : Spells default a (a.text default) := by
  refine ⟨a.host, _, rfl, ?_, ?_⟩
  · exact (List.map_congr_left fun c hc => (a.host_chars c hc).2).trans (List.map_id _)
  · split
    · next heq => exact .omitted heq
    · refine .digits _ Nat.toDigits_ne_nil ?_ Nat.ofDigitChars_ten_toDigits
      exact List.all_eq_true.2 fun c hc => Nat.isDigit_of_mem_toDigits (by omega) (by omega) hc

private theorem after_portText (h : SpellsPort default number portText) : after ':' portText = portText.drop 1 := by
  cases h with
  | omitted => rfl
  | empty => rfl
  | digits ds => rfl

private theorem hostinfo_bracket (hname : ∀ c ∈ name, isHostChar c = true) (hport : SpellsPort default number portText)
    (hall : hostAndPort (bracket name ++ portText) = bracket name ++ portText) :
    hostinfo (bracket name ++ portText) =
      (name, if portText.drop 1 = [] then none else some (portText.drop 1)) := by
  have hclose : ']' ∉ name := notMem_of_chars hname (by decide)
  have hopen : '[' ∉ name := notMem_of_chars hname (by decide)
  unfold hostinfo
  rw [hall]
  by_cases hcolon : ':' ∈ name
  · have htext : bracket name ++ portText = '[' :: (name ++ ']' :: portText) := by simp [bracket, hcolon]
    have hafter : after '[' ('[' :: (name ++ ']' :: portText)) = name ++ ']' :: portText :=
      after_append List.not_mem_nil _
    simp only [htext, if_pos List.mem_cons_self, hafter, before_append hclose, after_append hclose,
      after_portText hport]
  · have htext : bracket name ++ portText = name ++ portText := by simp [bracket, hcolon]
    have hnone : '[' ∉ name ++ portText := by
      rw [List.mem_append, not_or]
      exact ⟨hopen, notMem_of_chars hport.chars (by decide)⟩
    have hsplit : before ':' (name ++ portText) = name ∧ after ':' (name ++ portText) = portText.drop 1 := by
      cases hport with
      | omitted => rw [List.append_nil]; exact ⟨before_of_notMem hcolon, after_of_notMem hcolon⟩
      | empty => exact ⟨before_append hcolon _, after_append hcolon _⟩
      | digits ds => exact ⟨before_append hcolon _, after_append hcolon _⟩
    simp only [htext, if_neg hnone, hsplit.1, hsplit.2]

variable {lib : Library}

/-- However it is spelled, the host is read in small letters. -/
theorem hostname_spells (h : Spells default a text) (hlower : ∀ s, (∀ c ∈ s, isHostChar c = true) →
    lib.lower s = s.map Char.toLower) : hostname lib text = some a.host := by
  have hall := hostAndPort_spells h
  obtain ⟨name, portText, rfl, hname, hport⟩ := h
  have hchars := isHostChar_of_name hname
  have hzone : '%' ∉ name := notMem_of_chars hchars (by decide)
  rw [hostname, hostinfo_bracket hchars hport hall, if_neg (name_ne_nil hname), if_neg hzone, hlower name hchars, hname]

/-- However it is spelled, the port is read, or that of the scheme is meant. -/
theorem port_spells (h : Spells default a text) : ∃ p, port text = some p ∧ p.getD default = a.port := by
  have hall := hostAndPort_spells h
  obtain ⟨name, portText, rfl, hname, hport⟩ := h
  have hinfo := hostinfo_bracket (isHostChar_of_name hname) hport hall
  unfold port
  rw [hinfo]
  cases hport with
  | omitted heq => exact ⟨none, rfl, heq.symm⟩
  | empty heq => exact ⟨none, rfl, heq.symm⟩
  | digits ds hne hdigits hvalue =>
    have hle : portValue ds ≤ 65535 := hvalue ▸ a.port_le
    refine ⟨some (portValue ds), ?_, hvalue⟩
    simp only [List.drop_succ_cons, List.drop_zero, if_neg hne]
    exact if_pos ⟨hdigits, hle⟩

/-! ### What is split -/

/-- An address in an authority is one for the library. -/
def AddressesKnown (lib : Library) (a : Authority) : Prop :=
  ∀ name : List Char, name.map Char.toLower = a.host → ':' ∈ name → lib.isBracketedHost name = true

private theorem checkNetloc_spells (h : Spells default a text) : checkNetloc lib text = true := by
  refine Bool.or_eq_true_iff.2 (.inl (List.all_eq_true.2 fun c hc => decide_eq_true ?_))
  rcases h.chars c hc with hhost | rfl | rfl
  · have := (isHostChar_iff.1 hhost).2.1
    omega
  · decide
  · decide

private theorem brackets_spells (h : Spells default a text) : decide ('[' ∈ text) = decide (']' ∈ text) := by
  obtain ⟨name, portText, rfl, hname, hport⟩ := h
  have hnames := isHostChar_of_name hname
  have hnone : ∀ c, isHostChar c = false → c ∉ name ++ portText := by
    intro c hc
    rw [List.mem_append, not_or]
    exact ⟨notMem_of_chars hnames hc, notMem_of_chars hport.chars hc⟩
  unfold bracket
  split
  · simp
  · simp [hnone '[' (by decide), hnone ']' (by decide)]

private theorem checkBracketedNetloc_spells (h : Spells default a text) (hknown : AddressesKnown lib a)
    (hopen : '[' ∈ text) :
    checkBracketedNetloc lib text = true := by
  have hall := hostAndPort_spells h
  obtain ⟨name, portText, rfl, hname, hport⟩ := h
  have hnames := isHostChar_of_name hname
  have hclose : ']' ∉ name := notMem_of_chars hnames (by decide)
  have hcolon : ':' ∈ name := by
    by_contra hcolon
    rw [bracket, if_neg hcolon, List.mem_append] at hopen
    exact hopen.elim (notMem_of_chars hnames (by decide)) (notMem_of_chars hport.chars (by decide))
  have htext : bracket name ++ portText = '[' :: (name ++ ']' :: portText) := by simp [bracket, hcolon]
  have hbefore : before '[' ('[' :: (name ++ ']' :: portText)) = [] := before_append List.not_mem_nil _
  have hafter : after '[' ('[' :: (name ++ ']' :: portText)) = name ++ ']' :: portText :=
    after_append List.not_mem_nil _
  have hrest : (decide (portText = []) || decide (portText.head? = some ':')) = true := by
    cases hport <;> rfl
  unfold checkBracketedNetloc
  rw [hall, htext]
  simp only [if_pos List.mem_cons_self, hbefore, hafter, before_append hclose, after_append hclose, hrest,
    hknown name hname hcolon, decide_true, Bool.and_self]

/-- After `//`, all of an authority is the netloc. -/
private theorem urlsplit_netloc (h : Spells default a text) (hknown : AddressesKnown lib a) {url scheme : List Char}
    (hclean : ∀ c ∈ url, 0x20 < c.toNat) (hscheme : splitScheme lib url = (scheme, '/' :: '/' :: text)) :
    urlsplit lib url = some ⟨scheme, text, [], [], []⟩ := by
  have hstart : url.dropWhile (fun c => c.toNat ≤ 0x20) = url := by
    cases url with
    | nil => rfl
    | cons c url =>
      have hc := hclean c List.mem_cons_self
      exact List.dropWhile_cons_of_neg (by simpa using hc)
  have hfilter : url.filter (fun c => decide (c ∉ ['\t', '\r', '\n'])) = url := by
    refine List.filter_eq_self.2 fun c hc => decide_eq_true fun hmem => ?_
    have hlt := hclean c hc
    fin_cases hmem <;> revert hlt <;> decide
  have hinside : ∀ c ∈ text, (!isDelimiter c) = true := by
    intro c hc
    have hne : ∀ d, isHostChar d = false → d ≠ '[' → d ≠ ']' → c ≠ d := by
      rintro d hd hopen hclose rfl
      exact h.notMem hd hopen hclose hc
    have hdelim : c ∉ ['/', '?', '#'] := by
      simp only [List.mem_cons, List.not_mem_nil, or_false, not_or]
      exact ⟨hne _ (by decide) (by decide) (by decide), hne _ (by decide) (by decide) (by decide),
        hne _ (by decide) (by decide) (by decide)⟩
    simp [isDelimiter, hdelim]
  have hbrackets : (decide ('[' ∈ text) != decide (']' ∈ text)) = false := by rw [brackets_spells h]; simp
  have hcheck : ¬('[' ∈ text ∧ checkBracketedNetloc lib text = false) := by
    rintro ⟨hopen, hfalse⟩
    rw [checkBracketedNetloc_spells h hknown hopen] at hfalse
    cases hfalse
  simp only [urlsplit, hstart, hfilter, hscheme, List.take_succ_cons, List.take_zero, List.drop_succ_cons,
    List.drop_zero, if_true, List.takeWhile_eq_self_iff.2 hinside, List.dropWhile_eq_nil_iff.2 hinside, hbrackets,
    Bool.false_eq_true, if_false, if_neg hcheck, splitPath, checkNetloc_spells h]
  rfl

private theorem urlsplit_clean (h : Spells default a text) {front : List Char} (hfront : ∀ c ∈ front, 0x20 < c.toNat) :
    ∀ c ∈ front ++ text, 0x20 < c.toNat := by
  intro c hc
  rcases List.mem_append.1 hc with hc | hc
  · exact hfront c hc
  · rcases h.chars c hc with hhost | rfl | rfl
    · exact (isHostChar_iff.1 hhost).1
    · decide
    · decide

/-- An authority by itself, behind two slashes. -/
theorem urlsplit_authority (h : Spells default a text) (hknown : AddressesKnown lib a) :
    urlsplit lib ('/' :: '/' :: text) = some ⟨[], text, [], [], []⟩ := by
  have hclean : ∀ c ∈ ['/', '/'] ++ text, 0x20 < c.toNat := urlsplit_clean h (by simp)
  refine urlsplit_netloc h hknown hclean ?_
  have hhead : (before ':' ('/' :: '/' :: text)).head?.any Char.isAlpha = false := rfl
  simp only [splitScheme, hhead, Bool.false_eq_true, false_and, and_false, if_false]

/-- A scheme and an authority. -/
theorem urlsplit_origin (h : Spells default a text) (hknown : AddressesKnown lib a) {scheme : List Char}
    (hne : scheme ≠ []) (hletters : ∀ c ∈ scheme, c.isAlpha = true) :
    urlsplit lib (scheme ++ ':' :: '/' :: '/' :: text) = some ⟨lib.lower scheme, text, [], [], []⟩ := by
  have hcolon : ':' ∉ scheme := fun hmem => absurd (hletters _ hmem) (by decide)
  have hgreater : ∀ c : Char, c.isAlpha = true → 0x20 < c.toNat := by
    intro c hc
    simp only [Char.isAlpha, Char.isUpper, Char.isLower, Bool.or_eq_true, Bool.and_eq_true, decide_eq_true_eq,
      UInt32.le_iff_toNat_le, ge_iff_le] at hc
    have hval : c.toNat = c.val.toNat := rfl
    have hA : 'A'.val.toNat = 65 := rfl
    have ha : 'a'.val.toNat = 97 := rfl
    omega
  have hclean : ∀ c ∈ (scheme ++ [':', '/', '/']) ++ text, 0x20 < c.toNat := by
    refine urlsplit_clean h fun c hc => ?_
    rcases List.mem_append.1 hc with hc | hc
    · exact hgreater c (hletters c hc)
    · fin_cases hc <;> decide
  rw [List.append_assoc] at hclean
  refine urlsplit_netloc h hknown hclean ?_
  have hany : scheme.head?.any Char.isAlpha = true := by
    obtain ⟨c, rest, rfl⟩ := List.exists_cons_of_ne_nil hne
    exact hletters c List.mem_cons_self
  have hall : scheme.all isSchemeChar = true := by
    refine List.all_eq_true.2 fun c hc => ?_
    simp [isSchemeChar, Char.isAlphanum, hletters c hc]
  have hmem : ':' ∈ scheme ++ ':' :: '/' :: '/' :: text := by simp
  simp only [splitScheme, before_append hcolon, after_append hcolon]
  exact if_pos ⟨hmem, hany, hall⟩

end Spells

end Url
