import CliServer.Server.Redaction

/-!
# Secrets in JSON

A secret that `json.dumps` has written, in a text with no other secret, is masked whole if no double quote of it is
left when its value comes to be replaced: the pattern ends a value at the first quote, also at an escaped one.  The
server's patterns for query values leave every quote; the admin plugin's take it along, and with it the quote that
ends the secret (`json_secret_masked_iff`).
-/

namespace CliServer

open Json (CodePoint Text ofChar ofChars ofChar_injective val_ofChar)
open Substitution

namespace Redaction

def brace : CodePoint := ofChar '{'

def closing : CodePoint := ofChar '}'

/-- `json.dumps({key: s})` in a text. -/
def line (before : Text) (key : List Char) (s after : Text) : Text :=
  before ++ (ofChars ('{' :: (Json.quote (ofChars key) ++ ([':', ' '] ++ (Json.quote s ++ ['}'])))) ++ after)

/-- What the text of a literal is. -/
def escaped (s : Text) : Text := ofChars (s.flatMap Json.escape)

/-- From the quote before a key on. -/
def under (key : List Char) (rest : Text) : Text :=
  quote :: (ofChars key ++ quote :: ofChar ':' :: ofChar ' ' :: quote :: rest)

/-- The line without its secret. -/
def masked (before : Text) (key : List Char) (after : Text) : Text :=
  before ++ brace :: under key (redacted ++ quote :: closing :: after)

/-- No secret begins in what stands around the literal. -/
def NoSecret (rules : List (Rule CodePoint)) (before after : Text) : Prop :=
  ∀ r ∈ rules, ¬r.BeginsIn none before [brace, quote] ∧ ¬r.BeginsIn (some closing) after []

instance (rules : List (Rule CodePoint)) (before after : Text) : Decidable (NoSecret rules before after) :=
  inferInstanceAs (Decidable (∀ r ∈ rules, _))

/-! ### The literal -/

private theorem hexDigit_ne_quote {n : Nat} (hn : n < 16) : Json.hexDigit n ≠ '"' := by
  interval_cases n <;> decide

private theorem quote_notMem_unicodeEscape {n : Nat} (hn : n < 0x10000) : '"' ∉ Json.unicodeEscape n := by
  intro hmem
  simp only [Json.unicodeEscape, List.mem_cons, List.not_mem_nil, or_false] at hmem
  rcases hmem with h | h | h | h | h | h
  · exact absurd h (by decide)
  · exact absurd h (by decide)
  · exact hexDigit_ne_quote (by omega) h.symm
  · exact hexDigit_ne_quote (by omega) h.symm
  · exact hexDigit_ne_quote (by omega) h.symm
  · exact hexDigit_ne_quote (by omega) h.symm

/-- Only a quote is written with a quote. -/
private theorem quote_mem_escape_iff {c : CodePoint} : '"' ∈ Json.escape c ↔ c = quote := by
  constructor
  · intro hmem
    unfold Json.escape at hmem
    split at hmem
    · next letter hshort =>
      obtain ⟨before, after, hsplit, -⟩ := List.lookup_eq_some_iff.1 hshort
      have hentry : (c.val, letter) ∈ Json.shortEscapes := hsplit ▸ List.mem_append_right _ List.mem_cons_self
      have hall : ∀ e ∈ Json.shortEscapes, e.2 = '"' → e.1 = 0x22 := by decide
      rcases List.mem_cons.1 hmem with h | h
      · exact absurd h (by decide)
      · exact Fin.ext (hall _ hentry (List.mem_singleton.1 h).symm)
    · split at hmem
      · next hprint =>
        have htoNat : (Char.ofNat c.val).toNat = c.val := by
          rw [Char.ofNat, dif_pos (.inl (by omega))]
          rfl
        refine Fin.ext ?_
        rw [← htoNat, ← List.mem_singleton.1 hmem]
        rfl
      · split at hmem
        · next hbmp => exact absurd hmem (quote_notMem_unicodeEscape hbmp)
        · have hlt := c.2
          rcases List.mem_append.1 hmem with h | h
          · exact absurd h (quote_notMem_unicodeEscape (by omega))
          · exact absurd h (quote_notMem_unicodeEscape (by omega))
  · rintro rfl
    decide

private theorem quote_mem_escaped_iff {s : Text} : quote ∈ escaped s ↔ quote ∈ s := by
  constructor
  · intro hmem
    obtain ⟨d, hd, heq⟩ := List.mem_map.1 hmem
    obtain ⟨c, hc, hd⟩ := List.mem_flatMap.1 hd
    rw [ofChar_injective heq] at hd
    exact quote_mem_escape_iff.1 hd ▸ hc
  · intro hmem
    exact List.mem_map.2 ⟨'"', List.mem_flatMap.2 ⟨quote, hmem, quote_mem_escape_iff.2 rfl⟩, rfl⟩

/-- The line up to the secret, the secret, and what follows. -/
private theorem line_eq {key : List Char} (hkey : key ∈ jsonKeys) (before s after : Text) :
    line before key s after = before ++ brace :: under key (escaped s ++ quote :: closing :: after) := by
  have hquoted : Json.quote (ofChars key) = '"' :: (key ++ ['"']) := by
    have hall : ∀ key ∈ jsonKeys, Json.quote (ofChars key) = '"' :: (key ++ ['"']) := by decide
    exact hall key hkey
  rw [line, hquoted]
  simp [under, ofChars, Json.quote, escaped, brace, closing, quote]

/-! ### The rules -/

section Literals

variable {s : List Char} {q x : CodePoint}

/-- The characters of the names, of `bearer` and of the keys. -/
def nameChars : List Char :=
  ['a', 'b', 'c', 'd', 'e', 'i', 'k', 'm', 'n', 'o', 'p', 'P', 'r', 's', 't', 'u', 'w', '=', '%', '2', '0']

theorem avoids_lit {names : List Char} (hq : ∀ c ∈ names, letter c q = false) (hs : s ⊆ names) : Avoids q (lit s) := by
  induction s with
  | nil => trivial
  | cons c s ih =>
    obtain ⟨hc, hs⟩ := List.cons_subset.1 hs
    exact ⟨hq c hc, ih hs⟩

theorem free_lit (s : List Char) : Free (lit s) := by
  induction s with
  | nil => trivial
  | cons c s ih => exact ⟨trivial, ih⟩

theorem needs_lit {p : CodePoint → Prop} {c : Char} (hc : ∀ x, letter c x = true → p x) : Needs p (lit (c :: s)) :=
  .inl hc

/-- Besides the letters, a character stands for itself. -/
theorem eq_of_letter {c : Char} (hc : c.toNat < 0x41) (h : letter c x = true) : x = ofChar c := by
  rw [letter, decide_eq_true_eq] at h
  refine Fin.ext ?_
  rw [val_ofChar]
  unfold foldCase at h
  grind

end Literals

/-- A character that is in no name, no letter or digit, and no blank. -/
structure Mark (q : CodePoint) : Prop where
  name : ∀ c ∈ nameChars, letter c q = false
  word : ∀ other, wordChar other q = false
  space : space q = false

theorem mark {q : CodePoint} (hname : (nameChars.any fun c => letter c q) = false) (hascii : q.val < 0x80)
    (hword : (isAlnum q.val || q.val = 0x5F) = false) (hspace : space q = false) : Mark q :=
  ⟨fun c hc => Bool.eq_false_iff.2 (List.any_eq_false.1 hname c hc),
   fun other => by rw [wordChar, if_pos hascii, hword],
    hspace⟩

private theorem brace_mark : Mark brace := mark (by decide) (by decide) (by decide) (by decide)

theorem quote_mark : Mark quote := mark (by decide) (by decide) (by decide) (by decide)

private theorem closing_mark : Mark closing := mark (by decide) (by decide) (by decide) (by decide)

theorem Mark.lit {q : CodePoint} (h : Mark q) {s : List Char} (hs : s ⊆ nameChars) : Avoids q (lit s) :=
  avoids_lit h.name hs

/-- What the masking needs of the rules before the JSON pattern. -/
structure ValueRule (r : Rule CodePoint) : Prop where
  avoids : ∀ {q}, Mark q → Avoids q r.opening
  needs : ∃ c, Needs (letter c · = true) r.opening ∧
    ∀ key ∈ jsonKeys, ∀ x ∈ ofChars key ++ ofChars [':', ' '], letter c x = false
  tail : ∃ p, r.tail = .plus p

/-- And of the rule for query values. -/
structure QueryRule (r : Rule CodePoint) : Prop extends ValueRule r where
  reads : ∃ p, r.tail = .plus p ∧ p (ofChar '[') = true
  left : r.left = []
  right : r.right = ofChar '=' :: redacted
  mid : r.mid = lit ['=']
  free : Free r.group
  nonempty : Needs (fun _ => True) r.group
  lead : ∃ w, r.lead = .boundary w

private theorem header_lacks {c : Char}
    (h : (jsonKeys.any fun key => (ofChars key ++ ofChars [':', ' ']).any (letter c)) = false) :
    ∀ key ∈ jsonKeys, ∀ x ∈ ofChars key ++ ofChars [':', ' '], letter c x = false := by
  intro key hkey x hx
  have hany := Bool.eq_false_iff.2 (List.any_eq_false.1 h key hkey)
  exact Bool.eq_false_iff.2 (List.any_eq_false.1 hany x hx)

theorem bearer_valueRule : ValueRule bearer where
  avoids h := ⟨trivial, ⟨h.lit (by decide), ⟨h.space, h.space⟩, h.lit (by decide)⟩, trivial⟩
  needs := ⟨'b', .inr (.inl (.inl (needs_lit fun _ h => h))), header_lacks (by decide)⟩
  tail := ⟨_, rfl⟩

private theorem adminValue_queryRule (other : CodePoint → Bool) : QueryRule (adminValue other) where
  avoids h := ⟨h.word other, ⟨h.lit (by decide), h.lit (by decide), h.lit (by decide), h.lit (by decide), h.lit (by decide)⟩,
    h.lit (by decide)⟩
  needs := ⟨'=', .inr (.inr (needs_lit fun _ h => h)), header_lacks (by decide)⟩
  tail := ⟨_, rfl⟩
  reads := ⟨_, rfl, by decide⟩
  left := rfl
  right := rfl
  mid := rfl
  free := ⟨free_lit _, free_lit _, free_lit _, free_lit _, free_lit _⟩
  nonempty := ⟨needs_lit fun _ _ => trivial, needs_lit fun _ _ => trivial, needs_lit fun _ _ => trivial,
    needs_lit fun _ _ => trivial, needs_lit fun _ _ => trivial⟩
  lead := ⟨_, rfl⟩

theorem queryValue_queryRule (other : CodePoint → Bool) : QueryRule (queryValue other) where
  avoids h := ⟨h.word other, ⟨⟨h.word other, h.lit (by decide), h.lit (by decide), h.lit (by decide), h.lit (by decide)⟩,
    h.lit (by decide)⟩, h.lit (by decide)⟩
  needs := ⟨'=', .inr (.inr (needs_lit fun _ h => h)), header_lacks (by decide)⟩
  tail := ⟨_, rfl⟩
  reads := ⟨_, rfl, by decide⟩
  left := rfl
  right := rfl
  mid := rfl
  free := ⟨⟨trivial, free_lit _, free_lit _, free_lit _, free_lit _⟩, free_lit _⟩
  nonempty := ⟨.inr ⟨needs_lit fun _ _ => trivial, needs_lit fun _ _ => trivial, needs_lit fun _ _ => trivial,
    needs_lit fun _ _ => trivial⟩, needs_lit fun _ _ => trivial⟩
  lead := ⟨_, rfl⟩

/-- Every replacement of a query value is one. -/
private theorem QueryRule.rematches {r : Rule CodePoint} (h : QueryRule r) (prev : Option CodePoint) (s : Text) :
    r.subFrom 0 prev s = s ∨ r.BeginsIn prev (r.subFrom 0 prev s) [] := by
  refine Rule.subFrom_rematches fun prev u g t z hlead hgroup => ?_
  obtain ⟨w, hw⟩ := h.lead
  rw [hw] at hlead
  obtain ⟨rfl, hboundary⟩ := hlead
  obtain ⟨p, htail, hp⟩ := h.reads
  obtain ⟨d, g, rfl⟩ := List.exists_cons_of_ne_nil (hgroup.ne_nil h.nonempty)
  obtain ⟨rest, hrest⟩ : ∃ rest, redacted = ofChar '[' :: rest := ⟨_, rfl⟩
  refine ⟨d :: g ++ [ofChar '=', ofChar '['], rest ++ z, by rw [h.left, h.right, hrest]; simp,
    List.cons_ne_nil _ _, ?_⟩
  rw [Rule.pattern, hw, h.mid, htail]
  refine ⟨[], d :: g ++ [ofChar '=', ofChar '['], rfl, ⟨rfl, hboundary⟩, d :: g, [ofChar '=', ofChar '['], rfl,
    hgroup.of_free h.free, [ofChar '='], [ofChar '['], rfl, ?_, ?_⟩
  · exact ⟨[ofChar '='], [], rfl, ⟨_, by decide, rfl⟩, rfl⟩
  · exact ⟨[ofChar '['], [], rfl, ⟨_, hp, rfl⟩, fun _ hc => absurd hc List.not_mem_nil⟩

/-! ### The JSON pattern -/

section Values

variable {prev : Option CodePoint} {x z w rest : Text} {q : CodePoint} {key : List Char}

theorem eq_of_lit {c : Char} (hc : c.toNat < 0x41) (h : Consumes (lit [c]) prev x z) : x = [ofChar c] := by
  obtain ⟨y, y', rfl, ⟨d, hd, rfl⟩, rfl⟩ := h
  rw [eq_of_letter hc hd, List.append_nil]

theorem consumes_lit (s : List Char) (prev : Option CodePoint) (z : Text) : Consumes (lit s) prev (ofChars s) z := by
  induction s generalizing prev with
  | nil => rfl
  | cons c s ih =>
    refine ⟨[ofChar c], ofChars s, rfl, ⟨_, ?_, rfl⟩, ih _⟩
    rw [letter, val_ofChar]
    exact decide_eq_true rfl

theorem lit_consumes {c : Char} : Consumes (lit [c]) prev [ofChar c] z := consumes_lit [c] prev z

theorem quote_notMem_of_space (h : ∀ c ∈ x, space c = true) : quote ∉ x := by
  intro hmem
  have hspace := h quote hmem
  exact absurd hspace (by decide)

private theorem mid_parts (h : Consumes jsonValue.mid prev x z) : ∃ s t, quote ∉ s ∧ quote ∉ t ∧
    x = quote :: (s ++ ofChar ':' :: (t ++ [quote])) := by
  obtain ⟨y, y', rfl, hfirst, s, y', rfl, hs, y₂, y', rfl, hcolon, t, y₃, rfl, ht, hlast⟩ := h
  rw [eq_of_lit (by decide) hfirst, eq_of_lit (by decide) hcolon, eq_of_lit (by decide) hlast]
  exact ⟨s, t, quote_notMem_of_space hs, quote_notMem_of_space ht, by simp [quote]⟩

private theorem tail_parts (h : Consumes jsonValue.tail prev x z) : ∃ v, quote ∉ v ∧ x = v ++ [quote] := by
  obtain ⟨v, y, rfl, hv, hlast⟩ := h
  rw [eq_of_lit (by decide) hlast]
  exact ⟨v, fun hmem => by simpa using hv quote hmem, rfl⟩

private theorem mid_consumes : Consumes jsonValue.mid prev [quote, ofChar ':', ofChar ' ', quote] z := by
  refine ⟨[quote], [ofChar ':', ofChar ' ', quote], rfl, lit_consumes, [], _, rfl, fun _ h => absurd h List.not_mem_nil,
    [ofChar ':'], [ofChar ' ', quote], rfl, lit_consumes, [ofChar ' '], [quote], rfl, ?_, lit_consumes⟩
  intro c hc
  rw [List.mem_singleton.1 hc]
  decide

private theorem group_consumes (hkey : key ∈ jsonKeys) : Consumes jsonValue.group prev (ofChars key) z := by
  simp only [jsonKeys, List.mem_cons, List.not_mem_nil, or_false] at hkey
  rcases hkey with rfl | rfl | rfl | rfl | rfl
  · exact .inl (consumes_lit _ _ _)
  · exact .inr (.inl (consumes_lit _ _ _))
  · exact .inr (.inr (.inl (consumes_lit _ _ _)))
  · exact .inr (.inr (.inr (.inl (consumes_lit _ _ _))))
  · exact .inr (.inr (.inr (.inr (consumes_lit _ _ _))))

private theorem quote_notMem_key (hkey : key ∈ jsonKeys) : quote ∉ ofChars key := by
  have hall : ∀ key ∈ jsonKeys, quote ∉ ofChars key := by decide
  exact hall key hkey

private theorem quote_notMem_redacted : quote ∉ redacted := by decide

private theorem jsonGroup_avoids (h : Mark q) : Avoids q jsonValue.group :=
  ⟨h.lit (by decide), h.lit (by decide), h.lit (by decide), h.lit (by decide), h.lit (by decide)⟩

private theorem jsonGroup_free : Free jsonValue.group := ⟨free_lit _, free_lit _, free_lit _, free_lit _, free_lit _⟩

/-- The braces are in no beginning of a JSON value. -/
private theorem json_avoids (h : Mark q) (hquote : letter '"' q = false) (hcolon : letter ':' q = false) :
    Avoids q jsonValue.opening :=
  ⟨⟨hquote, trivial⟩, jsonGroup_avoids h, ⟨hquote, trivial⟩, h.space, ⟨hcolon, trivial⟩, h.space, ⟨hquote, trivial⟩⟩

private theorem json_avoids_brace : Avoids brace jsonValue.opening :=
  json_avoids brace_mark (by decide) (by decide)

private theorem json_avoids_closing : Avoids closing jsonValue.opening :=
  json_avoids closing_mark (by decide) (by decide)

private theorem json_needs : Needs (· = quote) jsonValue.opening := .inl
    (needs_lit fun _ h => eq_of_letter (by decide) h)

/-- Every replacement of a JSON value is one. -/
private theorem json_rematches (prev : Option CodePoint) (s : Text) :
    jsonValue.subFrom 0 prev s = s ∨ jsonValue.BeginsIn prev (jsonValue.subFrom 0 prev s) [] := by
  refine Rule.subFrom_rematches fun prev u g t z _ hgroup => ?_
  refine ⟨quote :: (g ++ ([quote, ofChar ':', ofChar ' ', quote] ++ (redacted ++ [quote]))), z, ?_,
    List.cons_ne_nil _ _,
    [quote], _, rfl, lit_consumes, g, _, rfl, hgroup.of_free jsonGroup_free, [quote, ofChar ':', ofChar ' ', quote],
    redacted ++ [quote], rfl, mid_consumes, redacted, [quote], rfl, ?_, lit_consumes⟩
  · simp [jsonValue, quote, ofChars]
  · intro c hc
    exact decide_eq_true fun heq => quote_notMem_redacted (heq ▸ hc)

/-- The value under a key, up to the first quote, is masked. -/
private theorem json_masks (hkey : key ∈ jsonKeys) (hw : quote ∉ w) (rest : Text) :
    jsonValue.subFrom 0 prev (under key (w ++ quote :: rest)) =
      under key (redacted ++ quote :: jsonValue.subFrom 0 (some quote) rest) := by
  have hkeyQuote := quote_notMem_key hkey
  have hwhole : Consumes jsonValue.pattern prev
      ([quote] ++ (ofChars key ++ ([quote, ofChar ':', ofChar ' ', quote] ++ (w ++ [quote])))) rest := by
    refine ⟨[quote], _, rfl, lit_consumes, ofChars key, _, rfl, group_consumes hkey,
      [quote, ofChar ':', ofChar ' ', quote], w ++ [quote], rfl, mid_consumes, w, [quote], rfl, ?_, lit_consumes⟩
    intro c hc
    exact decide_eq_true fun heq => hw (heq ▸ hc)
  obtain ⟨m, hm⟩ := Option.isSome_iff_exists.1 (Rule.matchAt_isSome hwhole)
  obtain ⟨u, g, o, t, z, hs, hlead, hgroup, hmid, htail, hparts⟩ := Rule.matchAt_eq_some hm
  obtain rfl := eq_of_lit (by decide) hlead
  obtain ⟨s, s', hsQuote, hsQuote', rfl⟩ := mid_parts hmid
  obtain ⟨v, hv, rfl⟩ := tail_parts htail
  have hbehind : g ++ quote :: (s ++ ofChar ':' :: (s' ++ quote :: (v ++ quote :: z))) =
      ofChars key ++ quote :: ofChar ':' :: ofChar ' ' :: quote :: (w ++ quote :: rest) := by
    have htexts := (List.cons.inj hs).2
    simpa using htexts.symm
  obtain ⟨rfl, hvalue⟩ := append_cons_inj hbehind (hgroup.not_mem (jsonGroup_avoids quote_mark)) hkeyQuote
  have hcolon : (s ++ ofChar ':' :: s') ++ quote :: (v ++ quote :: z) =
      [ofChar ':', ofChar ' '] ++ quote :: (w ++ quote :: rest) := by simpa using hvalue
  have hquote : quote ∉ s ++ ofChar ':' :: s' := by
    intro hmem
    rcases List.mem_append.1 hmem with h | h
    · exact hsQuote h
    · rcases List.mem_cons.1 h with h | h
      · exact absurd h (by decide)
      · exact hsQuote' h
  obtain ⟨hspaces, hlast⟩ := append_cons_inj hcolon hquote (by decide)
  obtain ⟨rfl, rfl⟩ := append_cons_inj hlast hv hw
  have hspaceLength : s.length + s'.length = 1 := by
    have hlength := congrArg List.length hspaces
    simp only [List.length_append, List.length_cons, List.length_nil] at hlength
    omega
  have hlength : m.2.2 =
      ([quote] ++ (ofChars key ++ ([quote, ofChar ':', ofChar ' ', quote] ++ (v ++ [quote])))).length := by
    rw [hparts]
    simp only [List.length_append, List.length_cons, List.length_nil]
    omega
  have hreplaced : jsonValue.replaced
      ([quote] ++ (ofChars key ++ ([quote, ofChar ':', ofChar ' ', quote] ++ (v ++ [quote]))) ++ z) m =
        quote :: (ofChars key ++ jsonValue.right) := by
    have hend : 1 + List.length (ofChars key) = ([quote] ++ ofChars key).length := by
      rw [List.length_append, List.length_singleton]
    rw [Rule.replaced, hparts, List.append_assoc, List.append_assoc, ← List.append_assoc [quote]]
    change jsonValue.left ++ (((([quote] ++ ofChars key) ++ _).take (1 + List.length (ofChars key))).drop 1 ++ _) = _
    rw [hend, List.take_left]
    rfl
  have hsub := Rule.subFrom_some hm (List.cons_ne_nil _ _) hlength
  rw [hreplaced] at hsub
  have hright : jsonValue.right = quote :: ofChar ':' :: ofChar ' ' :: quote :: (redacted ++ [quote]) := rfl
  rw [hright] at hsub
  simpa [under, after_append] using hsub

private theorem under_injective {y : Text} (h : under key x = under key y) : x = y := by
  have hbehind := (List.append_cancel_left (List.cons.inj h).2)
  simpa using hbehind

/-- A JSON value has four quotes. -/
private theorem json_quotes (h : Consumes jsonValue.pattern prev x z) : 4 ≤ x.count quote := by
  obtain ⟨y, y', rfl, hlead, g, y', rfl, -, o, t, rfl, hmid, htail⟩ := h
  obtain rfl := eq_of_lit (by decide) hlead
  obtain ⟨s, s', -, -, rfl⟩ := mid_parts hmid
  obtain ⟨v, -, rfl⟩ := tail_parts htail
  have hlast : ofChar '"' = quote := rfl
  simp only [hlast, List.count_append, List.count_cons, List.count_nil, BEq.rfl, if_pos]
  omega

/-- A value that no quote ends is left as it is. -/
private theorem json_unmatched (hkey : key ∈ jsonKeys) (hw : quote ∉ w) :
    jsonValue.subFrom 0 prev (under key w) = under key w := by
  refine Rule.subFrom_eq_self ?_
  rintro ⟨u, v, huv, -, hm⟩
  obtain ⟨m, hm⟩ := Option.isSome_iff_exists.1 hm
  obtain ⟨x, z, hx, hread, -⟩ := Rule.matchAt_whole hm
  have hfour := json_quotes hread
  have hcount : (under key w).count quote = (u ++ (x ++ z)).count quote := by rw [huv, ← hx, List.append_nil]
  have hthree : (under key w).count quote = 3 := by
    have hcolon : (ofChar ':' == quote) = false := by decide
    have hblank : (ofChar ' ' == quote) = false := by decide
    rw [under]
    simp [List.count_append, List.count_cons, List.count_eq_zero.2 hw,
      List.count_eq_zero.2 (quote_notMem_key hkey), hcolon, hblank]
  rw [List.count_append, List.count_append] at hcount
  omega

private theorem json_free : Free jsonValue.pattern :=
  ⟨free_lit _, jsonGroup_free, ⟨free_lit _, trivial, free_lit _, trivial, free_lit _⟩, trivial, free_lit _⟩

/-- A JSON value that begins before the literal ends at its quote at the latest. -/
private theorem json_beginsIn (h : jsonValue.BeginsIn prev x (brace :: quote :: rest)) :
    jsonValue.BeginsIn prev x [brace, quote] := by
  obtain ⟨u, v, rfl, hv, hm⟩ := h
  refine ⟨u, v, rfl, hv, ?_⟩
  obtain ⟨m, hm⟩ := Option.isSome_iff_exists.1 hm
  obtain ⟨x, z, hx, hread, -⟩ := Rule.matchAt_whole hm
  -- the match ends at the quote or before it
  have hends : ∃ z', v ++ [brace, quote] = x ++ z' := by
    obtain ⟨y, y', rfl, hlead, g, y', rfl, hgroup, o, t, rfl, hmid, htail⟩ := hread
    obtain ⟨b, hb, rfl⟩ := tail_parts htail
    have hopening : (y ++ (g ++ o)) ++ (b ++ quote :: z) = v ++ brace :: quote :: rest := by
      rw [hx]
      simp
    have hbrace : brace ∉ y ++ (g ++ o) := by
      obtain ⟨hl, hg, ho⟩ := json_avoids_brace
      intro hmem
      rcases List.mem_append.1 hmem with hmem | hmem
      · exact hlead.not_mem hl hmem
      · exact (List.mem_append.1 hmem).elim (hgroup.not_mem hg) (hmid.not_mem ho)
    obtain ⟨v', rfl, hvalue⟩ := eq_append_of_not_mem hopening hbrace
    have hquote : b ++ quote :: z = (v' ++ [brace]) ++ quote :: rest := by
      rw [hvalue]
      simp
    obtain ⟨e, he, hrest⟩ := eq_append_of_not_mem hquote hb
    cases e with
    | nil =>
      refine ⟨[], ?_⟩
      rw [List.append_nil] at he
      rw [← he]
      simp
    | cons d e =>
      obtain rfl : quote = d := (List.cons.inj hrest).1
      refine ⟨e ++ [quote], ?_⟩
      have hbehind : v' ++ [brace, quote] = b ++ quote :: (e ++ [quote]) := by
        rw [show v' ++ [brace, quote] = v' ++ [brace] ++ [quote] by simp, he]
        simp
      rw [List.append_assoc, hbehind]
      simp
  obtain ⟨z', hz'⟩ := hends
  rw [hz']
  exact Rule.matchAt_isSome (hread.of_free json_free)

end Values

/-! ### The line -/

section Line

variable {r v : Rule CodePoint} {key : List Char} {before after s w rest : Text}

/-- Up to the literal, the rules before the JSON pattern change nothing. -/
private theorem ValueRule.sub_under (h : ValueRule r) (hkey : key ∈ jsonKeys)
    (hbefore : ¬r.BeginsIn none before [brace, quote])
    (rest : Text) :
    r.sub (before ++ brace :: under key rest) = before ++ brace :: under key (r.subFrom 0 (some quote) rest) := by
  obtain ⟨c, hneeds, hlacks⟩ := h.needs
  obtain ⟨p, htail⟩ := h.tail
  have hquote := h.avoids quote_mark
  have hbrace := h.avoids brace_mark
  have hbegins : ¬r.BeginsIn none before (brace :: under key rest) := fun hb => hbefore (hb.of_within hbrace htail)
  have hname : ∀ y, ¬r.BeginsIn (some quote) (ofChars key) (quote :: y) := by
    refine fun y => Rule.not_beginsIn hquote hneeds (fun x hx => ?_) y
    rw [hlacks key hkey x (List.mem_append_left _ hx)]
    exact Bool.false_ne_true
  have hcolon : ∀ y, ¬r.BeginsIn (some quote) (ofChars [':', ' ']) (quote :: y) := by
    refine fun y => Rule.not_beginsIn hquote hneeds (fun x hx => ?_) y
    rw [hlacks key hkey x (List.mem_append_right _ hx)]
    exact Bool.false_ne_true
  rw [Rule.sub, Rule.subFrom_clear hbegins, Rule.subFrom_cons hbrace hneeds, under, Rule.subFrom_cons hquote hneeds,
    Rule.subFrom_clear (hname _), Rule.subFrom_cons hquote hneeds]
  have hblank := Rule.subFrom_clear (hcolon rest)
  rw [Rule.subFrom_cons hquote hneeds] at hblank
  exact congrArg (fun y => before ++ brace :: quote :: (ofChars key ++ quote :: y)) hblank

/-- Behind the literal, too. -/
theorem ValueRule.closing (h : ValueRule r) (hafter : ¬r.BeginsIn (some closing) after []) (prev : Option CodePoint) :
    ¬r.BeginsIn prev (closing :: after) [] := by
  obtain ⟨c, hneeds, -⟩ := h.needs
  exact fun hb => hafter (hb.of_cons (h.avoids closing_mark) hneeds)

private theorem bearer_quote : Avoids quote bearer.pattern := by
  have htoken : tokenChar quote = false := by decide
  exact ⟨trivial, ⟨quote_mark.lit (by decide), ⟨quote_mark.space, quote_mark.space⟩, quote_mark.lit (by decide)⟩,
    trivial, htoken, htoken⟩

/-- The literal after the bearer pass. -/
def unborne (s : Text) : Text := bearer.subFrom 0 (some quote) (escaped s)

private theorem bearer_line (hkey : key ∈ jsonKeys) (hbefore : ¬bearer.BeginsIn none before [brace, quote])
    (hafter : ¬bearer.BeginsIn (some closing) after []) :
    bearer.sub (line before key s after) = before ++ brace :: under key (unborne s ++ quote :: closing :: after) := by
  obtain ⟨c, hneeds, -⟩ := bearer_valueRule.needs
  rw [line_eq hkey, bearer_valueRule.sub_under hkey hbefore, Rule.subFrom_append bearer_quote (Nat.zero_le _),
    Rule.subFrom_cons (bearer_valueRule.avoids quote_mark) hneeds,
    Rule.subFrom_eq_self (bearer_valueRule.closing hafter _)]
  rfl

private theorem json_line (hbefore : ¬jsonValue.BeginsIn none before [brace, quote]) :
    jsonValue.sub (before ++ brace :: under key rest) =
      before ++ brace :: jsonValue.subFrom 0 (some brace) (under key rest) := by
  have hbegins : ¬jsonValue.BeginsIn none before (brace :: under key rest) := fun hb => hbefore (json_beginsIn hb)
  rw [Rule.sub, Rule.subFrom_clear hbegins, Rule.subFrom_cons json_avoids_brace json_needs]

private theorem json_closing (hafter : ¬jsonValue.BeginsIn (some closing) after []) (prev : Option CodePoint) :
    ¬jsonValue.BeginsIn prev (closing :: after) [] :=
  fun hb => hafter (hb.of_cons json_avoids_closing json_needs)

/-- What is replaced is not the end of the line. -/
private theorem json_eq_closing (hafter : ¬jsonValue.BeginsIn (some closing) after [])
    (h : jsonValue.subFrom 0 (some quote) rest = closing :: after) : rest = closing :: after := by
  rcases json_rematches (some quote) rest with hsame | hbegins
  · rw [← hsame, h]
  · rw [h] at hbegins
    exact absurd hbegins (json_closing hafter _)

/-- The secret is masked if all its quotes are in query values, and none of these reaches its end. -/
private theorem QueryRule.masked_iff (hv : QueryRule v) (hkey : key ∈ jsonKeys)
    (hsecret : NoSecret [bearer, v, jsonValue] before after) :
    jsonValue.sub (v.sub (bearer.sub (line before key s after))) = masked before key after ↔
      v.closes quote 0 (some quote) (unborne s) = true := by
  obtain ⟨hbearer, hbearer'⟩ := hsecret bearer (by simp)
  obtain ⟨hvalue, hvalue'⟩ := hsecret v (by simp)
  obtain ⟨hjson, hjson'⟩ := hsecret jsonValue (by simp)
  obtain ⟨c, hneeds, -⟩ := hv.needs
  obtain ⟨p, htail⟩ := hv.tail
  have hquote := hv.avoids quote_mark
  have hend := hv.closing hvalue'
  have hleft : quote ∉ v.left := by
    rw [hv.left]
    exact List.not_mem_nil
  have hright : quote ∉ v.right := by
    rw [hv.right]
    exact quote_notMem_redacted ∘ fun hmem => (List.mem_cons.1 hmem).resolve_left (by decide)
  rw [bearer_line hkey hbearer hbearer', hv.sub_under hkey hvalue, json_line hjson, masked, List.append_right_inj,
    List.cons.injEq, and_iff_right rfl]
  constructor
  · intro hmasked
    by_contra hopen
    have hnot : v.closes quote 0 (some quote) (unborne s) = false := Bool.eq_false_iff.2 hopen
    rcases Rule.subFrom_of_not_closes hquote htail hleft hright (Nat.zero_le _) hnot with ⟨w, b, hw, hsub⟩ | ⟨w, hw, hsub⟩
    · -- a quote is left: the value ends there, and the rest of the secret stays
      rw [hsub, json_masks hkey hw] at hmasked
      have hrest := (List.cons.inj (List.append_cancel_left (under_injective hmasked))).2
      have hsecret := json_eq_closing hjson' hrest
      rcases hv.rematches (some quote) (b ++ quote :: closing :: after) with hsame | hbegins
      · rw [hsame] at hsecret
        have hlength := congrArg List.length hsecret
        simp only [List.length_append, List.length_cons] at hlength
        omega
      · rw [hsecret] at hbegins
        exact hend _ hbegins
    · -- the quote that ends the secret is taken along
      obtain ⟨k, hk⟩ := hsub (closing :: after)
      rw [hk, Rule.subFrom_eq_drop (hend _)] at hmasked
      by_cases hmem : quote ∈ (closing :: after).drop k
      · obtain ⟨a, b, hab, ha⟩ := List.eq_append_cons_of_mem hmem
        have hwa : quote ∉ w ++ a := fun h => (List.mem_append.1 h).elim hw ha
        rw [hab, ← List.append_assoc, json_masks hkey hwa] at hmasked
        have hrest := (List.cons.inj (List.append_cancel_left (under_injective hmasked))).2
        rw [json_eq_closing hjson' hrest] at hab
        have hlength := congrArg List.length hab
        simp only [List.length_drop, List.length_append, List.length_cons] at hlength
        omega
      · have hnone : quote ∉ w ++ (closing :: after).drop k := fun h => (List.mem_append.1 h).elim hw hmem
        rw [json_unmatched hkey hnone] at hmasked
        rw [under_injective hmasked] at hnone
        exact hnone (List.mem_append_right _ List.mem_cons_self)
  · intro hcloses
    obtain ⟨w, hw, hsub⟩ := Rule.subFrom_of_closes hquote htail hleft hright hcloses
    rw [hsub, Rule.subFrom_cons hquote hneeds, Rule.subFrom_eq_self (hend _), json_masks hkey hw,
      Rule.subFrom_eq_self (json_closing hjson' _)]

/-- Every quote of the literal is in a query value, and no such value reaches the quote that ends it. -/
def Enclosed (other : CodePoint → Bool) (s : Text) : Prop :=
  (adminValue other).closes quote 0 (some quote) (unborne s) = true

/-- The server's patterns leave every quote of the literal. -/
private theorem queryValue_closes_iff {other : CodePoint → Bool} :
    (queryValue other).closes quote 0 (some quote) (unborne s) = true ↔ quote ∉ s := by
  have hvalue := (queryValue_queryRule other).avoids quote_mark
  obtain ⟨c, hneeds, -⟩ := (queryValue_queryRule other).needs
  obtain ⟨b, hbearer, -⟩ := bearer_valueRule.needs
  have hchar : queryChar quote = false := by decide
  rw [Rule.closes_iff_not_mem ⟨hvalue.1, hvalue.2.1, hvalue.2.2, hchar, hchar⟩ (hneeds.imp_right (Or.imp_right .inl)),
    and_iff_right (Nat.zero_le _), List.drop_zero, unborne,
    Rule.mem_subFrom_iff bearer_quote (hbearer.imp_right (Or.imp_right .inl)) List.not_mem_nil quote_notMem_redacted,
    List.drop_zero, quote_mem_escaped_iff]

/-- One masked line has another: for the server where no secret has a quote, for the admin plugin where every quote is
in a query value that ends within the secret. -/
theorem json_secret_masked_iff (other : CodePoint → Bool) (hkey : key ∈ jsonKeys) (before after : Text) :
    (NoSecret [bearer, queryValue other, jsonValue] before after → ∀ s₁ s₂, quote ∉ s₁ →
      (redact other (line before key s₁ after) = redact other (line before key s₂ after) ↔ quote ∉ s₂)) ∧
    (NoSecret [bearer, adminValue other, jsonValue] before after → ∀ s₁ s₂, Enclosed other s₁ →
      (adminRedact other (line before key s₁ after) = adminRedact other (line before key s₂ after) ↔
        Enclosed other s₂)) := by
  constructor
  · intro hsecret s₁ s₂ hs₁
    have hmasked := (queryValue_queryRule other).masked_iff hkey hsecret (s := s₁)
    rw [redact, redact, hmasked.2 (queryValue_closes_iff.2 hs₁), eq_comm,
      (queryValue_queryRule other).masked_iff hkey hsecret, queryValue_closes_iff]
  · intro hsecret s₁ s₂ hs₁
    have hmasked := (adminValue_queryRule other).masked_iff hkey hsecret (s := s₁)
    rw [adminRedact, adminRedact, hmasked.2 hs₁, eq_comm, (adminValue_queryRule other).masked_iff hkey hsecret]
    exact Iff.rfl

theorem json_secret_masked_iff_login :
    (redact (fun _ => false) (line (ofChars ['i', 'n', ' ']) ['t', 'o', 'k', 'e', 'n'] (ofChars ['a', '\\']) []) =
        redact (fun _ => false) (line (ofChars ['i', 'n', ' ']) ['t', 'o', 'k', 'e', 'n'] (ofChars ['b']) []) ↔
      quote ∉ ofChars ['b']) ∧
    (adminRedact (fun _ => false) (line (ofChars ['i', 'n', ' ']) ['t', 'o', 'k', 'e', 'n'] (ofChars ['a']) []) =
        adminRedact (fun _ => false) (line (ofChars ['i', 'n', ' ']) ['t', 'o', 'k', 'e', 'n']
          (ofChars ['c', 'm', 'd', '=', '"', '&']) []) ↔
      Enclosed (fun _ => false) (ofChars ['c', 'm', 'd', '=', '"', '&'])) :=
  ⟨(json_secret_masked_iff (fun _ => false) (by decide) _ _).1 (by decide) _ _ (by decide),
    (json_secret_masked_iff (fun _ => false) (by decide) _ _).2 (by decide) _ _ (by rw [Enclosed]; decide)⟩

/-- What follows a quote in a secret is logged, and by the admin plugin what stands before a query value at its end. -/
theorem quoted_secret_leaks :
    (NoSecret [bearer, queryValue fun _ => false, jsonValue] [] [] ∧
      redact (fun _ => false) (line [] ['t', 'o', 'k', 'e', 'n'] (ofChars ['a', '"', 'b']) []) ≠
        redact (fun _ => false) (line [] ['t', 'o', 'k', 'e', 'n'] (ofChars ['a', '"', 'c']) [])) ∧
    NoSecret [bearer, adminValue fun _ => false, jsonValue] [] [] ∧
      adminRedact (fun _ => false)
      (line [] ['t', 'o', 'k', 'e', 'n'] (ofChars ['x', ' ', 'c', 'm', 'd', '=', 'y']) []) ≠
        adminRedact (fun _ => false)
        (line [] ['t', 'o', 'k', 'e', 'n'] (ofChars ['z', ' ', 'c', 'm', 'd', '=', 'y']) []) := by
  decide

end Line

end Redaction

end CliServer
