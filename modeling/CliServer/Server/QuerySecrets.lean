import CliServer.Server.QueryLeaks

/-!
# Secrets in query strings

A logged line does not depend on the credential in the query string of its URL where its field is spelled out: under
the plain name `ticket`, and behind a plain `Bearer%20`, and there only up to the character that ends the match
(`query_credential_hidden_iff`).  The server reads other spellings as well, `%74icket` and `Bearer+` among them
(`plus_token_leaks`).
-/

namespace CliServer

open Json (CodePoint Text ofChar ofChars)
open Substitution QueryStrings

namespace Redaction

/-! ### Fields -/

/-- Fields before another one. -/
def FieldsBefore (x : Text) : Prop := x = [] ∨ ∃ y, x = y ++ [ofChar '&']

/-- Fields behind another one. -/
def FieldsBehind (b : Text) : Prop := b = [] ∨ ∃ y, b = ofChar '&' :: y

/-- A URL with its query string in a log line. -/
def logged (before query behind : Text) : Text := before ++ ofChar '?' :: (query ++ behind)

/-- The field in the query string. -/
def query (x name value b : Text) : Text := x ++ (name ++ ofChar '=' :: (value ++ b))

/-- The line does not depend on the ticket of a shape, under a spelling of its name. -/
def TicketHidden (other : CodePoint → Bool) (name σ b behind : Text) : Prop :=
  ∀ before x r r' : Text, Visible x → FieldsBefore x → shape r = shape σ → shape r' = shape σ →
    queryParam (query x name r b) ticketName = some (unquotePlus r) →
    queryParam (query x name r' b) ticketName = some (unquotePlus r') →
    redact other (logged before (query x name r b) behind) = redact other (logged before (query x name r' b) behind)

/-- The line does not depend on the bearer token of a shape, under a spelling of the name and of the scheme. -/
def TokenHidden (other : CodePoint → Bool) (t : CaseTable) (name scheme σ : Text) : Prop :=
  ∀ before x b behind r r' : Text, Visible x → FieldsBefore x → Visible b → FieldsBehind b → Ended behind →
    shape r = shape σ → shape r' = shape σ →
    presentedToken t none (query x name (scheme ++ r) b) = some (strip (unquotePlus r)) →
    presentedToken t none (query x name (scheme ++ r') b) = some (strip (unquotePlus r')) →
    redact other (logged before (query x name (scheme ++ r) b) behind) =
      redact other (logged before (query x name (scheme ++ r') b) behind)

/-- The shape ends in six letters or digits. -/
def EndsSix (σ : Text) : Prop := ∃ u g, σ = u ++ g ∧ g.length = 6 ∧ ∀ c ∈ g, isAlnum c.val = true

/-- The name is spelled out, and nothing of the ticket that may differ is behind a quote; nor can the ticket end in
`bearer` before a blank and a character of a token. -/
def TicketShielded (name σ behind : Text) : Prop :=
  (Fixed σ ∨ name = ofChars ticketName ∧ Fixed (σ.dropWhile queryChar)) ∧ ¬(blankToken behind = true ∧ EndsSix σ)

/-- `Bearer%20` is spelled out, and nothing of the token that may differ is behind a character that is none of a
token. -/
def TokenShielded (e blank σ : Text) : Prop :=
  Fixed σ ∨ (EndsBearer e ∧ blank = blank20) ∧ Fixed (σ.dropWhile tokenChar)

section Fields

variable {other : CodePoint → Bool} {t : CaseTable} {x name e σ b behind r r' y z : Text} {c : CodePoint}

/-- What stands before a field ends in its separator. -/
private theorem logged_eq (before name behind : Text) (hx : FieldsBefore x) :
    ∃ x' sep, (sep = ofChar '?' ∨ sep = ofChar '&') ∧ ∀ value b,
    logged before (query x name value b) behind = x' ++ sep :: (name ++ ofChar '=' :: (value ++ (b ++ behind))) := by
  rcases hx with rfl | ⟨y, rfl⟩
  · refine ⟨before, ofChar '?', .inl rfl, fun value b => ?_⟩
    rw [logged, query]
    simp
  · refine ⟨before ++ ofChar '?' :: y, ofChar '&', .inr rfl, fun value b => ?_⟩
    rw [logged, query]
    simp

private theorem ended_append (hb : FieldsBehind b) (hbehind : Ended behind) : Ended (b ++ behind) := by
  rcases hb with rfl | ⟨y, rfl⟩
  · exact hbehind
  · intro c hc
    rw [← Option.some.inj hc]
    decide

/-- What `p+` leaves of a visible text goes on with a character that is not in `p`. -/
private theorem head_dropWhile {p : CodePoint → Bool} (hc : c ∈ (σ.dropWhile p ++ z).head?) :
    c ∈ σ ∧ p c = false ∨ σ.dropWhile p = [] ∧ c ∈ z.head? := by
  cases hrest : σ.dropWhile p with
  | nil =>
    rw [hrest] at hc
    exact .inr ⟨rfl, hc⟩
  | cons d rest =>
    rw [hrest] at hc
    obtain rfl : d = c := Option.some.inj hc
    have hhead := List.head_dropWhile_not p (hrest ▸ List.cons_ne_nil d rest)
    exact .inl ⟨(List.dropWhile_suffix p).subset (hrest ▸ List.mem_cons_self), by simpa [hrest] using hhead⟩

/-- Behind the end of `p+`, nothing differs: it is enough that the text does not depend on what is before. -/
private theorem eq_of_masked {f : Text → Text} {p : CodePoint → Bool}
    (hp : ∀ c : CodePoint, isAlnum c.val = true → p c = true)
    (hfixed : Fixed (σ.dropWhile p)) (hr : shape r = shape σ) (hr' : shape r' = shape σ)
    (hmasked : ∀ y y' : Text, y ≠ [] → (∀ c ∈ y, p c = true) → y' ≠ [] → (∀ c ∈ y', p c = true) →
      shape (y ++ σ.dropWhile p) = shape σ → shape (y' ++ σ.dropWhile p) = shape σ →
      f (y ++ σ.dropWhile p) = f (y' ++ σ.dropWhile p)) : f r = f r' := by
  have hsplit : ∀ {r}, shape r = shape σ → r = r.takeWhile p ++ σ.dropWhile p := by
    intro r hr
    rw [← dropWhile_of_shape hp hr hfixed, List.takeWhile_append_dropWhile]
  by_cases hne : σ.takeWhile p = []
  · have hnil : ∀ {r}, shape r = shape σ → r.takeWhile p = [] := by
      intro r hr
      have hlength := length_of_shape (shape_split hp hr).1
      rw [hne, List.length_nil] at hlength
      exact List.length_eq_zero_iff.1 hlength
    rw [hsplit hr, hsplit hr', hnil hr, hnil hr']
  · have hall : ∀ (r : Text), ∀ c ∈ r.takeWhile p, p c = true := fun _ _ hc => List.mem_takeWhile_imp hc
    have heq := hmasked (r.takeWhile p) (r'.takeWhile p) (takeWhile_ne_nil hr hp hne) (hall r)
      (takeWhile_ne_nil hr' hp hne)
      (hall r')
    rw [← hsplit hr, ← hsplit hr'] at heq
    exact heq hr hr'

private theorem alnum_of_shape (h : shape r = shape σ) (hr : ∀ c ∈ r, isAlnum c.val = true) :
    ∀ c ∈ σ, isAlnum c.val = true := by
  induction r generalizing σ with
  | nil =>
    obtain rfl : σ = [] := List.length_eq_zero_iff.1 (length_of_shape h).symm
    exact hr
  | cons c r ih =>
    cases σ with
    | nil => exact absurd (length_of_shape h) (Nat.succ_ne_zero _)
    | cons d σ =>
      obtain ⟨hhead, htail⟩ := shape_cons_iff.1 h
      obtain ⟨hc, hrest⟩ := List.forall_mem_cons.1 hr
      refine List.forall_mem_cons.2 ⟨?_, ih htail hrest⟩
      rcases hhead with ⟨-, hd⟩ | ⟨-, rfl⟩
      · exact hd
      · exact hc

private theorem endsSix_of_bearer (h : EndsBearer r) (hr : shape r = shape σ) : EndsSix σ := by
  obtain ⟨u, β, rfl, hβ⟩ := h
  rw [shape, List.map_append] at hr
  obtain ⟨u', g, rfl, -, hg⟩ := List.map_eq_append_iff.1 hr.symm
  exact ⟨u', g, rfl, (length_of_shape hg).trans (length_of_lit hβ), alnum_of_shape hg.symm hβ.alnum⟩

private theorem blankToken_of_urlChar (hz : ∀ c ∈ z.head?, urlChar c = true) : blankToken z = false := by
  cases z with
  | nil => rfl
  | cons c z =>
    have hspace : space c = false := space_of_urlChar (hz c rfl)
    rw [blankToken, List.takeWhile_cons_of_neg (by simp [hspace])]
    rfl

private theorem ticket_hidden (hσ : Visible σ) (hb : FieldsBehind b) (hbehind : Ended behind)
    (h : TicketShielded name σ (b ++ behind)) : TicketHidden other name σ b behind := by
  intro before x r r' _ hfields hr hr' _ _
  obtain ⟨hfixed | ⟨rfl, hfixed⟩, hbroken⟩ := h
  · rw [eq_of_shape hr hfixed, eq_of_shape hr' hfixed]
  · obtain ⟨x', sep, hsep, heq⟩ := logged_eq before (ofChars ticketName) behind hfields
    rw [heq, heq]
    have hended : Ended (σ.dropWhile queryChar ++ (b ++ behind)) := by
      intro c hc
      rcases head_dropWhile hc with ⟨hmem, hquery⟩ | ⟨-, hhead⟩
      · exact stops_of_urlChar (hσ c hmem) hquery
      · exact ended_append hb hbehind c hhead
    refine eq_of_masked (f := fun r => redact other (x' ++ sep :: (ofChars ticketName ++ ofChar '=' :: (r ++ (b ++ behind)))))
      (fun _ => queryChar_of_alnum) hfixed hr hr' fun y y' hne hy hne' hy' hshape hshape' => ?_
    have hnot : ∀ y : Text, shape (y ++ σ.dropWhile queryChar) = shape σ →
        ¬(EndsBearer y ∧ blankToken (σ.dropWhile queryChar ++ (b ++ behind)) = true) := by
      rintro y hshape ⟨hends, hblank⟩
      cases hrest : σ.dropWhile queryChar with
      | nil =>
        rw [hrest] at hshape hblank
        rw [List.append_nil] at hshape
        exact hbroken ⟨hblank, endsSix_of_bearer hends hshape⟩
      | cons c rest =>
        rw [blankToken_of_urlChar fun d hd => ?_] at hblank
        · cases hblank
        · rw [hrest] at hd
          obtain rfl : c = d := Option.some.inj hd
          exact hσ c ((List.dropWhile_suffix queryChar).subset (hrest ▸ List.mem_cons_self))
    have hmasked : redact other (x' ++ sep :: ticketField y _) = redact other (x' ++ sep :: ticketField y' _) :=
      ticket_masked hsep hne hy hne' hy' hended (hnot y hshape) (hnot y' hshape')
    simpa [ticketField] using hmasked

private theorem token_hidden (hname : unquotePlus name = headerName) (hvisible : Visible (name ++ ofChar '=' :: e))
    (hreads : ReadsBearer t e) {blank : Text} (h : TokenShielded e blank σ) :
    TokenHidden other t name (e ++ blank) σ := by
  intro before x b behind r r' _ hfields _ hb hbehind hr hr' _ _
  obtain hfixed | ⟨⟨⟨e, β, rfl, hβ⟩, rfl⟩, hfixed⟩ := h
  · rw [eq_of_shape hr hfixed, eq_of_shape hr' hfixed]
  · obtain ⟨x', sep, hsep, heq⟩ := logged_eq before name behind hfields
    rw [heq, heq]
    have hend : ∀ c ∈ (σ.dropWhile tokenChar ++ (b ++ behind)).head?, tokenChar c = false := by
      intro c hc
      rcases head_dropWhile hc with ⟨-, htoken⟩ | ⟨-, hhead⟩
      · exact htoken
      · exact tokenChar_of_stops (ended_append hb hbehind c hhead)
    refine eq_of_masked (f := fun r => redact other (x' ++ sep :: (name ++ ofChar '=' :: (((e ++ β) ++ blank20 ++ r) ++
      (b ++ behind))))) (fun _ => tokenChar_of_alnum) hfixed hr hr' fun y y' hne hy hne' hy' _ _ => ?_
    have hmasked : redact other (x' ++ sep :: _) = redact other (x' ++ sep :: _) :=
      token_masked hsep hname hvisible hreads hβ hne hy hne' hy' hend
    simpa using hmasked

end Fields

/-! ### What the shape must be -/

section Shielded

variable {other : CodePoint → Bool} {t : CaseTable} {name e blank σ b behind r : Text} {d : CodePoint}

private theorem mem_of_shape (h : shape r = shape σ) (hd : isAlnum d.val = false) (hmem : d ∈ r) : d ∈ σ := by
  have hshape : some d ∈ shape r := List.mem_map.2 ⟨d, hmem, by rw [hd]; rfl⟩
  rw [h] at hshape
  obtain ⟨c, hc, heq⟩ := List.mem_map.1 hshape
  split at heq
  · cases heq
  · exact Option.some.inj heq ▸ hc

private theorem shape_of_alnum (h : ∀ c ∈ r, isAlnum c.val = true) : shape r = List.replicate r.length none := by
  rw [List.eq_replicate_iff]
  refine ⟨List.length_map _, fun o ho => ?_⟩
  obtain ⟨c, hc, rfl⟩ := List.mem_map.1 ho
  rw [if_pos (h c hc)]

private theorem ampersand_plain : Plain (ofChar '&') := ⟨by decide, by decide, by decide⟩

private theorem logged_field (name r b behind : Text) :
    logged [] (query [] name r b) behind = field name r ++ (b ++ behind) := by
  rw [logged, query, field]
  simp

private theorem ticket_shielded (hname : unquotePlus name = ticketName) (hvisible : Visible name) (hσ : Visible σ)
    (hamp : ofChar '&' ∉ σ)
    (hb : FieldsBehind b) (hbehind : Ended behind) (h : TicketHidden other name σ b behind) :
    TicketShielded name σ (b ++ behind) := by
  by_cases hne : σ = []
  · subst hne
    refine ⟨.inl fun c hc => absurd hc List.not_mem_nil, fun ⟨_, u, g, hsplit, hsix, _⟩ => ?_⟩
    obtain ⟨-, rfl⟩ := List.append_eq_nil_iff.1 hsplit.symm
    cases hsix
  have hw := ended_append hb hbehind
  have hequals := equals_notMem_name hname (by decide)
  have hread : ∀ r, shape r = shape σ → queryParam (query [] name r b) ticketName = some (unquotePlus r) := by
    intro r hr
    have hfield : ofChar '&' ∉ name ++ ofChar '=' :: r := by
      intro hmem
      rcases List.mem_append.1 hmem with hmem | hmem
      · have hin := mem_unquotePlus ampersand_plain hmem
        rw [hname] at hin
        exact absurd hin (by decide)
      · rcases List.mem_cons.1 hmem with heq | hmem
        · exact absurd heq (by decide)
        · exact hamp (mem_of_shape hr (by decide) hmem)
    have hr' : r ≠ [] := by
      rintro rfl
      exact hne (List.length_eq_zero_iff.1 (length_of_shape hr).symm)
    rw [← hname]
    exact queryParam_first hequals hfield hr' hb
  have hline : ∀ r r', shape r = shape σ → shape r' = shape σ →
      redact other (field name r ++ (b ++ behind)) = redact other (field name r' ++ (b ++ behind)) := by
    intro r r' hr hr'
    have hlogged := h [] [] r r' (fun c hc => absurd hc List.not_mem_nil) (.inl rfl) hr hr' (hread r hr) (hread r' hr')
    rwa [logged_field, logged_field] at hlogged
  have hfixed := ticket_fixed hname hvisible hσ hw (hline _ _ (shape_fill rfl σ) (shape_fill rfl σ))
  refine ⟨hfixed, ?_⟩
  rintro ⟨hblank, u, g, rfl, hsix, halnum⟩
  obtain ⟨c, g', rfl⟩ := List.exists_cons_of_ne_nil (List.ne_nil_of_length_pos (by omega : 0 < g.length))
  have hc := halnum c List.mem_cons_self
  have hnot : ∀ {s : Text}, Fixed s → c ∉ s := by
    intro s hs hmem
    rw [hs c hmem] at hc
    cases hc
  obtain ⟨rfl, hrest⟩ := hfixed.resolve_left fun hfixed => hnot hfixed (List.mem_append_right u List.mem_cons_self)
  have hquery : ∀ c ∈ u, queryChar c = true := by
    rw [← List.dropWhile_eq_nil_iff]
    by_contra hu
    rw [List.dropWhile_append, if_neg (by simpa using hu)] at hrest
    exact hnot hrest (List.mem_append_right _ List.mem_cons_self)
  have hword : ∀ c ∈ ofChars ['b', 'e', 'a', 'r', 'e', 'r'], isAlnum c.val = true := by
    have hbearer : Bearer (ofChars ['b', 'e', 'a', 'r', 'e', 'r']) := consumes_lit _ _ _
    exact hbearer.alnum
  have hshapes : ∀ y : Text, y.length = 6 → (∀ c ∈ y, isAlnum c.val = true) →
      shape (fill (ofChar '0') u ++ y) = shape (u ++ c :: g') := by
    intro y hy hyalnum
    rw [shape, List.map_append, shape, List.map_append]
    have htail : shape y = shape (c :: g') := by rw [shape_of_alnum hyalnum, shape_of_alnum halnum, hy, hsix]
    exact congrArg₂ (· ++ ·) (shape_fill rfl u) htail
  have hzeros : ∀ c ∈ List.replicate 6 (ofChar '0'), isAlnum c.val = true := by
    intro c hc
    rw [(List.mem_replicate.1 hc).2]
    rfl
  have hu : Visible u := fun c hc => hσ c (List.mem_append_left _ hc)
  refine ticket_unbroken (unlettered_fill (by decide) hu) (fun c hc => ?_) hw hblank (Nat.succ_ne_zero 5)
    (hline _ _ (hshapes _ List.length_replicate hzeros) (hshapes _ rfl hword))
  rcases mem_fill hc with rfl | ⟨hc, -⟩
  · exact queryChar_of_alnum rfl
  · exact hquery c hc

/-- A digit that stands for all letters and digits is read as a character that is no blank. -/
private theorem exists_unquotePlus_fill (hd : d = ofChar '0' ∨ d = ofChar '1') (hσ : Visible σ) (hne : ¬Fixed σ) :
    ∃ c ∈ unquotePlus (fill d σ), isSpace c = false := by
  have hmem : plusByte d ∈ (fill d σ).map plusByte := by
    rw [Fixed] at hne
    push Not at hne
    obtain ⟨c, hc, halnum⟩ := hne
    refine List.mem_map_of_mem (List.mem_map.2 ⟨c, hc, ?_⟩)
    rw [if_pos (Bool.eq_true_of_not_eq_false halnum)]
  have honly : ∀ x ∈ (fill d σ).map plusByte, (PercentEncoding.hexValue? x).isSome = true → x = plusByte d := by
    have hall : ∀ n < 0x80, isAlnum n = false → PercentEncoding.hexValue? (UInt8.ofNat n) = none := by decide
    intro x hx hdigit
    obtain ⟨c, hc, rfl⟩ := List.mem_map.1 hx
    rcases mem_fill hc with rfl | ⟨hc, halnum⟩
    · rfl
    · rw [plusByte] at hdigit
      split at hdigit
      · cases hdigit
      · rw [hall c.val (ascii_of_visible hσ c hc) halnum] at hdigit
        cases hdigit
  rcases hd with rfl | rfl
  · rcases PercentEncoding.digit_mem_decode (d := 0x30) rfl honly hmem with hdecode | hdecode
    · exact ⟨_, Utf8.mem_decode_ascii (by decide) hdecode, rfl⟩
    · exact ⟨_, Utf8.mem_decode_ascii (by decide) hdecode, rfl⟩
  · rcases PercentEncoding.digit_mem_decode (d := 0x31) rfl honly hmem with hdecode | hdecode
    · exact ⟨_, Utf8.mem_decode_ascii (by decide) hdecode, rfl⟩
    · exact ⟨_, Utf8.mem_decode_ascii (by decide) hdecode, rfl⟩

/-- The blank of the scheme is read as one. -/
private theorem unquotePlus_blank (hblank : blank = [ofChar '+'] ∨ blank = blank20) (e r : Text) :
    unquotePlus ((e ++ blank) ++ r) = unquotePlus e ++ ' ' :: unquotePlus r := by
  rw [List.append_assoc]
  rcases hblank with rfl | rfl
  · exact unquotePlus_append ⟨by decide, by decide, by decide⟩ e r
  · exact unquotePlus_blank20 e r

private theorem presentedToken_field (hname : unquotePlus name = headerName) (hreads : ReadsBearer t e)
    (hamp : ofChar '&' ∉ r)
    (hblank : blank = [ofChar '+'] ∨ blank = blank20) (htoken : ∃ c ∈ unquotePlus r, isSpace c = false) :
    presentedToken t none (query [] name ((e ++ blank) ++ r) []) = some (strip (unquotePlus r)) := by
  have hfield : ofChar '&' ∉ name ++ ofChar '=' :: ((e ++ blank) ++ r) := by
    have hnot : ofChar '&' ∉ name := by
      intro hmem
      have hin := mem_unquotePlus ampersand_plain hmem
      rw [hname] at hin
      exact absurd hin (by decide)
    have hscheme : ofChar '&' ∉ e := hreads.lacks ampersand_plain (by decide) (by decide) (by decide)
    have hblank' : ofChar '&' ∉ blank := by
      rcases hblank with rfl | rfl
      · decide
      · decide
    rw [List.mem_append, List.mem_cons, List.mem_append, List.mem_append]
    rintro (hmem | heq | (hmem | hmem) | hmem)
    · exact hnot hmem
    · exact absurd heq (by decide)
    · exact hscheme hmem
    · exact hblank' hmem
    · exact hamp hmem
  have hvalue := lastParam_single (equals_notMem_name hname (by decide)) hfield
  rw [hname, unquotePlus_blank hblank] at hvalue
  have hquery : query [] name ((e ++ blank) ++ r) [] = name ++ ofChar '=' :: ((e ++ blank) ++ r) := by
    rw [query, List.append_nil]
    rfl
  rw [hquery]
  refine presentedToken_eq hvalue ?_ hreads.1 hreads.2 (strip_ne_nil_iff.2 htoken)
  have hword : (unquotePlus e).dropWhile isSpace ≠ [] := fun hnil => by
    have hsix := hreads.1
    rw [schemeWord, hnil] at hsix
    cases hsix
  rw [List.dropWhile_append, if_neg (by simpa using hword)]
  rfl

private theorem token_shielded (hname : unquotePlus name = headerName) (hvisible : Visible (name ++ ofChar '=' :: e))
    (hσ : Visible σ)
    (hamp : ofChar '&' ∉ σ) (hreads : ReadsBearer t e) (hblank : blank = [ofChar '+'] ∨ blank = blank20)
    (h : TokenHidden other t name (e ++ blank) σ) : TokenShielded e blank σ := by
  by_cases hfixed : Fixed σ
  · exact .inl hfixed
  have hread : ∀ d : CodePoint, d = ofChar '0' ∨ d = ofChar '1' →
      presentedToken t none (query [] name ((e ++ blank) ++ fill d σ) []) = some (strip (unquotePlus (fill d σ))) := by
    intro d hd
    have hamp' : ofChar '&' ∉ fill d σ := fun hmem => hamp (mem_of_shape (shape_fill (digits hd).1 σ) (by decide) hmem)
    exact presentedToken_field hname hreads hamp' hblank (exists_unquotePlus_fill hd hσ hfixed)
  have hempty : Visible [] := fun c hc => absurd hc List.not_mem_nil
  have hline := h [] [] [] [] (fill (ofChar '0') σ) (fill (ofChar '1') σ) hempty (.inl rfl) hempty (.inl rfl)
    (fun c hc => by cases hc) (shape_fill rfl σ) (shape_fill rfl σ) (hread _ (.inl rfl)) (hread _ (.inr rfl))
  rw [logged_field, logged_field, List.append_nil, List.append_nil, List.append_nil] at hline
  exact token_fixed hname hvisible hσ hreads hblank hline

end Shielded

/-- A credential in a query string is masked exactly where its field is `TicketShielded`, or `TokenShielded`. -/
theorem query_credential_hidden_iff (other : CodePoint → Bool) (t : CaseTable) :
    (∀ name σ b behind : Text, Visible name → Visible σ → ofChar '&' ∉ σ → FieldsBehind b → Ended behind →
      unquotePlus name = ticketName → (TicketHidden other name σ b behind ↔ TicketShielded name σ (b ++ behind))) ∧
    ∀ name e blank σ : Text, Visible (name ++ ofChar '=' :: e) → Visible σ → ofChar '&' ∉ σ →
      unquotePlus name = headerName → ReadsBearer t e → blank = [ofChar '+'] ∨ blank = blank20 →
      (TokenHidden other t name (e ++ blank) σ ↔ TokenShielded e blank σ) := by
  constructor
  · intro name σ b behind hvisible hσ hamp hb hbehind hname
    exact ⟨ticket_shielded hname hvisible hσ hamp hb hbehind, ticket_hidden hσ hb hbehind⟩
  · intro name e blank σ hvisible hσ hamp hname hreads hblank
    exact ⟨token_shielded hname hvisible hσ hamp hreads hblank, token_hidden hname hvisible hreads⟩

/-- A ticket under its plain name, and a token behind a plain `Bearer%20`. -/
theorem query_credential_hidden_iff_plain :
    TicketHidden (fun _ => false) (ofChars ticketName) (ofChars ['a', '1', '.', '%', '2', 'F']) [] [] ∧
      TokenHidden (fun _ => false) (fun _ _ _ => []) (ofChars headerName)
      (ofChars ['B', 'e', 'a', 'r', 'e', 'r'] ++ blank20)
        (ofChars ['q', 'c', '_', '7']) := by
  have hiff := query_credential_hidden_iff (fun _ => false) (fun _ _ _ => [])
  have hbearer : Bearer (ofChars ['B', 'e', 'a', 'r', 'e', 'r']) :=
    ⟨[_], _, rfl, ⟨_, rfl, rfl⟩, [_], _, rfl, ⟨_, rfl, rfl⟩, [_], _, rfl, ⟨_, rfl, rfl⟩, [_], _, rfl, ⟨_, rfl, rfl⟩,
      [_], _, rfl, ⟨_, rfl, rfl⟩, [_], _, rfl, ⟨_, rfl, rfl⟩, rfl⟩
  constructor
  · refine (hiff.1 _ _ _ _ (by decide) (by decide) (by decide) (.inl rfl) (fun c hc => by cases hc) (by decide)).2 ?_
    exact ⟨.inr ⟨rfl, by decide⟩, fun h => absurd h.1 (by decide)⟩
  · refine (hiff.2 _ _ _ _ (by decide) (by decide) (by decide) (by decide) (by constructor <;> decide) (.inr rfl)).2 ?_
    exact .inr ⟨⟨⟨[], _, rfl, hbearer⟩, rfl⟩, by decide⟩

/-- The line of a request with a bearer token behind `Bearer+`. -/
def plusLine (token : List Char) : Text :=
  query [] (ofChars headerName) (ofChars (['B', 'e', 'a', 'r', 'e', 'r', '+'] ++ token)) []

/-- Behind `Bearer+`, the token is read and logged. -/
theorem plus_token_leaks : presentedToken (fun _ _ _ => []) none (plusLine ['a']) = some ['a'] ∧
    presentedToken (fun _ _ _ => []) none (plusLine ['b']) = some ['b'] ∧
    shape (ofChars ['a']) = shape (ofChars ['b']) ∧
    redact (fun _ => false) (logged [] (plusLine ['a']) []) ≠ redact (fun _ => false)
      (logged [] (plusLine ['b']) []) := by
  decide +kernel

end Redaction

end CliServer
