import CliServer.Lib.UrlSplit
import CliServer.Server.ClientAddress
import CliServer.Server.Origins
import CliServer.Users.Namespace

/-!
# The server's own origin

A request with an `Origin` header comes from a page of that origin.  Where it is the origin of the request itself, it is
let through whatever list of origins is configured; `is_same_origin` compares scheme, host and port, however both are
written (`same_origin_iff`).  The function is there twice, in the core server and in the users plugin.
-/

namespace CliServer

open Url (Library Authority AddressesKnown urlsplit hostname port before)

/-- What the code uses of Python. -/
structure Platform where
  caseTable : CaseTable
  nfkc : Str → Str
  isBracketedHost : Str → Bool

def Platform.library (p : Platform) : Library := ⟨lower p.caseTable, p.nfkc, p.isBracketedHost⟩

/-- An ASGI scope, with its headers decoded as Latin-1. -/
structure Scope where
  scheme : Option Str := none
  headers : List (Str × Str) := []

/-- `_scope_header`, and `_header`. -/
def Scope.header (scope : Scope) (name : Str) : Option Str :=
  (scope.headers.find? fun h => h.1.map Char.toLower = name).map Prod.snd

/-- The truth value of a `trust_proxy`. -/
def TrustProxy.isOn : TrustProxy → Bool
  | .none => false
  | .bool trusted => trusted
  | .int hops => hops ≠ 0

namespace SameOrigin

/-- `_WS_SCHEMES.get(scheme, scheme)`. -/
def webScheme (scheme : Str) : Str :=
  if scheme = "ws".toList then "http".toList else if scheme = "wss".toList then "https".toList else scheme

/-- `_DEFAULT_PORTS.get(scheme)`. -/
def defaultPort (scheme : Str) : Option Nat :=
  if scheme = "http".toList then some 80 else if scheme = "https".toList then some 443 else none

/-- `_normalize_origin`. -/
def normalizeOrigin (p : Platform) (scheme netloc : Str) : Option (Str × Str × Nat) :=
  let scheme := webScheme (lower p.caseTable (strip scheme))
  match defaultPort scheme with
  | none => none
  | some default =>
    if netloc = [] then none
    else do
      let parts ← urlsplit p.library ('/' :: '/' :: strip netloc)
      let host := lower p.caseTable ((hostname p.library parts.netloc).getD [])
      let port ← port parts.netloc
      if host = [] then none else some (scheme, host, port.getD default)

/-- The first entry of a forwarded header, unless it is empty. -/
def forwarded (scope : Scope) (name : Str) : Option Str :=
  ((scope.header name).bind nonEmpty).bind fun value => nonEmpty (strip (before ',' value))

/-- The scheme of the request. -/
def requestScheme (scope : Scope) (trustProxy : TrustProxy) : Str :=
  let scheme := (scope.scheme.bind nonEmpty).getD "http".toList
  if trustProxy.isOn then (forwarded scope "x-forwarded-proto".toList).getD scheme else scheme

/-- The host of the request, with its port. -/
def requestHost (scope : Scope) (trustProxy : TrustProxy) : Option Str :=
  let host := scope.header "host".toList
  if trustProxy.isOn then (forwarded scope "x-forwarded-host".toList).or host else host

/-- `is_same_origin`. -/
def isSameOrigin (p : Platform) (origin : Option Str) (scope : Scope) (trustProxy : TrustProxy) : Bool :=
  match origin.bind nonEmpty with
  | none => false
  | some origin =>
    match urlsplit p.library (Origins.rstripSlash (strip origin)) with
    | none => false
    | some o =>
      if o.path ≠ [] ∨ o.query ≠ [] ∨ o.fragment ≠ [] then false
      else match normalizeOrigin p o.scheme o.netloc with
        | none => false
        | some actual =>
          match (requestHost scope trustProxy).bind nonEmpty with
          | none => false
          | some host => some actual = normalizeOrigin p (requestScheme scope trustProxy) host

/-- `origin_allowed` with a scope. -/
def originAllowed (p : Platform) (origin : Option Str) (allowed : List Str) (scope : Scope) (trustProxy : TrustProxy) :
    Bool :=
  match origin.bind nonEmpty with
  | none => false
  | some origin => isSameOrigin p (some origin) scope trustProxy || Origins.originAllowed p.caseTable origin allowed

/-- Whether `WebSocketOriginMiddleware` lets an upgrade through.  The checks of the MCP endpoint are the same. -/
def upgradeAllowed (p : Platform) (allowed : List Str) (trustProxy : TrustProxy) (scope : Scope) : Bool :=
  match scope.header "origin".toList with
  | none => true
  | some origin => originAllowed p (some origin) allowed scope trustProxy

/-- `has_bearer`. -/
def hasBearer (p : Platform) (scope : Scope) : Bool :=
  let auth := (scope.header "authorization".toList).getD []
  lower p.caseTable (auth.take 7) = "bearer ".toList && strip (auth.drop 7) ≠ []

/-- `SAFE_METHODS`. -/
def isSafeMethod (method : Str) : Bool := method ∈ ["GET".toList, "HEAD".toList, "OPTIONS".toList]

/-- Whether `authenticate_request` goes on to the adapter; `method` is in capitals. -/
def adapterAsked (p : Platform) (allowed : List Str) (trustProxy : TrustProxy) (method : Str) (scope : Scope) : Bool :=
  isSafeMethod method || hasBearer p scope || originAllowed p (scope.header "origin".toList) allowed scope trustProxy

/-! ### Origins, and how they are written -/

/-- An origin: scheme, host and port. -/
@[ext] structure WebOrigin where
  secure : Bool
  authority : Authority

namespace WebOrigin

def scheme (o : WebOrigin) : Str := if o.secure then "https".toList else "http".toList

def defaultPort (o : WebOrigin) : Nat := if o.secure then 443 else 80

/-- The `Origin` header that a browser sends. -/
def text (o : WebOrigin) : Str := o.scheme ++ ':' :: '/' :: '/' :: o.authority.text o.defaultPort

end WebOrigin

/-- A scheme in any letters, that of WebSockets included. -/
def SpellsScheme (o : WebOrigin) (text : Str) : Prop := webScheme (text.map Char.toLower) = o.scheme

/-- An `Origin` header, perhaps with slashes at its end. -/
def SpellsOrigin (o : WebOrigin) (header : Str) : Prop :=
  ∃ scheme text n, header = scheme ++ ':' :: '/' :: '/' :: text ++ List.replicate n '/' ∧ SpellsScheme o scheme ∧
    Url.Spells o.defaultPort o.authority text

/-- The request goes to the origin `o`. -/
structure Serves (scope : Scope) (trustProxy : TrustProxy) (o : WebOrigin) : Prop where
  scheme : SpellsScheme o (requestScheme scope trustProxy)
  host : ∃ text, requestHost scope trustProxy = some text ∧ Url.Spells o.defaultPort o.authority text

section

variable {p : Platform} {scope : Scope} {trustProxy : TrustProxy} {o r : WebOrigin} {text origin : Str}

private theorem spellsScheme_cases (h : SpellsScheme o text) : text.map Char.toLower = "http".toList ∨
    text.map Char.toLower = "https".toList ∨ text.map Char.toLower = "ws".toList ∨
    text.map Char.toLower = "wss".toList := by
  unfold SpellsScheme webScheme at h
  split at h
  · next hws => exact .inr (.inr (.inl hws))
  · split at h
    · next hwss => exact .inr (.inr (.inr hwss))
    · unfold WebOrigin.scheme at h
      split at h
      · exact .inr (.inl h)
      · exact .inl h

private theorem isAlpha_of_toLower {c : Char} (h : c.toLower ∈ ['h', 't', 'p', 's', 'w']) : c.isAlpha = true := by
  unfold Char.toLower at h
  split at h
  · next hupper =>
    have hup : c.isUpper = true := by
      simp only [Char.isUpper, decide_eq_true_eq]
      exact hupper
    rw [Char.isAlpha, hup, Bool.true_or]
  · fin_cases h <;> rfl

theorem SpellsScheme.letters (h : SpellsScheme o text) : ∀ c ∈ text, c.isAlpha = true := by
  intro c hc
  have hmem : c.toLower ∈ text.map Char.toLower := List.mem_map_of_mem hc
  refine isAlpha_of_toLower ?_
  rcases spellsScheme_cases h with heq | heq | heq | heq <;>
  · rw [heq] at hmem
    revert hmem
    generalize c.toLower = d
    intro hmem
    fin_cases hmem <;> decide

theorem SpellsScheme.ne_nil (h : SpellsScheme o text) : text ≠ [] := by
  rintro rfl
  rcases spellsScheme_cases h with heq | heq | heq | heq <;> cases heq

private theorem graphic_of_isAlpha {c : Char} (h : c.isAlpha = true) : Graphic c := by
  simp only [Char.isAlpha, Char.isUpper, Char.isLower, Bool.or_eq_true, Bool.and_eq_true, decide_eq_true_eq,
    UInt32.le_iff_toNat_le, ge_iff_le] at h
  have hval : c.toNat = c.val.toNat := rfl
  have hA : 'A'.val.toNat = 65 := rfl
  have hZ : 'Z'.val.toNat = 90 := rfl
  have ha : 'a'.val.toNat = 97 := rfl
  have hz : 'z'.val.toNat = 122 := rfl
  unfold Graphic
  omega

private theorem graphic_of_spells {default : Nat} {a : Authority} (h : Url.Spells default a text) :
    ∀ c ∈ text, Graphic c := by
  intro c hc
  rcases h.chars c hc with hhost | rfl | rfl
  · obtain ⟨hlo, hhi, -⟩ := Url.isHostChar_iff.1 hhost
    exact ⟨hlo, Nat.le_of_lt_succ hhi⟩
  · exact ⟨by decide, by decide⟩
  · exact ⟨by decide, by decide⟩

private theorem strip_graphic (h : ∀ c ∈ text, Graphic c) :
    strip text = text := strip_eq_self fun c hc => (h c hc).isSpace

/-- The scheme as `_normalize_origin` has it. -/
theorem SpellsScheme.normalized (h : SpellsScheme o text) : webScheme (lower p.caseTable (strip text)) = o.scheme := by
  have hgraphic : ∀ c ∈ text, Graphic c := fun c hc => graphic_of_isAlpha (h.letters c hc)
  rw [strip_graphic hgraphic, lower_graphic hgraphic]
  exact h

private theorem defaultPort_scheme : defaultPort o.scheme = some o.defaultPort := by
  unfold WebOrigin.scheme WebOrigin.defaultPort
  split <;> rfl

private theorem scheme_inj (h : o.scheme = r.scheme) : o.secure = r.secure := by
  unfold WebOrigin.scheme at h
  cases ho : o.secure <;> cases hr : r.secure <;> simp [ho, hr] at h ⊢

private theorem lower_host (s : Str) (h : ∀ c ∈ s, Url.isHostChar c = true) :
    p.library.lower s = s.map Char.toLower := by
  refine lower_graphic fun c hc => ?_
  obtain ⟨hlo, hhi, -⟩ := Url.isHostChar_iff.1 (h c hc)
  exact ⟨hlo, Nat.le_of_lt_succ hhi⟩

private theorem normalizeOrigin_spells {scheme : Str} (hscheme : SpellsScheme o scheme)
    (h : Url.Spells o.defaultPort o.authority text) (hknown : AddressesKnown p.library o.authority) :
    normalizeOrigin p scheme text = some (o.scheme, o.authority.host, o.authority.port) := by
  obtain ⟨number, hnumber, hport⟩ := Url.port_spells h
  have hsplit := Url.urlsplit_authority h hknown
  have hhost := Url.hostname_spells h (lower_host (p := p))
  have hlower : lower p.caseTable o.authority.host = o.authority.host := by
    have hchars := o.authority.host_chars
    rw [show lower p.caseTable = p.library.lower from rfl, lower_host _ fun c hc => (hchars c hc).1]
    exact (List.map_congr_left fun c hc => (hchars c hc).2).trans (List.map_id _)
  unfold normalizeOrigin
  simp only [hscheme.normalized, defaultPort_scheme, if_neg h.ne_nil, strip_graphic (graphic_of_spells h), hsplit,
    Option.bind_eq_bind, Option.bind_some, hhost, Option.getD_some, hlower, hnumber, if_neg o.authority.host_ne_nil,
    hport]

private theorem rstripSlash_append_replicate {s : Str} (h : s.getLast? ≠ some '/') (n : Nat) :
    Origins.rstripSlash (s ++ List.replicate n '/') = s := by
  unfold Origins.rstripSlash
  induction n with
  | zero =>
    rw [List.replicate_zero, List.append_nil, List.rdropWhile_eq_self_iff]
    intro hne hlast
    refine h ?_
    rw [List.getLast?_eq_getLast_of_ne_nil hne, of_decide_eq_true hlast]
  | succ n ih =>
    rw [List.replicate_succ', ← List.append_assoc, List.rdropWhile_concat_pos _ _ _ (by simp)]
    exact ih

/-- The split of a header. -/
private theorem urlsplit_spells (h : SpellsOrigin o origin) (hknown : AddressesKnown p.library o.authority) :
    ∃ scheme text, urlsplit p.library (Origins.rstripSlash (strip origin)) = some ⟨scheme, text, [], [], []⟩ ∧
      SpellsScheme o scheme ∧ Url.Spells o.defaultPort o.authority text := by
  obtain ⟨scheme, text, n, rfl, hscheme, htext⟩ := h
  have hgraphic : ∀ c ∈ scheme ++ ':' :: '/' :: '/' :: text ++ List.replicate n '/', Graphic c := by
    simp only [List.mem_append, List.mem_cons, List.mem_replicate]
    rintro c ((hc | rfl | rfl | rfl | hc) | ⟨-, rfl⟩)
    · exact graphic_of_isAlpha (hscheme.letters c hc)
    · exact ⟨by decide, by decide⟩
    · exact ⟨by decide, by decide⟩
    · exact ⟨by decide, by decide⟩
    · exact graphic_of_spells htext c hc
    · exact ⟨by decide, by decide⟩
  have hstrip : Origins.rstripSlash (scheme ++ ':' :: '/' :: '/' :: text ++ List.replicate n '/') =
      scheme ++ ':' :: '/' :: '/' :: text := by
    refine rstripSlash_append_replicate (fun hlast => ?_) n
    obtain ⟨init, c, rfl⟩ := (List.eq_nil_or_concat text).resolve_left htext.ne_nil
    have hc : c = '/' := by simpa [List.getLast?_cons] using hlast
    exact htext.notMem (c := '/') (by decide) (by decide) (by decide) (by simp [hc])
  rw [strip_graphic hgraphic, hstrip, Url.urlsplit_origin htext hknown hscheme.ne_nil hscheme.letters]
  refine ⟨_, text, rfl, ?_, htext⟩
  have hlower : p.library.lower scheme = scheme.map Char.toLower :=
    lower_graphic fun c hc => graphic_of_isAlpha (hscheme.letters c hc)
  have hagain : (scheme.map Char.toLower).map Char.toLower = scheme.map Char.toLower := by
    rcases spellsScheme_cases hscheme with heq | heq | heq | heq <;>
    · rw [heq]
      rfl
  rw [hlower, SpellsScheme, hagain]
  exact hscheme

private theorem isSameOrigin_iff (horigin : SpellsOrigin o origin) (hserves : Serves scope trustProxy r)
    (ho : AddressesKnown p.library o.authority) (hr : AddressesKnown p.library r.authority) :
    isSameOrigin p (some origin) scope trustProxy = true ↔ o = r := by
  obtain ⟨scheme, text, hsplit, hscheme, htext⟩ := urlsplit_spells horigin ho
  obtain ⟨host, hhost, hauthority⟩ := hserves.host
  have hne : origin ≠ [] := by
    obtain ⟨scheme, text, n, rfl, hscheme, -⟩ := horigin
    simp
  unfold isSameOrigin
  simp only [Option.bind_some, nonEmpty, if_neg hne, hsplit, ne_eq, not_true_eq_false, or_self, if_false,
    normalizeOrigin_spells hscheme htext ho, hhost, if_neg hauthority.ne_nil,
    normalizeOrigin_spells hserves.scheme hauthority hr, decide_eq_true_eq, Option.some.injEq, Prod.mk.injEq]
  constructor
  · rintro ⟨hsecure, hname, hnumber⟩
    exact WebOrigin.ext (scheme_inj hsecure) (Authority.ext hname hnumber)
  · rintro rfl
    exact ⟨rfl, rfl, rfl⟩

/-- A browser's header is one of the ways to write an origin. -/
theorem spellsOrigin_text (o : WebOrigin) : SpellsOrigin o o.text := by
  refine ⟨o.scheme, _, 0, (List.append_nil _).symm, ?_, Url.spells_text _ _⟩
  unfold SpellsScheme WebOrigin.scheme
  split <;> decide

/-- However the `Origin` header and the request's own origin are written, they are compared as origins; so an upgrade,
and a request with an adapter's credentials that may change something, come from a page of the server's own origin or
one that the list allows. -/
theorem same_origin_iff (horigin : SpellsOrigin o origin) (hserves : Serves scope trustProxy r)
    (ho : AddressesKnown p.library o.authority) (hr : AddressesKnown p.library r.authority)
    (hheader : scope.header "origin".toList = some origin) (allowed : List Str) :
    (isSameOrigin p (some origin) scope trustProxy = true ↔ o = r) ∧
      (upgradeAllowed p allowed trustProxy scope = true ↔
        o = r ∨ Origins.originAllowed p.caseTable origin allowed = true) ∧
      ∀ method, adapterAsked p allowed trustProxy method scope = true ↔
        isSafeMethod method = true ∨ hasBearer p scope = true ∨ o = r ∨
          Origins.originAllowed p.caseTable origin allowed = true := by
  have hsame := isSameOrigin_iff horigin hserves ho hr
  have hne : origin ≠ [] := by
    obtain ⟨scheme, text, n, rfl, -⟩ := horigin
    simp
  have hallowed : originAllowed p (some origin) allowed scope trustProxy = true ↔
      o = r ∨ Origins.originAllowed p.caseTable origin allowed = true := by
    simp only [originAllowed, Option.bind_some, nonEmpty, if_neg hne, Bool.or_eq_true, hsame]
  refine ⟨hsame, ?_, fun method => ?_⟩
  · simp only [upgradeAllowed, hheader, hallowed]
  · simp only [adapterAsked, hheader, Bool.or_eq_true, hallowed, or_assoc]

end

/-- Capital letters and a slash in the header, and an address in brackets. -/
theorem same_origin_iff_address :
    let p : Platform := ⟨fun _ _ _ => [], id, fun _ => true⟩
    let origin := "HTTP://[::1]:8048/".toList
    let scope : Scope := { headers := [("Host".toList, "[::1]:8048".toList), ("Origin".toList, origin)] }
    isSameOrigin p (some origin) scope .none = true ∧ upgradeAllowed p [] .none scope = true := by
  intro p origin scope
  have hchars : "::1".toList.all (fun c => Url.isHostChar c && c.toLower = c) = true := by decide
  let o : WebOrigin := ⟨false, "::1".toList, 8048, by decide, fun c hc => by
    simpa using List.all_eq_true.1 hchars c hc, by decide⟩
  have hport : Url.SpellsPort 80 8048 ":8048".toList := .digits "8048".toList (by decide) (by decide) (by decide)
  have htext : Url.Spells 80 o.authority "[::1]:8048".toList := ⟨"::1".toList, ":8048".toList, rfl, rfl, hport⟩
  have horigin : SpellsOrigin o origin := ⟨"HTTP".toList, "[::1]:8048".toList, 1, rfl, rfl, htext⟩
  have hserves : Serves scope .none o := ⟨rfl, "[::1]:8048".toList, by decide, htext⟩
  obtain ⟨hsame, hupgrade, -⟩ := same_origin_iff (p := p) horigin hserves (fun _ _ _ => rfl) (fun _ _ _ => rfl)
    (by decide) []
  exact ⟨hsame.2 rfl, hupgrade.2 (.inl rfl)⟩

end SameOrigin

end CliServer
