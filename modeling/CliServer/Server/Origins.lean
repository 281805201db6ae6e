import CliServer.Text
import CliServer.Lib.Fnmatch

/-!
# Allowed origins

The CORS middleware and `origin_allowed` are given the same list.  Both take an entry with a `*` for a pattern and any
other entry for an origin, less the slashes at its end (`Admits`).  But `origin_allowed` compares in lower case, and
without the slashes at the end of the header, and CORS compares as it is: so they agree where this changes nothing
(`origin_checks_agree`).
-/

namespace CliServer

namespace Origins

open Fnmatch (fnmatchcase translate IsLiteral)

/-- `rstrip("/")`. -/
def rstripSlash (s : Str) : Str := s.rdropWhile (· = '/')

/-- `rstrip("/").lower()`. -/
def normalize (t : CaseTable) (s : Str) : Str := lower t (rstripSlash s)

/-- `origin_allowed` of an `Origin` header, without a scope. -/
def originAllowed (t : CaseTable) (origin : Str) (allowed : List Str) : Bool :=
  if origin = [] then false
  else
    let origin := normalize t origin
    allowed.any fun pattern =>
      let pattern := normalize t pattern
      pattern = ['*'] || pattern = origin || fnmatchcase origin pattern

/-- `origins_regex`. -/
def originsRegex (allowed : List Str) : Option (Regex Char) :=
  let globs := allowed.filter fun o => '*' ∈ o ∧ o ≠ ['*']
  if globs = [] then none else some ((globs.map fun g => translate (rstripSlash g)).foldr .alt .empty)

/-- The entries without a `*`, less their slashes at the end. -/
def exactOrigins (allowed : List Str) : List Str := (allowed.filter fun o => '*' ∉ o).map rstripSlash

/-- The options that `_configure_cors` reads. -/
structure CorsOptions where
  cors : Option Bool := none
  corsOrigins : Option (List Str) := none
  allowedOrigins : Option (List Str) := none

/-- The origins of `CORSMiddleware`. -/
structure CorsMiddleware where
  allowOrigins : List Str
  allowOriginRegex : Option (Regex Char)

/-- `_configure_cors`; `none` when CORS is off. -/
def configureCors (opts : CorsOptions) : Option CorsMiddleware :=
  let origins := match opts.corsOrigins with
    | some origins => origins
    | none => opts.allowedOrigins.getD []
  let enabled := opts.cors.getD (origins ≠ [])
  if !enabled then none
  else
    let origins := if origins ≠ [] then origins else [['*']]
    let wildcard := ['*'] ∈ origins
    some { allowOrigins := if wildcard then [['*']] else exactOrigins origins
           allowOriginRegex := if wildcard then none else originsRegex origins }

/-- Whether the middleware allows an origin: any, by a full match of the regex, or by the list. -/
def CorsMiddleware.allows (middleware : CorsMiddleware) (origin : Str) : Bool :=
  ['*'] ∈ middleware.allowOrigins || middleware.allowOriginRegex.any (·.accepts origin) || origin ∈
    middleware.allowOrigins

/-- Whether CORS accepts an origin when these are allowed. -/
def corsAccepts (allowed : List Str) (origin : Str) : Bool :=
  (configureCors { allowedOrigins := some allowed }).any (·.allows origin)

/-- An entry with a `*` is a pattern, and any other an origin; both sides are changed before they are compared. -/
def Admits (entry origin : Str → Str) (allowed : List Str) (o : Str) : Prop :=
  ∃ e ∈ allowed, if '*' ∈ e then fnmatchcase (origin o) (entry e) = true else entry e = origin o

section Cors

variable {allowed : List Str} {origin : Str}

private theorem mem_of_mem_rstripSlash {c : Char} {s : Str} (h : c ∈ rstripSlash s) : c ∈ s :=
  (List.rdropWhile_prefix _ s).subset h

/-- The alternatives of the regex are the patterns. -/
private theorem accepts_alts_iff {rs : List (Regex Char)} {w : Str} :
    (rs.foldr Regex.alt Regex.empty).accepts w = true ↔ ∃ r ∈ rs, r.accepts w = true := by
  simp only [Regex.accepts_iff]
  induction rs with
  | nil => simp
  | cons r rs ih => rw [List.foldr_cons, Regex.mem_lang_alt, ih, List.exists_mem_cons_iff]

private theorem originsRegex_iff (hbare : ['*'] ∉ allowed) :
    (originsRegex allowed).any (·.accepts origin) = true ↔
      ∃ e ∈ allowed, '*' ∈ e ∧ fnmatchcase origin (rstripSlash e) = true := by
  have hglobs : ∀ e, e ∈ allowed.filter (fun o => '*' ∈ o ∧ o ≠ ['*']) ↔ e ∈ allowed ∧ '*' ∈ e := by
    intro e
    rw [List.mem_filter, decide_eq_true_eq]
    exact ⟨fun h => ⟨h.1, h.2.1⟩, fun h => ⟨h.1, h.2, fun heq => hbare (heq ▸ h.1)⟩⟩
  rw [originsRegex]
  split
  · next hnil =>
    simp only [Option.any_none, Bool.false_eq_true, false_iff, not_exists, not_and]
    intro e he hstar
    have hmem := (hglobs e).2 ⟨he, hstar⟩
    rw [hnil] at hmem
    cases hmem
  · rw [Option.any_some, accepts_alts_iff]
    constructor
    · rintro ⟨r, hr, haccepts⟩
      obtain ⟨e, he, rfl⟩ := List.mem_map.1 hr
      obtain ⟨hmem, hstar⟩ := (hglobs e).1 he
      exact ⟨e, hmem, hstar, haccepts⟩
    · rintro ⟨e, hmem, hstar, haccepts⟩
      exact ⟨_, List.mem_map_of_mem ((hglobs e).2 ⟨hmem, hstar⟩), haccepts⟩

/-- CORS compares the entries, less their slashes at the end, with the header as it is. -/
private theorem corsAccepts_iff (hbare : ['*'] ∉ allowed) :
    corsAccepts allowed origin = true ↔ Admits rstripSlash id allowed origin := by
  have hsplit : Admits rstripSlash id allowed origin ↔
      (∃ e ∈ allowed, '*' ∈ e ∧ fnmatchcase origin (rstripSlash e) = true) ∨
        ∃ e ∈ allowed, '*' ∉ e ∧ rstripSlash e = origin := by
    rw [Admits, ← exists_or]
    refine exists_congr fun e => ?_
    by_cases hstar : '*' ∈ e <;> simp [hstar]
  by_cases hnil : allowed = []
  · subst hnil
    simp [corsAccepts, configureCors, Admits]
  · have hexact : ['*'] ∉ exactOrigins allowed := by
      intro hmem
      obtain ⟨e, he, heq⟩ := List.mem_map.1 hmem
      have hstar : '*' ∈ e := mem_of_mem_rstripSlash (heq ▸ List.mem_cons_self)
      exact absurd hstar (by simpa using (List.mem_filter.1 he).2)
    have hmem : origin ∈ exactOrigins allowed ↔ ∃ e ∈ allowed, '*' ∉ e ∧ rstripSlash e = origin := by
      simp only [exactOrigins, List.mem_map, List.mem_filter, decide_eq_true_eq, and_assoc]
    have hallows : corsAccepts allowed origin = ((originsRegex allowed).any (·.accepts origin) ||
        decide (origin ∈ exactOrigins allowed)) := by
      simp [corsAccepts, configureCors, CorsMiddleware.allows, hnil, hbare, hexact]
    rw [hallows, Bool.or_eq_true, originsRegex_iff hbare, decide_eq_true_eq, hmem, hsplit]

end Cors

section Allowed

variable {t : CaseTable} {allowed : List Str} {origin : Str}

private theorem fnmatchcase_star (s : Str) : fnmatchcase s ['*'] = true := by
  rw [fnmatchcase, Regex.accepts_iff]
  exact Regex.mem_lang_cat.2 ⟨s, Regex.mem_lang_star_set.2 fun c _ => rfl, [], Regex.mem_lang_eps.2 rfl,
    List.append_nil s⟩

/-- `origin_allowed` compares both sides in lower case, without slashes at the end: an entry without a `*` that has no
other special character is one origin, and a pattern that is the origin itself matches it unless it has a set. -/
private theorem originAllowed_iff (hne : origin ≠ [])
    (hliteral : ∀ e ∈ allowed, '*' ∉ e → IsLiteral (normalize t e))
    (hself : ∀ e ∈ allowed, '*' ∈ e → normalize t e = normalize t origin → '[' ∉ normalize t e) :
    originAllowed t origin allowed = true ↔ Admits (normalize t) (normalize t) allowed origin := by
  rw [originAllowed, if_neg hne, List.any_eq_true, Admits]
  refine exists_congr fun e => and_congr_right fun he => ?_
  simp only [Bool.or_eq_true, decide_eq_true_eq]
  split
  · next hstar =>
    constructor
    · rintro ((hany | heq) | hmatch)
      · rw [hany]
        exact fnmatchcase_star _
      · rw [← heq]
        exact Fnmatch.fnmatchcase_self (hself e he hstar heq)
      · exact hmatch
    · exact .inr
  · next hstar =>
    have hchars := hliteral e he hstar
    constructor
    · rintro ((hany | heq) | hmatch)
      · rw [hany] at hchars
        exact absurd List.mem_cons_self hchars.1
      · exact heq
      · exact ((Fnmatch.fnmatchcase_literal_iff hchars).1 hmatch).symm
    · exact fun heq => .inl (.inr heq)

/-- For a list without a bare `*` both checks are `Admits`: CORS of the header as it is, `origin_allowed` in lower
case and without the slashes at the end of the header.  So they agree where that changes neither the entries nor the
header. -/
theorem origin_checks_agree (t : CaseTable) (allowed : List Str) (origin : Str) (hbare : ['*'] ∉ allowed)
    (hne : origin ≠ []) (hliteral : ∀ e ∈ allowed, '*' ∉ e → IsLiteral (normalize t e))
    (hself : ∀ e ∈ allowed, '*' ∈ e → normalize t e = normalize t origin → '[' ∉ normalize t e) :
    (corsAccepts allowed origin = true ↔ Admits rstripSlash id allowed origin) ∧
      (originAllowed t origin allowed = true ↔ Admits (normalize t) (normalize t) allowed origin) ∧
      ((∀ e ∈ allowed, normalize t e = rstripSlash e) → normalize t origin = origin →
        originAllowed t origin allowed = corsAccepts allowed origin) := by
  have hcors : corsAccepts allowed origin = true ↔ Admits rstripSlash id allowed origin := corsAccepts_iff hbare
  have hallowed := originAllowed_iff hne hliteral hself
  refine ⟨hcors, hallowed, fun hentries horigin => ?_⟩
  have hsame : Admits (normalize t) (normalize t) allowed origin ↔ Admits rstripSlash id allowed origin := by
    refine exists_congr fun e => and_congr_right fun he => ?_
    rw [hentries e he, horigin, id_eq]
  rw [Bool.eq_iff_iff, hallowed, hcors, hsame]

theorem origin_checks_agree_app :
    let t : CaseTable := fun _ _ _ => []
    let allowed := ["https://app.test".toList, "http://127.0.0.1:*".toList]
    let origin := "http://127.0.0.1:80".toList
    corsAccepts allowed origin = true ∧ originAllowed t origin allowed = corsAccepts allowed origin := by
  intro t allowed origin
  have hbare : ['*'] ∉ allowed := by decide +kernel
  have hliteral : ∀ e ∈ allowed, '*' ∉ e → IsLiteral (normalize t e) := by decide +kernel
  have hself : ∀ e ∈ allowed, '*' ∈ e → normalize t e = normalize t origin → '[' ∉ normalize t e := by decide +kernel
  have hentries : ∀ e ∈ allowed, normalize t e = rstripSlash e := by decide +kernel
  exact ⟨by decide +kernel,
    (origin_checks_agree t allowed origin hbare (by decide +kernel) hliteral hself).2.2 hentries (by decide +kernel)⟩

/-- The checks differ on a capital letter in an entry or in the header, on a slash at the end of the header, on a set
in an entry without a `*`, on a set that is in the header as well, and on an empty header. -/
theorem origin_checks_differ :
    let t : CaseTable := fun _ _ _ => []
    let differ (entry origin : String) : Bool :=
      originAllowed t origin.toList [entry.toList] && !corsAccepts [entry.toList] origin.toList
    differ "https://App.test" "https://app.test" = true ∧ differ "https://app.test" "https://APP.test" = true ∧
      differ "https://app.test" "https://app.test/" = true ∧ differ "http://[::1]:80" "http://1:80" = true ∧
      differ "http://[*]" "http://[*]" = true ∧
      corsAccepts ["/".toList] [] = true ∧ originAllowed t [] ["/".toList] = false := by
  decide +kernel

end Allowed

end Origins

end CliServer
