import CliServer.Lib.Regex
import CliServer.Lib.Wildcard
import CliServer.Text

/-!
# Permissions

`permission_matches`, its use on lists of permissions, and the permissions `validate_permissions` accepts.  A permission
is read as the pattern of its segments, so coverage is the pattern test of `Wildcard`: sound, except that `b:*` also
grants `b`, which the test does not look at.  `coverage_sound_iff` says that this is the only exception.
-/

namespace CliServer

variable (t : CaseTable)

/-- An error of the users plugin, with its HTTP status. -/
structure UsersApiError where
  status : Nat
  message : Str
  deriving DecidableEq, Repr

def badRequest (message : Str) : UsersApiError := ⟨400, message⟩

/-- The segments of a permission, as the code compares them. -/
def segments (p : Str) : List Str := (lower t (strip p)).splitOn ':'

/-- `permission_matches`. -/
def permissionMatches (granted required : Str) : Bool :=
  Wildcard.accepts ['*'] (segments t granted) (segments t required)

/-- `has_permission`. -/
def hasPermission (granted : List Str) (required : Str) : Bool :=
  granted.any fun p => permissionMatches t p required

/-- The rest of `merge_permissions`, after the permissions in `seen`. -/
def mergeFrom (seen : List Str) : List Str → List Str
  | [] => []
  | p :: ps =>
    let key := strip p
    if key ≠ [] ∧ lower t key ∉ seen then key :: mergeFrom (lower t key :: seen) ps
    else mergeFrom seen ps

/-- `merge_permissions`. -/
def mergePermissions (lists : List (List Str)) : List Str := mergeFrom t [] lists.flatten

/-- `covers`. -/
def covers (granted required : List Str) : Bool := required.all fun p => hasPermission t granted p

/-- `uncovered`. -/
def uncovered (granted required : List Str) : List Str := required.filter fun p => !hasPermission t granted p

/-! ### Validation -/

/-- `[a-z0-9_.-]`, ignoring case. -/
def isPermissionChar (c : Char) : Bool :=
  c.isAlphanum || c ∈ ['_', '.', '-', '\u0130', '\u0131', '\u017f', '\u212a']

/-- `PERMISSION_RE`, between its anchors. -/
def permissionRe : Regex Char :=
  .alt (.lit ['*'])
    (.cat (.plus (.set isPermissionChar))
      (.star (.cat (.lit [':']) (.alt (.plus (.set isPermissionChar)) (.lit ['*'])))))

/-- `PERMISSION_MAX`. -/
def permissionMax : Nat := 128

/-- Whether `validate_permissions` accepts a permission. -/
def validPermission (raw : Str) : Bool :=
  strip raw ≠ [] ∧ (strip raw).length ≤ permissionMax ∧ Regex.acceptsLine '\n' permissionRe (strip raw)

/-- `sanitize`, of a text that is given. -/
def sanitize (value : Str) (maxLen : Nat) : Str :=
  (value.filter fun c => !(c.toNat < 0x20 || c = '\u007f')).take maxLen

/-- `validate_permissions` of the permissions left, after those in `out`. -/
def validateEach (out : List Str) : List Str → Except UsersApiError (List Str)
  | [] => .ok out
  | raw :: rest =>
    if validPermission raw then
      if lower t (strip raw) ∈ out.map (lower t) then validateEach out rest
      else validateEach (out ++ [strip raw]) rest
    else .error (badRequest ("invalid permission: ".toList ++ sanitize raw permissionMax))

/-- `validate_permissions`. -/
def validatePermissions : Option (List Str) → Except UsersApiError (Option (List Str))
  | none => .ok none
  | some permissions =>
    if 100 < permissions.length then .error (badRequest "at most 100 permissions per group".toList)
    else (validateEach t [] permissions).map some

/-! ### Matching lists -/

variable {t}

theorem hasPermission_iff {granted : List Str} {r : Str} :
    hasPermission t granted r = true ↔ ∃ p ∈ granted, permissionMatches t p r = true := List.any_eq_true

private theorem hasPermission_eq_anyAccepts (granted : List Str) (r : Str) :
    hasPermission t granted r = Wildcard.anyAccepts ['*'] (granted.map (segments t)) (segments t r) := by
  simp [hasPermission, Wildcard.anyAccepts, permissionMatches, List.any_map, Function.comp_def]

theorem covers_iff {granted required : List Str} :
    covers t granted required = true ↔ ∀ p ∈ required, hasPermission t granted p = true := List.all_eq_true

/-- Matching depends on a permission only up to case and surrounding white space. -/
private theorem permissionMatches_congr {p q r : Str} (h : lower t (strip p) = lower t (strip q)) :
    permissionMatches t p r = permissionMatches t q r := by
  unfold permissionMatches segments
  rw [h]

private theorem permissionMatches_strip (p r : Str) : permissionMatches t (strip p) r = permissionMatches t p r :=
  permissionMatches_congr (by rw [strip_strip])

theorem hasPermission_strip (granted : List Str) (r : Str) :
    hasPermission t granted (strip r) = hasPermission t granted r := by
  simp only [hasPermission, permissionMatches, segments, strip_strip]

private theorem hasPermission_mergeFrom {seen ps : List Str} {r : Str} :
    hasPermission t (mergeFrom t seen ps) r = true ↔
      ∃ p ∈ ps, strip p ≠ [] ∧ lower t (strip p) ∉ seen ∧ permissionMatches t p r = true := by
  induction ps generalizing seen with
  | nil => simp [mergeFrom, hasPermission]
  | cons q ps ih =>
    simp only [mergeFrom]
    by_cases hq : strip q ≠ [] ∧ lower t (strip q) ∉ seen
    · rw [if_pos hq, hasPermission_iff]
      constructor
      · rintro ⟨p, hp, hpr⟩
        rcases List.mem_cons.1 hp with rfl | hp
        · exact ⟨q, List.mem_cons_self, hq.1, hq.2, by rwa [permissionMatches_strip] at hpr⟩
        · obtain ⟨p', hp', hne, hseen, hpr'⟩ := ih.1 (hasPermission_iff.2 ⟨p, hp, hpr⟩)
          exact ⟨p', List.mem_cons_of_mem _ hp', hne, fun h => hseen (List.mem_cons_of_mem _ h), hpr'⟩
      · rintro ⟨p, hp, hne, hseen, hpr⟩
        by_cases heq : lower t (strip p) = lower t (strip q)
        · refine ⟨strip q, List.mem_cons_self, ?_⟩
          rw [permissionMatches_strip, ← permissionMatches_congr heq]
          exact hpr
        · rcases List.mem_cons.1 hp with rfl | hp
          · exact absurd rfl heq
          · have hseen' : lower t (strip p) ∉ lower t (strip q) :: seen := by simp [heq, hseen]
            obtain ⟨p', hp', hpr'⟩ := hasPermission_iff.1 (ih.2 ⟨p, hp, hne, hseen', hpr⟩)
            exact ⟨p', List.mem_cons_of_mem _ hp', hpr'⟩
    · rw [if_neg hq, ih]
      constructor
      · rintro ⟨p, hp, h⟩
        exact ⟨p, List.mem_cons_of_mem _ hp, h⟩
      · rintro ⟨p, hp, hne, hseen, hpr⟩
        rcases List.mem_cons.1 hp with rfl | hp
        · exact absurd ⟨hne, hseen⟩ hq
        · exact ⟨p, hp, hne, hseen, hpr⟩

private theorem mem_mergeFrom {seen ps : List Str} {q : Str} (h : q ∈ mergeFrom t seen ps) :
    ∃ p ∈ ps, q = strip p := by
  induction ps generalizing seen with
  | nil => cases h
  | cons p ps ih =>
    simp only [mergeFrom] at h
    split at h
    · rcases List.mem_cons.1 h with rfl | h
      · exact ⟨p, List.mem_cons_self, rfl⟩
      · obtain ⟨p', hp', rfl⟩ := ih h
        exact ⟨p', List.mem_cons_of_mem _ hp', rfl⟩
    · obtain ⟨p', hp', rfl⟩ := ih h
      exact ⟨p', List.mem_cons_of_mem _ hp', rfl⟩

theorem mem_mergePermissions {lists : List (List Str)} {q : Str} (h : q ∈ mergePermissions t lists) :
    ∃ l ∈ lists, ∃ p ∈ l, q = strip p := by
  obtain ⟨p, hp, rfl⟩ := mem_mergeFrom h
  obtain ⟨l, hl, hp⟩ := List.mem_flatten.1 hp
  exact ⟨l, hl, p, hp, rfl⟩

/-- Merged lists grant what one of the lists grants; blank permissions are dropped. -/
theorem hasPermission_mergePermissions {lists : List (List Str)} {r : Str} :
    hasPermission t (mergePermissions t lists) r = true ↔
      ∃ l ∈ lists, ∃ p ∈ l, strip p ≠ [] ∧ permissionMatches t p r = true := by
  rw [mergePermissions, hasPermission_mergeFrom]
  simp only [List.mem_flatten, List.not_mem_nil, not_false_eq_true, true_and]
  constructor
  · rintro ⟨p, ⟨l, hl, hp⟩, h⟩
    exact ⟨l, hl, p, hp, h⟩
  · rintro ⟨l, hl, p, hp, h⟩
    exact ⟨p, ⟨l, hl, hp⟩, h⟩

/-! ### Valid permissions, as segments -/

/-- A segment of letters, digits, `_`, `.` and `-`. -/
def PlainSegment (s : Str) : Prop := s ≠ [] ∧ ∀ c ∈ s, isPermissionChar c = true

/-- The segments of a valid permission: a single `*`, or a plain segment and then plain segments and `*`. -/
def ValidSegments : List Str → Prop
  | [] => False
  | s :: ss => (s = ['*'] ∧ ss = []) ∨ (PlainSegment s ∧ ∀ x ∈ ss, PlainSegment x ∨ x = ['*'])

private theorem colon_notMem {x : Str} (h : PlainSegment x ∨ x = ['*']) : ':' ∉ x := by
  rcases h with h | rfl
  · intro hc
    exact absurd (h.2 ':' hc) (by decide)
  · decide

private theorem splitOn_groups {s : Str} {us : List Str} (hs : ':' ∉ s) (hus : ∀ u ∈ us, ':' ∉ u) :
    (s ++ (us.map (':' :: ·)).flatten).splitOn ':' = s :: us := by
  induction us generalizing s with
  | nil => simpa using List.splitOn_eq_singleton hs
  | cons u us ih =>
    obtain ⟨hu, hus⟩ := List.forall_mem_cons.1 hus
    have hcons : s ++ ((u :: us).map (':' :: ·)).flatten = s ++ ':' :: (u ++ (us.map (':' :: ·)).flatten) := by simp
    rw [hcons, List.splitOn_append_cons_self_of_not_mem hs, ih hu hus]

private theorem flatten_groups (s : Str) (us : List Str) :
    s ++ (us.map (':' :: ·)).flatten = [':'].intercalate (s :: us) := by
  induction us generalizing s with
  | nil => simp [List.intercalate]
  | cons u us ih =>
    have hstep : [':'].intercalate (s :: u :: us) = s ++ ':' :: [':'].intercalate (u :: us) := by
      simp [List.intercalate]
    rw [hstep, ← ih]
    simp

/-- A group of `permissionRe`: a colon and a segment. -/
private theorem mem_lang_group {u : Str} :
    u ∈ (Regex.cat (.lit [':']) (.alt (.plus (.set isPermissionChar)) (.lit ['*']))).lang ↔
      ∃ x, u = ':' :: x ∧ (PlainSegment x ∨ x = ['*']) := by
  simp only [Regex.mem_lang_cat, Regex.mem_lang_lit, Regex.mem_lang_alt, Regex.mem_lang_plus_set]
  constructor
  · rintro ⟨_, rfl, x, hx, rfl⟩
    exact ⟨x, rfl, hx⟩
  · rintro ⟨x, rfl, hx⟩
    exact ⟨[':'], rfl, x, hx, rfl⟩

/-- `PERMISSION_RE`, read through the segments of the text. -/
private theorem accepts_permissionRe {w : Str} : permissionRe.accepts w = true ↔ ValidSegments (w.splitOn ':') := by
  rw [Regex.accepts_iff, permissionRe, Regex.mem_lang_alt, Regex.mem_lang_lit, Regex.mem_lang_cat]
  constructor
  · rintro (rfl | ⟨s, hs, v, hv, rfl⟩)
    · exact .inl ⟨rfl, rfl⟩
    · have hs : PlainSegment s := Regex.mem_lang_plus_set.1 hs
      obtain ⟨us, rfl, hus⟩ := Regex.mem_lang_star.1 hv
      obtain ⟨xs, rfl, hxs⟩ : ∃ xs : List Str, us = xs.map (':' :: ·) ∧ ∀ x ∈ xs, PlainSegment x ∨ x = ['*'] := by
        clear hv
        induction us with
        | nil => exact ⟨[], rfl, by simp⟩
        | cons u us ih =>
          obtain ⟨hu, hus'⟩ := List.forall_mem_cons.1 hus
          obtain ⟨xs, rfl, hxs⟩ := ih hus'
          obtain ⟨x, rfl, hx⟩ := mem_lang_group.1 hu
          exact ⟨x :: xs, rfl, List.forall_mem_cons.2 ⟨hx, hxs⟩⟩
      rw [splitOn_groups (colon_notMem (.inl hs)) fun x hx => colon_notMem (hxs x hx)]
      exact .inr ⟨hs, hxs⟩
  · intro h
    have hw : [':'].intercalate (w.splitOn ':') = w := List.intercalate_splitOn ':'
    cases hsegs : w.splitOn ':' with
    | nil => exact absurd hsegs (List.splitOn_ne_nil _ _)
    | cons s ss =>
      rw [hsegs] at h hw
      rcases h with ⟨rfl, rfl⟩ | ⟨hs, hss⟩
      · exact .inl hw.symm
      · rw [← flatten_groups] at hw
        refine .inr ⟨s, Regex.mem_lang_plus_set.2 hs, _, Regex.mem_lang_star.2 ⟨ss.map (':' :: ·), rfl, ?_⟩, hw⟩
        intro u hu
        obtain ⟨x, hx, rfl⟩ := List.mem_map.1 hu
        exact mem_lang_group.2 ⟨x, rfl, hss x hx⟩

/-- `validate_permissions` accepts the texts of valid segments, up to 128 characters. -/
private theorem validPermission_iff {raw : Str} : validPermission raw = true ↔
    (strip raw).length ≤ permissionMax ∧ ValidSegments ((strip raw).splitOn ':') := by
  have hlast : (strip raw).getLast? ≠ some '\n' := getLast?_strip_ne (by decide)
  constructor
  · intro h
    obtain ⟨hne, hlen, hre⟩ := of_decide_eq_true h
    rw [Regex.acceptsLine_of_getLast_ne _ hlast, accepts_permissionRe] at hre
    exact ⟨hlen, hre⟩
  · rintro ⟨hlen, hsegs⟩
    have hne : strip raw ≠ [] := by
      intro h0
      rw [h0] at hsegs
      rcases hsegs with ⟨h, -⟩ | ⟨⟨h, -⟩, -⟩
      · cases h
      · exact h rfl
    refine decide_eq_true ⟨hne, hlen, ?_⟩
    rw [Regex.acceptsLine_of_getLast_ne _ hlast, accepts_permissionRe]
    exact hsegs

/-! ### Stems -/

private theorem toNat_lt_of_isAlphanum {c : Char} (h : c.isAlphanum = true) : c.toNat < 128 := by
  have hc : c.toNat = c.val.toNat := rfl
  have hletters : 'z'.val.toNat = 122 ∧ 'Z'.val.toNat = 90 ∧ '9'.val.toNat = 57 := by decide
  simp only [Char.isAlphanum, Char.isAlpha, Char.isUpper, Char.isLower, Char.isDigit, Bool.or_eq_true,
    Bool.and_eq_true, decide_eq_true_eq, UInt32.le_iff_toNat_le, ge_iff_le] at h
  omega

private theorem lower_ascii : ∀ n < 128, isPermissionChar (Char.ofNat n) = true ∨ n = 58 ∨ n = 42 →
    isSpace (Char.ofNat n) = false ∧ ((Char.ofNat n).toLower = ':' → n = 58) ∧
      ((Char.ofNat n).toLower = '*' → n = 42) := by decide

/-- A character of a permission is no white space, and only `:` and `*` have these lower cases. -/
private theorem lowerChar_permission {c : Char} (h : isPermissionChar c = true ∨ c = ':' ∨ c = '*') :
    isSpace c = false ∧ ∃ l, lowerChar c = some l ∧ l ≠ [] ∧ (':' ∈ l → c = ':') ∧ (l = ['*'] → c = '*') := by
  by_cases hc : c.toNat < 128
  · have hofNat : Char.ofNat c.toNat = c := Char.ofNat_toNat c
    have hfacts := lower_ascii c.toNat hc
    rw [hofNat] at hfacts
    obtain ⟨hspace, hcolon, hstar⟩ := hfacts (by
      rcases h with h | rfl | rfl
      · exact .inl h
      · exact .inr (.inl rfl)
      · exact .inr (.inr rfl))
    refine ⟨hspace, [c.toLower], if_pos hc, List.cons_ne_nil _ _, fun hmem => ?_, fun heq => ?_⟩
    · rw [← hofNat, hcolon (List.mem_singleton.1 hmem).symm]
    · rw [← hofNat, hstar (List.singleton_inj.1 heq)]
  · have hspecial : c ∈ ['\u0130', '\u0131', '\u017f', '\u212a'] := by
      rcases h with h | rfl | rfl
      · simp only [isPermissionChar, Bool.or_eq_true, decide_eq_true_eq] at h
        rcases h with h | h
        · exact absurd (toNat_lt_of_isAlphanum h) hc
        · simp only [List.mem_cons, List.not_mem_nil, or_false] at h ⊢
          rcases h with rfl | rfl | rfl | h
          · exact absurd (by decide) hc
          · exact absurd (by decide) hc
          · exact absurd (by decide) hc
          · exact h
      · exact absurd (by decide) hc
      · exact absurd (by decide) hc
    simp only [List.mem_cons, List.not_mem_nil, or_false] at hspecial
    rcases hspecial with rfl | rfl | rfl | rfl
    · exact ⟨by decide, ['i', '\u0307'], by decide, by decide, by decide, by decide⟩
    · exact ⟨by decide, ['\u0131'], by decide, by decide, by decide, by decide⟩
    · exact ⟨by decide, ['\u017f'], by decide, by decide, by decide, by decide⟩
    · exact ⟨by decide, ['k'], by decide, by decide, by decide, by decide⟩

/-- The characters of a permission. -/
def PermissionText (w : Str) : Prop := ∀ c ∈ w, isPermissionChar c = true ∨ c = ':' ∨ c = '*'

private theorem permissionText_of_valid {w : Str} (h : ValidSegments (w.splitOn ':')) : PermissionText w := by
  have hseg : ∀ {x : Str}, PlainSegment x ∨ x = ['*'] → PermissionText x := by
    rintro x (hx | rfl) c hc
    · exact .inl (hx.2 c hc)
    · exact .inr (.inr (List.mem_singleton.1 hc))
  cases hs : w.splitOn ':' with
  | nil => exact absurd hs (List.splitOn_ne_nil _ _)
  | cons s ss =>
    have hw : w = s ++ (ss.map (':' :: ·)).flatten := by
      rw [flatten_groups, ← hs]
      exact (List.intercalate_splitOn ':').symm
    rw [hs] at h
    have hsegs : (PlainSegment s ∨ s = ['*']) ∧ ∀ x ∈ ss, PlainSegment x ∨ x = ['*'] := by
      rcases h with ⟨rfl, rfl⟩ | ⟨hplain, hss⟩
      · exact ⟨.inr rfl, by simp⟩
      · exact ⟨.inl hplain, hss⟩
    intro c hc
    rw [hw, List.mem_append, List.mem_flatten] at hc
    rcases hc with hc | ⟨u, hu, hc⟩
    · exact hseg hsegs.1 c hc
    · obtain ⟨x, hx, rfl⟩ := List.mem_map.1 hu
      rcases List.mem_cons.1 hc with rfl | hc
      · exact .inr (.inl rfl)
      · exact hseg (hsegs.2 x hx) c hc

private theorem splitOn_flatMap {f : Char → Str} {w : Str} (hcolon : f ':' = [':'])
    (hf : ∀ c ∈ w, ':' ∈ f c → c = ':') :
    (w.flatMap f).splitOn ':' = (w.splitOn ':').map fun s => s.flatMap f := by
  have happend : ∀ {x y : Str}, ':' ∉ x → (x ++ y).splitOn ':' = (y.splitOn ':').modifyHead (x ++ ·) := by
    intro x y hx
    induction x with
    | nil => cases h : y.splitOn ':' <;> simp [h]
    | cons c x ih =>
      obtain ⟨hc, hx⟩ : ':' ≠ c ∧ ':' ∉ x := by simpa using hx
      rw [List.cons_append, List.splitOn_cons_eq_if_modifyHead, ih hx]
      cases y.splitOn ':' <;> simp [Ne.symm hc]
  induction w with
  | nil => rfl
  | cons c w ih =>
    have ih := ih fun d hd => hf d (List.mem_cons_of_mem _ hd)
    rw [List.flatMap_cons, List.splitOn_cons_eq_if_modifyHead]
    by_cases hc : c = ':'
    · subst hc
      rw [hcolon, List.singleton_append, List.splitOn_cons_eq_if_modifyHead, ih]
      simp
    · rw [happend fun h => hc (hf c List.mem_cons_self h), ih]
      cases w.splitOn ':' <;> simp [hc]

/-- The segments of a permission are the lower cases of the segments of its text. -/
private theorem segments_eq_map (t : CaseTable) {p : Str} (h : PermissionText (strip p)) :
    segments t p = ((strip p).splitOn ':').map fun s => s.flatMap fun c => (lowerChar c).getD [] := by
  have hsome : ∀ c ∈ strip p, (lowerChar c).isSome = true := by
    intro c hc
    obtain ⟨-, l, hl, -⟩ := lowerChar_permission (h c hc)
    rw [hl]
    rfl
  rw [segments, lower_eq_flatMap t hsome]
  refine splitOn_flatMap (by decide) fun c hc hmem => ?_
  obtain ⟨-, l, hl, -, hcolon, -⟩ := lowerChar_permission (h c hc)
  rw [hl] at hmem
  exact hcolon hmem

/-- Only `*` has the lower case `*`. -/
private theorem eq_star_of_lower {x : Str} (hx : PlainSegment x ∨ x = ['*'])
    (h : (x.flatMap fun c => (lowerChar c).getD []) = ['*']) : x = ['*'] := by
  rcases hx with hx | hx
  · cases x with
    | nil => exact absurd rfl hx.1
    | cons c x =>
      have hc := hx.2 c List.mem_cons_self
      obtain ⟨-, l, hl, hne, -, hstar⟩ := lowerChar_permission (.inl hc)
      rw [List.flatMap_cons, hl, Option.getD_some, List.append_eq_singleton_iff] at h
      rcases h with ⟨h, -⟩ | ⟨h, -⟩
      · exact absurd h hne
      · rw [hstar h] at hc
        exact absurd hc (by decide)
  · exact hx

/-- The stem of a permission: its text without `:*`. -/
def IsStem (p b : Str) : Prop := strip p = b ++ [':', '*']

private theorem validSegments_init {ss : List Str} (hne : ss ≠ []) (h : ValidSegments (ss ++ [['*']])) :
    ValidSegments ss := by
  cases ss with
  | nil => exact absurd rfl hne
  | cons s ss =>
    rcases h with ⟨-, h⟩ | ⟨hs, hss⟩
    · simp at h
    · exact .inr ⟨hs, fun x hx => hss x (List.mem_append_left _ hx)⟩

/-- A stem of a valid permission is a valid permission, with one segment less. -/
private theorem stem_valid (t : CaseTable) {p b : Str} (hp : validPermission p = true) (hb : IsStem p b) :
    validPermission b = true ∧ segments t p = segments t b ++ [['*']] := by
  obtain ⟨hlen, hsegs⟩ := validPermission_iff.1 hp
  have hsplit : (strip p).splitOn ':' = b.splitOn ':' ++ [['*']] := by
    rw [hb, List.splitOn_append_cons_self]
    rfl
  have hbsegs : ValidSegments (b.splitOn ':') := validSegments_init (List.splitOn_ne_nil _ _) (hsplit ▸ hsegs)
  have hbtext := permissionText_of_valid hbsegs
  have hstrip : strip b = b := strip_eq_self fun c hc => (lowerChar_permission (hbtext c hc)).1
  have hblen : b.length ≤ permissionMax := by
    rw [hb, List.length_append] at hlen
    omega
  refine ⟨validPermission_iff.2 ⟨by rwa [hstrip], by rwa [hstrip]⟩, ?_⟩
  rw [segments_eq_map t (permissionText_of_valid hsegs), segments_eq_map t (hstrip.symm ▸ hbtext), hsplit, hstrip,
    List.map_append]
  rfl

/-- Every pattern of a valid permission that ends in `*` is that of its stem. -/
private theorem exists_stem (t : CaseTable) {p : Str} {bs : List Str} (hp : validPermission p = true)
    (hbs : segments t p = bs ++ [['*']]) (hne : bs ≠ []) : ∃ b, IsStem p b ∧ segments t b = bs := by
  obtain ⟨-, hsegs⟩ := validPermission_iff.1 hp
  rw [segments_eq_map t (permissionText_of_valid hsegs), List.map_eq_append_iff] at hbs
  obtain ⟨ss, last, hsplit, rfl, hlast⟩ := hbs
  obtain ⟨x, rfl, hx⟩ := List.map_eq_singleton_iff.1 hlast
  have hvalid : ValidSegments (ss ++ [x]) := hsplit ▸ hsegs
  have hss : ss ≠ [] := fun h => hne (by rw [h]; rfl)
  obtain ⟨s, ss, rfl⟩ := List.exists_cons_of_ne_nil hss
  have hlast : PlainSegment x ∨ x = ['*'] := by
    rcases hvalid with ⟨-, h⟩ | ⟨-, h⟩
    · simp at h
    · exact h x (List.mem_append_right _ List.mem_cons_self)
  obtain rfl := eq_star_of_lower hlast hx
  have hb : IsStem p (s ++ (ss.map (':' :: ·)).flatten) := by
    have hp' : strip p = [':'].intercalate (s :: (ss ++ [['*']])) := by
      rw [← List.cons_append, ← hsplit]
      exact (List.intercalate_splitOn ':').symm
    rw [IsStem, hp', ← flatten_groups]
    simp
  refine ⟨_, hb, ?_⟩
  have hsegments := (stem_valid t hp hb).2
  rw [segments_eq_map t (permissionText_of_valid hsegs), hsplit, List.map_append] at hsegments
  exact (List.append_cancel_right hsegments).symm

/-! ### Coverage -/

/-- Coverage is sound exactly when the stems of the required permissions are covered too. -/
theorem hasPermission_of_covers {granted required : List Str} {r : Str}
    (hrequired : ∀ p ∈ required, validPermission p = true) (hcovers : covers t granted required = true)
    (hstems : ∀ p ∈ required, ∀ b, IsStem p b → hasPermission t granted b = true)
    (hr : hasPermission t required r = true) : hasPermission t granted r = true := by
  rw [hasPermission_eq_anyAccepts] at hr ⊢
  refine Wildcard.anyAccepts_of_covers ?_ ?_ hr
  · intro segs hsegs
    obtain ⟨p, hp, rfl⟩ := List.mem_map.1 hsegs
    rw [← hasPermission_eq_anyAccepts]
    exact covers_iff.1 hcovers p hp
  · intro bs hbs hlen
    obtain ⟨p, hp, hsegs⟩ := List.mem_map.1 hbs
    have hne : bs ≠ [] := by
      rintro rfl
      exact List.splitOn_ne_nil _ _ (List.length_eq_zero_iff.1 hlen.symm)
    obtain ⟨b, hb, rfl⟩ := exists_stem t (hrequired p hp) hsegs hne
    rw [← hasPermission_eq_anyAccepts]
    exact hstems p hp b hb

/-- A permission grants its stem. -/
private theorem permissionMatches_stem (t : CaseTable) {p b : Str} (hp : validPermission p = true) (hb : IsStem p b) :
    permissionMatches t p b = true := by
  rw [permissionMatches, (stem_valid t hp hb).2]
  exact Wildcard.accepts_stem _

theorem hasPermission_singleton (t : CaseTable) (g r : Str) : hasPermission t [g] r = permissionMatches t g r := by
  simp [hasPermission]

private theorem coverage_iff {granted required : List Str} (hrequired : ∀ p ∈ required, validPermission p = true)
    (hcovers : covers t granted required = true) :
    (∀ r, validPermission r = true → hasPermission t required r = true → hasPermission t granted r = true) ↔
      ∀ p ∈ required, ∀ b, IsStem p b → hasPermission t granted b = true := by
  constructor
  · intro h p hp b hb
    have hmatch := permissionMatches_stem t (hrequired p hp) hb
    exact h b (stem_valid t (hrequired p hp) hb).1 (hasPermission_iff.2 ⟨p, hp, hmatch⟩)
  · exact fun h r _ => hasPermission_of_covers hrequired hcovers h

/-- For a granted and a required permission, and for lists of them: coverage implies that every permission the required
side grants is granted, if and only if the stem of each required permission that ends in `:*` is granted. -/
theorem coverage_sound_iff (t : CaseTable) {g p : Str} {granted required : List Str} (hp : validPermission p = true)
    (hmatch : permissionMatches t g p = true) (hrequired : ∀ p ∈ required, validPermission p = true)
    (hcovers : covers t granted required = true) :
    ((∀ r, validPermission r = true → permissionMatches t p r = true → permissionMatches t g r = true) ↔
      ∀ b, IsStem p b → permissionMatches t g b = true) ∧
    ((∀ r, validPermission r = true → hasPermission t required r = true → hasPermission t granted r = true) ↔
      ∀ p ∈ required, ∀ b, IsStem p b → hasPermission t granted b = true) := by
  refine ⟨?_, coverage_iff hrequired hcovers⟩
  have hone := @coverage_iff t [g] [p] (by simpa using hp) (by simpa [covers, hasPermission] using hmatch)
  simpa [hasPermission_singleton] using hone

theorem coverage_sound_iff_users :
    let t : CaseTable := fun _ c _ => [c]
    let granted := ["users:*".toList, "commands:execute".toList]
    ((∀ r, validPermission r = true → permissionMatches t "Users:*".toList r = true →
        permissionMatches t "users:*".toList r = true) ↔
      ∀ b, IsStem "Users:*".toList b → permissionMatches t "users:*".toList b = true) ∧
    ((∀ r, validPermission r = true → hasPermission t ["users:*".toList] r = true → hasPermission t granted r = true) ↔
      ∀ p ∈ ["users:*".toList], ∀ b, IsStem p b → hasPermission t granted b = true) :=
  coverage_sound_iff _ (by decide) (by decide) (by decide) (by decide)

/-- `a:*:*` covers `a:*`, which grants `a`; but `a:*:*` does not grant `a`. -/
theorem coverage_unsound :
    let t : CaseTable := fun _ c _ => [c]
    let g := "a:*:*".toList
    let p := "a:*".toList
    let r := "a".toList
    validPermission g = true ∧ validPermission p = true ∧ validPermission r = true ∧
    permissionMatches t g p = true ∧ permissionMatches t p r = true ∧ permissionMatches t g r = false ∧
    covers t [g] [p] = true ∧ hasPermission t [p] r = true ∧ hasPermission t [g] r = false := by
  decide

end CliServer
