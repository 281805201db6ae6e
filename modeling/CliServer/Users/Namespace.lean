import CliServer.Users.Memberships

/-!
# Names and emails

Names and emails share one namespace: no text is, up to case, a name or email of two users.  `find_user` looks for an id
first, though, and a name may be the id of another user, who is then found in its place.  So a user is found by its
name and email in every letter case when neither is the id of another user (`one_namespace`).
-/

namespace CliServer

open Transition

variable (t : CaseTable)

/-- `get_user_by_email`. -/
def Stores.getUserByEmail (s : Stores) (email : Str) : Option User :=
  s.users.find? fun u => lower t u.email = lower t (strip email)

/-- `find_user`. -/
def Stores.findUser (s : Stores) (idNameOrEmail : Str) : Option User :=
  match s.getUser t idNameOrEmail with
  | some user => some user
  | none => if '@' ∈ idNameOrEmail then s.getUserByEmail t idNameOrEmail else none

/-- `w` is `x` in some letter case. -/
def SameLetters (w x : Str) : Prop := w.map Char.toLower = x.map Char.toLower

instance (w x : Str) : Decidable (SameLetters w x) := inferInstanceAs (Decidable (_ = _))

/-- The sets of name and email of two users are disjoint, without regard to case. -/
def Apart (u v : User) : Prop := ∀ x ∈ [u.name, u.email], ∀ y ∈ [v.name, v.email], lower t x ≠ lower t y

/-- The names and emails of distinct users are disjoint. -/
def OneNamespace (s : Stores) : Prop := ∀ u ∈ s.users, ∀ v ∈ s.users, u ≠ v → Apart t u v

/-- Every user is found by its id, and by its name and email in any letter case. -/
def Resolves (s : Stores) : Prop :=
  ∀ u ∈ s.users, s.findUser t u.id = some u ∧
    ∀ x ∈ [u.name, u.email], ∀ w, SameLetters w x → s.findUser t w = some u

/-- No name or email is the id of another user, in any letter case. -/
def NoIdAsName (s : Stores) : Prop :=
  ∀ u ∈ s.users, ∀ v ∈ s.users, u ≠ v → ∀ x ∈ [v.name, v.email], ¬ SameLetters u.id x

instance (s : Stores) : Decidable (NoIdAsName s) := inferInstanceAs (Decidable (∀ u ∈ s.users, _))

/-- A call gives no user a name or email that is the id of another user, and no id that is a name or email. -/
def KeepsIdsApart (s : Stores) (call : UsersCall) : Prop :=
  match call.op with
  | .createUser newId req => ∀ u ∈ s.users,
    (∀ x ∈ [strip req.name, strip req.email], ¬ SameLetters u.id x) ∧ ∀ x ∈ [u.name, u.email], ¬ SameLetters newId x
  | .updateUser idOrName req => ∀ target, s.getUser t idOrName = some target → ∀ u ∈ s.users, u ≠ target →
    ∀ x ∈ (req.name.map strip).toList ++ (req.email.map strip).toList, ¬ SameLetters u.id x
  | _ => True

/-- The characters of names and emails. -/
def Graphic (c : Char) : Prop := 0x21 ≤ c.toNat ∧ c.toNat ≤ 0x7e

variable {t} {opts : AuthServiceOptions} {s s' : Stores} {op : UsersOp} {u v : User} {w x : Str}

/-! ### Letter case of plain text -/

private theorem toNat_toLower (c : Char) :
    c.toLower.toNat = if 65 ≤ c.toNat ∧ c.toNat ≤ 90 then c.toNat + 32 else c.toNat := by
  have hiff : (c.val ≥ 'A'.val ∧ c.val ≤ 'Z'.val) ↔ (65 ≤ c.toNat ∧ c.toNat ≤ 90) := by
    rw [ge_iff_le, UInt32.le_iff_toNat_le, UInt32.le_iff_toNat_le]
    exact Iff.rfl
  unfold Char.toLower
  by_cases h : c.val ≥ 'A'.val ∧ c.val ≤ 'Z'.val
  · rw [dif_pos h, if_pos (hiff.1 h)]
    have hadd : (c.val + ('a'.val - 'A'.val)).toNat = c.toNat + 32 := by
      have hdiff : ('a'.val - 'A'.val).toNat = 32 := rfl
      have hval : c.val.toNat = c.toNat := rfl
      have hle := (hiff.1 h).2
      rw [UInt32.toNat_add, hdiff, hval]
      omega
    exact hadd
  · rw [dif_neg h, if_neg fun hle => h (hiff.2 hle)]

private theorem graphic_toLower {c : Char} : Graphic c.toLower ↔ Graphic c := by
  unfold Graphic
  rw [toNat_toLower]
  split <;> omega

theorem Graphic.isSpace {c : Char} (h : Graphic c) : isSpace c = false := by
  unfold Graphic at h
  simp only [CliServer.isSpace, Bool.or_eq_false_iff, Bool.and_eq_false_iff, decide_eq_false_iff_not,
    beq_eq_false_iff_ne]
  omega

theorem Graphic.lowerChar {c : Char} (h : Graphic c) : lowerChar c = some [c.toLower] := by
  have hascii : c.toNat < 128 := by
    unfold Graphic at h
    omega
  rw [CliServer.lowerChar, if_pos hascii]

theorem lower_graphic (h : ∀ c ∈ x, Graphic c) : lower t x = x.map Char.toLower := by
  have hsome : ∀ c ∈ x, (lowerChar c).isSome = true := fun c hc => by rw [(h c hc).lowerChar]; rfl
  rw [lower_eq_flatMap t hsome, List.map_eq_flatMap]
  exact List.flatMap_congr fun c hc => by rw [(h c hc).lowerChar]; rfl

private theorem SameLetters.graphic (h : SameLetters w x) (hx : ∀ c ∈ x, Graphic c) : ∀ c ∈ w, Graphic c := by
  intro c hc
  have hmem : c.toLower ∈ x.map Char.toLower := h ▸ List.mem_map_of_mem hc
  obtain ⟨d, hd, heq⟩ := List.mem_map.1 hmem
  exact graphic_toLower.1 (heq ▸ graphic_toLower.2 (hx d hd))

theorem SameLetters.lower (h : SameLetters w x) (hx : ∀ c ∈ x, Graphic c) : lower t w = lower t x := by
  rw [lower_graphic hx, lower_graphic (h.graphic hx)]
  exact h

private theorem SameLetters.at_mem (h : SameLetters w x) (hx : '@' ∈ x) : '@' ∈ w := by
  have hmem : '@' ∈ w.map Char.toLower := by
    rw [show w.map Char.toLower = x.map Char.toLower from h]
    exact List.mem_map.2 ⟨'@', hx, rfl⟩
  obtain ⟨c, hc, heq⟩ := List.mem_map.1 hmem
  have hnat := toNat_toLower c
  rw [heq, show ('@' : Char).toNat = 64 from rfl] at hnat
  have hc64 : c.toNat = 64 := by
    split at hnat <;> omega
  have hat : c = '@' := Char.toNat_inj.1 hc64
  exact hat ▸ hc

/-! ### What names and emails look like -/

theorem graphic_of_isAlphanum {c : Char} (h : c.isAlphanum = true) : Graphic c := by
  simp only [Char.isAlphanum, Char.isAlpha, Char.isUpper, Char.isLower, Char.isDigit, Bool.or_eq_true,
    Bool.and_eq_true, decide_eq_true_eq, UInt32.le_iff_toNat_le, ge_iff_le] at h
  have hval : c.val.toNat = c.toNat := rfl
  simp only [hval] at h
  unfold Graphic
  have hconst : ('A'.val.toNat = 65 ∧ 'Z'.val.toNat = 90) ∧ ('a'.val.toNat = 97 ∧ 'z'.val.toNat = 122) ∧
    ('0'.val.toNat = 48 ∧ '9'.val.toNat = 57) := ⟨⟨rfl, rfl⟩, ⟨rfl, rfl⟩, ⟨rfl, rfl⟩⟩
  omega

/-- The characters of a given list. -/
theorem graphic_of_all {l : List Char} (h : (l.all fun d => 0x21 ≤ d.toNat && d.toNat ≤ 0x7e) = true) :
    ∀ c ∈ l, Graphic c := by
  intro c hc
  simpa [Graphic] using List.all_eq_true.1 h c hc

private theorem graphic_of_isAtomChar {c : Char} (h : isAtomChar c = true) : Graphic c := by
  simp only [isAtomChar, Bool.or_eq_true, decide_eq_true_eq] at h
  rcases h with (h | h) | h
  · exact graphic_of_isAlphanum h
  · exact graphic_of_all rfl c h
  · exact graphic_of_all rfl c h

private theorem graphic_of_nameRe (h : Regex.acceptsLine '\n' nameRe x = true) (hlast : x.getLast? ≠ some '\n') :
    ∀ c ∈ x, Graphic c := by
  rw [Regex.acceptsLine_of_getLast_ne _ hlast] at h
  have hwithin : Regex.Within Graphic nameRe := by
    refine ⟨fun c hc => graphic_of_isAlphanum hc, fun c hc => ?_⟩
    simp only [Bool.or_eq_true, decide_eq_true_eq] at hc
    rcases hc with hc | hc
    · exact graphic_of_isAlphanum hc
    · exact graphic_of_all rfl c hc
  exact Regex.forall_mem_of_accepts hwithin h

theorem graphic_of_emailRe (h : emailRe.accepts x = true) : ∀ c ∈ x, Graphic c := by
  have hatom : Regex.Within Graphic (.set isAtomChar) := fun c hc => graphic_of_isAtomChar hc
  have halnum : Regex.Within Graphic (.set Char.isAlphanum) := fun c hc => graphic_of_isAlphanum hc
  have hchar : ∀ d : Char, Graphic d → Regex.Within Graphic (.char d) := fun d hd c hc => of_decide_eq_true hc ▸ hd
  have hlabel : Regex.Within Graphic labelRe := by
    refine ⟨halnum, trivial, Regex.within_upTo (fun c hc => ?_) 61, halnum⟩
    simp only [Bool.or_eq_true, decide_eq_true_eq] at hc
    rcases hc with hc | rfl
    · exact graphic_of_isAlphanum hc
    · exact ⟨by decide, by decide⟩
  have hdot := hchar '.' ⟨by decide, by decide⟩
  have halpha : Regex.Within Graphic (.set Char.isAlpha) := by
    intro c hc
    refine graphic_of_isAlphanum ?_
    rw [Char.isAlphanum, hc, Bool.true_or]
  have htld : Regex.Within Graphic (Regex.times (.set Char.isAlpha) 61 2) := Regex.within_times halpha 61 2
  have hlocalhost : Regex.Within Graphic (.lit "localhost".toList) := Regex.within_lit (graphic_of_all rfl)
  have hdomain : Regex.Within Graphic (.plus (.cat labelRe (.char '.'))) := ⟨⟨hlabel, hdot⟩, hlabel, hdot⟩
  have hwithin : Regex.Within Graphic emailRe :=
    ⟨⟨hatom, hatom⟩, ⟨hdot, hatom, hatom⟩, hchar '@' ⟨by decide, by decide⟩, hlocalhost, hdomain, htld⟩
  exact Regex.forall_mem_of_accepts hwithin h

private theorem at_mem_of_emailLocalLength (h : emailLocalLength x = true) : '@' ∈ x := by
  by_contra hno
  have hall : x.takeWhile (fun c => decide (c ≠ '@')) = x :=
    List.takeWhile_eq_self_iff.2 fun c hc => decide_eq_true fun heq => hno (heq ▸ hc)
  simp only [emailLocalLength, Bool.and_eq_true, decide_eq_true_eq, hall] at h
  omega

/-- A text that is good as a name: plain characters. -/
private theorem graphic_of_validateName {raw n : Str} (h : validateName (strip raw) = .ok n) :
    n = strip raw ∧ ∀ c ∈ n, Graphic c := by
  obtain ⟨rfl, -, hre⟩ := validateName_ok h
  exact ⟨rfl, graphic_of_nameRe hre (getLast?_strip_ne (by decide))⟩

private theorem graphic_of_validateEmail {raw e : Str} (h : validateEmail (strip raw) = .ok e) :
    e = strip raw ∧ (∀ c ∈ e, Graphic c) ∧ '@' ∈ e := by
  obtain ⟨rfl, hlocal, hre⟩ := validateEmail_ok h
  exact ⟨rfl, graphic_of_emailRe hre, at_mem_of_emailLocalLength hlocal⟩

/-! ### Lookup -/

/-- What holds in every reachable state. -/
structure Names (t : CaseTable) (s : Stores) : Prop where
  graphic : ∀ u ∈ s.users, ∀ x ∈ [u.name, u.email], ∀ c ∈ x, Graphic c
  at_mem : ∀ u ∈ s.users, '@' ∈ u.email
  apart : OneNamespace t s

private theorem find?_eq_of_unique {α : Type*} {p : α → Bool} {l : List α} {a : α} (ha : a ∈ l) (hp : p a = true)
    (h : ∀ b ∈ l, p b = true → b = a) : l.find? p = some a := by
  have hsome : (l.find? p).isSome := List.find?_isSome.2 ⟨a, ha, hp⟩
  obtain ⟨b, hb⟩ := Option.isSome_iff_exists.1 hsome
  rw [hb, h b (List.mem_of_find?_eq_some hb) (List.find?_some hb)]

private theorem findUser_of_getUser (h : s.getUser t w = some u) : s.findUser t w = some u := by
  rw [Stores.findUser, h]

private theorem findUser_id (h : u ∈ s.users) : s.findUser t u.id = some u := findUser_of_getUser (s.getUser_of_mem h)

/-- A user is the only one with its name or email. -/
private theorem Names.eq_of_lower (h : Names t s) (hu : u ∈ s.users) (hv : v ∈ s.users) {y : Str}
    (hx : x ∈ [u.name, u.email])
    (hy : y ∈ [v.name, v.email]) (heq : lower t y = lower t x) : v = u := by
  by_contra hne
  exact h.apart v hv u hu hne y hy x hx heq

theorem Names.findUser (h : Names t s) (hids : NoIdAsName s) (hu : u ∈ s.users) (hx : x ∈ [u.name, u.email])
    (hw : SameLetters w x) : s.findUser t w = some u := by
  have hgraphic := h.graphic u hu x hx
  have hlower : lower t w = lower t x := hw.lower hgraphic
  unfold Stores.findUser Stores.getUser
  cases hid : s.users.find? (·.id = w) with
  | some v =>
    -- An id comes first: it is the user's own.
    have hv := List.mem_of_find?_eq_some hid
    have hvw : v.id = w := by simpa using List.find?_some hid
    have hvu : v = u := by
      by_contra hne
      exact hids v hv u hu hne x hx (hvw ▸ hw)
    rw [hvu]
    rfl
  | none =>
    cases hname : s.users.find? fun v => lower t v.name = lower t w with
    | some v =>
      have hv := List.mem_of_find?_eq_some hname
      have hvw : lower t v.name = lower t w := by simpa using List.find?_some hname
      rw [h.eq_of_lower hu hv hx List.mem_cons_self (hvw.trans hlower)]
      rfl
    | none =>
      have hemail : x = u.email := by
        rcases List.mem_cons.1 hx with rfl | hx
        · have hno := List.find?_eq_none.1 hname u hu
          exact absurd hlower.symm (by simpa using hno)
        · exact List.mem_singleton.1 hx
      have hat : '@' ∈ w := hw.at_mem (hemail ▸ h.at_mem u hu)
      have hstrip : strip w = w := strip_eq_self fun c hc => (hw.graphic hgraphic c hc).isSpace
      simp only [Option.or_none, if_pos hat, Stores.getUserByEmail, hstrip]
      refine find?_eq_of_unique hu (by simp [hlower, hemail]) fun v hv hp => ?_
      have hvw : lower t v.email = lower t w := by simpa using hp
      exact h.eq_of_lower hu hv hx (List.mem_cons_of_mem _ List.mem_cons_self) (hvw.trans hlower)

private theorem Names.resolves_iff (h : Names t s) : Resolves t s ↔ NoIdAsName s := by
  constructor
  · intro hres u hu v hv hne x hx hw
    have hfound := (hres v hv).2 x hx u.id hw
    rw [(hres u hu).1] at hfound
    exact hne (Option.some.inj hfound)
  · intro hids u hu
    exact ⟨findUser_id hu, fun x hx w hw => h.findUser hids hu hx hw⟩

/-! ### The operations -/

theorem Apart.symm (h : Apart t u v) : Apart t v u := fun x hx y hy heq => h y hy x hx heq.symm

private theorem changed_ok {validate : Str → Except UsersApiError Str} {value out : Option Str} {current n : Str}
    (h : changed validate value current = .ok out) (hn : out = some n) :
    ∃ raw, value = some raw ∧ validate (strip raw) = .ok n := by
  cases value with
  | none =>
    rw [← Except.ok.inj h] at hn
    cases hn
  | some raw =>
    refine ⟨raw, rfl, ?_⟩
    simp only [changed] at h
    cases hv : validate (strip raw) with
    | error e =>
      rw [hv] at h
      cases h
    | ok m =>
      rw [hv] at h
      have hout : (if m = current then none else some m) = out := Except.ok.inj h
      split at hout
      · rw [← hout] at hn
        cases hn
      · rw [← hout] at hn
        rw [Option.some.inj hn]

/-- A text of an updated user is one of its old texts or one of the new ones. -/
private theorem mem_apply {c : UserChanges} (hx : x ∈ [(c.apply u).name, (c.apply u).email]) :
    x ∈ [u.name, u.email] ∨ c.name = some x ∨ c.email = some x := by
  rcases List.mem_cons.1 hx with rfl | hx
  · cases hn : c.name with
    | none => exact .inl (by simp [UserChanges.apply, hn])
    | some n => exact .inr (.inl (by simp [UserChanges.apply, hn]))
  · obtain rfl := List.mem_singleton.1 hx
    cases he : c.email with
    | none => exact .inl (by simp [UserChanges.apply, he])
    | some e => exact .inr (.inr (by simp [UserChanges.apply, he]))

/-- An update of one user with texts that nobody else has. -/
theorem Names.updateUser (h : Names t s) {target : User} {c : UserChanges} (htarget : target ∈ s.users)
    (hgraphic : ∀ x, c.name = some x ∨ c.email = some x → ∀ y ∈ x, Graphic y)
    (hat : ∀ e, c.email = some e → '@' ∈ e)
    (hunique : ensureUnique t s c.name c.email (some target.id) = .ok ()) :
    Names t (s.updateUser target.id c) := by
  -- The target, written, is apart from every other user.
  have hnew : ∀ v ∈ s.users, v.id ≠ target.id → Apart t (c.apply target) v := by
    intro v hv hne x hx y hy
    have htexts := ensureUnique_ok hunique v hv fun heq => hne (Option.some.inj heq).symm
    have hboth : ∀ z, lower t z ≠ lower t v.name ∧ lower t z ≠ lower t v.email → lower t z ≠ lower t y := by
      intro z hz
      rcases List.mem_cons.1 hy with rfl | hy
      · exact hz.1
      · exact List.mem_singleton.1 hy ▸ hz.2
    rcases mem_apply hx with hx | hx | hx
    · exact h.apart target htarget v hv (fun heq => hne (heq ▸ rfl)) x hx y hy
    · exact hboth x (htexts.1 x hx)
    · exact hboth x (htexts.2 x hx)
  refine ⟨fun u' hu' x hx => ?_, fun u' hu' => ?_, fun u' hu' v' hv' hne => ?_⟩
  · obtain ⟨u, hu, ⟨-, rfl⟩ | ⟨-, rfl⟩⟩ := Stores.mem_updateUser hu'
    · rcases mem_apply hx with hx | hx
      · exact h.graphic u hu x hx
      · exact hgraphic x hx
    · exact h.graphic u' hu x hx
  · obtain ⟨u, hu, ⟨-, rfl⟩ | ⟨-, rfl⟩⟩ := Stores.mem_updateUser hu'
    · cases he : c.email with
      | none => simpa [UserChanges.apply, he] using h.at_mem u hu
      | some e => simpa [UserChanges.apply, he] using hat e he
    · exact h.at_mem u' hu
  · obtain ⟨u, hu, ⟨hid, rfl⟩ | ⟨hid, rfl⟩⟩ := Stores.mem_updateUser hu'
    · obtain rfl := s.eq_of_id_eq hu htarget hid
      obtain ⟨v, hv, ⟨hvid, rfl⟩ | ⟨hvid, rfl⟩⟩ := Stores.mem_updateUser hv'
      · exact absurd (by rw [s.eq_of_id_eq hv hu hvid]) hne
      · exact hnew v' hv hvid
    · obtain ⟨v, hv, ⟨hvid, rfl⟩ | ⟨hvid, rfl⟩⟩ := Stores.mem_updateUser hv'
      · obtain rfl := s.eq_of_id_eq hv htarget hvid
        exact (hnew u' hu hid).symm
      · exact h.apart u' hu v' hv hne

/-- A change of groups alone keeps ids, names and emails. -/
private theorem texts_regrouped (id : Str) (groups : Option (List Str)) :
    ∀ u' ∈ (s.updateUser id { groups := groups }).users, ∃ u ∈ s.users,
      u'.id = u.id ∧ u'.name = u.name ∧ u'.email = u.email := by
  intro u' hu'
  obtain ⟨u, hu, ⟨-, rfl⟩ | ⟨-, rfl⟩⟩ := Stores.mem_updateUser hu'
  · exact ⟨u, hu, rfl, rfl, rfl⟩
  · exact ⟨u', hu, rfl, rfl, rfl⟩

/-- So does leaving a group. -/
private theorem texts_left {name : Str}
    (husers : s'.users = s.users.map fun u => if inGroup t u name then u.leave t name else u) :
    ∀ u' ∈ s'.users, ∃ u ∈ s.users, u'.id = u.id ∧ u'.name = u.name ∧ u'.email = u.email := by
  intro u' hu'
  obtain ⟨u, hu, rfl⟩ := List.mem_map.1 (husers ▸ hu')
  refine ⟨u, hu, ?_⟩
  split <;> exact ⟨rfl, rfl, rfl⟩

/-- A write that changes no names or emails. -/
private theorem Names.of_texts (h : Names t s) (husers : ∀ u' ∈ s'.users, ∃ u ∈ s.users,
    u'.id = u.id ∧ u'.name = u.name ∧ u'.email = u.email) : Names t s' where
  graphic := by
    intro u' hu'
    obtain ⟨u, hu, -, hname, hemail⟩ := husers u' hu'
    rw [hname, hemail]
    exact h.graphic u hu
  at_mem := by
    intro u' hu'
    obtain ⟨u, hu, -, -, hemail⟩ := husers u' hu'
    exact hemail ▸ h.at_mem u hu
  apart := by
    intro u' hu' v' hv' hne
    obtain ⟨u, hu, hid, hname, hemail⟩ := husers u' hu'
    obtain ⟨v, hv, hvid, hvname, hvemail⟩ := husers v' hv'
    rw [Apart, hname, hemail, hvname, hvemail]
    refine h.apart u hu v hv fun heq => hne ?_
    exact s'.eq_of_id_eq hu' hv' (hid.trans ((congrArg User.id heq).trans hvid.symm))

theorem Names.step (h : Names t s) (he : UsersEffect t s op s') : Names t s' := by
  cases he with
  | userCreated user hid id name email groups unique =>
    obtain ⟨-, hname⟩ := graphic_of_validateName name
    obtain ⟨-, hemail, hat⟩ := graphic_of_validateEmail email
    have hnew : ∀ v ∈ s.users, Apart t user v := by
      intro v hv x hx y hy
      obtain ⟨hn, he⟩ := ensureUnique_ok unique v hv (by simp)
      have hn := hn user.name rfl
      have he := he user.email rfl
      simp only [List.mem_cons, List.not_mem_nil, or_false] at hx hy
      rcases hx with rfl | rfl <;> rcases hy with rfl | rfl
      exacts [hn.1, hn.2, he.1, he.2]
    refine ⟨fun u hu x hx => ?_, fun u hu => ?_, fun u hu v hv hne => ?_⟩
    · rcases List.mem_append.1 hu with hu | hu
      · exact h.graphic u hu x hx
      · obtain rfl := List.mem_singleton.1 hu
        simp only [List.mem_cons, List.not_mem_nil, or_false] at hx
        rcases hx with rfl | rfl
        · exact hname
        · exact hemail
    · rcases List.mem_append.1 hu with hu | hu
      · exact h.at_mem u hu
      · exact List.mem_singleton.1 hu ▸ hat
    · rcases List.mem_append.1 hu with hu | hu <;> rcases List.mem_append.1 hv with hv | hv
      · exact h.apart u hu v hv hne
      · exact List.mem_singleton.1 hv ▸ (hnew u hu).symm
      · exact List.mem_singleton.1 hu ▸ hnew v hv
      · exact absurd ((List.mem_singleton.1 hu).trans (List.mem_singleton.1 hv).symm) hne
  | userUpdated target c found name email groups unique notLast =>
    refine h.updateUser (s.mem_of_getUser found) (fun x hx => ?_) (fun e he => ?_) unique
    · rcases hx with hx | hx
      · obtain ⟨raw, -, hvalid⟩ := changed_ok name hx
        exact (graphic_of_validateName hvalid).2
      · obtain ⟨raw, -, hvalid⟩ := changed_ok email hx
        exact (graphic_of_validateEmail hvalid).2.1
    · obtain ⟨raw, -, hvalid⟩ := changed_ok email he
      exact (graphic_of_validateEmail hvalid).2.2
  | userDeleted target => exact h.of_texts fun u hu => ⟨u, List.mem_of_mem_filter hu, rfl, rfl, rfl⟩
  | groupDeleted group found notBuiltIn hgroups husers => exact h.of_texts (texts_left husers)
  | memberAdded group user => exact h.of_texts (texts_regrouped _ _)
  | memberRemoved group user => exact h.of_texts (texts_regrouped _ _)
  | unchanged husers hgroups => exact h.of_texts fun u hu => ⟨u, husers ▸ hu, rfl, rfl, rfl⟩
  | _ => exact h.of_texts fun u hu => ⟨u, hu, rfl, rfl, rfl⟩

/-- Ids and texts that a write keeps stay apart. -/
private theorem noIdAsName_of_texts (h : NoIdAsName s) (husers : ∀ u' ∈ s'.users, ∃ u ∈ s.users,
    u'.id = u.id ∧ u'.name = u.name ∧ u'.email = u.email) : NoIdAsName s' := by
  intro u' hu' v' hv' hne
  obtain ⟨u, hu, hid, -⟩ := husers u' hu'
  obtain ⟨v, hv, hvid, hname, hemail⟩ := husers v' hv'
  rw [hid, hname, hemail]
  refine h u hu v hv fun heq => hne ?_
  exact s'.eq_of_id_eq hu' hv' (hid.trans ((congrArg User.id heq).trans hvid.symm))

theorem NoIdAsName.step {call : UsersCall} (h : NoIdAsName s) (hkeeps : KeepsIdsApart t s call)
    (he : UsersEffect t s call.op s') : NoIdAsName s' := by
  obtain ⟨caller, op⟩ := call
  cases he with
  | userCreated user hid id name email groups unique =>
    obtain ⟨hname, -⟩ := graphic_of_validateName name
    obtain ⟨hemail, -, -⟩ := graphic_of_validateEmail email
    intro u hu v hv hne x hx
    rcases List.mem_append.1 hu with hold | hold <;> rcases List.mem_append.1 hv with hold' | hold'
    · exact h u hold v hold' hne x hx
    · obtain rfl := List.mem_singleton.1 hold'
      rw [hname, hemail] at hx
      exact (hkeeps u hold).1 x hx
    · obtain rfl := List.mem_singleton.1 hold
      rw [id]
      exact (hkeeps v hold').2 x hx
    · exact absurd ((List.mem_singleton.1 hold).trans (List.mem_singleton.1 hold').symm) hne
  | userUpdated target c found name email groups unique notLast =>
    have htarget := s.mem_of_getUser found
    have hnew : ∀ u ∈ s.users, u.id ≠ target.id → ∀ x ∈ [(c.apply target).name, (c.apply target).email],
        ¬ SameLetters u.id x := by
      intro u hu hid x hx
      have hne : u ≠ target := fun heq => hid (heq ▸ rfl)
      rcases mem_apply hx with hx | hx | hx
      · exact h u hu target htarget hne x hx
      · obtain ⟨raw, hraw, hvalid⟩ := changed_ok name hx
        refine hkeeps target found u hu hne x (List.mem_append_left _ ?_)
        rw [hraw, (graphic_of_validateName hvalid).1]
        exact List.mem_singleton.2 rfl
      · obtain ⟨raw, hraw, hvalid⟩ := changed_ok email hx
        refine hkeeps target found u hu hne x (List.mem_append_right _ ?_)
        rw [hraw, (graphic_of_validateEmail hvalid).1]
        exact List.mem_singleton.2 rfl
    intro u' hu' v' hv' hne x hx
    have hids : u'.id ≠ v'.id := fun heq => hne (Stores.eq_of_id_eq hu' hv' heq)
    obtain ⟨u, hu, huid⟩ : ∃ u ∈ s.users, u'.id = u.id := by
      obtain ⟨u, hu, ⟨-, rfl⟩ | ⟨-, rfl⟩⟩ := Stores.mem_updateUser hu'
      · exact ⟨u, hu, rfl⟩
      · exact ⟨u', hu, rfl⟩
    obtain ⟨v, hv, ⟨hvid, rfl⟩ | ⟨-, rfl⟩⟩ := Stores.mem_updateUser hv'
    · obtain rfl := s.eq_of_id_eq hv htarget hvid
      rw [huid]
      exact hnew u hu (huid ▸ hids) x hx
    · rw [huid]
      exact h u hu v' hv (fun heq => hids (huid.trans (congrArg User.id heq))) x hx
  | userDeleted target => exact noIdAsName_of_texts h fun u hu => ⟨u, List.mem_of_mem_filter hu, rfl, rfl, rfl⟩
  | groupDeleted group found notBuiltIn hgroups husers => exact noIdAsName_of_texts h (texts_left husers)
  | memberAdded group user => exact noIdAsName_of_texts h (texts_regrouped _ _)
  | memberRemoved group user => exact noIdAsName_of_texts h (texts_regrouped _ _)
  | unchanged husers hgroups => exact noIdAsName_of_texts h fun u hu => ⟨u, husers ▸ hu, rfl, rfl, rfl⟩
  | _ => exact noIdAsName_of_texts h fun u hu => ⟨u, hu, rfl, rfl, rfl⟩

/-! ### Runs from seeded stores -/

private theorem names_seeded (externalAuth : Bool) (rootId : Str) : Names t (seeded t externalAuth rootId) := by
  cases externalAuth with
  | true => constructor <;> intro u hu <;> exact absurd hu List.not_mem_nil
  | false =>
    refine ⟨fun u hu x hx => ?_, fun u hu => ?_, fun u hu v hv hne => ?_⟩
    · obtain rfl := List.mem_singleton.1 hu
      rcases List.mem_cons.1 hx with rfl | hx
      · exact graphic_of_all rfl
      · obtain rfl := List.mem_singleton.1 hx
        exact graphic_of_all rfl
    · obtain rfl := List.mem_singleton.1 hu
      simp
    · exact absurd ((List.mem_singleton.1 hu).trans (List.mem_singleton.1 hv).symm) hne

private theorem noIdAsName_seeded (externalAuth : Bool) (rootId : Str) : NoIdAsName (seeded t externalAuth rootId) := by
  intro u hu v hv hne
  cases externalAuth with
  | true => exact absurd hu List.not_mem_nil
  | false => exact absurd ((List.mem_singleton.1 hu).trans (List.mem_singleton.1 hv).symm) hne

/-- In every reachable state the names and emails of distinct users are disjoint, and every user is found by id, name
and email exactly when no name or email is the id of another user; it is in the runs that keep ids and names apart. -/
theorem one_namespace (externalAuth : Bool) (rootId : Str) :
    (∀ history s, Run (usersStep t opts) (seeded t externalAuth rootId) history s →
      OneNamespace t s ∧ (Resolves t s ↔ NoIdAsName s)) ∧
    ∀ history s, GuardedRun (usersStep t opts) (KeepsIdsApart t) (seeded t externalAuth rootId) history s →
      Resolves t s := by
  have hnames : ∀ history s, Run (usersStep t opts) (seeded t externalAuth rootId) history s → Names t s :=
    fun _ _ h => h.invariant (names_seeded externalAuth rootId) fun _ _ _ hs _ hst => hs.step (usersStep_effect hst)
  constructor
  · intro history s h
    exact ⟨(hnames history s h).apart, (hnames history s h).resolves_iff⟩
  · intro history s h
    refine (hnames history s h.run).resolves_iff.2 ?_
    exact h.invariant (noIdAsName_seeded externalAuth rootId) fun _ _ _ hs hg hst => hs.step hg (usersStep_effect hst)

/-- Calls of the host: `ann`, and a user with the given name. -/
def annCalls (name : Str) : List UsersCall :=
  [⟨none, .createUser "0b1e5a2c-8d3f-4c6a-9e7b-112233445566".toList
     { name := "ann".toList, email := "ann@localhost".toList }⟩,
   ⟨none, .createUser "5f0c9f3e-47a1-4d38-8a52-665544332211".toList { name := name, email := "bob@localhost".toList }⟩]

theorem one_namespace_bob :
    let t : CaseTable := fun _ c _ => [c]
    ∃ history s, Run (usersStep t {}) (seeded t false ['r']) history s ∧ s.users.length = 3 ∧ NoIdAsName s ∧
      Resolves t s := by
  intro t
  have hexec : ∃ history s, exec (usersStep t {}) (seeded t false ['r']) (annCalls "bob".toList) = some (history, s) ∧
      s.users.length = 3 ∧ NoIdAsName s := ⟨_, _, rfl, by decide, by decide⟩
  obtain ⟨history, s, hexec, hlength, hids⟩ := hexec
  have hrun := run_of_exec hexec
  exact ⟨history, s, hrun, hlength, hids, ((one_namespace false ['r']).1 history s hrun).2.2 hids⟩

/-- A user with the id of `ann` as its name: looking it up by its name finds `ann`. -/
theorem find_user_by_name_of_other :
    let t : CaseTable := fun _ c _ => [c]
    let name := "0b1e5a2c-8d3f-4c6a-9e7b-112233445566".toList
    ∃ history s u v, Run (usersStep t {}) (seeded t false ['r']) history s ∧ u ∈ s.users ∧ v ∈ s.users ∧
      v.name = name ∧ s.findUser t v.name = some u ∧ u ≠ v := by
  intro t name
  have hexec : ∃ history s u v, exec (usersStep t {}) (seeded t false ['r']) (annCalls name) = some (history, s) ∧
      u ∈ s.users ∧ v ∈ s.users ∧ v.name = name ∧ s.findUser t v.name = some u ∧ u ≠ v :=
    ⟨_, _, ⟨name, "ann".toList, "ann@localhost".toList, [usersGroup], false, none⟩,
      ⟨"5f0c9f3e-47a1-4d38-8a52-665544332211".toList, name, "bob@localhost".toList, [usersGroup], false, none⟩,
      rfl, by decide, by decide, rfl, by decide, by decide⟩
  obtain ⟨history, s, u, v, hexec, h⟩ := hexec
  exact ⟨history, s, u, v, run_of_exec hexec, h⟩

end CliServer
