import CliServer.Lib.Transition
import CliServer.Users.Service

/-!
# No privilege escalation

A call must not let a user or a token do what it could not do before, unless the caller can do it.  Two calls can:
`create_user` puts a user into the default group without asking whether the caller holds its permissions
(`default_group_escalates`), and every grant check passes `b:*` for a caller who does not hold `b` (`coverage_unsound`).
`GrantsHeld` is the condition that a call runs into neither, and `no_escalation` the law for the runs that meet it.

The proof compares each user after a call with the one before (`Grows`): it may do what it could do, and what the
caller can.  Tokens follow, since a token only ever has what its user has.
-/

namespace CliServer

open Transition

variable (t : CaseTable)

/-- User `id` may do `r`. -/
def CanUser (s : Stores) (id r : Str) : Prop :=
  ∃ u ∈ s.users, u.id = id ∧ hasPermission t (s.userPermissions t u) r = true

/-- Token `id` may do `r` at a moment. -/
def CanToken (s : Stores) (now : Nat) (id r : Str) : Prop :=
  ∃ record ∈ s.tokens, record.id = id ∧ ∃ ctx, contextForApiToken t s record now = .ok ctx ∧ ctx.can t r = true

/-- Nobody gains what the caller does not have. -/
structure NoEscalation (ctx : AuthContext) (s s' : Stores) : Prop where
  users : ∀ id r, CanUser t s' id r → CanUser t s id r ∨ ctx.can t r = true
  tokens : ∀ now id r, CanToken t s' now id r → CanToken t s now id r ∨ ctx.can t r = true

/-- A caller with its live permissions: signed in with a session, or with a token of the store. -/
inductive Live (s : Stores) (ctx : AuthContext) : Prop
  | session (mem : ctx.user ∈ s.users) (enabled : ctx.user.disabled = false)
      (permissions : ctx.permissions = s.userPermissions t ctx.user)
  | token (record : ApiToken) (now : Nat) (mem : record ∈ s.tokens)
      (context : contextForApiToken t s record now = .ok ctx)

/-- The caller holds the stem of each of the permissions that it holds. -/
def StemsHeld (ctx : AuthContext) (permissions : List Str) : Prop :=
  ∀ p ∈ permissions, ctx.can t p = true → ∀ b, IsStem p b → ctx.can t b = true

/-- The scope entries of a user's tokens. -/
def scopesOf (s : Stores) (userId : Str) : List Str :=
  (s.tokens.filter (·.userId = userId)).flatMap fun token => token.permissions.getD []

/-- The scope entries of the tokens of a group's members. -/
def memberScopes (s : Stores) (group : Str) : List Str :=
  (s.users.filter fun u => inGroup t u group).flatMap fun u => scopesOf s u.id

/-- The condition on new permissions of a group: when it has members, the caller holds the stems of the permissions, and
those of the scope entries of the members' tokens. -/
def GroupGrantHeld (s : Stores) (ctx : AuthContext) (group : Str) (permissions : List Str) : Prop :=
  (∃ u ∈ s.users, inGroup t u group = true) →
    StemsHeld t ctx permissions ∧ StemsHeld t ctx (memberScopes t s group)

/-- The condition on a call: a user who gets the default group is one to whom the caller could grant it, and what is
granted (or comes back to life) has no permission `b:*` that the caller holds without holding `b`. -/
def GrantsHeld (s : Stores) (ctx : AuthContext) : UsersOp → Prop
  | .createUser _ req =>
    let granted := s.effectivePermissions t (newUserGroups t s req)
    (resolveGroups t s req.groups = .ok [] → covers t ctx.permissions granted = true) ∧ StemsHeld t ctx granted
  | .updateUser idOrName req => ∀ target, s.getUser t idOrName = some target →
    let enables := target.disabled = true ∧ req.disabled = some false
    let added (groups : List Str) := groups.filter fun g => !inGroup t target g
    (enables → StemsHeld t ctx (s.userPermissions t target) ∧ StemsHeld t ctx (scopesOf s target.id)) ∧
    ∀ groups, resolveGroups t s req.groups = .ok groups → added groups ≠ [] →
      StemsHeld t ctx (s.effectivePermissions t (added groups)) ∧ StemsHeld t ctx (scopesOf s target.id)
  | .createGroup name _ permissions => GroupGrantHeld t s ctx (strip name) (permissions.getD [])
  | .updateGroup name _ permissions => ∀ group perms, s.getGroup t name = some group → permissions = some perms →
    GroupGrantHeld t s ctx group.name perms
  | .addMember group idOrName => ∀ g target, s.getGroup t group = some g → s.getUser t idOrName = some target →
    inGroup t target g.name = false →
      StemsHeld t ctx (s.effectivePermissions t [g.name]) ∧ StemsHeld t ctx (scopesOf s target.id)
  | .createToken _ _ req => StemsHeld t ctx (req.permissions.getD [])
  | .deleteUser _ | .deleteGroup _ | .removeMember _ _ | .revokeToken _ => True

/-- The permissions in the stores have passed `validate_permissions`. -/
structure ValidGrants (s : Stores) : Prop where
  groups : ∀ e ∈ s.groups, ∀ p ∈ e.2.permissions, validPermission p = true
  scopes : ∀ token ∈ s.tokens, ∀ p ∈ token.permissions.getD [], validPermission p = true

variable {t}

/-! ### What a caller with the stems can do -/

private theorem can_of_matches {ctx : AuthContext} {ps : List Str} {p r : Str} (hstems : StemsHeld t ctx ps)
    (hp : p ∈ ps)
    (hvalid : validPermission p = true) (hcan : ctx.can t p = true) (hr : permissionMatches t p r = true) :
    ctx.can t r = true := by
  refine @hasPermission_of_covers t ctx.permissions [p] r ?_ ?_ ?_ ?_
  · simpa using hvalid
  · simpa [covers] using (show hasPermission t ctx.permissions p = true from hcan)
  · simpa using fun b hb => (show hasPermission t ctx.permissions b = true from hstems p hp hcan b hb)
  · rwa [hasPermission_singleton]

private theorem can_of_hasPermission {ctx : AuthContext} {ps : List Str} {r : Str} (hstems : StemsHeld t ctx ps)
    (hvalid : ∀ p ∈ ps, validPermission p = true) (hcovers : covers t ctx.permissions ps = true)
    (hr : hasPermission t ps r = true) : ctx.can t r = true := by
  obtain ⟨p, hp, hpr⟩ := hasPermission_iff.1 hr
  exact can_of_matches hstems hp (hvalid p hp) (covers_iff.1 hcovers p hp) hpr

theorem StemsHeld.strip {ctx : AuthContext} {ps qs : List Str} (h : StemsHeld t ctx ps)
    (hqs : ∀ q ∈ qs, ∃ p ∈ ps, q = strip p) : StemsHeld t ctx qs := by
  intro q hq hcan b hb
  obtain ⟨p, hp, rfl⟩ := hqs q hq
  refine h p hp ?_ b ?_
  · rwa [AuthContext.can, hasPermission_strip] at hcan
  · rwa [IsStem, strip_strip] at hb

/-- The permissions of users' groups have passed `validate_permissions` too. -/
theorem ValidGrants.effectivePermissions {s : Stores} (h : ValidGrants s) (groups : List Str) :
    ∀ p ∈ s.effectivePermissions t groups, validPermission p = true := by
  intro p hp
  obtain ⟨l, hl, q, hq, rfl⟩ := mem_mergePermissions hp
  obtain ⟨name, -, hmap⟩ := List.mem_filterMap.1 hl
  obtain ⟨g, hg, rfl⟩ := Option.map_eq_some_iff.1 hmap
  obtain ⟨e, he, rfl⟩ := Option.map_eq_some_iff.1 hg
  rw [validPermission, strip_strip]
  exact h.groups e (List.mem_of_find?_eq_some he) q hq

private theorem mem_scopesOf {s : Stores} {record : ApiToken} {scope : List Str} {p : Str} (hrecord : record ∈ s.tokens)
    (hscope : record.permissions = some scope) (hp : p ∈ scope) : p ∈ scopesOf s record.userId := by
  refine List.mem_flatMap.2 ⟨record, List.mem_filter.2 ⟨hrecord, by simp⟩, ?_⟩
  rw [hscope]
  exact hp

private theorem ValidGrants.scopesOf {s : Stores} (h : ValidGrants s) (id : Str) :
    ∀ p ∈ scopesOf s id, validPermission p = true := by
  intro p hp
  obtain ⟨token, htoken, hp⟩ := List.mem_flatMap.1 hp
  exact h.scopes token (List.mem_of_mem_filter htoken) p hp

/-! ### Users before and after a call -/

/-- User `u'` after a call of `ctx` gained nothing over `u`, the user before it, that `ctx` does not have. -/
structure Grows (t : CaseTable) (ctx : AuthContext) (s s' : Stores) (u u' : User) : Prop where
  id : u'.id = u.id
  permissions : ∀ r, hasPermission t (s'.userPermissions t u') r = true →
    hasPermission t (s.userPermissions t u) r = true ∨ ctx.can t r = true
  enabled : u'.disabled = false →
    u.disabled = false ∨ ∀ r, hasPermission t (s.userPermissions t u) r = true → ctx.can t r = true
  scopes : ((∀ r, hasPermission t (s'.userPermissions t u') r = true →
      hasPermission t (s.userPermissions t u) r = true) ∧ (u'.disabled = false → u.disabled = false)) ∨
    ∀ p ∈ scopesOf s u.id, ctx.can t p = true → ∀ r, permissionMatches t p r = true → ctx.can t r = true

/-- A user that gained nothing. -/
private theorem Grows.of_le {ctx : AuthContext} {s s' : Stores} {u u' : User} (hid : u'.id = u.id)
    (hdisabled : u'.disabled = false → u.disabled = false)
    (h : ∀ r, hasPermission t (s'.userPermissions t u') r = true →
      hasPermission t (s.userPermissions t u) r = true) : Grows t ctx s s' u u' where
  id := hid
  permissions := fun r hr => .inl (h r hr)
  enabled := fun he => .inl (hdisabled he)
  scopes := .inl ⟨h, hdisabled⟩

/-- The tokens of a user that grew gained nothing that the caller does not have. -/
theorem Grows.token {ctx ctx' : AuthContext} {s s' : Stores} {u : User} {record : ApiToken} {now : Nat} {r : Str}
    (h : Grows t ctx s s' u ctx'.user) (hu : u ∈ s.users) (hrecord : record ∈ s.tokens)
    (hctx : contextForApiToken t s' record now = .ok ctx') (hr : ctx'.can t r = true) :
    CanToken t s now record.id r ∨ ctx.can t r = true := by
  obtain ⟨hexpired, user, -, hid, hdisabled, rfl⟩ := contextForApiToken_eq_ok.1 hctx
  have hcontext := fun he : u.disabled = false =>
    (@contextForApiToken_eq_ok t s record now _).2 ⟨hexpired, u, hu, h.id.symm.trans hid, he, rfl⟩
  rw [AuthContext.can] at hr
  cases hscope : record.permissions with
  | none =>
    simp only [hscope] at hr hcontext
    rcases h.permissions r hr with hheld | hcan
    · rcases h.enabled hdisabled with he | hall
      · exact .inl ⟨record, hrecord, rfl, _, hcontext he, hheld⟩
      · exact .inr (hall r hheld)
    · exact .inr hcan
  | some scope =>
    simp only [hscope] at hr hcontext
    obtain ⟨p, hp, hpr⟩ := hasPermission_iff.1 hr
    obtain ⟨hp, hheld⟩ := List.mem_filter.1 hp
    -- The entry `p` was held before, or the caller holds it and what it matches.
    have hbefore : u.disabled = false → hasPermission t (s.userPermissions t u) p = true →
        CanToken t s now record.id r := fun he hheld =>
      ⟨record, hrecord, rfl, _, hcontext he, hasPermission_iff.2 ⟨p, List.mem_filter.2 ⟨hp, hheld⟩, hpr⟩⟩
    rcases h.scopes with ⟨hle, hle'⟩ | hscopes
    · exact .inl (hbefore (hle' hdisabled) (hle p hheld))
    · have hmem : p ∈ scopesOf s u.id := by
        rw [← h.id, hid]
        exact mem_scopesOf hrecord hscope hp
      rcases h.permissions p hheld with hheld | hcan
      · rcases h.enabled hdisabled with he | hall
        · exact .inl (hbefore he hheld)
        · exact .inr (hscopes p hmem (hall p hheld) r hpr)
      · exact .inr (hscopes p hmem hcan r hpr)

/-- Nobody gains what the caller does not have, when every user grew or is new and has nothing else. -/
private theorem noEscalation_of_grows {ctx : AuthContext} {s s' : Stores}
    (htokens : ∀ token ∈ s'.tokens, token ∈ s.tokens)
    (husers : ∀ u' ∈ s'.users, (∃ u ∈ s.users, Grows t ctx s s' u u') ∨
      ((∀ token ∈ s.tokens, token.userId ≠ u'.id) ∧
        ∀ r, hasPermission t (s'.userPermissions t u') r = true → ctx.can t r = true)) :
    NoEscalation t ctx s s' where
  users := by
    rintro id r ⟨u', hu', rfl, hr⟩
    rcases husers u' hu' with ⟨u, hu, hgrows⟩ | ⟨-, hnew⟩
    · rcases hgrows.permissions r hr with hr | hcan
      · exact .inl ⟨u, hu, hgrows.id.symm, hr⟩
      · exact .inr hcan
    · exact .inr (hnew r hr)
  tokens := by
    rintro now id r ⟨record, hrecord, rfl, ctx', hctx', hr⟩
    obtain ⟨-, user, hmem, hid, -, rfl⟩ := contextForApiToken_eq_ok.1 hctx'
    rcases husers user hmem with ⟨u, hu, hgrows⟩ | ⟨hfresh, -⟩
    · exact hgrows.token hu (htokens record hrecord) hctx' hr
    · exact absurd hid.symm (hfresh record (htokens record hrecord))

/-! ### The groups of a user -/

/-- The group of a name grants `r`. -/
def GroupGrants (t : CaseTable) (s : Stores) (name r : Str) : Prop :=
  ∃ g, s.getGroup t name = some g ∧ ∃ p ∈ g.permissions, strip p ≠ [] ∧ permissionMatches t p r = true

private theorem hasPermission_groups {s : Stores} {groups : List Str} {r : Str} :
    hasPermission t (s.effectivePermissions t groups) r = true ↔ ∃ name ∈ groups, GroupGrants t s name r :=
  hasPermission_effectivePermissions

theorem GroupGrants.congr {s : Stores} {name name' r : Str} (h : GroupGrants t s name r)
    (hname : lower t name = lower t name') : GroupGrants t s name' r := by
  rwa [GroupGrants, Stores.getGroup, ← hname]

/-! ### The operations -/

private theorem noEscalation_createUser {ctx : AuthContext} {s : Stores} {user : User}
    (hid : user.id ∉ s.users.map User.id)
    (hfresh : ∀ token ∈ s.tokens, token.userId ≠ user.id)
    (hcan : ∀ r, hasPermission t (s.userPermissions t user) r = true → ctx.can t r = true) :
    NoEscalation t ctx s (s.addUser user hid) := by
  refine noEscalation_of_grows (fun token htoken => htoken) fun u' hu' => ?_
  rcases List.mem_append.1 hu' with hu' | hu'
  · exact .inl ⟨u', hu', .of_le rfl id fun r hr => hr⟩
  · obtain rfl := List.mem_singleton.1 hu'
    exact .inr ⟨hfresh, hcan⟩

private theorem noEscalation_updateUser {ctx : AuthContext} {s : Stores} {target : User} {c : UserChanges}
    (hvalid : ValidGrants s) (htarget : target ∈ s.users)
    (henables : target.disabled = true → c.disabled = some false →
      (∀ r, hasPermission t (s.userPermissions t target) r = true → ctx.can t r = true) ∧
        StemsHeld t ctx (scopesOf s target.id))
    (hgroups : ∀ groups, c.groups = some groups → (∀ name ∈ groups, inGroup t target name = true) ∨
      (∀ name ∈ groups, inGroup t target name = false → ∀ r, GroupGrants t s name r → ctx.can t r = true) ∧
        StemsHeld t ctx (scopesOf s target.id)) :
    NoEscalation t ctx s (s.updateUser target.id c) := by
  have hscopes : StemsHeld t ctx (scopesOf s target.id) → ∀ p ∈ scopesOf s target.id, ctx.can t p = true →
      ∀ r, permissionMatches t p r = true → ctx.can t r = true := fun hstems p hp hcan r hr =>
    can_of_matches hstems hp (hvalid.scopesOf _ p hp) hcan hr
  -- A group the target is in grants nothing new.
  have hin : ∀ name r, inGroup t target name = true → GroupGrants t s name r →
      hasPermission t (s.userPermissions t target) r = true := by
    intro name r hname hgrants
    obtain ⟨x, hx, heq⟩ := inGroup_iff.1 hname
    exact hasPermission_groups.2 ⟨x, hx, hgrants.congr heq.symm⟩
  have hgrows : Grows t ctx s (s.updateUser target.id c) target (c.apply target) := by
    have hperms : ∀ r, hasPermission t ((s.updateUser target.id c).userPermissions t (c.apply target)) r = true →
        ∃ name ∈ c.groups.getD target.groups, GroupGrants t s name r := fun r hr => hasPermission_groups.1 hr
    have hkept : c.groups = none → ∀ r, hasPermission t
        ((s.updateUser target.id c).userPermissions t (c.apply target)) r = true →
        hasPermission t (s.userPermissions t target) r = true := by
      intro hnone r hr
      obtain ⟨name, hname, hgrants⟩ := hperms r hr
      rw [hnone] at hname
      exact hasPermission_groups.2 ⟨name, hname, hgrants⟩
    have hle : ∀ groups, c.groups = some groups → (∀ name ∈ groups, inGroup t target name = true) → ∀ r,
        hasPermission t ((s.updateUser target.id c).userPermissions t (c.apply target)) r = true →
        hasPermission t (s.userPermissions t target) r = true := by
      intro groups hsome hall r hr
      obtain ⟨name, hname, hgrants⟩ := hperms r hr
      rw [hsome] at hname
      exact hin name r (hall name hname) hgrants
    have hdisabled : ¬ (target.disabled = true ∧ c.disabled = some false) →
        (c.apply target).disabled = false → target.disabled = false := by
      intro hno happly
      have happly : c.disabled.getD target.disabled = false := happly
      cases hd : c.disabled with
      | none => rwa [hd] at happly
      | some d =>
        rw [hd] at happly
        obtain rfl : d = false := happly
        exact Bool.eq_false_iff.2 fun h => hno ⟨h, hd⟩
    refine ⟨rfl, fun r hr => ?_, fun he => ?_, ?_⟩
    · cases hg : c.groups with
      | none => exact .inl (hkept hg r hr)
      | some groups =>
        rcases hgroups groups hg with hall | ⟨hcan, -⟩
        · exact .inl (hle groups hg hall r hr)
        · obtain ⟨name, hname, hgrants⟩ := hperms r hr
          rw [hg] at hname
          by_cases hname' : inGroup t target name = true
          · exact .inl (hin name r hname' hgrants)
          · exact .inr (hcan name hname (by simpa using hname') r hgrants)
    · by_cases hen : target.disabled = true ∧ c.disabled = some false
      · exact .inr (henables hen.1 hen.2).1
      · exact .inl (hdisabled hen he)
    · by_cases hen : target.disabled = true ∧ c.disabled = some false
      · exact .inr (hscopes (henables hen.1 hen.2).2)
      · cases hg : c.groups with
        | none => exact .inl ⟨hkept hg, hdisabled hen⟩
        | some groups =>
          rcases hgroups groups hg with hall | ⟨-, hstems⟩
          · exact .inl ⟨hle groups hg hall, hdisabled hen⟩
          · exact .inr (hscopes hstems)
  refine noEscalation_of_grows (fun token htoken => htoken) fun u' hu' => ?_
  obtain ⟨u, hu, rfl⟩ := List.mem_map.1 hu'
  refine .inl ⟨u, hu, ?_⟩
  by_cases hu_id : u.id = target.id
  · obtain rfl := s.eq_of_id_eq hu htarget hu_id
    rw [if_pos rfl]
    exact hgrows
  · rw [if_neg hu_id]
    exact .of_le rfl id fun r hr => hr

/-- A change of the groups' permissions. -/
private theorem noEscalation_groups {ctx : AuthContext} {s s' : Stores} {group : Str} {perms : List Str}
    (hvalid : ValidGrants s) (husers : s'.users = s.users) (htokens : s'.tokens = s.tokens)
    (hgrants : ∀ name r, GroupGrants t s' name r → GroupGrants t s name r ∨
      lower t name = lower t group ∧ hasPermission t perms r = true)
    (hperms : ∀ p ∈ perms, validPermission p = true) (hcovers : covers t ctx.permissions perms = true)
    (hheld : GroupGrantHeld t s ctx group perms) : NoEscalation t ctx s s' := by
  refine noEscalation_of_grows (fun token htoken => htokens ▸ htoken) fun u hu => .inl ⟨u, husers ▸ hu, ?_⟩
  rw [husers] at hu
  by_cases hin : inGroup t u group = true
  · obtain ⟨hstems, hscopes⟩ := hheld ⟨u, hu, hin⟩
    refine ⟨rfl, fun r hr => ?_, .inl, .inr fun p hp hcan r hpr => ?_⟩
    · obtain ⟨name, hname, hg⟩ := hasPermission_groups.1 hr
      rcases hgrants name r hg with hg | ⟨-, hr⟩
      · exact .inl (hasPermission_groups.2 ⟨name, hname, hg⟩)
      · exact .inr (can_of_hasPermission hstems hperms hcovers hr)
    · refine can_of_matches hscopes ?_ (hvalid.scopesOf _ p hp) hcan hpr
      exact List.mem_flatMap.2 ⟨u, List.mem_filter.2 ⟨hu, hin⟩, hp⟩
  · refine .of_le rfl id fun r hr => ?_
    obtain ⟨name, hname, hg⟩ := hasPermission_groups.1 hr
    rcases hgrants name r hg with hg | ⟨heq, -⟩
    · exact hasPermission_groups.2 ⟨name, hname, hg⟩
    · exact absurd (inGroup_iff.2 ⟨name, hname, heq⟩) hin

/-- A call that only takes away. -/
private theorem noEscalation_of_le {ctx : AuthContext} {s s' : Stores} (htokens : ∀ token ∈ s'.tokens, token ∈ s.tokens)
    (hgroups : ∀ name r, GroupGrants t s' name r → GroupGrants t s name r)
    (husers : ∀ u' ∈ s'.users, ∃ u ∈ s.users, u'.id = u.id ∧ u'.disabled = u.disabled ∧ ∀ g ∈ u'.groups, g ∈ u.groups) :
    NoEscalation t ctx s s' := by
  refine noEscalation_of_grows htokens fun u' hu' => .inl ?_
  obtain ⟨u, hu, hid, hdisabled, hle⟩ := husers u' hu'
  refine ⟨u, hu, .of_le hid (fun h => hdisabled ▸ h) fun r hr => ?_⟩
  obtain ⟨name, hname, hg⟩ := hasPermission_groups.1 hr
  exact hasPermission_groups.2 ⟨name, hle name hname, hgroups name r hg⟩

private theorem noEscalation_createToken {ctx : AuthContext} {s : Stores} {token : ApiToken} {raw : Option (List Str)}
    (hlive : ctx.user ∈ s.users ∧ ctx.permissions = s.userPermissions t ctx.user) (huser : token.userId = ctx.user.id)
    (hscope : scopeOf t ctx raw = .ok token.permissions) (hstems : StemsHeld t ctx (raw.getD [])) :
    NoEscalation t ctx s { s with tokens := s.tokens ++ [token] } where
  users := fun id r h => .inl h
  tokens := by
    rintro now id r ⟨record, hrecord, rfl, ctx', hctx', hr⟩
    rcases List.mem_append.1 hrecord with hrecord | hrecord
    · exact .inl ⟨record, hrecord, rfl, ctx', hctx', hr⟩
    · obtain rfl := List.mem_singleton.1 hrecord
      obtain ⟨-, user, hmem, hid, -, rfl⟩ := contextForApiToken_eq_ok.1 hctx'
      obtain rfl := s.eq_of_id_eq hmem hlive.1 (hid.trans huser)
      obtain ⟨-, hscope⟩ := scopeOf_ok hscope
      have hsame : Stores.userPermissions t { s with tokens := s.tokens ++ [record] } ctx.user = ctx.permissions :=
        hlive.2.symm
      rw [AuthContext.can] at hr
      cases hperms : record.permissions with
      | none =>
        simp only [hperms, hsame] at hr
        exact .inr hr
      | some scope =>
        simp only [hperms, hsame] at hr
        obtain ⟨p, hp, hpr⟩ := hasPermission_iff.1 hr
        have hmem := List.mem_of_mem_filter hp
        rw [hperms] at hscope
        obtain ⟨hcan, hvalid, -⟩ := hscope p hmem
        exact .inr (can_of_matches (hstems.strip fun q hq => (hscope q hq).2.2) hmem hvalid hcan hpr)

/-! ### A call -/

theorem ValidGrants.mono {s s' : Stores} (h : ValidGrants s) (hgroups : ∀ e ∈ s'.groups, e ∈ s.groups)
    (htokens : ∀ token ∈ s'.tokens, token ∈ s.tokens) : ValidGrants s' where
  groups := fun e he => h.groups e (hgroups e he)
  scopes := fun token htoken => h.scopes token (htokens token htoken)

private theorem validGrants_seed (rootId : Str) : ValidGrants (seed rootId) where
  groups := by
    intro e he p hp
    rcases List.mem_cons.1 he with rfl | he
    · obtain rfl := List.mem_singleton.1 hp
      decide
    · obtain rfl := List.mem_singleton.1 he
      obtain rfl := List.mem_singleton.1 hp
      decide
  scopes := fun token htoken => absurd htoken List.not_mem_nil

private theorem getGroup_createGroup {s : Stores} {key name : Str} {g g' : Group}
    (h : Stores.getGroup t { s with groups := s.groups ++ [(key, g)] } name = some g') :
    s.getGroup t name = some g' ∨ lower t name = key ∧ g' = g := by
  obtain ⟨e, he, rfl⟩ := Option.map_eq_some_iff.1 h
  simp only [List.find?_append] at he
  rcases Option.or_eq_some_iff.1 he with he | ⟨-, he⟩
  · exact .inl (congrArg (Option.map Prod.snd) he)
  · have hkey := List.find?_some he
    obtain rfl := List.mem_singleton.1 (List.mem_of_find?_eq_some he)
    exact .inr ⟨(of_decide_eq_true hkey).symm, rfl⟩

private theorem getGroup_updateGroup {s : Stores} {key name : Str} {description : Option Str}
    {permissions : Option (List Str)} {g' : Group}
    (h : (s.updateGroup key description permissions).getGroup t name = some g') :
    ∃ g, s.getGroup t name = some g ∧
      (g' = g ∨ lower t name = key ∧ g'.permissions = permissions.getD g.permissions) := by
  obtain ⟨e', he', rfl⟩ := Option.map_eq_some_iff.1 h
  rw [Stores.updateGroup, List.find?_map, Option.map_eq_some_iff] at he'
  obtain ⟨e, he, rfl⟩ := he'
  have hkeep : ((fun x : Str × Group => decide (x.1 = lower t name)) ∘ fun e : Str × Group =>
      if e.1 = key then (e.1, { e.2 with
        description := description.or e.2.description, permissions := permissions.getD e.2.permissions }) else e) =
      fun x => decide (x.1 = lower t name) := by
    funext x
    simp only [Function.comp_apply]
    split <;> rfl
  rw [hkeep] at he
  refine ⟨e.2, congrArg (Option.map Prod.snd) he, ?_⟩
  by_cases hkey : e.1 = key
  · rw [if_pos hkey]
    have hname := List.find?_some he
    exact .inr ⟨(of_decide_eq_true hname).symm.trans hkey, rfl⟩
  · rw [if_neg hkey]
    exact .inl rfl

variable {opts : AuthServiceOptions} {s s' : Stores} {call : UsersCall} {ctx : AuthContext}

theorem Live.self (h : Live t s ctx) : ctx.user ∈ s.users ∧ ctx.user.disabled = false := by
  cases h with
  | session mem enabled _ => exact ⟨mem, enabled⟩
  | token record now _ context =>
    obtain ⟨-, user, hmem, -, hdisabled, rfl⟩ := contextForApiToken_eq_ok.1 context
    exact ⟨hmem, hdisabled⟩

theorem Live.permissions (h : Live t s ctx) (hsession : ctx.session = true) :
    ctx.permissions = s.userPermissions t ctx.user := by
  cases h with
  | session _ _ permissions => exact permissions
  | token record now _ context =>
    obtain ⟨-, user, -, -, -, rfl⟩ := contextForApiToken_eq_ok.1 context
    cases hsession

/-- Every operation keeps the permissions in the stores valid. -/
theorem ValidGrants.step (h : ValidGrants s) (hst : usersStep t opts s call = some s') : ValidGrants s' := by
  obtain ⟨caller, op⟩ := call
  cases op with
  | createUser newId req =>
    simp only [usersStep] at hst
    split at hst
    · obtain ⟨user, hid, rfl, -⟩ := createUser_ok (ok_of_toOption hst)
      exact h.mono (fun e he => he) fun token htoken => htoken
    · cases hst
  | updateUser idOrName req =>
    obtain ⟨target, -, hst⟩ := Option.bind_eq_some_iff.1 hst
    obtain ⟨c, rfl, -⟩ := updateUser_ok (ok_of_toOption hst)
    exact h.mono (fun e he => he) fun token htoken => htoken
  | deleteUser idOrName =>
    obtain ⟨target, -, hst⟩ := Option.bind_eq_some_iff.1 hst
    obtain ⟨rfl, -⟩ := deleteUser_ok (ok_of_toOption hst)
    exact h.mono (fun e he => he) fun token htoken => List.mem_of_mem_filter htoken
  | createGroup name description permissions =>
    obtain ⟨perms, rfl, hperms, -⟩ := createGroup_ok (ok_of_toOption hst)
    refine ⟨fun e he p hp => ?_, h.scopes⟩
    rcases List.mem_append.1 he with he | he
    · exact h.groups e he p hp
    · obtain rfl := List.mem_singleton.1 he
      exact (hperms p hp).1
  | updateGroup name description permissions =>
    obtain ⟨group, -, hst⟩ := Option.bind_eq_some_iff.1 hst
    obtain ⟨perms, rfl, -, hperms, -⟩ := updateGroup_ok (ok_of_toOption hst)
    refine ⟨fun e' he' p hp => ?_, h.scopes⟩
    obtain ⟨e, he, rfl⟩ := List.mem_map.1 he'
    split at hp
    · cases perms with
      | none => exact h.groups e he p hp
      | some perms => exact (hperms p hp).1
    · exact h.groups e he p hp
  | deleteGroup name =>
    obtain ⟨group, -, hst⟩ := Option.bind_eq_some_iff.1 hst
    obtain ⟨htokens, hgroups, -⟩ := deleteGroup_le (ok_of_toOption hst)
    exact h.mono hgroups fun token htoken => htokens ▸ htoken
  | addMember name idOrName =>
    obtain ⟨group, -, hst⟩ := Option.bind_eq_some_iff.1 hst
    obtain ⟨user, -, hst⟩ := Option.bind_eq_some_iff.1 hst
    rcases addMember_ok (ok_of_toOption hst) with rfl | ⟨rfl, -⟩
    · exact h
    · exact h.mono (fun e he => he) fun token htoken => htoken
  | removeMember name idOrName =>
    obtain ⟨group, -, hst⟩ := Option.bind_eq_some_iff.1 hst
    obtain ⟨user, -, hst⟩ := Option.bind_eq_some_iff.1 hst
    rcases removeMember_ok (ok_of_toOption hst) with rfl | ⟨rfl, -⟩
    · exact h
    · exact h.mono (fun e he => he) fun token htoken => htoken
  | createToken newId now req =>
    simp only [usersStep] at hst
    split at hst
    · obtain ⟨ctx, -, hst⟩ := Option.bind_eq_some_iff.1 hst
      obtain ⟨-, token, rfl, -, -, hscope⟩ := createToken_ok (ok_of_toOption hst)
      refine ⟨h.groups, fun token' htoken' p hp => ?_⟩
      rcases List.mem_append.1 htoken' with htoken' | htoken'
      · exact h.scopes token' htoken' p hp
      · obtain rfl := List.mem_singleton.1 htoken'
        exact ((scopeOf_ok hscope).2 p hp).2.1
    · cases hst
  | revokeToken id =>
    obtain ⟨ctx, -, hst⟩ := Option.bind_eq_some_iff.1 hst
    obtain ⟨-, hgroups, htokens⟩ := revokeToken_ok (ok_of_toOption hst)
    exact h.mono (fun e he => hgroups ▸ he) htokens

/-- A call of a live caller that meets the condition lets nobody gain what the caller does not have. -/
private theorem noEscalation_step (hvalid : ValidGrants s) (hcaller : call.caller = some ctx) (hlive : Live t s ctx)
    (hheld : GrantsHeld t s ctx call.op) (hst : usersStep t opts s call = some s') : NoEscalation t ctx s s' := by
  obtain ⟨caller, op⟩ := call
  obtain rfl : caller = some ctx := hcaller
  cases op with
  | createUser newId req =>
    simp only [usersStep] at hst
    split at hst
    · rename_i hfresh
      obtain ⟨user, hid, rfl, rfl, hgroups, hcovers, -⟩ := createUser_ok (ok_of_toOption hst)
      obtain ⟨hdefault, hstems⟩ := hheld
      refine noEscalation_createUser hid (fun token htoken heq => ?_) fun r hr => ?_
      · obtain ⟨-, htokens, -⟩ := of_decide_eq_true hfresh
        exact htokens (heq ▸ List.mem_map_of_mem htoken)
      · rw [Stores.userPermissions, hgroups] at hr
        refine can_of_hasPermission hstems (hvalid.effectivePermissions _) ?_ hr
        by_cases hnone : resolveGroups t s req.groups = .ok []
        · exact hdefault hnone
        · exact hcovers ctx rfl hnone
    · cases hst
  | updateUser idOrName req =>
    obtain ⟨target, htarget, hst⟩ := Option.bind_eq_some_iff.1 hst
    obtain ⟨c, rfl, hdisabled, hresolved, hchecks, -⟩ := updateUser_ok (ok_of_toOption hst)
    obtain ⟨hself, hgrants⟩ := hchecks ctx rfl
    obtain ⟨henables, hadds⟩ := hheld target htarget
    have hmem := s.mem_of_getUser htarget
    refine noEscalation_updateUser hvalid hmem (fun hoff hon => ?_) fun groups hgroups => ?_
    · obtain ⟨hstems, hscopes⟩ := henables ⟨hoff, hdisabled ▸ hon⟩
      refine ⟨fun r hr => ?_, hscopes⟩
      rcases hself with hself | hcovers
      · -- A live caller is enabled, so it does not enable itself.
        have heq := s.eq_of_id_eq hmem hlive.self.1 (of_decide_eq_true hself)
        rw [heq, hlive.self.2] at hoff
        cases hoff
      · exact can_of_hasPermission hstems (hvalid.effectivePermissions _) hcovers hr
    · by_cases hadded : (groups.filter fun g => !inGroup t target g) = []
      · exact .inl fun name hname => by simpa using List.filter_eq_nil_iff.1 hadded name hname
      · obtain ⟨hstems, hscopes⟩ := hadds groups (hresolved groups hgroups) hadded
        refine .inr ⟨fun name hname hnot r hr => ?_, hscopes⟩
        refine can_of_hasPermission hstems (hvalid.effectivePermissions _) (hgrants groups hgroups) ?_
        exact hasPermission_groups.2 ⟨name, List.mem_filter.2 ⟨hname, by rw [hnot]; rfl⟩, hr⟩
  | deleteUser idOrName =>
    obtain ⟨target, -, hst⟩ := Option.bind_eq_some_iff.1 hst
    obtain ⟨rfl, -⟩ := deleteUser_ok (ok_of_toOption hst)
    refine noEscalation_of_le (fun token htoken => List.mem_of_mem_filter htoken) (fun name r hg => hg) fun u hu => ?_
    exact ⟨u, List.mem_of_mem_filter hu, rfl, rfl, fun g hg => hg⟩
  | createGroup name description permissions =>
    obtain ⟨perms, rfl, hperms, -, hcovers⟩ := createGroup_ok (ok_of_toOption hst)
    refine @noEscalation_groups t ctx s _ (strip name) perms hvalid rfl rfl (fun name' r hg => ?_)
      (fun p hp => (hperms p hp).1) (hcovers ctx rfl) ?_
    · obtain ⟨g, hg, p, hp, hne, hpr⟩ := hg
      rcases getGroup_createGroup hg with hg | ⟨hname, rfl⟩
      · exact .inl ⟨g, hg, p, hp, hne, hpr⟩
      · exact .inr ⟨hname, hasPermission_iff.2 ⟨p, hp, hpr⟩⟩
    · intro hmember
      obtain ⟨hstems, hscopes⟩ := hheld hmember
      exact ⟨hstems.strip fun p hp => (hperms p hp).2, hscopes⟩
  | updateGroup name description permissions =>
    obtain ⟨group, hgroup, hst⟩ := Option.bind_eq_some_iff.1 hst
    obtain ⟨perms, rfl, hsome, hperms, hcovers, -⟩ := updateGroup_ok (ok_of_toOption hst)
    cases permissions with
    | none =>
      obtain rfl : perms = none := by simpa using hsome
      refine noEscalation_of_le (fun token htoken => htoken) (fun name' r hg => ?_) fun u hu =>
        ⟨u, hu, rfl, rfl, fun g hg => hg⟩
      obtain ⟨g', hg', hp⟩ := hg
      obtain ⟨g, hg, rfl | ⟨-, hset⟩⟩ := getGroup_updateGroup hg'
      · exact ⟨g', hg, hp⟩
      · rw [hset] at hp
        exact ⟨g, hg, hp⟩
    | some ps =>
      obtain ⟨perms, rfl⟩ := Option.isSome_iff_exists.1 hsome
      refine @noEscalation_groups t ctx s _ group.name perms hvalid rfl rfl (fun name' r hg => ?_)
        (fun p hp => (hperms p hp).1) (hcovers ctx rfl) fun hmember => ?_
      · obtain ⟨g', hg', p, hp, hne, hpr⟩ := hg
        obtain ⟨g, hg, rfl | ⟨hname, hset⟩⟩ := getGroup_updateGroup hg'
        · exact .inl ⟨g', hg, p, hp, hne, hpr⟩
        · rw [hset] at hp
          exact .inr ⟨hname, hasPermission_iff.2 ⟨p, hp, hpr⟩⟩
      · obtain ⟨hstems, hscopes⟩ := hheld group ps hgroup rfl hmember
        exact ⟨hstems.strip fun p hp => (hperms p hp).2, hscopes⟩
  | deleteGroup name =>
    obtain ⟨group, -, hst⟩ := Option.bind_eq_some_iff.1 hst
    obtain ⟨htokens, -, hgroups, husers⟩ := deleteGroup_le (ok_of_toOption hst)
    refine noEscalation_of_le (fun token htoken => htokens ▸ htoken) (fun name' r hg => ?_) husers
    obtain ⟨g, hg, hp⟩ := hg
    exact ⟨g, hgroups name' g hg, hp⟩
  | addMember name idOrName =>
    obtain ⟨group, hgroup, hst⟩ := Option.bind_eq_some_iff.1 hst
    obtain ⟨user, huser, hst⟩ := Option.bind_eq_some_iff.1 hst
    rcases addMember_ok (ok_of_toOption hst) with rfl | ⟨rfl, hcovers, -⟩
    · exact noEscalation_of_le (fun token h => h) (fun name' r h => h) fun u hu => ⟨u, hu, rfl, rfl, fun g hg => hg⟩
    refine noEscalation_updateUser hvalid (s.mem_of_getUser huser) (fun _ hon => by cases hon) fun groups hgroups => ?_
    obtain rfl := Option.some.inj hgroups
    have hold : ∀ x ∈ user.groups, inGroup t user x = true := fun x hx => inGroup_iff.2 ⟨x, hx, rfl⟩
    by_cases hin : inGroup t user group.name = true
    · refine .inl fun x hx => ?_
      rcases List.mem_append.1 hx with hx | hx
      · exact hold x hx
      · rwa [List.mem_singleton.1 hx]
    · obtain ⟨hstems, hscopes⟩ := hheld group user hgroup huser (by simpa using hin)
      refine .inr ⟨fun x hx hnot r hr => ?_, hscopes⟩
      refine can_of_hasPermission hstems (hvalid.effectivePermissions _) (hcovers ctx rfl) ?_
      rcases List.mem_append.1 hx with hx | hx
      · rw [hold x hx] at hnot
        cases hnot
      · exact hasPermission_groups.2 ⟨x, hx, hr⟩
  | removeMember name idOrName =>
    obtain ⟨group, -, hst⟩ := Option.bind_eq_some_iff.1 hst
    obtain ⟨user, huser, hst⟩ := Option.bind_eq_some_iff.1 hst
    rcases removeMember_ok (ok_of_toOption hst) with rfl | ⟨rfl, -⟩
    · exact noEscalation_of_le (fun token h => h) (fun name' r h => h) fun u hu => ⟨u, hu, rfl, rfl, fun g hg => hg⟩
    refine noEscalation_updateUser hvalid (s.mem_of_getUser huser) (fun _ hon => by cases hon) fun groups hgroups => ?_
    obtain rfl := Option.some.inj hgroups
    exact .inl fun x hx => inGroup_iff.2 ⟨x, List.mem_of_mem_filter hx, rfl⟩
  | createToken newId now req =>
    simp only [usersStep] at hst
    split at hst
    · obtain ⟨hsession, token, rfl, -, huser, hscope⟩ := createToken_ok (ok_of_toOption hst)
      exact noEscalation_createToken ⟨hlive.self.1, hlive.permissions hsession⟩ huser hscope hheld
    · cases hst
  | revokeToken id =>
    obtain ⟨husers, hgroups, htokens⟩ := revokeToken_ok (ok_of_toOption hst)
    refine noEscalation_of_le htokens (fun name r hg => ?_) fun u hu => ⟨u, husers ▸ hu, rfl, rfl, fun g hg => hg⟩
    rwa [GroupGrants, Stores.getGroup, hgroups] at hg

/-! ### Runs -/

/-- The calls of a caller with its live permissions that meet the condition. -/
def LiveCall (t : CaseTable) (s : Stores) (call : UsersCall) : Prop :=
  ∃ ctx, call.caller = some ctx ∧ Live t s ctx ∧ GrantsHeld t s ctx call.op

/-- From every reachable state, in every sequence of calls that meet the condition: no call lets a user or a token do
what it could not do before and the caller cannot do, and so whatever a user or a token can do in the end, it could do
at first or one of the callers could. -/
theorem no_escalation (t : CaseTable) (opts : AuthServiceOptions) {rootId : Str} {s s' : Stores}
    {history ms : List (Move Stores UsersCall)} (hreach : Run (usersStep t opts) (seed rootId) history s)
    (hrun : GuardedRun (usersStep t opts) (LiveCall t) s ms s') :
    (∀ m ∈ ms, ∀ ctx, m.act.caller = some ctx → NoEscalation t ctx m.pre m.post) ∧
    (∀ id r, CanUser t s' id r → CanUser t s id r ∨
      ∃ m ∈ ms, ∃ ctx, m.act.caller = some ctx ∧ ctx.can t r = true) ∧
    ∀ now id r, CanToken t s' now id r → CanToken t s now id r ∨
      ∃ m ∈ ms, ∃ ctx, m.act.caller = some ctx ∧ ctx.can t r = true := by
  have hvalid : ValidGrants s := hreach.invariant (validGrants_seed rootId) fun _ _ _ h _ hst => h.step hst
  have hmoves : ∀ m ∈ ms, ∃ ctx, m.act.caller = some ctx ∧ NoEscalation t ctx m.pre m.post := by
    refine hrun.forall_mem (P := fun s call s' => ∃ ctx, call.caller = some ctx ∧ NoEscalation t ctx s s') hvalid
      (fun _ _ _ h _ hst => h.step hst) fun s call s' h hg hst => ?_
    obtain ⟨ctx, hcaller, hlive, hheld⟩ := hg
    exact ⟨ctx, hcaller, noEscalation_step h hcaller hlive hheld hst⟩
  refine ⟨fun m hm ctx hctx => ?_, fun id r hr => ?_, fun now id r hr => ?_⟩
  · obtain ⟨ctx', hcaller, hno⟩ := hmoves m hm
    obtain rfl := Option.some.inj (hctx.symm.trans hcaller)
    exact hno
  · refine hrun.came_with (P := fun s => CanUser t s id r) (fun m hm h => ?_) hr
    obtain ⟨ctx, hcaller, hno⟩ := hmoves m hm
    exact (hno.users id r h).imp_right fun hcan => ⟨ctx, hcaller, hcan⟩
  · refine hrun.came_with (P := fun s => CanToken t s now id r) (fun m hm h => ?_) hr
    obtain ⟨ctx, hcaller, hno⟩ := hmoves m hm
    exact (hno.tokens now id r h).imp_right fun hcan => ⟨ctx, hcaller, hcan⟩

/-- The host's calls that make a group `hr` with `permissions`, and Alice its member. -/
def hrCalls (permissions : List Str) : List UsersCall :=
  [⟨none, .createGroup "hr".toList none (some permissions)⟩,
    ⟨none, .createUser "a".toList
      { name := "alice".toList, email := "alice@localhost".toList, groups := some ["hr".toList] }⟩]

def alice : User := ⟨"a".toList, "alice".toList, "alice@localhost".toList, ["hr".toList], false, none⟩

/-- The stores after these calls. -/
def hrStores (permissions : List Str) : Stores where
  users := (seed ['r']).users ++ [alice]
  groups := (seed ['r']).groups ++ [("hr".toList, ⟨"hr".toList, none, permissions, false⟩)]
  tokens := []
  users_nodup := by decide

/-- Alice, signed in, creates Bob and requests no group for him. -/
def createBob (permissions : List Str) : UsersCall :=
  ⟨some { user := alice, permissions := permissions, session := true },
    .createUser "b".toList { name := "bob".toList, email := "bob@localhost".toList }⟩

def bob : User := ⟨"b".toList, "bob".toList, "bob@localhost".toList, ["users".toList], false, none⟩

/-- When Alice may run commands too, the condition is met. -/
theorem no_escalation_create_bob :
    let t : CaseTable := fun _ c _ => [c]
    let permissions := ["users:create".toList, "commands:execute".toList]
    let s := hrStores permissions
    let s' := s.addUser bob (by decide)
    (∃ history, Run (usersStep t {}) (seed ['r']) history s) ∧
    ∀ ctx, (createBob permissions).caller = some ctx → NoEscalation t ctx s s' := by
  intro t permissions s s'
  have hreach : ∃ history, exec (usersStep t {}) (seed ['r']) (hrCalls permissions) = some (history, s) := ⟨_, rfl⟩
  obtain ⟨history, hreach⟩ := hreach
  have hstep : usersStep t {} s (createBob permissions) = some s' := rfl
  have hguard : LiveCall t s (createBob permissions) := by
    refine ⟨_, rfl, .session (by decide) rfl rfl, fun _ => by decide, ?_⟩
    intro p hp _ b hb
    have hlast : ∀ p ∈ s.effectivePermissions t [usersGroup], (strip p).getLast? ≠ some '*' := by decide
    refine absurd ?_ (hlast p hp)
    rw [hb]
    simp
  have hrun := no_escalation t {} (run_of_exec hreach) (.step .start hguard hstep)
  exact ⟨⟨history, run_of_exec hreach⟩, hrun.1 _ (List.mem_singleton.2 rfl)⟩

/-- Alice may create users and not run commands; Bob, whom she creates without groups, is put into the default group and
may run commands. -/
theorem default_group_escalates :
    let t : CaseTable := fun _ c _ => [c]
    let permissions := ["users:create".toList]
    let s := hrStores permissions
    let r := "commands:execute".toList
    ∃ history s' ctx, Run (usersStep t {}) (seed ['r']) history s ∧ (createBob permissions).caller = some ctx ∧
      Live t s ctx ∧ usersStep t {} s (createBob permissions) = some s' ∧
      CanUser t s' "b".toList r ∧ ¬ CanUser t s "b".toList r ∧ ctx.can t r = false := by
  intro t permissions s r
  have hreach : ∃ history, exec (usersStep t {}) (seed ['r']) (hrCalls permissions) = some (history, s) := ⟨_, rfl⟩
  obtain ⟨history, hreach⟩ := hreach
  refine ⟨history, s.addUser bob (by decide), _, run_of_exec hreach, rfl, .session (by decide) rfl rfl, rfl, ?_, ?_, ?_⟩
  · exact ⟨bob, by decide, rfl, by decide⟩
  · rintro ⟨u, hu, hid, -⟩
    exact absurd (List.mem_map_of_mem hu) (hid ▸ (by decide : "b".toList ∉ s.users.map User.id))
  · decide

end CliServer
