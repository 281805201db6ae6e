import CliServer.Users.Store

/-!
# The users service

`UsersService` over the in-memory stores, with the creation and revocation of API tokens.  An operation gets the caller
(`none` for the host's own code) and the stores, and gives the new stores or the error it raises before it writes.
Credentials, sessions, audit entries and events are not part of the stores here.

`step` is one call: it loads the records the call is about, as the controllers do.
-/

namespace CliServer

structure AuthServiceOptions where
  minPasswordLength : Nat := 8
  allowNonExpiringTokens : Bool := false

def forbidden (message : Str) : UsersApiError := ⟨403, message⟩
def notFound (message : Str) : UsersApiError := ⟨404, message⟩
def conflict (message : Str) : UsersApiError := ⟨409, message⟩

/-- `ADMIN_GROUP`. -/
def adminGroup : Str := "admin".toList

/-- `USERS_GROUP`. -/
def usersGroup : Str := "users".toList

/-- `LAST_ADMIN`. -/
def lastAdmin : UsersApiError := conflict "cannot remove the last admin".toList

/-! ### Writes to the stores -/

namespace Stores

/-- Changes users in place. -/
def mapUsers (s : Stores) (f : User → User) (hf : ∀ u, (f u).id = u.id) : Stores where
  users := s.users.map f
  groups := s.groups
  tokens := s.tokens
  users_nodup := by
    rw [List.map_map, show User.id ∘ f = User.id from funext hf]
    exact s.users_nodup

/-- `InMemoryUserStore.create_user`, of a user with a new id. -/
def addUser (s : Stores) (user : User) (h : user.id ∉ s.users.map User.id) : Stores where
  users := s.users ++ [user]
  groups := s.groups
  tokens := s.tokens
  users_nodup := by
    rw [List.map_append, List.nodup_append]
    refine ⟨s.users_nodup, by simp, ?_⟩
    rintro a ha b hb rfl
    exact h (List.mem_singleton.1 hb ▸ ha)

/-- `InMemoryUserStore.delete_user`, and the user's API tokens with it. -/
def removeUser (s : Stores) (id : Str) : Stores where
  users := s.users.filter (·.id ≠ id)
  groups := s.groups
  tokens := s.tokens.filter (·.userId ≠ id)
  users_nodup := s.users_nodup.sublist (List.filter_sublist.map _)

/-- `InMemoryGroupStore.update_group`, of the group with the given key. -/
def updateGroup (s : Stores) (key : Str) (description : Option Str) (permissions : Option (List Str)) : Stores :=
  let update (g : Group) : Group :=
    { g with description := description.or g.description, permissions := permissions.getD g.permissions }
  { s with groups := s.groups.map fun e => if e.1 = key then (e.1, update e.2) else e }

/-- Whether an id is not used by a user or a token. -/
def isFresh (s : Stores) (id : Str) : Bool :=
  id ∉ s.users.map User.id ∧ id ∉ s.tokens.map ApiToken.userId ∧ id ∉ s.tokens.map ApiToken.id

end Stores

/-- The arguments of `InMemoryUserStore.update_user`; those not given are kept. -/
structure UserChanges where
  name : Option Str := none
  email : Option Str := none
  groups : Option (List Str) := none
  disabled : Option Bool := none
  homeDir : Option Str := none

def UserChanges.apply (c : UserChanges) (u : User) : User :=
  { u with
    name := c.name.getD u.name
    email := c.email.getD u.email
    groups := c.groups.getD u.groups
    disabled := c.disabled.getD u.disabled
    homeDir := c.homeDir.or u.homeDir }

/-- `InMemoryUserStore.update_user`. -/
def Stores.updateUser (s : Stores) (id : Str) (c : UserChanges) : Stores :=
  s.mapUsers (fun u => if u.id = id then c.apply u else u) fun u => by split <;> rfl

variable (t : CaseTable)

/-! ### Checks -/

/-- `in_group`. -/
def inGroup (user : User) (group : Str) : Bool := user.groups.any fun x => lower t x = lower t group

/-- A check made for a caller only. -/
def forCaller (caller : Option AuthContext) (check : AuthContext → Except UsersApiError Unit) :
    Except UsersApiError Unit :=
  match caller with
  | none => .ok ()
  | some ctx => check ctx

/-- `ensure_can_grant_permissions`. -/
def ensureCanGrantPermissions (ctx : AuthContext) (permissions : List Str) : Except UsersApiError Unit :=
  let missing := uncovered t ctx.permissions permissions
  if missing = [] then .ok ()
  else .error (forbidden ("cannot grant permissions you do not hold: ".toList ++ ", ".toList.intercalate missing))

/-- `ensure_can_grant_groups`. -/
def ensureCanGrantGroups (s : Stores) (groups : List Str) (ctx : AuthContext) : Except UsersApiError Unit :=
  ensureCanGrantPermissions t ctx (s.effectivePermissions t groups)

/-- `ensure_covers_user`. -/
def ensureCoversUser (s : Stores) (target : User) (ctx : AuthContext) : Except UsersApiError Unit :=
  if ctx.isSelf target then .ok ()
  else if covers t ctx.permissions (s.userPermissions t target) then .ok ()
  else .error (forbidden "insufficient privileges for this user".toList)

/-- `is_last_enabled_admin`. -/
def isLastEnabledAdmin (s : Stores) (user : User) : Bool :=
  !user.disabled && inGroup t user adminGroup &&
    (s.users.filter fun u => !u.disabled && inGroup t u adminGroup).length ≤ 1

/-- `resolve_groups` of the names left, after those in `out`. -/
def resolveFrom (s : Stores) (out : List Str) : List Str → Except UsersApiError (List Str)
  | [] => .ok out
  | raw :: rest =>
    let name := strip raw
    if name = [] then resolveFrom s out rest
    else match if name.length ≤ nameMax then s.getGroup t name else none with
      | none => .error (badRequest ("unknown group: ".toList ++ name.take nameMax))
      | some g =>
        if out.any fun x => lower t x = lower t g.name then resolveFrom s out rest
        else resolveFrom s (out ++ [g.name]) rest

/-- `resolve_groups`. -/
def resolveGroups (s : Stores) (names : Option (List Str)) : Except UsersApiError (List Str) :=
  resolveFrom t s [] (names.getD [])

/-- `_ensure_unique`, over the users left. -/
def ensureUniqueIn (name email excludeId : Option Str) : List User → Except UsersApiError Unit
  | [] => .ok ()
  | u :: us =>
    if excludeId = some u.id then ensureUniqueIn name email excludeId us
    else match name.filter fun n => lower t n = lower t u.name ∨ lower t n = lower t u.email with
      | some n => .error (conflict ("user already exists: ".toList ++ n))
      | none =>
        match email.filter fun e => lower t e = lower t u.name ∨ lower t e = lower t u.email with
        | some e => .error (conflict ("email already in use: ".toList ++ e))
        | none => ensureUniqueIn name email excludeId us

/-- `_ensure_unique`. -/
def ensureUnique (s : Stores) (name email excludeId : Option Str) : Except UsersApiError Unit :=
  ensureUniqueIn t name email excludeId s.users

/-- `validate_password_policy`, of a password that is given. -/
def validatePassword (opts : AuthServiceOptions) (password : Option Str) : Except UsersApiError Unit :=
  match password with
  | none => .ok ()
  | some p =>
    if p = [] then .error (badRequest "password is required".toList)
    else if p.length < opts.minPasswordLength then
      .error (badRequest ("password must be at least ".toList ++ (toString opts.minPasswordLength).toList ++
        " characters".toList))
    else if 1024 < p.length then .error (badRequest "password must be at most 1024 characters".toList)
    else .ok ()

/-! ### Users -/

structure CreateUserRequest where
  name : Str
  email : Str
  groups : Option (List Str) := none
  password : Option Str := none
  disabled : Option Bool := none
  homeDir : Option Str := none
  /-- The size of the JSON of `data`. -/
  dataBytes : Option Nat := none

/-- The default group, when no group is requested. -/
def orDefaultGroup (s : Stores) (requested : List Str) : Except UsersApiError (List Str) :=
  if requested = [] then resolveGroups t s (some [usersGroup]) else .ok requested

/-- `create_user`; `newId` is the id the user gets. -/
def createUser (opts : AuthServiceOptions) (s : Stores) (caller : Option AuthContext) (newId : Str)
    (req : CreateUserRequest) : Except UsersApiError Stores := do
  let name ← validateName (strip req.name)
  let email ← validateEmail (strip req.email)
  validateText req.homeDir "homeDir".toList 1024
  validateData req.dataBytes
  validatePassword opts req.password
  let requested ← resolveGroups t s req.groups
  forCaller caller fun ctx => if requested = [] then .ok () else ensureCanGrantGroups t s requested ctx
  -- The default group is not checked against the caller's permissions.
  let resolved ← orDefaultGroup t s requested
  ensureUnique t s (some name) (some email) none
  if s.users.any fun u => lower t u.name = lower t name then
    .error (conflict ("user already exists: ".toList ++ name))
  else if h : newId ∉ s.users.map User.id then
    .ok (s.addUser ⟨newId, name, email, resolved, req.disabled.getD false, req.homeDir⟩ h)
  else .error (conflict "user id in use".toList)

structure UpdateUserRequest where
  name : Option Str := none
  email : Option Str := none
  groups : Option (List Str) := none
  disabled : Option Bool := none
  homeDir : Option Str := none
  dataBytes : Option Nat := none

/-- A name or email to change, validated; one that stays as it is is not changed. -/
def changed (validate : Str → Except UsersApiError Str) (value : Option Str) (current : Str) :
    Except UsersApiError (Option Str) :=
  match value with
  | none => .ok none
  | some v => (validate (strip v)).map fun v => if v = current then none else some v

/-- The groups of an update, when they are given. -/
def resolveGiven (s : Stores) (groups : Option (List Str)) : Except UsersApiError (Option (List Str)) :=
  match groups with
  | none => .ok none
  | some groups => (resolveGroups t s (some groups)).map some

/-- Whether new groups leave out the admin group. -/
def removesAdmin (groups : Option (List Str)) : Bool :=
  groups.any fun groups => !groups.any fun g => lower t g = adminGroup

/-- `update_user`. -/
def updateUser (s : Stores) (caller : Option AuthContext) (target : User) (req : UpdateUserRequest) :
    Except UsersApiError Stores := do
  let name ← changed validateName req.name target.name
  let email ← changed validateEmail req.email target.email
  validateText req.homeDir "homeDir".toList 1024
  validateData req.dataBytes
  let resolved ← resolveGiven t s req.groups
  forCaller caller (ensureCoversUser t s target)
  forCaller caller fun ctx =>
    let added := (resolved.getD []).filter fun g => !inGroup t target g
    if added = [] then .ok () else ensureCanGrantGroups t s added ctx
  ensureUnique t s name email (some target.id)
  if (removesAdmin t resolved ∨ req.disabled = some true) ∧ isLastEnabledAdmin t s target then .error lastAdmin
  else if target.id ∉ s.users.map User.id then .error (notFound ("user not found: ".toList ++ target.name))
  else .ok (s.updateUser target.id
    { name := name, email := email, groups := resolved, disabled := req.disabled, homeDir := req.homeDir })

/-- `delete_user`. -/
def deleteUser (s : Stores) (caller : Option AuthContext) (target : User) : Except UsersApiError Stores := do
  forCaller caller fun ctx =>
    if ctx.isSelf target then .error (conflict "cannot delete yourself".toList) else .ok ()
  forCaller caller (ensureCoversUser t s target)
  if isLastEnabledAdmin t s target then .error lastAdmin else .ok (s.removeUser target.id)

/-! ### Groups -/

/-- `_is_built_in`. -/
def isBuiltIn (g : Group) : Bool := g.builtIn || lower t g.name ∈ [adminGroup, usersGroup]

/-- `create_group`. -/
def createGroup (s : Stores) (caller : Option AuthContext) (name : Str) (description : Option Str)
    (permissions : Option (List Str)) : Except UsersApiError Stores := do
  let name ← validateName (strip name)
  validateText description "description".toList 256
  let perms := (← validatePermissions t permissions).getD []
  forCaller caller fun ctx => ensureCanGrantPermissions t ctx perms
  if (s.getGroup t name).isSome then .error (conflict ("group already exists: ".toList ++ name))
  else .ok { s with groups := s.groups ++ [(lower t name, ⟨name, description, perms, false⟩)] }

/-- `update_group`. -/
def updateGroup (s : Stores) (caller : Option AuthContext) (group : Group) (description : Option Str)
    (permissions : Option (List Str)) : Except UsersApiError Stores := do
  validateText description "description".toList 256
  let perms ← validatePermissions t permissions
  if perms.isSome ∧ lower t group.name = adminGroup then
    .error (conflict "cannot change the permissions of the admin group".toList)
  else
    forCaller caller fun ctx => ensureCanGrantPermissions t ctx (perms.getD [])
    if (s.getGroup t group.name).isNone then .error (notFound ("group not found: ".toList ++ group.name))
    else .ok (s.updateGroup (lower t group.name) description perms)

/-- The user's groups without one. -/
def User.leave (u : User) (group : Str) : User :=
  { u with groups := u.groups.filter fun g => lower t g ≠ lower t group }

/-- `delete_group`, with a user store that can be written; a read-only one keeps the memberships. -/
def deleteGroup (s : Stores) (group : Group) : Except UsersApiError Stores :=
  if isBuiltIn t group then .error (conflict ("cannot delete built-in group: ".toList ++ group.name))
  else
    let s := s.mapUsers (fun u => if inGroup t u group.name then u.leave t group.name else u) fun u => by split <;> rfl
    .ok { s with groups := s.groups.filter (·.1 ≠ lower t group.name) }

/-- `add_member`. -/
def addMember (s : Stores) (caller : Option AuthContext) (group : Group) (user : User) :
    Except UsersApiError Stores := do
  forCaller caller (ensureCoversUser t s user)
  forCaller caller (ensureCanGrantGroups t s [group.name])
  if inGroup t user group.name then .ok s
  else .ok (s.updateUser user.id { groups := some (user.groups ++ [group.name]) })

/-- `remove_member`. -/
def removeMember (s : Stores) (caller : Option AuthContext) (group : Group) (user : User) :
    Except UsersApiError Stores := do
  forCaller caller (ensureCoversUser t s user)
  if ¬ inGroup t user group.name then .ok s
  else if lower t group.name = adminGroup ∧ isLastEnabledAdmin t s user then .error lastAdmin
  else .ok (s.updateUser user.id { groups := some (user.leave t group.name).groups })

/-! ### API tokens -/

/-- `expiresInDays` in the body: left out, null, an integer, or anything else. -/
inductive ExpiresInDays where
  | unset
  | null
  | days (n : Int)
  | other

/-- `_expires_at`. -/
def expiresAt (opts : AuthServiceOptions) (now : Nat) : ExpiresInDays → Except UsersApiError (Option Nat)
  | .unset => .ok (some (now + 90 * 86400000))
  | .null =>
    if opts.allowNonExpiringTokens then .ok none
    else .error (badRequest "non-expiring tokens are not allowed".toList)
  | .days n =>
    if 1 ≤ n ∧ n ≤ 365 then .ok (some (now + n.toNat * 86400000))
    else .error (badRequest "expiresInDays must be an integer between 1 and 365".toList)
  | .other => .error (badRequest "expiresInDays must be an integer between 1 and 365".toList)

/-- `_scope`. -/
def scopeOf (ctx : AuthContext) (raw : Option (List Str)) : Except UsersApiError (Option (List Str)) := do
  match raw with
  | none => .ok none
  | some raw =>
    if raw.any (· = []) then .error (badRequest "permissions must be an array of strings".toList)
    else
      let perms := (← validatePermissions t (some raw)).getD []
      match perms.find? fun p => !ctx.can t p with
      | some p => .error (forbidden ("forbidden: cannot grant ".toList ++ sanitize p 128))
      | none => .ok (some perms)

/-- `TOKEN_NAME_RE`, between its anchors. -/
def tokenNameRe : Regex Char :=
  .times (.set fun c => c.isAlphanum || c ∈ ['.', '_', ' ', '-']) 63 1

structure CreateTokenRequest where
  name : Str
  expiresIn : ExpiresInDays := .unset
  permissions : Option (List Str) := none

/-- `create_token`; `newId` is the id the token gets. -/
def createToken (opts : AuthServiceOptions) (s : Stores) (ctx : AuthContext) (newId : Str) (now : Nat)
    (req : CreateTokenRequest) : Except UsersApiError Stores := do
  if ctx.apiToken.isSome then .error (forbidden "forbidden: API tokens cannot create tokens".toList)
  else if ¬ ctx.session ∨ ctx.external then .error ⟨501, "Authentication is managed by the host application".toList⟩
  else if ¬ Regex.acceptsLine '\n' tokenNameRe req.name then
    .error (badRequest "name must be 1-64 characters of [A-Za-z0-9._ -]".toList)
  else
    let expires ← expiresAt opts now req.expiresIn
    let scope ← scopeOf t ctx req.permissions
    let existing := s.tokens.filter (·.userId = ctx.user.id)
    if existing.any fun token => lower t token.name = lower t req.name then
      .error (conflict ("token '".toList ++ req.name ++ "' already exists".toList))
    else if 20 ≤ (existing.filter fun token => !token.isExpired now).length then
      .error (badRequest "a user may have at most 20 tokens".toList)
    else .ok { s with tokens := s.tokens ++ [⟨newId, ctx.user.id, req.name, expires, scope⟩] }

/-- `revoke_token`. -/
def revokeToken (s : Stores) (ctx : AuthContext) (id : Str) : Except UsersApiError Stores :=
  match s.tokens.find? (·.id = id) with
  | none => .error (notFound "token not found".toList)
  | some record =>
    if record.userId ≠ ctx.user.id ∧ ¬ ctx.can t "tokens:revoke".toList then .error (notFound "token not found".toList)
    else .ok { s with tokens := s.tokens.filter (·.id ≠ record.id) }

/-! ### Calls -/

/-- The operations, with what identifies the records they are about. -/
inductive UsersOp where
  | createUser (newId : Str) (req : CreateUserRequest)
  | updateUser (idOrName : Str) (req : UpdateUserRequest)
  | deleteUser (idOrName : Str)
  | createGroup (name : Str) (description : Option Str) (permissions : Option (List Str))
  | updateGroup (name : Str) (description : Option Str) (permissions : Option (List Str))
  | deleteGroup (name : Str)
  | addMember (group idOrName : Str)
  | removeMember (group idOrName : Str)
  | createToken (newId : Str) (now : Nat) (req : CreateTokenRequest)
  | revokeToken (id : Str)

/-- A call of an operation. -/
structure UsersCall where
  caller : Option AuthContext
  op : UsersOp

/-- One call that succeeds; new ids (`uuid4`) are not in use. -/
def usersStep (opts : AuthServiceOptions) (s : Stores) (call : UsersCall) : Option Stores :=
  match call.op with
  | .createUser newId req =>
    if s.isFresh newId then (createUser t opts s call.caller newId req).toOption else none
  | .updateUser idOrName req =>
    (s.getUser t idOrName).bind fun target => (updateUser t s call.caller target req).toOption
  | .deleteUser idOrName => (s.getUser t idOrName).bind fun target => (deleteUser t s call.caller target).toOption
  | .createGroup name description permissions => (createGroup t s call.caller name description permissions).toOption
  | .updateGroup name description permissions =>
    (s.getGroup t name).bind fun group => (updateGroup t s call.caller group description permissions).toOption
  | .deleteGroup name => (s.getGroup t name).bind fun group => (deleteGroup t s group).toOption
  | .addMember name idOrName =>
    (s.getGroup t name).bind fun group => (s.getUser t idOrName).bind fun user =>
      (addMember t s call.caller group user).toOption
  | .removeMember name idOrName =>
    (s.getGroup t name).bind fun group => (s.getUser t idOrName).bind fun user =>
      (removeMember t s call.caller group user).toOption
  | .createToken newId now req =>
    if s.isFresh newId then call.caller.bind fun ctx => (createToken t opts s ctx newId now req).toOption else none
  | .revokeToken id => call.caller.bind fun ctx => (revokeToken t s ctx id).toOption

/-- The stores `seed` leaves in an empty server. -/
def seed (rootId : Str) : Stores where
  users := [⟨rootId, "root".toList, "root@localhost".toList, [adminGroup], false, none⟩]
  groups := [(adminGroup, ⟨adminGroup, some "Administrators".toList, [['*']], true⟩),
    (usersGroup, ⟨usersGroup, some "Default group for new accounts".toList, ["commands:execute".toList], true⟩)]
  tokens := []
  users_nodup := by simp

/-! ### What a successful operation did -/

variable {t}

private theorem bind_ok {ε α β : Type} {x : Except ε α} {f : α → Except ε β} {b : β} (h : (x >>= f) = .ok b) :
    ∃ a, x = .ok a ∧ f a = .ok b := by
  cases x with
  | error e => cases h
  | ok a => exact ⟨a, rfl, h⟩

theorem ok_of_toOption {ε α : Type} {x : Except ε α} {a : α} (h : x.toOption = some a) : x = .ok a := by
  cases x with
  | error e => cases h
  | ok b => rw [Option.some.inj h]

private theorem forCaller_ok {caller : Option AuthContext} {check : AuthContext → Except UsersApiError Unit} {u : Unit}
    (h : forCaller caller check = .ok u) : ∀ ctx, caller = some ctx → check ctx = .ok () := by
  rintro ctx rfl
  exact h

theorem inGroup_iff {u : User} {group : Str} :
    inGroup t u group = true ↔ ∃ x ∈ u.groups, lower t x = lower t group := by
  simp [inGroup, List.any_eq_true]

private theorem ensureCanGrantPermissions_ok {ctx : AuthContext} {permissions : List Str}
    (h : ensureCanGrantPermissions t ctx permissions = .ok ()) : covers t ctx.permissions permissions = true := by
  simp only [ensureCanGrantPermissions] at h
  split at h
  · rename_i hmissing
    refine covers_iff.2 fun p hp => ?_
    have hnot := List.filter_eq_nil_iff.1 hmissing p hp
    simpa using hnot
  · cases h

private theorem ensureCoversUser_ok {s : Stores} {target : User} {ctx : AuthContext}
    (h : ensureCoversUser t s target ctx = .ok ()) :
    ctx.isSelf target = true ∨ covers t ctx.permissions (s.userPermissions t target) = true := by
  unfold ensureCoversUser at h
  split at h
  · exact .inl ‹_›
  · split at h
    · exact .inr ‹_›
    · cases h

private theorem validateEach_ok {out ps qs : List Str} (h : validateEach t out ps = .ok qs) :
    ∀ q ∈ qs, q ∈ out ∨ ∃ p ∈ ps, validPermission p = true ∧ q = strip p := by
  induction ps generalizing out with
  | nil =>
    obtain rfl := Except.ok.inj h
    exact fun q hq => .inl hq
  | cons p ps ih =>
    simp only [validateEach] at h
    intro q hq
    by_cases hp : validPermission p = true
    · rw [if_pos hp] at h
      split at h
      · rcases ih h q hq with hout | ⟨p', hp', hq⟩
        · exact .inl hout
        · exact .inr ⟨p', List.mem_cons_of_mem _ hp', hq⟩
      · rcases ih h q hq with hout | ⟨p', hp', hq⟩
        · rcases List.mem_append.1 hout with hout | hout
          · exact .inl hout
          · exact .inr ⟨p, List.mem_cons_self, hp, List.mem_singleton.1 hout⟩
        · exact .inr ⟨p', List.mem_cons_of_mem _ hp', hq⟩
    · rw [if_neg hp] at h
      cases h

/-- The permissions `validate_permissions` returns are valid ones of its input, stripped. -/
private theorem validatePermissions_ok {ps qs : Option (List Str)} (h : validatePermissions t ps = .ok qs) :
    (qs.isSome = ps.isSome) ∧ ∀ q ∈ qs.getD [], validPermission q = true ∧ ∃ p ∈ ps.getD [], q = strip p := by
  cases ps with
  | none =>
    obtain rfl := Except.ok.inj h
    exact ⟨rfl, by simp⟩
  | some ps =>
    simp only [validatePermissions] at h
    split at h
    · cases h
    · cases hv : validateEach t [] ps with
      | error e =>
        rw [hv] at h
        cases h
      | ok qs' =>
        rw [hv] at h
        obtain rfl := Except.ok.inj h
        refine ⟨rfl, fun q hq => ?_⟩
        rcases validateEach_ok hv q hq with hq | ⟨p, hp, hvalid, rfl⟩
        · cases hq
        · refine ⟨?_, p, hp, rfl⟩
          rw [validPermission, strip_strip]
          exact hvalid

/-- The groups a new user gets: the requested ones, or the default group when none is requested. -/
def newUserGroups (t : CaseTable) (s : Stores) (req : CreateUserRequest) : List Str :=
  match resolveGroups t s req.groups with
  | .ok [] => ((resolveGroups t s (some [usersGroup])).toOption).getD []
  | .ok groups => groups
  | .error _ => []

theorem createUser_ok {opts : AuthServiceOptions} {s s' : Stores} {caller : Option AuthContext} {newId : Str}
    {req : CreateUserRequest} (h : createUser t opts s caller newId req = .ok s') :
    ∃ user, ∃ hid : user.id ∉ s.users.map User.id, s' = s.addUser user hid ∧ user.id = newId ∧
      user.groups = newUserGroups t s req ∧
      (∀ ctx, caller = some ctx → resolveGroups t s req.groups ≠ .ok [] →
        covers t ctx.permissions (s.effectivePermissions t (newUserGroups t s req)) = true) ∧
      validateName (strip req.name) = .ok user.name ∧ validateEmail (strip req.email) = .ok user.email ∧
      (∃ names, resolveGroups t s names = .ok user.groups) ∧
      ensureUnique t s (some user.name) (some user.email) none = .ok () := by
  obtain ⟨name, hname, h⟩ := bind_ok h
  obtain ⟨email, hemail, h⟩ := bind_ok h
  obtain ⟨-, -, h⟩ := bind_ok h
  obtain ⟨-, -, h⟩ := bind_ok h
  obtain ⟨-, -, h⟩ := bind_ok h
  obtain ⟨requested, hrequested, h⟩ := bind_ok h
  obtain ⟨_, hgrant, h⟩ := bind_ok h
  obtain ⟨resolved, hresolved, h⟩ := bind_ok h
  obtain ⟨_, hunique, h⟩ := bind_ok h
  have hnames : ∃ names, resolveGroups t s names = .ok resolved := by
    unfold orDefaultGroup at hresolved
    split at hresolved
    · exact ⟨_, hresolved⟩
    · exact ⟨_, Except.ok.inj hresolved ▸ hrequested⟩
  have hgroups : resolved = newUserGroups t s req := by
    rw [newUserGroups, hrequested]
    cases requested with
    | nil =>
      have hdefault : resolveGroups t s (some [usersGroup]) = .ok resolved := hresolved
      rw [hdefault]
      rfl
    | cons g gs => exact (Except.ok.inj hresolved).symm
  split at h
  · cases h
  · split at h
    · rename_i hid
      refine ⟨_, hid, (Except.ok.inj h).symm, rfl, hgroups, fun ctx hctx hne => ?_, hname, hemail, hnames, hunique⟩
      have hcheck := forCaller_ok hgrant ctx hctx
      have hrequested_ne : requested ≠ [] := fun h0 => hne (h0 ▸ hrequested)
      rw [orDefaultGroup, if_neg hrequested_ne] at hresolved
      rw [if_neg hrequested_ne] at hcheck
      rw [← hgroups, ← Except.ok.inj hresolved]
      exact ensureCanGrantPermissions_ok hcheck
    · cases h

private theorem resolveGiven_ok {s : Stores} {groups : Option (List Str)} {resolved : List Str}
    (h : resolveGiven t s groups = .ok (some resolved)) : resolveGroups t s groups = .ok resolved := by
  cases groups with
  | none => cases h
  | some gs =>
    simp only [resolveGiven] at h
    cases hr : resolveGroups t s (some gs) with
    | error e =>
      rw [hr] at h
      cases h
    | ok rs =>
      rw [hr] at h
      rw [Option.some.inj (Except.ok.inj h)]

theorem updateUser_ok {s s' : Stores} {caller : Option AuthContext} {target : User} {req : UpdateUserRequest}
    (h : updateUser t s caller target req = .ok s') :
    ∃ c : UserChanges, s' = s.updateUser target.id c ∧ c.disabled = req.disabled ∧
      (∀ groups, c.groups = some groups → resolveGroups t s req.groups = .ok groups) ∧
      (∀ ctx, caller = some ctx →
        (ctx.isSelf target = true ∨ covers t ctx.permissions (s.userPermissions t target) = true) ∧
        ∀ groups, c.groups = some groups → covers t ctx.permissions
          (s.effectivePermissions t (groups.filter fun g => !inGroup t target g)) = true) ∧
      changed validateName req.name target.name = .ok c.name ∧
      changed validateEmail req.email target.email = .ok c.email ∧
      ensureUnique t s c.name c.email (some target.id) = .ok () ∧
      (removesAdmin t c.groups = true ∨ c.disabled = some true → isLastEnabledAdmin t s target = false) := by
  obtain ⟨name, hname, h⟩ := bind_ok h
  obtain ⟨email, hemail, h⟩ := bind_ok h
  obtain ⟨-, -, h⟩ := bind_ok h
  obtain ⟨-, -, h⟩ := bind_ok h
  obtain ⟨resolved, hresolved, h⟩ := bind_ok h
  obtain ⟨_, hcovers, h⟩ := bind_ok h
  obtain ⟨_, hgrant, h⟩ := bind_ok h
  obtain ⟨_, hunique, h⟩ := bind_ok h
  have hgroups : ∀ groups, resolved = some groups → resolveGroups t s req.groups = .ok groups := by
    rintro groups rfl
    exact resolveGiven_ok hresolved
  split at h
  · cases h
  · rename_i hlast
    split at h
    · cases h
    · refine ⟨_, (Except.ok.inj h).symm, rfl, hgroups, fun ctx hctx => ?_, hname, hemail, hunique, fun hremoves =>
        Bool.eq_false_iff.2 fun h => hlast ⟨hremoves, h⟩⟩
      refine ⟨ensureCoversUser_ok (forCaller_ok hcovers ctx hctx), ?_⟩
      rintro groups (rfl : resolved = some groups)
      have hcheck := forCaller_ok hgrant ctx hctx
      simp only [Option.getD_some] at hcheck
      split at hcheck
      · rename_i hnone
        rw [hnone]
        rfl
      · exact ensureCanGrantPermissions_ok hcheck

theorem deleteUser_ok {s s' : Stores} {caller : Option AuthContext} {target : User}
    (h : deleteUser t s caller target = .ok s') :
    s' = s.removeUser target.id ∧ isLastEnabledAdmin t s target = false := by
  obtain ⟨_, -, h⟩ := bind_ok h
  obtain ⟨_, -, h⟩ := bind_ok h
  split at h
  · cases h
  · rename_i hlast
    exact ⟨(Except.ok.inj h).symm, Bool.eq_false_iff.2 hlast⟩

theorem createGroup_ok {s s' : Stores} {caller : Option AuthContext} {name : Str} {description : Option Str}
    {permissions : Option (List Str)} (h : createGroup t s caller name description permissions = .ok s') :
    ∃ perms, s' = { s with
        groups := s.groups ++ [(lower t (strip name), ⟨strip name, description, perms, false⟩)] } ∧
      (∀ p ∈ perms, validPermission p = true ∧ ∃ q ∈ permissions.getD [], p = strip q) ∧
      s.getGroup t (strip name) = none ∧
      ∀ ctx, caller = some ctx → covers t ctx.permissions perms = true := by
  obtain ⟨name', hname, h⟩ := bind_ok h
  obtain ⟨_, -, h⟩ := bind_ok h
  obtain ⟨perms, hperms, h⟩ := bind_ok h
  obtain ⟨_, hgrant, h⟩ := bind_ok h
  obtain ⟨rfl, -⟩ := validateName_ok hname
  split at h
  · cases h
  · rename_i hnone
    refine ⟨perms.getD [], (Except.ok.inj h).symm, (validatePermissions_ok hperms).2, by simpa using hnone, ?_⟩
    exact fun ctx hctx => ensureCanGrantPermissions_ok (forCaller_ok hgrant ctx hctx)

theorem updateGroup_ok {s s' : Stores} {caller : Option AuthContext} {group : Group} {description : Option Str}
    {permissions : Option (List Str)} (h : updateGroup t s caller group description permissions = .ok s') :
    ∃ perms, s' = s.updateGroup (lower t group.name) description perms ∧ perms.isSome = permissions.isSome ∧
      (∀ p ∈ perms.getD [], validPermission p = true ∧ ∃ q ∈ permissions.getD [], p = strip q) ∧
      (∀ ctx, caller = some ctx → covers t ctx.permissions (perms.getD []) = true) ∧
      (lower t group.name = adminGroup → perms = none) := by
  obtain ⟨_, -, h⟩ := bind_ok h
  obtain ⟨perms, hperms, h⟩ := bind_ok h
  split at h
  · cases h
  · rename_i hadmin
    obtain ⟨_, hgrant, h⟩ := bind_ok h
    split at h
    · cases h
    · obtain ⟨hsome, hvalid⟩ := validatePermissions_ok hperms
      refine ⟨perms, (Except.ok.inj h).symm, hsome, hvalid, fun ctx hctx => ?_, fun hname =>
        Option.not_isSome_iff_eq_none.1 fun h => hadmin ⟨h, hname⟩⟩
      exact ensureCanGrantPermissions_ok (forCaller_ok hgrant ctx hctx)

private theorem find?_of_find?_filter {l : List (Str × Group)} {k key : Str} {e : Str × Group}
    (h : (l.filter (·.1 ≠ k)).find? (·.1 = key) = some e) : l.find? (·.1 = key) = some e := by
  have hkey : key ≠ k := by
    rintro rfl
    have hne := List.of_mem_filter (List.mem_of_find?_eq_some h)
    have heq := List.find?_some h
    simp only [ne_eq, decide_not, Bool.not_eq_true', decide_eq_false_iff_not, decide_eq_true_eq] at hne heq
    exact hne heq
  rw [← h, List.find?_filter]
  congr 1
  funext e
  by_cases he : e.1 = key
  · simp [he, hkey]
  · simp [he]

theorem deleteGroup_ok {s s' : Stores} {group : Group} (h : deleteGroup t s group = .ok s') :
    isBuiltIn t group = false ∧ s'.groups = s.groups.filter (·.1 ≠ lower t group.name) ∧
      s'.users = s.users.map fun u => if inGroup t u group.name then u.leave t group.name else u := by
  unfold deleteGroup at h
  split at h
  · cases h
  · rename_i hbuiltIn
    obtain rfl := Except.ok.inj h
    exact ⟨Bool.eq_false_iff.2 hbuiltIn, rfl, rfl⟩

/-- Deleting a group takes away only. -/
theorem deleteGroup_le {s s' : Stores} {group : Group} (h : deleteGroup t s group = .ok s') :
    s'.tokens = s.tokens ∧ (∀ e ∈ s'.groups, e ∈ s.groups) ∧
    (∀ name g, s'.getGroup t name = some g → s.getGroup t name = some g) ∧
    ∀ u' ∈ s'.users, ∃ u ∈ s.users, u'.id = u.id ∧ u'.disabled = u.disabled ∧ ∀ g ∈ u'.groups, g ∈ u.groups := by
  unfold deleteGroup at h
  split at h
  · cases h
  · obtain rfl := Except.ok.inj h
    refine ⟨rfl, fun e he => List.mem_of_mem_filter he, fun name g hg => ?_, fun u' hu' => ?_⟩
    · obtain ⟨e, he, rfl⟩ := Option.map_eq_some_iff.1 hg
      exact congrArg (Option.map Prod.snd) (find?_of_find?_filter he)
    · obtain ⟨u, hu, rfl⟩ := List.mem_map.1 hu'
      refine ⟨u, hu, ?_⟩
      split
      · exact ⟨rfl, rfl, fun g hg => List.mem_of_mem_filter hg⟩
      · exact ⟨rfl, rfl, fun g hg => hg⟩

theorem addMember_ok {s s' : Stores} {caller : Option AuthContext} {group : Group} {user : User}
    (h : addMember t s caller group user = .ok s') :
    s' = s ∨ (s' = s.updateUser user.id { groups := some (user.groups ++ [group.name]) } ∧
      (∀ ctx, caller = some ctx → covers t ctx.permissions (s.effectivePermissions t [group.name]) = true) ∧
      inGroup t user group.name = false) := by
  obtain ⟨_, -, h⟩ := bind_ok h
  obtain ⟨_, hgrant, h⟩ := bind_ok h
  split at h
  · exact .inl (Except.ok.inj h).symm
  · rename_i hin
    refine .inr ⟨(Except.ok.inj h).symm, fun ctx hctx => ?_, Bool.eq_false_iff.2 hin⟩
    exact ensureCanGrantPermissions_ok (forCaller_ok hgrant ctx hctx)

theorem removeMember_ok {s s' : Stores} {caller : Option AuthContext} {group : Group} {user : User}
    (h : removeMember t s caller group user = .ok s') :
    s' = s ∨ (s' = s.updateUser user.id { groups := some (user.leave t group.name).groups } ∧
      (lower t group.name = adminGroup → isLastEnabledAdmin t s user = false)) := by
  obtain ⟨_, -, h⟩ := bind_ok h
  split at h
  · exact .inl (Except.ok.inj h).symm
  · split at h
    · cases h
    · rename_i hlast
      exact .inr ⟨(Except.ok.inj h).symm, fun hadmin => Bool.eq_false_iff.2 fun h => hlast ⟨hadmin, h⟩⟩

/-- The scope of a new token: valid permissions that the caller may do. -/
theorem scopeOf_ok {ctx : AuthContext} {raw scope : Option (List Str)} (h : scopeOf t ctx raw = .ok scope) :
    scope.isSome = raw.isSome ∧ ∀ p ∈ scope.getD [], ctx.can t p = true ∧ validPermission p = true ∧
      ∃ q ∈ raw.getD [], p = strip q := by
  cases raw with
  | none =>
    obtain rfl := Except.ok.inj h
    exact ⟨rfl, by simp⟩
  | some raw =>
    simp only [scopeOf] at h
    split at h
    · cases h
    · obtain ⟨perms, hperms, h⟩ := bind_ok h
      split at h
      · cases h
      · rename_i hall
        obtain rfl := Except.ok.inj h
        refine ⟨rfl, fun p hp => ?_⟩
        obtain ⟨hvalid, hq⟩ := (validatePermissions_ok hperms).2 p hp
        exact ⟨by simpa using List.find?_eq_none.1 hall p hp, hvalid, hq⟩

theorem createToken_ok {opts : AuthServiceOptions} {s s' : Stores} {ctx : AuthContext} {newId : Str} {now : Nat}
    {req : CreateTokenRequest} (h : createToken t opts s ctx newId now req = .ok s') :
    ctx.session = true ∧ ∃ token : ApiToken, s' = { s with tokens := s.tokens ++ [token] } ∧ token.id = newId ∧
      token.userId = ctx.user.id ∧ scopeOf t ctx req.permissions = .ok token.permissions := by
  unfold createToken at h
  split at h
  · cases h
  · split at h
    · cases h
    · rename_i hsession
      split at h
      · cases h
      · obtain ⟨expires, -, h⟩ := bind_ok h
        obtain ⟨scope, hscope, h⟩ := bind_ok h
        simp only at h
        split at h
        · cases h
        · split at h
          · cases h
          · refine ⟨?_, _, (Except.ok.inj h).symm, rfl, rfl, hscope⟩
            by_contra hno
            exact hsession (.inl hno)

theorem revokeToken_ok {s s' : Stores} {ctx : AuthContext} {id : Str} (h : revokeToken t s ctx id = .ok s') :
    s'.users = s.users ∧ s'.groups = s.groups ∧ ∀ token ∈ s'.tokens, token ∈ s.tokens := by
  unfold revokeToken at h
  split at h
  · cases h
  · split at h
    · cases h
    · obtain rfl := Except.ok.inj h
      exact ⟨rfl, rfl, fun token htoken => List.mem_of_mem_filter htoken⟩

end CliServer
