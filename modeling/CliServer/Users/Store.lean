import CliServer.Users.Validation

/-!
# The in-memory stores

Users, groups and API tokens, as the in-memory stores hold them: a dict is the list of its entries, and `Stores` carries
the proof that users have distinct ids.  `effectivePermissions` is what a user may do at the moment, and
`contextForApiToken` what a token may.
-/

namespace CliServer

structure User where
  id : Str
  name : Str
  email : Str
  groups : List Str
  disabled : Bool
  homeDir : Option Str
  deriving DecidableEq, Repr

structure Group where
  name : Str
  description : Option Str
  permissions : List Str
  builtIn : Bool
  deriving DecidableEq, Repr

/-- An API token; `permissions` is its scope, `none` for the user's own permissions. -/
structure ApiToken where
  id : Str
  userId : Str
  name : Str
  expiresAt : Option Nat
  permissions : Option (List Str)
  deriving DecidableEq, Repr

/-- The stores; groups are keyed by their lower-case name. -/
structure Stores where
  users : List User
  groups : List (Str × Group)
  tokens : List ApiToken
  users_nodup : (users.map User.id).Nodup

/-- The authenticated caller; `session` tells whether it signed in with a session. -/
structure AuthContext where
  user : User
  permissions : List Str
  session : Bool
  external : Bool := false
  apiToken : Option ApiToken := none
  deriving DecidableEq, Repr

variable (t : CaseTable)

/-- `AuthContext.can`. -/
def AuthContext.can (ctx : AuthContext) (permission : Str) : Bool := hasPermission t ctx.permissions permission

/-- `AuthContext.is_self`. -/
def AuthContext.isSelf (ctx : AuthContext) (user : User) : Bool := user.id = ctx.user.id

/-- `ApiToken.is_expired`. -/
def ApiToken.isExpired (token : ApiToken) (now : Nat) : Bool := token.expiresAt.any (· ≤ now)

namespace Stores

/-- `InMemoryUserStore.get_user`: by id, else by name. -/
def getUser (s : Stores) (idOrName : Str) : Option User :=
  (s.users.find? (·.id = idOrName)).or (s.users.find? fun u => lower t u.name = lower t idOrName)

/-- `InMemoryGroupStore.get_group`. -/
def getGroup (s : Stores) (name : Str) : Option Group :=
  (s.groups.find? (·.1 = lower t name)).map Prod.snd

/-- `effective_permissions`. -/
def effectivePermissions (s : Stores) (groups : List Str) : List Str :=
  mergePermissions t (groups.filterMap fun name => (s.getGroup t name).map Group.permissions)

/-- `user_permissions`. -/
def userPermissions (s : Stores) (user : User) : List Str := s.effectivePermissions t user.groups

end Stores

/-- `unauthorized("invalid or expired token")`. -/
def invalidToken : UsersApiError := ⟨401, "invalid or expired token".toList⟩

/-- `context_for_api_token`. -/
def contextForApiToken (s : Stores) (record : ApiToken) (now : Nat) : Except UsersApiError AuthContext :=
  if record.isExpired now then .error invalidToken
  else match s.getUser t record.userId with
    | none => .error invalidToken
    | some user =>
      if user.id ≠ record.userId ∨ user.disabled then .error invalidToken
      else
        let permissions := s.userPermissions t user
        .ok { user := user
              permissions := match record.permissions with
                | none => permissions
                | some scope => scope.filter fun p => hasPermission t permissions p
              session := false
              apiToken := some record }

variable {t}

theorem Stores.mem_of_getUser {s : Stores} {id : Str} {user : User} (h : s.getUser t id = some user) :
    user ∈ s.users := by
  rcases Option.or_eq_some_iff.1 h with h | ⟨-, h⟩
  · exact List.mem_of_find?_eq_some h
  · exact List.mem_of_find?_eq_some h

theorem Stores.eq_of_id_eq {s : Stores} {u v : User} (hu : u ∈ s.users) (hv : v ∈ s.users) (h : u.id = v.id) :
    u = v := List.inj_on_of_nodup_map s.users_nodup hu hv h

/-- A user is found by its id. -/
theorem Stores.getUser_of_mem {s : Stores} {u : User} (h : u ∈ s.users) : s.getUser t u.id = some u := by
  have hsome : (s.users.find? (·.id = u.id)).isSome := List.find?_isSome.2 ⟨u, h, by simp⟩
  obtain ⟨v, hv⟩ := Option.isSome_iff_exists.1 hsome
  have hid := List.find?_some hv
  rw [Stores.getUser, hv, s.eq_of_id_eq (List.mem_of_find?_eq_some hv) h (by simpa using hid)]
  rfl

/-- What a token may do, spelled out: its user is there and enabled, and it has the user's permissions, or the entries
of its scope that these grant. -/
theorem contextForApiToken_eq_ok {s : Stores} {record : ApiToken} {now : Nat} {ctx : AuthContext} :
    contextForApiToken t s record now = .ok ctx ↔
      record.isExpired now = false ∧ ∃ user ∈ s.users, user.id = record.userId ∧ user.disabled = false ∧
        ctx = { user := user
                permissions := match record.permissions with
                  | none => s.userPermissions t user
                  | some scope => scope.filter fun p => hasPermission t (s.userPermissions t user) p
                session := false
                apiToken := some record } := by
  unfold contextForApiToken
  cases hexp : record.isExpired now with
  | true => simp
  | false =>
    simp only [Bool.false_eq_true, if_false, true_and]
    constructor
    · intro h
      split at h
      · cases h
      · rename_i user huser
        split at h
        · cases h
        · rename_i hok
          obtain ⟨hid, hdisabled⟩ : user.id = record.userId ∧ user.disabled = false := by simpa using hok
          exact ⟨user, s.mem_of_getUser huser, hid, hdisabled, (Except.ok.inj h).symm⟩
    · rintro ⟨user, hmem, hid, hdisabled, rfl⟩
      rw [← hid, s.getUser_of_mem hmem]
      simp [hid, hdisabled]

/-- The effective permissions are those of the groups that exist. -/
theorem hasPermission_effectivePermissions {s : Stores} {groups : List Str} {r : Str} :
    hasPermission t (s.effectivePermissions t groups) r = true ↔
      ∃ name ∈ groups, ∃ g, s.getGroup t name = some g ∧
        ∃ p ∈ g.permissions, strip p ≠ [] ∧ permissionMatches t p r = true := by
  rw [Stores.effectivePermissions, hasPermission_mergePermissions]
  constructor
  · rintro ⟨l, hl, h⟩
    obtain ⟨name, hname, hmap⟩ := List.mem_filterMap.1 hl
    obtain ⟨g, hg, rfl⟩ := Option.map_eq_some_iff.1 hmap
    exact ⟨name, hname, g, hg, h⟩
  · rintro ⟨name, hname, g, hg, h⟩
    exact ⟨g.permissions, List.mem_filterMap.2 ⟨name, hname, by rw [hg]; rfl⟩, h⟩

end CliServer
