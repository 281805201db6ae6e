import CliServer.Lib.Process
import CliServer.Users.Memberships

/-!
# The requests that change memberships, with their awaits

`add_member`, `remove_member`, `delete_group` and `update_user` as programs that await the stores: between two calls
of a request any others may run.  Alone each program does what the service's operation does (`alone_addMember` and the
others).
-/

namespace CliServer

open Process

variable (t : CaseTable)

/-! ### The calls of the stores -/

/-- What the service awaits. -/
inductive StoreCall where
  | getUser (idOrName : Str)
  | getUsers
  | getGroup (name : Str)
  | updateUser (id : Str) (changes : UserChanges)
  | deleteGroup (name : Str)
  | revokeUserSessions (id : Str)
  | audit (event : Str)
  | publish (event : Str)

/-- `update_user` raises `KeyError` when there is no user with the id: `none`. -/
abbrev StoreCall.Answer : StoreCall → Type
  | .getUser _ => Option User
  | .getUsers => List User
  | .getGroup _ => Option Group
  | .updateUser _ _ => Option User
  | _ => Unit

/-- One call, made and answered. -/
def StoreCall.answer (s : Stores) : (c : StoreCall) → c.Answer × Stores
  | .getUser idOrName => (s.getUser t idOrName, s)
  | .getUsers => (s.users, s)
  | .getGroup name => (s.getGroup t name, s)
  | .updateUser id changes =>
    let s' := s.updateUser id changes
    (s'.users.find? (·.id = id), s')
  | .deleteGroup name => ((), { s with groups := s.groups.filter (·.1 ≠ lower t name) })
  | .revokeUserSessions _ => ((), s)
  | .audit _ => ((), s)
  | .publish _ => ((), s)

abbrev UsersProcess (α : Type) : Type := Process StoreCall StoreCall.Answer UsersApiError α

abbrev store (c : StoreCall) : UsersProcess c.Answer := call c

/-! ### The service -/

namespace Awaited

/-- A check that raises or not. -/
def check (result : Except UsersApiError Unit) : UsersProcess Unit := .done result

/-- A check made for a caller only. -/
def forCaller (caller : Option AuthContext) (check : AuthContext → UsersProcess Unit) : UsersProcess Unit :=
  match caller with
  | none => pure ()
  | some ctx => check ctx

/-- `effective_permissions`, after those of `lists`. -/
def effectivePermissionsFrom (lists : List (List Str)) : List Str → UsersProcess (List Str)
  | [] => pure (mergePermissions t lists)
  | name :: rest => do
    let group ← store (.getGroup name)
    effectivePermissionsFrom (lists ++ (group.map Group.permissions).toList) rest

/-- `effective_permissions`. -/
def effectivePermissions (groups : List Str) : UsersProcess (List Str) := effectivePermissionsFrom t [] groups

/-- `ensure_covers_user`. -/
def ensureCoversUser (target : User) (ctx : AuthContext) : UsersProcess Unit :=
  if ctx.isSelf target then pure ()
  else do
    let required ← effectivePermissions t target.groups
    if covers t ctx.permissions required then pure ()
    else raise (forbidden "insufficient privileges for this user".toList)

/-- `ensure_can_grant_groups`. -/
def ensureCanGrantGroups (groups : List Str) (ctx : AuthContext) : UsersProcess Unit := do
  let permissions ← effectivePermissions t groups
  check (ensureCanGrantPermissions t ctx permissions)

/-- `is_last_enabled_admin`. -/
def isLastEnabledAdmin (user : User) : UsersProcess Bool :=
  if user.disabled ∨ ¬ inGroup t user adminGroup then pure false
  else do
    let users ← store .getUsers
    pure ((users.filter fun u => !u.disabled && inGroup t u adminGroup).length ≤ 1)

/-- Whether an operation would leave no enabled admin; it asks only where it may. -/
def leavesNoAdmin (may : Bool) (user : User) : UsersProcess Bool :=
  if may then isLastEnabledAdmin t user else pure false

/-- `get_group`, of a name that is not too long. -/
def findGroup (name : Str) : UsersProcess (Option Group) :=
  if name.length ≤ nameMax then store (.getGroup name) else pure none

/-- `resolve_groups` of the names left, after those in `out`. -/
def resolveFrom (out : List Str) : List Str → UsersProcess (List Str)
  | [] => pure out
  | raw :: rest =>
    let name := strip raw
    if name = [] then resolveFrom out rest
    else do
      let group ← findGroup name
      match group with
      | none => raise (badRequest ("unknown group: ".toList ++ name.take nameMax))
      | some g =>
        if out.any fun x => lower t x = lower t g.name then resolveFrom out rest
        else resolveFrom (out ++ [g.name]) rest

/-- The groups of an update, when they are given. -/
def resolveGiven : Option (List Str) → UsersProcess (Option (List Str))
  | none => pure none
  | some groups => do
    let resolved ← resolveFrom t [] groups
    pure (some resolved)

/-- `_ensure_unique`. -/
def ensureUnique (name email excludeId : Option Str) : UsersProcess Unit := do
  let users ← store .getUsers
  check (ensureUniqueIn t name email excludeId users)

/-- `users.update_user`, or the error for an id that is not there. -/
def updateStored (id : Str) (changes : UserChanges) (missing : UsersApiError) : UsersProcess User := do
  let updated ← store (.updateUser id changes)
  match updated with
  | none => raise missing
  | some user => pure user

/-- What the framework answers when a request raises anything else. -/
def internalError : UsersApiError := ⟨500, "Internal Server Error".toList⟩

/-- The audit entries and sessions of an update that enables or disables the user. -/
def auditDisabled (user : User) (wasDisabled : Bool) : Option Bool → UsersProcess Unit
  | none => pure ()
  | some disabled =>
    if disabled = wasDisabled then pure ()
    else if disabled then do
      store (.audit "user_disabled".toList)
      store (.revokeUserSessions user.id)
    else store (.audit "user_enabled".toList)

/-- `update_user`. -/
def updateUser (caller : Option AuthContext) (target : User) (req : UpdateUserRequest) : UsersProcess User := do
  let name ← Process.done (changed validateName req.name target.name)
  let email ← Process.done (changed validateEmail req.email target.email)
  check (validateText req.homeDir "homeDir".toList 1024)
  check (validateData req.dataBytes)
  let resolved ← resolveGiven t req.groups
  forCaller caller (ensureCoversUser t target)
  forCaller caller fun ctx =>
    let added := (resolved.getD []).filter fun g => !inGroup t target g
    if added = [] then pure () else ensureCanGrantGroups t added ctx
  ensureUnique t name email (some target.id)
  let last ← leavesNoAdmin t (removesAdmin t resolved ∨ req.disabled = some true) target
  if last then raise lastAdmin
  else do
    let user ← updateStored target.id
      { name := name, email := email, groups := resolved, disabled := req.disabled, homeDir := req.homeDir }
      (notFound ("user not found: ".toList ++ target.name))
    store (.audit "user_updated".toList)
    auditDisabled user target.disabled req.disabled
    store (.publish "user:updated".toList)
    pure user

/-- `add_member`. -/
def addMember (caller : Option AuthContext) (group : Group) (user : User) : UsersProcess Unit := do
  forCaller caller (ensureCoversUser t user)
  forCaller caller (ensureCanGrantGroups t [group.name])
  if inGroup t user group.name then pure ()
  else do
    let _ ← updateStored user.id { groups := some (user.groups ++ [group.name]) } internalError
    store (.audit "group_member_added".toList)
    store (.publish "user:updated".toList)

/-- `remove_member`. -/
def removeMember (caller : Option AuthContext) (group : Group) (user : User) : UsersProcess Unit := do
  forCaller caller (ensureCoversUser t user)
  if ¬ inGroup t user group.name then pure ()
  else do
    let last ← leavesNoAdmin t (lower t group.name = adminGroup) user
    if last then raise lastAdmin
    else do
      let _ ← updateStored user.id { groups := some (user.leave t group.name).groups } internalError
      store (.audit "group_member_removed".toList)
      store (.publish "user:updated".toList)

/-- The members of the group leave it, one after another. -/
def leaveAll (group : Group) : List User → UsersProcess Unit
  | [] => pure ()
  | user :: rest => do
    let _ ← updateStored user.id { groups := some (user.leave t group.name).groups } internalError
    leaveAll group rest

/-- An event for each of them. -/
def publishAll : List User → UsersProcess Unit
  | [] => pure ()
  | _ :: rest => do
    store (.publish "user:updated".toList)
    publishAll rest

/-- The members of a group; of a read-only user store, none. -/
def membersToLeave (readOnlyUsers : Bool) (group : Group) : UsersProcess (List User) :=
  if readOnlyUsers then pure []
  else do
    let users ← store .getUsers
    pure (users.filter fun u => inGroup t u group.name)

/-- `delete_group`. -/
def deleteGroup (readOnlyUsers : Bool) (group : Group) : UsersProcess Unit :=
  if isBuiltIn t group then raise (conflict ("cannot delete built-in group: ".toList ++ group.name))
  else do
    let members ← membersToLeave t readOnlyUsers group
    leaveAll t group members
    store (.deleteGroup group.name)
    store (.audit "group_deleted".toList)
    store (.publish "group:deleted".toList)
    publishAll members

/-- `load_group`. -/
def loadGroup (name : Str) (missing : UsersApiError) : UsersProcess Group := do
  let group ← store (.getGroup name)
  match group with
  | none => raise missing
  | some group => pure group

/-- `load_user`. -/
def loadUser (idOrName : Str) : UsersProcess User := do
  let user ← store (.getUser idOrName)
  match user with
  | none => raise (notFound ("user not found: ".toList ++ idOrName))
  | some user => pure user

end Awaited

/-! ### The requests -/

/-- `read_only_users` and `read_only_groups`. -/
structure StoreOptions where
  readOnlyUsers : Bool := false
  readOnlyGroups : Bool := false

/-- `store_write`. -/
def storeWrite (o : StoreOptions) (users groups : Bool) : Except UsersApiError Unit :=
  if users ∧ o.readOnlyUsers then .error ⟨501, "Users are managed by the host application".toList⟩
  else if groups ∧ o.readOnlyGroups then .error ⟨501, "Groups are managed by the host application".toList⟩
  else .ok ()

/-- The requests that change the groups of a user, authorized. -/
inductive MembershipRequest where
  | addMember (caller : Option AuthContext) (name idOrName : Str)
  | removeMember (caller : Option AuthContext) (name idOrName : Str)
  | deleteGroup (name : Str)
  | updateUser (caller : Option AuthContext) (idOrName : Str) (groups : List Str)
  deriving DecidableEq

open Awaited in
/-- The program of a request, as the controllers have it. -/
def MembershipRequest.program (o : StoreOptions) : MembershipRequest → UsersProcess Unit
  | .addMember caller name idOrName => do
    check (storeWrite o true false)
    let group ← loadGroup name (badRequest ("unknown group: ".toList ++ name))
    let user ← loadUser idOrName
    Awaited.addMember t caller group user
  | .removeMember caller name idOrName => do
    check (storeWrite o true false)
    let group ← loadGroup name (notFound ("group not found: ".toList ++ name))
    let user ← loadUser idOrName
    Awaited.removeMember t caller group user
  | .deleteGroup name => do
    check (storeWrite o false true)
    let group ← loadGroup name (notFound ("group not found: ".toList ++ name))
    Awaited.deleteGroup t o.readOnlyUsers group
  | .updateUser caller idOrName groups => do
    check (storeWrite o true false)
    let target ← loadUser idOrName
    let _ ← Awaited.updateUser t caller target { groups := some groups }
    pure ()

/-! ### Alone -/

variable {t} {s : Stores} {α β : Type}

private theorem alone_bind_ok {m : UsersProcess α} {s' : Stores} {a : α} {f : α → UsersProcess β}
    (hm : m.alone (StoreCall.answer t) s = (.ok a, s')) :
    (m >>= f).alone (StoreCall.answer t) s = (f a).alone (StoreCall.answer t) s' := by
  rw [alone_bind, hm]

private theorem alone_bind_error {m : UsersProcess α} {s' : Stores} {e : UsersApiError} {f : α → UsersProcess β}
    (hm : m.alone (StoreCall.answer t) s = (.error e, s')) :
    (m >>= f).alone (StoreCall.answer t) s = (.error e, s') := by
  rw [alone_bind, hm]

private theorem alone_forCaller {caller : Option AuthContext} {check : AuthContext → UsersProcess Unit}
    {result : AuthContext → Except UsersApiError Unit}
    (h : ∀ ctx, (check ctx).alone (StoreCall.answer t) s = (result ctx, s)) :
    (Awaited.forCaller caller check).alone (StoreCall.answer t) s = (forCaller caller result, s) := by
  cases caller with
  | none => rfl
  | some ctx => exact h ctx

private theorem alone_effectivePermissionsFrom (lists : List (List Str)) (groups : List Str) :
    (Awaited.effectivePermissionsFrom t lists groups).alone (StoreCall.answer t) s =
      (.ok (mergePermissions t (lists ++ groups.filterMap fun name => (s.getGroup t name).map Group.permissions)),
      s) := by
  induction groups generalizing lists with
  | nil => simp [Awaited.effectivePermissionsFrom]
  | cons name rest ih =>
    have hnext := ih (lists ++ ((s.getGroup t name).map Group.permissions).toList)
    show (Awaited.effectivePermissionsFrom t _ rest).alone (StoreCall.answer t) s = _
    simp only [StoreCall.answer]
    rw [hnext, List.filterMap_cons]
    cases s.getGroup t name <;> simp

private theorem alone_effectivePermissions (groups : List Str) :
    (Awaited.effectivePermissions t groups).alone (StoreCall.answer t) s = (.ok (s.effectivePermissions t groups), s) :=
  alone_effectivePermissionsFrom [] groups

private theorem alone_ensureCoversUser (target : User) (ctx : AuthContext) :
    (Awaited.ensureCoversUser t target ctx).alone (StoreCall.answer t) s = (ensureCoversUser t s target ctx, s) := by
  rw [Awaited.ensureCoversUser, ensureCoversUser]
  split
  · rfl
  · rw [alone_bind_ok (alone_effectivePermissions _), Stores.userPermissions]
    split <;> rfl

private theorem alone_ensureCanGrantGroups (groups : List Str) (ctx : AuthContext) :
    (Awaited.ensureCanGrantGroups t groups ctx).alone (StoreCall.answer t) s =
      (ensureCanGrantGroups t s groups ctx, s) := by
  rw [Awaited.ensureCanGrantGroups, ensureCanGrantGroups, alone_bind_ok (alone_effectivePermissions _)]
  rfl

private theorem alone_isLastEnabledAdmin (user : User) :
    (Awaited.isLastEnabledAdmin t user).alone (StoreCall.answer t) s = (.ok (isLastEnabledAdmin t s user), s) := by
  rw [Awaited.isLastEnabledAdmin, isLastEnabledAdmin]
  split
  · rename_i hnot
    rcases hnot with hdisabled | hout
    · simp [hdisabled]
    · simp [hout]
  · rename_i hadmin
    obtain ⟨henabled, hin⟩ := not_or.1 hadmin
    rw [Bool.eq_false_iff.2 henabled, not_not.1 hin]
    rfl

private theorem alone_findGroup (name : Str) : (Awaited.findGroup name).alone (StoreCall.answer t) s =
    (.ok (if name.length ≤ nameMax then s.getGroup t name else none), s) := by
  rw [Awaited.findGroup]
  split <;> rfl

private theorem alone_resolveFrom (out names : List Str) :
    (Awaited.resolveFrom t out names).alone (StoreCall.answer t) s = (resolveFrom t s out names, s) := by
  induction names generalizing out with
  | nil => rfl
  | cons raw rest ih =>
    rw [Awaited.resolveFrom, resolveFrom]
    split
    · exact ih out
    · rw [alone_bind_ok (alone_findGroup _)]
      cases (if (strip raw).length ≤ nameMax then s.getGroup t (strip raw) else none) with
      | none => rfl
      | some g =>
        show (if _ then _ else _ : UsersProcess (List Str)).alone (StoreCall.answer t) s = (if _ then _ else _, s)
        split
        · exact ih out
        · exact ih _

private theorem alone_resolveGiven (groups : Option (List Str)) :
    (Awaited.resolveGiven t groups).alone (StoreCall.answer t) s = (resolveGiven t s groups, s) := by
  cases groups with
  | none => rfl
  | some names =>
    have hresolved := alone_resolveFrom (t := t) (s := s) [] names
    rw [Awaited.resolveGiven, resolveGiven, resolveGroups, Option.getD_some]
    cases hr : resolveFrom t s [] names with
    | error e =>
      rw [hr] at hresolved
      rw [alone_bind_error hresolved]
      rfl
    | ok resolved =>
      rw [hr] at hresolved
      rw [alone_bind_ok hresolved]
      rfl

private theorem alone_updateStored {id : Str} {changes : UserChanges} {missing : UsersApiError}
    (h : id ∈ s.users.map User.id) :
    ∃ user, (Awaited.updateStored id changes missing).alone (StoreCall.answer t) s =
      (.ok user, s.updateUser id changes) := by
  obtain ⟨user, huser, rfl⟩ := List.mem_map.1 h
  have hsome : ((s.updateUser user.id changes).users.find? (·.id = user.id)).isSome :=
    List.find?_isSome.2 ⟨_, Stores.apply_mem_updateUser huser, by simp [UserChanges.apply]⟩
  obtain ⟨user', huser'⟩ := Option.isSome_iff_exists.1 hsome
  refine ⟨user', ?_⟩
  simp only [Awaited.updateStored, store, call_bind, alone_await, StoreCall.answer]
  rw [huser']
  rfl

/-- The program ends as an operation of the service does, with the stores that it leaves. -/
def Leaves (t : CaseTable) (s : Stores) (m : UsersProcess α) : Except UsersApiError Stores → Prop
  | .ok s' => ∃ a, m.alone (StoreCall.answer t) s = (.ok a, s')
  | .error e => m.alone (StoreCall.answer t) s = (.error e, s)

/-- A check, then the rest. -/
theorem Leaves.check {m : UsersProcess α} {f : α → UsersProcess β} {result : Except UsersApiError α}
    {g : α → Except UsersApiError Stores} (hm : m.alone (StoreCall.answer t) s = (result, s))
    (hf : ∀ a, Leaves t s (f a) (g a)) : Leaves t s (m >>= f) (result >>= g) := by
  cases result with
  | error e => exact alone_bind_error hm
  | ok a =>
    have hrest := hf a
    show Leaves t s (m >>= f) (g a)
    cases hg : g a with
    | error e =>
      rw [hg] at hrest
      exact (alone_bind_ok hm).trans hrest
    | ok s' =>
      rw [hg] at hrest
      obtain ⟨b, hb⟩ := hrest
      exact ⟨b, (alone_bind_ok hm).trans hb⟩

private theorem Leaves.ite {c : Prop} [Decidable c] {m m' : UsersProcess α}
    {result result' : Except UsersApiError Stores}
    (hm : c → Leaves t s m result) (hm' : ¬ c → Leaves t s m' result') :
    Leaves t s (if c then m else m') (if c then result else result') := by
  by_cases h : c
  · rw [if_pos h, if_pos h]
    exact hm h
  · rw [if_neg h, if_neg h]
    exact hm' h

private theorem alone_leavesNoAdmin (may : Bool) (user : User) :
    (Awaited.leavesNoAdmin t may user).alone (StoreCall.answer t) s =
    (.ok (may && isLastEnabledAdmin t s user), s) := by
  cases may with
  | false => rfl
  | true => exact alone_isLastEnabledAdmin user

private theorem alone_addMember {caller : Option AuthContext} {group : Group} {user : User} (h : user ∈ s.users) :
    Leaves t s (Awaited.addMember t caller group user) (addMember t s caller group user) := by
  refine Leaves.check (alone_forCaller fun ctx => alone_ensureCoversUser user ctx) fun _ => ?_
  refine Leaves.check (alone_forCaller fun ctx => alone_ensureCanGrantGroups [group.name] ctx) fun _ => ?_
  refine Leaves.ite (fun _ => ⟨(), rfl⟩) fun _ => ?_
  obtain ⟨user', hupdated⟩ := alone_updateStored (t := t) (List.mem_map_of_mem h)
  exact ⟨(), alone_bind_ok hupdated⟩

private theorem alone_removeMember {caller : Option AuthContext} {group : Group} {user : User} (h : user ∈ s.users) :
    Leaves t s (Awaited.removeMember t caller group user) (removeMember t s caller group user) := by
  refine Leaves.check (alone_forCaller fun ctx => alone_ensureCoversUser user ctx) fun _ => ?_
  refine Leaves.ite (fun _ => ⟨(), rfl⟩) fun _ => ?_
  have hlast := alone_leavesNoAdmin (t := t) (s := s) (lower t group.name = adminGroup) user
  by_cases hno : lower t group.name = adminGroup ∧ isLastEnabledAdmin t s user = true
  · rw [if_pos hno]
    refine (alone_bind_ok hlast).trans ?_
    rw [if_pos (by simp [hno])]
    rfl
  · rw [if_neg hno]
    obtain ⟨user', hupdated⟩ := alone_updateStored (t := t) (List.mem_map_of_mem h)
    refine ⟨(), (alone_bind_ok hlast).trans ?_⟩
    rw [if_neg (by simpa using hno)]
    exact alone_bind_ok hupdated

private theorem alone_auditDisabled (user : User) (wasDisabled : Bool) (disabled : Option Bool) :
    (Awaited.auditDisabled user wasDisabled disabled).alone (StoreCall.answer t) s = (.ok (), s) := by
  cases disabled with
  | none => rfl
  | some disabled => cases disabled <;> cases wasDisabled <;> rfl

private theorem alone_updateUser {caller : Option AuthContext} {target : User} {req : UpdateUserRequest}
    (h : target ∈ s.users) :
    Leaves t s (Awaited.updateUser t caller target req) (updateUser t s caller target req) := by
  refine Leaves.check rfl fun name => ?_
  refine Leaves.check rfl fun email => ?_
  refine Leaves.check rfl fun _ => ?_
  refine Leaves.check rfl fun _ => ?_
  refine Leaves.check (alone_resolveGiven req.groups) fun resolved => ?_
  refine Leaves.check (alone_forCaller fun ctx => alone_ensureCoversUser target ctx) fun _ => ?_
  refine Leaves.check (alone_forCaller fun ctx => ?_) fun _ => ?_
  · dsimp only
    split
    · rfl
    · exact alone_ensureCanGrantGroups _ ctx
  refine Leaves.check rfl fun _ => ?_
  have hid : target.id ∈ s.users.map User.id := List.mem_map_of_mem h
  have hlast := alone_leavesNoAdmin (t := t) (s := s) (removesAdmin t resolved ∨ req.disabled = some true) target
  by_cases hno : (removesAdmin t resolved ∨ req.disabled = some true) ∧ isLastEnabledAdmin t s target = true
  · rw [if_pos hno]
    refine (alone_bind_ok hlast).trans ?_
    rw [if_pos (by simpa using hno)]
    rfl
  · rw [if_neg hno, if_neg (not_not.2 hid)]
    obtain ⟨user', hupdated⟩ := alone_updateStored (t := t) hid
    refine ⟨user', (alone_bind_ok hlast).trans ?_⟩
    rw [if_neg (by simpa using hno)]
    refine (alone_bind_ok hupdated).trans ?_
    exact alone_bind_ok (alone_auditDisabled user' target.disabled req.disabled)

/-- The members leave the group, and nothing else changes. -/
private theorem alone_leaveAll (group : Group) {members : List User} (hnodup : (members.map User.id).Nodup)
    (hmem : ∀ m ∈ members, m ∈ s.users) :
    ∃ s', (Awaited.leaveAll t group members).alone (StoreCall.answer t) s = (.ok (), s') ∧
      s'.users = s.users.map (fun u => if u.id ∈ members.map User.id then u.leave t group.name else u) ∧
      s'.groups = s.groups ∧ s'.tokens = s.tokens := by
  induction members generalizing s with
  | nil => exact ⟨s, rfl, by simp, rfl, rfl⟩
  | cons m rest ih =>
    obtain ⟨hnew, hrest⟩ := List.nodup_cons.1 hnodup
    have hm := hmem m List.mem_cons_self
    let s₁ := s.updateUser m.id { groups := some (m.leave t group.name).groups }
    have hothers : ∀ m' ∈ rest, m' ∈ s₁.users := by
      intro m' hm'
      refine Stores.other_mem_updateUser (hmem m' (List.mem_cons_of_mem _ hm')) fun heq => hnew ?_
      rw [← heq]
      exact List.mem_map_of_mem hm'
    obtain ⟨s', halone, husers, hgroups, htokens⟩ := ih hrest hothers
    obtain ⟨user', hupdated⟩ := alone_updateStored (t := t) (List.mem_map_of_mem hm)
    refine ⟨s', (alone_bind_ok hupdated).trans halone, ?_, hgroups, htokens⟩
    rw [husers]
    show (s.users.map _).map _ = _
    rw [List.map_map]
    refine List.map_congr_left fun u hu => ?_
    by_cases hid : u.id = m.id
    · obtain rfl := s.eq_of_id_eq hu hm hid
      simp [UserChanges.apply, hnew, User.leave]
    · simp [hid]

private theorem Stores.eq_of_fields {s s' : Stores} (husers : s.users = s'.users) (hgroups : s.groups = s'.groups)
    (htokens : s.tokens = s'.tokens) : s = s' := by
  cases s
  cases s'
  simp only at husers hgroups htokens
  subst husers hgroups htokens
  rfl

private theorem alone_publishAll (members : List User) :
    (Awaited.publishAll members).alone (StoreCall.answer t) s = (.ok (), s) := by
  induction members with
  | nil => rfl
  | cons m rest ih => exact ih

private theorem alone_deleteGroup {group : Group} :
    Leaves t s (Awaited.deleteGroup t false group) (deleteGroup t s group) := by
  refine Leaves.ite (fun _ => rfl) fun _ => ?_
  let members := s.users.filter fun u => inGroup t u group.name
  have hnodup : (members.map User.id).Nodup := s.users_nodup.sublist (List.filter_sublist.map _)
  have hmem : ∀ m ∈ members, m ∈ s.users := fun m hm => List.mem_of_mem_filter hm
  have hleave := alone_leaveAll (t := t) group hnodup hmem
  obtain ⟨s', halone, husers, hgroups, htokens⟩ := hleave
  have hread : (Awaited.membersToLeave t false group).alone (StoreCall.answer t) s = (.ok members, s) := rfl
  refine ⟨(), (alone_bind_ok hread).trans ((alone_bind_ok halone).trans ?_)⟩
  refine (alone_publishAll members).trans (congrArg _ (Stores.eq_of_fields ?_ ?_ htokens))
  · show s'.users = s.users.map _
    rw [husers]
    refine List.map_congr_left fun u hu => ?_
    have hiff : u.id ∈ members.map User.id ↔ inGroup t u group.name = true := by
      constructor
      · intro hid
        obtain ⟨m, hm, hid⟩ := List.mem_map.1 hid
        obtain ⟨hm, hin⟩ := List.mem_filter.1 hm
        rwa [← s.eq_of_id_eq hm hu hid]
      · exact fun hin => List.mem_map_of_mem (List.mem_filter.2 ⟨hu, hin⟩)
    simp only [hiff]
  · show s'.groups.filter _ = s.groups.filter _
    rw [hgroups]

/-- The call of the service that a request makes. -/
def MembershipRequest.call : MembershipRequest → UsersCall
  | .addMember caller name idOrName => ⟨caller, .addMember name idOrName⟩
  | .removeMember caller name idOrName => ⟨caller, .removeMember name idOrName⟩
  | .deleteGroup name => ⟨none, .deleteGroup name⟩
  | .updateUser caller idOrName groups => ⟨caller, .updateUser idOrName { groups := some groups }⟩

theorem Leaves.discard {m : UsersProcess α} {result : Except UsersApiError Stores} (h : Leaves t s m result) :
    Leaves t s (m >>= fun _ => pure ()) result := by
  cases result with
  | error e => exact alone_bind_error h
  | ok s' =>
    obtain ⟨a, ha⟩ := h
    exact ⟨(), alone_bind_ok ha⟩

private theorem Leaves.iff {m : UsersProcess Unit} {result : Except UsersApiError Stores} {s' : Stores}
    (h : Leaves t s m result) :
    m.alone (StoreCall.answer t) s = (.ok (), s') ↔ result.toOption = some s' := by
  cases result with
  | error e =>
    rw [show m.alone (StoreCall.answer t) s = (.error e, s) from h]
    simp [Except.toOption]
  | ok s₁ =>
    obtain ⟨a, ha⟩ := h
    rw [ha]
    simp [Except.toOption]

private theorem alone_loadGroup (name : Str) (missing : UsersApiError) :
    (Awaited.loadGroup name missing).alone (StoreCall.answer t) s =
      ((s.getGroup t name).elim (.error missing) .ok, s) := by
  simp only [Awaited.loadGroup, store, call_bind, alone_await, StoreCall.answer]
  cases s.getGroup t name <;> rfl

private theorem alone_loadUser (idOrName : Str) :
    (Awaited.loadUser idOrName).alone (StoreCall.answer t) s =
      ((s.getUser t idOrName).elim (.error (notFound ("user not found: ".toList ++ idOrName))) .ok, s) := by
  simp only [Awaited.loadUser, store, call_bind, alone_await, StoreCall.answer]
  cases s.getUser t idOrName <;> rfl

/-- A record is loaded, and the rest is as the service has it. -/
theorem Leaves.load {m : UsersProcess α} {found : Option α} {missing : UsersApiError} {f : α → UsersProcess Unit}
    {g : α → Option Stores} {s' : Stores}
    (hm : m.alone (StoreCall.answer t) s = (found.elim (.error missing) .ok, s))
    (hf : ∀ a, found = some a → ((f a).alone (StoreCall.answer t) s = (.ok (), s') ↔ g a = some s')) :
    (m >>= f).alone (StoreCall.answer t) s = (.ok (), s') ↔ found.bind g = some s' := by
  cases found with
  | none =>
    rw [alone_bind_error hm]
    simp
  | some a =>
    rw [alone_bind_ok hm]
    exact hf a rfl

/-- A request alone is one step of the users service. -/
theorem alone_program (opts : AuthServiceOptions) (r : MembershipRequest) {s' : Stores} :
    (r.program t {}).alone (StoreCall.answer t) s = (.ok (), s') ↔ usersStep t opts s r.call = some s' := by
  cases r with
  | addMember caller name idOrName =>
    refine Leaves.load (alone_loadGroup name _) fun group _ => Leaves.load (alone_loadUser idOrName) fun user huser => ?_
    exact (alone_addMember (Stores.mem_of_getUser huser)).iff
  | removeMember caller name idOrName =>
    refine Leaves.load (alone_loadGroup name _) fun group _ => Leaves.load (alone_loadUser idOrName) fun user huser => ?_
    exact (alone_removeMember (Stores.mem_of_getUser huser)).iff
  | deleteGroup name => exact Leaves.load (alone_loadGroup name _) fun group _ => alone_deleteGroup.iff
  | updateUser caller idOrName groups =>
    refine Leaves.load (alone_loadUser idOrName) fun target htarget => ?_
    exact (alone_updateUser (Stores.mem_of_getUser htarget)).discard.iff

end CliServer
