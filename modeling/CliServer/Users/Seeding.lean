import CliServer.Users.Memberships

/-!
# Seeding, interrupted

`ensure_seeded` runs `seed` under a lock, until a call of it has returned.  `seed` makes the built-in groups, and
then, if there are no users, the root user, whose password is hashed off the event loop before it is stored.  Any
await of it may raise or be cancelled, and `seed` begins again with the next call.  But it begins where it finds no
users: once the root user is made, an interruption before its password is stored leaves it without one for good
(`seeding_iff`).
-/

namespace CliServer

open Transition

/-- What `seed` awaits. -/
inductive SeedAwait where
  | getAdminGroup
  | createAdminGroup
  | getUsersGroup
  | createUsersGroup
  | getUsers
  | createUser
  /-- `hash_password_async`, for the user with this id. -/
  | hashPassword (root : Str)
  /-- `credential_store.set_password`. -/
  | storePassword (root : Str)
  deriving DecidableEq, Repr

/-- A call of `ensure_seeded`. -/
inductive SeedCall where
  /-- It waits for the lock. -/
  | waiting
  | seeding (await : SeedAwait)
  | returned
  | raised
  deriving DecidableEq, Repr

/-- The stores, the ids of the users with a stored password, and the plugin's `_seeded` and `_seed_lock`. -/
structure SeedState where
  stores : Stores
  credentials : List Str
  seeded : Bool
  /-- The call that holds the lock. -/
  lock : Option Nat
  calls : List SeedCall

/-- A call by its number. -/
def SeedState.call? (s : SeedState) (i : Nat) : Option SeedCall := s.calls[i]?

def SeedState.start (stores : Stores) : SeedState where
  stores := stores
  credentials := []
  seeded := false
  lock := none
  calls := []

/-- `create_user` of `root`. -/
def rootUser (id : Str) : User := ⟨id, "root".toList, "root@localhost".toList, [adminGroup], false, none⟩

variable (t : CaseTable)

/-- `InMemoryGroupStore.create_group` of a built-in group. -/
def createBuiltIn (s : Stores) (name description : Str) (permissions : List Str) : Stores :=
  { s with groups := s.groups ++ [(lower t name, ⟨name, some description, permissions, true⟩)] }

/-- The effect of an awaited call on the stores; `id` is the one a new user gets, `none`: it is not a new one. -/
def SeedAwait.effect (id : Str) (s : SeedState) : SeedAwait → Option SeedState
  | .createAdminGroup =>
    some { s with stores := createBuiltIn t s.stores adminGroup "Administrators".toList [['*']] }
  | .createUsersGroup =>
    let description := "Default group for new accounts".toList
    some { s with stores := createBuiltIn t s.stores usersGroup description ["commands:execute".toList] }
  | .createUser =>
    if h : id ∉ s.stores.users.map User.id then some { s with stores := s.stores.addUser (rootUser id) h } else none
  | .storePassword root => some { s with credentials := s.credentials ++ [root] }
  | _ => some s

/-- `seed` after the groups. -/
def afterGroups (o : SeedOptions) : Option SeedAwait :=
  if o.externalAuth ∨ o.readOnlyUsers then none else some .getUsers

/-- The first await of `seed`; `none`: it returns. -/
def firstAwait (o : SeedOptions) : Option SeedAwait := if o.readOnlyGroups then afterGroups o else some .getAdminGroup

/-- The next await of `seed`; `none`: it returns. -/
def SeedAwait.next (o : SeedOptions) (id : Str) (s : Stores) : SeedAwait → Option SeedAwait
  | .getAdminGroup => some (if (s.getGroup t adminGroup).isSome then .getUsersGroup else .createAdminGroup)
  | .createAdminGroup => some .getUsersGroup
  | .getUsersGroup => if (s.getGroup t usersGroup).isSome then afterGroups o else some .createUsersGroup
  | .createUsersGroup => afterGroups o
  | .getUsers => if s.users = [] then some .createUser else none
  | .createUser => some (.hashPassword id)
  | .hashPassword root => some (.storePassword root)
  | .storePassword _ => none

namespace SeedState

/-- The call with the lock goes on to an await of `seed`, or `seed` returns. -/
def goOn (s : SeedState) (i : Nat) : Option SeedAwait → SeedState
  | some await => { s with lock := some i, calls := s.calls.set i (.seeding await) }
  | none => { s with seeded := true, lock := none, calls := s.calls.set i .returned }

/-- The call leaves the lock without having seeded. -/
def leave (s : SeedState) (i : Nat) (call : SeedCall) : SeedState :=
  { s with lock := none, calls := s.calls.set i call }

end SeedState

inductive SeedAction where
  /-- `ensure_seeded` is called. -/
  | call
  | acquire (i : Nat)
  /-- The await of a call answers; a user that is created gets the id. -/
  | answer (i : Nat) (id : Str)
  /-- It raises, or the call is cancelled there, before the awaited call has taken effect or after it. -/
  | fail (i : Nat) (id : Str) (applied : Bool)
  deriving DecidableEq, Repr

def seedStep (o : SeedOptions) (s : SeedState) : SeedAction → Option SeedState
  | .call => some { s with calls := s.calls ++ [if s.seeded then .returned else .waiting] }
  | .acquire i =>
    if s.call? i = some .waiting ∧ s.lock = none then
      some (if s.seeded then s.leave i .returned else s.goOn i (firstAwait o))
    else none
  | .answer i id =>
    match s.call? i with
    | some (.seeding await) => (await.effect t id s).map fun s' => s'.goOn i (await.next t o id s'.stores)
    | _ => none
  | .fail i id applied =>
    match s.call? i with
    | some .waiting => some { s with calls := s.calls.set i .raised }
    | some (.seeding await) => (if applied then await.effect t id s else some s).map fun s' => s'.leave i .raised
    | _ => none

/-- A pass of `seed` that nothing disturbs, as far as the number of awaits goes. -/
def seedAlone (o : SeedOptions) (id : Str) : Nat → SeedState → Option SeedAwait → Option SeedState
  | _, s, none => some s
  | 0, _, some _ => none
  | n + 1, s, some await => (await.effect t id s).bind fun s' => seedAlone o id n s' (await.next t o id s'.stores)

private theorem stores_seedAlone_users (o : SeedOptions) (id : Str) (n : Nat) (s : SeedState) :
    (seedAlone t o id (n + 4) s (afterGroups o)).map SeedState.stores =
      some (seedStores t { o with readOnlyGroups := true } id s.stores) := by
  by_cases hown : o.externalAuth ∨ o.readOnlyUsers
  · simp [afterGroups, seedStores, seedAlone, hown]
  · by_cases hnil : s.stores.users = []
    · simp [afterGroups, seedStores, seedAlone, SeedAwait.effect, SeedAwait.next, hown, hnil, rootUser]
    · simp [afterGroups, seedStores, seedAlone, SeedAwait.effect, SeedAwait.next, hown, hnil]

private theorem stores_seedAlone_second (o : SeedOptions) (id : Str) (n : Nat) (s : SeedState) :
    (seedAlone t o id (n + 6) s (some .getUsersGroup)).map SeedState.stores =
      some (seedStores t { o with readOnlyGroups := true } id (seedGroup t s.stores usersGroup
        "Default group for new accounts".toList ["commands:execute".toList])) := by
  by_cases husers : (s.stores.getGroup t usersGroup).isSome
  · simp [seedAlone, SeedAwait.effect, SeedAwait.next, husers, stores_seedAlone_users, seedGroup]
  · simp [seedAlone, SeedAwait.effect, SeedAwait.next, husers, stores_seedAlone_users, seedGroup, createBuiltIn]

/-- It leaves the stores that `seedStores` says. -/
theorem stores_seedAlone (o : SeedOptions) (id : Str) (s : SeedState) :
    (seedAlone t o id 8 s (firstAwait o)).map SeedState.stores = some (seedStores t o id s.stores) := by
  cases hro : o.readOnlyGroups with
  | true =>
    have hsame : { o with readOnlyGroups := true } = o := by rw [← hro]
    rw [firstAwait, if_pos hro, stores_seedAlone_users t o id 4 s, hsame]
  | false =>
    have hboth : seedStores t o id s.stores = seedStores t { o with readOnlyGroups := true } id
        (seedGroup t (seedGroup t s.stores adminGroup "Administrators".toList [['*']]) usersGroup
          "Default group for new accounts".toList ["commands:execute".toList]) := by
      unfold seedStores
      simp only [hro, if_true, Bool.false_eq_true, if_false]
    rw [hboth, firstAwait, if_neg (by simp [hro])]
    by_cases hadmin : (s.stores.getGroup t adminGroup).isSome
    · have hnext : seedAlone t o id 8 s (some .getAdminGroup) = seedAlone t o id 7 s (some .getUsersGroup) := by
        show seedAlone t o id (7 + 1) s _ = _
        rw [seedAlone, SeedAwait.effect, Option.bind_some, SeedAwait.next, if_pos hadmin]
        all_goals simp
      rw [seedGroup.eq_def t s.stores adminGroup, if_pos hadmin, hnext, stores_seedAlone_second t o id 1 s]
    · have hcreated := stores_seedAlone_second t o id 0
        { s with stores := createBuiltIn t s.stores adminGroup "Administrators".toList [['*']] }
      have hnext : seedAlone t o id 8 s (some .getAdminGroup) = seedAlone t o id 6
          { s with stores := createBuiltIn t s.stores adminGroup "Administrators".toList [['*']] }
          (some .getUsersGroup) := by
        show seedAlone t o id (6 + 1 + 1) s _ = _
        rw [seedAlone, SeedAwait.effect, Option.bind_some, SeedAwait.next, if_neg hadmin, seedAlone, SeedAwait.effect,
          Option.bind_some, SeedAwait.next]
        all_goals simp
      rw [seedGroup.eq_def t s.stores adminGroup, if_neg hadmin, ← createBuiltIn, hnext, hcreated]

/-! ### What is promised -/

/-- The built-in groups are there. -/
def BuiltInGroups (s : Stores) : Prop :=
  (s.getGroup t adminGroup).isSome = true ∧ (s.getGroup t usersGroup).isSome = true

/-- And root is an admin with a stored password. -/
structure SeedState.CanSignIn (s : SeedState) : Prop where
  groups : BuiltInGroups t s.stores
  root : ∃ user ∈ s.stores.users, user.name = "root".toList ∧ adminGroup ∈ user.groups ∧ user.id ∈ s.credentials

/-- The move is the return of a call. -/
def Returns (m : Move SeedState SeedAction) : Prop :=
  ∃ i, m.post.call? i = some .returned ∧ m.pre.call? i ≠ some .returned

/-- The move interrupts a call of `seed` between the making of the root user and the storing of its password. -/
def Interrupts (m : Move SeedState SeedAction) : Prop :=
  ∃ i id applied, m.act = .fail i id applied ∧
    ((m.pre.call? i = some (.seeding .createUser) ∧ applied = true) ∨
    (∃ root, m.pre.call? i = some (.seeding (.hashPassword root))) ∨
    ∃ root, m.pre.call? i = some (.seeding (.storePassword root)) ∧ applied = false)

/-! ### The invariant -/

/-- How far the seeding of the users has come, when no call is at the password. -/
inductive SeedSettled (interrupted : Prop) (users : List User) (credentials : List Str) : Prop
  | empty (users_eq : users = []) (credentials_eq : credentials = []) (going : ¬ interrupted)
  | made (id : Str) (users_eq : users = [rootUser id]) (credentials_eq : credentials = [id]) (going : ¬ interrupted)
  | broken (id : Str) (users_eq : users = [rootUser id]) (credentials_eq : credentials = []) (stopped : interrupted)

/-- The call has made the root user and not yet stored the password. -/
def AtPassword (call : Option SeedCall) : Prop :=
  ∃ root, call = some (.seeding (.hashPassword root)) ∨ call = some (.seeding (.storePassword root))

/-- What a call of `seed` knows where it is. -/
def SeedAwait.Knows (o : SeedOptions) (interrupted : Prop) (s : SeedState) : SeedAwait → Prop
  | .getAdminGroup => o.readOnlyGroups = false
  | .createAdminGroup => o.readOnlyGroups = false
  | .getUsersGroup => o.readOnlyGroups = false ∧ (s.stores.getGroup t adminGroup).isSome = true
  | .createUsersGroup => o.readOnlyGroups = false ∧ (s.stores.getGroup t adminGroup).isSome = true
  | .getUsers => o.readOnlyGroups = false → BuiltInGroups t s.stores
  | .createUser => (o.readOnlyGroups = false → BuiltInGroups t s.stores) ∧ s.stores.users = []
  | .hashPassword root | .storePassword root =>
    s.stores.users = [rootUser root] ∧ s.credentials = [] ∧ ¬ interrupted

/-- The invariant; `groups` are those the host's store had at the start. -/
structure SeedKept (o : SeedOptions) (groups : List (Str × Group)) (interrupted : Prop) (s : SeedState) : Prop where
  stage : (∃ i, AtPassword (s.call? i)) ∨ SeedSettled interrupted s.stores.users s.credentials
  owner : ∀ i await, s.call? i = some (.seeding await) → s.lock = some i
  knows : ∀ i await, s.call? i = some (.seeding await) → await.Knows t o interrupted s
  readOnly : o.readOnlyGroups = true → s.stores.groups = groups
  made : o.readOnlyGroups = false → s.stores.users ≠ [] → BuiltInGroups t s.stores
  done : s.seeded = true → s.stores.users ≠ [] ∧ s.lock = none

variable {t} {o : SeedOptions} {groups : List (Str × Group)} {interrupted : Prop} {s s' : SeedState}

/-! ### Calls and groups -/

private theorem call?_set {i j : Nat} {call call' : SeedCall} {s₁ : SeedState}
    (hcalls : s₁.calls = s.calls.set i call) (h : s₁.call? j = some call') :
    (j = i ∧ call' = call) ∨ (j ≠ i ∧ s.call? j = some call') := by
  unfold SeedState.call? at h ⊢
  rw [hcalls] at h
  by_cases hij : j = i
  · subst hij
    have hlt : j < s.calls.length := by
      have hlt := (List.getElem?_eq_some_iff.1 h).1
      rwa [List.length_set] at hlt
    rw [List.getElem?_set_self hlt] at h
    exact .inl ⟨rfl, (Option.some.inj h).symm⟩
  · rw [List.getElem?_set_ne fun heq => hij heq.symm] at h
    exact .inr ⟨hij, h⟩

private theorem call?_append {j : Nat} {call call' : SeedCall} (h : (s.calls ++ [call])[j]? = some call') :
    s.call? j = some call' ∨ call' = call := by
  rcases Nat.lt_or_ge j s.calls.length with hlt | hge
  · rw [List.getElem?_append_left hlt] at h
    exact .inl h
  · rw [List.getElem?_append_right hge] at h
    exact .inr (List.mem_singleton.1 (List.mem_of_getElem? h))

private theorem getGroup_createBuiltIn_self (s : Stores) (name description : Str) (permissions : List Str) :
    ((createBuiltIn t s name description permissions).getGroup t name).isSome = true := by
  simp [createBuiltIn, Stores.getGroup]

private theorem getGroup_createBuiltIn {s : Stores} {name name' description : Str} {permissions : List Str}
    (h : (s.getGroup t name').isSome = true) :
    ((createBuiltIn t s name description permissions).getGroup t name').isSome = true := by
  obtain ⟨g, hg⟩ := Option.isSome_iff_exists.1 h
  rw [createBuiltIn, getGroup_append hg]
  rfl

/-! ### One step -/

private theorem SeedSettled.of_nil {users : List User} {credentials : List Str}
    (h : SeedSettled interrupted users credentials)
    (hnil : users = []) : credentials = [] ∧ ¬ interrupted := by
  cases h with
  | empty _ hcredentials hgoing => exact ⟨hcredentials, hgoing⟩
  | made id husers => rw [hnil] at husers; cases husers
  | broken id husers => rw [hnil] at husers; cases husers

theorem SeedSettled.congr {interrupted' : Prop} {users : List User} {credentials : List Str}
    (h : SeedSettled interrupted users credentials) (heq : interrupted ↔ interrupted') :
    SeedSettled interrupted' users credentials := by
  rwa [← propext heq]

/-- A call that seeds is the only one. -/
theorem SeedKept.only {i j : Nat} {await await' : SeedAwait} (h : SeedKept t o groups interrupted s)
    (hi : s.call? i = some (.seeding await)) (hj : s.call? j = some (.seeding await')) : j = i := by
  have hlock := (h.owner i await hi).symm.trans (h.owner j await' hj)
  exact (Option.some.inj hlock).symm

theorem SeedKept.settled {i : Nat} {await : SeedAwait} (h : SeedKept t o groups interrupted s)
    (hi : s.call? i = some (.seeding await)) (hnot : ¬ AtPassword (some (.seeding await))) :
    SeedSettled interrupted s.stores.users s.credentials := by
  rcases h.stage with ⟨j, root, hj⟩ | hsettled
  · rcases hj with hj | hj
    · obtain rfl := h.only hi hj
      exact absurd ⟨root, .inl (hi.symm.trans hj)⟩ hnot
    · obtain rfl := h.only hi hj
      exact absurd ⟨root, .inr (hi.symm.trans hj)⟩ hnot
  · exact hsettled

private theorem SeedKept.not_seeded {i : Nat} {await : SeedAwait} (h : SeedKept t o groups interrupted s)
    (hi : s.call? i = some (.seeding await)) : s.seeded = false := by
  by_contra hseeded
  have hnone := (h.done (Bool.eq_true_of_not_eq_false hseeded)).2
  rw [h.owner i await hi] at hnone
  cases hnone

/-- What an awaited call leaves when it has taken effect. -/
structure Applied (s s₁ : SeedState) : Prop where
  calls : s₁.calls = s.calls
  seeded : s₁.seeded = s.seeded
  lock : s₁.lock = s.lock

private theorem applied_of_effect {await : SeedAwait} {id : Str} {s₁ : SeedState} (h : await.effect t id s = some s₁) :
    Applied s s₁ := by
  cases await with
  | createUser =>
    simp only [SeedAwait.effect] at h
    split at h
    · obtain rfl := Option.some.inj h
      exact ⟨rfl, rfl, rfl⟩
    · cases h
  | _ => obtain rfl := Option.some.inj h; exact ⟨rfl, rfl, rfl⟩

/-- The facts about the stores that do not depend on the calls. -/
structure StoresKept (t : CaseTable) (o : SeedOptions) (groups : List (Str × Group)) (s : SeedState) : Prop where
  readOnly : o.readOnlyGroups = true → s.stores.groups = groups
  made : o.readOnlyGroups = false → s.stores.users ≠ [] → BuiltInGroups t s.stores

theorem SeedKept.stores (h : SeedKept t o groups interrupted s) : StoresKept t o groups s := ⟨h.readOnly, h.made⟩

section Moves

variable {i : Nat} {await : SeedAwait} {s₁ : SeedState}

/-- The call goes on to an await. -/
private theorem SeedKept.goOn {await' : SeedAwait} (h : SeedKept t o groups interrupted s) (happlied : Applied s s₁)
    (hi : s.call? i = some (.seeding await)) (hstores : StoresKept t o groups s₁)
    (hknows : await'.Knows t o interrupted s₁)
    (hstage : AtPassword (some (.seeding await')) ∨ SeedSettled interrupted s₁.stores.users s₁.credentials) :
    SeedKept t o groups interrupted (s₁.goOn i (some await')) := by
  have hcalls : (s₁.goOn i (some await')).calls = s.calls.set i (.seeding await') := by
    rw [SeedState.goOn, happlied.calls]
  have hself : (s₁.goOn i (some await')).call? i = some (.seeding await') := by
    rw [SeedState.call?, hcalls, List.getElem?_set_self (List.getElem?_eq_some_iff.1 hi).1]
  have honly : ∀ j await'', (s₁.goOn i (some await')).call? j = some (.seeding await'') → j = i ∧ await'' = await' := by
    intro j await'' hj
    rcases call?_set hcalls hj with ⟨hji, heq⟩ | ⟨hji, hj⟩
    · exact ⟨hji, SeedCall.seeding.inj heq⟩
    · exact absurd (h.only hi hj) hji
  refine ⟨?_, fun j await'' hj => ?_, fun j await'' hj => ?_, hstores.readOnly, hstores.made, fun hseeded => ?_⟩
  · rcases hstage with hat | hsettled
    · exact .inl ⟨i, by rwa [hself]⟩
    · exact .inr hsettled
  · rw [(honly j await'' hj).1]
    rfl
  · rw [(honly j await'' hj).2]
    exact hknows
  · have hnot : s₁.seeded = false := happlied.seeded.trans (h.not_seeded hi)
    have hyes : s₁.seeded = true := hseeded
    rw [hnot] at hyes
    cases hyes

/-- The call leaves the lock. -/
theorem SeedKept.leave {interrupted' : Prop} {call : SeedCall} {seeded : Bool} (h : SeedKept t o groups interrupted s)
    (happlied : Applied s s₁) (hi : s.call? i = some (.seeding await)) (hstores : StoresKept t o groups s₁)
    (hcall : ∀ await, call ≠ .seeding await) (hsettled : SeedSettled interrupted' s₁.stores.users s₁.credentials)
    (hseeded : seeded = true → s₁.stores.users ≠ []) :
    SeedKept t o groups interrupted' { s₁ with seeded := seeded, lock := none, calls := s₁.calls.set i call } := by
  have hnone : ∀ j await', (SeedState.mk s₁.stores s₁.credentials seeded none (s₁.calls.set i call)).call? j ≠
      some (.seeding await') := by
    intro j await' hj
    have hcalls : (SeedState.mk s₁.stores s₁.credentials seeded none (s₁.calls.set i call)).calls =
        s.calls.set i call := by
      rw [happlied.calls]
    rcases call?_set hcalls hj with ⟨-, heq⟩ | ⟨hji, hj⟩
    · exact hcall await' heq.symm
    · exact absurd (h.only hi hj) hji
  exact ⟨.inr hsettled, fun j await' hj => absurd hj (hnone j await'), fun j await' hj => absurd hj (hnone j await'),
    hstores.readOnly, hstores.made, fun hyes => ⟨hseeded hyes, rfl⟩⟩

/-- No effect of a call takes the built-in groups away, or changes the groups of a host. -/
theorem SeedKept.effect {id : Str} (h : SeedKept t o groups interrupted s) (hi : s.call? i = some (.seeding await))
    (heffect : await.effect t id s = some s₁) : StoresKept t o groups s₁ := by
  have hknows := h.knows i await hi
  have hcreated : ∀ name description permissions, o.readOnlyGroups = false →
      StoresKept t o groups { s with stores := createBuiltIn t s.stores name description permissions } := by
    intro name description permissions hown
    refine ⟨fun hro => ?_, fun hro husers => ?_⟩
    · rw [hown] at hro
      cases hro
    · obtain ⟨hadmin, husersGroup⟩ := h.made hro husers
      exact ⟨getGroup_createBuiltIn hadmin, getGroup_createBuiltIn husersGroup⟩
  cases await with
  | createAdminGroup =>
    obtain rfl := Option.some.inj heffect
    exact hcreated _ _ _ hknows
  | createUsersGroup =>
    obtain rfl := Option.some.inj heffect
    exact hcreated _ _ _ hknows.1
  | createUser =>
    simp only [SeedAwait.effect] at heffect
    split at heffect
    · obtain rfl := Option.some.inj heffect
      exact ⟨h.readOnly, fun hro _ => hknows.1 hro⟩
    · cases heffect
  | _ => obtain rfl := Option.some.inj heffect; exact ⟨h.readOnly, h.made⟩

/-- Only two awaits are at the password. -/
private theorem not_atPassword (hhash : ∀ root, await ≠ .hashPassword root)
    (hstore : ∀ root, await ≠ .storePassword root) :
    ¬ AtPassword (some (.seeding await)) := by
  rintro ⟨root, heq | heq⟩
  · exact hhash root (SeedCall.seeding.inj (Option.some.inj heq))
  · exact hstore root (SeedCall.seeding.inj (Option.some.inj heq))

/-- The new user is the only one. -/
private theorem users_createUser {id : Str} (hnil : s.stores.users = [])
    (heffect : SeedAwait.effect t id s .createUser = some s₁) :
    s₁.stores.users = [rootUser id] ∧ s₁.credentials = s.credentials := by
  simp only [SeedAwait.effect] at heffect
  split at heffect
  · obtain rfl := Option.some.inj heffect
    refine ⟨?_, rfl⟩
    show s.stores.users ++ [rootUser id] = [rootUser id]
    rw [hnil, List.nil_append]
  · cases heffect

/-- An await answers. -/
theorem SeedKept.answer {id : Str} (hmanaged : o.externalAuth = false ∧ o.readOnlyUsers = false)
    (h : SeedKept t o groups interrupted s) (hi : s.call? i = some (.seeding await))
    (heffect : await.effect t id s = some s₁) :
    SeedKept t o groups interrupted (s₁.goOn i (await.next t o id s₁.stores)) := by
  have happlied := applied_of_effect heffect
  have hstores := h.effect hi heffect
  have hafter : afterGroups o = some .getUsers := by simp [afterGroups, hmanaged]
  have hknows := h.knows i await hi
  cases await with
  | getAdminGroup =>
    obtain rfl := Option.some.inj heffect
    have hsettled := h.settled hi (not_atPassword (fun _ h => by cases h) fun _ h => by cases h)
    simp only [SeedAwait.next]
    split
    · rename_i hadmin
      exact h.goOn happlied hi hstores ⟨hknows, hadmin⟩ (.inr hsettled)
    · exact h.goOn happlied hi hstores hknows (.inr hsettled)
  | createAdminGroup =>
    obtain rfl := Option.some.inj heffect
    have hsettled := h.settled hi (not_atPassword (fun _ h => by cases h) fun _ h => by cases h)
    exact h.goOn happlied hi hstores ⟨hknows, getGroup_createBuiltIn_self _ _ _ _⟩ (.inr hsettled)
  | getUsersGroup =>
    obtain rfl := Option.some.inj heffect
    have hsettled := h.settled hi (not_atPassword (fun _ h => by cases h) fun _ h => by cases h)
    simp only [SeedAwait.next, hafter]
    split
    · rename_i husersGroup
      exact h.goOn happlied hi hstores (fun _ => ⟨hknows.2, husersGroup⟩) (.inr hsettled)
    · exact h.goOn happlied hi hstores hknows (.inr hsettled)
  | createUsersGroup =>
    obtain rfl := Option.some.inj heffect
    have hsettled := h.settled hi (not_atPassword (fun _ h => by cases h) fun _ h => by cases h)
    simp only [SeedAwait.next, hafter]
    have hthere : ∀ description permissions,
        BuiltInGroups t (createBuiltIn t s.stores usersGroup description permissions) :=
      fun _ _ => ⟨getGroup_createBuiltIn hknows.2, getGroup_createBuiltIn_self _ _ _ _⟩
    exact h.goOn happlied hi hstores (fun _ => hthere _ _) (.inr hsettled)
  | getUsers =>
    obtain rfl := Option.some.inj heffect
    have hsettled := h.settled hi (not_atPassword (fun _ h => by cases h) fun _ h => by cases h)
    simp only [SeedAwait.next]
    split
    · rename_i hnil
      exact h.goOn happlied hi hstores ⟨hknows, hnil⟩ (.inr hsettled)
    · rename_i hne
      exact h.leave happlied hi hstores (fun _ h => by cases h) hsettled fun _ => hne
  | createUser =>
    have hsettled := h.settled hi (not_atPassword (fun _ h => by cases h) fun _ h => by cases h)
    obtain ⟨hcredentials, hgoing⟩ := hsettled.of_nil hknows.2
    obtain ⟨husers, hsame⟩ := users_createUser hknows.2 heffect
    exact h.goOn happlied hi hstores ⟨husers, hsame.trans hcredentials, hgoing⟩ (.inl ⟨id, .inl rfl⟩)
  | hashPassword root =>
    obtain rfl := Option.some.inj heffect
    exact h.goOn happlied hi hstores hknows (.inl ⟨root, .inr rfl⟩)
  | storePassword root =>
    obtain rfl := Option.some.inj heffect
    obtain ⟨husers, hcredentials, hgoing⟩ := hknows
    have hstored : s.credentials ++ [root] = [root] := by rw [hcredentials, List.nil_append]
    refine h.leave happlied hi hstores (fun _ h => by cases h) (.made root husers hstored hgoing) fun _ => ?_
    show s.stores.users ≠ []
    rw [husers]
    exact List.cons_ne_nil _ _

/-- The failure of this await, before its effect or after it, is an interruption. -/
def SeedAwait.InWindow (applied : Bool) : SeedAwait → Prop
  | .createUser => applied = true
  | .hashPassword _ => True
  | .storePassword _ => applied = false
  | _ => False

/-- An await fails. -/
theorem SeedKept.fail {id : Str} {applied : Bool} (h : SeedKept t o groups interrupted s)
    (hi : s.call? i = some (.seeding await))
    (heffect : (if applied then await.effect t id s else some s) = some s₁) :
    SeedKept t o groups (interrupted ∨ await.InWindow applied) (s₁.leave i .raised) := by
  have hknows := h.knows i await hi
  have hboth : Applied s s₁ ∧ StoresKept t o groups s₁ := by
    cases applied with
    | true => exact ⟨applied_of_effect heffect, h.effect hi heffect⟩
    | false =>
      obtain rfl := Option.some.inj heffect
      exact ⟨⟨rfl, rfl, rfl⟩, h.stores⟩
  obtain ⟨happlied, hstores⟩ := hboth
  have hnot : s₁.seeded = false := happlied.seeded.trans (h.not_seeded hi)
  refine h.leave happlied hi hstores (fun _ h => by cases h) ?_ fun hyes => by rw [hnot] at hyes; cases hyes
  -- what the users and credentials are, and whether that is because of an interruption
  have hsame : ¬ AtPassword (some (.seeding await)) → s₁.stores.users = s.stores.users →
      s₁.credentials = s.credentials → ¬ await.InWindow applied →
      SeedSettled (interrupted ∨ await.InWindow applied) s₁.stores.users s₁.credentials := by
    intro hat husers hcredentials hwindow
    rw [husers, hcredentials]
    exact (h.settled hi hat).congr ⟨.inl, fun h => h.resolve_right hwindow⟩
  cases await with
  | createUser =>
    have hat : ¬ AtPassword (some (.seeding .createUser)) :=
      not_atPassword (fun _ h => by cases h) fun _ h => by cases h
    cases applied with
    | false =>
      obtain rfl := Option.some.inj heffect
      exact hsame hat rfl rfl fun h => by cases h
    | true =>
      obtain ⟨hcredentials, -⟩ := (h.settled hi hat).of_nil hknows.2
      have hcreated : SeedAwait.effect t id s .createUser = some s₁ := heffect
      obtain ⟨husers, hkept⟩ := users_createUser hknows.2 hcreated
      exact .broken id husers (hkept.trans hcredentials) (.inr rfl)
  | hashPassword root =>
    obtain ⟨husers, hcredentials, -⟩ := hknows
    obtain rfl : s = s₁ := by cases applied <;> exact Option.some.inj heffect
    exact .broken root husers hcredentials (.inr trivial)
  | storePassword root =>
    obtain ⟨husers, hcredentials, hgoing⟩ := hknows
    cases applied with
    | false =>
      obtain rfl := Option.some.inj heffect
      exact .broken root husers hcredentials (.inr rfl)
    | true =>
      obtain rfl := Option.some.inj heffect
      have hstored : s.credentials ++ [root] = [root] := by rw [hcredentials, List.nil_append]
      exact .made root husers hstored fun h => h.elim hgoing fun h => by cases h
  | _ =>
    refine hsame (not_atPassword (fun _ h => by cases h) fun _ h => by cases h) ?_ ?_ (fun h => h)
    · cases applied <;> (obtain rfl := Option.some.inj heffect; rfl)
    · cases applied <;> (obtain rfl := Option.some.inj heffect; rfl)

end Moves

/-- The calls change, those of `seed` excepted. -/
private theorem SeedKept.of_calls {calls : List SeedCall} (h : SeedKept t o groups interrupted s)
    (hsame : ∀ j await, SeedState.call? { s with calls := calls } j = some (.seeding await) ↔
      s.call? j = some (.seeding await)) :
    SeedKept t o groups interrupted { s with calls := calls } := by
  refine ⟨?_, fun j await hj => h.owner j await ((hsame j await).1 hj), fun j await hj => ?_, h.readOnly, h.made, h.done⟩
  · rcases h.stage with ⟨j, root, hj | hj⟩ | hsettled
    · exact .inl ⟨j, root, .inl ((hsame j _).2 hj)⟩
    · exact .inl ⟨j, root, .inr ((hsame j _).2 hj)⟩
    · exact .inr hsettled
  · exact h.knows j await ((hsame j await).1 hj)

/-- A waiting call that does not seed. -/
private theorem SeedKept.of_waiting {i : Nat} {call : SeedCall} (h : SeedKept t o groups interrupted s)
    (hi : s.call? i = some .waiting) (hcall : ∀ await, call ≠ .seeding await) :
    SeedKept t o groups interrupted { s with calls := s.calls.set i call } := by
  refine h.of_calls fun j await => ⟨fun hj => ?_, fun hj => ?_⟩
  · rcases call?_set rfl hj with ⟨-, heq⟩ | ⟨-, hj⟩
    · exact absurd heq.symm (hcall await)
    · exact hj
  · have hij : i ≠ j := by
      rintro rfl
      rw [hi] at hj
      cases hj
    show (s.calls.set i call)[j]? = _
    rw [List.getElem?_set_ne hij]
    exact hj

/-- A new call. -/
private theorem SeedKept.of_new {call : SeedCall} (h : SeedKept t o groups interrupted s)
    (hcall : ∀ await, call ≠ .seeding await) :
    SeedKept t o groups interrupted { s with calls := s.calls ++ [call] } := by
  refine h.of_calls fun j await => ⟨fun hj => ?_, fun hj => ?_⟩
  · exact (call?_append hj).resolve_right fun heq => hcall await heq.symm
  · show (s.calls ++ [call])[j]? = _
    rw [List.getElem?_append_left (List.getElem?_eq_some_iff.1 hj).1]
    exact hj

/-- A call that gets the lock begins to seed. -/
theorem SeedKept.begin {i : Nat} (hmanaged : o.externalAuth = false ∧ o.readOnlyUsers = false)
    (h : SeedKept t o groups interrupted s) (hlock : s.lock = none) (hseeded : s.seeded = false) :
    SeedKept t o groups interrupted (s.goOn i (firstAwait o)) := by
  have hfree : ∀ j await, s.call? j ≠ some (.seeding await) := by
    intro j await hj
    have howner := h.owner j await hj
    rw [hlock] at howner
    cases howner
  have hsettled : SeedSettled interrupted s.stores.users s.credentials := by
    refine h.stage.resolve_left ?_
    rintro ⟨j, root, hj | hj⟩ <;> exact hfree j _ hj
  have hfirst : ∃ await, firstAwait o = some await ∧ await.Knows t o interrupted s := by
    cases hro : o.readOnlyGroups with
    | false => exact ⟨.getAdminGroup, by simp [firstAwait, hro], hro⟩
    | true =>
      refine ⟨.getUsers, by simp [firstAwait, afterGroups, hro, hmanaged], fun hno => ?_⟩
      rw [hro] at hno
      cases hno
  obtain ⟨await, hfirst, hknows⟩ := hfirst
  have honly : ∀ j await', (s.goOn i (some await)).call? j = some (.seeding await') → j = i ∧ await' = await := by
    intro j await' hj
    rcases call?_set rfl hj with ⟨hji, heq⟩ | ⟨-, hj⟩
    · exact ⟨hji, SeedCall.seeding.inj heq⟩
    · exact absurd hj (hfree j await')
  rw [hfirst]
  refine ⟨.inr hsettled, fun j await' hj => ?_, fun j await' hj => ?_, h.readOnly, h.made, fun hyes => ?_⟩
  · rw [(honly j await' hj).1]
    rfl
  · rw [(honly j await' hj).2]
    exact hknows
  · have hyes : s.seeded = true := hyes
    rw [hseeded] at hyes
    cases hyes

theorem SeedKept.congr {interrupted' : Prop} (h : SeedKept t o groups interrupted s)
    (heq : interrupted ↔ interrupted') :
    SeedKept t o groups interrupted' s := by
  rwa [← propext heq]

/-- A step that is no failure of a call of `seed` interrupts none. -/
private theorem SeedKept.uninterrupted {a : SeedAction} (h : SeedKept t o groups interrupted s)
    (hnot : ∀ i id applied await, a = .fail i id applied → s'.call? i ≠ some (.seeding await)) :
    SeedKept t o groups (interrupted ∨ Interrupts ⟨s', a, s⟩) s := by
  refine h.congr ⟨.inl, fun h => h.resolve_right ?_⟩
  rintro ⟨i, id, applied, hact, ⟨hi, -⟩ | ⟨root, hi⟩ | ⟨root, hi, -⟩⟩
  · exact hnot i id applied _ hact hi
  · exact hnot i id applied _ hact hi
  · exact hnot i id applied _ hact hi

/-- What a failure interrupts, by the await it fails at. -/
private theorem inWindow_iff {i : Nat} {id : Str} {applied : Bool} {await : SeedAwait}
    (hi : s.call? i = some (.seeding await)) :
    await.InWindow applied ↔ Interrupts ⟨s, .fail i id applied, s'⟩ := by
  constructor
  · intro hwindow
    refine ⟨i, id, applied, rfl, ?_⟩
    cases await with
    | createUser => exact .inl ⟨hi, hwindow⟩
    | hashPassword root => exact .inr (.inl ⟨root, hi⟩)
    | storePassword root => exact .inr (.inr ⟨root, hi, hwindow⟩)
    | _ => exact hwindow.elim
  · rintro ⟨i', id', applied', hact, hat⟩
    obtain ⟨rfl, rfl, rfl⟩ := SeedAction.fail.inj hact
    simp only [hi, Option.some.injEq, SeedCall.seeding.injEq] at hat
    rcases hat with ⟨rfl, happlied⟩ | ⟨root, rfl⟩ | ⟨root, rfl, happlied⟩
    · exact happlied
    · trivial
    · exact happlied

/-- Every step keeps the invariant. -/
theorem SeedKept.step {a : SeedAction} (hmanaged : o.externalAuth = false ∧ o.readOnlyUsers = false)
    (h : SeedKept t o groups interrupted s) (hst : seedStep t o s a = some s') :
    SeedKept t o groups (interrupted ∨ Interrupts ⟨s, a, s'⟩) s' := by
  cases a with
  | call =>
    obtain rfl := Option.some.inj hst
    refine SeedKept.uninterrupted (h.of_new fun await => ?_) fun _ _ _ _ hact => by cases hact
    split <;> exact fun h => by cases h
  | acquire i =>
    simp only [seedStep] at hst
    split at hst
    · rename_i hfree
      obtain ⟨hi, hlock⟩ := hfree
      obtain rfl := Option.some.inj hst
      refine SeedKept.uninterrupted ?_ fun _ _ _ _ hact => by cases hact
      split
      · rw [SeedState.leave, ← hlock]
        exact h.of_waiting hi fun _ h => by cases h
      · rename_i hseeded
        exact h.begin hmanaged hlock (Bool.eq_false_iff.2 hseeded)
    · cases hst
  | answer i id =>
    simp only [seedStep] at hst
    split at hst
    · rename_i await hi
      obtain ⟨s₁, heffect, rfl⟩ := Option.map_eq_some_iff.1 hst
      exact SeedKept.uninterrupted (h.answer hmanaged hi heffect) fun _ _ _ _ hact => by cases hact
    · cases hst
  | fail i id applied =>
    simp only [seedStep] at hst
    split at hst
    · rename_i hi
      obtain rfl := Option.some.inj hst
      refine SeedKept.uninterrupted (h.of_waiting hi fun _ h => by cases h) fun i' id' applied' await hact hi' => ?_
      obtain ⟨rfl, -, -⟩ := SeedAction.fail.inj hact
      rw [hi] at hi'
      cases hi'
    · rename_i await hi
      obtain ⟨s₁, heffect, rfl⟩ := Option.map_eq_some_iff.1 hst
      exact (h.fail hi heffect).congr (or_congr_right (inWindow_iff hi))
    · cases hst

/-! ### Runs -/

theorem SeedKept.start (stores : Stores) (hempty : stores.users = []) :
    SeedKept t o stores.groups False (SeedState.start stores) where
  stage := .inr (.empty hempty rfl not_false)
  owner _ _ h := by cases h
  knows _ _ h := by cases h
  readOnly _ := rfl
  made _ h := absurd hempty h
  done h := by cases h

/-- Along a run, with the interruptions it had. -/
theorem SeedKept.run {stores : Stores} {ms : List (Move SeedState SeedAction)}
    (hmanaged : o.externalAuth = false ∧ o.readOnlyUsers = false) (hempty : stores.users = [])
    (h : Run (seedStep t o) (.start stores) ms s) : SeedKept t o stores.groups (∃ m ∈ ms, Interrupts m) s := by
  refine h.history (I := fun ms s => SeedKept t o stores.groups (∃ m ∈ ms, Interrupts m) s) ?_ ?_
  · exact (SeedKept.start stores hempty).congr (by simp)
  · intro ms s a s' hs _ hst
    exact (hs.step hmanaged hst).congr (by simp [or_and_right, exists_or])

/-- A call that has returned has seen the plugin seeded. -/
def ReturnedSeeded (s : SeedState) : Prop := ∀ i, s.call? i = some .returned → s.seeded = true

theorem ReturnedSeeded.step {a : SeedAction} (h : ReturnedSeeded s) (hst : seedStep t o s a = some s') :
    ReturnedSeeded s' := by
  have hgoOn : ∀ {s₁ : SeedState} {i : Nat} (await : Option SeedAwait), Applied s s₁ →
      ReturnedSeeded (s₁.goOn i await) := by
    intro s₁ i await happlied j hj
    cases await with
    | none => rfl
    | some await =>
      have hcalls : (s₁.goOn i (some await)).calls = s.calls.set i (.seeding await) := by
        rw [SeedState.goOn, happlied.calls]
      rcases call?_set hcalls hj with ⟨-, heq⟩ | ⟨-, hj⟩
      · cases heq
      · exact happlied.seeded.trans (h j hj)
  cases a with
  | call =>
    obtain rfl := Option.some.inj hst
    intro j hj
    rcases call?_append hj with hj | heq
    · exact h j hj
    · split at heq
      · assumption
      · cases heq
  | acquire i =>
    simp only [seedStep] at hst
    split at hst
    · obtain rfl := Option.some.inj hst
      split
      · intro j hj
        assumption
      · exact hgoOn _ ⟨rfl, rfl, rfl⟩
    · cases hst
  | answer i id =>
    simp only [seedStep] at hst
    split at hst
    · obtain ⟨s₁, heffect, rfl⟩ := Option.map_eq_some_iff.1 hst
      exact hgoOn _ (applied_of_effect heffect)
    · cases hst
  | fail i id applied =>
    have hraised : ∀ {s₁ s₂ : SeedState}, Applied s s₁ → s₂.seeded = s₁.seeded → s₂.calls = s₁.calls.set i .raised →
        ReturnedSeeded s₂ := by
      intro s₁ s₂ happlied hseeded hcalls j hj
      rw [happlied.calls] at hcalls
      rcases call?_set hcalls hj with ⟨-, heq⟩ | ⟨-, hj⟩
      · cases heq
      · exact (hseeded.trans happlied.seeded).trans (h j hj)
    simp only [seedStep] at hst
    split at hst
    · obtain rfl := Option.some.inj hst
      exact hraised ⟨rfl, rfl, rfl⟩ rfl rfl
    · rename_i await hi
      obtain ⟨s₁, heffect, rfl⟩ := Option.map_eq_some_iff.1 hst
      cases applied with
      | false =>
        obtain rfl := Option.some.inj heffect
        exact hraised ⟨rfl, rfl, rfl⟩ rfl rfl
      | true => exact hraised (applied_of_effect heffect) rfl rfl
    · cases hst

/-- A failure returns no call. -/
private theorem not_interrupts_of_returns {m : Move SeedState SeedAction} (hst : seedStep t o m.pre m.act = some m.post)
    (hreturns : Returns m) : ¬ Interrupts m := by
  obtain ⟨pre, a, post⟩ := m
  rintro ⟨i, id, applied, rfl, hat⟩
  obtain ⟨j, hpost, hpre⟩ := hreturns
  have hseeding : ∃ await, pre.call? i = some (.seeding await) := by
    rcases hat with ⟨hi, -⟩ | ⟨root, hi⟩ | ⟨root, hi, -⟩
    · exact ⟨_, hi⟩
    · exact ⟨_, hi⟩
    · exact ⟨_, hi⟩
  obtain ⟨await, hi⟩ := hseeding
  simp only [seedStep, hi] at hst
  obtain ⟨s₁, heffect, rfl⟩ := Option.map_eq_some_iff.1 hst
  have hcalls : s₁.calls = pre.calls := by
    cases applied with
    | false => rw [← Option.some.inj heffect]
    | true => exact (applied_of_effect heffect).calls
  have hset : (s₁.leave i .raised).calls = pre.calls.set i .raised := by rw [SeedState.leave, hcalls]
  rcases call?_set hset hpost with ⟨-, heq⟩ | ⟨-, hj⟩
  · cases heq
  · exact hpre hj

/-- The users of a plugin that has seeded. -/
theorem SeedKept.finished (h : SeedKept t o groups interrupted s) (hseeded : s.seeded = true) :
    ∃ id, s.stores.users = [rootUser id] ∧
      (¬ interrupted ∧ s.credentials = [id] ∨ interrupted ∧ s.credentials = []) := by
  obtain ⟨husers, hlock⟩ := h.done hseeded
  have hsettled : SeedSettled interrupted s.stores.users s.credentials := by
    refine h.stage.resolve_left ?_
    rintro ⟨j, root, hj | hj⟩
    · have howner := h.owner j _ hj
      rw [hlock] at howner
      cases howner
    · have howner := h.owner j _ hj
      rw [hlock] at howner
      cases howner
  cases hsettled with
  | empty hnil => exact absurd hnil husers
  | made id husers hcredentials hgoing => exact ⟨id, husers, .inl ⟨hgoing, hcredentials⟩⟩
  | broken id husers hcredentials hstopped => exact ⟨id, husers, .inr ⟨hstopped, hcredentials⟩⟩

/-- When a call of `ensure_seeded` returns, the server can be signed in to if and only if no call of `seed` was
interrupted between the making of the root user and the storing of its password (and a host that has the groups in a
store of its own has the built-in ones). -/
theorem seeding_iff {stores : Stores} {before after : List (Move SeedState SeedAction)} {m : Move SeedState SeedAction}
    (hmanaged : o.externalAuth = false ∧ o.readOnlyUsers = false) (hempty : stores.users = [])
    (h : Run (seedStep t o) (.start stores) (before ++ m :: after) s) (hreturns : Returns m) :
    m.post.CanSignIn t ↔
      (∀ m' ∈ before, ¬ Interrupts m') ∧ (o.readOnlyGroups = true → BuiltInGroups t stores) := by
  obtain ⟨hbefore, -, hst, -⟩ := h.at_move
  have hrun : Run (seedStep t o) (.start stores) (before ++ [m]) m.post := hbefore.step trivial hst
  have hreturned : ReturnedSeeded m.post :=
    hrun.invariant (fun _ h => by cases h) fun _ _ _ hs _ hst => hs.step hst
  obtain ⟨i, hi, hnew⟩ := hreturns
  have hnot : ¬ Interrupts m := not_interrupts_of_returns hst ⟨i, hi, hnew⟩
  have hkept := (SeedKept.run hmanaged hempty hbefore).step hmanaged hst
  obtain ⟨id, husers, hcredentials⟩ := hkept.finished (hreturned i hi)
  have hne : m.post.stores.users ≠ [] := by rw [husers]; exact List.cons_ne_nil _ _
  have hgroups : BuiltInGroups t m.post.stores ↔ (o.readOnlyGroups = true → BuiltInGroups t stores) := by
    cases hro : o.readOnlyGroups with
    | false => exact ⟨fun _ hno => (by cases hno), fun _ => hkept.made hro hne⟩
    | true =>
      simp only [BuiltInGroups, Stores.getGroup, hkept.readOnly hro, forall_const]
  constructor
  · rintro ⟨hthere, user, huser, -, -, hstored⟩
    refine ⟨fun m' hm' hinterrupts => ?_, hgroups.1 hthere⟩
    rcases hcredentials with ⟨hgoing, -⟩ | ⟨-, hnil⟩
    · exact hgoing (.inl ⟨m', hm', hinterrupts⟩)
    · rw [hnil] at hstored
      cases hstored
  · rintro ⟨hgoing, hhost⟩
    refine ⟨hgroups.2 hhost, rootUser id, ?_, rfl, List.mem_singleton.2 rfl, ?_⟩
    · rw [husers]
      exact List.mem_singleton.2 rfl
    · rcases hcredentials with ⟨-, hone⟩ | ⟨⟨m', hm', hinterrupts⟩ | hinterrupts, -⟩
      · rw [hone]
        exact List.mem_singleton.2 rfl
      · exact absurd hinterrupts (hgoing m' hm')
      · exact absurd hinterrupts hnot

/-- Two calls at once: the first seeds, undisturbed, and returns. -/
theorem seeding_two_calls :
    let t : CaseTable := fun _ c _ => [c]
    ∃ before m after s, Run (seedStep t {}) (.start emptyStores) (before ++ m :: after) s ∧ Returns m ∧
      m.post.CanSignIn t := by
  intro t
  let last : SeedAction := .answer 0 ['r']
  let earlier : List SeedAction := [.call, .call, .acquire 0] ++ List.replicate 7 last
  let actions : List SeedAction := earlier ++ last :: []
  have hexec : (exec (seedStep t {}) (.start emptyStores) actions).any (fun r =>
      r.1.getLast?.any fun m =>
        decide (m.post.call? 0 = some .returned) && decide (m.pre.call? 0 ≠ some .returned)) = true := by
    decide +kernel
  obtain ⟨⟨history, s⟩, hexec, hlast⟩ := (Option.any_eq_true _ _).1 hexec
  obtain ⟨before, m, after, rfl, hbefore, -, hafter⟩ := split_of_exec hexec
  obtain rfl := List.map_eq_nil_iff.1 hafter
  have hrun := run_of_exec hexec
  simp only [List.getLast?_append, List.getLast?_singleton, Option.some_or, Option.any_some, Bool.and_eq_true,
    decide_eq_true_eq] at hlast
  have hreturns : Returns m := ⟨0, hlast.1, hlast.2⟩
  refine ⟨before, m, [], s, hrun, hreturns, (seeding_iff ⟨rfl, rfl⟩ rfl hrun hreturns).2 ⟨fun m' hm' => ?_, ?_⟩⟩
  · rintro ⟨i, id, applied, hact, -⟩
    have hmem : m'.act ∈ earlier := hbefore ▸ List.mem_map_of_mem hm'
    rw [hact] at hmem
    simp [earlier, last] at hmem
  · intro hno
    cases hno

/-- The hash of the password is cancelled: the next call returns, and there is no password to sign in with. -/
theorem seeding_cancelled_at_hash :
    let t : CaseTable := fun _ c _ => [c]
    ∃ before m after s, Run (seedStep t {}) (.start emptyStores) (before ++ m :: after) s ∧ Returns m ∧
      (∃ m' ∈ before, m'.act = .fail 0 [] false ∧ m'.pre.call? 0 = some (.seeding (.hashPassword ['r']))) ∧
      ¬ m.post.CanSignIn t := by
  intro t
  let first : List SeedAction := [.call, .acquire 0] ++ List.replicate 6 (.answer 0 ['r'])
  let second : List SeedAction := [.call, .acquire 1, .answer 1 [], .answer 1 []]
  let earlier : List SeedAction := first ++ SeedAction.fail 0 [] false :: second
  let actions : List SeedAction := earlier ++ SeedAction.answer 1 [] :: []
  have hexec : (exec (seedStep t {}) (.start emptyStores) actions).any
      (fun r => (r.1[8]?.any fun m => decide (m.act = .fail 0 [] false) &&
          decide (m.pre.call? 0 = some (.seeding (.hashPassword ['r'])))) &&
        r.1.getLast?.any fun m => decide (m.post.call? 1 = some .returned) &&
          decide (m.pre.call? 1 ≠ some .returned) && decide (m.post.credentials = [])) = true := by
    decide +kernel
  obtain ⟨⟨history, s⟩, hexec, hmoves⟩ := (Option.any_eq_true _ _).1 hexec
  obtain ⟨before, m, after, rfl, hbefore, -, hafter⟩ := split_of_exec hexec
  obtain rfl := List.map_eq_nil_iff.1 hafter
  have hlength : before.length = 13 := by
    rw [← List.length_map, hbefore]
    rfl
  obtain ⟨hfailed, hlast⟩ := Bool.and_eq_true_iff.1 hmoves
  rw [List.getElem?_append_left (by omega)] at hfailed
  obtain ⟨m', hm', hfailed⟩ := (Option.any_eq_true _ _).1 hfailed
  simp only [Bool.and_eq_true, decide_eq_true_eq] at hfailed
  simp only [List.getLast?_append, List.getLast?_singleton, Option.some_or, Option.any_some, Bool.and_eq_true,
    decide_eq_true_eq] at hlast
  obtain ⟨⟨hreturned, hnew⟩, hnone⟩ := hlast
  refine ⟨before, m, [], s, run_of_exec hexec, ⟨1, hreturned, hnew⟩, ⟨m', List.mem_of_getElem? hm', hfailed⟩, ?_⟩
  rintro ⟨-, user, -, -, -, hstored⟩
  rw [hnone] at hstored
  cases hstored

end CliServer
