import CliServer.Lib.Transition
import CliServer.Users.Namespace

/-!
# Password operations and their suspensions

Hashing or verifying a password runs in a thread pool, and auditing and publishing await event handlers: the operation
that does so is suspended, and other operations run meanwhile.  `accountStep` starts an operation, which runs up to its
first suspension, or resumes one that is suspended: a suspended operation is a task in the state.  What a task read
before it was suspended (the user, the credentials) it still uses afterwards.

The state also keeps what the results are about: the password changes in the order in which their credentials were
written, the operations that have returned, and with each session the credentials its login was verified against.
-/

namespace CliServer

/-- `password_hasher`, with the salts as numbers. -/
structure PasswordHasher (H : Type) where
  hash : Str → Nat → H
  verify : Str → H → Bool
  needsRehash : H → Bool
  verify_hash : ∀ password salt, verify password (hash password salt) = true
  hash_current : ∀ password salt, needsRehash (hash password salt) = false

/-- Credentials, and the number of the password change that wrote them: 0 when none did. -/
structure Credentials (H : Type) where
  hash : H
  change : Nat

/-- A session, with the credentials its login verified the password against. -/
structure LoginSession (H : Type) where
  id : Str
  userId : Str
  credentials : Credentials H

/-- A call of `change_password`: `keep` is the session that is not revoked, the caller's own on a self change, and
`updatesUser` tells whether `must_change_password` is written. -/
structure PasswordChange where
  userId : Str
  password : Str
  updatesUser : Bool
  keep : Option Str

/-- A change whose credentials are written, the `number`th. -/
structure WrittenChange extends PasswordChange where
  number : Nat

/-- What a right password is followed by. -/
inductive FollowUp where
  | login
  | check
  | change (call : PasswordChange)

/-- An operation that revokes a user's sessions. -/
inductive Revocation where
  | change (c : WrittenChange)
  | disable (userId : Str)
  | delete (userId : Str)

/-- A suspended operation. -/
inductive AccountTask (H : Type) where
  /-- The password is being verified against the credentials. -/
  | verifying (next : FollowUp) (user : User) (password : Str) (credentials : Credentials H)
  /-- The password is right, and hashed again since the stored hash is a legacy one. -/
  | rehashing (next : FollowUp) (user : User) (password : Str) (credentials : Credentials H)
  | verified (next : FollowUp) (user : User) (credentials : Credentials H)
  /-- `create_user` hashes the new user's password. -/
  | hashingFirst (userId password : Str)
  /-- `change_password` hashes the new password. -/
  | hashing (call : PasswordChange)
  /-- The operation is audited, before it lists the sessions to revoke. -/
  | auditing (op : Revocation)
  /-- The sessions left to revoke. -/
  | revoking (op : Revocation) (rest : List Str)
  /-- The body is read and the request authenticated, and no token is created yet. -/
  | creatingToken (ctx : AuthContext) (req : CreateTokenRequest)

/-- The stores and the suspended operations; `known` are the ids drawn so far, `written` the password changes, newest
first, and `listed` those that have listed the sessions to revoke; `dropped` are the users whose record is deleted.
`changed`, `barred` and `deleted` tell which operations have returned: the changes, the disablings (of users that were
not enabled again) and the deletions. -/
structure AccountState (H : Type) where
  stores : Stores
  credentials : List (Str × Credentials H)
  sessions : List (LoginSession H)
  tasks : List (AccountTask H)
  known : List Str
  written : List WrittenChange
  listed : List WrittenChange
  changed : List WrittenChange
  barred : List Str
  dropped : List Str
  deleted : List Str

/-- The user whose sessions an operation revokes. -/
def Revocation.userId : Revocation → Str
  | .change c => c.userId
  | .disable userId => userId
  | .delete userId => userId

/-- `except_session_id`. -/
def Revocation.keep : Revocation → Option Str
  | .change c => c.keep
  | _ => none

private theorem Stores.nodup_dropUser (s : Stores) (id : Str) : ((s.users.filter (·.id ≠ id)).map User.id).Nodup :=
  (s.removeUser id).users_nodup

/-- `InMemoryUserStore.delete_user`. -/
def Stores.dropUser (s : Stores) (id : Str) : Stores where
  users := s.users.filter (·.id ≠ id)
  groups := s.groups
  tokens := s.tokens
  users_nodup := s.nodup_dropUser id

/-- `delete_user_tokens`. -/
def Stores.dropTokens (s : Stores) (userId : Str) : Stores :=
  { s with tokens := s.tokens.filter (·.userId ≠ userId) }

/-- The number of a user's last change, 0 when there is none. -/
def lastChange (written : List WrittenChange) (userId : Str) : Nat :=
  ((written.find? (·.userId = userId)).map WrittenChange.number).getD 0

variable {H : Type}

namespace AccountState

/-- A server with these stores, at rest. -/
def start (stores : Stores) (credentials : List (Str × H)) : AccountState H where
  stores := stores
  credentials := credentials.map fun e => (e.1, ⟨e.2, 0⟩)
  sessions := []
  tasks := []
  known := stores.users.map User.id
  written := []
  listed := []
  changed := []
  barred := []
  dropped := []
  deleted := []

def spawn (s : AccountState H) (task : AccountTask H) : AccountState H := { s with tasks := s.tasks ++ [task] }

/-- `credential_store.get_credentials`. -/
def getCredentials (s : AccountState H) (userId : Str) : Option (Credentials H) :=
  (s.credentials.find? (·.1 = userId)).map Prod.snd

/-- `credential_store.set_password`. -/
def setPassword (s : AccountState H) (userId : Str) (credentials : Credentials H) : AccountState H :=
  { s with credentials := s.credentials.filter (·.1 ≠ userId) ++ [(userId, credentials)] }

/-- `session_store.create_session`. -/
def createSession (s : AccountState H) (session : LoginSession H) : AccountState H :=
  { s with sessions := s.sessions ++ [session], known := session.id :: s.known }

/-- `delete_session_by_id`. -/
def deleteSession (s : AccountState H) (id : Str) : AccountState H :=
  { s with sessions := s.sessions.eraseP (·.id = id) }

/-- The sessions `revoke_user_sessions` finds. -/
def toRevoke (s : AccountState H) (op : Revocation) : List Str :=
  (s.sessions.filter fun session => session.userId = op.userId ∧ op.keep ≠ some session.id).map LoginSession.id

/-- `verify_password`, up to the verification: without credentials or with a password too long it is refused. -/
def verifyPassword (s : AccountState H) (next : FollowUp) (user : User) (password : Str) : AccountState H :=
  match s.getCredentials user.id with
  | none => s
  | some credentials => if 1024 < password.length then s else s.spawn (.verifying next user password credentials)

/-- `change_password`, up to the hash. -/
def changePassword (opts : AuthServiceOptions) (s : AccountState H) (call : PasswordChange) : AccountState H :=
  match validatePassword opts (some call.password) with
  | .error _ => s
  | .ok () => s.spawn (.hashing call)

/-- The write of `change_password`, whose credentials are the last ones now. -/
def writeChange (s : AccountState H) (c : WrittenChange) (hash : H) : AccountState H :=
  { s.setPassword c.userId ⟨hash, c.number⟩ with written := c :: s.written }

/-- An operation lists the sessions to revoke. -/
def listSessions (s : AccountState H) (op : Revocation) : AccountState H :=
  match op with
  | .change c => { s with listed := c :: s.listed }.spawn (.revoking op (s.toRevoke op))
  | _ => s.spawn (.revoking op (s.toRevoke op))

/-- An `update_user` that disables a user has returned. -/
def bar (s : AccountState H) (userId : Str) : AccountState H :=
  if s.stores.users.any fun u => u.id = userId && !u.disabled then s else { s with barred := userId :: s.barred }

end AccountState

variable (hasher : PasswordHasher H) (t : CaseTable) (opts : AuthServiceOptions)

/-- A task goes on, up to its next suspension or its end; `salt` and `newId` are what it draws. -/
def resumeTask (s : AccountState H) (salt : Nat) (newId : Str) (now : Nat) : AccountTask H → Option (AccountState H)
  | .verifying next user password credentials =>
    if hasher.verify password credentials.hash then
      if hasher.needsRehash credentials.hash then some (s.spawn (.rehashing next user password credentials))
      else some (s.spawn (.verified next user credentials))
    else some s
  | .rehashing next user password credentials =>
    some ((s.setPassword user.id ⟨hasher.hash password salt, credentials.change⟩).spawn
      (.verified next user credentials))
  | .verified .check _ _ => some s
  | .verified (.change call) _ _ => some (s.changePassword opts call)
  | .verified .login user credentials =>
    -- `user` was read before the verification; `update_user` raises when it is gone by now.
    if user.disabled ∨ user.id ∉ s.stores.users.map User.id then some s
    else if newId ∈ s.known then none
    else some (s.createSession ⟨newId, user.id, credentials⟩)
  | .hashingFirst userId password => some (s.setPassword userId ⟨hasher.hash password salt, 0⟩)
  | .hashing call =>
    let c : WrittenChange := { call with number := s.written.length + 1 }
    let s := s.writeChange c (hasher.hash call.password salt)
    if call.updatesUser ∧ call.userId ∉ s.stores.users.map User.id then some s
    else some (s.spawn (.auditing (.change c)))
  | .auditing op => some (s.listSessions op)
  | .revoking op (id :: rest) => some ((s.deleteSession id).spawn (.revoking op rest))
  | .revoking (.change c) [] => some { s with changed := c :: s.changed }
  | .revoking (.disable userId) [] => some (s.bar userId)
  | .revoking (.delete userId) [] =>
    some { s with stores := s.stores.dropTokens userId, deleted := userId :: s.deleted }
  | .creatingToken ctx req =>
    if newId ∈ s.known then none
    else match createToken t opts s.stores ctx newId now req with
      | .error _ => some s
      | .ok stores => some { s with stores := stores, known := newId :: s.known }

/-- A request to change a password; `pending` is the caller's `must_change_password`, `mustChange` the target's. -/
structure ChangeRequest where
  password : Str
  currentPassword : Option Str
  sessionId : Option Str
  pending : Bool
  mustChange : Bool

/-- The operations as they start, and what resumes one that is suspended. -/
inductive AccountAction where
  | createUser (caller : Option AuthContext) (newId : Str) (req : CreateUserRequest)
  | login (username password : Str)
  | verifyPassword (idOrName password : Str)
  | changePassword (ctx : AuthContext) (idOrName : Str) (req : ChangeRequest)
  | updateUser (caller : Option AuthContext) (idOrName : Str) (req : UpdateUserRequest)
  | deleteUser (caller : Option AuthContext) (idOrName : Str)
  | createToken (ctx : AuthContext) (req : CreateTokenRequest)
  /-- A logout, a revocation or the expiry of a session. -/
  | closeSession (id : Str)
  | resume (i salt : Nat) (newId : Str) (now : Nat)

/-- The call of `change_password` a request makes. -/
def ChangeRequest.call (ctx : AuthContext) (target : User) (req : ChangeRequest) : PasswordChange where
  userId := target.id
  password := req.password
  updatesUser := !ctx.isSelf target || req.mustChange
  keep := if ctx.isSelf target then req.sessionId else none

/-- The endpoint of `change_password`: on a self change it may ask for the current password first. -/
def requestChange (s : AccountState H) (ctx : AuthContext) (target : User) (req : ChangeRequest) : AccountState H :=
  if ctx.isSelf target ∧ (¬ ctx.can t "users:update".toList ∨ req.pending) then
    match req.currentPassword with
    | none => s
    | some current => if current = [] then s else s.verifyPassword (.change (req.call ctx target)) target current
  else match ensureCoversUser t s.stores target ctx with
    | .error _ => s
    | .ok () => s.changePassword opts (req.call ctx target)

/-- What `update_user` does after its write. -/
def afterUpdate (s : AccountState H) (target : User) (disabled : Option Bool) : AccountState H :=
  match disabled with
  | none => s
  | some false => { s with barred := s.barred.filter (· ≠ target.id) }
  | some true =>
    if target.disabled then s.spawn (.revoking (.disable target.id) [])
    else s.spawn (.auditing (.disable target.id))

/-- One operation starts or goes on; a refused one leaves the state as it is. -/
def accountStep (s : AccountState H) : AccountAction → Option (AccountState H)
  | .createUser caller newId req =>
    if newId ∈ s.known then none
    else match createUser t opts s.stores caller newId req with
      | .error _ => some s
      | .ok stores =>
        let s := { s with stores := stores, known := newId :: s.known }
        match req.password with
        | none => some s
        | some password => some (s.spawn (.hashingFirst newId password))
  | .login username password =>
    match s.stores.findUser t username with
    | none => some s
    | some user => some (s.verifyPassword .login user password)
  | .verifyPassword idOrName password =>
    match s.stores.getUser t idOrName with
    | none => some s
    | some target => some (s.verifyPassword .check target password)
  | .changePassword ctx idOrName req =>
    match s.stores.getUser t idOrName with
    | none => some s
    | some target => some (requestChange t opts s ctx target req)
  | .updateUser caller idOrName req =>
    match s.stores.getUser t idOrName with
    | none => some s
    | some target =>
      match updateUser t s.stores caller target req with
      | .error _ => some s
      | .ok stores => some (afterUpdate { s with stores := stores } target req.disabled)
  | .deleteUser caller idOrName =>
    match s.stores.getUser t idOrName with
    | none => some s
    | some target =>
      match deleteUser t s.stores caller target with
      | .error _ => some s
      | .ok _ =>
        let s := { s with
          stores := s.stores.dropUser target.id
          credentials := s.credentials.filter (·.1 ≠ target.id)
          dropped := target.id :: s.dropped }
        some (s.listSessions (.delete target.id))
  | .createToken ctx req =>
    if ctx.user.id ∈ s.stores.users.map User.id then some (s.spawn (.creatingToken ctx req)) else some s
  | .closeSession id => some (s.deleteSession id)
  | .resume i salt newId now =>
    (s.tasks[i]?).bind fun task =>
      resumeTask hasher t opts { s with tasks := s.tasks.eraseIdx i } salt newId now task

/-- The two writes of `delete_user` are those of the operation as a whole. -/
theorem dropUser_dropTokens (s : Stores) (id : Str) : (s.dropUser id).dropTokens id = s.removeUser id := rfl

/-! ### Ids -/

def FollowUp.about : FollowUp → List Str
  | .change call => [call.userId]
  | _ => []

/-- The users a task is about. -/
def AccountTask.about : AccountTask H → List Str
  | .verifying next user _ _ => user.id :: next.about
  | .rehashing next user _ _ => user.id :: next.about
  | .verified next user _ => user.id :: next.about
  | .hashingFirst userId _ => [userId]
  | .hashing call => [call.userId]
  | .auditing op => [op.userId]
  | .revoking op _ => [op.userId]
  | .creatingToken ctx _ => [ctx.user.id]

/-- All ids have been drawn, and no two sessions have the same. -/
structure IdsDrawn (s : AccountState H) : Prop where
  users : ∀ user ∈ s.stores.users, user.id ∈ s.known
  tasks : ∀ task ∈ s.tasks, ∀ id ∈ task.about, id ∈ s.known
  written : ∀ c ∈ s.written, c.userId ∈ s.known
  sessions : ∀ session ∈ s.sessions, session.id ∈ s.known
  sessions_nodup : (s.sessions.map LoginSession.id).Nodup
  barred : ∀ id ∈ s.barred, id ∈ s.known
  dropped : ∀ id ∈ s.dropped, id ∈ s.known

variable {hasher t opts} {s s' : AccountState H} {task : AccountTask H}

@[simp] theorem mem_spawn {other : AccountTask H} : other ∈ (s.spawn task).tasks ↔ other ∈ s.tasks ∨ other = task := by
  simp [AccountState.spawn]

theorem mem_setPassword {userId : Str} {credentials : Credentials H} {e : Str × Credentials H} :
    e ∈ (s.setPassword userId credentials).credentials ↔
      (e ∈ s.credentials ∧ e.1 ≠ userId) ∨ e = (userId, credentials) := by
  simp [AccountState.setPassword, List.mem_filter]

private theorem mem_of_getCredentials {userId : Str} {credentials : Credentials H}
    (h : s.getCredentials userId = some credentials) : (userId, credentials) ∈ s.credentials := by
  obtain ⟨e, he, rfl⟩ := Option.map_eq_some_iff.1 h
  have hid : e.1 = userId := by simpa using List.find?_some he
  rw [← hid]
  exact List.mem_of_find?_eq_some he

/-- A verification that starts has read the stored credentials. -/
theorem verifyPassword_cases (s : AccountState H) (next : FollowUp) (user : User) (password : Str) :
    s.verifyPassword next user password = s ∨ ∃ credentials, (user.id, credentials) ∈ s.credentials ∧
      s.verifyPassword next user password = s.spawn (.verifying next user password credentials) := by
  unfold AccountState.verifyPassword
  split
  · exact .inl rfl
  · rename_i credentials hfound
    split
    · exact .inl rfl
    · exact .inr ⟨credentials, mem_of_getCredentials hfound, rfl⟩

variable (opts) in
theorem changePassword_cases (s : AccountState H) (call : PasswordChange) :
    s.changePassword opts call = s ∨ s.changePassword opts call = s.spawn (.hashing call) := by
  unfold AccountState.changePassword
  split
  · exact .inl rfl
  · exact .inr rfl

variable (t opts) in
/-- A request to change a password does nothing yet, or starts a verification or the hash. -/
theorem requestChange_cases (s : AccountState H) (ctx : AuthContext) (target : User) (req : ChangeRequest) :
    requestChange t opts s ctx target req = s ∨ ∃ call : PasswordChange, call.userId = target.id ∧
      (requestChange t opts s ctx target req = s.spawn (.hashing call) ∨
        ∃ password credentials, (target.id, credentials) ∈ s.credentials ∧
          requestChange t opts s ctx target req =
            s.spawn (.verifying (.change call) target password credentials)) := by
  unfold requestChange
  split
  · split
    · exact .inl rfl
    · split
      · exact .inl rfl
      · rename_i current _ _
        rcases verifyPassword_cases s (.change (req.call ctx target)) target current with h | ⟨credentials, hmem, h⟩
        · exact .inl h
        · exact .inr ⟨_, rfl, .inr ⟨current, credentials, hmem, h⟩⟩
  · split
    · exact .inl rfl
    · rcases changePassword_cases opts s (req.call ctx target) with h | h
      · exact .inl h
      · exact .inr ⟨_, rfl, .inl h⟩

theorem mem_of_findUser {w : Str} {user : User} {s : Stores} (h : s.findUser t w = some user) : user ∈ s.users := by
  unfold Stores.findUser at h
  split at h
  · rename_i found hfound
    obtain rfl := Option.some.inj h
    exact s.mem_of_getUser hfound
  · split at h
    · exact List.mem_of_find?_eq_some h
    · cases h

namespace IdsDrawn

theorem start (stores : Stores) (credentials : List (Str × H)) : IdsDrawn (AccountState.start stores credentials) where
  users := fun user huser => List.mem_map_of_mem huser
  tasks := by simp [AccountState.start]
  written := by simp [AccountState.start]
  sessions := by simp [AccountState.start]
  sessions_nodup := List.nodup_nil
  barred := by simp [AccountState.start]
  dropped := by simp [AccountState.start]

theorem drop (hs : IdsDrawn s) (i : Nat) : IdsDrawn { s with tasks := s.tasks.eraseIdx i } :=
  { hs with tasks := fun task htask => hs.tasks task (List.mem_of_mem_eraseIdx htask) }

theorem spawn (hs : IdsDrawn s) (h : ∀ id ∈ task.about, id ∈ s.known) : IdsDrawn (s.spawn task) :=
  { hs with
    tasks := by
      intro other hother
      rcases mem_spawn.1 hother with hother | rfl
      · exact hs.tasks other hother
      · exact h }

theorem setPassword (hs : IdsDrawn s) (userId : Str) (credentials : Credentials H) :
    IdsDrawn (s.setPassword userId credentials) := { hs with }

theorem deleteSession (hs : IdsDrawn s) (id : Str) : IdsDrawn (s.deleteSession id) :=
  { hs with
    sessions := fun session hsession => hs.sessions session (List.mem_of_mem_eraseP hsession)
    sessions_nodup := hs.sessions_nodup.sublist (List.eraseP_sublist.map _) }

/-- New ids may be drawn, and the users change as long as theirs are drawn. -/
theorem setStores (hs : IdsDrawn s) (stores : Stores) (known : List Str) (hknown : ∀ id ∈ s.known, id ∈ known)
    (husers : ∀ user ∈ stores.users, user.id ∈ known) : IdsDrawn { s with stores := stores, known := known } where
  users := husers
  tasks := fun task htask id hid => hknown _ (hs.tasks task htask id hid)
  written := fun c hc => hknown _ (hs.written c hc)
  sessions := fun session hsession => hknown _ (hs.sessions session hsession)
  sessions_nodup := hs.sessions_nodup
  barred := fun id hid => hknown _ (hs.barred id hid)
  dropped := fun id hid => hknown _ (hs.dropped id hid)

theorem createSession (hs : IdsDrawn s) {session : LoginSession H} (hnew : session.id ∉ s.known) :
    IdsDrawn (s.createSession session) := by
  have hknown : IdsDrawn { s with stores := s.stores, known := session.id :: s.known } :=
    hs.setStores _ _ (fun _ => List.mem_cons_of_mem _) fun user huser => List.mem_cons_of_mem _ (hs.users user huser)
  refine { hknown with sessions := ?_, sessions_nodup := ?_ }
  · intro other hother
    rcases List.mem_append.1 hother with hother | hother
    · exact hknown.sessions other hother
    · rw [List.mem_singleton.1 hother]
      exact List.mem_cons_self
  · simp only [AccountState.createSession, List.map_append, List.map_cons, List.map_nil]
    refine List.nodup_append.2 ⟨hs.sessions_nodup, List.nodup_singleton _, ?_⟩
    rintro id hid _ hnewId rfl
    obtain ⟨other, hother, rfl⟩ := List.mem_map.1 hid
    exact hnew (List.mem_singleton.1 hnewId ▸ hs.sessions other hother)

theorem listSessions (hs : IdsDrawn s) {op : Revocation} (hop : ∀ id ∈ [op.userId], id ∈ s.known) :
    IdsDrawn (s.listSessions op) := by
  cases op with
  | change c => exact IdsDrawn.spawn { hs with } hop
  | disable userId => exact hs.spawn hop
  | delete userId => exact hs.spawn hop

/-- A deleted session is gone. -/
theorem ne_of_mem_deleteSession (hs : IdsDrawn s) {id : Str} {session : LoginSession H}
    (h : session ∈ (s.deleteSession id).sessions) : session.id ≠ id := by
  have hgone : ∀ sessions : List (LoginSession H), (sessions.map LoginSession.id).Nodup →
      session ∈ sessions.eraseP (·.id = id) → session.id ≠ id := by
    intro sessions hnodup hmem
    induction sessions with
    | nil => cases hmem
    | cons first rest ih =>
      obtain ⟨hfirst, hrest⟩ := List.nodup_cons.1 hnodup
      by_cases hid : first.id = id
      · rw [List.eraseP_cons_of_pos (by simpa using hid)] at hmem
        rintro rfl
        exact hfirst (hid ▸ List.mem_map_of_mem hmem)
      · rw [List.eraseP_cons_of_neg (by simpa using hid)] at hmem
        rcases List.mem_cons.1 hmem with rfl | hmem
        · exact hid
        · exact ih hrest hmem
  exact hgone s.sessions hs.sessions_nodup h

theorem verifyPassword (hs : IdsDrawn s) {next : FollowUp} {user : User} {password : Str} (huser : user.id ∈ s.known)
    (hnext : ∀ id ∈ next.about, id ∈ s.known) : IdsDrawn (s.verifyPassword next user password) := by
  rcases verifyPassword_cases s next user password with h | ⟨credentials, -, h⟩
  · rw [h]; exact hs
  · rw [h]; exact hs.spawn (List.forall_mem_cons.2 ⟨huser, hnext⟩)

theorem resumeTask (hs : IdsDrawn s) (htask : ∀ id ∈ task.about, id ∈ s.known) {salt now : Nat} {newId : Str}
    (h : resumeTask hasher t opts s salt newId now task = some s') : IdsDrawn s' := by
  cases task with
  | verifying next user password credentials =>
    simp only [CliServer.resumeTask] at h
    split at h
    · split at h
      · obtain rfl := Option.some.inj h; exact hs.spawn htask
      · obtain rfl := Option.some.inj h; exact hs.spawn htask
    · obtain rfl := Option.some.inj h; exact hs
  | rehashing next user password credentials =>
    obtain rfl := Option.some.inj h
    exact (hs.setPassword _ _).spawn htask
  | verified next user credentials =>
    cases next with
    | check => obtain rfl := Option.some.inj h; exact hs
    | change call =>
      obtain rfl := Option.some.inj h
      rcases changePassword_cases opts s call with h | h
      · rw [h]; exact hs
      · rw [h]; exact hs.spawn fun id hid => htask id (List.mem_cons_of_mem _ hid)
    | login =>
      simp only [CliServer.resumeTask] at h
      split at h
      · obtain rfl := Option.some.inj h; exact hs
      · split at h
        · cases h
        · rename_i hnew
          obtain rfl := Option.some.inj h
          exact hs.createSession hnew
  | hashingFirst userId password => obtain rfl := Option.some.inj h; exact hs.setPassword _ _
  | hashing call =>
    have hwritten : ∀ number hash, IdsDrawn (s.writeChange { call with number := number } hash) := fun number hash =>
      { hs with written := List.forall_mem_cons.2 ⟨htask _ List.mem_cons_self, hs.written⟩ }
    simp only [CliServer.resumeTask] at h
    split at h
    · obtain rfl := Option.some.inj h; exact hwritten _ _
    · obtain rfl := Option.some.inj h; exact (hwritten _ _).spawn htask
  | auditing op => obtain rfl := Option.some.inj h; exact hs.listSessions htask
  | revoking op rest =>
    cases rest with
    | cons id rest => obtain rfl := Option.some.inj h; exact (hs.deleteSession id).spawn htask
    | nil =>
      cases op with
      | change c => obtain rfl := Option.some.inj h; exact { hs with }
      | disable userId =>
        obtain rfl := Option.some.inj h
        unfold AccountState.bar
        split
        · exact hs
        · exact { hs with barred := List.forall_mem_cons.2 ⟨htask _ List.mem_cons_self, hs.barred⟩ }
      | delete userId => obtain rfl := Option.some.inj h; exact { hs with }
  | creatingToken ctx req =>
    simp only [CliServer.resumeTask] at h
    split at h
    · cases h
    · split at h
      · obtain rfl := Option.some.inj h; exact hs
      · rename_i stores hcreated
        obtain rfl := Option.some.inj h
        obtain ⟨-, token, rfl, -⟩ := createToken_ok hcreated
        exact hs.setStores _ _ (fun id => List.mem_cons_of_mem _) fun user huser =>
          List.mem_cons_of_mem _ (hs.users user huser)

theorem step (hs : IdsDrawn s) {a : AccountAction} (h : accountStep hasher t opts s a = some s') : IdsDrawn s' := by
  cases a with
  | createUser caller newId req =>
    simp only [accountStep] at h
    split at h
    · cases h
    · split at h
      · obtain rfl := Option.some.inj h; exact hs
      · rename_i stores hcreated
        obtain ⟨user, hid, rfl, rfl, -⟩ := createUser_ok hcreated
        have hadded := hs.setStores (s.stores.addUser user hid) (user.id :: s.known)
          (fun id => List.mem_cons_of_mem _) (by
            intro other hother
            rcases List.mem_append.1 hother with hother | hother
            · exact List.mem_cons_of_mem _ (hs.users other hother)
            · rw [List.mem_singleton.1 hother]
              exact List.mem_cons_self)
        split at h
        · obtain rfl := Option.some.inj h; exact hadded
        · obtain rfl := Option.some.inj h
          exact hadded.spawn (by simp [AccountTask.about])
  | login username password =>
    simp only [accountStep] at h
    split at h
    · obtain rfl := Option.some.inj h; exact hs
    · rename_i user hfound
      obtain rfl := Option.some.inj h
      exact hs.verifyPassword (hs.users user (mem_of_findUser hfound)) (by simp [FollowUp.about])
  | verifyPassword idOrName password =>
    simp only [accountStep] at h
    split at h
    · obtain rfl := Option.some.inj h; exact hs
    · rename_i user hfound
      obtain rfl := Option.some.inj h
      exact hs.verifyPassword (hs.users user (s.stores.mem_of_getUser hfound)) (by simp [FollowUp.about])
  | changePassword ctx idOrName req =>
    simp only [accountStep] at h
    split at h
    · obtain rfl := Option.some.inj h; exact hs
    · rename_i target hfound
      obtain rfl := Option.some.inj h
      have htarget := hs.users target (s.stores.mem_of_getUser hfound)
      rcases requestChange_cases t opts s ctx target req with
        h | ⟨call, hcall, h | ⟨password, credentials, -, h⟩⟩
      · rw [h]; exact hs
      · rw [h]; exact hs.spawn (by simpa [AccountTask.about, hcall] using htarget)
      · rw [h]; exact hs.spawn (by simpa [AccountTask.about, FollowUp.about, hcall] using htarget)
  | updateUser caller idOrName req =>
    simp only [accountStep] at h
    split at h
    · obtain rfl := Option.some.inj h; exact hs
    · rename_i target hfound
      split at h
      · obtain rfl := Option.some.inj h; exact hs
      · rename_i stores hupdated
        obtain rfl := Option.some.inj h
        obtain ⟨c, rfl, -⟩ := updateUser_ok hupdated
        have hset : IdsDrawn { s with stores := s.stores.updateUser target.id c } :=
          hs.setStores _ _ (fun _ => id) (by
            intro user huser
            obtain ⟨old, hold, rfl⟩ := List.mem_map.1 huser
            split <;> exact hs.users old hold)
        have htarget : ∀ id ∈ [target.id], id ∈ s.known := by
          simpa using hs.users target (s.stores.mem_of_getUser hfound)
        unfold afterUpdate
        split
        · exact hset
        · exact { hset with barred := fun id hid => hset.barred id (List.mem_of_mem_filter hid) }
        · split
          · exact hset.spawn htarget
          · exact hset.spawn htarget
  | deleteUser caller idOrName =>
    simp only [accountStep] at h
    split at h
    · obtain rfl := Option.some.inj h; exact hs
    · rename_i target hfound
      split at h
      · obtain rfl := Option.some.inj h; exact hs
      · obtain rfl := Option.some.inj h
        have hset : IdsDrawn { s with stores := s.stores.dropUser target.id } :=
          hs.setStores _ _ (fun _ => id) fun user huser => hs.users user (List.mem_of_mem_filter huser)
        have htarget := hs.users target (s.stores.mem_of_getUser hfound)
        have hset : IdsDrawn { s with
            stores := s.stores.dropUser target.id
            credentials := s.credentials.filter (·.1 ≠ target.id)
            dropped := target.id :: s.dropped } :=
          { hset with dropped := List.forall_mem_cons.2 ⟨htarget, hs.dropped⟩ }
        exact hset.listSessions (by simpa [Revocation.userId] using htarget)
  | createToken ctx req =>
    simp only [accountStep] at h
    split at h
    · rename_i hmem
      obtain rfl := Option.some.inj h
      obtain ⟨user, huser, hid⟩ := List.mem_map.1 hmem
      exact hs.spawn (by simpa [AccountTask.about, ← hid] using hs.users user huser)
    · obtain rfl := Option.some.inj h; exact hs
  | closeSession id => obtain rfl := Option.some.inj h; exact hs.deleteSession id
  | resume i salt newId now =>
    obtain ⟨task, htask, h⟩ := Option.bind_eq_some_iff.1 h
    exact (hs.drop i).resumeTask (hs.tasks task (List.mem_of_getElem? htask)) h

end IdsDrawn

end CliServer
