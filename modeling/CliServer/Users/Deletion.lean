import CliServer.Users.PasswordChanges

/-!
# What a deletion leaves behind

`delete_user` deletes the user's record and credentials at once, its sessions one after the other and its tokens last.
No login opens a session for a user without a record; but an operation that was hashing a password of the user writes
the credentials afterwards, and a request that was authenticated before creates its token.  `user_deletion_final` is
about the runs in which neither is pending (`NothingLate`).
-/

namespace CliServer

open Transition

variable {H : Type}

/-- The users whose credentials a task is going to write. -/
def AccountTask.writes (hasher : PasswordHasher H) : AccountTask H → List Str
  | .verifying next user password credentials =>
    if hasher.verify password credentials.hash then
      if hasher.needsRehash credentials.hash then user.id :: next.about else next.about
    else []
  | .rehashing next user _ _ => user.id :: next.about
  | .verified next _ _ => next.about
  | .hashingFirst userId _ => [userId]
  | .hashing call => [call.userId]
  | _ => []

variable (hasher : PasswordHasher H) (t : CaseTable) (opts : AuthServiceOptions)

/-- When a user is deleted, no task is going to write its credentials, and when its tokens are deleted, no token is
about to be created for it. -/
def NothingLate (s : AccountState H) : AccountAction → Prop
  | .deleteUser caller idOrName => ∀ target stores, s.stores.getUser t idOrName = some target →
    deleteUser t s.stores caller target = .ok stores → ∀ task ∈ s.tasks, target.id ∉ task.writes hasher
  | .resume i _ _ _ => ∀ task ∈ s.tasks[i]?, ∀ userId, task = .revoking (.delete userId) [] →
    ∀ ctx req, .creatingToken ctx req ∈ s.tasks → ctx.user.id ≠ userId
  | _ => True

/-- What holds of a suspended operation. -/
structure TaskErased (s : AccountState H) (task : AccountTask H) : Prop where
  writes : ∀ userId ∈ task.writes hasher, userId ∉ s.dropped
  revoking : ∀ userId rest, task = .revoking (.delete userId) rest → userId ∈ s.dropped ∧
    ∀ session ∈ s.sessions, session.userId = userId → session.id ∈ rest
  creatingToken : ∀ ctx req, task = .creatingToken ctx req → ctx.user.id ∉ s.deleted
  auditing : ∀ userId, task ≠ .auditing (.delete userId)

/-- Nothing of a deleted user is left. -/
structure Erased (s : AccountState H) : Prop where
  users : ∀ user ∈ s.stores.users, user.id ∉ s.dropped
  credentials : ∀ e ∈ s.credentials, e.1 ∉ s.dropped
  tasks : ∀ task ∈ s.tasks, TaskErased hasher s task
  sessions : ∀ session ∈ s.sessions, session.userId ∉ s.deleted
  tokens : ∀ token ∈ s.stores.tokens, token.userId ∉ s.deleted
  deleted : ∀ userId ∈ s.deleted, userId ∈ s.dropped

variable {hasher t opts} {s s' : AccountState H} {task : AccountTask H}

namespace Erased

/-! ### The writes -/

theorem drop (hs : Erased hasher s) (i : Nat) : Erased hasher { s with tasks := s.tasks.eraseIdx i } :=
  { hs with tasks := fun task htask => { hs.tasks task (List.mem_of_mem_eraseIdx htask) with } }

theorem spawn (hs : Erased hasher s) (htask : TaskErased hasher s task) : Erased hasher (s.spawn task) :=
  { hs with
    tasks := by
      intro other hother
      rcases mem_spawn.1 hother with hother | rfl
      · exact { hs.tasks other hother with }
      · exact { htask with } }

/-- A task that writes credentials of users that are not deleted, and no more. -/
private theorem spawn_writing (hs : Erased hasher s) (hwrites : ∀ userId ∈ task.writes hasher, userId ∉ s.dropped)
    (hrevoking : ∀ userId rest, task ≠ .revoking (.delete userId) rest)
    (htoken : ∀ ctx req, task ≠ .creatingToken ctx req) (hauditing : ∀ userId, task ≠ .auditing (.delete userId)) :
    Erased hasher (s.spawn task) :=
  hs.spawn ⟨hwrites, fun userId rest h => absurd h (hrevoking userId rest), fun ctx req h => absurd h (htoken ctx req),
    hauditing⟩

theorem setPassword (hs : Erased hasher s) {userId : Str} (hid : userId ∉ s.dropped) (credentials : Credentials H) :
    Erased hasher (s.setPassword userId credentials) :=
  { hs with
    credentials := by
      intro e he
      rcases mem_setPassword.1 he with ⟨he, -⟩ | rfl
      · exact hs.credentials e he
      · exact hid
    tasks := fun task htask => { hs.tasks task htask with } }

theorem deleteSession (hs : Erased hasher s) (id : Str) : Erased hasher (s.deleteSession id) :=
  { hs with
    tasks := fun task htask => { hs.tasks task htask with
      revoking := fun userId rest h => by
        obtain ⟨hdropped, hsessions⟩ := (hs.tasks task htask).revoking userId rest h
        exact ⟨hdropped, fun session hsession => hsessions session (List.mem_of_mem_eraseP hsession)⟩ }
    sessions := fun session hsession => hs.sessions session (List.mem_of_mem_eraseP hsession) }

/-- A session of a user that is there. -/
theorem createSession (hs : Erased hasher s) {session : LoginSession H} (huser : session.userId ∉ s.dropped) :
    Erased hasher (s.createSession session) :=
  { hs with
    tasks := fun task htask => { hs.tasks task htask with
      revoking := fun userId rest h => by
        obtain ⟨hdropped, hsessions⟩ := (hs.tasks task htask).revoking userId rest h
        refine ⟨hdropped, fun other hother hid => ?_⟩
        rcases List.mem_append.1 hother with hother | hother
        · exact hsessions other hother hid
        · rw [List.mem_singleton.1 hother] at hid
          exact absurd hdropped (hid ▸ huser) }
    sessions := by
      intro other hother
      rcases List.mem_append.1 hother with hother | hother
      · exact hs.sessions other hother
      · rw [List.mem_singleton.1 hother]
        exact fun hdeleted => huser (hs.deleted _ hdeleted) }

/-- Ids are drawn, and users and tokens change; none is of a deleted user. -/
theorem setStores (hs : Erased hasher s) (stores : Stores) (known : List Str)
    (husers : ∀ user ∈ stores.users, user.id ∉ s.dropped)
    (htokens : ∀ token ∈ stores.tokens, token.userId ∉ s.deleted) :
    Erased hasher { s with stores := stores, known := known } :=
  { hs with
    users := husers
    tokens := htokens
    tasks := fun task htask => { hs.tasks task htask with } }

/-- A user's record is deleted, with its credentials, when no task is going to write them. -/
theorem dropUser (hs : Erased hasher s) {id : Str} (hnone : ∀ task ∈ s.tasks, id ∉ task.writes hasher) :
    Erased hasher { s with
      stores := s.stores.dropUser id
      credentials := s.credentials.filter (·.1 ≠ id)
      dropped := id :: s.dropped } where
  users := by
    intro user huser hdropped
    obtain ⟨hmem, hne⟩ := List.mem_filter.1 huser
    rcases List.mem_cons.1 hdropped with hid | hdropped
    · exact absurd hid (by simpa using hne)
    · exact hs.users user hmem hdropped
  credentials := by
    intro e he hdropped
    obtain ⟨hmem, hne⟩ := List.mem_filter.1 he
    rcases List.mem_cons.1 hdropped with hid | hdropped
    · exact absurd hid (by simpa using hne)
    · exact hs.credentials e hmem hdropped
  tasks := fun task htask => { hs.tasks task htask with
    writes := fun userId hwrites hdropped => by
      rcases List.mem_cons.1 hdropped with rfl | hdropped
      · exact hnone task htask hwrites
      · exact (hs.tasks task htask).writes userId hwrites hdropped
    revoking := fun userId rest h => by
      obtain ⟨hdropped, hsessions⟩ := (hs.tasks task htask).revoking userId rest h
      exact ⟨List.mem_cons_of_mem _ hdropped, hsessions⟩ }
  sessions := hs.sessions
  tokens := hs.tokens
  deleted := fun userId hdeleted => List.mem_cons_of_mem _ (hs.deleted userId hdeleted)

/-- The deleted user's sessions are listed. -/
theorem listSessions (hs : Erased hasher s) {id : Str} (hdropped : id ∈ s.dropped) :
    Erased hasher (s.listSessions (.delete id)) := by
  refine hs.spawn ⟨fun _ h => (by cases h), ?_, fun _ _ h => (by cases h), fun _ h => (by cases h)⟩
  intro userId rest h
  obtain ⟨hop, rfl⟩ := AccountTask.revoking.inj h
  obtain rfl := Revocation.delete.inj hop
  refine ⟨hdropped, fun session hsession hid => List.mem_map.2 ⟨session, List.mem_filter.2 ⟨hsession, ?_⟩, rfl⟩⟩
  simp [Revocation.userId, Revocation.keep, hid]

/-- One of the sessions left is revoked. -/
theorem revokeNext (hs : Erased hasher s) (hids : IdsDrawn s) {op : Revocation} {id : Str} {rest : List Str}
    (htask : TaskErased hasher s (.revoking op (id :: rest))) :
    Erased hasher ((s.deleteSession id).spawn (.revoking op rest)) := by
  refine (hs.deleteSession id).spawn ⟨fun _ h => (by cases h), ?_, fun _ _ h => (by cases h), fun _ h => (by cases h)⟩
  intro userId rest' h
  obtain ⟨rfl, rfl⟩ := AccountTask.revoking.inj h
  obtain ⟨hdropped, hsessions⟩ := htask.revoking userId _ rfl
  refine ⟨hdropped, fun session hsession hid => ?_⟩
  rcases List.mem_cons.1 (hsessions session (List.mem_of_mem_eraseP hsession) hid) with rfl | hrest
  · exact absurd rfl (hids.ne_of_mem_deleteSession hsession)
  · exact hrest

/-- All sessions are revoked, and the tokens are deleted while none is about to be created. -/
theorem dropTokens (hs : Erased hasher s) {id : Str} (htask : TaskErased hasher s (.revoking (.delete id) []))
    (hnone : ∀ ctx req, .creatingToken ctx req ∈ s.tasks → ctx.user.id ≠ id) :
    Erased hasher { s with stores := s.stores.dropTokens id, deleted := id :: s.deleted } := by
  obtain ⟨hdropped, hsessions⟩ := htask.revoking id [] rfl
  exact { hs with
    tasks := fun task htask => { hs.tasks task htask with
      creatingToken := fun ctx req h hdeleted => by
        rcases List.mem_cons.1 hdeleted with hid | hdeleted
        · exact hnone ctx req (h ▸ htask) hid
        · exact (hs.tasks task htask).creatingToken ctx req h hdeleted }
    sessions := fun session hsession hdeleted => by
      rcases List.mem_cons.1 hdeleted with hid | hdeleted
      · exact List.not_mem_nil (hsessions session hsession hid)
      · exact hs.sessions session hsession hdeleted
    tokens := fun token htoken hdeleted => by
      obtain ⟨hmem, hne⟩ := List.mem_filter.1 htoken
      rcases List.mem_cons.1 hdeleted with hid | hdeleted
      · exact absurd hid (by simpa using hne)
      · exact hs.tokens token hmem hdeleted
    deleted := List.forall_mem_cons.2 ⟨hdropped, hs.deleted⟩ }

/-! ### A step -/

theorem start (stores : Stores) (credentials : List (Str × H)) :
    Erased hasher (AccountState.start stores credentials) := by
  constructor <;> simp [AccountState.start]

theorem verifyPassword (hs : Erased hasher s) {next : FollowUp} {user : User} {password : Str}
    (huser : user ∈ s.stores.users) (hnext : ∀ id ∈ next.about, id = user.id) :
    Erased hasher (s.verifyPassword next user password) := by
  rcases verifyPassword_cases s next user password with h | ⟨credentials, -, h⟩
  · rw [h]; exact hs
  · rw [h]
    refine hs.spawn_writing (fun userId hmem => ?_) (fun _ _ h => (by cases h)) (fun _ _ h => (by cases h))
      (fun _ h => (by cases h))
    have hsame : userId = user.id := by
      simp only [AccountTask.writes] at hmem
      split at hmem
      · split at hmem
        · exact (List.mem_cons.1 hmem).elim id (hnext userId)
        · exact hnext userId hmem
      · cases hmem
    rw [hsame]
    exact hs.users user huser

theorem hashing (hs : Erased hasher s) {call : PasswordChange} (huser : call.userId ∉ s.dropped) :
    Erased hasher (s.spawn (.hashing call)) := by
  refine hs.spawn_writing (fun userId hmem => ?_) (fun _ _ h => (by cases h)) (fun _ _ h => (by cases h))
    (fun _ h => (by cases h))
  rw [List.mem_singleton.1 hmem]
  exact huser

theorem requestChange (hs : Erased hasher s) {ctx : AuthContext} {target : User} {req : ChangeRequest}
    (htarget : target ∈ s.stores.users) : Erased hasher (requestChange t opts s ctx target req) := by
  unfold CliServer.requestChange
  split
  · split
    · exact hs
    · split
      · exact hs
      · exact hs.verifyPassword htarget fun id hid => List.mem_singleton.1 hid
  · split
    · exact hs
    · rcases changePassword_cases opts s (req.call ctx target) with h | h
      · rw [h]; exact hs
      · rw [h]; exact hs.hashing (hs.users target htarget)

theorem resumeTask (hs : Erased hasher s) (hids : IdsDrawn s) (htask : TaskErased hasher s task)
    (hguard : ∀ userId, task = .revoking (.delete userId) [] → ∀ ctx req, .creatingToken ctx req ∈ s.tasks →
      ctx.user.id ≠ userId)
    {salt now : Nat} {newId : Str} (h : resumeTask hasher t opts s salt newId now task = some s') :
      Erased hasher s' := by
  cases task with
  | verifying next user password credentials =>
    simp only [CliServer.resumeTask] at h
    have hwrites := htask.writes
    simp only [AccountTask.writes] at hwrites
    split at h
    · rename_i hright
      rw [if_pos hright] at hwrites
      split at h
      · rename_i hlegacy
        obtain rfl := Option.some.inj h
        rw [if_pos hlegacy] at hwrites
        exact hs.spawn_writing hwrites (fun _ _ h => (by cases h)) (fun _ _ h => (by cases h)) (fun _ h => (by cases h))
      · rename_i hcurrent
        obtain rfl := Option.some.inj h
        rw [if_neg hcurrent] at hwrites
        exact hs.spawn_writing hwrites (fun _ _ h => (by cases h)) (fun _ _ h => (by cases h)) (fun _ h => (by cases h))
    · obtain rfl := Option.some.inj h; exact hs
  | rehashing next user password credentials =>
    obtain rfl := Option.some.inj h
    refine (hs.setPassword (htask.writes user.id List.mem_cons_self) _).spawn_writing (fun userId hmem => ?_)
      (fun _ _ h => (by cases h)) (fun _ _ h => (by cases h)) (fun _ h => (by cases h))
    exact htask.writes userId (List.mem_cons_of_mem _ hmem)
  | verified next user credentials =>
    cases next with
    | check => obtain rfl := Option.some.inj h; exact hs
    | change call =>
      obtain rfl := Option.some.inj h
      rcases changePassword_cases opts s call with h | h
      · rw [h]; exact hs
      · rw [h]; exact hs.hashing (htask.writes call.userId List.mem_cons_self)
    | login =>
      simp only [CliServer.resumeTask] at h
      split at h
      · obtain rfl := Option.some.inj h; exact hs
      · rename_i hthere
        split at h
        · cases h
        · obtain rfl := Option.some.inj h
          obtain ⟨other, hother, hid⟩ := List.mem_map.1 (by_contra fun h => hthere (.inr h))
          exact hs.createSession (hid ▸ hs.users other hother)
  | hashingFirst userId password =>
    obtain rfl := Option.some.inj h
    exact hs.setPassword (htask.writes userId List.mem_cons_self) _
  | hashing call =>
    have hset := hs.setPassword (htask.writes call.userId List.mem_cons_self)
      ⟨hasher.hash call.password salt, s.written.length + 1⟩
    have hwritten : Erased hasher
        (s.writeChange { call with number := s.written.length + 1 } (hasher.hash call.password salt)) :=
      { hset with tasks := fun task htask => { hset.tasks task htask with } }
    simp only [CliServer.resumeTask] at h
    split at h
    · obtain rfl := Option.some.inj h; exact hwritten
    · obtain rfl := Option.some.inj h
      exact hwritten.spawn_writing (fun _ h => (by cases h)) (fun _ _ h => (by cases h)) (fun _ _ h => (by cases h))
        (fun _ h => (by cases h))
  | auditing op =>
    obtain rfl := Option.some.inj h
    cases op with
    | change c =>
      have hlisted : Erased hasher { s with listed := c :: s.listed } :=
        { hs with tasks := fun task htask => { hs.tasks task htask with } }
      exact hlisted.spawn_writing (fun _ h => (by cases h)) (fun _ _ h => (by cases h)) (fun _ _ h => (by cases h))
        (fun _ h => (by cases h))
    | disable userId =>
      exact hs.spawn_writing (fun _ h => (by cases h)) (fun _ _ h => (by cases h)) (fun _ _ h => (by cases h))
        (fun _ h => (by cases h))
    | delete userId => exact absurd rfl (htask.auditing userId)
  | revoking op rest =>
    cases rest with
    | cons id rest =>
      obtain rfl := Option.some.inj h
      exact hs.revokeNext hids htask
    | nil =>
      cases op with
      | change c =>
        obtain rfl := Option.some.inj h
        exact { hs with tasks := fun task htask => { hs.tasks task htask with } }
      | disable userId =>
        obtain rfl := Option.some.inj h
        unfold AccountState.bar
        split
        · exact hs
        · exact { hs with tasks := fun task htask => { hs.tasks task htask with } }
      | delete userId =>
        obtain rfl := Option.some.inj h
        exact hs.dropTokens htask (hguard userId rfl)
  | creatingToken ctx req =>
    simp only [CliServer.resumeTask] at h
    split at h
    · cases h
    · split at h
      · obtain rfl := Option.some.inj h; exact hs
      · rename_i stores hcreated
        obtain rfl := Option.some.inj h
        obtain ⟨-, token, rfl, -, hid, -⟩ := createToken_ok hcreated
        refine hs.setStores _ _ hs.users fun other hother => ?_
        rcases List.mem_append.1 hother with hother | hother
        · exact hs.tokens other hother
        · rw [List.mem_singleton.1 hother, hid]
          exact htask.creatingToken ctx req rfl

theorem step (hs : Erased hasher s) (hids : IdsDrawn s) {a : AccountAction} (hguard : NothingLate hasher t s a)
    (h : accountStep hasher t opts s a = some s') : Erased hasher s' := by
  cases a with
  | createUser caller newId req =>
    simp only [accountStep] at h
    split at h
    · cases h
    · rename_i hnew
      split at h
      · obtain rfl := Option.some.inj h; exact hs
      · rename_i stores hcreated
        obtain ⟨user, hid, rfl, rfl, -⟩ := createUser_ok hcreated
        have hfresh : user.id ∉ s.dropped := fun hdropped => hnew (hids.dropped user.id hdropped)
        have hadded : Erased hasher { s with stores := s.stores.addUser user hid, known := user.id :: s.known } := by
          refine hs.setStores _ _ (fun other hother => ?_) hs.tokens
          rcases List.mem_append.1 hother with hother | hother
          · exact hs.users other hother
          · rw [List.mem_singleton.1 hother]
            exact hfresh
        split at h
        · obtain rfl := Option.some.inj h; exact hadded
        · obtain rfl := Option.some.inj h
          refine hadded.spawn_writing (fun userId hmem => ?_) (fun _ _ h => (by cases h)) (fun _ _ h => (by cases h))
            (fun _ h => (by cases h))
          rw [List.mem_singleton.1 hmem]
          exact hfresh
  | login username password =>
    simp only [accountStep] at h
    split at h
    · obtain rfl := Option.some.inj h; exact hs
    · rename_i user hfound
      obtain rfl := Option.some.inj h
      exact hs.verifyPassword (mem_of_findUser hfound) fun _ h => (by cases h)
  | verifyPassword idOrName password =>
    simp only [accountStep] at h
    split at h
    · obtain rfl := Option.some.inj h; exact hs
    · rename_i user hfound
      obtain rfl := Option.some.inj h
      exact hs.verifyPassword (s.stores.mem_of_getUser hfound) fun _ h => (by cases h)
  | changePassword ctx idOrName req =>
    simp only [accountStep] at h
    split at h
    · obtain rfl := Option.some.inj h; exact hs
    · rename_i target hfound
      obtain rfl := Option.some.inj h
      exact hs.requestChange (s.stores.mem_of_getUser hfound)
  | updateUser caller idOrName req =>
    simp only [accountStep] at h
    split at h
    · obtain rfl := Option.some.inj h; exact hs
    · split at h
      · obtain rfl := Option.some.inj h; exact hs
      · rename_i target _ _ stores hupdated
        obtain rfl := Option.some.inj h
        obtain ⟨c, rfl, -⟩ := updateUser_ok hupdated
        have hset : Erased hasher { s with stores := s.stores.updateUser target.id c } := by
          refine hs.setStores _ s.known (fun user huser => ?_) hs.tokens
          obtain ⟨old, hold, rfl⟩ := List.mem_map.1 huser
          split <;> exact hs.users old hold
        unfold afterUpdate
        split
        · exact hset
        · exact { hset with tasks := fun task htask => { hset.tasks task htask with } }
        · split
          · exact hset.spawn_writing (fun _ h => (by cases h)) (fun _ _ h => (by cases h)) (fun _ _ h => (by cases h))
              (fun _ h => (by cases h))
          · exact hset.spawn_writing (fun _ h => (by cases h)) (fun _ _ h => (by cases h)) (fun _ _ h => (by cases h))
              (fun _ h => (by cases h))
  | deleteUser caller idOrName =>
    simp only [accountStep] at h
    split at h
    · obtain rfl := Option.some.inj h; exact hs
    · rename_i target hfound
      split at h
      · obtain rfl := Option.some.inj h; exact hs
      · rename_i stores hallowed
        obtain rfl := Option.some.inj h
        exact (hs.dropUser (hguard target stores hfound hallowed)).listSessions List.mem_cons_self
  | createToken ctx req =>
    simp only [accountStep] at h
    split at h
    · rename_i hthere
      obtain rfl := Option.some.inj h
      refine hs.spawn ⟨fun _ h => (by cases h), fun _ _ h => (by cases h), ?_, fun _ h => (by cases h)⟩
      intro ctx' req' h hdeleted
      obtain ⟨rfl, rfl⟩ := AccountTask.creatingToken.inj h
      obtain ⟨user, huser, hid⟩ := List.mem_map.1 hthere
      exact hs.users user huser (hid ▸ hs.deleted _ hdeleted)
    · obtain rfl := Option.some.inj h; exact hs
  | closeSession id => obtain rfl := Option.some.inj h; exact hs.deleteSession id
  | resume i salt newId now =>
    obtain ⟨task, htask, h⟩ := Option.bind_eq_some_iff.1 h
    refine (hs.drop i).resumeTask (hids.drop i) { hs.tasks task (List.mem_of_getElem? htask) with } ?_ h
    exact fun userId heq ctx req hmem => hguard task htask userId heq ctx req (List.mem_of_mem_eraseIdx hmem)

end Erased

/-- In a run in which no task is going to write a user's credentials when it is deleted, and no token is about to be
created for it when its tokens are deleted, nothing is left of the user once the deletion has returned. -/
theorem user_deletion_final {stores : Stores} {credentials : List (Str × H)}
    {history : List (Move (AccountState H) AccountAction)}
    (h : GuardedRun (accountStep hasher t opts) (NothingLate hasher t) (AccountState.start stores credentials) history s) :
    ∀ userId ∈ s.deleted, (∀ e ∈ s.credentials, e.1 ≠ userId) ∧ (∀ session ∈ s.sessions, session.userId ≠ userId) ∧
      ∀ token ∈ s.stores.tokens, token.userId ≠ userId := by
  have hs : IdsDrawn s ∧ Erased hasher s := by
    refine h.invariant (I := fun s => IdsDrawn s ∧
      Erased hasher s) ⟨.start stores credentials, .start stores credentials⟩ ?_
    exact fun s a s' hs hg hst => ⟨hs.1.step hst, hs.2.step hs.1 hg hst⟩
  intro userId hdeleted
  refine ⟨?_, ?_, ?_⟩
  · rintro e he rfl
    exact hs.2.credentials e he (hs.2.deleted _ hdeleted)
  · rintro session hsession rfl
    exact hs.2.sessions session hsession hdeleted
  · rintro token htoken rfl
    exact hs.2.tokens token htoken hdeleted

/-- Tasks that write no credentials do not make a deletion late, and those that create no token, or one task alone, not
its end. -/
private theorem nothingLate_of_calm {s : AccountState H} {a : AccountAction}
    (hdelete : (∃ caller idOrName, a = .deleteUser caller idOrName) → ∀ task ∈ s.tasks, task.writes hasher = [])
    (htokens : s.tasks.length ≤ 1 ∨ ∀ ctx req, .creatingToken ctx req ∉ s.tasks) : NothingLate hasher t s a := by
  cases a with
  | deleteUser caller idOrName =>
    intro target stores _ _ task htask
    rw [hdelete ⟨caller, idOrName, rfl⟩ task htask]
    exact List.not_mem_nil
  | resume i salt newId now =>
    rintro task htask userId rfl ctx req hmem
    rcases htokens with hone | hnone
    · obtain ⟨only, htasks⟩ : ∃ only, s.tasks = [only] := by
        refine List.length_eq_one_iff.1 ?_
        have := List.length_pos_of_mem hmem
        omega
      have htask := List.mem_of_getElem? htask
      rw [htasks, List.mem_singleton] at htask hmem
      cases htask.trans hmem.symm
    · exact absurd hmem (hnone ctx req)
  | _ => trivial

/-- A new user `ann`. -/
def createAnn : AccountAction :=
  .createUser none ['a'] { name := "ann".toList, email := "ann@localhost".toList,
                            password := some "first password".toList }

def AccountAction.isDeleteUser : AccountAction → Bool
  | .deleteUser _ _ => true
  | _ => false

def AccountTask.createsToken : AccountTask H → Bool
  | .creatingToken _ _ => true
  | _ => false

/-- The user `ann` signs in, creates a token, and is deleted with both while it is signing in again. -/
theorem user_deletion_final_ann :
    let t : CaseTable := fun _ c _ => [c]
    ∃ history s, GuardedRun (accountStep plainHasher t {}) (NothingLate plainHasher t) rootAccount history s ∧
      (∃ m ∈ history, 1 < m.pre.tasks.length) ∧
      ∃ userId ∈ s.deleted, (∀ e ∈ s.credentials, e.1 ≠ userId) ∧ (∀ session ∈ s.sessions, session.userId ≠ userId) ∧
        ∀ token ∈ s.stores.tokens, token.userId ≠ userId := by
  intro t
  have hexec : (exec (accountStep plainHasher t {}) rootAccount
      [createAnn, .resume 0 5 [] 0, .login "ann".toList "first password".toList, .resume 0 0 [] 0, .resume 0 0 ['s'] 0,
        .createToken ⟨⟨['a'], "ann".toList, "ann@localhost".toList, [usersGroup], false, none⟩, [], true, false, none⟩
          { name := "ci".toList },
        .resume 0 0 ['k'] 0, .login "ann".toList "first password".toList, .deleteUser none "ann".toList,
        .resume 0 0 [] 0, .resume 1 0 ['x'] 0, .resume 0 0 [] 0, .resume 0 0 [] 0]).any (fun r =>
        r.1.all (fun m => (!m.act.isDeleteUser || m.pre.tasks.all fun task => (task.writes plainHasher).isEmpty) &&
          (m.pre.tasks.length ≤ 1 || m.pre.tasks.all (!·.createsToken))) &&
        ((r.1.any fun m => 1 < m.pre.tasks.length) && !r.2.deleted.isEmpty)) = true := by
    decide +kernel
  obtain ⟨⟨history, s⟩, hexec, hend⟩ := (Option.any_eq_true _ _).1 hexec
  obtain ⟨hcalm, hend⟩ := Bool.and_eq_true_iff.1 hend
  obtain ⟨hoverlap, hdeleted⟩ := Bool.and_eq_true_iff.1 hend
  obtain ⟨m, hm, hoverlap⟩ := List.any_eq_true.1 hoverlap
  have hrun : GuardedRun (accountStep plainHasher t {}) (NothingLate plainHasher t) rootAccount history s := by
    refine (run_of_exec hexec).restrict fun m hm => ?_
    obtain ⟨hwrites, htokens⟩ := Bool.and_eq_true_iff.1 (List.all_eq_true.1 hcalm m hm)
    refine nothingLate_of_calm ?_ ?_
    · rintro ⟨caller, idOrName, hact⟩ task htask
      rw [hact] at hwrites
      exact List.isEmpty_iff.1 (List.all_eq_true.1 hwrites task htask)
    · refine (Bool.or_eq_true_iff.1 htokens).imp of_decide_eq_true fun hnone ctx req hmem => ?_
      exact absurd (List.all_eq_true.1 hnone _ hmem) nofun
  obtain ⟨userId, hmem⟩ := List.exists_mem_of_ne_nil s.deleted (by simpa using hdeleted)
  exact ⟨history, s, hrun, ⟨m, hm, of_decide_eq_true hoverlap⟩, userId, hmem, user_deletion_final hrun userId hmem⟩

/-- The first password of a new user is hashed while the user is deleted; its credentials are stored afterwards. -/
theorem credentials_after_deletion :
    let t : CaseTable := fun _ c _ => [c]
    ∃ history s, Run (accountStep plainHasher t {}) rootAccount history s ∧
      ∃ userId ∈ s.deleted, ∃ e ∈ s.credentials, e.1 = userId := by
  intro t
  have hexec : (exec (accountStep plainHasher t {}) rootAccount
      [createAnn, .deleteUser none "ann".toList, .resume 1 0 [] 0, .resume 0 5 [] 0]).any (fun r =>
        r.2.deleted.any fun userId => r.2.credentials.any fun e => e.1 = userId) = true := by
    decide +kernel
  obtain ⟨⟨history, s⟩, hexec, hleft⟩ := (Option.any_eq_true _ _).1 hexec
  obtain ⟨userId, hdeleted, hleft⟩ := List.any_eq_true.1 hleft
  obtain ⟨e, he, hid⟩ := List.any_eq_true.1 hleft
  exact ⟨history, s, run_of_exec hexec, userId, hdeleted, e, he, of_decide_eq_true hid⟩

end CliServer
