import CliServer.Users.Passwords

/-!
# Password changes

A login reads the credentials, verifies the password off the event loop and opens a session afterwards; a legacy hash is
written again after a second suspension, and so is the first password of a new user.  Whatever was read before a
`change_password` can so be written after it: a login with the old password opens a session that the change never sees.
`password_change_final` is about the runs in which no such write is pending when it matters (`NothingOldPending`).
-/

namespace CliServer

open Transition

variable {H : Type}

namespace AccountTask

variable (hasher : PasswordHasher H)

/-- A verification that has succeeded or is about to: what follows it, the user and the credentials it has read. -/
def passing : AccountTask H → Option (FollowUp × User × Credentials H)
  | .verifying next user password credentials =>
    if hasher.verify password credentials.hash then some (next, user, credentials) else none
  | .rehashing next user _ credentials => some (next, user, credentials)
  | .verified next user credentials => some (next, user, credentials)
  | _ => none

/-- The user whose credentials the task is about to write though it is no password change. -/
def restores : AccountTask H → Option Str
  | .verifying _ user password credentials =>
    if hasher.verify password credentials.hash && hasher.needsRehash credentials.hash then some user.id else none
  | .rehashing _ user _ _ => some user.id
  | .hashingFirst userId _ => some userId
  | _ => none

/-- A login of the user that these credentials let in. -/
def Admits (task : AccountTask H) (userId : Str) (credentials : Credentials H) : Prop :=
  ∃ user, task.passing hasher = some (.login, user, credentials) ∧ user.id = userId ∧ user.disabled = false

end AccountTask

variable (hasher : PasswordHasher H) (t : CaseTable) (opts : AuthServiceOptions)

/-- When a change writes its credentials, nothing else is about to write credentials of that user; when it lists the
sessions, no login with older credentials is under way, and when it returns, no verification against older ones; when a
disablement returns, no login is under way that was started before it. -/
def NothingOldPending (s : AccountState H) : AccountAction → Prop
  | .resume i _ _ _ => ∀ task ∈ s.tasks[i]?, ∀ other ∈ s.tasks,
    (∀ call, task = .hashing call → other.restores hasher ≠ some call.userId) ∧
    (∀ c, task = .auditing (.change c) → ∀ credentials, other.Admits hasher c.userId credentials →
      c.number ≤ credentials.change) ∧
    (∀ c, task = .revoking (.change c) [] → ∀ next user credentials,
      other.passing hasher = some (next, user, credentials) → user.id = c.userId → c.number ≤ credentials.change) ∧
    (∀ userId, task = .revoking (.disable userId) [] → ∀ credentials, ¬ other.Admits hasher userId credentials)
  | _ => True

/-- What holds of a suspended operation. -/
structure TaskSettled (s : AccountState H) (task : AccountTask H) : Prop where
  passing : ∀ next user credentials, task.passing hasher = some (next, user, credentials) →
    credentials.change ≤ lastChange s.written user.id ∧
      ∀ c ∈ s.changed, c.userId = user.id → c.number ≤ credentials.change
  admits : ∀ userId credentials, task.Admits hasher userId credentials →
    userId ∉ s.barred ∧ ∀ c ∈ s.listed, c.userId = userId → c.number ≤ credentials.change
  restores : ∀ userId, task.restores hasher = some userId → ∀ c ∈ s.written, c.userId ≠ userId
  auditing : ∀ c, task = .auditing (.change c) → c ∈ s.written
  revoking : ∀ c rest, task = .revoking (.change c) rest → c ∈ s.listed ∧
    ∀ session ∈ s.sessions, session.userId = c.userId →
      c.number ≤ session.credentials.change ∨ c.keep = some session.id ∨ session.id ∈ rest

/-- Nothing older than a returned change is left. -/
structure PasswordsFinal (s : AccountState H) : Prop where
  numbers : ∀ c ∈ s.written, 0 < c.number ∧ c.number ≤ lastChange s.written c.userId ∧ c.number ≤ s.written.length
  stored : ∀ e ∈ s.credentials, e.2.change = lastChange s.written e.1 ∧ ∀ c ∈ s.written, c.userId = e.1 →
    c.number = e.2.change → ∃ salt, e.2.hash = hasher.hash c.password salt
  kept : ∀ user ∈ s.stores.users, lastChange s.written user.id ≠ 0 → ∃ e ∈ s.credentials, e.1 = user.id
  tasks : ∀ task ∈ s.tasks, TaskSettled hasher s task
  listed : ∀ c ∈ s.listed, c ∈ s.written
  changed : ∀ c ∈ s.changed, c ∈ s.listed ∧ ∀ session ∈ s.sessions, session.userId = c.userId →
    c.number ≤ session.credentials.change ∨ c.keep = some session.id
  barred : ∀ userId ∈ s.barred, ∀ user ∈ s.stores.users, user.id = userId → user.disabled = true

variable {hasher t opts} {s s' : AccountState H} {task : AccountTask H}

/-! ### The last change -/

private theorem lastChange_cons (c : WrittenChange) (written : List WrittenChange) (userId : Str) :
    lastChange (c :: written) userId = if c.userId = userId then c.number else lastChange written userId := by
  unfold lastChange
  by_cases h : c.userId = userId
  · rw [if_pos h, List.find?_cons_of_pos (by simpa using h)]
    rfl
  · rw [if_neg h, List.find?_cons_of_neg (by simpa using h)]

private theorem lastChange_le {written : List WrittenChange} {n : Nat} (h : ∀ c ∈ written, c.number ≤ n)
    (userId : Str) :
    lastChange written userId ≤ n := by
  unfold lastChange
  cases hfind : written.find? (·.userId = userId) with
  | none => exact Nat.zero_le n
  | some c => exact h c (List.mem_of_find?_eq_some hfind)

private theorem exists_of_lastChange {written : List WrittenChange} {userId : Str} (h : lastChange written userId ≠ 0) :
    ∃ c ∈ written, c.userId = userId ∧ c.number = lastChange written userId := by
  unfold lastChange at h ⊢
  cases hfind : written.find? (·.userId = userId) with
  | none =>
    rw [hfind] at h
    exact absurd rfl h
  | some c => exact ⟨c, List.mem_of_find?_eq_some hfind, by simpa using List.find?_some hfind, rfl⟩

private theorem lastChange_eq_zero {written : List WrittenChange} {userId : Str}
    (h : ∀ c ∈ written, c.userId ≠ userId) :
    lastChange written userId = 0 := by
  by_contra hne
  obtain ⟨c, hc, hid, -⟩ := exists_of_lastChange hne
  exact h c hc hid

/-! ### Tasks -/

namespace TaskSettled

/-- A verification goes on. -/
private theorem follow (h : TaskSettled hasher s task) (other : AccountTask H)
    (hpassing : other.passing hasher = task.passing hasher)
    (hrestores : ∀ userId, other.restores hasher = some userId → task.restores hasher = some userId)
    (hauditing : ∀ op, other ≠ .auditing op) (hrevoking : ∀ op rest, other ≠ .revoking op rest) :
    TaskSettled hasher s other where
  passing := fun next user credentials hp => h.passing next user credentials (hpassing ▸ hp)
  admits := by
    rintro userId credentials ⟨user, hp, hid, henabled⟩
    exact h.admits userId credentials ⟨user, hpassing ▸ hp, hid, henabled⟩
  restores := fun userId hr => h.restores userId (hrestores userId hr)
  auditing := fun c hc => absurd hc (hauditing _)
  revoking := fun c rest hc => absurd hc (hrevoking _ _)

/-- A task that neither verifies nor writes credentials or revokes sessions of a change. -/
theorem idle (hpassing : task.passing hasher = none) (hrestores : task.restores hasher = none)
    (hauditing : ∀ c, task ≠ .auditing (.change c)) (hrevoking : ∀ c rest, task ≠ .revoking (.change c) rest) :
    TaskSettled hasher s task where
  passing := fun _ _ _ hp => by rw [hpassing] at hp; cases hp
  admits := by
    rintro userId credentials ⟨user, hp, -⟩
    rw [hpassing] at hp
    cases hp
  restores := fun _ hr => by rw [hrestores] at hr; cases hr
  auditing := fun c hc => absurd hc (hauditing c)
  revoking := fun c rest hc => absurd hc (hrevoking c rest)

end TaskSettled

namespace PasswordsFinal

/-- A verification of a user that is there, against the stored credentials. -/
theorem verifying (hs : PasswordsFinal hasher s) {next : FollowUp} {user : User} {password : Str}
    {credentials : Credentials H}
    (huser : user ∈ s.stores.users) (hmem : (user.id, credentials) ∈ s.credentials) :
    TaskSettled hasher s (.verifying next user password credentials) := by
  have hchange : credentials.change = lastChange s.written user.id := (hs.stored _ hmem).1
  have hlast : ∀ c ∈ s.written, c.userId = user.id → c.number ≤ credentials.change := by
    intro c hc hid
    calc c.number ≤ lastChange s.written c.userId := (hs.numbers c hc).2.1
      _ = credentials.change := by rw [hid]; exact hchange.symm
  have hsame : ∀ next' user' credentials', AccountTask.passing hasher
      (.verifying next user password credentials) = some (next', user', credentials') →
        user' = user ∧ credentials' = credentials := by
    intro next' user' credentials' hp
    simp only [AccountTask.passing] at hp
    split at hp
    · obtain ⟨-, rfl, rfl⟩ := by simpa using hp
      exact ⟨rfl, rfl⟩
    · cases hp
  refine ⟨?_, ?_, ?_, fun _ hc => (by cases hc), fun _ _ hc => (by cases hc)⟩
  · intro next' user' credentials' hp
    obtain ⟨rfl, rfl⟩ := hsame _ _ _ hp
    exact ⟨hchange.le, fun c hc hid => hlast c (hs.listed c (hs.changed c hc).1) hid⟩
  · rintro userId credentials' ⟨user', hp, rfl, henabled⟩
    obtain ⟨rfl, rfl⟩ := hsame _ _ _ hp
    refine ⟨fun hbarred => ?_, fun c hc hid => hlast c (hs.listed c hc) hid⟩
    rw [hs.barred _ hbarred _ huser rfl] at henabled
    cases henabled
  · -- A legacy hash was written by no change.
    intro userId hr c hc hid
    simp only [AccountTask.restores] at hr
    split at hr
    · rename_i hlegacy
      obtain rfl := Option.some.inj hr
      have hpos : lastChange s.written user.id ≠ 0 := by
        have := (hs.numbers c hc).1
        have := hlast c hc hid
        omega
      obtain ⟨last, hmemLast, hidLast, hnumber⟩ := exists_of_lastChange hpos
      obtain ⟨salt, hsalt⟩ := (hs.stored _ hmem).2 last hmemLast hidLast (hnumber.trans hchange.symm)
      simp only at hsalt
      rw [hsalt, hasher.hash_current, Bool.and_false] at hlegacy
      cases hlegacy
    · cases hr

/-! ### The writes -/

theorem drop (hs : PasswordsFinal hasher s) (i : Nat) : PasswordsFinal hasher { s with tasks := s.tasks.eraseIdx i } :=
  { hs with tasks := fun task htask => { hs.tasks task (List.mem_of_mem_eraseIdx htask) with } }

theorem spawn (hs : PasswordsFinal hasher s) (htask : TaskSettled hasher s task) :
    PasswordsFinal hasher (s.spawn task) :=
  { hs with
    tasks := by
      intro other hother
      rcases mem_spawn.1 hother with hother | rfl
      · exact { hs.tasks other hother with }
      · exact { htask with } }

theorem deleteSession (hs : PasswordsFinal hasher s) (id : Str) : PasswordsFinal hasher (s.deleteSession id) :=
  { hs with
    tasks := fun task htask => { hs.tasks task htask with
      revoking := fun c rest hc => by
        obtain ⟨hlisted, hsessions⟩ := (hs.tasks task htask).revoking c rest hc
        exact ⟨hlisted, fun session hsession => hsessions session (List.mem_of_mem_eraseP hsession)⟩ }
    changed := fun c hc => by
      obtain ⟨hlisted, hsessions⟩ := hs.changed c hc
      exact ⟨hlisted, fun session hsession => hsessions session (List.mem_of_mem_eraseP hsession)⟩ }

/-- Credentials of a user whose password was never changed. -/
theorem setPassword (hs : PasswordsFinal hasher s) {userId : Str} (hash : H) {change : Nat}
    (hnone : ∀ c ∈ s.written, c.userId ≠ userId) (hchange : change ≤ lastChange s.written userId) :
    PasswordsFinal hasher (s.setPassword userId ⟨hash, change⟩) :=
  { hs with
    stored := by
      intro e he
      rcases mem_setPassword.1 he with ⟨he, -⟩ | rfl
      · exact hs.stored e he
      · refine ⟨?_, fun c hc hid _ => absurd hid (hnone c hc)⟩
        have hzero : lastChange s.written userId = 0 := lastChange_eq_zero hnone
        show change = lastChange s.written userId
        omega
    kept := by
      intro user huser hlast
      obtain ⟨e, he, hid⟩ := hs.kept user huser hlast
      by_cases heq : e.1 = userId
      · exact ⟨_, mem_setPassword.2 (.inr rfl), heq.symm.trans hid⟩
      · exact ⟨e, mem_setPassword.2 (.inl ⟨he, heq⟩), hid⟩
    tasks := fun task htask => { hs.tasks task htask with } }

/-- The credentials of a change, when nothing else is about to write credentials of the user. -/
theorem writeChange (hs : PasswordsFinal hasher s) {c : WrittenChange} (hnumber : c.number = s.written.length + 1)
    (salt : Nat) (hnone : ∀ task ∈ s.tasks, task.restores hasher ≠ some c.userId) :
    PasswordsFinal hasher (s.writeChange c (hasher.hash c.password salt)) := by
  have hbound : ∀ old ∈ s.written, old.number < c.number := by
    intro old hold
    have := (hs.numbers old hold).2.2
    omega
  have hlast : ∀ userId, lastChange s.written userId ≤ lastChange (c :: s.written) userId := by
    intro userId
    rw [lastChange_cons]
    split
    · exact lastChange_le (fun old hold => (hbound old hold).le) userId
    · exact le_rfl
  refine
    { numbers := ?_
      stored := ?_
      kept := ?_
      tasks := ?_
      listed := fun old hold => List.mem_cons_of_mem _ (hs.listed old hold)
      changed := hs.changed
      barred := hs.barred }
  · refine List.forall_mem_cons.2 ⟨?_, fun old hold => ?_⟩
    · have hself : lastChange (c :: s.written) c.userId = c.number := by rw [lastChange_cons, if_pos rfl]
      refine ⟨by omega, hself.ge, hnumber.le⟩
    · obtain ⟨hpos, hle, hlength⟩ := hs.numbers old hold
      exact ⟨hpos, hle.trans (hlast _), hlength.trans (Nat.le_succ _)⟩
  · intro e he
    show e.2.change = lastChange (c :: s.written) e.1 ∧ _
    rw [lastChange_cons]
    rcases mem_setPassword.1 he with ⟨he, hne⟩ | rfl
    · rw [if_neg (Ne.symm hne)]
      refine ⟨(hs.stored e he).1, List.forall_mem_cons.2 ⟨fun hid => absurd hid.symm hne, ?_⟩⟩
      exact (hs.stored e he).2
    · rw [if_pos rfl]
      refine ⟨rfl, List.forall_mem_cons.2 ⟨fun _ _ => ⟨salt, rfl⟩, fun old hold _ hsame => ?_⟩⟩
      exact absurd hsame (hbound old hold).ne
  · intro user huser hne
    by_cases hid : c.userId = user.id
    · exact ⟨_, mem_setPassword.2 (.inr rfl), hid⟩
    · have hchanged : lastChange s.written user.id ≠ 0 := by
        have hcons : lastChange (c :: s.written) user.id ≠ 0 := hne
        rwa [lastChange_cons, if_neg hid] at hcons
      obtain ⟨e, he, heq⟩ := hs.kept user huser hchanged
      exact ⟨e, mem_setPassword.2 (.inl ⟨he, fun h => hid (h.symm.trans heq)⟩), heq⟩
  · intro task htask
    have hold := hs.tasks task htask
    exact { hold with
      passing := fun next user credentials hp => by
        obtain ⟨hle, hchanged⟩ := hold.passing next user credentials hp
        exact ⟨hle.trans (hlast _), hchanged⟩
      restores := fun userId hr => List.forall_mem_cons.2
        ⟨fun hid => hnone task htask (hid ▸ hr), hold.restores userId hr⟩
      auditing := fun c hc => List.mem_cons_of_mem _ (hold.auditing c hc) }

/-- A change that lists the sessions to revoke while no login with older credentials is under way. -/
theorem listSessions (hs : PasswordsFinal hasher s) {c : WrittenChange} (hc : c ∈ s.written)
    (hnone : ∀ task ∈ s.tasks, ∀ credentials, task.Admits hasher c.userId credentials → c.number ≤ credentials.change) :
    PasswordsFinal hasher (s.listSessions (.change c)) := by
  have hlisted : PasswordsFinal hasher { s with listed := c :: s.listed } :=
    { hs with
      tasks := fun task htask => { hs.tasks task htask with
        admits := fun userId credentials hadmits => by
          obtain ⟨hbarred, hold⟩ := (hs.tasks task htask).admits userId credentials hadmits
          refine ⟨hbarred, List.forall_mem_cons.2 ⟨?_, hold⟩⟩
          rintro rfl
          exact hnone task htask credentials hadmits
        revoking := fun c rest hr => by
          obtain ⟨hmem, hsessions⟩ := (hs.tasks task htask).revoking c rest hr
          exact ⟨List.mem_cons_of_mem _ hmem, hsessions⟩ }
      listed := List.forall_mem_cons.2 ⟨hc, hs.listed⟩
      changed := fun c hc => by
        obtain ⟨hmem, hsessions⟩ := hs.changed c hc
        exact ⟨List.mem_cons_of_mem _ hmem, hsessions⟩ }
  refine hlisted.spawn ⟨fun _ _ _ hp => (by cases hp), ?_, fun _ hr => (by cases hr), fun _ ha => (by cases ha), ?_⟩
  · rintro _ _ ⟨_, hp, -⟩
    cases hp
  · intro c' rest hr
    obtain ⟨hop, rfl⟩ := AccountTask.revoking.inj hr
    obtain rfl := Revocation.change.inj hop
    refine ⟨List.mem_cons_self, fun session hsession hid => ?_⟩
    by_cases hkeep : c.keep = some session.id
    · exact .inr (.inl hkeep)
    · refine .inr (.inr (List.mem_map.2 ⟨session, List.mem_filter.2 ⟨hsession, ?_⟩, rfl⟩))
      simp [Revocation.userId, Revocation.keep, hid, hkeep]

/-- One session is revoked, of those left to a change. -/
theorem revokeNext (hs : PasswordsFinal hasher s) (hids : IdsDrawn s) {op : Revocation} {id : Str} {rest : List Str}
    (htask : TaskSettled hasher s (.revoking op (id :: rest))) :
    PasswordsFinal hasher ((s.deleteSession id).spawn (.revoking op rest)) := by
  refine (hs.deleteSession id).spawn ⟨fun _ _ _ hp => (by cases hp), ?_, fun _ hr => (by cases hr),
    fun _ ha => (by cases ha), ?_⟩
  · rintro _ _ ⟨_, hp, -⟩
    cases hp
  · intro c rest' hr
    obtain ⟨rfl, rfl⟩ := AccountTask.revoking.inj hr
    obtain ⟨hlisted, hsessions⟩ := htask.revoking c _ rfl
    refine ⟨hlisted, fun session hsession hid => ?_⟩
    rcases hsessions session (List.mem_of_mem_eraseP hsession) hid with h | h | h
    · exact .inl h
    · exact .inr (.inl h)
    · rcases List.mem_cons.1 h with rfl | h
      · exact absurd rfl (hids.ne_of_mem_deleteSession hsession)
      · exact .inr (.inr h)

/-- A change returns, with all sessions revoked, while no verification against older credentials is under way. -/
private theorem returnChange (hs : PasswordsFinal hasher s) {c : WrittenChange}
    (htask : TaskSettled hasher s (.revoking (.change c) []))
    (hnone : ∀ task ∈ s.tasks, ∀ next user credentials, task.passing hasher = some (next, user, credentials) →
      user.id = c.userId → c.number ≤ credentials.change) : PasswordsFinal hasher { s with changed :=
        c :: s.changed } := by
  obtain ⟨hlisted, hsessions⟩ := htask.revoking c [] rfl
  exact { hs with
    tasks := fun task htask => { hs.tasks task htask with
      passing := fun next user credentials hp => by
        obtain ⟨hle, hold⟩ := (hs.tasks task htask).passing next user credentials hp
        exact ⟨hle, List.forall_mem_cons.2 ⟨fun hid => hnone task htask next user credentials hp hid.symm, hold⟩⟩ }
    changed := List.forall_mem_cons.2 ⟨⟨hlisted, fun session hsession hid => by
      simpa using hsessions session hsession hid⟩, hs.changed⟩ }

/-- A disablement returns while no login of the user is under way that will be let in. -/
theorem bar (hs : PasswordsFinal hasher s) {userId : Str}
    (hnone : ∀ task ∈ s.tasks, ∀ credentials, ¬ task.Admits hasher userId credentials) :
    PasswordsFinal hasher (s.bar userId) := by
  unfold AccountState.bar
  split
  · exact hs
  · rename_i hdisabled
    exact { hs with
      tasks := fun task htask => { hs.tasks task htask with
        admits := fun userId' credentials hadmits => by
          obtain ⟨hbarred, hlisted⟩ := (hs.tasks task htask).admits userId' credentials hadmits
          refine ⟨fun hmem => ?_, hlisted⟩
          rcases List.mem_cons.1 hmem with rfl | hmem
          · exact hnone task htask credentials hadmits
          · exact hbarred hmem }
      barred := List.forall_mem_cons.2 ⟨fun user huser hid => by
        simp only [List.any_eq_true, Bool.and_eq_true, Bool.not_eq_true', decide_eq_true_eq, not_exists, not_and,
          Bool.not_eq_false] at hdisabled
        exact hdisabled user huser hid, hs.barred⟩ }

/-- A session of a login that is let in. -/
theorem createSession (hs : PasswordsFinal hasher s) {session : LoginSession H}
    (hnew : ∀ c ∈ s.listed, c.userId = session.userId → c.number ≤ session.credentials.change) :
    PasswordsFinal hasher (s.createSession session) := by
  have hold : ∀ c ∈ s.listed, ∀ P : LoginSession H → Prop,
      (∀ other ∈ s.sessions, other.userId = c.userId → c.number ≤ other.credentials.change ∨ P other) →
      ∀ other ∈ (s.createSession session).sessions, other.userId = c.userId →
        c.number ≤ other.credentials.change ∨ P other := by
    intro c hc P h other hother hid
    rcases List.mem_append.1 hother with hother | hother
    · exact h other hother hid
    · obtain rfl := List.mem_singleton.1 hother
      exact .inl (hnew c hc hid.symm)
  exact { hs with
    tasks := fun task htask => { hs.tasks task htask with
      revoking := fun c rest hc => by
        obtain ⟨hlisted, hsessions⟩ := (hs.tasks task htask).revoking c rest hc
        exact ⟨hlisted, hold c hlisted _ hsessions⟩ }
    changed := fun c hc => by
      obtain ⟨hlisted, hsessions⟩ := hs.changed c hc
      exact ⟨hlisted, hold c hlisted _ hsessions⟩ }

/-- Ids are drawn, and the users change: none is added, and none that is barred is enabled. -/
theorem setStores (hs : PasswordsFinal hasher s) (stores : Stores) (known : List Str)
    (husers : ∀ user ∈ stores.users, ∃ old ∈ s.stores.users, old.id = user.id ∧
      (user.id ∈ s.barred → old.disabled = true → user.disabled = true)) :
    PasswordsFinal hasher { s with stores := stores, known := known } :=
  { hs with
    kept := fun user huser hlast => by
      obtain ⟨old, hold, hid, -⟩ := husers user huser
      rw [← hid] at hlast ⊢
      exact hs.kept old hold hlast
    tasks := fun task htask => { hs.tasks task htask with }
    barred := by
      rintro _ hbarred user huser rfl
      obtain ⟨old, hold, hid, hdisabled⟩ := husers user huser
      exact hdisabled hbarred (hs.barred _ hbarred old hold hid) }

/-- A user with a new id is added. -/
theorem addUser (hs : PasswordsFinal hasher s) (hids : IdsDrawn s) {user : User}
    (hid : user.id ∉ s.stores.users.map User.id) (hnew : user.id ∉ s.known) :
    PasswordsFinal hasher { s with stores := s.stores.addUser user hid, known := user.id :: s.known } := by
  refine { hs with
    kept := fun other hother hlast => ?_
    tasks := fun task htask => { hs.tasks task htask with }
    barred := fun userId hbarred other hother hsame => ?_ }
  · rcases List.mem_append.1 hother with hother | hother
    · exact hs.kept other hother hlast
    · obtain rfl := List.mem_singleton.1 hother
      have hnone : ∀ c ∈ s.written, c.userId ≠ other.id := by
        intro c hc h
        exact hnew (h ▸ hids.written c hc)
      exact absurd (lastChange_eq_zero hnone) hlast
  · rcases List.mem_append.1 hother with hother | hother
    · exact hs.barred userId hbarred other hother hsame
    · obtain rfl := List.mem_singleton.1 hother
      exact absurd (hids.barred userId hbarred) (hsame ▸ hnew)

/-- A user is deleted with its credentials. -/
theorem dropUser (hs : PasswordsFinal hasher s) (id : Str) :
    PasswordsFinal hasher { s with
      stores := s.stores.dropUser id
      credentials := s.credentials.filter (·.1 ≠ id)
      dropped := id :: s.dropped } := by
  refine { hs with
    stored := fun e he => hs.stored e (List.mem_of_mem_filter he)
    kept := fun user huser hlast => ?_
    tasks := fun task htask => { hs.tasks task htask with }
    barred := fun userId hbarred user huser => hs.barred userId hbarred user (List.mem_of_mem_filter huser) }
  obtain ⟨hmem, hne⟩ := List.mem_filter.1 huser
  obtain ⟨e, he, heq⟩ := hs.kept user hmem hlast
  refine ⟨e, List.mem_filter.2 ⟨he, ?_⟩, heq⟩
  rw [heq]
  exact hne

/-- A user that is enabled again is not barred any more. -/
private theorem unbar (hs : PasswordsFinal hasher s)
    (id : Str) : PasswordsFinal hasher { s with barred := s.barred.filter (· ≠ id) } :=
  { hs with
    tasks := fun task htask => { hs.tasks task htask with
      admits := fun userId credentials hadmits => by
        obtain ⟨hbarred, hlisted⟩ := (hs.tasks task htask).admits userId credentials hadmits
        exact ⟨fun h => hbarred (List.mem_of_mem_filter h), hlisted⟩ }
    barred := fun userId hbarred => hs.barred userId (List.mem_of_mem_filter hbarred) }

/-! ### A step -/

theorem start (stores : Stores) (credentials : List (Str × H)) :
    PasswordsFinal hasher (AccountState.start stores credentials) where
  numbers := by simp [AccountState.start]
  stored := by
    intro e he
    obtain ⟨old, -, rfl⟩ := List.mem_map.1 he
    exact ⟨rfl, by simp [AccountState.start]⟩
  kept := by simp [AccountState.start, lastChange]
  tasks := by simp [AccountState.start]
  listed := by simp [AccountState.start]
  changed := by simp [AccountState.start]
  barred := by simp [AccountState.start]

theorem verifyPassword (hs : PasswordsFinal hasher s) {next : FollowUp} {user : User} {password : Str}
    (huser : user ∈ s.stores.users) : PasswordsFinal hasher (s.verifyPassword next user password) := by
  rcases verifyPassword_cases s next user password with h | ⟨credentials, hmem, h⟩
  · rw [h]; exact hs
  · rw [h]; exact hs.spawn (hs.verifying huser hmem)

theorem hashing (hs : PasswordsFinal hasher s) (call : PasswordChange) :
    PasswordsFinal hasher (s.spawn (.hashing call)) :=
  hs.spawn (.idle rfl rfl (fun _ h => (by cases h)) (fun _ _ h => (by cases h)))

theorem resumeTask (hs : PasswordsFinal hasher s) (hids : IdsDrawn s) (htask : TaskSettled hasher s task)
    (hguard : ∀ other ∈ s.tasks,
      (∀ call, task = .hashing call → other.restores hasher ≠ some call.userId) ∧
      (∀ c, task = .auditing (.change c) → ∀ credentials, other.Admits hasher c.userId credentials →
        c.number ≤ credentials.change) ∧
      (∀ c, task = .revoking (.change c) [] → ∀ next user credentials,
        other.passing hasher = some (next, user, credentials) → user.id = c.userId → c.number ≤ credentials.change) ∧
      (∀ userId, task = .revoking (.disable userId) [] → ∀ credentials, ¬ other.Admits hasher userId credentials))
    {salt now : Nat} {newId : Str} (h : resumeTask hasher t opts s salt newId now task = some s') :
    PasswordsFinal hasher s' := by
  cases task with
  | verifying next user password credentials =>
    simp only [CliServer.resumeTask] at h
    split at h
    · rename_i hright
      have hpassing : AccountTask.passing hasher (.verifying next user password credentials) =
          some (next, user, credentials) := if_pos hright
      split at h
      · rename_i hlegacy
        obtain rfl := Option.some.inj h
        refine hs.spawn (htask.follow _ hpassing.symm (fun userId hr => ?_) (fun _ h => (by cases h)) fun _ _ h => (by cases h))
        obtain rfl := Option.some.inj hr
        simp [AccountTask.restores, hright, hlegacy]
      · obtain rfl := Option.some.inj h
        exact hs.spawn (htask.follow _ hpassing.symm (fun _ h => (by cases h)) (fun _ h => (by cases h)) fun _ _ h => (by cases h))
    · obtain rfl := Option.some.inj h
      exact hs
  | rehashing next user password credentials =>
    obtain rfl := Option.some.inj h
    have hwritten := hs.setPassword (hasher.hash password salt) (htask.restores user.id rfl)
      (htask.passing next user credentials rfl).1
    have hnext : TaskSettled hasher (s.setPassword user.id ⟨hasher.hash password salt, credentials.change⟩)
        (.verified next user credentials) :=
      { htask.follow (.verified next user credentials) rfl (fun _ h => (by cases h)) (fun _ h => (by cases h))
          (fun _ _ h => (by cases h)) with }
    exact hwritten.spawn hnext
  | verified next user credentials =>
    cases next with
    | check => obtain rfl := Option.some.inj h; exact hs
    | change call =>
      obtain rfl := Option.some.inj h
      rcases changePassword_cases opts s call with h | h
      · rw [h]; exact hs
      · rw [h]; exact hs.hashing call
    | login =>
      simp only [CliServer.resumeTask] at h
      split at h
      · obtain rfl := Option.some.inj h; exact hs
      · rename_i henabled
        split at h
        · cases h
        · obtain rfl := Option.some.inj h
          have hadmits : AccountTask.Admits hasher (.verified .login user credentials) user.id credentials :=
            ⟨user, rfl, rfl, by simpa using fun h => henabled (.inl h)⟩
          exact hs.createSession (htask.admits _ _ hadmits).2
  | hashingFirst userId password =>
    obtain rfl := Option.some.inj h
    exact hs.setPassword _ (htask.restores userId rfl) (Nat.zero_le _)
  | hashing call =>
    have hwritten := hs.writeChange (c := { call with number := s.written.length + 1 }) rfl salt
      fun other hother => (hguard other hother).1 call rfl
    simp only [CliServer.resumeTask] at h
    split at h
    · obtain rfl := Option.some.inj h; exact hwritten
    · obtain rfl := Option.some.inj h
      refine hwritten.spawn ⟨fun _ _ _ hp => (by cases hp), ?_, fun _ hr => (by cases hr), ?_,
        fun _ _ hr => (by cases hr)⟩
      · rintro _ _ ⟨_, hp, -⟩
        cases hp
      · intro c hc
        obtain rfl := Revocation.change.inj (AccountTask.auditing.inj hc)
        exact List.mem_cons_self
  | auditing op =>
    obtain rfl := Option.some.inj h
    cases op with
    | change c =>
      exact hs.listSessions (htask.auditing c rfl) fun other hother => (hguard other hother).2.1 c rfl
    | disable userId => exact hs.spawn (.idle rfl rfl (fun _ h => (by cases h)) (fun _ _ h => (by cases h)))
    | delete userId => exact hs.spawn (.idle rfl rfl (fun _ h => (by cases h)) (fun _ _ h => (by cases h)))
  | revoking op rest =>
    cases rest with
    | cons id rest =>
      obtain rfl := Option.some.inj h
      exact hs.revokeNext hids htask
    | nil =>
      cases op with
      | change c =>
        obtain rfl := Option.some.inj h
        exact hs.returnChange htask fun other hother => (hguard other hother).2.2.1 c rfl
      | disable userId =>
        obtain rfl := Option.some.inj h
        exact hs.bar fun other hother => (hguard other hother).2.2.2 userId rfl
      | delete userId =>
        obtain rfl := Option.some.inj h
        exact { hs with tasks := fun task htask => { hs.tasks task htask with } }
  | creatingToken ctx req =>
    simp only [CliServer.resumeTask] at h
    split at h
    · cases h
    · split at h
      · obtain rfl := Option.some.inj h; exact hs
      · rename_i stores hcreated
        obtain rfl := Option.some.inj h
        obtain ⟨-, token, rfl, -⟩ := createToken_ok hcreated
        exact hs.setStores _ _ fun user huser => ⟨user, huser, rfl, fun _ => id⟩

/-- The users after an update, which enables no barred one. -/
theorem updateUser (hs : PasswordsFinal hasher s) (id : Str) (c : UserChanges)
    (hdisabled : id ∈ s.barred → c.disabled ≠ some false) :
    PasswordsFinal hasher { s with stores := s.stores.updateUser id c } := by
  refine hs.setStores _ s.known fun user huser => ?_
  obtain ⟨old, hold, rfl⟩ := List.mem_map.1 huser
  refine ⟨old, hold, by split <;> rfl, fun hbarred holdDisabled => ?_⟩
  split
  · rename_i hid
    have hkept := hdisabled (by rwa [if_pos hid, UserChanges.apply, hid] at hbarred)
    cases hc : c.disabled with
    | none => simpa [UserChanges.apply, hc] using holdDisabled
    | some disabled =>
      cases disabled with
      | true => simp [UserChanges.apply, hc]
      | false => exact absurd hc hkept
  · exact holdDisabled

theorem step (hs : PasswordsFinal hasher s) (hids : IdsDrawn s) {a : AccountAction}
    (hguard : NothingOldPending hasher s a)
    (h : accountStep hasher t opts s a = some s') : PasswordsFinal hasher s' := by
  cases a with
  | createUser caller newId req =>
    simp only [accountStep] at h
    split at h
    · cases h
    · rename_i hnew
      split at h
      · obtain rfl := Option.some.inj h; exact hs
      · rename_i stores hcreated
        obtain ⟨user, hid, rfl, rfl, -⟩ := createUser_ok hcreated
        have hadded := hs.addUser hids hid hnew
        split at h
        · obtain rfl := Option.some.inj h; exact hadded
        · obtain rfl := Option.some.inj h
          refine hadded.spawn ⟨fun _ _ _ hp => (by cases hp), ?_, ?_, fun _ hc => (by cases hc),
            fun _ _ hr => (by cases hr)⟩
          · rintro _ _ ⟨_, hp, -⟩
            cases hp
          · intro userId hr c hc hsame
            obtain rfl := Option.some.inj hr
            exact hnew (hsame ▸ hids.written c hc)
  | login username password =>
    simp only [accountStep] at h
    split at h
    · obtain rfl := Option.some.inj h; exact hs
    · rename_i user hfound
      obtain rfl := Option.some.inj h
      exact hs.verifyPassword (mem_of_findUser hfound)
  | verifyPassword idOrName password =>
    simp only [accountStep] at h
    split at h
    · obtain rfl := Option.some.inj h; exact hs
    · rename_i user hfound
      obtain rfl := Option.some.inj h
      exact hs.verifyPassword (s.stores.mem_of_getUser hfound)
  | changePassword ctx idOrName req =>
    simp only [accountStep] at h
    split at h
    · obtain rfl := Option.some.inj h; exact hs
    · rename_i target hfound
      obtain rfl := Option.some.inj h
      rcases requestChange_cases t opts s ctx target req with
        h | ⟨call, -, h | ⟨password, credentials, hmem, h⟩⟩
      · rw [h]; exact hs
      · rw [h]; exact hs.hashing call
      · rw [h]; exact hs.spawn (hs.verifying (s.stores.mem_of_getUser hfound) hmem)
  | updateUser caller idOrName req =>
    simp only [accountStep] at h
    split at h
    · obtain rfl := Option.some.inj h; exact hs
    · rename_i target hfound
      split at h
      · obtain rfl := Option.some.inj h; exact hs
      · rename_i stores hupdated
        obtain rfl := Option.some.inj h
        obtain ⟨c, rfl, hdisabled, -⟩ := updateUser_ok hupdated
        have hidle : ∀ op rest, (∀ c, op ≠ Revocation.change c) → ∀ s : AccountState H,
            TaskSettled hasher s (.revoking op rest) ∧ TaskSettled hasher s (.auditing op) := fun op rest hop s =>
          ⟨.idle rfl rfl (fun _ h => (by cases h)) fun c rest h => hop c (AccountTask.revoking.inj h).1,
            .idle rfl rfl (fun c h => hop c (AccountTask.auditing.inj h)) fun _ _ h => (by cases h)⟩
        cases hreq : req.disabled with
        | none => exact hs.updateUser _ _ (by simp [hdisabled, hreq])
        | some disabled =>
          cases disabled with
          | false => exact (hs.unbar target.id).updateUser _ c (by simp)
          | true =>
            have hset := hs.updateUser target.id c (by simp [hdisabled, hreq])
            simp only [afterUpdate]
            split
            · exact hset.spawn (hidle (.disable target.id) [] (fun _ h => (by cases h)) _).1
            · exact hset.spawn (hidle (.disable target.id) [] (fun _ h => (by cases h)) _).2
  | deleteUser caller idOrName =>
    simp only [accountStep] at h
    split at h
    · obtain rfl := Option.some.inj h; exact hs
    · split at h
      · obtain rfl := Option.some.inj h; exact hs
      · obtain rfl := Option.some.inj h
        exact (hs.dropUser _).spawn (.idle rfl rfl (fun _ h => (by cases h)) (fun _ _ h => (by cases h)))
  | createToken ctx req =>
    simp only [accountStep] at h
    split at h
    · obtain rfl := Option.some.inj h
      exact hs.spawn (.idle rfl rfl (fun _ h => (by cases h)) (fun _ _ h => (by cases h)))
    · obtain rfl := Option.some.inj h; exact hs
  | closeSession id => obtain rfl := Option.some.inj h; exact hs.deleteSession id
  | resume i salt newId now =>
    obtain ⟨task, htask, h⟩ := Option.bind_eq_some_iff.1 h
    refine (hs.drop i).resumeTask (hids.drop i) { hs.tasks task (List.mem_of_getElem? htask) with } ?_ h
    exact fun other hother => hguard task htask other (List.mem_of_mem_eraseIdx hother)

end PasswordsFinal

/-! ### Runs -/

/-- A session comes from a login that is let in. -/
private theorem resumeTask_sessions {salt now : Nat} {newId : Str}
    (h : resumeTask hasher t opts s salt newId now task = some s') :
    ∀ session ∈ s'.sessions, session ∈ s.sessions ∨ task.Admits hasher session.userId session.credentials := by
  cases task with
  | verifying next user password credentials =>
    simp only [resumeTask] at h
    split at h
    · split at h <;> (obtain rfl := Option.some.inj h; exact fun session => .inl)
    · obtain rfl := Option.some.inj h; exact fun session => .inl
  | rehashing next user password credentials => obtain rfl := Option.some.inj h; exact fun session => .inl
  | verified next user credentials =>
    cases next with
    | check => obtain rfl := Option.some.inj h; exact fun session => .inl
    | change call =>
      obtain rfl := Option.some.inj h
      rcases changePassword_cases opts s call with h | h
      · rw [h]; exact fun session => .inl
      · rw [h]; exact fun session => .inl
    | login =>
      simp only [resumeTask] at h
      split at h
      · obtain rfl := Option.some.inj h; exact fun session => .inl
      · rename_i henabled
        split at h
        · cases h
        · obtain rfl := Option.some.inj h
          intro session hsession
          rcases List.mem_append.1 hsession with hsession | hsession
          · exact .inl hsession
          · obtain rfl := List.mem_singleton.1 hsession
            exact .inr ⟨user, rfl, rfl, by simpa using fun h => henabled (.inl h)⟩
  | hashingFirst userId password => obtain rfl := Option.some.inj h; exact fun session => .inl
  | hashing call =>
    simp only [resumeTask] at h
    split at h <;> (obtain rfl := Option.some.inj h; exact fun session => .inl)
  | auditing op => obtain rfl := Option.some.inj h; cases op <;> exact fun session => .inl
  | revoking op rest =>
    cases rest with
    | cons id rest =>
      obtain rfl := Option.some.inj h
      exact fun session hsession => .inl (List.mem_of_mem_eraseP hsession)
    | nil =>
      cases op with
      | change c => obtain rfl := Option.some.inj h; exact fun session => .inl
      | disable userId =>
        obtain rfl := Option.some.inj h
        unfold AccountState.bar
        split <;> exact fun session => .inl
      | delete userId => obtain rfl := Option.some.inj h; exact fun session => .inl
  | creatingToken ctx req =>
    simp only [resumeTask] at h
    split at h
    · cases h
    · split at h <;> (obtain rfl := Option.some.inj h; exact fun session => .inl)

private theorem accountStep_sessions {a : AccountAction} (h : accountStep hasher t opts s a = some s') :
    ∀ session ∈ s'.sessions, session ∈ s.sessions ∨
      ∃ task ∈ s.tasks, task.Admits hasher session.userId session.credentials := by
  have hverify : ∀ next user password, (s.verifyPassword next user password).sessions = s.sessions := by
    intro next user password
    rcases verifyPassword_cases s next user password with h | ⟨credentials, -, h⟩
    · rw [h]
    · rw [h]; rfl
  have hsame : ∀ {s' : AccountState H}, s'.sessions = s.sessions → ∀ session ∈ s'.sessions,
      session ∈ s.sessions ∨ ∃ task ∈ s.tasks, task.Admits hasher session.userId session.credentials :=
    fun heq session hsession => .inl (heq ▸ hsession)
  cases a with
  | createUser caller newId req =>
    simp only [accountStep] at h
    split at h
    · cases h
    · split at h
      · obtain rfl := Option.some.inj h; exact hsame rfl
      · split at h <;> (obtain rfl := Option.some.inj h; exact hsame rfl)
  | login username password =>
    simp only [accountStep] at h
    split at h <;> obtain rfl := Option.some.inj h
    · exact hsame rfl
    · exact hsame (hverify _ _ _)
  | verifyPassword idOrName password =>
    simp only [accountStep] at h
    split at h <;> obtain rfl := Option.some.inj h
    · exact hsame rfl
    · exact hsame (hverify _ _ _)
  | changePassword ctx idOrName req =>
    simp only [accountStep] at h
    split at h <;> obtain rfl := Option.some.inj h
    · exact hsame rfl
    · rename_i target hfound
      rcases requestChange_cases t opts s ctx target req with h | ⟨call, -, h | ⟨password, credentials, -, h⟩⟩
      all_goals rw [h]; exact hsame rfl
  | updateUser caller idOrName req =>
    simp only [accountStep] at h
    split at h
    · obtain rfl := Option.some.inj h; exact hsame rfl
    · split at h <;> obtain rfl := Option.some.inj h
      · exact hsame rfl
      · unfold afterUpdate
        split
        · exact hsame rfl
        · exact hsame rfl
        · split <;> exact hsame rfl
  | deleteUser caller idOrName =>
    simp only [accountStep] at h
    split at h
    · obtain rfl := Option.some.inj h; exact hsame rfl
    · split at h <;> (obtain rfl := Option.some.inj h; exact hsame rfl)
  | createToken ctx req =>
    simp only [accountStep] at h
    split at h <;> (obtain rfl := Option.some.inj h; exact hsame rfl)
  | closeSession id =>
    obtain rfl := Option.some.inj h
    exact fun session hsession => .inl (List.mem_of_mem_eraseP hsession)
  | resume i salt newId now =>
    obtain ⟨task, htask, h⟩ := Option.bind_eq_some_iff.1 h
    intro session hsession
    rcases resumeTask_sessions h session hsession with hold | hadmits
    · exact .inl hold
    · exact .inr ⟨task, List.mem_of_getElem? htask, hadmits⟩

/-- After the change `c`, as long as no later one is written only its password verifies; sessions of logins with older
credentials are gone, but for the one that is kept, and no verification against older ones is about to succeed. -/
structure ChangeFinal (hasher : PasswordHasher H) (s : AccountState H) (c : WrittenChange) : Prop where
  stored : lastChange s.written c.userId = c.number → ∀ user ∈ s.stores.users, user.id = c.userId →
    ∃ credentials salt, s.getCredentials user.id = some credentials ∧
      credentials.hash = hasher.hash c.password salt ∧ hasher.verify c.password credentials.hash = true
  sessions : ∀ session ∈ s.sessions, session.userId = c.userId →
    c.number ≤ session.credentials.change ∨ c.keep = some session.id
  pending : ∀ task ∈ s.tasks, ∀ next user credentials, task.passing hasher = some (next, user, credentials) →
    user.id = c.userId → c.number ≤ credentials.change

private theorem PasswordsFinal.changeFinal (hs : PasswordsFinal hasher s) {c : WrittenChange} (hc : c ∈ s.changed) :
    ChangeFinal hasher s c where
  stored := by
    intro hlast user huser hid
    have hwritten := hs.listed c (hs.changed c hc).1
    have hpos := (hs.numbers c hwritten).1
    obtain ⟨e, he, heq⟩ := hs.kept user huser (by rw [hid]; omega)
    have hsome : (s.credentials.find? (·.1 = user.id)).isSome := List.find?_isSome.2 ⟨e, he, by simpa using heq⟩
    obtain ⟨found, hfound⟩ := Option.isSome_iff_exists.1 hsome
    have hfoundId : found.1 = user.id := by simpa using List.find?_some hfound
    obtain ⟨hchange, hhash⟩ := hs.stored found (List.mem_of_find?_eq_some hfound)
    obtain ⟨salt, hsalt⟩ := hhash c hwritten (hid ▸ hfoundId.symm) (by rw [hchange, hfoundId, hid, hlast])
    refine ⟨found.2, salt, by rw [AccountState.getCredentials, hfound]; rfl, hsalt, ?_⟩
    rw [hsalt]
    exact hasher.verify_hash _ _
  sessions := (hs.changed c hc).2
  pending := fun task htask next user credentials hp hid =>
    ((hs.tasks task htask).passing next user credentials hp).2 c hc hid.symm

/-- In a run in which nothing old is pending when a change writes its credentials, lists the sessions or returns, or a
disablement returns, a returned change is final, and no session is opened for a user that is barred. -/
theorem password_change_final {stores : Stores} {credentials : List (Str × H)}
    {history : List (Move (AccountState H) AccountAction)}
    (h : GuardedRun (accountStep hasher t opts) (NothingOldPending hasher) (AccountState.start stores credentials)
      history s) :
    (∀ c ∈ s.changed, ChangeFinal hasher s c) ∧
    ∀ m ∈ history, ∀ session ∈ m.post.sessions, session.userId ∈ m.pre.barred → session ∈ m.pre.sessions := by
  have hstart : IdsDrawn (AccountState.start stores credentials) ∧
      PasswordsFinal hasher (AccountState.start stores credentials) :=
    ⟨.start stores credentials, .start stores credentials⟩
  have hstep : ∀ (s : AccountState H) (a : AccountAction) (s' : AccountState H),
      (IdsDrawn s ∧ PasswordsFinal hasher s) → NothingOldPending hasher s a → accountStep hasher t opts s a = some s' →
      IdsDrawn s' ∧ PasswordsFinal hasher s' :=
    fun s a s' hs hg hst => ⟨hs.1.step hst, hs.2.step hs.1 hg hst⟩
  refine ⟨fun c hc => (h.invariant hstart hstep).2.changeFinal hc, fun m hm session hsession hbarred => ?_⟩
  obtain ⟨⟨-, hs⟩, -, hst⟩ := h.of_mem hstart hstep hm
  rcases accountStep_sessions hst session hsession with hold | ⟨task, htask, hadmits⟩
  · exact hold
  · exact absurd hbarred ((hs.tasks task htask).admits _ _ hadmits).1

/-- A single task is not in its own way. -/
private theorem nothingOldPending_alone {s : AccountState H} (hone : s.tasks.length ≤ 1) (a : AccountAction) :
    NothingOldPending hasher s a := by
  cases a with
  | resume i salt newId now =>
    intro task htask other hother
    obtain ⟨only, htasks⟩ : ∃ only, s.tasks = [only] := by
      refine List.length_eq_one_iff.1 ?_
      have := List.length_pos_of_mem hother
      omega
    have htask := List.mem_of_getElem? htask
    rw [htasks, List.mem_singleton] at htask hother
    subst htask hother
    refine ⟨?_, ?_, ?_, ?_⟩
    · rintro call rfl
      exact fun h => (by cases h)
    · rintro c rfl credentials ⟨user, hp, -⟩
      cases hp
    · rintro c rfl next user credentials hp
      cases hp
    · rintro userId rfl credentials ⟨user, hp, -⟩
      cases hp
  | _ => trivial

/-- Tasks that neither let anyone in nor write credentials back are in nobody's way. -/
private theorem nothingOldPending_of_idle {s : AccountState H}
    (hidle : ∀ other ∈ s.tasks, other.passing hasher = none ∧ other.restores hasher = none) (a : AccountAction) :
    NothingOldPending hasher s a := by
  cases a with
  | resume i salt newId now =>
    intro task _ other hother
    obtain ⟨hpassing, hrestores⟩ := hidle other hother
    have hadmits : ∀ userId credentials, ¬other.Admits hasher userId credentials := by
      rintro userId credentials ⟨user, hp, -⟩
      rw [hpassing] at hp
      cases hp
    refine ⟨fun call _ => ?_, fun c _ credentials h => absurd h (hadmits _ _), ?_, fun userId _ => hadmits userId⟩
    · rw [hrestores]
      exact nofun
    · intro c _ next user credentials hp
      rw [hpassing] at hp
      cases hp
  | _ => trivial

/-- A hasher that keeps the password. -/
def plainHasher : PasswordHasher (Str × Nat) where
  hash password salt := (password, salt)
  verify password hash := password = hash.1
  needsRehash _ := false
  verify_hash := by simp
  hash_current := by simp

/-- The seeded server, whose root signs in with `old password`. -/
def rootAccount : AccountState (Str × Nat) := .start (seed ['r']) [(['r'], ("old password".toList, 0))]

/-- Root changes its password; with `sessionId`, the session that is kept. -/
def rootChange (sessionId : Str) : AccountAction :=
  .changePassword ⟨⟨['r'], "root".toList, "root@localhost".toList, [adminGroup], false, none⟩, [['*']], true, false, none⟩
    "root".toList ⟨"new password".toList, none, some sessionId, false, false⟩

/-- Root signs in twice and changes its password in the first session, which revokes the second, while someone else
tries a wrong password. -/
theorem password_change_final_root :
    let t : CaseTable := fun _ c _ => [c]
    ∃ history s, GuardedRun (accountStep plainHasher t {}) (NothingOldPending plainHasher) rootAccount history s ∧
      s.changed ≠ [] ∧ (∃ m ∈ history, 1 < m.pre.tasks.length) ∧ ∀ c ∈ s.changed, ChangeFinal plainHasher s c := by
  intro t
  have hexec : (exec (accountStep plainHasher t {}) rootAccount
      [.login "root".toList "old password".toList, .resume 0 0 [] 0, .resume 0 0 ['1'] 0,
        .login "root".toList "old password".toList, .resume 0 0 [] 0, .resume 0 0 ['2'] 0,
        rootChange ['1'], .login "root".toList "wrong password".toList, .resume 0 7 [] 0, .resume 1 0 [] 0,
        .resume 1 0 [] 0, .resume 1 0 [] 0, .resume 0 0 [] 0]).any (fun r =>
        r.1.all (fun m => m.pre.tasks.length ≤ 1 || m.pre.tasks.all fun task =>
          (task.passing plainHasher).isNone && (task.restores plainHasher).isNone) &&
        (!r.2.changed.isEmpty && (r.2.sessions.length = 1 && r.1.any fun m => 1 < m.pre.tasks.length))) = true := by
    decide +kernel
  obtain ⟨⟨history, s⟩, hexec, hend⟩ := (Option.any_eq_true _ _).1 hexec
  obtain ⟨hcalm, hend⟩ := Bool.and_eq_true_iff.1 hend
  obtain ⟨hchanged, hend⟩ := Bool.and_eq_true_iff.1 hend
  obtain ⟨m, hm, hoverlap⟩ := List.any_eq_true.1 (Bool.and_eq_true_iff.1 hend).2
  have hrun : GuardedRun (accountStep plainHasher t {}) (NothingOldPending plainHasher) rootAccount history s := by
    refine (run_of_exec hexec).restrict fun m hm => ?_
    rcases Bool.or_eq_true_iff.1 (List.all_eq_true.1 hcalm m hm) with hone | hidle
    · exact nothingOldPending_alone (of_decide_eq_true hone) m.act
    · refine nothingOldPending_of_idle (fun task htask => ?_) m.act
      simpa using List.all_eq_true.1 hidle task htask
  refine ⟨history, s, hrun, ?_, ⟨m, hm, of_decide_eq_true hoverlap⟩, (password_change_final hrun).1⟩
  simpa using hchanged

/-- A login that reads the credentials before the change and opens its session after it. -/
theorem old_login_after_change :
    let t : CaseTable := fun _ c _ => [c]
    ∃ history s, Run (accountStep plainHasher t {}) rootAccount history s ∧
      ∃ c ∈ s.changed, ∃ session ∈ s.sessions, session.userId = c.userId ∧
        plainHasher.verify "old password".toList session.credentials.hash = true ∧
        plainHasher.verify c.password session.credentials.hash = false ∧ c.keep ≠ some session.id := by
  intro t
  have hexec : (exec (accountStep plainHasher t {}) rootAccount
      [.login "root".toList "old password".toList, rootChange ['1'], .resume 1 7 [] 0, .resume 1 0 [] 0,
        .resume 1 0 [] 0, .resume 0 0 [] 0, .resume 0 0 ['2'] 0]).any (fun r => r.2.changed.any fun c =>
        r.2.sessions.any fun session => session.userId = c.userId &&
          (plainHasher.verify "old password".toList session.credentials.hash &&
          (!plainHasher.verify c.password session.credentials.hash && c.keep ≠ some session.id))) = true := by
    decide +kernel
  obtain ⟨⟨history, s⟩, hexec, hleft⟩ := (Option.any_eq_true _ _).1 hexec
  obtain ⟨c, hc, hleft⟩ := List.any_eq_true.1 hleft
  obtain ⟨session, hsession, hleft⟩ := List.any_eq_true.1 hleft
  exact ⟨history, s, run_of_exec hexec, c, hc, session, hsession, by simpa using hleft⟩

end CliServer
