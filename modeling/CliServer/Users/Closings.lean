import CliServer.Users.Lifetime

/-!
# Every session is closed once

Six paths delete sessions and publish `session:closed`.  Sending `session-kicked` and the handlers of the event bus
may suspend a path, and another one runs meanwhile: a `SessionTask` is what a suspended path has left to do.  A
session that was opened is stored, or its closing is owed by a task, or published (`SessionsAccounted`), and each step
moves it on by at most one of these: as long as a loop over sessions it has listed before goes on to one that is still
stored.
-/

namespace CliServer

open Transition

/-- Where `revoke_session` is suspended: in publishing, in sending `session-kicked` or in the audit. -/
inductive RevocationStage where
  | publishing
  | notifying
  | auditing
  deriving DecidableEq, Repr

/-- A path that is suspended, with what it has left to do. -/
inductive SessionTask where
  /-- `logout`, in the audit: it has deleted the session. -/
  | loggingOut (session : Session)
  /-- `revoke_session`, and the sessions that `revoke_user_sessions` goes on to.  It found the session when it deleted
  it, or not. -/
  | revoking (session : Session) (found : Bool) (stage : RevocationStage) (rest : List Session)
  /-- `list_sessions`, after it published the closing of an expired session. -/
  | listing (rest : List Session)
  /-- `cleanup_sessions`, publishing: it has deleted the sessions. -/
  | cleaning (rest : List Session)
  deriving DecidableEq, Repr

/-- The clock, the session store, the ids drawn so far, the sessions whose closing was published, the audited
revocations, each with whether it found the session when it deleted it, and the suspended paths. -/
structure SessionService where
  now : Nat
  sessions : List Session
  ids : List Str
  published : List Str
  revoked : List (Str × Bool)
  tasks : List SessionTask
  deriving DecidableEq, Repr

namespace SessionService

variable (o : SessionOptions)

/-- No session was opened yet. -/
def start (now : Nat) : SessionService := ⟨now, [], [], [], [], []⟩

/-- The ids of the stored sessions. -/
def stored (s : SessionService) : List Str := s.sessions.map Session.id

/-- `delete_session_by_id` and `publish_session_closed`. -/
def close (s : SessionService) (session : Session) : SessionService :=
  { s with sessions := deleteSessionById s.sessions session.id, published := s.published ++ [session.id] }

/-- The loop of `revoke_user_sessions`. -/
def revokeAll (s : SessionService) : List Session → SessionService
  | [] => s
  | session :: rest =>
    let found := (sessionById s.sessions session.id).isSome
    { s.close session with tasks := .revoking session found .publishing rest :: s.tasks }

/-- The loop of `list_sessions`, up to an expired session. -/
def listOn (s : SessionService) (sessions : List Session) : SessionService :=
  match sessions.dropWhile fun session => !session.isExpired o s.now with
  | [] => s
  | session :: rest => { s.close session with tasks := .listing rest :: s.tasks }

/-- The last loop of `cleanup_sessions`. -/
def publishAll (s : SessionService) : List Session → SessionService
  | [] => s
  | session :: rest =>
    { s with published := s.published ++ [session.id], tasks := .cleaning rest :: s.tasks }

end SessionService

open SessionService

/-- What happens; a request that is refused before it looks at a session is left out. -/
inductive ClosingAction where
  | tick (ms : Nat)
  /-- A `login` that creates the session `id`. -/
  | login (userId tokenHash id : Str)
  | logout (tokenHash : Str)
  /-- `DELETE` of a session, by someone who may. -/
  | revoke (id : Str)
  | revokeUser (userId : Str) (except : Option Str)
  | list
  /-- `authenticate_token`; `active`: the session's user is there and enabled. -/
  | request (tokenHash : Str) (active : Bool)
  /-- `consume_ticket`, of a ticket for the session `id`. -/
  | consumeTicket (id : Str)
  | cleanup
  /-- A suspended path goes on, up to where it is suspended again. -/
  | resume (task : Nat)
  deriving DecidableEq, Repr

variable (o : SessionOptions)

/-- A path goes on, in the state without it. -/
def SessionTask.resume (s : SessionService) : SessionTask → SessionService
  | .loggingOut session => { s with published := s.published ++ [session.id] }
  | .revoking session found .publishing rest => { s with tasks := .revoking session found .notifying rest :: s.tasks }
  | .revoking session found .notifying rest =>
    { s with
      revoked := s.revoked ++ [(session.id, found)]
      tasks := .revoking session found .auditing rest :: s.tasks }
  | .revoking _ _ .auditing rest => s.revokeAll rest
  | .listing rest => s.listOn o rest
  | .cleaning rest => s.publishAll rest

/-- One step of the service. -/
def closingStep (s : SessionService) : ClosingAction → Option SessionService
  | .tick ms => some { s with now := s.now + ms }
  | .login userId tokenHash id =>
    -- ids and tokens are drawn at random, and have not been drawn before
    if id ∈ s.ids ∨ tokenHash ∈ s.sessions.map Session.tokenHash then none
    else some { s with sessions := s.sessions ++ [⟨id, tokenHash, userId, s.now, s.now⟩], ids := id :: s.ids }
  | .logout tokenHash =>
    match s.sessions.find? (·.tokenHash = tokenHash) with
    | none => some s
    | some session => some
      { s with
        sessions := s.sessions.filter (·.tokenHash ≠ tokenHash)
        tasks := .loggingOut session :: s.tasks }
  | .revoke id =>
    match sessionById s.sessions id with
    | none => some s
    | some session => some (s.revokeAll [session])
  | .revokeUser userId except =>
    some (s.revokeAll (s.sessions.filter fun session => session.userId = userId ∧ some session.id ≠ except))
  | .list => some (s.listOn o s.sessions)
  | .request tokenHash active =>
    match s.sessions.find? (·.tokenHash = tokenHash) with
    | none => some s
    | some session =>
      if session.isExpired o s.now then some (s.close session)
      else if active then some { s with sessions := updateLastActivity s.sessions tokenHash s.now }
      else some s
  | .consumeTicket id =>
    match sessionById s.sessions id with
    | none => some s
    | some session => if session.isExpired o s.now then some (s.close session) else some s
  | .cleanup =>
    let remaining := cleanupSessions o s.sessions s.now
    let ended := s.sessions.filter fun session => session.id ∉ remaining.map Session.id
    some ({ s with sessions := remaining }.publishAll ended)
  | .resume i =>
    match s.tasks[i]? with
    | none => none
    | some task => some (task.resume o { s with tasks := s.tasks.eraseIdx i })

/-! ### What is promised -/

/-- The session that a suspended path goes on to delete. -/
def SessionTask.goesOnTo (now : Nat) : SessionTask → Option Session
  | .revoking _ _ .auditing rest => rest.head?
  | .listing rest => rest.find? fun session => session.isExpired o now
  | _ => none

/-- A loop over sessions that were listed before goes on to one that has not ended meanwhile. -/
def GoesOnToStored (s : SessionService) : ClosingAction → Prop
  | .resume i => ∀ task, s.tasks[i]? = some task → ∀ session, task.goesOnTo o s.now = some session →
  session.id ∈ s.stored
  | _ => True

/-- The closings a path has yet to publish, of sessions it has deleted. -/
def SessionTask.owed : SessionTask → List Str
  | .loggingOut session => [session.id]
  | .cleaning rest => rest.map Session.id
  | _ => []

/-- The closings that are yet to be published, of sessions that have ended. -/
def SessionService.owed (s : SessionService) : List Str := s.tasks.flatMap SessionTask.owed

/-- The number of times a path goes on before it is over, at most. -/
def SessionTask.work : SessionTask → Nat
  | .loggingOut _ => 1
  | .revoking _ _ .publishing rest => 3 * rest.length + 3
  | .revoking _ _ .notifying rest => 3 * rest.length + 2
  | .revoking _ _ .auditing rest => 3 * rest.length + 1
  | .listing rest => rest.length + 1
  | .cleaning rest => rest.length + 1

/-- The number of times suspended paths go on before all are over, at most. -/
def SessionService.work (s : SessionService) : Nat := (s.tasks.map SessionTask.work).sum

/-- Each session that ended was published once or will be by the one path that owes it, and none that is stored was;
what is owed is published when the paths have gone on; and the revocations that were audited found their session. -/
structure ClosedOnce (s : SessionService) : Prop where
  stored : ∀ id ∈ s.stored, s.published.count id = 0
  ended : ∀ id ∈ s.ids, id ∉ s.stored → s.published.count id + s.owed.count id = 1
  settled : s.tasks = [] → ∀ id ∈ s.ids, id ∉ s.stored → s.published.count id = 1
  goesOn : ∀ i < s.tasks.length, ∃ s', closingStep o s (.resume i) = some s' ∧ s'.work < s.work
  revoked : ∀ entry ∈ s.revoked, entry.2 = true

/-! ### Where each session is accounted for -/

/-- Whether the revocation found its session. -/
def SessionTask.found : SessionTask → Bool
  | .revoking _ found _ _ => found
  | _ => true

/-- Each id that was drawn is that of a stored session, or of a closing that is owed, published or in hand. -/
structure SessionsAccounted (s : SessionService) (hand : List Str) : Prop where
  ids : s.ids.Nodup
  tokens : (s.sessions.map Session.tokenHash).Nodup
  count : ∀ id, s.published.count id + s.owed.count id + s.stored.count id + hand.count id = s.ids.count id
  found : ∀ task ∈ s.tasks, task.found = true
  revoked : ∀ entry ∈ s.revoked, entry.2 = true

private theorem map_deleteSessionById (sessions : List Session) (id : Str) :
    (deleteSessionById sessions id).map Session.id = (sessions.map Session.id).erase id := by
  induction sessions with
  | nil => rfl
  | cons session sessions ih =>
    rw [deleteSessionById] at ih ⊢
    by_cases hid : session.id = id
    · simp [hid]
    · have hne : (session.id == id) = false := by simpa using hid
      rw [List.eraseP_cons_of_neg (by simpa using hid), List.map_cons, List.map_cons, ih,
        List.erase_cons_tail (by simpa using hid)]

private theorem isSome_sessionById {sessions : List Session} {id : Str} :
    (sessionById sessions id).isSome = true ↔ id ∈ sessions.map Session.id := by
  rw [sessionById, List.find?_isSome, List.mem_map]
  simp

private theorem owed_eraseIdx {s : SessionService} {i : Nat} {task : SessionTask} (h : s.tasks[i]? = some task)
    (id : Str) :
    s.owed.count id = ({ s with tasks := s.tasks.eraseIdx i } : SessionService).owed.count id + task.owed.count id := by
  obtain ⟨hlt, rfl⟩ := List.getElem?_eq_some_iff.1 h
  have hperm : (s.tasks[i] :: s.tasks.eraseIdx i).Perm s.tasks := List.getElem_cons_eraseIdx_perm hlt
  have hcount := (hperm.flatMap_right SessionTask.owed).count_eq id
  rw [List.flatMap_cons, List.count_append] at hcount
  show (s.tasks.flatMap SessionTask.owed).count id = ((s.tasks.eraseIdx i).flatMap SessionTask.owed).count id + _
  omega

/-- The cleanup deletes what it publishes. -/
private theorem count_cleanup {sessions remaining : List Session} (hsub : remaining.Sublist sessions)
    (hnodup : (sessions.map Session.id).Nodup) (id : Str) :
    (remaining.map Session.id).count id +
        ((sessions.filter fun session => session.id ∉ remaining.map Session.id).map Session.id).count id =
      (sessions.map Session.id).count id := by
  have hfilter : (sessions.filter fun session => session.id ∉ remaining.map Session.id).map Session.id =
      (sessions.map Session.id).filter fun id => id ∉ remaining.map Session.id := by
    rw [List.filter_map]
    rfl
  have hids : (remaining.map Session.id).Sublist (sessions.map Session.id) := hsub.map Session.id
  rw [hfilter]
  by_cases hid : id ∈ remaining.map Session.id
  · have hremaining : (remaining.map Session.id).count id = 1 := List.count_eq_one_of_mem (hnodup.sublist hids) hid
    have hsessions : (sessions.map Session.id).count id = 1 := List.count_eq_one_of_mem hnodup (hids.subset hid)
    have hnone : ((sessions.map Session.id).filter fun id => id ∉ remaining.map Session.id).count id = 0 := by
      rw [List.count_eq_zero, List.mem_filter]
      simp [hid]
    omega
  · have hnone : (remaining.map Session.id).count id = 0 := List.count_eq_zero.2 hid
    rw [hnone, List.count_filter (by simpa using hid), Nat.zero_add]

/-- A token is that of one session. -/
private theorem count_logout {sessions : List Session} {session : Session} {tokenHash : Str}
    (hnodup : (sessions.map Session.tokenHash).Nodup) (h : sessions.find? (·.tokenHash = tokenHash) = some session)
    (id : Str) :
    ((sessions.filter (·.tokenHash ≠ tokenHash)).map Session.id).count id + [session.id].count id =
      (sessions.map Session.id).count id := by
  induction sessions with
  | nil => cases h
  | cons first sessions ih =>
    rw [List.map_cons, List.nodup_cons] at hnodup
    have hcons : ∀ l : List Str, (first.id :: l).count id = [first.id].count id + l.count id := by
      intro l
      rw [← List.singleton_append, List.count_append]
    by_cases htoken : first.tokenHash = tokenHash
    · rw [List.find?_cons_of_pos (by simpa using htoken)] at h
      obtain rfl := Option.some.inj h
      have hrest : sessions.filter (·.tokenHash ≠ tokenHash) = sessions := by
        rw [List.filter_eq_self]
        intro other hother
        simp only [ne_eq, decide_eq_true_eq]
        intro heq
        exact hnodup.1 (List.mem_map.2 ⟨other, hother, heq.trans htoken.symm⟩)
      rw [List.filter_cons_of_neg (by simpa using htoken), hrest, List.map_cons, hcons (sessions.map Session.id),
        Nat.add_comm]
    · rw [List.find?_cons_of_neg (by simpa using htoken)] at h
      have hcount := ih hnodup.2 h
      rw [List.filter_cons_of_pos (by simpa using htoken), List.map_cons, List.map_cons,
        hcons (sessions.map Session.id),
        hcons ((sessions.filter (·.tokenHash ≠ tokenHash)).map Session.id)]
      omega

namespace SessionsAccounted

variable {s : SessionService} {hand : List Str} {session : Session} {sessions rest : List Session}

private theorem stored_nodup (h : SessionsAccounted s hand) : s.stored.Nodup := by
  rw [List.nodup_iff_count_le_one]
  intro id
  have hcount := h.count id
  have hone := List.nodup_iff_count_le_one.1 h.ids id
  omega

/-- A stored session is deleted, and its closing is published. -/
theorem close (h : SessionsAccounted s []) (hmem : session.id ∈ s.stored) : SessionsAccounted (s.close session) [] := by
  refine ⟨h.ids, h.tokens.sublist ((deleteSessionById_sublist _ _).map _), ?_, h.found, h.revoked⟩
  intro id
  have hstored : (s.close session).stored = s.stored.erase session.id := map_deleteSessionById _ _
  have hpublished : (s.close session).published = s.published ++ [session.id] := rfl
  have howed : (s.close session).owed = s.owed := rfl
  have hids : (s.close session).ids = s.ids := rfl
  have hpos : 0 < s.stored.count session.id := List.count_pos_iff.2 hmem
  have hcount := h.count id
  rw [hstored, hpublished, howed, hids, List.count_append, List.count_erase, List.count_singleton]
  by_cases hid : session.id = id
  · subst hid
    simp only [beq_self_eq_true, if_true]
    omega
  · simp only [beq_iff_eq, hid, if_false]
    omega

/-- A path is suspended, with what was in hand. -/
private theorem suspend (task : SessionTask) (h : SessionsAccounted s task.owed) (hfound : task.found = true) :
    SessionsAccounted { s with tasks := task :: s.tasks } [] := by
  refine ⟨h.ids, h.tokens, ?_, ?_, h.revoked⟩
  · intro id
    have hcount := h.count id
    have howed : ({ s with tasks := task :: s.tasks } : SessionService).owed = task.owed ++ s.owed := rfl
    rw [howed, List.count_append, List.count_nil]
    show s.published.count id + _ + s.stored.count id + 0 = s.ids.count id
    omega
  · intro task' htask
    rcases List.mem_cons.1 htask with rfl | htask
    · exact hfound
    · exact h.found task' htask

/-- A path goes on, with what it owes in hand. -/
theorem take {i : Nat} {task : SessionTask} (h : SessionsAccounted s []) (htask : s.tasks[i]? = some task) :
    SessionsAccounted { s with tasks := s.tasks.eraseIdx i } task.owed ∧ task.found = true := by
  refine ⟨⟨h.ids, h.tokens, ?_, ?_, h.revoked⟩, h.found task (List.mem_of_getElem? htask)⟩
  · intro id
    have hcount := h.count id
    have howed := owed_eraseIdx htask id
    rw [List.count_nil] at hcount
    show s.published.count id + _ + s.stored.count id + _ = s.ids.count id
    omega
  · intro task' htask'
    exact h.found task' (List.eraseIdx_subset htask')

theorem publish {id : Str} (h : SessionsAccounted s (id :: hand)) :
    SessionsAccounted { s with published := s.published ++ [id] } hand := by
  refine ⟨h.ids, h.tokens, ?_, h.found, h.revoked⟩
  intro id'
  have hcount := h.count id'
  rw [List.count_cons] at hcount
  show (s.published ++ [id]).count id' + s.owed.count id' + s.stored.count id' + _ = s.ids.count id'
  rw [List.count_append, List.count_singleton]
  omega

private theorem revokeAll (h : SessionsAccounted s [])
    (hmem : ∀ session, sessions.head? = some session → session.id ∈ s.stored) :
    SessionsAccounted (s.revokeAll sessions) [] := by
  cases sessions with
  | nil => exact h
  | cons session rest =>
    have hstored := hmem session rfl
    exact (h.close hstored).suspend (.revoking _ _ _ rest) (isSome_sessionById.2 hstored)

private theorem listOn (h : SessionsAccounted s [])
    (hmem : ∀ session, sessions.find? (fun session => session.isExpired o s.now) = some session →
    session.id ∈ s.stored) :
    SessionsAccounted (s.listOn o sessions) [] := by
  rw [List.find?_eq_head?_dropWhile_not] at hmem
  rw [SessionService.listOn]
  cases hrest : sessions.dropWhile fun session => !session.isExpired o s.now with
  | nil => exact h
  | cons session rest =>
    have hstored := hmem session (by rw [hrest]; rfl)
    exact (h.close hstored).suspend (.listing rest) rfl

theorem publishAll (h : SessionsAccounted s (sessions.map Session.id)) :
    SessionsAccounted (s.publishAll sessions) [] := by
  cases sessions with
  | nil => exact h
  | cons session rest => exact SessionsAccounted.suspend (.cleaning rest) (SessionsAccounted.publish h) rfl

end SessionsAccounted

/-! ### Runs of the service -/

variable {o} {s s' : SessionService} {history : List (Move SessionService ClosingAction)} {now : Nat}

/-- A suspended path that goes on to a stored session keeps the account. -/
theorem SessionsAccounted.resume {task : SessionTask} (h : SessionsAccounted s task.owed) (hfound : task.found = true)
    (hstored : ∀ session, task.goesOnTo o s.now = some session → session.id ∈ s.stored) :
    SessionsAccounted (task.resume o s) [] := by
  cases task with
  | loggingOut session => exact h.publish
  | revoking session found stage rest =>
    cases stage with
    | publishing => exact SessionsAccounted.suspend (.revoking session found .notifying rest) h hfound
    | notifying =>
      have haudited : SessionsAccounted { s with revoked := s.revoked ++ [(session.id, found)] } [] := by
        refine ⟨h.ids, h.tokens, h.count, h.found, ?_⟩
        intro entry hentry
        rcases List.mem_append.1 hentry with hentry | hentry
        · exact h.revoked entry hentry
        · rw [List.mem_singleton.1 hentry]
          exact hfound
      exact haudited.suspend (.revoking session found .auditing rest) hfound
    | auditing => exact h.revokeAll hstored
  | listing rest => exact h.listOn o hstored
  | cleaning rest => exact h.publishAll

theorem SessionsAccounted.logout {session : Session} {tokenHash : Str} (h : SessionsAccounted s [])
    (hfind : s.sessions.find? (·.tokenHash = tokenHash) = some session) :
    SessionsAccounted
      { s with
        sessions := s.sessions.filter (·.tokenHash ≠ tokenHash)
        tasks := .loggingOut session :: s.tasks } [] := by
  have hdeleted : SessionsAccounted { s with sessions := s.sessions.filter (·.tokenHash ≠ tokenHash) }
      [session.id] := by
    refine ⟨h.ids, h.tokens.sublist (List.filter_sublist.map _), ?_, h.found, h.revoked⟩
    intro id
    have hcount := h.count id
    have hlogout := count_logout h.tokens hfind id
    rw [List.count_nil] at hcount
    show s.published.count id + s.owed.count id +
      ((s.sessions.filter (·.tokenHash ≠ tokenHash)).map Session.id).count id + _ = s.ids.count id
    rw [SessionService.stored] at hcount
    omega
  exact hdeleted.suspend (.loggingOut session) rfl

theorem SessionsAccounted.login {userId tokenHash id : Str} (h : SessionsAccounted s []) (hid : id ∉ s.ids)
    (htoken : tokenHash ∉ s.sessions.map Session.tokenHash) :
    SessionsAccounted { s with sessions := s.sessions ++ [⟨id, tokenHash, userId, s.now, s.now⟩], ids := id :: s.ids }
      [] := by
  refine ⟨List.nodup_cons.2 ⟨hid, h.ids⟩, ?_, ?_, h.found, h.revoked⟩
  · rw [List.map_append, List.map_singleton, ← List.concat_eq_append]
    exact h.tokens.concat htoken
  · intro id'
    have hcount := h.count id'
    show s.published.count id' + s.owed.count id' +
      ((s.sessions ++ [(⟨id, tokenHash, userId, s.now, s.now⟩ : Session)]).map Session.id).count id' + _ =
        (id :: s.ids).count id'
    rw [List.map_append, List.map_singleton, List.count_append, List.count_singleton, List.count_cons]
    rw [SessionService.stored] at hcount
    dsimp only
    omega

theorem SessionsAccounted.cleanup (o : SessionOptions) (h : SessionsAccounted s []) :
    SessionsAccounted ({ s with sessions := cleanupSessions o s.sessions s.now }.publishAll
      (s.sessions.filter fun session => session.id ∉ (cleanupSessions o s.sessions s.now).map Session.id)) [] := by
  have hsub : (cleanupSessions o s.sessions s.now).Sublist s.sessions := cleanupSessions_sublist _ _
  apply SessionsAccounted.publishAll
  refine ⟨h.ids, h.tokens.sublist (hsub.map _), ?_, h.found, h.revoked⟩
  intro id
  have hcount := h.count id
  have hcleanup := count_cleanup hsub h.stored_nodup id
  rw [List.count_nil] at hcount
  show s.published.count id + s.owed.count id + ((cleanupSessions o s.sessions s.now).map Session.id).count id + _ =
    s.ids.count id
  rw [SessionService.stored] at hcount
  omega

/-- One step keeps the account, when it goes on to a stored session. -/
theorem SessionsAccounted.step {a : ClosingAction} (h : SessionsAccounted s []) (hg : GoesOnToStored o s a)
    (hst : closingStep o s a = some s') : SessionsAccounted s' [] := by
  cases a with
  | tick ms =>
    obtain rfl := Option.some.inj hst
    exact ⟨h.ids, h.tokens, h.count, h.found, h.revoked⟩
  | login userId tokenHash id =>
    rw [closingStep] at hst
    split at hst
    · cases hst
    next hnew =>
      obtain rfl := Option.some.inj hst
      push Not at hnew
      exact h.login hnew.1 hnew.2
  | logout tokenHash =>
    rw [closingStep] at hst
    split at hst
    · obtain rfl := Option.some.inj hst
      exact h
    next session hfind =>
      obtain rfl := Option.some.inj hst
      exact h.logout hfind
  | revoke id =>
    rw [closingStep] at hst
    split at hst
    · obtain rfl := Option.some.inj hst
      exact h
    next session hfind =>
      obtain rfl := Option.some.inj hst
      apply h.revokeAll
      intro session' hsession
      obtain rfl := Option.some.inj hsession
      exact List.mem_map_of_mem (mem_of_sessionById hfind).1
  | revokeUser userId except =>
    obtain rfl := Option.some.inj hst
    apply h.revokeAll
    intro session hsession
    exact List.mem_map_of_mem (List.mem_of_mem_filter (List.mem_of_head? hsession))
  | list =>
    obtain rfl := Option.some.inj hst
    apply h.listOn
    intro session hsession
    exact List.mem_map_of_mem (List.mem_of_find?_eq_some hsession)
  | request tokenHash active =>
    rw [closingStep] at hst
    split at hst
    · obtain rfl := Option.some.inj hst
      exact h
    next session hfind =>
      split at hst
      · obtain rfl := Option.some.inj hst
        exact h.close (List.mem_map_of_mem (List.mem_of_find?_eq_some hfind))
      · split at hst
        · obtain rfl := Option.some.inj hst
          have hids : (updateLastActivity s.sessions tokenHash s.now).map Session.id = s.sessions.map Session.id :=
            updateLastActivity_map Session.id (fun _ _ => rfl) _ _ _
          have htokens : (updateLastActivity s.sessions tokenHash s.now).map Session.tokenHash =
              s.sessions.map Session.tokenHash := updateLastActivity_map Session.tokenHash (fun _ _ => rfl) _ _ _
          refine ⟨h.ids, by rw [htokens]; exact h.tokens, ?_, h.found, h.revoked⟩
          intro id
          rw [SessionService.stored, hids]
          exact h.count id
        · obtain rfl := Option.some.inj hst
          exact h
  | consumeTicket id =>
    rw [closingStep] at hst
    split at hst
    · obtain rfl := Option.some.inj hst
      exact h
    next session hfind =>
      split at hst
      · obtain rfl := Option.some.inj hst
        exact h.close (List.mem_map_of_mem (mem_of_sessionById hfind).1)
      · obtain rfl := Option.some.inj hst
        exact h
  | cleanup =>
    obtain rfl := Option.some.inj hst
    exact h.cleanup o
  | resume i =>
    rw [closingStep] at hst
    split at hst
    · cases hst
    next task htask =>
      obtain rfl := Option.some.inj hst
      obtain ⟨htaken, hfound⟩ := h.take htask
      exact htaken.resume hfound (hg task htask)

private theorem work_eraseIdx {i : Nat} {task : SessionTask} (h : s.tasks[i]? = some task) :
    s.work = ({ s with tasks := s.tasks.eraseIdx i } : SessionService).work + task.work := by
  obtain ⟨hlt, rfl⟩ := List.getElem?_eq_some_iff.1 h
  have hperm : (s.tasks[i] :: s.tasks.eraseIdx i).Perm s.tasks := List.getElem_cons_eraseIdx_perm hlt
  have hsum := (hperm.map SessionTask.work).sum_eq
  rw [List.map_cons, List.sum_cons] at hsum
  show (s.tasks.map SessionTask.work).sum = ((s.tasks.eraseIdx i).map SessionTask.work).sum + _
  omega

/-- A path that goes on has less left to do. -/
private theorem work_resume (task : SessionTask) (s : SessionService) :
    (task.resume o s).work < s.work + task.work := by
  have hsuspend : ∀ (task : SessionTask) (s : SessionService),
      ({ s with tasks := task :: s.tasks } : SessionService).work = task.work + s.work := fun _ _ => rfl
  cases task with
  | loggingOut session => exact Nat.lt_succ_self _
  | revoking session found stage rest =>
    cases stage with
    | publishing =>
      rw [SessionTask.resume, hsuspend]
      simp only [SessionTask.work]
      omega
    | notifying =>
      show 3 * rest.length + 1 + s.work < s.work + (3 * rest.length + 2)
      omega
    | auditing =>
      cases rest with
      | nil => exact Nat.lt_succ_self _
      | cons next rest =>
        show 3 * rest.length + 3 + s.work < s.work + (3 * (rest.length + 1) + 1)
        omega
  | listing rest =>
    rw [SessionTask.resume, SessionService.listOn]
    cases hrest : rest.dropWhile fun session => !session.isExpired o s.now with
    | nil => exact Nat.lt_add_of_pos_right (Nat.succ_pos _)
    | cons next later =>
      have hlen : (next :: later).length ≤ rest.length := by
        rw [← hrest]
        exact (List.dropWhile_sublist _).length_le
      rw [List.length_cons] at hlen
      show later.length + 1 + s.work < s.work + (rest.length + 1)
      omega
  | cleaning rest =>
    cases rest with
    | nil => exact Nat.lt_succ_self _
    | cons next rest =>
      show rest.length + 1 + s.work < s.work + (rest.length + 1 + 1)
      omega

/-- What the account says. -/
private theorem SessionsAccounted.closedOnce (h : SessionsAccounted s []) : ClosedOnce o s := by
  have hended : ∀ id ∈ s.ids, id ∉ s.stored → s.published.count id + s.owed.count id = 1 := by
    intro id hid hnot
    have hcount := h.count id
    have hone : s.ids.count id = 1 := List.count_eq_one_of_mem h.ids hid
    have hstored : s.stored.count id = 0 := List.count_eq_zero.2 hnot
    rw [List.count_nil] at hcount
    omega
  refine ⟨?_, hended, ?_, ?_, h.revoked⟩
  · intro id hid
    have hcount := h.count id
    have hone := List.nodup_iff_count_le_one.1 h.ids id
    have hstored : 0 < s.stored.count id := List.count_pos_iff.2 hid
    omega
  · intro htasks id hid hnot
    have howed : s.owed = [] := by
      rw [SessionService.owed, htasks]
      rfl
    have hone := hended id hid hnot
    rw [howed, List.count_nil] at hone
    omega
  · intro i hi
    have htask : s.tasks[i]? = some s.tasks[i] := List.getElem?_eq_getElem hi
    refine ⟨s.tasks[i].resume o { s with tasks := s.tasks.eraseIdx i }, by rw [closingStep, htask], ?_⟩
    have hwork := work_eraseIdx htask
    have hless := work_resume (o := o) s.tasks[i] { s with tasks := s.tasks.eraseIdx i }
    omega

private theorem accounted_start (now : Nat) : SessionsAccounted (SessionService.start now) [] where
  ids := List.nodup_nil
  tokens := List.nodup_nil
  count _ := rfl
  found _ h := nomatch h
  revoked _ h := nomatch h

/-- In every run whose loops go on to sessions that are still stored, every session that ends publishes `session:closed`
exactly once, and only revocations that ended their session are audited. -/
theorem sessions_closed_once
    (h : GuardedRun (closingStep o) (GoesOnToStored o) (SessionService.start now) history s) : ClosedOnce o s := by
  have haccounted : SessionsAccounted s [] :=
    h.invariant (I := fun s => SessionsAccounted s []) (accounted_start now) fun s a s' hs hg hst => hs.step hg hst
  exact haccounted.closedOnce

/-- Two sessions of a user, which are revoked together; `meanwhile` happens after the first was. -/
def revokedTogether (meanwhile : List ClosingAction) : List ClosingAction :=
  [.login ['u'] ['t'] ['a'], .login ['u'] ['v'] ['b'], .revokeUser ['u'] none] ++ meanwhile ++
    List.replicate 6 (.resume 0)

/-- `GoesOnToStored`, as a test. -/
def goesOnToStored (o : SessionOptions) (s : SessionService) : ClosingAction → Bool
  | .resume i => s.tasks[i]?.all fun task => (task.goesOnTo o s.now).all fun session => session.id ∈ s.stored
  | _ => true

/-- Both are closed once. -/
theorem sessions_closed_once_together : ∃ history s,
    GuardedRun (closingStep {}) (GoesOnToStored {}) (SessionService.start 0) history s ∧
      s.published = [['a'], ['b']] ∧ s.revoked.length = 2 ∧ s.tasks = [] ∧ ClosedOnce {} s := by
  have hexec : (exec (closingStep {}) (SessionService.start 0) (revokedTogether [])).any (fun r =>
      r.1.all (fun m => goesOnToStored {} m.pre m.act) &&
        (r.2.published = [['a'], ['b']] && (r.2.revoked.length = 2 && r.2.tasks = []))) = true := by decide +kernel
  obtain ⟨⟨history, s⟩, hexec, hboth⟩ := (Option.any_eq_true _ _).1 hexec
  simp only [Bool.and_eq_true, List.all_eq_true, decide_eq_true_eq] at hboth
  obtain ⟨hguard, hpublished, hrevoked, htasks⟩ := hboth
  have hrun : GuardedRun (closingStep {}) (GoesOnToStored {}) (SessionService.start 0) history s := by
    refine (run_of_exec hexec).restrict fun m hm => ?_
    have htest := hguard m hm
    cases hact : m.act with
    | resume i =>
      intro task htask session hsession
      rw [hact, goesOnToStored, htask, Option.all_some, hsession, Option.all_some] at htest
      simpa using htest
    | _ => trivial
  exact ⟨history, s, hrun, hpublished, hrevoked, htasks, sessions_closed_once hrun⟩

/-- The second session signs out while the first is revoked: it is closed again, and its revocation audited. -/
theorem session_closed_twice : ∃ history s,
    Run (closingStep {}) (SessionService.start 0) history s ∧ s.tasks = [] ∧ s.published.count ['b'] = 2 ∧
      (['b'], false) ∈ s.revoked ∧ ¬ ClosedOnce {} s := by
  have hexec : (exec (closingStep {}) (SessionService.start 0) (revokedTogether [.logout ['v'], .resume 0])).any
      (fun r => r.2.tasks = [] && (r.2.published.count ['b'] = 2 && decide ((['b'], false) ∈ r.2.revoked))) =
      true := by decide +kernel
  obtain ⟨⟨history, s⟩, hexec, hboth⟩ := (Option.any_eq_true _ _).1 hexec
  simp only [Bool.and_eq_true, decide_eq_true_eq] at hboth
  obtain ⟨htasks, htwice, hrevoked⟩ := hboth
  refine ⟨history, s, run_of_exec hexec, htasks, htwice, hrevoked, ?_⟩
  intro hclosed
  exact absurd (hclosed.revoked _ hrevoked) (by decide)

end CliServer
