import CliServer.Users.Tickets

/-!
# The lifetime of sessions

A session expires when it was idle for `session_timeout_ms`, or `max_session_lifetime_ms` after it was created.
Requests and the input of shells are activity; tickets, re-checks of sockets and listings are not.  An operation of
`sessionStep` reads the clock once, and the clock never goes back.  `Times` is what the operations so far say about a
session.
-/

namespace CliServer

open Transition

/-- `unauthorized("session expired")`. -/
def sessionExpired : UsersApiError := ⟨401, "session expired".toList⟩

/-- `API_TOKEN_PREFIX`. -/
def apiTokenPrefix : Str := "qcli_pat_".toList

/-- `SHELL_PERMISSION`. -/
def shellPermission : Str := "shell:execute".toList

/-- `update_last_activity`. -/
def updateLastActivity (sessions : List Session) (tokenHash : Str) (now : Nat) : List Session :=
  sessions.map fun session =>
    if session.tokenHash = tokenHash then { session with lastActivity := now } else session

/-- The stored session a context is for. -/
def SocketContext.stored (ctx : SocketContext) : Option Str :=
  if ctx.auth.external || ctx.auth.apiToken.isSome then none else ctx.sessionId

variable (t : CaseTable) (o : SessionOptions) (hash : Str → Str)

/-- `authenticate_api_token`, with the record that its hash finds. -/
def authenticateApiToken (s : AuthState) (record : Option ApiToken) : Except UsersApiError SocketContext :=
  match record with
  | none => .error invalidToken
  | some record => (contextForApiToken t s.stores record s.now).map fun ctx => ⟨ctx, none⟩

/-- `authenticate_token`. -/
def authenticateToken (s : AuthState) (token : Str) (record : Option ApiToken) :
    Except UsersApiError SocketContext × AuthState :=
  if apiTokenPrefix.isPrefixOf token then (authenticateApiToken t s record, s)
  else match s.sessions.find? (·.tokenHash = hash token) with
    | none => (.error invalidToken, s)
    | some session =>
      if session.isExpired o s.now then
        (.error sessionExpired, { s with sessions := deleteSessionById s.sessions session.id })
      else match contextForSession t s.stores session with
        | .error e => (.error e, s)
        | .ok ctx => (.ok ctx, { s with sessions := updateLastActivity s.sessions (hash token) s.now })

/-- `is_api_token_active`. -/
def isApiTokenActive (s : AuthState) (tokenId userId : Str) : Bool :=
  match s.stores.tokens.find? (·.id = tokenId) with
  | none => false
  | some record =>
    if record.userId ≠ userId then false else (contextForApiToken t s.stores record s.now).toOption.isSome

/-- `is_context_active`. -/
def isContextActive (s : AuthState) (ctx : SocketContext) : Bool :=
  if ctx.auth.external then true
  else match ctx.auth.apiToken with
    | some token => isApiTokenActive t s token.id ctx.auth.user.id
    | none =>
      match ctx.sessionId.bind (sessionById s.sessions) with
      | none => false
      | some session =>
        if session.userId ≠ ctx.auth.user.id ∨ session.isExpired o s.now then false
        else match s.stores.getUser t ctx.auth.user.id with
          | none => false
          | some user => user.id = ctx.auth.user.id && !user.disabled

/-- What the re-check of a shell answers: `True`, `False` or `PERMISSION_REMOVED`. -/
inductive ShellStanding where
  | active
  | ended
  | permissionRemoved
  deriving DecidableEq, Repr

/-- A re-check that has a current context to look at; `mustChange` is its user's `must_change_password`. -/
def ShellStanding.ofContext (mustChange : Bool) : Option AuthContext → ShellStanding
  | none => .ended
  | some fresh =>
    if mustChange then .ended else if fresh.can t shellPermission then .active else .permissionRemoved

/-- `UsersShellAccess.is_active`; `adapter` is what the external adapter answers, and `mustChange` the
`must_change_password` of the user found. -/
def isActive (s : AuthState) (principal : SocketContext) (adapter : Option AuthContext) (mustChange : Bool) :
    ShellStanding :=
  if principal.auth.external then .ofContext t mustChange adapter
  else match principal.auth.apiToken with
    | some token =>
      match s.stores.tokens.find? (·.id = token.id) with
      | none => .ended
      | some record =>
        if record.userId ≠ principal.auth.user.id then .ended
        else .ofContext t mustChange (contextForApiToken t s.stores record s.now).toOption
    | none =>
      match principal.sessionId.bind (sessionById s.sessions) with
      | none => .ended
      | some session =>
        if session.userId ≠ principal.auth.user.id ∨ session.isExpired o s.now then .ended
        else match s.stores.getUser t principal.auth.user.id with
          | none => .ended
          | some user =>
            if user.id ≠ principal.auth.user.id ∨ user.disabled ∨ mustChange then .ended
            else if hasPermission t (s.stores.userPermissions t user) shellPermission then .active
            else .permissionRemoved

/-- `UsersShellAccess.touch`. -/
def touch (s : AuthState) (principal : SocketContext) : AuthState :=
  if principal.auth.external then s
  else match principal.sessionId.bind (sessionById s.sessions) with
    | none => s
    | some session =>
      if session.tokenHash = [] then s
      else { s with sessions := updateLastActivity s.sessions session.tokenHash s.now }

/-- `list_sessions`: the sessions it lists, and those it leaves. -/
def listSessions (sessions : List Session) (now : Nat) : List Session × List Session :=
  (sessions.filter fun session => !session.isExpired o now,
    sessions.foldl (fun left session =>
      if session.isExpired o now then deleteSessionById left session.id else left) sessions)

/-- An operation; those that fail before they look at a session are left out. -/
inductive SessionOp where
  /-- A `login` that creates the session `id` with the bearer token `token`. -/
  | login (userId token id : Str)
  /-- `authenticate_token`, with the record that `get_token_by_hash` finds for an API token. -/
  | authenticate (token : Str) (record : Option ApiToken)
  | issueTicket (ctx : SocketContext) (ticket : Str)
  | consumeTicket (ticket : Str)
  /-- The re-check of a shell, with the answers `isActive` takes; `stdin`: there was input to report. -/
  | recheckShell (principal : SocketContext) (adapter : Option AuthContext) (mustChange stdin : Bool)
  /-- The re-check of an events or logs socket. -/
  | recheckSocket (ctx : SocketContext)
  | cleanup
  | list
  | logout (token : Str)
  | revoke (session : Session)
  /-- Any write of users, groups and API tokens. -/
  | write (stores : Stores)

/-- The stores and tickets, the ids of the sessions created so far, and the contexts that tickets were consumed for. -/
structure SessionsState where
  auth : AuthState
  ids : List Str
  opened : List SocketContext

/-- No session was created yet. -/
def SessionsState.start (now : Nat) (stores : Stores) : SessionsState := ⟨.start now stores [], [], []⟩

/-- The operation, at the clock's reading in `s`.  The id and the token of a new session and a new ticket are drawn at
random, and have not been drawn before. -/
def SessionOp.run (s : SessionsState) : SessionOp → Option SessionsState
  | .login userId token id =>
    if id ∈ s.ids ∨ hash token ∈ s.auth.sessions.map Session.tokenHash then none
    else some
      { s with
        auth := { s.auth with sessions := s.auth.sessions ++ [⟨id, hash token, userId, s.auth.now, s.auth.now⟩] }
        ids := id :: s.ids }
  | .authenticate token record => some { s with auth := (authenticateToken t o hash s.auth token record).2 }
  | .issueTicket ctx ticket =>
    if hash ticket ∈ s.auth.drawn then none else some { s with auth := CliServer.issueTicket o hash s.auth ctx ticket }
  | .consumeTicket ticket =>
    let (ctx, auth) := CliServer.consumeTicket t o hash s.auth ticket
    some { s with auth := auth, opened := ctx.toList ++ s.opened }
  | .recheckShell principal adapter mustChange stdin =>
    if principal ∉ s.opened then none
    else if isActive t o s.auth principal adapter mustChange = .active ∧ stdin then
      some { s with auth := touch s.auth principal }
    else some s
  | .recheckSocket _ => some s
  | .cleanup =>
    some { s with auth := { s.auth with sessions := cleanupSessions o s.auth.sessions s.auth.now }.dropExpired }
  | .list => some { s with auth := { s.auth with sessions := (listSessions o s.auth.sessions s.auth.now).2 } }
  | .logout token =>
    match s.auth.sessions.find? (·.tokenHash = hash token) with
    | none => some s
    | some session =>
      let sessions := s.auth.sessions.filter (·.tokenHash ≠ hash token)
      some { s with auth := { s.auth with sessions := sessions }.dropTickets session.id }
  | .revoke session =>
    let sessions := deleteSessionById s.auth.sessions session.id
    some { s with auth := { s.auth with sessions := sessions }.dropTickets session.id }
  | .write stores => some { s with auth := { s.auth with stores := stores } }

/-- The clock reads `now`. -/
def SessionsState.at (s : SessionsState) (now : Nat) : SessionsState := { s with auth := { s.auth with now := now } }

/-- One operation, with its reading of the clock. -/
def sessionStep (s : SessionsState) (a : Nat × SessionOp) : Option SessionsState :=
  if a.1 < s.auth.now then none else a.2.run t o hash (s.at a.1)

/-- The operation accepts this session. -/
def SessionOp.accepts (s : AuthState) (id : Str) : SessionOp → Bool
  | .authenticate token record =>
    (authenticateToken t o hash s token record).1.toOption.bind SocketContext.stored = some id
  | .consumeTicket ticket => (CliServer.consumeTicket t o hash s ticket).1.bind SocketContext.stored = some id
  | .recheckShell principal adapter mustChange _ =>
    isActive t o s principal adapter mustChange = .active && principal.stored = some id
  | .recheckSocket ctx => isContextActive t o s ctx && ctx.stored = some id
  | .list => (listSessions o s.sessions s.now).1.any (·.id = id)
  | _ => false

/-- Activity of this session, when the operation accepts it: a request, or the input of a shell. -/
def SessionOp.isActivity : SessionOp → Bool
  | .authenticate .. => true
  | .recheckShell _ _ _ stdin => stdin
  | _ => false

/-- A move and its clock reading. -/
abbrev SessionMove := Move SessionsState (Nat × SessionOp)

/-- The move accepts this session. -/
def Accepts (id : Str) (m : SessionMove) : Bool := m.act.2.accepts t o hash (m.pre.at m.act.1).auth id

/-- When a session was created, and its last accepted activity, or its creation. -/
structure Times where
  created : Nat
  last : Nat
  deriving DecidableEq, Repr

/-- What a move says about the times of a session. -/
def timesMove (id : Str) (times : Option Times) (m : SessionMove) : Option Times :=
  match m.act.2 with
  | .login _ _ id' => if id' = id then some ⟨m.act.1, m.act.1⟩ else times
  | op => if op.isActivity && Accepts t o hash id m then times.map ({ · with last := m.act.1 }) else times

/-- The times of a session, from the operations so far. -/
def times (id : Str) (history : List SessionMove) : Option Times := history.foldl (timesMove t o hash id) none

/-- `min(lastActivity + idle timeout, createdAt + max lifetime)`. -/
def Times.expired (times : Times) (now : Nat) : Prop :=
  times.created + o.maxSessionLifetime < now ∨ times.last + o.sessionTimeout < now

variable {t o hash} {sessions : List Session} {now : Nat}

/-! ### Sweeps -/

private theorem deleteSessionById_eq (h : (sessions.map Session.id).Nodup) (id : Str) :
    deleteSessionById sessions id = sessions.filter (·.id ≠ id) := by
  induction sessions with
  | nil => rfl
  | cons session sessions ih =>
    rw [List.map_cons, List.nodup_cons] at h
    by_cases hid : session.id = id
    · have hrest : sessions.filter (·.id ≠ id) = sessions := by
        rw [List.filter_eq_self]
        intro other hother
        have hne : other.id ≠ id := fun heq => h.1 (List.mem_map.2 ⟨other, hother, heq.trans hid.symm⟩)
        simpa using hne
      rw [deleteSessionById, List.eraseP_cons_of_pos (by simpa using hid), List.filter_cons_of_neg (by simpa using hid),
        hrest]
    · have ih := ih h.2
      rw [deleteSessionById] at ih ⊢
      rw [List.eraseP_cons_of_neg (by simpa using hid), List.filter_cons_of_pos (by simpa using hid), ih]

/-- A loop that deletes some sessions by their id. -/
private theorem foldl_deleteSessionById (p : Session → Bool) (l : List Session) {left : List Session}
    (h : (left.map Session.id).Nodup) :
    l.foldl (fun left session => if p session then deleteSessionById left session.id else left) left =
      left.filter fun session => !l.any fun other => p other && other.id = session.id := by
  induction l generalizing left with
  | nil => simp
  | cons other l ih =>
    rw [List.foldl_cons]
    by_cases hp : p other = true
    · rw [if_pos hp, deleteSessionById_eq h, ih (h.sublist (List.filter_sublist.map _)), List.filter_filter]
      apply List.filter_congr
      intro session _
      simp only [List.any_cons, hp, Bool.true_and, Bool.not_or, ne_eq, decide_not]
      rw [Bool.and_comm, decide_eq_decide.2 (eq_comm (a := session.id) (b := other.id))]
    · rw [if_neg hp, ih h]
      apply List.filter_congr
      intro session _
      simp [List.any_cons, hp]

/-- A loop over the sessions that deletes some of them. -/
private theorem foldl_deleteSessionById_self (p : Session → Bool) (h : (sessions.map Session.id).Nodup) :
    sessions.foldl (fun left session => if p session then deleteSessionById left session.id else left) sessions =
      sessions.filter fun session => !p session := by
  rw [foldl_deleteSessionById p sessions h]
  apply List.filter_congr
  intro session hsession
  congr 1
  rw [Bool.eq_iff_iff, List.any_eq_true]
  constructor
  · rintro ⟨other, hother, hp⟩
    obtain ⟨hp, hid⟩ : p other = true ∧ other.id = session.id := by simpa using hp
    exact List.inj_on_of_nodup_map h hother hsession hid ▸ hp
  · intro hp
    exact ⟨session, hsession, by simp [hp]⟩

/-- The sweep of idle sessions and that of the expired ones remove the expired sessions. -/
private theorem cleanupSessions_eq (h : (sessions.map Session.id).Nodup) :
    cleanupSessions o sessions now = sessions.filter fun session => !session.isExpired o now := by
  unfold cleanupSessions
  rw [foldl_deleteSessionById_self (fun session => session.isExpired o now) (h.sublist (List.filter_sublist.map _)),
    List.filter_filter]
  apply List.filter_congr
  intro session _
  -- An idle session is expired.
  have hidle : session.lastActivity < now - o.sessionTimeout → session.isExpired o now = true := by
    intro hlt
    have hle := min_le_left (session.lastActivity + o.sessionTimeout) (session.createdAt + o.maxSessionLifetime)
    have hexpires : session.expiresAt o < now := lt_of_le_of_lt hle (by omega)
    exact decide_eq_true hexpires
  by_cases hlt : session.lastActivity < now - o.sessionTimeout
  · simp [hidle hlt]
  · simp [hlt]

/-! ### Accepting a session -/

variable {s : AuthState} {id : Str}

/-- The session is stored and not expired. -/
def LiveSession (o : SessionOptions) (s : AuthState) (id : Str) : Prop :=
  ∃ session ∈ s.sessions, session.id = id ∧ session.isExpired o s.now = false

/-- A ticket with a context holds that of an adapter identity. -/
def AdapterTickets (s : AuthState) : Prop :=
  ∀ e ∈ s.tickets, ∀ ctx, e.2.externalCtx = some ctx → ctx.auth.external = true

private theorem stored_contextForSession {session : Session} {ctx : SocketContext}
    (h : contextForSession t s.stores session = .ok ctx) :
    ctx.stored = some session.id ∧ ctx.auth.apiToken = none := by
  unfold contextForSession at h
  split at h
  · cases h
  · split at h
    · cases h
    · obtain rfl := Except.ok.inj h
      exact ⟨rfl, rfl⟩

/-- The context of an API token is for no session. -/
private theorem stored_authenticateApiToken {record : Option ApiToken} {ctx : SocketContext}
    (h : authenticateApiToken t s record = .ok ctx) : ctx.stored = none := by
  unfold authenticateApiToken at h
  split at h
  · cases h
  · rename_i record
    cases hctx : contextForApiToken t s.stores record s.now with
    | error e =>
      rw [hctx] at h
      cases h
    | ok auth =>
      rw [hctx] at h
      obtain rfl := Except.ok.inj h
      unfold SocketContext.stored
      split <;> rfl

/-- `authenticate_token` extends the session with the token's hash, deletes it when it is expired, or leaves all. -/
private theorem authenticateToken_cases (s : AuthState) (token : Str) (record : Option ApiToken) :
    (∃ r, authenticateToken t o hash s token record = (r, s) ∧ ∀ ctx, r = .ok ctx → ctx.stored = none) ∨
    (∃ session : Session, authenticateToken t o hash s token record =
      (.error sessionExpired, { s with sessions := deleteSessionById s.sessions session.id })) ∨
    ∃ session ∈ s.sessions, ∃ ctx, session.isExpired o s.now = false ∧ ctx.stored = some session.id ∧
      authenticateToken t o hash s token record =
        (.ok ctx, { s with sessions := updateLastActivity s.sessions session.tokenHash s.now }) := by
  unfold authenticateToken
  split
  · exact .inl ⟨_, rfl, fun ctx hctx => stored_authenticateApiToken hctx⟩
  · split
    · exact .inl ⟨_, rfl, fun ctx hctx => by cases hctx⟩
    · rename_i session hfind
      have hmem := List.mem_of_find?_eq_some hfind
      have hhash : session.tokenHash = hash token := by simpa using List.find?_some hfind
      split
      · exact .inr (.inl ⟨session, rfl⟩)
      · rename_i hlive
        split
        · exact .inl ⟨_, rfl, fun ctx hctx => by cases hctx⟩
        · rename_i ctx hctx
          refine .inr (.inr ⟨session, hmem, ctx, Bool.eq_false_iff.2 hlive, (stored_contextForSession hctx).1, ?_⟩)
          rw [hhash]

/-- What a consumed ticket gives: an adapter identity's context, an API token's, or that of a live session. -/
private theorem redeem_gives {entry : Ticket} {ctx : SocketContext} (h : (redeem t o s entry).1 = some ctx) :
    entry.externalCtx = some ctx ∨ ctx.sessionId = none ∨
      ctx.auth.apiToken = none ∧ ∀ id, ctx.stored = some id → LiveSession o s id := by
  unfold redeem at h
  split at h
  · rename_i hexternal
    exact .inl (hexternal.trans h)
  · split at h
    · split at h
      · cases h
      · split at h
        · cases h
        · obtain ⟨auth, -, rfl⟩ := Option.map_eq_some_iff.1 h
          exact .inr (.inl rfl)
    · split at h
      · cases h
      · rename_i session hfind
        split at h
        · cases h
        · split at h
          · cases h
          · rename_i hexpired
            obtain ⟨sessionId, -, hfound⟩ := Option.bind_eq_some_iff.1 hfind
            obtain ⟨hstored, htoken⟩ := stored_contextForSession (ok_of_toOption h)
            refine .inr (.inr ⟨htoken, fun id hid => ?_⟩)
            obtain rfl : session.id = id := Option.some.inj (hstored.symm.trans hid)
            exact ⟨session, (mem_of_sessionById hfound).1, rfl, Bool.eq_false_iff.2 hexpired⟩

private theorem stored_eq_none_of_sessionId {ctx : SocketContext} (h : ctx.sessionId = none) : ctx.stored = none := by
  unfold SocketContext.stored
  split
  · rfl
  · exact h

/-- What `consume_ticket` gives, in the same cases. -/
private theorem consumeTicket_gives (htickets : AdapterTickets s) {ticket : Str} {ctx : SocketContext}
    (h : (consumeTicket t o hash s ticket).1 = some ctx) :
    ctx.auth.external = true ∨ ctx.sessionId = none ∨
      ctx.auth.apiToken = none ∧ ∀ id, ctx.stored = some id → LiveSession o s id := by
  rcases consumeTicket_cases s ticket with heq | ⟨entry, hmem, heq | ⟨-, heq⟩⟩
  · rw [heq] at h
    cases h
  · rw [heq] at h
    cases h
  · rw [heq] at h
    rcases redeem_gives h with hexternal | hrest
    · exact .inl (htickets _ hmem ctx hexternal)
    · exact .inr hrest

/-- A stored session is that of a context which is neither an adapter identity's nor an API token's. -/
private theorem of_stored {ctx : SocketContext} (h : ctx.stored = some id) :
    ctx.auth.external = false ∧ ctx.auth.apiToken = none ∧ ctx.sessionId = some id := by
  unfold SocketContext.stored at h
  split at h
  · cases h
  · rename_i hno
    obtain ⟨hexternal, htoken⟩ : ctx.auth.external = false ∧ ctx.auth.apiToken = none := by simpa using hno
    exact ⟨hexternal, htoken, h⟩

private theorem isContextActive_live {ctx : SocketContext} (h : isContextActive t o s ctx = true)
    (hid : ctx.stored = some id) :
    LiveSession o s id := by
  obtain ⟨hexternal, htoken, hsession⟩ := of_stored hid
  unfold isContextActive at h
  simp only [hexternal, htoken, hsession, Bool.false_eq_true, if_false, Option.bind_some] at h
  split at h
  · cases h
  · rename_i session hfind
    obtain ⟨hmem, rfl⟩ := mem_of_sessionById hfind
    split at h
    · cases h
    · rename_i hlive
      exact ⟨session, hmem, rfl, Bool.eq_false_iff.2 fun hexpired => hlive (.inr hexpired)⟩

private theorem isActive_live {principal : SocketContext} {adapter : Option AuthContext} {mustChange : Bool}
    (h : isActive t o s principal adapter mustChange = .active) (hid : principal.stored = some id) :
    ∃ session ∈ s.sessions, sessionById s.sessions id = some session ∧ session.id = id ∧
      session.isExpired o s.now = false := by
  obtain ⟨hexternal, htoken, hsession⟩ := of_stored hid
  unfold isActive at h
  simp only [hexternal, htoken, hsession, Bool.false_eq_true, if_false, Option.bind_some] at h
  split at h
  · cases h
  · rename_i session hfind
    obtain ⟨hmem, hsame⟩ := mem_of_sessionById hfind
    split at h
    · cases h
    · rename_i hlive
      exact ⟨session, hmem, hfind, hsame, Bool.eq_false_iff.2 fun hexpired => hlive (.inr hexpired)⟩

/-- An operation accepts live sessions. -/
private theorem accepts_live (htickets : AdapterTickets s) {op : SessionOp} (h : op.accepts t o hash s id = true) :
    LiveSession o s id := by
  cases op with
  | authenticate token record =>
    obtain ⟨ctx, hctx, hid⟩ := Option.bind_eq_some_iff.1 (of_decide_eq_true h)
    rcases authenticateToken_cases s token record with ⟨r, heq, hnone⟩ | ⟨session, heq⟩ |
      ⟨session, hmem, found, hlive, hstored, heq⟩
    · rw [heq] at hctx
      rw [hnone ctx (ok_of_toOption hctx)] at hid
      cases hid
    · rw [heq] at hctx
      cases hctx
    · rw [heq] at hctx
      obtain rfl : found = ctx := Option.some.inj hctx
      exact ⟨session, hmem, Option.some.inj (hstored.symm.trans hid), hlive⟩
  | consumeTicket ticket =>
    obtain ⟨ctx, hctx, hid⟩ := Option.bind_eq_some_iff.1 (of_decide_eq_true h)
    rcases consumeTicket_gives htickets hctx with hexternal | hnone | ⟨-, hlive⟩
    · rw [(of_stored hid).1] at hexternal
      cases hexternal
    · rw [stored_eq_none_of_sessionId hnone] at hid
      cases hid
    · exact hlive id hid
  | recheckShell principal adapter mustChange stdin =>
    obtain ⟨hactive, hid⟩ : isActive t o s principal adapter mustChange = .active ∧ principal.stored = some id := by
      simpa [SessionOp.accepts] using h
    obtain ⟨session, hmem, -, hsame, hlive⟩ := isActive_live hactive hid
    exact ⟨session, hmem, hsame, hlive⟩
  | recheckSocket ctx =>
    obtain ⟨hactive, hid⟩ : isContextActive t o s ctx = true ∧ ctx.stored = some id := by
      simpa [SessionOp.accepts] using h
    exact isContextActive_live hactive hid
  | list =>
    obtain ⟨session, hlisted, hid⟩ := List.any_eq_true.1 h
    obtain ⟨hmem, hlive⟩ := List.mem_filter.1 hlisted
    exact ⟨session, hmem, of_decide_eq_true hid, by simpa using hlive⟩
  | _ => cases h

/-! ### What an operation does to the sessions -/

/-- A context that `touch` may find a session for is that of a session. -/
def TouchesOwn (ctx : SocketContext) : Prop :=
  ctx.auth.external = true ∨ ctx.sessionId = none ∨ ctx.auth.apiToken = none

private theorem touch_cases (s : AuthState) (principal : SocketContext) :
    touch s principal = s ∨ principal.auth.external = false ∧ ∃ id session, principal.sessionId = some id ∧
      sessionById s.sessions id = some session ∧
      touch s principal = { s with sessions := updateLastActivity s.sessions session.tokenHash s.now } := by
  unfold touch
  split
  · exact .inl rfl
  · rename_i hexternal
    split
    · exact .inl rfl
    · rename_i session hfind
      obtain ⟨id, hid, hfound⟩ := Option.bind_eq_some_iff.1 hfind
      split
      · exact .inl rfl
      · exact .inr ⟨Bool.eq_false_iff.2 hexternal, id, session, hid, hfound, rfl⟩

theorem deleteSessionById_sublist (sessions : List Session) (id : Str) :
    (deleteSessionById sessions id).Sublist sessions := List.eraseP_sublist

private theorem foldl_delete_sublist (p : Session → Bool) (l left : List Session) :
    (l.foldl (fun left session => if p session then deleteSessionById left session.id else left) left).Sublist
    left := by
  induction l generalizing left with
  | nil => exact List.Sublist.refl _
  | cons session l ih =>
    rw [List.foldl_cons]
    split
    · exact (ih _).trans (deleteSessionById_sublist _ _)
    · exact ih _

theorem cleanupSessions_sublist (sessions : List Session) (now : Nat) :
    (cleanupSessions o sessions now).Sublist sessions :=
  (foldl_delete_sublist _ _ _).trans List.filter_sublist

private theorem redeem_sublist (s : AuthState) (entry : Ticket) :
    (redeem t o s entry).2.sessions.Sublist s.sessions := by
  unfold redeem
  split
  · exact List.Sublist.refl _
  · split
    · split
      · exact List.Sublist.refl _
      · split <;> exact List.Sublist.refl _
    · split
      · exact List.Sublist.refl _
      · split
        · exact List.Sublist.refl _
        · split
          · exact deleteSessionById_sublist _ _
          · exact List.Sublist.refl _

private theorem redeem_now (s : AuthState) (entry : Ticket) : (redeem t o s entry).2.now = s.now := by
  unfold redeem
  split
  · rfl
  · split
    · split
      · rfl
      · split <;> rfl
    · split
      · rfl
      · split
        · rfl
        · split <;> rfl

private theorem consumeTicket_now (s : AuthState) (ticket : Str) : (consumeTicket t o hash s ticket).2.now = s.now := by
  rcases consumeTicket_cases s ticket with heq | ⟨entry, -, heq | ⟨-, heq⟩⟩
  · rw [heq]
  · rw [heq]
    rfl
  · rw [heq]
    exact redeem_now _ _

private theorem consumeTicket_sublist (s : AuthState) (ticket : Str) :
    (consumeTicket t o hash s ticket).2.sessions.Sublist s.sessions := by
  rcases consumeTicket_cases s ticket with heq | ⟨entry, -, heq | ⟨-, heq⟩⟩
  · rw [heq]
  · rw [heq]
    exact List.Sublist.refl _
  · rw [heq]
    exact redeem_sublist _ _

/-- What an operation does: it creates a session, extends one it accepts, or only removes sessions. -/
inductive Effect (t : CaseTable) (o : SessionOptions) (hash : Str → Str) (s : SessionsState) (op : SessionOp)
    (s' : SessionsState) : Prop
  | created (userId token id : Str) (hop : op = .login userId token id) (hid : id ∉ s.ids)
      (hhash : hash token ∉ s.auth.sessions.map Session.tokenHash) (hids : s'.ids = id :: s.ids)
      (hsessions : s'.auth.sessions = s.auth.sessions ++ [⟨id, hash token, userId, s.auth.now, s.auth.now⟩])
  | extended (session : Session) (hmem : session ∈ s.auth.sessions) (hactivity : op.isActivity = true)
      (haccepts : op.accepts t o hash s.auth session.id = true) (hids : s'.ids = s.ids)
      (hsessions : s'.auth.sessions = updateLastActivity s.auth.sessions session.tokenHash s.auth.now)
  | removed (hop : ∀ userId token id, op ≠ .login userId token id) (hids : s'.ids = s.ids)
      (hsessions : s'.auth.sessions.Sublist s.auth.sessions)

/-- What holds of the contexts that tickets are, or were consumed for. -/
structure Contexts (s : SessionsState) : Prop where
  tickets : AdapterTickets s.auth
  opened : ∀ ctx ∈ s.opened, TouchesOwn ctx

variable {w w' : SessionsState} {op : SessionOp}

private theorem run_effect (hc : Contexts w) (h : op.run t o hash w = some w') : Effect t o hash w op w' := by
  cases op with
  | login userId token id =>
    simp only [SessionOp.run] at h
    split at h
    · cases h
    · rename_i hnew
      obtain ⟨hid, hhash⟩ := not_or.1 hnew
      obtain rfl := Option.some.inj h
      exact .created userId token id rfl hid hhash rfl rfl
  | authenticate token record =>
    obtain rfl := Option.some.inj h
    rcases authenticateToken_cases w.auth token record with ⟨r, heq, -⟩ | ⟨session, heq⟩ |
      ⟨session, hmem, ctx, -, hstored, heq⟩
    · refine .removed (fun _ _ _ => SessionOp.noConfusion) rfl ?_
      rw [heq]
    · refine .removed (fun _ _ _ => SessionOp.noConfusion) rfl ?_
      rw [heq]
      exact deleteSessionById_sublist _ _
    · refine .extended session hmem rfl ?_ rfl (by rw [heq])
      exact decide_eq_true (by rw [heq]; exact hstored)
  | issueTicket ctx ticket =>
    simp only [SessionOp.run] at h
    split at h
    · cases h
    · obtain rfl := Option.some.inj h
      exact .removed (fun _ _ _ => SessionOp.noConfusion) rfl (List.Sublist.refl _)
  | consumeTicket ticket =>
    obtain rfl := Option.some.inj h
    exact .removed (fun _ _ _ => SessionOp.noConfusion) rfl (consumeTicket_sublist _ _)
  | recheckShell principal adapter mustChange stdin =>
    simp only [SessionOp.run] at h
    split at h
    · cases h
    · rename_i hopened
      have hmem : principal ∈ w.opened := not_not.1 hopened
      split at h
      · rename_i hactive
        obtain ⟨hactive, hstdin⟩ := hactive
        obtain rfl := Option.some.inj h
        rcases touch_cases w.auth principal with heq | ⟨hexternal, id, session, hid, hfind, heq⟩
        · refine .removed (fun _ _ _ => SessionOp.noConfusion) rfl ?_
          rw [heq]
        · have htoken : principal.auth.apiToken = none := by
            rcases hc.opened principal hmem with h | h | h
            · rw [hexternal] at h
              cases h
            · rw [hid] at h
              cases h
            · exact h
          have hstored : principal.stored = some id := by
            unfold SocketContext.stored
            rw [hexternal, htoken, hid]
            rfl
          obtain ⟨hsession, rfl⟩ := mem_of_sessionById hfind
          refine .extended session hsession hstdin ?_ rfl (by rw [heq])
          simp [SessionOp.accepts, hactive, hstored]
      · obtain rfl := Option.some.inj h
        exact .removed (fun _ _ _ => SessionOp.noConfusion) rfl (List.Sublist.refl _)
  | recheckSocket ctx =>
    obtain rfl := Option.some.inj h
    exact .removed (fun _ _ _ => SessionOp.noConfusion) rfl (List.Sublist.refl _)
  | cleanup =>
    obtain rfl := Option.some.inj h
    exact .removed (fun _ _ _ => SessionOp.noConfusion) rfl (cleanupSessions_sublist _ _)
  | list =>
    obtain rfl := Option.some.inj h
    exact .removed (fun _ _ _ => SessionOp.noConfusion) rfl (foldl_delete_sublist _ _ _)
  | logout token =>
    simp only [SessionOp.run] at h
    split at h
    · obtain rfl := Option.some.inj h
      exact .removed (fun _ _ _ => SessionOp.noConfusion) rfl (List.Sublist.refl _)
    · obtain rfl := Option.some.inj h
      exact .removed (fun _ _ _ => SessionOp.noConfusion) rfl List.filter_sublist
  | revoke session =>
    obtain rfl := Option.some.inj h
    exact .removed (fun _ _ _ => SessionOp.noConfusion) rfl (deleteSessionById_sublist _ _)
  | write stores =>
    obtain rfl := Option.some.inj h
    exact .removed (fun _ _ _ => SessionOp.noConfusion) rfl (List.Sublist.refl _)

theorem consumeTicket_tickets {s : AuthState} {ticket : Str} {e : Str × Ticket}
    (he : e ∈ (consumeTicket t o hash s ticket).2.tickets) : e ∈ s.tickets := (consumeTicket_mem he).1

private theorem authenticateToken_tickets (s : AuthState) (token : Str) (record : Option ApiToken) :
    (authenticateToken t o hash s token record).2.tickets = s.tickets := by
  rcases authenticateToken_cases s token record with ⟨r, heq, -⟩ | ⟨session, heq⟩ | ⟨session, -, ctx, -, -, heq⟩ <;>
    rw [heq]

private theorem touch_tickets (s : AuthState) (principal : SocketContext) :
    (touch s principal).tickets = s.tickets := by
  rcases touch_cases s principal with heq | ⟨-, id, session, -, -, heq⟩ <;> rw [heq]

theorem issueTicket_adapter {s : AuthState} (htickets : AdapterTickets s) (ctx : SocketContext) (ticket : Str) :
    AdapterTickets (issueTicket o hash s ctx ticket) := by
  intro e he
  rcases List.mem_append.1 he with he | he
  · exact htickets e (List.mem_of_mem_filter he)
  · intro ctx' hctx'
    rw [List.mem_singleton.1 he] at hctx'
    simp only [newTicket] at hctx'
    split at hctx'
    · rename_i hexternal
      exact Option.some.inj hctx' ▸ hexternal
    · cases hctx'

theorem Contexts.run (hc : Contexts w) (h : op.run t o hash w = some w') : Contexts w' := by
  have hkept : w'.opened = w.opened → (∀ e ∈ w'.auth.tickets, e ∈ w.auth.tickets) → Contexts w' := by
    intro hopened htickets
    exact ⟨fun e he => hc.tickets e (htickets e he), fun ctx hctx => hc.opened ctx (hopened ▸ hctx)⟩
  cases op with
  | login userId token id =>
    simp only [SessionOp.run] at h
    split at h
    · cases h
    · obtain rfl := Option.some.inj h
      exact hkept rfl fun e he => he
  | authenticate token record =>
    obtain rfl := Option.some.inj h
    exact hkept rfl fun e he => authenticateToken_tickets w.auth token record ▸ he
  | issueTicket ctx ticket =>
    simp only [SessionOp.run] at h
    split at h
    · cases h
    · obtain rfl := Option.some.inj h
      exact ⟨issueTicket_adapter hc.tickets ctx ticket, hc.opened⟩
  | consumeTicket ticket =>
    obtain rfl := Option.some.inj h
    refine ⟨fun e he => hc.tickets e (consumeTicket_tickets he), fun ctx hctx => ?_⟩
    rcases List.mem_append.1 hctx with hctx | hctx
    · rcases consumeTicket_gives hc.tickets (Option.mem_toList.1 hctx) with h | h | ⟨h, -⟩
      · exact .inl h
      · exact .inr (.inl h)
      · exact .inr (.inr h)
    · exact hc.opened ctx hctx
  | recheckShell principal adapter mustChange stdin =>
    simp only [SessionOp.run] at h
    split at h
    · cases h
    · split at h
      · obtain rfl := Option.some.inj h
        exact hkept rfl fun e he => touch_tickets w.auth principal ▸ he
      · obtain rfl := Option.some.inj h
        exact hc
  | logout token =>
    simp only [SessionOp.run] at h
    split at h
    · obtain rfl := Option.some.inj h
      exact hc
    · obtain rfl := Option.some.inj h
      exact hkept rfl fun e he => List.mem_of_mem_filter he
  | cleanup =>
    obtain rfl := Option.some.inj h
    exact hkept rfl fun e he => List.mem_of_mem_filter he
  | revoke session =>
    obtain rfl := Option.some.inj h
    exact hkept rfl fun e he => List.mem_of_mem_filter he
  | _ =>
    obtain rfl := Option.some.inj h
    exact hkept rfl fun e he => he

/-! ### The times of the sessions -/

variable {history : List SessionMove} {a : Nat × SessionOp}

private theorem times_append (id : Str) (history : List SessionMove) (m : SessionMove) :
    times t o hash id (history ++ [m]) = timesMove t o hash id (times t o hash id history) m := by
  simp [times, List.foldl_append]

private theorem sessionStep_run (h : sessionStep t o hash w a = some w') :
    w.auth.now ≤ a.1 ∧ a.2.run t o hash (w.at a.1) = some w' := by
  unfold sessionStep at h
  split at h
  · cases h
  · rename_i hclock
    exact ⟨not_lt.1 hclock, h⟩

/-- An operation other than the login of this session moves its last activity on, or leaves its times. -/
private theorem timesMove_cases {m : SessionMove} (hop : ∀ userId token, m.act.2 ≠ .login userId token id)
    (e : Option Times) :
    timesMove t o hash id e m =
      if m.act.2.isActivity && Accepts t o hash id m then e.map ({ · with last := m.act.1 }) else e := by
  unfold timesMove
  split
  · rename_i userId token id' heq
    have hne : id' ≠ id := fun hid => hop userId token (hid ▸ heq)
    simp [heq, hne, SessionOp.isActivity]
  · rfl

/-- The times a session has after such an operation. -/
private theorem timesMove_some {m : SessionMove} (hop : ∀ userId token, m.act.2 ≠ .login userId token id) {e : Times}
    (hlast : e.last ≤ m.act.1) :
    ∃ e', timesMove t o hash id (some e) m = some e' ∧ e'.created = e.created ∧ e.last ≤ e'.last ∧
      e'.last ≤ m.act.1 := by
  rw [timesMove_cases hop]
  split
  · exact ⟨_, rfl, rfl, hlast, le_refl _⟩
  · exact ⟨e, rfl, rfl, le_refl _, hlast⟩

/-- What the operations so far say about the sessions is what the store says. -/
structure Recorded (t : CaseTable) (o : SessionOptions) (hash : Str → Str) (history : List SessionMove)
    (s : SessionsState) : Prop where
  contexts : Contexts s
  ids_nodup : (s.auth.sessions.map Session.id).Nodup
  hashes_nodup : (s.auth.sessions.map Session.tokenHash).Nodup
  drawn : ∀ session ∈ s.auth.sessions, session.id ∈ s.ids
  known : ∀ id e, times t o hash id history = some e → id ∈ s.ids ∧ e.last ≤ s.auth.now
  stored : ∀ session ∈ s.auth.sessions, ∃ e, times t o hash session.id history = some e ∧
    e.created = session.createdAt ∧ session.lastActivity ≤ e.last

private theorem authenticateToken_now (s : AuthState) (token : Str) (record : Option ApiToken) :
    (authenticateToken t o hash s token record).2.now = s.now := by
  rcases authenticateToken_cases s token record with ⟨r, heq, -⟩ | ⟨session, heq⟩ | ⟨session, -, ctx, -, -, heq⟩ <;>
    rw [heq]

private theorem touch_now (s : AuthState) (principal : SocketContext) : (touch s principal).now = s.now := by
  rcases touch_cases s principal with heq | ⟨-, id, session, -, -, heq⟩ <;> rw [heq]

/-- An operation leaves the clock where it read it. -/
private theorem run_now (h : op.run t o hash w = some w') : w'.auth.now = w.auth.now := by
  cases op with
  | login userId token id =>
    simp only [SessionOp.run] at h
    split at h
    · cases h
    · obtain rfl := Option.some.inj h
      rfl
  | authenticate token record =>
    obtain rfl := Option.some.inj h
    exact authenticateToken_now w.auth token record
  | issueTicket ctx ticket =>
    simp only [SessionOp.run] at h
    split at h
    · cases h
    · obtain rfl := Option.some.inj h
      rfl
  | consumeTicket ticket =>
    obtain rfl := Option.some.inj h
    exact consumeTicket_now w.auth ticket
  | recheckShell principal adapter mustChange stdin =>
    simp only [SessionOp.run] at h
    split at h
    · cases h
    · split at h
      · obtain rfl := Option.some.inj h
        exact touch_now w.auth principal
      · obtain rfl := Option.some.inj h
        rfl
  | logout token =>
    simp only [SessionOp.run] at h
    split at h <;> (obtain rfl := Option.some.inj h; rfl)
  | _ =>
    obtain rfl := Option.some.inj h
    rfl

theorem updateLastActivity_map {β : Type*} (f : Session → β)
    (hf : ∀ session now, f { session with lastActivity := now } = f session) (sessions : List Session) (tokenHash : Str)
    (now : Nat) :
    (updateLastActivity sessions tokenHash now).map f = sessions.map f := by
  unfold updateLastActivity
  rw [List.map_map]
  apply List.map_congr_left
  intro session _
  simp only [Function.comp_apply]
  split
  · exact hf session now
  · rfl

theorem Recorded.step (h : Recorded t o hash history w) (hst : sessionStep t o hash w a = some w') :
    Recorded t o hash (history ++ [⟨w, a, w'⟩]) w' := by
  obtain ⟨hclock, hrun⟩ := sessionStep_run hst
  have hcontexts : Contexts (w.at a.1) := ⟨h.contexts.tickets, h.contexts.opened⟩
  have hnow : w'.auth.now = a.1 := run_now hrun
  -- What was known before, when the operation is no login of the session.
  have hknown : ∀ id e, times t o hash id history = some e →
      (∀ userId token, a.2 ≠ .login userId token id) →
      ∃ e', times t o hash id (history ++ [⟨w, a, w'⟩]) = some e' ∧ e'.created = e.created ∧ e.last ≤ e'.last ∧
        e'.last ≤ a.1 := by
    intro id e he hop
    rw [times_append, he]
    exact timesMove_some hop ((h.known id e he).2.trans hclock)
  have hnone : ∀ id, times t o hash id history = none → (∀ userId token, a.2 ≠ .login userId token id) →
      times t o hash id (history ++ [⟨w, a, w'⟩]) = none := by
    intro id hnone hop
    rw [times_append, hnone, timesMove_cases hop]
    split <;> rfl
  have hknown' : (∀ userId token id, a.2 ≠ .login userId token id) → w'.ids = w.ids →
      ∀ id e, times t o hash id (history ++ [⟨w, a, w'⟩]) = some e → id ∈ w'.ids ∧ e.last ≤ w'.auth.now := by
    intro hop hids id e he
    rw [hids, hnow]
    cases hbefore : times t o hash id history with
    | none =>
      rw [hnone id hbefore fun userId token => hop userId token id] at he
      cases he
    | some e₀ =>
      obtain ⟨e', he', -, -, hlast⟩ := hknown id e₀ hbefore fun userId token => hop userId token id
      obtain rfl := Option.some.inj (he'.symm.trans he)
      exact ⟨(h.known id e₀ hbefore).1, hlast⟩
  cases run_effect hcontexts hrun with
  | created userId token id hop hid hhash hids hsessions =>
    have hother : ∀ id', id' ≠ id → ∀ userId' token', a.2 ≠ .login userId' token' id' := by
      intro id' hne userId' token' heq
      rw [hop] at heq
      cases heq
      exact hne rfl
    have hsame : times t o hash id (history ++ [⟨w, a, w'⟩]) = some ⟨a.1, a.1⟩ := by
      rw [times_append]
      unfold timesMove
      simp only [hop, if_true]
    have hfresh : ∀ session ∈ w.auth.sessions, session.id ≠ id := fun session hsession heq =>
      hid (heq ▸ h.drawn session hsession)
    refine ⟨hcontexts.run hrun, ?_, ?_, ?_, ?_, ?_⟩
    · rw [hsessions, List.map_append, List.nodup_append']
      refine ⟨h.ids_nodup, List.nodup_singleton _, ?_⟩
      intro id' hmem hid'
      obtain ⟨session, hsession, rfl⟩ := List.mem_map.1 hmem
      exact hfresh session hsession (List.mem_singleton.1 hid')
    · rw [hsessions, List.map_append, List.nodup_append']
      refine ⟨h.hashes_nodup, List.nodup_singleton _, ?_⟩
      intro hash' hmem hhash'
      obtain rfl : hash' = hash token := List.mem_singleton.1 hhash'
      exact hhash hmem
    · intro session hsession
      rw [hids]
      rw [hsessions] at hsession
      rcases List.mem_append.1 hsession with hsession | hsession
      · exact List.mem_cons_of_mem _ (h.drawn session hsession)
      · rw [List.mem_singleton.1 hsession]
        exact List.mem_cons_self
    · intro id' e he
      rw [hids, hnow]
      by_cases hne : id' = id
      · subst hne
        obtain rfl := Option.some.inj (hsame.symm.trans he)
        exact ⟨List.mem_cons_self, le_refl _⟩
      · cases hbefore : times t o hash id' history with
        | none =>
          rw [hnone id' hbefore (hother id' hne)] at he
          cases he
        | some e₀ =>
          obtain ⟨e', he', -, -, hlast⟩ := hknown id' e₀ hbefore (hother id' hne)
          obtain rfl := Option.some.inj (he'.symm.trans he)
          exact ⟨List.mem_cons_of_mem _ (h.known id' e₀ hbefore).1, hlast⟩
    · intro session hsession
      rw [hsessions] at hsession
      rcases List.mem_append.1 hsession with hsession | hsession
      · obtain ⟨e, he, hcreated, hlast⟩ := h.stored session hsession
        obtain ⟨e', he', hcreated', hlast', -⟩ := hknown session.id e he (hother _ (hfresh session hsession))
        exact ⟨e', he', hcreated'.trans hcreated, hlast.trans hlast'⟩
      · rw [List.mem_singleton.1 hsession]
        exact ⟨_, hsame, rfl, le_refl _⟩
  | extended session hmem hactivity haccepts hids hsessions =>
    have hop : ∀ userId token id, a.2 ≠ .login userId token id := by
      intro userId token id heq
      rw [heq] at hactivity
      cases hactivity
    refine ⟨hcontexts.run hrun, ?_, ?_, ?_, hknown' hop hids, ?_⟩
    · rw [hsessions, updateLastActivity_map Session.id fun _ _ => rfl]
      exact h.ids_nodup
    · rw [hsessions, updateLastActivity_map Session.tokenHash fun _ _ => rfl]
      exact h.hashes_nodup
    · intro session' hsession'
      have hid : session'.id ∈ w.auth.sessions.map Session.id := by
        have hmem' := List.mem_map_of_mem (f := Session.id) hsession'
        rw [hsessions, updateLastActivity_map Session.id fun _ _ => rfl] at hmem'
        exact hmem'
      obtain ⟨session₀, hsession₀, heq⟩ := List.mem_map.1 hid
      rw [hids, ← heq]
      exact h.drawn session₀ hsession₀
    · intro session' hsession'
      rw [hsessions] at hsession'
      obtain ⟨session₀, hsession₀, rfl⟩ := List.mem_map.1 hsession'
      obtain ⟨e, he, hcreated, hlast⟩ := h.stored session₀ hsession₀
      split
      · rename_i hhash
        -- The session that is extended.
        obtain rfl : session₀ = session := List.inj_on_of_nodup_map h.hashes_nodup hsession₀ hmem hhash
        refine ⟨{ e with last := a.1 }, ?_, hcreated, le_refl _⟩
        have haccepted : Accepts t o hash session₀.id ⟨w, a, w'⟩ = true := haccepts
        rw [times_append, he, timesMove_cases fun userId token => hop userId token _]
        simp only [hactivity, haccepted, Bool.and_self, if_true, Option.map_some]
      · obtain ⟨e', he', hcreated', hlast', -⟩ := hknown session₀.id e he fun userId token => hop userId token _
        exact ⟨e', he', hcreated'.trans hcreated, hlast.trans hlast'⟩
  | removed hop hids hsessions =>
    have hmem : ∀ session ∈ w'.auth.sessions, session ∈ w.auth.sessions := fun _ => fun h => hsessions.subset h
    refine ⟨hcontexts.run hrun, h.ids_nodup.sublist (hsessions.map _), h.hashes_nodup.sublist (hsessions.map _), ?_,
      hknown' hop hids, ?_⟩
    · intro session hsession
      rw [hids]
      exact h.drawn session (hmem session hsession)
    · intro session hsession
      obtain ⟨e, he, hcreated, hlast⟩ := h.stored session (hmem session hsession)
      obtain ⟨e', he', hcreated', hlast', -⟩ := hknown session.id e he fun userId token => hop userId token _
      exact ⟨e', he', hcreated'.trans hcreated, hlast.trans hlast'⟩

theorem recorded {now : Nat} {stores : Stores} {s : SessionsState}
    (h : Run (sessionStep t o hash) (SessionsState.start now stores) history s) : Recorded t o hash history s := by
  refine h.history ?_ fun _ _ _ _ hs _ hst => hs.step hst
  have hnone : ∀ session ∈ (SessionsState.start now stores).auth.sessions, False := fun session hsession => by
    cases hsession
  refine ⟨⟨fun e he => ?_, fun ctx hctx => ?_⟩, List.nodup_nil, List.nodup_nil, fun session hsession => ?_,
    fun id e he => ?_, fun session hsession => ?_⟩
  · cases he
  · cases hctx
  · exact (hnone session hsession).elim
  · cases he
  · exact (hnone session hsession).elim

/-- An accepted session is not expired. -/
theorem Recorded.accepts {s : SessionsState} (h : Recorded t o hash history s)
    (haccepts : a.2.accepts t o hash (s.at a.1).auth id = true) :
    ∃ e, times t o hash id history = some e ∧ a.1 ≤ e.created + o.maxSessionLifetime ∧
      a.1 - e.last ≤ o.sessionTimeout := by
  have htickets : AdapterTickets (s.at a.1).auth := h.contexts.tickets
  obtain ⟨session, hmem, rfl, hlive⟩ := accepts_live htickets haccepts
  obtain ⟨e, he, hcreated, hlast⟩ := h.stored session hmem
  have hexpires : (a.1 : Int) ≤ session.expiresAt o := not_lt.1 (of_decide_eq_false hlive)
  obtain ⟨hidle, hlifetime⟩ := le_min_iff.1 hexpires
  refine ⟨e, he, ?_, ?_⟩
  · rw [hcreated]
    exact hlifetime
  · omega

/-- Moves that neither create a session nor accept it leave its times. -/
private theorem times_of_rejected {moves : List SessionMove} {e : Times} (he : times t o hash id history = some e)
    (h : ∀ m ∈ moves, Accepts t o hash id m = false ∧ ∀ userId token, m.act.2 ≠ .login userId token id) :
    times t o hash id (history ++ moves) = some e := by
  induction moves using List.reverseRecOn with
  | nil => rw [List.append_nil, he]
  | append_singleton moves m ih =>
    obtain ⟨hrejected, hop⟩ := h m (List.mem_append_right _ (List.mem_singleton.2 rfl))
    have ih := ih fun m hm => h m (List.mem_append_left _ hm)
    rw [← List.append_assoc, times_append, ih, timesMove_cases hop, hrejected, Bool.and_false,
      if_neg Bool.false_ne_true]

/-- A session that is expired is not accepted, nor created again, by what follows. -/
private theorem rejected_of_expired {s₀ s : SessionsState} {before after : List SessionMove} {e : Times} {moment : Nat}
    (h : Run (sessionStep t o hash) s₀ (before ++ after) s)
    (hrecorded : ∀ moves u, Run (sessionStep t o hash) s₀ moves u → Recorded t o hash moves u)
    (he : times t o hash id before = some e) (hexpired : e.expired o moment) (hlater : ∀ m ∈ after, moment ≤ m.act.1) :
    ∀ m ∈ after, Accepts t o hash id m = false ∧ ∀ userId token, m.act.2 ≠ .login userId token id := by
  induction after using List.reverseRecOn generalizing s with
  | nil =>
    intro m hm
    cases hm
  | append_singleton after m ih =>
    rw [← List.append_assoc] at h
    obtain ⟨hr, -, hst, -⟩ := h.last
    have ih := ih hr fun m hm => hlater m (List.mem_append_left _ hm)
    have htimes := times_of_rejected he ih
    have hpre := hrecorded _ _ hr
    intro m' hm'
    rcases List.mem_append.1 hm' with hm' | hm'
    · exact ih m' hm'
    · obtain rfl := List.mem_singleton.1 hm'
      constructor
      · by_contra haccepts
        obtain ⟨e', he', hlifetime, hidle⟩ := hpre.accepts (Bool.eq_true_of_not_eq_false haccepts)
        obtain rfl := Option.some.inj (htimes.symm.trans he')
        have hmoment := hlater m' (List.mem_append_right _ (List.mem_singleton.2 rfl))
        rcases hexpired with hexpired | hexpired
        · omega
        · omega
      · intro userId token hlogin
        have hid := (hpre.known id e htimes).1
        have hrun := (sessionStep_run hst).2
        rw [hlogin] at hrun
        simp only [SessionOp.run] at hrun
        rw [if_pos (.inl hid)] at hrun
        cases hrun

/-- In every run: a session is accepted within its lifetime and no longer after its last activity than the timeout; one
that is expired at some moment is not accepted at it or later; and a cleanup removes the expired sessions. -/
theorem session_lifetime {now : Nat} {stores : Stores} {s : SessionsState}
    (h : Run (sessionStep t o hash) (SessionsState.start now stores) history s) :
    (∀ before m after id, history = before ++ m :: after → Accepts t o hash id m = true →
      ∃ e, times t o hash id before = some e ∧ m.act.1 ≤ e.created + o.maxSessionLifetime ∧
        m.act.1 - e.last ≤ o.sessionTimeout) ∧
    (∀ before after id e moment, history = before ++ after → times t o hash id before = some e →
      e.expired o moment → (∀ m ∈ after, moment ≤ m.act.1) → ∀ m ∈ after, Accepts t o hash id m = false) ∧
    ∀ m ∈ history, m.act.2 = .cleanup →
      m.post.auth.sessions = m.pre.auth.sessions.filter fun session => !session.isExpired o m.act.1 := by
  refine ⟨?_, ?_, ?_⟩
  · rintro before m after id rfl haccepts
    exact (recorded h.at_move.1).accepts haccepts
  · rintro before after id e moment rfl he hexpired hlater m hm
    exact (rejected_of_expired h (fun _ _ => recorded) he hexpired hlater m hm).1
  · intro m hm hcleanup
    obtain ⟨before, after, rfl⟩ := List.append_of_mem hm
    obtain ⟨hbefore, -, hst, -⟩ := h.at_move
    have hrun := (sessionStep_run hst).2
    rw [hcleanup] at hrun
    obtain heq := Option.some.inj hrun
    rw [← heq]
    exact cleanupSessions_eq (recorded hbefore).ids_nodup

/-- A session idle for 29 minutes is accepted, the same session 31 minutes later is not. -/
theorem session_lifetime_root :
    let t : CaseTable := fun _ c _ => [c]
    let hash : Str → Str := fun token => token
    ∃ history s, Run (sessionStep t {} hash) (SessionsState.start 0 (seed ['r'])) history s ∧
      history.map (Accepts t {} hash ['s']) = [false, true, false] ∧
      (∀ before m after id', history = before ++ m :: after → Accepts t {} hash id' m = true →
        ∃ e, times t {} hash id' before = some e ∧ (m.act.1 : Int) ≤ e.created + 43200000 ∧
          (m.act.1 : Int) - e.last ≤ 1800000) := by
  intro t hash
  have hexec : (exec (sessionStep t {} hash) (SessionsState.start 0 (seed ['r']))
      [(0, .login ['r'] ['k'] ['s']), (1740000, .authenticate ['k'] none), (3600000, .authenticate ['k'] none)]).any
        (fun r => r.1.map (Accepts t {} hash ['s']) = [false, true, false]) = true := by decide +kernel
  obtain ⟨⟨history, s⟩, hexec, haccepts⟩ := (Option.any_eq_true _ _).1 hexec
  have hrun := run_of_exec hexec
  exact ⟨history, s, hrun, of_decide_eq_true haccepts, (session_lifetime hrun).1⟩

end CliServer
