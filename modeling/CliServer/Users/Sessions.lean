import CliServer.Users.Service

/-!
# Sessions

Sessions and their in-memory store: a dict keyed by the hash of the bearer token, so a list with one entry for each
hash.  `contextForSession` is what a session may do at the moment.
-/

namespace CliServer

structure Session where
  id : Str
  tokenHash : Str
  userId : Str
  createdAt : Nat
  lastActivity : Nat
  deriving DecidableEq, Repr

/-- The options on sessions and tickets, in milliseconds. -/
structure SessionOptions where
  sessionTimeout : Int := 30 * 60 * 1000
  maxSessionLifetime : Int := 12 * 60 * 60 * 1000
  ticketTtl : Int := 30 * 1000

/-- `Session.expires_at`. -/
def Session.expiresAt (o : SessionOptions) (session : Session) : Int :=
  min (session.lastActivity + o.sessionTimeout) (session.createdAt + o.maxSessionLifetime)

/-- `is_expired`. -/
def Session.isExpired (o : SessionOptions) (session : Session) (now : Nat) : Bool := session.expiresAt o < now

/-- `get_session_by_id`. -/
def sessionById (sessions : List Session) (id : Str) : Option Session := sessions.find? (·.id = id)

/-- `delete_session_by_id`. -/
def deleteSessionById (sessions : List Session) (id : Str) : List Session := sessions.eraseP (·.id = id)

/-- The session store's `cleanup`, and the deletion of the sessions that are expired then. -/
def cleanupSessions (o : SessionOptions) (sessions : List Session) (now : Nat) : List Session :=
  let kept := sessions.filter fun session => !decide (session.lastActivity < now - o.sessionTimeout)
  kept.foldl (fun left session => if session.isExpired o now then deleteSessionById left session.id else left) kept

/-- An authenticated caller with the session it signed in with. -/
structure SocketContext where
  auth : AuthContext
  sessionId : Option Str
  deriving DecidableEq, Repr

variable (t : CaseTable) (o : SessionOptions)

/-- What `_context_for_session` gives for a session that is not expired. -/
def contextForSession (s : Stores) (session : Session) : Except UsersApiError SocketContext :=
  match s.getUser t session.userId with
  | none => .error invalidToken
  | some user =>
    if user.id ≠ session.userId ∨ user.disabled then .error invalidToken
    else .ok
      { auth := { user := user, permissions := s.userPermissions t user, session := true }
        sessionId := some session.id }

variable {t}

theorem contextForSession_ok {s : Stores} {session : Session} {ctx : SocketContext}
    (h : contextForSession t s session = .ok ctx) :
    ctx.sessionId = some session.id ∧ ctx.auth.user ∈ s.users ∧ ctx.auth.user.id = session.userId ∧
      ctx.auth.user.disabled = false := by
  unfold contextForSession at h
  split at h
  · cases h
  · rename_i user hfound
    split at h
    · cases h
    · rename_i hok
      obtain rfl := Except.ok.inj h
      obtain ⟨hid, henabled⟩ : user.id = session.userId ∧ user.disabled = false := by simpa using hok
      exact ⟨rfl, s.mem_of_getUser hfound, hid, henabled⟩

theorem mem_of_sessionById {sessions : List Session} {id : Str} {session : Session}
    (h : sessionById sessions id = some session) : session ∈ sessions ∧ session.id = id :=
  ⟨List.mem_of_find?_eq_some h, by simpa using List.find?_some h⟩

end CliServer
