import CliServer.Users.Lifetime

/-!
# Events and logs sockets

On a protected server the middleware consumes a socket's ticket, the socket is accepted, and it is bound to the
context of the ticket.  An operation that may end sessions (logout, revoke, a change or deletion of a user, a token's
revocation) notifies the change listeners when it has written; that schedules a check of every socket bound then.  An
action is what happens between two suspensions; over the in-memory stores the middleware consumes a ticket without
suspending, and a check looks at the stores at one moment.  The clock stands still: a session ends by a write.
-/

namespace CliServer

open Transition

inductive SocketKind where
  | events
  | logs
  deriving DecidableEq, Repr

/-- `ws_permission`. -/
def SocketKind.permission : SocketKind → Option Str
  | .events => none
  | .logs => some "logs:read".toList

/-- Where a socket's `handle_connection` is. -/
inductive SocketPhase where
  | idle
  | accepting
  | opened
  | closed
  deriving DecidableEq, Repr

structure Socket where
  phase : SocketPhase := .idle
  kind : SocketKind := .events
  ctx : Option SocketContext := none
  outbox : List Str := []
  deriving DecidableEq, Repr

/-- `CliEventAudience`. -/
structure CliEventAudience where
  permission : Option Str := none
  userId : Option Str := none
  deriving DecidableEq, Repr

/-- `is_everyone`. -/
def CliEventAudience.isEveryone (audience : CliEventAudience) : Bool :=
  audience.permission.isNone && audience.userId.isNone

/-- `MAX_PENDING_EVENTS`. -/
def maxPendingEvents : Nat := 1000

/-- The sockets by their number, and `_bound`; the calls of `_spawn_check` to come, the checks that have still to look
at the stores, and the answers they have still to act on; `working` counts the operations that have not sent their
last notification. -/
structure SocketsState where
  auth : AuthState
  sockets : Nat → Socket
  bound : List Nat
  scheduled : List Nat
  checks : List Nat
  answers : List (Nat × Bool)
  working : Nat

namespace SocketsState

/-- No socket yet. -/
def start (now : Nat) (stores : Stores) (sessions : List Session) : SocketsState :=
  ⟨.start now stores sessions, fun _ => {}, [], [], [], [], 0⟩

/-- Socket `i` goes on as `socket`. -/
def set (s : SocketsState) (i : Nat) (socket : Socket) : SocketsState :=
  { s with sockets := Function.update s.sockets i socket }

/-- `unbind`. -/
def unbind (s : SocketsState) (i : Nat) : SocketsState := { s with bound := s.bound.filter (· ≠ i) }

/-- `request_recheck`. -/
def requestRecheck (s : SocketsState) : SocketsState := { s with scheduled := s.scheduled ++ s.bound }

/-- No operation has a notification to send, and no re-check is pending. -/
def Settled (s : SocketsState) : Prop := s.working = 0 ∧ s.scheduled = [] ∧ s.checks = [] ∧ s.answers = []

instance (s : SocketsState) : Decidable s.Settled := inferInstanceAs (Decidable (_ ∧ _ ∧ _ ∧ _))

end SocketsState

/-- The write of an operation; `consume_ticket` and the clock are no writes. -/
def TicketAction.isWrite : TicketAction → Bool
  | .issue .. | .consume _ | .tick _ => false
  | _ => true

inductive SocketAction where
  | issueTicket (ctx : SocketContext) (ticket : Str)
  /-- The middleware consumes the ticket; `mustChange` is the user's `must_change_password`. -/
  | connect (i : Nat) (kind : SocketKind) (ticket : Str) (mustChange : Bool)
  /-- The socket is accepted, and bound. -/
  | accepted (i : Nat)
  /-- The accept fails. -/
  | dropped (i : Nat)
  | disconnects (i : Nat)
  /-- The sender task takes the next message. -/
  | sends (i : Nat)
  | publish (message : Str) (audience : CliEventAudience)
  /-- An operation begins, writes, and sends its last notification. -/
  | starts
  | writes (a : TicketAction)
  | finishes
  /-- Any other `notify_change`. -/
  | notify
  | spawnCheck (i : Nat)
  /-- A check looks at the socket's identity. -/
  | checks (i : Nat)
  /-- It acts on the answer. -/
  | answered (i : Nat) (active : Bool)

variable (t : CaseTable) (o : SessionOptions) (hash : Str → Str)

/-- `_receives`. -/
def receives (principal : Option SocketContext) (audience : CliEventAudience) (requiresAuth : Bool) : Bool :=
  if audience.isEveryone then true
  else match principal with
    | none => !requiresAuth
    | some ctx =>
      audience.userId.any (· = ctx.auth.user.id) || audience.permission.any fun permission => ctx.auth.can t permission

/-- `_enqueue`. -/
def Socket.enqueue (socket : Socket) (message : Str) : Socket :=
  if maxPendingEvents ≤ socket.outbox.length then socket else { socket with outbox := socket.outbox ++ [message] }

/-- `publish_event`, on a server that requires authentication. -/
def publishEvent (sockets : Nat → Socket) (message : Str) (audience : CliEventAudience) : Nat → Socket := fun i =>
  let socket := sockets i
  if socket.phase = .opened ∧ socket.kind = .events ∧ receives t socket.ctx audience true then socket.enqueue message
  else socket

/-- The socket's handler ends, or its check has closed it: it is in none of the tables, and its sender is stopped. -/
def Socket.close (socket : Socket) : Socket := { socket with phase := .closed, outbox := [] }

/-- What the socket's handler does once it is accepted; an events socket first gets `connected`. -/
def Socket.opens (socket : Socket) : Socket :=
  { socket with
    phase := .opened
    outbox := match socket.kind with
      | .events => ["connected".toList]
      | .logs => [] }

def socketStep (s : SocketsState) : SocketAction → Option SocketsState
  | .issueTicket ctx ticket =>
    if hash ticket ∈ s.auth.drawn then none else some { s with auth := issueTicket o hash s.auth ctx ticket }
  | .connect i kind ticket mustChange =>
    if (s.sockets i).phase ≠ .idle then none
    else
      let (ctx, auth) := consumeTicket t o hash s.auth ticket
      let s := { s with auth := auth }
      match ctx with
      | none => some (s.set i { kind := kind, phase := .closed })
      | some ctx =>
        if mustChange || kind.permission.any fun permission => !ctx.auth.can t permission then
          some (s.set i { kind := kind, phase := .closed })
        else some (s.set i { kind := kind, phase := .accepting, ctx := some ctx })
  | .accepted i =>
    let socket := s.sockets i
    if socket.phase ≠ .accepting then none
    else some { s.set i socket.opens with bound := if socket.ctx.isSome then s.bound ++ [i] else s.bound }
  | .dropped i =>
    if (s.sockets i).phase ≠ .accepting then none else some (s.set i (s.sockets i).close)
  | .disconnects i =>
    if (s.sockets i).phase ≠ .opened then none else some ((s.unbind i).set i (s.sockets i).close)
  | .sends i =>
    let socket := s.sockets i
    if socket.outbox = [] then none else some (s.set i { socket with outbox := socket.outbox.tail })
  | .publish message audience => some { s with sockets := publishEvent t s.sockets message audience }
  | .starts => some { s with working := s.working + 1 }
  | .writes a =>
    if s.working = 0 ∨ a.isWrite = false then none
    else (ticketStep t o hash s.auth a).map fun auth => { s with auth := auth }
  | .finishes => if s.working = 0 then none else some { s.requestRecheck with working := s.working - 1 }
  | .notify => some s.requestRecheck
  | .spawnCheck i =>
    if i ∉ s.scheduled then none
    else some { s with scheduled := s.scheduled.erase i, checks := if i ∈ s.bound then i :: s.checks else s.checks }
  | .checks i =>
    if i ∉ s.checks then none
    else
      let active := (s.sockets i).ctx.all (isContextActive t o s.auth)
      some { s with checks := s.checks.erase i, answers := (i, active) :: s.answers }
  | .answered i active =>
    if (i, active) ∉ s.answers then none
    else
      let s := { s with answers := s.answers.erase (i, active) }
      if active || i ∉ s.bound then some s else some ((s.unbind i).set i (s.sockets i).close)

/-- The socket's identity is active, or there is none. -/
def SocketsState.Active (s : SocketsState) (i : Nat) : Prop :=
  ∀ ctx, (s.sockets i).ctx = some ctx → isContextActive t o s.auth ctx = true

instance (s : SocketsState) (i : Nat) : Decidable (s.Active t o i) :=
  decidable_of_iff ((s.sockets i).ctx.all (isContextActive t o s.auth) = true) (Option.all_eq_true ..)

/-- A socket is bound with an identity that is active, or that some operation has still to send a notification for. -/
def Timely (s : SocketsState) : SocketAction → Prop
  | .accepted i => s.Active t o i ∨ 0 < s.working
  | _ => True

variable {t o hash} {s s' : SocketsState} {a : SocketAction} {i j : Nat}

@[simp] theorem SocketsState.set_sockets_self (s : SocketsState) (i : Nat) (socket : Socket) :
    (s.set i socket).sockets i = socket := Function.update_self ..

theorem SocketsState.set_sockets_of_ne (s : SocketsState) (socket : Socket) (h : j ≠ i) :
    (s.set i socket).sockets j = s.sockets j := Function.update_of_ne h ..

private theorem SocketsState.mem_unbind (s : SocketsState) (i j : Nat) :
    j ∈ (s.unbind i).bound ↔ j ∈ s.bound ∧ j ≠ i := by
  simp [unbind, List.mem_filter]

/-! ### What stays active -/

/-- A deletion leaves the sessions with another id. -/
private theorem sessionById_delete (sessions : List Session) {id id' : Str} (h : id' ≠ id) :
    sessionById (deleteSessionById sessions id) id' = sessionById sessions id' := by
  unfold sessionById deleteSessionById
  induction sessions with
  | nil => rfl
  | cons session sessions ih =>
    by_cases hid : session.id = id
    · have hne : session.id ≠ id' := fun heq => h (heq.symm.trans hid)
      rw [List.eraseP_cons_of_pos (by simpa using hid), List.find?_cons_of_neg (by simpa using hne)]
    · rw [List.eraseP_cons_of_neg (by simpa using hid)]
      by_cases hid' : session.id = id'
      · rw [List.find?_cons_of_pos (by simpa using hid'), List.find?_cons_of_pos (by simpa using hid')]
      · rw [List.find?_cons_of_neg (by simpa using hid'), List.find?_cons_of_neg (by simpa using hid'), ih]

/-- Tickets do not matter to a context. -/
private theorem isContextActive_of_eq {s s' : AuthState} (hnow : s'.now = s.now) (hstores : s'.stores = s.stores)
    (hsessions : s'.sessions = s.sessions) (ctx : SocketContext) :
    isContextActive t o s' ctx = isContextActive t o s ctx := by
  unfold isContextActive isApiTokenActive
  rw [hnow, hstores, hsessions]

/-- The deletion of an expired session ends no context: the context of that session was not active. -/
private theorem isContextActive_deleteExpired {s : AuthState} {session : Session} {id : Str} {ctx : SocketContext}
    (hfound : sessionById s.sessions id = some session) (hexpired : session.isExpired o s.now = true)
    (h : isContextActive t o s ctx = true) :
    isContextActive t o { s with sessions := deleteSessionById s.sessions session.id } ctx = true := by
  obtain rfl : session.id = id := (mem_of_sessionById hfound).2
  unfold isContextActive at h ⊢
  by_cases hexternal : ctx.auth.external = true
  · rw [if_pos hexternal]
  · rw [if_neg hexternal] at h ⊢
    cases htoken : ctx.auth.apiToken with
    | some token =>
      simp only [htoken] at h ⊢
      exact h
    | none =>
      simp only [htoken] at h ⊢
      cases hid : ctx.sessionId with
      | none => simp [hid] at h
      | some id' =>
        simp only [hid, Option.bind_some] at h ⊢
        by_cases hsame : id' = session.id
        · subst hsame
          simp [hfound, hexpired] at h
        · rw [sessionById_delete s.sessions hsame]
          exact h

private theorem redeem_active {s : AuthState} (entry : Ticket) {ctx : SocketContext}
    (h : isContextActive t o s ctx = true) :
    isContextActive t o (redeem t o s entry).2 ctx = true := by
  unfold redeem
  split
  · exact h
  · split
    · split
      · exact h
      · split <;> exact h
    · split
      · exact h
      · rename_i session hfind
        split
        · exact h
        · split
          · rename_i hexpired
            obtain ⟨id, -, hfound⟩ := Option.bind_eq_some_iff.1 hfind
            exact isContextActive_deleteExpired hfound hexpired h
          · exact h

/-- Consuming a ticket ends no context. -/
private theorem consumeTicket_active {s : AuthState} (ticket : Str) {ctx : SocketContext}
    (h : isContextActive t o s ctx = true) : isContextActive t o (consumeTicket t o hash s ticket).2 ctx = true := by
  have hpop : ∀ key, isContextActive t o (s.popTicket key) ctx = true := fun key =>
    (isContextActive_of_eq rfl rfl rfl ctx).trans h
  rcases consumeTicket_cases s ticket with heq | ⟨entry, -, heq | ⟨-, heq⟩⟩
  · rw [heq]
    exact h
  · rw [heq]
    exact hpop _
  · rw [heq]
    exact redeem_active entry (hpop _)

/-! ### Bound sockets are watched -/

/-- The socket is closed by a check that is on its way, or a check will be. -/
def SocketsState.Pending (s : SocketsState) (i : Nat) : Prop :=
  0 < s.working ∨ i ∈ s.scheduled ∨ i ∈ s.checks ∨ (i, false) ∈ s.answers

/-- A bound socket is open, and active or about to be checked. -/
structure Watched (t : CaseTable) (o : SessionOptions) (i : Nat) (s : SocketsState) : Prop where
  opened : i ∈ s.bound → (s.sockets i).phase = .opened
  watched : i ∈ s.bound → s.Active t o i ∨ s.Pending i

/-- The tables and the identity of a socket stay, and no context ends. -/
theorem Watched.same (h : Watched t o i s) (hbound : s'.bound = s.bound) (hworking : s'.working = s.working)
    (hscheduled : s'.scheduled = s.scheduled) (hchecks : s'.checks = s.checks) (hanswers : s'.answers = s.answers)
    (hphase : i ∈ s.bound → (s'.sockets i).phase = (s.sockets i).phase ∧ (s'.sockets i).ctx = (s.sockets i).ctx)
    (hactive : ∀ ctx, isContextActive t o s.auth ctx = true → isContextActive t o s'.auth ctx = true) :
    Watched t o i s' := by
  constructor
  · intro hmem
    rw [hbound] at hmem
    rw [(hphase hmem).1]
    exact h.opened hmem
  · intro hmem
    rw [hbound] at hmem
    rcases h.watched hmem with hyes | hpending
    · refine .inl fun ctx hctx => ?_
      rw [(hphase hmem).2] at hctx
      exact hactive ctx (hyes ctx hctx)
    · right
      unfold SocketsState.Pending at hpending ⊢
      rw [hworking, hscheduled, hchecks, hanswers]
      exact hpending

/-- A socket that is closed is no longer bound. -/
private theorem Watched.unbinds (h : Watched t o i s) (j : Nat) :
    Watched t o i ((s.unbind j).set j (s.sockets j).close) := by
  constructor
  · intro hmem
    obtain ⟨hmem, hne⟩ := (s.mem_unbind j i).1 hmem
    rw [SocketsState.set_sockets_of_ne _ _ hne]
    exact h.opened hmem
  · intro hmem
    obtain ⟨hmem, hne⟩ := (s.mem_unbind j i).1 hmem
    rcases h.watched hmem with hactive | hpending
    · refine .inl fun ctx hctx => hactive ctx ?_
      rw [SocketsState.set_sockets_of_ne _ _ hne] at hctx
      exact hctx
    · exact .inr hpending

/-- A socket that is not open is not the bound one. -/
private theorem Watched.ne_of_phase (h : Watched t o i s) {j : Nat} (hphase : (s.sockets j).phase ≠ .opened)
    (hmem : i ∈ s.bound) :
    i ≠ j := by
  rintro rfl
  exact hphase (h.opened hmem)

private theorem Socket.enqueue_same (socket : Socket) (message : Str) :
    (socket.enqueue message).phase = socket.phase ∧ (socket.enqueue message).ctx = socket.ctx := by
  unfold enqueue
  split <;> exact ⟨rfl, rfl⟩

theorem publishEvent_same (sockets : Nat → Socket) (message : Str) (audience : CliEventAudience) (i : Nat) :
    (publishEvent t sockets message audience i).phase = (sockets i).phase ∧
      (publishEvent t sockets message audience i).ctx = (sockets i).ctx := by
  unfold publishEvent
  simp only
  split
  · exact (sockets i).enqueue_same message
  · exact ⟨rfl, rfl⟩

theorem Watched.step (h : Watched t o i s) (htimely : Timely t o s a) (hst : socketStep t o hash s a = some s') :
    Watched t o i s' := by
  cases a with
  | issueTicket ctx ticket =>
    simp only [socketStep] at hst
    split at hst
    · cases hst
    · obtain rfl := Option.some.inj hst
      exact h.same rfl rfl rfl rfl rfl (fun _ => ⟨rfl, rfl⟩) fun ctx' hactive => hactive
  | connect j kind ticket mustChange =>
    simp only [socketStep] at hst
    split at hst
    · cases hst
    · rename_i hidle
      have hne : i ∈ s.bound → i ≠ j := h.ne_of_phase (by simp [not_not.1 hidle])
      have hconnect : ∀ socket, some ({ s with auth := (consumeTicket t o hash s.auth ticket).2 }.set j socket) =
          some s' → Watched t o i s' := by
        intro socket heq
        obtain rfl := Option.some.inj heq
        refine h.same rfl rfl rfl rfl rfl (fun hmem => ?_) fun ctx hactive => consumeTicket_active ticket hactive
        rw [SocketsState.set_sockets_of_ne _ _ (hne hmem)]
        exact ⟨rfl, rfl⟩
      split at hst
      · exact hconnect _ hst
      · split at hst
        · exact hconnect _ hst
        · exact hconnect _ hst
  | accepted j =>
    simp only [socketStep] at hst
    split at hst
    · cases hst
    · obtain rfl := Option.some.inj hst
      by_cases hij : i = j
      · subst hij
        refine ⟨fun _ => by simp [Socket.opens], fun _ => ?_⟩
        rcases htimely with hactive | hworking
        · refine .inl fun ctx hctx => hactive ctx ?_
          simpa [Socket.opens] using hctx
        · exact .inr (.inl hworking)
      · have hmem : i ∈ (if (s.sockets j).ctx.isSome then s.bound ++ [j] else s.bound) → i ∈ s.bound := by
          split
          · intro hmem
            rcases List.mem_append.1 hmem with hmem | hmem
            · exact hmem
            · exact absurd (List.mem_singleton.1 hmem) hij
          · exact fun hmem => hmem
        have hsocket : (s.set j (s.sockets j).opens).sockets i = s.sockets i := s.set_sockets_of_ne _ hij
        refine ⟨fun hbound => ?_, fun hbound => ?_⟩
        · exact (congrArg Socket.phase hsocket).trans (h.opened (hmem hbound))
        · rcases h.watched (hmem hbound) with hactive | hpending
          · exact .inl fun ctx hctx => hactive ctx ((congrArg Socket.ctx hsocket).symm.trans hctx)
          · exact .inr hpending
  | dropped j =>
    simp only [socketStep] at hst
    split at hst
    · cases hst
    · rename_i hphase
      obtain rfl := Option.some.inj hst
      refine h.same rfl rfl rfl rfl rfl (fun hmem => ?_) fun _ hactive => hactive
      have hne : i ≠ j := h.ne_of_phase (by simp [not_not.1 hphase]) hmem
      rw [s.set_sockets_of_ne _ hne]
      exact ⟨rfl, rfl⟩
  | disconnects j =>
    simp only [socketStep] at hst
    split at hst
    · cases hst
    · obtain rfl := Option.some.inj hst
      exact h.unbinds j
  | sends j =>
    simp only [socketStep] at hst
    split at hst
    · cases hst
    · obtain rfl := Option.some.inj hst
      refine h.same rfl rfl rfl rfl rfl (fun _ => ?_) fun _ hactive => hactive
      by_cases hij : i = j
      · subst hij
        simp
      · rw [s.set_sockets_of_ne _ hij]
        exact ⟨rfl, rfl⟩
  | publish message audience =>
    obtain rfl := Option.some.inj hst
    exact h.same rfl rfl rfl rfl rfl (fun _ => publishEvent_same _ _ _ _) fun _ hactive => hactive
  | starts =>
    obtain rfl := Option.some.inj hst
    exact ⟨h.opened, fun _ => .inr (.inl (Nat.succ_pos _))⟩
  | writes a =>
    simp only [socketStep] at hst
    split at hst
    · cases hst
    · rename_i hworking
      obtain ⟨auth, -, rfl⟩ := Option.map_eq_some_iff.1 hst
      have hpos : 0 < s.working := Nat.pos_of_ne_zero (not_or.1 hworking).1
      exact ⟨h.opened, fun _ => .inr (.inl hpos)⟩
  | finishes =>
    simp only [socketStep] at hst
    split at hst
    · cases hst
    · obtain rfl := Option.some.inj hst
      exact ⟨h.opened, fun hmem => .inr (.inr (.inl (List.mem_append_right _ hmem)))⟩
  | notify =>
    obtain rfl := Option.some.inj hst
    exact ⟨h.opened, fun hmem => .inr (.inr (.inl (List.mem_append_right _ hmem)))⟩
  | spawnCheck j =>
    simp only [socketStep] at hst
    split at hst
    · cases hst
    · obtain rfl := Option.some.inj hst
      refine ⟨h.opened, fun hmem => ?_⟩
      have hmem : i ∈ s.bound := hmem
      rcases h.watched hmem with hactive | hworking | hscheduled | hcheck | hanswer
      · exact .inl hactive
      · exact .inr (.inl hworking)
      · by_cases hij : i = j
        · subst hij
          refine .inr (.inr (.inr (.inl ?_)))
          simp [hmem]
        · exact .inr (.inr (.inl ((List.mem_erase_of_ne hij).2 hscheduled)))
      · refine .inr (.inr (.inr (.inl ?_)))
        show i ∈ (if j ∈ s.bound then j :: s.checks else s.checks)
        split
        · exact List.mem_cons_of_mem _ hcheck
        · exact hcheck
      · exact .inr (.inr (.inr (.inr hanswer)))
  | checks j =>
    simp only [socketStep] at hst
    split at hst
    · cases hst
    · obtain rfl := Option.some.inj hst
      refine ⟨h.opened, fun hmem => ?_⟩
      rcases h.watched hmem with hactive | hworking | hscheduled | hcheck | hanswer
      · exact .inl hactive
      · exact .inr (.inl hworking)
      · exact .inr (.inr (.inl hscheduled))
      · by_cases hij : i = j
        · subst hij
          cases hall : (s.sockets i).ctx.all (isContextActive t o s.auth) with
          | false => exact .inr (.inr (.inr (.inr (by simp))))
          | true =>
            refine .inl fun ctx hctx => ?_
            have hsocket : (s.sockets i).ctx = some ctx := hctx
            rw [hsocket] at hall
            exact hall
        · exact .inr (.inr (.inr (.inl ((List.mem_erase_of_ne hij).2 hcheck))))
      · exact .inr (.inr (.inr (.inr (List.mem_cons_of_mem _ hanswer))))
  | answered j active =>
    simp only [socketStep] at hst
    split at hst
    · cases hst
    · have hrest : (i, active) ≠ (i, false) ∨ i ≠ j →
          Watched t o i { s with answers := s.answers.erase (j, active) } := by
        intro hother
        refine ⟨h.opened, fun hmem => ?_⟩
        rcases h.watched hmem with hactive | hworking | hscheduled | hcheck | hanswer
        · exact .inl hactive
        · exact .inr (.inl hworking)
        · exact .inr (.inr (.inl hscheduled))
        · exact .inr (.inr (.inr (.inl hcheck)))
        · refine .inr (.inr (.inr (.inr ((List.mem_erase_of_ne ?_).2 hanswer))))
          rintro heq
          obtain ⟨rfl, rfl⟩ := Prod.mk.inj heq
          rcases hother with hother | hother
          · exact hother rfl
          · exact hother rfl
      split at hst
      · rename_i hkeeps
        obtain rfl := Option.some.inj hst
        by_cases hij : i = j
        · subst hij
          cases active with
          | true => exact hrest (.inl (by simp))
          | false =>
            have hunbound : i ∉ s.bound := by simpa using hkeeps
            exact ⟨h.opened, fun hmem => absurd hmem hunbound⟩
        · exact hrest (.inr hij)
      · obtain rfl := Option.some.inj hst
        by_cases hij : i = j
        · subst hij
          have hgone : i ∉ (s.unbind i).bound := fun hmem => ((s.mem_unbind i i).1 hmem).2 rfl
          exact ⟨fun hmem => absurd hmem hgone, fun hmem => absurd hmem hgone⟩
        · exact (hrest (.inr hij)).unbinds j

/-- In every run whose sockets are bound with an identity that is active, or that an operation has still to send a
notification for, the bound sockets are active whenever no notification and no re-check is to come.  A socket bound
otherwise in such a state is not active, and no re-check is to come. -/
theorem bound_sockets_active (t : CaseTable) (o : SessionOptions) (hash : Str → Str) :
    (∀ now stores sessions history s,
      GuardedRun (socketStep t o hash) (Timely t o) (SocketsState.start now stores sessions) history s → s.Settled →
      ∀ i ∈ s.bound, s.Active t o i) ∧
    ∀ s s' i, s.Settled → ¬Timely t o s (.accepted i) → socketStep t o hash s (.accepted i) = some s' →
      s'.Settled ∧ i ∈ s'.bound ∧ ¬s'.Active t o i := by
  constructor
  · intro now stores sessions history s h hsettled i hmem
    have hstart : Watched t o i (SocketsState.start now stores sessions) :=
      ⟨fun hmem => absurd hmem List.not_mem_nil, fun hmem => absurd hmem List.not_mem_nil⟩
    have hwatched := h.invariant hstart fun _ _ _ hs hg hst => hs.step hg hst
    obtain ⟨hworking, hscheduled, hchecks, hanswers⟩ := hsettled
    rcases hwatched.watched hmem with hactive | hpending | hpending | hpending | hpending
    · exact hactive
    · omega
    · simp [hscheduled] at hpending
    · simp [hchecks] at hpending
    · simp [hanswers] at hpending
  · intro s s' i hsettled hlate hst
    obtain ⟨hended, -⟩ := not_or.1 hlate
    have hctx : (s.sockets i).ctx.isSome = true := by
      cases hctx : (s.sockets i).ctx with
      | none => exact absurd (fun ctx heq => by rw [hctx] at heq; cases heq) hended
      | some ctx => rfl
    simp only [socketStep] at hst
    split at hst
    · cases hst
    · obtain rfl := Option.some.inj hst
      refine ⟨hsettled, ?_, fun hactive => hended fun ctx heq => hactive ctx ?_⟩
      · exact List.mem_append_right _ (List.mem_singleton.2 rfl)
      · show ((s.set i (s.sockets i).opens).sockets i).ctx = some ctx
        rw [s.set_sockets_self]
        exact heq

instance (s : SocketsState) (a : SocketAction) : Decidable (Timely t o s a) :=
  match a with
  | .accepted i => inferInstanceAs (Decidable (s.Active t o i ∨ 0 < s.working))
  | .issueTicket .. | .connect .. | .dropped _ | .disconnects _ | .sends _ | .publish .. | .starts | .writes _
  | .finishes | .notify | .spawnCheck _ | .checks _ | .answered .. => isTrue trivial

/-- Root has a socket in each of two sessions and signs out of one: its socket, bound after that but before the
notification is sent, is closed by the re-check, and the other one stays. -/
theorem bound_sockets_active_root :
    let t : CaseTable := fun _ c _ => [c]
    let hash : Str → Str := fun ticket => ticket
    ∃ history s, GuardedRun (socketStep t {} hash) (Timely t {})
      (SocketsState.start 0 (seed ['r']) [rootSession, ⟨"s2".toList, "h2".toList, ['r'], 0, 0⟩]) history s ∧
      s.Settled ∧ 1 ∈ s.bound ∧ (s.sockets 2).phase = .closed ∧ ¬s.Active t {} 2 ∧ ∀ i ∈ s.bound, s.Active t {} i := by
  intro t hash
  let second : SocketContext := { rootContext with sessionId := some "s2".toList }
  have hexec : (exec (socketStep t {} hash)
      (SocketsState.start 0 (seed ['r']) [rootSession, ⟨"s2".toList, "h2".toList, ['r'], 0, 0⟩])
      [.issueTicket rootContext "k".toList, .connect 1 .events "k".toList false, .accepted 1,
        .issueTicket second "l".toList, .connect 2 .events "l".toList false, .starts, .writes (.logout "h2".toList),
        .accepted 2, .finishes, .spawnCheck 1, .spawnCheck 2, .checks 2, .checks 1, .answered 1 true,
        .answered 2 false]).any
      (fun r => r.1.all (fun m => decide (Timely t {} m.pre m.act)) && (decide r.2.Settled && (decide (1 ∈ r.2.bound) &&
        (decide ((r.2.sockets 2).phase = .closed) && decide (¬r.2.Active t {} 2))))) = true := by decide +kernel
  obtain ⟨⟨history, s⟩, hexec, hall⟩ := (Option.any_eq_true _ _).1 hexec
  obtain ⟨htimely, hrest⟩ := Bool.and_eq_true_iff.1 hall
  obtain ⟨hsettled, hrest⟩ := Bool.and_eq_true_iff.1 hrest
  obtain ⟨hbound, hrest⟩ := Bool.and_eq_true_iff.1 hrest
  obtain ⟨hclosed, hended⟩ := Bool.and_eq_true_iff.1 hrest
  have hrun := (run_of_exec hexec).restrict (H := Timely t {}) fun m hm =>
    of_decide_eq_true (List.all_eq_true.1 htimely m hm)
  exact ⟨history, s, hrun, of_decide_eq_true hsettled, of_decide_eq_true hbound, of_decide_eq_true hclosed,
    of_decide_eq_true hended, (bound_sockets_active t {} hash).1 _ _ _ _ _ hrun (of_decide_eq_true hsettled)⟩

/-- The user signs out between the consumption of the ticket and the bind: the socket stays open. -/
theorem socket_outlives_session :
    let t : CaseTable := fun _ c _ => [c]
    let hash : Str → Str := fun ticket => ticket
    ∃ history s, Run (socketStep t {} hash) (SocketsState.start 0 (seed ['r']) [rootSession]) history s ∧
      s.Settled ∧ ∃ i ∈ s.bound, ¬s.Active t {} i := by
  intro t hash
  have hexec : (exec (socketStep t {} hash) (SocketsState.start 0 (seed ['r']) [rootSession])
      [.issueTicket rootContext "k".toList, .connect 0 .events "k".toList false, .starts, .writes (.logout "h1".toList),
        .finishes, .accepted 0]).any
      (fun r => decide r.2.Settled && (decide (0 ∈ r.2.bound) && decide (¬r.2.Active t {} 0))) = true := by
    decide +kernel
  obtain ⟨⟨history, s⟩, hexec, hall⟩ := (Option.any_eq_true _ _).1 hexec
  obtain ⟨hsettled, hrest⟩ := Bool.and_eq_true_iff.1 hall
  obtain ⟨hbound, hended⟩ := Bool.and_eq_true_iff.1 hrest
  exact ⟨history, s, run_of_exec hexec, of_decide_eq_true hsettled, 0, of_decide_eq_true hbound,
    of_decide_eq_true hended⟩

end CliServer
