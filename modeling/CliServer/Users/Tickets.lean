import CliServer.Lib.Transition
import CliServer.Users.Sessions

/-!
# WebSocket tickets

Tickets are in a table of their own, keyed by their hash; a ticket remembers what it was issued for, and
`consume_ticket` takes it out of the table and looks that up again.  An action of `ticketStep` is what an operation
does between two suspensions: over the in-memory stores `consume_ticket` and `issue_ticket` are one action, while
deleting a user writes the users and the tokens in two, and `cleanup_sessions` publishes events between its sweep of
the sessions and that of the tickets.  `others` is any other write of users, groups, tokens and sessions.
-/

namespace CliServer

open Transition

/-- `_Ticket`. -/
structure Ticket where
  sessionId : Option Str
  userId : Str
  expiresAt : Int
  externalCtx : Option SocketContext
  apiTokenId : Option Str
  deriving DecidableEq, Repr

/-- The stores, the tickets by hash, the clock, and the hashes of the tickets drawn so far. -/
structure AuthState where
  now : Nat
  stores : Stores
  sessions : List Session
  tickets : List (Str × Ticket)
  drawn : List Str

namespace AuthState

/-- No ticket is drawn yet. -/
def start (now : Nat) (stores : Stores) (sessions : List Session) : AuthState := ⟨now, stores, sessions, [], []⟩

/-- `_drop_tickets`. -/
def dropTickets (s : AuthState) (sessionId : Str) : AuthState :=
  { s with tickets := s.tickets.filter fun e => e.2.sessionId ≠ some sessionId }

/-- `self._tickets.pop(key, None)`. -/
def popTicket (s : AuthState) (key : Str) : AuthState := { s with tickets := s.tickets.filter (·.1 ≠ key) }

/-- Drops the tickets that are expired. -/
def dropExpired (s : AuthState) : AuthState :=
  { s with tickets := s.tickets.filter fun e => !decide (e.2.expiresAt ≤ s.now) }

end AuthState

variable (t : CaseTable) (o : SessionOptions) (hash : Str → Str)

/-- The ticket `issue_ticket` makes for a caller. -/
def newTicket (now : Nat) (ctx : SocketContext) : Ticket where
  sessionId := if ctx.auth.external then none else ctx.sessionId
  userId := ctx.auth.user.id
  expiresAt := now + o.ticketTtl
  externalCtx := if ctx.auth.external then some ctx else none
  apiTokenId := ctx.auth.apiToken.map ApiToken.id

/-- `issue_ticket`; `ticket` is the text drawn. -/
def issueTicket (s : AuthState) (ctx : SocketContext) (ticket : Str) : AuthState :=
  let s := s.dropExpired
  { s with tickets := s.tickets ++ [(hash ticket, newTicket o s.now ctx)], drawn := hash ticket :: s.drawn }

/-- `consume_ticket` of a ticket that is in the table and not expired. -/
def redeem (s : AuthState) (entry : Ticket) : Option SocketContext × AuthState :=
  match entry.externalCtx with
  | some ctx => (some ctx, s)
  | none =>
    match entry.apiTokenId with
    | some id =>
      match s.stores.tokens.find? (·.id = id) with
      | none => (none, s)
      | some record =>
        if record.userId ≠ entry.userId then (none, s)
        else ((contextForApiToken t s.stores record s.now).toOption.map fun ctx => ⟨ctx, none⟩, s)
    | none =>
      match entry.sessionId.bind (sessionById s.sessions) with
      | none => (none, s)
      | some session =>
        if session.userId ≠ entry.userId then (none, s)
        -- An expired session is deleted on the way.
        else if session.isExpired o s.now then (none, { s with sessions := deleteSessionById s.sessions session.id })
        else ((contextForSession t s.stores session).toOption, s)

/-- `consume_ticket`. -/
def consumeTicket (s : AuthState) (ticket : Str) : Option SocketContext × AuthState :=
  if ticket = [] then (none, s)
  else match s.tickets.find? (·.1 = hash ticket) with
    | none => (none, s)
    | some (_, entry) =>
      if entry.expiresAt ≤ s.now then (none, s.popTicket (hash ticket))
      else redeem t o (s.popTicket (hash ticket)) entry

/-- What an operation does between two suspensions. -/
inductive TicketAction where
  | issue (ctx : SocketContext) (ticket : Str)
  | consume (ticket : Str)
  /-- `logout`, with the bearer token. -/
  | logout (token : Str)
  /-- `revoke_session`: by itself, or in a loop of `revoke_user_sessions`. -/
  | revokeSession (session : Session)
  | revokeToken (id : Str)
  /-- The write of `update_user`, which may disable the user. -/
  | updateUser (id : Str) (changes : UserChanges)
  /-- The user's deletion from its store. -/
  | deleteUser (id : Str)
  /-- The deletion of a deleted user's tokens. -/
  | deleteUserTokens (id : Str)
  | cleanupSessions
  | cleanupTickets
  | others (stores : Stores) (sessions : List Session)
  | tick (ms : Nat)

/-- One action; the hash of a new ticket (`secrets.token_hex`) has not been drawn before. -/
def ticketStep (s : AuthState) : TicketAction → Option AuthState
  | .issue ctx ticket => if hash ticket ∈ s.drawn then none else some (issueTicket o hash s ctx ticket)
  | .consume ticket => some (consumeTicket t o hash s ticket).2
  | .logout token =>
    match s.sessions.find? (·.tokenHash = hash token) with
    | none => some s
    | some session =>
      some ({ s with sessions := s.sessions.filter (·.tokenHash ≠ hash token) }.dropTickets session.id)
  | .revokeSession session =>
    some ({ s with sessions := deleteSessionById s.sessions session.id }.dropTickets session.id)
  | .revokeToken id => some { s with stores := { s.stores with tokens := s.stores.tokens.filter (·.id ≠ id) } }
  | .updateUser id changes => some { s with stores := s.stores.updateUser id changes }
  | .deleteUser id =>
    some { s with stores := { s.stores with
      users := s.stores.users.filter (·.id ≠ id)
      users_nodup := s.stores.users_nodup.sublist (List.filter_sublist.map _) } }
  | .deleteUserTokens id =>
    some { s with stores := { s.stores with tokens := s.stores.tokens.filter (·.userId ≠ id) } }
  | .cleanupSessions => some { s with sessions := cleanupSessions o s.sessions s.now }
  | .cleanupTickets => some s.dropExpired
  | .others stores sessions => some { s with stores := stores, sessions := sessions }
  | .tick ms => some { s with now := s.now + ms }

/-- What stands behind a context at the moment: for an adapter identity the context the ticket was issued for, else the
API token or the session of the context `issued` it was issued for, unexpired, of a user that is there and enabled. -/
def Backed (s : AuthState) (issued ctx : SocketContext) : Prop :=
  if issued.auth.external then ctx = issued
  else
    ctx.auth.user ∈ s.stores.users ∧ ctx.auth.user.id = issued.auth.user.id ∧ ctx.auth.user.disabled = false ∧
    match issued.auth.apiToken with
    | some token => ∃ record ∈ s.stores.tokens, record.id = token.id ∧ record.userId = issued.auth.user.id ∧
        record.isExpired s.now = false
    | none => ∃ session ∈ s.sessions, issued.sessionId = some session.id ∧ session.userId = issued.auth.user.id ∧
        session.isExpired o s.now = false

/-- The move consumes the ticket with this hash and gets a context. -/
def Consumes (key : Str) (m : Move AuthState TicketAction) : Bool :=
  match m.act with
  | .consume ticket => hash ticket = key && (consumeTicket t o hash m.pre ticket).1.isSome
  | _ => false

variable {t o hash} {s s' : AuthState}

/-! ### Consuming a ticket -/

private theorem redeem_tickets (s : AuthState) (entry : Ticket) :
    (redeem t o s entry).2.tickets = s.tickets ∧ (redeem t o s entry).2.drawn = s.drawn := by
  unfold redeem
  split
  · exact ⟨rfl, rfl⟩
  · split
    · split
      · exact ⟨rfl, rfl⟩
      · split <;> exact ⟨rfl, rfl⟩
    · split
      · exact ⟨rfl, rfl⟩
      · split
        · exact ⟨rfl, rfl⟩
        · split <;> exact ⟨rfl, rfl⟩

/-- A context is had only for what still stands behind the ticket. -/
private theorem backed_of_redeem {issued ctx : SocketContext} {now : Nat}
    (h : (redeem t o s (newTicket o now issued)).1 = some ctx) : Backed o s issued ctx := by
  unfold redeem newTicket at h
  unfold Backed
  by_cases hexternal : issued.auth.external = true
  · simp only [hexternal, if_true] at h ⊢
    exact (Option.some.inj h).symm
  · simp only [hexternal, if_false, Bool.false_eq_true] at h ⊢
    cases htoken : issued.auth.apiToken with
    | some token =>
      simp only [htoken, Option.map_some] at h
      split at h
      · cases h
      · rename_i record hfind
        have hrecord := List.mem_of_find?_eq_some hfind
        have hid : record.id = token.id := by simpa using List.find?_some hfind
        split at h
        · cases h
        · rename_i huser
          obtain ⟨auth, hauth, rfl⟩ := Option.map_eq_some_iff.1 h
          obtain ⟨hexpired, user, hmem, huid, henabled, rfl⟩ := contextForApiToken_eq_ok.1 (ok_of_toOption hauth)
          have hsame := not_not.1 huser
          exact ⟨hmem, huid.trans hsame, henabled, record, hrecord, hid, hsame, hexpired⟩
    | none =>
      simp only [htoken, Option.map_none] at h
      split at h
      · cases h
      · rename_i session hfind
        obtain ⟨sessionId, hsession, hfind⟩ := Option.bind_eq_some_iff.1 hfind
        obtain ⟨hmem, rfl⟩ := mem_of_sessionById hfind
        split at h
        · cases h
        · rename_i huser
          split at h
          · cases h
          · rename_i hexpired
            obtain ⟨-, huserMem, huid, henabled⟩ := contextForSession_ok (ok_of_toOption h)
            have hsame := not_not.1 huser
            exact ⟨huserMem, huid.trans hsame, henabled, session, hmem, hsession, hsame, Bool.eq_false_iff.2 hexpired⟩

/-- A ticket is popped, and redeemed when it is not expired. -/
theorem consumeTicket_cases (s : AuthState) (ticket : Str) :
    consumeTicket t o hash s ticket = (none, s) ∨ ∃ entry, (hash ticket, entry) ∈ s.tickets ∧
      (consumeTicket t o hash s ticket = (none, s.popTicket (hash ticket)) ∨
        s.now < entry.expiresAt ∧ consumeTicket t o hash s ticket = redeem t o (s.popTicket (hash ticket)) entry) := by
  unfold consumeTicket
  by_cases hempty : ticket = []
  · exact .inl (if_pos hempty)
  · rw [if_neg hempty]
    cases hfind : s.tickets.find? (·.1 = hash ticket) with
    | none => exact .inl rfl
    | some e =>
      obtain ⟨key, entry⟩ := e
      have hkey : key = hash ticket := by simpa using List.find?_some hfind
      refine .inr ⟨entry, hkey ▸ List.mem_of_find?_eq_some hfind, ?_⟩
      by_cases hexpired : entry.expiresAt ≤ s.now
      · exact .inl (if_pos hexpired)
      · exact .inr ⟨not_le.1 hexpired, if_neg hexpired⟩

private theorem consumeTicket_drawn (s : AuthState) (ticket : Str) :
    (consumeTicket t o hash s ticket).2.drawn = s.drawn := by
  rcases consumeTicket_cases s ticket with h | ⟨entry, -, h | ⟨-, h⟩⟩
  · rw [h]
  · rw [h]
    rfl
  · rw [h]
    exact (redeem_tickets _ entry).2

/-- Consuming a ticket takes none but it out of the table. -/
theorem consumeTicket_mem {ticket : Str} {e : Str × Ticket} (he : e ∈ (consumeTicket t o hash s ticket).2.tickets) :
    e ∈ s.tickets ∧ ((consumeTicket t o hash s ticket).1.isSome → e.1 ≠ hash ticket) := by
  rcases consumeTicket_cases s ticket with h | ⟨entry, -, h | ⟨-, h⟩⟩
  · rw [h] at he ⊢
    exact ⟨he, fun hsome => by cases hsome⟩
  · rw [h] at he ⊢
    exact ⟨List.mem_of_mem_filter he, fun hsome => by cases hsome⟩
  · rw [h, (redeem_tickets _ entry).1] at he
    obtain ⟨he, hne⟩ := List.mem_filter.1 he
    exact ⟨he, fun _ => of_decide_eq_true hne⟩

/-! ### The table of tickets -/

/-- A step adds a ticket whose hash is new, or adds none; it never forgets a hash. -/
theorem ticketStep_cases {a : TicketAction} (h : ticketStep t o hash s a = some s') :
    (∃ ctx ticket, a = .issue ctx ticket ∧ hash ticket ∉ s.drawn ∧ s' = issueTicket o hash s ctx ticket) ∨
    ((∀ ctx ticket, a ≠ .issue ctx ticket) ∧ s'.drawn = s.drawn ∧ ∀ e ∈ s'.tickets, e ∈ s.tickets) := by
  have hkept : ∀ {u : AuthState}, some u = some s' → u.drawn = s.drawn → (∀ e ∈ u.tickets, e ∈ s.tickets) →
      s'.drawn = s.drawn ∧ ∀ e ∈ s'.tickets, e ∈ s.tickets := by
    intro u hu hdrawn htickets
    obtain rfl := Option.some.inj hu
    exact ⟨hdrawn, htickets⟩
  cases a with
  | issue ctx ticket =>
    simp only [ticketStep] at h
    split at h
    · cases h
    · rename_i hnew
      exact .inl ⟨ctx, ticket, rfl, hnew, (Option.some.inj h).symm⟩
  | consume ticket =>
    refine .inr ⟨fun _ _ => TicketAction.noConfusion, hkept h (consumeTicket_drawn s ticket) fun e he => ?_⟩
    exact (consumeTicket_mem he).1
  | logout token =>
    simp only [ticketStep] at h
    refine .inr ⟨fun _ _ => TicketAction.noConfusion, ?_⟩
    split at h
    · exact hkept h rfl fun e he => he
    · exact hkept h rfl fun e he => List.mem_of_mem_filter he
  | revokeSession session =>
    exact .inr ⟨fun _ _ => TicketAction.noConfusion, hkept h rfl fun e he => List.mem_of_mem_filter he⟩
  | cleanupTickets =>
    exact .inr ⟨fun _ _ => TicketAction.noConfusion, hkept h rfl fun e he => List.mem_of_mem_filter he⟩
  | _ => exact .inr ⟨fun _ _ => TicketAction.noConfusion, hkept h rfl fun e he => he⟩

variable {key : Str} {history : List (Move AuthState TicketAction)} {a : TicketAction}

/-- What holds of the tickets with one hash: while one is in the table, or none is drawn, none was consumed. -/
structure Once (t : CaseTable) (o : SessionOptions) (hash : Str → Str) (key : Str)
    (history : List (Move AuthState TicketAction)) (s : AuthState) : Prop where
  drawn : ∀ e ∈ s.tickets, e.1 ∈ s.drawn
  unused : key ∉ s.drawn → history.countP (Consumes t o hash key) = 0
  present : (∃ e ∈ s.tickets, e.1 = key) → history.countP (Consumes t o hash key) = 0
  once : history.countP (Consumes t o hash key) ≤ 1

/-- A move that consumes the ticket finds it in the table and leaves none. -/
private theorem consumes_iff {s' : AuthState} (h : Consumes t o hash key ⟨s, a, s'⟩ = true)
    (hst : ticketStep t o hash s a = some s') :
    (∃ e ∈ s.tickets, e.1 = key) ∧ ∀ e ∈ s'.tickets, e.1 ≠ key := by
  unfold Consumes at h
  split at h
  · rename_i ticket hact
    obtain rfl : a = .consume ticket := hact
    obtain ⟨hkey, hsome⟩ : hash ticket = key ∧ (consumeTicket t o hash s ticket).1.isSome := by simpa using h
    obtain rfl := Option.some.inj hst
    refine ⟨?_, fun e he => hkey ▸ (consumeTicket_mem he).2 hsome⟩
    rcases consumeTicket_cases s ticket with heq | ⟨entry, hmem, -⟩
    · rw [heq] at hsome
      cases hsome
    · exact ⟨_, hmem, hkey⟩
  · cases h

theorem Once.step (h : Once t o hash key history s) (hst : ticketStep t o hash s a = some s') :
    Once t o hash key (history ++ [⟨s, a, s'⟩]) s' := by
  by_cases hconsumes : Consumes t o hash key ⟨s, a, s'⟩ = true
  · -- The ticket is in the table, so that it was not consumed before; afterwards it is gone for good.
    obtain ⟨hpresent, hgone⟩ := consumes_iff hconsumes hst
    have hzero := h.present hpresent
    have hone : List.countP (Consumes t o hash key) (history ++ [⟨s, a, s'⟩]) = 1 := by
      rw [List.countP_append, hzero, List.countP_singleton, if_pos hconsumes]
    rcases ticketStep_cases hst with ⟨ctx, ticket, rfl, -, -⟩ | ⟨-, hdrawn, htickets⟩
    · cases hconsumes
    · refine ⟨fun e he => hdrawn ▸ h.drawn e (htickets e he), fun hno => ?_, ?_, hone.le⟩
      · obtain ⟨e, he, rfl⟩ := hpresent
        exact absurd (hdrawn ▸ h.drawn e he) hno
      · rintro ⟨e, he, hkey⟩
        exact absurd hkey (hgone e he)
  · have hsame : List.countP (Consumes t o hash key) (history ++ [⟨s, a, s'⟩]) =
        history.countP (Consumes t o hash key) := by
      rw [List.countP_append, List.countP_singleton, if_neg hconsumes, Nat.add_zero]
    rcases ticketStep_cases hst with ⟨ctx, ticket, rfl, hnew, rfl⟩ | ⟨-, hdrawn, htickets⟩
    · have hold : ∀ e ∈ (issueTicket o hash s ctx ticket).tickets, e ∈ s.tickets ∨ e.1 = hash ticket := by
        intro e he
        rcases List.mem_append.1 he with he | he
        · exact .inl (List.mem_of_mem_filter he)
        · exact .inr (congrArg Prod.fst (List.mem_singleton.1 he))
      refine ⟨fun e he => ?_, fun hno => ?_, ?_, hsame ▸ h.once⟩
      · rcases hold e he with he | he
        · exact List.mem_cons_of_mem _ (h.drawn e he)
        · exact he ▸ List.mem_cons_self
      · rw [hsame]
        exact h.unused fun hmem => hno (List.mem_cons_of_mem _ hmem)
      · rintro ⟨e, he, rfl⟩
        rw [hsame]
        rcases hold e he with he | he
        · exact h.present ⟨e, he, rfl⟩
        · exact h.unused (he ▸ hnew)
    · refine ⟨fun e he => hdrawn ▸ h.drawn e (htickets e he), fun hno => ?_, ?_, hsame ▸ h.once⟩
      · rw [hsame]
        exact h.unused (hdrawn ▸ hno)
      · rintro ⟨e, he, hkey⟩
        rw [hsame]
        exact h.present ⟨e, htickets e he, hkey⟩

/-- Every ticket in the table was issued. -/
def Issued (o : SessionOptions) (hash : Str → Str) (history : List (Move AuthState TicketAction))
    (s : AuthState) : Prop :=
  ∀ e ∈ s.tickets, ∃ m ∈ history, ∃ ctx ticket, m.act = .issue ctx ticket ∧ hash ticket = e.1 ∧
    e.2 = newTicket o m.pre.now ctx

theorem Issued.step (h : Issued o hash history s) (hst : ticketStep t o hash s a = some s') :
    Issued o hash (history ++ [⟨s, a, s'⟩]) s' := by
  have hold : ∀ e ∈ s.tickets, ∃ m ∈ history ++ [⟨s, a, s'⟩], ∃ ctx ticket, m.act = .issue ctx ticket ∧
      hash ticket = e.1 ∧ e.2 = newTicket o m.pre.now ctx := by
    intro e he
    obtain ⟨m, hm, hissue⟩ := h e he
    exact ⟨m, List.mem_append_left _ hm, hissue⟩
  intro e he
  rcases ticketStep_cases hst with ⟨ctx, ticket, rfl, -, rfl⟩ | ⟨-, -, htickets⟩
  · rcases List.mem_append.1 he with he | he
    · exact hold e (List.mem_of_mem_filter he)
    · obtain rfl := List.mem_singleton.1 he
      exact ⟨_, List.mem_append_right _ (List.mem_singleton.2 rfl), ctx, ticket, rfl, rfl, rfl⟩
  · exact hold e (htickets e he)

/-- In every run each ticket is consumed at most once; and where `consume_ticket` gives a context, a ticket with that
hash was issued, it is not expired, and what it was issued for still stands behind the context. -/
theorem ticket_redeemed {now : Nat} {stores : Stores} {sessions : List Session}
    (h : Run (ticketStep t o hash) (AuthState.start now stores sessions) history s) :
    (∀ key, history.countP (Consumes t o hash key) ≤ 1) ∧
    ∀ ticket ctx, (consumeTicket t o hash s ticket).1 = some ctx →
      ∃ m ∈ history, ∃ issued ticket', m.act = .issue issued ticket' ∧ hash ticket' = hash ticket ∧
        (s.now : Int) < m.pre.now + o.ticketTtl ∧ ctx.auth.user.id = issued.auth.user.id ∧ Backed o s issued ctx := by
  constructor
  · intro key
    have hstart : Once t o hash key [] (AuthState.start now stores sessions) :=
      ⟨fun e he => absurd he List.not_mem_nil, fun _ => rfl, fun _ => rfl, Nat.zero_le _⟩
    exact (h.history hstart fun _ _ _ _ hs _ hst => hs.step hst).once
  · intro ticket ctx hctx
    have hstart : Issued o hash [] (AuthState.start now stores sessions) := fun e he => absurd he List.not_mem_nil
    have hissued := h.history hstart fun _ _ _ _ hs _ hst => hs.step hst
    rcases consumeTicket_cases s ticket with heq | ⟨entry, hmem, heq | ⟨hlive, heq⟩⟩
    · rw [heq] at hctx
      cases hctx
    · rw [heq] at hctx
      cases hctx
    · obtain ⟨m, hm, issued, ticket', hact, hhash, hentry⟩ := hissued _ hmem
      obtain rfl : entry = newTicket o m.pre.now issued := hentry
      rw [heq] at hctx
      have hbacked : Backed o (s.popTicket (hash ticket)) issued ctx := backed_of_redeem hctx
      refine ⟨m, hm, issued, ticket', hact, hhash, hlive, ?_, hbacked⟩
      unfold Backed at hbacked
      split at hbacked
      · rw [hbacked]
      · exact hbacked.2.1

/-- A session of the seeded root user, and its context. -/
def rootSession : Session := ⟨"s1".toList, "h1".toList, ['r'], 0, 0⟩

def rootContext : SocketContext where
  auth :=
    { user := ⟨['r'], "root".toList, "root@localhost".toList, [adminGroup], false, none⟩
      permissions := [['*']], session := true }
  sessionId := some "s1".toList

theorem ticket_redeemed_root :
    let t : CaseTable := fun _ c _ => [c]
    let ticket := "k".toList
    ∃ history s, Run (ticketStep t {} id) (AuthState.start 0 (seed ['r']) [rootSession]) history s ∧
      (consumeTicket t {} id s ticket).1 = some rootContext ∧
      ∃ m ∈ history, ∃ issued ticket', m.act = .issue issued ticket' ∧ ticket' = ticket ∧
        (s.now : Int) < m.pre.now + 30000 ∧ rootContext.auth.user.id = issued.auth.user.id ∧
        Backed {} s issued rootContext := by
  intro t ticket
  have hexec : ∃ history s, exec (ticketStep t {} id) (AuthState.start 0 (seed ['r']) [rootSession])
      [.issue rootContext ticket, .tick 29999] = some (history, s) ∧
        (consumeTicket t {} id s ticket).1 = some rootContext := ⟨_, _, rfl, by decide⟩
  obtain ⟨history, s, hexec, hconsume⟩ := hexec
  have hrun := run_of_exec hexec
  exact ⟨history, s, hrun, hconsume, (ticket_redeemed hrun).2 ticket rootContext hconsume⟩

end CliServer
