import CliServer.Users.Sockets
import CliServer.Users.Tokens

/-!
# The audience of an event

A socket keeps the context of its ticket, with the permissions its user had when the ticket was consumed; an event's
audience is compared with these.  `Entitled` asks the stores instead: what the user may do at the moment.
-/

namespace CliServer

open Transition

variable (t : CaseTable)

/-- The permissions of an identity at the moment: an adapter identity's are what the adapter answers, an API token's are
those of its scope that its user holds. -/
def currentPermissions (s : AuthState) (adapter : SocketContext → List Str) (ctx : SocketContext) : List Str :=
  if ctx.auth.external then adapter ctx
  else match ctx.auth.apiToken with
    | some token =>
      match s.stores.tokens.find? (·.id = token.id) with
      | none => []
      | some record => ((contextForApiToken t s.stores record s.now).toOption.map AuthContext.permissions).getD []
    | none => ((s.stores.getUser t ctx.auth.user.id).map (s.stores.userPermissions t)).getD []

/-- The event is for the identity: for everyone, for its user, or for a permission it holds at the moment. -/
def Entitled (s : AuthState) (adapter : SocketContext → List Str) (ctx : SocketContext) (audience : CliEventAudience) :
    Prop :=
  audience.isEveryone = true ∨ audience.userId = some ctx.auth.user.id ∨
    ∃ p, audience.permission = some p ∧ hasPermission t (currentPermissions t s adapter ctx) p = true

/-- `publish_event` puts the event in the socket's queue. -/
def Queued (sockets : Nat → Socket) (message : Str) (audience : CliEventAudience) (i : Nat) : Prop :=
  (publishEvent t sockets message audience i).outbox = (sockets i).outbox ++ [message]

instance (sockets : Nat → Socket) (message : Str) (audience : CliEventAudience) (i : Nat) :
    Decidable (Queued t sockets message audience i) := inferInstanceAs (Decidable (_ = _))

/-- The permissions the context was given allow what the identity's permissions at the moment allow. -/
def Unchanged (s : AuthState) (adapter : SocketContext → List Str) (ctx : SocketContext) (p : Str) : Prop :=
  ctx.auth.can t p = true ↔ hasPermission t (currentPermissions t s adapter ctx) p = true

variable {t} {o : SessionOptions} {hash : Str → Str} {s s' : SocketsState} {a : SocketAction} {i : Nat}

/-! ### Where a socket's context comes from -/

/-- A ticket gives an adapter identity's context, or one with the permissions of the moment. -/
private theorem redeem_permissions {s : AuthState} {entry : Ticket} {ctx : SocketContext}
    (h : (redeem t o s entry).1 = some ctx) (adapter : SocketContext → List Str) :
    entry.externalCtx = some ctx ∨ ctx.auth.permissions = currentPermissions t s adapter ctx := by
  unfold redeem at h
  split at h
  · rename_i hexternal
    exact .inl (hexternal.trans h)
  · right
    unfold currentPermissions
    split at h
    · split at h
      · cases h
      · rename_i id _ _ record hfind
        split at h
        · cases h
        · obtain ⟨auth, hauth, rfl⟩ := Option.map_eq_some_iff.1 h
          have hok := ok_of_toOption hauth
          have hid : record.id = id := by simpa using List.find?_some hfind
          obtain ⟨-, user, -, -, -, hctx⟩ := contextForApiToken_eq_ok.1 hok
          have hexternal : auth.external = false := by rw [hctx]
          have htoken : auth.apiToken = some record := by rw [hctx]
          simp only [hexternal, htoken, hid, hfind, hauth, Bool.false_eq_true, if_false, Option.map_some,
            Option.getD_some]
    · split at h
      · cases h
      · rename_i session hfind
        split at h
        · cases h
        · split at h
          · cases h
          · have hok := ok_of_toOption h
            obtain ⟨-, hmem, -, -⟩ := contextForSession_ok hok
            unfold contextForSession at hok
            split at hok
            · cases hok
            · split at hok
              · cases hok
              · obtain rfl := Except.ok.inj hok
                simp only [Bool.false_eq_true, if_false]
                rw [s.stores.getUser_of_mem hmem]
                rfl

private theorem consumeTicket_permissions {s : AuthState} (htickets : AdapterTickets s) {ticket : Str}
    {ctx : SocketContext}
    (h : (consumeTicket t o hash s ticket).1 = some ctx) (adapter : SocketContext → List Str) :
    ctx.auth.external = true ∨ ctx.auth.permissions = currentPermissions t s adapter ctx := by
  rcases consumeTicket_cases s ticket with heq | ⟨entry, hmem, heq | ⟨-, heq⟩⟩
  · rw [heq] at h
    cases h
  · rw [heq] at h
    cases h
  · rw [heq] at h
    rcases redeem_permissions h adapter with hexternal | hsame
    · exact .inl (htickets _ hmem ctx hexternal)
    · exact .inr hsame

/-- A step leaves the tickets to adapter identities' contexts. -/
private theorem socketStep_adapter (h : AdapterTickets s.auth) (hst : socketStep t o hash s a = some s') :
    AdapterTickets s'.auth := by
  cases a with
  | issueTicket ctx ticket =>
    simp only [socketStep] at hst
    split at hst
    · cases hst
    · obtain rfl := Option.some.inj hst
      exact issueTicket_adapter h ctx ticket
  | connect j kind ticket mustChange =>
    simp only [socketStep] at hst
    have hauth : ∀ socket, some ({ s with auth := (consumeTicket t o hash s.auth ticket).2 }.set j socket) = some s' →
        AdapterTickets s'.auth := by
      intro socket heq
      obtain rfl := Option.some.inj heq
      exact fun e he => h e (consumeTicket_tickets he)
    split at hst
    · cases hst
    · split at hst
      · exact hauth _ hst
      · split at hst
        · exact hauth _ hst
        · exact hauth _ hst
  | writes a =>
    simp only [socketStep] at hst
    split at hst
    · cases hst
    · rename_i hwrite
      obtain ⟨auth, hauth, rfl⟩ := Option.map_eq_some_iff.1 hst
      rcases ticketStep_cases hauth with ⟨ctx, ticket, rfl, -, -⟩ | ⟨-, -, htickets⟩
      · exact absurd (.inr rfl) hwrite
      · exact fun e he => h e (htickets e he)
  | publish message audience =>
    obtain rfl := Option.some.inj hst
    exact h
  | starts =>
    obtain rfl := Option.some.inj hst
    exact h
  | notify =>
    obtain rfl := Option.some.inj hst
    exact h
  | answered j active =>
    simp only [socketStep] at hst
    split at hst
    · cases hst
    · split at hst <;> (obtain rfl := Option.some.inj hst; exact h)
  | _ =>
    simp only [socketStep] at hst
    split at hst
    · cases hst
    · obtain rfl := Option.some.inj hst
      exact h

/-- A socket's context stays the one its ticket gave. -/
private theorem ctx_of_step (hst : socketStep t o hash s a = some s') {ctx : SocketContext}
    (hctx : (s'.sockets i).ctx = some ctx) :
    (s.sockets i).ctx = some ctx ∨ ∃ kind ticket mustChange, a = .connect i kind ticket mustChange ∧
      (consumeTicket t o hash s.auth ticket).1 = some ctx := by
  have hset : ∀ j socket, socket.ctx = (s.sockets j).ctx →
      (Function.update s.sockets j socket i).ctx = some ctx → (s.sockets i).ctx = some ctx := by
    intro j socket hsame hset
    by_cases hij : i = j
    · subst hij
      rw [Function.update_self, hsame] at hset
      exact hset
    · rw [Function.update_of_ne hij] at hset
      exact hset
  cases a with
  | connect j kind ticket mustChange =>
    simp only [socketStep] at hst
    have hother : ∀ socket, some ({ s with auth := (consumeTicket t o hash s.auth ticket).2 }.set j socket) = some s' →
        i ≠ j → (s.sockets i).ctx = some ctx := by
      intro socket heq hij
      obtain rfl := Option.some.inj heq
      rw [SocketsState.set_sockets_of_ne _ _ hij] at hctx
      exact hctx
    have hclosed : some ({ s with auth := (consumeTicket t o hash s.auth ticket).2 }.set j
        { kind := kind, phase := .closed }) = some s' → (s.sockets i).ctx = some ctx := by
      intro heq
      by_cases hij : i = j
      · subst hij
        obtain rfl := Option.some.inj heq
        rw [SocketsState.set_sockets_self] at hctx
        cases hctx
      · exact hother _ heq hij
    split at hst
    · cases hst
    · split at hst
      · exact .inl (hclosed hst)
      · rename_i found hfound
        split at hst
        · exact .inl (hclosed hst)
        · by_cases hij : i = j
          · subst hij
            obtain rfl := Option.some.inj hst
            rw [SocketsState.set_sockets_self] at hctx
            obtain rfl : found = ctx := Option.some.inj hctx
            exact .inr ⟨kind, ticket, mustChange, rfl, hfound⟩
          · exact .inl (hother _ hst hij)
  | accepted j =>
    simp only [socketStep] at hst
    split at hst
    · cases hst
    · obtain rfl := Option.some.inj hst
      exact .inl (hset j (s.sockets j).opens rfl hctx)
  | dropped j =>
    simp only [socketStep] at hst
    split at hst
    · cases hst
    · obtain rfl := Option.some.inj hst
      exact .inl (hset j (s.sockets j).close rfl hctx)
  | disconnects j =>
    simp only [socketStep] at hst
    split at hst
    · cases hst
    · obtain rfl := Option.some.inj hst
      exact .inl (hset j (s.sockets j).close rfl hctx)
  | sends j =>
    simp only [socketStep] at hst
    split at hst
    · cases hst
    · obtain rfl := Option.some.inj hst
      exact .inl (hset j { s.sockets j with outbox := (s.sockets j).outbox.tail } rfl hctx)
  | publish message audience =>
    obtain rfl := Option.some.inj hst
    exact .inl ((publishEvent_same s.sockets message audience i).2.symm.trans hctx)
  | writes a =>
    simp only [socketStep] at hst
    split at hst
    · cases hst
    · obtain ⟨auth, -, rfl⟩ := Option.map_eq_some_iff.1 hst
      exact .inl hctx
  | starts =>
    obtain rfl := Option.some.inj hst
    exact .inl hctx
  | notify =>
    obtain rfl := Option.some.inj hst
    exact .inl hctx
  | answered j active =>
    simp only [socketStep] at hst
    split at hst
    · cases hst
    · split at hst
      · obtain rfl := Option.some.inj hst
        exact .inl hctx
      · obtain rfl := Option.some.inj hst
        exact .inl (hset j (s.sockets j).close rfl hctx)
  | _ =>
    simp only [socketStep] at hst
    split at hst
    · cases hst
    · obtain rfl := Option.some.inj hst
      exact .inl hctx

/-! ### Who receives an event -/

private theorem receives_iff (ctx : SocketContext) (audience : CliEventAudience) :
    receives t (some ctx) audience true = true ↔ audience.isEveryone = true ∨
      audience.userId = some ctx.auth.user.id ∨ ∃ p, audience.permission = some p ∧ ctx.auth.can t p = true := by
  unfold receives
  by_cases heveryone : audience.isEveryone = true
  · simp [heveryone]
  · rw [if_neg heveryone]
    simp [heveryone, Option.any_eq_true]

private theorem queued_iff {sockets : Nat → Socket} (hopened : (sockets i).phase = .opened)
    (hkind : (sockets i).kind = .events)
    (message : Str) (audience : CliEventAudience) :
    Queued t sockets message audience i ↔
      receives t (sockets i).ctx audience true = true ∧ (sockets i).outbox.length < maxPendingEvents := by
  unfold Queued publishEvent
  simp only [hopened, hkind, true_and]
  by_cases hreceives : receives t (sockets i).ctx audience true = true
  · simp only [hreceives, if_true, true_and]
    unfold Socket.enqueue
    by_cases hroom : (sockets i).outbox.length < maxPendingEvents
    · rw [if_neg (not_le.2 hroom)]
      simp [hroom]
    · rw [if_pos (not_lt.1 hroom)]
      simp [hroom]
  · simp [hreceives]

/-- What the context was given decides as the stores do now, exactly when the event is for everyone, for the socket's
user, or for a permission whose answer has not changed. -/
private theorem receives_iff_entitled (s : AuthState) (adapter : SocketContext → List Str) (ctx : SocketContext)
    (audience : CliEventAudience) :
    (receives t (some ctx) audience true = true ↔ Entitled t s adapter ctx audience) ↔
      audience.isEveryone = true ∨ audience.userId = some ctx.auth.user.id ∨
        ∀ p, audience.permission = some p → Unchanged t s adapter ctx p := by
  rw [receives_iff]
  unfold Entitled Unchanged
  by_cases heveryone : audience.isEveryone = true
  · simp [heveryone]
  · by_cases howner : audience.userId = some ctx.auth.user.id
    · simp [howner]
    · cases hpermission : audience.permission with
      | none => simp [heveryone, howner]
      | some p => simp [heveryone, howner]

/-- In every run an open events socket keeps the context its ticket gave, with the permissions of that moment (an
adapter identity's: those the ticket was issued with).  An event is queued to it exactly when the socket is entitled
to it at the moment, if and only if its queue has room for what it is entitled to, and where there is room the event
is for everyone, for its user, or for a permission whose answer has not changed since.  Without a context it gets what
is for everyone. -/
theorem event_queued_iff {now : Nat} {stores : Stores} {sessions : List Session}
    {history : List (Move SocketsState SocketAction)}
    (h : Run (socketStep t o hash) (SocketsState.start now stores sessions) history s)
    (adapter : SocketContext → List Str) (message : Str) (audience : CliEventAudience)
    (hopened : (s.sockets i).phase = .opened) (hkind : (s.sockets i).kind = .events) :
    (∀ ctx, (s.sockets i).ctx = some ctx →
      (∃ m ∈ history, ∃ kind ticket mustChange, m.act = .connect i kind ticket mustChange ∧
        (ctx.auth.external = true ∨ ctx.auth.permissions = currentPermissions t m.pre.auth adapter ctx)) ∧
      ((Queued t s.sockets message audience i ↔ Entitled t s.auth adapter ctx audience) ↔
        (Entitled t s.auth adapter ctx audience → (s.sockets i).outbox.length < maxPendingEvents) ∧
        ((s.sockets i).outbox.length < maxPendingEvents → audience.isEveryone = true ∨
          audience.userId = some ctx.auth.user.id ∨
          ∀ p, audience.permission = some p → Unchanged t s.auth adapter ctx p))) ∧
    ((s.sockets i).ctx = none → (Queued t s.sockets message audience i ↔
      audience.isEveryone = true ∧ (s.sockets i).outbox.length < maxPendingEvents)) := by
  constructor
  · intro ctx hctx
    constructor
    · have hadapter : ∀ s a u, AdapterTickets s.auth → True → socketStep t o hash s a = some u →
          AdapterTickets u.auth :=
        fun _ _ _ hs _ hst => socketStep_adapter hs hst
      have hstart : AdapterTickets (SocketsState.start now stores sessions).auth := fun e he => by cases he
      have hcame := h.came_with (P := fun s => (s.sockets i).ctx = some ctx)
        (Q := fun m => ∃ kind ticket mustChange, m.act = .connect i kind ticket mustChange ∧
          (consumeTicket t o hash m.pre.auth ticket).1 = some ctx)
        (fun m hm hpost => ctx_of_step (h.of_mem hstart hadapter hm).2.2 hpost) hctx
      rcases hcame with hnone | ⟨m, hm, kind, ticket, mustChange, hact, hconsume⟩
      · cases hnone
      · exact ⟨m, hm, kind, ticket, mustChange, hact,
          consumeTicket_permissions (h.of_mem hstart hadapter hm).1 hconsume adapter⟩
    · rw [queued_iff hopened hkind, hctx, ← receives_iff_entitled]
      by_cases hroom : (s.sockets i).outbox.length < maxPendingEvents
      · simp [hroom]
      · simp [hroom]
  · intro hctx
    rw [queued_iff hopened hkind, hctx]
    have hreceives : receives t none audience true = audience.isEveryone := by
      unfold receives
      cases audience.isEveryone <;> rfl
    rw [hreceives]

/-- A user with `users:read`, signed in. -/
def readerSession : Session := ⟨"s1".toList, "h1".toList, "u1".toList, 0, 0⟩

def readerContext : SocketContext where
  auth :=
    { user := ⟨"u1".toList, "ann".toList, "ann@localhost".toList, ["readers".toList], false, none⟩
      permissions := ["users:read".toList], session := true }
  sessionId := some "s1".toList

theorem event_queued_iff_reader :
    let t : CaseTable := fun _ c _ => [c]
    let hash : Str → Str := fun ticket => ticket
    let audience : CliEventAudience := { permission := some "users:read".toList }
    ∃ history s, Run (socketStep t {} hash) (SocketsState.start 0 (readerStores "users:read".toList) [readerSession])
        history s ∧ (s.sockets 0).ctx = some readerContext ∧
      ((Queued t s.sockets ['m'] audience 0 ↔ Entitled t s.auth (fun _ => []) readerContext audience) ↔
        (Entitled t s.auth (fun _ => []) readerContext audience → (s.sockets 0).outbox.length < 1000) ∧
        ((s.sockets 0).outbox.length < 1000 → audience.isEveryone = true ∨
          audience.userId = some readerContext.auth.user.id ∨
          ∀ p, audience.permission = some p → Unchanged t s.auth (fun _ => []) readerContext p)) := by
  intro t hash audience
  have hexec : (exec (socketStep t {} hash) (SocketsState.start 0 (readerStores "users:read".toList) [readerSession])
      [.issueTicket readerContext ['k'], .connect 0 .events ['k'] false, .accepted 0]).any
      (fun r => decide ((r.2.sockets 0).phase = .opened) && (decide ((r.2.sockets 0).kind = .events) &&
        decide ((r.2.sockets 0).ctx = some readerContext))) = true := by decide +kernel
  obtain ⟨⟨history, s⟩, hexec, hall⟩ := (Option.any_eq_true _ _).1 hexec
  obtain ⟨hopened, hrest⟩ := Bool.and_eq_true_iff.1 hall
  obtain ⟨hkind, hctx⟩ := Bool.and_eq_true_iff.1 hrest
  have hrun := run_of_exec hexec
  exact ⟨history, s, hrun, of_decide_eq_true hctx,
    ((event_queued_iff hrun (fun _ => []) ['m'] audience (of_decide_eq_true hopened)
      (of_decide_eq_true hkind)).1 _ (of_decide_eq_true hctx)).2⟩

/-- The permission is taken from the user's group while the socket is open: the event is still queued to it. -/
theorem event_queued_after_edit :
    let t : CaseTable := fun _ c _ => [c]
    let hash : Str → Str := fun ticket => ticket
    let audience : CliEventAudience := { permission := some "users:read".toList }
    ∃ history s, Run (socketStep t {} hash) (SocketsState.start 0 (readerStores "users:read".toList) [readerSession])
        history s ∧ (s.sockets 0).phase = .opened ∧ (s.sockets 0).ctx = some readerContext ∧
      Queued t s.sockets ['m'] audience 0 ∧ ¬Entitled t s.auth (fun _ => []) readerContext audience := by
  intro t hash audience
  have hexec : (exec (socketStep t {} hash) (SocketsState.start 0 (readerStores "users:read".toList) [readerSession])
      [.issueTicket readerContext ['k'], .connect 0 .events ['k'] false, .accepted 0, .starts,
        .writes (.others (readerStores "jobs:read".toList) [readerSession]), .finishes, .spawnCheck 0, .checks 0,
        .answered 0 true]).any
      (fun r => decide ((r.2.sockets 0).phase = .opened) && (decide ((r.2.sockets 0).ctx = some readerContext) &&
        (decide (Queued t r.2.sockets ['m'] audience 0) &&
        !hasPermission t (currentPermissions t r.2.auth (fun _ => []) readerContext) "users:read".toList))) = true := by
    decide +kernel
  obtain ⟨⟨history, s⟩, hexec, hall⟩ := (Option.any_eq_true _ _).1 hexec
  obtain ⟨hopened, hrest⟩ := Bool.and_eq_true_iff.1 hall
  obtain ⟨hctx, hrest⟩ := Bool.and_eq_true_iff.1 hrest
  obtain ⟨hqueued, hlost⟩ := Bool.and_eq_true_iff.1 hrest
  refine ⟨history, s, run_of_exec hexec, of_decide_eq_true hopened, of_decide_eq_true hctx, of_decide_eq_true hqueued, ?_⟩
  rintro (heveryone | howner | ⟨p, hp, hholds⟩)
  · cases heveryone
  · cases howner
  · obtain rfl : "users:read".toList = p := Option.some.inj hp
    rw [Bool.not_eq_true'] at hlost
    exact Bool.false_ne_true (hlost.symm.trans hholds)

end CliServer
