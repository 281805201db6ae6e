import CliServer.Users.Audience

/-!
# What an events socket is sent

`publish_event` puts an event in the queue of every socket of its audience, and a task for each socket takes the
messages out one by one and sends them.  So a socket is sent the events that were put in its queue, in their order, up
to where its sender was stopped or a send failed; what was waiting then is lost (`event_delivery`,
`event_lost_on_disconnect`).
-/

namespace CliServer

open Transition

/-- An event on the bus; its text is `none` when `json.dumps` raises on it. -/
structure BusEvent where
  text : Option Str
  audience : CliEventAudience
  deriving DecidableEq, Repr

/-- A message in a socket's queue: an event goes by the number of events passed to `publish_event` before it. -/
inductive Frame where
  | connected
  | event (number : Nat) (event : BusEvent)
  deriving DecidableEq, Repr

/-- Where a socket's `_send_loop` is. -/
inductive SenderTask where
  /-- In `outbox.get()`. -/
  | waits
  /-- In `send_text`, the message not yet out. -/
  | sends (frame : Frame)
  /-- In `send_text`, the message out. -/
  | sent
  /-- A send has failed. -/
  | ended
  deriving DecidableEq, Repr

/-- A socket's entries in `_clients`, `_principals`, `_outboxes` and `_senders`, and what it has been sent. -/
structure EventSocket where
  phase : SocketPhase := .idle
  client : Bool := false
  principal : Option SocketContext := none
  outbox : Option (List Frame) := none
  sender : Option SenderTask := none
  sent : List Frame := []
  deriving DecidableEq

namespace EventSocket

/-- `handle_connection` once the socket is accepted. -/
def opens (e : EventSocket) (identity : Option SocketContext) : EventSocket :=
  { e with
    phase := .opened
    client := true
    principal := identity
    outbox := some [.connected]
    sender := some .waits }

/-- `_enqueue`. -/
def enqueue (e : EventSocket) (frame : Frame) : EventSocket :=
  match e.outbox with
  | none => e
  | some outbox => if maxPendingEvents ≤ outbox.length then e else { e with outbox := some (outbox ++ [frame]) }

/-- `_stop_sender`. -/
def stopSender (e : EventSocket) : EventSocket := { e with outbox := none, sender := none }

/-- The socket is taken out of `_clients` and `_principals`. -/
def forget (e : EventSocket) : EventSocket := { e with client := false, principal := none }

/-- The sender takes a message. -/
def takes (e : EventSocket) : Option EventSocket :=
  match e.sender, e.outbox with
  | some .waits, some (frame :: rest) => some { e with outbox := some rest, sender := some (.sends frame) }
  | _, _ => none

/-- The message goes out. -/
def reaches (e : EventSocket) : Option EventSocket :=
  match e.sender with
  | some (.sends frame) => some { e with sender := some .sent, sent := e.sent ++ [frame] }
  | _ => none

/-- `send_text` returns. -/
def returns (e : EventSocket) : Option EventSocket :=
  if e.sender = some .sent then some { e with sender := some .waits } else none

/-- `send_text` raises. -/
def raises (e : EventSocket) : Option EventSocket :=
  match e.sender with
  | some (.sends _) | some .sent => some { e with sender := some .ended }
  | _ => none

/-- The sender is at work. -/
def Running (e : EventSocket) : Prop := ∃ task, e.sender = some task ∧ task ≠ .ended

/-- The socket is a client with a sender at work. -/
def Connected (e : EventSocket) : Prop := e.client = true ∧ e.Running

/-- The bus events it has been sent. -/
def events (e : EventSocket) : List (Nat × BusEvent) :=
  e.sent.filterMap fun frame => match frame with
    | .connected => none
    | .event number event => some (number, event)

/-- The messages that wait in its queue. -/
def pending (e : EventSocket) : List Frame := e.outbox.getD []

/-- The message waits in the queue, or is being sent. -/
def Waiting (e : EventSocket) (frame : Frame) : Prop := frame ∈ e.pending ∨ e.sender = some (.sends frame)

end EventSocket

/-- The sockets by their number, the number of events passed to `publish_event`, and the calls of `broadcast_disconnect`
that have stopped the senders and not yet cleared the tables. -/
structure EventsState where
  sockets : Nat → EventSocket
  passed : Nat
  shutdowns : Nat

namespace EventsState

def start : EventsState := ⟨fun _ => {}, 0, 0⟩

/-- Socket `i` goes on as `e`. -/
def set (s : EventsState) (i : Nat) (e : EventSocket) : EventsState :=
  { s with sockets := Function.update s.sockets i e }

end EventsState

inductive EventsAction where
  /-- `handle_connection` is called, and awaits `accept`. -/
  | accept (i : Nat)
  | acceptFails (i : Nat)
  | opens (i : Nat)
  /-- `publish_event`; whether the server requires authentication is asked on every event. -/
  | publish (event : BusEvent) (requiresAuth : Bool)
  | takes (i : Nat)
  | reaches (i : Nat)
  | returns (i : Nat)
  | raises (i : Nat)
  /-- `receive_text` raises, and the handler ends. -/
  | disconnects (i : Nat)
  /-- `_on_session_ended`. -/
  | sessionEnds (i : Nat)
  /-- `broadcast_disconnect`, up to the sends. -/
  | shutdown
  /-- Its rest. -/
  | cleared
  deriving DecidableEq

variable (t : CaseTable) (identity : Nat → Option SocketContext)

/-- What `publish_event` does for one socket. -/
def EventSocket.offer (e : EventSocket) (number : Nat) (event : BusEvent) (requiresAuth : Bool) : EventSocket :=
  if e.client = true ∧ receives t e.principal event.audience requiresAuth then e.enqueue (.event number event) else e

def eventsStep (s : EventsState) : EventsAction → Option EventsState
  | .accept i => if (s.sockets i).phase = .idle then some (s.set i { s.sockets i with phase := .accepting }) else none
  | .acceptFails i =>
    if (s.sockets i).phase = .accepting then some (s.set i { s.sockets i with phase := .closed }) else none
  | .opens i => if (s.sockets i).phase = .accepting then some (s.set i ((s.sockets i).opens (identity i))) else none
  | .publish event requiresAuth =>
    some { s with
      sockets := fun i => if event.text.isSome then (s.sockets i).offer t s.passed event requiresAuth else s.sockets i
      passed := s.passed + 1 }
  | .takes i => (s.sockets i).takes.map (s.set i)
  | .reaches i => (s.sockets i).reaches.map (s.set i)
  | .returns i => (s.sockets i).returns.map (s.set i)
  | .raises i => (s.sockets i).raises.map (s.set i)
  | .disconnects i =>
    if (s.sockets i).phase = .opened then
      some (s.set i { (s.sockets i).stopSender.forget with phase := .closed })
    else none
  | .sessionEnds i =>
    if (s.sockets i).phase = .opened then some (s.set i (s.sockets i).stopSender.forget) else none
  | .shutdown => some { s with sockets := fun i => (s.sockets i).stopSender, shutdowns := s.shutdowns + 1 }
  | .cleared =>
    if s.shutdowns = 0 then none
    else some { s with sockets := fun i => (s.sockets i).forget, shutdowns := s.shutdowns - 1 }

/-! ### What is promised -/

/-- The events passed to `publish_event`, with their numbers. -/
def published (ms : List (Move EventsState EventsAction)) : List (Nat × BusEvent) :=
  ms.filterMap fun m => match m.act with
    | .publish event _ => some (m.pre.passed, event)
    | _ => none

/-- Why a socket of the audience has not been sent an event, which was published by the move `m`. -/
inductive Unsent (i : Nat) (m : Move EventsState EventsAction) (event : BusEvent) (s : EventsState) : Prop
  /-- It was published while the queue was full. -/
  | full (h : maxPendingEvents ≤ (m.pre.sockets i).pending.length)
  /-- Or while the socket was not connected: not yet, or after it was closed or removed, or a send had failed. -/
  | unconnected (h : ¬ (m.pre.sockets i).Connected)
  /-- It waits to be sent. -/
  | waiting (h : (s.sockets i).Waiting (.event m.pre.passed event))
  /-- It was waiting to be sent when the sender was stopped or a send failed. -/
  | stopped (hbefore : (m.pre.sockets i).Connected) (h : ¬ (s.sockets i).Running)
  /-- It has no JSON text. -/
  | textless (h : event.text = none)

/-! ### One socket -/

/-- The messages put in a queue, with these events. -/
def framesOf (queued : List (Nat × BusEvent)) : List Frame := .connected :: queued.map fun x => .event x.1 x.2

namespace EventSocket

/-- What was put in the queue has been sent, is being sent or waits; of a socket whose sender is not at work, a first
part of it has been sent. -/
def Flow (e : EventSocket) (frames : List Frame) : Prop :=
  match e.sender with
  | some .waits | some .sent => ∃ outbox, e.outbox = some outbox ∧ frames = e.sent ++ outbox
  | some (.sends frame) => ∃ outbox, e.outbox = some outbox ∧ frames = e.sent ++ frame :: outbox
  | some .ended | none => e.sent <+: frames

/-- Nothing has happened to the socket yet. -/
structure Unopened (e : EventSocket) : Prop where
  client : e.client = false
  outbox : e.outbox = none
  sender : e.sender = none
  sent : e.sent = []

/-- The invariant of a socket, with the events that were put in its queue. -/
structure Holds (identity : Option SocketContext) (queued : List (Nat × BusEvent)) (e : EventSocket) : Prop where
  unopened : e.phase = .idle ∨ e.phase = .accepting → e.Unopened ∧ queued = []
  principal : e.client = true → e.principal = identity
  flow : e.Flow (framesOf queued)

variable {e e' : EventSocket} {ctx : Option SocketContext} {queued : List (Nat × BusEvent)} {frames : List Frame}

/-- At any time a first part of the queue has been sent. -/
private theorem Flow.sent_initial (h : e.Flow frames) : e.sent <+: frames := by
  unfold Flow at h
  split at h
  · obtain ⟨outbox, -, rfl⟩ := h
    exact List.prefix_append _ _
  · obtain ⟨outbox, -, rfl⟩ := h
    exact List.prefix_append _ _
  · obtain ⟨outbox, -, rfl⟩ := h
    exact List.prefix_append _ _
  · exact h
  · exact h

/-- With a sender at work there is a queue, and what has not been sent waits. -/
private theorem Flow.of_running (h : e.Flow frames) (hrunning : e.Running) :
    (∃ outbox, e.outbox = some outbox) ∧ ∀ frame ∈ frames, frame ∈ e.sent ∨ e.Waiting frame := by
  obtain ⟨task, htask, hne⟩ := hrunning
  unfold Flow at h
  rw [htask] at h
  cases task with
  | ended => exact absurd rfl hne
  | waits =>
    obtain ⟨outbox, houtbox, rfl⟩ := h
    refine ⟨⟨outbox, houtbox⟩, fun frame hframe => (List.mem_append.1 hframe).imp_right fun hmem => .inl ?_⟩
    rwa [pending, houtbox]
  | sent =>
    obtain ⟨outbox, houtbox, rfl⟩ := h
    refine ⟨⟨outbox, houtbox⟩, fun frame hframe => (List.mem_append.1 hframe).imp_right fun hmem => .inl ?_⟩
    rwa [pending, houtbox]
  | sends flying =>
    obtain ⟨outbox, houtbox, rfl⟩ := h
    refine ⟨⟨outbox, houtbox⟩, fun frame hframe => (List.mem_append.1 hframe).imp_right fun hmem => ?_⟩
    rcases List.mem_cons.1 hmem with rfl | hmem
    · exact .inr htask
    · exact .inl (by rwa [pending, houtbox])

/-- Putting a message in the queue. -/
theorem Flow.enqueue {outbox : List Frame} (h : e.Flow frames) (frame : Frame) (houtbox : e.outbox = some outbox) :
    Flow { e with outbox := some (outbox ++ [frame]) } (frames ++ [frame]) := by
  unfold Flow at h ⊢
  show (match e.sender with
    | some .waits | some .sent => ∃ outbox', some (outbox ++ [frame]) = some outbox' ∧
      frames ++ [frame] = e.sent ++ outbox'
    | some (.sends flying) =>
      ∃ outbox', some (outbox ++ [frame]) = some outbox' ∧ frames ++ [frame] = e.sent ++ flying :: outbox'
    | some .ended | none => e.sent <+: frames ++ [frame])
  split at h
  · obtain ⟨outbox', heq, rfl⟩ := h
    obtain rfl := Option.some.inj (houtbox.symm.trans heq)
    exact ⟨_, rfl, List.append_assoc _ _ _⟩
  · obtain ⟨outbox', heq, rfl⟩ := h
    obtain rfl := Option.some.inj (houtbox.symm.trans heq)
    exact ⟨_, rfl, List.append_assoc _ _ _⟩
  · obtain ⟨outbox', heq, rfl⟩ := h
    obtain rfl := Option.some.inj (houtbox.symm.trans heq)
    exact ⟨_, rfl, by simp⟩
  · exact h.trans (List.prefix_append _ _)
  · exact h.trans (List.prefix_append _ _)

theorem Holds.opens (h : e.Holds ctx queued) (hphase : e.phase = .accepting) : (e.opens ctx).Holds ctx queued := by
  obtain ⟨hunopened, rfl⟩ := h.unopened (.inr hphase)
  refine ⟨fun hearly => (by rcases hearly with hearly | hearly <;> cases hearly), fun _ => rfl, ?_⟩
  show ∃ outbox, some [Frame.connected] = some outbox ∧ framesOf [] = e.sent ++ outbox
  rw [hunopened.sent]
  exact ⟨_, rfl, rfl⟩

private theorem Holds.stopSender (h : e.Holds ctx queued) : e.stopSender.Holds ctx queued where
  unopened hearly := by
    obtain ⟨hunopened, hnil⟩ := h.unopened hearly
    exact ⟨⟨hunopened.client, rfl, rfl, hunopened.sent⟩, hnil⟩
  principal := h.principal
  flow := h.flow.sent_initial

private theorem Holds.forget (h : e.Holds ctx queued) : e.forget.Holds ctx queued where
  unopened hearly := by
    obtain ⟨hunopened, hnil⟩ := h.unopened hearly
    exact ⟨⟨rfl, hunopened.outbox, hunopened.sender, hunopened.sent⟩, hnil⟩
  principal hclient := by cases hclient
  flow := h.flow

/-- The phase changes, to one where nothing is known of a socket that is not opened. -/
theorem Holds.phase {phase : SocketPhase} (h : e.Holds ctx queued)
    (hearly : phase = .idle ∨ phase = .accepting → e.phase = .idle ∨ e.phase = .accepting) :
    Holds ctx queued { e with phase := phase } where
  unopened hphase := by
    obtain ⟨hunopened, hnil⟩ := h.unopened (hearly hphase)
    exact ⟨⟨hunopened.client, hunopened.outbox, hunopened.sender, hunopened.sent⟩, hnil⟩
  principal := h.principal
  flow := h.flow

/-- The sender goes on. -/
private theorem Holds.of_sender {task : SenderTask} (h : e.Holds ctx queued) (hsender : e.sender = some task)
    (hphase : e'.phase = e.phase) (hclient : e'.client = e.client) (hprincipal : e'.principal = e.principal)
    (hflow : e'.Flow (framesOf queued)) : e'.Holds ctx queued where
  unopened hearly := by
    obtain ⟨hunopened, -⟩ := h.unopened (hphase ▸ hearly)
    have hnone := hunopened.sender
    rw [hsender] at hnone
    cases hnone
  principal := by
    rw [hclient, hprincipal]
    exact h.principal
  flow := hflow

theorem Holds.takes (h : e.Holds ctx queued) (heq : e.takes = some e') : e'.Holds ctx queued := by
  unfold EventSocket.takes at heq
  split at heq
  · rename_i frame rest hsender houtbox
    obtain rfl := Option.some.inj heq
    have hflow := h.flow
    unfold Flow at hflow
    rw [hsender] at hflow
    obtain ⟨outbox, houtbox', hframes⟩ := hflow
    obtain rfl := Option.some.inj (houtbox.symm.trans houtbox')
    exact h.of_sender hsender rfl rfl rfl ⟨rest, rfl, hframes⟩
  · cases heq

theorem Holds.reaches (h : e.Holds ctx queued) (heq : e.reaches = some e') : e'.Holds ctx queued := by
  unfold EventSocket.reaches at heq
  split at heq
  · rename_i frame hsender
    obtain rfl := Option.some.inj heq
    have hflow := h.flow
    unfold Flow at hflow
    rw [hsender] at hflow
    obtain ⟨outbox, houtbox, hframes⟩ := hflow
    refine h.of_sender hsender rfl rfl rfl ⟨outbox, houtbox, ?_⟩
    rw [hframes]
    exact List.append_cons _ _ _
  · cases heq

private theorem Holds.returns (h : e.Holds ctx queued) (heq : e.returns = some e') : e'.Holds ctx queued := by
  unfold EventSocket.returns at heq
  split at heq
  · rename_i hsender
    obtain rfl := Option.some.inj heq
    have hflow := h.flow
    unfold Flow at hflow
    rw [hsender] at hflow
    exact h.of_sender hsender rfl rfl rfl hflow
  · cases heq

theorem Holds.raises (h : e.Holds ctx queued) (heq : e.raises = some e') : e'.Holds ctx queued := by
  have hinitial := h.flow.sent_initial
  unfold EventSocket.raises at heq
  split at heq
  · rename_i frame hsender
    obtain rfl := Option.some.inj heq
    exact h.of_sender hsender rfl rfl rfl hinitial
  · rename_i hsender
    obtain rfl := Option.some.inj heq
    exact h.of_sender hsender rfl rfl rfl hinitial
  · cases heq

/-- An event offered to the socket is put in its queue, or the socket stays as it is: it is not in the audience, the
queue is full, or there is none. -/
private theorem Holds.offer {number : Nat} {event : BusEvent} {requiresAuth : Bool} (h : e.Holds ctx queued) :
    ((e.offer t number event requiresAuth).Holds ctx (queued ++ [(number, event)]) ∧ e.outbox.isSome = true) ∨
    (e.offer t number event requiresAuth = e ∧ (receives t ctx event.audience requiresAuth = true →
      maxPendingEvents ≤ e.pending.length ∨ ¬ e.Connected)) := by
  by_cases hreceives : e.client = true ∧ receives t e.principal event.audience requiresAuth = true
  · rw [EventSocket.offer, if_pos hreceives, EventSocket.enqueue]
    cases houtbox : e.outbox with
    | none =>
      refine .inr ⟨rfl, fun _ => .inr fun hconnected => ?_⟩
      obtain ⟨⟨outbox, hsome⟩, -⟩ := h.flow.of_running hconnected.2
      rw [houtbox] at hsome
      cases hsome
    | some outbox =>
      dsimp only
      by_cases hfull : maxPendingEvents ≤ outbox.length
      · rw [if_pos hfull]
        exact .inr ⟨rfl, fun _ => .inl (by rwa [pending, houtbox])⟩
      · rw [if_neg hfull]
        refine .inl ⟨⟨fun hearly => ?_, h.principal, ?_⟩, rfl⟩
        · obtain ⟨hunopened, -⟩ := h.unopened hearly
          have hnone := hunopened.outbox
          rw [houtbox] at hnone
          cases hnone
        · have hflow := h.flow.enqueue (.event number event) houtbox
          rwa [framesOf, List.map_append, ← List.cons_append]
  · rw [EventSocket.offer, if_neg hreceives]
    refine .inr ⟨rfl, fun hin => .inr fun hconnected => hreceives ⟨hconnected.1, ?_⟩⟩
    rwa [h.principal hconnected.1]

end EventSocket

/-! ### Runs -/

variable {t} {identity} {s s' : EventsState} {ms : List (Move EventsState EventsAction)} {i : Nat}
  {queued : List (Nat × BusEvent)}

private theorem holds_set {j : Nat} {e : EventSocket} (h : (s.sockets i).Holds (identity i) queued)
    (he : ∀ {queued}, (s.sockets j).Holds (identity j) queued → e.Holds (identity j) queued) :
    ((s.set j e).sockets i).Holds (identity i) queued := by
  show (Function.update s.sockets j e i).Holds (identity i) queued
  by_cases hij : i = j
  · subst hij
    rw [Function.update_self]
    exact he h
  · rw [Function.update_of_ne hij]
    exact h

/-- A step that publishes nothing keeps what is known of a socket. -/
theorem holds_step {a : EventsAction} (hquiet : ∀ event requiresAuth, a ≠ .publish event requiresAuth)
    (h : (s.sockets i).Holds (identity i) queued) (hst : eventsStep t identity s a = some s') :
    (s'.sockets i).Holds (identity i) queued := by
  cases a with
  | publish event requiresAuth => exact absurd rfl (hquiet event requiresAuth)
  | accept j =>
    simp only [eventsStep] at hst
    split at hst
    · rename_i hidle
      obtain rfl := Option.some.inj hst
      exact holds_set h fun h => h.phase fun _ => .inl hidle
    · cases hst
  | acceptFails j =>
    simp only [eventsStep] at hst
    split at hst
    · obtain rfl := Option.some.inj hst
      refine holds_set h fun h => h.phase fun hearly => ?_
      rcases hearly with hearly | hearly <;> cases hearly
    · cases hst
  | opens j =>
    simp only [eventsStep] at hst
    split at hst
    · rename_i haccepting
      obtain rfl := Option.some.inj hst
      exact holds_set h fun h => h.opens haccepting
    · cases hst
  | takes j =>
    obtain ⟨e, he, rfl⟩ := Option.map_eq_some_iff.1 hst
    exact holds_set h fun h => h.takes he
  | reaches j =>
    obtain ⟨e, he, rfl⟩ := Option.map_eq_some_iff.1 hst
    exact holds_set h fun h => h.reaches he
  | returns j =>
    obtain ⟨e, he, rfl⟩ := Option.map_eq_some_iff.1 hst
    exact holds_set h fun h => h.returns he
  | raises j =>
    obtain ⟨e, he, rfl⟩ := Option.map_eq_some_iff.1 hst
    exact holds_set h fun h => h.raises he
  | disconnects j =>
    simp only [eventsStep] at hst
    split at hst
    · obtain rfl := Option.some.inj hst
      refine holds_set h fun h => h.stopSender.forget.phase fun hearly => ?_
      rcases hearly with hearly | hearly <;> cases hearly
    · cases hst
  | sessionEnds j =>
    simp only [eventsStep] at hst
    split at hst
    · obtain rfl := Option.some.inj hst
      exact holds_set h fun h => h.stopSender.forget
    · cases hst
  | shutdown =>
    obtain rfl := Option.some.inj hst
    exact h.stopSender
  | cleared =>
    simp only [eventsStep] at hst
    split at hst
    · cases hst
    · obtain rfl := Option.some.inj hst
      exact h.forget

private theorem passed_step {a : EventsAction} (hquiet : ∀ event requiresAuth, a ≠ .publish event requiresAuth)
    (hst : eventsStep t identity s a = some s') : s'.passed = s.passed := by
  have hset : ∀ {j : Nat} {e : Option EventSocket}, e.map (s.set j) = some s' → s'.passed = s.passed := by
    intro j e he
    obtain ⟨e, -, rfl⟩ := Option.map_eq_some_iff.1 he
    rfl
  cases a with
  | publish event requiresAuth => exact absurd rfl (hquiet event requiresAuth)
  | takes j => exact hset hst
  | reaches j => exact hset hst
  | returns j => exact hset hst
  | raises j => exact hset hst
  | shutdown =>
    obtain rfl := Option.some.inj hst
    rfl
  | _ =>
    simp only [eventsStep] at hst
    split at hst
    all_goals cases hst
    all_goals rfl

/-- What is known of a socket after a run, with the events that were put in its queue. -/
structure Accounted (t : CaseTable) (identity : Nat → Option SocketContext) (ms : List (Move EventsState EventsAction))
    (s : EventsState) (i : Nat) (queued : List (Nat × BusEvent)) : Prop where
  holds : (s.sockets i).Holds (identity i) queued
  order : queued.Sublist (published ms)
  connected : ∀ x ∈ queued, ∃ m ∈ ms, ∃ requiresAuth, m.act = .publish x.2 requiresAuth ∧ m.pre.passed = x.1 ∧
    (m.pre.sockets i).outbox.isSome = true
  covers : ∀ m ∈ ms, ∀ event requiresAuth, m.act = .publish event requiresAuth →
    receives t (identity i) event.audience requiresAuth = true → (m.pre.passed, event) ∈ queued ∨ event.text = none ∨
      maxPendingEvents ≤ (m.pre.sockets i).pending.length ∨ ¬ (m.pre.sockets i).Connected

private theorem published_append (ms ms' : List (Move EventsState EventsAction)) :
    published (ms ++ ms') = published ms ++ published ms' := List.filterMap_append

private theorem published_quiet {m : Move EventsState EventsAction}
    (h : ∀ event requiresAuth, m.act ≠ .publish event requiresAuth) :
    published [m] = [] := by
  obtain ⟨pre, a, post⟩ := m
  cases a with
  | publish event requiresAuth => exact absurd rfl (h event requiresAuth)
  | _ => rfl

/-- A step keeps the account of a socket. -/
theorem Accounted.step {a : EventsAction} (h : Accounted t identity ms s i queued)
    (hst : eventsStep t identity s a = some s') :
    ∃ queued, Accounted t identity (ms ++ [⟨s, a, s'⟩]) s' i queued := by
  have hconnected : ∀ x ∈ queued, ∃ m ∈ ms ++ [⟨s, a, s'⟩], ∃ requiresAuth, m.act = .publish x.2 requiresAuth ∧
      m.pre.passed = x.1 ∧ (m.pre.sockets i).outbox.isSome = true := by
    intro x hx
    obtain ⟨m, hm, hfacts⟩ := h.connected x hx
    exact ⟨m, List.mem_append_left _ hm, hfacts⟩
  by_cases hpublish : ∃ event requiresAuth, a = .publish event requiresAuth
  · obtain ⟨event, requiresAuth, rfl⟩ := hpublish
    have hone : published [⟨s, .publish event requiresAuth, s'⟩] = [(s.passed, event)] := rfl
    have hcovers : ∀ queued' : List (Nat × BusEvent), (∀ x ∈ queued, x ∈ queued') →
        (receives t (identity i) event.audience requiresAuth = true → (s.passed, event) ∈ queued' ∨ event.text = none ∨
          maxPendingEvents ≤ (s.sockets i).pending.length ∨ ¬ (s.sockets i).Connected) →
        ∀ m ∈ ms ++ [⟨s, .publish event requiresAuth, s'⟩], ∀ event requiresAuth, m.act = .publish event requiresAuth →
          receives t (identity i) event.audience requiresAuth = true → (m.pre.passed, event) ∈ queued' ∨
            event.text = none ∨ maxPendingEvents ≤ (m.pre.sockets i).pending.length ∨
            ¬ (m.pre.sockets i).Connected := by
      intro queued' hsub hnew m hm event' requiresAuth' hact hreceives
      rcases List.mem_append.1 hm with hm | hm
      · exact (h.covers m hm event' requiresAuth' hact hreceives).imp_left (hsub _)
      · obtain rfl := List.mem_singleton.1 hm
        obtain ⟨rfl, rfl⟩ := EventsAction.publish.inj hact
        exact hnew hreceives
    have hsocket : s'.sockets i =
        if event.text.isSome then (s.sockets i).offer t s.passed event requiresAuth else s.sockets i := by
      obtain rfl := Option.some.inj hst
      rfl
    by_cases htext : event.text = none
    · rw [htext, Option.isSome_none, if_neg Bool.false_ne_true] at hsocket
      refine ⟨queued, ⟨?_, ?_, hconnected, hcovers queued (fun _ hx => hx) fun _ => .inr (.inl htext)⟩⟩
      · rw [hsocket]
        exact h.holds
      · rw [published_append]
        exact h.order.trans (List.sublist_append_left _ _)
    · rw [if_pos (Option.isSome_iff_ne_none.2 htext)] at hsocket
      rcases h.holds.offer (t := t) with ⟨hoffered, hsome⟩ | ⟨hsame, hmissed⟩
      · refine ⟨queued ++ [(s.passed, event)], ⟨?_, ?_, ?_, ?_⟩⟩
        · rw [hsocket]
          exact hoffered
        · rw [published_append, hone]
          exact h.order.append_right _
        · intro x hx
          rcases List.mem_append.1 hx with hx | hx
          · exact hconnected x hx
          · obtain rfl := List.mem_singleton.1 hx
            exact ⟨_, List.mem_append_right _ (List.mem_singleton.2 rfl), requiresAuth, rfl, rfl, hsome⟩
        · exact hcovers _ (fun _ hx => List.mem_append_left _ hx) fun _ =>
            .inl (List.mem_append_right _ (List.mem_singleton.2 rfl))
      · refine ⟨queued, ⟨?_, ?_, hconnected, hcovers queued (fun _ hx => hx) fun hin => .inr (.inr (hmissed hin))⟩⟩
        · rw [hsocket, hsame]
          exact h.holds
        · rw [published_append]
          exact h.order.trans (List.sublist_append_left _ _)
  · have hquiet : ∀ event requiresAuth, a ≠ .publish event requiresAuth :=
      fun event requiresAuth heq => hpublish ⟨event, requiresAuth, heq⟩
    refine ⟨queued, ⟨holds_step hquiet h.holds hst, ?_, hconnected, ?_⟩⟩
    · rw [published_append, published_quiet hquiet, List.append_nil]
      exact h.order
    · intro m hm event requiresAuth hact hreceives
      rcases List.mem_append.1 hm with hm | hm
      · exact h.covers m hm event requiresAuth hact hreceives
      · obtain rfl := List.mem_singleton.1 hm
        exact absurd hact (hquiet event requiresAuth)

private theorem accounted (h : Run (eventsStep t identity) .start ms s) (i : Nat) :
    ∃ queued, Accounted t identity ms s i queued := by
  refine h.history (I := fun ms s => ∃ queued, Accounted t identity ms s i queued) ?_ ?_
  · refine ⟨[], ⟨⟨fun _ => ⟨⟨rfl, rfl, rfl, rfl⟩, rfl⟩, fun h => (by cases h), List.nil_prefix⟩, List.Sublist.refl _, ?_, ?_⟩⟩
    · intro x hx
      cases hx
    · intro m hm
      cases hm
  · rintro ms s a s' ⟨queued, hs⟩ - hst
    exact hs.step hst

/-- An event goes by its own number. -/
private theorem published_numbers (h : Run (eventsStep t identity) .start ms s) :
    (published ms).map Prod.fst = List.range s.passed := by
  refine h.history (I := fun ms s => (published ms).map Prod.fst = List.range s.passed) rfl ?_
  intro ms s a s' hs _ hst
  rw [published_append, List.map_append, hs]
  by_cases hpublish : ∃ event requiresAuth, a = .publish event requiresAuth
  · obtain ⟨event, requiresAuth, rfl⟩ := hpublish
    obtain rfl := Option.some.inj hst
    exact List.range_succ.symm
  · have hquiet : ∀ event requiresAuth, a ≠ .publish event requiresAuth :=
      fun event requiresAuth heq => hpublish ⟨event, requiresAuth, heq⟩
    rw [published_quiet hquiet, passed_step hquiet hst]
    exact List.append_nil _

/-! ### Delivery -/

/-- A part of a list without repetition is what is left when the rest is taken out. -/
private theorem eq_filter_of_sublist {α : Type} [BEq α] [LawfulBEq α] {l l' : List α} (h : l'.Sublist l)
    (hnodup : l.Nodup) :
    l' = l.filter (· ∈ l') := by
  induction h with
  | slnil => rfl
  | @cons l' l a hsub ih =>
    obtain ⟨hnew, hrest⟩ := List.nodup_cons.1 hnodup
    have hout : a ∉ l' := fun ha => hnew (hsub.subset ha)
    rw [List.filter_cons_of_neg (by simpa using hout)]
    exact ih hrest
  | @cons_cons l' l a hsub ih =>
    obtain ⟨hnew, hrest⟩ := List.nodup_cons.1 hnodup
    have hsame : l.filter (· ∈ a :: l') = l.filter (· ∈ l') := by
      refine List.filter_congr fun x hx => ?_
      have hne : x ≠ a := fun heq => hnew (heq ▸ hx)
      simp [hne]
    rw [List.filter_cons_of_pos (by simp), hsame, ← ih hrest]

/-- Two parts of one list have their common members in the same order. -/
private theorem filter_mem_comm {α : Type} [BEq α] [LawfulBEq α] {l l₁ l₂ : List α} (hnodup : l.Nodup)
    (h₁ : l₁.Sublist l)
    (h₂ : l₂.Sublist l) : l₁.filter (· ∈ l₂) = l₂.filter (· ∈ l₁) := by
  calc l₁.filter (· ∈ l₂) = (l.filter (· ∈ l₁)).filter (· ∈ l₂) := by rw [← eq_filter_of_sublist h₁ hnodup]
    _ = (l.filter (· ∈ l₂)).filter (· ∈ l₁) := by
      rw [List.filter_filter, List.filter_filter]
      simp only [Bool.and_comm]
    _ = l₂.filter (· ∈ l₁) := by rw [← eq_filter_of_sublist h₂ hnodup]

/-- The socket has been sent `connected` and then a first part of the events put in its queue, or nothing. -/
private theorem EventSocket.Holds.sent_eq {ctx : Option SocketContext} {e : EventSocket} (h : e.Holds ctx queued) :
    (e.sent = [] ∨ e.sent = framesOf e.events) ∧ e.events <+: queued := by
  have hinitial := h.flow.sent_initial
  have hevents : ∀ l : List (Nat × BusEvent), (framesOf l).filterMap (fun frame => match frame with
      | .connected => none
      | .event number event => some (number, event)) = l := by
    intro l
    simp only [framesOf, List.filterMap_cons, List.filterMap_map]
    exact List.filterMap_some
  cases hsent : e.sent with
  | nil => exact ⟨.inl rfl, by rw [EventSocket.events, hsent]; exact List.nil_prefix⟩
  | cons frame rest =>
    rw [hsent, framesOf] at hinitial
    obtain ⟨rfl, hrest⟩ := List.cons_prefix_cons.1 hinitial
    have htake : rest = (queued.take rest.length).map fun x => .event x.1 x.2 := by
      rw [List.map_take]
      exact List.prefix_iff_eq_take.1 hrest
    have hall : e.sent = framesOf (queued.take rest.length) := by rw [hsent, framesOf, ← htake]
    have hfirst : e.events = queued.take rest.length := by rw [EventSocket.events, hall, hevents]
    rw [← hsent, hfirst]
    exact ⟨.inr hall, List.take_prefix _ _⟩

/-- For each socket: the bus events it has been sent are part of those passed to `publish_event`, in that order, each
of them once and published when `connected` was in the queue already; an event of its audience that it has not been
sent was published while the queue was full or the socket not connected, or waits, or was waiting when the sender was
stopped or a send failed, or has no text.  And any two sockets have been sent their common events in the same order.
-/
theorem event_delivery (h : Run (eventsStep t identity) .start ms s) :
    (published ms).Nodup ∧
    (∀ i, (s.sockets i).events.Sublist (published ms) ∧
      ((s.sockets i).sent = [] ∨ (s.sockets i).sent = framesOf (s.sockets i).events) ∧
      ∀ x ∈ (s.sockets i).events, ∃ m ∈ ms, ∃ requiresAuth, m.act = .publish x.2 requiresAuth ∧ m.pre.passed = x.1 ∧
        (m.pre.sockets i).outbox.isSome = true) ∧
    (∀ i, ∀ m ∈ ms, ∀ event requiresAuth, m.act = .publish event requiresAuth →
      receives t (identity i) event.audience requiresAuth = true → (m.pre.passed, event) ∉ (s.sockets i).events →
      Unsent i m event s) ∧
    ∀ i j, (s.sockets i).events.filter (· ∈ (s.sockets j).events) =
      (s.sockets j).events.filter (· ∈ (s.sockets i).events) := by
  have hnodup : (published ms).Nodup := by
    refine List.Nodup.of_map Prod.fst ?_
    rw [published_numbers h]
    exact List.nodup_range
  have hsent : ∀ i, (s.sockets i).events.Sublist (published ms) := by
    intro i
    obtain ⟨queued, haccount⟩ := accounted h i
    exact haccount.holds.sent_eq.2.sublist.trans haccount.order
  refine ⟨hnodup, fun i => ⟨hsent i, ?_⟩, fun i m hm event requiresAuth hact hreceives hmissing => ?_, fun i j => ?_⟩
  · obtain ⟨queued, haccount⟩ := accounted h i
    obtain ⟨hshape, hinitial⟩ := haccount.holds.sent_eq
    exact ⟨hshape, fun x hx => haccount.connected x (hinitial.subset hx)⟩
  · obtain ⟨queued, haccount⟩ := accounted h i
    rcases haccount.covers m hm event requiresAuth hact hreceives with hqueued | htext | hfull | hunconnected
    · by_cases hconnected : (m.pre.sockets i).Connected
      · by_cases hrunning : (s.sockets i).Running
        · have hframe : Frame.event m.pre.passed event ∈ framesOf queued :=
            List.mem_cons_of_mem _ (List.mem_map.2 ⟨_, hqueued, rfl⟩)
          rcases (haccount.holds.flow.of_running hrunning).2 _ hframe with hsent | hwaiting
          · have hevent : (m.pre.passed, event) ∈ (s.sockets i).events := List.mem_filterMap.2 ⟨_, hsent, rfl⟩
            exact absurd hevent hmissing
          · exact .waiting hwaiting
        · exact .stopped hconnected hrunning
      · exact .unconnected hconnected
    · exact .textless htext
    · exact .full hfull
    · exact .unconnected hunconnected
  · exact filter_mem_comm hnodup (hsent i) (hsent j)

/-- One socket has been sent an event for its user and one for everyone, and another waits for the second. -/
theorem event_delivery_two_sockets :
    let t : CaseTable := fun _ c _ => [c]
    let identity (i : Nat) : Option SocketContext :=
      let id : Str := if i = 0 then ['a'] else ['b']
      some ⟨⟨⟨id, id, [], [], false, none⟩, [], true, false, none⟩, none⟩
    let own : BusEvent := ⟨some [], { userId := some ['a'] }⟩
    let all : BusEvent := ⟨some [], {}⟩
    ∃ ms s, Run (eventsStep t identity) .start ms s ∧ (s.sockets 0).events = [(0, own), (1, all)] ∧
      (s.sockets 0).events.Sublist (published ms) ∧
      ∃ m ∈ ms, m.act = .publish all true ∧ (1, all) ∉ (s.sockets 1).events ∧ Unsent 1 m all s := by
  intro t identity own all
  let earlier : List EventsAction := [.accept 0, .opens 0, .accept 1, .opens 1, .publish own true]
  let later : List EventsAction :=
    [.takes 0, .reaches 0, .returns 0, .takes 0, .reaches 0, .returns 0, .takes 0, .reaches 0]
  let actions : List EventsAction := earlier ++ EventsAction.publish all true :: later
  have hexec : (exec (eventsStep t identity) .start actions).any (fun r =>
      decide ((r.2.sockets 0).events = [(0, own), (1, all)]) && (decide ((r.2.sockets 1).events = []) &&
        decide (r.1[5]?.map (fun m => m.pre.passed) = some 1))) = true := by
    decide +kernel
  obtain ⟨⟨ms, s⟩, hexec, hfacts⟩ := (Option.any_eq_true _ _).1 hexec
  simp only [Bool.and_eq_true, decide_eq_true_eq] at hfacts
  obtain ⟨hfirst, hsecond, hnumber⟩ := hfacts
  have hrun := run_of_exec hexec
  obtain ⟨before, m, after, rfl, hbefore, hact, -⟩ := split_of_exec hexec
  have hlength : before.length = 5 := by
    rw [← List.length_map, hbefore]
    rfl
  have hm : m ∈ before ++ m :: after := List.mem_append_right _ List.mem_cons_self
  rw [List.getElem?_append_right (by omega), hlength] at hnumber
  have hpassed : m.pre.passed = 1 := Option.some.inj hnumber
  obtain ⟨-, hsent, hunsent, -⟩ := event_delivery hrun
  have hnot : (1, all) ∉ (s.sockets 1).events := by
    rw [hsecond]
    exact List.not_mem_nil
  exact ⟨_, s, hrun, hfirst, (hsent 0).1, m, hm, hact, hnot, hunsent 1 m hm all true hact rfl (hpassed ▸ hnot)⟩

/-- An event is queued for a socket, which disconnects before the sender takes it: it is never sent. -/
theorem event_lost_on_disconnect :
    let t : CaseTable := fun _ c _ => [c]
    let identity (_ : Nat) : Option SocketContext := none
    let event : BusEvent := ⟨some [], {}⟩
    ∃ ms s, ∃ m ∈ ms, Run (eventsStep t identity) .start ms s ∧ m.act = .publish event false ∧
      receives t (identity 0) event.audience false = true ∧ (m.pre.sockets 0).Connected ∧
      (m.pre.sockets 0).pending.length = 1 ∧ (s.sockets 0).phase = .closed ∧ (s.sockets 0).events = [] := by
  intro t identity event
  let earlier : List EventsAction := [.accept 0, .opens 0]
  let actions : List EventsAction := earlier ++ EventsAction.publish event false :: [.disconnects 0]
  have hexec : (exec (eventsStep t identity) .start actions).any
      (fun r => decide ((r.2.sockets 0).phase = .closed) && (decide ((r.2.sockets 0).events = []) &&
        r.1[2]?.any fun m => decide ((m.pre.sockets 0).client = true) &&
          (decide ((m.pre.sockets 0).sender = some .waits) && decide ((m.pre.sockets 0).pending.length = 1)))) =
          true := by
    decide +kernel
  obtain ⟨⟨ms, s⟩, hexec, hfacts⟩ := (Option.any_eq_true _ _).1 hexec
  simp only [Bool.and_eq_true, decide_eq_true_eq] at hfacts
  obtain ⟨hphase, hevents, hmove⟩ := hfacts
  have hrun := run_of_exec hexec
  obtain ⟨before, m, after, rfl, hbefore, hact, -⟩ := split_of_exec hexec
  have hlength : before.length = 2 := by
    rw [← List.length_map, hbefore]
    rfl
  rw [List.getElem?_append_right (by omega), hlength] at hmove
  simp only [Nat.sub_self, List.getElem?_cons_zero, Option.any_some, Bool.and_eq_true, decide_eq_true_eq] at hmove
  obtain ⟨hclient, hsender, hpending⟩ := hmove
  refine ⟨_, s, m, List.mem_append_right _ List.mem_cons_self, hrun, hact, rfl, ⟨hclient, .waits, hsender, ?_⟩,
    hpending, hphase, hevents⟩
  exact fun h => by cases h

end CliServer
