import CliServer.Lib.Transition
import CliServer.Server.Redaction

/-!
# The log sockets

A log record goes to the clients that are connected when it is emitted and whose level it has.  Each is sent to in a
task of its own, while others connect and disconnect, and while sockets are closed because their session has ended.
What a client was sent, could not be sent or is being sent are the records that its level lets through, each once, from
its connection until it is gone (`logs_accounted`).
-/

namespace CliServer

open Transition

namespace LogStream

/-- `map_log_level`. -/
def mapLogLevel (levelno : Int) : Str :=
  if levelno ≤ 10 then "debug".toList
  else if levelno ≤ 20 then "information".toList
  else if levelno ≤ 30 then "warning".toList
  else if levelno ≤ 40 then "error".toList
  else "fatal".toList

/-- `_LEVEL_ORDER.get(level)`. -/
def levelOrder (level : Str) : Option Nat :=
  ["verbose".toList, "debug".toList, "information".toList, "warning".toList, "error".toList,
    "fatal".toList].findIdx? (· = level)

/-- `should_send_log`. -/
def shouldSendLog (t : CaseTable) (filterLevel : Option Str) (logLevel : Str) : Bool :=
  match filterLevel with
  | none => true
  | some filterLevel =>
    if filterLevel = [] then true
    else match levelOrder (lower t filterLevel), levelOrder (lower t logLevel) with
      | some filterOrd, some logOrd => filterOrd ≤ logOrd
      | _, _ => true

/-- What the handler reads of a record; `text` is the formatted message. -/
structure LogRecord where
  sensitive : Bool
  levelno : Int
  name : Str
  text : Json.Text

/-- The payload of `format_log_message`, without the time. -/
structure LogMessage where
  level : Str
  message : Json.Text
  category : Str
  deriving DecidableEq

/-- The clients by their numbers, with their level filters; those bound to a session; and what became of the sends. -/
structure LogSockets where
  clients : List (Nat × Option Str) := []
  nextId : Nat := 0
  bound : List Nat := []
  sending : List (Nat × LogMessage) := []
  sent : List (Nat × LogMessage) := []
  failed : List (Nat × LogMessage) := []

inductive LogAction where
  /-- `handle_connection`, until it waits for the first time. -/
  | connect (levelFilter : Option Str) (identity : Bool)
  /-- Its `finally`. -/
  | disconnect (id : Nat)
  /-- A check finds that the session has ended. -/
  | sessionEnded (id : Nat)
  /-- A record comes to the handler, on a thread with a running loop or on another one. -/
  | emit (record : LogRecord) (onLoop : Bool)
  /-- One of the sends returns or raises. -/
  | sendEnds (i : Nat) (raised : Bool)
  /-- `broadcast_disconnect` has sent to all clients. -/
  | clear

variable (t : CaseTable) (other : Json.CodePoint → Bool)

/-- The message that `emit` makes of a record. -/
def message (record : LogRecord) : LogMessage :=
  ⟨lower t (mapLogLevel record.levelno), Redaction.redact other record.text, record.name⟩

/-- A client with this filter is sent the record. -/
def passes (levelFilter : Option Str) (record : LogRecord) (onLoop : Bool) : Bool :=
  !record.sensitive && onLoop && shouldSendLog t levelFilter (mapLogLevel record.levelno)

/-- The clients that a record is sent to. -/
def targets (s : LogSockets) (record : LogRecord) (onLoop : Bool) : List Nat :=
  (s.clients.filter fun e => passes t e.2 record onLoop).map Prod.fst

/-- Without the client. -/
def LogSockets.pop (s : LogSockets) (id : Nat) : LogSockets :=
  { s with clients := s.clients.filter fun e => e.1 ≠ id, bound := s.bound.filter (· ≠ id) }

def logStep (s : LogSockets) : LogAction → Option LogSockets
  | .connect levelFilter identity => some { s with
      clients := s.clients ++ [(s.nextId, levelFilter)]
      nextId := s.nextId + 1
      bound := if identity then s.bound ++ [s.nextId] else s.bound }
  | .disconnect id => if id < s.nextId then some (s.pop id) else none
  | .sessionEnded id => if id ∈ s.bound then some (s.pop id) else none
  | .emit record onLoop => some { s with
      sending := s.sending ++ (targets t s record onLoop).map fun id => (id, message t other record) }
  | .sendEnds i raised =>
    match s.sending[i]? with
    | none => none
    | some send =>
      if raised then some { s with sending := s.sending.eraseIdx i, failed := s.failed ++ [send] }
      else some { s with sending := s.sending.eraseIdx i, sent := s.sent ++ [send] }
  | .clear => some { s with clients := [] }

/-- What a step gives to be sent. -/
def emitted (s : LogSockets) : LogAction → List (Nat × LogMessage)
  | .emit record onLoop => (targets t s record onLoop).map fun id => (id, message t other record)
  | _ => []

/-- What a client with this filter is to be sent of an action. -/
def heard (levelFilter : Option Str) : LogAction → Option LogMessage
  | .emit record onLoop => if passes t levelFilter record onLoop then some (message t other record) else none
  | _ => none

/-- The messages to one client. -/
def toClient (id : Nat) (send : Nat × LogMessage) : Option LogMessage := if send.1 = id then some send.2 else none

/-- The client is gone with this action. -/
def LogAction.removes (id : Nat) : LogAction → Bool
  | .disconnect id' | .sessionEnded id' => id' = id
  | .clear => true
  | _ => false

/-- The sends, whatever became of them. -/
def LogSockets.sends (s : LogSockets) : List (Nat × LogMessage) := s.sent ++ s.failed ++ s.sending

variable {t other} {s s' s₀ : LogSockets} {ms : List (Move LogSockets LogAction)} {a : LogAction} {id : Nat}
  {levelFilter : Option Str}

/-! ### The sends -/

private theorem ends_perm {before sending : List (Nat × LogMessage)} {i : Nat} {send : Nat × LogMessage}
    (h : sending[i]? = some send) : (before ++ (send :: sending.eraseIdx i)).Perm (before ++ sending) := by
  obtain ⟨hi, rfl⟩ := List.getElem?_eq_some_iff.1 h
  exact (List.getElem_cons_eraseIdx_perm hi).append_left before

/-- A send that ends is still one of the sends. -/
private theorem sends_step (hst : logStep t other s a = some s') : s'.sends.Perm (s.sends ++ emitted t other s a) := by
  cases a with
  | connect levelFilter identity =>
    obtain rfl := Option.some.inj hst
    exact (List.append_nil _).symm ▸ .refl _
  | disconnect id =>
    obtain ⟨-, hst⟩ := Option.ite_none_right_eq_some.1 hst
    obtain rfl := Option.some.inj hst
    exact (List.append_nil _).symm ▸ .refl _
  | sessionEnded id =>
    obtain ⟨-, hst⟩ := Option.ite_none_right_eq_some.1 hst
    obtain rfl := Option.some.inj hst
    exact (List.append_nil _).symm ▸ .refl _
  | emit record onLoop =>
    obtain rfl := Option.some.inj hst
    exact .of_eq (List.append_assoc _ _ _).symm
  | sendEnds i raised =>
    simp only [logStep] at hst
    split at hst
    · cases hst
    next send hsend =>
      have hmove : (send :: (s.failed ++ s.sending.eraseIdx i)).Perm (s.failed ++ s.sending) :=
        List.perm_middle.symm.trans (ends_perm hsend)
      split at hst
      · obtain rfl := Option.some.inj hst
        simpa [LogSockets.sends, emitted] using (ends_perm hsend).append_left s.sent
      · obtain rfl := Option.some.inj hst
        simpa [LogSockets.sends, emitted] using hmove.append_left s.sent
  | clear =>
    obtain rfl := Option.some.inj hst
    exact (List.append_nil _).symm ▸ .refl _

/-! ### The clients -/

/-- The clients after an action. -/
def clientsAfter (s : LogSockets) : LogAction → List (Nat × Option Str)
  | .connect levelFilter _ => s.clients ++ [(s.nextId, levelFilter)]
  | .disconnect id | .sessionEnded id => (s.pop id).clients
  | .clear => []
  | _ => s.clients

/-- What a step does to the clients and to the next number. -/
private theorem clients_step (hst : logStep t other s a = some s') :
    s'.clients = clientsAfter s a ∧
      s'.nextId = match a with
        | .connect .. => s.nextId + 1
        | _ => s.nextId := by
  cases a with
  | disconnect id | sessionEnded id =>
    obtain ⟨-, hst⟩ := Option.ite_none_right_eq_some.1 hst
    obtain rfl := Option.some.inj hst
    exact ⟨rfl, rfl⟩
  | sendEnds i raised =>
    simp only [logStep] at hst
    split at hst
    · cases hst
    · split at hst <;>
      · obtain rfl := Option.some.inj hst
        exact ⟨rfl, rfl⟩
  | connect | emit | clear =>
    obtain rfl := Option.some.inj hst
    exact ⟨rfl, rfl⟩

private theorem nextId_step (hst : logStep t other s a = some s') : s.nextId ≤ s'.nextId := by
  rw [(clients_step hst).2]
  split
  · exact Nat.le_succ _
  · exact le_rfl

/-- Numbers are given once. -/
structure Numbered (s : LogSockets) : Prop where
  nodup : (s.clients.map Prod.fst).Nodup
  clients : ∀ id ∈ s.clients.map Prod.fst, id < s.nextId
  sends : ∀ send ∈ s.sends, send.1 < s.nextId

private theorem mem_emitted {send : Nat × LogMessage} (h : send ∈ emitted t other s a) :
    send.1 ∈ s.clients.map Prod.fst := by
  cases a with
  | emit record onLoop =>
    obtain ⟨id, hid, rfl⟩ := List.mem_map.1 h
    exact (List.filter_sublist.map Prod.fst).subset hid
  | _ => cases h

/-- The clients that stay had their numbers before. -/
private theorem clientsAfter_sublist (s : LogSockets) (a : LogAction) :
    ((clientsAfter s a).map Prod.fst).Sublist (s.clients.map Prod.fst) ∨
      ∃ levelFilter identity, a = .connect levelFilter identity := by
  cases a with
  | connect levelFilter identity => exact .inr ⟨levelFilter, identity, rfl⟩
  | disconnect id | sessionEnded id => exact .inl (List.filter_sublist.map Prod.fst)
  | clear => exact .inl (List.nil_sublist _)
  | emit | sendEnds => exact .inl (List.Sublist.refl _)

theorem Numbered.step (h : Numbered s) (hst : logStep t other s a = some s') : Numbered s' := by
  obtain ⟨hclients, hnext⟩ := clients_step hst
  have hsends : ∀ send ∈ s'.sends, send.1 < s'.nextId := by
    intro send hsend
    refine lt_of_lt_of_le ?_ (nextId_step hst)
    rcases List.mem_append.1 ((sends_step hst).mem_iff.1 hsend) with hsend | hsend
    · exact h.sends send hsend
    · exact h.clients _ (mem_emitted hsend)
  rcases clientsAfter_sublist s a with hsub | ⟨levelFilter, identity, rfl⟩
  · rw [← hclients] at hsub
    exact ⟨h.nodup.sublist hsub, fun id hid => (h.clients id (hsub.subset hid)).trans_le (nextId_step hst), hsends⟩
  · have hids : s'.clients.map Prod.fst = (s.clients.map Prod.fst).concat s.nextId := by
      rw [hclients, clientsAfter, List.map_append, List.map_singleton, List.concat_eq_append]
    have hnew : s.nextId ∉ s.clients.map Prod.fst := fun hmem => lt_irrefl _ (h.clients _ hmem)
    refine ⟨hids ▸ h.nodup.concat hnew, fun id hid => ?_, hsends⟩
    rw [hids, List.concat_eq_append, List.mem_append, List.mem_singleton] at hid
    rw [hnext]
    rcases hid with hid | rfl
    · exact (h.clients id hid).trans (Nat.lt_succ_self _)
    · exact Nat.lt_succ_self _

/-! ### One client -/

private theorem filterMap_toClient {ids : List Nat} (hnodup : ids.Nodup) (id : Nat) (msg : LogMessage) :
    (ids.map fun id' => (id', msg)).filterMap (toClient id) = if id ∈ ids then [msg] else [] := by
  induction ids with
  | nil => rfl
  | cons id' ids ih =>
    rw [List.nodup_cons] at hnodup
    rw [List.map_cons, List.filterMap_cons, toClient]
    by_cases heq : id' = id
    · subst heq
      simp [ih hnodup.2, hnodup.1]
    · have hne : id ≠ id' := fun h => heq h.symm
      simp [heq, hne, ih hnodup.2]

/-- A client is sent a record once, if its filter lets it through. -/
private theorem filterMap_emitted (h : Numbered s) (hid : (id, levelFilter) ∈ s.clients) :
    (emitted t other s a).filterMap (toClient id) = (heard t other levelFilter a).toList := by
  cases a with
  | emit record onLoop =>
    have hnodup : (targets t s record onLoop).Nodup := h.nodup.sublist (List.filter_sublist.map Prod.fst)
    have hmem : id ∈ targets t s record onLoop ↔ passes t levelFilter record onLoop = true := by
      refine ⟨fun hmem => ?_, fun hpasses => List.mem_map.2 ⟨_, List.mem_filter.2 ⟨hid, hpasses⟩, rfl⟩⟩
      obtain ⟨⟨id', levelFilter'⟩, he, rfl⟩ := List.mem_map.1 hmem
      obtain ⟨he, hpasses⟩ := List.mem_filter.1 he
      obtain rfl : levelFilter = levelFilter' := by
        have := List.inj_on_of_nodup_map h.nodup hid he rfl
        exact (Prod.mk.inj this).2
      exact hpasses
    rw [emitted, filterMap_toClient hnodup, heard]
    by_cases hpasses : passes t levelFilter record onLoop = true
    · rw [if_pos (hmem.2 hpasses), if_pos hpasses, Option.toList_some]
    · rw [if_neg fun h => hpasses (hmem.1 h), if_neg hpasses, Option.toList_none]
  | _ => rfl

/-- Nothing is emitted for who is no client. -/
private theorem filterMap_emitted_of_notMem (hid : id ∉ s.clients.map Prod.fst) :
    (emitted t other s a).filterMap (toClient id) = [] := by
  refine List.filterMap_eq_nil_iff.2 fun send hsend => if_neg ?_
  rintro rfl
  exact hid (mem_emitted hsend)

/-- A client stays one until an action removes it. -/
private theorem mem_clients_step (hst : logStep t other s a = some s') (hkept : a.removes id = false)
    (hid : (id, levelFilter) ∈ s.clients) : (id, levelFilter) ∈ s'.clients := by
  rw [(clients_step hst).1]
  cases a with
  | connect levelFilter' identity => exact List.mem_append_left _ hid
  | disconnect id' | sessionEnded id' =>
    have hne : id' ≠ id := of_decide_eq_false hkept
    exact List.mem_filter.2 ⟨hid, decide_eq_true hne.symm⟩
  | clear => cases hkept
  | emit | sendEnds => exact hid

private theorem notMem_clients_of_removes (hst : logStep t other s a = some s') (hgone : a.removes id = true) :
    id ∉ s'.clients.map Prod.fst := by
  rw [(clients_step hst).1]
  cases a with
  | disconnect id' | sessionEnded id' =>
    obtain rfl : id' = id := of_decide_eq_true hgone
    intro hmem
    obtain ⟨e, he, rfl⟩ := List.mem_map.1 hmem
    exact of_decide_eq_true (List.mem_filter.1 he).2 rfl
  | clear => exact List.not_mem_nil
  | connect | emit | sendEnds => cases hgone

/-- A client that is gone does not come back: a new one has a new number. -/
private theorem notMem_clients_step (hst : logStep t other s a = some s') (hid : id ∉ s.clients.map Prod.fst)
    (hlt : id < s.nextId) : id ∉ s'.clients.map Prod.fst := by
  rw [(clients_step hst).1]
  rcases clientsAfter_sublist s a with hsub | ⟨levelFilter, identity, rfl⟩
  · exact fun hmem => hid (hsub.subset hmem)
  · rw [clientsAfter, List.map_append, List.map_singleton, List.mem_append, List.mem_singleton]
    rintro (hmem | rfl)
    · exact hid hmem
    · exact lt_irrefl _ hlt

/-! ### The runs -/

/-- The moves until a client is removed. -/
def untilRemoved (id : Nat) (ms : List (Move LogSockets LogAction)) : List (Move LogSockets LogAction) :=
  ms.takeWhile fun m => !m.act.removes id

private theorem untilRemoved_concat (id : Nat) (ms : List (Move LogSockets LogAction)) (m : Move LogSockets LogAction) :
    untilRemoved id (ms ++ [m]) =
      if ms.all fun m => !m.act.removes id then ms ++ untilRemoved id [m] else untilRemoved id ms := by
  rw [untilRemoved, untilRemoved, untilRemoved, List.takeWhile_append]
  refine ite_congr (propext ?_) (fun _ => rfl) (fun _ => rfl)
  rw [List.all_eq_true, ← List.takeWhile_eq_self_iff]
  exact ⟨(List.takeWhile_prefix _).eq_of_length, congrArg List.length⟩

/-- An action that removes a client sends nothing. -/
private theorem heard_of_removes (hgone : a.removes id = true) : heard t other levelFilter a = none := by
  cases a with
  | emit => cases hgone
  | _ => rfl

private theorem filterMap_untilRemoved_singleton (id : Nat) (m : Move LogSockets LogAction) :
    ((untilRemoved id [m]).filterMap fun m => heard t other levelFilter m.act) =
      (heard t other levelFilter m.act).toList := by
  rw [untilRemoved, List.takeWhile_cons, List.takeWhile_nil]
  cases hgone : m.act.removes id with
  | true => simp [heard_of_removes hgone]
  | false => cases hheard : heard t other levelFilter m.act <;> simp [hheard]

/-- What holds of a client since it was connected, with the moves since then. -/
structure Served (t : CaseTable) (other : Json.CodePoint → Bool) (id : Nat) (levelFilter : Option Str)
    (ms : List (Move LogSockets LogAction)) (s : LogSockets) : Prop where
  numbered : Numbered s
  lt : id < s.nextId
  connected : (ms.all fun m => !m.act.removes id) = true → (id, levelFilter) ∈ s.clients
  gone : (ms.all fun m => !m.act.removes id) = false → id ∉ s.clients.map Prod.fst
  sends : (s.sends.filterMap (toClient id)).Perm
    ((untilRemoved id ms).filterMap fun m => heard t other levelFilter m.act)

theorem Served.step (h : Served t other id levelFilter ms s) (hst : logStep t other s a = some s') :
    Served t other id levelFilter (ms ++ [⟨s, a, s'⟩]) s' where
  numbered := h.numbered.step hst
  lt := h.lt.trans_le (nextId_step hst)
  connected hall := by
    rw [List.all_append, Bool.and_eq_true] at hall
    exact mem_clients_step hst (by simpa using hall.2) (h.connected hall.1)
  gone hany := by
    rw [List.all_append, Bool.and_eq_false_iff] at hany
    rcases hany with hany | hany
    · exact notMem_clients_step hst (h.gone hany) h.lt
    · exact notMem_clients_of_removes hst (by simpa using hany)
  sends := by
    have hsends := (sends_step hst).filterMap (toClient id)
    rw [List.filterMap_append] at hsends
    rw [untilRemoved_concat]
    by_cases hall : (ms.all fun m => !m.act.removes id) = true
    · rw [filterMap_emitted h.numbered (h.connected hall)] at hsends
      have huntil : untilRemoved id ms = ms := List.takeWhile_eq_self_iff.2 (List.all_eq_true.1 hall)
      have hmsgs := huntil ▸ h.sends
      rw [if_pos hall, List.filterMap_append, filterMap_untilRemoved_singleton]
      exact hsends.trans (hmsgs.append_right _)
    · rw [if_neg hall]
      rw [filterMap_emitted_of_notMem (h.gone (Bool.eq_false_iff.2 hall)), List.append_nil] at hsends
      exact hsends.trans h.sends

/-- A client that has just been connected. -/
theorem Served.connect {identity : Bool} (h : Numbered s)
    (hst : logStep t other s (.connect levelFilter identity) = some s') :
    Served t other s.nextId levelFilter [] s' where
  numbered := h.step hst
  lt := (clients_step hst).2.symm ▸ Nat.lt_succ_self _
  connected _ := (clients_step hst).1.symm ▸ List.mem_append_right _ (List.mem_singleton.2 rfl)
  gone hany := by cases hany
  sends := by
    have hold : s.sends.filterMap (toClient s.nextId) = [] :=
      List.filterMap_eq_nil_iff.2 fun send hsend => if_neg (h.sends send hsend).ne
    have hsends := (sends_step hst).filterMap (toClient s.nextId)
    have hnone : emitted t other s (.connect levelFilter identity) = [] := rfl
    rwa [hnone, List.append_nil, hold] at hsends

private theorem numbered_of_run (h : Run (logStep t other) {} ms s) : Numbered s := by
  have hstart : Numbered {} := ⟨List.nodup_nil, fun _ hid => absurd hid List.not_mem_nil,
    fun _ hsend => absurd hsend List.not_mem_nil⟩
  exact h.invariant hstart fun _ _ _ hnumbered _ hst => hnumbered.step hst

/-- A client is sent what its filter lets through from its connection until it is gone, each record once; whether the
sends have ended, and how, does not matter. -/
theorem logs_accounted {before after : List (Move LogSockets LogAction)} {m : Move LogSockets LogAction}
    {identity : Bool} (h : Run (logStep t other) {} (before ++ m :: after) s)
    (hm : m.act = .connect levelFilter identity) :
    (s.sends.filterMap (toClient m.pre.nextId)).Perm
      ((untilRemoved m.pre.nextId after).filterMap fun m' => heard t other levelFilter m'.act) := by
  obtain ⟨hbefore, -, hst, hafter⟩ := h.at_move
  rw [hm] at hst
  have hstart := Served.connect (numbered_of_run hbefore) hst
  have hserved : Served t other m.pre.nextId levelFilter after s :=
    hafter.history hstart fun _ _ _ _ hserved _ hst => hserved.step hst
  exact hserved.sends

/-- The client wants warnings: it is sent one of the three, without the password, and is gone before the error. -/
theorem logs_accounted_warnings :
    let shown : LogMessage := ⟨"warning".toList, Json.ofChars "password=[redacted]".toList, "app".toList⟩
    ∃ s : LogSockets, s.failed = [(0, shown)] ∧ (s.sends.filterMap (toClient 0)).Perm [shown] := by
  intro shown
  let t : CaseTable := fun _ c _ => [c]
  let record (sensitive : Bool) (levelno : Int) (text : String) : LogRecord :=
    ⟨sensitive, levelno, "app".toList, Json.ofChars text.toList⟩
  let actions : List LogAction :=
    [.connect (some "warning".toList) true, .emit (record false 20 "started") true,
      .emit (record true 50 "secret") true, .emit (record false 30 "password=abc") true, .sessionEnded 0,
      .emit (record false 40 "late") true, .sendEnds 0 true]
  have hexec : (exec (logStep t fun _ => false) {} actions).any (fun r =>
      decide (r.1.head?.map (·.pre.nextId) = some 0 ∧ r.2.failed = [(0, shown)] ∧
        ((untilRemoved 0 r.1.tail).filterMap fun m =>
          heard t (fun _ => false) (some "warning".toList) m.act) = [shown])) = true := by
    decide +kernel
  obtain ⟨⟨ms, s⟩, hexec, hchecks⟩ := (Option.any_eq_true _ _).1 hexec
  obtain ⟨hid, hfailed, hheard⟩ := of_decide_eq_true hchecks
  have hacts := map_act_of_exec hexec
  cases ms with
  | nil => cases hid
  | cons m after =>
    have hm : m.act = .connect (some "warning".toList) true := (List.cons.inj hacts).1
    have hpre : m.pre.nextId = 0 := Option.some.inj hid
    have hrun : Run (logStep t fun _ => false) {} ([] ++ m :: after) s := run_of_exec hexec
    have hperm := logs_accounted hrun hm
    rw [hpre] at hperm
    exact ⟨s, hfailed, hheard ▸ hperm⟩

end LogStream

end CliServer
