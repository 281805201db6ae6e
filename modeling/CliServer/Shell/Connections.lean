import CliServer.Lib.Transition
import CliServer.Text

/-!
# Shell connections

`handle_connection` accepts a socket, authorises it, registers a session, checks it once more, audits `shell_opened`,
forks the PTY, and removes the session when the shell is over.  An action is what happens between two suspensions: a
connection goes on from the await it is suspended at, that await raises what is not an `Exception` (a cancellation), a
change asks for a re-check of all sessions, a re-check ends, or the server closes all.  What the access provider answers
is part of the actions.  Connections are numbered, and a session goes by its connection's number.
-/

namespace CliServer.Shell

open Transition

structure ShellOptions where
  enabled : Bool := true
  maxSessionsPerUser : Nat := 3
  maxSessions : Nat := 20

/-- What `request_close` notes: `close_code`, `close_reason` and `end_reason`. -/
structure Close where
  code : Nat
  reason : Str
  endReason : Str
  deriving DecidableEq, Repr

/-- Where `handle_connection` is suspended. -/
inductive Phase where
  | idle
  | accepting
  | authorizing
  /-- In the `_end_reason` after the registration. -/
  | rechecking
  /-- In the audit of `shell_opened`. -/
  | opening
  /-- In `handle_session`, once it has called `fork`. -/
  | running
  /-- In the `finally` of `handle_session`; `raised`: it raises. -/
  | terminating (raised : Bool)
  /-- In the audit of `shell_closed`. -/
  | closing (raised : Bool)
  /-- In the `_close` of its socket. -/
  | closingSocket
  | ended
  deriving DecidableEq, Repr

/-- A connection, with the fields of its `_ShellSession`; `closedWith` is what its socket is closed with. -/
structure Connection where
  phase : Phase := .idle
  principal : Option Str := none
  closeEvent : Bool := false
  close : Option Close := none
  forked : Bool := false
  closedWith : Option (Nat × Str) := none
  /-- The calls of `_spawn_check` the loop has still to make. -/
  scheduled : Nat := 0
  /-- The tasks that run `_check`. -/
  checks : Nat := 0
  deriving DecidableEq, Repr

/-- `request_close`. -/
def Connection.requestClose (c : Connection) (close : Close) : Connection :=
  if c.closeEvent then c else { c with closeEvent := true, close := some close }

/-- What a check does with the reason `_end_reason` gives. -/
def Connection.check (c : Connection) : Option Str → Connection
  | none => c
  | some ended => c.requestClose ⟨4401, "session ended".toList, ended⟩

/-- `_close`. -/
def Connection.closeSocket (c : Connection) (code : Nat) (reason : Str) : Connection :=
  { c with phase := .closingSocket, closedWith := some (code, reason) }

/-- The connections, and `_sessions` with the key of each. -/
structure Manager where
  conns : Nat → Connection
  sessions : List (Nat × Str)

namespace Manager

/-- No connection yet. -/
def start : Manager := ⟨fun _ => {}, []⟩

/-- Connection `i` goes on as `c`. -/
def set (s : Manager) (i : Nat) (c : Connection) : Manager := { s with conns := Function.update s.conns i c }

/-- `self._sessions.pop(session.id, None)`. -/
def pop (s : Manager) (i : Nat) : Manager := { s with sessions := s.sessions.filter (·.1 ≠ i) }

/-- The session of connection `i` is registered. -/
def Registered (s : Manager) (i : Nat) : Prop := i ∈ s.sessions.map Prod.fst

instance (s : Manager) (i : Nat) : Decidable (s.Registered i) := inferInstanceAs (Decidable (_ ∈ _))

end Manager

inductive Action where
  /-- A socket connects; `accepted`: it is not in the state `CONNECTING`. -/
  | connect (i : Nat) (accepted : Bool)
  | accepted (i : Nat)
  /-- `_authorize` returns, with the principal's user, or refuses; `forks`: the `fork` that may follow does not fail. -/
  | authorized (i : Nat) (result : Except (Nat × Str) (Option Str)) (address : Str) (forks : Bool)
  | rechecked (i : Nat) (ended : Option Str)
  | opened (i : Nat) (forks : Bool)
  /-- `handle_session` comes to its `finally`. -/
  | sessionEnds (i : Nat) (raised : Bool)
  /-- It returns or raises. -/
  | terminated (i : Nat) (raised : Bool)
  | closedAudited (i : Nat)
  | socketClosed (i : Nat)
  /-- The await raises what the handler does not catch. -/
  | fails (i : Nat)
  | requestRecheck
  | spawnCheck (i : Nat)
  | checked (i : Nat) (ended : Option Str)
  /-- The watcher's periodic check. -/
  | watchChecked (i : Nat) (ended : Option Str)
  /-- The watcher finds the shell idle for too long, or open for too long. -/
  | timedOut (i : Nat)
  | closeAll (reason : Str)

variable (o : ShellOptions)

/-- `handle_connection`, once the socket is accepted. -/
def Connection.begin (c : Connection) : Connection :=
  if o.enabled then { c with phase := .authorizing } else c.closeSocket 4404 "shell disabled".toList

/-- The key that sessions are counted by. -/
def sessionKey (user : Option Str) (address : Str) : Str :=
  match user with
  | some id => "user:".toList ++ id
  | none => "addr:".toList ++ address

/-- `_register` refuses. -/
def Manager.full (s : Manager) (key : Str) : Bool :=
  (o.maxSessions ≠ 0 && o.maxSessions ≤ s.sessions.length) ||
    (o.maxSessionsPerUser ≠ 0 && o.maxSessionsPerUser ≤ s.sessions.countP (·.2 = key))

/-- The connection goes on after `_register`; without a principal nothing suspends it before the `fork`. -/
def Connection.registered (c : Connection) (forks : Bool) : Option Str → Connection
  | some user => { c with phase := .rechecking, principal := some user }
  | none => { c with phase := .running, forked := forks }

/-- The end of `handle_connection`, after `_closed`. -/
def Connection.leave (c : Connection) (raised : Bool) : Connection :=
  match raised, c.close with
  | false, some close => c.closeSocket close.code close.reason
  | _, _ => { c with phase := .ended }

def step (s : Manager) : Action → Option Manager
  | .connect i accepted =>
    let c := s.conns i
    if c.phase ≠ .idle then none
    else some (s.set i (if accepted then c.begin o else { c with phase := .accepting }))
  | .accepted i => if (s.conns i).phase ≠ .accepting then none else some (s.set i ((s.conns i).begin o))
  | .authorized i result address forks =>
    let c := s.conns i
    if c.phase ≠ .authorizing then none
    else match result with
      | .error (code, reason) => some (s.set i (c.closeSocket code reason))
      | .ok user =>
        let key := sessionKey user address
        if s.full o key then some (s.set i (c.closeSocket 4429 "too many shell sessions".toList))
        else some ({ s with sessions := s.sessions ++ [(i, key)] }.set i (c.registered forks user))
  | .rechecked i ended =>
    let c := s.conns i
    if c.phase ≠ .rechecking then none
    else
      let c := c.check ended
      if c.closeEvent then
        some ((s.pop i).set i (c.closeSocket ((c.close.map Close.code).getD 4401) ((c.close.map Close.reason).getD [])))
      else some (s.set i { c with phase := .opening })
  | .opened i forks =>
    let c := s.conns i
    if c.phase ≠ .opening then none else some (s.set i { c with phase := .running, forked := forks })
  | .sessionEnds i raised =>
    let c := s.conns i
    if c.phase ≠ .running then none else some (s.set i { c with phase := .terminating raised, closeEvent := true })
  | .terminated i raised' =>
    let c := s.conns i
    match c.phase with
    | .terminating raised =>
      let raised := raised || raised'
      -- Without a principal `_closed` writes a log line and does not suspend.
      some ((s.pop i).set i (if c.principal.isSome then { c with phase := .closing raised } else c.leave raised))
    | _ => none
  | .closedAudited i =>
    match (s.conns i).phase with
    | .closing raised => some (s.set i ((s.conns i).leave raised))
    | _ => none
  | .socketClosed i =>
    let c := s.conns i
    if c.phase ≠ .closingSocket then none else some (s.set i { c with phase := .ended })
  | .fails i =>
    let c := s.conns i
    match c.phase with
    | .idle | .running | .terminating _ | .ended => none
    | _ => some (s.set i { c with phase := .ended })
  | .requestRecheck =>
    some { s with conns := fun i =>
      let c := s.conns i
      if s.Registered i ∧ c.principal.isSome ∧ !c.closeEvent then { c with scheduled := c.scheduled + 1 } else c }
  | .spawnCheck i =>
    let c := s.conns i
    if c.scheduled = 0 then none
    else
      let checks := if c.closeEvent then c.checks else c.checks + 1
      some (s.set i { c with scheduled := c.scheduled - 1, checks := checks })
  | .checked i ended =>
    let c := s.conns i
    if c.checks = 0 then none else some (s.set i ({ c with checks := c.checks - 1 }.check ended))
  | .watchChecked i ended =>
    let c := s.conns i
    if c.phase ≠ .running then none else some (s.set i (c.check ended))
  | .timedOut i =>
    let c := s.conns i
    if c.phase ≠ .running then none
    else some (s.set i (c.requestClose ⟨4408, "shell timed out".toList, "shell timed out".toList⟩))
  | .closeAll reason =>
    some { s with conns := fun i =>
      if s.Registered i then (s.conns i).requestClose ⟨1001, reason, "server shutdown".toList⟩ else s.conns i }

/-- The move forks connection `i`'s PTY. -/
def Forks (i : Nat) (m : Move Manager Action) : Prop :=
  (m.pre.conns i).forked = false ∧ (m.post.conns i).forked = true

instance (i : Nat) (m : Move Manager Action) : Decidable (Forks i m) := inferInstanceAs (Decidable (_ ∧ _))

/-- The move sets the close event of a session whose handler is in the audit of `shell_opened`. -/
def ClosesWhileOpening (i : Nat) (m : Move Manager Action) : Prop :=
  (m.pre.conns i).phase = .opening ∧ (m.pre.conns i).closeEvent = false ∧ (m.post.conns i).closeEvent = true

/-- The move ends a handler that has registered its session and not yet entered the `try`. -/
def Abandons (i : Nat) (m : Move Manager Action) : Prop :=
  m.act = .fails i ∧ ((m.pre.conns i).phase = .rechecking ∨ (m.pre.conns i).phase = .opening)

/-! ### What an action does to a connection -/

variable {o} {s s' : Manager} {a : Action} {i j : Nat}

@[simp] theorem Manager.set_conns_self (s : Manager) (i : Nat) (c : Connection) : (s.set i c).conns i = c :=
  Function.update_self ..

private theorem Manager.set_conns_of_ne (s : Manager) (c : Connection) (h : j ≠ i) : (s.set i c).conns j = s.conns j :=
  Function.update_of_ne h ..

@[simp] theorem Manager.set_registered (s : Manager) (c : Connection) : (s.set i c).Registered j ↔ s.Registered j :=
  Iff.rfl

private theorem Manager.pop_registered (s : Manager) (i j : Nat) : (s.pop i).Registered j ↔ s.Registered j ∧ j ≠ i := by
  simp only [Registered, pop, List.mem_map, List.mem_filter]
  constructor
  · rintro ⟨e, ⟨he, hne⟩, rfl⟩
    exact ⟨⟨e, he, rfl⟩, of_decide_eq_true hne⟩
  · rintro ⟨⟨e, he, rfl⟩, hne⟩
    exact ⟨e, ⟨he, decide_eq_true hne⟩, rfl⟩

/-- No check of the session is on its way, and its close event is not set. -/
def Connection.Fresh (c : Connection) : Prop := c.closeEvent = false ∧ c.scheduled = 0 ∧ c.checks = 0

/-- What one action does to one connection: it goes on from an await, or other tasks note something in its session. -/
inductive Effect (a : Action) (i : Nat) (s s' : Manager) : Prop
  | noted (hphase : (s'.conns i).phase = (s.conns i).phase) (hforked : (s'.conns i).forked = (s.conns i).forked)
      (hevent : (s.conns i).closeEvent = true → (s'.conns i).closeEvent = true)
      (hfresh : ¬s.Registered i → (s.conns i).phase ≠ .running → (s.conns i).Fresh → (s'.conns i).Fresh)
      (hregistered : s'.Registered i ↔ s.Registered i)
  | before (hpre : (s.conns i).phase = .idle ∨ (s.conns i).phase = .accepting ∨ (s.conns i).phase = .authorizing)
      (hpost : (s'.conns i).phase = .accepting ∨ (s'.conns i).phase = .authorizing ∨
        (s'.conns i).phase = .closingSocket)
      (hforked : (s'.conns i).forked = (s.conns i).forked) (hfresh : (s.conns i).Fresh → (s'.conns i).Fresh)
      (hregistered : s'.Registered i ↔ s.Registered i)
  | registers (hpre : (s.conns i).phase = .authorizing)
      (hpost : (s'.conns i).phase = .rechecking ∧ (s'.conns i).forked = (s.conns i).forked ∨
        (s'.conns i).phase = .running)
      (hregistered : s'.Registered i)
  | opens (hpre : (s.conns i).phase = .rechecking) (hpost : (s'.conns i).phase = .opening)
      (hforked : (s'.conns i).forked = (s.conns i).forked) (hevent : (s'.conns i).closeEvent = false)
      (hregistered : s'.Registered i ↔ s.Registered i)
  | starts (hpre : (s.conns i).phase = .opening) (hpost : (s'.conns i).phase = .running)
      (hregistered : s'.Registered i ↔ s.Registered i)
  | terminates (hpre : (s.conns i).phase = .running) (raised : Bool) (hpost : (s'.conns i).phase = .terminating raised)
      (hforked : (s'.conns i).forked = (s.conns i).forked) (hregistered : s'.Registered i ↔ s.Registered i)
  | removes (hpre : (s.conns i).phase = .rechecking ∨ ∃ raised, (s.conns i).phase = .terminating raised)
      (hpost : (∃ raised, (s'.conns i).phase = .closing raised) ∨ (s'.conns i).phase = .closingSocket ∨
        (s'.conns i).phase = .ended)
      (hforked : (s'.conns i).forked = (s.conns i).forked) (hregistered : ¬s'.Registered i)
  | leaves (hpre : (∃ raised, (s.conns i).phase = .closing raised) ∨ (s.conns i).phase = .closingSocket)
      (hpost : (s'.conns i).phase = .closingSocket ∨ (s'.conns i).phase = .ended)
      (hforked : (s'.conns i).forked = (s.conns i).forked) (hregistered : s'.Registered i ↔ s.Registered i)
  | fails (hact : a = .fails i)
      (hpre : ((s.conns i).phase = .rechecking ∨ (s.conns i).phase = .opening) ∨
        (s.conns i).phase = .accepting ∨ (s.conns i).phase = .authorizing ∨ (s.conns i).phase = .closingSocket ∨
        ∃ raised, (s.conns i).phase = .closing raised)
      (hpost : (s'.conns i).phase = .ended)
      (hforked : (s'.conns i).forked = (s.conns i).forked) (hregistered : s'.Registered i ↔ s.Registered i)

theorem Connection.requestClose_phase (c : Connection) (close : Close) :
    (c.requestClose close).phase = c.phase ∧ (c.requestClose close).forked = c.forked ∧
      (c.closeEvent = true → (c.requestClose close).closeEvent = true) := by
  unfold requestClose
  split
  · rename_i hevent
    exact ⟨rfl, rfl, fun _ => hevent⟩
  · exact ⟨rfl, rfl, fun _ => rfl⟩

private theorem Connection.check_phase (c : Connection) (ended : Option Str) :
    (c.check ended).phase = c.phase ∧ (c.check ended).forked = c.forked ∧
      (c.closeEvent = true → (c.check ended).closeEvent = true) := by
  cases ended with
  | none => exact ⟨rfl, rfl, fun h => h⟩
  | some reason => exact c.requestClose_phase _

theorem Effect.same (h : s'.conns i = s.conns i) (hregistered : s'.Registered i ↔ s.Registered i) : Effect a i s s' :=
  .noted (by rw [h]) (by rw [h]) (fun hevent => by rw [h]; exact hevent) (fun _ _ hfresh => by rw [h]; exact hfresh)
    hregistered

/-- Another connection is left alone. -/
theorem Effect.other {c : Connection} (h : i ≠ j) : Effect a i s (s.set j c) :=
  .same (s.set_conns_of_ne c h) Iff.rfl

private theorem Effect.other_pop {c : Connection} (h : i ≠ j) : Effect a i s ((s.pop j).set j c) :=
  .same ((s.pop j).set_conns_of_ne c h) (by simp [Manager.pop_registered, h])

/-- A note in a session of a connection that is running, or that has a check on its way. -/
private theorem Effect.note {c : Connection} (hphase : c.phase = (s.conns i).phase)
    (hforked : c.forked = (s.conns i).forked)
    (hevent : (s.conns i).closeEvent = true → c.closeEvent = true)
    (hfresh : (s.conns i).phase ≠ .running → ¬(s.conns i).Fresh) : Effect a i s (s.set i c) := by
  refine .noted ?_ ?_ ?_ ?_ Iff.rfl
  · rw [s.set_conns_self, hphase]
  · rw [s.set_conns_self, hforked]
  · rw [s.set_conns_self]
    exact hevent
  · intro _ hrunning h
    exact absurd h (hfresh hrunning)

theorem Connection.begin_cases (c : Connection) :
    ((c.begin o).phase = .authorizing ∨ (c.begin o).phase = .closingSocket) ∧ (c.begin o).forked = c.forked ∧
      (c.Fresh → (c.begin o).Fresh) := by
  unfold begin closeSocket
  split
  · exact ⟨.inl rfl, rfl, fun h => h⟩
  · exact ⟨.inr rfl, rfl, fun h => h⟩

private theorem Connection.leave_cases (c : Connection) (raised : Bool) :
    ((c.leave raised).phase = .closingSocket ∨ (c.leave raised).phase = .ended) ∧
      (c.leave raised).forked = c.forked := by
  unfold leave closeSocket
  split
  · exact ⟨.inl rfl, rfl⟩
  · exact ⟨.inr rfl, rfl⟩

private theorem step_effect (h : step o s a = some s') (i : Nat) : Effect a i s s' := by
  cases a with
  | connect j accepted =>
    simp only [step] at h
    split at h
    · cases h
    · rename_i hphase
      obtain rfl := Option.some.inj h
      by_cases hij : i = j
      · subst hij
        have hidle := not_not.1 hphase
        split
        · obtain ⟨hpost, hforked, hfresh⟩ := (s.conns i).begin_cases (o := o)
          exact .before (.inl hidle) (.inr (by simpa using hpost)) (by simpa using hforked)
            (by simpa using hfresh) Iff.rfl
        · refine .before (.inl hidle) (.inl (by simp)) (by simp) (fun hfresh => ?_) Iff.rfl
          rw [s.set_conns_self]
          exact hfresh
      · exact .other hij
  | accepted j =>
    simp only [step] at h
    split at h
    · cases h
    · rename_i hphase
      obtain rfl := Option.some.inj h
      by_cases hij : i = j
      · subst hij
        obtain ⟨hpost, hforked, hfresh⟩ := (s.conns i).begin_cases (o := o)
        exact .before (.inr (.inl (not_not.1 hphase))) (.inr (by simpa using hpost)) (by simpa using hforked)
          (by simpa using hfresh) Iff.rfl
      · exact .other hij
  | authorized j result address forks =>
    simp only [step] at h
    split at h
    · cases h
    · rename_i hphase
      have hpre := not_not.1 hphase
      have hrefused : ∀ code reason, some (s.set j ((s.conns j).closeSocket code reason)) = some s' →
          Effect (.authorized j result address forks) i s s' := by
        intro code reason heq
        obtain rfl := Option.some.inj heq
        by_cases hij : i = j
        · subst hij
          refine .before (.inr (.inr hpre)) (.inr (.inr (by simp [Connection.closeSocket])))
            (by simp [Connection.closeSocket]) (fun hfresh => ?_) Iff.rfl
          rw [s.set_conns_self]
          exact hfresh
        · exact .other hij
      split at h
      · exact hrefused _ _ h
      · rename_i user
        split at h
        · exact hrefused _ _ h
        · obtain rfl := Option.some.inj h
          by_cases hij : i = j
          · subst hij
            refine .registers hpre ?_ (by simp [Manager.Registered, Manager.set])
            cases user with
            | none => exact .inr (by simp [Connection.registered])
            | some user => exact .inl (by simp [Connection.registered])
          · refine .same (Manager.set_conns_of_ne _ _ hij) ?_
            simp [Manager.Registered, Manager.set, hij]
  | rechecked j ended =>
    simp only [step] at h
    split at h
    · cases h
    · rename_i hphase
      have hpre := not_not.1 hphase
      obtain ⟨-, hforked, -⟩ := (s.conns j).check_phase ended
      split at h
      · obtain rfl := Option.some.inj h
        by_cases hij : i = j
        · subst hij
          refine .removes (.inl hpre) (.inr (.inl (by simp [Connection.closeSocket]))) ?_ ?_
          · simpa [Connection.closeSocket] using hforked
          · simp [Manager.pop_registered]
        · exact .other_pop hij
      · rename_i hevent
        obtain rfl := Option.some.inj h
        by_cases hij : i = j
        · subst hij
          exact .opens hpre (by simp) (by simpa using hforked) (by simpa using hevent) Iff.rfl
        · exact .other hij
  | opened j forks =>
    simp only [step] at h
    split at h
    · cases h
    · rename_i hphase
      obtain rfl := Option.some.inj h
      by_cases hij : i = j
      · subst hij
        exact .starts (not_not.1 hphase) (by simp) Iff.rfl
      · exact .other hij
  | sessionEnds j raised =>
    simp only [step] at h
    split at h
    · cases h
    · rename_i hphase
      obtain rfl := Option.some.inj h
      by_cases hij : i = j
      · subst hij
        exact .terminates (not_not.1 hphase) raised (by simp) (by simp) Iff.rfl
      · exact .other hij
  | terminated j raised' =>
    simp only [step] at h
    split at h
    · rename_i raised hphase
      obtain rfl := Option.some.inj h
      by_cases hij : i = j
      · subst hij
        refine .removes (.inr ⟨raised, hphase⟩) ?_ ?_ (by simp [Manager.pop_registered])
        · split
          · exact .inl ⟨raised || raised', by simp⟩
          · exact .inr (by simpa using ((s.conns i).leave_cases _).1)
        · split
          · simp
          · simpa using ((s.conns i).leave_cases _).2
      · exact .other_pop hij
    · cases h
  | closedAudited j =>
    simp only [step] at h
    split at h
    · rename_i raised hphase
      obtain rfl := Option.some.inj h
      by_cases hij : i = j
      · subst hij
        obtain ⟨hpost, hforked⟩ := (s.conns i).leave_cases raised
        exact .leaves (.inl ⟨raised, hphase⟩) (by simpa using hpost) (by simpa using hforked) Iff.rfl
      · exact .other hij
    · cases h
  | socketClosed j =>
    simp only [step] at h
    split at h
    · cases h
    · rename_i hphase
      obtain rfl := Option.some.inj h
      by_cases hij : i = j
      · subst hij
        exact .leaves (.inr (not_not.1 hphase)) (.inr (by simp)) (by simp) Iff.rfl
      · exact .other hij
  | fails j =>
    simp only [step] at h
    split at h
    · cases h
    · cases h
    · cases h
    · cases h
    · rename_i hidle hrunning hterminating hended
      obtain rfl := Option.some.inj h
      by_cases hij : i = j
      · subst hij
        refine .fails rfl ?_ (by simp) (by simp) Iff.rfl
        cases hphase : (s.conns i).phase with
        | idle => exact absurd hphase hidle
        | running => exact absurd hphase hrunning
        | terminating raised => exact absurd hphase (hterminating raised)
        | ended => exact absurd hphase hended
        | _ => simp
      · exact .other hij
  | requestRecheck =>
    obtain rfl := Option.some.inj h
    by_cases hnoted : s.Registered i ∧ (s.conns i).principal.isSome ∧ !(s.conns i).closeEvent
    · refine .noted ?_ ?_ ?_ (fun hregistered => absurd hnoted.1 hregistered) Iff.rfl
      all_goals simp only [if_pos hnoted]
      exact fun hevent => hevent
    · exact .same (if_neg hnoted) Iff.rfl
  | spawnCheck j =>
    simp only [step] at h
    split at h
    · cases h
    · rename_i hscheduled
      obtain rfl := Option.some.inj h
      by_cases hij : i = j
      · subst hij
        exact .note rfl rfl (fun hevent => hevent) fun _ hfresh => hscheduled hfresh.2.1
      · exact .other hij
  | checked j ended =>
    simp only [step] at h
    split at h
    · cases h
    · rename_i hchecks
      obtain rfl := Option.some.inj h
      by_cases hij : i = j
      · subst hij
        obtain ⟨hphase, hforked, hevent⟩ :=
          Connection.check_phase { s.conns i with checks := (s.conns i).checks - 1 } ended
        exact .note hphase hforked hevent fun _ hfresh => hchecks hfresh.2.2
      · exact .other hij
  | watchChecked j ended =>
    simp only [step] at h
    split at h
    · cases h
    · rename_i hrunning
      obtain rfl := Option.some.inj h
      by_cases hij : i = j
      · subst hij
        obtain ⟨hphase, hforked, hevent⟩ := (s.conns i).check_phase ended
        exact .note hphase hforked hevent fun hne => absurd (not_not.1 hrunning) hne
      · exact .other hij
  | timedOut j =>
    simp only [step] at h
    split at h
    · cases h
    · rename_i hrunning
      obtain rfl := Option.some.inj h
      by_cases hij : i = j
      · subst hij
        obtain ⟨hphase, hforked, hevent⟩ := (s.conns i).requestClose_phase _
        exact .note hphase hforked hevent fun hne => absurd (not_not.1 hrunning) hne
      · exact .other hij
  | closeAll reason =>
    obtain rfl := Option.some.inj h
    by_cases hregistered : s.Registered i
    · obtain ⟨hphase, hforked, hevent⟩ := (s.conns i).requestClose_phase ⟨1001, reason, "server shutdown".toList⟩
      refine .noted ?_ ?_ ?_ (fun hno => absurd hregistered hno) Iff.rfl
      all_goals simp only [if_pos hregistered]
      · exact hphase
      · exact hforked
      · exact hevent
    · exact .same (if_neg hregistered) Iff.rfl

/-! ### Forks -/

variable {history : List (Move Manager Action)}

/-- The close event of a session in the audit was set there. -/
structure Opening (i : Nat) (history : List (Move Manager Action)) (s : Manager) : Prop where
  fresh : (s.conns i).phase = .idle ∨ (s.conns i).phase = .accepting ∨ (s.conns i).phase = .authorizing →
    ¬s.Registered i ∧ (s.conns i).Fresh ∧ (s.conns i).forked = false
  never : (s.conns i).phase = .idle ∨ (s.conns i).phase = .accepting ∨ (s.conns i).phase = .authorizing ∨
    (s.conns i).phase = .rechecking → ∀ m ∈ history, ¬ClosesWhileOpening i m
  event : (s.conns i).phase = .opening →
    ((s.conns i).closeEvent = true ↔ ∃ m ∈ history, ClosesWhileOpening i m)

/-- The connection is past the audit of `shell_opened`. -/
def Phase.late : Phase → Bool
  | .idle | .accepting | .authorizing | .rechecking | .opening => false
  | _ => true

private theorem Opening.of_late (h : (s.conns i).phase.late = true) : Opening i history s := by
  refine ⟨fun hphase => ?_, fun hphase => ?_, fun hphase => ?_⟩
  · rcases hphase with hphase | hphase | hphase <;> (rw [hphase] at h; cases h)
  · rcases hphase with hphase | hphase | hphase | hphase <;> (rw [hphase] at h; cases h)
  · rw [hphase] at h
    cases h

theorem Opening.step (h : Opening i history s) (heffect : Effect a i s s') :
    Opening i (history ++ [⟨s, a, s'⟩]) s' := by
  have hnever : (s.conns i).phase ≠ .opening → (∀ m ∈ history, ¬ClosesWhileOpening i m) →
      ∀ m ∈ history ++ [⟨s, a, s'⟩], ¬ClosesWhileOpening i m := by
    intro hphase hno m hm
    rcases List.mem_append.1 hm with hm | hm
    · exact hno m hm
    · obtain rfl := List.mem_singleton.1 hm
      exact fun hcloses => hphase hcloses.1
  cases heffect with
  | noted hphase hforked hevent hfresh hregistered =>
    refine ⟨fun hpre => ?_, fun hpre => ?_, fun hopening => ?_⟩
    · rw [hphase] at hpre
      obtain ⟨hno, hclean, hunforked⟩ := h.fresh hpre
      have hrunning : (s.conns i).phase ≠ .running := by
        rintro heq
        rw [heq] at hpre
        simp at hpre
      exact ⟨fun hyes => hno (hregistered.1 hyes), hfresh hno hrunning hclean, hforked.trans hunforked⟩
    · rw [hphase] at hpre
      refine hnever (fun heq => ?_) (h.never hpre)
      rw [heq] at hpre
      simp at hpre
    · rw [hphase] at hopening
      have hbefore := h.event hopening
      constructor
      · intro hset
        by_cases hold : (s.conns i).closeEvent = true
        · obtain ⟨m, hm, hcloses⟩ := hbefore.1 hold
          exact ⟨m, List.mem_append_left _ hm, hcloses⟩
        · exact ⟨_, List.mem_append_right _ (List.mem_singleton.2 rfl), hopening, Bool.eq_false_iff.2 hold, hset⟩
      · rintro ⟨m, hm, hcloses⟩
        rcases List.mem_append.1 hm with hm | hm
        · exact hevent (hbefore.2 ⟨m, hm, hcloses⟩)
        · obtain rfl := List.mem_singleton.1 hm
          exact hcloses.2.2
  | before hpre hpost hforked hfresh hregistered =>
    obtain ⟨hno, hclean, hunforked⟩ := h.fresh hpre
    refine ⟨fun _ => ⟨fun hyes => hno (hregistered.1 hyes), hfresh hclean, hforked.trans hunforked⟩, fun _ => ?_,
      fun hopening => ?_⟩
    · refine hnever (fun heq => ?_) (h.never ?_)
      · rw [heq] at hpre
        simp at hpre
      · rcases hpre with h | h | h <;> simp [h]
    · rw [hopening] at hpost
      simp at hpost
  | registers hpre hpost hregistered =>
    have hno := h.never (.inr (.inr (.inl hpre)))
    refine ⟨fun hbefore => ?_, fun _ => hnever (by rw [hpre]; simp) hno, fun hopening => ?_⟩
    · rcases hpost with ⟨hpost, -⟩ | hpost <;> simp [hpost] at hbefore
    · rcases hpost with ⟨hpost, -⟩ | hpost <;> simp [hpost] at hopening
  | opens hpre hpost hforked hevent hregistered =>
    have hno := hnever (by rw [hpre]; simp) (h.never (.inr (.inr (.inr hpre))))
    refine ⟨fun hbefore => ?_, fun hbefore => ?_, fun _ => ?_⟩
    · simp [hpost] at hbefore
    · simp [hpost] at hbefore
    · rw [hevent]
      constructor
      · intro hset
        cases hset
      · rintro ⟨m, hm, hcloses⟩
        exact absurd hcloses (hno m hm)
  | starts hpre hpost hregistered => exact .of_late (by rw [hpost]; rfl)
  | terminates hpre raised hpost hforked hregistered => exact .of_late (by rw [hpost]; rfl)
  | removes hpre hpost hforked hregistered =>
    refine .of_late ?_
    rcases hpost with ⟨raised, hpost⟩ | hpost | hpost <;> (rw [hpost]; rfl)
  | leaves hpre hpost hforked hregistered =>
    refine .of_late ?_
    rcases hpost with hpost | hpost <;> (rw [hpost]; rfl)
  | fails hact hpre hpost hforked hregistered => exact .of_late (by rw [hpost]; rfl)

private theorem opening_of_run (h : Run (step o) Manager.start history s) (i : Nat) : Opening i history s := by
  refine h.history ⟨fun _ => ⟨List.not_mem_nil, ⟨rfl, rfl, rfl⟩, rfl⟩, fun _ m hm => ?_, fun hopening => ?_⟩
    fun _ _ _ _ hs _ hst => hs.step (step_effect hst i)
  · cases hm
  · cases hopening

/-- In every run a PTY is forked with the close event of its session set exactly when the event was set while the
handler was suspended in the audit of `shell_opened`, after it had looked at the event for the last time. -/
theorem forked_after_close (h : Run (step o) Manager.start history s) {before after : List (Move Manager Action)}
    {m : Move Manager Action} (hhistory : history = before ++ m :: after) (hforks : Forks i m) :
    (m.pre.conns i).closeEvent = true ↔ ∃ m' ∈ before, ClosesWhileOpening i m' := by
  subst hhistory
  obtain ⟨hbefore, -, hst, -⟩ := h.at_move
  have hopening := opening_of_run hbefore i
  have hkept : (m.post.conns i).forked ≠ (m.pre.conns i).forked := by
    rw [hforks.1, hforks.2]
    exact Bool.true_eq_false_eq_False.elim
  cases step_effect hst i with
  | registers hpre hpost hregistered =>
    have hno := hopening.never (.inr (.inr (.inl hpre)))
    rw [(hopening.fresh (.inr (.inr hpre))).2.1.1]
    constructor
    · intro hset
      cases hset
    · rintro ⟨m', hm', hcloses⟩
      exact absurd hcloses (hno m' hm')
  | starts hpre hpost hregistered => exact hopening.event hpre
  | noted hphase hforked => exact absurd hforked hkept
  | before hpre hpost hforked => exact absurd hforked hkept
  | opens hpre hpost hforked => exact absurd hforked hkept
  | terminates hpre raised hpost hforked => exact absurd hforked hkept
  | removes hpre hpost hforked => exact absurd hforked hkept
  | leaves hpre hpost hforked => exact absurd hforked hkept
  | fails hact hpre hpost hforked => exact absurd hforked hkept

/-- A shell of user `u`, opened while nothing else happens. -/
def oneShell : List Action :=
  [.connect 0 false, .accepted 0, .authorized 0 (.ok (some ['u'])) ['a'] true, .rechecked 0 none, .opened 0 true]

theorem forked_after_close_one :
    ∃ before m after s, Run (step {}) Manager.start (before ++ m :: after) s ∧ Forks 0 m ∧
      ((m.pre.conns 0).closeEvent = true ↔ ∃ m' ∈ before, ClosesWhileOpening 0 m') := by
  have hexec : (exec (step {}) Manager.start oneShell).any (fun r => r.1.any fun m => decide (Forks 0 m)) = true := by
    decide +kernel
  obtain ⟨⟨history, s⟩, hexec, hany⟩ := (Option.any_eq_true _ _).1 hexec
  obtain ⟨m, hm, hforks⟩ := List.any_eq_true.1 hany
  obtain ⟨before, after, rfl⟩ := List.append_of_mem hm
  have hrun := run_of_exec hexec
  exact ⟨before, m, after, s, hrun, of_decide_eq_true hforks, forked_after_close hrun rfl (of_decide_eq_true hforks)⟩

/-- The user signs out while `shell_opened` is audited: the re-check sets the close event, and the PTY is forked. -/
theorem forked_after_logout :
    ∃ history s, Run (step {}) Manager.start history s ∧
      ∃ m ∈ history, Forks 0 m ∧ (m.pre.conns 0).closeEvent = true := by
  have hexec : (exec (step {}) Manager.start
      [.connect 0 false, .accepted 0, .authorized 0 (.ok (some ['u'])) ['a'] true, .rechecked 0 none, .requestRecheck,
        .spawnCheck 0, .checked 0 (some "session ended".toList), .opened 0 true]).any
      (fun r => r.1.any fun m => decide (Forks 0 m) && (m.pre.conns 0).closeEvent) = true := by decide +kernel
  obtain ⟨⟨history, s⟩, hexec, hany⟩ := (Option.any_eq_true _ _).1 hexec
  obtain ⟨m, hm, hboth⟩ := List.any_eq_true.1 hany
  obtain ⟨hforks, hevent⟩ := Bool.and_eq_true_iff.1 hboth
  exact ⟨history, s, run_of_exec hexec, m, hm, of_decide_eq_true hforks, hevent⟩

/-! ### Limits -/

/-- The limits are respected. -/
structure Limits (o : ShellOptions) (s : Manager) : Prop where
  total : o.maxSessions ≠ 0 → s.sessions.length ≤ o.maxSessions
  perUser : o.maxSessionsPerUser ≠ 0 → ∀ key, s.sessions.countP (·.2 = key) ≤ o.maxSessionsPerUser

/-- An action registers one session that the limits allow, or registers none. -/
private theorem sessions_of_step (h : step o s a = some s') :
    (∃ i key, s.full o key = false ∧ s'.sessions = s.sessions ++ [(i, key)]) ∨ s'.sessions.Sublist s.sessions := by
  have hsame : ∀ {u : Manager}, some u = some s' → u.sessions.Sublist s.sessions → s'.sessions.Sublist s.sessions := by
    intro u hu hsub
    obtain rfl := Option.some.inj hu
    exact hsub
  cases a with
  | authorized i result address forks =>
    simp only [step] at h
    split at h
    · cases h
    · split at h
      · exact .inr (hsame h (List.Sublist.refl _))
      · split at h
        · exact .inr (hsame h (List.Sublist.refl _))
        · rename_i hfull
          obtain rfl := Option.some.inj h
          exact .inl ⟨i, _, Bool.eq_false_iff.2 hfull, rfl⟩
  | rechecked i ended =>
    simp only [step] at h
    split at h
    · cases h
    · split at h
      · exact .inr (hsame h List.filter_sublist)
      · exact .inr (hsame h (List.Sublist.refl _))
  | terminated i raised =>
    simp only [step] at h
    split at h
    · exact .inr (hsame h List.filter_sublist)
    · cases h
  | requestRecheck => exact .inr (hsame h (List.Sublist.refl _))
  | closeAll reason => exact .inr (hsame h (List.Sublist.refl _))
  | fails i =>
    simp only [step] at h
    split at h
    · cases h
    · cases h
    · cases h
    · cases h
    · exact .inr (hsame h (List.Sublist.refl _))
  | closedAudited i =>
    simp only [step] at h
    split at h
    · exact .inr (hsame h (List.Sublist.refl _))
    · cases h
  | _ =>
    simp only [step] at h
    split at h
    · cases h
    · exact .inr (hsame h (List.Sublist.refl _))

theorem Limits.step (hl : Limits o s) (h : step o s a = some s') : Limits o s' := by
  rcases sessions_of_step h with ⟨i, key, hfull, hsessions⟩ | hsub
  · unfold Manager.full at hfull
    obtain ⟨htotal, hkey⟩ := Bool.or_eq_false_iff.1 hfull
    constructor
    · intro hne
      have hlt : s.sessions.length < o.maxSessions := by simpa [hne] using htotal
      rw [hsessions, List.length_append, List.length_singleton]
      omega
    · intro hne key'
      rw [hsessions, List.countP_append, List.countP_singleton]
      split
      · rename_i hsame
        obtain rfl : key = key' := of_decide_eq_true hsame
        have hlt : s.sessions.countP (·.2 = key) < o.maxSessionsPerUser := by simpa [hne] using hkey
        omega
      · exact hl.perUser hne key'
  · exact ⟨fun hne => hsub.length_le.trans (hl.total hne), fun hne key => (hsub.countP_le).trans (hl.perUser hne key)⟩

/-- A session is registered from its registration to the end of `handle_session`, or its handler left it behind. -/
structure Kept (i : Nat) (history : List (Move Manager Action)) (s : Manager) : Prop where
  before : (s.conns i).phase = .idle ∨ (s.conns i).phase = .accepting ∨ (s.conns i).phase = .authorizing ∨
    (s.conns i).phase = .closingSocket ∨ (∃ raised, (s.conns i).phase = .closing raised) → ¬s.Registered i
  within : (s.conns i).phase = .rechecking ∨ (s.conns i).phase = .opening → s.Registered i
  never : (s.conns i).phase ≠ .ended → ∀ m ∈ history, ¬Abandons i m
  ended : (s.conns i).phase = .ended → (s.Registered i ↔ ∃ m ∈ history, Abandons i m)

private theorem ended_of_fails (h : step o s (.fails i) = some s') :
    (s'.conns i).phase = .ended ∧ (s'.Registered i ↔ s.Registered i) := by
  simp only [step] at h
  split at h
  · cases h
  · cases h
  · cases h
  · cases h
  · obtain rfl := Option.some.inj h
    exact ⟨by rw [s.set_conns_self], Iff.rfl⟩

theorem Kept.step (hk : Kept i history s) (h : step o s a = some s') : Kept i (history ++ [⟨s, a, s'⟩]) s' := by
  have hlast : Abandons i ⟨s, a, s'⟩ → (s'.conns i).phase = .ended ∧ s'.Registered i := by
    rintro ⟨hact, hphase⟩
    obtain rfl : a = .fails i := hact
    exact ⟨(ended_of_fails h).1, (ended_of_fails h).2.2 (hk.within hphase)⟩
  -- While the handler goes on, it has not left a session behind.
  have hnever : (s.conns i).phase ≠ .ended → (s'.conns i).phase ≠ .ended →
      ∀ m ∈ history ++ [⟨s, a, s'⟩], ¬Abandons i m := by
    intro hpre hpost m hm
    rcases List.mem_append.1 hm with hm | hm
    · exact hk.never hpre m hm
    · obtain rfl := List.mem_singleton.1 hm
      exact fun habandons => hpost (hlast habandons).1
  -- A handler that ends with its session removed has not left it behind.
  have hended : (s.conns i).phase ≠ .ended → ¬s'.Registered i →
      (s'.Registered i ↔ ∃ m ∈ history ++ [⟨s, a, s'⟩], Abandons i m) := by
    intro hpre hregistered
    refine ⟨fun hyes => absurd hyes hregistered, ?_⟩
    rintro ⟨m, hm, habandons⟩
    rcases List.mem_append.1 hm with hm | hm
    · exact absurd habandons (hk.never hpre m hm)
    · obtain rfl := List.mem_singleton.1 hm
      exact absurd (hlast habandons).2 hregistered
  cases step_effect h i with
  | noted hphase hforked hevent hfresh hregistered =>
    refine ⟨fun hpre => ?_, fun hpre => ?_, fun hpre => ?_, fun hpre => ?_⟩
    · rw [hphase] at hpre
      exact fun hyes => hk.before hpre (hregistered.1 hyes)
    · rw [hphase] at hpre
      exact hregistered.2 (hk.within hpre)
    · exact hnever (by rwa [hphase] at hpre) hpre
    · rw [hphase] at hpre
      rw [hregistered, hk.ended hpre]
      constructor
      · rintro ⟨m, hm, habandons⟩
        exact ⟨m, List.mem_append_left _ hm, habandons⟩
      · rintro ⟨m, hm, habandons⟩
        rcases List.mem_append.1 hm with hm | hm
        · exact ⟨m, hm, habandons⟩
        · obtain rfl := List.mem_singleton.1 hm
          have hphase' := habandons.2
          simp only [hpre] at hphase'
          simp at hphase'
  | before hpre hpost hforked hfresh hregistered =>
    have hno : ¬s'.Registered i := by
      rw [hregistered]
      apply hk.before
      rcases hpre with h | h | h <;> simp [h]
    have hgoes : (s'.conns i).phase ≠ .ended ∧ (s'.conns i).phase ≠ .rechecking ∧ (s'.conns i).phase ≠ .opening := by
      rcases hpost with h | h | h <;> simp [h]
    refine ⟨fun _ => hno, fun hwithin => ?_, fun hne => hnever ?_ hne, fun heq => absurd heq hgoes.1⟩
    · rcases hwithin with heq | heq
      · exact absurd heq hgoes.2.1
      · exact absurd heq hgoes.2.2
    · rcases hpre with h | h | h <;> simp [h]
  | registers hpre hpost hregistered =>
    have hgoes : (s'.conns i).phase = .rechecking ∨ (s'.conns i).phase = .running := by
      rcases hpost with ⟨h, -⟩ | h
      · exact .inl h
      · exact .inr h
    refine ⟨fun hbefore => ?_, fun _ => hregistered, fun hne => hnever (by simp [hpre]) hne, fun heq => ?_⟩
    · rcases hgoes with h | h <;> simp [h] at hbefore
    · rcases hgoes with h | h <;> simp [h] at heq
  | opens hpre hpost hforked hevent hregistered =>
    refine ⟨fun hbefore => ?_, fun _ => ?_, fun hne => hnever (by simp [hpre]) hne, fun heq => ?_⟩
    · simp [hpost] at hbefore
    · exact hregistered.2 (hk.within (.inl hpre))
    · simp [hpost] at heq
  | starts hpre hpost hregistered =>
    refine ⟨fun hbefore => ?_, fun hwithin => ?_, fun hne => hnever (by simp [hpre]) hne, fun heq => ?_⟩
    · simp [hpost] at hbefore
    · simp [hpost] at hwithin
    · simp [hpost] at heq
  | terminates hpre raised hpost hforked hregistered =>
    refine ⟨fun hbefore => ?_, fun hwithin => ?_, fun hne => hnever (by simp [hpre]) hne, fun heq => ?_⟩
    · simp [hpost] at hbefore
    · simp [hpost] at hwithin
    · simp [hpost] at heq
  | removes hpre hpost hforked hregistered =>
    have hrunning : (s.conns i).phase ≠ .ended := by
      rcases hpre with h | ⟨raised, h⟩ <;> simp [h]
    refine ⟨fun _ => hregistered, fun hwithin => ?_, fun hne => hnever hrunning hne, fun heq => ?_⟩
    · rcases hpost with ⟨raised, h⟩ | h | h <;> simp [h] at hwithin
    · exact hended hrunning hregistered
  | leaves hpre hpost hforked hregistered =>
    have hno : ¬s'.Registered i := by
      rw [hregistered]
      apply hk.before
      rcases hpre with h | h
      · simp [h]
      · simp [h]
    have hrunning : (s.conns i).phase ≠ .ended := by
      rcases hpre with ⟨raised, h⟩ | h <;> simp [h]
    refine ⟨fun _ => hno, fun hwithin => ?_, fun hne => hnever hrunning hne, fun _ => hended hrunning hno⟩
    rcases hpost with h | h <;> simp [h] at hwithin
  | fails hact hpre hpost hforked hregistered =>
    refine ⟨fun hbefore => ?_, fun hwithin => ?_, fun hne => absurd hpost hne, fun _ => ?_⟩
    · simp [hpost] at hbefore
    · simp [hpost] at hwithin
    · rcases hpre with hpre | hpre
      · have hyes : s'.Registered i := hregistered.2 (hk.within hpre)
        exact ⟨fun _ => ⟨_, List.mem_append_right _ (List.mem_singleton.2 rfl), hact, hpre⟩, fun _ => hyes⟩
      · have hno : ¬s'.Registered i := by
          rw [hregistered]
          apply hk.before
          rcases hpre with h | h | h | h <;> simp [h]
        refine hended ?_ hno
        rcases hpre with h | h | h | ⟨raised, h⟩ <;> simp [h]

private theorem kept_of_run (h : Run (step o) Manager.start history s) (i : Nat) : Kept i history s := by
  refine h.history ⟨fun _ => List.not_mem_nil, fun hwithin => ?_, fun _ m hm => ?_, fun hended => ?_⟩
    fun _ _ _ _ hs _ hst => hs.step hst
  · rcases hwithin with h | h <;> cases h
  · cases hm
  · cases hended

/-- In every run the limits are respected; and where a handler ended, its session is registered still exactly when the
handler was cancelled, or raised, in the re-check after its registration or in the audit of `shell_opened`. -/
theorem sessions_removed (h : Run (step o) Manager.start history s) :
    (o.maxSessions ≠ 0 → s.sessions.length ≤ o.maxSessions) ∧
    (o.maxSessionsPerUser ≠ 0 → ∀ key, s.sessions.countP (·.2 = key) ≤ o.maxSessionsPerUser) ∧
    ∀ i, (s.conns i).phase = .ended → (s.Registered i ↔ ∃ m ∈ history, Abandons i m) := by
  have hlimits : Limits o s := by
    refine h.invariant ⟨fun _ => Nat.zero_le _, fun _ _ => Nat.zero_le _⟩ fun _ _ _ hs _ hst => hs.step hst
  exact ⟨hlimits.total, hlimits.perUser, fun i hended => (kept_of_run h i).ended hended⟩

theorem sessions_removed_one :
    ∃ history s, Run (step {}) Manager.start history s ∧ (s.conns 0).phase = .ended ∧ ¬s.Registered 0 ∧
      s.sessions.length ≤ 20 ∧ (s.Registered 0 ↔ ∃ m ∈ history, Abandons 0 m) := by
  have hexec : (exec (step {}) Manager.start
      (oneShell ++ [.sessionEnds 0 false, .terminated 0 false, .closedAudited 0])).any
      (fun r => decide ((r.2.conns 0).phase = .ended) && decide (¬r.2.Registered 0)) = true := by decide +kernel
  obtain ⟨⟨history, s⟩, hexec, hboth⟩ := (Option.any_eq_true _ _).1 hexec
  obtain ⟨hended, hremoved⟩ := Bool.and_eq_true_iff.1 hboth
  have hrun := run_of_exec hexec
  obtain ⟨htotal, -, hregistered⟩ := sessions_removed hrun
  exact ⟨history, s, hrun, of_decide_eq_true hended, of_decide_eq_true hremoved, htotal (by decide),
    hregistered 0 (of_decide_eq_true hended)⟩

/-- A handler cancelled in the re-check after its registration leaves its session behind; it takes the user's quota. -/
theorem session_left_behind :
    ∃ history s, Run (step { maxSessionsPerUser := 1 }) Manager.start history s ∧ (s.conns 0).phase = .ended ∧
      s.Registered 0 ∧ (s.conns 1).closedWith = some (4429, "too many shell sessions".toList) := by
  have hexec : (exec (step { maxSessionsPerUser := 1 }) Manager.start
      [.connect 0 false, .accepted 0, .authorized 0 (.ok (some ['u'])) ['a'] true, .fails 0,
        .connect 1 false, .accepted 1, .authorized 1 (.ok (some ['u'])) ['a'] true]).any
      (fun r => decide ((r.2.conns 0).phase = .ended) && (decide (r.2.Registered 0) &&
        decide ((r.2.conns 1).closedWith = some (4429, "too many shell sessions".toList)))) = true := by
    decide +kernel
  obtain ⟨⟨history, s⟩, hexec, hall⟩ := (Option.any_eq_true _ _).1 hexec
  obtain ⟨hended, hrest⟩ := Bool.and_eq_true_iff.1 hall
  obtain ⟨hregistered, hclosed⟩ := Bool.and_eq_true_iff.1 hrest
  exact ⟨history, s, run_of_exec hexec, of_decide_eq_true hended, of_decide_eq_true hregistered,
    of_decide_eq_true hclosed⟩

end CliServer.Shell
