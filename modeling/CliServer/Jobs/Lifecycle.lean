import CliServer.Jobs.Cancellation
import CliServer.Jobs.Leaks

/-!
# The lifecycle of a run

What one run saves and publishes, in order, read off the history of its job (`runLog`).  A run makes attempts: each
saves an execution as running, publishes `job:started`, and ends with one final status, which is stored and published.
After a failed attempt it may publish `job:retrying` and, unless it is cancelled while it waits, make the next one
(`Rounds`).  `run_lifecycle` says that this is all, for a run whose options do not change while storage and event bus
do not raise.
-/

namespace CliServer

open Transition

/-- What a run does that others see. -/
inductive RunEvent where
  /-- The execution of an attempt is saved as running. -/
  | saved (attempt : Nat)
  /-- `job:started`. -/
  | started (attempt : Nat)
  /-- `job:completed`, `job:cancelled`, `job:timed_out` or `job:failed`. -/
  | reported (attempt : Nat) (status : ExecutionStatus)
  /-- The execution is finished (`_save_finished`). -/
  | stored (attempt : Nat) (status : ExecutionStatus)
  /-- `job:retrying`, with the delay before the next attempt. -/
  | retrying (attempt delay : Nat)
  /-- The run gives its slot back; `cancelled` is whether its event is set. -/
  | released (cancelled : Bool)
  deriving DecidableEq, Repr

/-- The call a run awaits in a phase. -/
def Phase.event : Phase → Option RunEvent
  | .saving k => some (.saved k)
  | .starting k => some (.started k)
  | .reporting k status _ => some (.reported k status)
  | .finishing k status => some (.stored k status)
  | .completing k => some (.reported k .completed)
  | .retrying k delay => some (.retrying k delay)
  | _ => none

/-- The call a run awaits next, or its end. -/
def Next.event (cancelled : Bool) : Next → Option RunEvent
  | .goto phase => phase.event
  | .cancelGoto phase => phase.event
  | .ended => some (.released cancelled)

/-- What run `i` does in a move. -/
def runEvent (i : RunId) (m : Move JobRegistration JobAction) : Option RunEvent :=
  match m.act with
  | .runStep j answer =>
    if j = i then
      (m.pre.runs.get? i).bind fun run =>
        (proceed m.pre.options run.cancellation run.phase answer).bind fun next => next.event run.cancellation
    else none
  | _ => none

/-- What run `i` has done. -/
def runLog (i : RunId) (history : List (Move JobRegistration JobAction)) : List RunEvent :=
  history.filterMap (runEvent i)

/-- An attempt from its start to its end. -/
def attemptEvents (k : Nat) (status : ExecutionStatus) : List RunEvent :=
  [.saved k, .started k] ++
    if status = .completed then [.stored k status, .reported k status] else [.reported k status, .stored k status]

/-- `n` failed attempts, each with its announced retry. -/
inductive Rounds (o : CliJobOptions) : Nat → List RunEvent → Prop
  | none : Rounds o 0 []
  | retry {k delay : Nat} {log : List RunEvent} : Rounds o k log → (k : Int) < o.maxRetries →
      retryDelay o k = some delay → Rounds o (k + 1) (log ++ attemptEvents k .failed ++ [.retrying k delay])

/-- All a run does: failed attempts with their retries, and a last attempt, unless it is cancelled before that. -/
def Complete (o : CliJobOptions) (log : List RunEvent) : Prop :=
  ∃ (n : Nat) (rounds : List RunEvent), (n : Int) ≤ max o.maxRetries 0 ∧ Rounds o n rounds ∧
    ((0 < n ∧ log = rounds ++ [.released true]) ∨
      ∃ status cancelled, log = rounds ++ attemptEvents n status ++ [.released cancelled])

/-- The number of rounds behind a phase, and what the current attempt has done. -/
def Phase.progress : Phase → Nat × List RunEvent
  | .admitted => (0, [])
  | .abandoned => (0, [])
  | .launched => (0, [])
  | .saving k => (k, [.saved k])
  | .starting k => (k, [.saved k, .started k])
  | .executing k => (k, [.saved k, .started k])
  | .reporting k status _ => (k, [.saved k, .started k, .reported k status])
  | .finishing k status =>
    (k, if status = .completed then [.saved k, .started k, .stored k status] else attemptEvents k status)
  | .persisting k status =>
    (k, if status = .completed then [.saved k, .started k, .stored k status] else attemptEvents k status)
  | .completing k => (k, attemptEvents k .completed)
  | .retrying k _ => (k + 1, [])
  | .waiting k _ => (k + 1, [])

/-- What a run at a phase has done. -/
def InProgress (o : CliJobOptions) (phase : Phase) (log : List RunEvent) : Prop :=
  phase ≠ .abandoned ∧ (∀ k caught, phase ≠ .reporting k .completed caught) ∧
    (phase.progress.1 : Int) ≤ max o.maxRetries 0 ∧
    ∃ rounds, Rounds o phase.progress.1 rounds ∧ log = rounds ++ phase.progress.2

/-- A bound on the steps a run still takes. -/
def stepsLeft (o : CliJobOptions) : Phase → Nat
  | .admitted => 10 * (o.maxRetries.toNat + 1)
  | .abandoned => 10 * (o.maxRetries.toNat + 1)
  | .launched => 10 * (o.maxRetries.toNat + 1)
  | .saving k => 10 * (o.maxRetries.toNat - k) + 9
  | .starting k => 10 * (o.maxRetries.toNat - k) + 8
  | .executing k => 10 * (o.maxRetries.toNat - k) + 7
  | .reporting k _ caught => 10 * (o.maxRetries.toNat - k) + if caught then 6 else 5
  | .finishing k _ => 10 * (o.maxRetries.toNat - k) + 4
  | .persisting k _ => 10 * (o.maxRetries.toNat - k) + 3
  | .completing k => 10 * (o.maxRetries.toNat - k) + 2
  | .retrying k _ => 10 * (o.maxRetries.toNat - k) + 2
  | .waiting k _ => 10 * (o.maxRetries.toNat - k) + 1

private theorem stepsLeft_pos (o : CliJobOptions) (phase : Phase) : 0 < stepsLeft o phase := by
  cases phase with
  | reporting k status caught => cases caught <;> simp [stepsLeft]
  | _ => simp only [stepsLeft]; omega

/-- Whether a move is a step of run `i`. -/
def isStepOf (i : RunId) (m : Move JobRegistration JobAction) : Bool :=
  match m.act with
  | .runStep j _ => j = i
  | _ => false

/-- The number of steps run `i` has taken. -/
def stepsTaken (i : RunId) (history : List (Move JobRegistration JobAction)) : Nat := history.countP (isStepOf i)

/-- The job's own call, which may end in any way, and the wait for a retry. -/
def Phase.isJobCall : Phase → Bool
  | .executing _ => true
  | .waiting _ _ => true
  | _ => false

/-- The options do not change while run `i` holds a slot, what it awaits of the storage and the event bus returns, and
the job raises nothing that its handlers do not get over. -/
def Undisturbed (i : RunId) (reg : JobRegistration) : JobAction → Prop
  | .updateOptions _ => i ∉ reg.runs.ids
  | .triggered j answer => j = i → answer = .ok
  | .runStep j answer =>
    j = i → answer ≠ .escaped ∧ ∀ run ∈ reg.runs.get? i, answer = .ok ∨ run.phase.isJobCall = true
  | _ => True

instance (i : RunId) (reg : JobRegistration) (a : JobAction) : Decidable (Undisturbed i reg a) :=
  match a with
  | .updateOptions _ => inferInstanceAs (Decidable (i ∉ reg.runs.ids))
  | .triggered j answer => inferInstanceAs (Decidable (j = i → answer = .ok))
  | .runStep j answer =>
    inferInstanceAs (Decidable (j = i → answer ≠ .escaped ∧
      ∀ run ∈ reg.runs.get? i, answer = .ok ∨ run.phase.isJobCall = true))
  | .start _ _ | .timerFire _ | .trigger | .pause | .resume | .stopJob | .stop | .cancelCurrent =>
    inferInstanceAs (Decidable True)

theorem Rounds.le {o : CliJobOptions} {n : Nat} {log : List RunEvent} (h : Rounds o n log) :
    (n : Int) ≤ max o.maxRetries 0 := by
  cases h with
  | none => simp
  | retry _ hlt _ => push_cast; omega

/-- `job:retrying` follows a failed attempt when retries are left, with the delay of the strategy. -/
theorem afterAttempt_goto {o : CliJobOptions} {c : Bool} {k : Nat} {status : ExecutionStatus} {phase : Phase}
    (h : afterAttempt o c k status = .goto phase) :
    status = .failed ∧ (k : Int) < o.maxRetries ∧ ∃ delay, retryDelay o k = some delay ∧ phase = .retrying k delay := by
  unfold afterAttempt at h
  split at h
  · cases h
  · rename_i hretry
    split at h
    · cases h
    · rename_i delay hdelay
      split at h
      · cases h
      · obtain rfl := Next.goto.inj h
        refine ⟨by_contra fun hs => hretry (.inl hs), ?_, delay, hdelay, rfl⟩
        exact lt_of_not_ge fun hle => hretry (.inr (.inl hle))

/-! ### From one await to the next -/

theorem callJob_cases (o : CliJobOptions) (k : Nat) :
    callJob o k = .executing k ∨ callJob o k = .reporting k .failed false := by
  unfold callJob
  split
  · exact .inr rfl
  · exact .inl rfl

/-- What a run has done when it gets to the next await, with fewer steps left than before, or to its end. -/
def Next.Reached (o : CliJobOptions) (log : List RunEvent) (left : Nat) : Next → Prop
  | .goto phase => InProgress o phase log ∧ stepsLeft o phase < left
  | .cancelGoto phase => InProgress o phase log ∧ stepsLeft o phase < left
  | .ended => Complete o log

/-- After an attempt the run retries or ends. -/
private theorem afterAttempt_reached {o : CliJobOptions} {k left : Nat} {rounds : List RunEvent} (h : Rounds o k rounds)
    (c : Bool)
    (status : ExecutionStatus) (hleft : 10 * (o.maxRetries.toNat - k) + 2 < left ∨ status ≠ .failed) :
    (afterAttempt o c k status).Reached o
      (rounds ++ attemptEvents k status ++ ((afterAttempt o c k status).event c).toList) left := by
  rcases afterAttempt_cases o c k status with heq | ⟨delay, heq⟩
  · rw [heq]
    exact ⟨k, rounds, h.le, h, .inr ⟨status, c, rfl⟩⟩
  · obtain ⟨rfl, hlt, delay', hdelay, hphase⟩ := afterAttempt_goto heq
    obtain ⟨-, rfl⟩ := Phase.retrying.inj hphase
    rw [heq]
    have hretry := Rounds.retry h hlt hdelay
    refine ⟨⟨by simp, by simp, hretry.le, _, hretry, ?_⟩, by simpa [stepsLeft] using hleft⟩
    simp [Phase.progress, Next.event, Phase.event]

/-- A run goes on from a phase to the next thing it does. -/
private theorem proceed_reached {o : CliJobOptions} {c : Bool} {p : Phase} {answer : Answer} {log : List RunEvent}
    {next : Next}
    (hp : InProgress o p log) (hesc : answer ≠ .escaped) (hanswer : answer = .ok ∨ p.isJobCall = true)
    (h : proceed o c p answer = some next) : next.Reached o (log ++ (next.event c).toList) (stepsLeft o p) := by
  obtain ⟨habandoned, hcompleted, hle, rounds, hrounds, rfl⟩ := hp
  cases p with
  | admitted => cases h
  | abandoned => exact absurd rfl habandoned
  | launched =>
    obtain rfl : answer = .ok := hanswer.resolve_right (by simp [Phase.isJobCall])
    obtain rfl := Option.some.inj h
    refine ⟨⟨by simp, by simp, hle, rounds, hrounds, by simp [Phase.progress, Next.event, Phase.event]⟩, ?_⟩
    simp only [stepsLeft]
    omega
  | saving k =>
    obtain rfl : answer = .ok := hanswer.resolve_right (by simp [Phase.isJobCall])
    obtain rfl := Option.some.inj h
    refine ⟨⟨by simp, by simp, hle, rounds, hrounds, ?_⟩, by simp [stepsLeft]⟩
    simp [Phase.progress, Next.event, Phase.event]
  | starting k =>
    obtain rfl : answer = .ok := hanswer.resolve_right (by simp [Phase.isJobCall])
    obtain rfl := Option.some.inj h
    rcases callJob_cases o k with hcall | hcall
    · rw [hcall]
      refine ⟨⟨by simp, by simp, hle, rounds, hrounds, ?_⟩, by simp [stepsLeft]⟩
      simp [Phase.progress, Next.event, Phase.event]
    · rw [hcall]
      refine ⟨⟨by simp, by simp, hle, rounds, hrounds, ?_⟩, by simp [stepsLeft]⟩
      simp [Phase.progress, Next.event, Phase.event]
  | executing k =>
    -- The job returns, raises or is cancelled; its event may be set meanwhile.
    have hreport : ∀ status caught, status ≠ .completed →
        InProgress o (.reporting k status caught) (rounds ++ (Phase.executing k).progress.2 ++ [.reported k status]) ∧
          stepsLeft o (.reporting k status caught) < stepsLeft o (.executing k) := by
      intro status caught hstatus
      refine ⟨⟨by simp, by simpa using hstatus, hle, rounds, hrounds, by simp [Phase.progress]⟩, ?_⟩
      cases caught <;> simp [stepsLeft]
    cases answer with
    | ok =>
      obtain rfl := Option.some.inj h
      cases c with
      | true => exact hreport .cancelled true (by simp)
      | false =>
        refine ⟨⟨by simp, by simp, hle, rounds, hrounds, ?_⟩, by simp [stepsLeft]⟩
        simp [Phase.progress, Next.event, Phase.event]
    | timeout =>
      obtain rfl := Option.some.inj h
      cases c with
      | true => exact hreport .cancelled false (by simp)
      | false => exact hreport .timedOut false (by simp)
    | cancelled =>
      obtain rfl := Option.some.inj h
      exact hreport .cancelled false (by simp)
    | error =>
      obtain rfl := Option.some.inj h
      exact hreport .failed false (by simp)
    | escaped => exact absurd rfl hesc
  | reporting k status caught =>
    obtain rfl : answer = .ok := hanswer.resolve_right (by simp [Phase.isJobCall])
    obtain rfl := Option.some.inj h
    have hstatus : status ≠ .completed := fun h => hcompleted k caught (h ▸ rfl)
    refine ⟨⟨by simp, by simp, hle, rounds, hrounds, ?_⟩, ?_⟩
    · simp [Phase.progress, Next.event, Phase.event, attemptEvents, hstatus]
    · cases caught <;> simp [stepsLeft]
  | finishing k status =>
    obtain rfl : answer = .ok := hanswer.resolve_right (by simp [Phase.isJobCall])
    obtain rfl := Option.some.inj h
    refine ⟨⟨by simp, by simp, hle, rounds, hrounds, ?_⟩, by simp [stepsLeft]⟩
    simp [Phase.progress, Next.event, Phase.event]
  | persisting k status =>
    obtain rfl : answer = .ok := hanswer.resolve_right (by simp [Phase.isJobCall])
    obtain rfl := Option.some.inj h
    by_cases hstatus : status = .completed
    · rw [if_pos hstatus]
      refine ⟨⟨by simp, by simp, hle, rounds, hrounds, ?_⟩, by simp [stepsLeft]⟩
      simp [Phase.progress, Next.event, Phase.event, attemptEvents, hstatus]
    · rw [if_neg hstatus]
      simp only [Phase.progress, if_neg hstatus]
      exact afterAttempt_reached hrounds c status (.inl (Nat.lt_succ_self _))
  | completing k =>
    obtain rfl : answer = .ok := hanswer.resolve_right (by simp [Phase.isJobCall])
    obtain rfl := Option.some.inj h
    exact afterAttempt_reached hrounds c .completed (.inr (by simp))
  | retrying k delay =>
    obtain rfl : answer = .ok := hanswer.resolve_right (by simp [Phase.isJobCall])
    obtain rfl := Option.some.inj h
    split
    · rename_i hcancelled
      refine ⟨k + 1, rounds, hle, hrounds, .inl ⟨k.succ_pos, ?_⟩⟩
      simp [Phase.progress, Next.event, hcancelled.1]
    · refine ⟨⟨by simp, by simp, hle, rounds, hrounds, ?_⟩, by simp [stepsLeft]⟩
      simp [Phase.progress, Next.event, Phase.event]
  | waiting k delay =>
    cases answer with
    | ok =>
      simp only [proceed] at h
      split at h
      · rename_i hcancelled
        obtain rfl := Option.some.inj h
        refine ⟨k + 1, rounds, hle, hrounds, .inl ⟨k.succ_pos, ?_⟩⟩
        simp [Phase.progress, Next.event, hcancelled.1]
      · cases h
    | timeout =>
      obtain rfl := Option.some.inj h
      refine ⟨⟨by simp, by simp, hle, rounds, hrounds, by simp [Phase.progress, Next.event, Phase.event]⟩, ?_⟩
      simp only [Phase.progress, Nat.cast_add, Nat.cast_one] at hle
      simp only [stepsLeft]
      omega
    | error => cases h
    | cancelled => cases h
    | escaped => cases h

/-! ### Slots and options -/

/-- A step gives out the next number to a run that takes a slot, or none. -/
private theorem next_step {isCron : Str → Bool} {reg reg' : JobRegistration} {a : JobAction}
    (h : step isCron reg a = some reg') :
    reg'.runs.next = reg.runs.next ∨ (reg'.runs.next = reg.runs.next + 1 ∧ reg.runs.next ∈ reg'.runs.ids) := by
  cases slotEffect h with
  | keep same _ => exact .inl same.next
  | take _ _ ids next _ _ => exact .inr ⟨next, by rw [ids]; exact List.mem_append_right _ List.mem_cons_self⟩
  | wait _ _ same _ => exact .inl same.next
  | drop _ same _ => exact .inl same.next
  | serve mid _ _ next _ _ _ post_eq =>
    subst post_eq
    rcases startQueued_cases mid with ⟨h, -⟩ | ⟨-, -, h⟩
    · rw [h]
      exact .inl next
    · rw [h]
      refine .inr ⟨by simp [next], ?_⟩
      rw [Runs.ids_setPhase, Runs.ids_add, next]
      exact List.mem_append_right _ List.mem_cons_self

private theorem ids_startQueued (reg : JobRegistration) : ∀ i ∈ reg.runs.ids, i ∈ reg.startQueued.runs.ids := by
  intro i hi
  rcases startQueued_cases reg with ⟨h, -⟩ | ⟨-, -, h⟩
  · rw [h]
    exact hi
  · rw [h, Runs.ids_setPhase, Runs.ids_add]
    exact List.mem_append_left _ hi

/-- A slot is given back by the end of its run only. -/
theorem slot_kept {isCron : Str → Bool} {reg reg' : JobRegistration} {a : JobAction} (h : step isCron reg a = some reg')
    {i : RunId} (hi : i ∈ reg.runs.ids) : i ∈ reg'.runs.ids ∨ ∃ run answer, reg.runs.get? i = some run ∧
      a = .runStep i answer ∧ proceed reg.options run.cancellation run.phase answer = some .ended := by
  cases a with
  | runStep j answer =>
    obtain ⟨run, hrun, h⟩ := Option.bind_eq_some_iff.1 h
    obtain ⟨next, hnext, h⟩ := Option.bind_eq_some_iff.1 h
    cases next with
    | goto phase =>
      obtain rfl := Option.some.inj h
      exact .inl (by simpa using hi)
    | cancelGoto phase =>
      obtain rfl := Option.some.inj h
      exact .inl (by simpa using hi)
    | ended =>
      obtain rfl := Option.some.inj h
      by_cases hij : i = j
      · subst hij
        exact .inr ⟨run, answer, hrun, rfl, hnext⟩
      · left
        refine ids_startQueued _ i ?_
        obtain ⟨r, hr, rfl⟩ := Runs.mem_ids.1 hi
        exact Runs.mem_ids.2 ⟨r, Runs.mem_remove.2 ⟨hr, hij⟩, rfl⟩
  | _ =>
    left
    cases slotEffect h with
    | keep same _ => exact same.ids ▸ hi
    | take _ _ ids _ _ _ => rw [ids]; exact List.mem_append_left _ hi
    | wait _ _ same _ => exact same.ids ▸ hi
    | drop _ same _ => exact same.ids ▸ hi
    | serve mid serves _ _ _ _ runs post_eq =>
      subst post_eq
      refine ids_startQueued mid i ?_
      first
        | exact absurd serves id
        | rw [runs _ rfl]; exact hi

private theorem options_admitRun (reg : JobRegistration) : reg.admitRun.1.options = reg.options := by
  unfold JobRegistration.admitRun
  split
  · rfl
  · split
    · rfl
    · split
      · split <;> rfl
      · rfl

theorem options_launchDue (reg : JobRegistration) : reg.launchDue.options = reg.options := by
  have h := options_admitRun reg
  unfold JobRegistration.launchDue
  split <;> (rename_i heq; rw [heq] at h; exact h)

theorem options_startQueued (reg : JobRegistration) : reg.startQueued.options = reg.options := by
  unfold JobRegistration.startQueued
  split <;> rfl

/-- Only `update_options` changes the options. -/
theorem options_step {isCron : Str → Bool} {reg reg' : JobRegistration} {a : JobAction}
    (ha : ∀ changes, a ≠ .updateOptions changes) (h : step isCron reg a = some reg') : reg'.options = reg.options := by
  cases a with
  | start saved due =>
    obtain rfl := Option.some.inj h
    have hrestore : (reg.restore saved).options = reg.options := by
      unfold JobRegistration.restore
      split
      · split <;> rfl
      · rfl
    unfold JobRegistration.start
    split
    · exact (options_launchDue _).trans hrestore
    · exact hrestore
  | timerFire running =>
    obtain rfl := Option.some.inj h
    unfold JobRegistration.timerFire
    split
    · exact options_launchDue reg
    · rfl
  | trigger =>
    have hadmit := options_admitRun reg
    simp only [step, JobRegistration.trigger] at h
    split at h
    · rename_i heq
      obtain rfl := Option.some.inj h
      rw [heq] at hadmit
      exact hadmit
    · rename_i heq
      obtain rfl := Option.some.inj h
      rw [heq] at hadmit
      exact hadmit
    · cases h
  | triggered i answer =>
    obtain ⟨run, -, h⟩ := Option.bind_eq_some_iff.1 h
    split at h
    · split at h
      · obtain rfl := Option.some.inj h
        rfl
      · cases h
      · obtain rfl := Option.some.inj h
        rfl
    · cases h
  | pause =>
    obtain ⟨-, rfl⟩ : ¬ reg.status = .paused ∧ { reg with status := .paused } = reg' := by
      simpa [step, JobRegistration.pause] using h
    rfl
  | resume =>
    obtain ⟨-, rfl⟩ : reg.status = .paused ∧ { reg with status := .active } = reg' := by
      simpa [step, JobRegistration.resume] using h
    rfl
  | stopJob => obtain rfl := Option.some.inj h; rfl
  | stop => obtain rfl := Option.some.inj h; rfl
  | cancelCurrent =>
    simp only [step, JobRegistration.cancelCurrent] at h
    split at h
    · cases h
    · obtain rfl := Option.some.inj h; rfl
  | updateOptions changes => exact absurd rfl (ha changes)
  | runStep i answer =>
    obtain ⟨run, -, h⟩ := Option.bind_eq_some_iff.1 h
    obtain ⟨next, -, h⟩ := Option.bind_eq_some_iff.1 h
    cases next with
    | ended =>
      obtain rfl := Option.some.inj h
      exact options_startQueued _
    | _ => obtain rfl := Option.some.inj h; rfl

/-- A step of a task moves its run to a phase, or takes it out of the runs. -/
theorem runStep_next {reg reg' : JobRegistration} {i : RunId} {answer : Answer} (h : runStep reg i answer = some reg') :
    ∃ run next, reg.runs.get? i = some run ∧ proceed reg.options run.cancellation run.phase answer = some next ∧
      ((∃ phase, (next = .goto phase ∨ next = .cancelGoto phase) ∧
        ∃ run' ∈ reg'.runs.list, run'.id = i ∧ run'.phase = phase) ∨ (next = .ended ∧ i ∉ reg'.runs.ids)) := by
  obtain ⟨run, hrun, h⟩ := Option.bind_eq_some_iff.1 h
  obtain ⟨next, hnext, h⟩ := Option.bind_eq_some_iff.1 h
  obtain ⟨hmem, rfl⟩ := Runs.get?_eq_some.1 hrun
  refine ⟨run, next, hrun, hnext, ?_⟩
  cases next with
  | goto phase =>
    obtain rfl := Option.some.inj h
    have hmoved : { run with phase := phase } ∈ (reg.runs.setPhase run.id phase).list :=
      Runs.mem_setPhase.2 ⟨run, hmem, if_pos rfl⟩
    exact .inl ⟨phase, .inl rfl, _, hmoved, rfl, rfl⟩
  | cancelGoto phase =>
    obtain rfl := Option.some.inj h
    have hcancelled : { run with cancellation := true } ∈ (reg.runs.cancel (· = run.id)).list :=
      Runs.mem_cancel.2 ⟨run, hmem, by simp⟩
    have hmoved : { run with cancellation := true, phase := phase } ∈
        ((reg.runs.cancel (· = run.id)).setPhase run.id phase).list :=
      Runs.mem_setPhase.2 ⟨_, hcancelled, if_pos rfl⟩
    exact .inl ⟨phase, .inr rfl, _, hmoved, rfl, rfl⟩
  | ended =>
    obtain rfl := Option.some.inj h
    exact .inr ⟨rfl, release_notMem reg hmem⟩

/-! ### The log of a run -/

private theorem runLog_append (i : RunId) (history : List (Move JobRegistration JobAction))
    (m : Move JobRegistration JobAction) :
    runLog i (history ++ [m]) = runLog i history ++ (runEvent i m).toList := by
  unfold runLog
  rw [List.filterMap_append]
  cases h : runEvent i m <;> simp [h]

/-- A run does something only while it holds a slot, in a step of its task. -/
private theorem runEvent_of_ne {i : RunId} {m : Move JobRegistration JobAction}
    (h : ∀ answer, m.act ≠ .runStep i answer) :
    runEvent i m = none := by
  unfold runEvent
  split
  · rename_i j answer hact
    exact if_neg fun hij : j = i => h answer (hij ▸ hact)
  · rfl

private theorem runEvent_of_notMem {i : RunId} {m : Move JobRegistration JobAction} (h : i ∉ m.pre.runs.ids) :
    runEvent i m = none := by
  have hnone : m.pre.runs.get? i = none := by
    cases hget : m.pre.runs.get? i with
    | none => rfl
    | some run =>
      obtain ⟨hmem, hid⟩ := Runs.get?_eq_some.1 hget
      exact absurd (Runs.mem_ids.2 ⟨run, hmem, hid⟩) h
  unfold runEvent
  split
  · rw [hnone]
    exact ite_self none
  · rfl

/-- A run that is there after a step was there before, or is new. -/
private theorem runs_step {isCron : Str → Bool} {reg reg' : JobRegistration} {a : JobAction}
    (h : step isCron reg a = some reg')
    {run' : JobRun} (hrun' : run' ∈ reg'.runs.list) : run'.id ∈ reg.runs.ids ∨
      (run'.id = reg.runs.next ∧ (run'.phase = .admitted ∨ run'.phase = .launched)) := by
  have hold : ∀ run ∈ reg.runs.list, run.id ∈ reg.runs.ids := fun run hrun => Runs.mem_ids.2 ⟨run, hrun, rfl⟩
  cases runEffect h run' hrun' with
  | fresh id cancellation phase => exact .inr ⟨id, phase⟩
  | same mem => exact .inl (hold run' mem)
  | set run mem cancelled eq => subst eq; exact .inl (hold run mem)
  | announced run mem answer act admitted eq => subst eq; exact .inl (hold run mem)
  | moved run mem answer act phase next eq => subst eq; exact .inl (hold run mem)
  | timedOut run mem answer act phase next eq => subst eq; exact .inl (hold run mem)

/-- A run that has ended is not there again. -/
private theorem gone_step {isCron : Str → Bool} {reg reg' : JobRegistration} {a : JobAction}
    (h : step isCron reg a = some reg')
    {i : RunId} (hlt : i < reg.runs.next) (hi : i ∉ reg.runs.ids) : i ∉ reg'.runs.ids := by
  intro hi'
  obtain ⟨run', hrun', rfl⟩ := Runs.mem_ids.1 hi'
  rcases runs_step h hrun' with hold | ⟨hnew, -⟩
  · exact hi hold
  · exact absurd hnew (Nat.ne_of_lt hlt)

/-- Where run `i` is in a history: not begun, holding a slot, or ended, with the options it runs with. -/
inductive Lifecycle (i : RunId) (history : List (Move JobRegistration JobAction)) (reg : JobRegistration) : Prop
  | before (next : reg.runs.next ≤ i) (idle : ∀ m ∈ history, i ∉ m.pre.runs.ids) (log : runLog i history = [])
      (steps : stepsTaken i history = 0)
  | during (run : JobRun) (mem : run ∈ reg.runs.list) (id : run.id = i)
      (options : ∀ m ∈ history, i ∈ m.pre.runs.ids → m.pre.options = reg.options)
      (log : InProgress reg.options run.phase (runLog i history))
      (steps : stepsTaken i history + stepsLeft reg.options run.phase ≤ 10 * (reg.options.maxRetries.toNat + 1))
  | after (o : CliJobOptions) (next : i < reg.runs.next) (gone : i ∉ reg.runs.ids)
      (options : ∀ m ∈ history, i ∈ m.pre.runs.ids → m.pre.options = o) (log : Complete o (runLog i history))
      (steps : stepsTaken i history ≤ 10 * (o.maxRetries.toNat + 1))

private theorem stepsTaken_append (i : RunId) (history : List (Move JobRegistration JobAction))
    (m : Move JobRegistration JobAction) :
    stepsTaken i (history ++ [m]) = stepsTaken i history + if isStepOf i m then 1 else 0 := by
  unfold stepsTaken
  rw [List.countP_append, List.countP_singleton]

/-- A move that is no step of run `i` adds nothing to its log. -/
private theorem quiet_of_ne {i : RunId} {history : List (Move JobRegistration JobAction)}
    {m : Move JobRegistration JobAction}
    (h : ∀ answer, m.act ≠ .runStep i answer) :
    runLog i (history ++ [m]) = runLog i history ∧ stepsTaken i (history ++ [m]) = stepsTaken i history := by
  have hstep : isStepOf i m = false := by
    unfold isStepOf
    split
    · rename_i j answer hact
      exact decide_eq_false fun hij : j = i => h answer (hij ▸ hact)
    · rfl
  rw [runLog_append, stepsTaken_append, runEvent_of_ne h, hstep]
  exact ⟨List.append_nil _, rfl⟩

/-- Only a run that is there takes a step. -/
private theorem mem_of_runStep {isCron : Str → Bool} {reg reg' : JobRegistration} {i : RunId} {answer : Answer}
    (h : step isCron reg (.runStep i answer) = some reg') : i ∈ reg.runs.ids := by
  obtain ⟨run, -, hrun, -⟩ := runStep_next h
  obtain ⟨hmem, hid⟩ := Runs.get?_eq_some.1 hrun
  exact Runs.mem_ids.2 ⟨run, hmem, hid⟩

theorem Lifecycle.step {isCron : Str → Bool} {i : RunId} {history : List (Move JobRegistration JobAction)}
    {reg reg' : JobRegistration} {a : JobAction} (hl : Lifecycle i history reg) (hg : Undisturbed i reg a)
    (h : step isCron reg a = some reg') : Lifecycle i (history ++ [⟨reg, a, reg'⟩]) reg' := by
  have hquiet : (∀ answer, a ≠ .runStep i answer) → runLog i (history ++ [⟨reg, a, reg'⟩]) = runLog i history ∧
      stepsTaken i (history ++ [⟨reg, a, reg'⟩]) = stepsTaken i history :=
    quiet_of_ne (m := ⟨reg, a, reg'⟩)
  have habsent : i ∉ reg.runs.ids → ∀ answer, a ≠ .runStep i answer := by
    rintro hi answer rfl
    exact hi (mem_of_runStep h)
  have hhistory : ∀ o, (∀ m ∈ history, i ∈ m.pre.runs.ids → m.pre.options = o) → (i ∈ reg.runs.ids → reg.options = o) →
      ∀ m ∈ history ++ [⟨reg, a, reg'⟩], i ∈ m.pre.runs.ids → m.pre.options = o := by
    intro o hold hreg m hm
    rcases List.mem_append.1 hm with hm | hm
    · exact hold m hm
    · obtain rfl := List.mem_singleton.1 hm
      exact hreg
  cases hl with
  | before next idle log steps =>
    have hi : i ∉ reg.runs.ids := fun hi => Nat.not_lt_of_le next (Runs.lt_next hi)
    obtain ⟨hlog, hsteps⟩ := hquiet (habsent hi)
    by_cases hi' : i ∈ reg'.runs.ids
    · obtain ⟨run', hrun', hid⟩ := Runs.mem_ids.1 hi'
      have hkept := hhistory reg'.options (fun m hm hmem => absurd hmem (idle m hm)) fun hmem => absurd hmem hi
      rcases runs_step h hrun' with hold | ⟨-, hphase⟩
      · exact absurd (hid ▸ hold) hi
      · refine .during run' hrun' hid hkept ?_ ?_
        · rw [hlog, log]
          rcases hphase with hphase | hphase
          · rw [hphase]
            exact ⟨by simp, by simp, Rounds.none.le, [], .none, rfl⟩
          · rw [hphase]
            exact ⟨by simp, by simp, Rounds.none.le, [], .none, rfl⟩
        · rw [hsteps, steps, Nat.zero_add]
          rcases hphase with hphase | hphase
          · rw [hphase]
            exact le_rfl
          · rw [hphase]
            exact le_rfl
    · refine .before ?_ (fun m hm => ?_) (hlog.trans log) (hsteps.trans steps)
      · rcases next_step h with hnext | ⟨hnext, hmem⟩
        · rw [hnext]
          exact next
        · rw [hnext]
          exact Nat.lt_of_le_of_ne next fun heq => hi' (heq ▸ hmem)
      · rcases List.mem_append.1 hm with hm | hm
        · exact idle m hm
        · obtain rfl := List.mem_singleton.1 hm
          exact hi
  | during run mem id options log steps =>
    have hi : i ∈ reg.runs.ids := Runs.mem_ids.2 ⟨run, mem, id⟩
    have hoptions : reg'.options = reg.options := by
      refine options_step (fun changes hact => ?_) h
      subst hact
      exact hg hi
    have hkept := hhistory _ options fun _ => rfl
    by_cases hact : ∃ answer, a = .runStep i answer
    · obtain ⟨answer, rfl⟩ := hact
      obtain ⟨r, next, hget, hproceed, hnext⟩ := runStep_next h
      obtain ⟨hr, hrid⟩ := Runs.get?_eq_some.1 hget
      obtain rfl := Runs.eq_of_id_eq hr mem (hrid.trans id.symm)
      have hreached := proceed_reached log (hg rfl).1 ((hg rfl).2 r hget) hproceed
      have hlog : runLog i (history ++ [⟨reg, .runStep i answer, reg'⟩]) =
          runLog i history ++ (next.event r.cancellation).toList := by
        rw [runLog_append]
        simp [runEvent, hget, hproceed]
      have hsteps : stepsTaken i (history ++ [⟨reg, .runStep i answer, reg'⟩]) = stepsTaken i history + 1 := by
        rw [stepsTaken_append]
        simp [isStepOf]
      rw [← hlog] at hreached
      rcases hnext with ⟨phase, hphase, run', hrun', hid', rfl⟩ | ⟨rfl, hgone⟩
      · obtain ⟨hprogress, hleft⟩ : InProgress reg.options run'.phase
            (runLog i (history ++ [⟨reg, .runStep i answer, reg'⟩])) ∧
              stepsLeft reg.options run'.phase < stepsLeft reg.options r.phase := by
          rcases hphase with rfl | rfl
          · exact hreached
          · exact hreached
        refine .during run' hrun' hid' (hoptions ▸ hkept) (hoptions ▸ hprogress) ?_
        rw [hoptions, hsteps]
        omega
      · have hleft := stepsLeft_pos reg.options r.phase
        refine .after reg.options (Nat.lt_of_lt_of_le (Runs.lt_next hi) (next_le_step h)) hgone hkept hreached ?_
        rw [hsteps]
        omega
    · have hne : ∀ answer, a ≠ .runStep i answer := fun answer heq => hact ⟨answer, heq⟩
      obtain ⟨hlog, hsteps⟩ := hquiet hne
      rcases slot_kept h hi with hi' | ⟨_, answer, -, heq, -⟩
      · obtain ⟨run', hrun', hid'⟩ := Runs.mem_ids.1 hi'
        have hsame : ∀ r ∈ reg.runs.list, r.id = i → r = run := fun r hr hrid =>
          Runs.eq_of_id_eq hr mem (hrid.trans id.symm)
        have hphase : run'.phase = run.phase ∨ (run.phase = .admitted ∧ run'.phase = .launched) := by
          cases runEffect h run' hrun' with
          | fresh hfresh cancellation phase =>
            exact absurd (hid'.symm.trans hfresh) (Nat.ne_of_lt (Runs.lt_next hi))
          | same hmem => exact .inl (by rw [hsame run' hmem hid'])
          | set r hr cancelled eq =>
            subst eq
            exact .inl (by rw [← hsame r hr hid'])
          | announced r hr answer act admitted eq =>
            subst eq act
            obtain rfl := hsame r hr hid'
            obtain rfl : answer = .ok := hg hid'
            exact .inr ⟨admitted, rfl⟩
          | moved r hr answer act phase next eq =>
            subst eq act
            exact absurd (congrArg (JobAction.runStep · answer) hid') (hne answer)
          | timedOut r hr answer act phase next eq =>
            subst eq act
            exact absurd (congrArg (JobAction.runStep · answer) hid') (hne answer)
        refine .during run' hrun' hid' (hoptions ▸ hkept) ?_ ?_
        · rw [hoptions, hlog]
          rcases hphase with hphase | ⟨hold, hnew⟩
          · rw [hphase]
            exact log
          · rw [hold] at log
            rw [hnew]
            exact ⟨by simp, by simp, log.2.2⟩
        · rw [hoptions, hsteps]
          rcases hphase with hphase | ⟨hold, hnew⟩
          · rw [hphase]
            exact steps
          · rw [hold] at steps
            rw [hnew]
            exact steps
      · exact absurd heq (hne answer)
  | after o next gone options log steps =>
    obtain ⟨hlog, hsteps⟩ := hquiet (habsent gone)
    exact .after o (Nat.lt_of_lt_of_le next (next_le_step h)) (gone_step h next gone)
      (hhistory o options fun hmem => absurd hmem gone) (by rw [hlog]; exact log) (by rw [hsteps]; exact steps)

/-! ### The slot -/

/-- Run `i` holds a slot in every state between two things it does. -/
def HoldsSlot (i : RunId) (history : List (Move JobRegistration JobAction)) : Prop :=
  ∀ h₁ m h₂, history = h₁ ++ m :: h₂ → runLog i h₁ ≠ [] → runLog i (m :: h₂) ≠ [] → i ∈ m.pre.runs.ids

/-- Once run `i` has done something, it is one of the runs, or it has ended and does nothing any more. -/
structure SlotKept (i : RunId) (history : List (Move JobRegistration JobAction)) (reg : JobRegistration) : Prop where
  begun : runLog i history ≠ [] → i < reg.runs.next
  split : ∀ h₁ m h₂, history = h₁ ++ m :: h₂ → runLog i h₁ ≠ [] →
    i ∈ m.pre.runs.ids ∨ (i ∉ reg.runs.ids ∧ runLog i (m :: h₂) = [])

theorem SlotKept.step {isCron : Str → Bool} {i : RunId} {history : List (Move JobRegistration JobAction)}
    {reg reg' : JobRegistration} {a : JobAction} (hk : SlotKept i history reg) (h : step isCron reg a = some reg') :
    SlotKept i (history ++ [⟨reg, a, reg'⟩]) reg' := by
  have hdoes : i ∉ reg.runs.ids → runEvent i ⟨reg, a, reg'⟩ = none :=
    runEvent_of_notMem (m := ⟨reg, a, reg'⟩)
  constructor
  · intro hne
    refine Nat.lt_of_lt_of_le ?_ (next_le_step h)
    by_cases hlog : runLog i history = []
    · by_contra hlt
      rw [runLog_append, hlog, hdoes fun hi => hlt (Runs.lt_next hi)] at hne
      exact hne rfl
    · exact hk.begun hlog
  · intro h₁ m h₂ heq hne
    rcases List.eq_nil_or_concat h₂ with rfl | ⟨l, last, rfl⟩
    · obtain ⟨rfl, hlast⟩ := List.append_inj' heq rfl
      obtain rfl := (List.cons.inj hlast).1
      by_cases hi : i ∈ reg.runs.ids
      · exact .inl hi
      · refine .inr ⟨gone_step h (hk.begun hne) hi, ?_⟩
        simp [runLog, hdoes hi]
    · have heq' : history ++ [⟨reg, a, reg'⟩] = (h₁ ++ m :: l) ++ [last] := by simpa using heq
      obtain ⟨rfl, hlast⟩ := List.append_inj' heq' rfl
      obtain rfl := (List.cons.inj hlast).1
      rcases hk.split h₁ m l rfl hne with hmem | ⟨hgone, hlog⟩
      · exact .inl hmem
      · have hbegun : i < reg.runs.next := by
          refine hk.begun fun hnil => hne ?_
          rw [runLog, List.filterMap_append] at hnil
          exact (List.append_eq_nil_iff.1 hnil).1
        refine .inr ⟨gone_step h hbegun hgone, ?_⟩
        have happend := runLog_append i (m :: l) ⟨reg, a, reg'⟩
        rw [hlog, hdoes hgone] at happend
        simpa using happend

/-- What run `i` of a job saves and publishes while it is undisturbed: it has not begun, or it has done what its phase
says, or it has ended and done all a run does.  It holds a slot between any two of these events. -/
theorem run_lifecycle {ι : Type} [DecidableEq ι] (isCron : Str → Bool) (options : ι → CliJobOptions) (id : ι)
    (i : RunId)
    {ms : List (Move (ι → JobRegistration) (ι × JobAction))} {jobs : ι → JobRegistration}
    (h : GuardedRun (Component.stepAt fun _ => step isCron) (fun f a => a.1 = id → Undisturbed i (f a.1) a.2)
      (fun id => .register (options id)) ms jobs) :
    Lifecycle i (Component.movesAt id ms) (jobs id) ∧ HoldsSlot i (Component.movesAt id ms) := by
  have hrun := (Component.project (G := fun j reg a => j = id → Undisturbed i reg a) h id)
  have hlife : Lifecycle i (Component.movesAt id ms) (jobs id) := by
    refine hrun.history (.before (Nat.zero_le i) (by simp) rfl rfl) ?_
    exact fun _ _ _ _ hl hg hst => hl.step (hg rfl) hst
  have hkept : SlotKept i (Component.movesAt id ms) (jobs id) := by
    refine hrun.history ⟨fun hne => absurd rfl hne, fun h₁ m h₂ heq => ?_⟩ fun _ _ _ _ hk _ hst => hk.step hst
    exact absurd heq (by simp)
  refine ⟨hlife, fun h₁ m h₂ heq hbefore hafter => ?_⟩
  rcases hkept.split h₁ m h₂ heq hbefore with hmem | ⟨-, hnone⟩
  · exact hmem
  · exact absurd hnone hafter

/-- A run whose first attempt fails and whose second attempt completes. -/
def retriedRun : List JobAction :=
  [.trigger, .triggered 0 .ok, .runStep 0 .ok, .runStep 0 .ok, .runStep 0 .ok, .runStep 0 .error, .runStep 0 .ok,
    .runStep 0 .ok, .runStep 0 .ok, .runStep 0 .ok, .runStep 0 .timeout, .runStep 0 .ok, .runStep 0 .ok, .runStep 0 .ok,
    .runStep 0 .ok, .runStep 0 .ok, .runStep 0 .ok]

theorem run_lifecycle_retried : ∃ ms jobs,
    GuardedRun (Component.stepAt fun _ : Unit => step fun _ => false) (fun f a => a.1 = () → Undisturbed 0 (f a.1) a.2)
      (fun _ => .register {}) ms jobs ∧
    (jobs ()).taken = 0 ∧ Lifecycle 0 (Component.movesAt () ms) (jobs ()) ∧ HoldsSlot 0 (Component.movesAt () ms) := by
  have hexec : (exec (Component.stepAt fun _ : Unit => step fun _ => false) (fun _ => .register {})
      (retriedRun.map fun a => ((), a))).any (fun r =>
        decide ((∀ m ∈ r.1, Undisturbed 0 (m.pre m.act.1) m.act.2) ∧ (r.2 ()).taken = 0)) = true := by decide +kernel
  obtain ⟨⟨ms, jobs⟩, hexec, hboth⟩ := (Option.any_eq_true _ _).1 hexec
  obtain ⟨hcalm, hend⟩ := of_decide_eq_true hboth
  have hrun := (run_of_exec hexec).restrict (H := fun f a => a.1 = () →
    Undisturbed 0 (f a.1) a.2) fun m hm _ => hcalm m hm
  exact ⟨ms, jobs, hrun, hend, run_lifecycle _ _ () 0 hrun⟩

/-- The number of executions run `i` has saved. -/
def attemptsMade (i : RunId) (history : List (Move JobRegistration JobAction)) : Nat :=
  (runLog i history).countP fun e => e matches .saved _

/-- A job with a negative number of retries still makes an attempt. -/
theorem attempt_without_retries : ∃ ms reg,
    GuardedRun (step fun _ => false) (Undisturbed 0) (.register { maxRetries := -1 }) ms reg ∧
    reg.options.maxRetries + 1 < (attemptsMade 0 ms : Int) := by
  have hexec : (exec (step fun _ => false) (.register { maxRetries := -1 })
      [.trigger, .triggered 0 .ok, .runStep 0 .ok, .runStep 0 .ok]).any (fun r =>
        decide ((∀ m ∈ r.1, Undisturbed 0 m.pre m.act) ∧
          r.2.options.maxRetries + 1 < (attemptsMade 0 r.1 : Int))) = true := by decide +kernel
  obtain ⟨⟨ms, reg⟩, hexec, hboth⟩ := (Option.any_eq_true _ _).1 hexec
  obtain ⟨hcalm, hlog⟩ := of_decide_eq_true hboth
  exact ⟨ms, reg, (run_of_exec hexec).restrict hcalm, hlog⟩

end CliServer
