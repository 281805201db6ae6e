import CliServer.Jobs.Options
import CliServer.Jobs.Runs

/-!
# The job scheduler

One registered job: its options, its runs and the run that waits for a slot.  Everything on the event loop between two
awaits is one step, so `step` is the interleaving of the scheduler's operations with the tasks of the job's runs; a
run's `phase` says which await its task is at.  What an awaited call of the storage, of the event bus or of the job
itself does is its `Answer`, and `step` takes every answer.  The timer is not part of the state: it may fire whenever
the job is active.
-/

namespace CliServer

/-- The statuses of a job. -/
inductive JobStatus where
  | active | paused | stopped
  deriving DecidableEq, Repr

/-- The state of a registered job. -/
structure JobRegistration where
  options : CliJobOptions
  status : JobStatus
  runs : Runs
  queued : Bool

/-- How an awaited call ends: it returns, or raises an `Exception`, `TimeoutError` or `CancelledError`; `escaped`: the
job raises another `BaseException`, or an `Exception` whose `str()` raises. -/
inductive Answer where
  | ok | error | timeout | cancelled | escaped
  deriving DecidableEq, Repr

/-- What `_admit` decides; `skipped` is refused when the run was triggered by hand. -/
inductive Admission where
  | slot (run : RunId)
  | queued
  | skipped

namespace JobRegistration

/-- A job as `register` leaves it. -/
def register (options : CliJobOptions) : JobRegistration where
  options := options
  status := if options.enabled then .active else .stopped
  runs := .empty
  queued := false

/-- `max_concurrent_runs`. -/
abbrev limit (reg : JobRegistration) : Nat := reg.options.maxConcurrentRuns

/-- The number of slots taken. -/
abbrev taken (reg : JobRegistration) : Nat := reg.runs.list.length

/-- `_launch`. -/
def launch (reg : JobRegistration) (run : RunId) : JobRegistration :=
  { reg with runs := reg.runs.setPhase run .launched }

/-- `_take_slot`: the new run is `reg.runs.next`. -/
def takeSlot (reg : JobRegistration) : JobRegistration :=
  { reg with runs := reg.runs.add }

/-- `_admit`. -/
def admitRun (reg : JobRegistration) : JobRegistration × Admission :=
  if reg.taken < reg.limit then (reg.takeSlot, .slot reg.runs.next)
  else if reg.options.overlapPolicy = "queue".toList then ({ reg with queued := true }, .queued)
  else if reg.options.overlapPolicy = "cancel".toList then
    if reg.queued then (reg, .queued)
    else ({ reg with runs := reg.runs.cancel (reg.runs.oldest? = some ·), queued := true }, .queued)
  else (reg, .skipped)

/-- `_launch(reg, _admit(reg))`, for a run that is due. -/
def launchDue (reg : JobRegistration) : JobRegistration :=
  match reg.admitRun with
  | (reg', .slot run) => reg'.launch run
  | (reg', .queued) => reg'
  | (reg', .skipped) => reg'

/-- `_start_queued`. -/
def startQueued (reg : JobRegistration) : JobRegistration :=
  if reg.queued ∧ reg.taken < reg.limit then
    { reg with queued := false }.takeSlot.launch reg.runs.next
  else reg

/-- `_release`. -/
def release (reg : JobRegistration) (run : RunId) : JobRegistration :=
  { reg with runs := reg.runs.remove run }.startQueued

/-- `_cancel_runs`. -/
def cancelRuns (reg : JobRegistration) : JobRegistration :=
  { reg with queued := false, runs := reg.runs.cancel fun _ => true }

/-- `start` restores the saved status of a job that is enabled. -/
def restore (reg : JobRegistration) (saved : Option JobStatus) : JobRegistration :=
  match saved with
  | some status => if reg.options.enabled then { reg with status := status } else reg
  | none => reg

/-- Whether `start` runs the job itself: the timer runs an interval job.  `due` is `_due_on_start` (with a schedule
`_schedule_next` accepts). -/
def runsOnStart (reg : JobRegistration) (due : Bool) : Bool :=
  reg.status = .active ∧ ¬ (isGiven reg.options.interval ∧ ¬ isGiven reg.options.schedule) ∧
    reg.options.runOnStart ∧ due

/-- `start`, for one job. -/
def start (reg : JobRegistration) (saved : Option JobStatus) (due : Bool) : JobRegistration :=
  if (reg.restore saved).runsOnStart due then (reg.restore saved).launchDue else reg.restore saved

/-- `_timer_fire` after its sleep; `running` is the scheduler's `_running`. -/
def timerFire (reg : JobRegistration) (running : Bool) : JobRegistration :=
  if running ∧ reg.status = .active then reg.launchDue else reg

/-- `trigger` up to its `job:triggered` event; `none`: it raises `InvalidOperationError`. -/
def trigger (reg : JobRegistration) : Option JobRegistration :=
  match reg.admitRun with
  | (reg', .slot _) => some reg'
  | (reg', .queued) => some reg'
  | (_, .skipped) => none

/-- `trigger` after the event: `_broadcast` catches every `Exception`, and only then is the run launched. -/
def triggered (reg : JobRegistration) (i : RunId) (answer : Answer) : Option JobRegistration := do
  let run ← reg.runs.get? i
  if run.phase = .admitted then
    match answer with
    | .cancelled => some { reg with runs := reg.runs.setPhase i .abandoned }
    | .escaped => none
    | _ => some (reg.launch i)
  else none

/-- `pause`. -/
def pause (reg : JobRegistration) : Option JobRegistration :=
  if reg.status = .paused then none else some { reg with status := .paused }

/-- `resume`. -/
def resume (reg : JobRegistration) : Option JobRegistration :=
  if reg.status = .paused then some { reg with status := .active } else none

/-- `stop_job`. -/
def stopJob (reg : JobRegistration) : JobRegistration :=
  { reg with status := .stopped }.cancelRuns

/-- `cancel_current`. -/
def cancelCurrent (reg : JobRegistration) : Option JobRegistration :=
  if reg.runs.list = [] ∧ ¬ reg.queued then none else some reg.cancelRuns

/-- `update_options`; it raises before it changes anything (`none`) only for a bad `max_concurrent_runs`. -/
def updateOptions (isCron : Str → Bool) (reg : JobRegistration) (changes : OptionChanges) : Option JobRegistration :=
  match changes.maxConcurrentRuns with
  | none => some { reg with options := (runWrites (optionWrites isCron changes) reg.options).1 }
  | some value =>
    match validateMaxConcurrentRuns value with
    | none => none
    | some limit =>
      match runWrites (optionWrites isCron changes) reg.options with
      | (options, some _) => some { reg with options := options }
      | (options, none) =>
        some { reg with options := { options with
          maxConcurrentRuns := limit, maxConcurrentRuns_pos := limit.property } }.startQueued

end JobRegistration

/-- What the task of a run does next. -/
inductive Next where
  | goto (phase : Phase)
  /-- Sets the run's own cancellation event first. -/
  | cancelGoto (phase : Phase)
  /-- `_run` returns or raises; its `finally` releases the slot. -/
  | ended

/-- The start of the `try` of `_execute_attempt` up to the call of the job: a bad `timeout` fails the attempt. -/
def callJob (o : CliJobOptions) (attempt : Nat) : Phase :=
  match (o.timeout.filter (· ≠ [])).map parseInterval with
  | some (.error _) => .reporting attempt .failed false
  | _ => .executing attempt

/-- `_run` after an attempt: its end, or the `job:retrying` event (whose `delayMs` must be finite). -/
def afterAttempt (o : CliJobOptions) (cancelled : Bool) (attempt : Nat) (status : ExecutionStatus) : Next :=
  if status ≠ .failed ∨ o.maxRetries ≤ attempt ∨ cancelled then .ended
  else match retryDelay o attempt with
    | none => .ended
    | some delay => if floatOverflow ≤ delay * 1000 then .ended else .goto (.retrying attempt delay)

/-- `_run` and `_execute_attempt` from one await to the next: what the task does when the call it awaits answers.
`none`: the call cannot answer so (or there is no task). -/
def proceed (o : CliJobOptions) (cancelled : Bool) : Phase → Answer → Option Next
  | .admitted, _ => none
  | .abandoned, _ => none
  -- No handler of `_execute_attempt` catches it, or the handler of `Exception` raises in `str(exc)`.
  | .executing _, .escaped => some .ended
  | _, .escaped => none
  | .launched, .ok => some (.goto (.saving 0))
  | .launched, _ => none
  | .saving k, .ok => some (.goto (.starting k))
  | .saving _, _ => some .ended
  | .starting _, .cancelled => some .ended
  | .starting k, _ => some (.goto (callJob o k))
  | .executing k, .ok => some (.goto (if cancelled then .reporting k .cancelled true else .finishing k .completed))
  | .executing k, .timeout =>
    some (if cancelled then .goto (.reporting k .cancelled false) else .cancelGoto (.reporting k .timedOut false))
  | .executing k, .cancelled => some (.goto (.reporting k .cancelled false))
  | .executing k, .error => some (.goto (.reporting k .failed false))
  -- A CancelledError of the event inside the `try` is handled as one of the job.
  | .reporting k _ caught, .cancelled => some (if caught then .goto (.reporting k .cancelled false) else .ended)
  | .reporting k status _, _ => some (.goto (.finishing k status))
  | .finishing k status, .ok => some (.goto (.persisting k status))
  | .finishing _ _, _ => some .ended
  | .persisting _ _, .cancelled => some .ended
  | .persisting k status, _ =>
    some (if status = .completed then .goto (.completing k) else afterAttempt o cancelled k status)
  | .completing _, .cancelled => some .ended
  | .completing k, _ => some (afterAttempt o cancelled k .completed)
  | .retrying _ _, .cancelled => some .ended
  -- A positive wait on an event that is set returns at once.
  | .retrying k delay, _ => some (if cancelled ∧ 0 < delay then .ended else .goto (.waiting k delay))
  | .waiting _ delay, .ok => if cancelled ∧ 0 < delay then some .ended else none
  | .waiting k _, .timeout => some (.goto (.saving (k + 1)))
  | .waiting _ _, _ => none

/-- One resumption of the task of run `i`. -/
def runStep (reg : JobRegistration) (i : RunId) (answer : Answer) : Option JobRegistration := do
  let run ← reg.runs.get? i
  let next ← proceed reg.options run.cancellation run.phase answer
  match next with
  | .goto phase => some { reg with runs := reg.runs.setPhase i phase }
  | .cancelGoto phase => some { reg with runs := (reg.runs.cancel (· = i)).setPhase i phase }
  | .ended => some (reg.release i)

/-- The operations on a job, and the steps of its trigger calls, timers and runs. -/
inductive JobAction where
  | start (saved : Option JobStatus) (due : Bool)
  | timerFire (running : Bool)
  | trigger
  | triggered (run : RunId) (answer : Answer)
  | pause
  | resume
  | stopJob
  | stop
  | cancelCurrent
  | updateOptions (changes : OptionChanges)
  | runStep (run : RunId) (answer : Answer)
  deriving DecidableEq

/-- One step of a job; `none`: the operation is refused, or the step is not possible. -/
def step (isCron : Str → Bool) (reg : JobRegistration) : JobAction → Option JobRegistration
  | .start saved due => some (reg.start saved due)
  | .timerFire running => some (reg.timerFire running)
  | .trigger => reg.trigger
  | .triggered i answer => reg.triggered i answer
  | .pause => reg.pause
  | .resume => reg.resume
  | .stopJob => some reg.stopJob
  | .stop => some reg.cancelRuns
  | .cancelCurrent => reg.cancelCurrent
  | .updateOptions changes => reg.updateOptions isCron changes
  | .runStep i answer => runStep reg i answer

theorem afterAttempt_cases (o : CliJobOptions) (c : Bool) (k : Nat) (status : ExecutionStatus) :
    afterAttempt o c k status = .ended ∨ ∃ delay, afterAttempt o c k status = .goto (.retrying k delay) := by
  unfold afterAttempt
  split
  · exact .inl rfl
  · split
    · exact .inl rfl
    · split
      · exact .inl rfl
      · exact .inr ⟨_, rfl⟩

/-- A run sets its own event only when its attempt times out. -/
theorem proceed_cancelGoto {o : CliJobOptions} {c : Bool} {p p' : Phase} {answer : Answer}
    (h : proceed o c p answer = some (.cancelGoto p')) : ∃ k, p = .executing k ∧ p' = .reporting k .timedOut false := by
  have hafter : ∀ {k : Nat} {status : ExecutionStatus}, afterAttempt o c k status ≠ .cancelGoto p' := by
    intro k status hn
    rcases afterAttempt_cases o c k status with h | ⟨d, h⟩ <;> rw [h] at hn <;> cases hn
  cases p with
  | executing k =>
    cases answer with
    | timeout => cases c <;> cases h; exact ⟨k, rfl, rfl⟩
    | _ => cases h
  | reporting k status caught => cases answer <;> cases caught <;> cases h
  | persisting k status =>
    have hstatus : (if status = .completed then Next.goto (.completing k) else afterAttempt o c k status) ≠
        .cancelGoto p' := by
      split
      · exact fun h => by cases h
      · exact hafter
    cases answer with
    | cancelled => cases h
    | escaped => cases h
    | _ => exact absurd (Option.some.inj h) hstatus
  | completing k =>
    cases answer with
    | cancelled => cases h
    | escaped => cases h
    | _ => exact absurd (Option.some.inj h) hafter
  | retrying k delay =>
    cases answer with
    | cancelled => cases h
    | escaped => cases h
    | _ =>
      have hn := Option.some.inj h
      split at hn <;> cases hn
  | waiting k delay =>
    cases answer with
    | ok =>
      simp only [proceed] at h
      split at h <;> cases h
    | _ => cases h
  | _ => cases answer <;> cases h

/-! ### What a step does to a run -/

/-- Whether an action gets to `_admit`. -/
def JobRegistration.admits (reg : JobRegistration) : JobAction → Bool
  | .start saved due => (reg.restore saved).runsOnStart due
  | .timerFire running => running ∧ reg.status = .active
  | .trigger => true
  | _ => false

/-- The runs whose event an action sets. -/
def JobRegistration.cancelledBy (reg : JobRegistration) (a : JobAction) : List JobRun :=
  match a with
  | .stopJob | .stop | .cancelCurrent => reg.runs.list
  | a =>
    if reg.admits a ∧ reg.limit ≤ reg.taken ∧ reg.options.overlapPolicy = "cancel".toList ∧ reg.queued = false then
      reg.runs.list.take 1
    else []

/-- Where a run that is there after a step comes from. -/
inductive RunEffect (reg : JobRegistration) (a : JobAction) (run' : JobRun) : Prop
  | fresh (id : run'.id = reg.runs.next) (cancellation : run'.cancellation = false)
      (phase : run'.phase = .admitted ∨ run'.phase = .launched)
  | same (mem : run' ∈ reg.runs.list)
  | set (run : JobRun) (mem : run ∈ reg.runs.list) (cancelled : run ∈ reg.cancelledBy a)
      (eq : run' = { run with cancellation := true })
  | announced (run : JobRun) (mem : run ∈ reg.runs.list) (answer : Answer) (act : a = .triggered run.id answer)
      (admitted : run.phase = .admitted)
      (eq : run' = { run with phase := if answer = .cancelled then .abandoned else .launched })
  | moved (run : JobRun) (mem : run ∈ reg.runs.list) (answer : Answer) (act : a = .runStep run.id answer)
      (phase : Phase) (next : proceed reg.options run.cancellation run.phase answer = some (.goto phase))
      (eq : run' = { run with phase := phase })
  | timedOut (run : JobRun) (mem : run ∈ reg.runs.list) (answer : Answer) (act : a = .runStep run.id answer)
      (phase : Phase) (next : proceed reg.options run.cancellation run.phase answer = some (.cancelGoto phase))
      (eq : run' = { run with cancellation := true, phase := phase })

private theorem mem_launch_add {rs : Runs} {run' : JobRun} (h : run' ∈ (rs.add.setPhase rs.next .launched).list) :
    run' ∈ rs.list ∨ run' = ⟨rs.next, false, .launched⟩ := by
  obtain ⟨r, hr, rfl⟩ := Runs.mem_setPhase.1 h
  rcases Runs.mem_add.1 hr with hr | rfl
  · left
    rw [if_neg (Nat.ne_of_lt (rs.fresh r hr))]
    exact hr
  · exact .inr (if_pos rfl)

private theorem runEffect_startQueued {reg mid : JobRegistration} {a : JobAction}
    (hnext : mid.runs.next = reg.runs.next) (hmem : ∀ run ∈ mid.runs.list, run ∈ reg.runs.list) :
    ∀ run' ∈ mid.startQueued.runs.list, RunEffect reg a run' := by
  intro run' h
  unfold JobRegistration.startQueued at h
  split at h
  · rcases mem_launch_add h with h | rfl
    · exact .same (hmem run' h)
    · exact .fresh hnext rfl (.inr rfl)
  · exact .same (hmem run' h)

private theorem oldest_mem {rs : Runs} {run : JobRun} (hmem : run ∈ rs.list) (h : rs.oldest? = some run.id) :
    run ∈ rs.list.take 1 := by
  obtain ⟨r, hr, hid⟩ := Option.map_eq_some_iff.1 h
  obtain ⟨l, hl⟩ := List.head?_eq_some_iff.1 hr
  have hrun : r = run := Runs.eq_of_id_eq (List.mem_of_mem_head? hr) hmem hid
  rw [hl, hrun]
  simp

private theorem cancelledBy_of_admits {reg : JobRegistration} {a : JobAction} (h : reg.admits a = true)
    (hfull : ¬ reg.taken < reg.limit) (hpolicy : reg.options.overlapPolicy = "cancel".toList) (hq : reg.queued = false) :
    reg.cancelledBy a = reg.runs.list.take 1 := by
  have hif : (if reg.admits a ∧ reg.limit ≤ reg.taken ∧ reg.options.overlapPolicy = "cancel".toList ∧ reg.queued = false then
      reg.runs.list.take 1 else []) = reg.runs.list.take 1 :=
    if_pos ⟨h, Nat.le_of_not_lt hfull, hpolicy, hq⟩
  cases a <;> first | exact hif | cases h

/-- `_admit`, seen from the runs; `reg₀` is the state before the action, which differs in the status only. -/
private theorem runEffect_admitRun (reg₀ reg : JobRegistration) {a : JobAction} (h : reg₀.admits a = true)
    (hruns : reg.runs = reg₀.runs) (hopt : reg.options = reg₀.options) (hqueued : reg.queued = reg₀.queued) :
    (∀ run' ∈ reg.admitRun.1.runs.list, RunEffect reg₀ a run') ∧
    ∀ run' ∈ reg.launchDue.runs.list, RunEffect reg₀ a run' := by
  have same : ∀ run' ∈ reg.runs.list, RunEffect reg₀ a run' := fun run' h => .same (hruns ▸ h)
  unfold JobRegistration.launchDue JobRegistration.admitRun
  by_cases hfree : reg.taken < reg.limit
  · simp only [if_pos hfree]
    constructor
    · intro run' h
      rcases Runs.mem_add.1 h with h | rfl
      · exact same run' h
      · exact .fresh (congrArg Runs.next hruns) rfl (.inl rfl)
    · intro run' h
      rcases mem_launch_add h with h | rfl
      · exact same run' h
      · exact .fresh (congrArg Runs.next hruns) rfl (.inr rfl)
  · simp only [if_neg hfree]
    by_cases hqueue : reg.options.overlapPolicy = "queue".toList
    · simp only [if_pos hqueue]
      exact ⟨same, same⟩
    simp only [if_neg hqueue]
    by_cases hpolicy : reg.options.overlapPolicy = "cancel".toList
    · simp only [if_pos hpolicy]
      cases hq : reg.queued with
      | true => exact ⟨same, same⟩
      | false =>
        have hcancelled : reg₀.cancelledBy a = reg₀.runs.list.take 1 := by
          refine cancelledBy_of_admits h ?_ (hopt ▸ hpolicy) (hqueued ▸ hq)
          rw [JobRegistration.taken, JobRegistration.limit, ← hruns, ← hopt]
          exact hfree
        have hset : ∀ run' ∈ (reg.runs.cancel (reg.runs.oldest? = some ·)).list, RunEffect reg₀ a run' := by
          intro run' h'
          obtain ⟨r, hr, rfl⟩ := Runs.mem_cancel.1 h'
          rw [hruns] at hr
          split
          · rename_i hold
            refine .set r hr ?_ rfl
            rw [hcancelled]
            exact oldest_mem hr (by simpa [hruns] using hold)
          · exact .same hr
        exact ⟨hset, hset⟩
    · simp only [if_neg hpolicy]
      exact ⟨same, same⟩

private theorem runEffect_cancelRuns (reg : JobRegistration) {a : JobAction} (h : reg.cancelledBy a = reg.runs.list) :
    ∀ run' ∈ (reg.runs.cancel fun _ => true).list, RunEffect reg a run' := by
  intro run' h'
  obtain ⟨r, hr, rfl⟩ := Runs.mem_cancel.1 h'
  exact .set r hr (h ▸ hr) rfl

private theorem runEffect_triggered {reg reg' : JobRegistration} {i : RunId} {answer : Answer}
    (h : reg.triggered i answer = some reg') :
    ∀ run' ∈ reg'.runs.list, RunEffect reg (.triggered i answer) run' := by
  obtain ⟨run, hrun, h⟩ := Option.bind_eq_some_iff.1 h
  obtain ⟨hmem, rfl⟩ := Runs.get?_eq_some.1 hrun
  split at h
  · rename_i hadmted
    have hphase : reg' = { reg with
        runs := reg.runs.setPhase run.id (if answer = .cancelled then .abandoned else .launched) } := by
      cases answer <;> first | exact (Option.some.inj h).symm | cases h
    subst hphase
    intro run' h'
    obtain ⟨r, hr, rfl⟩ := Runs.mem_setPhase.1 h'
    split
    · rename_i hid
      obtain rfl := Runs.eq_of_id_eq hr hmem hid
      exact .announced r hr answer rfl hadmted rfl
    · exact .same hr
  · cases h

private theorem runEffect_runStep {reg reg' : JobRegistration} {i : RunId} {answer : Answer}
    (h : runStep reg i answer = some reg') : ∀ run' ∈ reg'.runs.list, RunEffect reg (.runStep i answer) run' := by
  obtain ⟨run, hrun, h⟩ := Option.bind_eq_some_iff.1 h
  obtain ⟨hmem, rfl⟩ := Runs.get?_eq_some.1 hrun
  obtain ⟨next, hnext, h⟩ := Option.bind_eq_some_iff.1 h
  cases next with
  | goto phase =>
    obtain rfl := Option.some.inj h
    intro run' h'
    obtain ⟨r, hr, rfl⟩ := Runs.mem_setPhase.1 h'
    split
    · rename_i hid
      obtain rfl := Runs.eq_of_id_eq hr hmem hid
      exact .moved r hr answer rfl phase hnext rfl
    · exact .same hr
  | cancelGoto phase =>
    obtain rfl := Option.some.inj h
    intro run' h'
    obtain ⟨r', hr', rfl⟩ := Runs.mem_setPhase.1 h'
    obtain ⟨r, hr, rfl⟩ := Runs.mem_cancel.1 hr'
    by_cases hid : r.id = run.id
    · obtain rfl := Runs.eq_of_id_eq hr hmem hid
      refine .timedOut r hr answer rfl phase hnext ?_
      simp
    · refine .same ?_
      simp only [hid, decide_false, Bool.false_eq_true, if_false]
      exact hr
  | ended =>
    obtain rfl := Option.some.inj h
    exact runEffect_startQueued rfl fun run' h' => (Runs.mem_remove.1 h').1

/-- Every step, seen from the runs that are there after it. -/
theorem runEffect {isCron : Str → Bool} {reg reg' : JobRegistration} {a : JobAction}
    (h : step isCron reg a = some reg') : ∀ run' ∈ reg'.runs.list, RunEffect reg a run' := by
  cases a with
  | start saved due =>
    obtain rfl := Option.some.inj h
    have hrestore : (reg.restore saved).runs = reg.runs ∧ (reg.restore saved).options = reg.options ∧
        (reg.restore saved).queued = reg.queued := by
      unfold JobRegistration.restore
      split
      · split <;> exact ⟨rfl, rfl, rfl⟩
      · exact ⟨rfl, rfl, rfl⟩
    obtain ⟨hruns, hopt, hq⟩ := hrestore
    unfold JobRegistration.start
    split
    · rename_i hdue
      exact (runEffect_admitRun reg _ (a := .start saved due) hdue hruns hopt hq).2
    · exact fun run' h' => .same (hruns ▸ h')
  | timerFire running =>
    obtain rfl := Option.some.inj h
    unfold JobRegistration.timerFire
    split
    · rename_i hdue
      exact (runEffect_admitRun reg reg (a := .timerFire running) (by simpa [JobRegistration.admits] using hdue) rfl rfl rfl).2
    · exact fun run' h' => .same h'
  | trigger =>
    have hadm := (runEffect_admitRun reg reg (a := .trigger) rfl rfl rfl rfl).1
    simp only [step, JobRegistration.trigger] at h
    split at h
    · rename_i hr
      obtain rfl := Option.some.inj h
      rw [hr] at hadm
      exact hadm
    · rename_i hr
      obtain rfl := Option.some.inj h
      rw [hr] at hadm
      exact hadm
    · cases h
  | triggered i answer => exact runEffect_triggered h
  | pause =>
    obtain ⟨-, rfl⟩ : ¬ reg.status = .paused ∧ { reg with status := .paused } = reg' := by
      simpa [step, JobRegistration.pause] using h
    exact fun run' h' => .same h'
  | resume =>
    obtain ⟨-, rfl⟩ : reg.status = .paused ∧ { reg with status := .active } = reg' := by
      simpa [step, JobRegistration.resume] using h
    exact fun run' h' => .same h'
  | stopJob =>
    obtain rfl := Option.some.inj h
    exact runEffect_cancelRuns reg rfl
  | stop =>
    obtain rfl := Option.some.inj h
    exact runEffect_cancelRuns reg rfl
  | cancelCurrent =>
    simp only [step, JobRegistration.cancelCurrent] at h
    split at h
    · cases h
    · obtain rfl := Option.some.inj h
      exact runEffect_cancelRuns reg rfl
  | updateOptions changes =>
    simp only [step, JobRegistration.updateOptions] at h
    split at h
    · obtain rfl := Option.some.inj h
      exact fun run' h' => .same h'
    · split at h
      · cases h
      · split at h
        · obtain rfl := Option.some.inj h
          exact fun run' h' => .same h'
        · obtain rfl := Option.some.inj h
          exact runEffect_startQueued rfl fun run' h' => h'
  | runStep i answer => exact runEffect_runStep h

end CliServer
