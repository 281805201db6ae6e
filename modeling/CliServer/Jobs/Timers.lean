import CliServer.Jobs.Lifecycle
import CliServer.Jobs.Registration

/-!
# Timers

The part of the scheduler that `Scheduler` leaves open: when a job runs.  `start`, `resume`, `update_options` and a
timer that fires compute the next run and create the timer task that waits for it; `pause`, `stop_job` and
`update_options` cancel it.  `timerStep` interleaves these with the runs of the jobs.  The computation of the next run
may raise, `start` suspends on the storage between taking up its work and going through the registrations, and
`update_options` raises for a later option after it has written the schedule.

Times are microseconds since the first of January of the year 1 (UTC).
-/

namespace CliServer

open Transition

/-- What the scheduler uses of `croniter`. -/
structure Cron where
  isValid : Str → Bool
  /-- `_next_occurrence`: the first occurrence after a time; `none`: it raises. -/
  next : Str → Nat → Option Nat

/-- A `timedelta` is less than this many seconds long. -/
def timedeltaLimit : Nat := 86400 * 10 ^ 9

/-- `datetime.max`. -/
def maxDatetime : Nat := 315537897600 * 10 ^ 6 - 1

/-- A pending timer task: `_timer_fire` in its sleep of `delay`. -/
structure Timer where
  id : Nat
  delay : Nat
  deriving DecidableEq, Repr

/-- A registered job with what its schedule needs. -/
structure TimedJob where
  reg : JobRegistration
  lastRunAt : Option Nat
  nextRunAt : Option Nat
  /-- `timer_task`: the timer created last, pending or done. -/
  timerTask : Option Nat
  /-- The pending timer tasks of the job, also those `timer_task` no longer holds. -/
  timers : List Timer
  nextTimer : Nat
  /-- Whether a call of `start` has come to the job. -/
  processed : Bool

/-- A job's state in the storage. -/
structure JobState where
  status : JobStatus
  lastRunAt : Option Nat

/-- The keyword arguments of `_schedule_next`. -/
structure ScheduleCall where
  runNow : Bool := false
  afterFire : Bool := false
  firedAt : Option Nat := none

/-- `base + timedelta(seconds=parse_interval(interval))`; `none`: one of the three raises. -/
def afterInterval (base : Nat) (interval : Str) : Option Nat := do
  let seconds ← (parseInterval interval).toOption
  if seconds < timedeltaLimit ∧ base + seconds * 10 ^ 6 ≤ maxDatetime then some (base + seconds * 10 ^ 6) else none

/-- The occurrence `_schedule_next` picks: the one after the occurrence that fired, unless that is past. -/
def cronDue (cron : Cron) (schedule : Str) (now : Nat) (firedAt : Option Nat) : Option Nat :=
  match firedAt with
  | none => cron.next schedule now
  | some fired => do
    let next ← cron.next schedule fired
    if next ≤ now then cron.next schedule now else some next

/-- The time `_schedule_next` counts the interval from. -/
def intervalBase (lastRunAt : Option Nat) (now : Nat) (call : ScheduleCall) : Nat :=
  match lastRunAt with
  | some last => if call.afterFire then now else last
  | none => now

/-- The next run and the delay until then, as `_schedule_next` computes them: `some none` without a schedule, `none`
when the computation raises. -/
def nextRun (cron : Cron) (o : CliJobOptions) (lastRunAt : Option Nat) (now : Nat) (call : ScheduleCall) :
    Option (Option (Nat × Nat)) :=
  match given o.schedule, given o.interval with
  | some schedule, _ => do
    let due ← cronDue cron schedule now call.firedAt
    some (some (due, max (due - now) (10 ^ 5)))
  | none, some interval => do
    let due ← afterInterval (intervalBase lastRunAt now call) interval
    let due := if due < now ∨ call.runNow then now else due
    some (some (due, due - now))
  | none, none => some none

/-- `_due_on_start`; `none`: it raises. -/
def dueOnStart (cron : Cron) (o : CliJobOptions) (lastRunAt : Option Nat) (now : Nat) : Option Bool :=
  match given o.schedule, given o.interval, lastRunAt with
  | some schedule, _, some last => (cron.next schedule last).map (· ≤ now)
  | none, some interval, some last => (afterInterval last interval).map (· ≤ now)
  | _, _, _ => some true

namespace TimedJob

/-- A job as `register` leaves it. -/
def register (options : CliJobOptions) : TimedJob where
  reg := .register options
  lastRunAt := none
  nextRunAt := none
  timerTask := none
  timers := []
  nextTimer := 0
  processed := false

/-- `_schedule_next`; it changes nothing when it raises (`none`). -/
def scheduleNext (cron : Cron) (running : Bool) (now : Nat) (call : ScheduleCall) (job : TimedJob) : Option TimedJob :=
  if running then do
    match ← nextRun cron job.reg.options job.lastRunAt now call with
    | none => some { job with nextRunAt := none }
    | some (due, delay) =>
      some { job with
        nextRunAt := some due
        timerTask := some job.nextTimer
        timers := ⟨job.nextTimer, delay⟩ :: job.timers
        nextTimer := job.nextTimer + 1 }
  else some job

/-- `_schedule_next` as the last thing an operation does: its error is the operation's. -/
def schedule (cron : Cron) (running : Bool) (now : Nat) (call : ScheduleCall) (job : TimedJob) : TimedJob :=
  (job.scheduleNext cron running now call).getD job

/-- `_cancel_timer`. -/
def cancelTimer (job : TimedJob) : TimedJob :=
  { job with
    nextRunAt := none
    timerTask := none
    timers := job.timers.filter fun timer => some timer.id ≠ job.timerTask }

/-- The part of `start` that restores a job's saved state. -/
def restore (saved : Option JobState) (job : TimedJob) : TimedJob :=
  { job with
    reg := job.reg.restore (saved.map (·.status))
    lastRunAt := (saved.map (·.lastRunAt)).getD job.lastRunAt
    processed := true }

/-- Whether `start` runs a job that it restored at once (`run_on_start`); `none`: finding out raises. -/
def runOnStart (cron : Cron) (now : Nat) (job : TimedJob) : Option Bool :=
  if job.reg.options.runOnStart then dueOnStart cron job.reg.options job.lastRunAt now else some false

/-- `start`, for one job; `error`: it raises there. -/
def start (cron : Cron) (running : Bool) (saved : Option JobState) (now : Nat) (job : TimedJob) :
    Except TimedJob TimedJob :=
  let restored := job.restore saved
  if restored.reg.status ≠ .active then .ok restored
  else match restored.runOnStart cron now with
    | none => .error restored
    | some due =>
      -- The timer runs an interval job.
      let runNow := due && ((given restored.reg.options.schedule).isNone && (given restored.reg.options.interval).isSome)
      match restored.scheduleNext cron running now { runNow := runNow } with
      | none => .error restored
      | some scheduled => .ok { scheduled with reg := job.reg.start (saved.map (·.status)) due }

/-- `_timer_fire` of one of the job's timers, after its sleep. -/
def timerFire (cron : Cron) (running : Bool) (timer : Nat) (now : Nat) (job : TimedJob) : Option TimedJob :=
  if timer ∈ job.timers.map (·.id) then
    let fired := { job with
      reg := job.reg.timerFire running
      timers := job.timers.filter (·.id ≠ timer) }
    if running ∧ fired.reg.status = .active then
      some (fired.schedule cron running now { afterFire := true, firedAt := job.nextRunAt })
    else some fired
  else none

/-- `pause`. -/
def pause (job : TimedJob) : Option TimedJob := do
  let reg ← job.reg.pause
  some { job with reg := reg }.cancelTimer

/-- `resume`. -/
def resume (cron : Cron) (running : Bool) (now : Nat) (job : TimedJob) : Option TimedJob := do
  let reg ← job.reg.resume
  some ({ job with reg := reg }.schedule cron running now {})

/-- `stop_job`. -/
def stopJob (job : TimedJob) : TimedJob := { job with reg := job.reg.stopJob }.cancelTimer

/-- `update_options`; an option that fails its check raises before the timer is touched. -/
def updateOptions (cron : Cron) (running : Bool) (changes : OptionChanges) (now : Nat) (job : TimedJob) :
    Option TimedJob := do
  let reg ← job.reg.updateOptions cron.isValid changes
  let updated := { job with reg := reg }
  match (runWrites (optionWrites cron.isValid changes) job.reg.options).2 with
  | some _ => some updated
  | none =>
    if reg.status = .active then some (updated.cancelTimer.schedule cron running now {}) else some updated

end TimedJob

/-- The registrations, in the order of their registration, and the scheduler's own state. -/
structure TimedScheduler where
  running : Bool
  /-- The calls of `start` that wait for the storage. -/
  starting : Nat
  jobs : List (Str × TimedJob)

/-- A scheduler as it is created. -/
def TimedScheduler.new : TimedScheduler where
  running := false
  starting := 0
  jobs := []

/-- The operations on the scheduler, its timers and its runs.  Every time is the clock's when the step is taken. -/
inductive TimerAction where
  | register (id : Option Str) (name : Str) (options : CliJobOptions)
  /-- `start` up to its first await. -/
  | start
  /-- `start` after its last await, with the saved states. -/
  | started (saved : List (Str × JobState)) (now : Nat)
  /-- The storage raises in `start`. -/
  | startFailed
  | timerFire (job : Str) (timer : Nat) (now : Nat)
  | pause (job : Str)
  | resume (job : Str) (now : Nat)
  | stopJob (job : Str)
  | updateOptions (job : Str) (changes : OptionChanges) (now : Nat)
  | trigger (job : Str)
  | triggered (job : Str) (run : RunId) (answer : Answer)
  | cancelCurrent (job : Str)
  | runStep (job : Str) (run : RunId) (answer : Answer)
  /-- `_execute_attempt` sets `last_run_at`. -/
  | ran (job : Str) (startedAt : Nat)

/-- `start` goes through the registrations; it stops at the first that raises. -/
def startJobs (cron : Cron) (running : Bool) (saved : List (Str × JobState)) (now : Nat) :
    List (Str × TimedJob) → List (Str × TimedJob)
  | [] => []
  | (id, job) :: jobs =>
    match job.start cron running (saved.lookup id) now with
    | .error job' => (id, job') :: jobs
    | .ok job' => (id, job') :: startJobs cron running saved now jobs

namespace TimedScheduler

/-- The registration with an id. -/
def job? (s : TimedScheduler) (id : Str) : Option TimedJob := (s.jobs.find? (·.1 = id)).map (·.2)

/-- An operation on one job. -/
def onJob (s : TimedScheduler) (id : Str) (op : TimedJob → Option TimedJob) : Option TimedScheduler := do
  let job' ← op (← s.job? id)
  some { s with jobs := s.jobs.map fun p => if p.1 = id then (id, job') else p }

end TimedScheduler

/-- A step of the job's runs, which touches no timer. -/
def TimedJob.onRuns (cron : Cron) (a : JobAction) (job : TimedJob) : Option TimedJob := do
  let reg ← step cron.isValid job.reg a
  some { job with reg := reg }

/-- One step of the scheduler; `none`: it is refused, or not possible. -/
def timerStep (cron : Cron) (s : TimedScheduler) : TimerAction → Option TimedScheduler
  | .register id name options =>
    match registerId (s.jobs.map (·.1)) id name with
    | .ok id => some { s with jobs := s.jobs ++ [(id, .register options)] }
    | .error _ => none
  | .start => some { s with running := true, starting := s.starting + 1 }
  | .started saved now =>
    if 0 < s.starting then
      some { s with starting := s.starting - 1, jobs := startJobs cron s.running saved now s.jobs }
    else none
  | .startFailed => if 0 < s.starting then some { s with starting := s.starting - 1 } else none
  | .timerFire id timer now => s.onJob id (·.timerFire cron s.running timer now)
  | .pause id => s.onJob id (·.pause)
  | .resume id now => s.onJob id (·.resume cron s.running now)
  | .stopJob id => s.onJob id (some ·.stopJob)
  | .updateOptions id changes now => s.onJob id (·.updateOptions cron s.running changes now)
  | .trigger id => s.onJob id (·.onRuns cron .trigger)
  | .triggered id run answer => s.onJob id (·.onRuns cron (.triggered run answer))
  | .cancelCurrent id => s.onJob id (·.onRuns cron .cancelCurrent)
  | .runStep id run answer => s.onJob id (·.onRuns cron (.runStep run answer))
  | .ran id startedAt => s.onJob id fun job => some { job with lastRunAt := some startedAt }

/-! ### The invariant -/

/-- The options that say when a job runs. -/
structure Timing where
  schedule : Option Str
  interval : Option Str

/-- Whether there is a schedule or an interval. -/
def Timing.isSet (timing : Timing) : Bool := (given timing.schedule).isSome || (given timing.interval).isSome

def CliJobOptions.timing (o : CliJobOptions) : Timing := ⟨o.schedule, o.interval⟩

/-- What a registration has of timers: at most one that is pending, none unless it is active, and one, with
`next_run_at` set, when it is active, has a schedule or an interval and `start` has come to it. -/
structure TimersSettled (job : TimedJob) : Prop where
  one : job.timers.length ≤ 1
  onlyActive : job.reg.status ≠ .active → job.timers = []
  scheduled : job.processed = true → job.reg.status = .active → job.reg.options.timing.isSet = true →
    job.timers.length = 1 ∧ job.nextRunAt.isSome = true

/-- The interval is one that `parse_interval` reads and that added to `base` gives a `datetime`. -/
def IntervalFits (base : Nat) (interval : Str) : Prop :=
  ∃ seconds, parseInterval interval = .ok seconds ∧ seconds < timedeltaLimit ∧ base + seconds * 10 ^ 6 ≤ maxDatetime

/-- There is a next run: the schedule has an occurrence after the one that fired and, if that is past, after `now`, or
the interval fits. -/
structure HasNextRun (cron : Cron) (timing : Timing) (lastRunAt : Option Nat) (now : Nat) (call : ScheduleCall) :
    Prop where
  schedule : ∀ s, given timing.schedule = some s →
    (∀ fired, call.firedAt = some fired → cron.next s fired ≠ none) ∧
    ((∀ fired, call.firedAt = some fired → ∃ next, cron.next s fired = some next ∧ next ≤ now) → cron.next s now ≠ none)
  interval : given timing.schedule = none → ∀ i, given timing.interval = some i →
    IntervalFits (intervalBase lastRunAt now call) i

/-- There is a next run when `start` comes to a job it restored, and an occurrence after its last run if `start` looks
for one. -/
structure Startable (cron : Cron) (now : Nat) (job : TimedJob) : Prop where
  next : HasNextRun cron job.reg.options.timing job.lastRunAt now {}
  missed : job.reg.options.runOnStart = true → ∀ s, given job.reg.options.schedule = some s →
    ∀ last, job.lastRunAt = some last → cron.next s last ≠ none

/-- The schedule and the interval pass the checks of `update_options`. -/
structure OptionChanges.TimingValid (isCron : Str → Bool) (c : OptionChanges) : Prop where
  notBoth : c.schedule = none ∨ c.interval = none
  schedule : ∀ s, c.schedule = some s → isCron s = true
  interval : ∀ i, c.interval = some i → ∃ seconds, parseInterval i = .ok seconds

/-- The options that `update_options` checks after it has written these pass their checks. -/
structure OptionChanges.RestValid (c : OptionChanges) : Prop where
  retryDelay : ∀ d, c.retryDelay = some d → ∃ seconds, parseInterval d = .ok seconds
  retryStrategy : ∀ s, c.retryStrategy = some s → s ∈ retryStrategies
  timeout : ∀ t, c.timeout = some t → ∃ seconds, parseInterval t = .ok seconds
  overlapPolicy : ∀ s, c.overlapPolicy = some s → s ∈ overlapPolicies

/-- The schedule and the interval of a job after valid changes. -/
def OptionChanges.timing (c : OptionChanges) (o : CliJobOptions) : Timing :=
  match c.schedule, c.interval with
  | some s, _ => ⟨some s, none⟩
  | none, some i => ⟨none, some i⟩
  | none, none => o.timing

/-- The step neither loses a timer nor adds one: when `start` goes through the registrations no timer is pending, an
operation that schedules a job that `start` has come to finds a next run, and `update_options` does not raise after it
has given such a job its first schedule or interval. -/
def KeepsTimers (cron : Cron) (s : TimedScheduler) : TimerAction → Prop
  | .started saved now => ∀ id job, (id, job) ∈ s.jobs → job.timers = [] ∧
    ((job.restore (saved.lookup id)).reg.status = .active → Startable cron now (job.restore (saved.lookup id)))
  | .timerFire id _ now => ∀ job, s.job? id = some job → job.processed = true → job.reg.status = .active →
    HasNextRun cron job.reg.options.timing job.lastRunAt now { afterFire := true, firedAt := job.nextRunAt }
  | .resume id now => ∀ job, s.job? id = some job → job.processed = true →
    HasNextRun cron job.reg.options.timing job.lastRunAt now {}
  | .updateOptions id changes now => ∀ job, s.job? id = some job → job.processed = true → job.reg.status = .active →
    changes.TimingValid cron.isValid →
    (changes.RestValid → HasNextRun cron (changes.timing job.reg.options) job.lastRunAt now {}) ∧
    (job.reg.options.timing.isSet = false → (changes.timing job.reg.options).isSet = true → changes.RestValid)
  | _ => True

/-- The invariant behind `TimersSettled`: the pending timer is the one the job holds, and before the first `start`
nothing is scheduled. -/
structure TimersKept (running : Bool) (job : TimedJob) : Prop extends TimersSettled job where
  own : ∀ timer ∈ job.timers, job.timerTask = some timer.id
  idle : running = false → job.timers = [] ∧ job.processed = false

/-! ### The next run -/

private theorem afterInterval_eq {base seconds : Nat} {interval : Str} (hparse : parseInterval interval = .ok seconds)
    (hlimit : seconds < timedeltaLimit) (hmax : base + seconds * 10 ^ 6 ≤ maxDatetime) :
    afterInterval base interval = some (base + seconds * 10 ^ 6) := by
  simp only [afterInterval, hparse, Except.toOption, Option.bind_eq_bind, Option.bind_some]
  exact if_pos ⟨hlimit, hmax⟩

private theorem afterInterval_ne_none {base : Nat} {interval : Str} (h : IntervalFits base interval) :
    afterInterval base interval ≠ none := by
  obtain ⟨seconds, hparse, hlimit, hmax⟩ := h
  rw [afterInterval_eq hparse hlimit hmax]
  exact Option.some_ne_none _

private theorem cronDue_ne_none {cron : Cron} {schedule : Str} {now : Nat} {firedAt : Option Nat}
    (hfired : ∀ fired, firedAt = some fired → cron.next schedule fired ≠ none)
    (hnow : (∀ fired, firedAt = some fired → ∃ next, cron.next schedule fired = some next ∧ next ≤ now) →
      cron.next schedule now ≠ none) : cronDue cron schedule now firedAt ≠ none := by
  cases firedAt with
  | none => exact hnow fun fired h => by cases h
  | some fired =>
    obtain ⟨next, hnext⟩ := Option.ne_none_iff_exists'.1 (hfired fired rfl)
    simp only [cronDue, hnext, Option.bind_eq_bind, Option.bind_some]
    split
    · rename_i hpast
      refine hnow fun fired' h => ⟨next, ?_, hpast⟩
      rw [← Option.some.inj h]
      exact hnext
    · exact Option.some_ne_none next

private theorem nextRun_ne_none {cron : Cron} {o : CliJobOptions} {lastRunAt : Option Nat} {now : Nat}
    {call : ScheduleCall}
    (h : HasNextRun cron o.timing lastRunAt now call) : nextRun cron o lastRunAt now call ≠ none := by
  unfold nextRun
  cases hs : given o.schedule with
  | some schedule =>
    obtain ⟨hfired, hnow⟩ := h.schedule schedule hs
    obtain ⟨due, hdue⟩ := Option.ne_none_iff_exists'.1 (cronDue_ne_none hfired hnow)
    simp [hdue]
  | none =>
    cases hi : given o.interval with
    | some interval =>
      obtain ⟨due, hdue⟩ := Option.ne_none_iff_exists'.1 (afterInterval_ne_none (h.interval hs interval hi))
      simp [hdue]
    | none => exact Option.some_ne_none none

/-- Nothing to wait for: there is neither a schedule nor an interval. -/
private theorem nextRun_manual {cron : Cron} {o : CliJobOptions} {lastRunAt : Option Nat} {now : Nat}
    {call : ScheduleCall}
    (h : nextRun cron o lastRunAt now call = some none) : o.timing.isSet = false := by
  unfold nextRun at h
  cases hs : given o.schedule with
  | some schedule =>
    rw [hs] at h
    obtain ⟨due, -, h⟩ := Option.bind_eq_some_iff.1 h
    cases h
  | none =>
    cases hi : given o.interval with
    | some interval =>
      rw [hs, hi] at h
      obtain ⟨due, -, h⟩ := Option.bind_eq_some_iff.1 h
      cases h
    | none => simp [Timing.isSet, CliJobOptions.timing, hs, hi]

private theorem runOnStart_ne_none {cron : Cron} {now : Nat} {job : TimedJob} (h : Startable cron now job) :
    job.runOnStart cron now ≠ none := by
  unfold TimedJob.runOnStart
  split
  · rename_i hrun
    unfold dueOnStart
    cases hlast : job.lastRunAt with
    | none =>
      cases given job.reg.options.schedule <;> cases given job.reg.options.interval <;> exact Option.some_ne_none true
    | some last =>
      cases hs : given job.reg.options.schedule with
      | some schedule =>
        rw [Ne, Option.map_eq_none_iff]
        exact h.missed hrun schedule hs last hlast
      | none =>
        cases hi : given job.reg.options.interval with
        | some interval =>
          rw [Ne, Option.map_eq_none_iff]
          have hfits := h.next.interval hs interval hi
          rw [hlast] at hfits
          exact afterInterval_ne_none hfits
        | none => exact Option.some_ne_none true
  · exact Option.some_ne_none false

/-! ### Scheduling and cancelling -/

/-- What `_schedule_next` does when it does not raise. -/
private theorem scheduleNext_cases {cron : Cron} {running : Bool} {now : Nat} {call : ScheduleCall}
    {job job' : TimedJob}
    (h : job.scheduleNext cron running now call = some job') :
    (running = false ∧ job' = job) ∨
    (running = true ∧ job.reg.options.timing.isSet = false ∧ job' = { job with nextRunAt := none }) ∨
    (running = true ∧ ∃ due delay, job' = { job with
      nextRunAt := some due
      timerTask := some job.nextTimer
      timers := ⟨job.nextTimer, delay⟩ :: job.timers
      nextTimer := job.nextTimer + 1 }) := by
  unfold TimedJob.scheduleNext at h
  cases running with
  | false => exact .inl ⟨rfl, (Option.some.inj h).symm⟩
  | true =>
    right
    obtain ⟨next, hnext, h⟩ := Option.bind_eq_some_iff.1 h
    cases next with
    | none => exact .inl ⟨rfl, nextRun_manual hnext, (Option.some.inj h).symm⟩
    | some next => exact .inr ⟨rfl, next.1, next.2, (Option.some.inj h).symm⟩

private theorem scheduleNext_ne_none {cron : Cron} {running : Bool} {now : Nat} {call : ScheduleCall} {job : TimedJob}
    (h : HasNextRun cron job.reg.options.timing job.lastRunAt now call) :
    job.scheduleNext cron running now call ≠ none := by
  unfold TimedJob.scheduleNext
  split
  · obtain ⟨next, hnext⟩ := Option.ne_none_iff_exists'.1 (nextRun_ne_none h)
    rw [hnext]
    cases next <;> exact Option.some_ne_none _
  · exact Option.some_ne_none job

/-- Scheduling an active job that has no pending timer. -/
private theorem kept_of_scheduleNext {cron : Cron} {running : Bool} {now : Nat} {call : ScheduleCall}
    {job job' : TimedJob}
    (hnone : job.timers = []) (hactive : job.reg.status = .active) (hidle : running = false → job.processed = false)
    (h : job.scheduleNext cron running now call = some job') : TimersKept running job' := by
  rcases scheduleNext_cases h with ⟨rfl, rfl⟩ | ⟨rfl, htiming, rfl⟩ | ⟨rfl, due, delay, rfl⟩
  · have hprocessed : job'.processed = false := hidle rfl
    refine ⟨⟨?_, fun _ => hnone, fun h => ?_⟩, fun timer h => ?_, fun _ => ⟨hnone, hprocessed⟩⟩
    · rw [hnone]
      exact Nat.zero_le 1
    · rw [hprocessed] at h
      cases h
    · rw [hnone] at h
      cases h
  · refine ⟨⟨?_, fun _ => hnone, fun _ _ h => ?_⟩, fun timer h => ?_, fun h => by cases h⟩
    · rw [hnone]
      exact Nat.zero_le 1
    · rw [htiming] at h
      cases h
    · rw [hnone] at h
      cases h
  · refine ⟨⟨?_, fun h => absurd hactive h, fun _ _ _ => ⟨?_, rfl⟩⟩, fun timer h => ?_, fun h => by cases h⟩
    · simp [hnone]
    · simp [hnone]
    · rw [hnone, List.mem_singleton] at h
      rw [h]

/-- Without a pending timer nothing can go wrong but that a job that needs one has none. -/
private theorem kept_of_no_timer {running : Bool} {job : TimedJob} (hnone : job.timers = [])
    (hmissing : job.processed = true → job.reg.status = .active → job.reg.options.timing.isSet = false)
    (hidle : running = false → job.processed = false) : TimersKept running job := by
  refine ⟨⟨?_, fun _ => hnone, fun hprocessed hactive htiming => ?_⟩, fun timer h => ?_, fun h => ⟨hnone, hidle h⟩⟩
  · rw [hnone]
    exact Nat.zero_le 1
  · rw [hmissing hprocessed hactive] at htiming
    cases htiming
  · rw [hnone] at h
    cases h

private theorem kept_of_schedule {cron : Cron} {running : Bool} {now : Nat} {call : ScheduleCall} {job : TimedJob}
    (hnone : job.timers = []) (hactive : job.reg.status = .active) (hidle : running = false → job.processed = false)
    (hnext : job.processed = true → HasNextRun cron job.reg.options.timing job.lastRunAt now call) :
    TimersKept running (job.schedule cron running now call) := by
  unfold TimedJob.schedule
  cases h : job.scheduleNext cron running now call with
  | some job' => exact kept_of_scheduleNext hnone hactive hidle h
  | none =>
    refine kept_of_no_timer hnone (fun hprocessed => ?_) hidle
    exact absurd h (scheduleNext_ne_none (hnext hprocessed))

theorem TimersKept.cancelTimer {running : Bool} {job : TimedJob} (h : TimersKept running job) :
    job.cancelTimer.timers = [] := by
  refine List.filter_eq_nil_iff.2 fun timer htimer => ?_
  have hown := h.own timer htimer
  simp [hown]

/-- Nothing but the options and the status of the registration matters. -/
theorem TimersKept.congr {running : Bool} {job job' : TimedJob} (h : TimersKept running job)
    (hstatus : job'.reg.status = job.reg.status) (htiming : job'.reg.options.timing = job.reg.options.timing)
    (htimers : job'.timers = job.timers) (htask : job'.timerTask = job.timerTask)
    (hnext : job'.nextRunAt = job.nextRunAt) (hprocessed : job'.processed = job.processed) :
    TimersKept running job' := by
  refine ⟨⟨?_, ?_, ?_⟩, ?_, ?_⟩
  · rw [htimers]
    exact h.one
  · rw [hstatus, htimers]
    exact h.onlyActive
  · rw [hprocessed, hstatus, htiming, htimers, hnext]
    exact h.scheduled
  · rw [htimers, htask]
    exact h.own
  · rw [htimers, hprocessed]
    exact h.idle

/-! ### The operations -/

private theorem kept_register (running : Bool) (options : CliJobOptions) : TimersKept running (.register options) :=
  kept_of_no_timer rfl (fun h => by cases h) fun _ => rfl

theorem TimersKept.pause {running : Bool} {job job' : TimedJob} (h : TimersKept running job)
    (hst : job.pause = some job') : TimersKept running job' := by
  obtain ⟨reg, hreg, hst⟩ := Option.bind_eq_some_iff.1 hst
  obtain rfl := Option.some.inj hst
  obtain ⟨-, rfl⟩ : ¬ job.reg.status = .paused ∧ { job.reg with status := .paused } = reg := by
    simpa [JobRegistration.pause] using hreg
  exact kept_of_no_timer h.cancelTimer (fun _ hactive => by cases hactive) fun hrunning => (h.idle hrunning).2

theorem TimersKept.stopJob {running : Bool} {job : TimedJob} (h : TimersKept running job) :
    TimersKept running job.stopJob :=
  kept_of_no_timer h.cancelTimer (fun _ hactive => by cases hactive) fun hrunning => (h.idle hrunning).2

theorem TimersKept.resume {cron : Cron} {running : Bool} {now : Nat} {job job' : TimedJob} (h : TimersKept running job)
    (hnext : job.processed = true → HasNextRun cron job.reg.options.timing job.lastRunAt now {})
    (hst : job.resume cron running now = some job') : TimersKept running job' := by
  obtain ⟨reg, hreg, hst⟩ := Option.bind_eq_some_iff.1 hst
  obtain rfl := Option.some.inj hst
  obtain ⟨hpaused, rfl⟩ : job.reg.status = .paused ∧ { job.reg with status := .active } = reg := by
    simpa [JobRegistration.resume] using hreg
  have hnone : job.timers = [] := by
    apply h.onlyActive
    rw [hpaused]
    decide
  exact kept_of_schedule hnone rfl (fun hrunning => (h.idle hrunning).2) hnext

private theorem status_admitRun (reg : JobRegistration) : reg.admitRun.1.status = reg.status := by
  unfold JobRegistration.admitRun
  split
  · rfl
  · split
    · rfl
    · split
      · split <;> rfl
      · rfl

theorem status_launchDue (reg : JobRegistration) : reg.launchDue.status = reg.status := by
  have h := status_admitRun reg
  unfold JobRegistration.launchDue
  split <;> (rename_i heq; rw [heq] at h; exact h)

theorem status_startQueued (reg : JobRegistration) : reg.startQueued.status = reg.status := by
  unfold JobRegistration.startQueued
  split <;> rfl

/-- The actions that may change the status of a job. -/
def JobAction.setsStatus : JobAction → Bool
  | .start _ _ | .pause | .resume | .stopJob => true
  | _ => false

/-- Only they do. -/
theorem status_step {isCron : Str → Bool} {reg reg' : JobRegistration} {a : JobAction} (ha : a.setsStatus = false)
    (h : step isCron reg a = some reg') : reg'.status = reg.status := by
  cases a with
  | start saved due => cases ha
  | pause => cases ha
  | resume => cases ha
  | stopJob => cases ha
  | stop => obtain rfl := Option.some.inj h; rfl
  | timerFire running =>
    obtain rfl := Option.some.inj h
    unfold JobRegistration.timerFire
    split
    · exact status_launchDue reg
    · rfl
  | trigger =>
    have hadmit := status_admitRun reg
    simp only [step, JobRegistration.trigger] at h
    split at h
    · rename_i heq
      obtain rfl := Option.some.inj h
      rw [heq] at hadmit
      exact hadmit
    · rename_i heq
      obtain rfl := Option.some.inj h
      rw [heq] at hadmit
      exact hadmit
    · cases h
  | triggered i answer =>
    obtain ⟨run, -, h⟩ := Option.bind_eq_some_iff.1 h
    split at h
    · split at h
      · obtain rfl := Option.some.inj h
        rfl
      · cases h
      · obtain rfl := Option.some.inj h
        rfl
    · cases h
  | cancelCurrent =>
    simp only [step, JobRegistration.cancelCurrent] at h
    split at h
    · cases h
    · obtain rfl := Option.some.inj h; rfl
  | updateOptions changes =>
    simp only [step, JobRegistration.updateOptions] at h
    split at h
    · obtain rfl := Option.some.inj h; rfl
    · split at h
      · cases h
      · split at h
        · obtain rfl := Option.some.inj h; rfl
        · obtain rfl := Option.some.inj h
          exact status_startQueued _
  | runStep i answer =>
    obtain ⟨run, -, h⟩ := Option.bind_eq_some_iff.1 h
    obtain ⟨next, -, h⟩ := Option.bind_eq_some_iff.1 h
    cases next with
    | ended =>
      obtain rfl := Option.some.inj h
      exact status_startQueued _
    | _ => obtain rfl := Option.some.inj h; rfl

theorem TimersKept.onRuns {cron : Cron} {running : Bool} {a : JobAction} {job job' : TimedJob}
    (h : TimersKept running job) (hstatus : a.setsStatus = false) (hoptions : ∀ changes, a ≠ .updateOptions changes)
    (hst : job.onRuns cron a = some job') : TimersKept running job' := by
  obtain ⟨reg, hreg, hst⟩ := Option.bind_eq_some_iff.1 hst
  obtain rfl := Option.some.inj hst
  have htiming : reg.options.timing = job.reg.options.timing := by rw [options_step hoptions hreg]
  exact h.congr (status_step hstatus hreg) htiming rfl rfl rfl rfl

theorem TimersKept.timerFire {cron : Cron} {running : Bool} {timer now : Nat} {job job' : TimedJob}
    (h : TimersKept running job)
    (hnext : job.processed = true → job.reg.status = .active → HasNextRun cron job.reg.options.timing job.lastRunAt now
      { afterFire := true, firedAt := job.nextRunAt })
    (hst : job.timerFire cron running timer now = some job') : TimersKept running job' := by
  have hreg : step cron.isValid job.reg (.timerFire running) = some (job.reg.timerFire running) := rfl
  have hstatus := status_step rfl hreg
  have hoptions := options_step (fun _ h => by cases h) hreg
  simp only [TimedJob.timerFire] at hst
  split at hst
  · rename_i hmem
    -- The timer that fires is the only one.
    have hnone : job.timers.filter (·.id ≠ timer) = [] := by
      obtain ⟨fired, hfired, rfl⟩ := List.mem_map.1 hmem
      have hone : job.timers = [fired] := by
        obtain ⟨only, hlist⟩ : ∃ only, job.timers = [only] := by
          refine List.length_eq_one_iff.1 ?_
          have hpos := List.length_pos_of_mem hfired
          have hone := h.one
          omega
        rw [hlist] at hfired ⊢
        rw [List.mem_singleton.1 hfired]
      simp [hone]
    split at hst
    · rename_i hactive
      obtain rfl := Option.some.inj hst
      refine kept_of_schedule hnone hactive.2 (fun hrunning => (h.idle hrunning).2) fun hprocessed => ?_
      have htiming : (job.reg.timerFire running).options.timing = job.reg.options.timing := by rw [hoptions]
      rw [htiming]
      exact hnext hprocessed (hstatus ▸ hactive.2)
    · rename_i hactive
      obtain rfl := Option.some.inj hst
      refine kept_of_no_timer hnone (fun _ hstatus' => ?_) fun hrunning => (h.idle hrunning).2
      -- A timer of an active job is pending, so the scheduler runs.
      have hrunning : running = true := by
        cases running with
        | true => rfl
        | false =>
          rw [(h.idle rfl).1] at hmem
          cases hmem
      exact absurd ⟨hrunning, hstatus'⟩ hactive
  · cases hst

/-! ### `update_options` -/

/-- The writes before the schedule raise nothing and leave it alone. -/
private theorem describe_writes (isCron : Str → Bool) (c : OptionChanges) (o : CliJobOptions) :
    ∃ o', runWrites ((optionWrites isCron c).take 2) o = (o', none) ∧ o'.timing = o.timing := by
  obtain ⟨description, group, schedule, interval, maxRetries, retryDelay, retryStrategy, timeout, overlapPolicy,
    maxConcurrentRuns⟩ := c
  cases description <;> cases group <;> exact ⟨_, rfl, rfl⟩

/-- A valid schedule or interval is written. -/
private theorem timing_written {isCron : Str → Bool} {c : OptionChanges} (h : c.TimingValid isCron)
    (o : CliJobOptions) :
    ∃ o', runWrites ((optionWrites isCron c).take 5) o = (o', none) ∧ o'.timing = c.timing o := by
  obtain ⟨o₁, ho₁, htiming⟩ := describe_writes isCron c o
  have hsplit : (optionWrites isCron c).take 5 =
      (optionWrites isCron c).take 2 ++ ((optionWrites isCron c).take 5).drop 2 := rfl
  rw [hsplit, runWrites_append, ho₁]
  simp only [optionWrites, List.take_succ_cons, List.take_zero, List.drop_succ_cons, List.drop_zero, runWrites]
  cases hs : c.schedule with
  | some s =>
    have hi : c.interval = none := by
      rcases h.notBoth with hnone | hnone
      · rw [hs] at hnone
        cases hnone
      · exact hnone
    have hcron := h.schedule s hs
    simp [Write.given, hi, hcron, OptionChanges.timing, CliJobOptions.timing, hs]
  | none =>
    cases hi : c.interval with
    | some i =>
      obtain ⟨seconds, hparse⟩ := h.interval i hi
      simp [Write.given, Write.interval, hparse, OptionChanges.timing, CliJobOptions.timing, hs, hi]
    | none =>
      simp [Write.given, OptionChanges.timing, hs, hi, htiming]

/-- A schedule or interval that fails its check is not written. -/
private theorem timing_refused {isCron : Str → Bool} {c : OptionChanges} (h : ¬ c.TimingValid isCron)
    (o : CliJobOptions) :
    ∃ o' e, runWrites ((optionWrites isCron c).take 5) o = (o', some e) ∧ o'.timing = o.timing := by
  obtain ⟨o₁, ho₁, htiming⟩ := describe_writes isCron c o
  have hsplit : (optionWrites isCron c).take 5 =
      (optionWrites isCron c).take 2 ++ ((optionWrites isCron c).take 5).drop 2 := rfl
  rw [hsplit, runWrites_append, ho₁]
  simp only [optionWrites, List.take_succ_cons, List.take_zero, List.drop_succ_cons, List.drop_zero, runWrites]
  cases hs : c.schedule with
  | some s =>
    cases hi : c.interval with
    | some i => simp [htiming]
    | none =>
      have hcron : isCron s = false := by
        by_contra hcron
        refine h ⟨.inr hi, fun s' hs' => ?_, fun i hi' => ?_⟩
        · rw [hs] at hs'
          rw [← Option.some.inj hs']
          exact eq_true_of_ne_false hcron
        · rw [hi] at hi'
          cases hi'
      simp [Write.given, hcron, htiming]
  | none =>
    cases hi : c.interval with
    | some i =>
      cases hparse : parseInterval i with
      | error e => simp [Write.given, Write.interval, hparse, htiming]
      | ok seconds =>
        refine absurd ⟨.inl hs, fun s' hs' => ?_, fun i' hi' => ?_⟩ h
        · rw [hs] at hs'
          cases hs'
        · rw [hi] at hi'
          exact ⟨seconds, Option.some.inj hi' ▸ hparse⟩
    | none =>
      refine absurd ⟨.inl hs, fun s' hs' => ?_, fun i' hi' => ?_⟩ h
      · rw [hs] at hs'
        cases hs'
      · rw [hi] at hi'
        cases hi'

/-- The writes after the interval leave the schedule and the interval alone. -/
theorem rest_keeps (isCron : Str → Bool) (c : OptionChanges) :
    ∀ w ∈ (optionWrites isCron c).drop 5, w.Keeps CliJobOptions.timing := by
  intro w hw
  simp only [optionWrites, List.drop_succ_cons, List.drop_zero, List.mem_cons, List.not_mem_nil, or_false] at hw
  rcases hw with rfl | rfl | rfl | rfl | rfl
  · exact .given fun n => .ok fun o => rfl
  · exact .given fun d => .interval fun o => rfl
  · exact .given fun s => .member fun o => rfl
  · exact .given fun t => .interval fun o => rfl
  · exact .given fun s => .member fun o => rfl

private theorem given_ok {α : Type} {value : Option α} {write : α → Write}
    (h : ∀ a, value = some a → ∀ o, ∃ o', write a o = .ok o') (o : CliJobOptions) :
    ∃ o', Write.given value write o = .ok o' := by
  cases value with
  | none => exact ⟨o, rfl⟩
  | some a => exact h a rfl o

/-- Valid, they raise nothing. -/
private theorem rest_ok {isCron : Str → Bool} {c : OptionChanges} (h : c.RestValid) :
    ∀ w ∈ (optionWrites isCron c).drop 5, ∀ o, ∃ o', w o = .ok o' := by
  intro w hw
  simp only [optionWrites, List.drop_succ_cons, List.drop_zero, List.mem_cons, List.not_mem_nil, or_false] at hw
  rcases hw with rfl | rfl | rfl | rfl | rfl
  · exact given_ok fun n _ o => ⟨_, rfl⟩
  · refine given_ok fun d hd o => ?_
    obtain ⟨seconds, hparse⟩ := h.retryDelay d hd
    simp [Write.interval, hparse]
  · exact given_ok fun s hs o => ⟨_, if_pos (h.retryStrategy s hs)⟩
  · refine given_ok fun t ht o => ?_
    obtain ⟨seconds, hparse⟩ := h.timeout t ht
    simp [Write.interval, hparse]
  · exact given_ok fun s hs o => ⟨_, if_pos (h.overlapPolicy s hs)⟩

private theorem given_interval_ok {value : Option Str} {write : Str → CliJobOptions → CliJobOptions}
    {o o' : CliJobOptions} (h : Write.given value (fun v => .interval v (write v)) o = .ok o') :
    ∀ v, value = some v → ∃ seconds, parseInterval v = .ok seconds := by
  intro v hv
  subst hv
  cases hparse : parseInterval v with
  | ok seconds => exact ⟨seconds, rfl⟩
  | error e =>
    simp only [Write.given, Write.interval, hparse] at h
    cases h

private theorem given_member_ok {value : Option Str} {allowed : List Str} {error : Str → OptionError}
    {write : Str → CliJobOptions → CliJobOptions} {o o' : CliJobOptions}
    (h : Write.given value (fun s o => if s ∈ allowed then .ok (write s o) else .error (error s)) o = .ok o') :
    ∀ s, value = some s → s ∈ allowed := by
  intro s hs
  subst hs
  by_contra hnot
  rw [Write.given, if_neg hnot] at h
  cases h

/-- And only then. -/
private theorem restValid_of_ok {isCron : Str → Bool} {c : OptionChanges}
    (h : ∀ w ∈ (optionWrites isCron c).drop 5, ∃ o o', w o = .ok o') : c.RestValid := by
  simp only [optionWrites, List.drop_succ_cons, List.drop_zero, List.forall_mem_cons] at h
  obtain ⟨-, ⟨_, _, hdelay⟩, ⟨_, _, hstrategy⟩, ⟨_, _, htimeout⟩, ⟨_, _, hpolicy⟩, -⟩ := h
  exact ⟨given_interval_ok hdelay, given_member_ok hstrategy, given_interval_ok htimeout, given_member_ok hpolicy⟩

/-- What `update_options` does to the schedule and the interval, and when it raises. -/
theorem writes_timing (isCron : Str → Bool) (c : OptionChanges) (o : CliJobOptions) :
    (c.TimingValid isCron ∧ (runWrites (optionWrites isCron c) o).1.timing = c.timing o ∧
      ((runWrites (optionWrites isCron c) o).2 = none ↔ c.RestValid)) ∨
    (¬ c.TimingValid isCron ∧ (runWrites (optionWrites isCron c) o).1.timing = o.timing ∧
      (runWrites (optionWrites isCron c) o).2 ≠ none) := by
  have hsplit : runWrites (optionWrites isCron c) o =
      runWrites ((optionWrites isCron c).take 5 ++ (optionWrites isCron c).drop 5) o := by
    rw [List.take_append_drop]
  rw [hsplit, runWrites_append]
  by_cases hvalid : c.TimingValid isCron
  · left
    obtain ⟨o', ho', htiming⟩ := timing_written hvalid o
    rw [ho']
    refine ⟨hvalid, ?_, fun h => restValid_of_ok (ok_of_runWrites h), fun h => runWrites_ok (rest_ok h) o'⟩
    rw [← htiming]
    exact runWrites_keeps (rest_keeps isCron c) o'
  · right
    obtain ⟨o', e, ho', htiming⟩ := timing_refused hvalid o
    rw [ho']
    exact ⟨hvalid, htiming, Option.some_ne_none e⟩

/-- The registration after `update_options` has the schedule and the interval that the writes leave. -/
private theorem timing_updateOptions {isCron : Str → Bool} {reg reg' : JobRegistration} {c : OptionChanges}
    (h : reg.updateOptions isCron c = some reg') :
    reg'.options.timing = (runWrites (optionWrites isCron c) reg.options).1.timing := by
  unfold JobRegistration.updateOptions at h
  split at h
  · obtain rfl := Option.some.inj h
    rfl
  · split at h
    · cases h
    · split at h
      · rename_i heq
        obtain rfl := Option.some.inj h
        rw [heq]
      · rename_i heq
        obtain rfl := Option.some.inj h
        rw [options_startQueued, heq]
        rfl

theorem TimersKept.updateOptions {cron : Cron} {running : Bool} {changes : OptionChanges} {now : Nat}
    {job job' : TimedJob} (h : TimersKept running job)
    (hguard : job.processed = true → job.reg.status = .active → changes.TimingValid cron.isValid →
      (changes.RestValid → HasNextRun cron (changes.timing job.reg.options) job.lastRunAt now {}) ∧
      (job.reg.options.timing.isSet = false → (changes.timing job.reg.options).isSet = true → changes.RestValid))
    (hst : job.updateOptions cron running changes now = some job') : TimersKept running job' := by
  obtain ⟨reg, hreg, hst⟩ := Option.bind_eq_some_iff.1 hst
  have hstatus : reg.status = job.reg.status :=
    status_step (show (JobAction.updateOptions changes).setsStatus = false from rfl) hreg
  have htiming := timing_updateOptions hreg
  cases hraised : (runWrites (optionWrites cron.isValid changes) job.reg.options).2 with
  | some e =>
    rw [hraised] at hst
    obtain rfl := Option.some.inj hst
    rcases writes_timing cron.isValid changes job.reg.options with ⟨hvalid, hwritten, hrest⟩ | ⟨-, hkept, -⟩
    · refine { h with onlyActive := hstatus ▸ h.onlyActive, scheduled := fun hprocessed hactive hset => ?_ }
      have hactive : job.reg.status = .active := hstatus ▸ hactive
      cases hbefore : job.reg.options.timing.isSet with
      | true => exact h.scheduled hprocessed hactive hbefore
      | false =>
        have hset' : (changes.timing job.reg.options).isSet = true := by
          rw [← hwritten, ← htiming]
          exact hset
        have hrestValid := (hguard hprocessed hactive hvalid).2 hbefore hset'
        rw [hrest.2 hrestValid] at hraised
        cases hraised
    · exact h.congr hstatus (htiming.trans hkept) rfl rfl rfl rfl
  | none =>
    rw [hraised] at hst
    rcases writes_timing cron.isValid changes job.reg.options with ⟨hvalid, hwritten, hrest⟩ | ⟨-, -, hraises⟩
    · simp only at hst
      split at hst
      · rename_i hactive
        obtain rfl := Option.some.inj hst
        refine kept_of_schedule h.cancelTimer hactive (fun hrunning => (h.idle hrunning).2) fun hprocessed => ?_
        have hnext := (hguard hprocessed (hstatus ▸ hactive) hvalid).1 (hrest.1 hraised)
        rw [← hwritten, ← htiming] at hnext
        exact hnext
      · rename_i hinactive
        obtain rfl := Option.some.inj hst
        have hnone : job.timers = [] := h.onlyActive (hstatus ▸ hinactive)
        exact kept_of_no_timer hnone (fun _ hactive => absurd hactive hinactive) fun hrunning => (h.idle hrunning).2
    · exact absurd hraised hraises

/-! ### `start` -/

/-- `start` runs a job, if at all, after it has restored it. -/
theorem start_cases (reg : JobRegistration) (saved : Option JobStatus) (due : Bool) :
    (reg.start saved due).status = (reg.restore saved).status ∧
    (reg.start saved due).options = (reg.restore saved).options := by
  unfold JobRegistration.start
  split
  · exact ⟨status_launchDue _, options_launchDue _⟩
  · exact ⟨rfl, rfl⟩

theorem reg_scheduleNext {cron : Cron} {running : Bool} {now : Nat} {call : ScheduleCall} {job job' : TimedJob}
    (h : job.scheduleNext cron running now call = some job') : job'.reg = job.reg := by
  rcases scheduleNext_cases h with ⟨-, rfl⟩ | ⟨-, -, rfl⟩ | ⟨-, due, delay, rfl⟩ <;> rfl

/-- `start` does not raise for a job without a pending timer that it can schedule. -/
private theorem kept_start {cron : Cron} {saved : Option JobState} {now : Nat} {job : TimedJob}
    (hnone : job.timers = [])
    (hnext : (job.restore saved).reg.status = .active → Startable cron now (job.restore saved)) :
    ∃ job', job.start cron true saved now = .ok job' ∧ TimersKept true job' := by
  simp only [TimedJob.start]
  by_cases hactive : (job.restore saved).reg.status = .active
  · have hstartable := hnext hactive
    obtain ⟨due, hdue⟩ := Option.ne_none_iff_exists'.1 (runOnStart_ne_none hstartable)
    rw [if_neg (not_not.2 hactive), hdue]
    dsimp only
    -- The next run is computed alike with `run_now`.
    generalize hnow : (due && ((given (job.restore saved).reg.options.schedule).isNone &&
      (given (job.restore saved).reg.options.interval).isSome)) = runNow
    have hcall : HasNextRun cron (job.restore saved).reg.options.timing (job.restore saved).lastRunAt now
        { runNow := runNow } := ⟨hstartable.next.schedule, hstartable.next.interval⟩
    obtain ⟨scheduled, hscheduled⟩ := Option.ne_none_iff_exists'.1 (scheduleNext_ne_none hcall)
    rw [hscheduled]
    refine ⟨_, rfl, ?_⟩
    have hrestored : (job.restore saved).timers = [] := hnone
    have hkept : TimersKept true scheduled := kept_of_scheduleNext hrestored hactive (fun h => by cases h) hscheduled
    have hreg := reg_scheduleNext hscheduled
    obtain ⟨hstatus, hoptions⟩ := start_cases job.reg (saved.map (·.status)) due
    refine hkept.congr ?_ ?_ rfl rfl rfl rfl
    · rw [hreg]
      exact hstatus
    · rw [hreg]
      exact congrArg CliJobOptions.timing hoptions
  · rw [if_pos hactive]
    exact ⟨_, rfl, kept_of_no_timer hnone (fun _ h => absurd h hactive) fun h => by cases h⟩

private theorem kept_startJobs {cron : Cron} {saved : List (Str × JobState)} {now : Nat} {jobs : List (Str × TimedJob)}
    (h : ∀ id job, (id, job) ∈ jobs → job.timers = [] ∧
      ((job.restore (saved.lookup id)).reg.status = .active → Startable cron now (job.restore (saved.lookup id)))) :
    ∀ id job, (id, job) ∈ startJobs cron true saved now jobs → TimersKept true job := by
  induction jobs with
  | nil =>
    intro id job hmem
    cases hmem
  | cons p jobs ih =>
    obtain ⟨id₀, job₀⟩ := p
    obtain ⟨hnone, hnext⟩ := h id₀ job₀ List.mem_cons_self
    obtain ⟨job₁, hstarted, hkept⟩ := kept_start hnone hnext
    intro id job hmem
    rw [startJobs, hstarted] at hmem
    rcases List.mem_cons.1 hmem with heq | hmem
    · cases heq
      exact hkept
    · exact ih (fun id job hmem => h id job (List.mem_cons_of_mem _ hmem)) id job hmem

/-! ### Runs of the scheduler -/

/-- The invariant of the scheduler. -/
structure SchedulerKept (s : TimedScheduler) : Prop where
  awaiting : 0 < s.starting → s.running = true
  jobs : ∀ id job, (id, job) ∈ s.jobs → TimersKept s.running job

private theorem mem_of_job? {s : TimedScheduler} {id : Str} {job : TimedJob} (h : s.job? id = some job) :
    (id, job) ∈ s.jobs := by
  obtain ⟨⟨id', job'⟩, hfind, rfl⟩ := Option.map_eq_some_iff.1 h
  have hid : id' = id := by simpa using List.find?_some hfind
  rw [← hid]
  exact List.mem_of_find?_eq_some hfind

/-- An operation on one job leaves the others as they are. -/
theorem SchedulerKept.onJob {s s' : TimedScheduler} {id : Str} {op : TimedJob → Option TimedJob} (h : SchedulerKept s)
    (hop : ∀ job job', s.job? id = some job → TimersKept s.running job → op job = some job' →
      TimersKept s.running job')
    (hst : s.onJob id op = some s') : SchedulerKept s' := by
  obtain ⟨job, hjob, hst⟩ := Option.bind_eq_some_iff.1 hst
  obtain ⟨job', hop', hst⟩ := Option.bind_eq_some_iff.1 hst
  obtain rfl := Option.some.inj hst
  refine ⟨h.awaiting, fun id₁ job₁ hmem => ?_⟩
  obtain ⟨⟨id₂, job₂⟩, hmem, heq⟩ := List.mem_map.1 hmem
  split at heq
  · cases heq
    exact hop job job' hjob (h.jobs id job (mem_of_job? hjob)) hop'
  · cases heq
    exact h.jobs id₁ job₁ hmem

/-- A step that meets the guard keeps the timers of every job. -/
theorem SchedulerKept.step {cron : Cron} {s s' : TimedScheduler} {a : TimerAction} (h : SchedulerKept s)
    (hg : KeepsTimers cron s a) (hst : timerStep cron s a = some s') : SchedulerKept s' := by
  cases a with
  | register id name options =>
    simp only [timerStep] at hst
    split at hst
    · obtain rfl := Option.some.inj hst
      refine ⟨h.awaiting, fun id job hmem => ?_⟩
      rcases List.mem_append.1 hmem with hmem | hmem
      · exact h.jobs id job hmem
      · cases List.mem_singleton.1 hmem
        exact kept_register s.running options
    · cases hst
  | start =>
    obtain rfl := Option.some.inj hst
    refine ⟨fun _ => rfl, fun id job hmem => ?_⟩
    exact { h.jobs id job hmem with idle := fun h => by cases h }
  | started saved now =>
    simp only [timerStep] at hst
    split at hst
    · rename_i hstarting
      obtain rfl := Option.some.inj hst
      have hrunning : s.running = true := h.awaiting hstarting
      refine ⟨fun _ => hrunning, ?_⟩
      dsimp only
      rw [hrunning]
      exact kept_startJobs hg
    · cases hst
  | startFailed =>
    simp only [timerStep] at hst
    split at hst
    · rename_i hstarting
      obtain rfl := Option.some.inj hst
      exact ⟨fun _ => h.awaiting hstarting, h.jobs⟩
    · cases hst
  | timerFire id timer now =>
    exact h.onJob (fun job job' hjob hkept hop => hkept.timerFire (hg job hjob) hop) hst
  | pause id => exact h.onJob (fun job job' _ hkept hop => hkept.pause hop) hst
  | resume id now => exact h.onJob (fun job job' hjob hkept hop => hkept.resume (hg job hjob) hop) hst
  | stopJob id =>
    refine h.onJob (fun job job' _ hkept hop => ?_) hst
    obtain rfl := Option.some.inj hop
    exact hkept.stopJob
  | updateOptions id changes now =>
    exact h.onJob (fun job job' hjob hkept hop => hkept.updateOptions (hg job hjob) hop) hst
  | trigger id => exact h.onJob (fun job job' _ hkept hop => hkept.onRuns rfl (fun _ h => by cases h) hop) hst
  | triggered id run answer =>
    exact h.onJob (fun job job' _ hkept hop => hkept.onRuns rfl (fun _ h => by cases h) hop) hst
  | cancelCurrent id => exact h.onJob (fun job job' _ hkept hop => hkept.onRuns rfl (fun _ h => by cases h) hop) hst
  | runStep id run answer =>
    exact h.onJob (fun job job' _ hkept hop => hkept.onRuns rfl (fun _ h => by cases h) hop) hst
  | ran id startedAt =>
    refine h.onJob (fun job job' _ hkept hop => ?_) hst
    obtain rfl := Option.some.inj hop
    exact hkept.congr rfl rfl rfl rfl rfl rfl

/-- In a run in which no step loses or adds a timer, every registration has at most one pending timer, none unless it
is active, and one whenever it is active, has a schedule or an interval and `start` has come to it.  Each job has
options of its own: `register` keeps the caller's object, which two registrations are not to share. -/
theorem timers_settled {cron : Cron} {history : List (Move TimedScheduler TimerAction)} {s : TimedScheduler}
    (h : GuardedRun (timerStep cron) (KeepsTimers cron) .new history s) :
    ∀ id job, (id, job) ∈ s.jobs → TimersSettled job := by
  have hstart : SchedulerKept .new := ⟨fun h => absurd h (Nat.lt_irrefl 0), fun _ _ h => by cases h⟩
  have hkept := h.invariant hstart fun s a t hs hg hst => hs.step hg hst
  exact fun id job hmem => (hkept.jobs id job hmem).toTimersSettled

/-- Without a schedule it is the interval that has to fit. -/
private theorem hasNextRun_interval {cron : Cron} {timing : Timing} {interval : Str} {lastRunAt : Option Nat}
    {now : Nat}
    {call : ScheduleCall} (hs : timing.schedule = none) (hi : timing.interval = some interval)
    (hfits : IntervalFits (intervalBase lastRunAt now call) interval) : HasNextRun cron timing lastRunAt now call := by
  refine ⟨fun s h => ?_, fun _ i h => ?_⟩
  · rw [hs] at h
    cases h
  · rw [hi] at h
    obtain ⟨hgiven, -⟩ := Option.filter_eq_some_iff.1 h
    rw [← Option.some.inj hgiven]
    exact hfits

/-- A job that runs every five minutes. -/
def everyFiveMinutes : CliJobOptions := { interval := some "5m".toList, maxConcurrentRuns_pos := Nat.one_pos }

/-- A host without cron schedules. -/
def noCron : Cron := ⟨fun _ => false, fun _ _ => none⟩

/-- A job as `everyFiveMinutes`, before its first run. -/
def TimedJob.isFresh (job : TimedJob) : Bool :=
  job.reg.options.schedule = none && (job.reg.options.interval = some "5m".toList &&
    (job.reg.options.runOnStart = false && job.lastRunAt = none))

/-- The timer of the job fires after five minutes, and the job has its next one. -/
theorem timers_settled_five_minutes : ∃ history s,
    GuardedRun (timerStep noCron) (KeepsTimers noCron) .new history s ∧
    (∀ id job, (id, job) ∈ s.jobs → TimersSettled job) ∧ (s.jobs.map fun p => p.2.nextTimer) = [2] := by
  let actions : List TimerAction := [.register none "job".toList everyFiveMinutes, .start, .started [] 0,
    .timerFire "job".toList 0 (300 * 10 ^ 6)]
  have hexec : (exec (timerStep noCron) .new actions).any (fun r =>
      r.1.all (fun m => m.pre.jobs.all fun p => p.2.isFresh && (m.pre.starting = 0 || p.2.timers = [])) &&
        (r.2.jobs.map fun p => p.2.nextTimer) = [2]) = true := by decide +kernel
  obtain ⟨⟨history, s⟩, hexec, hboth⟩ := (Option.any_eq_true _ _).1 hexec
  simp only [Bool.and_eq_true, List.all_eq_true, Bool.or_eq_true, decide_eq_true_eq] at hboth
  obtain ⟨hjobs, hcount⟩ := hboth
  have hnext : ∀ job : TimedJob, job.isFresh = true → ∀ now call, now ≤ 300 * 10 ^ 6 →
      HasNextRun noCron job.reg.options.timing job.lastRunAt now call := by
    intro job hfresh now call hnow
    simp only [TimedJob.isFresh, Bool.and_eq_true, decide_eq_true_eq] at hfresh
    obtain ⟨hs, hi, -, hlast⟩ := hfresh
    refine hasNextRun_interval hs hi ⟨300, by decide, by decide, ?_⟩
    rw [hlast]
    simp only [intervalBase, maxDatetime]
    omega
  have hrun : GuardedRun (timerStep noCron) (KeepsTimers noCron) .new history s := by
    refine (run_of_exec hexec).restrict fun m hm => ?_
    have hact := act_mem_of_exec hexec m hm
    obtain ⟨-, -, hst⟩ := (run_of_exec hexec).of_mem (I := fun _ => True) trivial (fun _ _ _ _ _ _ => trivial) hm
    obtain ⟨pre, act, post⟩ := m
    simp only [actions, List.mem_cons, List.not_mem_nil, or_false] at hact
    rcases hact with rfl | rfl | rfl | rfl
    · trivial
    · trivial
    · intro id job hmem
      obtain ⟨hfresh, hidle⟩ := hjobs _ hm _ hmem
      have hstarting : 0 < pre.starting := by
        by_contra hnone
        simp [timerStep, hnone] at hst
      have hrun : job.reg.options.runOnStart = false := by
        simp only [TimedJob.isFresh, Bool.and_eq_true, decide_eq_true_eq] at hfresh
        exact hfresh.2.2.1
      have hrestored : (job.restore none).reg = job.reg := rfl
      refine ⟨hidle.resolve_left (Nat.ne_of_gt hstarting), fun _ => ⟨hnext job hfresh 0 {} (by omega), fun h => ?_⟩⟩
      rw [List.lookup_nil, hrestored, hrun] at h
      cases h
    · intro job hjob _ _
      exact hnext job (hjobs _ hm _ (mem_of_job? hjob)).1 _ _ (Nat.le_refl _)
  exact ⟨history, s, hrun, timers_settled hrun, hcount⟩

/-- An interval that `parse_interval` reads and no `datetime` reaches loses the timer; options changed while `start`
waits for the storage leave two. -/
theorem timers_lost_and_doubled :
    (∃ history s, Run (timerStep noCron) .new history s ∧ ∃ id job, (id, job) ∈ s.jobs ∧ job.processed = true ∧
      job.reg.status = .active ∧ job.reg.options.timing.isSet = true ∧ job.timers = []) ∧
    ∃ history s, Run (timerStep noCron) .new history s ∧ ∃ id job, (id, job) ∈ s.jobs ∧ job.timers.length = 2 := by
  constructor
  · have hexec : (exec (timerStep noCron) .new [.register none "job".toList everyFiveMinutes, .start, .started [] 0,
        .updateOptions "job".toList { interval := some "1000000000d".toList } 0]).any (fun r =>
        r.2.jobs.any fun p => p.2.processed && (p.2.reg.status = .active && (p.2.reg.options.timing.isSet &&
          p.2.timers = []))) = true := by decide +kernel
    obtain ⟨⟨history, s⟩, hexec, hjob⟩ := (Option.any_eq_true _ _).1 hexec
    obtain ⟨⟨id, job⟩, hmem, hjob⟩ := List.any_eq_true.1 hjob
    simp only [Bool.and_eq_true, decide_eq_true_eq] at hjob
    exact ⟨history, s, run_of_exec hexec, id, job, hmem, hjob⟩
  · have hexec : (exec (timerStep noCron) .new [.register none "job".toList everyFiveMinutes, .start,
        .updateOptions "job".toList { interval := some "1m".toList } 0, .started [] 0]).any (fun r =>
        r.2.jobs.any fun p => p.2.timers.length = 2) = true := by decide +kernel
    obtain ⟨⟨history, s⟩, hexec, hjob⟩ := (Option.any_eq_true _ _).1 hexec
    obtain ⟨⟨id, job⟩, hmem, hjob⟩ := List.any_eq_true.1 hjob
    exact ⟨history, s, run_of_exec hexec, id, job, hmem, of_decide_eq_true hjob⟩

end CliServer
