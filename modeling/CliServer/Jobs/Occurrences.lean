import CliServer.Jobs.Stopping

/-!
# Cron occurrences

A timer of a cron job that fires starts a run for the occurrence in `next_run_at` and schedules the next one: the one
after that occurrence or, when it is past, the one after the clock's time.  So however the clock jumps between the
timers, no occurrence is run twice.  But `update_options`, also of a description, and a second `start` schedule the
job anew from the clock alone: when a timer has fired early, or the clock has been set back, they can pick an
occurrence that has had its run (`occurrences_once_iff`).
-/

namespace CliServer

open Transition

/-! ### Occurrences and new timers -/

/-- The clock reading that a step schedules with. -/
def TimerAction.now? : TimerAction → Option Nat
  | .started _ now | .timerFire _ _ now | .resume _ now | .updateOptions _ _ now => some now
  | _ => none

/-- The occurrence that a move runs: `next_run_at` when a timer of the job fires in time. -/
def firedAt (id : Str) (m : Move TimedScheduler TimerAction) : Option Nat :=
  match m.act with
  | .timerFire job _ _ => do
    let before ← m.pre.job? id
    if job = id ∧ m.pre.running ∧ before.reg.status = .active then before.nextRunAt else none
  | _ => none

/-- The occurrences for which the timers of the job have started runs. -/
def fired (id : Str) (history : List (Move TimedScheduler TimerAction)) : List Nat := history.filterMap (firedAt id)

/-- The move creates a timer of the job. -/
def Schedules (id : Str) (m : Move TimedScheduler TimerAction) : Prop :=
  (m.post.job? id).map (·.nextTimer) ≠ (m.pre.job? id).map (·.nextTimer)

/-- The move leaves the job its status and its cron schedule. -/
def Steady (id : Str) (schedule : Str) (m : Move TimedScheduler TimerAction) : Prop :=
  ∃ job job', m.pre.job? id = some job ∧ m.post.job? id = some job' ∧ job'.reg.status = job.reg.status ∧
    given job.reg.options.schedule = some schedule ∧ given job'.reg.options.schedule = some schedule

/-- No occurrence is run twice, and every new `next_run_at` is later than the clock reading it is computed with and than
every occurrence that has been run. -/
structure OccurrencesOnce (id : Str) (history : List (Move TimedScheduler TimerAction)) : Prop where
  increasing : (fired id history).Pairwise (· < ·)
  later : ∀ before m after, history = before ++ m :: after → Schedules id m → ∃ now next, m.act.now? = some now ∧
    (m.post.job? id).bind (·.nextRunAt) = some next ∧ now < next ∧
    ∀ occurrence ∈ fired id (before ++ [m]), occurrence < next

/-- If the move schedules the job other than from a timer, the occurrence after its clock reading is later than every
occurrence that has been run. -/
def SchedulesLater (cron : Cron) (schedule : Str) (id : Str) (before : List (Move TimedScheduler TimerAction))
    (m : Move TimedScheduler TimerAction) : Prop :=
  (∀ timer now, m.act ≠ .timerFire id timer now) → Schedules id m → ∀ now, m.act.now? = some now →
    ∀ next, cron.next schedule now = some next → ∀ occurrence ∈ fired id before, occurrence < next

/-- `croniter` finds an occurrence after every time. -/
def Cron.Later (cron : Cron) (schedule : Str) : Prop :=
  ∀ time, ∃ next, cron.next schedule time = some next ∧ time < next

/-- A later time has no earlier next occurrence. -/
def Cron.Monotone (cron : Cron) (schedule : Str) : Prop := ∀ time time' next next', time ≤ time' →
  cron.next schedule time = some next → cron.next schedule time' = some next' → next ≤ next'

/-! ### One step -/

/-- The occurrence that `_schedule_next` picks is after the clock reading and after the one that fired. -/
private theorem cronDue_later {cron : Cron} {schedule : Str} (hcron : cron.Later schedule) (now : Nat)
    (firedAt : Option Nat) :
    ∃ next, cronDue cron schedule now firedAt = some next ∧ now < next ∧ ∀ occurrence ∈ firedAt, occurrence < next := by
  obtain ⟨next, hnext, hlater⟩ := hcron now
  cases firedAt with
  | none => exact ⟨next, hnext, hlater, fun _ h => by cases h⟩
  | some occurrence =>
    obtain ⟨following, hfollowing, hafter⟩ := hcron occurrence
    simp only [cronDue, hfollowing, Option.bind_eq_bind, Option.bind_some, Option.mem_some_iff, forall_eq']
    by_cases hpast : following ≤ now
    · rw [if_pos hpast]
      exact ⟨next, hnext, hlater, by omega⟩
    · rw [if_neg hpast]
      exact ⟨following, rfl, by omega, hafter⟩

/-- `_schedule_next` of a cron job. -/
private theorem scheduleNext_cron {cron : Cron} {schedule : Str} {now due : Nat} (call : ScheduleCall) (job : TimedJob)
    (hschedule : given job.reg.options.schedule = some schedule)
    (hdue : cronDue cron schedule now call.firedAt = some due) :
    job.scheduleNext cron true now call = some { job with
      nextRunAt := some due
      timerTask := some job.nextTimer
      timers := ⟨job.nextTimer, max (due - now) (10 ^ 5)⟩ :: job.timers
      nextTimer := job.nextTimer + 1 } := by
  have hnext : nextRun cron job.reg.options job.lastRunAt now call = some (some (due, max (due - now) (10 ^ 5))) := by
    simp only [nextRun, hschedule, hdue, Option.bind_eq_bind, Option.bind_some]
  simp only [TimedJob.scheduleNext, if_true, hnext, Option.bind_eq_bind, Option.bind_some]

/-- What a step that leaves a cron job its status and schedule does to its next run, `occurrence` being the one the step
runs: nothing, or it takes it away while no timer can start a run, or it schedules the job. -/
inductive CronEffect (cron : Cron) (schedule : Str) (running : Bool) (now? occurrence : Option Nat)
    (job job' : TimedJob) : Prop
  | kept (fires : occurrence = none) (nextTimer : job'.nextTimer = job.nextTimer)
      (nextRunAt : job'.nextRunAt = job.nextRunAt)
  | idle (fires : occurrence = none) (nextTimer : job'.nextTimer = job.nextTimer)
      (idle : running = true → job.reg.status ≠ .active)
  | scheduled (running : running = true) (active : job.reg.status = .active) (now next : Nat) (now? : now? = some now)
      (due : cronDue cron schedule now occurrence = some next) (nextRunAt : job'.nextRunAt = some next)
      (nextTimer : job'.nextTimer = job.nextTimer + 1)

theorem CronEffect.refl (cron : Cron) (schedule : Str) (running : Bool) (now? : Option Nat) (job : TimedJob) :
    CronEffect cron schedule running now? none job job := .kept rfl rfl rfl

/-- Scheduling an active job as the last thing that an operation does. -/
private theorem cronEffect_schedule {cron : Cron} {schedule : Str} (hcron : cron.Later schedule) {running : Bool}
    {now : Nat}
    (call : ScheduleCall) {job mid : TimedJob} (hschedule : given mid.reg.options.schedule = some schedule)
    (hactive : job.reg.status = .active) (htimer : mid.nextTimer = job.nextTimer)
    (hidle : running = false → call.firedAt = none) :
    CronEffect cron schedule running (some now) call.firedAt job (mid.schedule cron running now call) := by
  cases running with
  | false => exact .idle (hidle rfl) htimer fun h => by cases h
  | true =>
    obtain ⟨next, hdue, -, -⟩ := cronDue_later hcron now call.firedAt
    have hscheduled := scheduleNext_cron call mid hschedule hdue
    refine .scheduled rfl hactive now next rfl hdue ?_ ?_
    · rw [TimedJob.schedule, hscheduled, Option.getD_some]
    · rw [TimedJob.schedule, hscheduled, Option.getD_some, htimer]

/-- A timer of the job fires. -/
private theorem cronEffect_timerFire {cron : Cron} {schedule : Str} (hcron : cron.Later schedule) {running : Bool}
    {timer now : Nat} {job job' : TimedJob} (hschedule : given job'.reg.options.schedule = some schedule)
    (h : job.timerFire cron running timer now = some job') :
    CronEffect cron schedule running (some now)
      (if running ∧ job.reg.status = .active then job.nextRunAt else none) job job' := by
  have hstatus : (job.reg.timerFire running).status = job.reg.status := by
    unfold JobRegistration.timerFire
    split
    · exact status_launchDue _
    · rfl
  unfold TimedJob.timerFire at h
  split at h
  · dsimp only at h
    rw [hstatus] at h
    split at h
    next hactive =>
      obtain rfl := Option.some.inj h
      rw [if_pos hactive]
      rw [reg_schedule] at hschedule
      have hidle : running = false → job.nextRunAt = none := by
        rintro rfl
        cases hactive.1
      exact cronEffect_schedule hcron { afterFire := true, firedAt := job.nextRunAt } hschedule hactive.2 rfl hidle
    next hidle =>
      obtain rfl := Option.some.inj h
      rw [if_neg hidle]
      exact .kept rfl rfl rfl
  · cases h

/-- `update_options` that leaves the job its status. -/
private theorem cronEffect_updateOptions {cron : Cron} {schedule : Str} (hcron : cron.Later schedule) {running : Bool}
    {changes : OptionChanges} {now : Nat} {job job' : TimedJob}
    (hschedule : given job'.reg.options.schedule = some schedule)
    (h : job.updateOptions cron running changes now = some job') :
    CronEffect cron schedule running (some now) none job job' := by
  obtain ⟨reg, hreg, h⟩ := Option.bind_eq_some_iff.1 h
  have hstatus : reg.status = job.reg.status :=
    status_step (show (JobAction.updateOptions changes).setsStatus = false from rfl) hreg
  dsimp only at h
  split at h
  · obtain rfl := Option.some.inj h
    exact .kept rfl rfl rfl
  · split at h
    next hactive =>
      obtain rfl := Option.some.inj h
      rw [reg_schedule] at hschedule
      exact cronEffect_schedule hcron {} hschedule (hstatus ▸ hactive) rfl fun _ => rfl
    next =>
      obtain rfl := Option.some.inj h
      exact .kept rfl rfl rfl

/-- `start` comes to a job and leaves it its status. -/
private theorem cronEffect_start {cron : Cron} {schedule : Str} (hcron : cron.Later schedule) {running : Bool}
    {saved : Option JobState} {now : Nat} {job job' : TimedJob} (hstatus : job'.reg.status = job.reg.status)
    (hschedule : given job.reg.options.schedule = some schedule)
    (h : job.start cron running saved now = .error job' ∨ job.start cron running saved now = .ok job') :
    CronEffect cron schedule running (some now) none job job' := by
  have hrestored : (job.restore saved).reg.status = job.reg.status := (status_started h).symm.trans hstatus
  have hoptions : (job.restore saved).reg.options = job.reg.options := by
    unfold TimedJob.restore JobRegistration.restore
    dsimp only
    split
    · split <;> rfl
    · rfl
  unfold TimedJob.start at h
  dsimp only at h
  split at h
  next =>
    obtain rfl : job.restore saved = job' := by simpa using h
    exact .kept rfl rfl rfl
  next hactive =>
    have hactive : job.reg.status = .active := hrestored ▸ not_not.1 hactive
    split at h
    next =>
      obtain rfl : job.restore saved = job' := by simpa using h
      exact .kept rfl rfl rfl
    next due _ =>
      split at h
      next =>
        obtain rfl : job.restore saved = job' := by simpa using h
        exact .kept rfl rfl rfl
      next scheduled hscheduled =>
        obtain rfl : _ = job' := by simpa using h
        cases running with
        | false =>
          obtain rfl := Option.some.inj hscheduled
          exact .kept rfl rfl rfl
        | true =>
          obtain ⟨next, hdue, -, -⟩ := cronDue_later hcron now none
          have hnext := fun runNow => scheduleNext_cron { runNow := runNow } (job.restore saved)
            (hoptions ▸ hschedule) hdue
          obtain rfl := Option.some.inj ((hnext _).symm.trans hscheduled)
          exact .scheduled rfl hactive now next rfl hdue rfl rfl

/-! ### Steps of the scheduler -/

private theorem cronEffect_onJob {cron : Cron} {schedule : Str} {s s' : TimedScheduler} {id id' : Str}
    {job job' : TimedJob}
    {op : TimedJob → Option TimedJob} {now? occurrence : Option Nat} (hst : s.onJob id' op = some s')
    (hjob : s.job? id = some job) (hjob' : s'.job? id = some job') (hother : id' ≠ id → occurrence = none)
    (hop : id' = id → op job = some job' → CronEffect cron schedule s.running now? occurrence job job') :
    CronEffect cron schedule s.running now? occurrence job job' := by
  obtain ⟨job₁, job₁', hjob₁, hop₁, hjob₁', hothers⟩ := job?_onJob hst
  by_cases hid : id' = id
  · subst hid
    obtain rfl := Option.some.inj (hjob.symm.trans hjob₁)
    obtain rfl := Option.some.inj (hjob'.symm.trans hjob₁')
    exact hop rfl hop₁
  · have hsame := hothers id fun h => hid h.symm
    rw [hjob, hjob'] at hsame
    obtain rfl := Option.some.inj hsame
    rw [hother hid]
    exact .refl cron schedule s.running now? job'

private theorem cronEffect_onRuns {cron : Cron} {schedule : Str} {running : Bool} {a : JobAction} {job job' : TimedJob}
    (h : job.onRuns cron a = some job') : CronEffect cron schedule running none none job job' := by
  obtain ⟨reg, -, h⟩ := Option.bind_eq_some_iff.1 h
  obtain rfl := Option.some.inj h
  exact .kept rfl rfl rfl

/-- What a step that leaves the job its status and schedule does to the job's next run. -/
theorem Steady.effect {cron : Cron} {schedule id : Str} (hcron : cron.Later schedule) {s s' : TimedScheduler}
    {a : TimerAction} (hst : timerStep cron s a = some s') (h : Steady id schedule ⟨s, a, s'⟩) :
    ∃ job job', s.job? id = some job ∧ s'.job? id = some job' ∧ job'.reg.status = job.reg.status ∧
      CronEffect cron schedule s.running a.now? (firedAt id ⟨s, a, s'⟩) job job' := by
  obtain ⟨job, job', hjob, hjob', hstatus, hbefore, hafter⟩ := h
  refine ⟨job, job', hjob, hjob', hstatus, ?_⟩
  dsimp only at hjob hjob'
  cases a with
  | register id' name options =>
    simp only [timerStep] at hst
    split at hst
    · obtain rfl := Option.some.inj hst
      obtain ⟨p, hfind, rfl⟩ := Option.map_eq_some_iff.1 hjob
      have hkept : p.2 = job' := by simpa [TimedScheduler.job?, hfind] using hjob'
      rw [← hkept]
      exact .refl cron schedule s.running _ p.2
    · cases hst
  | start =>
    obtain rfl := Option.some.inj hst
    obtain rfl := Option.some.inj (hjob.symm.trans hjob')
    exact .refl cron schedule s.running _ job
  | started saved now =>
    simp only [timerStep] at hst
    split at hst
    · obtain rfl := Option.some.inj hst
      obtain ⟨p, hfind, rfl⟩ := Option.map_eq_some_iff.1 hjob
      obtain ⟨p', hfind', hp'⟩ := find?_startJobs_start cron s.running saved now hfind
      have hpost : p'.2 = job' := by simpa [TimedScheduler.job?, hfind'] using hjob'
      rw [hpost] at hp'
      rcases hp' with rfl | hstarted
      · exact .refl cron schedule s.running _ p.2
      · exact cronEffect_start hcron hstatus hbefore hstarted
    · cases hst
  | startFailed =>
    simp only [timerStep] at hst
    split at hst
    · obtain rfl := Option.some.inj hst
      obtain rfl := Option.some.inj (hjob.symm.trans hjob')
      exact .refl cron schedule s.running _ job
    · cases hst
  | timerFire id' timer now =>
    have hfired : id' = id → firedAt id ⟨s, .timerFire id' timer now, s'⟩ =
        if s.running ∧ job.reg.status = .active then job.nextRunAt else none := by
      rintro rfl
      simp [firedAt, hjob]
    refine cronEffect_onJob hst hjob hjob' (fun hne => ?_) fun heq hop => ?_
    · simp [firedAt, hjob, hne]
    · rw [hfired heq]
      exact cronEffect_timerFire hcron hafter hop
  | pause id' =>
    refine cronEffect_onJob hst hjob hjob' (fun _ => rfl) fun _ hop => ?_
    obtain ⟨reg, hreg, hop⟩ := Option.bind_eq_some_iff.1 hop
    obtain rfl := Option.some.inj hop
    unfold JobRegistration.pause at hreg
    split at hreg
    · cases hreg
    next hactive =>
      rw [← Option.some.inj hreg] at hstatus
      exact absurd hstatus.symm hactive
  | resume id' now =>
    refine cronEffect_onJob hst hjob hjob' (fun _ => rfl) fun _ hop => ?_
    obtain ⟨reg, hreg, hop⟩ := Option.bind_eq_some_iff.1 hop
    obtain rfl := Option.some.inj hop
    rw [reg_schedule] at hstatus
    unfold JobRegistration.resume at hreg
    split at hreg
    next hpaused =>
      rw [← Option.some.inj hreg, hpaused] at hstatus
      cases hstatus
    · cases hreg
  | stopJob id' =>
    refine cronEffect_onJob hst hjob hjob' (fun _ => rfl) fun _ hop => ?_
    obtain rfl := Option.some.inj hop
    have hstopped : JobStatus.stopped = job.reg.status := hstatus
    exact .idle rfl rfl fun _ => by rw [← hstopped]; decide
  | updateOptions id' changes now =>
    exact cronEffect_onJob hst hjob hjob' (fun _ => rfl) fun _ hop => cronEffect_updateOptions hcron hafter hop
  | trigger id' => exact cronEffect_onJob hst hjob hjob' (fun _ => rfl) fun _ hop => cronEffect_onRuns hop
  | triggered id' run answer =>
    exact cronEffect_onJob hst hjob hjob' (fun _ => rfl) fun _ hop => cronEffect_onRuns hop
  | cancelCurrent id' => exact cronEffect_onJob hst hjob hjob' (fun _ => rfl) fun _ hop => cronEffect_onRuns hop
  | runStep id' run answer => exact cronEffect_onJob hst hjob hjob' (fun _ => rfl) fun _ hop => cronEffect_onRuns hop
  | ran id' startedAt =>
    refine cronEffect_onJob hst hjob hjob' (fun _ => rfl) fun _ hop => ?_
    obtain rfl := Option.some.inj hop
    exact .kept rfl rfl rfl

/-- Only a timer of the job runs one of its occurrences. -/
private theorem firedAt_other {s s' : TimedScheduler} {a : TimerAction} {id : Str}
    (h : ∀ timer now, a ≠ .timerFire id timer now) : firedAt id ⟨s, a, s'⟩ = none := by
  cases a with
  | timerFire id' timer now =>
    have hne : id' ≠ id := by
      rintro rfl
      exact h timer now rfl
    cases hjob : s.job? id <;> simp [firedAt, hjob, hne]
  | _ => rfl

/-- A step while a timer of the job could start a run: a timer that runs the occurrence in `next_run_at`, or something
else. -/
private theorem firedAt_cases {s : TimedScheduler} {id : Str} {job : TimedJob} (hjob : s.job? id = some job)
    (hrunning : s.running = true) (hactive : job.reg.status = .active) (a : TimerAction) (s' : TimedScheduler) :
    firedAt id ⟨s, a, s'⟩ = job.nextRunAt ∨
      (∀ timer now, a ≠ .timerFire id timer now) ∧ firedAt id ⟨s, a, s'⟩ = none := by
  by_cases hfire : ∃ timer now, a = .timerFire id timer now
  · obtain ⟨timer, now, rfl⟩ := hfire
    left
    simp [firedAt, hjob, hrunning, hactive]
  · have hother : ∀ timer now, a ≠ .timerFire id timer now := fun timer now heq => hfire ⟨timer, now, heq⟩
    exact .inr ⟨hother, firedAt_other hother⟩

/-- A scheduler that runs goes on running. -/
private theorem running_timerStep {cron : Cron} {s s' : TimedScheduler} {a : TimerAction}
    (hst : timerStep cron s a = some s')
    (h : s.running = true) : s'.running = true := by
  have honJob : ∀ {id op}, s.onJob id op = some s' → s'.running = true := by
    intro id op hst
    obtain ⟨job, -, hst⟩ := Option.bind_eq_some_iff.1 hst
    obtain ⟨job', -, hst⟩ := Option.bind_eq_some_iff.1 hst
    obtain rfl := Option.some.inj hst
    exact h
  cases a with
  | register id name options =>
    simp only [timerStep] at hst
    split at hst
    · obtain rfl := Option.some.inj hst
      exact h
    · cases hst
  | start =>
    obtain rfl := Option.some.inj hst
    rfl
  | started saved now =>
    simp only [timerStep] at hst
    split at hst
    · obtain rfl := Option.some.inj hst
      exact h
    · cases hst
  | startFailed =>
    simp only [timerStep] at hst
    split at hst
    · obtain rfl := Option.some.inj hst
      exact h
    · cases hst
  | _ => exact honJob hst

/-! ### Runs of the scheduler -/

/-- The invariant: the occurrences that have been run increase, and the next run is later than all of them. -/
structure OccurrencesKept (id : Str) (occurrences : List Nat) (s : TimedScheduler) : Prop where
  increasing : occurrences.Pairwise (· < ·)
  next : occurrences ≠ [] → s.running = true ∧ ∃ job next, s.job? id = some job ∧ job.reg.status = .active ∧
    job.nextRunAt = some next ∧ ∀ occurrence ∈ occurrences, occurrence < next

private theorem fired_concat (id : Str) (history : List (Move TimedScheduler TimerAction))
    (m : Move TimedScheduler TimerAction) :
    fired id (history ++ [m]) = fired id history ++ (firedAt id m).toList := by
  rw [fired, List.filterMap_append]
  cases h : firedAt id m <;> simp [fired, h]

/-- A step that leaves the job its status and schedule, and picks a later occurrence if it schedules the job other than
from a timer. -/
theorem OccurrencesKept.step {cron : Cron} {schedule id : Str} (hcron : cron.Later schedule)
    {history : List (Move TimedScheduler TimerAction)} {s s' : TimedScheduler} {a : TimerAction}
    (h : OccurrencesKept id (fired id history) s) (hsteady : Steady id schedule ⟨s, a, s'⟩)
    (hlater : SchedulesLater cron schedule id history ⟨s, a, s'⟩) (hst : timerStep cron s a = some s') :
    OccurrencesKept id (fired id (history ++ [⟨s, a, s'⟩])) s' := by
  obtain ⟨job, job', hjob, hjob', hstatus, heffect⟩ := hsteady.effect hcron hst
  rw [fired_concat]
  cases heffect with
  | kept fires nextTimer nextRunAt =>
    rw [fires, Option.toList_none, List.append_nil]
    refine ⟨h.increasing, fun hne => ?_⟩
    obtain ⟨hrunning, job₁, next, hjob₁, hactive, hnext, hbelow⟩ := h.next hne
    obtain rfl := Option.some.inj (hjob.symm.trans hjob₁)
    exact ⟨running_timerStep hst hrunning, job', next, hjob', hstatus.trans hactive, nextRunAt.trans hnext, hbelow⟩
  | idle fires nextTimer idle =>
    have hnone : fired id history = [] := by
      by_contra hne
      obtain ⟨hrunning, job₁, next, hjob₁, hactive, -⟩ := h.next hne
      obtain rfl := Option.some.inj (hjob.symm.trans hjob₁)
      exact idle hrunning hactive
    rw [fires, hnone]
    exact ⟨.nil, fun hne => absurd rfl hne⟩
  | scheduled running active now next now? due nextRunAt nextTimer =>
    have hscheduled : ∀ {occurrences : List Nat}, occurrences.Pairwise (· < ·) →
        (∀ occurrence ∈ occurrences, occurrence < next) → OccurrencesKept id occurrences s' := fun hincreasing hbelow =>
      ⟨hincreasing, fun _ => ⟨running_timerStep hst running, job', next, hjob', hstatus.trans active, nextRunAt, hbelow⟩⟩
    -- The occurrences that have been run are before `next_run_at`, so before one that is run now.
    have hbefore : ∀ occurrence ∈ fired id history, ∃ pending, job.nextRunAt = some pending ∧ occurrence < pending := by
      intro occurrence hocc
      obtain ⟨-, job₁, pending, hjob₁, -, hnext, hbelow⟩ := h.next (List.ne_nil_of_mem hocc)
      obtain rfl := Option.some.inj (hjob.symm.trans hjob₁)
      exact ⟨pending, hnext, hbelow occurrence hocc⟩
    obtain ⟨next', hdue', -, hafter⟩ := cronDue_later hcron now (firedAt id ⟨s, a, s'⟩)
    obtain rfl := Option.some.inj (due.symm.trans hdue')
    rcases firedAt_cases hjob running active a s' with hfires | ⟨hother, hfires⟩
    · rw [hfires] at hafter ⊢
      cases hpending : job.nextRunAt with
      | none =>
        have hnone : fired id history = [] := by
          rw [List.eq_nil_iff_forall_not_mem]
          intro occurrence hocc
          obtain ⟨pending, hnext, -⟩ := hbefore occurrence hocc
          rw [hpending] at hnext
          cases hnext
        rw [hnone]
        exact hscheduled .nil fun _ h => by cases h
      | some pending =>
        have hbelow : ∀ occurrence ∈ fired id history, occurrence < pending := by
          intro occurrence hocc
          obtain ⟨pending', hnext, hlt⟩ := hbefore occurrence hocc
          rw [hpending] at hnext
          rw [Option.some.inj hnext]
          exact hlt
        have hlt : pending < next := hafter pending hpending
        refine hscheduled ?_ fun occurrence hocc => ?_
        · rw [List.pairwise_append]
          refine ⟨h.increasing, List.pairwise_singleton _ _, fun occurrence hocc pending' hmem => ?_⟩
          rw [List.mem_singleton.1 hmem]
          exact hbelow occurrence hocc
        · rcases List.mem_append.1 hocc with hocc | hocc
          · exact Nat.lt_trans (hbelow occurrence hocc) hlt
          · rw [List.mem_singleton.1 hocc]
            exact hlt
    · have hnew : Schedules id ⟨s, a, s'⟩ := by
        rw [Schedules, hjob, hjob', Option.map_some, Option.map_some, nextTimer]
        simp
      rw [hfires] at due ⊢
      rw [Option.toList_none, List.append_nil]
      exact hscheduled h.increasing (hlater hother hnew now now? next due)

private theorem occurrencesKept_of_run {cron : Cron} {schedule id : Str} (hcron : cron.Later schedule)
    {history : List (Move TimedScheduler TimerAction)} {s₀ s : TimedScheduler} (h : Run (timerStep cron) s₀ history s)
    (hsteady : ∀ m ∈ history, Steady id schedule m)
    (hlater : ∀ before m after, history = before ++ m :: after → SchedulesLater cron schedule id before m) :
    OccurrencesKept id (fired id history) s := by
  induction h with
  | start => exact ⟨.nil, fun h => absurd rfl h⟩
  | @step history s s' a _ _ hst ih =>
    have hmem : (⟨s, a, s'⟩ : Move TimedScheduler TimerAction) ∈ history ++ [⟨s, a, s'⟩] :=
      List.mem_append_right _ (List.mem_singleton.2 rfl)
    refine (ih (fun m hm => hsteady m (List.mem_append_left _ hm)) fun before m after heq => ?_).step hcron
      (hsteady _ hmem) (hlater history _ [] rfl) hst
    refine hlater before m (after ++ [⟨s, a, s'⟩]) ?_
    rw [heq, List.append_assoc, List.cons_append]

/-- A move that creates a timer sets `next_run_at` to the occurrence that `_schedule_next` picks. -/
theorem Schedules.due {cron : Cron} {schedule id : Str} (hcron : cron.Later schedule) {s s' : TimedScheduler}
    {a : TimerAction} (h : Schedules id ⟨s, a, s'⟩) (hsteady : Steady id schedule ⟨s, a, s'⟩)
    (hst : timerStep cron s a = some s') : ∃ job job' now next, s.job? id = some job ∧ s'.job? id = some job' ∧
      s.running = true ∧ job.reg.status = .active ∧ a.now? = some now ∧ job'.nextRunAt = some next ∧
      cronDue cron schedule now (firedAt id ⟨s, a, s'⟩) = some next := by
  obtain ⟨job, job', hjob, hjob', -, heffect⟩ := hsteady.effect hcron hst
  have hsame : job'.nextTimer ≠ job.nextTimer := by
    rw [Schedules, hjob, hjob'] at h
    exact fun heq => h (congrArg some heq)
  cases heffect with
  | kept fires nextTimer nextRunAt => exact absurd nextTimer hsame
  | idle fires nextTimer idle => exact absurd nextTimer hsame
  | scheduled running active now next now? due nextRunAt nextTimer =>
    exact ⟨job, job', now, next, hjob, hjob', running, active, now?, nextRunAt, due⟩

/-- While a job keeps its status and its cron schedule, no occurrence is run twice and every new `next_run_at` is later
than the occurrences run and than the clock, however the clock jumps, exactly when whatever schedules the job other than
a timer finds a later occurrence than those run. -/
theorem occurrences_once_iff {cron : Cron} {schedule id : Str} (hcron : cron.Later schedule)
    {history : List (Move TimedScheduler TimerAction)} {s₀ s : TimedScheduler} (h : Run (timerStep cron) s₀ history s)
    (hsteady : ∀ m ∈ history, Steady id schedule m) : OccurrencesOnce id history ↔
      ∀ before m after, history = before ++ m :: after → SchedulesLater cron schedule id before m := by
  constructor
  · rintro honce before ⟨s, a, s'⟩ after rfl hother hnew now hnow next hnext occurrence hocc
    obtain ⟨-, -, hst, -⟩ := h.at_move
    have hmem : (⟨s, a, s'⟩ : Move TimedScheduler TimerAction) ∈ before ++ ⟨s, a, s'⟩ :: after :=
      List.mem_append_right _ List.mem_cons_self
    obtain ⟨job, job', now', next', hjob, hjob', hrunning, hactive, hnow', hnext', hdue⟩ :=
      hnew.due hcron (hsteady _ hmem) hst
    obtain ⟨_, next₁, -, hnext₁, -, hbelow⟩ := honce.later before _ after rfl hnew
    have hpicked : next₁ = next := by
      have hpost : some next₁ = some next' := by
        rw [← hnext₁, ← hnext', hjob', Option.bind_some]
      rw [firedAt_other hother, ← Option.some.inj (hnow.symm.trans hnow')] at hdue
      rw [Option.some.inj hpost, ← Option.some.inj (hnext.symm.trans hdue)]
    rw [← hpicked]
    refine hbelow occurrence ?_
    rw [fired_concat]
    exact List.mem_append_left _ hocc
  · intro hlater
    refine ⟨(occurrencesKept_of_run hcron h hsteady hlater).increasing, ?_⟩
    rintro before ⟨s, a, s'⟩ after rfl hnew
    obtain ⟨hbefore, -, hst, -⟩ := h.at_move
    have hmem : (⟨s, a, s'⟩ : Move TimedScheduler TimerAction) ∈ before ++ ⟨s, a, s'⟩ :: after :=
      List.mem_append_right _ List.mem_cons_self
    have hpast : ∀ earlier m later, before ++ [⟨s, a, s'⟩] = earlier ++ m :: later →
        SchedulesLater cron schedule id earlier m := by
      intro earlier m later heq
      refine hlater earlier m (later ++ after) ?_
      rw [List.append_cons, heq, List.append_assoc, List.cons_append]
    have hkept := occurrencesKept_of_run hcron (.step hbefore trivial hst) (fun m hm => hsteady m (by
      rw [List.append_cons]
      exact List.mem_append_left _ hm)) hpast
    obtain ⟨job, job', now, next, -, hjob', -, -, hnow, hnext, hdue⟩ := hnew.due hcron (hsteady _ hmem) hst
    obtain ⟨next', hdue', hafter, -⟩ := cronDue_later hcron now (firedAt id ⟨s, a, s'⟩)
    obtain rfl := Option.some.inj (hdue.symm.trans hdue')
    have hpending : (s'.job? id).bind (·.nextRunAt) = some next := by
      rw [hjob', Option.bind_some, hnext]
    refine ⟨now, next, hnow, hpending, hafter, fun occurrence hocc => ?_⟩
    obtain ⟨-, job₁, next₁, hjob₁, -, hnext₁, hbelow⟩ := hkept.next (List.ne_nil_of_mem hocc)
    obtain rfl := Option.some.inj (hjob'.symm.trans hjob₁)
    rw [Option.some.inj (hnext.symm.trans hnext₁)]
    exact hbelow occurrence hocc

/-! ### A job that runs every minute -/

/-- A host whose schedules all have an occurrence at every full minute. -/
def everyMinute : Cron := ⟨fun _ => true, fun _ time => some ((time / (60 * 10 ^ 6) + 1) * (60 * 10 ^ 6))⟩

private theorem everyMinute_later (schedule : Str) : everyMinute.Later schedule := by
  intro time
  refine ⟨_, rfl, ?_⟩
  show time < (time / 60000000 + 1) * 60000000
  omega

private theorem everyMinute_monotone (schedule : Str) : everyMinute.Monotone schedule := by
  rintro time time' next next' h hnext hnext'
  rw [← Option.some.inj hnext, ← Option.some.inj hnext']
  show (time / 60000000 + 1) * 60000000 ≤ (time' / 60000000 + 1) * 60000000
  omega

/-- A job with the schedule `* * * * *`. -/
def minutely : CliJobOptions := { schedule := some "* * * * *".toList, maxConcurrentRuns_pos := Nat.one_pos }

/-- `Steady`, as a test. -/
def isSteady (id : Str) (schedule : Str) (m : Move TimedScheduler TimerAction) : Bool :=
  (m.pre.job? id).any fun job => (m.post.job? id).any fun job' => decide (job'.reg.status = job.reg.status) &&
    (given job.reg.options.schedule = some schedule && given job'.reg.options.schedule = some schedule)

private theorem steady_of_isSteady {id schedule : Str} {m : Move TimedScheduler TimerAction}
    (h : isSteady id schedule m = true) : Steady id schedule m := by
  obtain ⟨job, hjob, h⟩ := (Option.any_eq_true _ _).1 h
  obtain ⟨job', hjob', h⟩ := (Option.any_eq_true _ _).1 h
  simp only [Bool.and_eq_true, decide_eq_true_eq] at h
  exact ⟨job, job', hjob, hjob', h.1, h.2.1, h.2.2⟩

/-- A scheduler that has come to the minutely job at second 30. -/
def minutelyStarted : List TimerAction := [.register none "job".toList minutely, .start, .started [] (30 * 10 ^ 6)]

/-- The timers fire a tenth of a second early, then 80 seconds late, then when the clock has been set back to second
10. -/
theorem occurrences_once_three : ∃ earlier history s₀ s, Run (timerStep everyMinute) .new earlier s₀ ∧
    Run (timerStep everyMinute) s₀ history s ∧
    fired "job".toList history = [60 * 10 ^ 6, 120 * 10 ^ 6, 240 * 10 ^ 6] ∧ OccurrencesOnce "job".toList history := by
  let fires : List TimerAction := [.timerFire "job".toList 0 (599 * 10 ^ 5), .timerFire "job".toList 1 (200 * 10 ^ 6),
    .timerFire "job".toList 2 (10 * 10 ^ 6)]
  have hexec : (exec (timerStep everyMinute) .new minutelyStarted).any (fun r =>
      (exec (timerStep everyMinute) r.2 fires).any fun r' =>
        r'.1.all (isSteady "job".toList "* * * * *".toList) &&
          fired "job".toList r'.1 = [60 * 10 ^ 6, 120 * 10 ^ 6, 240 * 10 ^ 6]) = true := by decide +kernel
  obtain ⟨⟨earlier, s₀⟩, hearlier, hrest⟩ := (Option.any_eq_true _ _).1 hexec
  obtain ⟨⟨history, s⟩, hhistory, hboth⟩ := (Option.any_eq_true _ _).1 hrest
  simp only [Bool.and_eq_true, List.all_eq_true, decide_eq_true_eq] at hboth
  obtain ⟨hsteady, hfired⟩ := hboth
  have hrun := run_of_exec hhistory
  refine ⟨earlier, history, s₀, s, run_of_exec hearlier, hrun, hfired, ?_⟩
  refine (occurrences_once_iff (everyMinute_later _) hrun fun m hm => steady_of_isSteady (hsteady m hm)).2 ?_
  rintro before m after rfl hother
  have hact := act_mem_of_exec hhistory m (List.mem_append_right _ List.mem_cons_self)
  simp only [fires, List.mem_cons, List.not_mem_nil, or_false] at hact
  rcases hact with hact | hact | hact <;> exact absurd hact (hother _ _)

/-- A timer fires a tenth of a second early, the job gets a description, and the new timer runs the same occurrence. -/
theorem occurrence_run_twice :
    (∀ schedule, everyMinute.Later schedule ∧ everyMinute.Monotone schedule) ∧
    ∃ earlier history s₀ s, Run (timerStep everyMinute) .new earlier s₀ ∧ Run (timerStep everyMinute) s₀ history s ∧
      (∀ m ∈ history, Steady "job".toList "* * * * *".toList m) ∧
      fired "job".toList history = [60 * 10 ^ 6, 60 * 10 ^ 6] ∧ ¬ OccurrencesOnce "job".toList history := by
  refine ⟨fun schedule => ⟨everyMinute_later schedule, everyMinute_monotone schedule⟩, ?_⟩
  have hexec : (exec (timerStep everyMinute) .new minutelyStarted).any (fun r =>
      (exec (timerStep everyMinute) r.2 [.timerFire "job".toList 0 (599 * 10 ^ 5),
        .updateOptions "job".toList { description := some "minutely".toList } (599 * 10 ^ 5),
        .timerFire "job".toList 2 (60 * 10 ^ 6)]).any fun r' =>
        r'.1.all (isSteady "job".toList "* * * * *".toList) &&
          fired "job".toList r'.1 = [60 * 10 ^ 6, 60 * 10 ^ 6]) = true := by decide +kernel
  obtain ⟨⟨earlier, s₀⟩, hearlier, hrest⟩ := (Option.any_eq_true _ _).1 hexec
  obtain ⟨⟨history, s⟩, hhistory, hboth⟩ := (Option.any_eq_true _ _).1 hrest
  simp only [Bool.and_eq_true, List.all_eq_true, decide_eq_true_eq] at hboth
  obtain ⟨hsteady, hfired⟩ := hboth
  refine ⟨earlier, history, s₀, s, run_of_exec hearlier, run_of_exec hhistory,
    fun m hm => steady_of_isSteady (hsteady m hm), hfired, fun honce => ?_⟩
  have hincreasing := honce.increasing
  rw [hfired] at hincreasing
  exact absurd hincreasing (by decide)

end CliServer
