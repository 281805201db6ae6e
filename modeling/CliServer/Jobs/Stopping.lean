import CliServer.Jobs.Timers

/-!
# Stopped jobs

`stop_job` stops a job "permanently": no timer of the job starts a run any more, and its status stays `stopped`.
`resume` refuses a job that is not paused, and `update_options` and a timer that fires look for an active one; but
`pause` refuses only a job that is paused already.  So a stopped job stays stopped exactly as long as nobody pauses it
(`stop_permanent_iff`): paused, it can be resumed, and runs again (`stopped_job_runs`).
-/

namespace CliServer

open Transition

/-! ### One job of the scheduler -/

private theorem find?_onJob {id id' : Str} {job' : TimedJob} (jobs : List (Str × TimedJob)) :
    (jobs.map fun p => if p.1 = id then (id, job') else p).find? (fun p => p.1 = id') =
      (jobs.find? fun p => p.1 = id').map fun p => if p.1 = id then (id, job') else p := by
  induction jobs with
  | nil => rfl
  | cons p jobs ih =>
    have hname : (if p.1 = id then (id, job') else p).1 = p.1 := by
      split
      next h => exact h.symm
      next => rfl
    rw [List.map_cons, List.find?_cons, List.find?_cons, hname]
    split
    · rfl
    · exact ih

/-- What an operation on a job does to it, and to the others. -/
theorem job?_onJob {s s' : TimedScheduler} {id : Str} {op : TimedJob → Option TimedJob} (h : s.onJob id op = some s') :
    ∃ job job', s.job? id = some job ∧ op job = some job' ∧ s'.job? id = some job' ∧
      ∀ id', id' ≠ id → s'.job? id' = s.job? id' := by
  obtain ⟨job, hjob, h⟩ := Option.bind_eq_some_iff.1 h
  obtain ⟨job', hop, h⟩ := Option.bind_eq_some_iff.1 h
  obtain rfl := Option.some.inj h
  refine ⟨job, job', hjob, hop, ?_, fun id' hne => ?_⟩
  · obtain ⟨p, hfind, -⟩ := Option.map_eq_some_iff.1 hjob
    have hid : p.1 = id := by simpa using List.find?_some hfind
    rw [TimedScheduler.job?, find?_onJob, hfind, Option.map_some, Option.map_some, if_pos hid]
  · rw [TimedScheduler.job?, TimedScheduler.job?, find?_onJob]
    cases hfind : s.jobs.find? fun p => p.1 = id' with
    | none => rfl
    | some p =>
      have hid : p.1 = id' := by simpa using List.find?_some hfind
      rw [Option.map_some, if_neg fun heq => hne (hid.symm.trans heq)]

/-- `start`, going through a job, gives it the status it restores. -/
theorem status_started {cron : Cron} {running : Bool} {saved : Option JobState} {now : Nat} {job job' : TimedJob}
    (h : job.start cron running saved now = .error job' ∨ job.start cron running saved now = .ok job') :
    job'.reg.status = (job.reg.restore (saved.map (·.status))).status := by
  unfold TimedJob.start at h
  dsimp only at h
  split at h
  · obtain rfl : job.restore saved = job' := by simpa using h
    rfl
  · split at h
    · obtain rfl : job.restore saved = job' := by simpa using h
      rfl
    · split at h
      · obtain rfl : job.restore saved = job' := by simpa using h
        rfl
      · obtain rfl : _ = job' := by simpa using h
        exact (start_cases _ _ _).1

/-- When `start` has gone through the jobs, each is as it was or as `start` leaves it. -/
theorem find?_startJobs_start (cron : Cron) (running : Bool) (saved : List (Str × JobState)) (now : Nat) {id : Str}
    {p : Str × TimedJob} {jobs : List (Str × TimedJob)} (h : jobs.find? (fun p => p.1 = id) = some p) :
    ∃ p', (startJobs cron running saved now jobs).find? (fun p => p.1 = id) = some p' ∧ (p'.2 = p.2 ∨
      p.2.start cron running (saved.lookup id) now = .error p'.2 ∨
      p.2.start cron running (saved.lookup id) now = .ok p'.2) := by
  induction jobs with
  | nil => cases h
  | cons q jobs ih =>
    obtain ⟨id₀, job₀⟩ := q
    rw [List.find?_cons] at h
    by_cases hid : id₀ = id
    · subst hid
      simp only [decide_true, Option.some.injEq] at h
      subst h
      unfold startJobs
      split
      next job' hstart => exact ⟨(id₀, job'), by simp, .inr (.inl hstart)⟩
      next job' hstart => exact ⟨(id₀, job'), by simp, .inr (.inr hstart)⟩
    · simp only [hid, decide_false] at h
      obtain ⟨p', hfind, hp'⟩ := ih h
      unfold startJobs
      split
      next job' _ => exact ⟨p, by simpa [hid] using h, .inl rfl⟩
      next job' _ => exact ⟨p', by simpa [hid] using hfind, hp'⟩

/-- When `start` has gone through the jobs, each has the status it had or the one `start` restores for it. -/
private theorem find?_startJobs (cron : Cron) (running : Bool) (saved : List (Str × JobState)) (now : Nat) {id : Str}
    {p : Str × TimedJob} {jobs : List (Str × TimedJob)} (h : jobs.find? (fun p => p.1 = id) = some p) :
    ∃ p', (startJobs cron running saved now jobs).find? (fun p => p.1 = id) = some p' ∧ (p'.2 = p.2 ∨
      p'.2.reg.status = (p.2.reg.restore ((saved.lookup id).map (·.status))).status) := by
  obtain ⟨p', hfind, hp'⟩ := find?_startJobs_start cron running saved now h
  exact ⟨p', hfind, hp'.imp_right status_started⟩

/-! ### Staying stopped -/

/-- The job is registered and stopped. -/
def Stopped (id : Str) (s : TimedScheduler) : Prop := ∃ job, s.job? id = some job ∧ job.reg.status = .stopped

/-- After the move the job is stopped, and if it was a timer of the job that fired, the job's registration, with its
runs and the queued one, is as it was. -/
structure KeepsStopped (id : Str) (m : Move TimedScheduler TimerAction) : Prop where
  status : Stopped id m.post
  noRun : ∀ timer now, m.act = .timerFire id timer now →
    (m.post.job? id).map (·.reg) = (m.pre.job? id).map (·.reg)

/-- A `start` that waited for the storage restores no other status of the job than the one `stop_job` has saved. -/
def TimerAction.RestoresStopped (id : Str) : TimerAction → Prop
  | .started saved _ => ∀ state, saved.lookup id = some state → state.status = .stopped
  | _ => True

theorem reg_schedule {cron : Cron} {running : Bool} {now : Nat} {call : ScheduleCall} (job : TimedJob) :
    (job.schedule cron running now call).reg = job.reg := by
  unfold TimedJob.schedule
  cases h : job.scheduleNext cron running now call with
  | none => rfl
  | some job' => exact reg_scheduleNext h

/-- A timer of a stopped job fires. -/
private theorem timerFire_stopped {cron : Cron} {running : Bool} {timer now : Nat} {job job' : TimedJob}
    (hstopped : job.reg.status = .stopped) (h : job.timerFire cron running timer now = some job') :
    job'.reg = job.reg := by
  have hreg : job.reg.timerFire running = job.reg := by
    rw [JobRegistration.timerFire, hstopped]
    exact if_neg fun h => by cases h.2
  unfold TimedJob.timerFire at h
  split at h
  · dsimp only at h
    rw [hreg] at h
    split at h
    next hactive =>
      rw [hstopped] at hactive
      cases hactive.2
    next =>
      obtain rfl := Option.some.inj h
      rfl
  · cases h

/-- `update_options` of a stopped job. -/
private theorem updateOptions_stopped {cron : Cron} {running : Bool} {changes : OptionChanges} {now : Nat}
    {job job' : TimedJob}
    (hstopped : job.reg.status = .stopped) (h : job.updateOptions cron running changes now = some job') :
    job'.reg.status = .stopped := by
  obtain ⟨reg, hreg, h⟩ := Option.bind_eq_some_iff.1 h
  have hstatus : reg.status = .stopped := by
    have ha : (JobAction.updateOptions changes).setsStatus = false := rfl
    rw [status_step ha hreg, hstopped]
  split at h
  · obtain rfl := Option.some.inj h
    exact hstatus
  · rw [if_neg (by rw [hstatus]; decide)] at h
    obtain rfl := Option.some.inj h
    exact hstatus

private theorem onRuns_stopped {cron : Cron} {a : JobAction} {job job' : TimedJob} (ha : a.setsStatus = false)
    (hstopped : job.reg.status = .stopped) (h : job.onRuns cron a = some job') : job'.reg.status = .stopped := by
  obtain ⟨reg, hreg, h⟩ := Option.bind_eq_some_iff.1 h
  obtain rfl := Option.some.inj h
  rw [← hstopped]
  exact status_step ha hreg

theorem Stopped.onJob {s s' : TimedScheduler} {id id' : Str} {op : TimedJob → Option TimedJob} (h : Stopped id s)
    (hop : ∀ job job', job.reg.status = .stopped → op job = some job' → id' = id → job'.reg.status = .stopped)
    (hst : s.onJob id' op = some s') : Stopped id s' := by
  obtain ⟨job, hjob, hstopped⟩ := h
  obtain ⟨job₁, job₁', hjob₁, hop₁, hjob₁', hothers⟩ := job?_onJob hst
  by_cases hid : id' = id
  · subst hid
    obtain rfl := Option.some.inj (hjob.symm.trans hjob₁)
    exact ⟨job₁', hjob₁', hop job job₁' hstopped hop₁ rfl⟩
  · exact ⟨job, by rw [hothers id fun h => hid h.symm, hjob], hstopped⟩

/-- Nothing but `pause` changes the status of a stopped job. -/
theorem Stopped.step {cron : Cron} {id : Str} {s s' : TimedScheduler} {a : TimerAction} (h : Stopped id s)
    (hpause : a ≠ .pause id) (hsaved : a.RestoresStopped id) (hst : timerStep cron s a = some s') : Stopped id s' := by
  cases a with
  | register id' name options =>
    simp only [timerStep] at hst
    split at hst
    · obtain rfl := Option.some.inj hst
      obtain ⟨job, hjob, hstopped⟩ := h
      obtain ⟨p, hfind, rfl⟩ := Option.map_eq_some_iff.1 hjob
      exact ⟨p.2, by simp [TimedScheduler.job?, hfind], hstopped⟩
    · cases hst
  | start =>
    obtain rfl := Option.some.inj hst
    exact h
  | started saved now =>
    simp only [timerStep] at hst
    split at hst
    · obtain rfl := Option.some.inj hst
      obtain ⟨job, hjob, hstopped⟩ := h
      obtain ⟨p, hfind, rfl⟩ := Option.map_eq_some_iff.1 hjob
      obtain ⟨p', hfind', hp'⟩ := find?_startJobs cron s.running saved now hfind
      refine ⟨p'.2, by rw [TimedScheduler.job?, hfind', Option.map_some], ?_⟩
      rcases hp' with heq | hstatus
      · rw [heq, hstopped]
      · rw [hstatus]
        unfold JobRegistration.restore
        cases hlookup : saved.lookup id with
        | none => exact hstopped
        | some state =>
          dsimp only [Option.map_some]
          split
          · exact hsaved state hlookup
          · exact hstopped
    · cases hst
  | startFailed =>
    simp only [timerStep] at hst
    split at hst
    · obtain rfl := Option.some.inj hst
      exact h
    · cases hst
  | timerFire id' timer now =>
    refine h.onJob (fun job job' hstopped hop _ => ?_) hst
    rw [timerFire_stopped hstopped hop, hstopped]
  | pause id' => exact h.onJob (fun job job' _ _ hid => absurd (congrArg TimerAction.pause hid) hpause) hst
  | resume id' now =>
    refine h.onJob (fun job job' hstopped hop _ => ?_) hst
    obtain ⟨reg, hreg, -⟩ := Option.bind_eq_some_iff.1 hop
    rw [JobRegistration.resume, hstopped] at hreg
    cases hreg
  | stopJob id' =>
    refine h.onJob (fun job job' _ hop _ => ?_) hst
    obtain rfl := Option.some.inj hop
    rfl
  | updateOptions id' changes now => exact h.onJob (fun job job' hstopped hop _ => updateOptions_stopped hstopped hop) hst
  | trigger id' => exact h.onJob (fun job job' hstopped hop _ => onRuns_stopped rfl hstopped hop) hst
  | triggered id' run answer => exact h.onJob (fun job job' hstopped hop _ => onRuns_stopped rfl hstopped hop) hst
  | cancelCurrent id' => exact h.onJob (fun job job' hstopped hop _ => onRuns_stopped rfl hstopped hop) hst
  | runStep id' run answer => exact h.onJob (fun job job' hstopped hop _ => onRuns_stopped rfl hstopped hop) hst
  | ran id' startedAt =>
    refine h.onJob (fun job job' hstopped hop _ => ?_) hst
    obtain rfl := Option.some.inj hop
    exact hstopped

/-- A step of a stopped job that is not `pause` keeps it stopped. -/
private theorem keepsStopped_of_step {cron : Cron} {id : Str} {s s' : TimedScheduler} {a : TimerAction}
    (h : Stopped id s)
    (hpause : a ≠ .pause id) (hsaved : a.RestoresStopped id) (hst : timerStep cron s a = some s') :
    KeepsStopped id ⟨s, a, s'⟩ := by
  refine ⟨h.step hpause hsaved hst, ?_⟩
  rintro timer now rfl
  obtain ⟨job, hjob, hstopped⟩ := h
  obtain ⟨job₁, job', hjob₁, hop, hjob', -⟩ := job?_onJob hst
  obtain rfl := Option.some.inj (hjob.symm.trans hjob₁)
  rw [hjob, hjob', Option.map_some, Option.map_some, timerFire_stopped hstopped hop]

/-- `pause` ends the stop. -/
private theorem not_stopped_of_pause {cron : Cron} {id : Str} {s s' : TimedScheduler}
    (hst : timerStep cron s (.pause id) = some s') : ¬ Stopped id s' := by
  rintro ⟨job', hjob', hstopped⟩
  obtain ⟨job, job₁, -, hop, hjob₁, -⟩ := job?_onJob hst
  obtain rfl := Option.some.inj (hjob'.symm.trans hjob₁)
  obtain ⟨reg, hreg, hop⟩ := Option.bind_eq_some_iff.1 hop
  obtain rfl := Option.some.inj hop
  have hpaused : reg.status = .paused := by
    unfold JobRegistration.pause at hreg
    split at hreg
    · cases hreg
    · rw [← Option.some.inj hreg]
  have hboth : JobStatus.stopped = .paused := hstopped.symm.trans hpaused
  cases hboth

/-- What `stop_job` leaves: no run is queued, and the event of every run is set. -/
private theorem stopped_of_stopJob {cron : Cron} {id : Str} {s s' : TimedScheduler}
    (hst : timerStep cron s (.stopJob id) = some s') :
    ∃ job, s'.job? id = some job ∧ job.reg.status = .stopped ∧ job.reg.queued = false ∧
      ∀ run ∈ job.reg.runs.list, run.cancellation = true := by
  obtain ⟨job, job', -, hop, hjob', -⟩ := job?_onJob hst
  obtain rfl := Option.some.inj hop
  refine ⟨_, hjob', rfl, rfl, fun run hrun => ?_⟩
  obtain ⟨r, -, rfl⟩ := Runs.mem_cancel.1 hrun
  rfl

/-- When a job has been stopped, it is stopped, none of its runs is queued and all are cancelled; and from then on it
stays stopped and none of its timers starts a run, whatever is done, exactly as long as it is not paused. -/
theorem stop_permanent_iff {cron : Cron} {before after : List (Move TimedScheduler TimerAction)}
    {stop : Move TimedScheduler TimerAction} {s : TimedScheduler} {id : Str}
    (h : Run (timerStep cron) .new (before ++ stop :: after) s) (hstop : stop.act = .stopJob id)
    (hsaved : ∀ m ∈ after, m.act.RestoresStopped id) :
    (∃ job, stop.post.job? id = some job ∧ job.reg.status = .stopped ∧ job.reg.queued = false ∧
      ∀ run ∈ job.reg.runs.list, run.cancellation = true) ∧
    ((∀ m ∈ after, KeepsStopped id m) ↔ ∀ m ∈ after, m.act ≠ .pause id) := by
  obtain ⟨-, -, hst, hafter⟩ := h.at_move
  rw [hstop] at hst
  have hstopped := stopped_of_stopJob hst
  refine ⟨hstopped, fun hkeeps m hm hpause => ?_, fun hpause => ?_⟩
  · obtain ⟨-, -, hmove⟩ := hafter.of_mem (I := fun _ => True) trivial (fun _ _ _ _ _ _ => trivial) hm
    rw [hpause] at hmove
    exact not_stopped_of_pause hmove (hkeeps m hm).status
  · have hguarded : GuardedRun (timerStep cron) (fun _ a => a ≠ .pause id ∧ a.RestoresStopped id) stop.post after s :=
      hafter.restrict fun m hm => ⟨hpause m hm, hsaved m hm⟩
    have hstart : Stopped id stop.post := by
      obtain ⟨job, hjob, hstatus, -⟩ := hstopped
      exact ⟨job, hjob, hstatus⟩
    have hstep : ∀ s a t, Stopped id s → a ≠ .pause id ∧ TimerAction.RestoresStopped id a →
        timerStep cron s a = some t → Stopped id t := fun s a t hs hg hst => hs.step hg.1 hg.2 hst
    exact hguarded.forall_mem (P := fun s a t => KeepsStopped id ⟨s, a, t⟩) hstart hstep
      fun s a t hs hg hst => keepsStopped_of_step hs hg.1 hg.2 hst

/-- What the job's status and runs are. -/
def TimedScheduler.statusAndRuns (s : TimedScheduler) (id : Str) : Option (JobStatus × Nat) :=
  (s.job? id).map fun job => (job.reg.status, job.reg.taken)

/-- A stopped job that is run by hand and given an interval stays stopped. -/
theorem stop_permanent_five_minutes : ∃ before after stop s,
    Run (timerStep noCron) .new (before ++ stop :: after) s ∧ stop.act = .stopJob "job".toList ∧ after.length = 2 ∧
    ∀ m ∈ after, KeepsStopped "job".toList m := by
  let earlier : List TimerAction := [.register none "job".toList everyFiveMinutes, .start, .started [] 0]
  let later : List TimerAction :=
    [.trigger "job".toList, .updateOptions "job".toList { interval := some "1m".toList } 0]
  have hexec : (exec (timerStep noCron) .new (earlier ++ .stopJob "job".toList :: later)).isSome = true := by
    decide +kernel
  obtain ⟨⟨history, s⟩, hexec⟩ := Option.isSome_iff_exists.1 hexec
  obtain ⟨before, stop, after, rfl, -, hstop, hafter⟩ := split_of_exec hexec
  have hrun := run_of_exec hexec
  have hacts : ∀ m ∈ after, m.act ∈ later := fun m hm => hafter ▸ List.mem_map_of_mem hm
  refine ⟨before, after, stop, s, hrun, hstop, ?_, (stop_permanent_iff hrun hstop fun m hm => ?_).2.2 fun m hm hpause => ?_⟩
  · rw [← List.length_map, hafter]
    rfl
  · have hact := hacts m hm
    simp only [later, List.mem_cons, List.not_mem_nil, or_false] at hact
    rcases hact with hact | hact <;> (rw [hact]; trivial)
  · have hact := hacts m hm
    rw [hpause] at hact
    simp [later] at hact

/-- Paused and resumed, a stopped job runs when its timer fires. -/
theorem stopped_job_runs : ∃ before after stop s,
    Run (timerStep noCron) .new (before ++ stop :: after) s ∧ stop.act = .stopJob "job".toList ∧
    (∀ m ∈ after, m.act.RestoresStopped "job".toList) ∧ s.statusAndRuns "job".toList = some (.active, 1) ∧
    ∃ m ∈ after, m.act = .timerFire "job".toList 1 (300 * 10 ^ 6) ∧ ¬ KeepsStopped "job".toList m := by
  let earlier : List TimerAction := [.register none "job".toList everyFiveMinutes, .start, .started [] 0]
  let later : List TimerAction := [.pause "job".toList, .resume "job".toList 0]
  let fire : TimerAction := .timerFire "job".toList 1 (300 * 10 ^ 6)
  have hexec : (exec (timerStep noCron) .new (earlier ++ .stopJob "job".toList :: (later ++ [fire]))).any
      (fun r => r.2.statusAndRuns "job".toList = some (.active, 1)) = true := by decide +kernel
  obtain ⟨⟨history, s⟩, hexec, hruns⟩ := (Option.any_eq_true _ _).1 hexec
  have hruns := of_decide_eq_true hruns
  obtain ⟨before, stop, after, rfl, -, hstop, hafter⟩ := split_of_exec hexec
  have hrun := run_of_exec hexec
  obtain ⟨first, rest, rfl, hfirst, hrest⟩ := List.map_eq_append_iff.1 hafter
  obtain ⟨m, hm, hact⟩ := List.map_eq_singleton_iff.1 hrest
  subst hm
  refine ⟨before, first ++ [m], stop, s, hrun, hstop, fun m' hm' => ?_, hruns, m, by simp, hact, fun hkeeps => ?_⟩
  · have hact' : m'.act ∈ later ++ [fire] := hafter ▸ List.mem_map_of_mem hm'
    simp only [later, fire, List.mem_append, List.mem_cons, List.not_mem_nil, or_false] at hact'
    rcases hact' with (hact' | hact') | hact' <;> (rw [hact']; trivial)
  · have hsplit : before ++ stop :: (first ++ [m]) = (before ++ stop :: first) ++ [m] := by simp
    rw [hsplit] at hrun
    obtain ⟨-, -, -, hpost⟩ := hrun.last
    obtain ⟨job, hjob, hstopped⟩ := hkeeps.status
    rw [hpost] at hjob
    rw [TimedScheduler.statusAndRuns, hjob, Option.map_some, hstopped] at hruns
    cases hruns

end CliServer
