import CliServer.Jobs.Slots

/-!
# Slots are given back

A run takes its slot when it is admitted; its task gives it back, however it ends.  `trigger` publishes an event
between the two, and `_broadcast` catches no `CancelledError`: a `trigger` call cancelled there leaves a run that has no
task (`slot_leaks`).  When no trigger call is cancelled there, every run has a task or a trigger call that is about to
launch it (`no_slot_leak`).
-/

namespace CliServer

open Transition

/-- The run belongs to a `trigger` call that has not launched it yet. -/
def JobRun.admitting (run : JobRun) : Bool := run.phase = .admitted

/-- The run has a task. -/
def JobRun.hasTask (run : JobRun) : Bool := run.phase ≠ .admitted ∧ run.phase ≠ .abandoned

/-- The `trigger` calls are not cancelled between admission and launch. -/
def TriggersComplete (a : JobAction) : Prop := ∀ i, a ≠ .triggered i .cancelled

instance (a : JobAction) : Decidable (TriggersComplete a) :=
  match a with
  | .triggered i .cancelled => .isFalse fun h => h i rfl
  | .triggered _ .ok | .triggered _ .error | .triggered _ .timeout | .triggered _ .escaped => .isTrue fun _ h => by cases h
  | .start _ _ | .timerFire _ | .trigger | .pause | .resume | .stopJob | .stop | .cancelCurrent
  | .updateOptions _ | .runStep _ _ => .isTrue fun _ h => by cases h

/-- Every run is about to be launched or has a task. -/
def NoLeak (reg : JobRegistration) : Prop :=
  ∀ run ∈ reg.runs.list, run.admitting = true ∨ run.hasTask = true

private theorem admitting_or_hasTask {run : JobRun} :
    run.admitting = true ∨ run.hasTask = true ↔ run.phase ≠ .abandoned := by
  cases h : run.phase <;> simp [JobRun.admitting, JobRun.hasTask, h]

/-- A task never gets to a phase without a task. -/
private theorem proceed_phase {o : CliJobOptions} {c : Bool} {p p' : Phase} {answer : Answer}
    (h : proceed o c p answer = some (.goto p')) : p' ≠ .admitted ∧ p' ≠ .abandoned := by
  unfold proceed at h
  split at h <;> grind [callJob, afterAttempt]

/-- When no trigger call is cancelled before it launches its run, no step leaves a run without a task. -/
private theorem noLeak_step {isCron : Str → Bool} {reg reg' : JobRegistration} {a : JobAction} (hn : NoLeak reg)
    (hg : TriggersComplete a) (h : step isCron reg a = some reg') : NoLeak reg' := by
  intro run' hrun'
  rw [admitting_or_hasTask]
  cases runEffect h run' hrun' with
  | fresh id cancellation phase => rcases phase with h | h <;> rw [h] <;> simp
  | same mem => exact admitting_or_hasTask.1 (hn run' mem)
  | set run mem cancelled eq =>
    subst eq
    exact admitting_or_hasTask.1 (hn run mem)
  | announced run mem answer act admitted eq =>
    subst eq
    have hanswer : answer ≠ .cancelled := fun hc => hg run.id (hc ▸ act)
    simp [hanswer]
  | moved run mem answer act phase next eq =>
    subst eq
    exact (proceed_phase next).2
  | timedOut run mem answer act phase next eq =>
    subst eq
    obtain ⟨k, -, rfl⟩ := proceed_cancelGoto next
    simp

/-- The end of a task gives its slot back. -/
theorem release_notMem (reg : JobRegistration) {run : JobRun} (h : run ∈ reg.runs.list) :
    run.id ∉ (reg.release run.id).runs.ids := by
  intro hid
  have hlt := reg.runs.fresh run h
  obtain ⟨run', hrun', hid'⟩ := Runs.mem_ids.1 hid
  rcases startQueued_cases { reg with runs := reg.runs.remove run.id } with ⟨heq, -⟩ | ⟨-, -, heq⟩
  · rw [JobRegistration.release, heq] at hrun'
    exact (Runs.mem_remove.1 hrun').2 hid'
  · rw [JobRegistration.release, heq] at hrun'
    obtain ⟨r, hr, rfl⟩ := Runs.mem_setPhase.1 hrun'
    have hr' : r.id = run.id := by
      rw [← hid']
      split <;> rfl
    rcases Runs.mem_add.1 hr with hr | rfl
    · exact (Runs.mem_remove.1 hr).2 hr'
    · exact absurd hr' (Nat.ne_of_gt hlt)

/-- A step of a task ends it and gives its slot back, or the task goes on. -/
private theorem runStep_slot {reg reg' : JobRegistration} {run : JobRun} {answer : Answer} (hmem : run ∈ reg.runs.list)
    (h : runStep reg run.id answer = some reg') :
    run.id ∉ reg'.runs.ids ∨ ∃ run' ∈ reg'.runs.list, run'.id = run.id ∧ run'.hasTask = true := by
  obtain ⟨r, hr, h⟩ := Option.bind_eq_some_iff.1 h
  obtain ⟨hrmem, hrid⟩ := Runs.get?_eq_some.1 hr
  obtain rfl := Runs.eq_of_id_eq hrmem hmem hrid
  obtain ⟨next, hnext, h⟩ := Option.bind_eq_some_iff.1 h
  cases next with
  | goto phase =>
    obtain rfl := Option.some.inj h
    right
    refine ⟨{ r with phase := phase }, Runs.mem_setPhase.2 ⟨r, hmem, if_pos rfl⟩, rfl, ?_⟩
    simpa [JobRun.hasTask] using proceed_phase hnext
  | cancelGoto phase =>
    obtain rfl := Option.some.inj h
    obtain ⟨k, -, rfl⟩ := proceed_cancelGoto hnext
    right
    refine ⟨{ r with cancellation := true, phase := .reporting k .timedOut false }, ?_, rfl, rfl⟩
    exact Runs.mem_setPhase.2 ⟨{ r with cancellation := true }, Runs.mem_cancel.2 ⟨r, hmem, by simp⟩, if_pos rfl⟩
  | ended =>
    obtain rfl := Option.some.inj h
    exact .inl (release_notMem reg hmem)

/-- A job without runs can run. -/
private theorem trigger_of_no_runs {reg : JobRegistration} (h : reg.runs.list = []) :
    ∃ reg', reg.trigger = some reg' ∧ reg'.runs.ids = [reg.runs.next] := by
  have hfree : reg.taken < reg.limit := by
    rw [JobRegistration.taken, h]
    exact reg.options.maxConcurrentRuns_pos
  refine ⟨reg.takeSlot, ?_, ?_⟩
  · simp only [JobRegistration.trigger, JobRegistration.admitRun, if_pos hfree]
  · show reg.runs.add.ids = [reg.runs.next]
    rw [Runs.ids_add, Runs.ids, h]
    rfl

/-- In a run of the scheduler in which no `trigger` call is cancelled before it launches its run, every run of every
job belongs to such a call or has a task, a step of a task gives the slot back when it ends the task, and a job with
neither has no run and can run again. -/
theorem no_slot_leak {ι : Type} [DecidableEq ι] (isCron : Str → Bool) (options : ι → CliJobOptions)
    {ms : List (Move (ι → JobRegistration) (ι × JobAction))} {jobs : ι → JobRegistration}
    (h : GuardedRun (Component.stepAt fun _ => step isCron) (fun _ a => TriggersComplete a.2)
      (fun id => .register (options id)) ms jobs) (id : ι) :
    (∀ run ∈ (jobs id).runs.list, run.admitting = true ∨ run.hasTask = true) ∧
    (∀ run ∈ (jobs id).runs.list, ∀ answer reg', step isCron (jobs id) (.runStep run.id answer) = some reg' →
      run.id ∉ reg'.runs.ids ∨ ∃ run' ∈ reg'.runs.list, run'.id = run.id ∧ run'.hasTask = true) ∧
    ((∀ run ∈ (jobs id).runs.list, run.admitting = false ∧ run.hasTask = false) → (jobs id).runs.list = [] ∧
      ∃ reg', step isCron (jobs id) .trigger = some reg' ∧ reg'.runs.ids = [(jobs id).runs.next]) := by
  have hno : NoLeak (jobs id) :=
    (Component.project (G := fun _ _ a => TriggersComplete a) h id).invariant (fun run hrun => by cases hrun)
      fun _ _ _ hn hg hst => noLeak_step hn hg hst
  refine ⟨hno, fun run hrun answer reg' hst => runStep_slot hrun hst, fun hnone => ?_⟩
  have hempty : (jobs id).runs.list = [] := by
    refine List.eq_nil_iff_forall_not_mem.2 fun run hrun => ?_
    obtain ⟨ha, ht⟩ := hnone run hrun
    rcases hno run hrun with h | h
    · rw [ha] at h
      cases h
    · rw [ht] at h
      cases h
  exact ⟨hempty, trigger_of_no_runs hempty⟩

/-- A triggered run goes through a failing attempt; its retry is cancelled by a `CancelledError` of the storage. -/
theorem no_slot_leak_cancelled_storage : ∃ ms jobs,
    Run (Component.stepAt fun _ : Unit => step fun _ => false) (fun _ => .register {}) ms jobs ∧
    (jobs ()).runs.list = [] ∧ ∃ reg', step (fun _ => false) (jobs ()) .trigger = some reg' ∧
      reg'.runs.ids = [(jobs ()).runs.next] := by
  let actions : List (Unit × JobAction) := [((), .trigger), ((), .triggered 0 .error), ((), .runStep 0 .ok),
    ((), .runStep 0 .ok), ((), .runStep 0 .ok), ((), .runStep 0 .error), ((), .runStep 0 .ok), ((), .runStep 0 .ok),
    ((), .runStep 0 .ok), ((), .runStep 0 .ok), ((), .runStep 0 .timeout), ((), .runStep 0 .cancelled)]
  have hexec : ((exec (Component.stepAt fun _ : Unit => step fun _ => false) (fun _ => .register {}) actions).map
      fun r => decide ((∀ m ∈ r.1, TriggersComplete m.act.2) ∧
        ∀ run ∈ (r.2 ()).runs.list, run.admitting = false ∧ run.hasTask = false)) = some true := by decide
  obtain ⟨⟨ms, jobs⟩, hms, hexec⟩ := Option.map_eq_some_iff.1 hexec
  obtain ⟨hg, hnone⟩ := of_decide_eq_true hexec
  exact ⟨ms, jobs, run_of_exec hms, (no_slot_leak _ _ ((run_of_exec hms).restrict hg) ()).2.2 hnone⟩

/-- A `trigger` call cancelled while it publishes `job:triggered` leaves its run without a task; every slot is taken. -/
theorem slot_leaks : ∃ ms reg, Run (step fun _ => false) (.register {}) ms reg ∧ reg.trigger.isNone = true ∧
    ∃ run ∈ reg.runs.list, run.admitting = false ∧ run.hasTask = false := by
  have hexec : ((exec (step fun _ => false) (.register {}) [.trigger, .triggered 0 .cancelled]).map fun r =>
      decide (r.2.trigger.isNone = true ∧ ∃ run ∈ r.2.runs.list, run.admitting = false ∧ run.hasTask = false)) =
      some true := by decide
  obtain ⟨⟨ms, reg⟩, hms, hexec⟩ := Option.map_eq_some_iff.1 hexec
  obtain ⟨htrigger, hrun⟩ := of_decide_eq_true hexec
  exact ⟨ms, reg, run_of_exec hms, htrigger, hrun⟩

end CliServer
