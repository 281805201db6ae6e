import CliServer.Jobs.Slots

/-!
# Cancellation of a run

A run looks at its cancellation event when an attempt ends and while it waits a positive time for a retry, but not
between the moment it takes its slot and its first call of the job, nor around a retry without delay.  Cancelled at one
of these places it calls the job once more (`calls_job_after_cancel`).  Cancelled anywhere else, and with no retry timer
that runs out on a cancelled run, it never does (`no_call_after_cancel`): a cancelled run is then never at such a place
(`Settled`).
-/

namespace CliServer

open Transition

/-- The places between which a run calls the job without a look at its event. -/
def Phase.unchecked : Phase → Bool
  | .admitted | .launched | .saving _ | .starting _ => true
  | .retrying _ delay | .waiting _ delay => delay = 0
  | _ => false

/-- Whether a run waits for a retry. -/
def Phase.isWaiting : Phase → Bool
  | .waiting _ _ => true
  | _ => false

/-- Whether the event of run `i` is set. -/
def JobRegistration.isCancelled (reg : JobRegistration) (i : RunId) : Bool :=
  (reg.runs.get? i).any JobRun.cancellation

/-- The move in which run `i` calls `job.execute_async`. -/
def callsJob (m : Move JobRegistration JobAction) (i : RunId) : Bool :=
  match (m.pre.runs.get? i).map JobRun.phase, (m.post.runs.get? i).map JobRun.phase with
  | some (.starting _), some (.executing _) => true
  | _, _ => false

/-- An action that cancels no run between its last look at the event and the call of the job, and is not the retry
timer of a run already cancelled. -/
structure CancelsInTime (reg : JobRegistration) (a : JobAction) : Prop where
  places : ∀ run ∈ reg.cancelledBy a, run.cancellation = false → run.phase.unchecked = false
  timers : ∀ run ∈ reg.runs.list, a = .runStep run.id .timeout → run.cancellation = true → run.phase.isWaiting = false

instance (reg : JobRegistration) (a : JobAction) : Decidable (CancelsInTime reg a) :=
  decidable_of_iff
    ((∀ run ∈ reg.cancelledBy a, run.cancellation = false → run.phase.unchecked = false) ∧
      ∀ run ∈ reg.runs.list, a = .runStep run.id .timeout → run.cancellation = true → run.phase.isWaiting = false)
    ⟨fun h => ⟨h.1, h.2⟩, fun h => ⟨h.1, h.2⟩⟩

/-- No cancelled run is at a place from which it calls the job unchecked. -/
def Settled (reg : JobRegistration) : Prop :=
  ∀ run ∈ reg.runs.list, run.cancellation = true → run.phase.unchecked = false

@[simp] theorem afterAttempt_cancelled (o : CliJobOptions) (k : Nat) (status : ExecutionStatus) :
    afterAttempt o true k status = .ended := by
  simp [afterAttempt]

/-- A cancelled run moves on to places where it looks at its event, unless its retry timer runs out. -/
private theorem proceed_settled {o : CliJobOptions} {p p' : Phase} {answer : Answer}
    (h : proceed o true p answer = some (.goto p')) (hp : p.unchecked = false)
    (ht : answer = .timeout → p.isWaiting = false) : p'.unchecked = false := by
  cases p with
  | admitted | launched | saving _ | starting _ => cases hp
  | abandoned => cases h
  | executing k =>
    cases answer with
    | escaped => cases h
    | _ =>
      cases h
      rfl
  | reporting k status caught =>
    cases answer with
    | cancelled =>
      cases caught with
      | true =>
        cases h
        rfl
      | false => cases h
    | escaped => cases h
    | _ =>
      cases h
      rfl
  | finishing k status =>
    cases answer with
    | ok =>
      cases h
      rfl
    | _ => cases h
  | persisting k status =>
    have hfinal : ∀ {n : Next}, n = (if status = .completed then .goto (.completing k) else .ended) → n = .goto p' →
        p'.unchecked = false := by
      rintro n rfl hn
      split at hn
      · cases hn
        rfl
      · cases hn
    cases answer with
    | cancelled => cases h
    | escaped => cases h
    | _ => exact hfinal (by rw [afterAttempt_cancelled]) (Option.some.inj h)
  | completing k => cases answer <;> simp [proceed] at h
  | retrying k delay =>
    have hdelay : 0 < delay := Nat.pos_of_ne_zero (by simpa [Phase.unchecked] using hp)
    cases answer <;> simp [proceed, hdelay] at h
  | waiting k delay =>
    cases answer with
    | timeout => exact absurd (ht rfl) (by simp [Phase.isWaiting])
    | ok =>
      simp only [proceed] at h
      split at h <;> cases h
    | _ => cases h

/-- Cancelling in time keeps every cancelled run where it looks at its event. -/
private theorem settled_step {isCron : Str → Bool} {reg reg' : JobRegistration} {a : JobAction} (hs : Settled reg)
    (hg : CancelsInTime reg a) (h : step isCron reg a = some reg') : Settled reg' := by
  intro run' hrun' hc
  cases runEffect h run' hrun' with
  | fresh id cancellation phase =>
    rw [cancellation] at hc
    cases hc
  | same mem => exact hs run' mem hc
  | set run mem cancelled eq =>
    subst eq
    cases hrc : run.cancellation with
    | false => exact hg.places run cancelled hrc
    | true => exact hs run mem hrc
  | announced run mem answer act admitted eq =>
    subst eq
    have hunchecked := hs run mem hc
    rw [admitted] at hunchecked
    cases hunchecked
  | moved run mem answer act phase next eq =>
    subst eq
    have hrc : run.cancellation = true := hc
    rw [hrc] at next
    refine proceed_settled next (hs run mem hrc) fun ht => ?_
    exact hg.timers run mem (ht ▸ act) hrc
  | timedOut run mem answer act phase next eq =>
    subst eq
    obtain ⟨k, -, rfl⟩ := proceed_cancelGoto next
    rfl

/-- Numbers of runs are not used twice. -/
theorem next_le_step {isCron : Str → Bool} {reg reg' : JobRegistration} {a : JobAction}
    (h : step isCron reg a = some reg') : reg.runs.next ≤ reg'.runs.next := by
  cases slotEffect h with
  | keep same _ => exact same.next.ge
  | take _ _ _ next _ _ => exact next ▸ Nat.le_succ _
  | wait _ _ same _ => exact same.next.ge
  | drop _ same _ => exact same.next.ge
  | serve mid _ _ next _ _ _ post_eq =>
    subst post_eq
    rcases startQueued_cases mid with ⟨h, -⟩ | ⟨-, -, h⟩
    · rw [h, next]
    · rw [h, ← next]
      exact Nat.le_succ _

/-- Run `i` has been cancelled: it is one of the runs and its event is set, or it has ended. -/
def PastCancel (i : RunId) (reg : JobRegistration) : Prop :=
  i < reg.runs.next ∧ ∀ run ∈ reg.runs.list, run.id = i → run.cancellation = true

private theorem isCancelled_iff {reg : JobRegistration} {i : RunId} :
    reg.isCancelled i = true ↔ ∃ run ∈ reg.runs.list, run.id = i ∧ run.cancellation = true := by
  simp only [JobRegistration.isCancelled, Option.any_eq_true, Runs.get?_eq_some, and_assoc]

private theorem pastCancel_of_isCancelled {reg : JobRegistration} {i : RunId} (h : reg.isCancelled i = true) :
    PastCancel i reg := by
  obtain ⟨run, hrun, rfl, hc⟩ := isCancelled_iff.1 h
  refine ⟨reg.runs.fresh run hrun, fun r hr hid => ?_⟩
  rw [Runs.eq_of_id_eq hr hrun hid]
  exact hc

/-- Events are never cleared. -/
private theorem pastCancel_step {isCron : Str → Bool} {reg reg' : JobRegistration} {a : JobAction} {i : RunId}
    (hp : PastCancel i reg) (h : step isCron reg a = some reg') : PastCancel i reg' := by
  refine ⟨Nat.lt_of_lt_of_le hp.1 (next_le_step h), fun run' hrun' hid => ?_⟩
  cases runEffect h run' hrun' with
  | fresh id cancellation phase => exact absurd (hid.symm.trans id) (Nat.ne_of_lt hp.1)
  | same mem => exact hp.2 run' mem hid
  | set run mem cancelled eq => rw [eq]
  | announced run mem answer act admitted eq =>
    subst eq
    exact hp.2 run mem hid
  | moved run mem answer act phase next eq =>
    subst eq
    exact hp.2 run mem hid
  | timedOut run mem answer act phase next eq => rw [eq]

/-- A run that is cancelled and settled does not call the job. -/
private theorem not_callsJob {m : Move JobRegistration JobAction} {i : RunId} (hs : Settled m.pre)
    (hp : PastCancel i m.pre) : callsJob m i = false := by
  unfold callsJob
  cases hrun : m.pre.runs.get? i with
  | none => rfl
  | some run =>
    obtain ⟨hmem, hid⟩ := Runs.get?_eq_some.1 hrun
    have hunchecked := hs run hmem (hp.2 run hmem hid)
    cases hphase : run.phase with
    | starting k =>
      rw [hphase] at hunchecked
      cases hunchecked
    | _ => simp [hphase]

/-- In a run of the scheduler whose steps all cancel in time, a run whose event is set never calls the
job again. -/
theorem no_call_after_cancel {ι : Type} [DecidableEq ι] (isCron : Str → Bool) (options : ι → CliJobOptions)
    {ms ms' : List (Move (ι → JobRegistration) (ι × JobAction))} {jobs jobs' : ι → JobRegistration}
    (h : GuardedRun (Component.stepAt fun _ => step isCron) (fun f a => CancelsInTime (f a.1) a.2)
      (fun id => .register (options id)) ms jobs)
    (h' : GuardedRun (Component.stepAt fun _ => step isCron) (fun f a => CancelsInTime (f a.1) a.2) jobs ms' jobs')
    (id : ι) (i : RunId) (hc : (jobs id).isCancelled i = true) :
    ∀ m ∈ Component.movesAt id ms', callsJob m i = false := by
  have hrun := Component.project (G := fun _ => CancelsInTime) h id
  have hrun' := Component.project (G := fun _ => CancelsInTime) h' id
  have hsettled : Settled (jobs id) :=
    hrun.invariant (fun run hrun => by cases hrun) fun _ _ _ hs hg hst => settled_step hs hg hst
  exact hrun'.forall_mem (I := fun reg => Settled reg ∧ PastCancel i reg)
    (P := fun s a t => callsJob ⟨s, a, t⟩ i = false)
    ⟨hsettled, pastCancel_of_isCancelled hc⟩
    (fun _ _ _ hI hg hst => ⟨settled_step hI.1 hg hst, pastCancel_step hI.2 hst⟩)
    fun _ _ _ hI _ _ => not_callsJob hI.1 hI.2

/-- The job is cancelled while its only run executes, and fails. -/
theorem no_call_after_cancel_executing : ∃ ms jobs ms' jobs',
    Run (Component.stepAt fun _ : Unit => step fun _ => false) (fun _ => .register {}) ms jobs ∧
    Run (Component.stepAt fun _ : Unit => step fun _ => false) jobs ms' jobs' ∧
    (jobs ()).isCancelled 0 = true ∧ (jobs' ()).taken = 0 ∧
    ∀ m ∈ Component.movesAt () ms', callsJob m 0 = false := by
  let start : List (Unit × JobAction) := [((), .trigger), ((), .triggered 0 .ok), ((), .runStep 0 .ok),
    ((), .runStep 0 .ok), ((), .runStep 0 .ok), ((), .cancelCurrent)]
  let rest : List (Unit × JobAction) := [((), .runStep 0 .error), ((), .runStep 0 .ok), ((), .runStep 0 .ok),
    ((), .runStep 0 .ok)]
  have hexec : ((exec (Component.stepAt fun _ : Unit => step fun _ => false) (fun _ => .register {}) start).bind fun r =>
      (exec (Component.stepAt fun _ : Unit => step fun _ => false) r.2 rest).map fun r' =>
        decide ((∀ m ∈ r.1, CancelsInTime (m.pre m.act.1) m.act.2) ∧
          (∀ m ∈ r'.1, CancelsInTime (m.pre m.act.1) m.act.2) ∧
          (r.2 ()).isCancelled 0 = true ∧ (r'.2 ()).taken = 0)) = some true := by decide
  obtain ⟨⟨ms, jobs⟩, hms, hexec⟩ := Option.bind_eq_some_iff.1 hexec
  obtain ⟨⟨ms', jobs'⟩, hms', hexec⟩ := Option.map_eq_some_iff.1 hexec
  obtain ⟨hg, hg', hc, hend⟩ := of_decide_eq_true hexec
  refine ⟨ms, jobs, ms', jobs', run_of_exec hms, run_of_exec hms', hc, hend, ?_⟩
  exact no_call_after_cancel _ _ ((run_of_exec hms).restrict hg) ((run_of_exec hms').restrict hg') () 0 hc

/-- A job that retries once, without delay. -/
def zeroDelayRetry : CliJobOptions := { maxRetries := 1, retryDelay := "0s".toList }

/-- The run fails its first attempt and is cancelled while `job:retrying` is published. -/
def cancelWhileRetrying : List JobAction :=
  [.trigger, .triggered 0 .ok, .runStep 0 .ok, .runStep 0 .ok, .runStep 0 .ok, .runStep 0 .error, .runStep 0 .ok,
    .runStep 0 .ok, .runStep 0 .ok, .cancelCurrent]

/-- The retry goes on: the wait of no time runs out, and the second attempt calls the job. -/
def retryAfterCancel : List JobAction := [.runStep 0 .ok, .runStep 0 .timeout, .runStep 0 .ok, .runStep 0 .ok]

/-- A cancelled run calls the job again when its retry has no delay. -/
theorem calls_job_after_cancel : ∃ ms reg ms' reg',
    Run (step fun _ => false) (.register zeroDelayRetry) ms reg ∧ reg.isCancelled 0 = true ∧
    Run (step fun _ => false) reg ms' reg' ∧ ∃ m ∈ ms', callsJob m 0 = true := by
  have hexec : ((exec (step fun _ => false) (.register zeroDelayRetry) cancelWhileRetrying).bind fun r =>
      (exec (step fun _ => false) r.2 retryAfterCancel).map fun r' =>
        (r.2.isCancelled 0, r'.1.any fun m => callsJob m 0)) = some (true, true) := by decide
  obtain ⟨⟨ms, reg⟩, hms, hexec⟩ := Option.bind_eq_some_iff.1 hexec
  obtain ⟨⟨ms', reg'⟩, hms', hexec⟩ := Option.map_eq_some_iff.1 hexec
  obtain ⟨hc, hcalls⟩ := Prod.mk.inj hexec
  exact ⟨ms, reg, ms', reg', run_of_exec hms, hc, run_of_exec hms', List.any_eq_true.1 hcalls⟩

end CliServer
