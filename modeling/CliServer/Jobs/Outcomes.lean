import CliServer.Jobs.Deletions

/-!
# How an attempt is recorded

An attempt of a job ends when the job returns or raises, or when it lets the `CancelledError` through that
`asyncio.wait_for` throws into it once the timeout has run out; the cancellation of the run is an event that may be
set at any time and that the job may look at.  `_execute_attempt` tells these ends apart by the class of the exception
and by the event.  So it records what happened exactly when an exception of the job's own is an `Exception` other than
`TimeoutError` whose `str()` returns, and a job that returns or raises on its own does so before its timeout has run
out, or after its cancellation was requested (`outcome_classified_iff`).
-/

namespace CliServer

open Transition

/-- The classes of exceptions a job raises that the code tells apart. -/
inductive JobException where
  /-- An `Exception` other than `TimeoutError` whose `str()` returns. -/
  | exception
  /-- One whose `str()` raises. -/
  | unprintable
  | timeoutError
  | cancelledError
  /-- Any other `BaseException`, such as `SystemExit`. -/
  | baseException
  deriving DecidableEq, Repr

/-- How an attempt ends. -/
inductive Ending where
  /-- The timeout is not an interval: the job is not called. -/
  | notCalled
  | returned
  | raised (error : JobException)
  /-- The job lets the `CancelledError` of `wait_for` through. -/
  | gaveWay
  deriving DecidableEq, Repr

/-- An attempt from the call of the job: the time since, in microseconds, the run's event and whether `wait_for` has
thrown its `CancelledError`. -/
structure Attempt where
  now : Nat
  requested : Bool
  expired : Bool
  ending : Option Ending
  deriving DecidableEq, Repr

/-- The configured timeout in seconds, if `parse_interval` reads it. -/
def timeoutSeconds (o : CliJobOptions) : Option Nat := (given o.timeout).bind fun t => (parseInterval t).toOption

/-- The timeout of `wait_for`: zero seconds count as none. -/
def waitTimeout (o : CliJobOptions) : Option Nat := (timeoutSeconds o).filter (· ≠ 0)

def microseconds (seconds : Nat) : Nat := 10 ^ 6 * seconds

namespace Attempt

/-- An attempt as the job is called, or is not. -/
def begin (o : CliJobOptions) (retryAttempt : Nat) (requested : Bool) : Attempt where
  now := 0
  requested := requested
  expired := false
  ending := if callJob o retryAttempt = .executing retryAttempt then none else some .notCalled

/-- The configured timeout has run out. -/
def elapsed (o : CliJobOptions) (a : Attempt) : Bool :=
  (timeoutSeconds o).any fun seconds => microseconds seconds ≤ a.now

/-- The timer of `wait_for` is due. -/
def due (o : CliJobOptions) (a : Attempt) : Bool := (waitTimeout o).any fun seconds => microseconds seconds ≤ a.now

end Attempt

/-- What happens in an attempt. -/
inductive AttemptAction where
  | tick (microseconds : Nat)
  /-- The run's event is set: `cancel_current`, `stop_job`, `stop`, an overlap. -/
  | request
  /-- The timer of `wait_for` cancels the task. -/
  | expire
  | ends (ending : Ending)
  deriving DecidableEq, Repr

/-- One step of an attempt; only a job that was thrown the `CancelledError` of `wait_for` can let it through. -/
def attemptStep (o : CliJobOptions) (a : Attempt) : AttemptAction → Option Attempt
  | .tick d => if a.ending = none then some { a with now := a.now + d } else none
  | .request => if a.ending = none then some { a with requested := true } else none
  | .expire => if a.ending = none ∧ a.expired = false ∧ a.due o = true then some { a with expired := true } else none
  | .ends .notCalled => none
  | .ends .gaveWay =>
    if a.ending = none ∧ a.expired = true then some { a with ending := some .gaveWay } else none
  | .ends e => if a.ending = none then some { a with ending := some e } else none

/-- What the `await` of `_execute_attempt` answers: `wait_for` turns a `CancelledError` into a `TimeoutError` once its
timer has run out, and lets everything else through. -/
def Ending.answer (expired : Bool) : Ending → Option Answer
  | .notCalled => none
  | .returned => some .ok
  | .raised .exception => some .error
  | .raised .unprintable => some .escaped
  | .raised .timeoutError => some .timeout
  | .raised .cancelledError => some (if expired then .timeout else .cancelled)
  | .raised .baseException => some .escaped
  | .gaveWay => some .timeout

/-- The status a step of the attempt's task sets. -/
def Next.outcome : Next → Option ExecutionStatus
  | .goto phase => phase.outcome
  | .cancelGoto phase => phase.outcome
  | .ended => none

/-- The status that `_execute_attempt` sets when the attempt ends so. -/
def Attempt.recorded (o : CliJobOptions) (retryAttempt : Nat) (a : Attempt) : Ending → Option ExecutionStatus
  | .notCalled => (callJob o retryAttempt).outcome
  | e => ((e.answer a.expired).bind (proceed o a.requested (.executing retryAttempt))).bind Next.outcome

/-- The outcome says what happened. -/
structure Attempt.Classified (o : CliJobOptions) (retryAttempt : Nat) (a : Attempt) (e : Ending) : Prop where
  cancelled : a.requested = true → e = .returned ∨ e = .gaveWay → a.recorded o retryAttempt e = some .cancelled
  timedOut : a.recorded o retryAttempt e = some .timedOut ↔ a.elapsed o = true ∧ a.requested = false
  completed : e = .returned → a.requested = false → a.elapsed o = false →
    a.recorded o retryAttempt e = some .completed
  /-- A failed attempt is retried, unless the run is cancelled by then. -/
  failed : ∀ x, e = .raised x → a.recorded o retryAttempt e = some .failed ∧
    (retryAttempt < o.maxRetries →
    ∃ delay, afterAttempt o false retryAttempt .failed = .goto (.retrying retryAttempt delay))

/-- The delay before the retry can be computed, in milliseconds too. -/
def RetryDelayFits (o : CliJobOptions) (retryAttempt : Nat) : Prop :=
  ∃ delay, retryDelay o retryAttempt = some delay ∧ delay * 1000 < floatOverflow

/-- A job that returns or raises does not do so after its timeout, unless its cancellation was requested; and what it
raises is an `Exception` other than `TimeoutError` whose `str()` returns, for which a retry, if there is one left, can
be computed. -/
structure Attempt.Proper (o : CliJobOptions) (retryAttempt : Nat) (a : Attempt) (e : Ending) : Prop where
  inTime : e = .returned ∨ (∃ x, e = .raised x) → a.elapsed o = true → a.requested = true
  ordinary : ∀ x, e = .raised x → x = .exception ∧ (retryAttempt < o.maxRetries → RetryDelayFits o retryAttempt)

/-! ### What holds of an attempt -/

private theorem elapsed_iff {o : CliJobOptions} {a : Attempt} :
    a.elapsed o = true ↔ ∃ seconds, timeoutSeconds o = some seconds ∧ microseconds seconds ≤ a.now := by
  rw [Attempt.elapsed, Option.any_eq_true]
  simp only [decide_eq_true_eq]

/-- A timer that is due belongs to a timeout that has run out. -/
private theorem elapsed_of_due {o : CliJobOptions} {a : Attempt} (h : a.due o = true) : a.elapsed o = true := by
  rw [Attempt.due, Option.any_eq_true] at h
  obtain ⟨seconds, hwait, hdue⟩ := h
  exact elapsed_iff.2 ⟨seconds, (Option.filter_eq_some_iff.1 hwait).1, of_decide_eq_true hdue⟩

private theorem elapsed_mono {o : CliJobOptions} {a a' : Attempt} (h : a.elapsed o = true) (hnow : a.now ≤ a'.now) :
    a'.elapsed o = true := by
  obtain ⟨seconds, htimeout, hpast⟩ := elapsed_iff.1 h
  exact elapsed_iff.2 ⟨seconds, htimeout, Nat.le_trans hpast hnow⟩

/-- A job is not called only because its timeout cannot be read; that fails the attempt. -/
private theorem callJob_or_unread (o : CliJobOptions) (k : Nat) : callJob o k = .executing k ∨
    (timeoutSeconds o = none ∧ callJob o k = .reporting k .failed false) := by
  unfold callJob timeoutSeconds given
  cases o.timeout.filter (· ≠ []) with
  | none => exact .inl rfl
  | some text =>
    simp only [Option.map_some, Option.bind_some]
    cases parseInterval text with
    | ok seconds => exact .inl rfl
    | error e => exact .inr ⟨rfl, rfl⟩

/-- The invariant: the thrown `CancelledError` is that of a timeout, and nothing else is let through. -/
structure Attempt.Kept (o : CliJobOptions) (retryAttempt : Nat) (a : Attempt) : Prop where
  expired : a.expired = true → a.elapsed o = true
  gaveWay : a.ending = some .gaveWay → a.expired = true
  notCalled : a.ending = some .notCalled →
    timeoutSeconds o = none ∧ callJob o retryAttempt = .reporting retryAttempt .failed false

private theorem kept_begin (o : CliJobOptions) (k : Nat) (requested : Bool) :
    (Attempt.begin o k requested).Kept o k := by
  refine ⟨(fun h => by cases h), fun h => ?_, fun h => ?_⟩
  · unfold Attempt.begin at h
    split at h <;> cases h
  · rcases callJob_or_unread o k with hcalled | hnot
    · simp [Attempt.begin, hcalled] at h
    · exact hnot

theorem Attempt.Kept.step {o : CliJobOptions} {k : Nat} {a a' : Attempt} {act : AttemptAction} (h : a.Kept o k)
    (hst : attemptStep o a act = some a') : a'.Kept o k := by
  cases act with
  | tick d =>
    simp only [attemptStep, Option.ite_none_right_eq_some, Option.some.injEq] at hst
    obtain ⟨-, rfl⟩ := hst
    exact ⟨fun hexpired => elapsed_mono (h.expired hexpired) (Nat.le_add_right _ _), h.gaveWay, h.notCalled⟩
  | request =>
    simp only [attemptStep, Option.ite_none_right_eq_some, Option.some.injEq] at hst
    obtain ⟨-, rfl⟩ := hst
    exact ⟨h.expired, h.gaveWay, h.notCalled⟩
  | expire =>
    simp only [attemptStep, Option.ite_none_right_eq_some, Option.some.injEq] at hst
    obtain ⟨⟨-, -, hdue⟩, rfl⟩ := hst
    exact ⟨fun _ => elapsed_of_due hdue, fun _ => rfl, h.notCalled⟩
  | ends e =>
    cases e with
    | notCalled => cases hst
    | gaveWay =>
      simp only [attemptStep, Option.ite_none_right_eq_some, Option.some.injEq] at hst
      obtain ⟨⟨-, hexpired⟩, rfl⟩ := hst
      exact ⟨h.expired, fun _ => hexpired, (fun h => by cases h)⟩
    | returned =>
      simp only [attemptStep, Option.ite_none_right_eq_some, Option.some.injEq] at hst
      obtain ⟨-, rfl⟩ := hst
      exact ⟨h.expired, (fun h => by cases h), (fun h => by cases h)⟩
    | raised x =>
      simp only [attemptStep, Option.ite_none_right_eq_some, Option.some.injEq] at hst
      obtain ⟨-, rfl⟩ := hst
      exact ⟨h.expired, (fun h => by cases h), (fun h => by cases h)⟩

/-! ### What is recorded -/

section Recorded

variable (o : CliJobOptions) (k : Nat) (a : Attempt)

private theorem recorded_returned :
    a.recorded o k .returned = some (if a.requested then .cancelled else .completed) := by
  obtain ⟨now, requested, expired, ending⟩ := a
  cases requested <;> rfl

private theorem recorded_gaveWay : a.recorded o k .gaveWay = some (if a.requested then .cancelled else .timedOut) := by
  obtain ⟨now, requested, expired, ending⟩ := a
  cases requested <;> rfl

private theorem recorded_exception : a.recorded o k (.raised .exception) = some .failed := rfl

/-- No other exception of the job's own is recorded as a failure. -/
private theorem recorded_raised {x : JobException} (h : x ≠ .exception) :
    a.recorded o k (.raised x) ≠ some .failed := by
  obtain ⟨now, requested, expired, ending⟩ := a
  cases x with
  | exception => exact absurd rfl h
  | timeoutError => cases requested <;> exact fun heq => by cases heq
  | cancelledError => cases requested <;> cases expired <;> exact fun heq => by cases heq
  | unprintable => exact fun heq => by cases heq
  | baseException => exact fun heq => by cases heq

end Recorded

/-- A failed attempt with attempts left is retried exactly when the delay can be computed. -/
private theorem retried_iff {o : CliJobOptions} {k : Nat} (hleft : k < o.maxRetries) :
    (∃ delay, afterAttempt o false k .failed = .goto (.retrying k delay)) ↔ RetryDelayFits o k := by
  have hgoes : ¬ (ExecutionStatus.failed ≠ .failed ∨ o.maxRetries ≤ k ∨ (false : Bool) = true) := by
    rintro (h | h | h)
    · exact h rfl
    · omega
    · cases h
  unfold afterAttempt RetryDelayFits
  rw [if_neg hgoes]
  cases retryDelay o k with
  | none => simp
  | some delay =>
    by_cases hfits : floatOverflow ≤ delay * 1000
    · simp [hfits, Nat.not_lt.2 hfits]
    · simp [hfits, Nat.lt_of_not_le hfits]

/-- Whatever a job does, whatever its timeout and whenever its cancellation is requested: when its attempt ends, the
outcome that is recorded says what happened exactly when the end was a proper one. -/
theorem outcome_classified_iff {o : CliJobOptions} {retryAttempt : Nat} {requested : Bool}
    {history : List (Move Attempt AttemptAction)} {a : Attempt} {e : Ending}
    (h : Run (attemptStep o) (.begin o retryAttempt requested) history a) (hend : a.ending = some e) :
    a.Classified o retryAttempt e ↔ a.Proper o retryAttempt e := by
  have hkept : a.Kept o retryAttempt :=
    h.invariant (kept_begin o retryAttempt requested) fun _ _ _ hs _ hst => hs.step hst
  cases e with
  | notCalled =>
    obtain ⟨hnone, hfailed⟩ := hkept.notCalled hend
    have helapsed : a.elapsed o = false := by rw [Attempt.elapsed, hnone, Option.any_none]
    have hrecorded : a.recorded o retryAttempt .notCalled = some .failed := by rw [Attempt.recorded, hfailed]; rfl
    refine ⟨fun _ => ⟨fun hown => ?_, (fun x hx => by cases hx)⟩,
      fun _ => ⟨fun _ hown => ?_, ?_, (fun hown => by cases hown), (fun x hx => by cases hx)⟩⟩
    · rcases hown with hown | ⟨x, hx⟩
      · cases hown
      · cases hx
    · rcases hown with hown | hown <;> cases hown
    · rw [hrecorded, helapsed]
      exact ⟨(fun heq => by cases heq), (fun heq => by cases heq.1)⟩
  | returned =>
    have hrecorded := recorded_returned o retryAttempt a
    constructor
    · intro hclassified
      refine ⟨fun _ helapsed => ?_, (fun x hx => by cases hx)⟩
      by_contra hrequested
      have htimedOut := hclassified.timedOut.2 ⟨helapsed, Bool.eq_false_of_not_eq_true hrequested⟩
      rw [hrecorded] at htimedOut
      split at htimedOut <;> cases htimedOut
    · intro hproper
      refine ⟨fun hrequested _ => ?_, ⟨fun htimedOut => ?_, fun hlate => ?_⟩, fun _ hrequested _ => ?_,
        (fun x hx => by cases hx)⟩
      · rw [hrecorded, if_pos hrequested]
      · rw [hrecorded] at htimedOut
        split at htimedOut <;> cases htimedOut
      · rw [hproper.inTime (.inl rfl) hlate.1] at hlate
        cases hlate.2
      · rw [hrecorded, hrequested]
        rfl
  | gaveWay =>
    have hrecorded := recorded_gaveWay o retryAttempt a
    have helapsed := hkept.expired (hkept.gaveWay hend)
    refine ⟨fun _ => ⟨fun hown => ?_, (fun x hx => by cases hx)⟩, fun _ => ⟨fun hrequested _ => ?_, ?_,
      (fun hown => by cases hown), (fun x hx => by cases hx)⟩⟩
    · rcases hown with hown | ⟨x, hx⟩
      · cases hown
      · cases hx
    · rw [hrecorded, if_pos hrequested]
    · rw [hrecorded, helapsed]
      cases a.requested <;> simp
  | raised x =>
    constructor
    · intro hclassified
      obtain ⟨hfailed, hretried⟩ := hclassified.failed x rfl
      have hx : x = .exception := by
        by_contra hne
        exact recorded_raised o retryAttempt a hne hfailed
      refine ⟨fun _ helapsed => ?_, fun y hy => ?_⟩
      · by_contra hrequested
        have htimedOut := hclassified.timedOut.2 ⟨helapsed, Bool.eq_false_of_not_eq_true hrequested⟩
        rw [hfailed] at htimedOut
        cases htimedOut
      · obtain rfl := Ending.raised.inj hy
        exact ⟨hx, fun hleft => (retried_iff hleft).1 (hretried hleft)⟩
    · intro hproper
      obtain ⟨rfl, hfits⟩ := hproper.ordinary x rfl
      have hrecorded := recorded_exception o retryAttempt a
      refine ⟨fun _ hown => ?_, ⟨fun htimedOut => ?_, fun hlate => ?_⟩, (fun hown => by cases hown), fun y hy => ?_⟩
      · rcases hown with hown | hown <;> cases hown
      · rw [hrecorded] at htimedOut
        cases htimedOut
      · rw [hproper.inTime (.inr ⟨_, rfl⟩) hlate.1] at hlate
        cases hlate.2
      · obtain rfl := Ending.raised.inj hy
        exact ⟨hrecorded, fun hleft => (retried_iff hleft).2 (hfits hleft)⟩

/-- A job with a timeout of one second. -/
def oneSecond : CliJobOptions := { timeout := some "1s".toList, maxConcurrentRuns_pos := Nat.one_pos }

/-- A job that gives way to its timeout of one second, its cancellation not requested, has timed out. -/
theorem outcome_classified_one_second : ∃ history a, Run (attemptStep oneSecond) (.begin oneSecond 0 false) history a ∧
    a.Classified oneSecond 0 .gaveWay ∧ a.recorded oneSecond 0 .gaveWay = some .timedOut := by
  have hexec : (exec (attemptStep oneSecond) (.begin oneSecond 0 false)
      [.tick 1000000, .expire, .tick 5, .ends .gaveWay]).any (fun r => r.2 = ⟨1000005, false, true, some .gaveWay⟩) =
      true := by decide +kernel
  obtain ⟨⟨history, a⟩, hexec, ha⟩ := (Option.any_eq_true _ _).1 hexec
  obtain rfl : a = ⟨1000005, false, true, some .gaveWay⟩ := of_decide_eq_true ha
  have hrun := run_of_exec hexec
  have hproper : Attempt.Proper oneSecond 0 ⟨1000005, false, true, some .gaveWay⟩ .gaveWay := by
    refine ⟨fun hown => ?_, (fun x hx => by cases hx)⟩
    rcases hown with hown | ⟨x, hx⟩
    · cases hown
    · cases hx
  exact ⟨history, _, hrun, (outcome_classified_iff hrun rfl).2 hproper, rfl⟩

/-- A job without a timeout that raises a `TimeoutError` of its own is recorded as timed out; one that returns
although its timeout has run out is recorded as completed. -/
theorem outcome_misclassified :
    (∃ history a, Run (attemptStep {}) (.begin {} 0 false) history a ∧ a.ending = some (.raised .timeoutError) ∧
      timeoutSeconds {} = none ∧ a.recorded {} 0 (.raised .timeoutError) = some .timedOut ∧
      ¬ a.Classified {} 0 (.raised .timeoutError)) ∧
    ∃ history a, Run (attemptStep oneSecond) (.begin oneSecond 0 false) history a ∧ a.ending = some .returned ∧
      a.elapsed oneSecond = true ∧ a.recorded oneSecond 0 .returned = some .completed ∧
      ¬ a.Classified oneSecond 0 .returned := by
  constructor
  · have hexec : (exec (attemptStep {}) (.begin {} 0 false) [.ends (.raised .timeoutError)]).any
        (fun r => r.2 = ⟨0, false, false, some (.raised .timeoutError)⟩) = true := by decide +kernel
    obtain ⟨⟨history, a⟩, hexec, ha⟩ := (Option.any_eq_true _ _).1 hexec
    obtain rfl : a = ⟨0, false, false, some (.raised .timeoutError)⟩ := of_decide_eq_true ha
    refine ⟨history, _, run_of_exec hexec, rfl, rfl, rfl, fun hclassified => ?_⟩
    cases (hclassified.failed _ rfl).1
  · have hexec : (exec (attemptStep oneSecond) (.begin oneSecond 0 false)
        [.tick 1000000, .expire, .ends .returned]).any (fun r => r.2 = ⟨1000000, false, true, some .returned⟩) =
        true := by
      decide +kernel
    obtain ⟨⟨history, a⟩, hexec, ha⟩ := (Option.any_eq_true _ _).1 hexec
    obtain rfl : a = ⟨1000000, false, true, some .returned⟩ := of_decide_eq_true ha
    have helapsed : Attempt.elapsed oneSecond ⟨1000000, false, true, some .returned⟩ = true := by decide
    refine ⟨history, _, run_of_exec hexec, rfl, helapsed, rfl, fun hclassified => ?_⟩
    cases hclassified.timedOut.2 ⟨helapsed, rfl⟩

end CliServer
