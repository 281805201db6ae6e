import CliServer.Commands.Pages
import CliServer.Commands.Registry
import CliServer.Lib.Transition

/-!
# Streaming responses

`POST /execute/stream` answers with an asynchronous generator: it polls the queue the processor's `emit` fills, until
the processor's task is done and the queue is empty, and ends with one event.  An action is what happens between two
suspensions: the generator goes on, or is closed, or cancelled, where it is suspended; the processor emits, sets the
cancellation event it was given, or ends; the executor returns.
-/

namespace CliServer.Streaming

open Transition

/-- An output: a table with its rows by their JSON texts, any other output by its JSON text, or one that `json.dumps`
raises for. -/
inductive Output where
  | table (output : CliServerTableOutput Str)
  | text (json : Str)
  | unserialisable
  deriving DecidableEq, Repr

/-- `json.dumps` gives a text. -/
def Output.serialises : Output → Bool
  | .unserialisable => false
  | _ => true

/-- `apply_output_limits`. -/
def Output.limited (maxRows : Int) : Output → Output
  | .table output => .table (applyOutputLimits output maxRows)
  | output => output

/-- What `handle_stream_async` returns: nothing, an integer or what equals one (`False`), or anything else, with its
JSON text. -/
inductive ExitCode where
  | none
  | int (n : Int)
  | other (json : Option Str)
  deriving DecidableEq, Repr

/-- `exit_code in (0, None)`. -/
def ExitCode.success : ExitCode → Bool
  | .none => true
  | .int n => n = 0
  | .other _ => false

def ExitCode.serialises : ExitCode → Bool
  | .other json => json.isSome
  | _ => true

/-- How `handle_stream_async` ends: it returns, or raises an `Exception`, a `CancelledError` or, `escaped`, another
`BaseException`.  The message of an `Exception` is its `str()` or, when that raises an `Exception`, the `str()` of the
latter; `none`: that raises too, or what was raised is no `Exception`. -/
inductive StreamEnd where
  | returned (code : ExitCode)
  | raised (message : Option Str)
  | cancelled
  | escaped
  deriving DecidableEq, Repr

/-- How `execute_async` ends: with a response, also for an `Exception` of the processor, or because the processor raises
a `CancelledError` or, `escaped`, another `BaseException`.  `raised`: `str()` of the processor's `Exception` raises, an
`Exception` with this message unless it is `none`. -/
inductive ExecutorEnd where
  | responded (exitCode : Int) (outputs : List Output)
  | raised (message : Option Str)
  | cancelled
  | escaped
  deriving DecidableEq, Repr

/-- `failed` in `execute_async`. -/
def ExecutorEnd.failed : ExecutorEnd → Bool
  | .responded exitCode _ => exitCode ≠ 0
  | .raised _ | .cancelled | .escaped => true

inductive SseEvent where
  | output (output : Output)
  | done (exitCode : ExitCode)
  | error (message : Str)
  deriving DecidableEq, Repr

def SseEvent.isTerminal : SseEvent → Bool
  | .output _ => false
  | _ => true

/-- `done` with exit code 0, or without one. -/
def SseEvent.success : SseEvent → Bool
  | .done code => code.success
  | _ => false

/-- The processor's task. -/
inductive Task where
  | notStarted
  | running
  | ended (how : StreamEnd)
  deriving DecidableEq, Repr

/-- Where the generator is suspended. -/
inductive Point where
  | start
  /-- At `asyncio.sleep(0)`. -/
  | sleeping
  /-- At the `yield` of a chunk of the queue. -/
  | yielding
  /-- In `execute_async`, before the command is counted. -/
  | executing
  /-- In `execute_async`, in `notify_executed`. -/
  | counted (how : ExecutorEnd)
  /-- At the `yield` of an output of the response. -/
  | responding (rest : List Output) (exitCode : Int)
  /-- At the `yield` of the last event. -/
  | finishing
  /-- In `notify_executed`. -/
  | notifying
  | ended
  deriving DecidableEq, Repr

/-- The request: the outputs emitted, as `apply_output_limits` leaves them, the events the client was sent, and how the
request was counted. -/
structure Stream where
  point : Point := .start
  task : Task := .notStarted
  eventSet : Bool := false
  taskCancelled : Bool := false
  queue : List Output := []
  emitted : List Output := []
  sent : List SseEvent := []
  usageFailed : Option Bool := some true
  recorded : List Bool := []
  deriving DecidableEq, Repr

variable {t : CaseTable} (r : Registry t) (isBlocked : Processor → Bool) (maxRows : Int) (command : Str)
  (chain : List Str)

/-- `record_usage` of this command. -/
def count (failed : Bool) : List Bool := if strip command = [] then [] else [failed]

/-- The `finally` of the generator. -/
def Stream.finish (s : Stream) : Stream :=
  match s.usageFailed with
  | some failed => { s with recorded := s.recorded ++ count command failed, point := .notifying }
  | none => { s with point := .ended }

/-- The generator yields its last event. -/
def Stream.yieldLast (s : Stream) (event : SseEvent) : Stream :=
  { s with sent := s.sent ++ [event], point := .finishing }

def errorMessage (message : Str) : Str := "Error executing command: ".toList ++ message

/-- The generator's `except Exception`. -/
def Stream.fail (s : Stream) (message : Str) : Stream :=
  { s with usageFailed := s.usageFailed.map fun _ => true }.yieldLast (.error (errorMessage message))

/-- What `json.dumps` raises. -/
def notSerialisable : Str := "Object is not JSON serializable".toList

/-- `yield sse_event("done", ...)`. -/
def Stream.yieldDone (s : Stream) (code : ExitCode) : Stream :=
  if code.serialises then s.yieldLast (.done code) else s.fail notSerialisable

/-- After the loop. -/
def Stream.afterLoop (s : Stream) (how : StreamEnd) : Stream :=
  if s.eventSet then s.finish command
  else match how with
    | .returned code => { s with usageFailed := some !code.success }.yieldDone code
    | .raised (some message) => { s with usageFailed := some true }.yieldLast (.error (errorMessage message))
    -- The text of the error event raises, in the outer handler too or past it.
    | .raised none => { s with usageFailed := some true }.finish command
    -- `task.result()` raises a `CancelledError`, which only the outer handler catches, or what no handler catches.
    | .cancelled | .escaped => s.finish command

/-- The loop, up to its next suspension. -/
def Stream.loop (s : Stream) : Stream :=
  match s.task, s.queue with
  | .ended how, [] => s.afterLoop command how
  | _, queue =>
    if s.eventSet then { s with taskCancelled := true }.finish command
    else match queue with
      | chunk :: rest => { s with queue := rest, sent := s.sent ++ [.output chunk], point := .yielding }
      | [] => { s with point := .sleeping }

/-- The outputs of a response that are still to send, and `done`. -/
def Stream.respond (s : Stream) (outputs : List Output) (exitCode : Int) : Stream :=
  match outputs with
  | [] => s.yieldDone (.int exitCode)
  | output :: rest =>
    if output.serialises then { s with sent := s.sent ++ [.output output], point := .responding rest exitCode }
    else s.fail notSerialisable

/-- The generator up to its first suspension. -/
def Stream.begin (s : Stream) : Stream :=
  match r.findProcessor t command chain with
  | none => s.yieldLast (.error ("Unknown command: ".toList ++ command))
  | some processor =>
    if isBlocked processor then
      s.yieldLast (.error ("Command '".toList ++ command ++ "' is currently disabled.".toList))
    else if processor.streams then { s with usageFailed := some false, task := .running }.loop command
    else { s with usageFailed := none, point := .executing }

/-- The generator goes on from where it is suspended. -/
def Stream.resume (s : Stream) : Stream :=
  match s.point with
  | .start => s.begin r isBlocked command chain
  | .sleeping | .yielding => s.loop command
  | .responding rest exitCode => s.respond rest exitCode
  | .counted (.responded exitCode outputs) => { s with emitted := outputs }.respond outputs exitCode
  | .counted (.raised (some message)) => s.fail message
  | .counted (.raised none) | .counted .cancelled | .counted .escaped | .finishing => s.finish command
  | .notifying => { s with point := .ended }
  | .executing | .ended => s

/-- The generator is closed, or cancelled, where it is suspended. -/
def Stream.close (s : Stream) : Stream :=
  match s.point with
  | .start | .notifying => { s with point := .ended }
  | .executing => { s with recorded := s.recorded ++ count command true }.finish command
  | _ => s.finish command

inductive Action where
  | resume
  | close
  | emit (output : Output)
  /-- The processor sets the cancellation event. -/
  | setEvent
  | taskEnds (how : StreamEnd)
  | executed (how : ExecutorEnd)
  deriving DecidableEq, Repr

def step (s : Stream) : Action → Option Stream
  | .resume => if s.point = .executing ∨ s.point = .ended then none else some (s.resume r isBlocked command chain)
  | .close => if s.point = .ended then none else some (s.close command)
  | .emit output =>
    if s.task ≠ .running then none
    else
      let output := output.limited maxRows
      if s.eventSet then some { s with emitted := s.emitted ++ [output] }
      -- What `json.dumps` raises is raised by `emit`.
      else if output.serialises then
        some { s with emitted := s.emitted ++ [output], queue := s.queue ++ [output] }
      else some s
  | .setEvent => if s.task ≠ .running then none else some { s with eventSet := true }
  | .taskEnds how => if s.task ≠ .running then none else some { s with task := .ended how }
  | .executed how =>
    if s.point ≠ .executing then none
    else some { s with recorded := s.recorded ++ count command how.failed, point := .counted how }

/-! ### When the generator has ended -/

/-- The generator is suspended in its loop. -/
def Stream.Polling (s : Stream) : Prop := s.point = .sleeping ∨ s.point = .yielding

instance (s : Stream) : Decidable s.Polling := inferInstanceAs (Decidable (_ ∨ _))

/-- The processor's task has ended or was cancelled, or its event is set. -/
def Stream.Stopped (s : Stream) : Prop := (∃ how, s.task = .ended how) ∨ s.taskCancelled = true ∨ s.eventSet = true

/-- The processor ends, or sets its event. -/
def Action.stops : Action → Bool
  | .setEvent | .taskEnds _ => true
  | _ => false

variable {r isBlocked maxRows command chain} {s u v : Stream} {a : Action}

/-- From `s` to `u` the processor did nothing, and was cancelled only after its event was set. -/
structure Stream.Follows (u s : Stream) : Prop where
  task : u.task = s.task
  eventSet : u.eventSet = s.eventSet
  cancelled : s.taskCancelled = true → u.taskCancelled = true
  cancels : u.taskCancelled = true → s.taskCancelled = true ∨ s.eventSet = true

/-- Where the generator only sets other fields. -/
theorem Stream.Follows.of_eq (htask : u.task = s.task) (hset : u.eventSet = s.eventSet)
    (hcancelled : u.taskCancelled = s.taskCancelled) : u.Follows s where
  task := htask
  eventSet := hset
  cancelled h := hcancelled.trans h
  cancels h := .inl (hcancelled.symm.trans h)

theorem Stream.Follows.trans (h : v.Follows u) (h' : u.Follows s) : v.Follows s where
  task := h.task.trans h'.task
  eventSet := h.eventSet.trans h'.eventSet
  cancelled hs := h.cancelled (h'.cancelled hs)
  cancels hv := by
    rcases h.cancels hv with hu | hu
    · exact h'.cancels hu
    · exact .inr (h'.eventSet.symm.trans hu)

private theorem Stream.Follows.stopped_iff (h : u.Follows s) : u.Stopped ↔ s.Stopped := by
  unfold Stream.Stopped
  rw [h.task, h.eventSet]
  constructor
  · rintro (hended | hcancelled | hset)
    · exact .inl hended
    · exact .inr (h.cancels hcancelled)
    · exact .inr (.inr hset)
  · rintro (hended | hcancelled | hset)
    · exact .inl hended
    · exact .inr (.inl (h.cancelled hcancelled))
    · exact .inr (.inr hset)

private theorem Stream.finish_follows (s : Stream) : (s.finish command).Follows s := by
  unfold Stream.finish
  split
  · exact .of_eq rfl rfl rfl
  · exact .of_eq rfl rfl rfl

private theorem Stream.yieldLast_follows (s : Stream) (event : SseEvent) :
    (s.yieldLast event).Follows s := .of_eq rfl rfl rfl

private theorem Stream.fail_follows (s : Stream) (message : Str) : (s.fail message).Follows s := .of_eq rfl rfl rfl

private theorem Stream.yieldDone_follows (s : Stream) (code : ExitCode) : (s.yieldDone code).Follows s := by
  unfold Stream.yieldDone
  split
  · exact s.yieldLast_follows _
  · exact s.fail_follows _

private theorem Stream.afterLoop_follows (s : Stream) (how : StreamEnd) : (s.afterLoop command how).Follows s := by
  unfold Stream.afterLoop
  split
  · exact s.finish_follows
  · cases how with
    | returned code => exact (Stream.yieldDone_follows _ _).trans (.of_eq rfl rfl rfl)
    | raised message =>
      cases message with
      | none => exact (Stream.finish_follows _).trans (.of_eq rfl rfl rfl)
      | some message => exact .of_eq rfl rfl rfl
    | cancelled => exact s.finish_follows
    | escaped => exact s.finish_follows

private theorem Stream.loop_follows (s : Stream) : (s.loop command).Follows s := by
  unfold Stream.loop
  split
  · exact s.afterLoop_follows _
  · split
    · next hset =>
      refine (Stream.finish_follows _).trans ?_
      exact ⟨rfl, rfl, fun _ => rfl, fun _ => .inr hset⟩
    · split
      · exact .of_eq rfl rfl rfl
      · exact .of_eq rfl rfl rfl

private theorem Stream.respond_follows (s : Stream) (outputs : List Output) (exitCode : Int) :
    (s.respond outputs exitCode).Follows s := by
  cases outputs with
  | nil => exact s.yieldDone_follows _
  | cons output rest =>
    simp only [Stream.respond]
    split
    · exact .of_eq rfl rfl rfl
    · exact s.fail_follows _

private theorem Stream.resume_follows (hpoint : s.point ≠ .start) : (s.resume r isBlocked command chain).Follows s := by
  unfold Stream.resume
  split
  · next hstart => exact absurd hstart hpoint
  · exact s.loop_follows
  · exact s.loop_follows
  · exact s.respond_follows _ _
  · exact (Stream.respond_follows _ _ _).trans (.of_eq rfl rfl rfl)
  · exact s.fail_follows _
  · exact s.finish_follows
  · exact s.finish_follows
  · exact s.finish_follows
  · exact s.finish_follows
  · exact .of_eq rfl rfl rfl
  · exact .of_eq rfl rfl rfl
  · exact .of_eq rfl rfl rfl

private theorem Stream.close_follows (s : Stream) : (s.close command).Follows s := by
  unfold Stream.close
  split
  · exact .of_eq rfl rfl rfl
  · exact .of_eq rfl rfl rfl
  · exact (Stream.finish_follows _).trans (.of_eq rfl rfl rfl)
  · exact s.finish_follows

/-! ### Points -/

variable (command) in
theorem Stream.finish_point (s : Stream) :
    (s.finish command).point = .notifying ∨ (s.finish command).point = .ended := by
  unfold Stream.finish
  split
  · exact .inl rfl
  · exact .inr rfl

private theorem Stream.finish_point_ne (s : Stream) : (s.finish command).point ≠ .start := by
  rcases s.finish_point command with h | h <;> simp [h]

theorem Stream.yieldDone_point (s : Stream) (code : ExitCode) : (s.yieldDone code).point = .finishing := by
  unfold Stream.yieldDone
  split <;> rfl

private theorem Stream.afterLoop_point_ne (s : Stream) (how : StreamEnd) :
    (s.afterLoop command how).point ≠ .start := by
  unfold Stream.afterLoop
  split
  · exact s.finish_point_ne
  · cases how with
    | returned code => simp [Stream.yieldDone_point]
    | raised message =>
      cases message with
      | none => exact Stream.finish_point_ne _
      | some message => simp [Stream.yieldLast]
    | cancelled => exact s.finish_point_ne
    | escaped => exact s.finish_point_ne

private theorem Stream.loop_point_ne (s : Stream) : (s.loop command).point ≠ .start := by
  unfold Stream.loop
  split
  · exact s.afterLoop_point_ne _
  · split
    · exact Stream.finish_point_ne _
    · split <;> simp

private theorem Stream.respond_point_ne (s : Stream) (outputs : List Output) (exitCode : Int) :
    (s.respond outputs exitCode).point ≠ .start := by
  cases outputs with
  | nil => simp [Stream.respond, Stream.yieldDone_point]
  | cons output rest =>
    simp only [Stream.respond]
    split
    · simp
    · simp [Stream.fail, Stream.yieldLast]

/-- With the processor running and its event clear, the generator stays in its loop. -/
private theorem Stream.loop_polling (htask : s.task = .running) (hset : s.eventSet = false) :
    (s.loop command).Polling := by
  unfold Stream.loop
  rw [htask, hset]
  cases s.queue with
  | nil => exact .inl rfl
  | cons chunk rest => exact .inr rfl

variable (r isBlocked command chain) in
/-- The beginning: an error, the loop, or the executor. -/
theorem Stream.begin_cases (s : Stream) :
    (∃ message, s.begin r isBlocked command chain = s.yieldLast (.error message)) ∨
    s.begin r isBlocked command chain = { s with usageFailed := some false, task := .running }.loop command ∨
    s.begin r isBlocked command chain = { s with usageFailed := none, point := .executing } := by
  unfold Stream.begin
  split
  · exact .inl ⟨_, rfl⟩
  · split
    · exact .inl ⟨_, rfl⟩
    · split
      · exact .inr (.inl rfl)
      · exact .inr (.inr rfl)

private theorem Stream.begin_point_ne (s : Stream) : (s.begin r isBlocked command chain).point ≠ .start := by
  rcases s.begin_cases r isBlocked command chain with ⟨_, h⟩ | h | h
  · simp [h, Stream.yieldLast]
  · rw [h]
    exact Stream.loop_point_ne _
  · simp [h]

private theorem Stream.resume_point_ne (s : Stream) : (s.resume r isBlocked command chain).point ≠ .start := by
  unfold Stream.resume
  split
  · exact s.begin_point_ne
  · exact s.loop_point_ne
  · exact s.loop_point_ne
  · exact s.respond_point_ne _ _
  · exact Stream.respond_point_ne _ _ _
  · simp [Stream.fail, Stream.yieldLast]
  · exact s.finish_point_ne
  · exact s.finish_point_ne
  · exact s.finish_point_ne
  · exact s.finish_point_ne
  · simp
  · next hpoint => simp [hpoint]
  · next hpoint => simp [hpoint]

variable (command) in
private theorem Stream.close_point (s : Stream) :
    (s.close command).point = .notifying ∨ (s.close command).point = .ended := by
  unfold Stream.close
  split
  · exact .inr rfl
  · exact .inr rfl
  · exact Stream.finish_point command _
  · exact s.finish_point command

/-! ### One step -/

/-- What a step does: the generator goes on or is closed, the processor acts while it runs, or the executor returns. -/
theorem step_cases (hst : step r isBlocked maxRows command chain s a = some u) :
    (a = .resume ∧ s.point ≠ .executing ∧ s.point ≠ .ended ∧ u = s.resume r isBlocked command chain) ∨
    (a = .close ∧ s.point ≠ .ended ∧ u = s.close command) ∨
    (s.task = .running ∧
      ((∃ output, a = .emit output ∧ s.eventSet = true ∧
        u = { s with emitted := s.emitted ++ [output.limited maxRows] }) ∨
      (∃ output, a = .emit output ∧ s.eventSet = false ∧ (output.limited maxRows).serialises = true ∧
        u = { s with
              emitted := s.emitted ++ [output.limited maxRows]
              queue := s.queue ++ [output.limited maxRows] }) ∨
      (∃ output, a = .emit output ∧ u = s) ∨
      (a = .setEvent ∧ u = { s with eventSet := true }) ∨
      ∃ how, a = .taskEnds how ∧ u = { s with task := .ended how })) ∨
    ∃ how, a = .executed how ∧ s.point = .executing ∧
      u = { s with recorded := s.recorded ++ count command how.failed, point := .counted how } := by
  cases a with
  | resume =>
    simp only [step] at hst
    split at hst
    · cases hst
    · next hpoint =>
      push Not at hpoint
      exact .inl ⟨rfl, hpoint.1, hpoint.2, (Option.some.inj hst).symm⟩
  | close =>
    simp only [step] at hst
    split at hst
    · cases hst
    · next hpoint => exact .inr (.inl ⟨rfl, hpoint, (Option.some.inj hst).symm⟩)
  | emit output =>
    simp only [step] at hst
    split at hst
    · cases hst
    · next htask =>
      refine .inr (.inr (.inl ⟨not_not.1 htask, ?_⟩))
      split at hst
      · next hset => exact .inl ⟨output, rfl, hset, (Option.some.inj hst).symm⟩
      · next hset =>
        split at hst
        · next hserialises =>
          exact .inr (.inl ⟨output, rfl, Bool.eq_false_iff.2 hset, hserialises, (Option.some.inj hst).symm⟩)
        · exact .inr (.inr (.inl ⟨output, rfl, (Option.some.inj hst).symm⟩))
  | setEvent =>
    simp only [step] at hst
    split at hst
    · cases hst
    · next htask =>
      exact .inr (.inr (.inl ⟨not_not.1 htask, .inr (.inr (.inr (.inl ⟨rfl, (Option.some.inj hst).symm⟩)))⟩))
  | taskEnds how =>
    simp only [step] at hst
    split at hst
    · cases hst
    · next htask =>
      exact .inr (.inr (.inl ⟨not_not.1 htask, .inr (.inr (.inr (.inr ⟨how, rfl, (Option.some.inj hst).symm⟩)))⟩))
  | executed how =>
    simp only [step] at hst
    split at hst
    · cases hst
    · next hpoint => exact .inr (.inr (.inr ⟨how, rfl, not_not.1 hpoint, (Option.some.inj hst).symm⟩))

/-- No step takes the generator back to its start. -/
private theorem step_point_ne (hst : step r isBlocked maxRows command chain s a = some u) (hpoint : s.point ≠ .start) :
    u.point ≠ .start := by
  rcases step_cases hst with ⟨-, -, -, rfl⟩ | ⟨-, -, rfl⟩ | ⟨-, hact⟩ | ⟨how, -, -, rfl⟩
  · exact s.resume_point_ne
  · rcases s.close_point command with h | h <;> simp [h]
  · rcases hact with ⟨_, -, -, rfl⟩ | ⟨_, -, -, -, rfl⟩ | ⟨_, -, rfl⟩ | ⟨-, rfl⟩ | ⟨_, -, rfl⟩ <;> exact hpoint
  · simp

/-- After the start, a step in which the processor neither ends nor sets its event follows. -/
private theorem step_follows (hst : step r isBlocked maxRows command chain s a = some u) (hstops : a.stops = false)
    (hpoint : s.point ≠ .start) : u.Follows s := by
  rcases step_cases hst with ⟨-, -, -, rfl⟩ | ⟨-, -, rfl⟩ | ⟨-, hact⟩ | ⟨how, -, -, rfl⟩
  · exact Stream.resume_follows hpoint
  · exact s.close_follows
  · rcases hact with ⟨_, -, -, rfl⟩ | ⟨_, -, -, -, rfl⟩ | ⟨_, -, rfl⟩ | ⟨rfl, -⟩ | ⟨_, rfl, -⟩
    · exact .of_eq rfl rfl rfl
    · exact .of_eq rfl rfl rfl
    · exact .of_eq rfl rfl rfl
    · cases hstops
    · cases hstops
  · exact .of_eq rfl rfl rfl

/-- The beginning starts the processor, or leaves it. -/
private theorem Stream.begin_stopped (hstopped : (s.begin r isBlocked command chain).Stopped) : s.Stopped := by
  rcases s.begin_cases r isBlocked command chain with ⟨_, h⟩ | h | h
  · rw [h] at hstopped
    exact (s.yieldLast_follows _).stopped_iff.1 hstopped
  · rw [h] at hstopped
    rcases (Stream.loop_follows _).stopped_iff.1 hstopped with ⟨how, htask⟩ | hrest
    · cases htask
    · exact .inr hrest
  · rw [h] at hstopped
    exact hstopped

/-- The processor was stopped before, or the step is its own. -/
private theorem stopped_of_step (hst : step r isBlocked maxRows command chain s a = some u) (hstopped : u.Stopped) :
    s.Stopped ∨ a.stops = true := by
  by_cases hstops : a.stops = true
  · exact .inr hstops
  · left
    rw [Bool.not_eq_true] at hstops
    by_cases hpoint : s.point = .start
    · rcases step_cases hst with ⟨-, -, -, rfl⟩ | ⟨-, -, rfl⟩ | ⟨-, hact⟩ | ⟨how, -, hexecuting, -⟩
      · unfold Stream.resume at hstopped
        rw [hpoint] at hstopped
        exact Stream.begin_stopped hstopped
      · exact s.close_follows.stopped_iff.1 hstopped
      · rcases hact with ⟨_, -, -, rfl⟩ | ⟨_, -, -, -, rfl⟩ | ⟨_, -, rfl⟩ | ⟨rfl, -⟩ | ⟨_, rfl, -⟩
        · exact hstopped
        · exact hstopped
        · exact hstopped
        · cases hstops
        · cases hstops
      · rw [hpoint] at hexecuting
        cases hexecuting
    · exact (step_follows hst hstops hpoint).stopped_iff.1 hstopped

/-- Its own step stops it, and it stays stopped. -/
private theorem stopped_step (hst : step r isBlocked maxRows command chain s a = some u) (hpoint : s.point ≠ .start)
    (h : s.Stopped ∨ a.stops = true) : u.Stopped := by
  by_cases hstops : a.stops = true
  · rcases step_cases hst with ⟨rfl, -⟩ | ⟨rfl, -⟩ | ⟨-, hact⟩ | ⟨how, rfl, -⟩
    · cases hstops
    · cases hstops
    · rcases hact with ⟨_, rfl, -⟩ | ⟨_, rfl, -⟩ | ⟨_, rfl, -⟩ | ⟨-, rfl⟩ | ⟨how, -, rfl⟩
      · cases hstops
      · cases hstops
      · cases hstops
      · exact .inr (.inr rfl)
      · exact .inl ⟨how, rfl⟩
    · cases hstops
  · have hstopped := h.resolve_right hstops
    rw [Bool.not_eq_true] at hstops
    exact (step_follows hst hstops hpoint).stopped_iff.2 hstopped

private theorem Stream.Follows.cancelled_set (h : u.Follows s) (hs : s.taskCancelled = true → s.eventSet = true) :
    u.taskCancelled = true → u.eventSet = true := by
  intro hu
  rw [h.eventSet]
  exact (h.cancels hu).elim hs id

/-- The task is cancelled only after the event was set. -/
private theorem cancelled_step (hst : step r isBlocked maxRows command chain s a = some u)
    (h : s.taskCancelled = true → s.eventSet = true) : u.taskCancelled = true → u.eventSet = true := by
  rcases step_cases hst with ⟨-, -, -, rfl⟩ | ⟨-, -, rfl⟩ | ⟨-, hact⟩ | ⟨how, -, -, rfl⟩
  · by_cases hpoint : s.point = .start
    · unfold Stream.resume
      rw [hpoint]
      rcases s.begin_cases r isBlocked command chain with ⟨_, hbegin⟩ | hbegin | hbegin
      · rw [hbegin]
        exact (s.yieldLast_follows _).cancelled_set h
      · rw [hbegin]
        exact (Stream.loop_follows _).cancelled_set h
      · rw [hbegin]
        exact h
    · exact (Stream.resume_follows hpoint).cancelled_set h
  · exact s.close_follows.cancelled_set h
  · rcases hact with ⟨_, -, -, rfl⟩ | ⟨_, -, -, -, rfl⟩ | ⟨_, -, rfl⟩ | ⟨-, rfl⟩ | ⟨_, -, rfl⟩
    · exact h
    · exact h
    · exact h
    · exact fun _ => rfl
    · exact h
  · exact h

/-- The processor runs, was not asked to stop, and no loop polls it any more. -/
def Stream.Abandoned (s : Stream) : Prop := s.task = .running ∧ s.eventSet = false ∧ ¬s.Polling

/-- The generator abandons the processor only where it is closed in its loop. -/
private theorem abandoned_of_step (hst : step r isBlocked maxRows command chain s a = some u) (hu : u.Abandoned) :
    s.Abandoned ∨ (a = .close ∧ s.Polling ∧ s.task = .running ∧ s.eventSet = false) := by
  obtain ⟨htask, hset, hpolling⟩ := hu
  rcases step_cases hst with ⟨-, -, -, rfl⟩ | ⟨rfl, -, rfl⟩ | ⟨-, hact⟩ | ⟨how, -, hpoint, rfl⟩
  · by_cases hstart : s.point = .start
    · -- At the start the processor is only started on the way into the loop.
      have hbegin : s.resume r isBlocked command chain = s.begin r isBlocked command chain := by
        unfold Stream.resume
        rw [hstart]
      have hnot : ¬s.Polling := by simp [Stream.Polling, hstart]
      rw [hbegin] at htask hset hpolling
      rcases s.begin_cases r isBlocked command chain with ⟨_, h⟩ | h | h
      · rw [h] at htask hset
        exact .inl ⟨htask, hset, hnot⟩
      · rw [h] at hset hpolling
        rw [(Stream.loop_follows _).eventSet] at hset
        exact absurd (Stream.loop_polling rfl hset) hpolling
      · rw [h] at htask hset
        exact .inl ⟨htask, hset, hnot⟩
    · have hfollows : (s.resume r isBlocked command chain).Follows s := Stream.resume_follows hstart
      rw [hfollows.task] at htask
      rw [hfollows.eventSet] at hset
      refine .inl ⟨htask, hset, ?_⟩
      rintro (hpoint | hpoint)
      · refine hpolling ?_
        unfold Stream.resume
        rw [hpoint]
        exact Stream.loop_polling htask hset
      · refine hpolling ?_
        unfold Stream.resume
        rw [hpoint]
        exact Stream.loop_polling htask hset
  · rw [s.close_follows.task] at htask
    rw [s.close_follows.eventSet] at hset
    by_cases hpre : s.Polling
    · exact .inr ⟨rfl, hpre, htask, hset⟩
    · exact .inl ⟨htask, hset, hpre⟩
  · rcases hact with ⟨_, -, -, rfl⟩ | ⟨_, -, -, -, rfl⟩ | ⟨_, -, rfl⟩ | ⟨-, rfl⟩ | ⟨_, -, rfl⟩
    · exact .inl ⟨htask, hset, hpolling⟩
    · exact .inl ⟨htask, hset, hpolling⟩
    · exact .inl ⟨htask, hset, hpolling⟩
    · cases hset
    · cases htask
  · refine .inl ⟨htask, hset, ?_⟩
    simp [Stream.Polling, hpoint]

/-- Once the generator has ended, the processor it started has ended, was cancelled or has its event set, if and only
if the generator was not closed in its loop while the processor was running with its event clear, or the processor
ended or set the event itself after that. -/
theorem stream_stopped_iff {history : List (Move Stream Action)}
    (h : Run (step r isBlocked maxRows command chain) {} history s) (hended : s.point = .ended)
    (hstarted : s.task ≠ .notStarted) :
    s.Stopped ↔ ∀ before m after, history = before ++ m :: after → m.act = .close → m.pre.Polling →
      m.pre.task = .running → m.pre.eventSet = false → ∃ m' ∈ after, m'.act.stops = true := by
  constructor
  · rintro hstopped before m after rfl hact hpolling htask hset
    obtain ⟨hbefore, -, hst, hafter⟩ := h.at_move
    have hpoint : m.pre.point ≠ .start := by
      intro hstart
      simp [Stream.Polling, hstart] at hpolling
    -- Closing does not stop the processor: what stopped it came after.
    have hrunning : ¬m.post.Stopped := by
      have hfollows : m.post.Follows m.pre := step_follows hst (by rw [hact]; rfl) hpoint
      have hcancelled : m.pre.taskCancelled = true → m.pre.eventSet = true :=
        hbefore.invariant (I := fun s => s.taskCancelled = true → s.eventSet = true) (fun h => by cases h)
          (fun _ _ _ hs _ hst => cancelled_step hst hs)
      rw [hfollows.stopped_iff]
      rintro (⟨how, hended⟩ | hcancel | hevent)
      · rw [htask] at hended
        cases hended
      · rw [hset] at hcancelled
        cases hcancelled hcancel
      · rw [hset] at hevent
        cases hevent
    have hcame := hafter.came_with (P := Stream.Stopped) (Q := fun m' => m'.act.stops = true)
      (fun m' hm' hpost => stopped_of_step (hafter.of_mem (I := fun _ => True) trivial (fun _ _ _ _ _ _ => trivial) hm').2.2
        hpost) hstopped
    exact hcame.resolve_left hrunning
  · intro hclosed
    by_contra hstopped
    have habandoned : s.Abandoned := by
      refine ⟨?_, ?_, ?_⟩
      · cases htask : s.task with
        | notStarted => exact absurd htask hstarted
        | running => rfl
        | ended how => exact absurd (.inl ⟨how, htask⟩) hstopped
      · exact Bool.eq_false_iff.2 fun hset => hstopped (.inr (.inr hset))
      · simp [Stream.Polling, hended]
    have hcame := h.came_with (P := Stream.Abandoned)
      (Q := fun m => m.act = .close ∧ m.pre.Polling ∧ m.pre.task = .running ∧ m.pre.eventSet = false)
      (fun m hm hpost => abandoned_of_step (h.of_mem (I := fun _ => True) trivial (fun _ _ _ _ _ _ => trivial) hm).2.2
        hpost) habandoned
    rcases hcame with ⟨htask, -⟩ | ⟨m, hm, hact, hpolling, htask, hset⟩
    · cases htask
    · obtain ⟨before, after, rfl⟩ := List.append_of_mem hm
      obtain ⟨m', hm', hstops⟩ := hclosed before m after rfl hact hpolling htask hset
      obtain ⟨-, -, hst, hafter⟩ := h.at_move
      have hpoint : m.post.point ≠ .start := by
        refine step_point_ne hst ?_
        intro hstart
        simp [Stream.Polling, hstart] at hpolling
      obtain ⟨before', after', rfl⟩ := List.append_of_mem hm'
      obtain ⟨hbefore', -, hst', hafter'⟩ := hafter.at_move
      have hpre : m'.pre.point ≠ .start :=
        hbefore'.invariant (I := fun s => s.point ≠ .start) hpoint fun _ _ _ hs _ hst => step_point_ne hst hs
      have hlast : s.Stopped ∧ s.point ≠ .start :=
        hafter'.invariant (I := fun s => s.Stopped ∧ s.point ≠ .start)
          ⟨stopped_step hst' hpre (.inr hstops), step_point_ne hst' hpre⟩
          fun _ _ _ hs _ hst => ⟨stopped_step hst hs.2 (.inl hs.1), step_point_ne hst hs.2⟩
      exact hstopped hlast.1

/-- A registry whose only processor streams. -/
def streamRegistry : Registry fun _ c _ => [c] :=
  Registry.empty.register { id := 0, command := "tail".toList, streams := true }

/-- The client goes away while the processor runs, and the processor ends as the generator does. -/
theorem stream_stopped_iff_ended :
    ∃ history s, Run (step streamRegistry (fun _ => false) 0 "tail".toList []) {} history s ∧ s.point = .ended ∧
      s.task ≠ .notStarted ∧
      (s.Stopped ↔ ∀ before m after, history = before ++ m :: after → m.act = .close → m.pre.Polling →
        m.pre.task = .running → m.pre.eventSet = false → ∃ m' ∈ after, m'.act.stops = true) := by
  have hexec : (exec (step streamRegistry (fun _ => false) 0 "tail".toList []) {}
      [.resume, .emit (.text "1".toList), .resume, .close, .taskEnds (.returned .none), .resume]).any
      (fun x => decide (x.2.point = .ended) && decide (x.2.task = .ended (.returned .none))) = true := by decide +kernel
  obtain ⟨⟨history, s⟩, hexec, hall⟩ := (Option.any_eq_true _ _).1 hexec
  obtain ⟨hpoint, htask⟩ := Bool.and_eq_true_iff.1 hall
  have hrun := run_of_exec hexec
  have hended : s.point = .ended := of_decide_eq_true hpoint
  have hstarted : s.task ≠ .notStarted := by
    rw [of_decide_eq_true htask]
    simp
  exact ⟨history, s, hrun, hended, hstarted, stream_stopped_iff hrun hended hstarted⟩

/-- The client goes away while the processor waits: the generator has ended, and the processor runs on. -/
theorem stream_outlives_client :
    ∃ history s, Run (step streamRegistry (fun _ => false) 0 "tail".toList []) {} history s ∧ s.point = .ended ∧
      s.task = .running ∧ ¬s.Stopped := by
  have hexec : (exec (step streamRegistry (fun _ => false) 0 "tail".toList []) {}
      [.resume, .emit (.text "1".toList), .resume, .close, .resume]).any
      (fun x => decide (x.2.point = .ended) && (decide (x.2.task = .running) &&
        (!x.2.taskCancelled && !x.2.eventSet))) = true := by decide +kernel
  obtain ⟨⟨history, s⟩, hexec, hall⟩ := (Option.any_eq_true _ _).1 hexec
  obtain ⟨hpoint, hrest⟩ := Bool.and_eq_true_iff.1 hall
  obtain ⟨htask, hrest⟩ := Bool.and_eq_true_iff.1 hrest
  obtain ⟨hcancelled, hset⟩ := Bool.and_eq_true_iff.1 hrest
  have hrunning : s.task = .running := of_decide_eq_true htask
  refine ⟨history, s, run_of_exec hexec, of_decide_eq_true hpoint, hrunning, ?_⟩
  rw [Bool.not_eq_true'] at hcancelled hset
  rintro (⟨how, hended⟩ | hcancel | hevent)
  · rw [hrunning] at hended
    cases hended
  · rw [hcancelled] at hcancel
    cases hcancel
  · rw [hset] at hevent
    cases hevent

end CliServer.Streaming
