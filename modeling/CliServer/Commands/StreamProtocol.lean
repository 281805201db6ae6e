import CliServer.Commands.Streaming

/-!
# The stream protocol

What a client that stays connected is sent: the outputs emitted, in order, and one terminal event; and how its request
is counted.  The invariant goes by the point at which the generator is suspended; `clean` says that the processor has
done nothing the generator answers without a terminal event.
-/

namespace CliServer.Streaming

open Transition

variable {t : CaseTable} {r : Registry t} {isBlocked : Processor → Bool} {maxRows : Int} {command : Str}
  {chain : List Str} {s u : Stream} {a : Action} {clean : Prop}

/-- The emitted outputs in their order, then one terminal event and nothing after it, counted once, as failed exactly if
that event is not `done` with 0 or without a code. -/
def Stream.Protocol (s : Stream) : Prop :=
  ∃ terminal : SseEvent, terminal.isTerminal = true ∧ s.sent = s.emitted.map .output ++ [terminal] ∧
    s.recorded = [!terminal.success]

/-- It returns, or raises an `Exception` with a message. -/
def StreamEnd.proper : StreamEnd → Bool
  | .returned _ => true
  | .raised message => message.isSome
  | .cancelled | .escaped => false

/-- A response whose outputs have a JSON text, or an `Exception` with a message. -/
def ExecutorEnd.proper : ExecutorEnd → Bool
  | .responded _ outputs => outputs.all Output.serialises
  | .raised message => message.isSome
  | .cancelled | .escaped => false

/-- The processor leaves its event alone and returns or raises an `Exception` with a message, and its outputs have a
JSON text. -/
def Action.proper : Action → Bool
  | .setEvent => false
  | .taskEnds how => how.proper
  | .executed how => how.proper
  | _ => true

/-- What the `finally` of the generator still counts. -/
def Stream.pending (command : Str) (s : Stream) : List Bool :=
  match s.usageFailed with
  | some failed => count command failed
  | none => []

/-! ### The invariant -/

/-- In the loop: what was sent and what is queued are what was emitted. -/
structure Polls (clean : Prop) (s : Stream) : Prop where
  started : s.task ≠ .notStarted
  usage : s.usageFailed = some false
  recorded : s.recorded = []
  outputs : ∃ outputs, s.sent = outputs.map .output ∧ (s.eventSet = false → outputs ++ s.queue = s.emitted)
  clean : clean ↔ s.eventSet = false ∧ ∀ how, s.task = .ended how → how.proper = true

/-- In the executor. -/
structure Executes (clean : Prop) (s : Stream) : Prop where
  usage : s.usageFailed = none
  task : s.task = .notStarted
  recorded : s.recorded = []
  sent : s.sent = []
  emitted : s.emitted = []
  clean : clean

/-- The executor has counted the command. -/
structure Counted (command : Str) (clean : Prop) (how : ExecutorEnd) (s : Stream) : Prop where
  usage : s.usageFailed = none
  task : s.task = .notStarted
  recorded : s.recorded = count command how.failed
  sent : s.sent = []
  emitted : s.emitted = []
  clean : clean ↔ how.proper = true

/-- While the outputs of a response are sent. -/
structure Responds (command : Str) (clean : Prop) (rest : List Output) (exitCode : Int) (s : Stream) : Prop where
  usage : s.usageFailed = none
  task : s.task = .notStarted
  recorded : s.recorded = count command (exitCode ≠ 0)
  outputs : ∃ outputs, s.sent = outputs.map .output ∧ s.emitted = outputs ++ rest
  clean : clean ↔ rest.all Output.serialises = true

/-- A terminal event was sent, and `counts` is how the request counts. -/
structure Finishes (command : Str) (clean : Prop) (counts : List Bool) (s : Stream) : Prop where
  task : s.task ≠ .running
  outputs : ∃ (outputs : List Output) (terminal : SseEvent), terminal.isTerminal = true ∧
    s.sent = outputs.map .output ++ [terminal] ∧ (clean ↔ outputs = s.emitted) ∧
    (clean → counts = count command !terminal.success)

/-- No terminal event was sent, and none will be. -/
structure Lost (clean : Prop) (s : Stream) : Prop where
  outputs : ∃ outputs : List Output, s.sent = outputs.map .output
  clean : ¬clean

/-- The generator is in its `finally`, or past it. -/
def Ends (command : Str) (clean : Prop) (s : Stream) : Prop := Finishes command clean s.recorded s ∨ Lost clean s

/-- The invariant, point by point. -/
def Holds (command : Str) (clean : Prop) (s : Stream) : Prop :=
  match s.point with
  | .start => s = {} ∧ clean
  | .sleeping | .yielding => Polls clean s
  | .executing => Executes clean s
  | .counted how => Counted command clean how s
  | .responding rest exitCode => Responds command clean rest exitCode s
  | .finishing => Finishes command clean (s.recorded ++ s.pending command) s
  | .notifying | .ended => Ends command clean s

/-! ### The generator keeps it -/

theorem Finishes.finish (h : Finishes command clean (s.recorded ++ s.pending command) s) :
    Holds command clean (s.finish command) := by
  unfold Stream.finish
  unfold Stream.pending at h
  cases husage : s.usageFailed with
  | none =>
    rw [husage, List.append_nil] at h
    exact .inl ⟨h.task, h.outputs⟩
  | some failed =>
    rw [husage] at h
    exact .inl ⟨h.task, h.outputs⟩

theorem Lost.finish (h : Lost clean s) : Holds command clean (s.finish command) := by
  unfold Stream.finish
  split
  · exact .inr ⟨h.outputs, h.clean⟩
  · exact .inr ⟨h.outputs, h.clean⟩

/-- All that was emitted was sent, and one last event follows. -/
private theorem Finishes.of_yieldLast {outputs : List Output} {terminal : SseEvent} (htask : s.task ≠ .running)
    (hsent : s.sent = outputs.map .output) (hterminal : terminal.isTerminal = true)
    (hclean : clean ↔ outputs = s.emitted)
    (hcounts : clean → s.recorded ++ s.pending command = count command !terminal.success) :
    Holds command clean (s.yieldLast terminal) := by
  have hsent' : (s.yieldLast terminal).sent = outputs.map .output ++ [terminal] := by
    unfold Stream.yieldLast
    rw [hsent]
  exact ⟨htask, outputs, terminal, hterminal, hsent', hclean, hcounts⟩

theorem Polls.afterLoop {how : StreamEnd} (h : Polls clean s) (htask : s.task = .ended how) (hqueue : s.queue = []) :
    Holds command clean (s.afterLoop command how) := by
  obtain ⟨outputs, hsent, hemitted⟩ := h.outputs
  have hnotRunning : s.task ≠ .running := by simp [htask]
  have hlost : ¬clean → Holds command clean (s.finish command) :=
    fun hunclean => Lost.finish ⟨⟨outputs, hsent⟩, hunclean⟩
  unfold Stream.afterLoop
  split
  · next hset => exact hlost fun hclean => Bool.false_ne_true ((h.clean.1 hclean).1.symm.trans hset)
  · next hset =>
    rw [Bool.not_eq_true] at hset
    have hall : outputs = s.emitted := by
      have hemitted := hemitted hset
      rw [hqueue, List.append_nil] at hemitted
      exact hemitted
    have hunclean : ¬how.proper = true → ¬clean := fun hproper hclean => hproper ((h.clean.1 hclean).2 how htask)
    have hproper : how.proper = true → clean := fun hproper => h.clean.2 ⟨hset, fun how' htask' => by
      obtain rfl := Task.ended.inj (htask.symm.trans htask')
      exact hproper⟩
    cases how with
    | returned code =>
      have hclean : clean := hproper rfl
      simp only [Stream.yieldDone]
      split
      · exact Finishes.of_yieldLast hnotRunning hsent rfl (iff_of_true hclean hall) fun _ => by
          simp [h.recorded, Stream.pending, SseEvent.success]
      · exact Finishes.of_yieldLast hnotRunning hsent rfl (iff_of_true hclean hall) fun _ => by
          simp [h.recorded, Stream.pending, SseEvent.success]
    | raised message =>
      cases message with
      | none => exact Lost.finish ⟨⟨outputs, hsent⟩, hunclean (by simp [StreamEnd.proper])⟩
      | some message =>
        exact Finishes.of_yieldLast hnotRunning hsent rfl (iff_of_true (hproper rfl) hall) fun _ => by
          simp [h.recorded, Stream.pending, SseEvent.success]
    | cancelled => exact hlost (hunclean (by simp [StreamEnd.proper]))
    | escaped => exact hlost (hunclean (by simp [StreamEnd.proper]))

theorem Polls.loop (h : Polls clean s) : Holds command clean (s.loop command) := by
  obtain ⟨outputs, hsent, hemitted⟩ := h.outputs
  unfold Stream.loop
  split
  · next how htask hqueue => exact h.afterLoop htask hqueue
  · split
    · next hset =>
      refine Lost.finish ⟨⟨outputs, hsent⟩, ?_⟩
      exact fun hclean => Bool.false_ne_true ((h.clean.1 hclean).1.symm.trans hset)
    · split
      · next chunk rest hqueue =>
        refine ⟨h.started, h.usage, h.recorded, ⟨outputs ++ [chunk], ?_, ?_⟩, h.clean⟩
        · simp [hsent]
        · intro hset
          have hemitted := hemitted hset
          rw [hqueue] at hemitted
          rw [List.append_assoc]
          exact hemitted
      · next hqueue => exact ⟨h.started, h.usage, h.recorded, ⟨outputs, hsent, hemitted⟩, h.clean⟩

theorem Responds.respond {rest : List Output} {exitCode : Int} (h : Responds command clean rest exitCode s) :
    Holds command clean (s.respond rest exitCode) := by
  obtain ⟨outputs, hsent, hemitted⟩ := h.outputs
  have htask : s.task ≠ .running := by simp [h.task]
  cases rest with
  | nil =>
    rw [List.append_nil] at hemitted
    have hclean : clean := h.clean.2 rfl
    refine Finishes.of_yieldLast htask hsent rfl (iff_of_true hclean hemitted.symm) fun _ => ?_
    simp [h.recorded, h.usage, Stream.pending, SseEvent.success, ExitCode.success]
  | cons output rest =>
    simp only [Stream.respond]
    split
    · next hserialises =>
      refine ⟨h.usage, h.task, h.recorded, ⟨outputs ++ [output], ?_, ?_⟩, ?_⟩
      · simp [hsent]
      · simp [hemitted]
      · rw [h.clean, List.all_cons, hserialises, Bool.true_and]
    · next hserialises =>
      have hunclean : ¬clean := by
        rw [h.clean, List.all_cons, Bool.and_eq_true]
        exact fun hall => hserialises hall.1
      have hmissing : ¬outputs = s.emitted := by
        rw [hemitted]
        simp
      exact Finishes.of_yieldLast htask hsent rfl (iff_of_false hunclean hmissing) fun hclean => absurd hclean hunclean

private theorem begin_holds (hclean : clean) : Holds command clean (Stream.begin r isBlocked command chain {}) := by
  rcases Stream.begin_cases r isBlocked command chain {} with ⟨message, h⟩ | h | h
  · rw [h]
    have hnone : ([] : List Output) = [] := rfl
    exact Finishes.of_yieldLast (by simp) rfl rfl (iff_of_true hclean hnone) fun _ => rfl
  · rw [h]
    refine Polls.loop ⟨by simp, rfl, rfl, ⟨[], rfl, fun _ => rfl⟩, ?_⟩
    exact iff_of_true hclean ⟨rfl, fun how htask => by cases htask⟩
  · rw [h]
    exact Executes.mk rfl rfl rfl rfl rfl hclean

theorem Holds.resume (h : Holds command clean s) : Holds command clean (s.resume r isBlocked command chain) := by
  unfold Holds at h
  unfold Stream.resume
  cases hpoint : s.point with
  | start =>
    rw [hpoint] at h
    obtain ⟨rfl, hclean⟩ := h
    exact begin_holds hclean
  | sleeping =>
    rw [hpoint] at h
    exact h.loop
  | yielding =>
    rw [hpoint] at h
    exact h.loop
  | executing =>
    rw [hpoint] at h
    unfold Holds
    rw [hpoint]
    exact h
  | counted how =>
    rw [hpoint] at h
    cases how with
    | responded exitCode outputs =>
      exact Responds.respond (s := { s with emitted := outputs })
        ⟨h.usage, h.task, h.recorded, ⟨[], h.sent, rfl⟩, h.clean⟩
    | raised message =>
      cases message with
      | none => exact Lost.finish ⟨⟨[], h.sent⟩, fun hclean => Bool.false_ne_true (h.clean.1 hclean)⟩
      | some message =>
        refine @Finishes.of_yieldLast _ _ _ [] _ (by simp [h.task]) h.sent rfl
          (iff_of_true (h.clean.2 rfl) h.emitted.symm) fun _ => ?_
        simp [h.recorded, h.usage, ExecutorEnd.failed, Stream.pending, SseEvent.success]
    | cancelled => exact Lost.finish ⟨⟨[], h.sent⟩, fun hclean => Bool.false_ne_true (h.clean.1 hclean)⟩
    | escaped => exact Lost.finish ⟨⟨[], h.sent⟩, fun hclean => Bool.false_ne_true (h.clean.1 hclean)⟩
  | responding rest exitCode =>
    rw [hpoint] at h
    exact h.respond
  | finishing =>
    rw [hpoint] at h
    exact h.finish
  | notifying =>
    rw [hpoint] at h
    rcases h with h | h
    · exact .inl ⟨h.task, h.outputs⟩
    · exact .inr ⟨h.outputs, h.clean⟩
  | ended =>
    rw [hpoint] at h
    unfold Holds
    rw [hpoint]
    exact h

/-! ### One step, and a run -/

/-- No move of the history was improper. -/
def Clean (history : List (Move Stream Action)) : Prop := ∀ m ∈ history, m.act.proper = true

private theorem clean_append {history : List (Move Stream Action)} {m : Move Stream Action} :
    Clean (history ++ [m]) ↔ Clean history ∧ m.act.proper = true := by
  unfold Clean
  rw [List.forall_mem_append, List.forall_mem_singleton]

theorem Holds.congr {clean' : Prop} (h : Holds command clean s) (hclean : clean' ↔ clean) : Holds command clean' s := by
  rw [propext hclean]
  exact h

/-- What the processor does is in the loop, or after it in vain. -/
theorem Holds.running (h : Holds command clean s) (htask : s.task = .running) :
    (s.Polling ∧ Polls clean s) ∨ ((s.point = .notifying ∨ s.point = .ended) ∧ Lost clean s) := by
  unfold Holds at h
  cases hpoint : s.point with
  | start =>
    rw [hpoint] at h
    rw [h.1] at htask
    cases htask
  | sleeping =>
    rw [hpoint] at h
    exact .inl ⟨.inl hpoint, h⟩
  | yielding =>
    rw [hpoint] at h
    exact .inl ⟨.inr hpoint, h⟩
  | executing =>
    rw [hpoint] at h
    exact absurd htask (by simp [h.task])
  | counted how =>
    rw [hpoint] at h
    exact absurd htask (by simp [h.task])
  | responding rest exitCode =>
    rw [hpoint] at h
    exact absurd htask (by simp [h.task])
  | finishing =>
    rw [hpoint] at h
    exact absurd htask h.task
  | notifying =>
    rw [hpoint] at h
    exact .inr ⟨.inl rfl, h.resolve_left fun hfinishes => hfinishes.task htask⟩
  | ended =>
    rw [hpoint] at h
    exact .inr ⟨.inr rfl, h.resolve_left fun hfinishes => hfinishes.task htask⟩

theorem Polls.holds (h : Polls clean s) (hpoint : s.Polling) : Holds command clean s := by
  unfold Holds
  rcases hpoint with hpoint | hpoint
  · rw [hpoint]
    exact h
  · rw [hpoint]
    exact h

theorem Lost.holds (h : Lost clean s) (hpoint : s.point = .notifying ∨ s.point = .ended) : Holds command clean s := by
  unfold Holds
  rcases hpoint with hpoint | hpoint
  · rw [hpoint]
    exact .inr h
  · rw [hpoint]
    exact .inr h

/-- The processor acts. -/
private theorem Holds.acts (h : Holds command clean s) (htask : s.task = .running) {clean' : Prop}
    (hclean' : clean' → clean)
    (hpoint : u.point = s.point) (hsent : u.sent = s.sent) (hpolls : Polls clean s → Polls clean' u) :
    Holds command clean' u := by
  rcases h.running htask with ⟨hpolling, hpollsS⟩ | ⟨hends, hlost⟩
  · refine (hpolls hpollsS).holds ?_
    unfold Stream.Polling
    rw [hpoint]
    exact hpolling
  · refine Lost.holds ⟨?_, fun h' => hlost.clean (hclean' h')⟩ ?_
    · rw [hsent]
      exact hlost.outputs
    · rw [hpoint]
      exact hends

theorem holds_step {history : List (Move Stream Action)} (h : Holds command (Clean history) s) (hclose : a ≠ .close)
    (hst : step r isBlocked maxRows command chain s a = some u) : Holds command (Clean (history ++ [⟨s, a, u⟩])) u := by
  rcases step_cases hst with ⟨rfl, -, -, rfl⟩ | ⟨rfl, -⟩ | ⟨htask, hact⟩ | ⟨how, rfl, hpoint, rfl⟩
  · exact h.resume.congr (clean_append.trans (and_iff_left rfl))
  · exact absurd rfl hclose
  · refine h.acts htask (fun h' => (clean_append.1 h').1) ?_ ?_ fun hpolls => ?_
    · rcases hact with ⟨_, -, -, rfl⟩ | ⟨_, -, -, -, rfl⟩ | ⟨_, -, rfl⟩ | ⟨-, rfl⟩ | ⟨_, -, rfl⟩ <;> rfl
    · rcases hact with ⟨_, -, -, rfl⟩ | ⟨_, -, -, -, rfl⟩ | ⟨_, -, rfl⟩ | ⟨-, rfl⟩ | ⟨_, -, rfl⟩ <;> rfl
    · obtain ⟨outputs, hsent, hemitted⟩ := hpolls.outputs
      have hclean := hpolls.clean
      rcases hact with ⟨output, rfl, hset, rfl⟩ | ⟨output, rfl, hset, -, rfl⟩ | ⟨output, rfl, rfl⟩ | ⟨rfl, rfl⟩ |
        ⟨how, rfl, rfl⟩
      · refine ⟨hpolls.started, hpolls.usage, hpolls.recorded, ⟨outputs, hsent, ?_⟩, ?_⟩
        · intro hclear
          exact absurd (hclear.symm.trans hset) (by simp)
        · rw [clean_append, hclean]
          exact and_iff_left rfl
      · refine ⟨hpolls.started, hpolls.usage, hpolls.recorded, ⟨outputs, hsent, ?_⟩, ?_⟩
        · intro hclear
          show outputs ++ (s.queue ++ _) = s.emitted ++ _
          rw [← List.append_assoc, hemitted hclear]
        · rw [clean_append, hclean]
          exact and_iff_left rfl
      · refine ⟨hpolls.started, hpolls.usage, hpolls.recorded, ⟨outputs, hsent, hemitted⟩, ?_⟩
        rw [clean_append, hclean]
        exact and_iff_left rfl
      · refine ⟨hpolls.started, hpolls.usage, hpolls.recorded, ⟨outputs, hsent, ?_⟩, ?_⟩
        · intro hclear
          cases hclear
        · rw [clean_append]
          simp [Action.proper]
      · refine ⟨by simp, hpolls.usage, hpolls.recorded, ⟨outputs, hsent, hemitted⟩, ?_⟩
        rw [clean_append, hclean, htask]
        simp [Action.proper]
  · unfold Holds at h
    rw [hpoint] at h
    refine Counted.mk h.usage h.task ?_ h.sent h.emitted ?_
    · simp [h.recorded]
    · exact clean_append.trans (and_iff_right h.clean)

/-! ### The generator ends -/

/-- Going on and on, the generator ends. -/
def Halts (r : Registry t) (isBlocked : Processor → Bool) (maxRows : Int) (command : Str) (chain : List Str)
    (s : Stream) : Prop :=
  ∃ moves u, GuardedRun (step r isBlocked maxRows command chain) (fun _ a => a = .resume) s moves u ∧ u.point = .ended

private theorem Halts.of_resume (h : Halts r isBlocked maxRows command chain (s.resume r isBlocked command chain))
    (hexecuting : s.point ≠ .executing) : Halts r isBlocked maxRows command chain s := by
  by_cases hended : s.point = .ended
  · exact ⟨[], s, .start, hended⟩
  · obtain ⟨moves, u, hrun, hu⟩ := h
    have hst : step r isBlocked maxRows command chain s .resume = some (s.resume r isBlocked command chain) := by
      simp [step, hexecuting, hended]
    have hone := GuardedRun.step (G := fun _ a => a = Action.resume) GuardedRun.start rfl hst
    exact ⟨_, u, hone.append hrun, hu⟩

private theorem halts_of_ends (h : s.point = .notifying ∨ s.point = .ended) :
    Halts r isBlocked maxRows command chain s := by
  rcases h with h | h
  · refine Halts.of_resume ⟨[], _, .start, ?_⟩ (by simp [h])
    unfold Stream.resume
    rw [h]
  · exact ⟨[], s, .start, h⟩

private theorem halts_finish : Halts r isBlocked maxRows command chain (s.finish command) := halts_of_ends
    (s.finish_point command)

private theorem halts_of_finishing (h : s.point = .finishing) : Halts r isBlocked maxRows command chain s := by
  refine Halts.of_resume ?_ (by simp [h])
  unfold Stream.resume
  rw [h]
  exact halts_finish

private theorem halts_respond (rest : List Output) (exitCode : Int) :
    Halts r isBlocked maxRows command chain (s.respond rest exitCode) := by
  induction rest generalizing s with
  | nil => exact halts_of_finishing (s.yieldDone_point _)
  | cons output rest ih =>
    simp only [Stream.respond]
    split
    · exact Halts.of_resume ih (by simp)
    · exact halts_of_finishing rfl

private theorem halts_afterLoop (how : StreamEnd) :
    Halts r isBlocked maxRows command chain (s.afterLoop command how) := by
  unfold Stream.afterLoop
  split
  · exact halts_finish
  · cases how with
    | returned code => exact halts_of_finishing (Stream.yieldDone_point _ _)
    | raised message =>
      cases message with
      | none => exact halts_finish
      | some message => exact halts_of_finishing rfl
    | cancelled => exact halts_finish
    | escaped => exact halts_finish

/-- Once the task has ended, every turn of the loop takes one chunk. -/
private theorem halts_loop {how : StreamEnd} (htask : s.task = .ended how) :
    Halts r isBlocked maxRows command chain (s.loop command) := by
  induction hqueue : s.queue generalizing s with
  | nil =>
    have hloop : s.loop command = s.afterLoop command how := by
      unfold Stream.loop
      rw [htask, hqueue]
    rw [hloop]
    exact halts_afterLoop how
  | cons chunk rest ih =>
    unfold Stream.loop
    split
    · next hempty =>
      rw [hqueue] at hempty
      cases hempty
    · split
      · exact halts_finish
      · split
        · next chunk' rest' hcons =>
          obtain ⟨-, rfl⟩ := List.cons.inj (hqueue.symm.trans hcons)
          refine Halts.of_resume ?_ (by simp)
          exact ih (s := { s with queue := rest, sent := s.sent ++ [.output chunk'], point := .yielding }) htask rfl
        · next hempty =>
          rw [hqueue] at hempty
          cases hempty

private theorem Polls.halts (h : Polls clean s) (htask : s.task ≠ .running) (hpoint : s.Polling) :
    Halts r isBlocked maxRows command chain s := by
  have hended : ∃ how, s.task = .ended how := by
    cases hs : s.task with
    | notStarted => exact absurd hs h.started
    | running => exact absurd hs htask
    | ended how => exact ⟨how, rfl⟩
  obtain ⟨how, hended⟩ := hended
  have hresume : s.resume r isBlocked command chain = s.loop command := by
    unfold Stream.resume
    rcases hpoint with hpoint | hpoint <;> rw [hpoint]
  refine Halts.of_resume ?_ ?_
  · rw [hresume]
    exact halts_loop hended
  · rcases hpoint with hpoint | hpoint <;> simp [hpoint]

/-- Once its task has ended or the executor has counted the command, the generator ends. -/
private theorem Holds.halts (h : Holds command clean s) (hstart : s.point ≠ .start) (hexecuting : s.point ≠ .executing)
    (htask : s.task ≠ .running) : Halts r isBlocked maxRows command chain s := by
  unfold Holds at h
  cases hpoint : s.point with
  | start => exact absurd hpoint hstart
  | sleeping =>
    rw [hpoint] at h
    exact h.halts htask (.inl hpoint)
  | yielding =>
    rw [hpoint] at h
    exact h.halts htask (.inr hpoint)
  | executing => exact absurd hpoint hexecuting
  | counted how =>
    refine Halts.of_resume ?_ hexecuting
    unfold Stream.resume
    rw [hpoint]
    cases how with
    | responded exitCode outputs => exact halts_respond outputs exitCode
    | raised message =>
      cases message with
      | none => exact halts_finish
      | some message => exact halts_of_finishing rfl
    | cancelled => exact halts_finish
    | escaped => exact halts_finish
  | responding rest exitCode =>
    refine Halts.of_resume ?_ hexecuting
    unfold Stream.resume
    rw [hpoint]
    exact halts_respond rest exitCode
  | finishing => exact halts_of_finishing hpoint
  | notifying => exact halts_of_ends (.inl hpoint)
  | ended => exact halts_of_ends (.inr hpoint)

/-! ### The protocol -/

private theorem output_injective : Function.Injective SseEvent.output := fun _ _ h => SseEvent.output.inj h

private theorem Ends.protocol_iff (h : Ends command clean s) : s.Protocol ↔ strip command ≠ [] ∧ clean := by
  unfold Stream.Protocol
  rcases h with h | h
  · obtain ⟨outputs, terminal, hterminal, hsent, hclean, hcounts⟩ := h.outputs
    constructor
    · rintro ⟨terminal', hterminal', hsent', hrecorded⟩
      rw [hsent] at hsent'
      obtain ⟨houtputs, hlast⟩ := List.append_inj' hsent' rfl
      obtain rfl := List.singleton_inj.1 hlast
      have hclean := hclean.2 (output_injective.list_map houtputs)
      refine ⟨?_, hclean⟩
      intro hblank
      have hcounts := hcounts hclean
      rw [hrecorded] at hcounts
      simp [count, hblank] at hcounts
    · rintro ⟨hcommand, h'⟩
      refine ⟨terminal, hterminal, ?_, ?_⟩
      · rw [hsent, hclean.1 h']
      · rw [hcounts h']
        simp [count, hcommand]
  · obtain ⟨outputs, hsent⟩ := h.outputs
    constructor
    · rintro ⟨terminal, hterminal, hsent', -⟩
      have hmem : terminal ∈ outputs.map SseEvent.output := by
        rw [← hsent, hsent']
        simp
      obtain ⟨output, -, rfl⟩ := List.mem_map.1 hmem
      cases hterminal
    · rintro ⟨-, h'⟩
      exact absurd h' h.clean

/-- In every run in which the client stays connected: where the generator has ended, the client was sent the outputs
emitted and one terminal event and the request was counted once, as that event says, if and only if the command is not
blank and the processor did not set its event, returned or raised an `Exception` with a message and had only outputs
with a JSON text; and once the task has ended, or the executor has returned, the generator ends. -/
theorem stream_protocol_iff {history : List (Move Stream Action)}
    (h : GuardedRun (step r isBlocked maxRows command chain) (fun _ a => a ≠ .close) {} history s) :
    (s.point = .ended → (s.Protocol ↔ strip command ≠ [] ∧ ∀ m ∈ history, m.act.proper = true)) ∧
    (s.point ≠ .start → s.point ≠ .executing → s.task ≠ .running →
      ∃ moves u, GuardedRun (step r isBlocked maxRows command chain) (fun _ a => a = .resume) s moves u ∧
        u.point = .ended) := by
  have hholds : Holds command (Clean history) s :=
    h.history (I := fun history s => Holds command (Clean history) s) ⟨rfl, fun _ hm => by cases hm⟩
      fun _ _ _ _ hs hclose hst => holds_step hs hclose hst
  constructor
  · intro hended
    unfold Holds at hholds
    rw [hended] at hholds
    exact hholds.protocol_iff
  · exact hholds.halts

theorem stream_protocol_iff_returned :
    ∃ history s, GuardedRun (step streamRegistry (fun _ => false) 0 "tail".toList []) (fun _ a => a ≠ .close) {}
        history s ∧ s.point = .ended ∧
        (s.Protocol ↔ strip "tail".toList ≠ [] ∧ ∀ m ∈ history, m.act.proper = true) := by
  have hexec : (exec (step streamRegistry (fun _ => false) 0 "tail".toList []) {}
      [.resume, .emit (.text "1".toList), .resume, .emit (.text "2".toList), .taskEnds (.returned .none), .resume,
      .resume,
        .resume, .resume]).any (fun x => decide (x.2.point = .ended)) = true := by decide +kernel
  obtain ⟨⟨history, s⟩, hexec, hpoint⟩ := (Option.any_eq_true _ _).1 hexec
  have hended : s.point = .ended := of_decide_eq_true hpoint
  have hrun : GuardedRun (step streamRegistry (fun _ => false) 0 "tail".toList []) (fun _ a => a ≠ .close)
      {} history s := by
    refine (run_of_exec hexec).restrict fun m hm hclose => ?_
    have hact := act_mem_of_exec hexec m hm
    rw [hclose] at hact
    simp at hact
  exact ⟨history, s, hrun, hended, (stream_protocol_iff hrun).1 hended⟩

/-- The processor raises a `CancelledError`: the client is sent its output and nothing more, and the request counts as a
success. -/
theorem stream_without_terminal :
    ∃ history s, GuardedRun (step streamRegistry (fun _ => false) 0 "tail".toList []) (fun _ a => a ≠ .close) {}
        history s ∧ s.point = .ended ∧ s.sent = [.output (.text "1".toList)] ∧ s.recorded = [false] ∧ ¬s.Protocol := by
  have hexec : (exec (step streamRegistry (fun _ => false) 0 "tail".toList []) {}
      [.resume, .emit (.text "1".toList), .taskEnds .cancelled, .resume, .resume, .resume]).any
      (fun x => decide (x.2.point = .ended) && (decide (x.2.sent = [.output (.text "1".toList)]) &&
        decide (x.2.recorded = [false]))) = true := by decide +kernel
  obtain ⟨⟨history, s⟩, hexec, hall⟩ := (Option.any_eq_true _ _).1 hexec
  obtain ⟨hpoint, hrest⟩ := Bool.and_eq_true_iff.1 hall
  obtain ⟨hsent, hrecorded⟩ := Bool.and_eq_true_iff.1 hrest
  have hsent : s.sent = [.output (.text "1".toList)] := of_decide_eq_true hsent
  have hrun : GuardedRun (step streamRegistry (fun _ => false) 0 "tail".toList []) (fun _ a => a ≠ .close)
      {} history s := by
    refine (run_of_exec hexec).restrict fun m hm hclose => ?_
    have hact := act_mem_of_exec hexec m hm
    rw [hclose] at hact
    simp at hact
  refine ⟨history, s, hrun, of_decide_eq_true hpoint, hsent, of_decide_eq_true hrecorded, ?_⟩
  rintro ⟨terminal, hterminal, hsent', -⟩
  have hmem : terminal ∈ s.sent := by
    rw [hsent']
    simp
  rw [hsent] at hmem
  obtain rfl := List.mem_singleton.1 hmem
  cases hterminal

end CliServer.Streaming
