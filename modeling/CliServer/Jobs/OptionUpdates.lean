import CliServer.Jobs.Timers

/-!
# Is `update_options` atomic?

`update_options` checks `max_concurrent_runs` first; then it checks and writes one option after the other, starts a
queued run if the limit was given, and reschedules an active job, which may raise.  What it has done by then it
leaves.  So a call that raises leaves the job as it was exactly when it is refused at once, when the options before
the one that fails its check are given with the values they have, or when all are and the failing reschedule finds no
timer to cancel and no queued run to start (`update_options_atomic_iff`).
-/

namespace CliServer

open Transition

/-- What `update_options` raises: for an option, or in `_schedule_next`. -/
inductive UpdateError where
  | option (error : OptionError)
  | reschedule
  deriving DecidableEq

/-- The end of the writes of `update_options`: `max_concurrent_runs`, which may free a slot for a queued run. -/
def JobRegistration.writeLimit (reg : JobRegistration) (options : CliJobOptions) (limit : Option { n : Nat // 0 < n }) :
    JobRegistration :=
  match limit with
  | none => { reg with options := options }
  | some ⟨limit, hlimit⟩ =>
    { reg with options := { options with
      maxConcurrentRuns := limit, maxConcurrentRuns_pos := hlimit } }.startQueued

/-- `update_options`, with what it raises. -/
def TimedJob.tryUpdateOptions (cron : Cron) (running : Bool) (changes : OptionChanges) (now : Nat) (job : TimedJob) :
    TimedJob × Option UpdateError :=
  match changes.maxConcurrentRuns, changes.maxConcurrentRuns.bind validateMaxConcurrentRuns with
  | some _, none => (job, some (.option .maxConcurrentRuns))
  | _, limit =>
    match runWrites (optionWrites cron.isValid changes) job.reg.options with
    | (options, some e) => ({ job with reg := { job.reg with options := options } }, some (.option e))
    | (options, none) =>
      let updated := { job with reg := job.reg.writeLimit options limit }
      if updated.reg.status = .active then
        match updated.cancelTimer.scheduleNext cron running now {} with
        | none => (updated.cancelTimer, some .reschedule)
        | some scheduled => (scheduled, none)
      else (updated, none)

/-- A job with the options, the runs and the queue flag, the next run and the pending timers of another. -/
structure TimedJob.SameAs (job' job : TimedJob) : Prop where
  options : job'.reg.options = job.reg.options
  runs : job'.reg.runs = job.reg.runs
  queued : job'.reg.queued = job.reg.queued
  nextRunAt : job'.nextRunAt = job.nextRunAt
  timers : job'.timers = job.timers

/-! ### When a call that raises changes nothing -/

/-- An option as `update_options` comes to it: whether it passes its check, and whether it is not given or given with
the value it has. -/
structure OptionCheck where
  valid : Bool
  same : Bool

/-- `parse_interval` reads the text. -/
def isInterval (s : Str) : Bool := (parseInterval s).toOption.isSome

/-- The options in the order of `update_options`. -/
def optionChecks (isCron : Str → Bool) (c : OptionChanges) (o : CliJobOptions) : List OptionCheck :=
  [⟨true, c.description.all fun d => o.description = some d⟩,
    ⟨true, c.group.all fun g => o.group = some g⟩,
    ⟨!(c.schedule.isSome && c.interval.isSome), true⟩,
    ⟨c.schedule.all isCron, c.schedule.all fun s => o.schedule = some s ∧ o.interval = none⟩,
    ⟨c.interval.all isInterval, c.interval.all fun i => o.interval = some i ∧ o.schedule = none⟩,
    ⟨true, c.maxRetries.all fun n => o.maxRetries = n⟩,
    ⟨c.retryDelay.all isInterval, c.retryDelay.all fun d => o.retryDelay = d⟩,
    ⟨c.retryStrategy.all fun s => s ∈ retryStrategies, c.retryStrategy.all fun s => o.retryStrategy = s⟩,
    ⟨c.timeout.all isInterval, c.timeout.all fun t => o.timeout = some t⟩,
    ⟨c.overlapPolicy.all fun s => s ∈ overlapPolicies, c.overlapPolicy.all fun s => o.overlapPolicy = s⟩]

/-- No option before the first invalid one is given a new value. -/
def changesNothing : List OptionCheck → Bool
  | [] => true
  | x :: xs => !x.valid || (x.same && changesNothing xs)

/-- `_schedule_next` raises for a job with this schedule or interval. -/
def NextRunRaises (cron : Cron) (timing : Timing) (lastRunAt : Option Nat) (now : Nat) : Prop :=
  nextRun cron { schedule := timing.schedule, interval := timing.interval, maxConcurrentRuns_pos := Nat.one_pos }
    lastRunAt now {} = none

/-- The limit is not given, or given as it is, and then no queued run could start. -/
def LimitSame (c : OptionChanges) (reg : JobRegistration) : Prop :=
  ∀ n, c.maxConcurrentRuns = some n → n = reg.limit ∧ ¬ (reg.queued = true ∧ reg.taken < reg.limit)

/-- There is no timer that `update_options` would cancel, and no next run that it would forget. -/
def NothingScheduled (job : TimedJob) : Prop :=
  job.nextRunAt = none ∧ ∀ timer ∈ job.timers, job.timerTask ≠ some timer.id

/-- The call is refused at once; or no option before the first invalid one is given a new value, and, if all are valid
and the reschedule raises, nothing is scheduled and no queued run can start. -/
def KeepsOnError (cron : Cron) (running : Bool) (c : OptionChanges) (now : Nat) (job : TimedJob) : Prop :=
  let checks := optionChecks cron.isValid c job.reg.options
  (∀ n, c.maxConcurrentRuns = some n → 0 < n) →
    ((∃ x ∈ checks, x.valid = false) → changesNothing checks = true) ∧
    ((∀ x ∈ checks, x.valid = true) → job.reg.status = .active → running = true →
      NextRunRaises cron (c.timing job.reg.options) job.lastRunAt now →
      changesNothing checks = true ∧ LimitSame c job.reg ∧ NothingScheduled job)

/-! ### The writes -/

/-- A check describes a write: when it goes through, and when it changes nothing. -/
structure OptionCheck.Describes (o : CliJobOptions) (w : Write) (x : OptionCheck) : Prop where
  valid : ∀ o₁, (∃ o₂, w o₁ = .ok o₂) ↔ x.valid = true
  same : ∀ o', w o = .ok o' → (o' = o ↔ x.same = true)

/-- The write changes the options only together with a part of them. -/
def Write.Sets {α : Type} (part : CliJobOptions → α) (w : Write) : Prop :=
  ∀ o o', w o = .ok o' → part o' = part o → o' = o

/-- What a write changes the later ones keep. -/
def WritesApart : List Write → Prop
  | [] => True
  | w :: ws => (∃ (α : Type) (part : CliJobOptions → α), w.Sets part ∧ ∀ v ∈ ws, v.Keeps part) ∧ WritesApart ws

/-- Writes that do not touch what the others write change nothing together only if each of them does. -/
private theorem runWrites_eq_iff {o : CliJobOptions} {ws : List Write} {checks : List OptionCheck}
    (happart : WritesApart ws)
    (h : List.Forall₂ (OptionCheck.Describes o) ws checks) :
    ((runWrites ws o).1 = o ↔ changesNothing checks = true) := by
  induction h with
  | nil => simp [runWrites, changesNothing]
  | @cons w x ws checks hx _ ih =>
    obtain ⟨⟨α, part, hsets, hkeeps⟩, hrest⟩ := happart
    rw [runWrites, changesNothing]
    cases hw : w o with
    | error e =>
      have hinvalid : x.valid = false := by
        rw [← Bool.not_eq_true, ← hx.valid o]
        rintro ⟨o', ho'⟩
        rw [hw] at ho'
        cases ho'
      simp [hinvalid]
    | ok o' =>
      have hvalid : x.valid = true := (hx.valid o).1 ⟨o', hw⟩
      rw [hvalid, Bool.not_true, Bool.false_or, Bool.and_eq_true, ← hx.same o' hw, ← ih hrest]
      constructor
      · intro hrun
        have hpart : part o' = part o := by
          rw [← runWrites_keeps hkeeps o']
          exact congrArg part hrun
        obtain rfl := hsets o o' hw hpart
        exact ⟨rfl, hrun⟩
      · rintro ⟨rfl, hrun⟩
        exact hrun

/-- When they raise. -/
private theorem runWrites_raises_iff {o o₁ : CliJobOptions} {ws : List Write} {checks : List OptionCheck}
    (h : List.Forall₂ (OptionCheck.Describes o) ws checks) :
    ((runWrites ws o₁).2 = none ↔ ∀ x ∈ checks, x.valid = true) := by
  induction h generalizing o₁ with
  | nil => simp [runWrites]
  | @cons w x ws checks hx _ ih =>
    rw [runWrites, List.forall_mem_cons, ← hx.valid o₁]
    cases hw : w o₁ with
    | error e => simp
    | ok o' => simp [ih]

section Describes

variable {α β : Type} {o : CliJobOptions}

private theorem describes_given {value : Option α} {write : α → Write} {valid same : α → Bool}
    (h : ∀ a, OptionCheck.Describes o (write a) ⟨valid a, same a⟩) :
    OptionCheck.Describes o (.given value write) ⟨value.all valid, value.all same⟩ := by
  cases value with
  | none =>
    refine ⟨fun o₁ => by simp [Write.given], fun o' ho' => ?_⟩
    obtain rfl : o = o' := Except.ok.inj ho'
    simp
  | some a => exact h a

private theorem describes_write {value : Option α} {write : α → CliJobOptions → CliJobOptions} {same : α → Bool}
    (h : ∀ a, write a o = o ↔ same a = true) :
    OptionCheck.Describes o (.given value fun a o => .ok (write a o)) ⟨true, value.all same⟩ := by
  cases value with
  | none =>
    refine ⟨fun o₁ => by simp [Write.given], fun o' ho' => ?_⟩
    obtain rfl : o = o' := Except.ok.inj ho'
    simp
  | some a =>
    refine ⟨fun o₁ => by simp [Write.given], fun o' ho' => ?_⟩
    obtain rfl : write a o = o' := Except.ok.inj ho'
    exact h a

private theorem describes_ok {write : CliJobOptions → CliJobOptions} {same : Bool} (h : write o = o ↔ same = true) :
    OptionCheck.Describes o (fun o => .ok (write o)) ⟨true, same⟩ := by
  refine ⟨fun o₁ => by simp, fun o' ho' => ?_⟩
  obtain rfl := Except.ok.inj ho'
  exact h

private theorem describes_member {allowed : List Str} {s : Str} {error : OptionError}
    {write : CliJobOptions → CliJobOptions}
    {same : Bool} (h : write o = o ↔ same = true) :
    OptionCheck.Describes o (fun o => if s ∈ allowed then .ok (write o) else .error error) ⟨s ∈ allowed, same⟩ := by
  by_cases hs : s ∈ allowed
  · simpa only [hs, if_true, decide_true] using describes_ok h
  · exact ⟨fun o₁ => by simp [hs], fun o' ho' => by simp [hs] at ho'⟩

private theorem describes_interval {value : Str} {write : CliJobOptions → CliJobOptions} {same : Bool}
    (h : write o = o ↔ same = true) :
    OptionCheck.Describes o (.interval value write) ⟨isInterval value, same⟩ := by
  unfold Write.interval isInterval
  cases parseInterval value with
  | error e => exact ⟨fun o₁ => by simp [Except.toOption], fun o' ho' => by cases ho'⟩
  | ok seconds =>
    refine ⟨fun o₁ => by simp [Except.toOption], fun o' ho' => ?_⟩
    obtain rfl := Except.ok.inj ho'
    exact h

end Describes

/-- The checks describe the writes of `update_options`. -/
private theorem describes_optionWrites (isCron : Str → Bool) (c : OptionChanges) (o : CliJobOptions) :
    List.Forall₂ (OptionCheck.Describes o) (optionWrites isCron c) (optionChecks isCron c o) := by
  have hnone : ∀ a : Bool, OptionCheck.Describes o
      (fun o => if a = true then .error .scheduleAndInterval else .ok o) ⟨!a, true⟩ := by
    intro a
    cases a with
    | true => exact ⟨fun o₁ => by simp, fun o' ho' => by simp at ho'⟩
    | false => exact ⟨fun o₁ => by simp, fun o' ho' => by simpa [eq_comm] using ho'⟩
  refine .cons (describes_write fun d => ?_) (.cons (describes_write fun g => ?_)
    (.cons ?_ (.cons (describes_given fun s => ?_) (.cons (describes_given fun i => describes_interval ?_)
      (.cons (describes_write fun n => ?_) (.cons (describes_given fun d => describes_interval ?_)
        (.cons (describes_given fun s => ?_) (.cons (describes_given fun t => describes_interval ?_)
          (.cons (describes_given fun s => ?_) .nil)))))))))
  · cases o; simp [eq_comm]
  · cases o; simp [eq_comm]
  · simpa using hnone (c.schedule.isSome && c.interval.isSome)
  · cases hcron : isCron s with
    | false => exact ⟨fun o₁ => by simp, fun o' ho' => by simp at ho'⟩
    | true =>
      have hsame : { o with schedule := some s, interval := none } = o ↔
          decide (o.schedule = some s ∧ o.interval = none) = true := by
        rw [decide_eq_true_eq]
        refine ⟨fun h => ⟨(congrArg CliJobOptions.schedule h).symm, (congrArg CliJobOptions.interval h).symm⟩, ?_⟩
        rintro ⟨hs, hi⟩
        rw [← hs, ← hi]
      simpa only [hcron, if_true] using describes_ok hsame
  · rw [decide_eq_true_eq]
    refine ⟨fun h => ⟨(congrArg CliJobOptions.interval h).symm, (congrArg CliJobOptions.schedule h).symm⟩, ?_⟩
    rintro ⟨hi, hs⟩
    rw [← hs, ← hi]
  · cases o; simp [eq_comm]
  · cases o; simp [eq_comm]
  · exact describes_member (by cases o; simp [eq_comm])
  · cases o; simp [eq_comm]
  · exact describes_member (by cases o; simp [eq_comm])

section Apart

variable {α β : Type} {part : CliJobOptions → β}

theorem Write.Sets.of_same {w : Write} (h : ∀ o o', w o = .ok o' → o' = o) : w.Sets part := fun o o' ho _ => h o o' ho

theorem Write.Sets.given {value : Option α} {write : α → Write} (h : ∀ a, (write a).Sets part) :
    (Write.given value write).Sets part := by
  cases value with
  | none => exact .of_same fun o o' ho => (Except.ok.inj ho).symm
  | some a => exact h a

theorem Write.Sets.ok {write : CliJobOptions → CliJobOptions} (h : ∀ o, part (write o) = part o → write o = o) :
    Write.Sets part fun o => .ok (write o) := by
  intro o o' ho
  obtain rfl := Except.ok.inj ho
  exact h o

theorem Write.Sets.interval {value : Str} {write : CliJobOptions → CliJobOptions}
    (h : ∀ o, part (write o) = part o → write o = o) : (Write.interval value write).Sets part := by
  intro o o' ho
  simp only [Write.interval] at ho
  split at ho
  · cases ho
  · obtain rfl := Except.ok.inj ho
    exact h o

theorem Write.Keeps.cron {isCron : Str → Bool}
    (h : ∀ o s, part { o with schedule := some s, interval := none } = part o) (s : Str) :
    Write.Keeps part fun o =>
      if isCron s then .ok { o with schedule := some s, interval := none } else .error (.cron s) := by
  cases hcron : isCron s with
  | false => exact fun o o' ho => by simp at ho
  | true =>
    intro o o' ho
    obtain rfl : _ = o' := by simpa using ho
    exact h o s

theorem Write.Keeps.check {bad : Prop} [Decidable bad] :
    Write.Keeps part fun o => if bad then .error .scheduleAndInterval else .ok o := by
  intro o o' ho
  split at ho
  · cases ho
  · rw [Except.ok.inj ho]

end Apart

/-- What the last writes keep, from the last one. -/
private theorem keeps_policy {β : Type} {part : CliJobOptions → β} (c : OptionChanges) (isCron : Str → Bool)
    (hpolicy : ∀ o p, part { o with overlapPolicy := p } = part o) :
    ∀ v ∈ (optionWrites isCron c).drop 9, v.Keeps part := by
  simp only [optionWrites, List.drop_succ_cons, List.drop_zero, List.forall_mem_cons, List.not_mem_nil, false_imp_iff,
    implies_true, and_true]
  exact .given fun s => .member fun o => hpolicy o s

private theorem keeps_timeout {β : Type} {part : CliJobOptions → β} (c : OptionChanges) (isCron : Str → Bool)
    (htimeout : ∀ o t, part { o with timeout := t } = part o)
    (hpolicy : ∀ o p, part { o with overlapPolicy := p } = part o) :
    ∀ v ∈ (optionWrites isCron c).drop 8, v.Keeps part :=
  List.forall_mem_cons.2 ⟨.given fun t => .interval fun o => htimeout o (some t), keeps_policy c isCron hpolicy⟩

private theorem keeps_strategy {β : Type} {part : CliJobOptions → β} (c : OptionChanges) (isCron : Str → Bool)
    (hstrategy : ∀ o r, part { o with retryStrategy := r } = part o)
    (htimeout : ∀ o t, part { o with timeout := t } = part o)
    (hpolicy : ∀ o p, part { o with overlapPolicy := p } = part o) :
    ∀ v ∈ (optionWrites isCron c).drop 7, v.Keeps part :=
  List.forall_mem_cons.2 ⟨.given fun s => .member fun o => hstrategy o s, keeps_timeout c isCron htimeout hpolicy⟩

private theorem keeps_delay {β : Type} {part : CliJobOptions → β} (c : OptionChanges) (isCron : Str → Bool)
    (hdelay : ∀ o d, part { o with retryDelay := d } = part o)
    (hstrategy : ∀ o r, part { o with retryStrategy := r } = part o)
    (htimeout : ∀ o t, part { o with timeout := t } = part o)
    (hpolicy : ∀ o p, part { o with overlapPolicy := p } = part o) :
    ∀ v ∈ (optionWrites isCron c).drop 6, v.Keeps part :=
  List.forall_mem_cons.2 ⟨.given fun d => .interval fun o => hdelay o d,
    keeps_strategy c isCron hstrategy htimeout hpolicy⟩

/-- The writes from the schedule's on keep a part that is about other options. -/
private theorem keeps_schedule {β : Type} {part : CliJobOptions → β} (c : OptionChanges) (isCron : Str → Bool)
    (htiming : ∀ o s i, part { o with schedule := s, interval := i } = part o)
    (hretries : ∀ o n, part { o with maxRetries := n } = part o)
    (hdelay : ∀ o d, part { o with retryDelay := d } = part o)
    (hstrategy : ∀ o r, part { o with retryStrategy := r } = part o)
    (htimeout : ∀ o t, part { o with timeout := t } = part o)
    (hpolicy : ∀ o p, part { o with overlapPolicy := p } = part o) :
    ∀ v ∈ (optionWrites isCron c).drop 3, v.Keeps part :=
  List.forall_mem_cons.2 ⟨.given (.cron fun o s => htiming o (some s) none),
    List.forall_mem_cons.2 ⟨.given fun i => .interval fun o => htiming o none (some i),
      List.forall_mem_cons.2 ⟨.given fun n => .ok fun o => hretries o n,
        keeps_delay c isCron hdelay hstrategy htimeout hpolicy⟩⟩⟩

/-- The first writes, before those of writes that keep what they write. -/
private theorem apart_first (isCron : Str → Bool) (c : OptionChanges) {ws : List Write} (h : WritesApart ws)
    (hdescription : ∀ v ∈ ws, v.Keeps CliJobOptions.description) (hgroup : ∀ v ∈ ws, v.Keeps CliJobOptions.group) :
    WritesApart ((optionWrites isCron c).take 3 ++ ws) := by
  refine ⟨⟨_, CliJobOptions.description, .given fun d => .ok fun o ho => ?_, ?_⟩,
    ⟨_, CliJobOptions.group, .given fun g => .ok fun o ho => ?_, List.forall_mem_cons.2 ⟨.check, hgroup⟩⟩,
    ⟨Unit, fun _ => (), .of_same fun o o' ho => ?_, fun v _ o o' _ => rfl⟩, h⟩
  · cases o; cases ho; rfl
  · exact List.forall_mem_cons.2 ⟨.given fun g => .ok fun o => rfl, List.forall_mem_cons.2 ⟨.check, hdescription⟩⟩
  · cases o; cases ho; rfl
  · split at ho
    · cases ho
    · exact (Except.ok.inj ho).symm

/-- Each option has its own part of the options; a schedule and an interval share one, and are not both given. -/
private theorem apart_optionWrites {isCron : Str → Bool} {c : OptionChanges}
    (h : c.schedule = none ∨ c.interval = none) :
    WritesApart (optionWrites isCron c) := by
  have hrest : WritesApart ((optionWrites isCron c).drop 3) := by
    refine ⟨?_, ⟨_, CliJobOptions.timing, .given fun i => .interval fun o ho => ?_, rest_keeps isCron c⟩,
      ⟨_, CliJobOptions.maxRetries, .given fun n => .ok fun o ho => ?_, ?_⟩,
      ⟨_, CliJobOptions.retryDelay, .given fun d => .interval fun o ho => ?_, ?_⟩,
      ⟨_, CliJobOptions.retryStrategy, .given fun s o o' ho hpart => ?_, ?_⟩,
      ⟨_, CliJobOptions.timeout, .given fun t => .interval fun o ho => ?_, ?_⟩,
      ⟨_, CliJobOptions.overlapPolicy, .given fun s o o' ho hpart => ?_, fun v hv => by cases hv⟩, trivial⟩
    · rcases h with hnone | hnone
      · refine ⟨Unit, fun _ => (), .of_same fun o o' ho => ?_, fun v _ o o' _ => rfl⟩
        rw [hnone] at ho
        exact (Except.ok.inj ho).symm
      · refine ⟨_, CliJobOptions.timing, .given fun s o o' ho hpart => ?_,
          List.forall_mem_cons.2 ⟨?_, rest_keeps isCron c⟩⟩
        · split at ho
          · obtain rfl := Except.ok.inj ho
            obtain ⟨hs, hi⟩ := Timing.mk.inj hpart
            cases o; cases hs; cases hi; rfl
          · cases ho
        · rw [hnone]
          intro o o' ho
          rw [← Except.ok.inj ho]
    · obtain ⟨hs, hi⟩ := Timing.mk.inj ho
      cases o; cases hs; cases hi; rfl
    · cases o; cases ho; rfl
    · exact keeps_delay c isCron (fun _ _ => rfl) (fun _ _ => rfl) (fun _ _ => rfl) fun _ _ => rfl
    · cases o; cases ho; rfl
    · exact keeps_strategy c isCron (fun _ _ => rfl) (fun _ _ => rfl) fun _ _ => rfl
    · split at ho
      · obtain rfl := Except.ok.inj ho
        cases o; cases hpart; rfl
      · cases ho
    · exact keeps_timeout c isCron (fun _ _ => rfl) fun _ _ => rfl
    · cases o; cases ho; rfl
    · exact keeps_policy c isCron fun _ _ => rfl
    · split at ho
      · obtain rfl := Except.ok.inj ho
        cases o; cases hpart; rfl
      · cases ho
  refine apart_first isCron c hrest ?_ ?_
  · exact keeps_schedule c isCron (fun _ _ _ => rfl) (fun _ _ => rfl) (fun _ _ => rfl) (fun _ _ => rfl) (fun _ _ => rfl)
      fun _ _ => rfl
  · exact keeps_schedule c isCron (fun _ _ _ => rfl) (fun _ _ => rfl) (fun _ _ => rfl) (fun _ _ => rfl) (fun _ _ => rfl)
      fun _ _ => rfl

/-- The writes of `update_options` leave the options as they are exactly when no option before the first invalid one is
given a new value. -/
private theorem optionWrites_same_iff (isCron : Str → Bool) (c : OptionChanges) (o : CliJobOptions) :
    (runWrites (optionWrites isCron c) o).1 = o ↔ changesNothing (optionChecks isCron c o) = true := by
  by_cases hboth : c.schedule = none ∨ c.interval = none
  · exact runWrites_eq_iff (apart_optionWrites hboth) (describes_optionWrites isCron c o)
  · -- Both are given, and the third write raises.
    have hgiven : c.schedule.isSome = true ∧ c.interval.isSome = true := by
      simpa only [not_or, ← Ne.eq_def, ← Option.isSome_iff_ne_none] using hboth
    have hchecks : changesNothing (optionChecks isCron c o) = changesNothing ((optionChecks isCron c o).take 3) := by
      simp [optionChecks, changesNothing, hgiven]
    have hwrites : runWrites (optionWrites isCron c) o = runWrites ((optionWrites isCron c).take 3) o := by
      have hraises : (runWrites ((optionWrites isCron c).take 3) o).2 ≠ none := by
        intro hnone
        have hok := ok_of_runWrites hnone _ (List.mem_cons_of_mem _ (List.mem_cons_of_mem _ List.mem_cons_self))
        simp [hgiven] at hok
      have hsplit : optionWrites isCron c = (optionWrites isCron c).take 3 ++ (optionWrites isCron c).drop 3 := rfl
      rw [hsplit, runWrites_append]
      split
      · rename_i heq
        exact heq.symm
      · rename_i heq
        rw [heq] at hraises
        exact absurd rfl hraises
    have hthree : WritesApart ((optionWrites isCron c).take 3) := by
      have hnone : ∀ v ∈ ([] : List Write), v.Keeps CliJobOptions.group := fun v hv => by cases hv
      exact apart_first isCron c trivial (fun v hv => by cases hv) hnone
    rw [hchecks, hwrites]
    exact runWrites_eq_iff hthree (List.forall₂_take 3 (describes_optionWrites isCron c o))

/-- They raise exactly when an option is invalid. -/
private theorem optionWrites_raises_iff (isCron : Str → Bool) (c : OptionChanges) (o : CliJobOptions) :
    (runWrites (optionWrites isCron c) o).2 = none ↔ ∀ x ∈ optionChecks isCron c o, x.valid = true :=
  runWrites_raises_iff (describes_optionWrites isCron c o)

/-! ### The limit and the timer -/

private theorem writeLimit_status (reg : JobRegistration) (o : CliJobOptions) (limit : Option { n : Nat // 0 < n }) :
    (reg.writeLimit o limit).status = reg.status := by
  cases limit with
  | none => rfl
  | some limit => exact status_startQueued _

private theorem writeLimit_timing (reg : JobRegistration) (o : CliJobOptions) (limit : Option { n : Nat // 0 < n }) :
    (reg.writeLimit o limit).options.timing = o.timing := by
  cases limit with
  | none => rfl
  | some limit =>
    rw [JobRegistration.writeLimit, options_startQueued]
    rfl

/-- Valid, the limit is the number that is given. -/
private theorem limit_of_valid {c : OptionChanges} (h : ∀ n, c.maxConcurrentRuns = some n → 0 < n) :
    (c.maxConcurrentRuns = none ∧ c.maxConcurrentRuns.bind validateMaxConcurrentRuns = none) ∨
    ∃ n limit, c.maxConcurrentRuns = some n ∧ c.maxConcurrentRuns.bind validateMaxConcurrentRuns = some limit ∧
      (limit.1 : Int) = n := by
  cases hn : c.maxConcurrentRuns with
  | none => exact .inl ⟨rfl, rfl⟩
  | some n =>
    have hpos := h n hn
    refine .inr ⟨n, ⟨n.toNat, by omega⟩, rfl, ?_, Int.toNat_of_nonneg (by omega)⟩
    simp [validateMaxConcurrentRuns, hpos]

/-- Writing the limit, after writes that keep it, leaves the options, the runs and the queue flag as they are exactly
when the writes do and the limit is the same. -/
private theorem writeLimit_same_iff {reg : JobRegistration} {o : CliJobOptions} {c : OptionChanges}
    (hvalid : ∀ n, c.maxConcurrentRuns = some n → 0 < n) (hkept : o.maxConcurrentRuns = reg.limit) :
    let reg' := reg.writeLimit o (c.maxConcurrentRuns.bind validateMaxConcurrentRuns)
    (reg'.options = reg.options ∧ reg'.runs = reg.runs ∧ reg'.queued = reg.queued) ↔
      o = reg.options ∧ LimitSame c reg := by
  intro reg'
  rcases limit_of_valid hvalid with ⟨hnone, hlimit⟩ | ⟨n, limit, hn, hlimit, hvalue⟩
  · have hreg' : reg' = { reg with options := o } := by simp only [reg', hlimit, JobRegistration.writeLimit]
    have hsame : LimitSame c reg := fun n hn => by rw [hnone] at hn; cases hn
    rw [hreg']
    exact ⟨fun h => ⟨h.1, hsame⟩, fun h => ⟨h.1, rfl, rfl⟩⟩
  · let written : CliJobOptions := { o with maxConcurrentRuns := limit, maxConcurrentRuns_pos := limit.property }
    have hreg' : reg' = { reg with options := written }.startQueued := by
      simp only [reg', hlimit, JobRegistration.writeLimit, written]
    have hoptions : reg'.options = written := by rw [hreg', options_startQueued]
    -- the written options are the old ones only with the old limit
    have hwritten : written = reg.options ↔ o = reg.options ∧ limit.1 = reg.limit := by
      constructor
      · intro heq
        have hlimit' : limit.1 = reg.limit := congrArg CliJobOptions.maxConcurrentRuns heq
        have hsame : written = o := by
          simp only [written, hlimit', ← hkept]
        exact ⟨hsame.symm.trans heq, hlimit'⟩
      · rintro ⟨rfl, hlimit'⟩
        simp only [written, hlimit']
    have hLimitSame : LimitSame c reg ↔ limit.1 = reg.limit ∧ ¬ (reg.queued = true ∧ reg.taken < reg.limit) := by
      refine ⟨fun h => ?_, fun h m hm => ?_⟩
      · obtain ⟨hlim, hq⟩ := h n hn
        exact ⟨by omega, hq⟩
      · rw [hn, Option.some.injEq] at hm
        exact ⟨by omega, h.2⟩
    rw [hoptions, hwritten, hLimitSame, and_assoc]
    refine and_congr_right fun _ => and_congr_right fun hlim => ?_
    have htaken : ({ reg with options := written } : JobRegistration).taken < limit.1 ↔ reg.taken < reg.limit := by
      rw [hlim]
    rw [hreg']
    unfold JobRegistration.startQueued
    split
    · rename_i hstarts
      have hq : reg.queued = true ∧ reg.taken < reg.limit := ⟨hstarts.1, htaken.1 hstarts.2⟩
      refine ⟨fun h => ?_, fun h => absurd hq h⟩
      have hfalse : false = reg.queued := h.2
      rw [hq.1] at hfalse
      cases hfalse
    · rename_i hwaits
      exact ⟨fun _ hq => hwaits ⟨hq.1, htaken.2 hq.2⟩, fun _ => ⟨rfl, rfl⟩⟩

/-- The next run depends on the schedule and the interval only. -/
private theorem nextRun_congr {cron : Cron} {o o' : CliJobOptions} {lastRunAt : Option Nat} {now : Nat}
    {call : ScheduleCall}
    (h : o.timing = o'.timing) : nextRun cron o lastRunAt now call = nextRun cron o' lastRunAt now call := by
  obtain ⟨hs, hi⟩ := Timing.mk.inj h
  unfold nextRun
  rw [hs, hi]

private theorem scheduleNext_raises_iff {cron : Cron} {running : Bool} {now : Nat} {job : TimedJob} :
    job.scheduleNext cron running now {} = none ↔
      running = true ∧ NextRunRaises cron job.reg.options.timing job.lastRunAt now := by
  have hnext : NextRunRaises cron job.reg.options.timing job.lastRunAt now ↔
      nextRun cron job.reg.options job.lastRunAt now {} = none :=
    iff_of_eq (congrArg (· = none) (nextRun_congr rfl))
  rw [hnext]
  unfold TimedJob.scheduleNext
  cases running with
  | false => simp
  | true =>
    cases nextRun cron job.reg.options job.lastRunAt now {} with
    | none => simp
    | some next => cases next <;> simp

/-- Cancelling the timer changes nothing when nothing is scheduled. -/
private theorem cancelTimer_same_iff (job : TimedJob) :
    (job.cancelTimer.nextRunAt = job.nextRunAt ∧ job.cancelTimer.timers = job.timers) ↔ NothingScheduled job := by
  have htimers : job.cancelTimer.timers = job.timers ↔ ∀ timer ∈ job.timers, job.timerTask ≠ some timer.id := by
    show job.timers.filter _ = job.timers ↔ _
    simp only [List.filter_eq_self, decide_eq_true_eq, ne_comm]
  rw [htimers]
  exact and_congr_left fun _ => eq_comm

/-! ### How a call ends -/

/-- The job when its options are written and before it is rescheduled. -/
def TimedJob.written (c : OptionChanges) (o : CliJobOptions) (job : TimedJob) : TimedJob :=
  { job with reg := job.reg.writeLimit o (c.maxConcurrentRuns.bind validateMaxConcurrentRuns) }

/-- Refused at once, stopped at an option, stopped in the reschedule, or done. -/
private theorem tryUpdateOptions_cases (cron : Cron) (running : Bool) (c : OptionChanges) (now : Nat) (job : TimedJob) :
    ((∃ n, c.maxConcurrentRuns = some n ∧ ¬ 0 < n) ∧
      job.tryUpdateOptions cron running c now = (job, some (.option .maxConcurrentRuns))) ∨
    ((∀ n, c.maxConcurrentRuns = some n → 0 < n) ∧ ∃ o,
      (∃ e, runWrites (optionWrites cron.isValid c) job.reg.options = (o, some e) ∧
        job.tryUpdateOptions cron running c now =
          ({ job with reg := { job.reg with options := o } }, some (.option e))) ∨
      (runWrites (optionWrites cron.isValid c) job.reg.options = (o, none) ∧
        ((job.reg.status = .active ∧ (job.written c o).cancelTimer.scheduleNext cron running now {} = none ∧
          job.tryUpdateOptions cron running c now = ((job.written c o).cancelTimer, some .reschedule)) ∨
        (job.reg.status = .active ∧ ∃ job', (job.written c o).cancelTimer.scheduleNext cron running now {} = some job' ∧
          job.tryUpdateOptions cron running c now = (job', none)) ∨
        (job.reg.status ≠ .active ∧ job.tryUpdateOptions cron running c now = (job.written c o, none))))) := by
  by_cases hvalid : ∀ n, c.maxConcurrentRuns = some n → 0 < n
  · right
    refine ⟨hvalid, ?_⟩
    have hcall : job.tryUpdateOptions cron running c now =
        match runWrites (optionWrites cron.isValid c) job.reg.options with
        | (o, some e) => ({ job with reg := { job.reg with options := o } }, some (.option e))
        | (o, none) =>
          if (job.written c o).reg.status = .active then
            match (job.written c o).cancelTimer.scheduleNext cron running now {} with
            | none => ((job.written c o).cancelTimer, some .reschedule)
            | some scheduled => (scheduled, none)
          else (job.written c o, none) := by
      unfold TimedJob.tryUpdateOptions TimedJob.written
      rcases limit_of_valid hvalid with ⟨hnone, hlimit⟩ | ⟨n, limit, hn, hlimit, -⟩
      · rw [hlimit, hnone]
      · rw [hlimit, hn]
    rw [hcall]
    have hstatus : ∀ o, (job.written c o).reg.status = job.reg.status := fun o => writeLimit_status _ _ _
    generalize runWrites (optionWrites cron.isValid c) job.reg.options = result
    obtain ⟨o, raised⟩ := result
    cases raised with
    | some e => exact ⟨o, .inl ⟨e, rfl, rfl⟩⟩
    | none =>
      refine ⟨o, .inr ⟨rfl, ?_⟩⟩
      dsimp only
      rw [hstatus]
      by_cases hactive : job.reg.status = .active
      · rw [if_pos hactive]
        cases hnext : (job.written c o).cancelTimer.scheduleNext cron running now {} with
        | none => exact .inl ⟨hactive, rfl, rfl⟩
        | some scheduled => exact .inr (.inl ⟨hactive, scheduled, rfl, rfl⟩)
      · rw [if_neg hactive]
        exact .inr (.inr ⟨hactive, rfl⟩)
  · left
    obtain ⟨n, hn, hpos⟩ : ∃ n, c.maxConcurrentRuns = some n ∧ ¬ 0 < n := by
      simpa only [not_forall, exists_prop] using hvalid
    refine ⟨⟨n, hn, hpos⟩, ?_⟩
    have hlimit : c.maxConcurrentRuns.bind validateMaxConcurrentRuns = none := by
      rw [hn, Option.bind_some, validateMaxConcurrentRuns, dif_neg hpos]
    rw [TimedJob.tryUpdateOptions, hlimit, hn]

/-- The registration after a call that is not refused at once. -/
private theorem reg_updateOptions {isCron : Str → Bool} {c : OptionChanges} {reg : JobRegistration}
    (hvalid : ∀ n, c.maxConcurrentRuns = some n → 0 < n) : reg.updateOptions isCron c = some
      (match runWrites (optionWrites isCron c) reg.options with
        | (o, some _) => { reg with options := o }
        | (o, none) => reg.writeLimit o (c.maxConcurrentRuns.bind validateMaxConcurrentRuns)) := by
  unfold JobRegistration.updateOptions
  generalize runWrites (optionWrites isCron c) reg.options = result
  obtain ⟨o, raised⟩ := result
  rcases limit_of_valid hvalid with ⟨hnone, hlimit⟩ | ⟨n, limit, hn, hlimit, -⟩
  · rw [hlimit, hnone]
    cases raised <;> rfl
  · have hvalidated : validateMaxConcurrentRuns n = some limit := by rwa [hn, Option.bind_some] at hlimit
    rw [hlimit, hn]
    dsimp only
    rw [hvalidated]
    cases raised <;> rfl

/-- What the scheduler's step does is what the call leaves, but for a limit that is refused. -/
theorem updateOptions_eq (cron : Cron) (running : Bool) (c : OptionChanges) (now : Nat) (job : TimedJob) :
    job.updateOptions cron running c now =
      if ∀ n, c.maxConcurrentRuns = some n → 0 < n then some (job.tryUpdateOptions cron running c now).1 else none := by
  rcases tryUpdateOptions_cases cron running c now job with
    ⟨⟨n, hn, hpos⟩, -⟩ |
      ⟨hvalid, o, ⟨e, hwrites, hcall⟩ | ⟨hwrites, ⟨hactive, hnext, hcall⟩ | ⟨hactive, job', hnext, hcall⟩ | ⟨hidle, hcall⟩⟩⟩
  · rw [if_neg fun h => hpos (h n hn)]
    have hrefused : job.reg.updateOptions cron.isValid c = none := by
      have hlimit : validateMaxConcurrentRuns n = none := dif_neg hpos
      unfold JobRegistration.updateOptions
      rw [hn]
      dsimp only
      rw [hlimit]
    rw [TimedJob.updateOptions, hrefused]
    rfl
  all_goals
    rw [if_pos hvalid, hcall, TimedJob.updateOptions, reg_updateOptions hvalid, hwrites, Option.bind_eq_bind,
      Option.bind_some]
  · dsimp only
    rw [if_pos ((writeLimit_status _ _ _).trans hactive), TimedJob.schedule]
    exact congrArg some (by rw [TimedJob.written] at hnext; rw [hnext]; rfl)
  · dsimp only
    rw [if_pos ((writeLimit_status _ _ _).trans hactive), TimedJob.schedule]
    exact congrArg some (by rw [TimedJob.written] at hnext; rw [hnext]; rfl)
  · dsimp only
    rw [if_neg fun h => hidle ((writeLimit_status _ _ _).symm.trans h)]
    rfl

/-- The schedule and the interval that valid changes leave. -/
private theorem timing_of_written {isCron : Str → Bool} {c : OptionChanges} {o o' : CliJobOptions}
    (h : runWrites (optionWrites isCron c) o = (o', none)) : o'.timing = c.timing o := by
  have hwritten := writes_timing isCron c o
  rw [h] at hwritten
  rcases hwritten with ⟨-, htiming, -⟩ | ⟨-, -, hraises⟩
  · exact htiming
  · exact absurd rfl hraises

/-- `update_options`, when it raises, leaves the options, the runs and the queue flag, the next run and the pending
timers as they are exactly when the call is refused for its limit, when no option before the first invalid one is
given a new value, or when all are valid, none is given a new value, and the reschedule that raises finds nothing
scheduled. -/
theorem update_options_atomic_iff (cron : Cron) (running : Bool) (c : OptionChanges) (now : Nat) (job : TimedJob) :
    (∀ e, (job.tryUpdateOptions cron running c now).2 = some e →
      (job.tryUpdateOptions cron running c now).1.SameAs job) ↔ KeepsOnError cron running c now job := by
  have hsame := optionWrites_same_iff cron.isValid c job.reg.options
  have hraises := optionWrites_raises_iff cron.isValid c job.reg.options
  have hkept : (runWrites (optionWrites cron.isValid c) job.reg.options).1.maxConcurrentRuns = job.reg.limit :=
    runWrites_limit (optionWrites_keepLimit cron.isValid c) job.reg.options
  rcases tryUpdateOptions_cases cron running c now job with
    ⟨⟨n, hn, hpos⟩, hcall⟩ |
      ⟨hvalid, o, ⟨e, hwrites, hcall⟩ | ⟨hwrites, ⟨hactive, hnext, hcall⟩ | ⟨hactive, job', hnext, hcall⟩ | ⟨hidle, hcall⟩⟩⟩
  · rw [hcall]
    exact ⟨fun _ hlimit => absurd (hlimit n hn) hpos, fun _ _ _ => ⟨rfl, rfl, rfl, rfl, rfl⟩⟩
  all_goals
    rw [hwrites] at hsame hraises hkept
    rw [hcall]
  · -- an option is invalid
    have hinvalid : ¬ ∀ x ∈ optionChecks cron.isValid c job.reg.options, x.valid = true := by
      rw [← hraises]
      exact Option.some_ne_none e
    have hexists : ∃ x ∈ optionChecks cron.isValid c job.reg.options, x.valid = false := by
      simpa only [not_forall, exists_prop, Bool.not_eq_true] using hinvalid
    constructor
    · intro h hlimit
      exact ⟨fun _ => hsame.1 (h _ rfl).options, fun hall => absurd hall hinvalid⟩
    · intro h _ _
      exact ⟨hsame.2 ((h hvalid).1 hexists), rfl, rfl, rfl, rfl⟩
  · -- the reschedule raises
    have hall := hraises.1 rfl
    have hwritten := writeLimit_same_iff hvalid hkept
    have hscheduled := cancelTimer_same_iff (job.written c o)
    have htiming : (job.written c o).cancelTimer.reg.options.timing = c.timing job.reg.options :=
      (writeLimit_timing _ _ _).trans (timing_of_written hwrites)
    have hraise := scheduleNext_raises_iff.1 hnext
    rw [htiming] at hraise
    constructor
    · intro h hlimit
      have hjob := h _ rfl
      obtain ⟨hoptions, hlimitSame⟩ := hwritten.1 ⟨hjob.options, hjob.runs, hjob.queued⟩
      refine ⟨fun hinvalid => ?_, fun _ _ _ _ => ⟨hsame.1 hoptions, hlimitSame, ?_⟩⟩
      · obtain ⟨x, hx, hfalse⟩ := hinvalid
        rw [hall x hx] at hfalse
        cases hfalse
      · exact hscheduled.1 ⟨hjob.nextRunAt, hjob.timers⟩
    · intro h _ _
      obtain ⟨hnothing, hlimitSame, hscheduled'⟩ := (h hvalid).2 hall hactive hraise.1 hraise.2
      obtain ⟨hoptions, hruns, hqueued⟩ := hwritten.2 ⟨hsame.2 hnothing, hlimitSame⟩
      obtain ⟨hnextRunAt, htimers⟩ := hscheduled.2 hscheduled'
      exact ⟨hoptions, hruns, hqueued, hnextRunAt, htimers⟩
  · -- the reschedule goes through
    have htiming : (job.written c o).cancelTimer.reg.options.timing = c.timing job.reg.options :=
      (writeLimit_timing _ _ _).trans (timing_of_written hwrites)
    refine ⟨fun _ _ => ⟨fun hinvalid => ?_, fun _ _ hrunning hraise => ?_⟩, fun _ e h => by cases h⟩
    · obtain ⟨x, hx, hfalse⟩ := hinvalid
      rw [hraises.1 rfl x hx] at hfalse
      cases hfalse
    · have hnone : (job.written c o).cancelTimer.scheduleNext cron running now {} = none := by
        rw [scheduleNext_raises_iff, htiming]
        exact ⟨hrunning, hraise⟩
      rw [hnone] at hnext
      cases hnext
  · -- there is none
    refine ⟨fun _ _ => ⟨fun hinvalid => ?_, fun _ hactive => absurd hactive hidle⟩, fun _ e h => by cases h⟩
    obtain ⟨x, hx, hfalse⟩ := hinvalid
    rw [hraises.1 rfl x hx] at hfalse
    cases hfalse

/-- A description and an unreadable delay: the description is written and the delay refused. -/
def describedDelay : OptionChanges := { description := some "nightly".toList, retryDelay := some "soon".toList }

/-- A call raises after it has changed a job's description, another after it has cancelled the job's timer. -/
theorem update_options_not_atomic :
    ∃ history s, Run (timerStep noCron) .new history s ∧ ∃ id job, s.job? id = some job ∧
    (∃ e, (job.tryUpdateOptions noCron s.running describedDelay 0).2 = some e ∧
      ¬ (job.tryUpdateOptions noCron s.running describedDelay 0).1.SameAs job) ∧
    ∃ c e, (job.tryUpdateOptions noCron s.running c 0).2 = some e ∧ job.timers ≠ [] ∧
      (job.tryUpdateOptions noCron s.running c 0).1.timers = [] := by
  let far : OptionChanges := { interval := some "1000000000d".toList }
  have hexec : (exec (timerStep noCron) .new [.register none "job".toList everyFiveMinutes, .start, .started [] 0]).any
      (fun r => (r.2.job? "job".toList).any fun job =>
        ((job.tryUpdateOptions noCron r.2.running describedDelay 0).2.isSome &&
          (job.tryUpdateOptions noCron r.2.running describedDelay 0).1.reg.options.description ≠
            job.reg.options.description) &&
        ((job.tryUpdateOptions noCron r.2.running far 0).2.isSome && (job.timers ≠ [] &&
          (job.tryUpdateOptions noCron r.2.running far 0).1.timers = []))) = true := by decide +kernel
  obtain ⟨⟨history, s⟩, hexec, hjob⟩ := (Option.any_eq_true _ _).1 hexec
  obtain ⟨job, hjob, hboth⟩ := (Option.any_eq_true _ _).1 hjob
  simp only [Bool.and_eq_true, decide_eq_true_eq] at hboth
  obtain ⟨⟨hraised, hchanged⟩, hfar, htimers⟩ := hboth
  obtain ⟨e, he⟩ := Option.isSome_iff_exists.1 hraised
  obtain ⟨e', he'⟩ := Option.isSome_iff_exists.1 hfar
  refine ⟨history, s, run_of_exec hexec, "job".toList, job, hjob, ⟨e, he, fun h => ?_⟩, far, e', he', htimers⟩
  exact hchanged (congrArg CliJobOptions.description h.options)

end CliServer
