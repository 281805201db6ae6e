import CliServer.Jobs.Interval

/-!
# Job options

`CliJobOptions`, the changes `update_options` makes to them and the delay before a retry.  A registered job runs at
least one run at a time: the options carry the proof.  `update_options` writes each option it is given after checking
it, in the order below; an option that fails its check raises and leaves the earlier ones written.
-/

namespace CliServer

/-- The options of a registered job.  `register` checks neither the retry strategy nor the overlap policy: they are any
texts. -/
structure CliJobOptions where
  description : Option Str := none
  group : Option Str := none
  schedule : Option Str := none
  interval : Option Str := none
  enabled : Bool := true
  maxRetries : Int := 1
  retryDelay : Str := "5s".toList
  retryStrategy : Str := "exponential".toList
  timeout : Option Str := none
  overlapPolicy : Str := "skip".toList
  maxConcurrentRuns : Nat := 1
  runOnStart : Bool := false
  /-- `_validate_max_concurrent_runs`. -/
  maxConcurrentRuns_pos : 0 < maxConcurrentRuns := by decide

/-- What `update_options` raises. -/
inductive OptionError where
  | maxConcurrentRuns
  | scheduleAndInterval
  | cron (schedule : Str)
  | interval (value : Str) (error : IntervalError)
  | retryStrategy (value : Str)
  | overlapPolicy (value : Str)
  deriving DecidableEq, Repr

/-- The arguments of `update_options`; those not given are kept. -/
structure OptionChanges where
  description : Option Str := none
  group : Option Str := none
  schedule : Option Str := none
  interval : Option Str := none
  maxRetries : Option Int := none
  retryDelay : Option Str := none
  retryStrategy : Option Str := none
  timeout : Option Str := none
  overlapPolicy : Option Str := none
  maxConcurrentRuns : Option Int := none
  deriving DecidableEq

/-- The strategies `update_options` accepts. -/
def retryStrategies : List Str := ["fixed".toList, "linear".toList, "exponential".toList]

/-- The policies `update_options` accepts. -/
def overlapPolicies : List Str := ["skip".toList, "queue".toList, "cancel".toList]

/-- A text that is given and not empty. -/
def isGiven (s : Option Str) : Bool := s.any fun t => !t.isEmpty

/-- An argument that counts: not `None` and not empty. -/
def given (s : Option Str) : Option Str := s.filter (· ≠ [])

/-- One write of `update_options`: the options after it, or the error it raises before writing. -/
abbrev Write := CliJobOptions → Except OptionError CliJobOptions

/-- Writes nothing when the argument is not given. -/
def Write.given {α : Type} (value : Option α) (write : α → Write) : Write := fun o =>
  match value with
  | none => .ok o
  | some a => write a o

/-- A write guarded by `parse_interval`. -/
def Write.interval (value : Str) (write : CliJobOptions → CliJobOptions) : Write := fun o =>
  match parseInterval value with
  | .error e => .error (.interval value e)
  | .ok _ => .ok (write o)

/-- The writes of `update_options` up to `max_concurrent_runs`, in the order of the code.  `isCron` is
`croniter.is_valid`. -/
def optionWrites (isCron : Str → Bool) (c : OptionChanges) : List Write :=
  [.given c.description fun d o => .ok { o with description := some d },
    .given c.group fun g o => .ok { o with group := some g },
    fun o => if c.schedule.isSome ∧ c.interval.isSome then .error .scheduleAndInterval else .ok o,
    .given c.schedule fun s o =>
      if isCron s then .ok { o with schedule := some s, interval := none } else .error (.cron s),
    .given c.interval fun i => .interval i fun o => { o with interval := some i, schedule := none },
    .given c.maxRetries fun n o => .ok { o with maxRetries := n },
    .given c.retryDelay fun d => .interval d fun o => { o with retryDelay := d },
    .given c.retryStrategy fun s o =>
      if s ∈ retryStrategies then .ok { o with retryStrategy := s } else .error (.retryStrategy s),
    .given c.timeout fun t => .interval t fun o => { o with timeout := some t },
    .given c.overlapPolicy fun s o =>
      if s ∈ overlapPolicies then .ok { o with overlapPolicy := s } else .error (.overlapPolicy s)]

/-- Writes in order, up to the first that raises. -/
def runWrites : List Write → CliJobOptions → CliJobOptions × Option OptionError
  | [], o => (o, none)
  | w :: ws, o =>
    match w o with
    | .error e => (o, some e)
    | .ok o' => runWrites ws o'

/-- `_validate_max_concurrent_runs`: the limit an integer gives, if it is one. -/
def validateMaxConcurrentRuns (value : Int) : Option { n : Nat // 0 < n } :=
  if h : 0 < value then some ⟨value.toNat, by omega⟩ else none

/-- `_retry_delay`, in seconds: the delay before retry `retryAttempt + 1`, `none` when computing it raises. -/
def retryDelay (o : CliJobOptions) (retryAttempt : Nat) : Option Nat := do
  let base ← if o.retryDelay = [] then some 5 else (parseInterval o.retryDelay).toOption
  if o.retryStrategy = "fixed".toList then some base
  else if o.retryStrategy = "linear".toList then some (base * (retryAttempt + 1))
  -- Any other text acts as `exponential`.  From 2 ** 1024 on the factor does not convert to a float.
  else if retryAttempt < 1024 then some (base * 2 ^ retryAttempt) else none

/-- A write keeps a part of the options. -/
def Write.Keeps {α : Type} (part : CliJobOptions → α) (w : Write) : Prop := ∀ o o', w o = .ok o' → part o' = part o

/-- A write keeps the limit. -/
def Write.KeepsLimit (w : Write) : Prop := ∀ o o', w o = .ok o' → o'.maxConcurrentRuns = o.maxConcurrentRuns

section Keeps

variable {α β : Type} {part : CliJobOptions → β}

theorem Write.Keeps.ok {write : CliJobOptions → CliJobOptions} (h : ∀ o, part (write o) = part o) :
    Write.Keeps part fun o => .ok (write o) := by
  intro o o' ho
  obtain rfl := Except.ok.inj ho
  exact h o

theorem Write.Keeps.given {value : Option α} {write : α → Write} (h : ∀ a, (write a).Keeps part) :
    (Write.given value write).Keeps part := by
  intro o o' ho
  cases value with
  | none =>
    obtain rfl : o = o' := Except.ok.inj ho
    rfl
  | some a => exact h a o o' ho

theorem Write.Keeps.interval {value : Str} {write : CliJobOptions → CliJobOptions} (h : ∀ o, part (write o) = part o) :
    (Write.interval value write).Keeps part := by
  intro o o' ho
  simp only [Write.interval] at ho
  split at ho
  · cases ho
  · obtain rfl := Except.ok.inj ho
    exact h o

theorem Write.Keeps.member {allowed : List Str} {s : Str} {error : OptionError} {write : CliJobOptions → CliJobOptions}
    (h : ∀ o, part (write o) = part o) :
    Write.Keeps part fun o => if s ∈ allowed then .ok (write o) else .error error := by
  intro o o' ho
  split at ho
  · obtain rfl := Except.ok.inj ho
    exact h o
  · cases ho

/-- Writes that keep a part keep it together, also when one of them raises. -/
theorem runWrites_keeps {ws : List Write} (h : ∀ w ∈ ws, w.Keeps part) (o : CliJobOptions) :
    part (runWrites ws o).1 = part o := by
  induction ws generalizing o with
  | nil => rfl
  | cons w ws ih =>
    simp only [runWrites]
    split
    · rfl
    · rename_i o' ho
      rw [ih (fun v hv => h v (List.mem_cons_of_mem _ hv)) o']
      exact h w List.mem_cons_self o o' ho

end Keeps

theorem runWrites_append (ws vs : List Write) (o : CliJobOptions) :
    runWrites (ws ++ vs) o =
      match runWrites ws o with
      | (o', some e) => (o', some e)
      | (o', none) => runWrites vs o' := by
  induction ws generalizing o with
  | nil => rfl
  | cons w ws ih =>
    rw [List.cons_append, runWrites, runWrites]
    cases w o with
    | error e => rfl
    | ok o' => exact ih o'

/-- Writes none of which can raise do not raise. -/
theorem runWrites_ok {ws : List Write} (h : ∀ w ∈ ws, ∀ o, ∃ o', w o = .ok o') (o : CliJobOptions) :
    (runWrites ws o).2 = none := by
  induction ws generalizing o with
  | nil => rfl
  | cons w ws ih =>
    obtain ⟨o', ho⟩ := h w List.mem_cons_self o
    rw [runWrites, ho]
    exact ih (fun v hv => h v (List.mem_cons_of_mem _ hv)) o'

/-- Writes that do not raise each go through. -/
theorem ok_of_runWrites {ws : List Write} {o : CliJobOptions} (h : (runWrites ws o).2 = none) :
    ∀ w ∈ ws, ∃ o₁ o₂, w o₁ = .ok o₂ := by
  induction ws generalizing o with
  | nil =>
    intro w hw
    cases hw
  | cons v ws ih =>
    intro w hw
    rw [runWrites] at h
    cases hv : v o with
    | error e =>
      rw [hv] at h
      cases h
    | ok o' =>
      rw [hv] at h
      rcases List.mem_cons.1 hw with rfl | hw
      · exact ⟨o, o', hv⟩
      · exact ih h w hw

/-- No write before the last changes `max_concurrent_runs`. -/
theorem optionWrites_keepLimit (isCron : Str → Bool) (c : OptionChanges) :
    ∀ w ∈ optionWrites isCron c, Write.KeepsLimit w := by
  intro w hw
  show w.Keeps (·.maxConcurrentRuns)
  simp only [optionWrites, List.mem_cons, List.not_mem_nil, or_false] at hw
  rcases hw with rfl | rfl | rfl | rfl | rfl | rfl | rfl | rfl | rfl | rfl
  · exact .given fun d => .ok fun o => rfl
  · exact .given fun g => .ok fun o => rfl
  · intro o o' ho
    dsimp only at ho
    split at ho
    · cases ho
    · obtain rfl := Except.ok.inj ho
      rfl
  · refine .given fun s o o' ho => ?_
    split at ho
    · obtain rfl := Except.ok.inj ho
      rfl
    · cases ho
  · exact .given fun i => .interval fun o => rfl
  · exact .given fun n => .ok fun o => rfl
  · exact .given fun d => .interval fun o => rfl
  · exact .given fun s => .member fun o => rfl
  · exact .given fun t => .interval fun o => rfl
  · exact .given fun s => .member fun o => rfl

/-- Writes that keep the limit keep it together, also when one of them raises. -/
theorem runWrites_limit {ws : List Write} (h : ∀ w ∈ ws, w.KeepsLimit) (o : CliJobOptions) :
    (runWrites ws o).1.maxConcurrentRuns = o.maxConcurrentRuns := runWrites_keeps h o

end CliServer
