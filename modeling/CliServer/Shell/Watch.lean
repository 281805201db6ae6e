import CliServer.Shell.Connections

/-!
# The limits of a shell

`_watch` closes a shell that has had no input for too long or is open for too long, and checks the owner's session from
time to time.  It sleeps until the next of these is due; meanwhile there may be input, other checks, and requests to
close.  Every action has one reading of the clock, and the readings do not decrease.

How soon it acts depends on the event loop and on the access provider: a run is `Timely` if nothing happens later than
`lag` after a timer is due, nor later than `answer` after the provider was called.  In such a run no shell is open long
after a limit has passed (`limits_enforced`), nor long after its session has ended, even if nothing was told about it
(`ended_noticed`).
-/

namespace CliServer.Shell

open Transition

/-- `x or None`. -/
def orNone (x : Option ℚ) : Option ℚ := x.filter (· ≠ 0)

/-- `session_check_interval`. -/
def sessionCheckInterval (value : Option ℚ) : ℚ :=
  match orNone value with
  | some value => if value ≤ 0 then 30 else min value 60
  | none => 30

/-- The options of `_watch`; `users`: the session has a principal and there is a provider, `touch`: it has `touch`. -/
structure WatchOptions where
  idleTimeout : Option ℚ
  maxDuration : Option ℚ
  checkInterval : Option ℚ
  users : Bool
  touch : Bool

def WatchOptions.interval (o : WatchOptions) : Option ℚ :=
  if o.users then some (sessionCheckInterval o.checkInterval) else none

/-- What `is_active` does. -/
inductive ActiveResult where
  | raises
  | reason (text : Str)
  | flag (active : Bool)
  deriving DecidableEq

/-- The reason that `_end_reason` returns for it. -/
def ActiveResult.endReason : ActiveResult → Option Str
  | .raises => some "error".toList
  | .reason text => some (if text = [] then "session ended".toList else text)
  | .flag active => if active then none else some "session ended".toList

/-- Where `_watch` is suspended. -/
inductive WatchPhase where
  /-- In `wait_for`, until it is due. -/
  | waiting (due : Option ℚ)
  /-- In `is_active`, called at this time. -/
  | checking (since : ℚ)
  | touching (since : ℚ)
  | returned
  deriving DecidableEq

/-- A session that is watched; `touches` are the times of the calls of `touch`. -/
structure Watched where
  now : ℚ
  started : ℚ
  lastInput : ℚ
  lastTouch : ℚ
  closeEvent : Bool := false
  close : Option Close := none
  nextCheck : Option ℚ := none
  phase : WatchPhase := .returned
  touches : List ℚ := []

/-- `request_close`. -/
def Watched.requestClose (s : Watched) (close : Close) : Watched :=
  if s.closeEvent then s else { s with closeEvent := true, close := some close }

/-- What a check does with the reason `_end_reason` gives. -/
def sessionEnded (reason : Str) : Close := ⟨4401, "session ended".toList, reason⟩

def timedOut : Close := ⟨4408, "shell timed out".toList, "shell timed out".toList⟩

inductive WatchAction where
  | input (now : ℚ)
  /-- The wait of `_watch` is over. -/
  | wake (now : ℚ)
  /-- `is_active`, called by `_watch`, has returned or raised. -/
  | answered (now : ℚ) (result : ActiveResult)
  | touched (now : ℚ)
  /-- The same for a `_check` of its own. -/
  | rechecked (now : ℚ) (result : ActiveResult)
  | requestClose (now : ℚ) (close : Close)
  /-- `handle_session` sets the event. -/
  | ends (now : ℚ)

def WatchAction.now : WatchAction → ℚ
  | .input now | .wake now | .answered now _ | .touched now | .rechecked now _ | .requestClose now _ | .ends now => now

/-- A check of `_watch` finds the session active. -/
def WatchAction.findsActive : WatchAction → Bool
  | .answered _ result => result.endReason = none
  | _ => false

section Step

variable (o : WatchOptions)

/-- The times at which the shell has been idle for too long, or open for too long. -/
def Watched.limits (s : Watched) : List ℚ :=
  ((orNone o.idleTimeout).map (s.lastInput + ·)).toList ++ ((orNone o.maxDuration).map (s.started + ·)).toList

/-- The list `deadlines`. -/
def Watched.deadlines (s : Watched) : List ℚ := s.limits o ++ s.nextCheck.toList

/-- The loop of `_watch`, up to its next suspension. -/
def Watched.loop (s : Watched) (now : ℚ) : Watched :=
  if s.closeEvent then { s with phase := .returned }
  else if (s.limits o).any (· ≤ now) then { s.requestClose timedOut with phase := .returned }
  else if s.nextCheck.any (· ≤ now) then { s with phase := .checking now }
  else { s with phase := .waiting ((s.deadlines o).min?.map fun due => now + max (1 / 100) (due - now)) }

/-- What follows a check. -/
def Watched.resume (s : Watched) (now : ℚ) : Watched :=
  Watched.loop o { s with nextCheck := o.interval.map (now + ·) } now

/-- Input since the last touch is to be counted as activity. -/
def Watched.untouched (s : Watched) (now : ℚ) : Bool := s.lastTouch < s.lastInput && 30 ≤ now - s.lastTouch

/-- The end of `_end_reason`, up to the call of `touch`. -/
def Watched.noteActivity (s : Watched) (now : ℚ) : Watched :=
  if s.untouched now then
    { s with lastTouch := now, touches := if o.touch then s.touches ++ [now] else s.touches }
  else s

/-- `_watch` begins. -/
def Watched.start (started now : ℚ) : Watched :=
  Watched.resume o { now := now, started := started, lastInput := started, lastTouch := started } now

/-- What an action does at the time it has. -/
def Watched.act (s : Watched) : WatchAction → Option Watched
  | .input now => some { s with lastInput := now }
  | .wake now =>
    match s.phase with
    | .waiting due => if s.closeEvent ∨ due.any (· ≤ now) then some (s.loop o now) else none
    | _ => none
  | .answered now result =>
    match s.phase with
    | .checking _ =>
      match result.endReason with
      | some reason => some ((s.requestClose (sessionEnded reason)).resume o now)
      | none =>
        if s.untouched now ∧ o.touch then some { s.noteActivity o now with phase := .touching now }
        else some ((s.noteActivity o now).resume o now)
    | _ => none
  | .touched now =>
    match s.phase with
    | .touching _ => some (s.resume o now)
    | _ => none
  | .rechecked now result =>
    if o.users then
      match result.endReason with
      | some reason => some (s.requestClose (sessionEnded reason))
      | none => some (s.noteActivity o now)
    else none
  | .requestClose _ close => some (s.requestClose close)
  | .ends _ => some { s with closeEvent := true }

def watchStep (s : Watched) (a : WatchAction) : Option Watched :=
  if a.now < s.now then none else Watched.act o { s with now := a.now } a

end Step

/-! ### One round of the loop -/

variable {o : WatchOptions} {s s' : Watched} {a : WatchAction} {now lag answer : ℚ}

@[simp] theorem Watched.requestClose_now (close : Close) : (s.requestClose close).now = s.now := by
  unfold requestClose
  split <;> rfl

@[simp] theorem Watched.requestClose_started (close : Close) : (s.requestClose close).started = s.started := by
  unfold requestClose
  split <;> rfl

@[simp] theorem Watched.requestClose_lastInput (close : Close) : (s.requestClose close).lastInput = s.lastInput := by
  unfold requestClose
  split <;> rfl

@[simp] theorem Watched.requestClose_phase (close : Close) : (s.requestClose close).phase = s.phase := by
  unfold requestClose
  split <;> rfl

@[simp] theorem Watched.requestClose_closeEvent (close : Close) : (s.requestClose close).closeEvent = true := by
  unfold requestClose
  split
  · assumption
  · rfl

@[simp] theorem Watched.loop_now : (s.loop o now).now = s.now := by
  unfold loop
  split_ifs <;> simp

@[simp] theorem Watched.loop_started : (s.loop o now).started = s.started := by
  unfold loop
  split_ifs <;> simp

@[simp] theorem Watched.loop_lastInput : (s.loop o now).lastInput = s.lastInput := by
  unfold loop
  split_ifs <;> simp

private theorem Watched.limits_congr (hstarted : s'.started = s.started) (hinput : s'.lastInput = s.lastInput) :
    s'.limits o = s.limits o := by rw [limits, limits, hstarted, hinput]

/-- The loop goes on before all limits; it checks the session, or sleeps to the earliest deadline, or for a moment. -/
private theorem Watched.loop_cases (s : Watched) (now : ℚ) :
    ((s.loop o now).closeEvent = true ∧ (s.loop o now).phase = .returned) ∨
    s.closeEvent = false ∧ (∀ limit ∈ s.limits o, now < limit) ∧
      ((∃ check, s.nextCheck = some check ∧ check ≤ now ∧ s.loop o now = { s with phase := .checking now }) ∨
        ∃ due, s.loop o now = { s with phase := .waiting due } ∧ (∀ check, s.nextCheck = some check → now < check) ∧
          (∀ d, due = some d → now ≤ d) ∧
          ∀ deadline ∈ s.deadlines o, ∃ d, due = some d ∧ (d ≤ now + 1 / 100 ∨ d ≤ deadline)) := by
  unfold loop
  split
  · next hclosed => exact .inl ⟨hclosed, rfl⟩
  · next hopen =>
    split
    · exact .inl ⟨requestClose_closeEvent timedOut, rfl⟩
    · next hlimits =>
      have hlimits' : ∀ limit ∈ s.limits o, now < limit := by
        intro limit hlimit
        by_contra hle
        exact hlimits (List.any_eq_true.2 ⟨limit, hlimit, decide_eq_true (not_lt.1 hle)⟩)
      refine .inr ⟨Bool.eq_false_iff.2 hopen, hlimits', ?_⟩
      split
      · next hcheck =>
        obtain ⟨check, hsome, hle⟩ := (Option.any_eq_true _ _).1 hcheck
        exact .inl ⟨check, hsome, of_decide_eq_true hle, rfl⟩
      · next hcheck =>
        refine .inr ⟨_, rfl, fun check hsome => ?_, fun d hd => ?_, fun deadline hdeadline => ?_⟩
        · by_contra hle
          exact hcheck ((Option.any_eq_true _ _).2 ⟨check, hsome, decide_eq_true (not_lt.1 hle)⟩)
        · obtain ⟨m, -, rfl⟩ := Option.map_eq_some_iff.1 hd
          have hpos : (0 : ℚ) ≤ max (1 / 100) (m - now) := le_max_of_le_left (by norm_num)
          linarith
        · obtain ⟨m, hm⟩ := Option.isSome_iff_exists.1 (List.isSome_min?_of_mem hdeadline)
          have hle : m ≤ deadline := (List.le_min?_iff hm).1 le_rfl deadline hdeadline
          refine ⟨now + max (1 / 100) (m - now), by rw [hm]; rfl, ?_⟩
          rcases max_choice (1 / 100) (m - now) with hmax | hmax
          · exact .inl (by rw [hmax])
          · exact .inr (by rw [hmax]; linarith)

/-! ### Timers that fire in time -/

/-- It is not long after a timer is due, nor after the provider was called. -/
def WatchPhase.DueBy (lag answer now : ℚ) : WatchPhase → Prop
  | .waiting due => ∀ d, due = some d → now ≤ d + lag
  | .checking since | .touching since => now ≤ since + answer
  | .returned => True

instance (lag answer now : ℚ) : DecidablePred (WatchPhase.DueBy lag answer now) := fun phase =>
  match phase with
  | .waiting none => isTrue nofun
  | .waiting (some d) => decidable_of_iff (now ≤ d + lag) ⟨fun h _ heq => Option.some.inj heq ▸ h, fun h => h d rfl⟩
  | .checking since | .touching since => inferInstanceAs (Decidable (now ≤ since + answer))
  | .returned => isTrue trivial

/-- Nothing happens long after a timer is due, or after the provider was called. -/
def Timely (lag answer : ℚ) (s : Watched) (a : WatchAction) : Prop := s.phase.DueBy lag answer a.now

instance (lag answer : ℚ) (s : Watched) (a : WatchAction) : Decidable (Timely lag answer s a) :=
  inferInstanceAs (Decidable (s.phase.DueBy lag answer a.now))

/-- The watch goes on, and will see that the limit has passed. -/
def WatchPhase.Within (answer limit : ℚ) : WatchPhase → Prop
  | .waiting due => ∃ d, due = some d ∧ d ≤ limit + 1 / 100
  | .checking since => since ≤ limit
  | .touching since => since ≤ limit + answer
  | .returned => False

variable {phase : WatchPhase} {limit limit' : ℚ}

private theorem WatchPhase.Within.now_le (h : phase.Within answer limit) (hdue : phase.DueBy lag answer now)
    (hanswer : 0 ≤ answer) : now ≤ limit + max (1 / 100 + lag) (2 * answer) := by
  have hleft := le_max_left (1 / 100 + lag) (2 * answer)
  have hright := le_max_right (1 / 100 + lag) (2 * answer)
  cases phase with
  | waiting due =>
    obtain ⟨d, hd, hle⟩ := h
    have hnow : now ≤ d + lag := hdue d hd
    linarith
  | checking since =>
    have hsince : since ≤ limit := h
    have hnow : now ≤ since + answer := hdue
    linarith
  | touching since =>
    have hsince : since ≤ limit + answer := h
    have hnow : now ≤ since + answer := hdue
    linarith
  | returned => exact h.elim

theorem WatchPhase.Within.mono (h : phase.Within answer limit) (hle : limit ≤ limit') : phase.Within answer limit' := by
  cases phase with
  | waiting due =>
    obtain ⟨d, hd, hle'⟩ := h
    exact ⟨d, hd, by linarith⟩
  | checking since => exact le_trans h hle
  | touching since => exact le_trans h (by linarith)
  | returned => exact h.elim

/-- The event is set, or none of the limits has passed for long. -/
structure Watched.Limited (o : WatchOptions) (lag answer : ℚ) (s : Watched) : Prop where
  input_le : s.lastInput ≤ s.now
  dueBy : s.phase.DueBy lag answer s.now
  within : s.closeEvent = true ∨ ∀ limit ∈ s.limits o, s.phase.Within answer limit

/-- After a round of the loop. -/
theorem Watched.Limited.loop (hlag : 0 ≤ lag) (hanswer : 0 ≤ answer) (hinput : s.lastInput ≤ s.now) :
    (s.loop o s.now).Limited o lag answer := by
  have hlimits : (s.loop o s.now).limits o = s.limits o := limits_congr loop_started loop_lastInput
  rcases loop_cases (o := o) s s.now with ⟨hclosed, hphase⟩ | ⟨-, hopen, ⟨check, -, -, heq⟩ | ⟨due, heq, -, hnow, hdue⟩⟩
  · refine ⟨by simpa using hinput, ?_, .inl hclosed⟩
    rw [hphase]
    trivial
  · refine ⟨by simpa using hinput, ?_, .inr fun limit hlimit => ?_⟩
    · rw [heq]
      exact le_add_of_nonneg_right hanswer
    · rw [hlimits] at hlimit
      rw [heq]
      exact (hopen limit hlimit).le
  · refine ⟨by simpa using hinput, ?_, .inr fun limit hlimit => ?_⟩
    · rw [heq]
      exact fun d hd => le_add_of_le_of_nonneg (hnow d hd) hlag
    · rw [hlimits] at hlimit
      obtain ⟨d, hd, hle⟩ := hdue limit (List.mem_append_left _ hlimit)
      have hlt := hopen limit hlimit
      rw [heq]
      refine ⟨d, hd, ?_⟩
      rcases hle with hle | hle <;> linarith

@[simp] theorem Watched.noteActivity_now : (s.noteActivity o now).now = s.now := by
  unfold noteActivity
  split <;> rfl

@[simp] theorem Watched.noteActivity_started : (s.noteActivity o now).started = s.started := by
  unfold noteActivity
  split <;> rfl

@[simp] theorem Watched.noteActivity_lastInput : (s.noteActivity o now).lastInput = s.lastInput := by
  unfold noteActivity
  split <;> rfl

@[simp] theorem Watched.noteActivity_closeEvent : (s.noteActivity o now).closeEvent = s.closeEvent := by
  unfold noteActivity
  split <;> rfl

@[simp] theorem Watched.noteActivity_phase : (s.noteActivity o now).phase = s.phase := by
  unfold noteActivity
  split <;> rfl

@[simp] theorem Watched.noteActivity_nextCheck : (s.noteActivity o now).nextCheck = s.nextCheck := by
  unfold noteActivity
  split <;> rfl

@[simp] theorem Watched.requestClose_nextCheck (close : Close) : (s.requestClose close).nextCheck = s.nextCheck := by
  unfold requestClose
  split <;> rfl

/-- The times of a session, but for the next check. -/
structure Watched.SameTimes (s s' : Watched) : Prop where
  now : s'.now = s.now
  started : s'.started = s.started
  lastInput : s'.lastInput = s.lastInput

/-- The check that began at `since` finds that the session has not ended. -/
def Watched.StillActive (s : Watched) (a : WatchAction) (since : ℚ) : Prop :=
  s.phase = .checking since ∧ a.findsActive = true

/-- What an action does.  `wakes`: the loop goes on; `resumes`: it does after a check, which closes the session, or has
found it active, or has touched it; `touches`: a check goes on with a touch; `stays`: the watch is left where it is. -/
inductive Watched.Acted (o : WatchOptions) (s : Watched) (a : WatchAction) (s' : Watched) : Prop where
  | wakes (due : Option ℚ) (hphase : s.phase = .waiting due) (heq : s' = s.loop o a.now)
  | resumes (u : Watched) (hsame : s.SameTimes u) (heq : s' = u.resume o a.now)
      (hevent : s.closeEvent = true → u.closeEvent = true)
      (hcheck : u.closeEvent = true ∨ ∃ since, s.StillActive a since ∨ s.phase = .touching since)
  | touches (since : ℚ) (hactive : s.StillActive a since) (hphase : s'.phase = .touching a.now) (hsame : s.SameTimes s')
      (hevent : s'.closeEvent = s.closeEvent) (hcheck : s'.nextCheck = s.nextCheck)
  | stays (hphase : s'.phase = s.phase) (hnow : s'.now = s.now) (hstarted : s'.started = s.started)
      (hinput : s'.lastInput = s.lastInput ∨ s'.lastInput = a.now) (hcheck : s'.nextCheck = s.nextCheck)
      (hevent : s.closeEvent = true → s'.closeEvent = true)

theorem Watched.acted (h : s.act o a = some s') : s.Acted o a s' := by
  cases a with
  | input now =>
    obtain rfl := Option.some.inj h
    exact .stays rfl rfl rfl (.inr rfl) rfl id
  | wake now =>
    simp only [act] at h
    split at h
    · next due hphase =>
      split at h
      · exact .wakes due hphase (Option.some.inj h).symm
      · cases h
    · cases h
  | answered now result =>
    simp only [act] at h
    split at h
    · next since hphase =>
      split at h
      · next reason hreason =>
        exact .resumes _ ⟨by simp, by simp, by simp⟩ (Option.some.inj h).symm (fun _ => requestClose_closeEvent _)
          (.inl (requestClose_closeEvent _))
      · next hreason =>
        have hactive : s.StillActive (.answered now result) since := ⟨hphase, decide_eq_true hreason⟩
        split at h
        · obtain rfl := Option.some.inj h
          exact .touches since hactive rfl ⟨by simp, by simp, by simp⟩ (by simp) (by simp)
        · exact .resumes _ ⟨by simp, by simp, by simp⟩ (Option.some.inj h).symm (fun hclosed => by simpa using hclosed)
            (.inr ⟨since, .inl hactive⟩)
    · cases h
  | touched now =>
    simp only [act] at h
    split at h
    · next since hphase =>
      exact .resumes s ⟨rfl, rfl, rfl⟩ (Option.some.inj h).symm id (.inr ⟨since, .inr hphase⟩)
    · cases h
  | rechecked now result =>
    simp only [act] at h
    split at h
    · split at h
      · obtain rfl := Option.some.inj h
        exact .stays (by simp) (by simp) (by simp) (.inl (by simp)) (by simp) fun _ => requestClose_closeEvent _
      · obtain rfl := Option.some.inj h
        exact .stays (by simp) (by simp) (by simp) (.inl (by simp)) (by simp) fun hclosed => by simpa using hclosed
    · cases h
  | requestClose now close =>
    obtain rfl := Option.some.inj h
    exact .stays (by simp) (by simp) (by simp) (.inl (by simp)) (by simp) fun _ => requestClose_closeEvent close
  | ends now =>
    obtain rfl := Option.some.inj h
    exact .stays rfl rfl rfl (.inl rfl) rfl fun _ => rfl

private theorem watchStep_eq_some (h : watchStep o s a = some s') :
    s.now ≤ a.now ∧ Watched.Acted o { s with now := a.now } a s' := by
  unfold watchStep at h
  split at h
  · cases h
  · next hle => exact ⟨not_lt.1 hle, Watched.acted h⟩

/-! ### The limits -/

theorem Watched.Limited.resume (hlag : 0 ≤ lag) (hanswer : 0 ≤ answer) (hinput : s.lastInput ≤ s.now) :
    (s.resume o s.now).Limited o lag answer := Limited.loop hlag hanswer hinput

/-- After more input no limit is earlier. -/
private theorem Watched.exists_limit_le (hstarted : s'.started = s.started) (hinput : s.lastInput ≤ s'.lastInput)
    (hlimit : limit ∈ s'.limits o) : ∃ limit₀ ∈ s.limits o, limit₀ ≤ limit := by
  rcases List.mem_append.1 hlimit with hidle | hmax
  · obtain ⟨idle, hsome, rfl⟩ := Option.map_eq_some_iff.1 (Option.mem_toList.1 hidle)
    refine ⟨s.lastInput + idle, List.mem_append_left _ ?_, add_le_add_left hinput idle⟩
    rw [hsome]
    exact List.mem_singleton_self _
  · rw [hstarted] at hmax
    exact ⟨limit, List.mem_append_right _ hmax, le_rfl⟩

theorem Watched.Limited.step (hlag : 0 ≤ lag) (hanswer : 0 ≤ answer) (h : s.Limited o lag answer)
    (ha : Timely lag answer s a) (hst : watchStep o s a = some s') : s'.Limited o lag answer := by
  obtain ⟨hle, hacted⟩ := watchStep_eq_some hst
  have hinput : s.lastInput ≤ a.now := h.input_le.trans hle
  cases hacted with
  | wakes due hphase heq =>
    rw [heq]
    exact Limited.loop hlag hanswer hinput
  | resumes u hsame heq hevent hcheck =>
    have hnow : u.now = a.now := hsame.now
    rw [heq, ← hnow]
    refine Limited.resume hlag hanswer ?_
    rw [hnow, hsame.lastInput]
    exact hinput
  | touches since hactive hphase hsame hevent hcheck =>
    have hnow : s'.now = a.now := hsame.now
    refine ⟨?_, ?_, ?_⟩
    · rw [hnow, hsame.lastInput]
      exact hinput
    · rw [hphase, hnow]
      exact le_add_of_nonneg_right hanswer
    · refine h.within.imp (fun hclosed => hevent.trans hclosed) fun hwithin limit hlimit => ?_
      rw [limits_congr hsame.started hsame.lastInput] at hlimit
      have hsince : s.phase.Within answer limit := hwithin limit hlimit
      have hdue : s.phase.DueBy lag answer a.now := ha
      rw [show s.phase = .checking since from hactive.1] at hsince hdue
      rw [hphase]
      exact le_trans hdue (add_le_add_left hsince answer)
  | stays hphase hnow hstarted hinput' hcheck hevent =>
    have hnow' : s'.now = a.now := hnow
    have hphase' : s'.phase = s.phase := hphase
    refine ⟨?_, ?_, ?_⟩
    · rw [hnow']
      rcases hinput' with heq | heq
      · rw [heq]
        exact hinput
      · exact heq.le
    · rw [hphase', hnow']
      exact ha
    · refine h.within.imp hevent fun hwithin limit hlimit => ?_
      have hlater : s.lastInput ≤ s'.lastInput := by
        rcases hinput' with heq | heq
        · exact heq.ge
        · exact hinput.trans heq.ge
      obtain ⟨limit₀, hlimit₀, hle⟩ := exists_limit_le hstarted hlater hlimit
      rw [hphase']
      exact (hwithin limit₀ hlimit₀).mono hle

private theorem Watched.loop_close (h : (s.loop o now).close = some timedOut) :
    s.close = some timedOut ∨ ∃ limit ∈ s.limits o, limit ≤ now := by
  unfold loop at h
  split at h
  · exact .inl h
  · split at h
    · next hlimits =>
      obtain ⟨limit, hlimit, hle⟩ := List.any_eq_true.1 hlimits
      exact .inr ⟨limit, hlimit, of_decide_eq_true hle⟩
    · split at h <;> exact .inl h

private theorem Watched.noteActivity_close : (s.noteActivity o now).close = s.close := by
  unfold noteActivity
  split <;> rfl

private theorem Watched.requestClose_close {close : Close} (h : s.close = none) (hne : close ≠ timedOut) :
    (s.requestClose close).close ≠ some timedOut := by
  unfold requestClose
  split
  · rw [h]
    exact nofun
  · exact fun heq => hne (Option.some.inj heq)

/-- It is the watch that closes a shell for the time, when a limit has passed. -/
private theorem exists_limit_of_close (hst : watchStep o s a = some s') (hpre : s.close = none)
    (hpost : s'.close = some timedOut) (ha : ∀ now, a ≠ .requestClose now timedOut) :
    ∃ limit ∈ s.limits o, limit ≤ a.now := by
  unfold watchStep at hst
  split at hst
  · cases hst
  · have hloop : ∀ u : Watched, (u.loop o a.now).close = some timedOut → u.close ≠ some timedOut →
        u.started = s.started → u.lastInput = s.lastInput → ∃ limit ∈ s.limits o, limit ≤ a.now := by
      intro u hclose hu hstarted hinput
      rw [← Watched.limits_congr hstarted hinput]
      exact (Watched.loop_close hclose).resolve_left hu
    have hended : ∀ reason, sessionEnded reason ≠ timedOut := fun reason heq => by
      have hcode := congrArg Close.code heq
      cases hcode
    cases a with
    | input now =>
      obtain rfl := Option.some.inj hst
      rw [hpre] at hpost
      cases hpost
    | wake now =>
      simp only [Watched.act] at hst
      split at hst
      · split at hst
        · obtain rfl := Option.some.inj hst
          exact hloop _ hpost (by simp [hpre]) rfl rfl
        · cases hst
      · cases hst
    | answered now result =>
      simp only [Watched.act] at hst
      split at hst
      · split at hst
        · next reason _ =>
          obtain rfl := Option.some.inj hst
          exact hloop _ hpost (Watched.requestClose_close hpre (hended reason)) (by simp) (by simp)
        · split at hst
          · obtain rfl := Option.some.inj hst
            rw [Watched.noteActivity_close, hpre] at hpost
            cases hpost
          · obtain rfl := Option.some.inj hst
            exact hloop _ hpost (by simp [Watched.noteActivity_close, hpre]) (by simp) (by simp)
      · cases hst
    | touched now =>
      simp only [Watched.act] at hst
      split at hst
      · obtain rfl := Option.some.inj hst
        exact hloop _ hpost (by simp [hpre]) rfl rfl
      · cases hst
    | rechecked now result =>
      simp only [Watched.act] at hst
      split at hst
      · split at hst
        · next reason _ =>
          obtain rfl := Option.some.inj hst
          exact absurd hpost (Watched.requestClose_close hpre (hended reason))
        · obtain rfl := Option.some.inj hst
          rw [Watched.noteActivity_close, hpre] at hpost
          cases hpost
      · cases hst
    | requestClose now close =>
      obtain rfl := Option.some.inj hst
      exact absurd hpost (Watched.requestClose_close hpre fun heq => ha now (heq ▸ rfl))
    | ends now =>
      obtain rfl := Option.some.inj hst
      rw [hpre] at hpost
      cases hpost

/-- The first round of the watch closes a shell for the time only when a limit has passed. -/
private theorem Watched.exists_limit_of_start {started begun : ℚ}
    (h : (Watched.start o started begun).close = some timedOut) :
    ∃ limit ∈ (Watched.start o started begun).limits o, limit ≤ begun := by
  let opened : Watched := { now := begun, started := started, lastInput := started, lastTouch := started }
  have hlimits : (Watched.start o started begun).limits o = opened.limits o := limits_congr loop_started loop_lastInput
  rw [hlimits]
  exact (loop_close h).resolve_left nofun

/-- A shell is closed for the time only when a limit has passed; and if timers fire and the provider answers in time, a
shell that is open has not been idle, nor open, for longer than it may be and a moment. -/
theorem limits_enforced {ms : List (Move Watched WatchAction)} {started begun : ℚ} (hlag : 0 ≤ lag)
    (hanswer : 0 ≤ answer) (hbegun : started ≤ begun)
    (h : GuardedRun (watchStep o) (Timely lag answer) (Watched.start o started begun) ms s) :
    (s.closeEvent = false → ∀ limit ∈ s.limits o, s.now ≤ limit + max (1 / 100 + lag) (2 * answer)) ∧
      (∀ m ∈ ms, m.pre.close = none → m.post.close = some timedOut → (∀ now, m.act ≠ .requestClose now timedOut) →
        ∃ limit ∈ m.pre.limits o, limit ≤ m.act.now) ∧
      ((Watched.start o started begun).close = some timedOut →
        ∃ limit ∈ (Watched.start o started begun).limits o, limit ≤ begun) := by
  refine ⟨?_, ?_, Watched.exists_limit_of_start⟩
  · intro hopen limit hlimit
    have hkept : s.Limited o lag answer :=
      h.invariant (Watched.Limited.resume hlag hanswer hbegun) fun _ _ _ hs ha hst => hs.step hlag hanswer ha hst
    rcases hkept.within with hclosed | hwithin
    · rw [hopen] at hclosed
      cases hclosed
    · exact (hwithin limit hlimit).now_le hkept.dueBy hanswer
  · intro m hm hpre hpost ha
    obtain ⟨-, -, hst⟩ := h.of_mem (I := fun _ => True) trivial (fun _ _ _ _ _ _ => trivial) hm
    exact exists_limit_of_close hst hpre hpost ha

/-- The input puts the limit off, and the shell is closed when the timer is due for the second time. -/
theorem limits_enforced_idle : ∃ ms, ∃ s : Watched,
    GuardedRun (watchStep ⟨some 5, none, none, false, false⟩) (Timely 1 2)
      (Watched.start ⟨some 5, none, none, false, false⟩ 0 0) ms s ∧ s.close = some timedOut ∧
        ∃ m ∈ ms, ∃ limit ∈ m.pre.limits ⟨some 5, none, none, false, false⟩, limit ≤ m.act.now := by
  let o : WatchOptions := ⟨some 5, none, none, false, false⟩
  let actions : List WatchAction := [.input 3, .wake 5, .wake (17 / 2)]
  have hexec : (exec (watchStep o) (Watched.start o 0 0) actions).any (fun r => decide (r.2.close = some timedOut ∧
      (∀ m ∈ r.1, Timely 1 2 m.pre m.act) ∧
      ∃ m ∈ r.1, m.pre.close = none ∧ m.post.close = some timedOut)) = true := by
    decide +kernel
  obtain ⟨⟨ms, s⟩, hexec, hs⟩ := (Option.any_eq_true _ _).1 hexec
  obtain ⟨hclose, htimely, m, hm, hpre, hpost⟩ := of_decide_eq_true hs
  have hrun := (run_of_exec hexec).restrict htimely
  have hact : ∀ now, m.act ≠ .requestClose now timedOut := by
    intro now heq
    have hmem := act_mem_of_exec hexec m hm
    rw [heq] at hmem
    simp [actions] at hmem
  exact ⟨ms, s, hrun, hclose, m, hm,
    (limits_enforced (by norm_num) (by norm_num) le_rfl hrun).2.1 m hm hpre hpost hact⟩

/-! ### The owner's session -/

/-- A check that begins at or after `ended` does not find the session active. -/
def EndedAt (ended lag answer : ℚ) (s : Watched) (a : WatchAction) : Prop :=
  Timely lag answer s a ∧ ∀ since, ended ≤ since → ¬s.StillActive a since

/-- The watch goes on to a check that is due at `check`, or to the end of one that began before the session ended. -/
def WatchPhase.Noticing (ended lag answer check : ℚ) : WatchPhase → Prop
  | .waiting due => ∃ d, due = some d ∧ d ≤ check + 1 / 100
  | .checking since => since ≤ check + 1 / 100 + lag
  | .touching since => since ≤ ended + answer
  | .returned => False

variable {ended interval check : ℚ}

private theorem WatchPhase.Noticing.now_le (h : phase.Noticing ended lag answer check)
    (hdue : phase.DueBy lag answer now)
    (hcheck : check ≤ ended + 2 * answer + interval) (hlag : 0 ≤ lag) (hanswer : 0 ≤ answer)
    (hinterval : 0 ≤ interval) :
    now ≤ ended + interval + 1 / 100 + lag + 3 * answer := by
  cases phase with
  | waiting due =>
    obtain ⟨d, hd, hle⟩ := h
    have hnow : now ≤ d + lag := hdue d hd
    linarith
  | checking since =>
    have hsince : since ≤ check + 1 / 100 + lag := h
    have hnow : now ≤ since + answer := hdue
    linarith
  | touching since =>
    have hsince : since ≤ ended + answer := h
    have hnow : now ≤ since + answer := hdue
    linarith
  | returned => exact h.elim

/-- The event is set, or the next check is not far. -/
structure Watched.Noticing (ended lag answer interval : ℚ) (s : Watched) : Prop where
  dueBy : s.phase.DueBy lag answer s.now
  check : s.closeEvent = true ∨ ∃ check, s.nextCheck = some check ∧ check ≤ ended + 2 * answer + interval ∧
    s.phase.Noticing ended lag answer check

@[simp] theorem Watched.loop_nextCheck : (s.loop o now).nextCheck = s.nextCheck := by
  unfold loop
  split_ifs <;> simp

/-- After a round of the loop that is not late for the check. -/
theorem Watched.Noticing.loop (hlag : 0 ≤ lag) (hanswer : 0 ≤ answer) (hcheck : s.nextCheck = some check)
    (hle : check ≤ ended + 2 * answer + interval) (hnow : s.now ≤ check + 1 / 100 + lag) :
    (s.loop o s.now).Noticing ended lag answer interval := by
  rcases loop_cases (o := o) s s.now with ⟨hclosed, hphase⟩ | ⟨-, -, ⟨-, -, -, heq⟩ | ⟨due, heq, hbefore, hdue, hmin⟩⟩
  · refine ⟨?_, .inl hclosed⟩
    rw [hphase]
    trivial
  · rw [heq]
    exact ⟨le_add_of_nonneg_right hanswer, .inr ⟨check, hcheck, hle, hnow⟩⟩
  · rw [heq]
    refine ⟨fun d hd => le_add_of_le_of_nonneg (hdue d hd) hlag, .inr ⟨check, hcheck, hle, ?_⟩⟩
    have hmem : check ∈ s.deadlines o := List.mem_append_right _ (by rw [hcheck]; exact List.mem_singleton_self _)
    obtain ⟨d, hd, hled⟩ := hmin check hmem
    have hlt := hbefore check hcheck
    refine ⟨d, hd, ?_⟩
    rcases hled with hled | hled <;> linarith

theorem Watched.Noticing.resume (hlag : 0 ≤ lag) (hanswer : 0 ≤ answer) (hinterval : 0 ≤ interval)
    (ho : o.interval = some interval) (hnow : s.now ≤ ended + 2 * answer) :
    (s.resume o s.now).Noticing ended lag answer interval := by
  have hnext : (o.interval.map (s.now + ·)) = some (s.now + interval) := by rw [ho]; rfl
  refine Noticing.loop (s := { s with nextCheck := o.interval.map (s.now + ·) }) hlag hanswer hnext ?_ ?_
  · linarith
  · show s.now ≤ s.now + interval + 1 / 100 + lag
    linarith

theorem Watched.Noticing.step (hlag : 0 ≤ lag) (hanswer : 0 ≤ answer) (hinterval : 0 ≤ interval)
    (ho : o.interval = some interval) (h : s.Noticing ended lag answer interval) (ha : EndedAt ended lag answer s a)
    (hst : watchStep o s a = some s') : s'.Noticing ended lag answer interval := by
  obtain ⟨htimely, hended⟩ := ha
  have hdueBy : s.phase.DueBy lag answer a.now := htimely
  obtain ⟨hle, hacted⟩ := watchStep_eq_some hst
  -- a check that finds the session active began before its end
  have hearly : ∀ since, s.StillActive a since → a.now ≤ ended + answer := by
    intro since hactive
    have hsince : since < ended := not_le.1 fun hlate => hended since hlate hactive
    rw [hactive.1] at hdueBy
    have hnow : a.now ≤ since + answer := hdueBy
    linarith
  have hclosed : ∀ u : Watched, u.closeEvent = true → (u.loop o a.now).Noticing ended lag answer interval := by
    intro u hu
    have hloop : u.loop o a.now = { u with phase := .returned } := if_pos hu
    rw [hloop]
    exact ⟨trivial, .inl hu⟩
  cases hacted with
  | wakes due hphase heq =>
    rw [heq]
    have hphase' : s.phase = .waiting due := hphase
    rcases h.check with hevent | ⟨check, hcheck, hle', hnoticing⟩
    · exact hclosed _ hevent
    · rw [hphase'] at hnoticing hdueBy
      obtain ⟨d, hd, hled⟩ := hnoticing
      have hnow : a.now ≤ d + lag := hdueBy d hd
      exact Noticing.loop (s := { s with now := a.now }) hlag hanswer hcheck hle' (by linarith)
  | resumes u hsame heq hevent' hcheck =>
    have hnow : u.now = a.now := hsame.now
    rw [heq]
    rcases hcheck with hevent | ⟨since, hactive | hphase⟩
    · exact hclosed _ hevent
    · have hearly' := hearly since hactive
      rw [← hnow]
      exact Noticing.resume hlag hanswer hinterval ho (by rw [hnow]; linarith)
    · have hphase' : s.phase = .touching since := hphase
      rcases h.check with hevent | ⟨check, -, -, hnoticing⟩
      · exact hclosed _ (hevent' hevent)
      · rw [hphase'] at hnoticing hdueBy
        have hsince : since ≤ ended + answer := hnoticing
        have hnow' : a.now ≤ since + answer := hdueBy
        rw [← hnow]
        exact Noticing.resume hlag hanswer hinterval ho (by rw [hnow]; linarith)
  | touches since hactive hphase hsame hevent hcheck =>
    have hnow : s'.now = a.now := hsame.now
    refine ⟨?_, ?_⟩
    · rw [hphase, hnow]
      exact le_add_of_nonneg_right hanswer
    · refine h.check.imp (fun hclosed => hevent.trans hclosed) ?_
      rintro ⟨check, hsome, hle', -⟩
      refine ⟨check, hcheck.trans hsome, hle', ?_⟩
      rw [hphase]
      exact hearly since hactive
  | stays hphase hnow hstarted hinput hcheck hevent =>
    have hnow' : s'.now = a.now := hnow
    have hphase' : s'.phase = s.phase := hphase
    refine ⟨?_, ?_⟩
    · rw [hphase', hnow']
      exact htimely
    · refine h.check.imp hevent ?_
      rintro ⟨check, hsome, hle', hnoticing⟩
      refine ⟨check, hcheck.trans hsome, hle', ?_⟩
      rw [hphase']
      exact hnoticing

private theorem sessionCheckInterval_pos_le (value : Option ℚ) :
    0 < sessionCheckInterval value ∧ sessionCheckInterval value ≤ 60 := by
  unfold sessionCheckInterval
  split
  · next value _ =>
    split
    · norm_num
    · next hpos => exact ⟨lt_min (not_le.1 hpos) (by norm_num), min_le_right _ _⟩
  · norm_num

/-- If timers fire and the provider answers in time, a shell whose session has ended is closed little more than a minute
after that, even if no change was told to it. -/
theorem ended_noticed {ms : List (Move Watched WatchAction)} {started begun : ℚ} (hlag : 0 ≤ lag) (hanswer : 0 ≤ answer)
    (husers : o.users = true) (hbegun : begun ≤ ended)
    (h : GuardedRun (watchStep o) (EndedAt ended lag answer) (Watched.start o started begun) ms s)
    (hlate : ended + 60 + 1 / 100 + lag + 3 * answer < s.now) : s.closeEvent = true := by
  obtain ⟨hpos, hle⟩ := sessionCheckInterval_pos_le o.checkInterval
  have ho : o.interval = some (sessionCheckInterval o.checkInterval) := if_pos husers
  have hstart : begun ≤ ended + 2 * answer := by linarith
  have hkept : s.Noticing ended lag answer (sessionCheckInterval o.checkInterval) :=
    h.invariant (Watched.Noticing.resume hlag hanswer hpos.le ho hstart) fun _ _ _ hs ha hst =>
      hs.step hlag hanswer hpos.le ho ha hst
  rcases hkept.check with hclosed | ⟨check, -, hcheck, hnoticing⟩
  · exact hclosed
  · have hnow := hnoticing.now_le hkept.dueBy hcheck hlag hanswer hpos.le
    linarith

/-- The session ends as the shell is opened, and the first check finds it. -/
theorem ended_noticed_first : ∃ ms, ∃ s : Watched,
    GuardedRun (watchStep ⟨none, none, none, true, true⟩) (EndedAt 0 1 2)
      (Watched.start ⟨none, none, none, true, true⟩ 0 0) ms s ∧ s.now = 70 ∧ s.closeEvent = true := by
  let o : WatchOptions := ⟨none, none, none, true, true⟩
  let actions : List WatchAction := [.wake 30, .answered 31 (.flag false), .input 70]
  have hexec : (exec (watchStep o) (Watched.start o 0 0) actions).any (fun r => decide (r.2.now = 70 ∧
      ∀ m ∈ r.1, Timely 1 2 m.pre m.act)) = true := by
    decide +kernel
  obtain ⟨⟨ms, s⟩, hexec, hs⟩ := (Option.any_eq_true _ _).1 hexec
  obtain ⟨hnow, htimely⟩ := of_decide_eq_true hs
  have hactive : ∀ m ∈ ms, m.act.findsActive = false := by
    intro m hm
    have hall : ∀ a ∈ actions, a.findsActive = false := by decide
    exact hall _ (act_mem_of_exec hexec m hm)
  have hrun : GuardedRun (watchStep o) (EndedAt 0 1 2) (Watched.start o 0 0) ms s := by
    refine (run_of_exec hexec).restrict fun m hm => ⟨htimely m hm, fun since _ hstill => ?_⟩
    have hfinds := hactive m hm
    rw [hstill.2] at hfinds
    cases hfinds
  refine ⟨ms, s, hrun, hnow, ended_noticed (by norm_num) (by norm_num) rfl le_rfl hrun ?_⟩
  rw [hnow]
  norm_num

/-! ### Activity -/

@[simp] theorem Watched.requestClose_touches (close : Close) : (s.requestClose close).touches = s.touches := by
  unfold requestClose
  split <;> rfl

@[simp] theorem Watched.requestClose_lastTouch (close : Close) : (s.requestClose close).lastTouch = s.lastTouch := by
  unfold requestClose
  split <;> rfl

@[simp] theorem Watched.loop_touches : (s.loop o now).touches = s.touches := by
  unfold loop
  split_ifs <;> simp

@[simp] theorem Watched.loop_lastTouch : (s.loop o now).lastTouch = s.lastTouch := by
  unfold loop
  split_ifs <;> simp

/-- Nothing is touched, or what is due is. -/
def Watched.Touched (o : WatchOptions) (s : Watched) (now : ℚ) (s' : Watched) : Prop :=
  (s'.touches = s.touches ∧ s'.lastTouch = s.lastTouch) ∨
    (s.lastTouch < s.lastInput ∧ s.lastTouch + 30 ≤ now ∧ s'.lastTouch = now ∧
      s'.touches = if o.touch then s.touches ++ [now] else s.touches)

private theorem Watched.touched_noteActivity (s : Watched) (now : ℚ) : s.Touched o now (s.noteActivity o now) := by
  unfold noteActivity
  split
  · next h =>
    rw [untouched, Bool.and_eq_true, decide_eq_true_eq, decide_eq_true_eq] at h
    exact .inr ⟨h.1, by linarith [h.2], rfl, rfl⟩
  · exact .inl ⟨rfl, rfl⟩

/-- An action reads the clock, and is an input or may touch the session. -/
private theorem touched_of_watchStep (hst : watchStep o s a = some s') :
    s.now ≤ a.now ∧ s'.now = a.now ∧ s'.started = s.started ∧ s.Touched o a.now s' ∧
      (s'.lastInput = s.lastInput ∨ a = .input s'.lastInput ∧ s'.lastInput = a.now) := by
  unfold watchStep at hst
  split at hst
  · cases hst
  · next hle =>
    refine ⟨not_lt.1 hle, ?_⟩
    have hkept : ∀ u : Watched, u.touches = s.touches → u.lastTouch = s.lastTouch → s.Touched o a.now u :=
      fun u htouches hlast => .inl ⟨htouches, hlast⟩
    cases a with
    | input now =>
      obtain rfl := Option.some.inj hst
      exact ⟨rfl, rfl, hkept _ rfl rfl, .inr ⟨rfl, rfl⟩⟩
    | wake now =>
      simp only [Watched.act] at hst
      split at hst
      · split at hst
        · obtain rfl := Option.some.inj hst
          exact ⟨by simp, by simp, hkept _ (by simp) (by simp), .inl (by simp)⟩
        · cases hst
      · cases hst
    | answered now result =>
      simp only [Watched.act] at hst
      split at hst
      · split at hst
        · obtain rfl := Option.some.inj hst
          exact ⟨by simp [Watched.resume], by simp [Watched.resume],
            hkept _ (by simp [Watched.resume]) (by simp [Watched.resume]), .inl (by simp [Watched.resume])⟩
        · have hnote := Watched.touched_noteActivity (o := o) { s with now := now } now
          split at hst
          · obtain rfl := Option.some.inj hst
            exact ⟨by simp [WatchAction.now], by simp, hnote, .inl (by simp)⟩
          · obtain rfl := Option.some.inj hst
            refine ⟨by simp [Watched.resume], by simp [Watched.resume], ?_, .inl (by simp [Watched.resume])⟩
            simpa [Watched.Touched, Watched.resume, WatchAction.now] using hnote
      · cases hst
    | touched now =>
      simp only [Watched.act] at hst
      split at hst
      · obtain rfl := Option.some.inj hst
        exact ⟨by simp [Watched.resume], by simp [Watched.resume],
          hkept _ (by simp [Watched.resume]) (by simp [Watched.resume]), .inl (by simp [Watched.resume])⟩
      · cases hst
    | rechecked now result =>
      simp only [Watched.act] at hst
      split at hst
      · split at hst
        · obtain rfl := Option.some.inj hst
          exact ⟨by simp, by simp, hkept _ (by simp) (by simp), .inl (by simp)⟩
        · have hnote := Watched.touched_noteActivity (o := o) { s with now := now } now
          obtain rfl := Option.some.inj hst
          exact ⟨by simp, by simp, hnote, .inl (by simp)⟩
      · cases hst
    | requestClose now close =>
      obtain rfl := Option.some.inj hst
      exact ⟨by simp, by simp, hkept _ (by simp) (by simp), .inl (by simp)⟩
    | ends now =>
      obtain rfl := Option.some.inj hst
      exact ⟨rfl, rfl, hkept _ rfl rfl, .inl rfl⟩

/-- There was input after `before`, and no later than `now`. -/
def InputBetween (ms : List (Move Watched WatchAction)) (before now : ℚ) : Prop :=
  ∃ m ∈ ms, ∃ t, m.act = .input t ∧ before < t ∧ t ≤ now

/-- The touches so far, the last of them, and the last input. -/
structure Watched.Touches (o : WatchOptions) (started : ℚ) (ms : List (Move Watched WatchAction)) (s : Watched) :
    Prop where
  started_le : started ≤ s.lastTouch
  chain : (started :: s.touches).IsChain fun x y => x + 30 ≤ y ∧ InputBetween ms x y
  last : o.touch = true → (started :: s.touches).getLast? = some s.lastTouch
  none : o.touch = false → s.touches = []
  input : s.lastInput = started ∨ ∃ m ∈ ms, m.act = .input s.lastInput
  input_le : s.lastInput ≤ s.now

theorem InputBetween.append {ms ms' : List (Move Watched WatchAction)} {x y : ℚ} (h : InputBetween ms x y) :
    InputBetween (ms ++ ms') x y := by
  obtain ⟨m, hm, ht⟩ := h
  exact ⟨m, List.mem_append_left _ hm, ht⟩

theorem Watched.Touches.step {ms : List (Move Watched WatchAction)} {started : ℚ} (h : s.Touches o started ms)
    (hst : watchStep o s a = some s') : s'.Touches o started (ms ++ [⟨s, a, s'⟩]) := by
  obtain ⟨hle, hnow, -, htouched, hinput⟩ := touched_of_watchStep hst
  have hinput' : s'.lastInput = started ∨ ∃ m ∈ ms ++ [⟨s, a, s'⟩], m.act = .input s'.lastInput := by
    rcases hinput with heq | ⟨hact, -⟩
    · rw [heq]
      refine h.input.imp_right fun ⟨m, hm, ht⟩ => ⟨m, List.mem_append_left _ hm, ht⟩
    · exact .inr ⟨_, List.mem_append_right _ (List.mem_singleton_self _), hact⟩
  have hinput_le : s'.lastInput ≤ s'.now := by
    rw [hnow]
    rcases hinput with heq | ⟨-, heq⟩
    · rw [heq]
      exact h.input_le.trans hle
    · exact heq.le
  have hchain : (started :: s.touches).IsChain fun x y => x + 30 ≤ y ∧ InputBetween (ms ++ [⟨s, a, s'⟩]) x y :=
    h.chain.imp fun x y hxy => ⟨hxy.1, hxy.2.append⟩
  rcases htouched with ⟨htouches, hlast⟩ | ⟨hlt, hdue, hlast, htouches⟩
  · refine ⟨hlast ▸ h.started_le, ?_, fun ho => ?_, fun ho => ?_, hinput', hinput_le⟩
    · rw [htouches]
      exact hchain
    · rw [htouches, hlast]
      exact h.last ho
    · rw [htouches]
      exact h.none ho
  · have hstarted := h.started_le
    -- the input came after the last touch
    have hbetween : InputBetween (ms ++ [⟨s, a, s'⟩]) s.lastTouch a.now := by
      rcases h.input with heq | ⟨m, hm, ht⟩
      · linarith
      · exact ⟨m, List.mem_append_left _ hm, s.lastInput, ht, hlt, h.input_le.trans hle⟩
    refine ⟨by rw [hlast]; linarith, ?_, fun ho => ?_, fun ho => ?_, hinput', hinput_le⟩
    · rw [htouches]
      split
      · next ho =>
        rw [← List.cons_append]
        refine List.isChain_append.2 ⟨hchain, List.isChain_singleton _, fun x hx y hy => ?_⟩
        rw [h.last ho] at hx
        obtain rfl := Option.some.inj hx
        obtain rfl := Option.some.inj hy
        exact ⟨hdue, hbetween⟩
      · exact hchain
    · rw [htouches, if_pos ho, hlast, ← List.cons_append, List.getLast?_concat]
    · rw [htouches, if_neg (by rw [ho]; exact Bool.false_ne_true)]
      exact h.none ho

/-- Whatever checks run at the same time, the owner's session is touched at most every 30 seconds, and only after new
input: no check extends it by itself. -/
theorem touches_spaced {ms : List (Move Watched WatchAction)} {started begun : ℚ} (hbegun : started ≤ begun)
    (h : Run (watchStep o) (Watched.start o started begun) ms s) :
    (started :: s.touches).IsChain fun x y => x + 30 ≤ y ∧ InputBetween ms x y := by
  have hstart : (Watched.start o started begun).Touches o started [] := by
    have hresume : ∀ u : Watched, (u.resume o begun).touches = u.touches ∧ (u.resume o begun).lastTouch = u.lastTouch ∧
        (u.resume o begun).lastInput = u.lastInput ∧ (u.resume o begun).now = u.now := fun u => by simp [Watched.resume]
    obtain ⟨htouches, hlast, hinput, hnow⟩ :=
      hresume { now := begun, started := started, lastInput := started, lastTouch := started }
    refine ⟨hlast.ge, ?_, fun _ => ?_, fun _ => htouches, .inl hinput, ?_⟩
    · rw [Watched.start, htouches]
      exact List.isChain_singleton _
    · rw [Watched.start, htouches, hlast]
      rfl
    · rw [Watched.start, hinput, hnow]
      exact hbegun
  have hkept : s.Touches o started ms :=
    h.history (I := fun ms s => s.Touches o started ms) hstart fun _ _ _ _ hs _ hst => hs.step hst
  exact hkept.chain

/-- A check touches the session after the input; a second one does not. -/
theorem touches_spaced_once : ∃ ms, ∃ s : Watched,
    Run (watchStep ⟨none, none, none, true, true⟩) (Watched.start ⟨none, none, none, true, true⟩ 0 0) ms s ∧
      s.touches = [31] ∧ (0 :: s.touches).IsChain fun x y => x + 30 ≤ y ∧ InputBetween ms x y := by
  let o : WatchOptions := ⟨none, none, none, true, true⟩
  let actions : List WatchAction :=
    [.input 10, .wake 30, .answered 31 (.flag true), .rechecked 32 (.flag true), .touched 32]
  have hexec : (exec (watchStep o) (Watched.start o 0 0) actions).any (fun r => decide (r.2.touches = [31])) =
      true := by
    decide +kernel
  obtain ⟨⟨ms, s⟩, hexec, hs⟩ := (Option.any_eq_true _ _).1 hexec
  exact ⟨ms, s, run_of_exec hexec, of_decide_eq_true hs, touches_spaced le_rfl (run_of_exec hexec)⟩

end CliServer.Shell
