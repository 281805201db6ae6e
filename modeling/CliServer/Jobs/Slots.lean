import CliServer.Jobs.Scheduler
import CliServer.Lib.Transition

/-!
# Slots and the queue of one

A job's runs never exceed its limit by a step that adds one, and a run waits only while every slot is taken.  Both
follow from one inversion of `step` (`slotEffect`): seen from the slots, a step changes nothing, takes a free slot for a
run that is asked for, lets a run wait, drops the waiting run, or changes what is taken or allowed and then serves the
queue.  The events of the queue alternate: every accepted run is started once or dropped once before another is
accepted.
-/

namespace CliServer

open Transition

/-- The actions that ask for a run: `start`, the timer and `trigger`. -/
def JobAction.Asks : JobAction → Prop
  | .start _ _ | .timerFire _ | .trigger => True
  | _ => False

/-- The actions that cancel the runs and drop the one that waits. -/
def JobAction.CancelsAll : JobAction → Prop
  | .stopJob | .stop | .cancelCurrent => True
  | _ => False

/-- The actions that serve the queue: the end of a run, and `update_options`. -/
def JobAction.Serves : JobAction → Prop
  | .runStep _ _ | .updateOptions _ => True
  | _ => False

/-- Two states of a job with the same slots taken and the same limit. -/
structure SameSlots (reg reg' : JobRegistration) : Prop where
  ids : reg'.runs.ids = reg.runs.ids
  next : reg'.runs.next = reg.runs.next
  limit : reg'.limit = reg.limit

/-- What a step does to the slots and the queue. -/
inductive SlotEffect (pre : JobRegistration) (a : JobAction) (post : JobRegistration) : Prop
  | keep (same : SameSlots pre post) (queued : post.queued = pre.queued)
  | take (asks : a.Asks) (free : pre.taken < pre.limit) (ids : post.runs.ids = pre.runs.ids ++ [pre.runs.next])
      (next : post.runs.next = pre.runs.next + 1) (limit : post.limit = pre.limit) (queued : post.queued = pre.queued)
  | wait (asks : a.Asks) (full : pre.limit ≤ pre.taken) (same : SameSlots pre post) (queued : post.queued = true)
  | drop (cancels : a.CancelsAll) (same : SameSlots pre post) (queued : post.queued = false)
  | serve (mid : JobRegistration) (serves : a.Serves) (ids : mid.runs.ids.Sublist pre.runs.ids)
      (next : mid.runs.next = pre.runs.next) (queued : mid.queued = pre.queued)
      (limit : ∀ i answer, a = .runStep i answer → mid.limit = pre.limit)
      (runs : ∀ changes, a = .updateOptions changes → mid.runs.ids = pre.runs.ids) (post_eq : post = mid.startQueued)

private theorem sameSlots_cancel (reg : JobRegistration) (p : RunId → Bool) (q : Bool) :
    SameSlots reg { reg with runs := reg.runs.cancel p, queued := q } :=
  ⟨Runs.ids_cancel _ _, rfl, rfl⟩

/-- `_admit` takes a free slot, lets the run wait, or skips it. -/
private theorem admitRun_cases (reg : JobRegistration) :
    (reg.taken < reg.limit ∧ reg.admitRun = (reg.takeSlot, .slot reg.runs.next)) ∨
    (reg.limit ≤ reg.taken ∧ ∃ reg', reg.admitRun = (reg', .queued) ∧ SameSlots reg reg' ∧ reg'.queued = true) ∨
    (reg.limit ≤ reg.taken ∧ reg.admitRun = (reg, .skipped)) := by
  unfold JobRegistration.admitRun
  by_cases hfree : reg.taken < reg.limit
  · exact .inl ⟨hfree, if_pos hfree⟩
  · rw [if_neg hfree]
    right
    by_cases hqueue : reg.options.overlapPolicy = "queue".toList
    · exact .inl ⟨Nat.le_of_not_lt hfree, _, if_pos hqueue, ⟨rfl, rfl, rfl⟩, rfl⟩
    rw [if_neg hqueue]
    by_cases hcancel : reg.options.overlapPolicy = "cancel".toList
    · rw [if_pos hcancel]
      by_cases hq : reg.queued = true
      · exact .inl ⟨Nat.le_of_not_lt hfree, reg, if_pos hq, ⟨rfl, rfl, rfl⟩, hq⟩
      · exact .inl ⟨Nat.le_of_not_lt hfree, _, if_neg hq, sameSlots_cancel _ _ _, rfl⟩
    · exact .inr ⟨Nat.le_of_not_lt hfree, if_neg hcancel⟩

private theorem slotEffect_launchDue {reg : JobRegistration} {a : JobAction} (ha : a.Asks) :
    SlotEffect reg a reg.launchDue := by
  unfold JobRegistration.launchDue
  rcases admitRun_cases reg with ⟨hfree, h⟩ | ⟨hfull, reg', h, hsame, hq⟩ | ⟨-, h⟩
  · rw [h]
    exact .take ha hfree (by simp [JobRegistration.launch, JobRegistration.takeSlot]) rfl rfl rfl
  · rw [h]
    exact .wait ha hfull hsame hq
  · rw [h]
    exact .keep ⟨rfl, rfl, rfl⟩ rfl

private theorem slotEffect_trigger {reg reg' : JobRegistration} (h : reg.trigger = some reg') :
    SlotEffect reg .trigger reg' := by
  unfold JobRegistration.trigger at h
  rcases admitRun_cases reg with ⟨hfree, hadm⟩ | ⟨hfull, mid, hadm, hsame, hq⟩ | ⟨-, hadm⟩
  · rw [hadm] at h
    obtain rfl := Option.some.inj h
    exact .take trivial hfree (by simp [JobRegistration.takeSlot]) rfl rfl rfl
  · rw [hadm] at h
    obtain rfl := Option.some.inj h
    exact .wait trivial hfull hsame hq
  · rw [hadm] at h
    cases h

private theorem SlotEffect.of_status {reg post : JobRegistration} {a : JobAction} {s : JobStatus}
    (h : SlotEffect { reg with status := s } a post) : SlotEffect reg a post := by
  cases h with
  | keep same queued => exact .keep ⟨same.ids, same.next, same.limit⟩ queued
  | take asks free ids next limit queued => exact .take asks free ids next limit queued
  | wait asks full same queued => exact .wait asks full ⟨same.ids, same.next, same.limit⟩ queued
  | drop cancels same queued => exact .drop cancels ⟨same.ids, same.next, same.limit⟩ queued
  | serve mid serves ids next queued limit runs post_eq =>
    exact .serve mid serves ids next queued limit runs post_eq

private theorem slotEffect_keep {reg reg' : JobRegistration} {a : JobAction} (hids : reg'.runs.ids = reg.runs.ids)
    (hnext : reg'.runs.next = reg.runs.next) (hlimit : reg'.limit = reg.limit) (hq : reg'.queued = reg.queued) :
    SlotEffect reg a reg' := .keep ⟨hids, hnext, hlimit⟩ hq

private theorem slotEffect_start (reg : JobRegistration) (saved : Option JobStatus) (due : Bool) :
    SlotEffect reg (.start saved due) (reg.start saved due) := by
  obtain ⟨status, hstatus⟩ : ∃ status, reg.restore saved = { reg with status := status } := by
    unfold JobRegistration.restore
    split
    · split
      · exact ⟨_, rfl⟩
      · exact ⟨reg.status, rfl⟩
    · exact ⟨reg.status, rfl⟩
  unfold JobRegistration.start
  rw [hstatus]
  split
  · exact .of_status (slotEffect_launchDue trivial)
  · exact slotEffect_keep rfl rfl rfl rfl

private theorem slotEffect_cancelRuns {reg : JobRegistration} {a : JobAction} (ha : a.CancelsAll) :
    SlotEffect reg a reg.cancelRuns := .drop ha (sameSlots_cancel _ _ _) rfl

private theorem slotEffect_updateOptions {isCron : Str → Bool} {reg reg' : JobRegistration} {c : OptionChanges}
    (h : reg.updateOptions isCron c = some reg') : SlotEffect reg (.updateOptions c) reg' := by
  have hlimit := runWrites_limit (optionWrites_keepLimit isCron c) reg.options
  unfold JobRegistration.updateOptions at h
  split at h
  · obtain rfl := Option.some.inj h
    exact slotEffect_keep rfl rfl hlimit rfl
  · split at h
    · cases h
    · split at h
      · rename_i o _ hw
        obtain rfl := Option.some.inj h
        rw [hw] at hlimit
        exact slotEffect_keep rfl rfl hlimit rfl
      · rename_i limit _ _ o hw
        obtain rfl := Option.some.inj h
        exact .serve { reg with options := { o with
            maxConcurrentRuns := limit, maxConcurrentRuns_pos := limit.property } }
          trivial (List.Sublist.refl _) rfl rfl (fun _ _ h => by cases h) (fun _ _ => rfl) rfl

private theorem slotEffect_triggered {reg reg' : JobRegistration} {i : RunId} {answer : Answer}
    (h : reg.triggered i answer = some reg') : SlotEffect reg (.triggered i answer) reg' := by
  obtain ⟨run, -, h⟩ := Option.bind_eq_some_iff.1 h
  split at h
  · split at h
    · obtain rfl := Option.some.inj h
      exact slotEffect_keep (by simp) rfl rfl rfl
    · cases h
    · obtain rfl := Option.some.inj h
      exact slotEffect_keep (by simp [JobRegistration.launch]) rfl rfl rfl
  · cases h

private theorem slotEffect_runStep {reg reg' : JobRegistration} {i : RunId} {answer : Answer}
    (h : runStep reg i answer = some reg') : SlotEffect reg (.runStep i answer) reg' := by
  obtain ⟨run, -, h⟩ := Option.bind_eq_some_iff.1 h
  obtain ⟨next, -, h⟩ := Option.bind_eq_some_iff.1 h
  cases next with
  | goto phase =>
    obtain rfl := Option.some.inj h
    exact slotEffect_keep (by simp) rfl rfl rfl
  | cancelGoto phase =>
    obtain rfl := Option.some.inj h
    exact slotEffect_keep (by simp) rfl rfl rfl
  | ended =>
    obtain rfl := Option.some.inj h
    exact .serve { reg with runs := reg.runs.remove i } trivial (Runs.ids_remove_sublist _ _) rfl rfl
      (fun _ _ _ => rfl) (fun _ h => by cases h) rfl

/-- Every step, seen from the slots. -/
theorem slotEffect {isCron : Str → Bool} {reg reg' : JobRegistration} {a : JobAction}
    (h : step isCron reg a = some reg') : SlotEffect reg a reg' := by
  cases a with
  | start saved due =>
    obtain rfl := Option.some.inj h
    exact slotEffect_start reg saved due
  | timerFire running =>
    obtain rfl := Option.some.inj h
    unfold JobRegistration.timerFire
    split
    · exact slotEffect_launchDue trivial
    · exact slotEffect_keep rfl rfl rfl rfl
  | trigger => exact slotEffect_trigger h
  | triggered i answer => exact slotEffect_triggered h
  | pause =>
    obtain ⟨-, rfl⟩ : ¬ reg.status = .paused ∧ { reg with status := .paused } = reg' := by
      simpa [step, JobRegistration.pause] using h
    exact slotEffect_keep rfl rfl rfl rfl
  | resume =>
    obtain ⟨-, rfl⟩ : reg.status = .paused ∧ { reg with status := .active } = reg' := by
      simpa [step, JobRegistration.resume] using h
    exact slotEffect_keep rfl rfl rfl rfl
  | stopJob =>
    obtain rfl := Option.some.inj h
    exact .of_status (s := .stopped) (slotEffect_cancelRuns trivial)
  | stop =>
    obtain rfl := Option.some.inj h
    exact slotEffect_cancelRuns trivial
  | cancelCurrent =>
    simp only [step, JobRegistration.cancelCurrent] at h
    split at h
    · cases h
    · obtain rfl := Option.some.inj h
      exact slotEffect_cancelRuns trivial
  | updateOptions changes => exact slotEffect_updateOptions h
  | runStep i answer => exact slotEffect_runStep h

/-! ### The queue -/

/-- What happens to the run that waits. -/
inductive QueueEvent where
  | accepted | started | dropped
  deriving DecidableEq, Repr

/-- The queue event of a step, read off the states around it. -/
def queueEvent (m : Move JobRegistration JobAction) : Option QueueEvent :=
  match m.pre.queued, m.post.queued with
  | false, true => some .accepted
  | true, false => some (if m.post.runs.next = m.pre.runs.next then .dropped else .started)
  | _, _ => none

/-- The histories of a queue of one: every accepted run is started once or dropped once before the next is accepted.
The flag tells whether an accepted run still waits. -/
inductive Ledger : List QueueEvent → Bool → Prop
  | empty : Ledger [] false
  | accept {es : List QueueEvent} : Ledger es false → Ledger (es ++ [.accepted]) true
  | start {es : List QueueEvent} : Ledger es true → Ledger (es ++ [.started]) false
  | drop {es : List QueueEvent} : Ledger es true → Ledger (es ++ [.dropped]) false

/-- A run waits only while every slot is taken. -/
def WaitsWhenFull (reg : JobRegistration) : Prop := reg.queued = true → reg.limit ≤ reg.taken

/-- What holds of a step of a job. -/
structure SlotStep (m : Move JobRegistration JobAction) : Prop where
  /-- A step that adds a run leaves at most the limit. -/
  added_le : ∀ i ∈ m.post.runs.ids, i ∉ m.pre.runs.ids → m.post.taken ≤ m.post.limit
  /-- A step adds one run at most. -/
  added_eq : ∀ i ∈ m.post.runs.ids, i ∉ m.pre.runs.ids → i = m.pre.runs.next
  /-- A run is added when one is asked for and none waits, or from the queue. -/
  added_by : ∀ i ∈ m.post.runs.ids, i ∉ m.pre.runs.ids →
    (m.act.Asks ∧ m.pre.queued = false) ∨ queueEvent m = some .started
  /-- A run comes to wait when one is asked for and every slot is taken. -/
  accepted : queueEvent m = some .accepted → m.act.Asks ∧ m.pre.limit ≤ m.pre.taken
  /-- The waiting run is started, as one new run with a task, by the end of a run or by a higher limit. -/
  started : queueEvent m = some .started →
    ((∃ i answer, m.act = .runStep i answer) ∨ ((∃ c, m.act = .updateOptions c) ∧ m.pre.limit < m.post.limit)) ∧
    ∃ run ∈ m.post.runs.list, run.id = m.pre.runs.next ∧ run.phase = .launched
  /-- It is dropped by `cancel_current`, `stop_job` and `stop` only. -/
  dropped : queueEvent m = some .dropped → m.act.CancelsAll ∧ m.post.runs.ids = m.pre.runs.ids

/-- `_start_queued` starts the waiting run in a free slot, and else does nothing. -/
theorem startQueued_cases (reg : JobRegistration) :
    (reg.startQueued = reg ∧ WaitsWhenFull reg) ∨
    (reg.queued = true ∧ reg.taken < reg.limit ∧
      reg.startQueued = { reg with queued := false, runs := reg.runs.add.setPhase reg.runs.next .launched }) := by
  by_cases h : reg.queued = true ∧ reg.taken < reg.limit
  · exact .inr ⟨h.1, h.2, if_pos h⟩
  · exact .inl ⟨if_neg h, fun hq => Nat.le_of_not_lt fun hlt => h ⟨hq, hlt⟩⟩

private theorem length_eq_of_ids {rs rs' : Runs} (h : rs'.ids = rs.ids) : rs'.list.length = rs.list.length := by
  rw [← rs'.length_ids, h, rs.length_ids]

private theorem waits_of_same {pre post : JobRegistration} (same : SameSlots pre post)
    (h : pre.limit ≤ pre.taken) : post.limit ≤ post.taken := by
  have hlen : post.taken = pre.taken := length_eq_of_ids same.ids
  rw [hlen, same.limit]
  exact h

/-- No step leaves a run waiting beside a free slot. -/
private theorem waitsWhenFull_step {pre post : JobRegistration} {a : JobAction} (hw : WaitsWhenFull pre)
    (h : SlotEffect pre a post) : WaitsWhenFull post := by
  cases h with
  | keep same queued => exact fun hq => waits_of_same same (hw (queued ▸ hq))
  | take _ free _ _ _ queued =>
    intro hq
    exact absurd (hw (queued ▸ hq)) (Nat.not_le_of_lt free)
  | wait _ full same _ => exact fun _ => waits_of_same same full
  | drop _ _ queued =>
    intro hq
    rw [queued] at hq
    cases hq
  | serve mid _ _ _ _ _ _ post_eq =>
    subst post_eq
    rcases startQueued_cases mid with ⟨h, hmid⟩ | ⟨-, -, h⟩
    · rw [h]
      exact hmid
    · rw [h]
      intro hq
      cases hq

private theorem slotStep_of_ids {m : Move JobRegistration JobAction} (ids : ∀ i ∈ m.post.runs.ids, i ∈ m.pre.runs.ids)
    (hstart : queueEvent m ≠ some .started)
    (accepted : queueEvent m = some .accepted → m.act.Asks ∧ m.pre.limit ≤ m.pre.taken)
    (dropped : queueEvent m = some .dropped → m.act.CancelsAll ∧ m.post.runs.ids = m.pre.runs.ids) : SlotStep m where
  added_le i hi hni := absurd (ids i hi) hni
  added_eq i hi hni := absurd (ids i hi) hni
  added_by i hi hni := absurd (ids i hi) hni
  accepted := accepted
  started h := absurd h hstart
  dropped := dropped

private theorem slotStep_started {pre mid : JobRegistration} {a : JobAction} (full : pre.limit ≤ pre.taken)
    (serves : a.Serves) (ids : mid.runs.ids.Sublist pre.runs.ids) (next : mid.runs.next = pre.runs.next)
    (queued : mid.queued = pre.queued)
    (runs : ∀ changes, a = .updateOptions changes → mid.runs.ids = pre.runs.ids) (hq : mid.queued = true)
    (hfree : mid.taken < mid.limit) :
    SlotStep ⟨pre, a, { mid with queued := false, runs := mid.runs.add.setPhase mid.runs.next .launched }⟩ := by
  have hev : queueEvent ⟨pre, a, { mid with
      queued := false, runs := mid.runs.add.setPhase mid.runs.next .launched }⟩ = some .started := by
    simp [queueEvent, ← queued, hq, next]
  have hadded : ∀ i ∈ (mid.runs.add.setPhase mid.runs.next .launched).ids, i ∉ pre.runs.ids → i = pre.runs.next := by
    intro i hi hni
    rw [Runs.ids_setPhase, Runs.ids_add] at hi
    rcases List.mem_append.1 hi with hi | hi
    · exact absurd (ids.subset hi) hni
    · rw [← next]
      exact List.mem_singleton.1 hi
  refine ⟨fun i _ _ => ?_, hadded, fun _ _ _ => .inr hev, ?_, fun _ => ⟨?_, ?_⟩, ?_⟩
  · have hlen : (mid.runs.add.setPhase mid.runs.next .launched).list.length = mid.taken + 1 := by
      rw [← Runs.length_ids, Runs.ids_setPhase, Runs.ids_add, List.length_append, Runs.length_ids]
      rfl
    show (mid.runs.add.setPhase mid.runs.next .launched).list.length ≤ mid.limit
    omega
  · simp [hev]
  · cases a with
    | runStep i answer => exact .inl ⟨i, answer, rfl⟩
    | updateOptions c =>
      have hlen : mid.taken = pre.taken := length_eq_of_ids (runs c rfl)
      refine .inr ⟨⟨c, rfl⟩, ?_⟩
      show pre.limit < mid.limit
      omega
    | _ => exact serves.elim
  · refine ⟨⟨mid.runs.next, false, .launched⟩, ?_, next, rfl⟩
    exact Runs.mem_setPhase.2 ⟨⟨mid.runs.next, false, .admitted⟩, Runs.mem_add.2 (.inr rfl), if_pos rfl⟩
  · simp [hev]

/-- What `SlotStep` says holds of every step from a state in which a run waits only while every slot is taken. -/
private theorem slotStep {pre post : JobRegistration} {a : JobAction} (hw : WaitsWhenFull pre)
    (h : SlotEffect pre a post) :
    SlotStep ⟨pre, a, post⟩ := by
  cases h with
  | keep same queued =>
    have hev : queueEvent ⟨pre, a, post⟩ = none := by
      simp only [queueEvent, queued]
      cases pre.queued <;> rfl
    refine slotStep_of_ids (fun i hi => same.ids ▸ hi) ?_ ?_ ?_ <;> simp [hev]
  | take asks free ids next limit queued =>
    have hpre : pre.queued = false := by
      by_contra hq
      exact absurd (hw (by simpa using hq)) (Nat.not_le_of_lt free)
    have hev : queueEvent ⟨pre, a, post⟩ = none := by simp [queueEvent, queued, hpre]
    have hlen : post.taken = pre.taken + 1 := by
      rw [JobRegistration.taken, ← post.runs.length_ids, ids, List.length_append, pre.runs.length_ids]
      rfl
    have hadded : ∀ i ∈ post.runs.ids, i ∉ pre.runs.ids → i = pre.runs.next := by
      intro i hi hni
      rw [ids] at hi
      exact List.mem_singleton.1 ((List.mem_append.1 hi).resolve_left hni)
    refine ⟨fun i _ _ => ?_, hadded, fun i _ _ => .inl ⟨asks, hpre⟩, ?_, ?_, ?_⟩
    · show post.taken ≤ post.limit
      omega
    all_goals simp [hev]
  | wait asks full same queued =>
    refine slotStep_of_ids (fun i hi => same.ids ▸ hi) ?_ (fun _ => ⟨asks, full⟩) ?_
    all_goals
      simp only [queueEvent, queued]
      cases pre.queued <;> simp
  | drop cancels same queued =>
    refine slotStep_of_ids (fun i hi => same.ids ▸ hi) ?_ ?_ (fun _ => ⟨cancels, same.ids⟩)
    all_goals
      simp only [queueEvent, queued, same.next, if_true]
      cases pre.queued <;> simp
  | serve mid serves ids next queued limit runs post_eq =>
    subst post_eq
    rcases startQueued_cases mid with ⟨h, hmid⟩ | ⟨hq, hfree, h⟩
    · rw [h]
      have hev : queueEvent ⟨pre, a, mid⟩ = none := by
        simp only [queueEvent, queued]
        cases pre.queued <;> rfl
      refine slotStep_of_ids (fun i hi => ids.subset hi) ?_ ?_ ?_ <;> simp [hev]
    · rw [h]
      exact slotStep_started (hw (queued ▸ hq)) serves ids next queued runs hq hfree

private theorem ledger_step {pre post : JobRegistration} {a : JobAction} {es : List QueueEvent}
    (hes : Ledger es pre.queued) : Ledger (es ++ (queueEvent ⟨pre, a, post⟩).toList) post.queued := by
  cases hpre : pre.queued <;> cases hpost : post.queued <;> rw [hpre] at hes
  · simpa [queueEvent, hpre, hpost] using hes
  · simpa [queueEvent, hpre, hpost] using hes.accept
  · by_cases hnext : post.runs.next = pre.runs.next
    · simpa [queueEvent, hpre, hpost, hnext] using hes.drop
    · simpa [queueEvent, hpre, hpost, hnext] using hes.start
  · simpa [queueEvent, hpre, hpost] using hes

/-- In every state a job reaches, a run waits only while every slot is taken. -/
private theorem waitsWhenFull {isCron : Str → Bool} {o : CliJobOptions} {reg : JobRegistration}
    {ms : List (Move JobRegistration JobAction)} (h : Run (step isCron) (.register o) ms reg) : WaitsWhenFull reg :=
  h.invariant (fun hq => by cases hq) fun _ _ _ hw _ hst => waitsWhenFull_step hw (slotEffect hst)

/-- For every registered job and every run of the scheduler: each step adds at most one run, within the limit, and
moves the queue as `SlotStep` says; no run waits beside a free slot; and the queue's events are a ledger, so that an
accepted run is started once or dropped once, or still waits.  Each job has options of its own: `register` keeps the
caller's object, which two registrations are not to share. -/
theorem slots_and_queue {ι : Type} [DecidableEq ι] (isCron : Str → Bool) (options : ι → CliJobOptions)
    {ms : List (Move (ι → JobRegistration) (ι × JobAction))} {jobs : ι → JobRegistration}
    (h : Run (Component.stepAt fun _ => step isCron) (fun id => .register (options id)) ms jobs) (id : ι) :
    (∀ m ∈ Component.movesAt id ms, SlotStep m) ∧
    ((jobs id).queued = true → (jobs id).limit ≤ (jobs id).taken) ∧
    Ledger ((Component.movesAt id ms).filterMap queueEvent) (jobs id).queued := by
  have hrun := Component.project_run h id
  refine ⟨?_, waitsWhenFull hrun, ?_⟩
  · exact hrun.forall_mem (I := WaitsWhenFull) (P := fun s a t => SlotStep ⟨s, a, t⟩) (fun hq => by cases hq)
      (fun _ _ _ hw _ hst => waitsWhenFull_step hw (slotEffect hst))
      fun _ _ _ hw _ hst => slotStep hw (slotEffect hst)
  · refine hrun.history (I := fun ms reg => Ledger (ms.filterMap queueEvent) reg.queued) .empty ?_
    intro ms s a t hes _ _
    rw [List.filterMap_append]
    have hone : [(⟨s, a, t⟩ : Move JobRegistration JobAction)].filterMap queueEvent =
        (queueEvent ⟨s, a, t⟩).toList := by
      cases hev : queueEvent ⟨s, a, t⟩ <;> simp [hev]
    rw [hone]
    exact ledger_step hes

/-- Two runs of a job asked for at once: the second waits, and starts when the storage fails the first. -/
theorem slots_and_queue_two_triggers : ∃ ms jobs,
    Run (Component.stepAt fun _ : Bool => step fun _ => false) (fun _ => .register { overlapPolicy := "queue".toList })
      ms jobs ∧
    (Component.movesAt true ms).filterMap queueEvent = [.accepted, .started] ∧
    (∀ m ∈ Component.movesAt true ms, SlotStep m) ∧
    ((jobs true).queued = true → (jobs true).limit ≤ (jobs true).taken) ∧
    Ledger ((Component.movesAt true ms).filterMap queueEvent) (jobs true).queued := by
  let actions : List (Bool × JobAction) := [(true, .trigger), (true, .trigger), (false, .trigger),
    (true, .triggered 0 .ok), (true, .runStep 0 .ok), (true, .runStep 0 .error)]
  have hexec : ((exec (Component.stepAt fun _ : Bool => step fun _ => false)
      (fun _ => .register { overlapPolicy := "queue".toList }) actions).map fun r =>
        (Component.movesAt true r.1).filterMap queueEvent) = some [.accepted, .started] := by decide
  obtain ⟨⟨ms, jobs⟩, hms, hevents⟩ := Option.map_eq_some_iff.1 hexec
  exact ⟨ms, jobs, run_of_exec hms, hevents, slots_and_queue _ _ (run_of_exec hms) true⟩

end CliServer
