import CliServer.Jobs.History
import CliServer.Lib.Paging

/-!
# Deleting runs

What `delete_execution` and `delete_executions` leave of the history while the runs write to it.  An execution is
written only by the attempt it belongs to, and neither call deletes it before that attempt is over, so what they delete
stays deleted (`deletion_sound`).  `delete_executions` pages by offset: a record that someone else removes from the
pages it has read moves the rest up, and the first one of the next page is skipped (`execution_skipped`).  When that
does not happen, it deletes every execution it has to (`deletion_complete`).
-/

namespace CliServer

open Transition HistoryState

variable {ι : Type} [DecidableEq ι]

/-! ### Attempts -/

/-- The run is in an attempt: from its first save to `_save_finished`. -/
def Phase.inAttempt : Phase → Bool
  | .saving _ | .starting _ | .executing _ | .reporting _ _ _ | .finishing _ _ => true
  | _ => false

/-- The status the attempt has written to its execution. -/
def Phase.outcome : Phase → Option ExecutionStatus
  | .reporting _ status _ | .finishing _ status => some status
  | _ => none

/-- Inside the `try` only a cancelled attempt publishes an event. -/
def Phase.caughtCancelled : Phase → Prop
  | .reporting _ status caught => caught = true → status = .cancelled
  | _ => True

/-- A status is written once: `none` is `running`. -/
def Settles (status status' : Option ExecutionStatus) : Prop := status = none ∨ status = status'

/-- How a phase can follow another: it begins an attempt, goes on with it, ends it, or lies outside. -/
inductive Phase.Follows (p : Phase) : Phase → Prop
  | begin (k : Nat) (before : p.inAttempt = false) : p.Follows (.saving k)
  | within {p' : Phase} (before : p.inAttempt = true) (after : p'.inAttempt = true) (goes : ∀ k, p' ≠ .saving k)
      (settles : Settles p.outcome p'.outcome) (caught : p'.caughtCancelled) : p.Follows p'
  | persist (k : Nat) (status : ExecutionStatus) : p.Follows (.persisting k status)
  | outside {p' : Phase} (before : p.inAttempt = false) (after : p'.inAttempt = false)
      (ended : ∀ k status, p' ≠ .persisting k status) : p.Follows p'

private theorem follows_afterAttempt {o : CliJobOptions} {c : Bool} {k : Nat} {status : ExecutionStatus} {p p' : Phase}
    (hp : p.inAttempt = false) (h : afterAttempt o c k status = .goto p') : p.Follows p' := by
  obtain ⟨-, -, delay, -, rfl⟩ := afterAttempt_goto h
  exact .outside hp rfl fun k status h => by cases h

private theorem follows_reporting {p : Phase} (hp : p.inAttempt = true) {k : Nat} {status : ExecutionStatus}
    {caught : Bool} (hs : Settles p.outcome (some status)) (hc : caught = true → status = .cancelled) :
    p.Follows (.reporting k status caught) := .within hp rfl (fun k h => by cases h) hs hc

private theorem follows_finishing {p : Phase} (hp : p.inAttempt = true) {k : Nat} {status : ExecutionStatus}
    (hs : Settles p.outcome (some status)) : p.Follows (.finishing k status) :=
  .within hp rfl (fun k h => by cases h) hs trivial

/-- A task goes from a phase to one that can follow it. -/
private theorem proceed_follows {o : CliJobOptions} {c : Bool} {p p' : Phase} {answer : Answer} (hc : p.caughtCancelled)
    (h : proceed o c p answer = some (.goto p')) : p.Follows p' := by
  cases p with
  | admitted => cases h
  | abandoned => cases h
  | launched => cases answer <;> cases h; exact .begin 0 rfl
  | saving k =>
    cases answer <;> cases h
    exact .within rfl rfl (fun k h => by cases h) (.inl rfl) trivial
  | starting k =>
    have hcall : (Phase.starting k).Follows (callJob o k) := by
      rcases callJob_cases o k with heq | heq
      · rw [heq]
        exact .within rfl rfl (fun k h => by cases h) (.inl rfl) trivial
      · rw [heq]
        exact follows_reporting rfl (.inl rfl) fun h => by cases h
    cases answer <;> cases h <;> exact hcall
  | executing k =>
    cases answer with
    | ok =>
      cases c <;> cases h
      · exact follows_finishing rfl (.inl rfl)
      · exact follows_reporting rfl (.inl rfl) fun _ => rfl
    | timeout => cases c <;> cases h; exact follows_reporting rfl (.inl rfl) fun _ => rfl
    | cancelled => cases h; exact follows_reporting rfl (.inl rfl) fun _ => rfl
    | error => cases h; exact follows_reporting rfl (.inl rfl) fun h => by cases h
    | escaped => cases h
  | reporting k status caught =>
    have hfinish : (Phase.reporting k status caught).Follows (.finishing k status) := follows_finishing rfl (.inr rfl)
    cases answer with
    | cancelled =>
      cases caught <;> cases h
      -- The run is cancelled already.
      obtain rfl : status = .cancelled := hc rfl
      exact follows_reporting rfl (.inr rfl) fun _ => rfl
    | escaped => cases h
    | _ => cases h; exact hfinish
  | finishing k status => cases answer <;> cases h; exact .persist k status
  | persisting k status =>
    have hafter : ∀ next, (if status = .completed then Next.goto (.completing k) else afterAttempt o c k status) =
        next → next = .goto p' → (Phase.persisting k status).Follows p' := by
      intro next hnext hgoto
      subst hnext
      split at hgoto
      · cases hgoto
        exact .outside rfl rfl fun k status h => by cases h
      · exact follows_afterAttempt rfl hgoto
    cases answer with
    | cancelled => cases h
    | escaped => cases h
    | _ => exact hafter _ rfl (Option.some.inj h)
  | completing k =>
    cases answer with
    | cancelled => cases h
    | escaped => cases h
    | _ => exact follows_afterAttempt rfl (Option.some.inj h)
  | retrying k delay =>
    have hwait : ∀ next, (if c = true ∧ 0 < delay then Next.ended else .goto (.waiting k delay)) = next →
        next = .goto p' → (Phase.retrying k delay).Follows p' := by
      intro next hnext hgoto
      subst hnext
      split at hgoto
      · cases hgoto
      · cases hgoto
        exact .outside rfl rfl fun k status h => by cases h
    cases answer with
    | cancelled => cases h
    | escaped => cases h
    | _ => exact hwait _ rfl (Option.some.inj h)
  | waiting k delay =>
    cases answer with
    | ok =>
      simp only [proceed] at h
      split at h <;> cases h
    | timeout => cases h; exact .begin (k + 1) rfl
    | error => cases h
    | cancelled => cases h
    | escaped => cases h

/-- So does one whose attempt times out. -/
private theorem proceed_follows_cancel {o : CliJobOptions} {c : Bool} {p p' : Phase} {answer : Answer}
    (h : proceed o c p answer = some (.cancelGoto p')) : p.Follows p' := by
  obtain ⟨k, rfl, rfl⟩ := proceed_cancelGoto h
  exact follows_reporting rfl (.inl rfl) fun h => by cases h

/-! ### The runs and their executions -/

/-- The execution belongs to no attempt that goes on or is to come. -/
def HistoryState.Over (s : HistoryState ι) (id : Nat) : Prop := id < s.next ∧ ∀ key, s.current key ≠ some id

/-- The execution is one of the job that its record names. -/
def HistoryState.Known (s : HistoryState ι) (r : Execution ι) : Prop :=
  r.id < s.next ∧ ∀ key, s.current key = some r.id → r.job = key.1

/-- The runs in an attempt have each an execution of its own, with the status the attempt has written to it. -/
structure AttemptsKept (s : HistoryState ι) : Prop where
  held : ∀ job i id, s.current (job, i) = some id → i ∈ (s.jobs job).runs.ids
  fresh : ∀ key id, s.current key = some id → id < s.next
  distinct : ∀ key key' id, s.current key = some id → s.current key' = some id → key = key'
  running : ∀ job, ∀ run ∈ (s.jobs job).runs.list, ∀ id, s.current (job, run.id) = some id →
    run.phase.inAttempt = true ∧ s.status id = run.phase.outcome
  caught : ∀ job, ∀ run ∈ (s.jobs job).runs.list, run.phase.caughtCancelled

omit [DecidableEq ι] in
private theorem mem_runningIds {s : HistoryState ι} (hs : AttemptsKept s) {job : ι} {i : RunId} {id : Nat}
    (h : s.current (job, i) = some id) : id ∈ s.runningIds job := by
  obtain ⟨run, hrun, rfl⟩ := Runs.mem_ids.1 (hs.held job i id h)
  exact List.mem_filterMap.2 ⟨run, hrun, h⟩

omit [DecidableEq ι] in
private theorem notMem_runningIds {s : HistoryState ι} {id : Nat} (h : s.Over id) (job : ι) :
    id ∉ s.runningIds job := by
  intro hmem
  obtain ⟨run, -, hcurrent⟩ := List.mem_filterMap.1 hmem
  exact h.2 _ hcurrent

omit [DecidableEq ι] in
/-- A record that does not count as running belongs to no attempt. -/
private theorem over_of_not_running {s : HistoryState ι} (hs : AttemptsKept s) {r : Execution ι} (hknown : s.Known r)
    (h : s.isRunning r = false) : s.Over r.id := by
  refine ⟨hknown.1, fun key hcurrent => ?_⟩
  have hjob := hknown.2 key hcurrent
  obtain ⟨job, i⟩ := key
  obtain rfl : r.job = job := hjob
  have hmem := mem_runningIds hs hcurrent
  simp [isRunning, hmem] at h

/-- Another run of the job is as it was after a step of a task, or is new. -/
private theorem runStep_others {reg reg' : JobRegistration} {i : RunId} {answer : Answer}
    (h : runStep reg i answer = some reg')
    {run' : JobRun} (hrun' : run' ∈ reg'.runs.list) (hne : run'.id ≠ i) :
    (∃ run ∈ reg.runs.list, run.id = run'.id ∧ run.phase = run'.phase) ∨
    (run'.id = reg.runs.next ∧ (run'.phase = .admitted ∨ run'.phase = .launched)) := by
  have hst : step (fun _ => false) reg (.runStep i answer) = some reg' := h
  cases runEffect hst run' hrun' with
  | fresh id cancellation phase => exact .inr ⟨id, phase⟩
  | same mem => exact .inl ⟨run', mem, rfl, rfl⟩
  | set run mem cancelled eq => subst eq; exact .inl ⟨run, mem, rfl, rfl⟩
  | announced run mem answer act admitted eq => cases act
  | moved run mem answer act phase next eq =>
    cases act
    subst eq
    exact absurd rfl hne
  | timedOut run mem answer act phase next eq =>
    cases act
    subst eq
    exact absurd rfl hne

/-- A step of a task takes no other run's slot away. -/
private theorem runStep_ids {reg reg' : JobRegistration} {i j : RunId} {answer : Answer}
    (h : runStep reg i answer = some reg')
    (hj : j ∈ reg.runs.ids) (hne : j ≠ i) : j ∈ reg'.runs.ids := by
  have hst : step (fun _ => false) reg (.runStep i answer) = some reg' := h
  rcases slot_kept hst hj with hkept | ⟨_, _, _, hact, _⟩
  · exact hkept
  · cases hact
    exact absurd rfl hne

/-- A step of the task of a run: the run begins, goes on with, ends or is outside an attempt, or is over. -/
private theorem stepRun_cases {s s' : HistoryState ι} {job : ι} {i : RunId} {answer : Answer} {discard : Bool}
    (hs : AttemptsKept s) (h : s.stepRun job i answer discard = some s') :
    ∃ reg, runStep (s.jobs job) i answer = some reg ∧ i ∈ (s.jobs job).runs.ids ∧
      ((∃ run ∈ (s.jobs job).runs.list, ∃ run' ∈ reg.runs.list, run.id = i ∧ run'.id = i ∧
        run.phase.Follows run'.phase ∧
        s' = { s with jobs := Function.update s.jobs job reg }.enter (job, i) discard (some run'.phase)) ∨
      (i ∉ reg.runs.ids ∧ s' = { s with jobs := Function.update s.jobs job reg }.enter (job, i) discard none)) := by
  obtain ⟨run, hrun, h⟩ := Option.bind_eq_some_iff.1 h
  split at h
  · obtain ⟨reg, hreg, h⟩ := Option.bind_eq_some_iff.1 h
    have hmem := (Runs.get?_eq_some.1 hrun).1
    have hid := (Runs.get?_eq_some.1 hrun).2
    refine ⟨reg, hreg, Runs.mem_ids.2 ⟨run, hmem, hid⟩, ?_⟩
    obtain rfl := Option.some.inj h
    obtain ⟨run₁, next, hrun₁, hnext, hafter⟩ := runStep_next hreg
    obtain rfl : run = run₁ := Option.some.inj (hrun.symm.trans hrun₁)
    rcases hafter with ⟨phase, hgoto, run', hrun', hid', rfl⟩ | ⟨-, hgone⟩
    · left
      have hget : reg.runs.get? i = some run' := Runs.get?_eq_some.2 ⟨hrun', hid'⟩
      refine ⟨run, hmem, run', hrun', hid, hid', ?_, by rw [hget]; rfl⟩
      rcases hgoto with rfl | rfl
      · exact proceed_follows (hs.caught job run hmem) hnext
      · exact proceed_follows_cancel hnext
    · right
      have hget : reg.runs.get? i = none := by
        cases hget : reg.runs.get? i with
        | none => rfl
        | some run' => exact absurd (Runs.mem_ids.2 ⟨run', Runs.get?_eq_some.1 hget⟩) hgone
      exact ⟨hgone, by rw [hget]; rfl⟩
  · cases h

/-- Another run is as it was, or new. -/
private theorem moved_others {s : HistoryState ι} {job : ι} {i : RunId} {answer : Answer} {reg : JobRegistration}
    (hreg : runStep (s.jobs job) i answer = some reg) {job' : ι} {run' : JobRun}
    (hrun' : run' ∈ (Function.update s.jobs job reg job').runs.list) (hne : (job', run'.id) ≠ (job, i)) :
    (∃ run ∈ (s.jobs job').runs.list, run.id = run'.id ∧ run.phase = run'.phase) ∨
    (run'.id = (s.jobs job').runs.next ∧ (run'.phase = .admitted ∨ run'.phase = .launched)) := by
  by_cases hjob : job' = job
  · subst hjob
    rw [Function.update_self] at hrun'
    exact runStep_others hreg hrun' fun hid => hne (by rw [hid])
  · rw [Function.update_of_ne hjob] at hrun'
    exact .inl ⟨run', hrun', rfl, rfl⟩

private theorem moved_ids {s : HistoryState ι} {job : ι} {i : RunId} {answer : Answer} {reg : JobRegistration}
    (hreg : runStep (s.jobs job) i answer = some reg) {job' : ι} {j : RunId} (hj : j ∈ (s.jobs job').runs.ids)
    (hne : (job', j) ≠ (job, i)) : j ∈ (Function.update s.jobs job reg job').runs.ids := by
  by_cases hjob : job' = job
  · subst hjob
    rw [Function.update_self]
    exact runStep_ids hreg hj fun hid => hne (by rw [hid])
  · rw [Function.update_of_ne hjob]
    exact hj

/-- What a step of a run may do to the executions: it concerns the run's own only. -/
structure OwnAttempt (s s' : HistoryState ι) (job : ι) (i : RunId) (reg : JobRegistration) : Prop where
  jobs : s'.jobs = Function.update s.jobs job reg
  others : ∀ key, key ≠ (job, i) → s'.current key = s.current key
  own : ∀ id, s'.current (job, i) = some id →
    i ∈ reg.runs.ids ∧ id < s'.next ∧ (s.current (job, i) = some id ∨ id = s.next)
  next : s.next ≤ s'.next
  status : ∀ id, id < s.next → s.current (job, i) ≠ some id → s'.status id = s.status id
  settles : ∀ id, s.current (job, i) = some id → Settles (s.status id) (s'.status id)
  phase : ∀ run' ∈ reg.runs.list, run'.id = i → run'.phase.caughtCancelled ∧
    ∀ id, s'.current (job, i) = some id → run'.phase.inAttempt = true ∧ s'.status id = run'.phase.outcome

private theorem AttemptsKept.of_own {s s' : HistoryState ι} {job : ι} {i : RunId} {answer : Answer}
    {reg : JobRegistration}
    (hs : AttemptsKept s) (hreg : runStep (s.jobs job) i answer = some reg) (h : OwnAttempt s s' job i reg) :
    AttemptsKept s' := by
  -- An execution of the run is its own before the step, or new.
  have hdistinct : ∀ key id, key ≠ (job, i) → s.current key = some id → s'.current (job, i) ≠ some id := by
    intro key id hkey hcurrent hown
    obtain ⟨-, -, hbefore | rfl⟩ := h.own id hown
    · exact hkey (hs.distinct _ _ id hcurrent hbefore)
    · exact Nat.lt_irrefl _ (hs.fresh key _ hcurrent)
  refine ⟨fun job' j id hcurrent => ?_, fun key id hcurrent => ?_, fun key key' id hcurrent hcurrent' => ?_,
    fun job' run' hrun' id hcurrent => ?_, fun job' run' hrun' => ?_⟩
  · rw [h.jobs]
    by_cases hkey : (job', j) = (job, i)
    · cases hkey
      rw [Function.update_self]
      exact (h.own id hcurrent).1
    · rw [h.others _ hkey] at hcurrent
      exact moved_ids hreg (hs.held job' j id hcurrent) hkey
  · by_cases hkey : key = (job, i)
    · subst hkey
      exact (h.own id hcurrent).2.1
    · rw [h.others _ hkey] at hcurrent
      exact Nat.lt_of_lt_of_le (hs.fresh key id hcurrent) h.next
  · by_cases hkey : key = (job, i)
    · by_cases hkey' : key' = (job, i)
      · rw [hkey, hkey']
      · rw [h.others _ hkey'] at hcurrent'
        subst hkey
        exact absurd hcurrent (hdistinct key' id hkey' hcurrent')
    · rw [h.others _ hkey] at hcurrent
      by_cases hkey' : key' = (job, i)
      · subst hkey'
        exact absurd hcurrent' (hdistinct key id hkey hcurrent)
      · rw [h.others _ hkey'] at hcurrent'
        exact hs.distinct key key' id hcurrent hcurrent'
  · rw [h.jobs] at hrun'
    by_cases hkey : (job', run'.id) = (job, i)
    · obtain ⟨rfl, hid⟩ := Prod.mk.inj hkey
      rw [Function.update_self] at hrun'
      rw [hid] at hcurrent
      exact (h.phase run' hrun' hid).2 id hcurrent
    · rw [h.others _ hkey] at hcurrent
      have hstatus : s'.status id = s.status id :=
        h.status id (hs.fresh _ id hcurrent) fun hown => hkey (hs.distinct _ _ id hcurrent hown)
      rcases moved_others hreg hrun' hkey with ⟨run, hrun, hid, hphase⟩ | ⟨hid, -⟩
      · rw [hstatus, ← hphase]
        rw [← hid] at hcurrent
        exact hs.running job' run hrun id hcurrent
      · have hlt := Runs.lt_next (hs.held job' run'.id id hcurrent)
        exact absurd hid (Nat.ne_of_lt hlt)
  · rw [h.jobs] at hrun'
    by_cases hkey : (job', run'.id) = (job, i)
    · obtain ⟨rfl, hid⟩ := Prod.mk.inj hkey
      rw [Function.update_self] at hrun'
      exact (h.phase run' hrun' hid).1
    · rcases moved_others hreg hrun' hkey with ⟨run, hrun, -, hphase⟩ | ⟨-, hphase⟩
      · rw [← hphase]
        exact hs.caught job' run hrun
      · rcases hphase with hphase | hphase <;> rw [hphase] <;> trivial

/-- Within an attempt a phase may set the status of the run's execution. -/
private theorem enter_within (s : HistoryState ι) (key : ι × RunId) (discard : Bool) {p : Phase}
    (hin : p.inAttempt = true)
    (hgoes : ∀ k, p ≠ .saving k) :
    (s.enter key discard (some p)).current = s.current ∧ (s.enter key discard (some p)).next = s.next ∧
    (s.enter key discard (some p)).jobs = s.jobs ∧
    ∀ id, (s.enter key discard (some p)).status id =
      if s.current key = some id ∧ p.outcome ≠ none then p.outcome else s.status id := by
  have hset : ∀ status id, (s.current key).elim s.status (fun id => Function.update s.status id (some status)) id =
      if s.current key = some id ∧ some status ≠ none then some status else s.status id := by
    intro status id
    cases hcurrent : s.current key with
    | none => simp
    | some id' =>
      by_cases hid : id = id'
      · subst hid
        simp
      · rw [Option.elim_some, Function.update_of_ne hid, if_neg]
        intro h
        exact hid (Option.some.inj h.1).symm
  cases p with
  | saving k => exact absurd rfl (hgoes k)
  | starting k => exact ⟨rfl, rfl, rfl, fun id => by simp [enter, Phase.outcome]⟩
  | executing k => exact ⟨rfl, rfl, rfl, fun id => by simp [enter, Phase.outcome]⟩
  | reporting k status caught => exact ⟨rfl, rfl, rfl, hset status⟩
  | finishing k status => exact ⟨rfl, rfl, rfl, hset status⟩
  | _ => cases hin

private theorem enter_outside {s : HistoryState ι} {key : ι × RunId} {discard : Bool} {p : Phase}
    (hout : p.inAttempt = false)
    (hended : ∀ k status, p ≠ .persisting k status) : s.enter key discard (some p) = s := by
  cases p with
  | persisting k status => exact absurd rfl (hended k status)
  | admitted => rfl
  | abandoned => rfl
  | launched => rfl
  | completing k => rfl
  | retrying k delay => rfl
  | waiting k delay => rfl
  | _ => cases hout

private theorem ownAttempt_stepRun {s s' : HistoryState ι} {job : ι} {i : RunId} {answer : Answer} {discard : Bool}
    (hs : AttemptsKept s) (h : s.stepRun job i answer discard = some s') :
    ∃ reg, runStep (s.jobs job) i answer = some reg ∧ OwnAttempt s s' job i reg := by
  obtain ⟨reg, hreg, -, hcases⟩ := stepRun_cases hs h
  refine ⟨reg, hreg, ?_⟩
  rcases hcases with ⟨run, hrun, run', hrun', hid, hid', hfollows, rfl⟩ | ⟨hgone, rfl⟩
  · have hthis : ∀ run'' ∈ reg.runs.list, run''.id = i → run'' = run' := fun run'' hrun'' hid'' =>
      Runs.eq_of_id_eq hrun'' hrun' (hid''.trans hid'.symm)
    have hi : i ∈ reg.runs.ids := Runs.mem_ids.2 ⟨run', hrun', hid'⟩
    generalize hphase : run'.phase = phase at hfollows
    cases hfollows with
    | begin k before =>
      refine ⟨rfl, fun key hkey => Function.update_of_ne hkey _ _, fun id hcurrent => ?_, Nat.le_succ _,
        fun id hlt _ => Function.update_of_ne (Nat.ne_of_lt hlt) _ _, fun id hcurrent => ?_,
        fun run'' hrun'' hid'' => ?_⟩
      · obtain rfl : s.next = id := by simpa [enter] using hcurrent
        exact ⟨hi, Nat.lt_succ_self _, .inr rfl⟩
      · right
        have hlt := hs.fresh _ id hcurrent
        exact (Function.update_of_ne (Nat.ne_of_lt hlt) none s.status).symm
      · obtain rfl := hthis run'' hrun'' hid''
        rw [hphase]
        refine ⟨trivial, fun id hcurrent => ⟨rfl, ?_⟩⟩
        obtain rfl : s.next = id := by simpa [enter] using hcurrent
        exact Function.update_self _ _ _
    | within before after goes settles caught =>
      obtain ⟨hcurrent', hnext', hjobs', hstatus'⟩ :=
        enter_within { s with jobs := Function.update s.jobs job reg } (job, i) discard after goes
      have hrunning : ∀ id, s.current (job, i) = some id → s.status id = run.phase.outcome := by
        intro id hcurrent
        rw [← hid] at hcurrent
        exact (hs.running job run hrun id hcurrent).2
      -- The status of the run's execution becomes the one of the phase.
      have hown : ∀ id, s.current (job, i) = some id →
          ({ s with jobs := Function.update s.jobs job reg }.enter (job, i) discard (some phase)).status id =
            phase.outcome := by
        intro id hcurrent
        rw [hstatus']
        by_cases hnone : phase.outcome = none
        · rw [if_neg fun h => h.2 hnone, hnone]
          have hbefore : run.phase.outcome = none := by
            rcases settles with h | h
            · exact h
            · rw [h, hnone]
          exact (hrunning id hcurrent).trans hbefore
        · exact if_pos ⟨hcurrent, hnone⟩
      refine ⟨hjobs', fun key _ => by rw [hcurrent'], fun id hcurrent => ?_, by rw [hnext'], fun id _ hne => ?_,
        fun id hcurrent => ?_, fun run'' hrun'' hid'' => ?_⟩
      · rw [hcurrent'] at hcurrent
        rw [hnext']
        exact ⟨hi, hs.fresh _ id hcurrent, .inl hcurrent⟩
      · rw [hstatus']
        exact if_neg fun h => hne h.1
      · rw [hown id hcurrent, hrunning id hcurrent]
        exact settles
      · obtain rfl := hthis run'' hrun'' hid''
        rw [hphase]
        refine ⟨caught, fun id hcurrent => ⟨after, ?_⟩⟩
        rw [hcurrent'] at hcurrent
        exact hown id hcurrent
    | persist k status =>
      refine ⟨rfl, fun key hkey => Function.update_of_ne hkey _ _, fun id hcurrent => ?_, Nat.le_refl _,
        fun _ _ _ => rfl, fun _ _ => .inr rfl, fun run'' hrun'' hid'' => ?_⟩
      · simp [enter] at hcurrent
      · obtain rfl := hthis run'' hrun'' hid''
        rw [hphase]
        refine ⟨trivial, fun id hcurrent => ?_⟩
        simp [enter] at hcurrent
    | outside before after ended =>
      rw [enter_outside after ended]
      have hnone : ∀ id, s.current (job, i) ≠ some id := by
        intro id hcurrent
        rw [← hid] at hcurrent
        have hin := (hs.running job run hrun id hcurrent).1
        rw [before] at hin
        cases hin
      refine ⟨rfl, fun _ _ => rfl, fun id hcurrent => absurd hcurrent (hnone id), Nat.le_refl _, fun _ _ _ => rfl,
        fun _ _ => .inr rfl, fun run'' hrun'' hid'' => ?_⟩
      obtain rfl := hthis run'' hrun'' hid''
      rw [hphase]
      refine ⟨?_, fun id hcurrent => absurd hcurrent (hnone id)⟩
      cases phase with
      | reporting k status caught => cases after
      | _ => trivial
  · refine ⟨rfl, fun key hkey => Function.update_of_ne hkey _ _, fun id hcurrent => ?_, Nat.le_refl _,
      fun _ _ _ => rfl, fun _ _ => .inr rfl, fun run' hrun' hid => ?_⟩
    · simp [enter] at hcurrent
    · exact absurd (Runs.mem_ids.2 ⟨run', hrun', hid⟩) hgone

omit [DecidableEq ι] in
/-- The runs after another step of the jobs: as they were, or outside an attempt. -/
private theorem stepJob_runs {s : HistoryState ι} {isCron : Str → Bool} {job : ι} {a : JobAction}
    {reg : JobRegistration}
    (hs : AttemptsKept s) (hact : ∀ i answer, a ≠ .runStep i answer) (hreg : step isCron (s.jobs job) a = some reg)
    {run' : JobRun} (hrun' : run' ∈ reg.runs.list) :
    (∃ run ∈ (s.jobs job).runs.list, run.id = run'.id ∧ run.phase = run'.phase) ∨
    ((∀ id, s.current (job, run'.id) ≠ some id) ∧ run'.phase.caughtCancelled) := by
  cases runEffect hreg run' hrun' with
  | fresh id cancellation phase =>
    right
    refine ⟨fun id' hcurrent => ?_, ?_⟩
    · have hlt := Runs.lt_next (hs.held job run'.id id' hcurrent)
      exact absurd id (Nat.ne_of_lt hlt)
    · rcases phase with hphase | hphase <;> rw [hphase] <;> trivial
  | same mem => exact .inl ⟨run', mem, rfl, rfl⟩
  | set run mem cancelled eq => subst eq; exact .inl ⟨run, mem, rfl, rfl⟩
  | announced run mem answer act admitted eq =>
    subst eq
    right
    refine ⟨fun id hcurrent => ?_, ?_⟩
    · have hin := (hs.running job run mem id hcurrent).1
      rw [admitted] at hin
      cases hin
    · dsimp only
      split <;> trivial
  | moved run mem answer act phase next eq => exact absurd act (hact run.id answer)
  | timedOut run mem answer act phase next eq => exact absurd act (hact run.id answer)

private theorem stepJob_eq {s s' : HistoryState ι} {isCron : Str → Bool} {job : ι} {a : JobAction}
    (h : s.stepJob isCron job a = some s') : (∀ i answer, a ≠ .runStep i answer) ∧
    ∃ reg, step isCron (s.jobs job) a = some reg ∧ s' = { s with jobs := Function.update s.jobs job reg } := by
  unfold HistoryState.stepJob at h
  split at h
  · cases h
  · cases h
  · rename_i hrun
    obtain ⟨reg, hreg, rfl⟩ := Option.map_eq_some_iff.1 h
    exact ⟨hrun, reg, hreg, rfl⟩

/-- A step outside the attempts leaves the executions as they are. -/
theorem AttemptsKept.stepJob {s s' : HistoryState ι} {isCron : Str → Bool} {job : ι} {a : JobAction}
    (hs : AttemptsKept s) (h : s.stepJob isCron job a = some s') : AttemptsKept s' := by
  obtain ⟨hact, reg, hreg, rfl⟩ := stepJob_eq h
  have hruns : ∀ job', ∀ run' ∈ (Function.update s.jobs job reg job').runs.list,
      (∃ run ∈ (s.jobs job').runs.list, run.id = run'.id ∧ run.phase = run'.phase) ∨
      ((∀ id, s.current (job', run'.id) ≠ some id) ∧ run'.phase.caughtCancelled) := by
    intro job' run' hrun'
    by_cases hjob : job' = job
    · subst hjob
      rw [Function.update_self] at hrun'
      exact stepJob_runs hs hact hreg hrun'
    · rw [Function.update_of_ne hjob] at hrun'
      exact .inl ⟨run', hrun', rfl, rfl⟩
  refine ⟨fun job' i id hcurrent => ?_, hs.fresh, hs.distinct, fun job' run' hrun' id hcurrent => ?_,
    fun job' run' hrun' => ?_⟩
  · have hi := hs.held job' i id hcurrent
    by_cases hjob : job' = job
    · subst hjob
      have hkept : i ∈ reg.runs.ids := by
        rcases slot_kept hreg hi with hkept | ⟨_, answer, _, ha, _⟩
        · exact hkept
        · exact absurd ha (hact i answer)
      simpa using hkept
    · simpa [Function.update_of_ne hjob] using hi
  · rcases hruns job' run' hrun' with ⟨run, hrun, hid, hphase⟩ | ⟨hnone, -⟩
    · rw [← hphase]
      refine hs.running job' run hrun id ?_
      rw [hid]
      exact hcurrent
    · exact absurd hcurrent (hnone id)
  · rcases hruns job' run' hrun' with ⟨run, hrun, -, hphase⟩ | ⟨-, hcaught⟩
    · rw [← hphase]
      exact hs.caught job' run hrun
    · exact hcaught

/-! ### The store -/

/-- The records are those of known executions, saved before the attempt wrote its status or after it, and what was
deleted is over and gone. -/
structure RecordsKept (s : HistoryState ι) : Prop where
  known : ∀ r ∈ s.store.records, s.Known r
  saved : ∀ r ∈ s.store.records, ∀ key, s.current key = some r.id → Settles r.status (s.status r.id)
  deleted : ∀ id ∈ s.deleted, s.Over id ∧ id ∉ s.store.ids

/-- A filter that a status goes on to match when it is written. -/
def Persistent (filter : Option Str) : Prop :=
  ∀ status status', Settles status status' → matchesFilter filter status = true → matchesFilter filter status' = true

/-- Every filter but the one for the running executions. -/
private theorem persistent_or (filter : Option Str) :
    Persistent filter ∨ ∀ status, matchesFilter filter status = true → status = none := by
  by_cases hrunning : matchesFilter filter none = true ∧ given filter ≠ none
  · right
    intro status hmatch
    obtain ⟨hnone, hgiven⟩ := hrunning
    obtain ⟨text, htext⟩ := Option.ne_none_iff_exists'.1 hgiven
    simp only [matchesFilter, htext, Option.all_some, decide_eq_true_eq] at hnone hmatch
    rw [hnone] at hmatch
    cases status with
    | none => rfl
    | some status => cases status <;> exact absurd hmatch (by decide)
  · left
    intro status status' hsettles hmatch
    by_cases hgiven : given filter = none
    · simp [matchesFilter, hgiven]
    · rcases hsettles with rfl | rfl
      · exact absurd ⟨hmatch, hgiven⟩ hrunning
      · exact hmatch

/-- What a step leaves of the executions, of the store and of its listings; `removed` is the record it removes. -/
structure Evolves (s s' : HistoryState ι) (removed : Option Nat) : Prop where
  live : s'.live = s.live
  next : s.next ≤ s'.next
  current : ∀ key id, s'.current key = some id → s.current key = some id ∨ s.next ≤ id
  status : ∀ id, s.Over id → s'.status id = s.status id
  records : ∀ r ∈ s'.store.records, r ∈ s.store.records ∨ ¬ s.Over r.id
  gone : ∀ id, removed = some id → id ∉ s'.store.ids
  listing : ∀ job filter, Persistent filter → ∀ id n,
    (∀ x, removed = some x → x ∉ (executionIds (s.listing job filter)).take n) →
    id ∈ (executionIds (s.listing job filter)).drop n →
    id ∈ (executionIds (s'.listing job filter)).drop n ∨ id ∉ s'.store.ids
  deleted : ∀ id ∈ s.deleted, id ∈ s'.deleted

private theorem Evolves.over {s s' : HistoryState ι} {removed : Option Nat} (h : Evolves s s' removed) {id : Nat}
    (hover : s.Over id) : s'.Over id := by
  refine ⟨Nat.lt_of_lt_of_le hover.1 h.next, fun key hcurrent => ?_⟩
  rcases h.current key id hcurrent with hbefore | hnew
  · exact hover.2 key hbefore
  · exact absurd hover.1 (Nat.not_lt_of_le hnew)

theorem Evolves.known {s s' : HistoryState ι} {removed : Option Nat} (h : Evolves s s' removed) {r : Execution ι}
    (hknown : s.Known r) : s'.Known r := by
  refine ⟨Nat.lt_of_lt_of_le hknown.1 h.next, fun key hcurrent => ?_⟩
  rcases h.current key r.id hcurrent with hbefore | hnew
  · exact hknown.2 key hbefore
  · exact absurd hknown.1 (Nat.not_lt_of_le hnew)

theorem Evolves.notMem {s s' : HistoryState ι} {removed : Option Nat} (h : Evolves s s' removed) {id : Nat}
    (hover : s.Over id) (hgone : id ∉ s.store.ids) : id ∉ s'.store.ids := by
  intro hmem
  obtain ⟨r, hr, rfl⟩ := List.mem_map.1 hmem
  rcases h.records r hr with hbefore | hnot
  · exact hgone (List.mem_map_of_mem hbefore)
  · exact hnot hover

theorem Evolves.seen {s s' : HistoryState ι} {removed : Option Nat} (h : Evolves s s' removed) {r : Execution ι}
    (hover : s.Over r.id) : s'.seen r = s.seen r := by
  unfold HistoryState.seen
  rw [h.live, h.status r.id hover]

private theorem sublist_filter {α : Type} {p q : α → Bool} {l : List α} (h : ∀ a ∈ l, p a = true → q a = true) :
    (l.filter p).Sublist (l.filter q) := by
  have heq : l.filter p = (l.filter q).filter p := by
    rw [List.filter_filter]
    refine List.filter_congr fun a ha => ?_
    cases hp : p a with
    | true => rw [h a ha hp]; rfl
    | false => rfl
  rw [heq]
  exact List.filter_sublist

/-- A step that keeps the store and lets statuses settle. -/
private theorem Evolves.of_same_store {s s' : HistoryState ι} (live : s'.live = s.live) (next : s.next ≤ s'.next)
    (current : ∀ key id, s'.current key = some id → s.current key = some id ∨ s.next ≤ id)
    (status : ∀ id, s.Over id → s'.status id = s.status id) (store : s'.store = s.store)
    (deleted : s'.deleted = s.deleted) (seen : ∀ r ∈ s.store.records, Settles (s.seen r) (s'.seen r)) :
    Evolves s s' none := by
  refine ⟨live, next, current, status, fun r hr => .inl (store ▸ hr), fun id h => (by cases h),
    fun job filter hfilter id n _ hid => .inl ?_, fun id hid => deleted ▸ hid⟩
  refine Paging.mem_drop_of_sublist (List.Sublist.map _ ?_) hid
  unfold HistoryState.listing
  rw [store]
  refine sublist_filter fun r hr hmatch => ?_
  rw [Bool.and_eq_true] at hmatch ⊢
  exact ⟨hmatch.1, hfilter _ _ (seen r hr) hmatch.2⟩

theorem Settles.trans {a b c : Option ExecutionStatus} (h : Settles a b) (h' : Settles b c) : Settles a c := by
  rcases h with rfl | rfl
  · exact .inl rfl
  · exact h'

/-- What the records need of a step. -/
private theorem RecordsKept.of_evolves {s s' : HistoryState ι} {removed : Option Nat} (hs : RecordsKept s)
    (h : Evolves s s' removed) (hsettles : ∀ key id, s.current key = some id → Settles (s.status id) (s'.status id))
    (hnew : ∀ r ∈ s'.store.records, r ∉ s.store.records →
      s'.Known r ∧ ∀ key, s'.current key = some r.id → Settles r.status (s'.status r.id))
    (hdeleted : ∀ id ∈ s'.deleted, id ∈ s.deleted ∨ (s.Over id ∧ id ∉ s'.store.ids)) : RecordsKept s' := by
  refine ⟨fun r hr => ?_, fun r hr key hcurrent => ?_, fun id hid => ?_⟩
  · by_cases hbefore : r ∈ s.store.records
    · exact h.known (hs.known r hbefore)
    · exact (hnew r hr hbefore).1
  · by_cases hbefore : r ∈ s.store.records
    · rcases h.current key r.id hcurrent with hold | hnext
      · exact (hs.saved r hbefore key hold).trans (hsettles key r.id hold)
      · exact absurd (hs.known r hbefore).1 (Nat.not_lt_of_le hnext)
    · exact (hnew r hr hbefore).2 key hcurrent
  · rcases hdeleted id hid with hold | ⟨hover, hgone⟩
    · obtain ⟨hover, hgone⟩ := hs.deleted id hold
      exact ⟨h.over hover, h.notMem hover hgone⟩
    · exact ⟨h.over hover, hgone⟩

/-- A step of the executions, the store and the calls' shared state, and the record it removes. -/
structure WorldStep (s s' : HistoryState ι) (removed : Option Nat) : Prop where
  attempts : AttemptsKept s'
  records : RecordsKept s'
  evolves : Evolves s s' removed
  deletes : ∀ id ∈ s'.deleted, id ∈ s.deleted ∨ s.Over id
  singles : s'.singles = s.singles
  bulks : s'.bulks = s.bulks

private theorem enter_frame (s : HistoryState ι) (key : ι × RunId) (discard : Bool) (p : Option Phase) :
    (s.enter key discard p).live = s.live ∧ (s.enter key discard p).store = s.store ∧
    (s.enter key discard p).deleted = s.deleted ∧ (s.enter key discard p).singles = s.singles ∧
    (s.enter key discard p).bulks = s.bulks := by
  unfold HistoryState.enter
  split <;> exact ⟨rfl, rfl, rfl, rfl, rfl⟩

private theorem worldStep_stepRun {s s' : HistoryState ι} {job : ι} {i : RunId} {answer : Answer} {discard : Bool}
    (hs : AttemptsKept s) (hr : RecordsKept s) (h : s.stepRun job i answer discard = some s') :
    WorldStep s s' none := by
  obtain ⟨reg, hreg, hown⟩ := ownAttempt_stepRun hs h
  have hframe : s'.live = s.live ∧ s'.store = s.store ∧ s'.deleted = s.deleted ∧ s'.singles = s.singles ∧
      s'.bulks = s.bulks := by
    obtain ⟨_, _, _, ⟨_, _, _, _, _, _, _, rfl⟩ | ⟨_, rfl⟩⟩ := stepRun_cases hs h
    · exact enter_frame ..
    · exact enter_frame ..
  obtain ⟨hlive, hstore, hdeleted, hsingles, hbulks⟩ := hframe
  have hsettles : ∀ id, id < s.next → Settles (s.status id) (s'.status id) := by
    intro id hlt
    by_cases hcurrent : s.current (job, i) = some id
    · exact hown.settles id hcurrent
    · exact .inr (hown.status id hlt hcurrent).symm
  have hevolves : Evolves s s' none := by
    refine .of_same_store hlive hown.next (fun key id hcurrent => ?_)
      (fun id hover => hown.status id hover.1 (hover.2 _)) hstore hdeleted fun r hmem => ?_
    · by_cases hkey : key = (job, i)
      · subst hkey
        obtain ⟨-, -, hbefore | rfl⟩ := hown.own id hcurrent
        · exact .inl hbefore
        · exact .inr (Nat.le_refl _)
      · rw [hown.others key hkey] at hcurrent
        exact .inl hcurrent
    · unfold HistoryState.seen
      rw [hlive]
      split
      · exact hsettles r.id (hr.known r hmem).1
      · exact .inr rfl
  refine ⟨hs.of_own hreg hown, ?_, hevolves, fun id hid => .inl (hdeleted ▸ hid), hsingles, hbulks⟩
  exact hr.of_evolves hevolves (fun key id hcurrent => hsettles id (hs.fresh key id hcurrent))
    (fun r hmem hnot => absurd (hstore ▸ hmem) hnot) fun id hid => .inl (hdeleted ▸ hid)

/-- A step that changes nothing of the executions. -/
theorem WorldStep.of_same {s s' : HistoryState ι} (hs : AttemptsKept s') (hr : RecordsKept s) (live : s'.live = s.live)
    (next : s'.next = s.next) (current : s'.current = s.current) (status : s'.status = s.status)
    (store : s'.store = s.store) (deleted : s'.deleted = s.deleted) (singles : s'.singles = s.singles)
    (bulks : s'.bulks = s.bulks) : WorldStep s s' none := by
  have hevolves : Evolves s s' none := by
    refine .of_same_store live (Nat.le_of_eq next.symm) (fun key id h => .inl (current ▸ h))
      (fun id _ => by rw [status])
      store deleted fun r _ => .inr ?_
    unfold HistoryState.seen
    rw [live, status]
  refine ⟨hs, hr.of_evolves hevolves (fun _ id _ => .inr (by rw [status])) (fun r hmem hnot => ?_) fun id hid => ?_,
    hevolves, fun id hid => .inl (deleted ▸ hid), singles, bulks⟩
  · exact absurd (store ▸ hmem) hnot
  · exact .inl (deleted ▸ hid)

omit [DecidableEq ι] in
theorem AttemptsKept.congr {s s' : HistoryState ι} (hs : AttemptsKept s) (hjobs : s'.jobs = s.jobs)
    (hcurrent : s'.current = s.current) (hstatus : s'.status = s.status) (hnext : s'.next = s.next) :
    AttemptsKept s' := by
  refine ⟨?_, ?_, ?_, ?_, ?_⟩
  · rw [hjobs, hcurrent]
    exact hs.held
  · rw [hcurrent, hnext]
    exact hs.fresh
  · rw [hcurrent]
    exact hs.distinct
  · rw [hjobs, hcurrent, hstatus]
    exact hs.running
  · rw [hjobs]
    exact hs.caught

private theorem worldStep_stepJob {s s' : HistoryState ι} {isCron : Str → Bool} {job : ι} {a : JobAction}
    (hs : AttemptsKept s) (hr : RecordsKept s) (h : s.stepJob isCron job a = some s') : WorldStep s s' none := by
  have hs' := hs.stepJob h
  obtain ⟨-, reg, -, rfl⟩ := stepJob_eq h
  exact .of_same hs' hr rfl rfl rfl rfl rfl rfl rfl rfl

private theorem worldStep_saveFinished {s s' : HistoryState ι} {key : ι × RunId} {raised : Bool} (hs : AttemptsKept s)
    (hr : RecordsKept s) (h : s.saveFinished key raised = some s') : WorldStep s s' none := by
  unfold HistoryState.saveFinished at h
  split at h
  · obtain rfl := Option.some.inj h
    exact .of_same (hs.congr rfl rfl rfl rfl) hr rfl rfl rfl rfl rfl rfl rfl rfl
  · obtain rfl := Option.some.inj h
    exact .of_same (hs.congr rfl rfl rfl rfl) hr rfl rfl rfl rfl rfl rfl rfl rfl
  · obtain rfl := Option.some.inj h
    exact .of_same (hs.congr rfl rfl rfl rfl) hr rfl rfl rfl rfl rfl rfl rfl rfl
  · cases h

/-! ### Saving and removing -/

omit [DecidableEq ι] in
private theorem mem_save {store : ExecutionStore ι} {execution : Execution ι} {position : Nat} {r : Execution ι}
    (h : r ∈ (store.save execution position).records) : r ∈ store.records ∨ r = execution := by
  unfold ExecutionStore.save at h
  split at h
  · obtain ⟨r', hr', rfl⟩ := List.mem_map.1 h
    split
    · exact .inr rfl
    · exact .inl hr'
  · rcases List.mem_append.1 h with h | h
    · exact .inl (List.mem_of_mem_take h)
    · rcases List.mem_cons.1 h with rfl | h
      · exact .inr rfl
      · exact .inl (List.mem_of_mem_drop h)

omit [DecidableEq ι] in
/-- Records that are replaced by records of the same id which match what they matched keep their places. -/
private theorem sublist_map_filter {f : Execution ι → Execution ι} {p q : Execution ι → Bool} {l : List (Execution ι)}
    (hid : ∀ r ∈ l, (f r).id = r.id) (h : ∀ r ∈ l, p r = true → q (f r) = true) :
    (executionIds (l.filter p)).Sublist (executionIds ((l.map f).filter q)) := by
  have hsub := (sublist_filter (q := q ∘ f) h).map (·.id)
  have heq : executionIds ((l.map f).filter q) = (l.filter (q ∘ f)).map (·.id) := by
    rw [executionIds, List.filter_map, List.map_map]
    exact List.map_congr_left fun r hr => hid r (List.mem_of_mem_filter hr)
  rw [heq]
  exact hsub

/-- A run saves its execution. -/
private theorem worldStep_save {s : HistoryState ι} {key : ι × RunId} {id : Nat} (hs : AttemptsKept s)
    (hr : RecordsKept s)
    (hcurrent : s.current key = some id) (position : Nat) (calls : ι × RunId → Option RunCall) :
    WorldStep s { s with store := s.store.save ⟨id, key.1, s.status id⟩ position, calls := calls } none := by
  set s' : HistoryState ι :=
    { s with store := s.store.save ⟨id, key.1, s.status id⟩ position, calls := calls } with hs'
  have hseen : ∀ r, s'.seen r = s.seen r := fun r => rfl
  -- The record of the execution, if there is one, says that it runs, or what the attempt wrote.
  have hsettles : ∀ r ∈ s.store.records, r.id = id → Settles (s.seen r) (s.seen ⟨id, key.1, s.status id⟩) := by
    intro r hmem hid
    unfold HistoryState.seen
    split
    · exact .inr (by rw [hid])
    · have hsaved := hr.saved r hmem key (hid ▸ hcurrent)
      rw [hid] at hsaved
      exact hsaved
  have hlisting : ∀ job filter, Persistent filter →
      (executionIds (s.listing job filter)).Sublist (executionIds (s'.listing job filter)) := by
    intro job filter hfilter
    unfold HistoryState.listing
    rw [hs']
    simp only [ExecutionStore.save]
    split
    · refine sublist_map_filter (fun r _ => ?_) fun r hmem hmatch => ?_
      · split
        · rename_i hid
          exact hid.symm
        · rfl
      · split
        · rename_i hid
          rw [Bool.and_eq_true, decide_eq_true_eq] at hmatch ⊢
          have hjob : r.job = key.1 := (hr.known r hmem).2 key (hid ▸ hcurrent)
          exact ⟨hjob ▸ hmatch.1, hfilter _ _ (hsettles r hmem hid) hmatch.2⟩
        · exact hmatch
    · have hsub : s.store.records.Sublist
          (s.store.records.take position ++ ⟨id, key.1, s.status id⟩ :: s.store.records.drop position) := by
        conv_lhs => rw [← List.take_append_drop position s.store.records]
        exact List.Sublist.append_left (List.sublist_cons_self _ _) _
      exact (hsub.filter _).map _
  have hnot : ¬ s.Over id := fun hover => hover.2 key hcurrent
  have hevolves : Evolves s s' none := by
    refine ⟨rfl, Nat.le_refl _, fun _ _ h => .inl h, fun _ _ => rfl, fun r hmem => ?_, fun _ h => (by cases h),
      fun job filter hfilter x n _ hx => .inl (Paging.mem_drop_of_sublist (hlisting job filter hfilter) hx),
      fun _ h => h⟩
    rcases mem_save hmem with hbefore | rfl
    · exact .inl hbefore
    · exact .inr hnot
  refine ⟨hs.congr rfl rfl rfl rfl, ?_, hevolves, fun _ h => .inl h, rfl, rfl⟩
  refine hr.of_evolves hevolves (fun _ _ _ => .inr rfl) (fun r hmem hnew => ?_) fun _ h => .inl h
  rcases mem_save hmem with hbefore | rfl
  · exact absurd hbefore hnew
  · refine ⟨⟨hs.fresh key id hcurrent, fun key' hcurrent' => ?_⟩, fun _ _ => .inr rfl⟩
    rw [hs.distinct key' key id hcurrent' hcurrent]

omit [DecidableEq ι] in
private theorem mem_ids_remove {store : ExecutionStore ι} {id x : Nat} :
    x ∈ (store.remove id).ids ↔ x ∈ store.ids ∧ x ≠ id := by
  constructor
  · intro h
    obtain ⟨r, hr, rfl⟩ := List.mem_map.1 h
    obtain ⟨hmem, hne⟩ := List.mem_filter.1 hr
    exact ⟨List.mem_map_of_mem hmem, of_decide_eq_true hne⟩
  · intro h
    obtain ⟨hmem, hne⟩ := h
    obtain ⟨r, hr, rfl⟩ := List.mem_map.1 hmem
    exact List.mem_map_of_mem (List.mem_filter.2 ⟨hr, decide_eq_true hne⟩)

/-- The listing without one record. -/
private theorem listing_remove {s s' : HistoryState ι} {gone : Nat} (hlive : s'.live = s.live)
    (hstatus : s'.status = s.status)
    (hstore : s'.store = s.store.remove gone) (job : ι) (filter : Option Str) :
    executionIds (s'.listing job filter) = (executionIds (s.listing job filter)).filter (· ≠ gone) := by
  have hseen : ∀ r, s'.seen r = s.seen r := by
    intro r
    unfold HistoryState.seen
    rw [hlive, hstatus]
  unfold HistoryState.listing executionIds
  rw [hstore, List.filter_map]
  simp only [ExecutionStore.remove, List.filter_filter, hseen, Function.comp_apply]
  congr 1
  exact List.filter_congr fun r _ => Bool.and_comm _ _

/-- The store removes a record; it counts as deleted by a call only when it is over. -/
private theorem worldStep_remove {s s' : HistoryState ι} {gone : Nat} (hs : AttemptsKept s) (hr : RecordsKept s)
    (jobs : s'.jobs = s.jobs) (live : s'.live = s.live) (next : s'.next = s.next) (current : s'.current = s.current)
    (status : s'.status = s.status) (store : s'.store = s.store.remove gone)
    (deleted : s'.deleted = s.deleted ∨ (s.Over gone ∧ s'.deleted = gone :: s.deleted))
    (singles : s'.singles = s.singles) (bulks : s'.bulks = s.bulks) : WorldStep s s' (some gone) := by
  have hgone : gone ∉ s'.store.ids := by
    rw [store, mem_ids_remove]
    exact fun h => h.2 rfl
  have hevolves : Evolves s s' (some gone) := by
    refine ⟨live, Nat.le_of_eq next.symm, fun key id h => .inl (current ▸ h), fun id _ => by rw [status],
      fun r hmem => ?_, fun id h => ?_, fun job filter _ id n hbehind hid => ?_, fun id hid => ?_⟩
    · rw [store] at hmem
      exact .inl (List.mem_of_mem_filter hmem)
    · rw [← Option.some.inj h]
      exact hgone
    · by_cases hthis : id = gone
      · exact .inr (hthis ▸ hgone)
      · left
        rw [listing_remove live status store]
        refine Paging.mem_drop_filter (fun x hx => ?_) hid (decide_eq_true hthis)
        exact decide_eq_true fun h : x = gone => hbehind gone rfl (h ▸ hx)
    · rcases deleted with h | ⟨-, h⟩
      · rw [h]
        exact hid
      · rw [h]
        exact List.mem_cons_of_mem _ hid
  have hdeletes : ∀ id ∈ s'.deleted, id ∈ s.deleted ∨ s.Over id ∧ id = gone := by
    intro id hid
    rcases deleted with h | ⟨hover, h⟩
    · exact .inl (h ▸ hid)
    · rw [h] at hid
      rcases List.mem_cons.1 hid with rfl | hid
      · exact .inr ⟨hover, rfl⟩
      · exact .inl hid
  refine ⟨hs.congr jobs current status next, ?_, hevolves, fun id hid => (hdeletes id hid).imp_right And.left, singles,
    bulks⟩
  refine hr.of_evolves hevolves (fun _ id _ => .inr (by rw [status])) (fun r hmem hnot => ?_) fun id hid => ?_
  · rw [store] at hmem
    exact absurd (List.mem_of_mem_filter hmem) hnot
  · rcases hdeletes id hid with hold | ⟨hover, rfl⟩
    · exact .inl hold
    · exact .inr ⟨hover, hgone⟩

private theorem worldStep_delete {s : HistoryState ι} {id : Nat} (hs : AttemptsKept s) (hr : RecordsKept s)
    (hover : s.Over id) :
    WorldStep s (s.delete id) (some id) := by
  refine worldStep_remove hs hr rfl rfl rfl rfl rfl rfl ?_ rfl rfl
  unfold HistoryState.delete
  dsimp only
  split
  · exact .inr ⟨hover, rfl⟩
  · exact .inl rfl

/-- The record that a run's call removes. -/
def HistoryState.discards (s : HistoryState ι) (key : ι × RunId) : Option Nat :=
  if s.calls key = some (.discard none) then s.current key else none

private theorem worldStep_runCall {s s' : HistoryState ι} {key : ι × RunId} {position : Nat} (hs : AttemptsKept s)
    (hr : RecordsKept s) (h : s.runCall key position = some s') : WorldStep s s' (s.discards key) := by
  obtain ⟨id, hcurrent, h⟩ := Option.bind_eq_some_iff.1 h
  unfold HistoryState.discards
  split at h
  · rename_i hcall
    obtain rfl := Option.some.inj h
    rw [hcall, if_neg (by simp)]
    exact worldStep_save hs hr hcurrent position _
  · rename_i hcall
    obtain rfl := Option.some.inj h
    rw [hcall, if_pos rfl, hcurrent]
    exact worldStep_remove hs hr rfl rfl rfl rfl rfl rfl (.inl rfl) rfl rfl
  · cases h

/-! ### `delete_execution` -/

/-- The call deletes only what it found not to be running. -/
def HistoryState.SingleKept (s : HistoryState ι) (call : SingleDeletion ι) : Prop :=
  match call.phase with
  | .read (some r) => s.Known r ∧ r.id = call.id
  | .deleting => s.Over call.id
  | _ => True

private theorem singleKept_evolves {s s' : HistoryState ι} {removed : Option Nat} {call : SingleDeletion ι}
    (he : Evolves s s' removed) (h : s.SingleKept call) : s'.SingleKept call := by
  unfold HistoryState.SingleKept at h ⊢
  split
  · rename_i r hphase
    rw [hphase] at h
    exact ⟨he.known h.1, h.2⟩
  · rename_i hphase
    rw [hphase] at h
    exact he.over h
  · trivial

/-- The record that the next step of the call removes. -/
def SingleDeletion.removes (call : SingleDeletion ι) : Option Nat :=
  match call.phase with
  | .deleting => some call.id
  | _ => none

theorem WorldStep.refl {s : HistoryState ι} (hs : AttemptsKept s) (hr : RecordsKept s) : WorldStep s s none :=
  .of_same hs hr rfl rfl rfl rfl rfl rfl rfl rfl

private theorem stepSingle_kept {s s' : HistoryState ι} {call : SingleDeletion ι} {phase : SinglePhase ι}
    (hs : AttemptsKept s)
    (hr : RecordsKept s) (hcall : s.SingleKept call) (h : s.stepSingle call = some (s', phase)) :
    WorldStep s s' call.removes ∧ s'.SingleKept { call with phase := phase } := by
  obtain ⟨job, id, before⟩ := call
  cases before with
  | reading =>
    obtain ⟨rfl, rfl⟩ := Prod.mk.inj (Option.some.inj h)
    refine ⟨.refl hs hr, ?_⟩
    cases hfound : s.store.get? id with
    | none => trivial
    | some r =>
      have hmem : r ∈ s.store.records := List.mem_of_find?_eq_some hfound
      have hid : r.id = id := by simpa using List.find?_some hfound
      exact ⟨hr.known r hmem, hid⟩
  | read found =>
    cases found with
    | none =>
      obtain ⟨rfl, rfl⟩ := Prod.mk.inj (Option.some.inj h)
      exact ⟨.refl hs hr, trivial⟩
    | some r =>
      obtain ⟨hknown, hid⟩ := hcall
      obtain rfl : r.id = id := hid
      simp only [HistoryState.stepSingle] at h
      split at h
      · obtain ⟨rfl, rfl⟩ := Prod.mk.inj (Option.some.inj h)
        exact ⟨.refl hs hr, trivial⟩
      · split at h
        · obtain ⟨rfl, rfl⟩ := Prod.mk.inj (Option.some.inj h)
          exact ⟨.refl hs hr, trivial⟩
        · rename_i hrunning
          obtain ⟨rfl, rfl⟩ := Prod.mk.inj (Option.some.inj h)
          exact ⟨.refl hs hr, over_of_not_running hs hknown (eq_false_of_ne_true hrunning)⟩
  | deleting =>
    obtain ⟨rfl, rfl⟩ := Prod.mk.inj (Option.some.inj h)
    exact ⟨worldStep_delete hs hr hcall, trivial⟩
  | answered removed =>
    obtain ⟨rfl, rfl⟩ := Prod.mk.inj (Option.some.inj h)
    exact ⟨.refl hs hr, trivial⟩
  | ended error => cases h
  | failed => cases h

/-! ### `delete_executions` -/

/-- What the call is about to delete is over, and it counts what it removed. -/
def HistoryState.CountKept (s : HistoryState ι) (removed : Nat) : BulkPhase ι → Prop
  | .listing _ toDelete => removed = 0 ∧ ∀ id ∈ toDelete, s.Over id
  | .listed _ toDelete items _ => removed = 0 ∧ (∀ id ∈ toDelete, s.Over id) ∧ ∀ r ∈ items, s.Known r
  | .deleting ids deleted => removed = deleted ∧ ∀ id ∈ ids, s.Over id
  | .answered ids deleted answer => (removed = if answer then deleted + 1 else deleted) ∧ ∀ id ∈ ids, s.Over id
  | .returned deleted => removed = deleted
  | .failed => True

/-- The invariant of a call of `delete_executions`. -/
structure BulkKept (s : HistoryState ι) (call : BulkDeletion ι) : Prop where
  nodup : call.removed.Nodup
  counted : ∀ id ∈ call.removed, id ∈ s.deleted
  count : s.CountKept call.removed.length call.phase

private theorem BulkKept.evolves {s s' : HistoryState ι} {removed : Option Nat} {call : BulkDeletion ι}
    (h : BulkKept s call)
    (he : Evolves s s' removed) : BulkKept s' call := by
  refine ⟨h.nodup, fun id hid => he.deleted id (h.counted id hid), ?_⟩
  have hcount := h.count
  cases hphase : call.phase with
  | listing offset toDelete =>
    rw [hphase] at hcount
    exact ⟨hcount.1, fun id hid => he.over (hcount.2 id hid)⟩
  | listed offset toDelete items total =>
    rw [hphase] at hcount
    exact ⟨hcount.1, fun id hid => he.over (hcount.2.1 id hid), fun r hr => he.known (hcount.2.2 r hr)⟩
  | deleting ids deleted =>
    rw [hphase] at hcount
    exact ⟨hcount.1, fun id hid => he.over (hcount.2 id hid)⟩
  | answered ids deleted answer =>
    rw [hphase] at hcount
    exact ⟨hcount.1, fun id hid => he.over (hcount.2 id hid)⟩
  | returned deleted =>
    rw [hphase] at hcount
    exact hcount
  | failed => trivial

/-- The record that the next step of the call removes. -/
def BulkDeletion.removes (call : BulkDeletion ι) : Option Nat :=
  match call.phase with
  | .deleting (id :: _) _ => some id
  | _ => none

private theorem stepBulk_kept {s s' : HistoryState ι} {call call' : BulkDeletion ι} (hs : AttemptsKept s)
    (hr : RecordsKept s)
    (hcall : BulkKept s call) (h : s.stepBulk call = some (s', call')) :
    WorldStep s s' call.removes ∧ BulkKept s' call' := by
  obtain ⟨job, filter, phase, due, removed⟩ := call
  obtain ⟨hnodup, hcounted, hcount⟩ := hcall
  cases phase with
  | listing offset toDelete =>
    obtain ⟨rfl, rfl⟩ := Prod.mk.inj (Option.some.inj h)
    refine ⟨.refl hs hr, hnodup, hcounted, hcount.1, hcount.2, fun r hmem => ?_⟩
    exact hr.known r (List.mem_of_mem_filter (List.mem_of_mem_drop (List.mem_of_mem_take hmem)))
  | listed offset toDelete items total =>
    obtain ⟨rfl, rfl⟩ := Prod.mk.inj (Option.some.inj h)
    have hover : ∀ id ∈ toDelete ++ executionIds (items.filter fun r => !s.isRunning r), s.Over id := by
      intro id hid
      rcases List.mem_append.1 hid with hid | hid
      · exact hcount.2.1 id hid
      · obtain ⟨r, hmem, rfl⟩ := List.mem_map.1 hid
        obtain ⟨hitem, hrunning⟩ := List.mem_filter.1 hmem
        exact over_of_not_running hs (hcount.2.2 r hitem) (by simpa using hrunning)
    refine ⟨.refl hs hr, hnodup, hcounted, ?_⟩
    dsimp only
    split
    · exact ⟨hcount.1, hover⟩
    · exact ⟨hcount.1, hover⟩
  | deleting ids deleted =>
    cases ids with
    | nil =>
      obtain ⟨rfl, rfl⟩ := Prod.mk.inj (Option.some.inj h)
      exact ⟨.refl hs hr, hnodup, hcounted, hcount.1⟩
    | cons id ids =>
      obtain ⟨rfl, rfl⟩ := Prod.mk.inj (Option.some.inj h)
      have hworld := worldStep_delete hs hr (hcount.2 id List.mem_cons_self)
      have hover : ∀ id' ∈ ids, (s.delete id).Over id' := fun id' hid' =>
        hworld.evolves.over (hcount.2 id' (List.mem_cons_of_mem _ hid'))
      refine ⟨hworld, ?_⟩
      by_cases hthere : id ∈ s.store.ids
      · have hnew : id ∉ removed := fun hid => (hr.deleted id (hcounted id hid)).2 hthere
        have hdeleted : (s.delete id).deleted = id :: s.deleted := if_pos hthere
        have hcounted' : ∀ id' ∈ id :: removed, id' ∈ (s.delete id).deleted := by
          intro id' hid'
          rw [hdeleted]
          rcases List.mem_cons.1 hid' with rfl | hid'
          · exact List.mem_cons_self
          · exact List.mem_cons_of_mem _ (hcounted id' hid')
        simp only [hthere, if_true]
        exact ⟨List.nodup_cons.2 ⟨hnew, hnodup⟩, hcounted', by simp [hcount.1], hover⟩
      · simp only [hthere, if_false]
        exact ⟨hnodup, fun id' hid' => hworld.evolves.deleted id' (hcounted id' hid'), by simp [hcount.1], hover⟩
  | answered ids deleted answer =>
    obtain ⟨rfl, rfl⟩ := Prod.mk.inj (Option.some.inj h)
    exact ⟨.refl hs hr, hnodup, hcounted, hcount.1, hcount.2⟩
  | returned deleted => cases h
  | failed => cases h

/-- The offset of the next page, when there is one to come. -/
def BulkPhase.readTo : BulkPhase ι → Option Nat
  | .listing offset _ => some offset
  | .listed offset _ items total =>
    if items.isEmpty ∨ total ≤ offset + items.length then none else some (offset + items.length)
  | _ => none

/-- An execution that the call has to delete, and that is there, is on its way to be deleted. -/
def HistoryState.Reaches (s : HistoryState ι) (call : BulkDeletion ι) (id : Nat) : Prop :=
  match call.phase with
  | .listing offset toDelete => id ∈ toDelete ∨ id ∈ (executionIds (s.listing call.job call.filter)).drop offset
  | .listed _ toDelete items _ => id ∈ toDelete ∨ (∃ r ∈ items, r.id = id ∧ s.seen r ≠ none) ∨
    ∃ n, call.phase.readTo = some n ∧ id ∈ (executionIds (s.listing call.job call.filter)).drop n
  | .deleting ids _ | .answered ids _ _ => id ∈ ids
  | .returned _ => False
  | .failed => True

/-- What a call of `delete_executions` has to delete stays finished until it is gone. -/
structure BulkComplete (s : HistoryState ι) (call : BulkDeletion ι) : Prop where
  ended : ∀ id ∈ call.due, s.Over id
  finished : ∀ id ∈ call.due, ∀ r ∈ s.store.records, r.id = id → s.seen r ≠ none
  persistent : ∀ id ∈ call.due, Persistent call.filter
  reaches : ∀ id ∈ call.due, id ∈ s.store.ids → s.Reaches call id

/-- A step that removes no record in front of the call's offset leaves its pages complete. -/
private theorem BulkComplete.evolves {s s' : HistoryState ι} {removed : Option Nat} {call : BulkDeletion ι}
    (h : BulkComplete s call) (he : Evolves s s' removed)
    (hbehind : ∀ x, removed = some x → ∀ n, call.phase.readTo = some n →
      x ∉ (executionIds (s.listing call.job call.filter)).take n) : BulkComplete s' call := by
  refine ⟨fun id hid => he.over (h.ended id hid), fun id hid r hmem hrid => ?_, h.persistent, fun id hid hthere => ?_⟩
  · have hover := h.ended id hid
    rcases he.records r hmem with hbefore | hnot
    · rw [he.seen (hrid ▸ hover)]
      exact h.finished id hid r hbefore hrid
    · exact absurd (hrid ▸ hover) hnot
  · have hover := h.ended id hid
    have hbefore : id ∈ s.store.ids := by
      by_contra hgone
      exact he.notMem hover hgone hthere
    have hpage : ∀ n, call.phase.readTo = some n → id ∈ (executionIds (s.listing call.job call.filter)).drop n →
        id ∈ (executionIds (s'.listing call.job call.filter)).drop n := by
      intro n hn hdrop
      have hkept := he.listing _ _ (h.persistent id hid) id n (fun x hx => hbehind x hx n hn) hdrop
      exact hkept.resolve_right fun hgone => hgone hthere
    have hreaches := h.reaches id hid hbefore
    unfold HistoryState.Reaches at hreaches ⊢
    split
    · rename_i offset toDelete hphase
      rw [hphase] at hreaches
      exact hreaches.imp_right (hpage offset (by rw [hphase]; rfl))
    · rename_i offset toDelete items total hphase
      rw [hphase] at hreaches
      rcases hreaches with hlisted | ⟨r, hr, hrid, hseen⟩ | ⟨n, hn, hdrop⟩
      · exact .inl hlisted
      · refine .inr (.inl ⟨r, hr, hrid, ?_⟩)
        rw [he.seen (hrid ▸ hover)]
        exact hseen
      · rw [← hphase] at hn
        exact .inr (.inr ⟨n, hn, hpage n hn hdrop⟩)
    all_goals
      rename_i hphase
      rw [hphase] at hreaches
      exact hreaches

/-- The call's own step. -/
private theorem stepBulk_complete {s s' : HistoryState ι} {call call' : BulkDeletion ι} (hs : AttemptsKept s)
    (hr : RecordsKept s) (hkept : BulkKept s call) (h : BulkComplete s call)
    (hst : s.stepBulk call = some (s', call')) : BulkComplete s' call' := by
  obtain ⟨job, filter, phase, due, removed⟩ := call
  cases phase with
  | listing offset toDelete =>
    obtain ⟨rfl, rfl⟩ := Prod.mk.inj (Option.some.inj hst)
    refine ⟨h.ended, h.finished, h.persistent, fun id hid hthere => ?_⟩
    rcases h.reaches id hid hthere with hlisted | hdrop
    · exact .inl hlisted
    · right
      rw [executionIds, ← List.map_drop] at hdrop
      obtain ⟨r, hr, rfl⟩ := List.mem_map.1 hdrop
      rcases Paging.mem_page_or_drop deletionPageSize hr with hpage | hrest
      · refine .inl ⟨r, hpage, rfl, h.finished r.id hid r ?_ rfl⟩
        exact List.mem_of_mem_filter (List.mem_of_mem_drop hr)
      · right
        generalize hitems : ((s.listing job filter).drop offset).take deletionPageSize = items at hrest ⊢
        have hmore : ¬ (items.isEmpty ∨ (s.listing job filter).length ≤ offset + items.length) := by
          intro hlast
          rcases hlast with hempty | hshort
          · rw [List.isEmpty_iff, ← hitems, List.take_eq_nil_iff] at hempty
            have hnone := hempty.resolve_left (by decide)
            rw [hnone] at hr
            cases hr
          · rw [List.drop_eq_nil_of_le hshort] at hrest
            cases hrest
        refine ⟨offset + items.length, if_neg hmore, ?_⟩
        rw [executionIds, ← List.map_drop]
        exact List.mem_map_of_mem hrest
  | listed offset toDelete items total =>
    obtain ⟨rfl, rfl⟩ := Prod.mk.inj (Option.some.inj hst)
    refine ⟨h.ended, h.finished, h.persistent, fun id hid hthere => ?_⟩
    have hdelete : ∀ r ∈ items, r.id = id → s.seen r ≠ none →
        id ∈ toDelete ++ executionIds (items.filter fun r => !s.isRunning r) := by
      intro r hmem hrid hseen
      refine List.mem_append_right _ (List.mem_map.2 ⟨r, List.mem_filter.2 ⟨hmem, ?_⟩, hrid⟩)
      have hnot := notMem_runningIds (hrid ▸ h.ended id hid : s.Over r.id) r.job
      simp [isRunning, hseen, hnot]
    unfold HistoryState.Reaches
    rcases h.reaches id hid hthere with hlisted | ⟨r, hmem, hrid, hseen⟩ | ⟨n, hn, hdrop⟩
    · have hmem := List.mem_append_left (executionIds (items.filter fun r => !s.isRunning r)) hlisted
      dsimp only
      split_ifs
      · exact hmem
      · exact .inl hmem
    · have hmem := hdelete r hmem hrid hseen
      dsimp only
      split_ifs
      · exact hmem
      · exact .inl hmem
    · simp only [BulkPhase.readTo] at hn
      split_ifs at hn with hlast
      dsimp only
      rw [if_neg hlast]
      obtain rfl := Option.some.inj hn
      exact .inr hdrop
  | deleting ids deleted =>
    cases ids with
    | nil =>
      obtain ⟨rfl, rfl⟩ := Prod.mk.inj (Option.some.inj hst)
      refine ⟨h.ended, h.finished, h.persistent, fun id hid hthere => ?_⟩
      have hreaches := h.reaches id hid hthere
      exact absurd hreaches List.not_mem_nil
    | cons id ids =>
      obtain ⟨rfl, rfl⟩ := Prod.mk.inj (Option.some.inj hst)
      have he := (worldStep_delete hs hr (hkept.count.2 id List.mem_cons_self)).evolves
      have hafter := h.evolves he fun x _ n hn => by cases hn
      refine ⟨hafter.ended, hafter.finished, hafter.persistent, fun id' hid' hthere => ?_⟩
      have hne : id' ≠ id := fun heq => he.gone id rfl (heq ▸ hthere)
      exact (List.mem_cons.1 (hafter.reaches id' hid' hthere)).resolve_left hne
  | answered ids deleted answer =>
    obtain ⟨rfl, rfl⟩ := Prod.mk.inj (Option.some.inj hst)
    exact ⟨h.ended, h.finished, h.persistent, h.reaches⟩
  | returned deleted => cases hst
  | failed => cases hst

/-- A call that begins has everything before it. -/
private theorem bulkComplete_start {s : HistoryState ι} (hs : AttemptsKept s) (hr : RecordsKept s) (job : ι)
    (filter : Option Str) :
    BulkComplete s ⟨job, filter, .listing 0 [], executionIds ((s.listing job filter).filter fun r => !s.isRunning r),
      []⟩ := by
  have hdue : ∀ id ∈ executionIds ((s.listing job filter).filter fun r => !s.isRunning r),
      ∃ r ∈ s.listing job filter, r.id = id ∧ s.isRunning r = false := by
    intro id hid
    obtain ⟨r, hmem, hrid⟩ := List.mem_map.1 hid
    obtain ⟨hlisted, hrunning⟩ := List.mem_filter.1 hmem
    exact ⟨r, hlisted, hrid, by simpa using hrunning⟩
  have hfinished : ∀ r, s.isRunning r = false → s.seen r ≠ none := by
    intro r hrunning hnone
    simp [isRunning, hnone] at hrunning
  refine ⟨fun id hid => ?_, fun id hid r hmem hrid => ?_, fun id hid => ?_, fun id hid _ => .inr ?_⟩
  · obtain ⟨r, hlisted, rfl, hrunning⟩ := hdue id hid
    exact over_of_not_running hs (hr.known r (List.mem_of_mem_filter hlisted)) hrunning
  · obtain ⟨r', hlisted, hrid', hrunning⟩ := hdue id hid
    obtain rfl : r = r' := List.inj_on_of_nodup_map s.store.nodup hmem (List.mem_of_mem_filter hlisted)
      (hrid.trans hrid'.symm)
    exact hfinished r hrunning
  · obtain ⟨r, hlisted, -, hrunning⟩ := hdue id hid
    refine (persistent_or filter).resolve_right fun hnone => hfinished r hrunning (hnone _ ?_)
    have hmatch := (List.mem_filter.1 hlisted).2
    rw [Bool.and_eq_true] at hmatch
    exact hmatch.2
  · obtain ⟨r, hlisted, rfl, -⟩ := hdue id hid
    exact List.mem_map_of_mem hlisted

/-! ### Runs -/

/-- The record that a step removes from the store. -/
def HistoryState.removes (s : HistoryState ι) : HistoryAction ι → Option Nat
  | .runCall job i _ => s.discards (job, i)
  | .stepDelete i => s.singles[i]?.bind SingleDeletion.removes
  | .stepDeleteAll i => s.bulks[i]?.bind BulkDeletion.removes
  | .prune id => some id
  | _ => none

/-- The step removes no record that a call of `delete_executions` with pages to come has read. -/
def NothingSkipped (s : HistoryState ι) (a : HistoryAction ι) : Prop :=
  ∀ id, s.removes a = some id → ∀ call ∈ s.bulks, ∀ n, call.phase.readTo = some n →
    id ∉ (executionIds (s.listing call.job call.filter)).take n

instance (s : HistoryState ι) (a : HistoryAction ι) : Decidable (NothingSkipped s a) :=
  decidable_of_iff (∀ id ∈ s.removes a, ∀ call ∈ s.bulks, ∀ n ∈ call.phase.readTo,
    id ∉ (executionIds (s.listing call.job call.filter)).take n) Iff.rfl

/-- The invariant of the history. -/
structure HistoryKept (s : HistoryState ι) : Prop where
  attempts : AttemptsKept s
  records : RecordsKept s
  singles : ∀ call ∈ s.singles, s.SingleKept call
  bulks : ∀ call ∈ s.bulks, BulkKept s call

/-- What a step does: a step of the executions and the store, and then one call of a deletion goes on or begins. -/
inductive HistoryEffect (s : HistoryState ι) (a : HistoryAction ι) : HistoryState ι → Prop
  | world {s' : HistoryState ι} (step : WorldStep s s' (s.removes a)) : HistoryEffect s a s'
  | singles (mid : HistoryState ι) (step : WorldStep s mid (s.removes a)) (singles : List (SingleDeletion ι))
      (kept : ∀ call ∈ singles, call ∈ mid.singles ∨ mid.SingleKept call) :
      HistoryEffect s a { mid with singles := singles }
  | bulks (mid : HistoryState ι) (step : WorldStep s mid (s.removes a)) (bulks : List (BulkDeletion ι))
      (kept : ∀ call ∈ bulks, call ∈ mid.bulks ∨
        (BulkKept mid call ∧ ((∀ call ∈ s.bulks, BulkComplete s call) → BulkComplete mid call))) :
      HistoryEffect s a { mid with bulks := bulks }

private theorem historyEffect {isCron : Str → Bool} {s s' : HistoryState ι} {a : HistoryAction ι} (hs : HistoryKept s)
    (h : historyStep isCron s a = some s') : HistoryEffect s a s' := by
  have hrefl : WorldStep s s none := .refl hs.attempts hs.records
  cases a with
  | job job a => exact .world (worldStep_stepJob hs.attempts hs.records h)
  | run job i answer discard => exact .world (worldStep_stepRun hs.attempts hs.records h)
  | runCall job i position => exact .world (worldStep_runCall hs.attempts hs.records h)
  | saveFinished job i raised => exact .world (worldStep_saveFinished hs.attempts hs.records h)
  | delete job id =>
    obtain rfl := Option.some.inj h
    refine .singles s hrefl _ fun call hcall => ?_
    rcases List.mem_append.1 hcall with hcall | hcall
    · exact .inl hcall
    · obtain rfl := List.mem_singleton.1 hcall
      exact .inr trivial
  | stepDelete i =>
    obtain ⟨call, hcall, h⟩ := Option.bind_eq_some_iff.1 h
    obtain ⟨⟨mid, phase⟩, hstep, h⟩ := Option.bind_eq_some_iff.1 h
    obtain rfl := Option.some.inj h
    obtain ⟨hworld, hkept⟩ := stepSingle_kept hs.attempts hs.records (hs.singles call (List.mem_of_getElem? hcall)) hstep
    have hremoves : s.removes (.stepDelete i) = call.removes := by
      simp only [HistoryState.removes, hcall, Option.bind_some]
    refine .singles mid (hremoves ▸ hworld) _ fun call' hcall' => ?_
    rcases List.mem_or_eq_of_mem_set hcall' with hold | rfl
    · exact .inl hold
    · exact .inr hkept
  | failDelete i =>
    obtain ⟨call, hcall, h⟩ := Option.bind_eq_some_iff.1 h
    split at h
    · cases h
    · obtain rfl := Option.some.inj h
      refine .singles s hrefl _ fun call' hcall' => ?_
      rcases List.mem_or_eq_of_mem_set hcall' with hold | rfl
      · exact .inl hold
      · exact .inr trivial
  | deleteAll job filter =>
    obtain rfl := Option.some.inj h
    refine .bulks s hrefl _ fun call hcall => ?_
    rcases List.mem_append.1 hcall with hcall | hcall
    · exact .inl hcall
    · obtain rfl := List.mem_singleton.1 hcall
      right
      refine ⟨⟨List.nodup_nil, fun id hid => (by cases hid), rfl, fun id hid => (by cases hid)⟩, fun _ => ?_⟩
      exact bulkComplete_start hs.attempts hs.records job filter
  | stepDeleteAll i =>
    obtain ⟨call, hcall, h⟩ := Option.bind_eq_some_iff.1 h
    obtain ⟨⟨mid, call'⟩, hstep, h⟩ := Option.bind_eq_some_iff.1 h
    obtain rfl := Option.some.inj h
    have hmem := List.mem_of_getElem? hcall
    obtain ⟨hworld, hkept⟩ := stepBulk_kept hs.attempts hs.records (hs.bulks call hmem) hstep
    have hremoves : s.removes (.stepDeleteAll i) = call.removes := by
      simp only [HistoryState.removes, hcall, Option.bind_some]
    refine .bulks mid (hremoves ▸ hworld) _ fun call'' hcall'' => ?_
    rcases List.mem_or_eq_of_mem_set hcall'' with hold | rfl
    · exact .inl hold
    · refine .inr ⟨hkept, fun hcomplete => ?_⟩
      exact stepBulk_complete hs.attempts hs.records (hs.bulks call hmem) (hcomplete call hmem) hstep
  | failDeleteAll i =>
    obtain ⟨call, hcall, h⟩ := Option.bind_eq_some_iff.1 h
    split at h
    · cases h
    · obtain rfl := Option.some.inj h
      have hmem := List.mem_of_getElem? hcall
      have hkept := hs.bulks call hmem
      refine .bulks s hrefl _ fun call' hcall' => ?_
      rcases List.mem_or_eq_of_mem_set hcall' with hold | rfl
      · exact .inl hold
      · refine .inr ⟨⟨hkept.nodup, hkept.counted, trivial⟩, fun hcomplete => ?_⟩
        have hc := hcomplete call hmem
        exact ⟨hc.ended, hc.finished, hc.persistent, fun _ _ _ => trivial⟩
  | prune id =>
    obtain rfl := Option.some.inj h
    exact .world (worldStep_remove hs.attempts hs.records rfl rfl rfl rfl rfl rfl (.inl rfl) rfl rfl)

private theorem HistoryKept.of_world {s s' : HistoryState ι} {removed : Option Nat} (h : HistoryKept s)
    (hw : WorldStep s s' removed) : HistoryKept s' := by
  refine ⟨hw.attempts, hw.records, fun call hcall => ?_, fun call hcall => ?_⟩
  · rw [hw.singles] at hcall
    exact singleKept_evolves hw.evolves (h.singles call hcall)
  · rw [hw.bulks] at hcall
    exact (h.bulks call hcall).evolves hw.evolves

/-- A step keeps the invariant, and what a call deletes in it is over. -/
theorem HistoryKept.step {s s' : HistoryState ι} {a : HistoryAction ι} (h : HistoryKept s)
    (he : HistoryEffect s a s') : HistoryKept s' ∧ ∀ id ∈ s'.deleted, id ∈ s.deleted ∨ s.Over id := by
  cases he with
  | world step => exact ⟨h.of_world step, step.deletes⟩
  | singles mid step singles kept =>
    have hmid := h.of_world step
    refine ⟨⟨hmid.attempts.congr rfl rfl rfl rfl, ⟨hmid.records.known, hmid.records.saved, hmid.records.deleted⟩,
      fun call hcall => ?_, fun call hcall => ?_⟩, step.deletes⟩
    · rcases kept call hcall with hold | hnew
      · exact hmid.singles call hold
      · exact hnew
    · have hkept := hmid.bulks call hcall
      exact ⟨hkept.nodup, hkept.counted, hkept.count⟩
  | bulks mid step bulks kept =>
    have hmid := h.of_world step
    refine ⟨⟨hmid.attempts.congr rfl rfl rfl rfl, ⟨hmid.records.known, hmid.records.saved, hmid.records.deleted⟩,
      hmid.singles, fun call hcall => ?_⟩, step.deletes⟩
    have hkept : BulkKept mid call := by
      rcases kept call hcall with hold | ⟨hnew, -⟩
      · exact hmid.bulks call hold
      · exact hnew
    exact ⟨hkept.nodup, hkept.counted, hkept.count⟩

/-- A step that skips nothing keeps the calls complete. -/
private theorem complete_step {s s' : HistoryState ι} {a : HistoryAction ι} (h : ∀ call ∈ s.bulks, BulkComplete s call)
    (hg : NothingSkipped s a) (he : HistoryEffect s a s') : ∀ call ∈ s'.bulks, BulkComplete s' call := by
  have hworld : ∀ mid, WorldStep s mid (s.removes a) → ∀ call ∈ mid.bulks, BulkComplete mid call := by
    intro mid step call hcall
    rw [step.bulks] at hcall
    exact (h call hcall).evolves step.evolves fun id hid n hn => hg id hid call hcall n hn
  cases he with
  | world step => exact hworld s' step
  | singles mid step singles kept =>
    intro call hcall
    have hc := hworld mid step call hcall
    exact ⟨hc.ended, hc.finished, hc.persistent, hc.reaches⟩
  | bulks mid step bulks kept =>
    intro call hcall
    have hc : BulkComplete mid call := by
      rcases kept call hcall with hold | ⟨-, hnew⟩
      · exact hworld mid step call hold
      · exact hnew h
    exact ⟨hc.ended, hc.finished, hc.persistent, hc.reaches⟩

omit [DecidableEq ι] in
theorem lt_freshId {store : ExecutionStore ι} {id : Nat} (h : id ∈ store.ids) : id < store.freshId := by
  have hle : ∀ ids : List Nat, id ∈ ids → id ≤ ids.foldr max 0 := by
    intro ids hid
    induction ids with
    | nil => cases hid
    | cons x ids ih =>
      rw [List.foldr_cons]
      rcases List.mem_cons.1 hid with rfl | hid
      · exact Nat.le_max_left _ _
      · exact Nat.le_trans (ih hid) (Nat.le_max_right _ _)
  exact Nat.lt_succ_of_le (hle store.ids h)

omit [DecidableEq ι] in
private theorem historyKept_start (live : Bool) (options : ι → CliJobOptions) (store : ExecutionStore ι) :
    HistoryKept (HistoryState.start live options store) := by
  refine ⟨⟨fun _ _ _ h => (by cases h), fun _ _ h => (by cases h), fun _ _ _ h => (by cases h), fun _ _ h => (by cases h),
    fun _ _ h => (by cases h)⟩, ⟨fun r hr => ⟨lt_freshId (List.mem_map_of_mem hr), fun _ h => (by cases h)⟩,
    fun _ _ _ h => (by cases h), fun _ h => (by cases h)⟩, fun _ h => (by cases h), fun _ h => (by cases h)⟩

section Runs

variable {isCron : Str → Bool} {live : Bool} {options : ι → CliJobOptions} {store : ExecutionStore ι}
  {history : List (Move (HistoryState ι) (HistoryAction ι))} {s : HistoryState ι}

/-- In every run a call deletes only executions that belong to no attempt any more, what they delete does not come
back, and `delete_executions` returns the number of executions that it deleted. -/
private theorem deletion_sound (h : Run (historyStep isCron) (.start live options store) history s) :
    (∀ m ∈ history, ∀ id ∈ m.post.deleted, id ∉ m.pre.deleted → ∀ job, id ∉ m.pre.runningIds job) ∧
    (∀ id ∈ s.deleted, id ∉ s.store.ids) ∧
    ∀ call ∈ s.bulks, ∀ count, call.phase = .returned count →
      count = call.removed.length ∧ call.removed.Nodup ∧ ∀ id ∈ call.removed, id ∈ s.deleted := by
  have hstart := historyKept_start live options store
  have hstep : ∀ (s : HistoryState ι) (a : HistoryAction ι) (t : HistoryState ι), HistoryKept s → True →
      historyStep isCron s a = some t → HistoryKept t := fun s a t hs _ hst => (hs.step (historyEffect hs hst)).1
  have hs := h.invariant hstart hstep
  refine ⟨fun m hm id hid hnew job => ?_, fun id hid => (hs.records.deleted id hid).2,
    fun call hcall count hreturned => ?_⟩
  · obtain ⟨hpre, -, hst⟩ := h.of_mem hstart hstep hm
    have hover := ((hpre.step (historyEffect hpre hst)).2 id hid).resolve_left hnew
    exact notMem_runningIds hover job
  · have hkept := hs.bulks call hcall
    have hcount := hkept.count
    rw [hreturned] at hcount
    exact ⟨hcount.symm, hkept.nodup, hkept.counted⟩

/-- In a run that removes no record in front of the page that a call of `delete_executions` reads next, such a call
leaves none of the executions that it had to delete. -/
theorem deletion_complete (h : GuardedRun (historyStep isCron) NothingSkipped (.start live options store) history s) :
    (∀ m ∈ history, ∀ id ∈ m.post.deleted, id ∉ m.pre.deleted → ∀ job, id ∉ m.pre.runningIds job) ∧
    (∀ id ∈ s.deleted, id ∉ s.store.ids) ∧
    ∀ call ∈ s.bulks, ∀ count, call.phase = .returned count →
      (count = call.removed.length ∧ call.removed.Nodup ∧ ∀ id ∈ call.removed, id ∈ s.deleted) ∧
      ∀ id ∈ call.due, id ∉ s.store.ids := by
  obtain ⟨hrunning, hgone, hcount⟩ := deletion_sound h.run
  refine ⟨hrunning, hgone, fun call hcall count hreturned => ⟨hcount call hcall count hreturned, fun id hid hthere => ?_⟩⟩
  have hstart : HistoryKept (.start live options store) ∧
      ∀ call ∈ (HistoryState.start live options store).bulks, BulkComplete (.start live options store) call :=
    ⟨historyKept_start live options store, fun _ h => (by cases h)⟩
  have hstep : ∀ (s : HistoryState ι) (a : HistoryAction ι) (t : HistoryState ι),
      (HistoryKept s ∧ ∀ call ∈ s.bulks, BulkComplete s call) → NothingSkipped s a →
      historyStep isCron s a = some t → HistoryKept t ∧ ∀ call ∈ t.bulks, BulkComplete t call :=
    fun s a t hs hg hst => ⟨(hs.1.step (historyEffect hs.1 hst)).1, complete_step hs.2 hg (historyEffect hs.1 hst)⟩
  have hs := h.invariant hstart hstep
  have hreaches := (hs.2 call hcall).reaches id hid hthere
  unfold HistoryState.Reaches at hreaches
  rw [hreturned] at hreaches
  exact hreaches

end Runs

/-- What a call of `delete_executions` returned. -/
def BulkPhase.returned? : BulkPhase ι → Option Nat
  | .returned count => some count
  | _ => none

omit [DecidableEq ι] in
private theorem BulkPhase.eq_of_returned? {phase : BulkPhase ι} {count : Nat} (h : phase.returned? = some count) :
    phase = .returned count := by
  cases phase with
  | returned count' => exact congrArg BulkPhase.returned (Option.some.inj h)
  | _ => cases h

/-- Two finished executions of one job. -/
def twoFinished : ExecutionStore Unit := ⟨[⟨0, (), some .completed⟩, ⟨1, (), some .failed⟩], by decide⟩

/-- `delete_executions` reads the history while a run is in it that completes meanwhile, and deletes the other two. -/
theorem deletion_complete_running : ∃ history s,
    GuardedRun (historyStep fun _ => false) NothingSkipped (.start false (fun _ => {}) twoFinished) history s ∧
    s.store.ids = [2] ∧ ∃ call ∈ s.bulks, call.phase = .returned 2 ∧ 2 = call.removed.length := by
  let run : HistoryAction Unit := .run () 0 .ok false
  let actions : List (HistoryAction Unit) := [.job () .trigger, .job () (.triggered 0 .ok), run, .runCall () 0 0,
    .deleteAll () none, .stepDeleteAll 0, run, run, run, .runCall () 0 0, run] ++ List.replicate 6 (.stepDeleteAll 0)
  have hexec : (exec (historyStep fun _ => false) (.start false (fun _ => {}) twoFinished) actions).any (fun r =>
      r.1.all (fun m => decide (NothingSkipped m.pre m.act)) && (r.2.store.ids = [2] &&
        r.2.bulks.any fun call => call.phase.returned? = some 2)) = true := by
    decide +kernel
  obtain ⟨⟨history, s⟩, hexec, hboth⟩ := (Option.any_eq_true _ _).1 hexec
  simp only [Bool.and_eq_true, List.all_eq_true, decide_eq_true_eq] at hboth
  obtain ⟨hguard, hids, hreturned⟩ := hboth
  obtain ⟨call, hcall, hphase⟩ := List.any_eq_true.1 hreturned
  have hrun := (run_of_exec hexec).restrict hguard
  have hphase := BulkPhase.eq_of_returned? (of_decide_eq_true hphase)
  exact ⟨history, s, hrun, hids, call, hcall, hphase, ((deletion_complete hrun).2.2 call hcall 2 hphase).1.1⟩

/-- A hundred and one finished executions of one job. -/
def manyFinished : ExecutionStore Unit := ⟨(List.range 101).map fun id => ⟨id, (), some .completed⟩, by
  rw [executionIds, List.map_map]
  exact List.nodup_range.map fun _ _ h => h⟩

/-- Someone deletes an execution of the first page: the first of the second page is never read. -/
theorem execution_skipped : ∃ history s,
    Run (historyStep fun _ => false) (.start false (fun _ => {}) manyFinished) history s ∧
    ∃ call ∈ s.bulks, ∃ count, call.phase = .returned count ∧ ∃ id ∈ call.due, id ∈ s.store.ids := by
  let actions : List (HistoryAction Unit) := [.deleteAll () none, .stepDeleteAll 0, .delete () 0, .stepDelete 0,
    .stepDelete 0, .stepDelete 0] ++ List.replicate 204 (.stepDeleteAll 0)
  have hexec : (exec (historyStep fun _ => false) (.start false (fun _ => {}) manyFinished) actions).any (fun r =>
      r.2.bulks.any fun call => call.phase.returned? = some 99 &&
        call.due.any fun id => id ∈ r.2.store.ids) = true := by
    decide +kernel
  obtain ⟨⟨history, s⟩, hexec, hskipped⟩ := (Option.any_eq_true _ _).1 hexec
  obtain ⟨call, hcall, hboth⟩ := List.any_eq_true.1 hskipped
  rw [Bool.and_eq_true] at hboth
  obtain ⟨hphase, hdue⟩ := hboth
  obtain ⟨id, hid, hthere⟩ := List.any_eq_true.1 hdue
  have hreturned := BulkPhase.eq_of_returned? (of_decide_eq_true hphase)
  exact ⟨history, s, run_of_exec hexec, call, hcall, 99, hreturned, id, hid, of_decide_eq_true hthere⟩

end CliServer
