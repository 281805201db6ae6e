import CliServer.Jobs.Deletions
import CliServer.Jobs.Executions
import CliServer.Lib.Double

/-!
# Interrupted runs

`start` finishes the runs that the store still has as running (`_finish_interrupted_runs`): for each job it pages
through the running executions, leaves out those of its own running attempts, and saves the others as cancelled.  Each
call of the store is two steps, its effect and the resumption; attempts of this process begin and end meanwhile, and
finished executions are deleted.  The store has the records of a job in an order of its own and returns copies.

An own run that was listed and ends before `start` looks at its own attempts is taken for an interrupted one, and a
record that leaves the pages `start` has read moves the rest up, so that one is skipped.  When neither happens,
`start` does what it is for (`interrupted_finished`).
-/

namespace CliServer

open Transition

variable {ι : Type} [DecidableEq ι]

/-! ### Executions -/

/-- `INTERRUPTED_ERROR`. -/
def interruptedError : Str := "Interrupted: the server stopped during the run".toList

/-- What an execution has besides its id, its job and its status; of the log entries, their times. -/
structure ExecutionDetails where
  startedAt : DateTime
  logs : List DateTime := []
  error : Option Str := none
  completedAt : Option DateTime := none
  duration : Option ℤ := none
  deriving DecidableEq

/-- An execution with its details. -/
abbrev StoredRun (ι : Type) := Execution ι × ExecutionDetails

/-- `round(elapsed.total_seconds() * 1000)`, of microseconds. -/
def milliseconds (elapsed : ℤ) : ℤ := Double.roundEven (Double.double (Double.double (elapsed / 10 ^ 6) * 1000))

/-- The start and the log entries' times: the latest. -/
def ExecutionDetails.ended (details : ExecutionDetails) : ℤ :=
  (details.logs.map asUtc).foldl max (asUtc details.startedAt)

/-- What `_finish_interrupted_runs` makes of an execution. -/
def StoredRun.cancel (run : StoredRun ι) : StoredRun ι :=
  ({ run.1 with status := some .cancelled },
    { run.2 with
      error := some interruptedError
      completedAt := some ⟨run.2.ended, some 0⟩
      duration := some (milliseconds (run.2.ended - asUtc run.2.startedAt)) })

/-! ### Attempts and the recovery -/

/-- Where an attempt is: in its first save, running, or past the effect of its last save. -/
inductive AttemptStage where
  | saving
  | running
  | finished
  deriving DecidableEq

/-- A run's attempt, while its run has `execution_id`. -/
structure RunningAttempt (ι : Type) where
  job : ι
  id : Nat
  startedAt : DateTime
  stage : AttemptStage

/-- Where `_finish_interrupted_runs` is. -/
inductive RecoveryPhase (ι : Type) where
  | idle
  /-- `storage.get_executions`. -/
  | listing (offset : Nat) (stale : List (StoredRun ι))
  | listed (offset : Nat) (stale items : List (StoredRun ι)) (total : Nat)
  /-- `storage.save_execution` of the first. -/
  | saving (runs : List (StoredRun ι))
  | saved (rest : List (StoredRun ι))
  | done

/-- The store, with the details of its executions, the next id (`uuid4`), the attempts of this process, and the
recovery: the jobs it has still to go through, the first of which it is at. -/
structure RecoveryState (ι : Type) where
  store : ExecutionStore ι
  details : Nat → ExecutionDetails
  next : Nat
  attempts : List (RunningAttempt ι)
  jobs : List ι
  phase : RecoveryPhase ι

/-- The `limit` of a page. -/
def recoveryPageSize : Nat := 100

/-- The ids of runs. -/
def storedRunIds (runs : List (StoredRun ι)) : List Nat := runs.map fun run => run.1.id

namespace RecoveryState

/-- The store as earlier processes left it. -/
def start (store : ExecutionStore ι) (details : Nat → ExecutionDetails) : RecoveryState ι :=
  ⟨store, details, store.freshId, [], [], .idle⟩

variable (s : RecoveryState ι)

/-- `get_execution`. -/
def record (id : Nat) : Option (StoredRun ι) := (s.store.get? id).map fun r => (r, s.details id)

/-- `save_execution`. -/
def put (run : StoredRun ι) (position : Nat) : RecoveryState ι :=
  { s with store := s.store.save run.1 position, details := Function.update s.details run.1.id run.2 }

/-- `delete_execution`. -/
def remove (id : Nat) : RecoveryState ι := { s with store := s.store.remove id }

/-- `running_execution_ids`. -/
def runningIds (job : ι) : List Nat := (s.attempts.filter (·.job = job)).map (·.id)

/-- The records that `get_executions` pages through with the status `running`. -/
def listing (job : ι) : List (Execution ι) := s.store.records.filter fun r => r.job = job && r.status = none

/-- On to the next job. -/
def nextJob (jobs : List ι) : RecoveryState ι :=
  match jobs with
  | [] => { s with jobs := [], phase := .done }
  | job :: jobs => { s with jobs := job :: jobs, phase := .listing 0 [] }

/-- On to the next save. -/
def saveNext (jobs : List ι) (runs : List (StoredRun ι)) : RecoveryState ι :=
  match runs with
  | [] => s.nextJob jobs
  | runs => { s with phase := .saving runs }

/-- An attempt goes on to a stage. -/
def goTo (i : Nat) (stage : AttemptStage) : RecoveryState ι :=
  { s with attempts := s.attempts.modify i fun attempt => { attempt with stage := stage } }

end RecoveryState

/-- The steps of the attempts, of a call that deletes, and of the recovery. -/
inductive RecoveryAction (ι : Type) where
  /-- `_execute_attempt` begins. -/
  | begin (job : ι) (startedAt : DateTime)
  | saveStarted (attempt position : Nat)
  /-- The effect of `_save_finished`: the attempt saves its execution, or deletes it. -/
  | finish (attempt position : Nat) (status : ExecutionStatus) (details : ExecutionDetails)
  | discard (attempt : Nat)
  /-- `run.execution_id = None`. -/
  | release (attempt : Nat)
  /-- The task of the run is cancelled where nothing handles it. -/
  | cutOff (attempt : Nat)
  /-- Someone deletes an execution. -/
  | delete (id : Nat)
  | start
  | list
  | resume
  | save (position : Nat)

open RecoveryState in
/-- One step; `none`: it is not possible. -/
def recoveryStep (registered : List ι) (s : RecoveryState ι) : RecoveryAction ι → Option (RecoveryState ι)
  | .begin job startedAt => some
    { s with next := s.next + 1, attempts := ⟨job, s.next, startedAt, .saving⟩ :: s.attempts }
  | .saveStarted i position =>
    match s.attempts[i]? with
    | some ⟨job, id, startedAt, .saving⟩ =>
      some ((s.put (⟨id, job, none⟩, { startedAt := startedAt }) position).goTo i .running)
    | _ => none
  | .finish i position status details =>
    match s.attempts[i]? with
    | some ⟨job, id, _, .running⟩ => some ((s.put (⟨id, job, some status⟩, details) position).goTo i .finished)
    | _ => none
  | .discard i =>
    match s.attempts[i]? with
    | some ⟨_, id, _, .running⟩ => some ((s.remove id).goTo i .finished)
    | _ => none
  | .release i =>
    match s.attempts[i]? with
    | some ⟨_, _, _, .finished⟩ => some { s with attempts := s.attempts.eraseIdx i }
    | _ => none
  | .cutOff i => if i < s.attempts.length then some { s with attempts := s.attempts.eraseIdx i } else none
  | .delete id =>
    match s.store.get? id with
    | none => some s
    | some r => if r.status = none ∨ r.id ∈ s.runningIds r.job then none else some (s.remove id)
  | .start =>
    match s.phase with
    | .idle => some (s.nextJob registered)
    | _ => none
  | .list =>
    match s.jobs, s.phase with
    | job :: _, .listing offset stale =>
      let all := s.listing job
      let items := (all.drop offset).take recoveryPageSize
      some { s with phase := .listed offset stale (items.map fun r => (r, s.details r.id)) all.length }
    | _, _ => none
  | .resume =>
    match s.jobs, s.phase with
    | job :: jobs, .listed offset stale items total =>
      let stale := stale ++ items.filter fun run => run.1.status = none
      let offset := offset + items.length
      if items.isEmpty ∨ total ≤ offset then
        let ours := s.runningIds job
        some (s.saveNext jobs (stale.filter fun run => run.1.id ∉ ours))
      else some { s with phase := .listing offset stale }
    | _ :: jobs, .saved rest => some (s.saveNext jobs rest)
    | _, _ => none
  | .save position =>
    match s.phase with
    | .saving (run :: rest) => some { s.put run.cancel position with phase := .saved rest }
    | _ => none

/-! ### When it goes right -/

/-- The runs it has listed, or has still to save. -/
def RecoveryPhase.runs : RecoveryPhase ι → List (StoredRun ι)
  | .listing _ stale => stale
  | .listed _ stale items _ => stale ++ items
  | .saving runs => runs
  | .saved rest => rest
  | .idle | .done => []

/-- Where the next page begins, when one is to come. -/
def RecoveryPhase.nextPage : RecoveryPhase ι → Option Nat
  | .listing offset _ => some offset
  | .listed offset _ items total =>
    if items.isEmpty ∨ total ≤ offset + items.length then none else some (offset + items.length)
  | _ => none

/-- When this running execution leaves the listing, the one that is first on the next page moves to a page that was
read, and it belongs to no attempt. -/
def RecoveryState.Skips (s : RecoveryState ι) (id : Nat) : Prop :=
  ∃ job n r, s.jobs.head? = some job ∧ s.phase.nextPage = some n ∧ id ∈ executionIds ((s.listing job).take n) ∧
    (s.listing job)[n]? = some r ∧ r.id ∉ s.runningIds job

/-- No own attempt that was listed stops being current before the recovery looks at them, or is cut off and leaves its
execution running; none that ends makes the listing skip an execution; nobody deletes an execution that the recovery
has still to save. -/
def LeavesAlone (s : RecoveryState ι) : RecoveryAction ι → Prop
  | .finish i _ _ _ | .discard i => ∀ attempt, s.attempts[i]? = some attempt → ¬ s.Skips attempt.id
  | .release i => ∀ attempt, s.attempts[i]? = some attempt → attempt.id ∉ storedRunIds s.phase.runs
  | .cutOff i => ∀ attempt, s.attempts[i]? = some attempt →
      attempt.id ∉ storedRunIds s.phase.runs ∧ ∀ run, s.record attempt.id = some run → run.1.status ≠ none
  | .delete id => id ∉ storedRunIds s.phase.runs
  | _ => True

/-! ### The times -/

private theorem foldl_max_isGreatest (times : List ℤ) (first : ℤ) :
    IsGreatest (insert first {t | t ∈ times}) (times.foldl max first) := by
  induction times generalizing first with
  | nil => exact ⟨Set.mem_insert _ _, fun t ht => ht.elim le_of_eq fun hmem => absurd hmem List.not_mem_nil⟩
  | cons time times ih =>
    obtain ⟨hmem, hle⟩ := ih (max first time)
    have hfirst : max first time ≤ times.foldl max (max first time) := hle (Set.mem_insert _ _)
    rw [List.foldl_cons]
    constructor
    · rcases hmem with heq | hmem
      · rw [heq]
        rcases max_choice first time with h | h
        · exact .inl h
        · rw [h]
          exact .inr List.mem_cons_self
      · exact .inr (List.mem_cons_of_mem _ hmem)
    · rintro t (rfl | ht)
      · exact (le_max_left _ _).trans hfirst
      · rcases List.mem_cons.1 ht with rfl | ht
        · exact (le_max_right _ _).trans hfirst
        · exact hle (Set.mem_insert_of_mem _ ht)

/-- The end is the latest of the start and the log entries' times. -/
private theorem ended_isGreatest (details : ExecutionDetails) :
    IsGreatest (insert (asUtc details.startedAt) {t | t ∈ details.logs.map asUtc}) details.ended :=
  foldl_max_isGreatest _ _

/-- The milliseconds are rounded; the doubles they come from add less than one part in `2 ^ 51`. -/
private theorem abs_milliseconds_sub_le (elapsed : ℤ) :
    |(1000 * milliseconds elapsed - elapsed : ℚ)| ≤ 500 + |(elapsed : ℚ)| / 2 ^ 51 := by
  set seconds : ℚ := elapsed / 10 ^ 6 with hseconds
  have helapsed : (elapsed : ℚ) = 10 ^ 6 * seconds := by rw [hseconds]; ring
  have hfirst : |Double.double seconds - seconds| ≤ |seconds| / 2 ^ 53 := Double.abs_double_sub_le seconds
  have hsecond := Double.abs_double_sub_le (Double.double seconds * 1000)
  have hround := Double.abs_roundEven_sub_le (Double.double (Double.double seconds * 1000))
  have hsize : |Double.double seconds| ≤ 2 * |seconds| := by
    have htriangle : |Double.double seconds| ≤ |Double.double seconds - seconds| + |seconds| := by
      simpa using abs_add_le (Double.double seconds - seconds) seconds
    have hnonneg := abs_nonneg seconds
    linarith
  rw [abs_mul, abs_of_pos (by norm_num : (0 : ℚ) < 1000)] at hsecond
  rw [helapsed, abs_mul, abs_of_pos (by norm_num : (0 : ℚ) < 10 ^ 6), milliseconds, ← hseconds]
  rw [abs_le] at hfirst hsecond hround ⊢
  constructor <;> linarith

/-! ### The store -/

omit [DecidableEq ι] in
theorem get?_eq_some {store : ExecutionStore ι} {id : Nat} {r : Execution ι} :
    store.get? id = some r ↔ r ∈ store.records ∧ r.id = id := by
  have hfound : ∀ r, store.get? id = some r → r ∈ store.records ∧ r.id = id := by
    intro r h
    rw [ExecutionStore.get?] at h
    have hid := List.find?_some h
    exact ⟨List.mem_of_find?_eq_some h, of_decide_eq_true hid⟩
  refine ⟨hfound r, ?_⟩
  rintro ⟨hmem, hid⟩
  cases h : store.get? id with
  | none => exact absurd (decide_eq_true hid) (List.find?_eq_none.1 h r hmem)
  | some r' =>
    obtain ⟨hmem', hid'⟩ := hfound r' h
    rw [List.inj_on_of_nodup_map store.nodup hmem' hmem (hid'.trans hid.symm)]

omit [DecidableEq ι] in
private theorem mem_records_save {store : ExecutionStore ι} {execution r : Execution ι} {position : Nat} :
    r ∈ (store.save execution position).records ↔ r = execution ∨ (r ∈ store.records ∧ r.id ≠ execution.id) := by
  unfold ExecutionStore.save
  split
  · next hids =>
    obtain ⟨old, hold, hid⟩ := List.mem_map.1 hids
    constructor
    · intro h
      obtain ⟨r', hr', rfl⟩ := List.mem_map.1 h
      split
      · exact .inl rfl
      · next hne => exact .inr ⟨hr', hne⟩
    · rintro (rfl | ⟨hr, hne⟩)
      · exact List.mem_map.2 ⟨old, hold, if_pos hid⟩
      · exact List.mem_map.2 ⟨r, hr, if_neg hne⟩
  · next hnew =>
    have hsplit : r ∈ store.records ↔ r ∈ store.records.take position ∨ r ∈ store.records.drop position := by
      rw [← List.mem_append, List.take_append_drop]
    have hne : r ∈ store.records → r.id ≠ execution.id := fun hr hid => hnew (hid ▸ List.mem_map_of_mem hr)
    rw [List.mem_append, List.mem_cons]
    tauto

section Store

variable {s : RecoveryState ι} {run : StoredRun ι} {id position : Nat}

omit [DecidableEq ι] in
private theorem record_eq_some :
    s.record id = some run ↔ run.1 ∈ s.store.records ∧ run.1.id = id ∧ run.2 = s.details id := by
  constructor
  · intro h
    obtain ⟨r, hr, rfl⟩ := Option.map_eq_some_iff.1 h
    obtain ⟨hmem, hid⟩ := get?_eq_some.1 hr
    exact ⟨hmem, hid, rfl⟩
  · rintro ⟨hmem, hid, hdetails⟩
    rw [RecoveryState.record, get?_eq_some.2 ⟨hmem, hid⟩, Option.map_some, ← hdetails]

omit [DecidableEq ι] in
private theorem record_of_mem {r : Execution ι} (h : r ∈ s.store.records) : s.record r.id = some (r, s.details r.id) :=
  record_eq_some.2 ⟨h, rfl, rfl⟩

omit [DecidableEq ι] in
private theorem record_put_self : (s.put run position).record run.1.id = some run :=
  record_eq_some.2 ⟨mem_records_save.2 (.inl rfl), rfl, (Function.update_self run.1.id run.2 s.details).symm⟩

omit [DecidableEq ι] in
private theorem record_put_of_ne (h : id ≠ run.1.id) : (s.put run position).record id = s.record id := by
  ext found
  rw [record_eq_some, record_eq_some]
  show (found.1 ∈ (s.store.save run.1 position).records ∧ found.1.id = id ∧
    found.2 = Function.update s.details run.1.id run.2 id) ↔ _
  rw [mem_records_save, Function.update_of_ne h]
  constructor
  · rintro ⟨heq | ⟨hmem, -⟩, hid, hdetails⟩
    · exact absurd (hid.symm.trans (congrArg Execution.id heq)) h
    · exact ⟨hmem, hid, hdetails⟩
  · rintro ⟨hmem, hid, hdetails⟩
    exact ⟨.inr ⟨hmem, fun heq => h (hid ▸ heq)⟩, hid, hdetails⟩

omit [DecidableEq ι] in
private theorem record_remove_self : (s.remove id).record id = none := by
  rw [Option.eq_none_iff_forall_ne_some]
  intro found h
  obtain ⟨hmem, hid, -⟩ := record_eq_some.1 h
  have hne := (List.mem_filter.1 hmem).2
  exact of_decide_eq_true hne hid

omit [DecidableEq ι] in
private theorem record_remove_of_ne {gone : Nat} (h : id ≠ gone) : (s.remove gone).record id = s.record id := by
  ext found
  rw [record_eq_some, record_eq_some]
  show (found.1 ∈ s.store.records.filter (·.id ≠ gone) ∧ _) ↔ _
  rw [List.mem_filter]
  constructor
  · rintro ⟨⟨hmem, -⟩, hrest⟩
    exact ⟨hmem, hrest⟩
  · rintro ⟨hmem, hid, hdetails⟩
    exact ⟨⟨hmem, decide_eq_true (hid ▸ h)⟩, hid, hdetails⟩

/-! ### The listing -/

variable {job : ι}

theorem mem_listing {r : Execution ι} : r ∈ s.listing job ↔ r ∈ s.store.records ∧ r.job = job ∧ r.status = none := by
  simp [RecoveryState.listing]

private theorem listing_put_new (h : run.1.id ∉ s.store.ids) :
    (s.listing job).Sublist ((s.put run position).listing job) := by
  have hrecords : (s.put run position).store.records =
      s.store.records.take position ++ run.1 :: s.store.records.drop position := by
    show (s.store.save run.1 position).records = _
    rw [ExecutionStore.save, dif_neg h]
  have hsub : s.store.records.Sublist (s.store.records.take position ++ run.1 :: s.store.records.drop position) := by
    conv_lhs => rw [← List.take_append_drop position s.store.records]
    exact List.Sublist.append_left (List.sublist_cons_self _ _) _
  rw [RecoveryState.listing, RecoveryState.listing, hrecords]
  exact hsub.filter _

private theorem listing_put_ended (h : run.1.status ≠ none) :
    (s.put run position).listing job = (s.listing job).filter (·.id ≠ run.1.id) := by
  rw [RecoveryState.listing, RecoveryState.listing, List.filter_filter]
  show (s.store.save run.1 position).records.filter _ = _
  unfold ExecutionStore.save
  split
  · have hfilter : s.store.records.filter ((fun r => decide (r.job = job) && decide (r.status = none)) ∘
        fun r => if r.id = run.1.id then run.1 else r) =
        s.store.records.filter fun r =>
          decide (r.id ≠ run.1.id) && (decide (r.job = job) && decide (r.status = none)) := by
      refine List.filter_congr fun r _ => ?_
      rw [Function.comp_apply]
      split
      · next hid => simp [h, hid]
      · next hid => simp [hid]
    rw [List.filter_map, hfilter]
    refine (List.map_congr_left fun r hr => ?_).trans (List.map_id _)
    have hne := (List.mem_filter.1 hr).2
    rw [Bool.and_eq_true] at hne
    exact if_neg (of_decide_eq_true hne.1)
  · next hnew =>
    have hend : ¬ (decide (run.1.job = job) && decide (run.1.status = none)) = true := by simp [h]
    have hrun : (run.1 :: s.store.records.drop position).filter
        (fun r => decide (r.job = job) && decide (r.status = none)) = (s.store.records.drop position).filter
        (fun r => decide (r.job = job) && decide (r.status = none)) := List.filter_cons_of_neg hend
    rw [List.filter_append, hrun, ← List.filter_append, List.take_append_drop]
    refine List.filter_congr fun r hr => ?_
    have hne : r.id ≠ run.1.id := fun hid => hnew (hid ▸ List.mem_map_of_mem hr)
    rw [decide_eq_true hne, Bool.true_and]

private theorem listing_remove_eq : (s.remove id).listing job = (s.listing job).filter (·.id ≠ id) := by
  show (s.store.records.filter _).filter _ = (s.store.records.filter _).filter _
  rw [List.filter_filter, List.filter_filter]
  exact List.filter_congr fun r _ => Bool.and_comm _ _

/-- When a running execution leaves the listing, only the first one of the pages to come can be skipped. -/
private theorem mem_drop_listing_ended {gone n : Nat} {r : Execution ι} (hr : r ∈ (s.listing job).drop n)
    (hne : r.id ≠ gone)
    (hfirst : gone ∈ executionIds ((s.listing job).take n) → (s.listing job)[n]? ≠ some r) :
    r ∈ ((s.listing job).filter (·.id ≠ gone)).drop n :=
  Paging.mem_drop_filter_ne (s.store.nodup.sublist (List.filter_sublist.map _)) hr hne hfirst

end Store

/-! ### What the others do -/

/-- The executions of this process from `first` on, and its attempts. -/
structure OwnAttempts (first : Nat) (s : RecoveryState ι) : Prop where
  fresh : ∀ r ∈ s.store.records, r.id < s.next
  grown : first ≤ s.next
  distinct : (s.attempts.map (·.id)).Nodup
  own : ∀ attempt ∈ s.attempts, first ≤ attempt.id ∧ attempt.id < s.next
  unsaved : ∀ attempt ∈ s.attempts, attempt.stage = .saving → ∀ r ∈ s.store.records, r.id ≠ attempt.id
  running : ∀ r ∈ s.store.records, first ≤ r.id → r.status = none →
    ∃ attempt ∈ s.attempts, attempt.id = r.id ∧ attempt.job = r.job ∧ attempt.stage = .running

/-- A step beside the recovery: it keeps the interrupted executions of the pages to come, and leaves alone the
executions that the recovery has listed. -/
structure Beside (first : Nat) (s s' : RecoveryState ι) : Prop where
  phase : s'.phase = s.phase
  jobs : s'.jobs = s.jobs
  old : ∀ id < first, s'.record id = s.record id ∨ (s'.record id = none ∧ id ∉ storedRunIds s.phase.runs)
  due : ∀ job n, s.jobs.head? = some job → s.phase.nextPage = some n → ∀ r ∈ (s.listing job).drop n, r.id < first →
    r ∈ (s'.listing job).drop n
  own : ∀ attempt ∈ s.attempts, attempt.id ∈ storedRunIds s.phase.runs →
    ∃ attempt' ∈ s'.attempts, attempt'.id = attempt.id ∧ attempt'.job = attempt.job

section Attempts

variable {first i : Nat} {s s' : RecoveryState ι} {attempt : RunningAttempt ι}

omit [DecidableEq ι] in
private theorem attempts_split (h : s.attempts[i]? = some attempt) (stage : AttemptStage) :
    ∃ before after, s.attempts = before ++ attempt :: after ∧
      (s.goTo i stage).attempts = before ++ { attempt with stage := stage } :: after ∧
      s.attempts.eraseIdx i = before ++ after := by
  obtain ⟨hi, hget⟩ := List.getElem?_eq_some_iff.1 h
  obtain ⟨before, other, after, hsplit, hlength, hmodify⟩ := List.exists_of_modify
    (fun attempt : RunningAttempt ι => { attempt with stage := stage }) hi
  obtain rfl : other = attempt := by
    rw [hsplit, ← hlength, List.getElem?_append_right (Nat.le_refl _)] at h
    simpa using h
  refine ⟨before, after, hsplit, hmodify, ?_⟩
  rw [hsplit, List.eraseIdx_append_of_length_le hlength.le, hlength, Nat.sub_self]
  rfl

omit [DecidableEq ι] in
/-- A step at an execution of an own attempt. -/
private theorem OwnAttempts.at_own (h : OwnAttempts first s) {before after : List (RunningAttempt ι)}
    {stage : AttemptStage}
    (hbefore : s.attempts = before ++ attempt :: after)
    (hafter : s'.attempts = before ++ { attempt with stage := stage } :: after) (hnext : s'.next = s.next)
    (hstage : stage ≠ .saving)
    (hrecords : ∀ r ∈ s'.store.records, (r ∈ s.store.records ∧ r.id ≠ attempt.id) ∨
      (r.id = attempt.id ∧ r.job = attempt.job ∧ (r.status = none → stage = .running))) : OwnAttempts first s' := by
  have hmem : attempt ∈ s.attempts := hbefore ▸ List.mem_append_right _ List.mem_cons_self
  have hothers : ∀ other, other ∈ before ∨ other ∈ after → other ∈ s.attempts ∧ other.id ≠ attempt.id := by
    intro other hother
    have hdistinct := h.distinct
    rw [hbefore, List.map_append, List.map_cons, List.nodup_middle, List.nodup_cons, ← List.map_append] at hdistinct
    refine ⟨?_, fun hid => hdistinct.1 (hid ▸ List.mem_map_of_mem (List.mem_append.2 hother))⟩
    rw [hbefore]
    rcases hother with hother | hother
    · exact List.mem_append_left _ hother
    · exact List.mem_append_right _ (List.mem_cons_of_mem _ hother)
  have hids : s'.attempts.map (·.id) = s.attempts.map (·.id) := by simp [hbefore, hafter]
  have hcases : ∀ attempt' ∈ s'.attempts, attempt' = { attempt with stage := stage } ∨
      (attempt' ∈ s.attempts ∧ attempt'.id ≠ attempt.id) := by
    intro attempt' hmem'
    rw [hafter, List.mem_append, List.mem_cons] at hmem'
    rcases hmem' with hmem' | rfl | hmem'
    · exact .inr (hothers _ (.inl hmem'))
    · exact .inl rfl
    · exact .inr (hothers _ (.inr hmem'))
  refine ⟨fun r hr => ?_, hnext ▸ h.grown, hids ▸ h.distinct, fun attempt' hattempt' => ?_,
    fun attempt' hattempt' hsaving r hr => ?_, fun r hr hfirst hrunning => ?_⟩
  · rw [hnext]
    rcases hrecords r hr with ⟨hold, -⟩ | ⟨hid, -⟩
    · exact h.fresh r hold
    · exact hid ▸ (h.own attempt hmem).2
  · rw [hnext]
    rcases hcases attempt' hattempt' with rfl | ⟨hold, -⟩
    · exact h.own attempt hmem
    · exact h.own attempt' hold
  · rcases hcases attempt' hattempt' with rfl | ⟨hold, hne⟩
    · exact absurd hsaving hstage
    · rcases hrecords r hr with ⟨hr, -⟩ | ⟨hid, -⟩
      · exact h.unsaved attempt' hold hsaving r hr
      · exact fun heq => hne (heq.symm.trans hid)
  · rcases hrecords r hr with ⟨hr, hne⟩ | ⟨hid, hjob, hstatus⟩
    · obtain ⟨other, hother, hid, hjob, hrun⟩ := h.running r hr hfirst hrunning
      refine ⟨other, ?_, hid, hjob, hrun⟩
      rw [hbefore, List.mem_append, List.mem_cons] at hother
      rw [hafter, List.mem_append, List.mem_cons]
      rcases hother with hother | rfl | hother
      · exact .inl hother
      · exact absurd hid.symm hne
      · exact .inr (.inr hother)
    · refine ⟨{ attempt with stage := stage }, ?_, hid.symm, hjob.symm, hstatus hrunning⟩
      rw [hafter]
      exact List.mem_append_right _ List.mem_cons_self

omit [DecidableEq ι] in
/-- An own attempt is over, and its execution does not stay behind as running. -/
theorem OwnAttempts.drop (h : OwnAttempts first s) {before after : List (RunningAttempt ι)}
    (hbefore : s.attempts = before ++ attempt :: after)
    (hended : ∀ r ∈ s.store.records, r.id = attempt.id → r.status ≠ none) :
    OwnAttempts first { s with attempts := before ++ after } := by
  have hsub : (before ++ after).Sublist s.attempts := by
    rw [hbefore]
    exact List.Sublist.append_left (List.sublist_cons_self _ _) _
  refine ⟨h.fresh, h.grown, h.distinct.sublist (hsub.map _), fun other hother => h.own other (hsub.subset hother),
    fun other hother => h.unsaved other (hsub.subset hother), fun r hr hfirst hrunning => ?_⟩
  obtain ⟨other, hother, hid, hjob, hrun⟩ := h.running r hr hfirst hrunning
  refine ⟨other, ?_, hid, hjob, hrun⟩
  rw [hbefore, List.mem_append, List.mem_cons] at hother
  rw [List.mem_append]
  rcases hother with hother | rfl | hother
  · exact .inl hother
  · exact absurd hrunning (hended r hr hid.symm)
  · exact .inr hother

omit [DecidableEq ι] in
/-- The attempts are as they were, and no execution runs that did not. -/
private theorem OwnAttempts.of_records (h : OwnAttempts first s) (hattempts : s'.attempts = s.attempts)
    (hnext : s'.next = s.next)
    (hrecords : ∀ r ∈ s'.store.records, r ∈ s.store.records ∨
     (r.status ≠ none ∧ ∃ r' ∈ s.store.records, r'.id = r.id)) :
    OwnAttempts first s' := by
  have hids : ∀ r ∈ s'.store.records, ∃ r' ∈ s.store.records, r'.id = r.id := by
    intro r hr
    rcases hrecords r hr with hr | ⟨-, hsame⟩
    · exact ⟨r, hr, rfl⟩
    · exact hsame
  refine ⟨fun r hr => ?_, hnext ▸ h.grown, hattempts ▸ h.distinct, fun attempt hmem => ?_,
    fun attempt hmem hsaving r hr => ?_, fun r hr hfirst hrunning => ?_⟩
  · obtain ⟨r', hr', hid⟩ := hids r hr
    rw [hnext, ← hid]
    exact h.fresh r' hr'
  · rw [hnext]
    exact h.own attempt (hattempts ▸ hmem)
  · obtain ⟨r', hr', hid⟩ := hids r hr
    rw [← hid]
    exact h.unsaved attempt (hattempts ▸ hmem) hsaving r' hr'
  · rcases hrecords r hr with hr | ⟨hended, -⟩
    · rw [hattempts]
      exact h.running r hr hfirst hrunning
    · exact absurd hrunning hended

private theorem mem_runningIds_iff {job : ι} {id : Nat} :
    id ∈ s.runningIds job ↔ ∃ attempt ∈ s.attempts, attempt.job = job ∧ attempt.id = id := by
  simp [RecoveryState.runningIds, and_assoc]

/-- A step at an execution of an own attempt is beside the recovery. -/
private theorem Beside.at_own (h : OwnAttempts first s) {before after : List (RunningAttempt ι)} {stage : AttemptStage}
    (hbefore : s.attempts = before ++ attempt :: after)
    (hafter : s'.attempts = before ++ { attempt with stage := stage } :: after) (hphase : s'.phase = s.phase)
    (hjobs : s'.jobs = s.jobs) (hrecord : ∀ id, id ≠ attempt.id → s'.record id = s.record id)
    (hdue : ∀ job n, s.jobs.head? = some job → s.phase.nextPage = some n → ∀ r ∈ (s.listing job).drop n, r.id < first →
      r ∈ (s'.listing job).drop n) : Beside first s s' := by
  have hmem : attempt ∈ s.attempts := hbefore ▸ List.mem_append_right _ List.mem_cons_self
  refine ⟨hphase, hjobs, fun id hid => .inl (hrecord id ?_), hdue, fun other hother _ => ?_⟩
  · have hown := (h.own attempt hmem).1
    omega
  · rw [hbefore, List.mem_append, List.mem_cons] at hother
    rw [hafter]
    rcases hother with hother | rfl | hother
    · exact ⟨other, List.mem_append_left _ hother, rfl, rfl⟩
    · exact ⟨_, List.mem_append_right _ List.mem_cons_self, rfl, rfl⟩
    · exact ⟨other, List.mem_append_right _ (List.mem_cons_of_mem _ hother), rfl, rfl⟩

/-- The end of an own attempt skips no interrupted execution. -/
private theorem mem_drop_of_not_skips (h : OwnAttempts first s) {gone : Nat} (hskips : ¬ s.Skips gone) {job : ι}
    {n : Nat}
    (hjob : s.jobs.head? = some job) (hpage : s.phase.nextPage = some n) {r : Execution ι}
    (hr : r ∈ (s.listing job).drop n) (hold : r.id < first) (hne : r.id ≠ gone) :
    r ∈ ((s.listing job).filter (·.id ≠ gone)).drop n := by
  refine mem_drop_listing_ended hr hne fun hread hnext => hskips ⟨job, n, r, hjob, hpage, hread, hnext, fun hours => ?_⟩
  obtain ⟨attempt, hmem, -, hid⟩ := mem_runningIds_iff.1 hours
  have hown := (h.own attempt hmem).1
  omega

end Attempts

section Steps

variable {registered : List ι} {first i id position : Nat} {s s' : RecoveryState ι} {attempt : RunningAttempt ι}
    {job : ι} {startedAt : DateTime} {stage : AttemptStage}

/-- The steps of the attempts and the calls that delete. -/
def RecoveryAction.isOthers : RecoveryAction ι → Bool
  | .start | .list | .resume | .save _ => false
  | _ => true

omit [DecidableEq ι] in
private theorem begin_others (h : OwnAttempts first s) (job : ι) (startedAt : DateTime) :
    OwnAttempts first { s with next := s.next + 1, attempts := ⟨job, s.next, startedAt, .saving⟩ :: s.attempts } := by
  refine ⟨fun r hr => (h.fresh r hr).trans (Nat.lt_succ_self _), h.grown.trans (Nat.le_succ _), ?_, ?_, ?_, ?_⟩
  · refine List.nodup_cons.2 ⟨fun hmem => ?_, h.distinct⟩
    obtain ⟨attempt, hattempt, hid⟩ := List.mem_map.1 hmem
    have hlt := (h.own attempt hattempt).2
    have heq : attempt.id = s.next := hid
    omega
  · intro attempt hmem
    rcases List.mem_cons.1 hmem with rfl | hmem
    · exact ⟨h.grown, Nat.lt_succ_self _⟩
    · have hown := h.own attempt hmem
      exact ⟨hown.1, hown.2.trans (Nat.lt_succ_self _)⟩
  · intro attempt hmem hsaving r hr
    rcases List.mem_cons.1 hmem with rfl | hmem
    · exact (h.fresh r hr).ne
    · exact h.unsaved attempt hmem hsaving r hr
  · intro r hr hfirst hrunning
    obtain ⟨attempt, hmem, hrest⟩ := h.running r hr hfirst hrunning
    exact ⟨attempt, List.mem_cons_of_mem _ hmem, hrest⟩

private theorem saveStarted_others (h : OwnAttempts first s)
    (hget : s.attempts[i]? = some ⟨job, id, startedAt, .saving⟩)
    (details : ExecutionDetails) (position : Nat) :
    OwnAttempts first ((s.put (⟨id, job, none⟩, details) position).goTo i .running) ∧
      Beside first s ((s.put (⟨id, job, none⟩, details) position).goTo i .running) := by
  obtain ⟨before, after, hbefore, hafter, -⟩ := attempts_split hget .running
  have hnew : id ∉ s.store.ids := by
    intro hid
    obtain ⟨r, hr, hid⟩ := List.mem_map.1 hid
    exact h.unsaved _ (List.mem_of_getElem? hget) rfl r hr hid
  refine ⟨h.at_own hbefore hafter rfl (by decide) fun r hr => ?_,
    .at_own h hbefore hafter rfl rfl (fun other hother => record_put_of_ne hother) fun job' n _ _ r hr _ =>
      Paging.mem_drop_of_sublist (listing_put_new hnew) hr⟩
  rcases mem_records_save.1 hr with rfl | hr
  · exact .inr ⟨rfl, rfl, fun _ => rfl⟩
  · exact .inl hr

private theorem finish_others (h : OwnAttempts first s) (hget : s.attempts[i]? = some ⟨job, id, startedAt, stage⟩)
    (hskips : ¬ s.Skips id) (status : ExecutionStatus) (details : ExecutionDetails) (position : Nat) :
    OwnAttempts first ((s.put (⟨id, job, some status⟩, details) position).goTo i .finished) ∧
      Beside first s ((s.put (⟨id, job, some status⟩, details) position).goTo i .finished) := by
  obtain ⟨before, after, hbefore, hafter, -⟩ := attempts_split hget .finished
  have hown := (h.own _ (List.mem_of_getElem? hget)).1
  refine ⟨h.at_own hbefore hafter rfl (by decide) fun r hr => ?_,
    .at_own h hbefore hafter rfl rfl (fun other hother => record_put_of_ne hother) fun job' n hjob hpage r hr hold => ?_⟩
  · rcases mem_records_save.1 hr with rfl | hr
    · exact .inr ⟨rfl, rfl, fun hstatus => absurd hstatus (Option.some_ne_none _)⟩
    · exact .inl hr
  · have hlisting : (s.put (⟨id, job, some status⟩, details) position).listing job' =
        (s.listing job').filter (·.id ≠ id) := listing_put_ended (Option.some_ne_none _)
    show r ∈ ((s.put (⟨id, job, some status⟩, details) position).listing job').drop n
    rw [hlisting]
    exact mem_drop_of_not_skips h hskips hjob hpage hr hold (hold.trans_le hown).ne

private theorem discard_others (h : OwnAttempts first s) (hget : s.attempts[i]? = some ⟨job, id, startedAt, stage⟩)
    (hskips : ¬ s.Skips id) :
    OwnAttempts first ((s.remove id).goTo i .finished) ∧ Beside first s ((s.remove id).goTo i .finished) := by
  obtain ⟨before, after, hbefore, hafter, -⟩ := attempts_split hget .finished
  have hown := (h.own _ (List.mem_of_getElem? hget)).1
  refine ⟨h.at_own hbefore hafter rfl (by decide) fun r hr => ?_,
    .at_own h hbefore hafter rfl rfl (fun other hother => record_remove_of_ne hother) fun job' n hjob hpage r hr
    hold => ?_⟩
  · obtain ⟨hr, hother⟩ := List.mem_filter.1 hr
    exact .inl ⟨hr, of_decide_eq_true hother⟩
  · show r ∈ ((s.remove id).listing job').drop n
    rw [listing_remove_eq]
    exact mem_drop_of_not_skips h hskips hjob hpage hr hold (hold.trans_le hown).ne

private theorem eraseIdx_others (h : OwnAttempts first s) (hget : s.attempts[i]? = some attempt)
    (hlisted : attempt.id ∉ storedRunIds s.phase.runs)
    (hended : ∀ r ∈ s.store.records, r.id = attempt.id → r.status ≠ none) :
    OwnAttempts first { s with attempts := s.attempts.eraseIdx i } ∧
      Beside first s { s with attempts := s.attempts.eraseIdx i } := by
  obtain ⟨before, after, hbefore, -, herase⟩ := attempts_split hget .finished
  rw [herase]
  refine ⟨h.drop hbefore hended, rfl, rfl, fun _ _ => .inl rfl, fun _ _ _ _ _ hr _ => hr, fun other hother hmem => ?_⟩
  refine ⟨other, ?_, rfl, rfl⟩
  rw [hbefore, List.mem_append, List.mem_cons] at hother
  rw [List.mem_append]
  rcases hother with hother | rfl | hother
  · exact .inl hother
  · exact absurd hmem hlisted
  · exact .inr hother

omit [DecidableEq ι] in
/-- The execution of an attempt that is past its last save does not run. -/
private theorem ended_of_finished (h : OwnAttempts first s) (hmem : attempt ∈ s.attempts)
    (hstage : attempt.stage = .finished) :
    ∀ r ∈ s.store.records, r.id = attempt.id → r.status ≠ none := by
  intro r hr hid hrunning
  obtain ⟨other, hother, hother_id, -, hrun⟩ := h.running r hr (hid ▸ (h.own attempt hmem).1) hrunning
  obtain rfl : other = attempt := List.inj_on_of_nodup_map h.distinct hother hmem (hother_id.trans hid)
  rw [hstage] at hrun
  cases hrun

private theorem delete_others (h : OwnAttempts first s) {r : Execution ι} (hr : r ∈ s.store.records)
    (hstatus : r.status ≠ none)
    (hlisted : r.id ∉ storedRunIds s.phase.runs) :
    OwnAttempts first (s.remove r.id) ∧ Beside first s (s.remove r.id) := by
  refine ⟨h.of_records rfl rfl fun other hother => .inl (List.mem_of_mem_filter hother), rfl, rfl, fun id _ => ?_,
    fun job n _ _ other hother _ => ?_, fun attempt hmem _ => ⟨attempt, hmem, rfl, rfl⟩⟩
  · by_cases hid : id = r.id
    · subst hid
      exact .inr ⟨record_remove_self, hlisted⟩
    · exact .inl (record_remove_of_ne hid)
  · have hnot : ∀ other ∈ s.listing job, other.id ≠ r.id := by
      intro other hother hid
      obtain ⟨hmem, -, hrunning⟩ := mem_listing.1 hother
      obtain rfl := List.inj_on_of_nodup_map s.store.nodup hmem hr hid
      exact hstatus hrunning
    rw [listing_remove_eq]
    refine mem_drop_listing_ended hother (hnot other (List.mem_of_mem_drop hother)) fun hread => ?_
    obtain ⟨read, hread, hid⟩ := List.mem_map.1 hread
    exact absurd hid (hnot read (List.mem_of_mem_take hread))

/-- An attempt's step, or a deletion. -/
private theorem others_step {a : RecoveryAction ι} (h : OwnAttempts first s) (ha : a.isOthers = true)
    (hg : LeavesAlone s a)
    (hst : recoveryStep registered s a = some s') : OwnAttempts first s' ∧ Beside first s s' := by
  cases a with
  | start => cases ha
  | list => cases ha
  | resume => cases ha
  | save position => cases ha
  | begin job startedAt =>
    obtain rfl := Option.some.inj hst
    exact ⟨begin_others h job startedAt, rfl, rfl, fun _ _ => .inl rfl, fun _ _ _ _ _ hr _ => hr,
      fun attempt hmem _ => ⟨attempt, List.mem_cons_of_mem _ hmem, rfl, rfl⟩⟩
  | saveStarted i position =>
    simp only [recoveryStep] at hst
    split at hst
    · next hget =>
      obtain rfl := Option.some.inj hst
      exact saveStarted_others h hget _ position
    · cases hst
  | finish i position status details =>
    simp only [recoveryStep] at hst
    split at hst
    · next hget =>
      obtain rfl := Option.some.inj hst
      exact finish_others h hget (hg _ hget) status details position
    · cases hst
  | discard i =>
    simp only [recoveryStep] at hst
    split at hst
    · next hget =>
      obtain rfl := Option.some.inj hst
      exact discard_others h hget (hg _ hget)
    · cases hst
  | release i =>
    simp only [recoveryStep] at hst
    split at hst
    · next hget =>
      obtain rfl := Option.some.inj hst
      exact eraseIdx_others h hget (hg _ hget) (ended_of_finished h (List.mem_of_getElem? hget) rfl)
    · cases hst
  | cutOff i =>
    simp only [recoveryStep] at hst
    split at hst
    · next hi =>
      obtain rfl := Option.some.inj hst
      have hget : s.attempts[i]? = some s.attempts[i] := List.getElem?_eq_getElem hi
      refine eraseIdx_others h hget (hg _ hget).1 fun r hr hid => ?_
      exact (hg _ hget).2 (r, s.details r.id) (hid ▸ record_of_mem hr)
    · cases hst
  | delete id =>
    simp only [recoveryStep] at hst
    split at hst
    · next hget =>
      obtain rfl := Option.some.inj hst
      exact ⟨h, rfl, rfl, fun _ _ => .inl rfl, fun _ _ _ _ _ hr _ => hr,
        fun attempt hmem _ => ⟨attempt, hmem, rfl, rfl⟩⟩
    · next r hget =>
      obtain ⟨hmem, rfl⟩ := get?_eq_some.1 hget
      split at hst
      · cases hst
      · next hnot =>
        obtain rfl := Option.some.inj hst
        exact delete_others h hmem (fun hrunning => hnot (.inl hrunning)) hg

end Steps

/-! ### The recovery -/

/-- It has still to look at its own attempts. -/
def RecoveryPhase.isListing : RecoveryPhase ι → Bool
  | .listing _ _ | .listed _ _ _ _ => true
  | _ => false

/-- A run that was listed: it is as the store has it, or an own attempt's. -/
structure Listed (first : Nat) (s : RecoveryState ι) (run : StoredRun ι) : Prop where
  job : s.jobs.head? = some run.1.job
  running : run.1.status = none
  old : run.1.id < first → s.record run.1.id = some run
  own : first ≤ run.1.id → ∃ attempt ∈ s.attempts, attempt.id = run.1.id ∧ attempt.job = run.1.job

/-- A run that the recovery has to save: it was running when this process began. -/
structure Interrupted (registered : List ι) (s₀ s : RecoveryState ι) (run : StoredRun ι) : Prop where
  old : run.1.id < s₀.next
  before : s₀.record run.1.id = some run
  running : run.1.status = none
  job : run.1.job ∈ registered
  now : s.record run.1.id = some run ∨ s.record run.1.id = some run.cancel

/-- What holds between the steps. -/
structure RecoveryKept (registered : List ι) (s₀ s : RecoveryState ι) : Prop where
  attempts : OwnAttempts s₀.next s
  old : ∀ id < s₀.next, ∀ run, s.record id = some run → run.1.status = none → s₀.record id = some run
  subset : ∀ job ∈ s.jobs, job ∈ registered
  outside : s.phase = .idle ∨ s.phase = .done → s.jobs = []
  waiting : ∀ r ∈ s.store.records, r.id < s₀.next → r.status = none → r.job ∈ registered →
    s.phase = .idle ∨ r.job ∈ s.jobs
  due : ∀ job, s.jobs.head? = some job → ∀ r ∈ s.listing job, r.id < s₀.next →
    r.id ∈ storedRunIds s.phase.runs ∨ ∃ n, s.phase.nextPage = some n ∧ r ∈ (s.listing job).drop n
  listed : s.phase.isListing = true → ∀ run ∈ s.phase.runs, Listed s₀.next s run
  toSave : s.phase.isListing = false → ∀ run ∈ s.phase.runs, Interrupted registered s₀ s run

section Recovery

variable {registered : List ι} {s₀ s s' : RecoveryState ι} {job : ι} {jobs : List ι} {runs : List (StoredRun ι)}

omit [DecidableEq ι] in
private theorem mem_storedRunIds {run : StoredRun ι} (h : run ∈ runs) :
    run.1.id ∈ storedRunIds runs := List.mem_map_of_mem h

/-- A step beside the recovery. -/
theorem RecoveryKept.beside (h : RecoveryKept registered s₀ s) (hown : OwnAttempts s₀.next s')
    (hbeside : Beside s₀.next s s') : RecoveryKept registered s₀ s' := by
  have hrecord : ∀ id < s₀.next, ∀ run, s'.record id = some run → s.record id = some run := by
    intro id hid run hrun
    rcases hbeside.old id hid with heq | ⟨hnone, -⟩
    · exact heq ▸ hrun
    · rw [hnone] at hrun
      cases hrun
  have hmem : ∀ r ∈ s'.store.records, r.id < s₀.next → r ∈ s.store.records := fun r hr hid =>
    (record_eq_some.1 (hrecord r.id hid _ (record_of_mem hr))).1
  have hkept : ∀ run ∈ s.phase.runs, run.1.id < s₀.next → s'.record run.1.id = s.record run.1.id := by
    intro run hrun hid
    rcases hbeside.old run.1.id hid with heq | ⟨-, hnot⟩
    · exact heq
    · exact absurd (mem_storedRunIds hrun) hnot
  refine ⟨hown, fun id hid run hrun => h.old id hid run (hrecord id hid run hrun), ?_, ?_, fun r hr hid => ?_,
    fun job hjob r hr hid => ?_, fun hlisting run hrun => ?_, fun hlisting run hrun => ?_⟩
  · rw [hbeside.jobs]
    exact h.subset
  · rw [hbeside.phase, hbeside.jobs]
    exact h.outside
  · rw [hbeside.phase, hbeside.jobs]
    exact h.waiting r (hmem r hr hid) hid
  · rw [hbeside.jobs] at hjob
    rw [hbeside.phase]
    obtain ⟨hr, hrest⟩ := mem_listing.1 hr
    refine (h.due job hjob r (mem_listing.2 ⟨hmem r hr hid, hrest⟩) hid).imp_right ?_
    rintro ⟨n, hpage, hdrop⟩
    exact ⟨n, hpage, hbeside.due job n hjob hpage r hdrop hid⟩
  · rw [hbeside.phase] at hlisting hrun
    have hrun' := h.listed hlisting run hrun
    refine ⟨hbeside.jobs ▸ hrun'.job, hrun'.running, fun hid => ?_, fun hid => ?_⟩
    · rw [hkept run hrun hid]
      exact hrun'.old hid
    · obtain ⟨attempt, hattempt, hattempt_id, hattempt_job⟩ := hrun'.own hid
      obtain ⟨attempt', hattempt', hid', hjob'⟩ := hbeside.own attempt hattempt (hattempt_id ▸ mem_storedRunIds hrun)
      exact ⟨attempt', hattempt', hid'.trans hattempt_id, hjob'.trans hattempt_job⟩
  · rw [hbeside.phase] at hlisting hrun
    have hrun' := h.toSave hlisting run hrun
    refine ⟨hrun'.old, hrun'.before, hrun'.running, hrun'.job, ?_⟩
    rw [hkept run hrun hrun'.old]
    exact hrun'.now

/-- It goes on to the next job: none of the interrupted runs are of jobs before it. -/
private theorem RecoveryKept.nextJob (h : RecoveryKept registered s₀ s) (hjobs : ∀ job ∈ jobs, job ∈ registered)
    (hwaiting : ∀ r ∈ s.store.records, r.id < s₀.next → r.status = none → r.job ∈ registered → r.job ∈ jobs) :
    RecoveryKept registered s₀ (s.nextJob jobs) := by
  cases jobs with
  | nil =>
    have hown : OwnAttempts s₀.next (s.nextJob []) := h.attempts.of_records rfl rfl fun r hr => .inl hr
    refine ⟨hown, h.old, hjobs, fun _ => rfl, fun r hr hid hrunning hjob => .inr (hwaiting r hr hid hrunning hjob),
      fun job hjob => ?_, fun _ run hrun => ?_, fun _ run hrun => ?_⟩
    · cases hjob
    · cases hrun
    · cases hrun
  | cons job jobs =>
    have hown : OwnAttempts s₀.next (s.nextJob (job :: jobs)) := h.attempts.of_records rfl rfl fun r hr => .inl hr
    refine ⟨hown, h.old, hjobs, fun hover => ?_, fun r hr hid hrunning hjob => .inr (hwaiting r hr hid hrunning hjob),
      fun job hjob r hr _ => .inr ⟨0, rfl, hr⟩, fun _ run hrun => ?_, fun _ run hrun => ?_⟩
    · rcases hover with hover | hover <;> cases hover
    · cases hrun
    · cases hrun

/-- Another phase, on the same job. -/
private theorem RecoveryKept.goTo (h : RecoveryKept registered s₀ s) (hbusy : s.phase ≠ .idle) {phase : RecoveryPhase ι}
    (hidle : phase ≠ .idle) (hdone : phase ≠ .done)
    (hdue : ∀ job, s.jobs.head? = some job → ∀ r ∈ s.listing job, r.id < s₀.next →
      r.id ∈ storedRunIds phase.runs ∨ ∃ n, phase.nextPage = some n ∧ r ∈ (s.listing job).drop n)
    (hlisted : phase.isListing = true → ∀ run ∈ phase.runs, Listed s₀.next s run)
    (htoSave : phase.isListing = false → ∀ run ∈ phase.runs, Interrupted registered s₀ s run) :
    RecoveryKept registered s₀ { s with phase := phase } := by
  have hown : OwnAttempts s₀.next { s with phase := phase } := h.attempts.of_records rfl rfl fun r hr => .inl hr
  refine ⟨hown, h.old, h.subset, fun hout => ?_, fun r hr hid hrunning hjob => .inr ?_, hdue,
    fun hlisting run hrun => ?_, fun hlisting run hrun => ?_⟩
  · rcases hout with hout | hout
    · exact absurd hout hidle
    · exact absurd hout hdone
  · exact (h.waiting r hr hid hrunning hjob).resolve_left hbusy
  · have hrun' := hlisted hlisting run hrun
    exact ⟨hrun'.job, hrun'.running, hrun'.old, hrun'.own⟩
  · have hrun' := htoSave hlisting run hrun
    exact ⟨hrun'.old, hrun'.before, hrun'.running, hrun'.job, hrun'.now⟩

/-- It goes on to save the runs it has found, which are all the interrupted ones of the job. -/
private theorem RecoveryKept.saveNext (h : RecoveryKept registered s₀ s) (hjobs : s.jobs = job :: jobs)
    (hbusy : s.phase ≠ .idle) (hruns : ∀ run ∈ runs, Interrupted registered s₀ s run)
    (hdue : ∀ r ∈ s.listing job, r.id < s₀.next → r.id ∈ storedRunIds runs) :
    RecoveryKept registered s₀ (s.saveNext jobs runs) := by
  cases runs with
  | nil =>
    refine h.nextJob (fun job' hjob' => h.subset job' (hjobs ▸ List.mem_cons_of_mem _ hjob'))
      fun r hr hid hrunning hjob => ?_
    have hmem := (h.waiting r hr hid hrunning hjob).resolve_left hbusy
    rw [hjobs] at hmem
    rcases List.mem_cons.1 hmem with heq | hmem
    · exact absurd (hdue r (mem_listing.2 ⟨hr, heq, hrunning⟩) hid) List.not_mem_nil
    · exact hmem
  | cons run runs =>
    refine h.goTo hbusy (fun hidle => ?_) (fun hdone => ?_) (fun job' hjob' r hr hid => .inl ?_) (fun hlisting => ?_)
      fun _ => hruns
    · cases hidle
    · cases hdone
    · rw [hjobs] at hjob'
      obtain rfl : job = job' := Option.some.inj hjob'
      exact hdue r hr hid
    · cases hlisting

/-- The effect of `get_executions`: the next page. -/
theorem RecoveryKept.list {offset : Nat} {stale : List (StoredRun ι)} (h : RecoveryKept registered s₀ s)
    (hjobs : s.jobs = job :: jobs) (hphase : s.phase = .listing offset stale) :
    RecoveryKept registered s₀
      { s with phase := .listed offset stale ((((s.listing job).drop offset).take recoveryPageSize).map
          fun r => (r, s.details r.id)) (s.listing job).length } := by
  have hhead : s.jobs.head? = some job := by rw [hjobs]; rfl
  have hdue := h.due job hhead
  have hlisted := h.listed (by rw [hphase]; rfl)
  rw [hphase] at hdue hlisted
  refine h.goTo (fun hidle => ?_) (fun hidle => ?_) (fun hdone => ?_) (fun job' hjob' r hr hid => ?_)
    (fun _ run hrun => ?_) fun hlisting => ?_
  · rw [hphase] at hidle
    cases hidle
  · cases hidle
  · cases hdone
  · obtain rfl : job = job' := Option.some.inj (hhead.symm.trans hjob')
    set page := ((s.listing job).drop offset).take recoveryPageSize with hpage
    have hids : storedRunIds (stale ++ page.map fun r => (r, s.details r.id)) = storedRunIds stale ++
        page.map Execution.id := by
      rw [storedRunIds, List.map_append, List.map_map]
      rfl
    show r.id ∈ storedRunIds (stale ++ page.map fun r => (r, s.details r.id)) ∨ _
    rw [hids, List.mem_append]
    rcases hdue r hr hid with hmem | ⟨n, hn, hdrop⟩
    · exact .inl (.inl hmem)
    · obtain rfl : offset = n := Option.some.inj hn
      rcases Paging.mem_page_or_drop recoveryPageSize hdrop with hmem | hmem
      · exact .inl (.inr (List.mem_map_of_mem hmem))
      · have hmore : ¬ (page.isEmpty ∨ (s.listing job).length ≤ offset + page.length) := by
          rintro (hempty | hlength)
          · rw [List.isEmpty_iff, hpage, List.take_eq_nil_iff] at hempty
            rcases hempty with hzero | hnil
            · cases hzero
            · rw [hnil] at hdrop
              cases hdrop
          · rw [List.drop_eq_nil_of_le hlength] at hmem
            cases hmem
        refine .inr ⟨offset + page.length, ?_, hmem⟩
        rw [RecoveryPhase.nextPage, List.isEmpty_map, List.length_map, if_neg hmore]
  · rcases List.mem_append.1 hrun with hrun | hrun
    · exact hlisted run hrun
    · obtain ⟨r, hr, rfl⟩ := List.mem_map.1 hrun
      obtain ⟨hmem, hjob, hrunning⟩ := mem_listing.1 (List.mem_of_mem_drop (List.mem_of_mem_take hr))
      refine ⟨hjob ▸ hhead, hrunning, fun _ => record_of_mem hmem, fun hid => ?_⟩
      obtain ⟨attempt, hattempt, hattempt_id, hattempt_job, -⟩ := h.attempts.running r hmem hid hrunning
      exact ⟨attempt, hattempt, hattempt_id, hattempt_job⟩
  · cases hlisting

theorem RecoveryKept.start (store : ExecutionStore ι) (details : Nat → ExecutionDetails) :
    RecoveryKept registered (.start store details) (.start store details) := by
  have hfresh : ∀ r ∈ store.records, r.id < store.freshId := fun r hr => lt_freshId (List.mem_map_of_mem hr)
  refine ⟨⟨hfresh, Nat.le_refl _, List.nodup_nil, fun _ hmem => ?_, fun _ hmem => ?_, fun r hr hid => ?_⟩,
    fun _ _ _ hrun _ => hrun, fun _ hjob => ?_, fun _ => rfl, fun _ _ _ _ _ => .inl rfl, fun _ hjob => ?_,
    fun hlisting => ?_, fun _ _ hrun => ?_⟩
  · cases hmem
  · cases hmem
  · exact absurd hid (Nat.not_le.2 (hfresh r hr))
  · cases hjob
  · cases hjob
  · cases hlisting
  · cases hrun

/-- On from a page, with all of its runs. -/
theorem RecoveryKept.resume {offset total : Nat} {stale items : List (StoredRun ι)} (h : RecoveryKept registered s₀ s)
    (hjobs : s.jobs = job :: jobs) (hphase : s.phase = .listed offset stale items total)
    (hst : recoveryStep registered s .resume = some s') : RecoveryKept registered s₀ s' := by
  have hlisted := h.listed (by rw [hphase]; rfl)
  have hdue := h.due job (by rw [hjobs]; rfl)
  rw [hphase] at hlisted hdue
  have hrunning : items.filter (fun run => run.1.status = none) = items :=
    List.filter_eq_self.2 fun run hrun => decide_eq_true (hlisted run (List.mem_append_right _ hrun)).running
  simp only [recoveryStep, hjobs, hphase, hrunning] at hst
  split at hst
  · next hlast =>
    have hnone : (RecoveryPhase.listed offset stale items total).nextPage = none := if_pos hlast
    obtain rfl := Option.some.inj hst
    refine h.saveNext hjobs (fun hidle => ?_) (fun run hrun => ?_) fun r hr hid => ?_
    · rw [hphase] at hidle
      cases hidle
    · obtain ⟨hmem, hours⟩ := List.mem_filter.1 hrun
      have hrun' := hlisted run hmem
      have hjob : run.1.job = job := by
        have hhead := hrun'.job
        rw [hjobs] at hhead
        exact (Option.some.inj hhead).symm
      have hid : run.1.id < s₀.next := by
        by_contra hid
        obtain ⟨attempt, hattempt, hattempt_id, hattempt_job⟩ := hrun'.own (Nat.not_lt.1 hid)
        exact of_decide_eq_true hours (mem_runningIds_iff.2 ⟨attempt, hattempt, hattempt_job.trans hjob, hattempt_id⟩)
      have hnow := hrun'.old hid
      exact ⟨hid, h.old _ hid run hnow hrun'.running, hrun'.running,
        h.subset _ (by rw [hjobs, hjob]; exact List.mem_cons_self), .inl hnow⟩
    · rcases hdue r hr hid with hmem | ⟨n, hpage, -⟩
      · obtain ⟨run, hrun, hrun_id⟩ := List.mem_map.1 hmem
        refine List.mem_map.2 ⟨run, List.mem_filter.2 ⟨hrun, decide_eq_true fun hours => ?_⟩, hrun_id⟩
        obtain ⟨attempt, hattempt, -, hattempt_id⟩ := mem_runningIds_iff.1 hours
        have hown := (h.attempts.own attempt hattempt).1
        omega
      · rw [hnone] at hpage
        cases hpage
  · next hmore =>
    have hnext : (RecoveryPhase.listed offset stale items total).nextPage = some (offset + items.length) := if_neg hmore
    obtain rfl := Option.some.inj hst
    rw [← hjobs]
    show RecoveryKept registered s₀ { s with phase := .listing (offset + items.length) (stale ++ items) }
    refine h.goTo (fun hidle => ?_) (fun hidle => ?_) (fun hdone => ?_) (fun job' hjob' r hr hid => ?_)
      (fun _ => hlisted) fun hlisting => ?_
    · rw [hphase] at hidle
      cases hidle
    · cases hidle
    · cases hdone
    · rw [hjobs] at hjob'
      obtain rfl : job = job' := Option.some.inj hjob'
      have hr' := hdue r hr hid
      rw [hnext] at hr'
      exact hr'
    · cases hlisting

/-- The effect of `save_execution`: the first of the runs is cancelled. -/
theorem RecoveryKept.save {run : StoredRun ι} {rest : List (StoredRun ι)} (h : RecoveryKept registered s₀ s)
    (hphase : s.phase = .saving (run :: rest)) (position : Nat) :
    RecoveryKept registered s₀ { s.put run.cancel position with phase := .saved rest } := by
  have hruns : ∀ run' ∈ run :: rest, Interrupted registered s₀ s run' := by
    intro run' hrun'
    exact h.toSave (by rw [hphase]; rfl) run' (by rw [hphase]; exact hrun')
  have hrun := hruns run List.mem_cons_self
  have hstatus : run.cancel.1.status ≠ none := Option.some_ne_none _
  have hmem : ∃ r ∈ s.store.records, r.id = run.1.id := by
    rcases hrun.now with hnow | hnow
    · exact ⟨_, (record_eq_some.1 hnow).1, rfl⟩
    · exact ⟨_, (record_eq_some.1 hnow).1, rfl⟩
  have hself : (s.put run.cancel position).record run.1.id = some run.cancel := record_put_self
  have hothers : ∀ id, id ≠ run.1.id → (s.put run.cancel position).record id = s.record id :=
    fun id hne => record_put_of_ne hne
  have hown : OwnAttempts s₀.next { s.put run.cancel position with phase := .saved rest } := by
    refine h.attempts.of_records rfl rfl fun r hr => ?_
    rcases mem_records_save.1 hr with rfl | ⟨hr, -⟩
    · exact .inr ⟨hstatus, hmem⟩
    · exact .inl hr
  refine ⟨hown, fun id hid found hfound hrunning => ?_, h.subset, fun hout => ?_, fun r hr hid hrunning hjob => .inr ?_,
    fun job hjob r hr hid => .inl ?_, fun hlisting => ?_, fun _ run' hrun' => ?_⟩
  · have hfound' : (s.put run.cancel position).record id = some found := hfound
    by_cases hthis : id = run.1.id
    · rw [hthis, hself] at hfound'
      obtain rfl := Option.some.inj hfound'
      exact absurd hrunning hstatus
    · rw [hothers id hthis] at hfound'
      exact h.old id hid found hfound' hrunning
  · rcases hout with hout | hout <;> cases hout
  · rcases mem_records_save.1 hr with rfl | ⟨hr, -⟩
    · exact absurd hrunning hstatus
    · refine (h.waiting r hr hid hrunning hjob).resolve_left ?_
      rw [hphase]
      exact fun hidle => by cases hidle
  · have hlisting : (s.put run.cancel position).listing job = (s.listing job).filter (·.id ≠ run.1.id) :=
      listing_put_ended hstatus
    have hr' : r ∈ (s.put run.cancel position).listing job := hr
    rw [hlisting] at hr'
    obtain ⟨hr', hne⟩ := List.mem_filter.1 hr'
    have hdue := h.due job hjob r hr' hid
    rw [hphase] at hdue
    rcases hdue with hdue | ⟨n, hpage, -⟩
    · exact (List.mem_cons.1 hdue).resolve_left (of_decide_eq_true hne)
    · cases hpage
  · cases hlisting
  · have hrest := hruns run' (List.mem_cons_of_mem _ hrun')
    refine ⟨hrest.old, hrest.before, hrest.running, hrest.job, ?_⟩
    show (s.put run.cancel position).record run'.1.id = some run' ∨
      (s.put run.cancel position).record run'.1.id = some run'.cancel
    by_cases hthis : run'.1.id = run.1.id
    · obtain rfl : run' = run := Option.some.inj (hrest.before.symm.trans (hthis ▸ hrun.before))
      exact .inr hself
    · rw [hothers _ hthis]
      exact hrest.now

theorem RecoveryKept.step {a : RecoveryAction ι} (h : RecoveryKept registered s₀ s) (hg : LeavesAlone s a)
    (hst : recoveryStep registered s a = some s') : RecoveryKept registered s₀ s' := by
  have hothers : a.isOthers = true → RecoveryKept registered s₀ s' := fun ha =>
    h.beside (others_step h.attempts ha hg hst).1 (others_step h.attempts ha hg hst).2
  cases a with
  | start =>
    simp only [recoveryStep] at hst
    split at hst
    · obtain rfl := Option.some.inj hst
      exact h.nextJob (fun _ hjob => hjob) fun _ _ _ _ hjob => hjob
    · cases hst
  | list =>
    simp only [recoveryStep] at hst
    split at hst
    · next hjobs hphase =>
      obtain rfl := Option.some.inj hst
      exact h.list hjobs hphase
    · cases hst
  | resume =>
    cases hphase : s.phase with
    | listed offset stale items total =>
      cases hjobs : s.jobs with
      | nil => simp [recoveryStep, hjobs] at hst
      | cons job jobs => exact h.resume hjobs hphase hst
    | saved rest =>
      cases hjobs : s.jobs with
      | nil => simp [recoveryStep, hjobs] at hst
      | cons job jobs =>
        simp only [recoveryStep, hjobs, hphase] at hst
        obtain rfl := Option.some.inj hst
        refine h.saveNext hjobs (fun hidle => ?_) (fun run hrun => ?_) fun r hr hid => ?_
        · rw [hphase] at hidle
          cases hidle
        · exact h.toSave (by rw [hphase]; rfl) run (by rw [hphase]; exact hrun)
        · have hdue := h.due job (by rw [hjobs]; rfl) r hr hid
          rw [hphase] at hdue
          rcases hdue with hdue | ⟨n, hpage, -⟩
          · exact hdue
          · cases hpage
    | idle => simp [recoveryStep, hphase] at hst
    | listing offset stale => simp [recoveryStep, hphase] at hst
    | saving runs => simp [recoveryStep, hphase] at hst
    | done => simp [recoveryStep, hphase] at hst
  | save position =>
    simp only [recoveryStep] at hst
    split at hst
    · next hphase =>
      obtain rfl := Option.some.inj hst
      exact h.save hphase position
    · cases hst
  | begin | saveStarted | finish | discard | release | cutOff | delete => exact hothers rfl

omit [DecidableEq ι] in
private theorem record_nextJob (s : RecoveryState ι) (jobs : List ι) (id : Nat) :
    (s.nextJob jobs).record id = s.record id := by
  cases jobs <;> rfl

omit [DecidableEq ι] in
private theorem record_saveNext (s : RecoveryState ι) (jobs : List ι) (runs : List (StoredRun ι)) (id : Nat) :
    (s.saveNext jobs runs).record id = s.record id := by
  cases runs with
  | nil => exact record_nextJob s jobs id
  | cons run runs => rfl

/-- What the recovery changes. -/
private theorem recovery_changes {a : RecoveryAction ι} {id : Nat} (h : RecoveryKept registered s₀ s)
    (ha : a.isOthers = false)
    (hst : recoveryStep registered s a = some s') (hne : s'.record id ≠ s.record id) :
    ∃ run, run.1.id = id ∧ Interrupted registered s₀ s run ∧ s.record id = some run ∧
      s'.record id = some run.cancel := by
  cases a with
  | start =>
    simp only [recoveryStep] at hst
    split at hst
    · obtain rfl := Option.some.inj hst
      exact absurd (record_nextJob s registered id) hne
    · cases hst
  | list =>
    simp only [recoveryStep] at hst
    split at hst
    · obtain rfl := Option.some.inj hst
      exact absurd rfl hne
    · cases hst
  | resume =>
    simp only [recoveryStep] at hst
    split at hst
    · split at hst
      · obtain rfl := Option.some.inj hst
        exact absurd (record_saveNext s _ _ id) hne
      · obtain rfl := Option.some.inj hst
        exact absurd rfl hne
    · obtain rfl := Option.some.inj hst
      exact absurd (record_saveNext s _ _ id) hne
    · cases hst
  | save position =>
    simp only [recoveryStep] at hst
    split at hst
    · next run rest hphase =>
      obtain rfl := Option.some.inj hst
      have hrun := h.toSave (by rw [hphase]; rfl) run (by rw [hphase]; exact List.mem_cons_self)
      have hid : run.1.id = id := by
        by_contra hid
        have hother : id ≠ run.cancel.1.id := fun heq => hid heq.symm
        exact hne (record_put_of_ne hother)
      subst hid
      have hself : (s.put run.cancel position).record run.1.id = some run.cancel := record_put_self
      refine ⟨run, rfl, hrun, hrun.now.resolve_right fun hnow => hne ?_, hself⟩
      exact hself.trans hnow.symm
    · cases hst
  | begin | saveStarted | finish | discard | release | cutOff | delete => cases ha

end Recovery

/-! ### Runs -/

/-- The execution as `start` finishes it. -/
structure FinishedAsCancelled (run run' : StoredRun ι) : Prop where
  status : run'.1 = { run.1 with status := some .cancelled }
  error : run'.2.error = some interruptedError
  kept : run'.2.startedAt = run.2.startedAt ∧ run'.2.logs = run.2.logs
  completed : ∃ ended, run'.2.completedAt = some ⟨ended, some 0⟩ ∧
    IsGreatest (insert (asUtc run.2.startedAt) {t | t ∈ run.2.logs.map asUtc}) ended ∧
    ∃ duration, run'.2.duration = some duration ∧ |(1000 * duration - (ended - asUtc run.2.startedAt : ℤ) : ℚ)| ≤
      500 + |((ended - asUtc run.2.startedAt : ℤ) : ℚ)| / 2 ^ 51

/-- When `start` is past it, the registered jobs have no running executions but the own ones; and what it changes was
stored as running before this process began, and is cancelled. -/
structure InterruptedFinished (registered : List ι) (s₀ : RecoveryState ι)
    (history : List (Move (RecoveryState ι) (RecoveryAction ι))) (s : RecoveryState ι) : Prop where
  finished : s.phase = .done → ∀ id run, s.record id = some run → run.1.job ∈ registered → run.1.status = none →
    id ∈ s.runningIds run.1.job
  changed : ∀ m ∈ history, m.act.isOthers = false → ∀ id, m.post.record id ≠ m.pre.record id →
    ∃ run run', m.pre.record id = some run ∧ m.post.record id = some run' ∧ s₀.record id = some run ∧
      run.1.status = none ∧ run.1.job ∈ registered ∧ FinishedAsCancelled run run'

omit [DecidableEq ι] in
private theorem finishedAsCancelled_cancel (run : StoredRun ι) : FinishedAsCancelled run run.cancel :=
  ⟨rfl, rfl, ⟨rfl, rfl⟩, _, rfl, ended_isGreatest run.2, _, rfl, abs_milliseconds_sub_le _⟩

section Runs

variable {registered : List ι} {store : ExecutionStore ι} {details : Nat → ExecutionDetails}
  {history : List (Move (RecoveryState ι) (RecoveryAction ι))} {s : RecoveryState ι}

/-- In every run whose steps leave the recovery alone, `start` finishes the interrupted runs of the registered jobs and
changes nothing else. -/
theorem interrupted_finished (h : GuardedRun (recoveryStep registered) LeavesAlone (.start store details) history s) :
    InterruptedFinished registered (.start store details) history s := by
  have hstart : RecoveryKept registered (.start store details) (.start store details) := .start store details
  have hstep : ∀ (s : RecoveryState ι) (a : RecoveryAction ι) (t : RecoveryState ι),
      RecoveryKept registered (.start store details) s → LeavesAlone s a → recoveryStep registered s a = some t →
      RecoveryKept registered (.start store details) t := fun _ _ _ hs hg hst => hs.step hg hst
  refine ⟨fun hdone id run hrun hjob hrunning => ?_, fun m hm ha id hne => ?_⟩
  · have hs := h.invariant hstart hstep
    obtain ⟨hmem, rfl, -⟩ := record_eq_some.1 hrun
    have hown : (RecoveryState.start store details).next ≤ run.1.id := by
      by_contra hlt
      rcases hs.waiting run.1 hmem (Nat.not_le.1 hlt) hrunning hjob with hidle | hjobs
      · rw [hdone] at hidle
        cases hidle
      · rw [hs.outside (.inr hdone)] at hjobs
        cases hjobs
    obtain ⟨attempt, hattempt, hattempt_id, hattempt_job, -⟩ := hs.attempts.running run.1 hmem hown hrunning
    exact mem_runningIds_iff.2 ⟨attempt, hattempt, hattempt_job, hattempt_id⟩
  · obtain ⟨hpre, -, hst⟩ := h.of_mem hstart hstep hm
    obtain ⟨run, rfl, hrun, hbefore, hafter⟩ := recovery_changes hpre ha hst hne
    exact ⟨run, run.cancel, hbefore, hafter, hrun.before, hrun.running, hrun.job, finishedAsCancelled_cancel run⟩

end Runs

/-- Two executions of an earlier process, one of them running. -/
def interruptedStore : ExecutionStore Unit := ⟨[⟨0, (), none⟩, ⟨1, (), some .failed⟩], by decide⟩

/-- Their start, and a log entry an hour ahead of UTC. -/
def interruptedDetails : Nat → ExecutionDetails := fun _ =>
  { startedAt := ⟨0, none⟩, logs := [⟨3600000000 + 2500, some 3600000000⟩] }

/-- An own attempt goes on while `start` finishes the interrupted run. -/
theorem interrupted_finished_beside : ∃ history s,
    GuardedRun (recoveryStep [()]) LeavesAlone (.start interruptedStore interruptedDetails) history s ∧
    InterruptedFinished [()] (.start interruptedStore interruptedDetails) history s ∧
    (match s.phase with | .done => true | _ => false) = true ∧
    (s.record 0).map (fun run => (run.1.status, run.2.completedAt, run.2.duration)) =
      some (some .cancelled, some ⟨2500, some 0⟩, some 2) ∧
    (s.record 1).map (·.1.status) = some (some .failed) ∧ (s.record 2).map (·.1.status) = some none := by
  have hexec : (exec (recoveryStep [()]) (.start interruptedStore interruptedDetails)
      [.begin () ⟨5000, some 0⟩, .saveStarted 0 0, .start, .list, .resume, .save 0, .resume]).any
      (fun r => decide ((match r.2.phase with | .done => true | _ => false) = true ∧
        (r.2.record 0).map (fun run => (run.1.status, run.2.completedAt, run.2.duration)) =
          some (some .cancelled, some ⟨2500, some 0⟩, some 2) ∧
        (r.2.record 1).map (·.1.status) = some (some .failed) ∧ (r.2.record 2).map (·.1.status) = some none)) =
          true := by
    decide +kernel
  obtain ⟨⟨history, s⟩, hexec, hend⟩ := (Option.any_eq_true _ _).1 hexec
  have hguard : GuardedRun (recoveryStep [()]) LeavesAlone (.start interruptedStore interruptedDetails) history s := by
    refine (run_of_exec hexec).restrict fun m hm => ?_
    have hact := act_mem_of_exec hexec m hm
    simp only [List.mem_cons, List.not_mem_nil, or_false] at hact
    rcases hact with hact | hact | hact | hact | hact | hact | hact <;> rw [hact] <;> exact trivial
  exact ⟨history, s, hguard, interrupted_finished hguard, of_decide_eq_true hend⟩

/-- An own run that was listed ends before `start` looks at its own attempts: its finished execution is overwritten as
an interrupted one. -/
theorem own_run_cancelled : ∃ history s,
    Run (recoveryStep [()]) (.start ⟨[], List.nodup_nil⟩ interruptedDetails) history s ∧
    (∃ m ∈ history, m.act.isOthers = false ∧ (m.pre.record 1).map (·.1.status) = some (some .completed) ∧
      (m.post.record 1).map (·.1.status) = some (some .cancelled)) ∧
    ¬ InterruptedFinished [()] (.start ⟨[], List.nodup_nil⟩ interruptedDetails) history s := by
  have hexec : (exec (recoveryStep [()]) (.start ⟨[], List.nodup_nil⟩ interruptedDetails)
      [.begin () ⟨5000, some 0⟩, .saveStarted 0 0, .start, .list,
        .finish 0 0 .completed { startedAt := ⟨5000, some 0⟩ }, .release 0, .resume, .save 0]).any
      (fun r => r.1.any fun m => decide (m.act.isOthers = false ∧
        (m.pre.record 1).map (·.1.status) = some (some .completed) ∧
        (m.post.record 1).map (·.1.status) = some (some .cancelled))) = true := by
    decide +kernel
  obtain ⟨⟨history, s⟩, hexec, hend⟩ := (Option.any_eq_true _ _).1 hexec
  obtain ⟨m, hm, hmove⟩ := List.any_eq_true.1 hend
  obtain ⟨hact, hpre, hpost⟩ := of_decide_eq_true hmove
  refine ⟨history, s, run_of_exec hexec, ⟨m, hm, hact, hpre, hpost⟩, fun hfinished => ?_⟩
  have hne : m.post.record 1 ≠ m.pre.record 1 := by
    intro heq
    rw [heq, hpre] at hpost
    cases hpost
  obtain ⟨run, run', hrun, -, -, hrunning, -⟩ := hfinished.changed m hm hact 1 hne
  rw [hrun, Option.map_some, hrunning] at hpre
  cases hpre

end CliServer
