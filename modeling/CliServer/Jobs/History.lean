import CliServer.Jobs.Lifecycle

/-!
# The run history

The executions of the jobs in a job store, written by the runs and deleted by `delete_execution` and
`delete_executions`.  A call of the store takes effect at one moment and its caller goes on later, so it is two steps:
the effect and the resumption.  A call that raises may have taken effect.

`live` tells two kinds of stores apart: one that keeps the `JobExecution` objects themselves (as
`InMemoryJobStorageProvider`), so that what a run writes to its execution shows at once, and one that keeps copies.
Either has the records of a job in an order of its own: a new record goes to some position and the others keep their
order.

The jobs are those of `Scheduler`; here their runs also have executions.
-/

namespace CliServer

/-- An execution as the store returns it. -/
structure Execution (ι : Type) where
  id : Nat
  job : ι
  /-- `none`: running. -/
  status : Option ExecutionStatus

/-- The ids of records. -/
def executionIds {ι : Type} (records : List (Execution ι)) : List Nat := records.map (·.id)

/-- The records of a store, in its order: one for each id. -/
structure ExecutionStore (ι : Type) where
  records : List (Execution ι)
  nodup : (executionIds records).Nodup

/-- The text of a status. -/
def statusText : Option ExecutionStatus → Str
  | none => "running".toList
  | some .completed => "completed".toList
  | some .failed => "failed".toList
  | some .cancelled => "cancelled".toList
  | some .timedOut => "timed_out".toList

/-- The status filter of `get_executions`. -/
def matchesFilter (filter : Option Str) (status : Option ExecutionStatus) : Bool :=
  (given filter).all (· = statusText status)

/-- The call of the store that a run waits for. -/
inductive RunCall where
  /-- `save_execution`; `again`: without the run's properties. -/
  | save (done again : Bool)
  /-- `delete_execution`, of a run the job discarded, and its result. -/
  | discard (answer : Option Bool)
  deriving DecidableEq

/-- What `delete_execution` raises. -/
inductive DeletionError where
  | notFound
  | running
  deriving DecidableEq

/-- Where a call of `delete_execution` is. -/
inductive SinglePhase (ι : Type) where
  /-- `storage.get_execution`. -/
  | reading
  | read (found : Option (Execution ι))
  /-- `storage.delete_execution`. -/
  | deleting
  | answered (removed : Bool)
  | ended (error : Option DeletionError)
  /-- The store raised. -/
  | failed

def SinglePhase.isOver {ι : Type} : SinglePhase ι → Bool
  | .ended _ | .failed => true
  | _ => false

/-- A call of `delete_execution`. -/
structure SingleDeletion (ι : Type) where
  job : ι
  id : Nat
  phase : SinglePhase ι

/-- Where a call of `delete_executions` is. -/
inductive BulkPhase (ι : Type) where
  /-- `storage.get_executions`. -/
  | listing (offset : Nat) (toDelete : List Nat)
  | listed (offset : Nat) (toDelete : List Nat) (items : List (Execution ι)) (total : Nat)
  /-- `storage.delete_execution` of the first of `ids`, or the event when there is none. -/
  | deleting (ids : List Nat) (deleted : Nat)
  | answered (ids : List Nat) (deleted : Nat) (removed : Bool)
  | returned (deleted : Nat)
  /-- The store raised. -/
  | failed

def BulkPhase.isOver {ι : Type} : BulkPhase ι → Bool
  | .returned _ | .failed => true
  | _ => false

/-- A call of `delete_executions`.  The last two fields are not the code's: the executions that it has to delete (the
finished ones of the job that match when it is called) and those that it removed. -/
structure BulkDeletion (ι : Type) where
  job : ι
  filter : Option Str
  phase : BulkPhase ι
  due : List Nat
  removed : List Nat

namespace ExecutionStore

variable {ι : Type}

/-- The ids of the records. -/
def ids (store : ExecutionStore ι) : List Nat := executionIds store.records

/-- An id above all of them. -/
def freshId (store : ExecutionStore ι) : Nat := store.ids.foldr max 0 + 1

/-- `get_execution`. -/
def get? (store : ExecutionStore ι) (id : Nat) : Option (Execution ι) := store.records.find? (·.id = id)

/-- `save_execution`: the record takes its own place, or a new one at a position of the store's choice. -/
def save (store : ExecutionStore ι) (execution : Execution ι) (position : Nat) : ExecutionStore ι :=
  if h : execution.id ∈ store.ids then
    ⟨store.records.map fun r => if r.id = execution.id then execution else r, by
      have hids : executionIds (store.records.map fun r => if r.id = execution.id then execution else r) =
          store.ids := by
        rw [ids, executionIds, executionIds, List.map_map]
        refine List.map_congr_left fun r _ => ?_
        simp only [Function.comp_apply]
        split
        · rename_i hid
          exact hid.symm
        · rfl
      rw [hids]
      exact store.nodup⟩
  else
    ⟨store.records.take position ++ execution :: store.records.drop position, by
      have hids : executionIds (store.records.take position ++ execution :: store.records.drop position) =
          executionIds (store.records.take position) ++ execution.id :: executionIds (store.records.drop position) := by
        simp [executionIds]
      have hsplit : store.ids =
          executionIds (store.records.take position) ++ executionIds (store.records.drop position) := by
        rw [ids, executionIds, executionIds, executionIds, ← List.map_append, List.take_append_drop]
      rw [hids, List.nodup_middle, List.nodup_cons, ← hsplit]
      exact ⟨h, store.nodup⟩⟩

/-- `delete_execution`. -/
def remove (store : ExecutionStore ι) (id : Nat) : ExecutionStore ι where
  records := store.records.filter (·.id ≠ id)
  nodup := store.nodup.sublist (List.filter_sublist.map _)

end ExecutionStore

/-- The jobs, their runs' executions, the store, and the calls that delete from it. -/
structure HistoryState (ι : Type) where
  live : Bool
  jobs : ι → JobRegistration
  /-- `execution_id` of a run. -/
  current : ι × RunId → Option Nat
  /-- The status of an execution's object. -/
  status : Nat → Option ExecutionStatus
  /-- The next id (`uuid4`). -/
  next : Nat
  calls : ι × RunId → Option RunCall
  store : ExecutionStore ι
  singles : List (SingleDeletion ι)
  bulks : List (BulkDeletion ι)
  /-- The executions that `delete_execution` and `delete_executions` removed; not the code's. -/
  deleted : List Nat

/-- `page_size` of `delete_executions`. -/
def deletionPageSize : Nat := 100

namespace HistoryState

variable {ι : Type} [DecidableEq ι] (s : HistoryState ι)

/-- A store with the records of earlier processes, and jobs as `register` leaves them. -/
def start (live : Bool) (options : ι → CliJobOptions) (store : ExecutionStore ι) : HistoryState ι where
  live := live
  jobs := fun job => .register (options job)
  current := fun _ => none
  status := fun id => (store.get? id).bind (·.status)
  next := store.freshId
  calls := fun _ => none
  store := store
  singles := []
  bulks := []
  deleted := []

/-- `execution.status`, of a record that the store returned. -/
def seen (r : Execution ι) : Option ExecutionStatus := if s.live then s.status r.id else r.status

/-- `running_execution_ids`. -/
def runningIds (job : ι) : List Nat := (s.jobs job).runs.list.filterMap fun run => s.current (job, run.id)

/-- `_is_running`. -/
def isRunning (r : Execution ι) : Bool := s.seen r = none || r.id ∈ s.runningIds r.job

/-- The records that `get_executions` pages through. -/
def listing (job : ι) (filter : Option Str) : List (Execution ι) :=
  s.store.records.filter fun r => r.job = job && matchesFilter filter (s.seen r)

/-- What a run's step leaves the store to do, by the phase it moved to; `none`: the run has ended.  `discard` is whether
the job discarded the run. -/
def enter (key : ι × RunId) (discard : Bool) : Option Phase → HistoryState ι
  | some (.saving _) => { s with
      current := Function.update s.current key (some s.next)
      status := Function.update s.status s.next none
      next := s.next + 1
      calls := Function.update s.calls key (some (.save false false)) }
  | some (.reporting _ status _) => { s with
      status := (s.current key).elim s.status fun id => Function.update s.status id (some status) }
  | some (.finishing _ status) => { s with
      status := (s.current key).elim s.status fun id => Function.update s.status id (some status)
      calls := Function.update s.calls key
        (some (if discard ∧ status = .completed then .discard none else .save false false)) }
  | some (.persisting _ _) | none => { s with
      current := Function.update s.current key none
      calls := Function.update s.calls key none }
  | some _ => s

/-- Whether the store may have answered a run's call so: it returns only after its effect. -/
def mayAnswer (key : ι × RunId) (phase : Phase) (answer : Answer) : Bool :=
  match phase, answer with
  | .saving _, .ok | .finishing _ _, .ok =>
    s.calls key = some (.save true false) || (s.calls key = some (.save true true) ||
      s.calls key = some (.discard (some true)))
  | _, _ => true

/-- A step of the task of a run. -/
def stepRun (job : ι) (i : RunId) (answer : Answer) (discard : Bool) : Option (HistoryState ι) := do
  let run ← (s.jobs job).runs.get? i
  if s.mayAnswer (job, i) run.phase answer then
    let reg ← runStep (s.jobs job) i answer
    let moved := { s with jobs := Function.update s.jobs job reg }
    some (moved.enter (job, i) discard ((reg.runs.get? i).map (·.phase)))
  else none

/-- The store does what a run asked it for. -/
def runCall (key : ι × RunId) (position : Nat) : Option (HistoryState ι) := do
  let id ← s.current key
  match s.calls key with
  | some (.save false again) => some { s with
      store := s.store.save ⟨id, key.1, s.status id⟩ position
      calls := Function.update s.calls key (some (.save true again)) }
  | some (.discard none) => some { s with
      store := s.store.remove id
      calls := Function.update s.calls key (some (.discard (some (id ∈ s.store.ids)))) }
  | _ => none

/-- `_save_finished` between its calls: it saves a discarded run that the store kept, and after an error (`raised`) it
saves the run without its properties, once. -/
def saveFinished (key : ι × RunId) (raised : Bool) : Option (HistoryState ι) :=
  match s.calls key, raised with
  | some (.discard (some false)), false => some { s with
      calls := Function.update s.calls key (some (.save false false)) }
  | some (.discard _), true | some (.save _ false), true => some { s with
      calls := Function.update s.calls key (some (.save false true)) }
  | _, _ => none

/-- Another step of the jobs. -/
def stepJob (isCron : Str → Bool) (job : ι) (a : JobAction) : Option (HistoryState ι) :=
  match a with
  | .start _ _ | .runStep _ _ => none
  | a => (step isCron (s.jobs job) a).map fun reg => { s with jobs := Function.update s.jobs job reg }

/-- The store removes a record for a call of `delete_execution` or `delete_executions`, if there is one. -/
def delete (id : Nat) : HistoryState ι :=
  { s with store := s.store.remove id, deleted := if id ∈ s.store.ids then id :: s.deleted else s.deleted }

/-- The next step of a call of `delete_execution`. -/
def stepSingle (call : SingleDeletion ι) : Option (HistoryState ι × SinglePhase ι) :=
  match call.phase with
  | .reading => some (s, .read (s.store.get? call.id))
  | .read found =>
    match found with
    | none => some (s, .ended (some .notFound))
    | some execution =>
      if execution.job ≠ call.job then some (s, .ended (some .notFound))
      else if s.isRunning execution then some (s, .ended (some .running))
      else some (s, .deleting)
  | .deleting => some (s.delete call.id, .answered (call.id ∈ s.store.ids))
  | .answered removed => some (s, .ended (if removed then none else some .notFound))
  | .ended _ => none
  | .failed => none

/-- The next step of a call of `delete_executions`. -/
def stepBulk (call : BulkDeletion ι) : Option (HistoryState ι × BulkDeletion ι) :=
  match call.phase with
  | .listing offset toDelete =>
    let all := s.listing call.job call.filter
    some (s, { call with phase := .listed offset toDelete ((all.drop offset).take deletionPageSize) all.length })
  | .listed offset toDelete items total =>
    let toDelete := toDelete ++ executionIds (items.filter fun r => !s.isRunning r)
    let offset := offset + items.length
    some (s, { call with
      phase := if items.isEmpty ∨ total ≤ offset then .deleting toDelete 0 else .listing offset toDelete })
  | .deleting [] deleted => some (s, { call with phase := .returned deleted })
  | .deleting (id :: ids) deleted => some (s.delete id, { call with
      phase := .answered ids deleted (id ∈ s.store.ids)
      removed := if id ∈ s.store.ids then id :: call.removed else call.removed })
  | .answered ids deleted removed =>
    some (s, { call with phase := .deleting ids (if removed then deleted + 1 else deleted) })
  | .returned _ => none
  | .failed => none

end HistoryState

/-- The steps of the runs, of the store and of the calls that delete from it. -/
inductive HistoryAction (ι : Type) where
  | job (job : ι) (action : JobAction)
  | run (job : ι) (run : RunId) (answer : Answer) (discard : Bool)
  | runCall (job : ι) (run : RunId) (position : Nat)
  | saveFinished (job : ι) (run : RunId) (raised : Bool)
  /-- A call of `delete_execution`. -/
  | delete (job : ι) (id : Nat)
  | stepDelete (call : Nat)
  | failDelete (call : Nat)
  /-- A call of `delete_executions`. -/
  | deleteAll (job : ι) (filter : Option Str)
  | stepDeleteAll (call : Nat)
  | failDeleteAll (call : Nat)
  /-- Someone else deletes a record (`prune`). -/
  | prune (id : Nat)

open HistoryState in
/-- One step; `none`: it is not possible. -/
def historyStep {ι : Type} [DecidableEq ι] (isCron : Str → Bool) (s : HistoryState ι) :
    HistoryAction ι → Option (HistoryState ι)
  | .job job a => s.stepJob isCron job a
  | .run job i answer discard => s.stepRun job i answer discard
  | .runCall job i position => s.runCall (job, i) position
  | .saveFinished job i raised => s.saveFinished (job, i) raised
  | .delete job id => some { s with singles := s.singles ++ [⟨job, id, .reading⟩] }
  | .stepDelete i => do
    let call ← s.singles[i]?
    let (s, phase) ← s.stepSingle call
    some { s with singles := s.singles.set i { call with phase := phase } }
  | .failDelete i => do
    let call ← s.singles[i]?
    if call.phase.isOver then none
    else some { s with singles := s.singles.set i { call with phase := .failed } }
  | .deleteAll job filter =>
    let due := executionIds ((s.listing job filter).filter fun r => !s.isRunning r)
    some { s with bulks := s.bulks ++ [⟨job, filter, .listing 0 [], due, []⟩] }
  | .stepDeleteAll i => do
    let call ← s.bulks[i]?
    let (s, call) ← s.stepBulk call
    some { s with bulks := s.bulks.set i call }
  | .failDeleteAll i => do
    let call ← s.bulks[i]?
    if call.phase.isOver then none
    else some { s with bulks := s.bulks.set i { call with phase := .failed } }
  | .prune id => some { s with store := s.store.remove id }

end CliServer
