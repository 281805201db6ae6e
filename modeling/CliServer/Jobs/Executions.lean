import CliServer.Lib.MergedPages
import CliServer.Server.ClientAddress

/-!
# Execution records

The records of the runs as a job storage returns them, and how they are listed: `InMemoryJobStorageProvider`, which has
them by id and for each job, and `JobExecutionQuery`, which selects them across jobs.
-/

namespace CliServer

open MergedPages

/-- A `datetime`: the wall clock in microseconds, and its UTC offset when it is aware. -/
structure DateTime where
  wallClock : Int
  utcOffset : Option Int := none
  deriving DecidableEq, Repr

/-- `as_utc`: the UTC time in microseconds; a naive value is taken as UTC. -/
def asUtc (value : DateTime) : Int :=
  match value.utcOffset with
  | none => value.wallClock
  | some offset => value.wallClock - offset

/-- What the listings and the statistics use of a `JobExecution`; `duration` is in milliseconds. -/
structure JobExecution where
  id : Str
  jobId : Str
  jobName : Str := []
  status : Str := "running".toList
  startedAt : DateTime
  duration : Option ℚ := none
  deriving DecidableEq

/-- The start of an execution. -/
def JobExecution.started (execution : JobExecution) : Int := asUtc execution.startedAt

/-- The executions of `InMemoryJobStorageProvider`. -/
structure InMemoryJobStorage where
  executionsById : List JobExecution
  executions : Str → List JobExecution

structure JobExecutionQuery where
  jobIds : Option (List Str) := none
  status : Option Str := none
  since : Option DateTime := none
  limit : Nat := 20
  offset : Nat := 0

/-- `ListJobExecutions`: the executions of a job, at most `limit`, and their number. -/
abbrev ListJobExecutions := Str → Nat → Option Str → List JobExecution × Nat

/-- `2**31 - 1`. -/
def maxListed : Nat := 2 ^ 31 - 1

/-- `JobExecutionQuery.matches`. -/
def JobExecutionQuery.matches (t : CaseTable) (query : JobExecutionQuery) (execution : JobExecution) : Bool :=
  (query.jobIds.all fun ids => execution.jobId ∈ ids) &&
  ((query.status.bind nonEmpty).all fun status => lower t execution.status = lower t status) &&
  query.since.all fun since => asUtc since ≤ execution.started

/-- A page of a listing. -/
def page (offset limit : Nat) (l : List JobExecution) : List JobExecution := (l.drop offset).take limit

/-- What `merge` takes of the listing of one job. -/
def JobExecutionQuery.mergeJob (t : CaseTable) (query : JobExecutionQuery) (listJob : ListJobExecutions) (jobId : Str) :
    List JobExecution × Nat :=
  let size := if query.since = none then query.offset + query.limit else maxListed
  let status := (query.status.bind nonEmpty).map (lower t)
  let listed := listJob jobId size status
  match query.since with
  | none => listed
  | some since =>
    let matching := listed.1.filter (asUtc since ≤ ·.started)
    (matching, matching.length)

/-- `JobExecutionQuery.merge`. -/
def JobExecutionQuery.merge (t : CaseTable) (query : JobExecutionQuery) (jobIds : List Str)
    (listJob : ListJobExecutions) : List JobExecution × Nat :=
  let listed := jobIds.eraseDups.map (query.mergeJob t listJob)
  (page query.offset query.limit (newestFirst JobExecution.started (listed.flatMap Prod.fst)),
   (listed.map Prod.snd).sum)

namespace InMemoryJobStorage

/-- The executions with a status, or all without one. -/
def withStatus (status : Option Str) (items : List JobExecution) : List JobExecution :=
  match status.bind nonEmpty with
  | some status => items.filter (·.status = status)
  | none => items

/-- `get_executions`. -/
def getExecutions (storage : InMemoryJobStorage) (jobId : Str) (limit offset : Nat) (status : Option Str) :
    List JobExecution × Nat :=
  let allItems := withStatus status (storage.executions jobId)
  (page offset limit allItems, allItems.length)

/-- `query_executions`. -/
def queryExecutions (t : CaseTable) (storage : InMemoryJobStorage) (query : JobExecutionQuery) :
    List JobExecution × Nat :=
  let found := newestFirst JobExecution.started (storage.executionsById.filter (query.matches t))
  (page query.offset query.limit found, found.length)

/-- `get_executions`, as `query_executions` of a storage without a query of its own passes it to `merge`. -/
def listJob (storage : InMemoryJobStorage) : ListJobExecutions := fun jobId limit status =>
  storage.getExecutions jobId limit 0 status

/-- The listings of the jobs are those of the executions by id, newest first; the statuses are in lower case. -/
structure Listed (t : CaseTable) (storage : InMemoryJobStorage) : Prop where
  distinct : (storage.executionsById.map JobExecution.started).Nodup
  lower : ∀ e ∈ storage.executionsById, CliServer.lower t e.status = e.status
  perm : ∀ jobId, (storage.executions jobId).Perm (storage.executionsById.filter (·.jobId = jobId))
  newest : ∀ jobId, Descending JobExecution.started (storage.executions jobId)

end InMemoryJobStorage

end CliServer
