import Mathlib

/-!
# Runs

The runs of a job that hold one of its slots.  `Runs` carries the proof that they have distinct numbers, given out in
the order in which the runs took their slots, so that a number stands for the `JobRun` object; a run's `phase` says
which await its task is at.
-/

namespace CliServer

abbrev RunId := Nat

/-- The final statuses of an execution. -/
inductive ExecutionStatus where
  | completed | failed | cancelled | timedOut
  deriving DecidableEq, Repr

/-- Where a run is: the await its task (or the call that admitted it) is at. -/
inductive Phase where
  /-- `trigger` took the slot and publishes `job:triggered`. -/
  | admitted
  /-- The `trigger` call ended without launching the run. -/
  | abandoned
  /-- The task is created and has not begun. -/
  | launched
  /-- `storage.save_execution` of the attempt's new execution. -/
  | saving (attempt : Nat)
  /-- The `job:started` event. -/
  | starting (attempt : Nat)
  /-- `job.execute_async`. -/
  | executing (attempt : Nat)
  /-- The `job:cancelled`, `job:timed_out` or `job:failed` event; `caught` inside the `try` of the attempt. -/
  | reporting (attempt : Nat) (status : ExecutionStatus) (caught : Bool)
  /-- `_save_finished`. -/
  | finishing (attempt : Nat) (status : ExecutionStatus)
  /-- `_persist_state`. -/
  | persisting (attempt : Nat) (status : ExecutionStatus)
  /-- The `job:completed` event. -/
  | completing (attempt : Nat)
  /-- The `job:retrying` event. -/
  | retrying (attempt delay : Nat)
  /-- `wait_for(cancellation.wait(), delay)`. -/
  | waiting (attempt delay : Nat)
  deriving DecidableEq, Repr

/-- One run of a job; `cancellation` is whether its event is set. -/
structure JobRun where
  id : RunId
  cancellation : Bool
  phase : Phase
  deriving DecidableEq, Repr

/-- The runs that hold a slot, oldest first, and the number of the next one. -/
structure Runs where
  list : List JobRun
  next : RunId
  nodup : (list.map JobRun.id).Nodup
  fresh : ∀ run ∈ list, run.id < next

namespace Runs

def empty : Runs := ⟨[], 0, List.nodup_nil, by simp⟩

/-- The ids of the runs. -/
def ids (rs : Runs) : List RunId := rs.list.map JobRun.id

def get? (rs : Runs) (i : RunId) : Option JobRun := rs.list.find? (·.id = i)

/-- A new run at the end. -/
def add (rs : Runs) : Runs where
  list := rs.list ++ [⟨rs.next, false, .admitted⟩]
  next := rs.next + 1
  nodup := by
    rw [List.map_append, List.nodup_append]
    refine ⟨rs.nodup, by simp, ?_⟩
    rintro a ha b hb rfl
    obtain ⟨run, hrun, rfl⟩ := List.mem_map.1 ha
    obtain hb := List.mem_singleton.1 hb
    exact absurd (rs.fresh run hrun) (by rw [hb]; exact Nat.lt_irrefl _)
  fresh := by
    intro run hrun
    rcases List.mem_append.1 hrun with h | h
    · exact Nat.lt_succ_of_lt (rs.fresh run h)
    · obtain rfl := List.mem_singleton.1 h
      exact Nat.lt_succ_self _

/-- The runs, changed in place. -/
def map (rs : Runs) (f : JobRun → JobRun) (hf : ∀ run, (f run).id = run.id) : Runs where
  list := rs.list.map f
  next := rs.next
  nodup := by
    rw [List.map_map, show JobRun.id ∘ f = JobRun.id from funext hf]
    exact rs.nodup
  fresh := by
    intro run hrun
    obtain ⟨run', hrun', rfl⟩ := List.mem_map.1 hrun
    rw [hf]
    exact rs.fresh run' hrun'

/-- Sets the events of the runs that `p` picks. -/
def cancel (rs : Runs) (p : RunId → Bool) : Runs :=
  rs.map (fun run => if p run.id then { run with cancellation := true } else run) fun run => by split <;> rfl

/-- Moves a run to a phase. -/
def setPhase (rs : Runs) (i : RunId) (phase : Phase) : Runs :=
  rs.map (fun run => if run.id = i then { run with phase := phase } else run) fun run => by split <;> rfl

def remove (rs : Runs) (i : RunId) : Runs where
  list := rs.list.filter (·.id ≠ i)
  next := rs.next
  nodup := rs.nodup.sublist (List.filter_sublist.map _)
  fresh := fun run hrun => rs.fresh run (List.mem_of_mem_filter hrun)

/-- The oldest run. -/
def oldest? (rs : Runs) : Option RunId := rs.list.head?.map JobRun.id

theorem mem_cancel {rs : Runs} {p : RunId → Bool} {run : JobRun} : run ∈ (rs.cancel p).list ↔
    ∃ r ∈ rs.list, (if p r.id then { r with cancellation := true } else r) = run := List.mem_map

theorem mem_setPhase {rs : Runs} {i : RunId} {phase : Phase} {run : JobRun} : run ∈ (rs.setPhase i phase).list ↔
    ∃ r ∈ rs.list, (if r.id = i then { r with phase := phase } else r) = run := List.mem_map

theorem mem_add {rs : Runs} {run : JobRun} :
    run ∈ rs.add.list ↔ run ∈ rs.list ∨ run = ⟨rs.next, false, .admitted⟩ := by
  simp [add]

theorem mem_remove {rs : Runs} {i : RunId} {run : JobRun} :
    run ∈ (rs.remove i).list ↔ run ∈ rs.list ∧ run.id ≠ i := by
  simp [remove]

/-- The runs have distinct ids. -/
theorem eq_of_id_eq {rs : Runs} {r r' : JobRun} (h : r ∈ rs.list) (h' : r' ∈ rs.list) (hid : r.id = r'.id) :
    r = r' := List.inj_on_of_nodup_map rs.nodup h h' hid

theorem get?_eq_some {rs : Runs} {i : RunId} {run : JobRun} :
    rs.get? i = some run ↔ run ∈ rs.list ∧ run.id = i := by
  constructor
  · intro h
    have hid := List.find?_some h
    exact ⟨List.mem_of_find?_eq_some h, by simpa using hid⟩
  · rintro ⟨hmem, rfl⟩
    have hsome : (rs.get? run.id).isSome := List.find?_isSome.2 ⟨run, hmem, by simp⟩
    obtain ⟨r, hr⟩ := Option.isSome_iff_exists.1 hsome
    have hid := List.find?_some hr
    rw [hr, eq_of_id_eq (List.mem_of_find?_eq_some hr) hmem (by simpa using hid)]

theorem mem_ids {rs : Runs} {i : RunId} : i ∈ rs.ids ↔ ∃ run ∈ rs.list, run.id = i := List.mem_map

theorem lt_next {rs : Runs} {i : RunId} (h : i ∈ rs.ids) : i < rs.next := by
  obtain ⟨run, hrun, rfl⟩ := mem_ids.1 h
  exact rs.fresh run hrun

@[simp] theorem ids_map (rs : Runs) (f : JobRun → JobRun) (hf : ∀ run, (f run).id = run.id) :
    (rs.map f hf).ids = rs.ids := by
  simp only [ids, map, List.map_map]
  rw [show JobRun.id ∘ f = JobRun.id from funext hf]

@[simp] theorem ids_cancel (rs : Runs) (p : RunId → Bool) : (rs.cancel p).ids = rs.ids := ids_map ..

@[simp] theorem ids_setPhase (rs : Runs) (i : RunId) (phase : Phase) : (rs.setPhase i phase).ids = rs.ids :=
  ids_map ..

@[simp] theorem ids_add (rs : Runs) : rs.add.ids = rs.ids ++ [rs.next] := by
  simp [ids, add]

theorem ids_remove_sublist (rs : Runs) (i : RunId) : (rs.remove i).ids.Sublist rs.ids :=
  List.filter_sublist.map _

@[simp] theorem next_cancel (rs : Runs) (p : RunId → Bool) : (rs.cancel p).next = rs.next := rfl

@[simp] theorem next_setPhase (rs : Runs) (i : RunId) (phase : Phase) : (rs.setPhase i phase).next = rs.next := rfl

@[simp] theorem next_add (rs : Runs) : rs.add.next = rs.next + 1 := rfl

@[simp] theorem next_remove (rs : Runs) (i : RunId) : (rs.remove i).next = rs.next := rfl

theorem length_ids (rs : Runs) : rs.ids.length = rs.list.length := List.length_map _

end Runs

end CliServer
