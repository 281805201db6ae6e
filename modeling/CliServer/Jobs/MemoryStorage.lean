import CliServer.Jobs.Executions

/-!
# The in-memory job storage

`InMemoryJobStorageProvider` keeps the executions twice: by id, and in a list for each job.  Both are views of one
list, the `savedLog`, as long as an execution is always saved for the same job: its executions in the order in which
they were saved first, and the part of each job with the newest first (`run_views_log`).  The executions are objects,
so the two views have the same ones, not only equal ones.
-/

namespace CliServer

/-- A `JobExecution` object: where it is, and what it holds. -/
structure JobObject where
  address : Nat
  execution : JobExecution
  deriving DecidableEq

namespace JobObject

def id (e : JobObject) : Str := e.execution.id

def jobId (e : JobObject) : Str := e.execution.jobId

def started (e : JobObject) : Int := e.execution.started

end JobObject

/-- `_executions_by_id` in its order, and `_executions`. -/
structure JobObjects where
  executionsById : List JobObject
  executions : Str → List JobObject

/-- The list with `e` in the place of the first execution of its id, if there is one. -/
def replaceExecution (e : JobObject) : List JobObject → Option (List JobObject)
  | [] => none
  | x :: l => if x.id = e.id then some (e :: l) else (replaceExecution e l).map (x :: ·)

namespace JobObjects

def empty : JobObjects := ⟨[], fun _ => []⟩

/-- `save_execution`. -/
def saveExecution (s : JobObjects) (e : JobObject) : JobObjects where
  executionsById := (replaceExecution e s.executionsById).getD (s.executionsById ++ [e])
  executions := Function.update s.executions e.jobId ((replaceExecution e (s.executions e.jobId)).getD (e :: s.executions e.jobId))

/-- `delete_execution`. -/
def deleteExecution (s : JobObjects) (id : Str) : JobObjects × Bool :=
  match s.executionsById.find? (·.id = id) with
  | none => (s, false)
  | some e =>
    let jobList := (s.executions e.jobId).filter (·.id ≠ id)
    (⟨s.executionsById.eraseP (·.id = id), Function.update s.executions e.jobId jobList⟩, true)

/-- `prune`. -/
def prune (s : JobObjects) (before : DateTime) : JobObjects × Nat :=
  let old := (s.executionsById.filter (·.started < asUtc before)).map JobObject.id
  (old.foldl (fun s id => (s.deleteExecution id).1) s, old.length)

end JobObjects

/-- A call of the storage. -/
inductive StorageCall where
  | save (e : JobObject)
  | delete (id : Str)
  | prune (before : DateTime)

/-- The storage after a call. -/
def JobObjects.call (s : JobObjects) : StorageCall → JobObjects
  | .save e => s.saveExecution e
  | .delete id => (s.deleteExecution id).1
  | .prune before => (s.prune before).1

/-- The storage after calls. -/
def JobObjects.run (calls : List StorageCall) : JobObjects := calls.foldl JobObjects.call .empty

/-- The executions that the storage has, as the listings return them. -/
def JobObjects.storage (s : JobObjects) : InMemoryJobStorage where
  executionsById := s.executionsById.map JobObject.execution
  executions jobId := (s.executions jobId).map JobObject.execution

/-! ### One list -/

/-- The executions after a call, the one that was saved first last: an update takes the place of what it updates. -/
def logCall (log : List JobObject) : StorageCall → List JobObject
  | .save e => if e.id ∈ log.map JobObject.id then log.map fun x => if x.id = e.id then e else x else e :: log
  | .delete id => log.filter (·.id ≠ id)
  | .prune before => log.filter (asUtc before ≤ ·.started)

def savedLog (calls : List StorageCall) : List JobObject := calls.foldl logCall []

/-- The storage and its one list; `jobOf` is the job that an execution is saved for. -/
structure Views (jobOf : Str → Str) (log : List JobObject) (s : JobObjects) : Prop where
  nodup : (log.map JobObject.id).Nodup
  job : ∀ e ∈ log, e.jobId = jobOf e.id
  byId : s.executionsById = log.reverse
  lists : ∀ jobId, s.executions jobId = log.filter (·.jobId = jobId)

section Replace

variable {l : List JobObject} {e x : JobObject}

private theorem replaceExecution_eq_none (h : e.id ∉ l.map JobObject.id) : replaceExecution e l = none := by
  induction l with
  | nil => rfl
  | cons x l ih =>
    rw [List.map_cons] at h
    rw [replaceExecution, if_neg (List.ne_of_not_mem_cons h).symm, ih (List.not_mem_of_not_mem_cons h), Option.map_none]

private theorem map_eq_self (h : e.id ∉ l.map JobObject.id) : (l.map fun x => if x.id = e.id then e else x) = l := by
  refine (List.map_congr_left fun x hx => ?_).trans (List.map_id l)
  exact if_neg fun heq => h (List.mem_map.2 ⟨x, hx, heq⟩)

private theorem replaceExecution_eq_some (hnodup : (l.map JobObject.id).Nodup) (h : e.id ∈ l.map JobObject.id) :
    replaceExecution e l = some (l.map fun x => if x.id = e.id then e else x) := by
  induction l with
  | nil => cases h
  | cons x l ih =>
    rw [List.map_cons, List.nodup_cons] at hnodup
    rw [replaceExecution]
    by_cases hx : x.id = e.id
    · rw [if_pos hx, List.map_cons, if_pos hx, map_eq_self (hx ▸ hnodup.1)]
    · have hl : e.id ∈ l.map JobObject.id := (List.mem_cons.1 h).resolve_left (Ne.symm hx)
      rw [if_neg hx, ih hnodup.2 hl, Option.map_some, List.map_cons, if_neg hx]

theorem ids_map (l : List JobObject) (e : JobObject) :
    (l.map fun x => if x.id = e.id then e else x).map JobObject.id = l.map JobObject.id := by
  rw [List.map_map]
  refine List.map_congr_left fun x _ => ?_
  rw [Function.comp_apply]
  split
  · next h => exact h.symm
  · rfl

/-- In a part of the list that has the execution of the id, or would have it. -/
private theorem replaceExecution_filter {log : List JobObject} {p : JobObject → Bool}
    (hnodup : (log.map JobObject.id).Nodup)
    (hp : ∀ x ∈ log, x.id = e.id → p x = p e) (he : p e = true) (hmem : e.id ∈ log.map JobObject.id) :
    replaceExecution e (log.filter p) = some ((log.map fun x => if x.id = e.id then e else x).filter p) := by
  obtain ⟨x, hx, hid⟩ := List.mem_map.1 hmem
  have hkept : e.id ∈ (log.filter p).map JobObject.id :=
    List.mem_map.2 ⟨x, List.mem_filter.2 ⟨hx, (hp x hx hid).trans he⟩, hid⟩
  rw [replaceExecution_eq_some (hnodup.sublist (List.filter_sublist.map _)) hkept, List.filter_map]
  congr 2
  refine List.filter_congr fun x hx => ?_
  rw [Function.comp_apply]
  split
  · next hid => exact hp x hx hid
  · rfl

end Replace

/-! ### What a call keeps -/

namespace Views

variable {jobOf : Str → Str} {log : List JobObject} {s : JobObjects}

theorem empty (jobOf : Str → Str) : Views jobOf [] .empty where
  nodup := List.nodup_nil
  job := fun _ he => absurd he List.not_mem_nil
  byId := rfl
  lists := fun _ => rfl

private theorem mem_ids_reverse {id : Str} : id ∈ log.reverse.map JobObject.id ↔ id ∈ log.map JobObject.id := by
  rw [List.map_reverse, List.mem_reverse]

/-- An update. -/
theorem update (h : Views jobOf log s) {e : JobObject} (hjob : e.jobId = jobOf e.id)
    (hmem : e.id ∈ log.map JobObject.id) :
    Views jobOf (log.map fun x => if x.id = e.id then e else x) (s.saveExecution e) := by
  have hsame : ∀ x ∈ log, x.id = e.id → x.jobId = e.jobId := fun x hx hid => by rw [h.job x hx, hid, hjob]
  constructor
  · rw [ids_map]
    exact h.nodup
  · intro x hx
    obtain ⟨y, hy, rfl⟩ := List.mem_map.1 hx
    split
    · exact hjob
    · exact h.job y hy
  · have hnodup : (log.reverse.map JobObject.id).Nodup := by
      rw [List.map_reverse, List.nodup_reverse]
      exact h.nodup
    rw [JobObjects.saveExecution, h.byId, replaceExecution_eq_some hnodup (mem_ids_reverse.2 hmem), Option.getD_some,
      List.map_reverse]
  · intro jobId
    rw [JobObjects.saveExecution]
    dsimp only
    by_cases hjobId : jobId = e.jobId
    · subst hjobId
      have hlist := replaceExecution_filter (p := fun x => decide (x.jobId = e.jobId)) h.nodup
        (fun x hx hid => by rw [hsame x hx hid]) (decide_eq_true rfl) hmem
      rw [Function.update_self, h.lists, hlist, Option.getD_some]
    · rw [Function.update_of_ne hjobId, h.lists, List.filter_map]
      have hother : ∀ x ∈ log, x.jobId = jobId → (if x.id = e.id then e else x) = x := by
        intro x hx hx'
        refine if_neg fun hid => hjobId ?_
        rw [← hx', hsame x hx hid]
      have hfilter : log.filter ((fun x => decide (x.jobId = jobId)) ∘ fun x => if x.id = e.id then e else x) =
          log.filter (·.jobId = jobId) := by
        refine List.filter_congr fun x hx => ?_
        rw [Function.comp_apply]
        split
        · next hid => rw [hsame x hx hid]
        · rfl
      rw [hfilter]
      refine ((List.map_congr_left fun x hx => ?_).trans (List.map_id _)).symm
      obtain ⟨hx, hx'⟩ := List.mem_filter.1 hx
      exact hother x hx (of_decide_eq_true hx')

/-- An execution that is new. -/
theorem insert (h : Views jobOf log s) {e : JobObject} (hjob : e.jobId = jobOf e.id)
    (hmem : e.id ∉ log.map JobObject.id) :
    Views jobOf (e :: log) (s.saveExecution e) := by
  constructor
  · rw [List.map_cons, List.nodup_cons]
    exact ⟨hmem, h.nodup⟩
  · exact List.forall_mem_cons.2 ⟨hjob, h.job⟩
  · rw [JobObjects.saveExecution, h.byId, replaceExecution_eq_none (mt mem_ids_reverse.1 hmem), Option.getD_none,
      List.reverse_cons]
  · intro jobId
    rw [JobObjects.saveExecution]
    dsimp only
    by_cases hjobId : jobId = e.jobId
    · subst hjobId
      have hnone : e.id ∉ (log.filter (·.jobId = e.jobId)).map JobObject.id :=
        fun h => hmem ((List.filter_sublist.map _).subset h)
      rw [Function.update_self, h.lists, replaceExecution_eq_none hnone, Option.getD_none,
        List.filter_cons_of_pos (by simp)]
    · rw [Function.update_of_ne hjobId, h.lists, List.filter_cons_of_neg (by simpa using Ne.symm hjobId)]

theorem save (h : Views jobOf log s) {e : JobObject} (hjob : e.jobId = jobOf e.id) :
    Views jobOf (logCall log (.save e)) (s.saveExecution e) := by
  rw [logCall]
  split
  · next hmem => exact h.update hjob hmem
  · next hmem => exact h.insert hjob hmem

private theorem eraseP_eq_filter {l : List JobObject} {id : Str} (hnodup : (l.map JobObject.id).Nodup) :
    l.eraseP (·.id = id) = l.filter (·.id ≠ id) := by
  induction l with
  | nil => rfl
  | cons x l ih =>
    rw [List.map_cons, List.nodup_cons] at hnodup
    by_cases hx : x.id = id
    · rw [List.eraseP_cons_of_pos (by simpa using hx), List.filter_cons_of_neg (by simp [hx])]
      refine (List.filter_eq_self.2 fun y hy => ?_).symm
      exact decide_eq_true fun hid => hnodup.1 (List.mem_map.2 ⟨y, hy, hid.trans hx.symm⟩)
    · rw [List.eraseP_cons_of_neg (by simpa using hx), List.filter_cons_of_pos (by simpa using hx), ih hnodup.2]

/-- A deletion, and whether there was something to delete. -/
theorem delete (h : Views jobOf log s) (id : Str) : Views jobOf (logCall log (.delete id)) (s.deleteExecution id).1 ∧
    ((s.deleteExecution id).2 = true ↔ id ∈ log.map JobObject.id) := by
  rw [JobObjects.deleteExecution, logCall]
  cases hfind : s.executionsById.find? (·.id = id) with
  | none =>
    have hnot : id ∉ log.map JobObject.id := by
      rw [h.byId] at hfind
      intro hmem
      obtain ⟨x, hx, hid⟩ := List.mem_map.1 hmem
      exact absurd (decide_eq_true hid) (List.find?_eq_none.1 hfind x (List.mem_reverse.2 hx))
    have hself : log.filter (·.id ≠ id) = log :=
      List.filter_eq_self.2 fun x hx => decide_eq_true fun hid => hnot (List.mem_map.2 ⟨x, hx, hid⟩)
    rw [hself]
    exact ⟨h, iff_of_false Bool.false_ne_true hnot⟩
  | some e =>
    have hid : e.id = id := by simpa using List.find?_some hfind
    have he : e ∈ log := List.mem_reverse.1 (h.byId ▸ List.mem_of_find?_eq_some hfind)
    have hnodup : (log.reverse.map JobObject.id).Nodup := by
      rw [List.map_reverse, List.nodup_reverse]
      exact h.nodup
    have hkept := h.nodup.sublist ((List.filter_sublist (p := fun x => decide (x.id ≠ id))).map JobObject.id)
    refine ⟨⟨hkept, fun x hx => h.job x (List.mem_filter.1 hx).1, ?_, fun jobId => ?_⟩,
      iff_of_true rfl (List.mem_map.2 ⟨e, he, hid⟩)⟩
    · dsimp only
      rw [h.byId, eraseP_eq_filter hnodup, List.filter_reverse]
    · dsimp only
      by_cases hjobId : jobId = e.jobId
      · rw [hjobId, Function.update_self, h.lists, List.filter_comm]
      · rw [Function.update_of_ne hjobId, h.lists, List.filter_comm]
        refine (List.filter_eq_self.2 fun x hx => ?_).symm
        obtain ⟨hx, hxjob⟩ := List.mem_filter.1 hx
        have hne : x.id ≠ id := by
          intro hx'
          apply hjobId
          rw [← of_decide_eq_true hxjob, h.job x hx, hx', ← hid, ← h.job e he]
        exact decide_eq_true hne

theorem deletes (ids : List Str) (h : Views jobOf log s) :
    Views jobOf (log.filter (·.id ∉ ids)) (ids.foldl (fun s id => (s.deleteExecution id).1) s) := by
  induction ids generalizing log s with
  | nil => simpa using h
  | cons id ids ih =>
    have hrest := ih (h.delete id).1
    have hfilter : (logCall log (.delete id)).filter (·.id ∉ ids) = log.filter (·.id ∉ id :: ids) := by
      rw [logCall, List.filter_filter]
      refine List.filter_congr fun x _ => ?_
      simp [Bool.and_comm]
    rwa [hfilter] at hrest

/-- A prune deletes what is old, and gives its number. -/
theorem prune (h : Views jobOf log s) (before : DateTime) :
    Views jobOf (logCall log (.prune before)) (s.prune before).1 ∧
    (s.prune before).2 = (log.filter (·.started < asUtc before)).length := by
  constructor
  · have hdeleted := h.deletes ((s.executionsById.filter (·.started < asUtc before)).map JobObject.id)
    have hfilter : log.filter (·.id ∉ (s.executionsById.filter (·.started < asUtc before)).map JobObject.id) =
        log.filter (asUtc before ≤ ·.started) := by
      refine List.filter_congr fun x hx => ?_
      rw [decide_eq_decide, ← not_lt, not_iff_not, List.mem_map]
      constructor
      · rintro ⟨y, hy, hid⟩
        obtain ⟨hy, hold⟩ := List.mem_filter.1 hy
        rw [h.byId, List.mem_reverse] at hy
        rw [← List.inj_on_of_nodup_map h.nodup hy hx hid]
        exact of_decide_eq_true hold
      · intro hold
        exact ⟨x, List.mem_filter.2 ⟨by rw [h.byId]; exact List.mem_reverse.2 hx, decide_eq_true hold⟩, rfl⟩
    rw [hfilter] at hdeleted
    exact hdeleted
  · rw [JobObjects.prune]
    dsimp only
    rw [List.length_map, h.byId, List.filter_reverse, List.length_reverse]

/-- A call, of an execution that is saved for its job. -/
theorem call (h : Views jobOf log s) {call : StorageCall} (hjob : ∀ e, call = .save e → e.jobId = jobOf e.id) :
    Views jobOf (logCall log call) (s.call call) := by
  cases call with
  | save e => exact h.save (hjob e rfl)
  | delete id => exact (h.delete id).1
  | prune before => exact (h.prune before).1

end Views

/-- Calls keep the two views on the one list. -/
private theorem run_views_log {jobOf : Str → Str} {calls : List StorageCall}
    (hjob : ∀ e, .save e ∈ calls → e.jobId = jobOf e.id) :
    Views jobOf (savedLog calls) (.run calls) := by
  have hstep : ∀ (calls : List StorageCall) (log : List JobObject) (s : JobObjects), Views jobOf log s →
      (∀ e, .save e ∈ calls → e.jobId = jobOf e.id) →
      Views jobOf (calls.foldl logCall log) (calls.foldl JobObjects.call s) := by
    intro calls
    induction calls with
    | nil => exact fun log s h _ => h
    | cons call calls ih =>
      intro log s h hjob
      exact ih _ _ (h.call fun e he => hjob e (he ▸ List.mem_cons_self)) fun e he => hjob e (List.mem_cons_of_mem _ he)
  exact hstep calls [] .empty (Views.empty jobOf) hjob

/-- The lists of the jobs are parts of the executions by id, in another order. -/
theorem Views.perm {jobOf : Str → Str} {log : List JobObject} {s : JobObjects} (h : Views jobOf log s) (jobId : Str) :
    (s.storage.executions jobId).Perm (s.storage.executionsById.filter (·.jobId = jobId)) := by
  have hlist : (s.executions jobId).Perm (s.executionsById.filter (·.jobId = jobId)) := by
    rw [h.lists, h.byId]
    exact (List.reverse_perm log).symm.filter _
  have hmap := hlist.map JobObject.execution
  rwa [JobObjects.storage, List.filter_map]

/-- After any calls, with an execution always saved for the same job: an id is there once; the list of a job has the
objects of the executions of the job; the lists have what was saved first last, also after updates; and `prune`
deletes what started before its time and gives its number. -/
theorem run_views (jobOf : Str → Str) {calls : List StorageCall} (hjob : ∀ e, .save e ∈ calls → e.jobId = jobOf e.id) :
    let s := JobObjects.run calls
    ((s.executionsById.map JobObject.id).Nodup ∧ ∀ jobId, ((s.executions jobId).map JobObject.id).Nodup) ∧
    (∀ jobId e, e ∈ s.executions jobId ↔ e ∈ s.executionsById ∧ e.jobId = jobId) ∧
    (∀ jobId, s.executions jobId = (savedLog calls).filter (·.jobId = jobId)) ∧
    (∀ before, (s.prune before).1.executionsById = s.executionsById.filter (asUtc before ≤ ·.started) ∧
      (∀ jobId, (s.prune before).1.executions jobId = (s.executions jobId).filter (asUtc before ≤ ·.started)) ∧
      (s.prune before).2 = (s.executionsById.filter (·.started < asUtc before)).length) := by
  intro s
  have h : Views jobOf (savedLog calls) s := run_views_log hjob
  refine ⟨⟨?_, fun jobId => ?_⟩, fun jobId e => ?_, h.lists, fun before => ?_⟩
  · rw [h.byId, List.map_reverse, List.nodup_reverse]
    exact h.nodup
  · rw [h.lists]
    exact h.nodup.sublist (List.filter_sublist.map _)
  · rw [h.lists, h.byId, List.mem_reverse, List.mem_filter, decide_eq_true_iff]
  · obtain ⟨hpruned, hnumber⟩ := h.prune before
    refine ⟨?_, fun jobId => ?_, ?_⟩
    · rw [hpruned.byId, h.byId, logCall, List.filter_reverse]
    · rw [hpruned.lists, h.lists, logCall, List.filter_comm]
    · rw [hnumber, h.byId, List.filter_reverse, List.length_reverse]

section

private def savedExecution (address : Nat) (id jobId : String) (wallClock : Int) : JobObject :=
  ⟨address, { id := id.toList, jobId := jobId.toList, startedAt := ⟨wallClock, none⟩ }⟩

private def savedCalls : List StorageCall :=
  [.save (savedExecution 0 "a" "job" 1), .save (savedExecution 1 "b" "job" 2), .save (savedExecution 2 "a" "job" 1)]

/-- An update keeps its place, and a prune removes the older of the two. -/
theorem run_views_update :
    (JobObjects.run savedCalls).executions "job".toList = [savedExecution 1 "b" "job" 2, savedExecution 2 "a" "job" 1] ∧
    ((JobObjects.run savedCalls).prune ⟨2, none⟩).1.executionsById = [savedExecution 1 "b" "job" 2] := by
  have hjob : ∀ e, .save e ∈ savedCalls → e.jobId = "job".toList := by
    intro e he
    simp only [savedCalls, List.mem_cons, StorageCall.save.injEq, List.not_mem_nil, or_false] at he
    obtain rfl | rfl | rfl := he <;> rfl
  obtain ⟨-, -, hlists, hprune⟩ := run_views (fun _ => "job".toList) hjob
  exact ⟨hlists _, (hprune _).1⟩

end

end CliServer
