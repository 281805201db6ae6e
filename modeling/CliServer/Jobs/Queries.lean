import CliServer.Jobs.Executions

/-!
# Listing executions across jobs

`JobExecutionQuery.merge` reads the listings of the jobs one by one, the first `offset + limit` of each, and merges
them; `query_executions` filters and sorts all executions.  The two answer alike, except that with `since` the merge
reads at most `2**31 - 1` executions of a job (`merge_eq_query_iff`).
-/

namespace CliServer

open MergedPages InMemoryJobStorage

/-- The jobs that `merge` is called with: those of the query, or at least all that have executions. -/
def JobExecutionQuery.Lists (query : JobExecutionQuery) (storage : InMemoryJobStorage) (jobs : List Str) : Prop :=
  match query.jobIds with
  | some ids => jobs = ids
  | none => ∀ e ∈ storage.executionsById, e.jobId ∈ jobs

section Merge

variable {t : CaseTable} {storage : InMemoryJobStorage} {query : JobExecutionQuery} {jobs : List Str} {jobId : Str}

/-- Whether an execution passes the status filter. -/
def JobExecutionQuery.statusOk (t : CaseTable) (query : JobExecutionQuery) (e : JobExecution) : Bool :=
  (query.status.bind nonEmpty).all fun status => lower t e.status = lower t status

/-- Whether an execution started late enough. -/
def JobExecutionQuery.sinceOk (query : JobExecutionQuery) (e : JobExecution) : Bool :=
  query.since.all fun since => asUtc since ≤ e.started

/-- Whether a job is asked for. -/
def JobExecutionQuery.jobOk (query : JobExecutionQuery) (jobId : Str) : Bool := query.jobIds.all fun ids => jobId ∈ ids

private theorem matches_eq (e : JobExecution) :
    query.matches t e = (query.jobOk e.jobId && query.statusOk t e && query.sinceOk e) := rfl

/-- The executions that match, newest first. -/
def found (t : CaseTable) (storage : InMemoryJobStorage) (query : JobExecutionQuery) : List JobExecution :=
  newestFirst JobExecution.started (storage.executionsById.filter (query.matches t))

private theorem descending_found (h : storage.Listed t) : Descending JobExecution.started (found t storage query) :=
  descending_newestFirst (h.distinct.sublist (List.filter_sublist.map _))

private theorem found_perm (t : CaseTable) (storage : InMemoryJobStorage) (query : JobExecutionQuery) :
    (found t storage query).Perm (storage.executionsById.filter (query.matches t)) := newestFirst_perm _

private theorem mem_found {e : JobExecution} :
    e ∈ found t storage query ↔ e ∈ storage.executionsById ∧ query.matches t e = true := by
  rw [(found_perm t storage query).mem_iff, List.mem_filter]

private theorem jobOk_of_mem (hjobs : query.Lists storage jobs) (hmem : jobId ∈ jobs) : query.jobOk jobId = true := by
  unfold JobExecutionQuery.jobOk
  unfold JobExecutionQuery.Lists at hjobs
  cases hids : query.jobIds with
  | none => rfl
  | some ids =>
    rw [hids] at hjobs
    subst hjobs
    simpa using hmem

private theorem jobs_cover (hjobs : query.Lists storage jobs) {e : JobExecution} (he : e ∈ found t storage query) :
    e.jobId ∈ jobs.eraseDups := by
  rw [List.mem_eraseDups]
  obtain ⟨hmem, hmatch⟩ := mem_found.1 he
  unfold JobExecutionQuery.Lists at hjobs
  cases hids : query.jobIds with
  | none =>
    rw [hids] at hjobs
    exact hjobs e hmem
  | some ids =>
    rw [hids] at hjobs
    subst hjobs
    rw [matches_eq, Bool.and_eq_true, Bool.and_eq_true] at hmatch
    have hjob := hmatch.1.1
    unfold JobExecutionQuery.jobOk at hjob
    rw [hids] at hjob
    simpa using hjob

/-- The listing of a job, filtered, is what is found of it. -/
private theorem filter_executions (h : storage.Listed t) (hjobs : query.Lists storage jobs) (hmem : jobId ∈ jobs) :
    ((storage.executions jobId).filter (query.statusOk t)).filter query.sinceOk =
      (found t storage query).filter (·.jobId = jobId) := by
  have hlisted := ((h.newest jobId).filter (query.statusOk t)).filter query.sinceOk
  refine hlisted.eq_of_perm ((descending_found h).filter _) ?_
  have hleft := ((h.perm jobId).filter (query.statusOk t)).filter query.sinceOk
  have hright := (found_perm t storage query).filter fun e => decide (e.jobId = jobId)
  refine hleft.trans (List.Perm.trans (List.Perm.of_eq ?_) hright.symm)
  rw [List.filter_filter, List.filter_filter, List.filter_filter]
  refine List.filter_congr fun e _ => ?_
  rw [matches_eq]
  by_cases hjob : e.jobId = jobId
  · rw [hjob, jobOk_of_mem hjobs hmem]
    simp [Bool.and_comm]
  · simp [hjob]

private theorem lower_ne_nil (hcase : ∀ before c after, t before c after ≠ []) {s : Str} (hs : s ≠ []) :
    lower t s ≠ [] := by
  cases s with
  | nil => exact absurd rfl hs
  | cons c s =>
    have hfirst : (lowerChar c).getD (t [] c s) ≠ [] := by
      unfold lowerChar
      split_ifs
      · simp
      · simp
      · simp
      · simp
      · simp
      · exact hcase [] c s
    intro hnil
    exact hfirst (List.append_eq_nil_iff.1 hnil).1

/-- What `get_executions` lists with the status that `merge` asks for. -/
private theorem listJob_status (h : storage.Listed t) (hcase : ∀ before c after, t before c after ≠ []) (size : Nat) :
    storage.listJob jobId size ((query.status.bind nonEmpty).map (lower t)) =
      (((storage.executions jobId).filter (query.statusOk t)).take size,
        ((storage.executions jobId).filter (query.statusOk t)).length) := by
  have hall : withStatus ((query.status.bind nonEmpty).map (lower t)) (storage.executions jobId) =
      (storage.executions jobId).filter (query.statusOk t) := by
    unfold JobExecutionQuery.statusOk
    cases hstatus : query.status.bind nonEmpty with
    | none => exact (List.filter_eq_self.2 fun _ _ => rfl).symm
    | some status =>
      have hne : status ≠ [] := by
        obtain ⟨status', -, hsome⟩ := Option.bind_eq_some_iff.1 hstatus
        unfold nonEmpty at hsome
        split at hsome
        · cases hsome
        · obtain rfl := Option.some.inj hsome
          assumption
      have hlower : nonEmpty (lower t status) = some (lower t status) := if_neg (lower_ne_nil hcase hne)
      simp only [withStatus, Option.map_some, Option.bind_some, hlower, Option.all_some]
      refine List.filter_congr fun e he => ?_
      have hmem : e ∈ storage.executionsById := List.mem_of_mem_filter ((h.perm jobId).mem_iff.1 he)
      rw [h.lower e hmem]
  unfold InMemoryJobStorage.listJob InMemoryJobStorage.getExecutions
  dsimp only
  rw [hall]
  rfl

/-- What `merge` takes of a job: the first `offset + limit` of what is found of it, and their number; with `since` all
of it, when a job has no more than `merge` reads. -/
private theorem mergeJob_eq (h : storage.Listed t) (hcase : ∀ before c after, t before c after ≠ [])
    (hjobs : query.Lists storage jobs) (hmem : jobId ∈ jobs) :
    query.mergeJob t storage.listJob jobId =
      match query.since with
      | none =>
        (((found t storage query).filter (·.jobId = jobId)).take (query.offset + query.limit),
          ((found t storage query).filter (·.jobId = jobId)).length)
      | some since =>
        let taken := (((storage.executions jobId).filter (query.statusOk t)).take maxListed).filter
          (asUtc since ≤ ·.started)
        (taken, taken.length) := by
  have hfilter := filter_executions h hjobs hmem
  unfold JobExecutionQuery.mergeJob
  dsimp only
  rw [listJob_status h hcase]
  cases hsince : query.since with
  | none =>
    have hall : query.sinceOk = fun _ => true := by
      unfold JobExecutionQuery.sinceOk
      rw [hsince]
      rfl
    rw [hall, List.filter_true] at hfilter
    dsimp only
    rw [if_pos rfl, hfilter]
  | some since =>
    have hnot : ¬ (some since : Option DateTime) = none := by simp
    dsimp only
    rw [if_neg hnot]

private theorem nodup_eraseDups (l : List Str) : l.eraseDups.Nodup := by
  generalize hn : l.length = n
  induction n using Nat.strong_induction_on generalizing l with
  | _ n ih =>
    cases l with
    | nil => exact List.nodup_nil
    | cons x l =>
      have hlt : (l.filter fun y => !y == x).length < n := by
        have hle := List.length_filter_le (fun y => !y == x) l
        rw [List.length_cons] at hn
        omega
      rw [List.eraseDups_cons, List.nodup_cons, List.mem_eraseDups]
      refine ⟨fun hmem => ?_, ih _ hlt _ rfl⟩
      have hx := (List.mem_filter.1 hmem).2
      simp at hx

/-- How many of a job match. -/
def matching (t : CaseTable) (storage : InMemoryJobStorage) (query : JobExecutionQuery) (jobId : Str) : Nat :=
  ((storage.executions jobId).filter (query.matches t)).length

private theorem length_found_job (h : storage.Listed t) (query : JobExecutionQuery) (jobId : Str) :
    ((found t storage query).filter (·.jobId = jobId)).length = matching t storage query jobId := by
  have hright := (found_perm t storage query).filter fun e => decide (e.jobId = jobId)
  have hleft := (h.perm jobId).filter (query.matches t)
  unfold matching
  rw [hleft.length_eq, List.filter_filter]
  refine hright.length_eq.trans ?_
  rw [List.filter_filter]
  congr 1
  exact List.filter_congr fun e _ => Bool.and_comm _ _

/-- What is found of the jobs, together. -/
private theorem perm_jobs (h : storage.Listed t) (hjobs : query.Lists storage jobs) :
    (jobs.eraseDups.flatMap fun jobId => (found t storage query).filter (·.jobId = jobId)).Perm
      (found t storage query) :=
  perm_flatMap_group (nodup_eraseDups jobs) (fun _ he => jobs_cover hjobs he) (descending_found h).nodup

private theorem sum_found (h : storage.Listed t) (hjobs : query.Lists storage jobs) :
    (jobs.eraseDups.map (matching t storage query)).sum = (found t storage query).length := by
  have hperm := perm_jobs h hjobs
  rw [← hperm.length_eq, List.length_flatMap]
  congr 1
  exact List.map_congr_left fun jobId _ => (length_found_job h query jobId).symm

private theorem page_eq_of_take {l l' : List JobExecution} {offset limit : Nat}
    (h : l.take (offset + limit) = l'.take (offset + limit)) : page offset limit l = page offset limit l' := by
  have hpage : ∀ l : List JobExecution, page offset limit l = (l.take (offset + limit)).drop offset := by
    intro l
    rw [List.drop_take, Nat.add_sub_cancel_left]
    rfl
  rw [hpage, hpage, h]

private theorem merge_no_since (h : storage.Listed t) (hcase : ∀ before c after, t before c after ≠ [])
    (hjobs : query.Lists storage jobs) (hsince : query.since = none) :
    query.merge t jobs storage.listJob = storage.queryExecutions t query := by
  have hjob : ∀ jobId ∈ jobs.eraseDups, query.mergeJob t storage.listJob jobId =
      (((found t storage query).filter (·.jobId = jobId)).take (query.offset + query.limit),
        ((found t storage query).filter (·.jobId = jobId)).length) := by
    intro jobId hmem
    rw [mergeJob_eq h hcase hjobs (List.mem_eraseDups.1 hmem), hsince]
  have htake : (newestFirst JobExecution.started (jobs.eraseDups.flatMap fun jobId =>
      ((found t storage query).filter (·.jobId = jobId)).take (query.offset + query.limit))).take
        (query.offset + query.limit) = (found t storage query).take (query.offset + query.limit) :=
    take_merge (nodup_eraseDups jobs) (fun e he => jobs_cover hjobs he) (descending_found h)
  unfold JobExecutionQuery.merge InMemoryJobStorage.queryExecutions
  dsimp only
  refine Prod.ext (page_eq_of_take ?_) ?_
  · rw [List.flatMap_map]
    refine Eq.trans ?_ htake
    congr 2
    exact List.flatMap_congr fun jobId hmem => congrArg Prod.fst (hjob jobId hmem)
  · refine Eq.trans (congrArg List.sum ?_) (sum_found h hjobs)
    rw [List.map_map]
    refine List.map_congr_left fun jobId hmem => ?_
    rw [Function.comp_apply, hjob jobId hmem]
    exact length_found_job h query jobId

/-- With `since`, what `merge` takes of a job that has no more matches than it reads. -/
private theorem mergeJob_since (h : storage.Listed t) (hcase : ∀ before c after, t before c after ≠ [])
    (hjobs : query.Lists storage jobs) (hmem : jobId ∈ jobs) {since : DateTime} (hsince : query.since = some since)
    (hfew : matching t storage query jobId ≤ maxListed) :
    query.mergeJob t storage.listJob jobId =
      ((found t storage query).filter (·.jobId = jobId), matching t storage query jobId) := by
  have hfilter := filter_executions h hjobs hmem
  have hsinceOk : query.sinceOk = fun e => decide (asUtc since ≤ e.started) := by
    unfold JobExecutionQuery.sinceOk
    rw [hsince]
    rfl
  rw [hsinceOk] at hfilter
  have hlength := length_found_job h query jobId
  have hall := filter_take ((h.newest jobId).filter (query.statusOk t)) (asUtc since) (n := maxListed)
    (by rw [hfilter, hlength]; exact hfew)
  rw [hfilter] at hall
  rw [mergeJob_eq h hcase hjobs hmem, hsince]
  dsimp only
  rw [hall, hlength]

/-- With `since`, a job counts for no more than its matches, nor for more than `merge` reads. -/
private theorem mergeJob_since_le (h : storage.Listed t) (hcase : ∀ before c after, t before c after ≠ [])
    (hjobs : query.Lists storage jobs) (hmem : jobId ∈ jobs) (hsince : query.since ≠ none) :
    (query.mergeJob t storage.listJob jobId).2 ≤ matching t storage query jobId ∧
      (query.mergeJob t storage.listJob jobId).2 ≤ maxListed := by
  obtain ⟨since, hsome⟩ := Option.ne_none_iff_exists'.1 hsince
  have hfilter := filter_executions h hjobs hmem
  have hsinceOk : query.sinceOk = fun e => decide (asUtc since ≤ e.started) := by
    unfold JobExecutionQuery.sinceOk
    rw [hsome]
    rfl
  rw [hsinceOk] at hfilter
  rw [mergeJob_eq h hcase hjobs hmem, hsome]
  dsimp only
  constructor
  · rw [← length_found_job h query jobId, ← hfilter]
    exact ((List.take_sublist _ _).filter _).length_le
  · exact (List.length_filter_le _ _).trans (List.length_take_le _ _)

/-- With `since`, the total misses what a job has beyond `maxListed` matches. -/
private theorem merge_total_lt (h : storage.Listed t) (hcase : ∀ before c after, t before c after ≠ [])
    (hjobs : query.Lists storage jobs) (hsince : query.since ≠ none) (hmem : jobId ∈ jobs)
    (hmany : maxListed < matching t storage query jobId) :
    (query.merge t jobs storage.listJob).2 < (storage.queryExecutions t query).2 := by
  have htotal : (storage.queryExecutions t query).2 = (jobs.eraseDups.map (matching t storage query)).sum :=
    (sum_found h hjobs).symm
  have hmerge : (query.merge t jobs storage.listJob).2 =
      (jobs.eraseDups.map fun jobId => (query.mergeJob t storage.listJob jobId).2).sum := by
    unfold JobExecutionQuery.merge
    dsimp only
    rw [List.map_map]
    rfl
  rw [htotal, hmerge]
  refine List.sum_lt_sum _ _ (fun jobId' hmem' => ?_) ⟨jobId, List.mem_eraseDups.2 hmem, ?_⟩
  · exact (mergeJob_since_le h hcase hjobs (List.mem_eraseDups.1 hmem') hsince).1
  · exact lt_of_le_of_lt (mergeJob_since_le h hcase hjobs hmem hsince).2 hmany

private theorem merge_since (h : storage.Listed t) (hcase : ∀ before c after, t before c after ≠ [])
    (hjobs : query.Lists storage jobs) (hsince : query.since ≠ none)
    (hfew : ∀ jobId ∈ jobs, matching t storage query jobId ≤ maxListed) :
    query.merge t jobs storage.listJob = storage.queryExecutions t query := by
  obtain ⟨since, hsome⟩ := Option.ne_none_iff_exists'.1 hsince
  have hjob : ∀ jobId ∈ jobs.eraseDups, query.mergeJob t storage.listJob jobId =
      ((found t storage query).filter (·.jobId = jobId), matching t storage query jobId) := by
    intro jobId hmem
    have hmem := List.mem_eraseDups.1 hmem
    exact mergeJob_since h hcase hjobs hmem hsome (hfew jobId hmem)
  have hperm := perm_jobs h hjobs
  have hmerged : (jobs.eraseDups.map (query.mergeJob t storage.listJob)).flatMap Prod.fst =
      jobs.eraseDups.flatMap fun jobId => (found t storage query).filter (·.jobId = jobId) := by
    rw [List.flatMap_map]
    exact List.flatMap_congr fun jobId hmem => congrArg Prod.fst (hjob jobId hmem)
  unfold JobExecutionQuery.merge InMemoryJobStorage.queryExecutions
  dsimp only
  refine Prod.ext ?_ ?_
  · rw [hmerged, newestFirst_eq (descending_found h) hperm]
    rfl
  · refine Eq.trans (congrArg List.sum ?_) (sum_found h hjobs)
    rw [List.map_map]
    exact List.map_congr_left fun jobId hmem => congrArg Prod.snd (hjob jobId hmem)

end Merge

/-- `merge` over the listings of the jobs gives the same page and the same total as the query, exactly when it is called
without `since`, or every job that it lists has at most `2**31 - 1` matches. -/
theorem merge_eq_query_iff (t : CaseTable) (hcase : ∀ before c after, t before c after ≠ [])
    (storage : InMemoryJobStorage) (h : storage.Listed t) (query : JobExecutionQuery) (jobs : List Str)
    (hjobs : query.Lists storage jobs) :
    query.merge t jobs storage.listJob = storage.queryExecutions t query ↔
      (query.since = none ∨ ∀ jobId ∈ jobs, ((storage.executions jobId).filter (query.matches t)).length ≤ maxListed) := by
  by_cases hsince : query.since = none
  · exact ⟨fun _ => .inl hsince, fun _ => merge_no_since h hcase hjobs hsince⟩
  · constructor
    · intro heq
      refine .inr fun jobId hmem => ?_
      by_contra hmany
      have hlt := merge_total_lt h hcase hjobs hsince hmem (not_le.1 hmany)
      rw [heq] at hlt
      exact Nat.lt_irrefl _ hlt
    · intro hfew
      exact merge_since h hcase hjobs hsince (hfew.resolve_left hsince)

/-- The storage of some executions. -/
def storageOf (l : List JobExecution) : InMemoryJobStorage :=
  ⟨l, fun jobId => newestFirst JobExecution.started (l.filter (·.jobId = jobId))⟩

private theorem listed_storageOf {t : CaseTable} {l : List JobExecution}
    (hdistinct : (l.map JobExecution.started).Nodup)
    (hlower : ∀ e ∈ l, lower t e.status = e.status) : (storageOf l).Listed t :=
  ⟨hdistinct, hlower, fun _ => newestFirst_perm _, fun _ =>
    descending_newestFirst (hdistinct.sublist (List.filter_sublist.map _))⟩

/-- The second newest failure of two jobs, one of them named twice. -/
theorem merge_eq_query_two :
    let t : CaseTable := fun _ c _ => [c]
    let storage := storageOf [⟨['0'], ['a'], [], "failed".toList, ⟨0, none⟩, none⟩,
      ⟨['1'], ['b'], [], "failed".toList, ⟨7200, some 3600⟩, none⟩,
      ⟨['2'], ['a'], [], "failed".toList, ⟨60, none⟩, none⟩]
    let query : JobExecutionQuery :=
      { jobIds := some [['a'], ['b'], ['a']], status := some "Failed".toList, limit := 1, offset := 1 }
    query.merge t [['a'], ['b'], ['a']] storage.listJob = storage.queryExecutions t query := by
  intro t storage query
  have hlisted : storage.Listed t := listed_storageOf (by decide) (by decide)
  exact (merge_eq_query_iff t (fun _ _ _ => List.cons_ne_nil _ _) storage hlisted query _ rfl).2 (.inl rfl)

/-- As many runs of one job, started one after another. -/
def manyRuns (n : Nat) : List JobExecution :=
  (List.range n).map fun i : Nat => ⟨(toString i).toList, ['j'], [], "completed".toList, ⟨(i : Int), none⟩, none⟩

/-- A job with `2**31` runs: the merge counts one less. -/
theorem merge_misses_run :
    let t : CaseTable := fun _ c _ => [c]
    ∃ (storage : InMemoryJobStorage) (query : JobExecutionQuery) (jobs : List Str), storage.Listed t ∧
      query.Lists storage jobs ∧ query.merge t jobs storage.listJob ≠ storage.queryExecutions t query := by
  intro t
  set runs := manyRuns (2 ^ 31) with hruns
  have hof : ∀ e ∈ runs, ∃ i : Nat, e = ⟨(toString i).toList, ['j'], [], "completed".toList, ⟨i, none⟩, none⟩ := by
    intro e he
    obtain ⟨i, -, rfl⟩ := List.mem_map.1 he
    exact ⟨i, rfl⟩
  have hdistinct : (runs.map JobExecution.started).Nodup := by
    rw [hruns, manyRuns, List.map_map]
    exact List.nodup_range.map fun i j hij => Int.ofNat_inj.1 hij
  have hlisted : (storageOf runs).Listed t := by
    refine listed_storageOf hdistinct fun e he => ?_
    obtain ⟨i, rfl⟩ := hof e he
    exact (by decide : lower t "completed".toList = "completed".toList)
  set query : JobExecutionQuery := { jobIds := some [['j']], since := some ⟨0, none⟩ }
  have hmatches : ∀ e ∈ runs, query.matches t e = true := by
    intro e he
    obtain ⟨i, rfl⟩ := hof e he
    have hstart : asUtc ⟨0, none⟩ ≤ asUtc ⟨i, none⟩ := Int.natCast_nonneg i
    rw [matches_eq]
    exact decide_eq_true hstart
  have hall : matching t (storageOf runs) query ['j'] = 2 ^ 31 := by
    have hjob : runs.filter (·.jobId = ['j']) = runs := by
      refine List.filter_eq_self.2 fun e he => ?_
      obtain ⟨i, rfl⟩ := hof e he
      rfl
    have hperm : ((storageOf runs).executions ['j']).Perm runs := by
      unfold storageOf
      dsimp only
      rw [hjob]
      exact newestFirst_perm runs
    unfold matching
    rw [List.filter_eq_self.2 fun e he => hmatches e (hperm.mem_iff.1 he), hperm.length_eq, hruns, manyRuns,
      List.length_map, List.length_range]
  refine ⟨storageOf runs, query, [['j']], hlisted, rfl, fun heq => ?_⟩
  have hlists : query.Lists (storageOf runs) [['j']] := rfl
  have hsince : query.since ≠ none := Option.some_ne_none _
  have hmany : maxListed < matching t (storageOf runs) query ['j'] := by
    rw [hall]
    decide
  have hlt := merge_total_lt hlisted (fun _ _ _ => List.cons_ne_nil _ _) hlists hsince (List.mem_singleton.2 rfl) hmany
  rw [heq] at hlt
  exact Nat.lt_irrefl _ hlt

end CliServer
