import CliServer.Jobs.Executions
import CliServer.Lib.Columns
import CliServer.Lib.Tallies

/-!
# Run statistics

`compute_stats` counts the runs of a time range by outcome: in time columns, in all, and for each job, with figures on
their durations.  Times are rational milliseconds.  Every run is in the one column of its start, and the four tallies
agree (`stats_conserved`).
-/

namespace CliServer

open Columns MergedPages Tallies

/-- `OUTCOMES`. -/
inductive RunOutcome where
  | succeeded | failed | cancelled | running
  deriving DecidableEq

def outcomes : List RunOutcome := [.succeeded, .failed, .cancelled, .running]

/-- `_SUCCEEDED`. -/
def succeededStatuses : List Str := ["completed".toList, "succeeded".toList]

/-- `_FAILED`. -/
def failedStatuses : List Str := ["failed".toList, "error".toList, "timed_out".toList, "timedout".toList]

/-- `_RUNNING`. -/
def runningStatuses : List Str := ["running".toList, "pending".toList]

variable (t : CaseTable)

/-- `outcome_of`. -/
def outcomeOf (status : Option Str) : RunOutcome :=
  let value := lower t (strip (status.getD []))
  if value ∈ succeededStatuses then .succeeded
  else if value ∈ failedStatuses then .failed
  else if value ∈ runningStatuses then .running
  else .cancelled

def JobExecution.outcome (run : JobExecution) : RunOutcome := outcomeOf t (some run.status)

/-! ### The figures of some runs -/

/-- What the loop of `_summary` keeps. -/
structure Tally where
  counts : RunOutcome → Nat := fun _ => 0
  durations : List ℚ := []
  lastFailure : Option Int := none

/-- `counts[outcome] += 1`. -/
def countOutcome (counts : RunOutcome → Nat) (outcome : RunOutcome) : RunOutcome → Nat :=
  Function.update counts outcome (counts outcome + 1)

def Tally.add (tally : Tally) (run : JobExecution) : Tally where
  counts := countOutcome tally.counts (run.outcome t)
  durations := if run.outcome t ≠ .running then tally.durations ++ run.duration.toList else tally.durations
  lastFailure :=
    if run.outcome t = .failed then
      match tally.lastFailure with
      | none => some run.started
      | some last => some (if last < run.started then run.started else last)
    else tally.lastFailure

/-- The figures of `_summary`. -/
structure RunSummary where
  total : Nat
  counts : RunOutcome → Nat
  successRate : Option ℚ
  avgDuration : Option ℚ
  p95Duration : Option ℚ
  maxDuration : Option ℚ
  lastFailureAt : Option Int

/-- `math.ceil(0.95 * n) - 1`. -/
def p95Index (n : Nat) : Int := ⌈(95 / 100 : ℚ) * n⌉ - 1

/-- `_summary`. -/
def runSummary (runs : List JobExecution) : RunSummary :=
  let tally := runs.foldl (Tally.add t) {}
  let decided := tally.counts .succeeded + tally.counts .failed
  let durations := tally.durations.insertionSort (· ≤ ·)
  { total := runs.length
    counts := tally.counts
    successRate := if decided = 0 then none else some (tally.counts .succeeded / decided)
    avgDuration := if durations = [] then none else some (durations.sum / durations.length)
    p95Duration := if durations = [] then none else durations[(p95Index durations.length).toNat]?
    maxDuration := durations.getLast?
    lastFailureAt := tally.lastFailure }

/-! ### The statistics of a range -/

/-- `timestamp() * 1000`. -/
def timestampMs (time : Int) : ℚ := time / 1000

/-- The runs of a time column by outcome; `start` is its start. -/
structure StatsColumn where
  start : ℚ
  counts : RunOutcome → Nat := fun _ => 0

/-- A run listed in `recent`. -/
structure RecentRun where
  status : Str
  startedAt : Int
  duration : Option ℚ

structure JobStats where
  jobId : Str
  jobName : Str
  summary : RunSummary
  recent : List RecentRun

structure RunStats where
  since : Int
  till : Int
  bucketMs : ℚ
  buckets : List StatsColumn
  totals : RunSummary
  jobs : List JobStats

/-- `RECENT_RUNS`. -/
def recentRuns : Nat := 12

/-- `bucket_ms`. -/
def bucketWidth (since till : Int) (buckets : Nat) : ℚ := (timestampMs till - timestampMs since) / buckets

/-- The index of the column that a run is counted in. -/
def columnIndex (since : Int) (bucketMs : ℚ) (buckets : Nat) (run : JobExecution) : Nat :=
  let offset := timestampMs run.started - timestampMs since
  (min (max ⌊offset / bucketMs⌋ 0) (buckets - 1)).toNat

def StatsColumn.add (outcome : RunOutcome) (column : StatsColumn) : StatsColumn :=
  { column with counts := countOutcome column.counts outcome }

/-- The columns, with the runs counted in them. -/
def statsColumns (runs : List JobExecution) (since : Int) (bucketMs : ℚ) (buckets : Nat) : List StatsColumn :=
  let columns := (List.range buckets).map fun i => { start := timestampMs since + i * bucketMs }
  runs.foldl (fun columns run => columns.modify (columnIndex since bucketMs buckets run) (.add (run.outcome t))) columns

/-- The entry of a job, of its runs. -/
def jobStats (jobNames : Str → Option Str) (jobId : Str) (runs : List JobExecution) : JobStats :=
  let jobRuns := newestFirst JobExecution.started runs
  let name := (jobRuns.find? (·.jobName ≠ [])).map JobExecution.jobName
  { jobId := jobId
    jobName := ((name.or (jobNames jobId)).bind nonEmpty).getD jobId
    summary := runSummary t jobRuns
    recent := (jobRuns.take recentRuns).map fun r => ⟨r.status, r.started, r.duration⟩ }

/-- `compute_stats`. -/
def computeStats (runs : List JobExecution) (since till : Int) (buckets : Nat) (jobNames : Str → Option Str) :
    RunStats :=
  let bucketMs := bucketWidth since till buckets
  let byJob := groupBy JobExecution.jobId runs
  { since := since
    till := till
    bucketMs := bucketMs
    buckets := statsColumns t runs since bucketMs buckets
    totals := runSummary t runs
    jobs := ((byJob.map Prod.fst).insertionSort (· ≤ ·)).map fun jobId =>
      jobStats t jobNames jobId (group byJob jobId) }

variable {t} {runs : List JobExecution} {since till : Int} {buckets : Nat} {bucketMs : ℚ}

/-! ### One summary -/

private theorem countOutcome_apply (counts : RunOutcome → Nat) (outcome outcome' : RunOutcome) :
    countOutcome counts outcome outcome' = counts outcome' + if outcome = outcome' then 1 else 0 := by
  unfold countOutcome
  by_cases h : outcome = outcome'
  · subst h
    rw [Function.update_self, if_pos rfl]
  · rw [Function.update_of_ne fun heq => h heq.symm, if_neg h, Nat.add_zero]

/-- The durations of the finished runs. -/
def finishedDurations (t : CaseTable) (runs : List JobExecution) : List ℚ :=
  runs.flatMap fun run => if run.outcome t ≠ .running then run.duration.toList else []

private theorem foldl_tally (tally : Tally) (runs : List JobExecution) :
    (∀ outcome, (runs.foldl (Tally.add t) tally).counts outcome =
      tally.counts outcome + runs.countP (·.outcome t = outcome)) ∧
    (runs.foldl (Tally.add t) tally).durations = tally.durations ++ finishedDurations t runs := by
  induction runs generalizing tally with
  | nil => exact ⟨fun _ => rfl, (List.append_nil _).symm⟩
  | cons run runs ih =>
    obtain ⟨hcounts, hdurations⟩ := ih (tally.add t run)
    refine ⟨fun outcome => ?_, ?_⟩
    · have hadd : (tally.add t run).counts = countOutcome tally.counts (run.outcome t) := rfl
      rw [List.foldl_cons, hcounts, hadd, countOutcome_apply, List.countP_cons]
      simp only [decide_eq_true_eq]
      omega
    · have hadd : (tally.add t run).durations = tally.durations ++
          if run.outcome t ≠ .running then run.duration.toList else [] := by
        unfold Tally.add
        dsimp only
        split
        · rfl
        · rw [List.append_nil]
      rw [List.foldl_cons, hdurations, hadd, List.append_assoc]
      rfl

private theorem runSummary_counts (outcome : RunOutcome) :
    (runSummary t runs).counts outcome = runs.countP (·.outcome t = outcome) := by
  have h := (foldl_tally (t := t) {} runs).1 outcome
  rw [Nat.zero_add] at h
  exact h

private theorem countP_outcomes (runs : List JobExecution) :
    (outcomes.map fun outcome => runs.countP (·.outcome t = outcome)).sum = runs.length := by
  induction runs with
  | nil => rfl
  | cons run runs ih =>
    have hone : ∀ outcome : RunOutcome, (outcomes.map fun o => if outcome = o then 1 else 0).sum = 1 := by
      intro outcome
      cases outcome <;> rfl
    have hcons : ∀ outcome, (run :: runs).countP (·.outcome t = outcome) =
        runs.countP (·.outcome t = outcome) + if run.outcome t = outcome then 1 else 0 := by
      intro outcome
      rw [List.countP_cons]
      simp only [decide_eq_true_eq]
    simp only [hcons]
    rw [List.sum_map_add, ih, hone, List.length_cons]

private theorem p95Index_bounds {n : Nat} (hn : 0 < n) : 0 ≤ p95Index n ∧ p95Index n < n := by
  have hpos : (0 : ℚ) < n := by exact_mod_cast hn
  have hlow : 0 < ⌈(95 / 100 : ℚ) * n⌉ := Int.ceil_pos.2 (by positivity)
  have hhigh : ⌈(95 / 100 : ℚ) * n⌉ ≤ (n : Int) := by
    rw [Int.ceil_le]
    push_cast
    linarith
  unfold p95Index
  omega

/-- The rank of the index, one more, is the first that 95 percent do not exceed. -/
private theorem p95Index_rank (n : Nat) :
    (95 : Int) * n ≤ 100 * (p95Index n + 1) ∧ 100 * p95Index n < (95 : Int) * n ∨ n = 0 := by
  rcases Nat.eq_zero_or_pos n with hn | hn
  · exact .inr hn
  · left
    have hup : (95 / 100 : ℚ) * n ≤ ⌈(95 / 100 : ℚ) * n⌉ := Int.le_ceil _
    have hdown : (⌈(95 / 100 : ℚ) * n⌉ : ℚ) < (95 / 100 : ℚ) * n + 1 := Int.ceil_lt_add_one _
    unfold p95Index
    generalize ⌈(95 / 100 : ℚ) * n⌉ = c at hup hdown
    constructor
    · have hrat : (95 : ℚ) * n ≤ 100 * ((c : ℚ) - 1 + 1) := by linarith
      exact_mod_cast hrat
    · have hrat : 100 * ((c : ℚ) - 1) < 95 * n := by linarith
      exact_mod_cast hrat

/-- The nearest rank: at least 95 percent of the durations are up to it, and fewer are below it. -/
structure NearestRank (durations : List ℚ) (value : ℚ) : Prop where
  mem : value ∈ durations
  upTo : 95 * durations.length ≤ 100 * durations.countP (· ≤ value)
  below : 100 * durations.countP (· < value) < 95 * durations.length

/-- The element of the sorted durations at `p95Index`, which is an index of theirs. -/
private theorem p95_nearestRank (h : finishedDurations t runs ≠ []) :
    ∃ value, (runSummary t runs).p95Duration = some value ∧
      ((finishedDurations t runs).insertionSort (· ≤ ·))[(p95Index (finishedDurations t runs).length).toNat]? =
      some value ∧ NearestRank (finishedDurations t runs) value := by
  set durations := finishedDurations t runs with hdurations
  set sorted := durations.insertionSort (· ≤ ·) with hsorted
  have hperm : sorted.Perm durations := List.perm_insertionSort _ _
  have hpairwise : sorted.Pairwise (· ≤ ·) := List.pairwise_insertionSort _ _
  have hlength := hperm.length_eq
  have hpos : 0 < sorted.length := by
    rw [hlength]
    exact List.length_pos_iff.2 h
  obtain ⟨hlow, hhigh⟩ := p95Index_bounds hpos
  have hindex : (p95Index sorted.length).toNat < sorted.length := by omega
  have hp95 : (runSummary t runs).p95Duration = sorted[(p95Index sorted.length).toNat]? := by
    have hfold := (foldl_tally (t := t) {} runs).2
    rw [List.nil_append] at hfold
    unfold runSummary
    dsimp only
    rw [hfold, ← hdurations, ← hsorted]
    exact if_neg (List.length_pos_iff.1 hpos)
  obtain ⟨hup, hdown⟩ := (p95Index_rank sorted.length).resolve_right (Nat.ne_of_gt hpos)
  refine ⟨sorted[(p95Index sorted.length).toNat], ?_, ?_, hperm.mem_iff.1 (List.getElem_mem hindex), ?_, ?_⟩
  · rw [hp95, List.getElem?_eq_getElem hindex]
  · rw [← hlength, List.getElem?_eq_getElem hindex]
  · have hrank := lt_countP_le hpairwise hindex
    rw [hperm.countP_eq] at hrank
    rw [← hlength]
    omega
  · have hrank := countP_lt_le hpairwise hindex
    rw [hperm.countP_eq] at hrank
    rw [← hlength]
    omega

/-! ### The columns -/

private theorem columnIndex_lt (hbuckets : 1 ≤ buckets) (since : Int) (bucketMs : ℚ) (run : JobExecution) :
    columnIndex since bucketMs buckets run < buckets := by
  unfold columnIndex
  dsimp only
  omega

private theorem bucketWidth_pos (hlt : since < till) (hbuckets : 1 ≤ buckets) : 0 < bucketWidth since till buckets := by
  have hrange : (since : ℚ) < till := by exact_mod_cast hlt
  have hcount : (0 : ℚ) < buckets := by exact_mod_cast hbuckets
  unfold bucketWidth timestampMs
  refine div_pos ?_ hcount
  linarith

/-- A run of the range is counted in the column that its start lies in. -/
theorem columnIndex_eq_iff (hlt : since < till) (hbuckets : 1 ≤ buckets) {run : JobExecution}
    (hrange : since ≤ run.started ∧ run.started < till) {i : Nat} (hi : i < buckets) :
    columnIndex since (bucketWidth since till buckets) buckets run = i ↔
      timestampMs since + i * bucketWidth since till buckets ≤ timestampMs run.started ∧
      timestampMs run.started < timestampMs since + (i + 1) * bucketWidth since till buckets := by
  have hwidth := bucketWidth_pos hlt hbuckets
  have hcount : (0 : ℚ) < buckets := by exact_mod_cast hbuckets
  have htotal : bucketWidth since till buckets * buckets = timestampMs till - timestampMs since :=
    div_mul_cancel₀ _ hcount.ne'
  set w := bucketWidth since till buckets
  have hle : timestampMs since ≤ timestampMs run.started := by
    have hstart : (since : ℚ) ≤ run.started := by exact_mod_cast hrange.1
    unfold timestampMs
    linarith
  have hbelow : timestampMs run.started < timestampMs since + buckets * w := by
    have hend : (run.started : ℚ) < till := by exact_mod_cast hrange.2
    have htill : timestampMs run.started < timestampMs till := by
      unfold timestampMs
      linarith
    linarith
  obtain ⟨hlow, hhigh⟩ := column_range hwidth hle hbelow
  -- the clamps do nothing
  have hindex : columnIndex since w buckets run = i ↔
      column (timestampMs since) w (timestampMs run.started) = (i : ℤ) := by
    unfold columnIndex
    unfold column at hlow hhigh ⊢
    dsimp only
    omega
  rw [hindex, column_eq_iff hwidth, Int.cast_natCast]

/-- The loop counts each run in its column. -/
private theorem foldl_columns (runs : List JobExecution) (columns : List StatsColumn) (i : Nat) :
    (runs.foldl (fun columns run => columns.modify (columnIndex since bucketMs buckets run) (.add (run.outcome t)))
      columns)[i]? =
      columns[i]?.map fun column => ⟨column.start, fun outcome => column.counts outcome +
        (runs.filter (columnIndex since bucketMs buckets · = i)).countP (·.outcome t = outcome)⟩ := by
  induction runs generalizing columns with
  | nil =>
    rw [List.foldl_nil]
    simp
  | cons run runs ih =>
    rw [List.foldl_cons, ih, List.getElem?_modify]
    cases hcolumn : columns[i]? with
    | none => rfl
    | some column =>
      by_cases hi : columnIndex since bucketMs buckets run = i
      · rw [List.filter_cons_of_pos (by simpa using hi)]
        simp only [hi, if_true, Option.map_eq_map, Option.map_some, StatsColumn.add, countOutcome_apply,
          List.countP_cons, decide_eq_true_eq]
        congr 2
        funext outcome
        omega
      · rw [List.filter_cons_of_neg (by simpa using hi)]
        simp [hi]

private theorem statsColumns_getElem? {i : Nat} (hi : i < buckets) :
    (statsColumns t runs since bucketMs buckets)[i]? = some ⟨timestampMs since + i * bucketMs, fun outcome =>
      (runs.filter (columnIndex since bucketMs buckets · = i)).countP (·.outcome t = outcome)⟩ := by
  unfold statsColumns
  rw [foldl_columns, List.getElem?_map, List.getElem?_range hi]
  simp

private theorem length_statsColumns : (statsColumns t runs since bucketMs buckets).length = buckets := by
  unfold statsColumns
  generalize hcolumns : (List.range buckets).map (fun i : Nat =>
    ({ start := timestampMs since + i * bucketMs } : StatsColumn)) = columns
  have hlength : columns.length = buckets := by rw [← hcolumns, List.length_map, List.length_range]
  clear hcolumns
  induction runs generalizing columns with
  | nil => exact hlength
  | cons run runs ih =>
    rw [List.foldl_cons]
    exact ih _ (by rw [List.length_modify, hlength])

private theorem sum_columns (hbuckets : 1 ≤ buckets) (outcome : RunOutcome) :
    ((statsColumns t runs since bucketMs buckets).map (·.counts outcome)).sum =
    runs.countP (·.outcome t = outcome) := by
  have hmap : (statsColumns t runs since bucketMs buckets).map (·.counts outcome) = (List.range buckets).map fun i =>
      (runs.filter (columnIndex since bucketMs buckets · = i)).countP (·.outcome t = outcome) := by
    refine List.ext_getElem? fun i => ?_
    rw [List.getElem?_map, List.getElem?_map]
    by_cases hi : i < buckets
    · rw [statsColumns_getElem? hi, List.getElem?_range hi]
      rfl
    · rw [List.getElem?_eq_none (by rw [length_statsColumns]; omega),
        List.getElem?_eq_none (by rw [List.length_range]; omega)]
      rfl
  rw [hmap]
  exact sum_countP_groups List.nodup_range
    (fun run _ => List.mem_range.2 (columnIndex_lt hbuckets since bucketMs run)) _

/-! ### The jobs -/

private theorem sum_jobs (jobNames : Str → Option Str) (outcome : RunOutcome) :
    ((computeStats t runs since till buckets jobNames).jobs.map (·.summary.counts outcome)).sum =
      runs.countP (·.outcome t = outcome) := by
  obtain ⟨hnodup, hkeys, hgroup⟩ := groupBy_spec JobExecution.jobId runs
  set keys := ((groupBy JobExecution.jobId runs).map Prod.fst).insertionSort (· ≤ ·) with hsorted
  have hperm : keys.Perm ((groupBy JobExecution.jobId runs).map Prod.fst) := List.perm_insertionSort _ _
  have hjob : ∀ jobId, (runSummary t (newestFirst JobExecution.started (runs.filter (·.jobId = jobId)))).counts
      outcome = (runs.filter (·.jobId = jobId)).countP (·.outcome t = outcome) := by
    intro jobId
    rw [runSummary_counts, (newestFirst_perm _).countP_eq]
  have hjobs : (computeStats t runs since till buckets jobNames).jobs.map (·.summary.counts outcome) =
      keys.map fun jobId => (runs.filter (·.jobId = jobId)).countP (·.outcome t = outcome) := by
    unfold computeStats
    dsimp only
    rw [List.map_map, ← hsorted]
    refine List.map_congr_left fun jobId _ => ?_
    rw [Function.comp_apply, jobStats, hgroup]
    exact hjob jobId
  rw [hjobs]
  exact sum_countP_groups (hperm.nodup_iff.2 hnodup)
    (fun run hrun => hperm.mem_iff.2 ((hkeys run.jobId).2 ⟨run, hrun, rfl⟩)) _

/-- Every run of the range is counted in the one column that its start lies in; for each outcome the columns, the totals
and the jobs have the same count; the totals count every run once; and the 95th percentile of any runs is the nearest
rank of their durations. -/
theorem stats_conserved (t : CaseTable) (runs : List JobExecution) (since till : Int) (buckets : Nat)
    (jobNames : Str → Option Str) (hlt : since < till) (hbuckets : 1 ≤ buckets)
    (hrange : ∀ run ∈ runs, since ≤ run.started ∧ run.started < till) :
    let stats := computeStats t runs since till buckets jobNames
    let inColumn := fun (i : Nat) (run : JobExecution) =>
      timestampMs since + i * stats.bucketMs ≤ timestampMs run.started ∧
        timestampMs run.started < timestampMs since + (i + 1) * stats.bucketMs
    stats.buckets.length = buckets ∧
    (∀ run ∈ runs, ∃! i, i < buckets ∧ inColumn i run) ∧
    (∀ i < buckets, ∃ column, stats.buckets[i]? = some column ∧ ∀ outcome,
      column.counts outcome = runs.countP fun run => inColumn i run ∧ run.outcome t = outcome) ∧
    (∀ outcome, (stats.buckets.map (·.counts outcome)).sum = stats.totals.counts outcome ∧
      (stats.jobs.map (·.summary.counts outcome)).sum = stats.totals.counts outcome) ∧
    stats.totals.total = runs.length ∧ (outcomes.map stats.totals.counts).sum = runs.length ∧
    ∀ runs' : List JobExecution, finishedDurations t runs' ≠ [] →
      (0 ≤ p95Index (finishedDurations t runs').length ∧
        p95Index (finishedDurations t runs').length < (finishedDurations t runs').length) ∧
      ∃ value, (runSummary t runs').p95Duration = some value ∧
        ((finishedDurations t runs').insertionSort (· ≤ ·))[(p95Index (finishedDurations t runs').length).toNat]? =
          some value ∧ NearestRank (finishedDurations t runs') value := by
  intro stats inColumn
  have hcolumn : ∀ run ∈ runs, ∀ i < buckets,
      columnIndex since (bucketWidth since till buckets) buckets run = i ↔ inColumn i run :=
    fun run hrun i hi => columnIndex_eq_iff hlt hbuckets (hrange run hrun) hi
  refine ⟨length_statsColumns, fun run hrun => ?_, fun i hi => ?_, fun outcome => ⟨?_, ?_⟩, rfl, ?_, fun runs' hruns' =>
    ⟨p95Index_bounds (List.length_pos_iff.2 hruns'), p95_nearestRank hruns'⟩⟩
  · have hindex := columnIndex_lt hbuckets since (bucketWidth since till buckets) run
    refine ⟨_, ⟨hindex, (hcolumn run hrun _ hindex).1 rfl⟩, fun i hi => ?_⟩
    exact ((hcolumn run hrun i hi.1).2 hi.2).symm
  · refine ⟨_, statsColumns_getElem? hi, fun outcome => ?_⟩
    dsimp only
    rw [List.countP_filter]
    refine List.countP_congr fun run hrun => ?_
    rw [Bool.and_eq_true, decide_eq_true_eq, decide_eq_true_eq, decide_eq_true_eq, hcolumn run hrun i hi]
    exact and_comm
  · exact (sum_columns hbuckets outcome).trans (runSummary_counts outcome).symm
  · exact (sum_jobs jobNames outcome).trans (runSummary_counts outcome).symm
  · have hcounts : stats.totals.counts = fun outcome => runs.countP (·.outcome t = outcome) := by
      funext outcome
      exact runSummary_counts outcome
    rw [hcounts]
    exact countP_outcomes runs

/-- Two columns of a second, with a run at the start of each. -/
theorem stats_conserved_two :
    let runs : List JobExecution := [⟨['0'], ['a'], [], "completed".toList, ⟨0, none⟩, some 20⟩,
      ⟨['1'], ['b'], [], "failed".toList, ⟨1000000, none⟩, some 5⟩]
    let stats := computeStats (fun _ c _ => [c]) runs 0 2000000 2 fun _ => none
    stats.totals.total = 2 ∧ (stats.buckets.map (·.counts .failed)).sum = stats.totals.counts .failed := by
  intro runs stats
  obtain ⟨-, -, -, hsums, htotal, -⟩ := stats_conserved (fun _ c _ => [c]) runs 0 2000000 2 (fun _ => none) (by decide)
    (by decide) (by decide)
  exact ⟨htotal, (hsums .failed).1⟩

end CliServer
