import CliServer.Jobs.Executions
import CliServer.Lib.Columns
import CliServer.Lib.Tallies

/-!
# The logs and their histogram

The list of the logs and their histogram filter the same ring buffer, but they read the levels with tables of their
own: the histogram has the columns `DEBUG`, `INFO`, `WARN` and `ERROR`, and puts other names of a level into its
column, while the list has the entries of the names it was given, and those of `WARNING` with `WARN`.  Times are in
microseconds, and the columns are cut exactly.
-/

namespace CliServer.Logs

open Columns

/-- `str.upper` of the characters that are not ASCII. -/
abbrev UpperTable := Char → Str

/-- `str.upper()`. -/
def upper (t : UpperTable) (s : Str) : Str := s.flatMap fun c => if c.toNat < 128 then [c.toUpper] else t c

/-- `LogEntry`. -/
structure LogEntry where
  timestamp : Str
  level : Str
  message : Str
  loggerName : Str := []

/-- `HISTOGRAM_LEVELS`. -/
inductive HistogramLevel where
  | debug
  | info
  | warn
  | error
  deriving DecidableEq

def HistogramLevel.name : HistogramLevel → Str
  | .debug => "DEBUG".toList
  | .info => "INFO".toList
  | .warn => "WARN".toList
  | .error => "ERROR".toList

def histogramLevels : List HistogramLevel := [.debug, .info, .warn, .error]

/-- `_HISTOGRAM_LEVEL_MAP`. -/
def histogramLevelMap : List (Str × HistogramLevel) :=
  [("TRACE".toList, .debug), ("DEBUG".toList, .debug), ("INFO".toList, .info), ("INFORMATION".toList, .info),
   ("WARN".toList, .warn),
    ("WARNING".toList, .warn), ("ERROR".toList, .error), ("CRITICAL".toList, .error), ("FATAL".toList, .error)]

/-- `histogram_level`. -/
def histogramLevel (t : UpperTable) (level : Str) : Option HistogramLevel :=
  histogramLevelMap.lookup (upper t (strip level))

/-- `datetime.fromisoformat`; `none` when it raises. -/
abbrev FromIsoFormat := Str → Option DateTime

/-- `_entry_time`, in UTC. -/
def entryTime (fromIso : FromIsoFormat) (entry : LogEntry) : Option ℤ :=
  (fromIso (entry.timestamp.flatMap fun c => if c = 'Z' then "+00:00".toList else [c])).map asUtc

/-- `_normalize_level`, with `_LEVEL_MAP`. -/
def normalizeLevel (t : UpperTable) (level : Str) : Str :=
  if upper t level = "WARNING".toList then "WARN".toList else upper t level

/-- The buffer after `add`. -/
def add (t : UpperTable) (maxSize : ℕ) (buffer : List LogEntry) (entry : LogEntry) : List LogEntry :=
  (buffer ++ [{ entry with level := upper t ((nonEmpty entry.level).getD "INFO".toList) }]).rtake maxSize

/-- The set `match_levels`. -/
def matchLevels (t : UpperTable) (level : Str) : List Str :=
  (level.splitOn ',').flatMap fun name =>
    let name := upper t (strip name)
    if name = [] then [] else if name = "WARN".toList then [name, "WARNING".toList] else [name]

/-- The entries that `level` selects. -/
def passesLevel (t : UpperTable) (level : Option Str) (entry : LogEntry) : Bool :=
  match level.bind nonEmpty with
  | none => true
  | some level => matchLevels t level = [] ∨ entry.level ∈ matchLevels t level

/-- `_filter`. -/
def filter (t : UpperTable) (c : CaseTable) (buffer : List LogEntry) (level search service : Option Str) :
    List LogEntry :=
  if (service.bind nonEmpty).isSome then []
  else
    let entries := buffer.filter (passesLevel t level)
    match search.bind nonEmpty with
    | none => entries
    | some search => entries.filter fun e => lower c search <:+: lower c e.message ∨
      lower c search <:+: lower c e.loggerName

/-- `since <= timestamp < until`. -/
def inRange (fromIso : FromIsoFormat) (since until_ : Option ℤ) (entry : LogEntry) : Bool :=
  match entryTime fromIso entry with
  | none => false
  | some stamp => since.all (· ≤ stamp) && until_.all (stamp < ·)

/-- The entries that `query` finds. -/
def found (t : UpperTable) (c : CaseTable) (fromIso : FromIsoFormat) (buffer : List LogEntry)
    (level search service : Option Str) (since until_ : Option ℤ) : List LogEntry :=
  let entries := filter t c buffer level search service
  if since.isSome ∨ until_.isSome then entries.filter (inRange fromIso since until_) else entries

/-- An item of the answer of `query`. -/
structure LogItem where
  timestamp : Str
  level : Str
  message : Str
  source : Str

/-- `l[start:stop]`. -/
def slice {α : Type*} (l : List α) (start stop : ℤ) : List α :=
  let index (i : ℤ) : ℕ := (if i < 0 then i + l.length else i).toNat
  (l.take (index stop)).drop (index start)

/-- `query`. -/
def query (t : UpperTable) (c : CaseTable) (fromIso : FromIsoFormat) (buffer : List LogEntry)
    (level search service : Option Str)
    (since until_ : Option ℤ) (limit offset : ℤ) : List LogItem × ℕ :=
  let entries := found t c fromIso buffer level search service since until_
  ((slice entries offset (offset + limit)).map fun e => ⟨e.timestamp, normalizeLevel t e.level, e.message, e.loggerName⟩,
    entries.length)

/-- A column: its start, in milliseconds, and its counts. -/
structure Column where
  start : ℚ
  counts : HistogramLevel → ℕ

structure Histogram where
  columns : List Column
  totals : HistogramLevel → ℕ

/-- An entry is counted. -/
def Histogram.count (h : Histogram) (place : ℕ × HistogramLevel) : Histogram where
  columns := h.columns.modify place.1 fun column =>
    { column with counts := Function.update column.counts place.2 (column.counts place.2 + 1) }
  totals := Function.update h.totals place.2 (h.totals place.2 + 1)

/-- The width of the columns, in milliseconds. -/
def bucketMs (since until_ : ℤ) (buckets : ℕ) : ℚ := ((until_ : ℚ) / 1000 - (since : ℚ) / 1000) / buckets

/-- The number of the column of a time; `histogram` computes it in floats. -/
def columnIndex (since until_ : ℤ) (buckets : ℕ) (stamp : ℤ) : ℕ :=
  (min (max (column ((since : ℚ) / 1000) (bucketMs since until_ buckets) ((stamp : ℚ) / 1000)) 0) (buckets - 1)).toNat

/-- Where `histogram` counts an entry; `none` when it goes on with the next one. -/
def place (t : UpperTable) (fromIso : FromIsoFormat) (since until_ : ℤ) (buckets : ℕ)
    (levels : Option (List HistogramLevel)) (entry : LogEntry) : Option (ℕ × HistogramLevel) :=
  match histogramLevel t entry.level with
  | none => none
  | some name =>
    if levels.any (name ∉ ·) then none
    else match entryTime fromIso entry with
      | none => none
      | some stamp =>
        if since ≤ stamp ∧ stamp < until_ then some (columnIndex since until_ buckets stamp, name) else none

/-- `histogram`. -/
def histogram (t : UpperTable) (c : CaseTable) (fromIso : FromIsoFormat) (buffer : List LogEntry) (since until_ : ℤ)
    (buckets : ℕ)
    (levels : Option (List HistogramLevel)) (search service : Option Str) : Histogram :=
  let columns := (List.range buckets).map fun i => ⟨(since : ℚ) / 1000 + i * bucketMs since until_ buckets, fun _ => 0⟩
  let levels := levels.filter (· ≠ [])
  (filter t c buffer none search service).foldl
    (fun h entry => match place t fromIso since until_ buckets levels entry with
      | none => h
      | some place => h.count place)
    ⟨columns, fun _ => 0⟩

/-! ### The routes -/

/-- A round of the loop of `_levels`; an error is the text of a `RangeError`. -/
def addLevel (t : UpperTable) (levels : List HistogramLevel) (name : Str) : Except Str (List HistogramLevel) :=
  if strip name = [] then .ok levels
  else match histogramLevel t name with
    | none => .error ("Unknown level '".toList ++ strip name ++ "': use ".toList ++
        ", ".toList.intercalate (histogramLevels.map HistogramLevel.name) ++ ".".toList)
    | some normalized => .ok (if normalized ∈ levels then levels else levels ++ [normalized])

/-- `_levels`. -/
def levels (t : UpperTable) (level : Option Str) : Except Str (List HistogramLevel) :=
  ((level.getD []).splitOn ',').foldlM (addLevel t) []

/-- `service.strip() if service and service.strip() else None`. -/
def serviceOf (service : Option Str) : Option Str := service.bind fun service => nonEmpty (strip service)

/-- `get_logs`: the entries that it finds, in a range. -/
def getLogs (t : UpperTable) (c : CaseTable) (fromIso : FromIsoFormat) (buffer : List LogEntry)
    (level search service : Option Str) (since until_ : ℤ) : List LogEntry :=
  found t c fromIso buffer level search (serviceOf service) (some since) (some until_)

/-- `get_logs_histogram`, in a range with some columns. -/
def getLogsHistogram (t : UpperTable) (c : CaseTable) (fromIso : FromIsoFormat) (buffer : List LogEntry)
    (level search service : Option Str) (since until_ : ℤ) (buckets : ℕ) : Except Str Histogram :=
  (levels t level).map fun levels =>
    histogram t c fromIso buffer since until_ buckets (some levels) search (serviceOf service)

/-! ### Level names -/

section Names

variable {t : UpperTable} {level : Str} {L : HistogramLevel} {ls : List HistogramLevel} {entry : LogEntry}

private theorem mem_histogramLevelMap {name : Str} (h : histogramLevelMap.lookup name = some L) :
    (name, L) ∈ histogramLevelMap :=
  List.lookup_eq_some_iff.1 h |> fun ⟨_, _, heq, _⟩ => heq ▸ List.mem_append_right _ List.mem_cons_self

/-- The names are in upper case and without white space. -/
private theorem upper_strip_name (t : UpperTable) : ∀ p ∈ histogramLevelMap, upper t (strip p.1) = p.1 ∧ p.1 ≠ [] := by
  intro p hp
  simp only [histogramLevelMap, List.mem_cons, List.not_mem_nil, or_false] at hp
  rcases hp with rfl | rfl | rfl | rfl | rfl | rfl | rfl | rfl | rfl <;> exact ⟨rfl, by decide⟩

/-- A name that has been brought into the form of the table. -/
private theorem histogramLevel_upper (h : histogramLevel t level = some L) :
    histogramLevel t (upper t (strip level)) = some L := by
  rw [histogramLevel, (upper_strip_name t _ (mem_histogramLevelMap h)).1]
  exact h

private theorem histogramLevel_warning (h : histogramLevel t level = some L)
    (hwarn : upper t (strip level) = "WARN".toList) :
    histogramLevel t "WARNING".toList = some L := by
  rw [histogramLevel, hwarn] at h
  exact h

private theorem mem_matchLevels {name : Str} :
    name ∈ matchLevels t level ↔ ∃ part ∈ level.splitOn ',', upper t (strip part) ≠ [] ∧
    (name = upper t (strip part) ∨ (upper t (strip part) = "WARN".toList ∧ name = "WARNING".toList)) := by
  rw [matchLevels, List.mem_flatMap]
  refine exists_congr fun part => and_congr_right fun _ => ?_
  dsimp only
  by_cases hnil : upper t (strip part) = []
  · simp [hnil]
  · by_cases hwarn : upper t (strip part) = "WARN".toList
    · rw [if_neg hnil, if_pos hwarn]
      simp [hwarn]
    · rw [if_neg hnil, if_neg hwarn, List.mem_singleton]
      simp only [hnil, hwarn, ne_eq, not_false_eq_true, true_and, false_and, or_false]

/-- The levels that the loop has at its end, and the names that it was given. -/
private theorem levels_run {parts : List Str} {before : List HistogramLevel}
    (h : parts.foldlM (addLevel t) before = .ok ls) :
    (∀ L, L ∈ ls ↔ L ∈ before ∨ ∃ part ∈ parts, strip part ≠ [] ∧ histogramLevel t part = some L) ∧
    ∀ part ∈ parts, strip part ≠ [] → ∃ L ∈ ls, histogramLevel t part = some L := by
  induction parts generalizing before with
  | nil =>
    cases h
    simp
  | cons part parts ih =>
    rw [List.foldlM_cons] at h
    by_cases hblank : strip part = []
    · have hstep : addLevel t before part = .ok before := if_pos hblank
      rw [hstep] at h
      obtain ⟨hmem, hknown⟩ := ih h
      refine ⟨fun L => ?_, List.forall_mem_cons.2 ⟨fun hnot => absurd hblank hnot, hknown⟩⟩
      rw [hmem]
      simp [hblank]
    · cases hname : histogramLevel t part with
      | none =>
        rw [addLevel, if_neg hblank, hname] at h
        cases h
      | some normalized =>
        have hstep : addLevel t before part = .ok (if normalized ∈ before then before else before ++ [normalized]) := by
          rw [addLevel, if_neg hblank, hname]
        rw [hstep] at h
        obtain ⟨hmem, hknown⟩ := ih h
        have hbefore : ∀ L, L ∈ (if normalized ∈ before then before else before ++ [normalized]) ↔
            L ∈ before ∨ normalized = L := by
          intro L
          split
          · next hin => exact (or_iff_left_of_imp fun heq => heq ▸ hin).symm
          · rw [List.mem_append, List.mem_singleton, eq_comm (a := L)]
        refine ⟨fun L => ?_, List.forall_mem_cons.2 ⟨fun _ => ⟨normalized, ?_, hname⟩, hknown⟩⟩
        · rw [hmem, hbefore, or_assoc]
          simp [hblank, hname]
        · exact (hmem _).2 (.inl ((hbefore _).2 (.inr rfl)))

/-- An entry that the list selects is in a column that the histogram shows, if it is in one. -/
private theorem wanted_of_passesLevel {level : Option Str} (h : levels t level = .ok ls)
    (hpasses : passesLevel t level entry = true)
    (hL : histogramLevel t entry.level = some L) : ls = [] ∨ L ∈ ls := by
  obtain ⟨hmem, hknown⟩ := levels_run h
  by_cases hls : ls = []
  · exact .inl hls
  · right
    -- some name was given, so the list has the entries of the names only
    obtain ⟨L', hL'⟩ := List.exists_mem_of_ne_nil ls hls
    obtain ⟨part, hpart, hblank, hlevel⟩ := ((hmem L').1 hL').resolve_left List.not_mem_nil
    have hupper : ∀ {part L}, histogramLevel t part = some L → upper t (strip part) ≠ [] := fun hlevel =>
      (upper_strip_name t _ (mem_histogramLevelMap hlevel)).2
    cases level with
    | none =>
      rw [Option.getD_none, List.splitOn_nil, List.mem_singleton] at hpart
      rw [hpart] at hblank
      exact absurd rfl hblank
    | some level =>
      rw [Option.getD_some] at hpart hknown
      have hgiven : matchLevels t level ≠ [] :=
        List.ne_nil_of_mem (mem_matchLevels.2 ⟨part, hpart, hupper hlevel, .inl rfl⟩)
      have hlevel : nonEmpty level = some level := by
        refine if_neg fun hnil => ?_
        rw [hnil] at hgiven
        exact hgiven rfl
      rw [passesLevel, Option.bind_some, hlevel, decide_eq_true_iff] at hpasses
      obtain ⟨part, hpart, hne, heq⟩ := mem_matchLevels.1 (hpasses.resolve_left hgiven)
      have hblank : strip part ≠ [] := fun hnil => hne (by rw [hnil]; rfl)
      obtain ⟨L'', hL'', hpart⟩ := hknown part hpart hblank
      have hsame : histogramLevel t entry.level = some L'' := by
        rcases heq with heq | ⟨hwarn, heq⟩
        · rw [heq]
          exact histogramLevel_upper hpart
        · rw [heq]
          exact histogramLevel_warning hpart hwarn
      rw [Option.some.inj (hL.symm.trans hsame)]
      exact hL''

end Names

/-! ### Counts -/

namespace Histogram

/-- The count of a level in a column. -/
def countAt (h : Histogram) (i : ℕ) (L : HistogramLevel) : ℕ :=
  ((h.columns[i]?).map fun column => column.counts L).getD 0

/-- The sum of all counts of the columns. -/
def sum (h : Histogram) : ℕ := (h.columns.map fun column => (histogramLevels.map column.counts).sum).sum

variable {h : Histogram} {L : HistogramLevel} {places : List (ℕ × HistogramLevel)}

private theorem length_count (h : Histogram) (place : ℕ × HistogramLevel) :
    (h.count place).columns.length = h.columns.length :=
  List.length_modify _ _ _

private theorem totals_run (h : Histogram) (places : List (ℕ × HistogramLevel)) (L : HistogramLevel) :
    (places.foldl count h).totals L = h.totals L + places.countP (·.2 = L) := by
  induction places generalizing h with
  | nil => rfl
  | cons place places ih =>
    rw [List.foldl_cons, ih, List.countP_cons, count]
    dsimp only
    by_cases hL : place.2 = L
    · rw [hL, Function.update_self, if_pos (decide_eq_true rfl)]
      omega
    · rw [Function.update_of_ne (Ne.symm hL), if_neg (by simpa using hL), Nat.add_zero]

private theorem countAt_count (h : Histogram) (place : ℕ × HistogramLevel) {i : ℕ} (hi : i < h.columns.length)
    (L : HistogramLevel) :
    (h.count place).countAt i L = h.countAt i L + if place = (i, L) then 1 else 0 := by
  have hget : h.columns[i]? = some h.columns[i] := List.getElem?_eq_getElem hi
  rw [countAt, countAt, count, hget]
  dsimp only
  rw [List.getElem?_modify]
  by_cases hplace : place.1 = i
  · by_cases hL : place.2 = L
    · have heq : place = (i, L) := Prod.ext hplace hL
      simp [heq, hget]
    · have hne : place ≠ (i, L) := fun heq => hL (congrArg Prod.snd heq)
      simp [hplace, hget, hne, Function.update_of_ne (Ne.symm hL)]
  · have hne : place ≠ (i, L) := fun heq => hplace (congrArg Prod.fst heq)
    simp [hplace, hget, hne]

private theorem countAt_run (h : Histogram) (places : List (ℕ × HistogramLevel)) {i : ℕ} (hi : i < h.columns.length)
    (L : HistogramLevel) : (places.foldl count h).countAt i L = h.countAt i L + places.countP (· = (i, L)) := by
  induction places generalizing h with
  | nil => rfl
  | cons place places ih =>
    rw [List.foldl_cons, ih (h.count place) (by rwa [length_count]), countAt_count h place hi, List.countP_cons]
    by_cases hplace : place = (i, L)
    · simp [hplace]
      omega
    · simp [hplace]

private theorem sum_modify {columns : List Column} {f : Column → Column} {g : Column → ℕ}
    (hg : ∀ column, g (f column) = g column + 1)
    {i : ℕ} (hi : i < columns.length) : ((columns.modify i f).map g).sum = (columns.map g).sum + 1 := by
  induction columns generalizing i with
  | nil => cases hi
  | cons column columns ih =>
    cases i with
    | zero =>
      rw [List.modify_zero_cons, List.map_cons, List.map_cons, List.sum_cons, List.sum_cons, hg]
      omega
    | succ i =>
      rw [List.modify_succ_cons, List.map_cons, List.map_cons, List.sum_cons, List.sum_cons,
        ih (Nat.lt_of_succ_lt_succ hi)]
      omega

private theorem sum_count (h : Histogram) {place : ℕ × HistogramLevel} (hi : place.1 < h.columns.length) :
    (h.count place).sum = h.sum + 1 := by
  refine sum_modify (fun column => ?_) hi
  cases place.2 <;> simp [histogramLevels] <;> omega

private theorem sum_run (h : Histogram) {places : List (ℕ × HistogramLevel)}
    (hi : ∀ place ∈ places, place.1 < h.columns.length) :
    (places.foldl count h).sum = h.sum + places.length := by
  induction places generalizing h with
  | nil => rfl
  | cons place places ih =>
    have hrest : ∀ p ∈ places, p.1 < (h.count place).columns.length := fun p hp => by
      rw [length_count]
      exact hi p (List.mem_cons_of_mem _ hp)
    rw [List.foldl_cons, ih (h.count place) hrest, sum_count h (hi place List.mem_cons_self), List.length_cons]
    omega

end Histogram

section Places

variable {t : UpperTable} {fromIso : FromIsoFormat} {since until_ : ℤ} {buckets : ℕ} {ls : Option (List HistogramLevel)}
  {entry : LogEntry} {L : HistogramLevel}

/-- The time is in the column of a number. -/
def InColumn (since until_ : ℤ) (buckets i : ℕ) (stamp : ℤ) : Prop :=
  (since : ℚ) / 1000 + i * bucketMs since until_ buckets ≤ (stamp : ℚ) / 1000 ∧
  (stamp : ℚ) / 1000 < (since : ℚ) / 1000 + (i + 1) * bucketMs since until_ buckets

instance : DecidablePred (InColumn since until_ buckets i) := fun _ => inferInstanceAs (Decidable (_ ∧ _))

private theorem place_eq_some {i : ℕ} : place t fromIso since until_ buckets ls entry = some (i, L) ↔
    histogramLevel t entry.level = some L ∧ ls.all (L ∈ ·) = true ∧
      ∃ stamp, entryTime fromIso entry = some stamp ∧ (since ≤ stamp ∧ stamp < until_) ∧
        i = columnIndex since until_ buckets stamp := by
  rw [place]
  cases histogramLevel t entry.level with
  | none => simp
  | some name =>
    dsimp only
    have hwanted : ls.any (name ∉ ·) = true ↔ ¬ ls.all (name ∈ ·) = true := by cases ls <;> simp
    by_cases hls : ls.all (name ∈ ·) = true
    · rw [if_neg fun hany => hwanted.1 hany hls]
      cases entryTime fromIso entry with
      | none => simp
      | some stamp =>
        by_cases hrange : since ≤ stamp ∧ stamp < until_
        · simp only [hrange, and_self, ↓reduceIte, Option.some.injEq, Prod.mk.injEq, exists_eq_left', true_and]
          constructor
          · rintro ⟨rfl, rfl⟩
            exact ⟨rfl, hls, rfl⟩
          · rintro ⟨rfl, -, rfl⟩
            exact ⟨rfl, rfl⟩
        · simp [hrange]
    · rw [if_pos (hwanted.2 hls)]
      refine iff_of_false (by simp) ?_
      rintro ⟨hname, hall, -⟩
      rw [← Option.some.inj hname] at hall
      exact hls hall

private theorem inRange_eq_true : inRange fromIso (some since) (some until_) entry = true ↔
    ∃ stamp, entryTime fromIso entry = some stamp ∧ since ≤ stamp ∧ stamp < until_ := by
  unfold inRange
  cases entryTime fromIso entry <;> simp

section Index

variable {stamp : ℤ}

private theorem bucketMs_pos (hsince : since ≤ stamp) (huntil : stamp < until_) (n : ℕ) :
    0 < bucketMs since until_ (n + 1) := by
  have hlt : (since : ℚ) < until_ := by exact_mod_cast hsince.trans_lt huntil
  exact div_pos (sub_pos.2 (div_lt_div_of_pos_right hlt (by norm_num))) (by positivity)

/-- The columns together are the range. -/
private theorem mul_bucketMs (since until_ : ℤ) (n : ℕ) :
    ((n + 1 : ℕ) : ℚ) * bucketMs since until_ (n + 1) = (until_ : ℚ) / 1000 - (since : ℚ) / 1000 := by
  rw [bucketMs]
  exact mul_div_cancel₀ _ (by positivity)

/-- The column of a time of the range, which needs no bounds. -/
private theorem columnIndex_eq (hsince : since ≤ stamp) (huntil : stamp < until_) (n : ℕ) :
    columnIndex since until_ (n + 1) stamp < n + 1 ∧
    ((columnIndex since until_ (n + 1) stamp : ℕ) : ℤ) =
      column ((since : ℚ) / 1000) (bucketMs since until_ (n + 1)) ((stamp : ℚ) / 1000) := by
  have hle : (since : ℚ) / 1000 ≤ (stamp : ℚ) / 1000 := by
    refine div_le_div_of_nonneg_right ?_ (by norm_num)
    exact_mod_cast hsince
  have hlt : (stamp : ℚ) / 1000 < (since : ℚ) / 1000 + (n + 1 : ℕ) * bucketMs since until_ (n + 1) := by
    rw [mul_bucketMs, add_sub_cancel]
    refine div_lt_div_of_pos_right ?_ (by norm_num)
    exact_mod_cast huntil
  obtain ⟨hnonneg, hbound⟩ := column_range (bucketMs_pos hsince huntil n) hle hlt
  rw [columnIndex]
  push_cast at hbound ⊢
  omega

theorem columnIndex_eq_iff (hsince : since ≤ stamp) (huntil : stamp < until_) {n i : ℕ} :
    i = columnIndex since until_ (n + 1) stamp ↔ InColumn since until_ (n + 1) i stamp := by
  have hcolumn : column ((since : ℚ) / 1000) (bucketMs since until_ (n + 1)) ((stamp : ℚ) / 1000) = (i : ℤ) ↔ _ :=
    column_eq_iff (bucketMs_pos hsince huntil n)
  rw [← (columnIndex_eq hsince huntil n).2, Nat.cast_inj, eq_comm] at hcolumn
  exact hcolumn

/-- A time that is in a column of the range is in the range. -/
theorem InColumn.range {n i : ℕ} (h : InColumn since until_ (n + 1) i stamp) (hi : i < n + 1) :
    since ≤ stamp ∧ stamp < until_ := by
  have hpos : 0 < bucketMs since until_ (n + 1) := by
    have hlt := h.1.trans_lt h.2
    linarith
  have hend := mul_bucketMs since until_ n
  have hcast : ((i : ℚ) + 1) ≤ ((n + 1 : ℕ) : ℚ) := by exact_mod_cast hi
  have hwidth := mul_le_mul_of_nonneg_right hcast hpos.le
  have hstart : 0 ≤ (i : ℚ) * bucketMs since until_ (n + 1) := by positivity
  constructor
  · have hle := h.1
    have : (since : ℚ) ≤ stamp := by linarith
    exact_mod_cast this
  · have hlt := h.2
    have : (stamp : ℚ) < until_ := by linarith
    exact_mod_cast this

end Index

end Places

/-! ### The list and the histogram -/

section Agreement

variable (t : UpperTable) (c : CaseTable) (fromIso : FromIsoFormat) (buffer : List LogEntry)
    (level search service : Option Str) (since until_ : ℤ)

/-- The entries of the range that `search` and `service` select, of all levels. -/
def inScope : List LogEntry :=
  (filter t c buffer none search service).filter (inRange fromIso (some since) (some until_))

private theorem filter_level : filter t c buffer level search service =
    (filter t c buffer none search service).filter (passesLevel t level) := by
  have hnone : buffer.filter (passesLevel t none) = buffer := List.filter_eq_self.2 fun _ _ => rfl
  unfold filter
  split
  · rfl
  · rw [hnone]
    dsimp only
    split
    · rfl
    · exact List.filter_comm ..

/-- The list has the entries whose level was asked for. -/
private theorem found_eq : found t c fromIso buffer level search service (some since) (some until_) =
    (inScope t c fromIso buffer search service since until_).filter (passesLevel t level) := by
  rw [found, filter_level]
  exact (if_pos (.inl rfl)).trans (List.filter_comm ..)

variable (n : ℕ) (ls : Option (List HistogramLevel))

/-- The columns before anything is counted. -/
def emptyColumns (buckets : ℕ) : Histogram :=
  ⟨(List.range buckets).map fun i : ℕ => ⟨(since : ℚ) / 1000 + i * bucketMs since until_ buckets, fun _ => 0⟩,
   fun _ => 0⟩

private theorem histogram_eq (buckets : ℕ) : histogram t c fromIso buffer since until_ buckets ls search service =
    ((filter t c buffer none search service).filterMap
      (place t fromIso since until_ buckets (ls.filter (· ≠ [])))).foldl Histogram.count
      (emptyColumns since until_ buckets) := by
  rw [List.foldl_filterMap, histogram, emptyColumns]
  congr 1
  funext h entry
  cases place t fromIso since until_ buckets (ls.filter (· ≠ [])) entry <;> rfl

variable {t fromIso since until_ ls} in
/-- Whether an entry is counted for a level, wherever that is. -/
private theorem exists_place {entry : LogEntry} {L : HistogramLevel} {buckets : ℕ} :
    (∃ i, place t fromIso since until_ buckets ls entry = some (i, L)) ↔
      (histogramLevel t entry.level = some L ∧ ls.all (L ∈ ·) = true) ∧
        inRange fromIso (some since) (some until_) entry = true := by
  rw [inRange_eq_true, and_assoc]
  constructor
  · rintro ⟨i, hi⟩
    obtain ⟨hlevel, hwanted, stamp, hstamp, hrange, -⟩ := place_eq_some.1 hi
    exact ⟨hlevel, hwanted, stamp, hstamp, hrange⟩
  · rintro ⟨hlevel, hwanted, stamp, hstamp, hrange⟩
    exact ⟨_, place_eq_some.2 ⟨hlevel, hwanted, stamp, hstamp, hrange, rfl⟩⟩

private theorem histogram_totals (L : HistogramLevel) :
    (histogram t c fromIso buffer since until_ (n + 1) ls search service).totals L =
      (inScope t c fromIso buffer search service since until_).countP fun e =>
        histogramLevel t e.level = some L ∧ (ls.filter (· ≠ [])).all (L ∈ ·) = true := by
  rw [histogram_eq, Histogram.totals_run, List.countP_filterMap, inScope, List.countP_filter]
  refine (Nat.zero_add _).trans (List.countP_congr fun e _ => ?_)
  have hcounted : (∃ i, place t fromIso since until_ (n + 1) (ls.filter (· ≠ [])) e = some (i, L)) ↔ _ := exists_place
  rw [Bool.and_eq_true, decide_eq_true_iff, ← hcounted]
  cases hplace : place t fromIso since until_ (n + 1) (ls.filter (· ≠ [])) e with
  | none => simp
  | some p => simp [Prod.ext_iff]

private theorem histogram_sum : (histogram t c fromIso buffer since until_ (n + 1) ls search service).sum =
    (inScope t c fromIso buffer search service since until_).countP fun e =>
      (histogramLevel t e.level).any fun L => (ls.filter (· ≠ [])).all (L ∈ ·) := by
  have hempty : (emptyColumns since until_ (n + 1)).sum = 0 := by
    simp [Histogram.sum, emptyColumns, histogramLevels, Function.comp_def]
  have hlength : (emptyColumns since until_ (n + 1)).columns.length = n + 1 := by simp [emptyColumns]
  rw [histogram_eq, Histogram.sum_run, hempty, Nat.zero_add, List.length_filterMap_eq_countP, inScope,
    List.countP_filter]
  · refine List.countP_congr fun e _ => ?_
    rw [Bool.and_eq_true, Option.isSome_iff_exists, Option.any_eq_true]
    constructor
    · rintro ⟨⟨i, L⟩, hplace⟩
      obtain ⟨⟨hlevel, hwanted⟩, hrange⟩ := exists_place.1 ⟨i, hplace⟩
      exact ⟨⟨L, hlevel, hwanted⟩, hrange⟩
    · rintro ⟨⟨L, hlevel, hwanted⟩, hrange⟩
      obtain ⟨i, hplace⟩ := exists_place.2 ⟨⟨hlevel, hwanted⟩, hrange⟩
      exact ⟨_, hplace⟩
  · rintro ⟨i, L⟩ hplace
    obtain ⟨e, -, hplace⟩ := List.mem_filterMap.1 hplace
    obtain ⟨-, -, stamp, -, hrange, rfl⟩ := place_eq_some.1 hplace
    rw [hlength]
    exact (columnIndex_eq hrange.1 hrange.2 n).1

/-- A column has the entries whose time is in it. -/
private theorem histogram_countAt {i : ℕ} (hi : i < n + 1) (L : HistogramLevel) :
    (histogram t c fromIso buffer since until_ (n + 1) ls search service).countAt i L =
      (inScope t c fromIso buffer search service since until_).countP fun e =>
        (histogramLevel t e.level = some L ∧ (ls.filter (· ≠ [])).all (L ∈ ·) = true) ∧
          (entryTime fromIso e).any (InColumn since until_ (n + 1) i) = true := by
  have hempty : (emptyColumns since until_ (n + 1)).countAt i L = 0 := by
    simp [Histogram.countAt, emptyColumns, hi]
  have hlength : i < (emptyColumns since until_ (n + 1)).columns.length := by simpa [emptyColumns] using hi
  rw [histogram_eq, Histogram.countAt_run _ _ hlength, hempty, Nat.zero_add, List.countP_filterMap, inScope,
    List.countP_filter]
  refine List.countP_congr fun e _ => ?_
  have hplace : ((place t fromIso since until_ (n + 1) (ls.filter (· ≠ [])) e).map fun p => decide (p = (i, L))).getD
      false = true ↔ place t fromIso since until_ (n + 1) (ls.filter (· ≠ [])) e = some (i, L) := by
    cases place t fromIso since until_ (n + 1) (ls.filter (· ≠ [])) e <;> simp
  rw [hplace, place_eq_some, Bool.and_eq_true, decide_eq_true_iff, inRange_eq_true, Option.any_eq_true]
  constructor
  · rintro ⟨hlevel, hwanted, stamp, hstamp, hrange, hindex⟩
    have hcolumn := (columnIndex_eq_iff hrange.1 hrange.2).1 hindex
    exact ⟨⟨⟨hlevel, hwanted⟩, stamp, hstamp, decide_eq_true hcolumn⟩, stamp, hstamp, hrange⟩
  · rintro ⟨⟨⟨hlevel, hwanted⟩, stamp, hstamp, hcolumn⟩, -⟩
    have hcolumn := of_decide_eq_true hcolumn
    have hrange := hcolumn.range hi
    exact ⟨hlevel, hwanted, stamp, hstamp, hrange, (columnIndex_eq_iff hrange.1 hrange.2).2 hcolumn⟩

end Agreement

/-- The levels of the entries that the histogram counts for a level, and of those that the list has when it is asked
for it. -/
private theorem passesLevel_name (t : UpperTable) (L : HistogramLevel) (entry : LogEntry) :
    passesLevel t (some L.name) entry = true ↔ entry.level = L.name ∨ (L = .warn ∧ entry.level = "WARNING".toList) := by
  have hmatch : matchLevels t L.name = if L = .warn then ["WARN".toList, "WARNING".toList] else [L.name] := by
    cases L <;> rfl
  have hname : nonEmpty L.name = some L.name := by cases L <;> rfl
  rw [passesLevel, Option.bind_some, hname, decide_eq_true_iff, hmatch]
  cases L <;> simp [HistogramLevel.name]

private theorem histogramLevel_of_passesLevel_name {t : UpperTable} {L : HistogramLevel} {entry : LogEntry}
    (h : passesLevel t (some L.name) entry = true) : histogramLevel t entry.level = some L := by
  rcases (passesLevel_name t L entry).1 h with hlevel | ⟨rfl, hlevel⟩
  · rw [hlevel]
    cases L <;> rfl
  · rw [hlevel]
    rfl

private theorem any_wanted {t : UpperTable} {entry : LogEntry} {ls : List HistogramLevel} :
    (histogramLevel t entry.level).any (fun L => ((some ls).filter (· ≠ [])).all (L ∈ ·)) = true ↔
      ∃ L, histogramLevel t entry.level = some L ∧ (ls = [] ∨ L ∈ ls) := by
  rw [Option.any_eq_true]
  refine exists_congr fun L => and_congr_right fun _ => ?_
  by_cases hls : ls = []
  · simp [hls]
  · simp [hls, Option.filter]

/-- The histogram and the list.  The total of a level is that of the list for the level when no entry of the range has
another name of it; the columns add up to the list with the same filters when no entry of a level that is shown has a
name that the list does not select; and a column has the entries whose time is in it, as every time of the range is in
one column. -/
theorem histogram_agrees_iff (t : UpperTable) (c : CaseTable) (fromIso : FromIsoFormat) (buffer : List LogEntry)
    (search service : Option Str) (since until_ : ℤ) (n : ℕ) :
    (∀ L limit offset,
      (histogram t c fromIso buffer since until_ (n + 1) none search service).totals L =
        (query t c fromIso buffer (some L.name) search service (some since) (some until_) limit offset).2 ↔
      ∀ e ∈ inScope t c fromIso buffer search service since until_, histogramLevel t e.level = some L →
        e.level = L.name ∨ (L = .warn ∧ e.level = "WARNING".toList)) ∧
    (∀ level ls, levels t level = .ok ls → ∃ h,
      getLogsHistogram t c fromIso buffer level search service since until_ (n + 1) = .ok h ∧
      (h.sum = (getLogs t c fromIso buffer level search service since until_).countP (fun e => (histogramLevel t e.level).isSome) ↔
        ∀ e ∈ inScope t c fromIso buffer search (serviceOf service) since until_,
          (∃ L, histogramLevel t e.level = some L ∧ (ls = [] ∨ L ∈ ls)) → passesLevel t level e = true)) ∧
    (∀ ls i L, i < n + 1 →
      (histogram t c fromIso buffer since until_ (n + 1) ls search service).countAt i L =
        (inScope t c fromIso buffer search service since until_).countP fun e =>
          (histogramLevel t e.level = some L ∧ (ls.filter (· ≠ [])).all (L ∈ ·) = true) ∧
            (entryTime fromIso e).any (InColumn since until_ (n + 1) i) = true) ∧
    ∀ stamp, since ≤ stamp → stamp < until_ → ∃! i, i < n + 1 ∧ InColumn since until_ (n + 1) i stamp := by
  refine ⟨fun L limit offset => ?_, fun level ls hls => ?_,
    fun ls i L hi => histogram_countAt t c fromIso buffer search service since
    until_ n ls hi L, fun stamp hsince huntil => ?_⟩
  · rw [histogram_totals, query]
    dsimp only
    rw [found_eq, ← List.countP_eq_length_filter, Tallies.countP_eq_countP_iff]
    · refine forall₂_congr fun e _ => ?_
      rw [passesLevel_name]
      simp
    · intro e _ hpasses
      simpa using histogramLevel_of_passesLevel_name hpasses
  · rw [getLogsHistogram, hls]
    refine ⟨_, rfl, ?_⟩
    rw [histogram_sum, getLogs, found_eq, List.countP_filter, Tallies.countP_eq_countP_iff]
    · refine forall₂_congr fun e _ => ?_
      rw [any_wanted, Bool.and_eq_true]
      refine imp_congr_right fun ⟨L, hlevel, _⟩ => and_iff_right ?_
      rw [hlevel]
      rfl
    · intro e _ hboth
      rw [Bool.and_eq_true, Option.isSome_iff_exists] at hboth
      obtain ⟨⟨L, hlevel⟩, hpasses⟩ := hboth
      exact any_wanted.2 ⟨L, hlevel, wanted_of_passesLevel hls hpasses hlevel⟩
  · refine ⟨_, ⟨(columnIndex_eq hsince huntil n).1, (columnIndex_eq_iff hsince huntil).1 rfl⟩, fun i hi => ?_⟩
    exact (columnIndex_eq_iff hsince huntil).2 hi.2

section

private def criticalBuffer : List LogEntry :=
  add (fun _ => []) 1000 [] ⟨"1970-01-01T00:00:00+00:00".toList, "critical".toList, "down".toList, []⟩

private def epochOnly : FromIsoFormat :=
  fun s => if s = "1970-01-01T00:00:00+00:00".toList then some ⟨0, some 0⟩ else none

/-- A critical entry is counted in the column `ERROR`, and is not in the list of that level. -/
theorem critical_not_listed :
    ¬ ∀ (t : UpperTable) (c : CaseTable) (fromIso : FromIsoFormat) (buffer : List LogEntry)
    (search service : Option Str)
      (since until_ : ℤ) (n : ℕ) (L : HistogramLevel) (limit offset : ℤ),
      (histogram t c fromIso buffer since until_ (n + 1) none search service).totals L =
        (query t c fromIso buffer (some L.name) search service (some since) (some until_) limit offset).2 := by
  intro hall
  have htotal := hall (fun _ => []) (fun _ _ _ => []) epochOnly criticalBuffer none none 0 1000 0 .error 100 0
  rw [histogram_totals] at htotal
  exact absurd htotal (by decide)

end

end CliServer.Logs
