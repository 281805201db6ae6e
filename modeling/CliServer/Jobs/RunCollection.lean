import CliServer.Jobs.Queries
import CliServer.Lib.FirstByKey
import CliServer.Lib.Paging

/-!
# Collecting the runs of a time range

`collect_runs` pages through the execution query by offset and keeps the runs of the range, one for each id.  New runs
are saved between the pages, which moves the others back; none that is left to read is skipped (`RunPages.left_step`).
But it stops at the first page with fewer items than it asked for, and a storage may return fewer than there are:
`collect_runs_complete_iff` says when it returns what it should.
-/

namespace CliServer

/-- `PAGE_SIZE`. -/
def pageSize : Nat := 500

/-- The ids of executions. -/
def runIds (runs : List JobExecution) : List Str := runs.map JobExecution.id

/-- What a storage answers during one call: `listing k` are the runs that match the query when page `k` is read, of
which it returns at most `cap k` at a time.  An execution has an id of its own, and runs are only added. -/
structure RunPages where
  listing : Nat → List JobExecution
  cap : Nat → Nat
  /-- The `id()` of the object at a place of a page. -/
  address : Nat → Nat → Str
  named : ∀ k, ∀ e ∈ listing k, e.id ≠ []
  nodup : ∀ k, (runIds (listing k)).Nodup
  grows : ∀ k, (runIds (listing k)).Sublist (runIds (listing (k + 1)))
  started : ∀ j k, ∀ e ∈ listing j, ∀ e' ∈ listing k, e.id = e'.id → e.started = e'.started

/-- Whether a run started in `[since, until)`. -/
def startedIn (since till : Int) (e : JobExecution) : Bool := since ≤ e.started && e.started < till

/-- The runs kept so far, by their keys. -/
abbrev RunTable := List (Str × JobExecution)

namespace RunPages

variable (pages : RunPages) (since till : Int)

/-- The answer to the query of page `k`: a slice of the listing, and its length. -/
def answer (k limit offset : Nat) : List JobExecution × Nat :=
  (((pages.listing k).drop offset).take (min (pages.cap k) limit), (pages.listing k).length)

/-- The items of page `k` with their keys. -/
def keyed (k : Nat) (items : List JobExecution) : RunTable :=
  items.zipIdx.map fun item => ((nonEmpty item.1.id).getD ('#' :: pages.address k item.2), item.1)

/-- The loop of `collect_runs`, from page `k`; `none`: it does not end within `fuel` pages. -/
def collectFrom (fuel k offset : Nat) (runs : RunTable) : Option (List JobExecution) :=
  match fuel with
  | 0 => none
  | fuel + 1 =>
    let (items, total) := pages.answer k pageSize offset
    let runs := FirstByKey.collect Prod.fst (fun item => startedIn since till item.2) runs (pages.keyed k items)
    let offset := offset + items.length
    if items.isEmpty ∨ items.length < pageSize ∨ total ≤ offset then some (runs.map Prod.snd)
    else collectFrom fuel (k + 1) offset runs

/-- `collect_runs`. -/
def collectRuns (fuel : Nat) : Option (List JobExecution) := pages.collectFrom since till fuel 0 0 []

/-- Page `k`, when the pages before it were full. -/
def items (k : Nat) : List JobExecution := (pages.answer k pageSize (pageSize * k)).1

/-- The loop goes on after page `k`: it is full, and the listing goes on behind it. -/
def GoesOn (k : Nat) : Prop := pageSize ≤ pages.cap k ∧ pageSize * (k + 1) < (pages.listing k).length

/-- The storage returns fewer items than asked for though there are more. -/
def Capped (k : Nat) : Prop := pages.cap k < pageSize ∧ pageSize * k + pages.cap k < (pages.listing k).length

/-- The runs kept of the pages before page `k`. -/
def keptBefore : Nat → RunTable
  | 0 => []
  | k + 1 => FirstByKey.collect Prod.fst (fun item => startedIn since till item.2) (keptBefore k)
      (pages.keyed k (pages.items k))

variable {pages since till} {k : Nat}

private theorem mem_listing_of_items {e : JobExecution} (h : e ∈ pages.items k) : e ∈ pages.listing k :=
  List.mem_of_mem_drop (List.mem_of_mem_take h)

private theorem keyed_items : pages.keyed k (pages.items k) = (pages.items k).map fun e => (e.id, e) := by
  have hkey : ∀ item ∈ (pages.items k).zipIdx,
      ((nonEmpty item.1.id).getD ('#' :: pages.address k item.2), item.1) = (item.1.id, item.1) := by
    intro item hitem
    have hmem : item.1 ∈ pages.items k := (List.mem_zipIdx' hitem).2 ▸ List.getElem_mem _
    have hsome : nonEmpty item.1.id = some item.1.id := if_neg (pages.named k _ (mem_listing_of_items hmem))
    rw [hsome]
    rfl
  unfold keyed
  rw [List.map_congr_left hkey]
  conv_rhs => rw [← List.zipIdx_map_fst 0 (pages.items k), List.map_map]
  rfl

private theorem length_page (pages : RunPages) (k : Nat) :
    (pages.items k).length = min (min (pages.cap k) pageSize) ((pages.listing k).length - pageSize * k) := by
  unfold items answer
  rw [List.length_take, List.length_drop]

private theorem length_items (h : pages.GoesOn k) : (pages.items k).length = pageSize := by
  obtain ⟨hcap, hlength⟩ := h
  have hmul : pageSize * (k + 1) = pageSize * k + pageSize := Nat.mul_succ _ _
  rw [length_page]
  omega

/-- The loop after `k` full pages. -/
private theorem collectFrom_goesOn (hgoes : ∀ j < k, pages.GoesOn j) (fuel : Nat) :
    pages.collectRuns since till (fuel + k) =
      pages.collectFrom since till fuel k (pageSize * k) (pages.keptBefore since till k) := by
  induction k generalizing fuel with
  | zero => rfl
  | succ k ih =>
    have hthis := hgoes k (Nat.lt_succ_self k)
    have hbefore := ih (fun j hj => hgoes j (Nat.lt_succ_of_lt hj)) (fuel + 1)
    have hfuel : fuel + (k + 1) = fuel + 1 + k := by omega
    have hitems := length_items hthis
    have hmul : pageSize * (k + 1) = pageSize * k + pageSize := Nat.mul_succ _ _
    have hgo : ¬ ((pages.items k).isEmpty = true ∨ (pages.items k).length < pageSize ∨
        (pages.listing k).length ≤ pageSize * k + (pages.items k).length) := by
      rw [hitems, List.isEmpty_iff_length_eq_zero, hitems]
      have hlength := hthis.2
      have hpos : pageSize = 500 := rfl
      omega
    rw [hfuel, hbefore, collectFrom]
    change (if (pages.items k).isEmpty = true ∨ (pages.items k).length < pageSize ∨
        (pages.listing k).length ≤ pageSize * k + (pages.items k).length then _ else
      pages.collectFrom since till fuel (k + 1) (pageSize * k + (pages.items k).length)
        (pages.keptBefore since till (k + 1))) = _
    rw [if_neg hgo, hitems, hmul]

/-- The loop ends at the first page that it does not go on after. -/
private theorem collectRuns_stop (hgoes : ∀ j < k, pages.GoesOn j) (hstop : ¬ pages.GoesOn k) (fuel : Nat) :
    pages.collectRuns since till (fuel + 1 + k) = some ((pages.keptBefore since till (k + 1)).map Prod.snd) := by
  have hlast : (pages.items k).isEmpty = true ∨ (pages.items k).length < pageSize ∨
      (pages.listing k).length ≤ pageSize * k + (pages.items k).length := by
    have hmul : pageSize * (k + 1) = pageSize * k + pageSize := Nat.mul_succ _ _
    have hlength := length_page pages k
    by_contra hnot
    simp only [not_or] at hnot
    refine hstop ⟨?_, ?_⟩
    · omega
    · omega
  rw [collectFrom_goesOn hgoes, collectFrom]
  change (if (pages.items k).isEmpty = true ∨ (pages.items k).length < pageSize ∨
      (pages.listing k).length ≤ pageSize * k + (pages.items k).length then
        some ((pages.keptBefore since till (k + 1)).map Prod.snd) else _) = _
  rw [if_pos hlast]

/-- As long as it goes on, it does not end. -/
private theorem collectRuns_none (fuel : Nat) (hgoes : ∀ j < fuel, pages.GoesOn j) :
    pages.collectRuns since till fuel = none := by
  have h : pages.collectRuns since till (0 + fuel) =
      pages.collectFrom since till 0 fuel (pageSize * fuel) (pages.keptBefore since till fuel) :=
    collectFrom_goesOn hgoes 0
  rw [Nat.zero_add] at h
  exact h

/-! ### The runs kept -/

/-- A run kept has its id as its key, started in the range and was on a page. -/
private theorem mem_keptBefore {p : Str × JobExecution} (h : p ∈ pages.keptBefore since till k) :
    p.1 = p.2.id ∧ startedIn since till p.2 = true ∧ ∃ j < k, p.2 ∈ pages.items j := by
  induction k with
  | zero => cases h
  | succ k ih =>
    rcases FirstByKey.mem_of_mem_collect h with hold | ⟨hnew, hkeep⟩
    · obtain ⟨hkey, hstarted, j, hj, hmem⟩ := ih hold
      exact ⟨hkey, hstarted, j, Nat.lt_succ_of_lt hj, hmem⟩
    · rw [keyed_items] at hnew
      obtain ⟨e, he, rfl⟩ := List.mem_map.1 hnew
      exact ⟨rfl, hkeep, k, Nat.lt_succ_self k, he⟩

private theorem nodup_keptBefore : ((pages.keptBefore since till k).map Prod.fst).Nodup := by
  induction k with
  | zero => exact List.nodup_nil
  | succ k ih => exact FirstByKey.nodup_collect ih

/-- A run of the range on a page is kept. -/
private theorem kept_of_mem_items {e : JobExecution} {j : Nat} (hj : j < k) (he : e ∈ pages.items j)
    (hstarted : startedIn since till e = true) : e.id ∈ (pages.keptBefore since till k).map Prod.fst := by
  induction k with
  | zero => omega
  | succ k ih =>
    refine FirstByKey.mem_keys_collect.2 ?_
    by_cases hlast : j = k
    · subst hlast
      rw [keyed_items]
      exact .inr ⟨(e.id, e), List.mem_map_of_mem he, hstarted, rfl⟩
    · exact .inl (ih (by omega))

private theorem ids_keptBefore : runIds ((pages.keptBefore since till k).map Prod.snd) =
    (pages.keptBefore since till k).map Prod.fst := by
  unfold runIds
  rw [List.map_map]
  exact List.map_congr_left fun p hp => (mem_keptBefore hp).1.symm

/-- A run of the range that is left when page `k` is read is on the page, or left behind it. -/
private theorem left_page {x : Str} (h : x ∈ (runIds (pages.listing k)).drop (pageSize * k)) :
    (∃ e ∈ pages.items k, e.id = x) ∨
      x ∈ (runIds (pages.listing k)).drop (pageSize * k + (pages.items k).length) := by
  have hpage := Paging.mem_page_or_drop (min (pages.cap k) pageSize) h
  have hitems : ((runIds (pages.listing k)).drop (pageSize * k)).take (min (pages.cap k) pageSize) =
      runIds (pages.items k) := by
    unfold runIds items answer
    rw [List.map_take, List.map_drop]
  rw [hitems] at hpage
  have hlength : (runIds (pages.items k)).length = (pages.items k).length := List.length_map _
  rw [hlength] at hpage
  exact hpage.imp_left List.mem_map.1

/-- A run of the range that was there at the call is kept or left, as long as the pages are full. -/
private theorem left_step (hgoes : ∀ j < k, pages.GoesOn j) {e : JobExecution} (he : e ∈ pages.listing 0)
    (hstarted : startedIn since till e = true) :
    e.id ∈ (pages.keptBefore since till k).map Prod.fst ∨ e.id ∈ (runIds (pages.listing k)).drop (pageSize * k) := by
  induction k with
  | zero =>
    right
    rw [Nat.mul_zero, List.drop_zero]
    exact List.mem_map_of_mem he
  | succ k ih =>
    rcases ih fun j hj => hgoes j (Nat.lt_succ_of_lt hj) with hkept | hleft
    · exact .inl (FirstByKey.mem_keys_collect.2 (.inl hkept))
    · rcases left_page hleft with ⟨e', he', hid⟩ | hbehind
      · left
        have hsame := pages.started 0 k e he e' (mem_listing_of_items he') hid.symm
        rw [← hid]
        refine kept_of_mem_items (Nat.lt_succ_self k) he' ?_
        unfold startedIn at hstarted ⊢
        rw [← hsame]
        exact hstarted
      · right
        rw [length_items (hgoes k (Nat.lt_succ_self k))] at hbehind
        exact Paging.mem_drop_of_sublist (pages.grows k) hbehind

end RunPages

/-- What `collect_runs` has to return: every run of the range that was there when it was called, once, and no run
outside it. -/
structure RunPages.Collected (pages : RunPages) (since till : Int) (runs : List JobExecution) : Prop where
  once : (runIds runs).Nodup
  complete : ∀ e ∈ pages.listing 0, startedIn since till e = true → e.id ∈ runIds runs
  inRange : ∀ e ∈ runs, startedIn since till e = true

namespace RunPages

variable {pages : RunPages} {since till : Int} {k : Nat}

/-- Behind a page at which the loop ends, and which is not capped, there is nothing. -/
private theorem nothing_behind (hstop : ¬ pages.GoesOn k) (hfull : ¬ pages.Capped k) :
    (runIds (pages.listing k)).drop (pageSize * k + (pages.items k).length) = [] := by
  have hmul : pageSize * (k + 1) = pageSize * k + pageSize := Nat.mul_succ _ _
  have hlength : (runIds (pages.listing k)).length = (pages.listing k).length := List.length_map _
  refine List.drop_eq_nil_of_le ?_
  rw [length_page, hlength]
  by_cases hcap : pageSize ≤ pages.cap k
  · have hend : ¬ pageSize * (k + 1) < (pages.listing k).length := fun hlt => hstop ⟨hcap, hlt⟩
    omega
  · have hend : ¬ pageSize * k + pages.cap k < (pages.listing k).length := fun hlt => hfull ⟨by omega, hlt⟩
    omega

/-- What the loop returns when it ends at page `k`. -/
private theorem collected_iff (hgoes : ∀ j < k, pages.GoesOn j) (hstop : ¬ pages.GoesOn k) :
    pages.Collected since till ((pages.keptBefore since till (k + 1)).map Prod.snd) ↔
      (pages.Capped k → ∀ e ∈ pages.listing 0, startedIn since till e = true →
        ∃ j ≤ k, ∃ e' ∈ pages.items j, e'.id = e.id) := by
  constructor
  · intro h _ e he hstarted
    obtain ⟨e', he', hid⟩ := List.mem_map.1 (h.complete e he hstarted)
    obtain ⟨p, hp, rfl⟩ := List.mem_map.1 he'
    obtain ⟨-, -, j, hj, hmem⟩ := mem_keptBefore hp
    exact ⟨j, Nat.lt_succ_iff.1 hj, p.2, hmem, hid⟩
  · intro h
    refine ⟨?_, fun e he hstarted => ?_, fun e he => ?_⟩
    · rw [ids_keptBefore]
      exact nodup_keptBefore
    · rw [ids_keptBefore]
      have hpage : ∀ j ≤ k, ∀ e' ∈ pages.items j, e'.id = e.id →
          e.id ∈ (pages.keptBefore since till (k + 1)).map Prod.fst := by
        intro j hj e' he' hid
        have hsame := pages.started 0 j e he e' (mem_listing_of_items he') hid.symm
        rw [← hid]
        refine kept_of_mem_items (Nat.lt_succ_iff.2 hj) he' ?_
        unfold startedIn at hstarted ⊢
        rw [← hsame]
        exact hstarted
      by_cases hcapped : pages.Capped k
      · obtain ⟨j, hj, e', he', hid⟩ := h hcapped e he hstarted
        exact hpage j hj e' he' hid
      · rcases left_step hgoes he hstarted with hkept | hleft
        · exact FirstByKey.mem_keys_collect.2 (.inl hkept)
        · rcases left_page hleft with ⟨e', he', hid⟩ | hbehind
          · exact hpage k le_rfl e' he' hid
          · rw [nothing_behind hstop hcapped] at hbehind
            cases hbehind
    · obtain ⟨p, hp, rfl⟩ := List.mem_map.1 he
      exact (mem_keptBefore hp).2.1

/-- A storage that returns as many items as it is asked for, whose listing has a bounded number of runs. -/
private theorem collects_of_full (pages : RunPages) (since till : Int) (hfull : ∀ k, pageSize ≤ pages.cap k)
    {bound : Nat}
    (hbound : ∀ k, (pages.listing k).length ≤ bound) :
    ∃ fuel runs, pages.collectRuns since till fuel = some runs ∧ pages.Collected since till runs := by
  classical
  have hend : ∃ k, ¬ pages.GoesOn k := by
    refine ⟨bound, fun hgoes => ?_⟩
    have hlt := hgoes.2
    have hle := hbound bound
    have hmul : bound ≤ pageSize * (bound + 1) := by
      show bound ≤ 500 * (bound + 1)
      omega
    omega
  have hgoes : ∀ j < Nat.find hend, pages.GoesOn j := fun j hj => not_not.1 (Nat.find_min hend hj)
  refine ⟨0 + 1 + Nat.find hend, _, collectRuns_stop hgoes (Nat.find_spec hend) 0, ?_⟩
  refine (collected_iff hgoes (Nat.find_spec hend)).2 fun hcapped => ?_
  exact absurd hcapped.1 (not_lt.2 (hfull _))

/-- `InMemoryJobStorage` is one. -/
theorem collects_memory (pages : RunPages) (since till : Int) {t : CaseTable} {storage : Nat → InMemoryJobStorage}
    {query : JobExecutionQuery} (hlisting : ∀ k, pages.listing k = found t (storage k) query)
    (hfull : ∀ k, pageSize ≤ pages.cap k) {bound : Nat} (hbound : ∀ k, (pages.listing k).length ≤ bound) :
    (∀ k offset, (storage k).queryExecutions t { query with limit := pageSize, offset := offset } =
      pages.answer k pageSize offset) ∧
    ∃ fuel runs, pages.collectRuns since till fuel = some runs ∧ pages.Collected since till runs := by
  refine ⟨fun k offset => ?_, collects_of_full pages since till hfull hbound⟩
  unfold answer
  rw [Nat.min_eq_right (hfull k), hlisting]
  rfl

end RunPages

open RunPages in
/-- `collect_runs` ends and returns what it should exactly when it comes to a page that is not full or reaches the end
of the listing, and, if the storage has returned fewer runs there than asked for and there are, every run of the range
was on a page by then. -/
theorem collect_runs_complete_iff (pages : RunPages) (since till : Int) :
    (∃ fuel runs, pages.collectRuns since till fuel = some runs ∧ pages.Collected since till runs) ↔
      ∃ k, (∀ j < k, pages.GoesOn j) ∧ ¬ pages.GoesOn k ∧
        (pages.Capped k → ∀ e ∈ pages.listing 0, startedIn since till e = true →
          ∃ j ≤ k, ∃ e' ∈ pages.items j, e'.id = e.id) := by
  classical
  constructor
  · rintro ⟨fuel, runs, hruns, hcollected⟩
    have hend : ∃ k, ¬ pages.GoesOn k := by
      by_contra hnever
      have hgoes : ∀ j < fuel, pages.GoesOn j := fun j _ => not_not.1 fun hnot => hnever ⟨j, hnot⟩
      rw [collectRuns_none fuel hgoes] at hruns
      cases hruns
    have hgoes : ∀ j < Nat.find hend, pages.GoesOn j := fun j hj => not_not.1 (Nat.find_min hend hj)
    have hlt : Nat.find hend < fuel := by
      by_contra hge
      rw [collectRuns_none fuel fun j hj => hgoes j (by omega)] at hruns
      cases hruns
    have hfuel : fuel = fuel - 1 - Nat.find hend + 1 + Nat.find hend := by omega
    rw [hfuel, collectRuns_stop hgoes (Nat.find_spec hend)] at hruns
    obtain rfl := Option.some.inj hruns
    exact ⟨Nat.find hend, hgoes, Nat.find_spec hend, (collected_iff hgoes (Nat.find_spec hend)).1 hcollected⟩
  · rintro ⟨k, hgoes, hstop, hread⟩
    exact ⟨0 + 1 + k, _, collectRuns_stop hgoes hstop 0, (collected_iff hgoes hstop).2 hread⟩

/-- Two runs in a storage that returns one at a time. -/
def oneAtATime : RunPages where
  listing _ := [⟨['1'], ['j'], [], "completed".toList, ⟨1, none⟩, none⟩,
    ⟨['0'], ['j'], [], "completed".toList, ⟨0, none⟩, none⟩]
  cap _ := 1
  address _ _ := []
  named _ := by decide
  nodup _ := by decide
  grows _ := List.Sublist.refl _
  started _ _ := by decide

/-- The older run is missing. -/
theorem collect_runs_misses : ¬ ∃ fuel runs, oneAtATime.collectRuns 0 2 fuel = some runs ∧
    oneAtATime.Collected 0 2 runs := by
  rintro ⟨fuel, runs, hruns, hcollected⟩
  cases fuel with
  | zero => cases hruns
  | succ fuel =>
    have hone : oneAtATime.collectRuns 0 2 (fuel + 1) =
        some [⟨['1'], ['j'], [], "completed".toList, ⟨1, none⟩, none⟩] := rfl
    obtain rfl := Option.some.inj (hone.symm.trans hruns)
    have hold := hcollected.complete ⟨['0'], ['j'], [], "completed".toList, ⟨0, none⟩, none⟩ (by decide) (by decide)
    exact absurd hold (by decide)

end CliServer
