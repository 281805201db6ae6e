import CliServer.Jobs.Interval

/-!
# Paged tables

A command that lists rows reads `--skip` and `--take`, and writes a page of its rows; below the page stands which rows
these are, with the `skip` of the next ones.  A client that follows it sees every row from its first `skip` on once,
in order (`walk_visits_all`).
-/

namespace CliServer

/-! ### Arguments -/

/-- The value of an argument. -/
inductive CommandArg where
  | null
  | bool (b : Bool)
  | int (n : Int)
  | str (s : Str)
  /-- A float, a list, an object, or a text with a surrogate: what `str` makes of it is no integer. -/
  | other
  deriving DecidableEq

/-- The value of groups of decimal digits with underscores between them. -/
def natOfDigits? (s : Str) : Option Nat := do
  let groups ← (s.splitOn '_').mapM fun group => if group = [] then none else group.mapM decimalValue
  if groups.flatten.length ≤ maxStrDigits then some (digitsToNat groups.flatten) else none

/-- `int(s)`, of a text without white space around it. -/
def intOfText? : Str → Option Int
  | '-' :: s => (natOfDigits? s).map fun n => -(n : Int)
  | '+' :: s => (natOfDigits? s).map Int.ofNat
  | s => (natOfDigits? s).map Int.ofNat

/-- `command.args`. -/
abbrev CommandArgs := List (Str × CommandArg)

/-- `_read_int`. -/
def readInt (args : CommandArgs) (name : Str) : Option Int :=
  match args.lookup name with
  | none | some .null | some (.bool _) => none
  | some (.int n) => some n
  | some (.str s) => intOfText? (strip s)
  | some .other => none

example : readInt [("skip".toList, .str " -1_0 ".toList)] "skip".toList = some (-10) := by decide

def maxTake : Int := 500

structure CliPageRequest where
  skip : Int
  take : Int
  deriving DecidableEq

/-- `CliPaging.from_command`. -/
def fromCommand (args : CommandArgs) (defaultTake : Int) : CliPageRequest where
  skip := match readInt args "skip".toList with
    | some skip => max skip 0
    | none => 0
  take := min (match readInt args "take".toList with
    | some take => if 0 < take then take else defaultTake
    | none => defaultTake) maxTake

/-! ### Tables -/

structure CliServerTablePage where
  skip : Int
  take : Int
  total : Option Int
  hasMore : Bool
  truncated : Option Bool
  deriving DecidableEq, Repr

/-- A table, whose rows are lists of texts unless a stream's output says otherwise. -/
structure CliServerTableOutput (ρ : Type := List Str) where
  headers : List Str
  rows : List ρ
  page : Option CliServerTablePage
  deriving DecidableEq, Repr

/-- `write_paged_table`: the output that it appends. -/
def writePagedTable (headers : List Str) (rows : List (List Str)) (page : CliPageRequest) (total : Option Int)
    (hasMore : Option Bool) : CliServerTableOutput :=
  let hasMore := hasMore.getD (total.any fun total => page.skip + rows.length < total)
  ⟨headers, rows, some ⟨page.skip, page.take, total, hasMore, none⟩⟩

/-- `apply_output_limits`, of a table. -/
def applyOutputLimits {ρ : Type} (output : CliServerTableOutput ρ) (maxRows : Int) : CliServerTableOutput ρ :=
  if maxRows ≤ 0 then output
  else if output.page.isSome ∨ (output.rows.length : Int) ≤ maxRows then output
  else ⟨output.headers, output.rows.take maxRows.toNat, some ⟨0, maxRows, some output.rows.length, true, some true⟩⟩

/-- An integer in an f-string. -/
def intText (n : Int) : Str := (toString n).toList

/-- `describe_page`. -/
def describePage (page : CliServerTablePage) (rowCount : Nat) : Str :=
  let ofTotal := match page.total with
    | some total => " of ".toList ++ intText total
    | none => []
  let skip := page.skip
  if page.truncated = some true then
    "(first ".toList ++ intText rowCount ++ ofTotal ++
      " rows; the command does not page, narrow it down to see the rest)".toList
  else if rowCount = 0 then "(no rows at skip=".toList ++ intText skip ++ ofTotal ++ ")".toList
  else
    let nextText := if page.hasMore then "; next: skip=".toList ++ intText (skip + rowCount) else []
    "(rows ".toList ++ intText (skip + 1) ++ "-".toList ++ intText (skip + rowCount) ++ ofTotal ++ nextText ++
      ")".toList

example : describePage ⟨50, 50, some 120, true, none⟩ 50 = "(rows 51-100 of 120; next: skip=100)".toList := by decide

/-! ### A command, and a client -/

/-- A bound of a slice of `n` elements, which counts from the end if it is negative. -/
def sliceBound (n : Nat) (i : Int) : Nat := if i < 0 then (n + i).toNat else min i.toNat n

/-- `rows[start:stop]`. -/
def slice {α : Type} (rows : List α) (start stop : Int) : List α :=
  (rows.take (sliceBound rows.length stop)).drop (sliceBound rows.length start)

/-- The table of a command that pages its rows, as the server sends it. -/
def pagedCommand (headers : List Str) (rows : List (List Str)) (defaultTake maxTableRows : Int) (args : CommandArgs) :
    CliServerTableOutput :=
  let page := fromCommand args defaultTake
  applyOutputLimits (writePagedTable headers (slice rows page.skip (page.skip + page.take)) page (some rows.length) none)
    maxTableRows

/-- What a client reads after `next: skip=` in the line under a table. -/
def printedNext (line : Str) : Option Nat :=
  let rest := line.dropWhile (· ≠ ';')
  if "; next: skip=".toList.isPrefixOf rest then
    some (Nat.ofDigitChars 10 ((rest.drop "; next: skip=".toList.length).takeWhile Char.isDigit) 0)
  else none

/-- The next `skip` that is printed under a table. -/
def CliServerTableOutput.next? (output : CliServerTableOutput) : Option Nat :=
  output.page.bind fun page => printedNext (describePage page output.rows.length)

/-- The pages that a client sees which follows the printed values; `none` if it has not come to the end yet. -/
def walk (headers : List Str) (rows : List (List Str)) (defaultTake maxTableRows : Int) :
    Nat → CommandArgs → Option (List (List (List Str)))
  | 0, _ => none
  | fuel + 1, args =>
    let output := pagedCommand headers rows defaultTake maxTableRows args
    match output.next? with
    | none => some [output.rows]
    | some skip =>
      (walk headers rows defaultTake maxTableRows fuel (("skip".toList, .int skip) :: args)).map (output.rows :: ·)

/-! ### Requests -/

section

variable {headers : List Str} {rows : List (List Str)} {defaultTake maxTableRows : Int} {args : CommandArgs}

private theorem zero_le_skip (args : CommandArgs) (defaultTake : Int) : 0 ≤ (fromCommand args defaultTake).skip := by
  unfold fromCommand
  dsimp only
  split <;> omega

/-- What is taken is between 1 and 500, whatever was asked for. -/
private theorem take_bounds (h : 1 ≤ defaultTake) (args : CommandArgs) :
    1 ≤ (fromCommand args defaultTake).take ∧ (fromCommand args defaultTake).take ≤ 500 := by
  unfold fromCommand maxTake
  dsimp only
  split
  · split <;> omega
  · omega

private theorem readInt_cons_int (args : CommandArgs) (name : Str) (n : Int) :
    readInt ((name, .int n) :: args) name = some n := by
  simp [readInt]

private theorem readInt_cons_of_ne {name other : Str} (h : other ≠ name) (value : CommandArg) (args : CommandArgs) :
    readInt ((name, value) :: args) other = readInt args other := by
  have hne : (other == name) = false := beq_eq_false_iff_ne.2 h
  simp only [readInt, List.lookup_cons, hne]

/-- The client's next command asks for as many rows as the one before it. -/
private theorem fromCommand_next (args : CommandArgs) (defaultTake : Int) (n : Nat) :
    fromCommand (("skip".toList, .int n) :: args) defaultTake = ⟨n, (fromCommand args defaultTake).take⟩ := by
  unfold fromCommand
  rw [readInt_cons_int, readInt_cons_of_ne (by decide)]
  simp

/-! ### The line under a table -/

theorem isDigit_of_mem_intText {n : Nat} {c : Char} (h : c ∈ intText n) : c.isDigit = true := by
  have htext : intText n = Nat.toDigits 10 n := Nat.toList_repr
  rw [htext] at h
  exact Nat.isDigit_of_mem_toDigits (by omega) (by omega) h

private theorem intText_no_semicolon (n : Nat) : ';' ∉ intText n := fun h => by cases isDigit_of_mem_intText h

theorem ofDigitChars_intText (n : Nat) : Nat.ofDigitChars 10 (intText n) 0 = n := by
  have htext : intText n = Nat.toDigits 10 n := Nat.toList_repr
  rw [htext, Nat.ofDigitChars_toDigits (by omega) (by omega)]

private theorem dropWhile_no_semicolon {s : Str} (h : ';' ∉ s) (rest : Str) :
    (s ++ rest).dropWhile (· ≠ ';') = rest.dropWhile (· ≠ ';') :=
  List.dropWhile_append_of_pos fun _ hc => decide_eq_true fun heq => h (heq ▸ hc)

private theorem printedNext_none {line : Str} (h : ';' ∉ line) : printedNext line = none := by
  have hrest : line.dropWhile (· ≠ ';') = [] := by
    rw [← List.append_nil line, dropWhile_no_semicolon h]
    rfl
  unfold printedNext
  rw [hrest]
  rfl

/-- A client reads the number that was printed. -/
private theorem printedNext_append {s : Str} (h : ';' ∉ s) (n : Nat) :
    printedNext (s ++ ("; next: skip=".toList ++ intText n) ++ ")".toList) = some n := by
  have hrest : (s ++ ("; next: skip=".toList ++ intText n) ++ ")".toList).dropWhile (· ≠ ';') =
      "; next: skip=".toList ++ (intText n ++ ")".toList) := by
    rw [List.append_assoc, dropWhile_no_semicolon h, List.append_assoc]
    rfl
  have hdigits : (intText n ++ ")".toList).takeWhile Char.isDigit = intText n := by
    rw [List.takeWhile_append_of_pos fun c hc => isDigit_of_mem_intText hc]
    simp
  unfold printedNext
  dsimp only
  rw [hrest, if_pos (List.isPrefixOf_iff_prefix.2 (List.prefix_append _ _)), List.drop_left, hdigits,
    ofDigitChars_intText]

private theorem printedNext_describePage (skip n : Nat) (take : Int) (total : Nat) (hasMore : Bool) :
    printedNext (describePage ⟨skip, take, some total, hasMore, none⟩ n) =
      if n ≠ 0 ∧ hasMore = true then some (skip + n) else none := by
  have hof : ';' ∉ " of ".toList ++ intText total := by
    rw [List.mem_append, not_or]
    exact ⟨by decide, intText_no_semicolon total⟩
  unfold describePage
  dsimp only
  rw [if_neg (by decide)]
  by_cases hn : n = 0
  · rw [if_pos hn, if_neg (by simp [hn])]
    refine printedNext_none ?_
    rw [List.mem_append, List.mem_append, List.mem_append]
    rintro (((h | h) | h) | h)
    · exact absurd h (by decide)
    · exact intText_no_semicolon skip h
    · exact hof h
    · exact absurd h (by decide)
  · have hrows : ';' ∉ "(rows ".toList ++ intText (skip + 1 : Nat) ++ "-".toList ++ intText (skip + n : Nat) ++
        (" of ".toList ++ intText total) := by
      rw [List.mem_append, List.mem_append, List.mem_append, List.mem_append]
      rintro ((((h | h) | h) | h) | h)
      · exact absurd h (by decide)
      · exact intText_no_semicolon _ h
      · exact absurd h (by decide)
      · exact intText_no_semicolon _ h
      · exact hof h
    rw [if_neg hn]
    cases hasMore with
    | true =>
      rw [if_pos rfl, if_pos ⟨hn, rfl⟩]
      exact printedNext_append hrows (skip + n)
    | false =>
      rw [if_neg (by decide), if_neg (by simp), List.append_nil]
      refine printedNext_none ?_
      rw [List.mem_append]
      rintro (h | h)
      · exact hrows h
      · exact absurd h (by decide)

/-! ### Pages -/

private theorem slice_page {α : Type} (rows : List α) (skip take : Nat) :
    slice rows skip (skip + take : Int) = (rows.drop skip).take take := by
  have hstart : sliceBound rows.length skip = min skip rows.length := if_neg (by omega)
  have hstop : sliceBound rows.length (skip + take : Int) = min (skip + take) rows.length := by
    rw [sliceBound, if_neg (by omega)]
    rfl
  rw [slice, hstart, hstop, ← List.take_eq_take_min]
  by_cases hle : skip ≤ rows.length
  · rw [Nat.min_eq_left hle, List.drop_take, Nat.add_sub_cancel_left]
  · rw [Nat.min_eq_right (by omega), List.drop_eq_nil_of_le (by rw [List.length_take]; omega),
      List.drop_eq_nil_of_le (by omega), List.take_nil]

/-- A table with a page is not cut. -/
private theorem applyOutputLimits_paged {ρ : Type} {output : CliServerTableOutput ρ} (h : output.page.isSome)
    (maxRows : Int) :
    applyOutputLimits output maxRows = output := by
  unfold applyOutputLimits
  split
  · rfl
  · rw [if_pos (.inl h)]

/-- The rows of a page, and the next `skip`, which is printed exactly if there is a row at it. -/
private theorem pagedCommand_eq {args : CommandArgs} {skip take : Nat}
    (hpage : fromCommand args defaultTake = ⟨skip, take⟩)
    (htake : 1 ≤ take) :
    (pagedCommand headers rows defaultTake maxTableRows args).rows = (rows.drop skip).take take ∧
      (pagedCommand headers rows defaultTake maxTableRows args).next? =
        if skip + take < rows.length then some (skip + take) else none := by
  unfold pagedCommand
  dsimp only
  rw [hpage, applyOutputLimits_paged rfl, slice_page]
  refine ⟨rfl, ?_⟩
  have hlength : ((rows.drop skip).take take).length = min take (rows.length - skip) := by
    rw [List.length_take, List.length_drop]
  have hnext : ((writePagedTable headers ((rows.drop skip).take take) ⟨skip, take⟩ (some rows.length) none).next?) =
      printedNext (describePage ⟨skip, take, some rows.length,
        decide ((skip : Int) + ((rows.drop skip).take take).length < rows.length), none⟩
        ((rows.drop skip).take take).length) := rfl
  rw [hnext, printedNext_describePage, hlength]
  simp only [decide_eq_true_eq]
  by_cases hmore : skip + take < rows.length
  · rw [if_pos hmore, if_pos (by omega)]
    congr 1
    omega
  · rw [if_neg hmore, if_neg (by omega)]

private theorem fromCommand_nat (h : 1 ≤ defaultTake) (args : CommandArgs) : ∃ skip take : Nat,
    fromCommand args defaultTake = ⟨skip, take⟩ ∧ 1 ≤ take ∧ take ≤ 500 := by
  obtain ⟨skip, hskip⟩ := Int.eq_ofNat_of_zero_le (zero_le_skip args defaultTake)
  have hbounds := take_bounds h args
  obtain ⟨take, htake⟩ := Int.eq_ofNat_of_zero_le (by omega : 0 ≤ (fromCommand args defaultTake).take)
  rw [htake] at hbounds
  refine ⟨skip, take, ?_, by omega, by omega⟩
  rw [← hskip, ← htake]

/-- The walk from any page on, with a move for each row that is left. -/
private theorem walk_eq {take : Nat} (htake : 1 ≤ take) (fuel : Nat) {args : CommandArgs} {skip : Nat}
    (hpage : fromCommand args defaultTake = ⟨skip, take⟩) (hfuel : rows.length - skip < fuel) :
    ∃ pages, walk headers rows defaultTake maxTableRows fuel args = some pages ∧ pages.flatten = rows.drop skip := by
  induction fuel generalizing args skip with
  | zero => omega
  | succ fuel ih =>
    obtain ⟨hrows, hnext⟩ := @pagedCommand_eq headers rows defaultTake maxTableRows args skip take hpage htake
    unfold walk
    dsimp only
    rw [hnext, hrows]
    by_cases hmore : skip + take < rows.length
    · have hpage' := fromCommand_next args defaultTake (skip + take)
      rw [hpage] at hpage'
      obtain ⟨pages, hwalk, hpages⟩ := ih hpage' (by omega)
      rw [if_pos hmore]
      dsimp only
      rw [hwalk]
      refine ⟨(rows.drop skip).take take :: pages, rfl, ?_⟩
      rw [List.flatten_cons, hpages, ← List.drop_drop, List.take_append_drop]
    · rw [if_neg hmore]
      refine ⟨[(rows.drop skip).take take], rfl, ?_⟩
      rw [List.flatten_cons, List.flatten_nil, List.append_nil, List.take_of_length_le]
      rw [List.length_drop]
      omega

/-- From any first arguments on, the client comes to the end, and has then seen every row from the first `skip` on
once, in order; no more than 500 rows are taken at a time, and at least one; and a next `skip` is printed only where
there is a row. -/
theorem walk_visits_all (h : 1 ≤ defaultTake) (args : CommandArgs) :
    (∃ pages, walk headers rows defaultTake maxTableRows (rows.length + 1) args = some pages ∧
      pages.flatten = rows.drop (fromCommand args defaultTake).skip.toNat) ∧
    (1 ≤ (fromCommand args defaultTake).take ∧ (fromCommand args defaultTake).take ≤ 500) ∧
    ∀ n, (pagedCommand headers rows defaultTake maxTableRows args).next? = some n → n < rows.length := by
  obtain ⟨skip, take, hpage, htake, -⟩ := fromCommand_nat h args
  refine ⟨?_, take_bounds h args, fun n hn => ?_⟩
  · have hskip : (fromCommand args defaultTake).skip.toNat = skip := by rw [hpage, Int.toNat_natCast]
    rw [hskip]
    exact walk_eq htake _ hpage (by omega)
  · rw [(pagedCommand_eq hpage htake).2] at hn
    split at hn
    · next hmore =>
      obtain rfl := Option.some.inj hn
      exact hmore
    · cases hn

/-- Of five rows, two at a time from the second on. -/
theorem walk_visits_all_five :
    let rows := [[['a']], [['b']], [['c']], [['d']], [['e']]]
    let args := [("skip".toList, CommandArg.str ['1']), ("take".toList, CommandArg.int 2)]
    walk [['N']] rows 50 200 6 args = some [[[['b']], [['c']]], [[['d']], [['e']]]] ∧
      ((∃ pages, walk [['N']] rows 50 200 6 args = some pages ∧ pages.flatten = [[['b']], [['c']], [['d']], [['e']]]) ∧
        (1 ≤ (fromCommand args 50).take ∧ (fromCommand args 50).take ≤ 500) ∧
        ∀ n, (pagedCommand [['N']] rows 50 200 args).next? = some n → n < 5) :=
  ⟨by decide, walk_visits_all (by decide) _⟩

end

end CliServer
