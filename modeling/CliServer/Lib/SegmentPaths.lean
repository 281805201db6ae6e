import CliServer.Lib.StackWords

/-!
# Paths of segments

A path is a text, its segments stand between separators.  `resolve` leaves out the empty segments and the dots, and
lets two dots take back the segment before them; what is left are names, and `join` puts separators between them.

A normal form that is trimmed and resolved again is the same exactly when there is nothing to trim, that is when its
first name does not begin and its last name does not end in a blank (`join_resolve_trim_eq_iff`).  Where a separator
stands before the names only the end counts (`cons_join_resolve_trim_eq_iff`).  Which names these are can be read off
the path (`head?_resolve`, `getLast?_resolve`).
-/

namespace SegmentPath

open StackWord
open scoped List

variable {α : Type*} {p : α → Bool} {s : List α} {sep : α} {names : List (List α)}

/-! ### Trimming -/

/-- A text without the characters of a class at its ends. -/
def trim (p : α → Bool) (s : List α) : List α := (s.dropWhile p).rdropWhile p

private theorem trim_sublist (p : α → Bool) (s : List α) : trim p s <+ s :=
  (List.rdropWhile_prefix p _).sublist.trans (List.dropWhile_sublist p)

private theorem length_trim_le (p : α → Bool) (s : List α) :
    (trim p s).length ≤ s.length := (trim_sublist p s).length_le

private theorem trim_eq_self_iff : trim p s = s ↔ (∀ c ∈ s.head?, p c = false) ∧ ∀ c ∈ s.getLast?, p c = false := by
  have hright : s.rdropWhile p = s ↔ ∀ c ∈ s.getLast?, p c = false := by
    rw [List.rdropWhile_eq_self_iff]
    constructor
    · intro h c hc
      obtain ⟨hne, rfl⟩ := List.mem_getLast?_eq_getLast hc
      exact Bool.eq_false_iff.2 (h hne)
    · intro h hne
      exact Bool.eq_false_iff.1 (h _ (List.getLast?_eq_some_getLast hne))
  cases s with
  | nil => simp [trim]
  | cons c s =>
    by_cases hc : p c = true
    · have hlen : (trim p (c :: s)).length ≤ s.length := by
        rw [trim, List.dropWhile_cons_of_pos hc]
        exact length_trim_le p s
      constructor
      · intro h
        rw [h, List.length_cons] at hlen
        omega
      · rintro ⟨hhead, -⟩
        rw [hhead c rfl] at hc
        cases hc
    · rw [trim, List.dropWhile_cons_of_neg hc, hright]
      simp [Bool.eq_false_iff.2 hc]

theorem trim_map {β : Type*} {f : α → β} (q : β → Bool) (s : List α) :
    trim q (s.map f) = (trim (q ∘ f) s).map f := by
  rw [trim, trim, List.dropWhile_map, List.rdropWhile, List.rdropWhile, ← List.map_reverse, List.dropWhile_map,
    List.map_reverse]

/-! ### Joining -/

/-- The names with separators between them. -/
def join (sep : α) (names : List (List α)) : List α := [sep].intercalate names

/-- The first name does not begin with a character of the class. -/
def StartsClean (p : α → Bool) (names : List (List α)) : Prop := ∀ n ∈ names.head?, ∀ c ∈ n.head?, p c = false

/-- The last name does not end in a character of the class. -/
def EndsClean (p : α → Bool) (names : List (List α)) : Prop := ∀ n ∈ names.getLast?, ∀ c ∈ n.getLast?, p c = false

theorem join_cons (n : List α) (names : List (List α)) :
    join sep (n :: names) = n ++ names.flatMap fun m => sep :: m := by
  induction names generalizing n with
  | nil => simp [join]
  | cons m names ih =>
    have htail : [sep].intercalate (m :: names) = m ++ names.flatMap fun m => sep :: m := ih m
    rw [join, List.intercalate_cons_cons, htail]
    simp

theorem join_map {β : Type*} (f : α → β) (sep : α) (names : List (List α)) :
    join (f sep) (names.map (List.map f)) = (join sep names).map f := by
  cases names with
  | nil => rfl
  | cons n names => simp [join_cons, List.flatMap_map, List.map_flatMap]

private theorem length_join (sep : α) (hne : names ≠ []) :
    (join sep names).length + 1 = (names.map fun n => n.length + 1).sum := by
  obtain ⟨n, names, rfl⟩ := List.exists_cons_of_ne_nil hne
  rw [join_cons, List.length_append, List.length_flatMap, List.map_cons, List.sum_cons]
  simp only [List.length_cons]
  omega

theorem join_eq_nil_iff (hnames : ∀ n ∈ names, n ≠ []) : join sep names = [] ↔ names = [] := by
  cases names with
  | nil => simp [join]
  | cons n names => simp [join_cons, hnames n List.mem_cons_self]

private theorem head?_join (hnames : ∀ n ∈ names, n ≠ []) : (join sep names).head? = names.head?.bind List.head? := by
  cases names with
  | nil => rfl
  | cons n names =>
    rw [join_cons, List.head?_append_of_ne_nil _ (hnames n List.mem_cons_self)]
    rfl

private theorem getLast?_join (hnames : ∀ n ∈ names, n ≠ []) :
    (join sep names).getLast? = names.getLast?.bind List.getLast? := by
  rcases List.eq_nil_or_concat' names with rfl | ⟨names, n, rfl⟩
  · rfl
  · have hn : n ≠ [] := hnames n (by simp)
    rw [List.getLast?_concat, Option.bind_some]
    cases names with
    | nil => simp [join]
    | cons m names =>
      rw [List.cons_append, join_cons, List.flatMap_append, List.flatMap_singleton, ← List.append_assoc,
        List.getLast?_append_of_ne_nil _ (List.cons_ne_nil sep n), List.getLast?_cons_of_ne_nil hn]

theorem trim_join_eq_iff (hnames : ∀ n ∈ names, n ≠ []) :
    trim p (join sep names) = join sep names ↔ StartsClean p names ∧ EndsClean p names := by
  rw [trim_eq_self_iff, head?_join hnames, getLast?_join hnames]
  simp only [StartsClean, EndsClean, Option.mem_def, Option.bind_eq_some_iff, forall_exists_index, and_imp]
  exact and_congr ⟨fun h n hn c hc => h c n hn hc, fun h c n hn hc => h n hn c hc⟩
    ⟨fun h n hn c hc => h c n hn hc, fun h c n hn hc => h n hn c hc⟩

private theorem trim_cons_eq_iff (hsep : p sep = false) (hnames : ∀ n ∈ names, n ≠ []) :
    trim p (sep :: join sep names) = sep :: join sep names ↔ EndsClean p names := by
  rw [trim_eq_self_iff]
  constructor
  · rintro ⟨-, hlast⟩ n hn c hc
    have hjoin : (join sep names).getLast? = some c := by
      rw [getLast?_join hnames, hn]
      exact hc
    have hne : join sep names ≠ [] := by
      intro hnil
      rw [hnil] at hjoin
      cases hjoin
    exact hlast c (by rw [List.getLast?_cons_of_ne_nil hne, hjoin]; rfl)
  · intro hclean
    refine ⟨fun c hc => Option.some.inj hc ▸ hsep, fun c hc => ?_⟩
    by_cases hne : join sep names = []
    · rw [hne] at hc
      exact Option.some.inj hc ▸ hsep
    · rw [List.getLast?_cons_of_ne_nil hne, getLast?_join hnames] at hc
      obtain ⟨n, hn, hc⟩ := Option.bind_eq_some_iff.1 hc
      exact hclean n hn c hc

/-! ### Resolving -/

variable [DecidableEq α] (sep dot : α)

/-- What a segment does to the names so far. -/
def step (segment : List α) : Step (List α) :=
  if segment = [] ∨ segment = [dot] then .skip
  else if segment = [dot, dot] then .pop
  else .push segment

/-- The names of a path. -/
def resolve (path : List α) : List (List α) := run [] ((path.splitOn sep).map (step dot))

structure IsName (n : List α) : Prop where
  ne_nil : n ≠ []
  ne_dot : n ≠ [dot]
  ne_dots : n ≠ [dot, dot]
  no_sep : sep ∉ n

variable {sep dot} {path segment n : List α}

private theorem step_eq_push_iff :
    step dot segment = .push n ↔ (n ≠ [] ∧ n ≠ [dot] ∧ n ≠ [dot, dot]) ∧ segment = n := by
  unfold step
  split
  · constructor
    · intro h
      cases h
    · rintro ⟨⟨hnil, hdot, -⟩, rfl⟩
      exact absurd ‹_› (not_or.2 ⟨hnil, hdot⟩)
  · split
    · constructor
      · intro h
        cases h
      · rintro ⟨⟨-, -, hdots⟩, rfl⟩
        exact absurd ‹_› hdots
    · rename_i hskip hdots
      rw [Step.push.injEq]
      constructor
      · rintro rfl
        exact ⟨⟨fun h => hskip (.inl h), fun h => hskip (.inr h), hdots⟩, rfl⟩
      · exact And.right

private theorem step_eq_push (h : IsName sep dot n) : step dot n = .push n :=
  step_eq_push_iff.2 ⟨⟨h.ne_nil, h.ne_dot, h.ne_dots⟩, rfl⟩

theorem notMem_of_mem_splitOn (h : segment ∈ path.splitOn sep) : sep ∉ segment := by
  induction path generalizing segment with
  | nil =>
    rw [List.splitOn_nil, List.mem_singleton] at h
    simp [h]
  | cons c path ih =>
    rw [List.splitOn_cons_eq_if_modifyHead] at h
    by_cases hc : c = sep
    · rw [if_pos (by simpa using hc), List.mem_cons] at h
      rcases h with rfl | h
      · simp
      · exact ih h
    · rw [if_neg (by simpa using hc)] at h
      obtain ⟨head, tail, hsplit⟩ := List.exists_cons_of_ne_nil (List.splitOn_ne_nil sep path)
      rw [hsplit, List.modifyHead_cons, List.mem_cons] at h
      rcases h with rfl | h
      · have hhead : sep ∉ head := ih (by simp [hsplit])
        simpa [Ne.symm hc] using hhead
      · exact ih (by simp [hsplit, h])

private theorem resolve_sublist (sep dot : α) (path : List α) : resolve sep dot path <+ path.splitOn sep :=
  run_map_sublist (fun _ _ h => (step_eq_push_iff.1 h).2.symm) _

/-- What is left after resolving are names. -/
theorem isName_of_mem_resolve (h : n ∈ resolve sep dot path) : IsName sep dot n := by
  obtain ⟨below, above, hsplit⟩ := List.append_of_mem h
  obtain ⟨u, v, hw, -⟩ := run_eq_append_cons_iff.1 hsplit
  have hpush : Step.push n ∈ (path.splitOn sep).map (step dot) := by simp [hw]
  obtain ⟨segment, -, hstep⟩ := List.mem_map.1 hpush
  obtain ⟨⟨hnil, hdot, hdots⟩, -⟩ := step_eq_push_iff.1 hstep
  exact ⟨hnil, hdot, hdots, notMem_of_mem_splitOn ((resolve_sublist sep dot path).subset h)⟩

/-- Names are resolved to themselves. -/
private theorem run_map_step (h : ∀ n ∈ names, IsName sep dot n) (stack : List (List α)) :
    run stack (names.map (step dot)) = stack ++ names := by
  induction names generalizing stack with
  | nil => exact (List.append_nil stack).symm
  | cons n names ih =>
    obtain ⟨hn, hnames⟩ := List.forall_mem_cons.1 h
    rw [List.map_cons, run_cons, step_eq_push hn, ih hnames, Step.apply, List.append_assoc, List.singleton_append]

theorem splitOn_join (h : ∀ n ∈ names, IsName sep dot n) (hne : names ≠ []) : (join sep names).splitOn sep = names :=
  List.splitOn_intercalate sep (fun n hn => (h n hn).no_sep) hne

private theorem resolve_join (h : ∀ n ∈ names, IsName sep dot n) : resolve sep dot (join sep names) = names := by
  by_cases hne : names = []
  · subst hne
    simp [resolve, join, step, Step.apply]
  · rw [resolve, splitOn_join h hne, run_map_step h, List.nil_append]

/-- The names of a path keep the stack: a walk along them does not go back. -/
theorem keeps_map_step (h : ∀ n ∈ names, IsName sep dot n) : Keeps (names.map (step dot)) := by
  refine keeps_of_forall_ne_pop fun s hs => ?_
  obtain ⟨n, hn, rfl⟩ := List.mem_map.1 hs
  rw [step_eq_push (h n hn)]
  exact fun heq => nomatch heq

/-- A separator at the beginning makes no difference. -/
private theorem resolve_cons_sep (path : List α) : resolve sep dot (sep :: path) = resolve sep dot path := by
  rw [resolve, List.splitOn_cons_eq_if_modifyHead, if_pos (beq_self_eq_true sep), List.map_cons, run_cons]
  simp [step, Step.apply, resolve]

/-! ### Normal forms -/

/-- A path is not shorter than its normal form. -/
private theorem length_join_resolve_le (sep dot : α) (path : List α) :
    (join sep (resolve sep dot path)).length ≤ path.length := by
  by_cases hne : resolve sep dot path = []
  · rw [hne]
    exact Nat.zero_le _
  · have hpath : path.length + 1 = ((path.splitOn sep).map fun n => n.length + 1).sum := by
      rw [← length_join sep (List.splitOn_ne_nil sep path), join, List.intercalate_splitOn]
    have hsum := ((resolve_sublist sep dot path).map fun n => n.length + 1).sum_le_sum fun _ _ => Nat.zero_le _
    rw [← length_join sep hne, ← hpath] at hsum
    omega

/-- A normal form that is trimmed and resolved again is the same when there is nothing to trim. -/
theorem join_resolve_trim_eq_iff (h : ∀ n ∈ names, IsName sep dot n) :
    join sep (resolve sep dot (trim p (join sep names))) = join sep names ↔
      StartsClean p names ∧ EndsClean p names := by
  rw [← trim_join_eq_iff fun n hn => (h n hn).ne_nil]
  constructor
  · intro heq
    have hle := length_join_resolve_le sep dot (trim p (join sep names))
    rw [heq] at hle
    exact (trim_sublist p _).eq_of_length_le hle
  · intro heq
    rw [heq, resolve_join h]

/-- With a separator before the names only the end is trimmed. -/
theorem cons_join_resolve_trim_eq_iff (hsep : p sep = false) (h : ∀ n ∈ names, IsName sep dot n) :
    sep :: join sep (resolve sep dot (trim p (sep :: join sep names))) = sep :: join sep names ↔ EndsClean p names := by
  rw [← trim_cons_eq_iff hsep fun n hn => (h n hn).ne_nil]
  constructor
  · intro heq
    obtain ⟨rest, hrest⟩ : ∃ rest, trim p (sep :: join sep names) = sep :: rest := by
      rw [trim, List.dropWhile_cons_of_neg (by simp [hsep])]
      have hprefix := List.rdropWhile_prefix p (sep :: join sep names)
      cases htrim : (sep :: join sep names).rdropWhile p with
      | nil => exact absurd (List.rdropWhile_eq_nil_iff.1 htrim sep List.mem_cons_self) (by simp [hsep])
      | cons c rest =>
        rw [htrim] at hprefix
        rw [(List.cons_prefix_cons.1 hprefix).1]
        exact ⟨rest, rfl⟩
    have hle := length_join_resolve_le sep dot rest
    rw [hrest, resolve_cons_sep, List.cons.injEq] at heq
    rw [heq.2] at hle
    refine (trim_sublist p _).eq_of_length_le ?_
    rw [hrest]
    exact Nat.succ_le_succ hle
  · intro heq
    rw [heq, resolve_cons_sep, resolve_join h]

/-! ### The first and the last name -/

/-- A segment of a path that is the first of its names: what stands before it is taken back, and nothing after it takes
it back. -/
def FirstKept (sep dot : α) (path n : List α) : Prop :=
  ∃ u v, path.splitOn sep = u ++ n :: v ∧ IsName sep dot n ∧ Clears (u.map (step dot)) ∧ Keeps (v.map (step dot))

/-- A segment of a path that is the last of its names: what stands after it does not take it back, and is taken back
itself. -/
def LastKept (sep dot : α) (path n : List α) : Prop :=
  ∃ u v, path.splitOn sep = u ++ n :: v ∧ IsName sep dot n ∧ Keeps (v.map (step dot)) ∧ Clears (v.map (step dot))

private theorem map_step_split {u v : List (Step (List α))} :
    (path.splitOn sep).map (step dot) = u ++ .push n :: v ↔
      ∃ before after, path.splitOn sep = before ++ n :: after ∧ IsName sep dot n ∧
        before.map (step dot) = u ∧ after.map (step dot) = v := by
  rw [List.map_eq_append_iff]
  constructor
  · rintro ⟨before, rest, hsplit, hu, hrest⟩
    obtain ⟨segment, after, rfl, hstep, hv⟩ := List.map_eq_cons_iff.1 hrest
    obtain ⟨⟨hnil, hdot, hdots⟩, rfl⟩ := step_eq_push_iff.1 hstep
    have hmem : segment ∈ path.splitOn sep := by simp [hsplit]
    exact ⟨before, after, hsplit, ⟨hnil, hdot, hdots, notMem_of_mem_splitOn hmem⟩, hu, hv⟩
  · rintro ⟨before, after, hsplit, hn, hu, hv⟩
    exact ⟨before, n :: after, hsplit, hu, by rw [List.map_cons, step_eq_push hn, hv]⟩

theorem head?_resolve : (resolve sep dot path).head? = some n ↔ FirstKept sep dot path n := by
  rw [resolve, head?_run_eq_some_iff]
  constructor
  · rintro ⟨u, v, hw, hu, hv⟩
    obtain ⟨before, after, hsplit, hn, rfl, rfl⟩ := map_step_split.1 hw
    exact ⟨before, after, hsplit, hn, hu, hv⟩
  · rintro ⟨before, after, hsplit, hn, hu, hv⟩
    exact ⟨_, _, map_step_split.2 ⟨before, after, hsplit, hn, rfl, rfl⟩, hu, hv⟩

theorem getLast?_resolve : (resolve sep dot path).getLast? = some n ↔ LastKept sep dot path n := by
  rw [resolve, getLast?_run_eq_some_iff]
  constructor
  · rintro ⟨u, v, hw, hkeeps, hclears⟩
    obtain ⟨before, after, hsplit, hn, rfl, rfl⟩ := map_step_split.1 hw
    exact ⟨before, after, hsplit, hn, hkeeps, hclears⟩
  · rintro ⟨before, after, hsplit, hn, hkeeps, hclears⟩
    exact ⟨_, _, map_step_split.2 ⟨before, after, hsplit, hn, rfl, rfl⟩, hkeeps, hclears⟩

/-! ### Other alphabets -/

section Map

variable {β : Type*} {f : α → β}

private theorem splitOn_map [DecidableEq β] (hf : f.Injective) (path : List α) :
    (path.map f).splitOn (f sep) = (path.splitOn sep).map (List.map f) := by
  induction path with
  | nil => rfl
  | cons c path ih =>
    rw [List.map_cons, List.splitOn_cons_eq_if_modifyHead, List.splitOn_cons_eq_if_modifyHead, ih]
    by_cases hc : c = sep
    · simp [hc]
    · have hfc : f c ≠ f sep := fun h => hc (hf h)
      cases path.splitOn sep <;> simp [hc, hfc]

private theorem step_map [DecidableEq β] (hf : f.Injective) (segment : List α) :
    step (f dot) (segment.map f) = (step dot segment).map (List.map f) := by
  have hmap : Function.Injective (List.map f) := List.map_injective_iff.2 hf
  have hdot : segment.map f = [f dot] ↔ segment = [dot] := hmap.eq_iff (b := [dot])
  have hdots : segment.map f = [f dot, f dot] ↔ segment = [dot, dot] := hmap.eq_iff (b := [dot, dot])
  unfold step
  simp only [List.map_eq_nil_iff, hdot, hdots]
  split
  · rfl
  · split <;> rfl

/-- Resolving knows only the separator and the dot. -/
theorem resolve_map [DecidableEq β] (hf : f.Injective) (path : List α) :
    resolve (f sep) (f dot) (path.map f) = (resolve sep dot path).map (List.map f) := by
  have hsteps : (path.splitOn sep).map (step (f dot) ∘ List.map f) =
      ((path.splitOn sep).map (step dot)).map (Step.map (List.map f)) := by
    rw [List.map_map]
    exact List.map_congr_left fun segment _ => step_map hf segment
  rw [resolve, splitOn_map hf, List.map_map, hsteps]
  exact run_map (List.map f) [] _

end Map

end SegmentPath
