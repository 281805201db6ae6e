import Mathlib

/-!
# The first of each key

A loop that goes through a list and takes an item when it may and nothing it has taken has the item's key (`collect`).
What it takes for a key is the first of the list that it may take and that has the key (`named_collect`).  So two loops
with permissions of their own agree on a key, and on the first item of the list that has it, exactly when both may take
that item (`agree_iff`).
-/

namespace FirstByKey

variable {α κ : Type*} [DecidableEq κ] (key : α → κ)

/-- The first item with a key. -/
def named (k : κ) (l : List α) : Option α := l.find? fun x => key x = k

/-- The body of the loop. -/
def consider (keep : α → Bool) (out : List α) (x : α) : List α :=
  if keep x = true ∧ key x ∉ out.map key then out ++ [x] else out

/-- What the loop has taken at the end. -/
def collect (keep : α → Bool) (out l : List α) : List α := l.foldl (consider key keep) out

variable {key} {keep : α → Bool} {k : κ} {x : α} {l out : List α}

private theorem named_append (l' : List α) :
    named key k (l ++ l') = (named key k l).or (named key k l') := List.find?_append

private theorem named_eq_none_iff : named key k l = none ↔ k ∉ l.map key := by simp [named]

theorem key_of_named (h : named key k l = some x) : key x = k := by simpa using List.find?_some h

private theorem named_consider :
    named key k (consider key keep out x) = (named key k out).or (named key k ([x].filter keep)) := by
  unfold consider
  split
  next h => rw [named_append, List.filter_singleton, h.1]; rfl
  next h =>
    by_cases hkeep : keep x = true
    · have hmem : key x ∈ out.map key := by
        by_contra hnot
        exact h ⟨hkeep, hnot⟩
      by_cases hk : key x = k
      · obtain ⟨y, hy⟩ := Option.ne_none_iff_exists'.1 fun hnone => named_eq_none_iff.1 hnone (hk ▸ hmem)
        rw [hy, Option.some_or]
      · simp [named, hkeep, hk]
    · simp [named, hkeep]

/-- The loop takes the first of each key. -/
private theorem named_collect :
    named key k (collect key keep out l) = (named key k out).or (named key k (l.filter keep)) := by
  induction l generalizing out with
  | nil => simp [collect, named]
  | cons x l ih =>
    have hstep : collect key keep out (x :: l) = collect key keep (consider key keep out x) l := rfl
    have hsplit : (x :: l).filter keep = [x].filter keep ++ l.filter keep := by
      rw [← List.filter_append, List.singleton_append]
    rw [hstep, ih, named_consider, hsplit, named_append, Option.or_assoc]

theorem keep_of_named_collect (h : named key k (collect key keep [] l) = some x) : keep x = true := by
  rw [named_collect] at h
  have hmem : x ∈ l.filter keep := List.mem_of_find?_eq_some h
  exact (List.mem_filter.1 hmem).2

/-- The keys of what the loop has taken. -/
theorem mem_keys_collect :
    k ∈ (collect key keep out l).map key ↔ k ∈ out.map key ∨ ∃ x ∈ l, keep x = true ∧ key x = k := by
  have hkeep : k ∈ (l.filter keep).map key ↔ ∃ x ∈ l, keep x = true ∧ key x = k := by
    simp only [List.mem_map, List.mem_filter, and_assoc]
  rw [← hkeep, ← not_iff_not, not_or, ← named_eq_none_iff, ← named_eq_none_iff, ← named_eq_none_iff, named_collect,
    Option.or_eq_none_iff]

theorem nodup_collect (h : (out.map key).Nodup) : ((collect key keep out l).map key).Nodup := by
  induction l generalizing out with
  | nil => exact h
  | cons x l ih =>
    have hstep : collect key keep out (x :: l) = collect key keep (consider key keep out x) l := rfl
    rw [hstep]
    refine ih ?_
    unfold consider
    split
    next hnew =>
      rw [List.map_append, List.map_singleton, ← List.concat_eq_append]
      exact h.concat hnew.2
    next => exact h

theorem mem_of_mem_collect (h : x ∈ collect key keep out l) : x ∈ out ∨ (x ∈ l ∧ keep x = true) := by
  induction l generalizing out with
  | nil => exact .inl h
  | cons y l ih =>
    have hstep : collect key keep out (y :: l) = collect key keep (consider key keep out y) l := rfl
    rw [hstep] at h
    rcases ih h with hout | ⟨hmem, hkeep⟩
    · unfold consider at hout
      split at hout
      next hnew =>
        rcases List.mem_append.1 hout with hold | hy
        · exact .inl hold
        · obtain rfl := List.mem_singleton.1 hy
          exact .inr ⟨List.mem_cons_self, hnew.1⟩
      next => exact .inl hout
    · exact .inr ⟨List.mem_cons_of_mem _ hmem, hkeep⟩

/-- The first of a key, when the loop may take it, is what the loop takes for the key. -/
private theorem named_collect_of_first (h : named key k l = some x) (hkeep : keep x = true) :
    named key k (collect key keep [] l) = some x := by
  rw [named_collect]
  induction l with
  | nil => cases h
  | cons y l ih =>
    rw [named, List.find?_cons] at h
    by_cases hy : key y = k
    · simp only [hy, decide_true] at h
      obtain rfl := Option.some.inj h
      simp [named, hkeep, hy]
    · simp only [hy, decide_false] at h
      have hrest := ih h
      by_cases hkeepy : keep y = true
      · simpa [named, hkeepy, hy] using hrest
      · simpa [named, hkeepy] using hrest

/-- Two loops, over lists of their own, that each take something for a key take the same, and the first of their lists
that has the key, exactly when the first of both is the same and both may take it. -/
theorem agree_iff {keep' : α → Bool} {l' : List α} {a b : α} (ha : named key k (collect key keep [] l) = some a)
    (hb : named key k (collect key keep' [] l') = some b) :
    (a = b ∧ named key k l = some a ∧ named key k l' = some b) ↔
      ∃ f, named key k l = some f ∧ named key k l' = some f ∧ keep f = true ∧ keep' f = true := by
  constructor
  · rintro ⟨rfl, hfirst, hfirst'⟩
    exact ⟨a, hfirst, hfirst', keep_of_named_collect ha, keep_of_named_collect hb⟩
  · rintro ⟨f, hfirst, hfirst', hkeep, hkeep'⟩
    have haf : a = f := Option.some.inj (ha.symm.trans (named_collect_of_first hfirst hkeep))
    have hbf : b = f := Option.some.inj (hb.symm.trans (named_collect_of_first hfirst' hkeep'))
    subst haf hbf
    exact ⟨rfl, hfirst, hfirst'⟩

end FirstByKey
