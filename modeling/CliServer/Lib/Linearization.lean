import Mathlib

/-!
# Operations in some order

Several operations act, each at one point.  `Linearized` says that the result of those that have acted, one after
another, each of them once, meets a property: that it is the value there is, or agrees with it as far as the operations
still on their way allow.  An operation that finds nothing to do may act before it is known whether it will count; so
the property holds whichever of these count.
-/

namespace Linearization

variable {ι β : Type*}

/-- Where an operation stands. -/
inductive Status where
  /-- It has done nothing. -/
  | pending
  /-- It has found nothing to do, and may count as done or not. -/
  | idle
  /-- It has acted. -/
  | took
  deriving DecidableEq, Repr

variable (apply : ι → β → β)

/-- The operations with these numbers, one after another. -/
def applyAll (entries : List (ι × Status)) (value : β) (order : List Nat) : β :=
  order.foldl (fun v i => match entries[i]? with | some e => apply e.1 v | none => v) value

/-- The operations that count, when of the idle ones those of `chosen` do. -/
def Counts (chosen : Nat → Prop) (entries : List (ι × Status)) (i : Nat) : Prop :=
  ∃ op status, entries[i]? = some (op, status) ∧ (status = .took ∨ status = .idle ∧ chosen i)

/-- Whichever of the idle operations count, the result of those that do, in some order, meets `P`. -/
def Linearized (start : β) (entries : List (ι × Status)) (P : β → Prop) : Prop :=
  ∀ chosen : Nat → Prop, ∃ order : List Nat, order.Nodup ∧ (∀ i, i ∈ order ↔ Counts chosen entries i) ∧
    P (applyAll apply entries start order)

variable {apply} {start : β} {P P' : β → Prop} {entries : List (ι × Status)} {chosen : Nat → Prop} {i : Nat} {op : ι}

theorem linearized_nil (h : P start) : Linearized apply start [] P :=
  fun _ => ⟨[], List.nodup_nil, fun i => by simp [Counts], h⟩

theorem Linearized.mono (h : Linearized apply start entries P) (hP : ∀ v, P v → P' v) :
    Linearized apply start entries P' := by
  intro chosen
  obtain ⟨order, hnodup, hmem, hvalue⟩ := h chosen
  exact ⟨order, hnodup, hmem, hP _ hvalue⟩

private theorem applyAll_congr {entries' : List (ι × Status)} {order : List Nat}
    (h : ∀ i ∈ order, (entries'[i]?).map Prod.fst = (entries[i]?).map Prod.fst) :
    applyAll apply entries' start order = applyAll apply entries start order := by
  refine List.foldl_ext _ _ _ fun v i hi => ?_
  have hop := h i hi
  cases he : entries[i]? with
  | none =>
    rw [he, Option.map_none, Option.map_eq_none_iff] at hop
    rw [hop]
  | some e =>
    rw [he, Option.map_some] at hop
    obtain ⟨e', he', hop⟩ := Option.map_eq_some_iff.1 hop
    rw [he']
    show apply e'.1 v = apply e.1 v
    rw [hop]

private theorem applyAll_append {order : List Nat} {status : Status} (h : entries[i]? = some (op, status)) :
    applyAll apply entries start (order ++ [i]) = apply op (applyAll apply entries start order) := by
  simp [applyAll, List.foldl_append, h]

/-- A new operation that does nothing yet. -/
theorem Linearized.append (h : Linearized apply start entries P) :
    Linearized apply start (entries ++ [(op, .pending)]) P := by
  intro chosen
  obtain ⟨order, hnodup, hmem, hvalue⟩ := h chosen
  have hlt : ∀ i ∈ order, i < entries.length := by
    intro i hi
    obtain ⟨op, status, hop, -⟩ := (hmem i).1 hi
    exact (List.getElem?_eq_some_iff.1 hop).1
  refine ⟨order, hnodup, fun i => (hmem i).trans ?_, ?_⟩
  · constructor
    · rintro ⟨op', status, hop, hstatus⟩
      exact ⟨op', status, by rw [List.getElem?_append_left (List.getElem?_eq_some_iff.1 hop).1, hop], hstatus⟩
    · rintro ⟨op', status, hop, hstatus⟩
      rcases Nat.lt_or_ge i entries.length with hi | hi
      · rw [List.getElem?_append_left hi] at hop
        exact ⟨op', status, hop, hstatus⟩
      · rw [List.getElem?_append_right hi] at hop
        have heq := List.mem_singleton.1 (List.mem_of_getElem? hop)
        obtain ⟨rfl, rfl⟩ := Prod.mk.inj heq
        rcases hstatus with hstatus | ⟨hstatus, -⟩ <;> cases hstatus
  · have hsame : applyAll apply (entries ++ [(op, .pending)]) start order = applyAll apply entries start order :=
      applyAll_congr fun i hi => by rw [List.getElem?_append_left (hlt i hi)]
    rwa [hsame]

/-- The numbers of the operations that count, when one more does. -/
private theorem counts_set (hi : entries[i]? = some (op, .pending)) {status : Status} {j : Nat} :
    Counts chosen (entries.set i (op, status)) j ↔
      Counts chosen entries j ∨ j = i ∧ (status = .took ∨ status = .idle ∧ chosen i) := by
  have hlt := (List.getElem?_eq_some_iff.1 hi).1
  unfold Counts
  by_cases hij : j = i
  · subst hij
    rw [List.getElem?_set_self hlt, hi]
    simp
  · rw [List.getElem?_set_ne fun heq => hij heq.symm]
    simp [hij]

private theorem map_fst_set (hi : entries[i]? = some (op, .pending)) (status : Status) (j : Nat) :
    ((entries.set i (op, status))[j]?).map Prod.fst = (entries[j]?).map Prod.fst := by
  by_cases hij : j = i
  · subst hij
    rw [List.getElem?_set_self (List.getElem?_eq_some_iff.1 hi).1, hi]
    rfl
  · rw [List.getElem?_set_ne fun heq => hij heq.symm]

/-- The operation acts now, if it counts. -/
theorem Linearized.set {status : Status} (h : Linearized apply start entries P)
    (hi : entries[i]? = some (op, .pending)) (hacts : status ≠ .pending → ∀ v, P v → P' (apply op v))
    (hwaits : status ≠ .took → ∀ v, P v → P' v) : Linearized apply start (entries.set i (op, status)) P' := by
  intro chosen
  obtain ⟨order, hnodup, hmem, hvalue⟩ := h chosen
  have hfresh : i ∉ order := by
    intro hmem'
    obtain ⟨op', status', hop, hstatus⟩ := (hmem i).1 hmem'
    rw [hi] at hop
    obtain ⟨-, rfl⟩ := Prod.mk.inj (Option.some.inj hop)
    rcases hstatus with hstatus | ⟨hstatus, -⟩ <;> cases hstatus
  have happly : applyAll apply (entries.set i (op, status)) start order = applyAll apply entries start order :=
    applyAll_congr fun j _ => map_fst_set hi status j
  by_cases hcounts : status = .took ∨ status = .idle ∧ chosen i
  · refine ⟨order ++ [i], ?_, fun j => ?_, ?_⟩
    · rw [List.nodup_append]
      refine ⟨hnodup, List.nodup_singleton i, fun a ha b hb hab => hfresh ?_⟩
      rw [← List.mem_singleton.1 hb, ← hab]
      exact ha
    · rw [List.mem_append, List.mem_singleton, hmem j, counts_set hi]
      simp [hcounts]
    · rw [applyAll_append (List.getElem?_set_self (List.getElem?_eq_some_iff.1 hi).1), happly]
      refine hacts ?_ _ hvalue
      rintro rfl
      rcases hcounts with hcounts | ⟨hcounts, -⟩ <;> cases hcounts
  · refine ⟨order, hnodup, fun j => ?_, ?_⟩
    · rw [hmem j, counts_set hi]
      simp [hcounts]
    · rw [happly]
      exact hwaits (fun htook => hcounts (.inl htook)) _ hvalue

/-- A new operation, which may have nothing to do. -/
theorem Linearized.add {status : Status} (op : ι) (h : Linearized apply start entries P) (hnot : status ≠ .took)
    (hidle : status = .idle → ∀ v, P v → P (apply op v)) : Linearized apply start (entries ++ [(op, status)]) P := by
  cases status with
  | pending => exact h.append
  | took => exact absurd rfl hnot
  | idle =>
    have hi : (entries ++ [(op, Status.pending)])[entries.length]? = some (op, .pending) := by simp
    have hset : Linearized apply start ((entries ++ [(op, Status.pending)]).set entries.length (op, .idle)) P :=
      h.append.set hi (fun _ => hidle rfl) fun _ _ hv => hv
    simpa using hset

/-- An operation moves on: it waits or has acted as before, or acts now. -/
theorem Linearized.move {status status' : Status} (h : Linearized apply start entries P)
    (hi : entries[i]? = some (op, status))
    (hmove : (status' = status ∧ ∀ v, P v → P' v) ∨
      (status = .pending ∧ (∀ v, P v → P' (apply op v)) ∧ (status' ≠ .took → ∀ v, P v → P' v))) :
    Linearized apply start (entries.set i (op, status')) P' := by
  rcases hmove with ⟨rfl, hP⟩ | ⟨rfl, hacts, hwaits⟩
  · obtain ⟨hlt, hget⟩ := List.getElem?_eq_some_iff.1 hi
    rw [← hget, List.set_getElem_self]
    exact h.mono hP
  · exact h.set hi (fun _ => hacts) hwaits

end Linearization
