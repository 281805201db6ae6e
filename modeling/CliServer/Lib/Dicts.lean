import Mathlib

/-!
# Dictionaries

A dictionary is a list of keys with their values, in the order in which the keys were first set: setting a key that is
there keeps its place.
-/

namespace Dict

variable {κ ν : Type*} [BEq κ] [LawfulBEq κ]

/-- `d[key] = value`. -/
def set (d : List (κ × ν)) (key : κ) (value : ν) : List (κ × ν) :=
  if key ∈ d.map Prod.fst then d.map fun m => if m.1 == key then (key, value) else m else d ++ [(key, value)]

/-- `d.setdefault(key, value)`. -/
def setDefault (d : List (κ × ν)) (key : κ) (value : ν) : List (κ × ν) :=
  if key ∈ d.map Prod.fst then d else set d key value

/-- `d.update(pairs)`. -/
def update (d pairs : List (κ × ν)) : List (κ × ν) := pairs.foldl (fun d m => set d m.1 m.2) d

variable {d : List (κ × ν)} {key key' : κ} {value : ν}

private theorem lookup_map_replace : (d.map fun m => if m.1 == key then (key, value) else m).lookup key' =
    if key' == key then (d.lookup key).map fun _ => value else d.lookup key' := by
  induction d with
  | nil => simp
  | cons m d ih =>
    obtain ⟨k, v⟩ := m
    rw [List.map_cons, List.lookup_cons, ih, List.lookup_cons, List.lookup_cons]
    by_cases hk : k = key
    · by_cases hkey : key' = key
      · simp [hk, hkey]
      · simp [hk, beq_false_of_ne hkey]
    · by_cases hkey : key' = key
      · simp [hkey, beq_false_of_ne hk, beq_false_of_ne (Ne.symm hk)]
      · simp [beq_false_of_ne hk, beq_false_of_ne hkey]

theorem lookup_eq_none_iff : d.lookup key = none ↔ key ∉ d.map Prod.fst := by
  rw [List.lookup_eq_none_iff, List.mem_map]
  constructor
  · rintro h ⟨m, hm, rfl⟩
    simpa using h m hm
  · intro h m hm
    have hne : key ≠ m.1 := fun heq => h ⟨m, hm, heq.symm⟩
    simpa using hne

private theorem isSome_lookup_iff : (d.lookup key).isSome = true ↔ key ∈ d.map Prod.fst := by
  rw [← not_iff_not, ← lookup_eq_none_iff, Bool.not_eq_true, Option.isSome_eq_false_iff, Option.isNone_iff_eq_none]

/-- What is set is found, and everything else is as it was. -/
theorem lookup_set : (set d key value).lookup key' = if key' == key then some value else d.lookup key' := by
  unfold set
  split
  · next hmem =>
    rw [lookup_map_replace]
    split
    · obtain ⟨v, hv⟩ := Option.isSome_iff_exists.1 (isSome_lookup_iff.2 hmem)
      rw [hv]
      rfl
    · rfl
  · next hmem =>
    have hnone : d.lookup key = none := lookup_eq_none_iff.2 hmem
    rw [List.lookup_append]
    by_cases hkey : key' = key
    · rw [hkey, hnone, if_pos BEq.rfl, Option.none_or, List.lookup_cons_self]
    · rw [beq_false_of_ne hkey, if_neg Bool.false_ne_true, List.lookup_cons, beq_false_of_ne hkey, List.lookup_nil,
        Option.or_none]

theorem lookup_setDefault : (setDefault d key value).lookup key' =
    if key' == key then some ((d.lookup key).getD value) else d.lookup key' := by
  unfold setDefault
  split
  · next hmem =>
    split
    · next heq =>
      obtain ⟨v, hv⟩ := Option.isSome_iff_exists.1 (isSome_lookup_iff.2 hmem)
      rw [eq_of_beq heq, hv]
      rfl
    · rfl
  · next hmem => rw [lookup_set, lookup_eq_none_iff.2 hmem, Option.getD_none]

/-- Of the pairs of one key the last one counts. -/
theorem lookup_update (d pairs : List (κ × ν)) (key : κ) :
    (update d pairs).lookup key = (pairs.reverse.lookup key).or (d.lookup key) := by
  unfold update
  induction pairs using List.reverseRecOn with
  | nil => simp
  | append_singleton pairs m ih =>
    rw [List.foldl_append, List.foldl_cons, List.foldl_nil, lookup_set, ih, List.reverse_append, List.reverse_singleton,
      List.singleton_append, List.lookup_cons]
    by_cases hkey : key = m.1
    · simp [hkey]
    · simp [beq_false_of_ne hkey]

/-! ### Keys -/

/-- Some keys are left out. -/
theorem lookup_filter_key (keep : κ → Bool) (d : List (κ × ν)) (key : κ) :
    (d.filter fun m => keep m.1).lookup key = if keep key then d.lookup key else none := by
  induction d with
  | nil => simp
  | cons m d ih =>
    obtain ⟨name, value⟩ := m
    by_cases heq : key = name
    · subst heq
      by_cases hkeep : keep key = true
      · simp [hkeep]
      · rw [List.filter_cons, if_neg hkeep, ih, if_neg hkeep, if_neg hkeep]
    · have hne : (key == name) = false := beq_false_of_ne heq
      by_cases hkeep : keep name = true
      · rw [List.filter_cons, if_pos hkeep, List.lookup_cons, List.lookup_cons, hne]
        exact ih
      · rw [List.filter_cons, if_neg hkeep, List.lookup_cons, hne]
        exact ih

/-- Each key is there once. -/
def Keyed (d : List (κ × ν)) : Prop := (d.map Prod.fst).Nodup

theorem keyed_nil {κ ν : Type*} : Keyed ([] : List (κ × ν)) := List.nodup_nil

theorem Keyed.set (h : Keyed d) (key : κ) (value : ν) : Keyed (set d key value) := by
  unfold Dict.set Keyed
  split
  · have hkeys : (d.map fun m => if m.1 == key then (key, value) else m).map Prod.fst = d.map Prod.fst := by
      rw [List.map_map]
      refine List.map_congr_left fun m _ => ?_
      by_cases hm : m.1 = key
      · simp [hm]
      · simp [beq_false_of_ne hm]
    rw [hkeys]
    exact h
  · next hmem =>
    rw [List.map_append, List.nodup_append]
    refine ⟨h, List.nodup_singleton _, fun k hk k' hk' heq => hmem ?_⟩
    rw [List.map_singleton, List.mem_singleton] at hk'
    rw [heq, hk'] at hk
    exact hk

theorem Keyed.setDefault (h : Keyed d) (key : κ) (value : ν) : Keyed (setDefault d key value) := by
  unfold Dict.setDefault
  split
  · exact h
  · exact h.set key value

theorem Keyed.update (h : Keyed d) (pairs : List (κ × ν)) : Keyed (update d pairs) := by
  unfold Dict.update
  induction pairs generalizing d with
  | nil => exact h
  | cons m pairs ih => exact ih (h.set m.1 m.2)

/-- A key and its value stand in the dictionary exactly if they are found. -/
theorem Keyed.mem_iff (h : Keyed d) : (key, value) ∈ d ↔ d.lookup key = some value := by
  constructor
  · intro hmem
    induction d with
    | nil => cases hmem
    | cons m d ih =>
      obtain ⟨k, v⟩ := m
      have hnodup := List.nodup_cons.1 h
      rcases List.mem_cons.1 hmem with heq | hmem
      · obtain ⟨rfl, rfl⟩ := Prod.mk.inj heq
        exact List.lookup_cons_self
      · have hne : key ≠ k := fun heq => hnodup.1 (List.mem_map.2 ⟨_, hmem, heq⟩)
        rw [List.lookup_cons, beq_false_of_ne hne]
        exact ih hnodup.2 hmem
  · intro hlookup
    obtain ⟨l₁, l₂, rfl, -⟩ := List.lookup_eq_some_iff.1 hlookup
    exact List.mem_append_right _ List.mem_cons_self

/-- The order does not matter where each key is there once. -/
theorem Keyed.lookup_reverse (h : Keyed d) : d.reverse.lookup key = d.lookup key := by
  have hreverse : Keyed d.reverse := by
    rw [Keyed, List.map_reverse]
    exact List.nodup_reverse.2 h
  refine Option.ext fun value => ?_
  rw [← hreverse.mem_iff, ← h.mem_iff, List.mem_reverse]

end Dict
