import Mathlib

/-!
# Tables with a bounded number of keys

A table lists its entries oldest first.  A key that is not in it is put at the end, and then the oldest entries are
dropped until at most `bound` are left (`track`).  Every other entry stays as it is, except for the one that is dropped
(`find?_track`); when `bound` new keys come, all the old ones are gone (`foldl_trackKey`).
-/

namespace BoundedTable

variable {κ ν : Type*} [DecidableEq κ]

def find? (table : List (κ × ν)) (key : κ) : Option ν := (table.find? (·.1 = key)).map Prod.snd

/-- The table with `key` in it, at the end with the value `fresh` if it is new. -/
def track (bound : Nat) (table : List (κ × ν)) (key : κ) (fresh : ν) : List (κ × ν) :=
  if (find? table key).isSome then table
  else
    let table := table ++ [(key, fresh)]
    table.drop (table.length - bound)

def set (table : List (κ × ν)) (key : κ) (value : ν) : List (κ × ν) :=
  table.map fun e => if e.1 = key then (e.1, value) else e

/-- What `track` does to the keys. -/
def trackKey (bound : Nat) (keys : List κ) (key : κ) : List κ :=
  if key ∈ keys then keys else (keys ++ [key]).drop ((keys ++ [key]).length - bound)

/-- The keys are distinct, and not more than `bound`. -/
structure Fits (bound : Nat) (table : List (κ × ν)) : Prop where
  nodup : (table.map Prod.fst).Nodup
  length : table.length ≤ bound

variable {bound : Nat} {table : List (κ × ν)}

@[simp] theorem find?_nil (key : κ) : find? ([] : List (κ × ν)) key = none := rfl

theorem find?_cons (e : κ × ν) (table : List (κ × ν)) (key : κ) :
    find? (e :: table) key = if e.1 = key then some e.2 else find? table key := by
  unfold find?
  rw [List.find?_cons]
  by_cases h : e.1 = key <;> simp [h]

theorem find?_eq_none {key : κ} : find? table key = none ↔ key ∉ table.map Prod.fst := by
  induction table with
  | nil => simp
  | cons e table ih =>
    rw [find?_cons, List.map_cons, List.mem_cons, not_or, ← ih]
    by_cases h : e.1 = key
    · simp [h]
    · have hne : key ≠ e.1 := fun heq => h heq.symm
      simp [h, hne]

theorem find?_append (table table' : List (κ × ν)) (key : κ) :
    find? (table ++ table') key = (find? table key).or (find? table' key) := by
  simp [find?, List.find?_append, Option.map_or]

@[simp] theorem keys_set (table : List (κ × ν)) (key : κ) (value : ν) :
    (set table key value).map Prod.fst = table.map Prod.fst := by
  unfold set
  rw [List.map_map]
  refine List.map_congr_left fun e _ => ?_
  simp only [Function.comp_apply]
  split <;> rfl

theorem find?_set (table : List (κ × ν)) (key k : κ) (value : ν) :
    find? (set table key value) k = if k = key then (find? table k).map fun _ => value else find? table k := by
  induction table with
  | nil => simp [set]
  | cons e table ih =>
    have hcons : set (e :: table) key value = (if e.1 = key then (e.1, value) else e) :: set table key value := rfl
    rw [hcons, find?_cons, find?_cons, ih]
    by_cases he : e.1 = key
    · by_cases hk : e.1 = k
      · have hkk : k = key := hk.symm.trans he
        simp [hkk, he]
      · have hkk : k ≠ key := fun h => hk (he.trans h.symm)
        have hne : key ≠ k := fun h => hkk h.symm
        simp [he, hkk, hne]
    · by_cases hk : e.1 = k
      · have hkk : k ≠ key := fun h => he (hk.trans h)
        simp [hk, hkk]
      · simp [he, hk]

/-- A key that is tracked changes nothing; a new one comes last, and takes the place of the oldest in a full table. -/
theorem track_cases (h : Fits bound table) (hpos : 0 < bound) (key : κ) (fresh : ν) :
    (find? table key ≠ none ∧ track bound table key fresh = table) ∨
    (find? table key = none ∧ table.length < bound ∧ track bound table key fresh = table ++ [(key, fresh)]) ∨
    ∃ e rest, table = e :: rest ∧ find? table key = none ∧ bound ≤ table.length ∧
      track bound table key fresh = rest ++ [(key, fresh)] := by
  unfold track
  cases hfind : find? table key with
  | some value => exact .inl ⟨by simp, rfl⟩
  | none =>
    right
    have hlength := h.length
    by_cases hfull : table.length < bound
    · refine .inl ⟨rfl, hfull, ?_⟩
      have hzero : (table ++ [(key, fresh)]).length - bound = 0 := by
        rw [List.length_append, List.length_singleton]
        omega
      simp only [Option.isSome_none, Bool.false_eq_true, if_false, hzero, List.drop_zero]
    · cases table with
      | nil => exact absurd hpos hfull
      | cons e rest =>
        refine .inr ⟨e, rest, rfl, rfl, not_lt.1 hfull, ?_⟩
        have hone : (e :: rest ++ [(key, fresh)]).length - bound = 1 := by
          rw [List.length_append, List.length_singleton]
          omega
        simp only [Option.isSome_none, Bool.false_eq_true, if_false, hone]
        rfl

theorem Fits.track (h : Fits bound table) (hpos : 0 < bound) (key : κ) (fresh : ν) :
    Fits bound (track bound table key fresh) := by
  have hadd : ∀ l : List (κ × ν), (l.map Prod.fst).Nodup → key ∉ l.map Prod.fst →
      ((l ++ [(key, fresh)]).map Prod.fst).Nodup := by
    intro l hl hkey
    rw [List.map_append, List.map_singleton, ← List.concat_eq_append]
    exact hl.concat hkey
  rcases track_cases h hpos key fresh with ⟨-, heq⟩ | ⟨hnone, hlt, heq⟩ | ⟨e, rest, rfl, hnone, -, heq⟩
  · rw [heq]
    exact h
  · rw [heq]
    refine ⟨hadd _ h.nodup (find?_eq_none.1 hnone), ?_⟩
    rw [List.length_append, List.length_singleton]
    exact hlt
  · rw [heq]
    refine ⟨hadd _ (List.nodup_cons.1 h.nodup).2 fun hmem => ?_, ?_⟩
    · exact find?_eq_none.1 hnone (List.mem_cons_of_mem _ hmem)
    · rw [List.length_append, List.length_singleton]
      exact h.length

theorem Fits.set (h : Fits bound table) (key : κ) (value : ν) : Fits bound (set table key value) := by
  refine ⟨?_, ?_⟩
  · rw [keys_set]
    exact h.nodup
  · have hlength := congrArg List.length (keys_set table key value)
    rw [List.length_map, List.length_map] at hlength
    rw [hlength]
    exact h.length

/-- Tracking a key leaves the others, but for the oldest of a full table. -/
theorem find?_track (h : Fits bound table) (hpos : 0 < bound) (key k : κ) (fresh : ν) :
    find? (BoundedTable.track bound table key fresh) k =
      (if k = key then some ((find? table key).getD fresh) else find? table k) ∨
    (k ≠ key ∧ find? (BoundedTable.track bound table key fresh) k = none ∧ find? table key = none ∧
      bound ≤ table.length ∧ ∃ e ∈ table.head?, e.1 = k) := by
  rcases track_cases h hpos key fresh with ⟨hsome, heq⟩ | ⟨hnone, -, heq⟩ | ⟨e, rest, rfl, hnone, hfull, heq⟩
  · left
    rw [heq]
    by_cases hk : k = key
    · obtain ⟨value, hvalue⟩ := Option.ne_none_iff_exists'.1 hsome
      simp [hk, hvalue]
    · rw [if_neg hk]
  · left
    rw [heq, find?_append, find?_cons, find?_nil]
    by_cases hk : k = key
    · subst hk
      simp [hnone]
    · have hne : key ≠ k := fun h => hk h.symm
      simp [hk, hne]
  · rw [heq, find?_append, find?_cons, find?_nil]
    have hek : e.1 ≠ key := fun he => find?_eq_none.1 hnone (he ▸ List.mem_cons_self)
    have hrest : find? rest key = none := by
      rw [find?_cons, if_neg hek] at hnone
      exact hnone
    by_cases hk : k = key
    · left
      subst hk
      simp [hnone, hrest]
    · have hne : key ≠ k := fun h => hk h.symm
      by_cases hevicted : e.1 = k
      · right
        have hgone : find? rest k = none := find?_eq_none.2 (hevicted ▸ (List.nodup_cons.1 h.nodup).1)
        exact ⟨hk, by simp [hgone, hne], hnone, hfull, e, rfl, hevicted⟩
      · left
        have hother : find? (e :: rest) k = find? rest k := by rw [find?_cons, if_neg hevicted]
        simp [hk, hne, hother]

theorem keys_track (bound : Nat) (table : List (κ × ν)) (key : κ) (fresh : ν) :
    (BoundedTable.track bound table key fresh).map Prod.fst = trackKey bound (table.map Prod.fst) key := by
  unfold BoundedTable.track trackKey
  cases hfind : find? table key with
  | none =>
    rw [if_neg (find?_eq_none.1 hfind)]
    simp [List.map_drop]
  | some value =>
    have hmem : key ∈ table.map Prod.fst := by
      by_contra hnot
      rw [find?_eq_none.2 hnot] at hfind
      cases hfind
    rw [if_pos hmem]
    rfl

/-- New keys one after another leave the last `bound` of all. -/
theorem foldl_trackKey {keys new : List κ} (hnodup : (keys ++ new).Nodup) (hlength : keys.length ≤ bound) :
    new.foldl (trackKey bound) keys = (keys ++ new).drop (keys.length + new.length - bound) := by
  induction new generalizing keys with
  | nil =>
    have hzero : keys.length - bound = 0 := Nat.sub_eq_zero_of_le hlength
    simp [hzero]
  | cons key new ih =>
    have hkey : key ∉ keys := fun hmem => (List.nodup_append.1 hnodup).2.2 _ hmem _ List.mem_cons_self rfl
    have hone : trackKey bound keys key = (keys ++ [key]).drop (keys.length + 1 - bound) := by
      rw [trackKey, if_neg hkey, List.length_append, List.length_singleton]
    have hall : keys ++ key :: new = keys ++ [key] ++ new := by simp
    rw [List.foldl_cons, hone]
    rw [hall] at hnodup ⊢
    have hle : keys.length + 1 - bound ≤ (keys ++ [key]).length := by
      rw [List.length_append, List.length_singleton]
      omega
    rw [ih]
    · rw [← List.drop_append_of_le_length hle, List.drop_drop, List.length_drop, List.length_append,
        List.length_singleton, List.length_cons]
      congr 1
      omega
    · rw [← List.drop_append_of_le_length hle]
      exact hnodup.sublist (List.drop_sublist _ _)
    · rw [List.length_drop, List.length_append, List.length_singleton]
      omega

end BoundedTable
