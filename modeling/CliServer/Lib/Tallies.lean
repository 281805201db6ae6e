import Mathlib

/-!
# Tallies

Counting the items of a list by a key.  A dictionary of lists, built by appending each item to the list of its key
(`groupBy`), has for every key the items with that key, in their order; whatever is counted, the counts of the groups
add up to the count of all (`sum_countP_groups`).  In a sorted list, the item at index `k` has more than `k` items up to
it and at most `k` items below it (`lt_countP_le`, `countP_lt_le`).
-/

namespace Tallies

variable {α κ : Type*} [DecidableEq κ]

/-- The list of a key, empty when it has none. -/
def group (groups : List (κ × List α)) (k : κ) : List α := ((groups.find? (·.1 = k)).map Prod.snd).getD []

/-- `groups.setdefault(k, []).append(x)`. -/
def append (groups : List (κ × List α)) (k : κ) (x : α) : List (κ × List α) :=
  if k ∈ groups.map Prod.fst then groups.map fun g => if g.1 = k then (g.1, g.2 ++ [x]) else g
  else groups ++ [(k, [x])]

/-- The items of a list by their keys. -/
def groupBy (key : α → κ) (l : List α) : List (κ × List α) := l.foldl (fun groups x => append groups (key x) x) []

variable {key : α → κ} {groups : List (κ × List α)} {k : κ} {x : α}

private theorem keys_append : (append groups k x).map Prod.fst =
    if k ∈ groups.map Prod.fst then groups.map Prod.fst else groups.map Prod.fst ++ [k] := by
  unfold append
  split
  · rw [List.map_map]
    refine List.map_congr_left fun g _ => ?_
    simp only [Function.comp_apply]
    split <;> rfl
  · simp

private theorem group_cons (g : κ × List α) (groups : List (κ × List α)) (k : κ) :
    group (g :: groups) k = if g.1 = k then g.2 else group groups k := by
  unfold group
  rw [List.find?_cons]
  by_cases h : g.1 = k <;> simp [h]

private theorem group_eq_nil (h : k ∉ groups.map Prod.fst) : group groups k = [] := by
  induction groups with
  | nil => rfl
  | cons g groups ih =>
    rw [List.map_cons, List.mem_cons, not_or] at h
    rw [group_cons, if_neg fun heq => h.1 heq.symm]
    exact ih h.2

/-- Appending to the list of a key. -/
private theorem group_append (k' : κ) :
    group (append groups k x) k' = if k' = k then group groups k' ++ [x] else group groups k' := by
  unfold append
  split
  next hmem =>
    induction groups with
    | nil => cases hmem
    | cons g groups ih =>
      rw [List.map_cons, group_cons, group_cons]
      by_cases hg : g.1 = k
      · by_cases hk : k' = k
        · simp [hg, hk]
        · have hne : k ≠ k' := fun h => hk h.symm
          have hrest : group (groups.map fun g => if g.1 = k then (g.1, g.2 ++ [x]) else g) k' = group groups k' := by
            by_cases hin : k ∈ groups.map Prod.fst
            · rw [ih hin, if_neg hk]
            · have hsame : (groups.map fun g => if g.1 = k then (g.1, g.2 ++ [x]) else g) = groups := by
                refine (List.map_congr_left fun g' hg' => ?_).trans (List.map_id _)
                have hother : g'.1 ≠ k := fun heq => hin (heq ▸ List.mem_map_of_mem hg')
                rw [if_neg hother]
                rfl
              rw [hsame]
          simp only [hg, if_true, hrest, if_neg hne, if_neg hk]
      · have hin : k ∈ groups.map Prod.fst := by
          rw [List.map_cons, List.mem_cons] at hmem
          exact hmem.resolve_left fun heq => hg heq.symm
        by_cases hk : g.1 = k'
        · have hne : k' ≠ k := fun h => hg (hk.trans h)
          simp only [hg, if_false, if_pos hk, if_neg hne]
        · simp only [hg, if_false, if_neg hk, ih hin]
  next hnew =>
    by_cases hk : k' = k
    · subst hk
      rw [if_pos rfl, group_eq_nil hnew]
      unfold group
      have hnone : groups.find? (fun g => g.1 = k') = none := by
        rw [List.find?_eq_none]
        intro g hg heq
        exact hnew (of_decide_eq_true heq ▸ List.mem_map_of_mem hg)
      rw [List.find?_append, hnone]
      simp
    · have hne : k ≠ k' := fun h => hk h.symm
      rw [if_neg hk]
      unfold group
      rw [List.find?_append]
      simp [hne]

/-- The groups have distinct keys, those of the items, and for each the items with that key. -/
theorem groupBy_spec (key : α → κ) (l : List α) : ((groupBy key l).map Prod.fst).Nodup ∧
    (∀ k, k ∈ (groupBy key l).map Prod.fst ↔ ∃ x ∈ l, key x = k) ∧
    ∀ k, group (groupBy key l) k = l.filter (key · = k) := by
  induction l using List.reverseRecOn with
  | nil => exact ⟨List.nodup_nil, fun k => by simp [groupBy], fun k => rfl⟩
  | append_singleton l x ih =>
    obtain ⟨hnodup, hkeys, hgroup⟩ := ih
    have hstep : groupBy key (l ++ [x]) = append (groupBy key l) (key x) x := by
      unfold groupBy
      rw [List.foldl_append]
      rfl
    rw [hstep, keys_append]
    refine ⟨?_, fun k => ?_, fun k => ?_⟩
    · split
      next => exact hnodup
      next hnew =>
        rw [← List.concat_eq_append]
        exact hnodup.concat hnew
    · have hiff : (∃ y ∈ l ++ [x], key y = k) ↔ (∃ y ∈ l, key y = k) ∨ key x = k := by
        simp [or_and_right, exists_or]
      rw [hiff, ← hkeys]
      split
      next hmem =>
        refine ⟨.inl, fun h => h.elim id fun heq => heq ▸ hmem⟩
      next =>
        rw [List.mem_append, List.mem_singleton]
        exact or_congr_right eq_comm
    · rw [group_append, hgroup, List.filter_append]
      by_cases hk : k = key x
      · simp [hk]
      · have hne : ¬ key x = k := fun h => hk h.symm
        simp [hk, hne]

/-- Where the keys are distinct, a group is the list of its key. -/
theorem group_of_mem (hnodup : (groups.map Prod.fst).Nodup) {g : κ × List α} (hg : g ∈ groups) :
    group groups g.1 = g.2 := by
  induction groups with
  | nil => cases hg
  | cons g' groups ih =>
    rw [List.map_cons, List.nodup_cons] at hnodup
    rw [group_cons]
    rcases List.mem_cons.1 hg with rfl | hg
    · exact if_pos rfl
    · have hne : g'.1 ≠ g.1 := fun heq => hnodup.1 (heq ▸ List.mem_map_of_mem hg)
      rw [if_neg hne]
      exact ih hnodup.2 hg

private theorem sum_indicator {ks : List κ} (hnodup : ks.Nodup) (hk : k ∈ ks) (n : Nat) :
    (ks.map fun k' => if k = k' then n else 0).sum = n := by
  induction ks with
  | nil => cases hk
  | cons k' ks ih =>
    obtain ⟨hnot, hnodup⟩ := List.nodup_cons.1 hnodup
    rw [List.map_cons, List.sum_cons]
    by_cases heq : k = k'
    · subst heq
      have hzero : (ks.map fun k' => if k = k' then n else 0).sum = 0 := by
        refine List.sum_eq_zero fun m hm => ?_
        obtain ⟨k', hk', rfl⟩ := List.mem_map.1 hm
        have hne : k ≠ k' := fun h => hnot (h ▸ hk')
        exact if_neg hne
      rw [if_pos rfl, hzero, Nat.add_zero]
    · rw [if_neg heq, Nat.zero_add]
      exact ih hnodup ((List.mem_cons.1 hk).resolve_left heq)

/-- The counts of the groups add up to the count of all. -/
theorem sum_countP_groups {ks : List κ} (hnodup : ks.Nodup) {l : List α} (hcover : ∀ x ∈ l, key x ∈ ks) (p : α → Bool) :
    (ks.map fun k => (l.filter (key · = k)).countP p).sum = l.countP p := by
  induction l with
  | nil =>
    refine List.sum_eq_zero fun m hm => ?_
    obtain ⟨k, -, rfl⟩ := List.mem_map.1 hm
    rfl
  | cons x l ih =>
    have hone : ∀ k ∈ ks, ((x :: l).filter (key · = k)).countP p =
        (l.filter (key · = k)).countP p + if key x = k then (if p x = true then 1 else 0) else 0 := by
      intro k _
      by_cases hk : key x = k
      · rw [List.filter_cons_of_pos (by simpa using hk), List.countP_cons, if_pos hk]
      · rw [List.filter_cons_of_neg (by simpa using hk), if_neg hk, Nat.add_zero]
    rw [List.map_congr_left hone, List.sum_map_add, ih fun y hy => hcover y (List.mem_cons_of_mem _ hy),
      sum_indicator hnodup (hcover x List.mem_cons_self), List.countP_cons]

/-! ### Groups that are kept as summaries -/

section Summaries

variable {β : Type*}

/-- The entry of a key is made, or changed. -/
def upsert (entries : List (κ × β)) (k : κ) (made : β) (change : β → β) : List (κ × β) :=
  if k ∈ entries.map Prod.fst then entries.map fun e => if e.1 = k then (e.1, change e.2) else e
  else entries ++ [(k, made)]

/-- What keeps a summary up to date when an item is added keeps the summaries of all groups up to date. -/
theorem upsert_summaries {summary : List α → β} {made : β} {change : β → β} (hmade : summary [x] = made)
    (hchange : ∀ l, summary (l ++ [x]) = change (summary l)) :
    upsert (groups.map fun g => (g.1, summary g.2)) k made change =
      (append groups k x).map fun g => (g.1, summary g.2) := by
  have hkeys : (groups.map fun g => (g.1, summary g.2)).map Prod.fst = groups.map Prod.fst := by
    rw [List.map_map]
    rfl
  unfold upsert append
  rw [hkeys]
  split
  · rw [List.map_map, List.map_map]
    refine List.map_congr_left fun g _ => ?_
    simp only [Function.comp_apply]
    split
    · rw [hchange]
    · rfl
  · rw [List.map_append, List.map_singleton, hmade]

end Summaries

section Sorted

variable {β : Type*} [LinearOrder β] {s : List β} {i : Nat}

/-- More than `i` items are up to the one at index `i`. -/
theorem lt_countP_le (hs : s.Pairwise (· ≤ ·)) (h : i < s.length) : i < s.countP (· ≤ s[i]) := by
  have htake : (s.take (i + 1)).countP (· ≤ s[i]) = (s.take (i + 1)).length := by
    rw [List.countP_eq_length]
    intro x hx
    obtain ⟨j, hj, rfl⟩ := List.getElem_of_mem hx
    rw [List.getElem_take, decide_eq_true_eq]
    rw [List.length_take] at hj
    rcases Nat.lt_or_ge j i with hlt | hge
    · exact List.pairwise_iff_getElem.1 hs j i (by omega) h hlt
    · have heq : j = i := by omega
      subst heq
      exact le_rfl
  have hle := (List.take_sublist (i + 1) s).countP_le (p := (· ≤ s[i]))
  rw [htake, List.length_take] at hle
  omega

/-- At most `i` items are below it. -/
theorem countP_lt_le (hs : s.Pairwise (· ≤ ·)) (h : i < s.length) : s.countP (· < s[i]) ≤ i := by
  have hdrop : (s.drop i).countP (· < s[i]) = 0 := by
    rw [List.countP_eq_zero]
    intro x hx
    obtain ⟨j, hj, rfl⟩ := List.getElem_of_mem hx
    rw [List.getElem_drop, decide_eq_true_eq, not_lt]
    rw [List.length_drop] at hj
    rcases Nat.eq_zero_or_pos j with rfl | hpos
    · exact le_rfl
    · exact List.pairwise_iff_getElem.1 hs i (i + j) h (by omega) (by omega)
  have hsplit : ∀ v, s.countP (· < v) = (s.take i).countP (· < v) + (s.drop i).countP (· < v) := by
    intro v
    conv_lhs => rw [← List.take_append_drop i s, List.countP_append]
  have hle := List.countP_le_length (l := s.take i) (p := (· < s[i]))
  rw [hsplit, hdrop]
  rw [List.length_take] at hle
  omega

end Sorted

/-- Of a condition that follows from another, as many satisfy the one as the other only if they are equivalent. -/
theorem countP_eq_countP_iff {p q : α → Bool} {l : List α} (h : ∀ x ∈ l, q x = true → p x = true) :
    l.countP p = l.countP q ↔ ∀ x ∈ l, p x = true → q x = true := by
  induction l with
  | nil => simp
  | cons x l ih =>
    have hl : ∀ y ∈ l, q y = true → p y = true := fun y hy => h y (List.mem_cons_of_mem _ hy)
    have hle : l.countP q ≤ l.countP p := List.countP_mono_left hl
    rw [List.forall_mem_cons, ← ih hl, List.countP_cons, List.countP_cons]
    have hx := h x List.mem_cons_self
    by_cases hq : q x = true
    · simp [hq, hx hq]
    · by_cases hp : p x = true
      · rw [if_pos hp, if_neg hq]
        refine iff_of_false (by omega) fun hboth => hq (hboth.1 hp)
      · simp [hq, hp]

end Tallies
