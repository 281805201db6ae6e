import Mathlib

/-!
# A log with a cap for each kind of entry

A log whose entries have kinds, each with a cap of its own: when an entry is appended and there are too many of its
kind, the oldest of the kind is dropped.  `latest` says what is left.  It keeps as many of a kind as the cap allows,
whatever the other kinds are (`filter_latest`); what was dropped is dropped for good (`latest_latest_append`), so that
the log of all entries has the same latest ones as what is left; and it goes with the removal of old entries when the
log is in the order of their times (`filter_latest_of_sorted`).
-/

namespace CappedLog

variable {α κ : Type*} [DecidableEq κ] (kind : α → κ) (cap : κ → Nat)

/-- The entries with fewer than the cap of their kind after them. -/
def latest : List α → List α
  | [] => []
  | x :: l => if l.countP (kind · = kind x) < cap (kind x) then x :: latest l else latest l

variable {kind cap} {l l' : List α} {x : α} {k : κ}

private theorem latest_cons_of_lt (h : l.countP (kind · = kind x) < cap (kind x)) :
    latest kind cap (x :: l) = x :: latest kind cap l := if_pos h

private theorem latest_cons_of_le (h : cap (kind x) ≤ l.countP (kind · = kind x)) :
    latest kind cap (x :: l) = latest kind cap l := if_neg (Nat.not_lt.2 h)

theorem latest_sublist (l : List α) : (latest kind cap l).Sublist l := by
  induction l with
  | nil => exact List.Sublist.refl _
  | cons x l ih =>
    unfold latest
    split
    · exact ih.cons_cons x
    · exact ih.cons x

/-- An entry that is left out anyway. -/
private theorem filter_latest_cons_of_neg {p : α → Bool} (h : ¬ p x = true) :
    (latest kind cap (x :: l)).filter p = (latest kind cap l).filter p := by
  by_cases hlt : l.countP (kind · = kind x) < cap (kind x)
  · rw [latest_cons_of_lt hlt, List.filter_cons_of_neg h]
  · rw [latest_cons_of_le (Nat.not_lt.1 hlt)]

/-- The latest of a kind. -/
theorem filter_latest (l : List α) (k : κ) :
    (latest kind cap l).filter (kind · = k) = (l.filter (kind · = k)).rtake (cap k) := by
  induction l with
  | nil => simp [latest]
  | cons x l ih =>
    by_cases hx : kind x = k
    · subst hx
      have hfilter : ∀ l : List α, (x :: l).filter (kind · = kind x) = x :: l.filter (kind · = kind x) := fun l =>
        List.filter_cons_of_pos (by simp)
      rw [hfilter, List.rtake, List.length_cons]
      rw [List.rtake] at ih
      by_cases hlt : l.countP (kind · = kind x) < cap (kind x)
      · rw [latest_cons_of_lt hlt, hfilter, ih]
        rw [List.countP_eq_length_filter] at hlt
        rw [Nat.sub_eq_zero_of_le hlt.le, Nat.sub_eq_zero_of_le hlt, List.drop_zero, List.drop_zero]
      · rw [latest_cons_of_le (Nat.not_lt.1 hlt), ih]
        rw [List.countP_eq_length_filter, Nat.not_lt] at hlt
        rw [Nat.succ_sub hlt, List.drop_succ_cons]
    · rw [filter_latest_cons_of_neg (by simpa using hx), ih, List.filter_cons_of_neg (by simpa using hx)]

theorem countP_latest (l : List α) (k : κ) :
    (latest kind cap l).countP (kind · = k) = min (cap k) (l.countP (kind · = k)) := by
  rw [List.countP_eq_length_filter, List.countP_eq_length_filter, filter_latest, List.rtake, List.length_drop]
  omega

/-- What was dropped is not among the latest any more. -/
theorem latest_latest_append (l l' : List α) :
    latest kind cap (latest kind cap l ++ l') = latest kind cap (l ++ l') := by
  induction l with
  | nil => rfl
  | cons x l ih =>
    by_cases hlt : l.countP (kind · = kind x) < cap (kind x)
    · have hcount : (latest kind cap l ++ l').countP (kind · = kind x) = (l ++ l').countP (kind · = kind x) := by
        rw [List.countP_append, List.countP_append, countP_latest, Nat.min_eq_right hlt.le]
      rw [latest_cons_of_lt hlt, List.cons_append, List.cons_append, latest, latest, hcount, ih]
    · have hle : cap (kind x) ≤ (l ++ l').countP (kind · = kind x) := by
        rw [List.countP_append]
        omega
      rw [latest_cons_of_le (Nat.not_lt.1 hlt), ih, List.cons_append, latest_cons_of_le hle]

/-- A log in the order of the times, without the old entries. -/
theorem filter_latest_of_sorted {τ : Type*} [LinearOrder τ] {time : α → τ}
    (h : l.Pairwise fun x y => time x ≤ time y) (before : τ) :
    (latest kind cap l).filter (before ≤ time ·) = latest kind cap (l.filter (before ≤ time ·)) := by
  induction l with
  | nil => rfl
  | cons x l ih =>
    rw [List.pairwise_cons] at h
    by_cases hx : before ≤ time x
    · have hall : ∀ y ∈ x :: l, decide (before ≤ time y) = true := by
        intro y hy
        rcases List.mem_cons.1 hy with rfl | hy
        · exact decide_eq_true hx
        · exact decide_eq_true (hx.trans (h.1 y hy))
      rw [List.filter_eq_self.2 hall, List.filter_eq_self.2 fun y hy => hall y ((latest_sublist _).subset hy)]
    · rw [filter_latest_cons_of_neg (by simpa using hx), ih h.2, List.filter_cons_of_neg (by simpa using hx)]

theorem latest_map {β : Type*} (f : β → α) (l : List β) :
    latest kind cap (l.map f) = (latest (fun y => kind (f y)) cap l).map f := by
  induction l with
  | nil => rfl
  | cons x l ih =>
    have hcount : (l.map f).countP (kind · = kind (f x)) = l.countP fun y => kind (f y) = kind (f x) := List.countP_map
    by_cases hlt : l.countP (fun y => kind (f y) = kind (f x)) < cap (kind (f x))
    · rw [List.map_cons, latest_cons_of_lt (hcount.trans_lt hlt), latest_cons_of_lt hlt, ih, List.map_cons]
    · rw [List.map_cons, latest_cons_of_le ((Nat.not_lt.1 hlt).trans hcount.ge), latest_cons_of_le (Nat.not_lt.1 hlt), ih]

end CappedLog
