import Mathlib

/-!
# Sliding windows

Times listed oldest first; those that count at a moment `now` lie in the half-open window `(now - w, now]`.  When each
time comes while fewer than `limit` of the earlier ones count, no window of that length holds more than `limit`
(`Limited.length_le`).
-/

namespace SlidingWindow

variable {w now later t : Int} {times times' : List Int} {limit : Nat}

/-- The times after `now - w`. -/
def recent (w now : Int) (times : List Int) : List Int := times.filter fun t => now - w < t

/-- Each time comes when fewer than `limit` of the times before it count. -/
def Limited (w : Int) (limit : Nat) (times : List Int) : Prop :=
  ∀ before t after, times = before ++ t :: after → (recent w t before).length < limit

@[simp] theorem recent_nil : recent w now [] = [] := rfl

theorem recent_append : recent w now (times ++ times') = recent w now times ++ recent w now times' :=
  List.filter_append _ _

/-- In a sorted list the times that no longer count come first. -/
theorem dropWhile_eq_recent (h : times.Pairwise (· ≤ ·)) : times.dropWhile (· ≤ now - w) = recent w now times := by
  induction times with
  | nil => rfl
  | cons t times ih =>
    have htail := (List.pairwise_cons.1 h).2
    have hle := (List.pairwise_cons.1 h).1
    by_cases ht : t ≤ now - w
    · have hnot : ¬ now - w < t := by omega
      rw [List.dropWhile_cons_of_pos (by simpa using ht), ih htail, recent, recent,
        List.filter_cons_of_neg (by simpa using hnot)]
    · have hall : ∀ x ∈ t :: times, now - w < x := by
        intro x hx
        rcases List.mem_cons.1 hx with rfl | hx
        · omega
        · have := hle x hx
          omega
      rw [List.dropWhile_cons_of_neg (by simpa using ht), recent,
        List.filter_eq_self.2 fun x hx => decide_eq_true (hall x hx)]

theorem recent_recent (h : now ≤ later) : recent w later (recent w now times) = recent w later times := by
  unfold recent
  rw [List.filter_filter]
  refine List.filter_congr fun x _ => ?_
  rw [Bool.eq_iff_iff, Bool.and_eq_true, decide_eq_true_eq, decide_eq_true_eq]
  omega

/-- One more time, not before the others. -/
theorem sorted_concat (h : times.Pairwise (· ≤ ·)) (hle : ∀ x ∈ times, x ≤ t) : (times ++ [t]).Pairwise (· ≤ ·) := by
  rw [List.pairwise_append]
  refine ⟨h, List.pairwise_singleton _ _, fun x hx y hy => ?_⟩
  rw [List.mem_singleton.1 hy]
  exact hle x hx

/-- Fewer times count later. -/
theorem length_recent_le (h : now ≤ later) (times : List Int) :
    (recent w later times).length ≤ (recent w now times).length := by
  refine (List.monotone_filter_right times fun t ht => ?_).length_le
  have ht := of_decide_eq_true ht
  exact decide_eq_true (by omega)

theorem length_recent_concat (w now t : Int) (times : List Int) : (recent w now (times ++ [t])).length =
    (recent w now times).length + if now - w < t then 1 else 0 := by
  rw [recent_append, List.length_append]
  congr 1
  by_cases h : now - w < t <;> simp [recent, h]

/-- Times that are all too old do not count. -/
theorem recent_eq_nil (h : ∀ t ∈ times, t ≤ now) (hlate : now ≤ later - w) : recent w later times = [] := by
  refine List.filter_eq_nil_iff.2 fun t ht => ?_
  have hle := h t ht
  simpa using by omega

theorem Limited.concat (h : Limited w limit times) (ht : (recent w t times).length < limit) :
    Limited w limit (times ++ [t]) := by
  intro before x after heq
  rcases List.eq_nil_or_concat after with rfl | ⟨after, y, rfl⟩
  · obtain ⟨rfl, hx⟩ := List.append_inj' heq rfl
    obtain rfl := List.singleton_inj.1 hx
    exact ht
  · have hsplit : times ++ [t] = (before ++ x :: after) ++ [y] := by
      rw [heq]
      simp
    exact h before x after (List.append_inj' hsplit rfl).1

/-- No window holds more than `limit` of the times. -/
theorem Limited.length_le (h : Limited w limit times) (hs : times.Pairwise (· ≤ ·)) (T : Int) :
    (times.filter fun t => T - w < t ∧ t ≤ T).length ≤ limit := by
  induction times using List.reverseRecOn with
  | nil => exact Nat.zero_le _
  | append_singleton times t ih =>
    have hbefore : Limited w limit times := by
      intro before x after heq
      exact h before x (after ++ [t]) (by rw [heq]; simp)
    rw [List.filter_append]
    by_cases ht : T - w < t ∧ t ≤ T
    · -- The earlier times of the window still count when `t` comes.
      have hlt : (recent w t times).length < limit := h times t [] rfl
      have hle : (times.filter fun t => T - w < t ∧ t ≤ T).length ≤ (recent w t times).length := by
        refine (List.monotone_filter_right times fun x hx => ?_).length_le
        have hx := of_decide_eq_true hx
        exact decide_eq_true (by omega)
      rw [List.filter_cons_of_pos (by simpa using ht), List.length_append]
      simp only [List.filter_nil, List.length_singleton]
      omega
    · rw [List.filter_cons_of_neg (by simpa using ht), List.filter_nil, List.append_nil]
      exact ih hbefore (List.pairwise_append.1 hs).1

end SlidingWindow
