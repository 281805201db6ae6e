import Mathlib

/-!
# Words

The words of a text are what stands between characters of a class, as `str.split()` finds them: there is no word between
two such characters, nor at the ends.
-/

namespace Words

variable {α : Type*} {p : α → Bool}

/-- The words of a text, which characters of the class separate. -/
def words (p : α → Bool) (s : List α) : List (List α) := (s.splitOnP p).filter fun w => !w.isEmpty

@[simp] theorem words_nil (p : α → Bool) : words p [] = [] := rfl

/-- A separator belongs to no word. -/
private theorem words_append_cons {c : α} (hc : p c = true) (s t : List α) :
    words p (s ++ c :: t) = words p s ++ words p t := by
  rw [words, List.splitOnP_append_cons s t hc, List.filter_append]
  rfl

theorem words_cons {c : α} (hc : p c = true) (s : List α) : words p (c :: s) = words p s := words_append_cons hc [] s

private theorem words_eq_singleton {w : List α} (hne : w ≠ []) (hw : ∀ c ∈ w, p c = false) : words p w = [w] := by
  rw [words, List.splitOnP_eq_singleton hw]
  simp [hne]

/-- A word at the beginning. -/
theorem words_append {w s : List α} (hne : w ≠ []) (hw : ∀ c ∈ w, p c = false)
    (hs : s = [] ∨ ∃ c t, s = c :: t ∧ p c = true) : words p (w ++ s) = w :: words p s := by
  rcases hs with rfl | ⟨c, t, rfl, hc⟩
  · rw [List.append_nil, words_eq_singleton hne hw, words_nil]
  · rw [words_append_cons hc, words_eq_singleton hne hw, words_cons hc, List.singleton_append]

end Words
