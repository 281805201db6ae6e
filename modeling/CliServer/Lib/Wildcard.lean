import Mathlib

/-!
# Patterns of segments

A pattern is a list of segments, some of them `star`.  A `star` at the end stands for any number of segments, also none;
elsewhere it stands for exactly one.  A word is a pattern as well, so a pattern can be matched against another
(`accepts star g p`): that is how "everything `p` accepts is accepted by `g`" is usually tested.

The test is sound except at one place.  A pattern that ends in `star` accepts its stem, the pattern without the `star`,
which is one segment shorter than every word the test looks at.  So acceptance is transitive for words at least as long
as the middle pattern (`accepts_trans`); for a shorter word the stem has to be asked about (`anyAccepts_of_covers`).
-/

namespace Wildcard

variable {α : Type*} [DecidableEq α] (star : α)

/-- Whether a pattern accepts a word. -/
def accepts : List α → List α → Bool
  | [], r => r.isEmpty
  | seg :: g, r =>
    if seg = star ∧ g = [] then true
    else match r with
      | [] => false
      | x :: r => (seg = star ∨ seg = x) && accepts g r

variable {star} {b g p r : List α}

private theorem accepts_of_star {seg : α} (h : seg = star ∧ g = []) : accepts star (seg :: g) r = true := by
  cases r <;> simp [accepts, h]

private theorem accepts_star : accepts star [star] r = true := accepts_of_star ⟨rfl, rfl⟩

private theorem accepts_cons_cons {seg x : α} (h : ¬ (seg = star ∧ g = [])) :
    accepts star (seg :: g) (x :: r) = true ↔ (seg = star ∨ seg = x) ∧ accepts star g r = true := by
  simp [accepts, h]

private theorem not_accepts_cons_nil {seg : α} (h : ¬ (seg = star ∧ g = [])) : accepts star (seg :: g) [] = false := by
  simp [accepts, h]

/-- A pattern that ends in `star` accepts its stem. -/
theorem accepts_stem (b : List α) : accepts star (b ++ [star]) b = true := by
  induction b with
  | nil => exact accepts_star
  | cons seg b ih => exact (accepts_cons_cons (by simp)).2 ⟨.inr rfl, ih⟩

/-- Acceptance is transitive, for words at least as long as the pattern in the middle. -/
private theorem accepts_trans (hgp : accepts star g p = true) (hpr : accepts star p r = true)
    (hlen : p.length ≤ r.length) :
    accepts star g r = true := by
  induction g generalizing p r with
  | nil =>
    obtain rfl : p = [] := List.isEmpty_iff.1 hgp
    exact hpr
  | cons seg g ih =>
    by_cases hstar : seg = star ∧ g = []
    · exact accepts_of_star hstar
    · cases p with
      | nil =>
        rw [not_accepts_cons_nil hstar] at hgp
        cases hgp
      | cons y p =>
        obtain ⟨hseg, hgp⟩ := (accepts_cons_cons hstar).1 hgp
        cases r with
        | nil => simp at hlen
        | cons x r =>
          have hlen' : p.length ≤ r.length := by simpa using hlen
          refine (accepts_cons_cons hstar).2 ?_
          by_cases hy : y = star ∧ p = []
          · -- The middle pattern is down to its last `star`: so is `g`, or it has nothing left.
            obtain ⟨rfl, rfl⟩ := hy
            cases g with
            | nil =>
              have hne : seg ≠ y := fun h => hstar ⟨h, rfl⟩
              simp [hne] at hseg
            | cons z g =>
              by_cases hz : z = y ∧ g = []
              · obtain ⟨rfl, rfl⟩ := hz
                have hsegz : seg = z := by simpa using hseg
                exact ⟨.inl hsegz, accepts_star⟩
              · rw [not_accepts_cons_nil hz] at hgp
                cases hgp
          · obtain ⟨hyx, hpr⟩ := (accepts_cons_cons hy).1 hpr
            refine ⟨?_, ih hgp hpr hlen'⟩
            rcases hseg with hseg | hseg
            · exact .inl hseg
            · rcases hyx with hyx | hyx
              · exact .inl (hseg.trans hyx)
              · exact .inr (hseg.trans hyx)

/-- A pattern without `star` accepts only itself. -/
theorem eq_of_accepts (h : accepts star g r = true) (hstar : star ∉ g) : g = r := by
  induction g generalizing r with
  | nil => exact (List.isEmpty_iff.1 h).symm
  | cons seg g ih =>
    obtain ⟨hseg, hg⟩ : star ≠ seg ∧ star ∉ g := by simpa using hstar
    have hne : ¬ (seg = star ∧ g = []) := fun h => hseg h.1.symm
    cases r with
    | nil =>
      rw [not_accepts_cons_nil hne] at h
      cases h
    | cons x r =>
      obtain ⟨hx, h⟩ := (accepts_cons_cons hne).1 h
      rw [hx.resolve_left hseg.symm, ih h hg]

/-- A word shorter than the pattern is accepted only through the `star` at the end, and is as long as the stem. -/
private theorem accepts_short (h : accepts star p r = true) (hlen : r.length < p.length) :
    ∃ b, p = b ++ [star] ∧ b.length = r.length ∧ accepts star b r = true := by
  induction p generalizing r with
  | nil => simp at hlen
  | cons seg p ih =>
    by_cases hstar : seg = star ∧ p = []
    · obtain ⟨rfl, rfl⟩ := hstar
      obtain rfl : r = [] := List.length_eq_zero_iff.1 (by simpa using hlen)
      exact ⟨[], rfl, rfl, rfl⟩
    · cases r with
      | nil =>
        rw [not_accepts_cons_nil hstar] at h
        cases h
      | cons x r =>
        obtain ⟨hseg, h⟩ := (accepts_cons_cons hstar).1 h
        obtain ⟨b, rfl, hb, hbr⟩ := ih h (by simpa using hlen)
        refine ⟨seg :: b, rfl, by simp [hb], ?_⟩
        by_cases hb0 : seg = star ∧ b = []
        · exact accepts_of_star hb0
        · exact (accepts_cons_cons hb0).2 ⟨hseg, hbr⟩

/-! ### Sets of patterns -/

/-- Whether one of the patterns accepts the word. -/
def anyAccepts (star : α) (gs : List (List α)) (r : List α) : Bool := gs.any fun g => accepts star g r

/-- A set that accepts every pattern of another, and their stems of the length of a word, accepts the word with them. -/
theorem anyAccepts_of_covers {gs ps : List (List α)} (hcovers : ∀ p ∈ ps, anyAccepts star gs p = true)
    (hstems : ∀ b, b ++ [star] ∈ ps → b.length = r.length → anyAccepts star gs b = true)
    (hr : anyAccepts star ps r = true) : anyAccepts star gs r = true := by
  obtain ⟨p, hp, hpr⟩ := List.any_eq_true.1 hr
  by_cases hlen : p.length ≤ r.length
  · obtain ⟨g, hg, hgp⟩ := List.any_eq_true.1 (hcovers p hp)
    exact List.any_eq_true.2 ⟨g, hg, accepts_trans hgp hpr hlen⟩
  · obtain ⟨b, rfl, hb, hbr⟩ := accepts_short hpr (Nat.lt_of_not_le hlen)
    obtain ⟨g, hg, hgb⟩ := List.any_eq_true.1 (hstems b hp hb)
    exact List.any_eq_true.2 ⟨g, hg, accepts_trans hgb hbr (Nat.le_of_eq hb)⟩

end Wildcard
