import Mathlib

/-!
# Backtracking patterns

Patterns as a backtracking matcher reads them: the alternatives in their order, a repetition from the longest run
down, and `\b`, which looks at the characters before and after.  `run` is the matcher, in continuation style;
`Consumes` says what a pattern can read, and `run_isSome`, `run_eq_some` connect the two.  A character that a pattern
avoids is a wall: `run_cut` says so of the matcher, `consumes_iff` of what can be read.
-/

namespace Substitution

variable {α β γ : Type*}

/-- `many` is `p*`, `boundary` is `\b` for the word characters `w`. -/
inductive Pattern (α : Type*) where
  | empty
  | one (p : α → Bool)
  | many (p : α → Bool)
  | boundary (w : α → Bool)
  | seq (a b : Pattern α)
  | alt (a b : Pattern α)

namespace Pattern

/-- One character of each class. -/
def ones : List (α → Bool) → Pattern α
  | [] => empty
  | p :: ps => seq (one p) (ones ps)

/-- `p+`. -/
def plus (p : α → Bool) : Pattern α := seq (one p) (many p)

/-- The first of the patterns that leads to a match. -/
def oneOf : List (Pattern α) → Pattern α → Pattern α
  | [], last => last
  | a :: as, last => alt a (oneOf as last)

end Pattern

open Pattern

/-- Is there a word character? -/
def wordAt (w : α → Bool) (c : Option α) : Bool := c.any w

/-- The character before, once `x` has been read. -/
def after : Option α → List α → Option α
  | prev, [] => prev
  | _, c :: x => after (some c) x

/-- The longest run is tried first. -/
def runMany (p : α → Bool) (k : Nat → Option α → List α → Option β) (n : Nat) (prev : Option α) : List α → Option β
  | [] => k n prev []
  | c :: s => if p c then (runMany p k (n + 1) (some c) s).or (k n prev (c :: s)) else k n prev (c :: s)

/-- The first match from here on after which `k` succeeds; `n` characters have been read, the last of which is `prev`.
-/
def run : Pattern α → (Nat → Option α → List α → Option β) → Nat → Option α → List α → Option β
  | empty, k, n, prev, s => k n prev s
  | one p, k, n, _, s =>
    match s with
    | [] => none
    | c :: s => if p c then k (n + 1) (some c) s else none
  | many p, k, n, prev, s => runMany p k n prev s
  | boundary w, k, n, prev, s => if wordAt w prev ≠ wordAt w s.head? then k n prev s else none
  | seq a b, k, n, prev, s => run a (run b k) n prev s
  | alt a b, k, n, prev, s => (run a k n prev s).or (run b k n prev s)

/-- After `prev`, the pattern can read `x` where `z` follows. -/
def Consumes : Pattern α → Option α → List α → List α → Prop
  | empty, _, x, _ => x = []
  | one p, _, x, _ => ∃ c, p c = true ∧ x = [c]
  | many p, _, x, _ => ∀ c ∈ x, p c = true
  | boundary w, prev, x, z => x = [] ∧ wordAt w prev ≠ wordAt w z.head?
  | seq a b, prev, x, z => ∃ y y', x = y ++ y' ∧ Consumes a prev y (y' ++ z) ∧ Consumes b (after prev y) y' z
  | alt a b, prev, x, z => Consumes a prev x z ∨ Consumes b prev x z

/-- The pattern reads no `q`, and no `q` is a word character. -/
def Avoids (q : α) : Pattern α → Prop
  | empty => True
  | one p => p q = false
  | many p => p q = false
  | boundary w => w q = false
  | seq a b => Avoids q a ∧ Avoids q b
  | alt a b => Avoids q a ∧ Avoids q b

/-! ### The matcher -/

section Run

variable {P : Pattern α} {k : Nat → Option α → List α → Option β} {k' : Nat → Option α → List α → Option γ} {n : Nat}
  {prev : Option α} {s x z : List α} {b : β} {p : α → Bool} {q : α}

@[simp] theorem after_nil : after prev [] = prev := rfl

@[simp] theorem after_cons (c : α) : after prev (c :: x) = after (some c) x := rfl

theorem after_append (x y : List α) : after prev (x ++ y) = after (after prev x) y := by
  induction x generalizing prev with
  | nil => rfl
  | cons c x ih => rw [List.cons_append, after_cons, after_cons, ih]

private theorem runMany_eq_some (h : runMany p k n prev s = some b) :
    ∃ x z, s = x ++ z ∧ (∀ c ∈ x, p c = true) ∧ k (n + x.length) (after prev x) z = some b := by
  induction s generalizing n prev with
  | nil => exact ⟨[], [], rfl, by simp, h⟩
  | cons c s ih =>
    rw [runMany] at h
    split at h
    · next hc =>
      rcases Option.or_eq_some_iff.1 h with hlong | ⟨-, hshort⟩
      · obtain ⟨x, z, rfl, hx, hk⟩ := ih hlong
        refine ⟨c :: x, z, rfl, List.forall_mem_cons.2 ⟨hc, hx⟩, ?_⟩
        rw [after_cons, List.length_cons, Nat.add_comm x.length, ← Nat.add_assoc]
        exact hk
      · exact ⟨[], c :: s, rfl, by simp, hshort⟩
    · exact ⟨[], c :: s, rfl, by simp, h⟩

/-- What the matcher finds, the pattern can read. -/
theorem run_eq_some (h : run P k n prev s = some b) :
    ∃ x z, s = x ++ z ∧ Consumes P prev x z ∧ k (n + x.length) (after prev x) z = some b := by
  induction P generalizing k n prev s with
  | empty => exact ⟨[], s, rfl, rfl, h⟩
  | one p =>
    cases s with
    | nil => cases h
    | cons c s =>
      rw [run] at h
      split at h
      · next hc => exact ⟨[c], s, rfl, ⟨c, hc, rfl⟩, h⟩
      · cases h
  | many p => exact runMany_eq_some h
  | boundary w =>
    rw [run] at h
    split at h
    · next hw => exact ⟨[], s, rfl, ⟨rfl, hw⟩, h⟩
    · cases h
  | seq a b iha ihb =>
    obtain ⟨y, z, rfl, hy, hk⟩ := iha h
    obtain ⟨y', z, rfl, hy', hk⟩ := ihb hk
    refine ⟨y ++ y', z, (List.append_assoc y y' z).symm, ⟨y, y', rfl, hy, hy'⟩, ?_⟩
    rw [List.length_append, after_append, ← Nat.add_assoc]
    exact hk
  | alt a b iha ihb =>
    rcases Option.or_eq_some_iff.1 h with ha | ⟨-, hb⟩
    · obtain ⟨x, z, hs, hx, hk⟩ := iha ha
      exact ⟨x, z, hs, .inl hx, hk⟩
    · obtain ⟨x, z, hs, hx, hk⟩ := ihb hb
      exact ⟨x, z, hs, .inr hx, hk⟩

private theorem isSome_or_left {a b : Option β} (h : a.isSome) : (a.or b).isSome := by
  rw [Option.isSome_or, h, Bool.true_or]

private theorem isSome_or_right {a b : Option β} (h : b.isSome) : (a.or b).isSome := by
  rw [Option.isSome_or, h, Bool.or_true]

private theorem runMany_isSome (hx : ∀ c ∈ x, p c = true) (hk : (k (n + x.length) (after prev x) z).isSome) :
    (runMany p k n prev (x ++ z)).isSome := by
  induction x generalizing n prev with
  | nil =>
    cases z with
    | nil => exact hk
    | cons c z =>
      rw [List.nil_append, runMany]
      split
      · exact isSome_or_right hk
      · exact hk
  | cons c x ih =>
    obtain ⟨hc, hx⟩ := List.forall_mem_cons.1 hx
    rw [List.cons_append, runMany, if_pos hc]
    rw [after_cons, List.length_cons, Nat.add_comm x.length, ← Nat.add_assoc] at hk
    exact isSome_or_left (ih hx hk)

/-- What the pattern can read, the matcher finds, or something before it. -/
theorem run_isSome (hx : Consumes P prev x z) (hk : (k (n + x.length) (after prev x) z).isSome) :
    (run P k n prev (x ++ z)).isSome := by
  induction P generalizing k n prev x z with
  | empty =>
    obtain rfl : x = [] := hx
    exact hk
  | one p =>
    obtain ⟨c, hc, rfl⟩ := hx
    rw [List.singleton_append, run]
    rw [if_pos hc]
    exact hk
  | many p => exact runMany_isSome hx hk
  | boundary w =>
    obtain ⟨rfl, hw⟩ := hx
    rw [List.nil_append, run, if_pos hw]
    exact hk
  | seq a b iha ihb =>
    obtain ⟨y, y', rfl, hy, hy'⟩ := hx
    rw [List.append_assoc, run]
    refine iha hy (ihb hy' ?_)
    rw [List.length_append, after_append, ← Nat.add_assoc] at hk
    exact hk
  | alt a b iha ihb =>
    rw [run]
    rcases hx with hx | hx
    · exact isSome_or_left (iha hx hk)
    · exact isSome_or_right (ihb hx hk)

/-- A pattern that avoids `q` reads nothing beyond the first one. -/
theorem run_cut (hP : Avoids q P) (y : List α) :
    run P k n prev (s ++ q :: y) = run P (fun n prev z => k n prev (z ++ q :: y)) n prev s := by
  induction P generalizing k n prev s with
  | empty => rfl
  | one p =>
    have hq : p q = false := hP
    cases s with
    | nil =>
      rw [List.nil_append, run, run]
      exact if_neg (by rw [hq]; exact Bool.false_ne_true)
    | cons c s => rfl
  | many p =>
    have hq : p q = false := hP
    rw [run, run]
    induction s generalizing n prev with
    | nil =>
      rw [List.nil_append, runMany, runMany, if_neg (by rw [hq]; exact Bool.false_ne_true)]
      rfl
    | cons c s ih =>
      rw [List.cons_append, runMany, runMany, ih]
      rfl
  | boundary w =>
    have hq : w q = false := hP
    have hhead : wordAt w (s ++ q :: y).head? = wordAt w s.head? := by
      cases s with
      | nil => rw [List.nil_append, List.head?_cons, List.head?_nil, wordAt, wordAt, Option.any_some, hq,
        Option.any_none]
      | cons c s => rfl
    rw [run, run, hhead]
  | seq a b iha ihb =>
    have hb : run b k = fun n prev s => run b k n prev s := rfl
    rw [run, run, iha hP.1]
    congr 1
    funext n prev z
    exact ihb hP.2
  | alt a b iha ihb => rw [run, run, iha hP.1, ihb hP.2]

/-- Two runs that go on alike are alike. -/
theorem run_rel {R : Option β → Option γ → Prop} (hnone : R none none)
    (hor : ∀ {a b a' b'}, R a a' → R b b' → R (a.or b) (a'.or b'))
    (hk : ∀ u z, s = u ++ z → Consumes P prev u z →
      R (k (n + u.length) (after prev u) z) (k' (n + u.length) (after prev u) z)) :
    R (run P k n prev s) (run P k' n prev s) := by
  induction P generalizing k k' n prev s with
  | empty => exact hk [] s rfl rfl
  | one p =>
    cases s with
    | nil => exact hnone
    | cons c s =>
      rw [run, run]
      split
      · next hc => exact hk [c] s rfl ⟨c, hc, rfl⟩
      · exact hnone
  | many p =>
    replace hk : ∀ u z, s = u ++ z → (∀ c ∈ u, p c = true) →
        R (k (n + u.length) (after prev u) z) (k' (n + u.length) (after prev u) z) := hk
    rw [run, run]
    induction s generalizing n prev with
    | nil => exact hk [] [] rfl (fun _ h => absurd h List.not_mem_nil)
    | cons c s ih =>
      rw [runMany, runMany]
      split
      · next hc =>
        refine hor (ih fun u z hs hu => ?_) (hk [] (c :: s) rfl fun _ h => absurd h List.not_mem_nil)
        have hcont := hk (c :: u) z (by rw [hs, List.cons_append]) (List.forall_mem_cons.2 ⟨hc, hu⟩)
        rw [after_cons, List.length_cons, Nat.add_comm u.length, ← Nat.add_assoc] at hcont
        exact hcont
      · exact hk [] (c :: s) rfl fun _ h => absurd h List.not_mem_nil
  | boundary w =>
    rw [run, run]
    split
    · next hw => exact hk [] s rfl ⟨rfl, hw⟩
    · exact hnone
  | seq a b iha ihb =>
    rw [run, run]
    refine iha fun u z hs hu => ihb fun u' z' hz hu' => ?_
    have hcont := hk (u ++ u') z' (by rw [hs, hz, List.append_assoc]) ⟨u, u', rfl, hz ▸ hu, hu'⟩
    rw [List.length_append, after_append, ← Nat.add_assoc] at hcont
    exact hcont
  | alt a b iha ihb =>
    rw [run, run]
    exact hor (iha fun u z hs hu => hk u z hs (.inl hu)) (ihb fun u z hs hu => hk u z hs (.inr hu))

theorem Consumes.not_mem (hP : Avoids q P) (h : Consumes P prev x z) : q ∉ x := by
  induction P generalizing prev x z with
  | empty =>
    obtain rfl : x = [] := h
    exact List.not_mem_nil
  | one p =>
    obtain ⟨c, hc, rfl⟩ := h
    have hq : p q = false := hP
    intro hmem
    rw [List.mem_singleton.1 hmem, hc] at hq
    cases hq
  | many p =>
    have hq : p q = false := hP
    intro hmem
    rw [h q hmem] at hq
    cases hq
  | boundary w =>
    obtain rfl : x = [] := h.1
    exact List.not_mem_nil
  | seq a b iha ihb =>
    obtain ⟨y, y', rfl, hy, hy'⟩ := h
    exact fun hmem => (List.mem_append.1 hmem).elim (iha hP.1 hy) (ihb hP.2 hy')
  | alt a b iha ihb => exact h.elim (iha hP.1) (ihb hP.2)

/-- What a pattern without `\b` reads does not depend on what stands around it. -/
def Free : Pattern α → Prop
  | boundary _ => False
  | seq a b => Free a ∧ Free b
  | alt a b => Free a ∧ Free b
  | _ => True

theorem Consumes.of_free {prev' : Option α} {z' : List α} (hP : Free P) (h : Consumes P prev x z) :
    Consumes P prev' x z' := by
  induction P generalizing prev prev' x z z' with
  | empty => exact h
  | one p => exact h
  | many p => exact h
  | boundary w => exact hP.elim
  | seq a b iha ihb =>
    obtain ⟨y, y', rfl, hy, hy'⟩ := h
    exact ⟨y, y', rfl, iha hP.1 hy, ihb hP.2 hy'⟩
  | alt a b iha ihb => exact h.imp (iha hP.1) (ihb hP.2)

/-- Whatever the pattern reads has a character of the class `p` in it. -/
def Needs (p : α → Prop) : Pattern α → Prop
  | one p' => ∀ c, p' c = true → p c
  | seq a b => Needs p a ∨ Needs p b
  | alt a b => Needs p a ∧ Needs p b
  | _ => False

theorem Consumes.exists_mem {p : α → Prop} (hP : Needs p P) (h : Consumes P prev x z) : ∃ c ∈ x, p c := by
  induction P generalizing prev x z with
  | empty => exact hP.elim
  | one p' =>
    obtain ⟨c, hc, rfl⟩ := h
    exact ⟨c, List.mem_singleton.2 rfl, hP c hc⟩
  | many p' => exact hP.elim
  | boundary w => exact hP.elim
  | seq a b iha ihb =>
    obtain ⟨y, y', rfl, hy, hy'⟩ := h
    rcases hP with ha | hb
    · obtain ⟨c, hc, hpc⟩ := iha ha hy
      exact ⟨c, List.mem_append_left y' hc, hpc⟩
    · obtain ⟨c, hc, hpc⟩ := ihb hb hy'
      exact ⟨c, List.mem_append_right y hc, hpc⟩
  | alt a b iha ihb => exact h.elim (iha hP.1) (ihb hP.2)

theorem Consumes.ne_nil {p : α → Prop} (hP : Needs p P) (h : Consumes P prev x z) : x ≠ [] := by
  obtain ⟨c, hc, -⟩ := h.exists_mem hP
  exact List.ne_nil_of_mem hc

/-- What the pattern reads is nothing, or begins with a character of the class `p`. -/
def Starts (p : α → Prop) : Pattern α → Prop
  | one p' => ∀ c, p' c = true → p c
  | many p' => ∀ c, p' c = true → p c
  | seq a b => Starts p a ∧ (Needs (fun _ => True) a ∨ Starts p b)
  | alt a b => Starts p a ∧ Starts p b
  | _ => True

theorem Consumes.start {p : α → Prop} {c : α} (hP : Starts p P) (h : Consumes P prev (c :: x) z) : p c := by
  induction P generalizing prev x z with
  | empty => cases h
  | one p' =>
    obtain ⟨d, hd, hx⟩ := h
    obtain ⟨rfl, -⟩ := List.cons.inj hx
    exact hP c hd
  | many p' => exact hP c (h c List.mem_cons_self)
  | boundary w => cases h.1
  | seq a b iha ihb =>
    obtain ⟨y, y', hx, hy, hy'⟩ := h
    cases y with
    | nil =>
      rcases hP.2 with hneeds | hb
      · exact absurd rfl (hy.ne_nil hneeds)
      · rw [List.nil_append] at hx
        subst hx
        exact ihb hb hy'
    | cons d y =>
      obtain ⟨rfl, -⟩ := List.cons.inj hx
      exact iha hP.1 hy
  | alt a b iha ihb => exact h.elim (iha hP.1) (ihb hP.2)

/-- A text that is read in front of a `q` that the pattern avoids ends before it. -/
theorem eq_append_of_not_mem {x z s y : List α} (h : x ++ z = s ++ q :: y) (hq : q ∉ x) :
    ∃ z', s = x ++ z' ∧ z = z' ++ q :: y := by
  rcases List.append_eq_append_iff.1 h with ⟨u, rfl, rfl⟩ | ⟨u, rfl, hu⟩
  · exact ⟨u, rfl, rfl⟩
  · cases u with
    | nil =>
      obtain rfl : z = q :: y := hu.symm
      exact ⟨[], by simp, rfl⟩
    | cons c u =>
      obtain rfl : q = c := (List.cons.inj hu).1
      exact absurd (List.mem_append_right s List.mem_cons_self) hq

/-- The text before the first `q`. -/
theorem append_cons_inj {x z s y : List α} (h : x ++ q :: z = s ++ q :: y) (hx : q ∉ x) (hs : q ∉ s) :
    x = s ∧ z = y := by
  obtain ⟨u, rfl, hu⟩ := eq_append_of_not_mem h hx
  cases u with
  | nil => exact ⟨(List.append_nil x).symm, (List.cons.inj hu).2⟩
  | cons c u =>
    obtain rfl : q = c := (List.cons.inj hu).1
    exact absurd (List.mem_append_right x List.mem_cons_self) hs

end Run

end Substitution
