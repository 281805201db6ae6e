import Mathlib

/-!
# Words of pushes and pops

A word of steps runs over a stack: a push puts a letter on its end, a pop takes the last letter off, and takes nothing
off an empty stack.  A word that takes off no letter it has not put there itself `Keeps` what was on the stack; a word
none of whose letters is left `Clears`.  Both are said by the pushes less the pops of a part of the word (`net`): no
beginning pops more than it pushes, no ending pushes more than it pops (`run_nil_eq_nil_iff`).

A letter that is left has its push, before which a word gave the letters below it, and after which a word that keeps
gave those above it (`run_eq_append_cons_iff`).  So the first letter that is left comes after a word that clears, and
the last one before a word that keeps and clears.
-/

namespace StackWord

open scoped List

inductive Step (α : Type*) where
  | skip
  | pop
  | push (a : α)

variable {α : Type*} {a : α} {stack p q : List α} {w u v : List (Step α)} {n : Nat}

def Step.map {β : Type*} (f : α → β) : Step α → Step β
  | skip => .skip
  | pop => .pop
  | push a => .push (f a)

def Step.apply (stack : List α) : Step α → List α
  | skip => stack
  | pop => stack.dropLast
  | push a => stack ++ [a]

/-- What a step adds to the height of the stack. -/
def Step.height : Step α → Int
  | skip => 0
  | pop => -1
  | push _ => 1

/-- The stack after a word. -/
def run (stack : List α) (w : List (Step α)) : List α := w.foldl Step.apply stack

/-- The pushes of a word less its pops. -/
def net (w : List (Step α)) : Int := (w.map Step.height).sum

/-- No beginning of the word pops more than it pushes. -/
def Keeps (w : List (Step α)) : Prop := ∀ u, u <+: w → 0 ≤ net u

/-- No ending of the word pushes more than it pops. -/
def Clears (w : List (Step α)) : Prop := ∀ v, v <:+ w → net v ≤ 0

@[simp] theorem run_nil (stack : List α) : run stack [] = stack := rfl

@[simp] theorem run_append (stack : List α) (u v : List (Step α)) : run stack (u ++ v) = run (run stack u) v :=
  List.foldl_append

@[simp] theorem run_cons (stack : List α) (s : Step α) (w : List (Step α)) :
    run stack (s :: w) = run (s.apply stack) w := rfl

@[simp] theorem net_nil : net ([] : List (Step α)) = 0 := rfl

@[simp] theorem net_append (u v : List (Step α)) : net (u ++ v) = net u + net v := by simp [net]

@[simp] theorem net_singleton (s : Step α) : net [s] = s.height := by simp [net]

/-- The letters are only put on the stack and taken off it. -/
theorem run_map {β : Type*} (f : α → β) (stack : List α) (w : List (Step α)) :
    run (stack.map f) (w.map (Step.map f)) = (run stack w).map f := by
  induction w generalizing stack with
  | nil => rfl
  | cons s w ih =>
    have hstep : (s.map f).apply (stack.map f) = (s.apply stack).map f := by
      cases s with
      | skip => rfl
      | pop => exact List.map_dropLast.symm
      | push a => simp [Step.map, Step.apply]
    rw [List.map_cons, run_cons, hstep, ih, run_cons]

/-! ### Words that keep the stack -/

private theorem keeps_nil : Keeps ([] : List (Step α)) := by
  intro u hu
  rw [List.prefix_nil.1 hu]
  exact le_refl 0

private theorem keeps_concat {s : Step α} : Keeps (w ++ [s]) ↔ Keeps w ∧ 0 ≤ net (w ++ [s]) := by
  constructor
  · exact fun h => ⟨fun u hu => h u (hu.trans (List.prefix_append w [s])), h _ (List.prefix_refl _)⟩
  · rintro ⟨hw, hnet⟩ u hu
    rcases List.prefix_concat_iff.1 hu with rfl | hu
    · exact hnet
    · exact hw u hu

/-- A word without pops keeps the stack. -/
theorem keeps_of_forall_ne_pop (h : ∀ s ∈ w, s ≠ .pop) : Keeps w := by
  rintro u ⟨v, rfl⟩
  induction u with
  | nil => exact le_refl 0
  | cons s u ih =>
    have hs : 0 ≤ s.height := by
      cases s with
      | skip => exact le_refl 0
      | pop => exact absurd rfl (h .pop List.mem_cons_self)
      | push a => exact zero_le_one
    have hrest := ih fun t ht => h t (List.mem_cons_of_mem s ht)
    rw [← List.singleton_append, net_append, net_singleton]
    exact add_nonneg hs hrest

/-- A word that keeps the stack leaves on an empty one as many letters as it pushes more than it pops. -/
private theorem Keeps.net_eq (h : Keeps w) : net w = (run [] w).length := by
  induction w using List.reverseRecOn with
  | nil => rfl
  | append_singleton w s ih =>
    obtain ⟨hw, hnet⟩ := keeps_concat.1 h
    rw [net_append, net_singleton, ih hw] at hnet ⊢
    cases s with
    | skip => simp [Step.apply, Step.height]
    | pop =>
      simp only [Step.height] at hnet ⊢
      simp only [run_append, run_cons, run_nil, Step.apply, List.length_dropLast]
      omega
    | push a => simp [Step.apply, Step.height]

private theorem Keeps.run_eq (h : Keeps w) (stack : List α) : run stack w = stack ++ run [] w := by
  induction w using List.reverseRecOn with
  | nil => exact (List.append_nil stack).symm
  | append_singleton w s ih =>
    obtain ⟨hw, hnet⟩ := keeps_concat.1 h
    rw [run_append, run_append, ih hw, run_cons, run_nil, run_cons, run_nil]
    cases s with
    | skip => rfl
    | pop =>
      -- there is a letter of the word to take off
      rw [net_append, net_singleton, hw.net_eq, Step.height] at hnet
      have hne : run [] w ≠ [] := by
        intro hnil
        rw [hnil, List.length_nil] at hnet
        omega
      exact List.dropLast_append_of_ne_nil hne
    | push a => exact List.append_assoc stack (run [] w) [a]

/-! ### Words none of whose letters is left -/

private theorem forall_suffix_concat {P : List (Step α) → Prop} {s : Step α} :
    (∀ v, v <:+ w ++ [s] → P v) ↔ P [] ∧ ∀ v, v <:+ w → P (v ++ [s]) := by
  constructor
  · intro h
    refine ⟨h [] List.nil_suffix, fun v hv => h _ ?_⟩
    obtain ⟨u, rfl⟩ := hv
    exact ⟨u, List.append_assoc u v [s] |>.symm⟩
  · rintro ⟨hnil, h⟩ v hv
    rcases List.suffix_concat_iff.1 hv with rfl | ⟨t, rfl, ht⟩
    · exact hnil
    · exact h t ht

/-- The stack is as high as the most that an ending of the word pushes more than it pops. -/
private theorem length_run_le_iff : (run [] w).length ≤ n ↔ ∀ v, v <:+ w → net v ≤ n := by
  induction w using List.reverseRecOn generalizing n with
  | nil => simp
  | append_singleton w s ih =>
    rw [forall_suffix_concat]
    simp only [run_append, run_cons, run_nil, net_nil, net_append, net_singleton]
    cases s with
    | skip => simp [Step.apply, Step.height, ih]
    | pop =>
      have hpred : (run [] w).dropLast.length ≤ n ↔ (run [] w).length ≤ n + 1 := by
        rw [List.length_dropLast]
        omega
      rw [Step.apply, hpred, ih]
      simp [Step.height]
    | push a =>
      rw [Step.apply, List.length_append, List.length_singleton]
      constructor
      · intro h
        refine ⟨Int.natCast_nonneg n, fun v hv => ?_⟩
        have hv := (ih (n := n - 1)).1 (by omega) v hv
        simp only [Step.height]
        omega
      · rintro ⟨-, h⟩
        have hpos : 1 ≤ n := by
          have hempty := h [] List.nil_suffix
          simp only [net_nil, Step.height] at hempty
          omega
        have hle := (ih (n := n - 1)).2 fun v hv => by
          have hv := h v hv
          simp only [Step.height] at hv
          omega
        omega

/-- No letter is left exactly when the word clears. -/
private theorem run_nil_eq_nil_iff : run [] w = [] ↔ Clears w := by
  rw [← List.length_eq_zero_iff, ← Nat.le_zero, length_run_le_iff]
  rfl

/-! ### The letters that are left -/

/-- A letter that is left has its push. -/
theorem run_eq_append_cons_iff :
    run [] w = p ++ a :: q ↔ ∃ u v, w = u ++ .push a :: v ∧ run [] u = p ∧ Keeps v ∧ run [] v = q := by
  constructor
  · induction w using List.reverseRecOn generalizing q with
    | nil => simp
    | append_singleton w s ih =>
      rw [run_append, run_cons, run_nil]
      cases s with
      | skip =>
        intro h
        obtain ⟨u, v, rfl, hu, hv, hq⟩ := ih h
        refine ⟨u, v ++ [.skip], by simp, hu, keeps_concat.2 ⟨hv, ?_⟩, by simp [Step.apply, hq]⟩
        simp [Step.height, hv v (List.prefix_refl v)]
      | pop =>
        intro h
        -- the letter that the pop takes off stands above the one we follow
        have hne : run [] w ≠ [] := by
          intro hnil
          simp [Step.apply, hnil] at h
        have hfull : run [] w = p ++ a :: (q ++ [(run [] w).getLast hne]) := by
          rw [← List.cons_append, ← List.append_assoc, ← h]
          exact (List.dropLast_append_getLast hne).symm
        obtain ⟨u, v, rfl, hu, hv, hq⟩ := ih hfull
        refine ⟨u, v ++ [.pop], by simp, hu, keeps_concat.2 ⟨hv, ?_⟩, by simp [Step.apply, hq]⟩
        rw [net_append, net_singleton, hv.net_eq, hq, List.length_append, List.length_singleton, Step.height]
        omega
      | push b =>
        intro h
        rcases List.eq_nil_or_concat' q with rfl | ⟨q, c, rfl⟩
        · obtain ⟨hp, hb⟩ := List.append_inj' h rfl
          exact ⟨w, [], by rw [List.singleton_inj.1 hb], hp, keeps_nil, rfl⟩
        · have hsplit : run [] w ++ [b] = (p ++ a :: q) ++ [c] := by simpa [Step.apply] using h
          obtain ⟨hw, hb⟩ := List.append_inj' hsplit rfl
          obtain ⟨u, v, rfl, hu, hv, hq⟩ := ih hw
          refine ⟨u, v ++ [.push b], by simp, hu, keeps_concat.2 ⟨hv, ?_⟩, ?_⟩
          · have hnet := hv v (List.prefix_refl v)
            rw [net_append, net_singleton, Step.height]
            omega
          · rw [run_append, hq, List.singleton_inj.1 hb]
            rfl
  · rintro ⟨u, v, rfl, rfl, hv, rfl⟩
    rw [run_append, run_cons, hv.run_eq, Step.apply, List.append_assoc]
    rfl

theorem head?_run_eq_some_iff :
    (run [] w).head? = some a ↔ ∃ u v, w = u ++ .push a :: v ∧ Clears u ∧ Keeps v := by
  constructor
  · intro h
    obtain ⟨q, hq⟩ := List.head?_eq_some_iff.1 h
    obtain ⟨u, v, hw, hu, hv, -⟩ := (run_eq_append_cons_iff (p := [])).1 hq
    exact ⟨u, v, hw, run_nil_eq_nil_iff.1 hu, hv⟩
  · rintro ⟨u, v, hw, hu, hv⟩
    rw [run_eq_append_cons_iff.2 ⟨u, v, hw, run_nil_eq_nil_iff.2 hu, hv, rfl⟩]
    rfl

theorem getLast?_run_eq_some_iff :
    (run [] w).getLast? = some a ↔ ∃ u v, w = u ++ .push a :: v ∧ Keeps v ∧ Clears v := by
  constructor
  · intro h
    obtain ⟨p, hp⟩ := List.getLast?_eq_some_iff.1 h
    obtain ⟨u, v, hw, -, hv, hq⟩ := run_eq_append_cons_iff.1 hp
    exact ⟨u, v, hw, hv, run_nil_eq_nil_iff.1 hq⟩
  · rintro ⟨u, v, hw, hv, hclears⟩
    rw [run_eq_append_cons_iff.2 ⟨u, v, hw, rfl, hv, run_nil_eq_nil_iff.2 hclears⟩]
    simp

/-- Where each item pushes itself, if anything, the letters that are left stand among the items in this order. -/
theorem run_map_sublist {f : α → Step α} (hf : ∀ a b, f a = .push b → b = a) (l : List α) : run [] (l.map f) <+ l := by
  induction l using List.reverseRecOn with
  | nil => exact List.Sublist.refl []
  | append_singleton l a ih =>
    rw [List.map_append, run_append]
    change (f a).apply (run [] (l.map f)) <+ l ++ [a]
    cases hstep : f a with
    | skip => exact ih.trans (List.sublist_append_left l [a])
    | pop => exact (List.dropLast_sublist _).trans (ih.trans (List.sublist_append_left l [a]))
    | push b =>
      rw [hf a b hstep]
      exact ih.append (List.Sublist.refl [a])

end StackWord
