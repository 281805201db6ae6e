import Mathlib

/-!
# Runs of a step function

A system is given by its step function `step : σ → α → Option σ` (`none`: the action is not enabled).  `Run` is the
set of its runs from a state, each with the transitions it took, oldest first; `GuardedRun` keeps only the runs all of
whose steps meet a guard.  The rules are the usual ones: an invariant is proved from one step (`Run.invariant`,
`GuardedRun.invariant`), a fact about every transition of a run from one step (`Run.forall_mem`), and an invariant that
relates the transitions taken so far to the state from one step (`Run.history`).

`Component` runs one copy of a system for every index; its steps move one copy at a time, so a run of the whole
projects to a run of each copy (`Component.project`).
-/

namespace Transition

variable {σ α ι : Type*}

/-- One step taken: the state before, the action, the state after. -/
structure Move (σ α : Type*) where
  pre : σ
  act : α
  post : σ

/-- The runs from `s₀` whose steps all meet the guard `G`, with the moves they made, oldest first. -/
inductive GuardedRun (step : σ → α → Option σ) (G : σ → α → Prop) (s₀ : σ) : List (Move σ α) → σ → Prop
  | start : GuardedRun step G s₀ [] s₀
  | step {ms : List (Move σ α)} {s t : σ} {a : α} : GuardedRun step G s₀ ms s → G s a → step s a = some t →
      GuardedRun step G s₀ (ms ++ [⟨s, a, t⟩]) t

/-- The runs from `s₀`, without a guard. -/
abbrev Run (step : σ → α → Option σ) (s₀ : σ) : List (Move σ α) → σ → Prop :=
  GuardedRun step (fun _ _ => True) s₀

variable {step : σ → α → Option σ} {G : σ → α → Prop} {s₀ s t : σ} {ms : List (Move σ α)}

/-- Dropping the guard. -/
theorem GuardedRun.run (h : GuardedRun step G s₀ ms s) : Run step s₀ ms s := by
  induction h with
  | start => exact .start
  | step _ _ hst ih => exact .step ih trivial hst

/-- What every step that meets the guard preserves holds in every state of a guarded run. -/
theorem GuardedRun.invariant {I : σ → Prop} (h : GuardedRun step G s₀ ms s) (h₀ : I s₀)
    (hI : ∀ s a t, I s → G s a → step s a = some t → I t) : I s := by
  induction h with
  | start => exact h₀
  | step _ hg hst ih => exact hI _ _ _ ih hg hst

/-- An invariant about the moves so far and the state they led to. -/
theorem GuardedRun.history {I : List (Move σ α) → σ → Prop} (h : GuardedRun step G s₀ ms s) (h₀ : I [] s₀)
    (hI : ∀ ms s a t, I ms s → G s a → step s a = some t → I (ms ++ [⟨s, a, t⟩]) t) : I ms s := by
  induction h with
  | start => exact h₀
  | step _ hg hst ih => exact hI _ _ _ _ ih hg hst

/-- With an invariant `I`, a fact about single steps holds of every move of a guarded run. -/
theorem GuardedRun.forall_mem {I : σ → Prop} {P : σ → α → σ → Prop} (h : GuardedRun step G s₀ ms s) (h₀ : I s₀)
    (hI : ∀ s a t, I s → G s a → step s a = some t → I t)
    (hP : ∀ s a t, I s → G s a → step s a = some t → P s a t) : ∀ m ∈ ms, P m.pre m.act m.post := by
  induction h with
  | start => intro m hm; cases hm
  | step hr hg hst ih =>
    intro m hm
    rcases List.mem_append.1 hm with hm | hm
    · exact ih m hm
    · obtain rfl := List.mem_singleton.1 hm
      exact hP _ _ _ (hr.invariant h₀ hI) hg hst

/-- A move of a guarded run is a step that meets the guard, from a state with the invariant `I`. -/
theorem GuardedRun.of_mem {I : σ → Prop} (h : GuardedRun step G s₀ ms s) (h₀ : I s₀)
    (hI : ∀ s a t, I s → G s a → step s a = some t → I t) {m : Move σ α} (hm : m ∈ ms) :
    I m.pre ∧ G m.pre m.act ∧ step m.pre m.act = some m.post := by
  have hall : ∀ s a t, I s → G s a → step s a = some t → I s ∧ G s a ∧ step s a = some t :=
    fun _ _ _ hs hg hst => ⟨hs, hg, hst⟩
  exact h.forall_mem h₀ hI hall m hm

/-- What holds at the end of a run held at the start or came with one of its moves. -/
theorem GuardedRun.came_with {P : σ → Prop} {Q : Move σ α → Prop} (h : GuardedRun step G s₀ ms s)
    (hP : ∀ m ∈ ms, P m.post → P m.pre ∨ Q m) (hs : P s) : P s₀ ∨ ∃ m ∈ ms, Q m := by
  induction h with
  | start => exact .inl hs
  | @step ms s t a _ _ _ ih =>
    have hlast : (⟨s, a, t⟩ : Move σ α) ∈ ms ++ [⟨s, a, t⟩] := List.mem_append_right _ (List.mem_singleton.2 rfl)
    rcases hP _ hlast hs with hpre | hq
    · rcases ih (fun m hm => hP m (List.mem_append_left _ hm)) hpre with h₀ | ⟨m, hm, hq⟩
      · exact .inl h₀
      · exact .inr ⟨m, List.mem_append_left _ hm, hq⟩
    · exact .inr ⟨_, hlast, hq⟩

/-- A run continued by a run. -/
theorem GuardedRun.append {u : σ} {ms' : List (Move σ α)} (h : GuardedRun step G s₀ ms s)
    (h' : GuardedRun step G s ms' u) : GuardedRun step G s₀ (ms ++ ms') u := by
  induction h' with
  | start => rw [List.append_nil]; exact h
  | step _ hg hst ih => rw [← List.append_assoc]; exact .step ih hg hst

/-- The last step of a run. -/
theorem GuardedRun.last {m : Move σ α} (h : GuardedRun step G s₀ (ms ++ [m]) s) :
    GuardedRun step G s₀ ms m.pre ∧ G m.pre m.act ∧ step m.pre m.act = some m.post ∧ m.post = s := by
  generalize hms : ms ++ [m] = ms' at h
  cases h with
  | start => simp at hms
  | step hr hg hst =>
    obtain ⟨hinit, hlast⟩ := List.append_inj' hms rfl
    obtain rfl := List.singleton_inj.1 hlast
    exact ⟨hinit.symm ▸ hr, hg, hst, rfl⟩

/-- A run is a run up to any of its states, and a run from there. -/
theorem GuardedRun.split {before after : List (Move σ α)} (h : GuardedRun step G s₀ (before ++ after) s) :
    ∃ u, GuardedRun step G s₀ before u ∧ GuardedRun step G u after s := by
  induction after using List.reverseRecOn generalizing s with
  | nil =>
    rw [List.append_nil] at h
    exact ⟨s, h, .start⟩
  | append_singleton after m ih =>
    rw [← List.append_assoc] at h
    obtain ⟨hr, hg, hst, rfl⟩ := h.last
    obtain ⟨u, hbefore, hafter⟩ := ih hr
    exact ⟨u, hbefore, .step hafter hg hst⟩

/-- A run up to one of its moves, that move, and the run from there. -/
theorem GuardedRun.at_move {before after : List (Move σ α)} {m : Move σ α}
    (h : GuardedRun step G s₀ (before ++ m :: after) s) :
    GuardedRun step G s₀ before m.pre ∧ G m.pre m.act ∧ step m.pre m.act = some m.post ∧
      GuardedRun step G m.post after s := by
  rw [List.append_cons] at h
  obtain ⟨u, hbefore, hafter⟩ := h.split
  obtain ⟨hr, hg, hst, rfl⟩ := hbefore.last
  exact ⟨hr, hg, hst, hafter⟩

/-- The moves and the state a list of actions leads to, if all of them are enabled. -/
def exec (step : σ → α → Option σ) : σ → List α → Option (List (Move σ α) × σ)
  | s, [] => some ([], s)
  | s, a :: as => (step s a).bind fun t => (exec step t as).map fun r => (⟨s, a, t⟩ :: r.1, r.2)

/-- What `exec` computes is a run. -/
theorem run_of_exec {as : List α} (h : exec step s as = some (ms, t)) : Run step s ms t := by
  induction as generalizing s ms with
  | nil =>
    obtain ⟨rfl, rfl⟩ := Prod.mk.inj (Option.some.inj h)
    exact .start
  | cons a as ih =>
    obtain ⟨u, hu, hr⟩ := Option.bind_eq_some_iff.1 h
    obtain ⟨⟨ms', t'⟩, hms', heq⟩ := Option.map_eq_some_iff.1 hr
    obtain ⟨rfl, rfl⟩ := Prod.mk.inj heq
    have hone : Run step s [⟨s, a, u⟩] u := GuardedRun.step GuardedRun.start trivial hu
    exact hone.append (ih hms')

/-- Its moves are by these actions. -/
theorem map_act_of_exec {as : List α} (h : exec step s as = some (ms, t)) : ms.map Move.act = as := by
  induction as generalizing s ms with
  | nil =>
    obtain ⟨rfl, rfl⟩ := Prod.mk.inj (Option.some.inj h)
    rfl
  | cons a as ih =>
    obtain ⟨u, hu, hr⟩ := Option.bind_eq_some_iff.1 h
    obtain ⟨⟨ms', t'⟩, hms', heq⟩ := Option.map_eq_some_iff.1 hr
    obtain ⟨rfl, rfl⟩ := Prod.mk.inj heq
    rw [List.map_cons, ih hms']

theorem act_mem_of_exec {as : List α} (h : exec step s as = some (ms, t)) : ∀ m ∈ ms, m.act ∈ as := by
  intro m hm
  rw [← map_act_of_exec h]
  exact List.mem_map_of_mem hm

/-- The moves before and after the one by an action of the list. -/
theorem split_of_exec {as bs : List α} {a : α} (h : exec step s (as ++ a :: bs) = some (ms, t)) :
    ∃ before m after, ms = before ++ m :: after ∧ before.map Move.act = as ∧ m.act = a ∧ after.map Move.act = bs := by
  obtain ⟨before, rest, rfl, hbefore, hrest⟩ := List.map_eq_append_iff.1 (map_act_of_exec h)
  obtain ⟨m, after, rfl, hm, hafter⟩ := List.map_eq_cons_iff.1 hrest
  exact ⟨before, m, after, rfl, hbefore, hm, hafter⟩

/-- A run whose moves all meet a guard is a guarded run. -/
theorem GuardedRun.restrict {H : σ → α → Prop} (h : GuardedRun step G s₀ ms s) (hH : ∀ m ∈ ms, H m.pre m.act) :
    GuardedRun step H s₀ ms s := by
  induction h with
  | start => exact .start
  | step _ _ hst ih =>
    refine .step (ih fun m hm => hH m (List.mem_append_left _ hm)) ?_ hst
    exact hH _ (List.mem_append_right _ (List.mem_singleton.2 rfl))

/-! ### One copy of a system for every index -/

namespace Component

variable [DecidableEq ι]

/-- The step of the family: action `(i, a)` moves copy `i` by `a` and no other. -/
def stepAt (step : ι → σ → α → Option σ) (f : ι → σ) (a : ι × α) : Option (ι → σ) :=
  (step a.1 (f a.1) a.2).map (Function.update f a.1)

private theorem stepAt_eq_some {step : ι → σ → α → Option σ} {f g : ι → σ} {i : ι} {a : α}
    (h : stepAt step f (i, a) = some g) :
    step i (f i) a = some (g i) ∧ ∀ j, j ≠ i → g j = f j := by
  obtain ⟨t, ht, rfl⟩ := Option.map_eq_some_iff.1 h
  refine ⟨?_, fun j hj => Function.update_of_ne hj _ _⟩
  rw [Function.update_self]
  exact ht

/-- The moves of copy `i` among the moves of the family. -/
def movesAt (i : ι) (ms : List (Move (ι → σ) (ι × α))) : List (Move σ α) :=
  ms.filterMap fun m => if m.act.1 = i then some ⟨m.pre i, m.act.2, m.post i⟩ else none

private theorem movesAt_append (i : ι) (ms ms' : List (Move (ι → σ) (ι × α))) :
    movesAt i (ms ++ ms') = movesAt i ms ++ movesAt i ms' := List.filterMap_append

/-- A run of the family is, seen at one index, a run of that copy; so is a guarded one. -/
theorem project {step : ι → σ → α → Option σ} {G : ι → σ → α → Prop} {f g : ι → σ}
    {ms : List (Move (ι → σ) (ι × α))}
    (h : GuardedRun (stepAt step) (fun f a => G a.1 (f a.1) a.2) f ms g) (i : ι) :
    GuardedRun (step i) (G i) (f i) (movesAt i ms) (g i) := by
  induction h with
  | start => exact .start
  | @step ms s t a _ hg hst ih =>
    obtain ⟨j, b⟩ := a
    obtain ⟨hj, hne⟩ := stepAt_eq_some hst
    rw [movesAt_append]
    by_cases hij : j = i
    · subst hij
      have hone : movesAt j [⟨s, (j, b), t⟩] = [⟨s j, b, t j⟩] := by simp [movesAt]
      rw [hone]
      exact .step ih hg hj
    · have hnone : movesAt i [⟨s, (j, b), t⟩] = [] := by simp [movesAt, hij]
      rw [hnone, List.append_nil, hne i fun h => hij h.symm]
      exact ih

theorem project_run {step : ι → σ → α → Option σ} {f g : ι → σ} {ms : List (Move (ι → σ) (ι × α))}
    (h : Run (stepAt step) f ms g) (i : ι) : Run (step i) (f i) (movesAt i ms) (g i) :=
  project (G := fun _ _ _ => True) h i

end Component

end Transition
