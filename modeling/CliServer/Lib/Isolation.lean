import CliServer.Lib.Process

/-!
# Processes that do not meet

Some of the processes of a pool are mine.  When mine see only a part of the store (`Sees`) and the others leave that
part as it is (`Spares`), a run of the whole pool projects to a run of mine alone, from any store with the same part:
each of my processes has made the same calls, with the same answers (`Run.project`).
-/

namespace Process

open Transition

variable {C : Type} {A : C → Type} {ε α σ τ ι : Type} {answer : σ → (c : C) → A c × σ} {part : σ → τ}

/-- The answer of a call, and the part it leaves, depend on the part of the store only. -/
def LocalCall (answer : σ → (c : C) → A c × σ) (part : σ → τ) (c : C) : Prop :=
  ∀ s t, part s = part t → (answer s c).1 = (answer t c).1 ∧ part (answer s c).2 = part (answer t c).2

/-- A call that leaves the part as it is. -/
def SparingCall (answer : σ → (c : C) → A c × σ) (part : σ → τ) (c : C) : Prop :=
  ∀ s, part (answer s c).2 = part s

/-- Whatever is in the store, the process makes only local calls. -/
def Sees (answer : σ → (c : C) → A c × σ) (part : σ → τ) : Process C A ε α → Prop
  | .done _ => True
  | .await c k => LocalCall answer part c ∧ ∀ s, (k (answer s c).1).Sees answer part

/-- Whatever is in the store, the process makes only sparing calls. -/
def Spares (answer : σ → (c : C) → A c × σ) (part : σ → τ) : Process C A ε α → Prop
  | .done _ => True
  | .await c k => SparingCall answer part c ∧ ∀ s, (k (answer s c).1).Spares answer part

variable {R : σ → Prop} {P : Trace C A → C → Prop} {E : Trace C A → Except ε α → Prop} {tr : Trace C A}
  {m : Process C A ε α}

/-- What the calls of a process satisfy makes them local. -/
theorem Satisfies.sees (h : Satisfies answer R P E tr m) (hR : ∀ s, R s)
    (hcall : ∀ tr c, P tr c → LocalCall answer part c) : Sees answer part m := by
  induction m generalizing tr with
  | done result => trivial
  | await c k ih => exact ⟨hcall tr c h.1, fun s => ih _ (h.2 s (hR s)).2⟩

theorem Satisfies.spares (h : Satisfies answer R P E tr m) (hR : ∀ s, R s)
    (hcall : ∀ tr c, P tr c → SparingCall answer part c) : Spares answer part m := by
  induction m generalizing tr with
  | done result => trivial
  | await c k ih => exact ⟨hcall tr c h.1, fun s => ih _ (h.2 s (hR s)).2⟩

/-! ### One element of a list -/

section Filter

variable {β : Type} {q : β → Bool} {l : List β} {i : Nat} {a b : β}

private theorem split_at (hi : l[i]? = some a) (b : β) :
    ∃ before after, l = before ++ a :: after ∧ l.set i b = before ++ b :: after := by
  obtain ⟨hlt, rfl⟩ := List.getElem?_eq_some_iff.1 hi
  refine ⟨l.take i, l.drop (i + 1), by simp, ?_⟩
  rw [List.set_eq_take_append_cons_drop, if_pos hlt]

/-- An element that stays has its place among those that stay. -/
private theorem filter_set_of_pos (hi : l[i]? = some a) (ha : q a = true) (hb : q b = true) :
    ∃ j : Nat, (l.filter q)[j]? = some a ∧ (l.set i b).filter q = (l.filter q).set j b := by
  obtain ⟨before, after, rfl, hset⟩ := split_at hi b
  refine ⟨(before.filter q).length, ?_, ?_⟩
  · rw [List.filter_append, List.filter_cons_of_pos ha]
    simp
  · rw [hset, List.filter_append, List.filter_cons_of_pos hb, List.filter_append, List.filter_cons_of_pos ha]
    simp

/-- An element that goes is not missed. -/
private theorem filter_set_of_neg (hi : l[i]? = some a) (ha : q a = false) (hb : q b = false) :
    (l.set i b).filter q = l.filter q := by
  obtain ⟨before, after, rfl, hset⟩ := split_at hi b
  rw [hset, List.filter_append, List.filter_append, List.filter_cons_of_neg (by simp [hb]),
    List.filter_cons_of_neg (by simp [ha])]

end Filter

/-! ### Pools -/

variable {program : ι → Process C A ε α} {mine : ι → Bool} {s s' t : Pool σ ι C A ε α}

/-- `t` is what there is of mine in `s`. -/
structure Projected (answer : σ → (c : C) → A c × σ) (part : σ → τ) (mine : ι → Bool) (s t : Pool σ ι C A ε α) :
    Prop where
  store : part s.store = part t.store
  processes : t.processes = s.processes.filter fun p => mine p.op
  sees : ∀ p ∈ s.processes, mine p.op = true → Sees answer part p.code
  spares : ∀ p ∈ s.processes, mine p.op = false → Spares answer part p.code

/-- A step of the whole pool is a step of mine, or one they do not see. -/
theorem Projected.step {a : PoolAction ι} (h : Projected answer part mine s t)
    (hst : poolStep answer program s a = some s') (hmine : ∀ op, mine op = true → Sees answer part (program op))
    (hothers : ∀ op, mine op = false → Spares answer part (program op)) :
    Projected answer part mine s' t ∨ ∃ b t', poolStep answer program t b = some t' ∧
      Projected answer part mine s' t' := by
  cases a with
  | start op =>
    obtain rfl := Option.some.inj hst
    have hsees : ∀ p ∈ s.processes ++ [⟨op, [], program op⟩], mine p.op = true → Sees answer part p.code := by
      intro p hp hop
      rcases List.mem_append.1 hp with hp | hp
      · exact h.sees p hp hop
      · obtain rfl := List.mem_singleton.1 hp
        exact hmine op hop
    have hspares : ∀ p ∈ s.processes ++ [⟨op, [], program op⟩], mine p.op = false → Spares answer part p.code := by
      intro p hp hop
      rcases List.mem_append.1 hp with hp | hp
      · exact h.spares p hp hop
      · obtain rfl := List.mem_singleton.1 hp
        exact hothers op hop
    cases hop : mine op with
    | true =>
      refine .inr ⟨.start op, _, rfl, h.store, ?_, hsees, hspares⟩
      simp [h.processes, hop]
    | false =>
      refine .inl ⟨h.store, ?_, hsees, hspares⟩
      simp [h.processes, hop]
  | answer i =>
    obtain ⟨op, tr, c, k, hi, hstore, hprocesses⟩ := poolStep_answer hst
    have hmem := List.mem_of_getElem? hi
    have hsees : ∀ p ∈ s'.processes, mine p.op = true → Sees answer part p.code := by
      intro p hp hop
      rw [hprocesses] at hp
      rcases List.mem_or_eq_of_mem_set hp with hp | rfl
      · exact h.sees p hp hop
      · exact (h.sees _ hmem hop).2 s.store
    have hspares : ∀ p ∈ s'.processes, mine p.op = false → Spares answer part p.code := by
      intro p hp hop
      rw [hprocesses] at hp
      rcases List.mem_or_eq_of_mem_set hp with hp | rfl
      · exact h.spares p hp hop
      · exact (h.spares _ hmem hop).2 s.store
    cases hop : mine op with
    | true =>
      obtain ⟨hanswer, hpart⟩ := (h.sees _ hmem hop).1 s.store t.store h.store
      obtain ⟨j, hj, hfilter⟩ := filter_set_of_pos (q := fun p : Running ι C A ε α => mine p.op)
        (b := ⟨op, tr ++ [⟨c, (answer s.store c).1⟩], k (answer s.store c).1⟩) hi hop hop
      rw [← h.processes] at hj hfilter
      refine .inr ⟨.answer j, ⟨(answer t.store c).2, t.processes.set j ⟨op, tr ++ [⟨c, (answer t.store c).1⟩],
        k (answer t.store c).1⟩⟩, ?_, ?_, ?_, hsees, hspares⟩
      · simp only [poolStep, hj]
      · rw [hstore]
        exact hpart
      · rw [hprocesses, hfilter, hanswer]
    | false =>
      refine .inl ⟨?_, ?_, hsees, hspares⟩
      · rw [hstore, (h.spares _ hmem hop).1 s.store]
        exact h.store
      · rw [hprocesses, filter_set_of_neg hi hop hop]
        exact h.processes

end Process

/-- What a run of the pool is for mine, it is without the others. -/
theorem Transition.GuardedRun.projected {σ τ ι C ε α : Type} {A : C → Type} {answer : σ → (c : C) → A c × σ}
    {part : σ → τ} {program : ι → Process C A ε α} {mine : ι → Bool} {store store' : σ}
    {s : Process.Pool σ ι C A ε α} {ms : List (Transition.Move (Process.Pool σ ι C A ε α) (Process.PoolAction ι))}
    (h : Transition.Run (Process.poolStep answer program) ⟨store, []⟩ ms s) (hstore : part store = part store')
    (hmine : ∀ op, mine op = true → Process.Sees answer part (program op))
    (hothers : ∀ op, mine op = false → Process.Spares answer part (program op)) :
    ∃ alone t, Transition.Run (Process.poolStep answer program) ⟨store', []⟩ alone t ∧
      Process.Projected answer part mine s t := by
  induction h with
  | start =>
    have hnone : ∀ p : Process.Running ι C A ε α, p ∉ ([] : List _) := fun _ => List.not_mem_nil
    exact ⟨[], _, .start, hstore, rfl, fun p hp => absurd hp (hnone p), fun p hp => absurd hp (hnone p)⟩
  | step _ _ hst ih =>
    obtain ⟨alone, t, hrun, hprojected⟩ := ih
    rcases hprojected.step hst hmine hothers with hsame | ⟨b, t', hst', hprojected'⟩
    · exact ⟨alone, t, hrun, hsame⟩
    · exact ⟨_, t', .step hrun trivial hst', hprojected'⟩
