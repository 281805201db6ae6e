import CliServer.Lib.Transition

/-!
# Copies that are kept by notices

A store tells of each of its changes in a notice, and a reader that has a copy of it reads again what the notices
concern.  The store changes on while notices are on their way and while the reader is behind with its reading.  If each
change is told of (`Store.Tells`), then what the reader has is what the store has, except for the keys that a notice on
its way concerns and those that are still to be read (`Reading.fresh_of_run`).
-/

namespace Notices

open Transition

variable {σ α κ ν ρ : Type*}

/-- A store: what an action makes of it, with the notices of it, what it has under each key, and the keys that a notice
concerns. -/
structure Store (σ α κ ν ρ : Type*) where
  apply : σ → α → σ × List ρ
  view : σ → κ → ν
  Concerns : ρ → κ → Prop

/-- What an action changes is told of, if it meets the guard. -/
def Store.Tells (store : Store σ α κ ν ρ) (G : σ → α → Prop) : Prop :=
  ∀ s a k, G s a → store.view (store.apply s a).1 k ≠ store.view s k → ∃ n ∈ (store.apply s a).2, store.Concerns n k

/-- A store and one reader: the notices that are on their way to it, the keys it has to read, and what it has read. -/
structure Reading (σ κ ν ρ : Type*) where
  store : σ
  queue : List ρ
  due : κ → Prop
  copy : κ → ν

inductive ReadingAction (α κ : Type*) where
  | change (a : α)
  /-- The reader gets a notice. -/
  | notice
  /-- The reader reads what is under a key. -/
  | read (k : κ)

namespace Reading

variable (store : Store σ α κ ν ρ)

/-- A reader that has everything to read. -/
def start (s : σ) (copy : κ → ν) : Reading σ κ ν ρ := ⟨s, [], fun _ => True, copy⟩

def step [DecidableEq κ] (r : Reading σ κ ν ρ) : ReadingAction α κ → Option (Reading σ κ ν ρ)
  | .change a => some { r with store := (store.apply r.store a).1, queue := r.queue ++ (store.apply r.store a).2 }
  | .notice =>
    match r.queue with
    | [] => none
    | n :: queue => some { r with queue := queue, due := fun k => r.due k ∨ store.Concerns n k }
  | .read k =>
    some { r with
      due := fun k' => r.due k' ∧ k' ≠ k
      copy := Function.update r.copy k (store.view r.store k) }

/-- What the reader has is what the store has, or the reader is yet to read it. -/
def Fresh (r : Reading σ κ ν ρ) : Prop :=
  ∀ k, r.copy k = store.view r.store k ∨ r.due k ∨ ∃ n ∈ r.queue, store.Concerns n k

variable {store} {G : σ → α → Prop} {r r' : Reading σ κ ν ρ}

/-- A reader that is behind with nothing has what the store has. -/
theorem Fresh.copy_eq (h : r.Fresh store) (hqueue : r.queue = []) (hdue : ∀ k, ¬r.due k) :
    r.copy = store.view r.store := by
  funext k
  rcases h k with hcopy | hdue' | ⟨n, hn, -⟩
  · exact hcopy
  · exact absurd hdue' (hdue k)
  · rw [hqueue] at hn
    cases hn

/-- The guard of the changes; a reader may do what it does at any time. -/
def Allowed (G : σ → α → Prop) (r : Reading σ κ ν ρ) : ReadingAction α κ → Prop
  | .change a => G r.store a
  | _ => True

theorem Fresh.step [DecidableEq κ] (htells : store.Tells G) {a : ReadingAction α κ} (h : r.Fresh store)
    (hG : r.Allowed G a) (hst : step store r a = some r') : r'.Fresh store := by
  cases a with
  | change a =>
    obtain rfl := Option.some.inj hst
    intro k
    by_cases hsame : store.view (store.apply r.store a).1 k = store.view r.store k
    · rcases h k with hcopy | hdue | ⟨n, hn, hk⟩
      · exact .inl (hcopy.trans hsame.symm)
      · exact .inr (.inl hdue)
      · exact .inr (.inr ⟨n, List.mem_append_left _ hn, hk⟩)
    · obtain ⟨n, hn, hk⟩ := htells r.store a k hG hsame
      exact .inr (.inr ⟨n, List.mem_append_right _ hn, hk⟩)
  | notice =>
    simp only [Reading.step] at hst
    split at hst
    · cases hst
    · next n queue hqueue =>
      obtain rfl := Option.some.inj hst
      intro k
      rcases h k with hcopy | hdue | ⟨n', hn', hk⟩
      · exact .inl hcopy
      · exact .inr (.inl (.inl hdue))
      · rw [hqueue] at hn'
        rcases List.mem_cons.1 hn' with rfl | hn'
        · exact .inr (.inl (.inr hk))
        · exact .inr (.inr ⟨n', hn', hk⟩)
  | read k =>
    obtain rfl := Option.some.inj hst
    intro k'
    by_cases hk : k' = k
    · subst hk
      exact .inl (Function.update_self ..)
    · rcases h k' with hcopy | hdue | hnotice
      · refine .inl ?_
        show Function.update r.copy k _ k' = _
        rw [Function.update_of_ne hk]
        exact hcopy
      · exact .inr (.inl ⟨hdue, hk⟩)
      · exact .inr (.inr hnotice)

/-- The first change there is. -/
theorem run_change [DecidableEq κ] {s t : σ} {a : α} {notices : List ρ} (copy : κ → ν) (hG : G s a)
    (happly : store.apply s a = (t, notices)) :
    GuardedRun (Reading.step store) (Allowed G) (start s copy)
      [⟨start s copy, .change a, ⟨t, notices, fun _ => True, copy⟩⟩] ⟨t, notices, fun _ => True, copy⟩ := by
  refine .step .start hG ?_
  simp [Reading.step, start, happly]

/-- In every run whose changes all meet the guard, the reader's copy is fresh. -/
theorem fresh_of_run [DecidableEq κ] (htells : store.Tells G) {s : σ} {copy : κ → ν}
    {ms : List (Move (Reading σ κ ν ρ) (ReadingAction α κ))}
    (h : GuardedRun (Reading.step store) (Allowed G) (start s copy) ms r) : r.Fresh store :=
  h.invariant (I := Fresh store) (fun _ => .inr (.inl trivial)) fun _ _ _ hfresh hG hst => hfresh.step htells hG hst

end Reading

end Notices
