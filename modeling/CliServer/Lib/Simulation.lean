import Mathlib

/-!
# Simulation of systems that answer

A system answers each action and goes to another state: `run : σ → α → σ × ω`.  `Simulates` relates two of them by one
step, where a guard on the state of the second holds; then, over every list of actions that meets the guard, they give
the same answers (`Simulates.answers_eq`).
-/

namespace Simulation

variable {σ τ α ω : Type*}

/-- What the actions are answered, one after the other. -/
def answers (run : σ → α → σ × ω) : σ → List α → List ω
  | _, [] => []
  | s, a :: as => (run s a).2 :: answers run (run s a).1 as

/-- Each of the actions meets the guard in the state it comes to. -/
def Guarded (run : σ → α → σ × ω) (G : σ → α → Prop) : σ → List α → Prop
  | _, [] => True
  | s, a :: as => G s a ∧ Guarded run G (run s a).1 as

/-- From related states an action that meets the guard gets the same answer and leads to related states. -/
def Simulates (run : σ → α → σ × ω) (spec : τ → α → τ × ω) (R : σ → τ → Prop) (G : τ → α → Prop) : Prop :=
  ∀ s t a, R s t → G t a → (run s a).2 = (spec t a).2 ∧ R (run s a).1 (spec t a).1

variable {run : σ → α → σ × ω} {spec : τ → α → τ × ω} {R : σ → τ → Prop} {G : τ → α → Prop} {H : σ → α → Prop}
  {s : σ} {t : τ} {as : List α}

theorem Simulates.answers_eq (h : Simulates run spec R G) (hR : R s t) (hG : Guarded spec G t as) :
    answers run s as = answers spec t as := by
  induction as generalizing s t with
  | nil => rfl
  | cons a as ih =>
    obtain ⟨hguard, hrest⟩ := hG
    obtain ⟨hanswer, hnext⟩ := h s t a hR hguard
    show (run s a).2 :: answers run (run s a).1 as = (spec t a).2 :: answers spec (spec t a).1 as
    rw [hanswer, ih hnext hrest]

/-- A guard on the states of the first system, that implies the one on those related to them. -/
theorem Simulates.guarded (h : Simulates run spec R G) (hH : ∀ s t a, R s t → H s a → G t a) (hR : R s t)
    (hguard : Guarded run H s as) : Guarded spec G t as := by
  induction as generalizing s t with
  | nil => trivial
  | cons a as ih =>
    obtain ⟨hfirst, hrest⟩ := hguard
    have hG := hH s t a hR hfirst
    exact ⟨hG, ih (h s t a hR hG).2 hrest⟩

end Simulation
