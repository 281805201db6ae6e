import CliServer.Lib.Transition

/-!
# Processes that share a store

`Process` is a program that awaits calls of a store and ends with a result or an error.  Each call is atomic, and
between two calls the program may be suspended for any time: `poolStep` runs any number of processes on one store, one
call at a time.  `alone` runs one of them by itself.

`Satisfies` is a logic for one process.  It speaks of the calls the process has made so far with their answers; it has
a rule for each way to build a process (`Satisfies.bind`, `Satisfies.of_only`), and what it says holds in every run of
the pool (`GuardedRun.satisfies`), as long as the calls of the others keep what it relies on.
-/

/-- A program that awaits calls `c : C`, each with an answer in `A c`. -/
inductive Process (C : Type) (A : C → Type) (ε α : Type) where
  | done (result : Except ε α)
  | await (c : C) (k : A c → Process C A ε α)

namespace Process

open Transition

variable {C : Type} {A : C → Type} {ε α β σ ι : Type}

def bind : Process C A ε α → (α → Process C A ε β) → Process C A ε β
  | .done (.ok a), f => f a
  | .done (.error e), _ => .done (.error e)
  | .await c k, f => .await c fun a => (k a).bind f

instance : Monad (Process C A ε) where
  pure a := .done (.ok a)
  bind := bind

def raise (e : ε) : Process C A ε α := .done (.error e)

/-- Awaiting one call. -/
def call (c : C) : Process C A ε (A c) := .await c fun a => .done (.ok a)

@[simp] theorem done_bind (a : α) (f : α → Process C A ε β) : (Process.done (.ok a) >>= f) = f a := rfl

@[simp] theorem pure_eq (a : α) : (pure a : Process C A ε α) = .done (.ok a) := rfl

@[simp] theorem raise_bind (e : ε) (f : α → Process C A ε β) : ((raise e : Process C A ε α) >>= f) = raise e := rfl

@[simp] theorem await_bind (c : C) (k : A c → Process C A ε α) (f : α → Process C A ε β) :
    (Process.await c k >>= f) = .await c fun a => k a >>= f := rfl

@[simp] theorem call_bind (c : C) (f : A c → Process C A ε β) : (call c >>= f) = .await c f := rfl

/-! ### Alone -/

/-- The process by itself on the store: its result, and the store it leaves. -/
def alone (answer : σ → (c : C) → A c × σ) : Process C A ε α → σ → Except ε α × σ
  | .done result, s => (result, s)
  | .await c k, s => (k (answer s c).1).alone answer (answer s c).2

variable {answer : σ → (c : C) → A c × σ}

@[simp] theorem alone_done (result : Except ε α) (s : σ) : (Process.done result).alone answer s = (result, s) := rfl

@[simp] theorem alone_raise (e : ε) (s : σ) : (raise e : Process C A ε α).alone answer s = (.error e, s) := rfl

@[simp] theorem alone_await (c : C) (k : A c → Process C A ε α) (s : σ) :
    (Process.await c k).alone answer s = (k (answer s c).1).alone answer (answer s c).2 := rfl

/-- The second process begins where the first ended. -/
theorem alone_bind (m : Process C A ε α) (f : α → Process C A ε β) (s : σ) :
    (m >>= f).alone answer s = match m.alone answer s with
      | (.ok a, s') => (f a).alone answer s'
      | (.error e, s') => (.error e, s') := by
  induction m generalizing s with
  | done result =>
    cases result with
    | ok a => rfl
    | error e => rfl
  | await c k ih => exact ih _ _

/-! ### The logic -/

/-- The calls made so far, with their answers. -/
abbrev Trace (C : Type) (A : C → Type) : Type := List ((c : C) × A c)

/-- On a store that keeps `R`, the process keeps it too, meets `P` at each call, and ends with `E`. -/
def Satisfies (answer : σ → (c : C) → A c × σ) (R : σ → Prop) (P : Trace C A → C → Prop)
    (E : Trace C A → Except ε α → Prop) : Trace C A → Process C A ε α → Prop
  | tr, .done result => E tr result
  | tr, .await c k => P tr c ∧ ∀ s, R s →
      R (answer s c).2 ∧ (k (answer s c).1).Satisfies answer R P E (tr ++ [⟨c, (answer s c).1⟩])

variable {R : σ → Prop} {P : Trace C A → C → Prop} {E : Trace C A → Except ε α → Prop} {tr : Trace C A}

theorem Satisfies.mono {E' : Trace C A → Except ε α → Prop} {m : Process C A ε α} (h : Satisfies answer R P E tr m)
    (hE : ∀ tr' result, E tr' result → E' tr' result) : Satisfies answer R P E' tr m := by
  induction m generalizing tr with
  | done result => exact hE tr result h
  | await c k ih => exact ⟨h.1, fun s hs => ⟨(h.2 s hs).1, ih _ (h.2 s hs).2⟩⟩

/-- One process after another. -/
theorem Satisfies.bind {E' : Trace C A → Except ε β → Prop} {m : Process C A ε α} {f : α → Process C A ε β}
    (h : Satisfies answer R P E tr m) (hok : ∀ tr' a, E tr' (.ok a) → Satisfies answer R P E' tr' (f a))
    (herror : ∀ tr' e, E tr' (.error e) → E' tr' (.error e)) : Satisfies answer R P E' tr (m >>= f) := by
  induction m generalizing tr with
  | done result =>
    cases result with
    | ok a => exact hok tr a h
    | error e => exact herror tr e h
  | await c k ih => exact ⟨h.1, fun s hs => ⟨(h.2 s hs).1, ih _ (h.2 s hs).2⟩⟩

/-- The process makes only calls of a kind, and ends with a result of a kind. -/
def Only (K : C → Prop) (Q : Except ε α → Prop) : Process C A ε α → Prop
  | .done result => Q result
  | .await c k => K c ∧ ∀ a, (k a).Only K Q

variable {K : C → Prop} {Q : Except ε α → Prop}

theorem Only.bind {Q' : Except ε β → Prop} {m : Process C A ε α} {f : α → Process C A ε β} (h : m.Only K Q)
    (hok : ∀ a, Q (.ok a) → (f a).Only K Q') (herror : ∀ e, Q (.error e) → Q' (.error e)) : (m >>= f).Only K Q' := by
  induction m with
  | done result =>
    cases result with
    | ok a => exact hok a h
    | error e => exact herror e h
  | await c k ih => exact ⟨h.1, fun a => ih a (h.2 a)⟩

/-- What every call of the kind keeps, a process that makes only such calls keeps. -/
theorem Satisfies.of_only {I : Trace C A → Prop} {m : Process C A ε α} (h : m.Only K Q)
    (hcall : ∀ tr c, K c → I tr → P tr c ∧ ∀ s, R s → R (answer s c).2 ∧ I (tr ++ [⟨c, (answer s c).1⟩])) (hI : I tr) :
    Satisfies answer R P (fun tr' result => I tr' ∧ Q result) tr m := by
  induction m generalizing tr with
  | done result => exact ⟨hI, h⟩
  | await c k ih =>
    obtain ⟨hP, hkept⟩ := hcall tr c h.1 hI
    exact ⟨hP, fun s hs => ⟨(hkept s hs).1, ih _ (h.2 _) (hkept s hs).2⟩⟩

/-! ### Many processes on one store -/

/-- A process of the pool: what was asked for, the calls made, and what is left to do. -/
structure Running (ι : Type) (C : Type) (A : C → Type) (ε α : Type) where
  op : ι
  trace : Trace C A
  code : Process C A ε α

/-- The store and the processes, in the order they began. -/
structure Pool (σ ι : Type) (C : Type) (A : C → Type) (ε α : Type) where
  store : σ
  processes : List (Running ι C A ε α)

inductive PoolAction (ι : Type) where
  | start (op : ι)
  /-- The call that a process awaits is made and answered. -/
  | answer (i : Nat)
  deriving DecidableEq, Repr

def poolStep (answer : σ → (c : C) → A c × σ) (program : ι → Process C A ε α) (s : Pool σ ι C A ε α) :
    PoolAction ι → Option (Pool σ ι C A ε α)
  | .start op => some { s with processes := s.processes ++ [⟨op, [], program op⟩] }
  | .answer i =>
    match s.processes[i]? with
    | some ⟨op, tr, .await c k⟩ =>
      let (a, store) := answer s.store c
      some ⟨store, s.processes.set i ⟨op, tr ++ [⟨c, a⟩], k a⟩⟩
    | _ => none

variable {program : ι → Process C A ε α} {s s' : Pool σ ι C A ε α}

/-- What an answer changes. -/
theorem poolStep_answer {i : Nat} (h : poolStep answer program s (.answer i) = some s') :
    ∃ op tr c k, s.processes[i]? = some ⟨op, tr, .await c k⟩ ∧ s'.store = (answer s.store c).2 ∧
      s'.processes = s.processes.set i ⟨op, tr ++ [⟨c, (answer s.store c).1⟩], k (answer s.store c).1⟩ := by
  simp only [poolStep] at h
  split at h
  · rename_i op tr c k hi
    obtain rfl := Option.some.inj h
    exact ⟨op, tr, c, k, hi, rfl, rfl⟩
  · cases h

/-- The store keeps `R`, and every process what it satisfies. -/
structure PoolKept (answer : σ → (c : C) → A c × σ) (R : σ → Prop) (P : ι → Trace C A → C → Prop)
    (E : ι → Trace C A → Except ε α → Prop) (s : Pool σ ι C A ε α) : Prop where
  store : R s.store
  processes : ∀ p ∈ s.processes, Satisfies answer R (P p.op) (E p.op) p.trace p.code

theorem PoolKept.step {P : ι → Trace C A → C → Prop} {E : ι → Trace C A → Except ε α → Prop} {a : PoolAction ι}
    (hprogram : ∀ op, Satisfies answer R (P op) (E op) [] (program op)) (h : PoolKept answer R P E s)
    (hst : poolStep answer program s a = some s') : PoolKept answer R P E s' := by
  cases a with
  | start op =>
    obtain rfl := Option.some.inj hst
    refine ⟨h.store, fun p hp => ?_⟩
    rcases List.mem_append.1 hp with hp | hp
    · exact h.processes p hp
    · obtain rfl := List.mem_singleton.1 hp
      exact hprogram op
  | answer i =>
    obtain ⟨op, tr, c, k, hi, hstore, hprocesses⟩ := poolStep_answer hst
    obtain ⟨-, hcall⟩ := h.processes _ (List.mem_of_getElem? hi)
    obtain ⟨hR, hrest⟩ := hcall s.store h.store
    refine ⟨hstore ▸ hR, fun p hp => ?_⟩
    rw [hprocesses] at hp
    rcases List.mem_or_eq_of_mem_set hp with hp | rfl
    · exact h.processes p hp
    · exact hrest

end Process

/-- In every run of a pool the processes do what they satisfy. -/
theorem Transition.GuardedRun.satisfies {σ ι C ε α : Type} {A : C → Type} {answer : σ → (c : C) → A c × σ}
    {program : ι → Process C A ε α} {R : σ → Prop} {P : ι → Process.Trace C A → C → Prop}
    {E : ι → Process.Trace C A → Except ε α → Prop} {G : Process.Pool σ ι C A ε α → Process.PoolAction ι → Prop}
    {store : σ} {s : Process.Pool σ ι C A ε α}
      {ms : List (Transition.Move (Process.Pool σ ι C A ε α) (Process.PoolAction ι))}
    (h : Transition.GuardedRun (Process.poolStep answer program) G ⟨store, []⟩ ms s) (hstore : R store)
    (hprogram : ∀ op, Process.Satisfies answer R (P op) (E op) [] (program op)) :
    Process.PoolKept answer R P E s :=
  h.invariant ⟨hstore, fun _ hp => by cases hp⟩ fun _ _ _ hs _ hst => hs.step hprogram hst
