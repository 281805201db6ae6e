import CliServer.Lib.Transition
import CliServer.Text

/-!
# Lockout

Password attempts are counted for a key, the id of the user or the name that was tried, before the password is verified.
`lockoutStep` is what happens to the table of keys: attempts, whose verifications end later, resets, and the clock.

`quota` is the account the lockout is meant to keep for a key, from the history alone.  The table keeps it, for all keys
at once, except that a new key in a full table evicts the oldest key, which may be locked; `lockout_holds` is about the
runs in which a full table only ever evicts keys whose lock has expired.
-/

namespace CliServer

open Transition

structure LockoutOptions where
  maxLoginAttempts : Int := 5
  lockoutMs : Int := 5 * 60 * 1000

/-- `_MAX_TRACKED_KEYS`. -/
def maxTrackedKeys : Nat := 10000

/-- `_LockoutState`; `lockedUntil` is 0 when the key is not locked. -/
structure LockoutState where
  failures : Nat
  lockedUntil : Int
  deriving DecidableEq, Repr

/-- `_lockouts`, oldest key first. -/
abbrev Lockouts := List (Str × LockoutState)

/-- `lockout_key`, with the id of the user when there is one. -/
def lockoutKey (t : CaseTable) (user : Option Str) (attempted : Str) : Str :=
  match user with
  | some id => id
  | none => "unknown:".toList ++ (lower t (strip attempted)).take 256

/-- `_lockouts.get`. -/
def lookup (table : Lockouts) (key : Str) : Option LockoutState := (table.find? (·.1 = key)).map Prod.snd

/-- `reset_failures`. -/
def resetFailures (table : Lockouts) (key : Str) : Lockouts := table.filter (·.1 ≠ key)

/-- `is_locked`; a lock that has expired is removed. -/
def isLocked (table : Lockouts) (key : Str) (now : Int) : Bool × Lockouts :=
  match lookup table key with
  | none => (false, table)
  | some state =>
    if state.lockedUntil = 0 then (false, table)
    else if now < state.lockedUntil then (true, table)
    else (false, resetFailures table key)

/-- `_state`, which tracks a new key and then evicts the oldest ones. -/
def track (table : Lockouts) (key : Str) : Lockouts :=
  if (lookup table key).isSome then table
  else
    let table := table ++ [(key, ⟨0, 0⟩)]
    table.drop (table.length - maxTrackedKeys)

variable (t : CaseTable) (o : LockoutOptions)

/-- One more attempt, the last one before the lock included. -/
def LockoutState.count (state : LockoutState) (now : Int) : LockoutState :=
  if o.maxLoginAttempts ≤ (state.failures + 1 : Nat) then ⟨0, now + o.lockoutMs⟩
  else { state with failures := state.failures + 1 }

/-- `reserve_attempt`, which reads the clock when it looks for a lock and when it sets one. -/
def reserveAttempt (table : Lockouts) (key : Str) (now later : Int) : Bool × Lockouts :=
  match isLocked table key now with
  | (true, table) => (false, table)
  | (false, table) => (true, (track table key).map fun e => if e.1 = key then (e.1, e.2.count o later) else e)

/-- The clock, the table, and the keys whose verifications are running. -/
structure LockoutTable where
  now : Nat
  table : Lockouts
  pending : List Str

inductive LockoutAction where
  /-- An attempt, whose verification starts when it is reserved; the clock advances by `ms` on the way. -/
  | attempt (user : Option Str) (attempted : Str) (ms : Nat)
  | verified (key : Str)
  | refused (key : Str)
  /-- A reset by an administrator, or the user's deletion. -/
  | reset (key : Str)
  | tick (ms : Nat)

def lockoutStep (s : LockoutTable) : LockoutAction → Option LockoutTable
  | .attempt user attempted ms =>
    let key := lockoutKey t user attempted
    let reserved := reserveAttempt o s.table key s.now (s.now + ms)
    some ⟨s.now + ms, reserved.2, if reserved.1 then key :: s.pending else s.pending⟩
  | .verified key =>
    if key ∈ s.pending then some { s with table := resetFailures s.table key, pending := s.pending.erase key } else none
  | .refused key => if key ∈ s.pending then some { s with pending := s.pending.erase key } else none
  | .reset key => some { s with table := resetFailures s.table key }
  | .tick ms => some { s with now := s.now + ms }

/-! ### The account of a key -/

/-- The verifications started since the last reset, and the end of the lock that the last of them set. -/
structure Quota where
  used : Nat := 0
  lockedUntil : Option Int := none

/-- The verifications that count at a moment: none when a lock has expired, which resets the key. -/
def Quota.counted (q : Quota) (now : Int) : Nat := if q.lockedUntil.any (· ≤ now) then 0 else q.used

/-- The key is locked at a moment. -/
def Quota.active (q : Quota) (now : Int) : Bool := q.lockedUntil.any (now < ·)

/-- A verification starts; the one that uses up the attempts locks the key. -/
def Quota.start (q : Quota) (now later : Int) : Quota where
  used := q.counted now + 1
  lockedUntil := if o.maxLoginAttempts ≤ (q.counted now + 1 : Nat) then some (later + o.lockoutMs) else none

def quotaMove (key : Str) (q : Quota) (m : Move LockoutTable LockoutAction) : Quota :=
  match m.act with
  | .attempt user attempted ms =>
    let attempt := lockoutKey t user attempted
    if attempt = key ∧ (reserveAttempt o m.pre.table attempt m.pre.now (m.pre.now + ms)).1 then
      q.start o m.pre.now (m.pre.now + ms)
    else q
  | .verified k => if k = key then {} else q
  | .reset k => if k = key then {} else q
  | _ => q

/-- The account of a key after a history. -/
def quota (key : Str) (history : List (Move LockoutTable LockoutAction)) : Quota :=
  history.foldl (quotaMove t o key) {}

/-- A new key in a full table evicts a key whose lock has expired. -/
def SparesLocks (s : LockoutTable) : LockoutAction → Prop
  | .attempt user attempted _ =>
    lookup s.table (lockoutKey t user attempted) = none → maxTrackedKeys ≤ s.table.length →
      ∀ e ∈ s.table.head?, e.2.lockedUntil ≠ 0 ∧ e.2.lockedUntil ≤ s.now
  | _ => True

/-- The table's entry for a key agrees with its account. -/
def Agrees (now : Int) (entry : Option LockoutState) (q : Quota) : Prop :=
  (q.used : Int) ≤ o.maxLoginAttempts ∧
  match entry with
  | none => q.active now = false ∧ q.counted now = 0
  | some state =>
    if state.lockedUntil = 0 then
      q.active now = false ∧ q.counted now = state.failures ∧ (state.failures : Int) < o.maxLoginAttempts
    else q.lockedUntil = some state.lockedUntil ∧ state.failures = 0

variable {t o} {table : Lockouts} {key k : Str} {now later : Int} {state : LockoutState} {q : Quota}

/-! ### The table -/

@[simp] theorem lookup_nil (key : Str) : lookup [] key = none := rfl

@[simp] theorem lookup_cons (e : Str × LockoutState) (table : Lockouts) (key : Str) :
    lookup (e :: table) key = if e.1 = key then some e.2 else lookup table key := by
  unfold lookup
  rw [List.find?_cons]
  by_cases h : e.1 = key <;> simp [h]

private theorem lookup_eq_none : lookup table key = none ↔ key ∉ table.map Prod.fst := by
  unfold lookup
  rw [Option.map_eq_none_iff, List.find?_eq_none, List.mem_map]
  constructor
  · rintro h ⟨e, he, rfl⟩
    exact h e he (by simp)
  · intro h e he heq
    exact h ⟨e, he, of_decide_eq_true heq⟩

theorem lookup_append (table table' : Lockouts) (key : Str) :
    lookup (table ++ table') key = (lookup table key).or (lookup table' key) := by
  simp [lookup, List.find?_append, Option.map_or]

private theorem lookup_resetFailures (table : Lockouts) (key k : Str) :
    lookup (resetFailures table key) k = if k = key then none else lookup table k := by
  induction table with
  | nil => simp [resetFailures]
  | cons e table ih =>
    have ih : lookup (table.filter (·.1 ≠ key)) k = if k = key then none else lookup table k := ih
    by_cases he : e.1 = key
    · have hdrop : resetFailures (e :: table) key = table.filter (·.1 ≠ key) := by simp [resetFailures, he]
      rw [hdrop, ih, lookup_cons]
      by_cases hk : k = key
      · simp [hk]
      · have hne : e.1 ≠ k := fun h => hk (h.symm.trans he)
        simp [hk, hne]
    · have hkeep : resetFailures (e :: table) key = e :: table.filter (·.1 ≠ key) := by simp [resetFailures, he]
      rw [hkeep, lookup_cons, ih, lookup_cons]
      by_cases hk : e.1 = k
      · have hne : k ≠ key := fun h => he (hk.trans h)
        simp [hk, hne]
      · simp [hk]

private theorem lookup_map_update (table : Lockouts) (key k : Str) (f : LockoutState → LockoutState) :
    lookup (table.map fun e => if e.1 = key then (e.1, f e.2) else e) k =
      if k = key then (lookup table k).map f else lookup table k := by
  induction table with
  | nil => simp
  | cons e table ih =>
    rw [List.map_cons, lookup_cons, lookup_cons, ih]
    by_cases he : e.1 = key <;> by_cases hk : e.1 = k <;> by_cases hkk : k = key <;> simp_all

/-- The keys are distinct, and not too many. -/
structure TableOk (table : Lockouts) : Prop where
  nodup : (table.map Prod.fst).Nodup
  length : table.length ≤ maxTrackedKeys

private theorem TableOk.resetFailures (h : TableOk table) (key : Str) : TableOk (resetFailures table key) where
  nodup := h.nodup.sublist (List.filter_sublist.map _)
  length := (List.length_filter_le _ _).trans h.length

theorem track_cases (h : TableOk table) (key : Str) :
    (lookup table key ≠ none ∧ track table key = table) ∨
    (lookup table key = none ∧ table.length < maxTrackedKeys ∧ track table key = table ++ [(key, ⟨0, 0⟩)]) ∨
    ∃ e rest, table = e :: rest ∧ lookup table key = none ∧ maxTrackedKeys ≤ table.length ∧
      track table key = rest ++ [(key, ⟨0, 0⟩)] := by
  unfold track
  cases hlookup : lookup table key with
  | some state => exact .inl ⟨by simp, rfl⟩
  | none =>
    right
    have hlength := h.length
    by_cases hfull : table.length < maxTrackedKeys
    · refine .inl ⟨rfl, hfull, ?_⟩
      have hzero : (table ++ [(key, (⟨0, 0⟩ : LockoutState))]).length - maxTrackedKeys = 0 := by
        rw [List.length_append, List.length_singleton]
        omega
      simp only [Option.isSome_none, Bool.false_eq_true, if_false, hzero, List.drop_zero]
    · cases table with
      | nil => exact absurd (by decide : ([] : Lockouts).length < maxTrackedKeys) hfull
      | cons e rest =>
        refine .inr ⟨e, rest, rfl, rfl, not_lt.1 hfull, ?_⟩
        have hone : (e :: rest ++ [(key, (⟨0, 0⟩ : LockoutState))]).length - maxTrackedKeys = 1 := by
          rw [List.length_append, List.length_singleton]
          omega
        simp only [Option.isSome_none, Bool.false_eq_true, if_false, hone]
        rfl

theorem TableOk.track (h : TableOk table) (key : Str) : TableOk (track table key) := by
  have hadd : ∀ l : Lockouts, (l.map Prod.fst).Nodup → key ∉ l.map Prod.fst →
      ((l ++ [(key, (⟨0, 0⟩ : LockoutState))]).map Prod.fst).Nodup := by
    intro l hl hkey
    rw [List.map_append, List.nodup_append]
    refine ⟨hl, List.nodup_singleton _, fun a ha b hb hab => ?_⟩
    obtain rfl := List.mem_singleton.1 hb
    exact hkey (hab ▸ ha)
  rcases track_cases h key with ⟨-, heq⟩ | ⟨hnone, hlt, heq⟩ | ⟨e, rest, rfl, hnone, -, heq⟩
  · rw [heq]
    exact h
  · rw [heq]
    refine ⟨hadd _ h.nodup (lookup_eq_none.1 hnone), ?_⟩
    rw [List.length_append, List.length_singleton]
    exact hlt
  · rw [heq]
    refine ⟨hadd _ (List.nodup_cons.1 h.nodup).2 fun hmem => ?_, ?_⟩
    · exact lookup_eq_none.1 hnone (List.mem_cons_of_mem _ hmem)
    · rw [List.length_append, List.length_singleton]
      exact h.length

/-- Tracking a key leaves the others, but for an evicted one. -/
private theorem lookup_track (h : TableOk table) (key k : Str) :
    lookup (track table key) k = (if k = key then some ((lookup table key).getD ⟨0, 0⟩) else lookup table k) ∨
    (k ≠ key ∧ lookup (track table key) k = none ∧ lookup table key = none ∧ maxTrackedKeys ≤ table.length ∧
      ∃ e ∈ table.head?, lookup table k = some e.2) := by
  rcases track_cases h key with ⟨hsome, heq⟩ | ⟨hnone, -, heq⟩ | ⟨e, rest, rfl, hnone, hfull, heq⟩
  · left
    rw [heq]
    by_cases hk : k = key
    · obtain ⟨state, hstate⟩ := Option.ne_none_iff_exists'.1 hsome
      simp [hk, hstate]
    · rw [if_neg hk]
  · left
    rw [heq, lookup_append]
    by_cases hk : k = key
    · subst hk
      simp [hnone]
    · have hne : key ≠ k := fun h => hk h.symm
      simp [hk, hne]
  · rw [heq, lookup_append, lookup_cons, lookup_nil]
    rw [lookup_cons] at hnone
    have hek : e.1 ≠ key := by
      intro he
      rw [if_pos he] at hnone
      cases hnone
    rw [if_neg hek] at hnone
    by_cases hk : k = key
    · left
      subst hk
      simp [hnone, hek]
    · have hne : key ≠ k := fun h => hk h.symm
      by_cases hevicted : e.1 = k
      · right
        have hgone : lookup rest k = none := lookup_eq_none.2 (hevicted ▸ (List.nodup_cons.1 h.nodup).1)
        refine ⟨hk, by simp [hgone, hne], by simp [hek, hnone], hfull, e, rfl, ?_⟩
        rw [lookup_cons, if_pos hevicted]
      · left
        simp [hk, hne, hevicted]

/-! ### One step -/

private theorem isLocked_table (table : Lockouts) (key : Str) (now : Int) :
    (isLocked table key now).2 = table ∨ (isLocked table key now).2 = resetFailures table key := by
  unfold isLocked
  split
  · exact .inl rfl
  · split
    · exact .inl rfl
    · split
      · exact .inl rfl
      · exact .inr rfl

private theorem reserveAttempt_locked (h : (isLocked table key now).1 = true) :
    reserveAttempt o table key now later = (false, table) := by
  have htable : isLocked table key now = (true, table) := by
    unfold isLocked at h ⊢
    split at h
    · cases h
    · split at h
      · cases h
      · split at h
        · rename_i hne hlt
          rw [if_neg hne, if_pos hlt]
        · cases h
  rw [reserveAttempt, htable]

private theorem reserveAttempt_open (h : (isLocked table key now).1 = false) :
    reserveAttempt o table key now later = (true, (track (isLocked table key now).2 key).map fun e =>
      if e.1 = key then (e.1, e.2.count o later) else e) := by
  unfold reserveAttempt
  split
  · rename_i heq
    rw [heq] at h
    cases h
  · rename_i heq
    rw [heq]

private theorem TableOk.reserveAttempt (h : TableOk table) (o : LockoutOptions) (key : Str) (now later : Int) :
    TableOk (reserveAttempt o table key now later).2 := by
  cases hlocked : (isLocked table key now).1 with
  | true =>
    rw [reserveAttempt_locked hlocked]
    exact h
  | false =>
    rw [reserveAttempt_open hlocked]
    have hok : TableOk (isLocked table key now).2 := by
      rcases isLocked_table table key now with heq | heq
      · rw [heq]
        exact h
      · rw [heq]
        exact h.resetFailures key
    have hkeys : ∀ l : Lockouts, (l.map fun e => if e.1 = key then (e.1, e.2.count o later) else e).map Prod.fst =
        l.map Prod.fst := by
      intro l
      rw [List.map_map]
      refine List.map_congr_left fun e _ => ?_
      simp only [Function.comp_apply]
      split <;> rfl
    exact ⟨(hkeys _).symm ▸ (hok.track key).nodup, by rw [List.length_map]; exact (hok.track key).length⟩

private theorem Quota.active_mono (h : q.active now = false) (hle : now ≤ later) : q.active later = false := by
  unfold Quota.active at *
  cases hl : q.lockedUntil with
  | none => rfl
  | some u =>
    simp only [hl, Option.any_some, decide_eq_false_iff_not] at h ⊢
    omega

private theorem Quota.counted_mono (h : q.active now = false) (hle : now ≤ later) :
    q.counted later = q.counted now := by
  unfold Quota.active Quota.counted at *
  cases hl : q.lockedUntil with
  | none => rfl
  | some u =>
    simp only [hl, Option.any_some, decide_eq_false_iff_not] at h ⊢
    have hnow : u ≤ now := by omega
    have hlater : u ≤ later := by omega
    simp [hnow, hlater]

theorem Agrees.mono {entry : Option LockoutState} (h : Agrees o now entry q) (hle : now ≤ later) :
    Agrees o later entry q := by
  refine ⟨h.1, ?_⟩
  have hmatch := h.2
  cases entry with
  | none => exact ⟨Quota.active_mono hmatch.1 hle, (Quota.counted_mono hmatch.1 hle).trans hmatch.2⟩
  | some state =>
    simp only at hmatch ⊢
    split at hmatch
    · rename_i hzero
      rw [if_pos hzero]
      exact ⟨Quota.active_mono hmatch.1 hle, (Quota.counted_mono hmatch.1 hle).trans hmatch.2.1, hmatch.2.2⟩
    · rename_i hne
      rw [if_neg hne]
      exact hmatch

/-- A key that is not tracked, or whose lock has expired, has no attempts that count. -/
private theorem agrees_none_of_expired (h : Agrees o now (some state) q) (hne : state.lockedUntil ≠ 0)
    (hle : state.lockedUntil ≤ now) : Agrees o now none q := by
  obtain ⟨hused, hmatch⟩ := h
  simp only [if_neg hne] at hmatch
  refine ⟨hused, ?_, ?_⟩
  · simpa [Quota.active, hmatch.1] using hle
  · simp [Quota.counted, hmatch.1, hle]

private theorem agrees_reset (hmax : 1 ≤ o.maxLoginAttempts) : Agrees o now none {} := by
  refine ⟨?_, rfl, rfl⟩
  have hzero : ((0 : Nat) : Int) ≤ o.maxLoginAttempts := by omega
  exact hzero

/-- A verification of a key that is not locked is counted by table and account alike. -/
private theorem agrees_start (hunlocked : state.lockedUntil = 0) (hcounted : q.counted now = state.failures)
    (hlt : (state.failures : Int) < o.maxLoginAttempts) (hlater : 0 ≤ later) :
    Agrees o later (some (state.count o later)) (q.start o now later) := by
  unfold Quota.start LockoutState.count
  rw [hcounted]
  by_cases hlock : o.maxLoginAttempts ≤ ((state.failures + 1 : Nat) : Int)
  · rw [if_pos hlock, if_pos hlock]
    refine ⟨by simp only; omega, ?_⟩
    by_cases hzero : later + o.lockoutMs = 0
    · -- A lock that ends at the epoch is over: the table reads its 0 as no lock.
      simp only [hzero, if_true]
      refine ⟨?_, ?_, ?_⟩
      · simpa [Quota.active] using hlater
      · simp [Quota.counted, hlater]
      · omega
    · simp [hzero]
  · rw [if_neg hlock, if_neg hlock]
    refine ⟨by simp only; omega, ?_⟩
    have hmore : ((state.failures + 1 : Nat) : Int) < o.maxLoginAttempts := not_le.1 hlock
    simpa [hunlocked, Quota.active, Quota.counted] using hmore

/-- What an attempt finds when its key is not locked: the number of failures that count. -/
private theorem agrees_open (hmax : 1 ≤ o.maxLoginAttempts) (h : Agrees o now (lookup table key) q)
    (hopen : (isLocked table key now).1 = false) :
    ∃ state, (lookup (isLocked table key now).2 key).getD ⟨0, 0⟩ = state ∧ state.lockedUntil = 0 ∧
      q.counted now = state.failures ∧ (state.failures : Int) < o.maxLoginAttempts := by
  refine ⟨_, rfl, ?_⟩
  unfold isLocked at hopen ⊢
  cases hlookup : lookup table key with
  | none =>
    rw [hlookup] at h
    simp only [hlookup, Option.getD_none]
    exact ⟨trivial, h.2.2, by omega⟩
  | some state =>
    rw [hlookup] at h
    simp only [hlookup] at hopen ⊢
    by_cases hzero : state.lockedUntil = 0
    · have hmatch := h.2
      simp only [if_pos hzero] at hmatch
      simp only [if_pos hzero, hlookup, Option.getD_some]
      exact ⟨hzero, hmatch.2.1, hmatch.2.2⟩
    · by_cases hlt : now < state.lockedUntil
      · simp [hzero, hlt] at hopen
      · have hnone := (agrees_none_of_expired h hzero (not_lt.1 hlt)).2
        simp only [if_neg hzero, if_neg hlt, lookup_resetFailures, if_true, Option.getD_none]
        exact ⟨trivial, hnone.2, by omega⟩

/-- A table that is still full lost no lock. -/
private theorem isLocked_of_full (h : TableOk table) (hfull : maxTrackedKeys ≤ (isLocked table key now).2.length) :
    (isLocked table key now).2 = table := by
  unfold isLocked at hfull ⊢
  cases hlookup : lookup table key with
  | none => rfl
  | some state =>
    simp only [hlookup] at hfull ⊢
    split
    · rfl
    · split
      · rfl
      · rename_i hne hlt
        obtain ⟨e, he, -⟩ := Option.map_eq_some_iff.1 hlookup
        have hless : (resetFailures table key).length < table.length := by
          refine List.length_filter_lt_length_iff_exists.2 ⟨e, List.mem_of_find?_eq_some he, ?_⟩
          have hkey := List.find?_some he
          simpa using hkey
        have hlength := h.length
        rw [if_neg hne, if_neg hlt] at hfull
        exact absurd (hfull.trans_lt hless) (not_lt.2 hlength)

/-- Another key's entry after the look for a lock. -/
private theorem lookup_isLocked_of_ne (hne : k ≠ key) : lookup (isLocked table key now).2 k = lookup table k := by
  rcases isLocked_table table key now with heq | heq
  · rw [heq]
  · rw [heq, lookup_resetFailures, if_neg hne]

/-- The table agrees with the accounts of all keys. -/
structure Accounts (t : CaseTable) (o : LockoutOptions) (history : List (Move LockoutTable LockoutAction))
    (s : LockoutTable) : Prop where
  ok : TableOk s.table
  agrees : ∀ key, Agrees o s.now (lookup s.table key) (quota t o key history)

variable {s s' : LockoutTable} {a : LockoutAction} {history : List (Move LockoutTable LockoutAction)}

private theorem quota_append (key : Str) (m : Move LockoutTable LockoutAction) :
    quota t o key (history ++ [m]) = quotaMove t o key (quota t o key history) m := by
  rw [quota, List.foldl_append]
  rfl

private theorem Accounts.reset (h : Accounts t o history s) (hmax : 1 ≤ o.maxLoginAttempts) {pending : List Str}
    (hquota : ∀ k q, quotaMove t o k q ⟨s, a, s'⟩ = if k = key then {} else q)
    (hs' : s' = { s with table := resetFailures s.table key, pending := pending }) :
    Accounts t o (history ++ [⟨s, a, s'⟩]) s' := by
  subst hs'
  refine ⟨h.ok.resetFailures key, fun k => ?_⟩
  rw [quota_append, hquota, lookup_resetFailures]
  by_cases hk : k = key
  · rw [if_pos hk, if_pos hk]
    exact agrees_reset hmax
  · rw [if_neg hk, if_neg hk]
    exact h.agrees k

theorem Accounts.attempt (h : Accounts t o history s) (hmax : 1 ≤ o.maxLoginAttempts) {user : Option Str}
    {attempted : Str} {ms : Nat} (hspares : SparesLocks t s (.attempt user attempted ms))
    (hst : lockoutStep t o s (.attempt user attempted ms) = some s') :
    Accounts t o (history ++ [⟨s, .attempt user attempted ms, s'⟩]) s' := by
  obtain rfl := Option.some.inj hst
  generalize hkey : lockoutKey t user attempted = key
  have hle : (s.now : Int) ≤ s.now + ms := by omega
  have hnow : ((s.now + ms : Nat) : Int) = s.now + ms := by omega
  have hspares : lookup s.table key = none → maxTrackedKeys ≤ s.table.length →
      ∀ e ∈ s.table.head?, e.2.lockedUntil ≠ 0 ∧ e.2.lockedUntil ≤ s.now := hkey ▸ hspares
  cases hlocked : (isLocked s.table key s.now).1 with
  | true =>
    have hreserve := @reserveAttempt_locked o s.table key s.now (s.now + ms) hlocked
    refine ⟨by simpa only [hreserve] using h.ok, fun k => ?_⟩
    rw [quota_append]
    simp only [quotaMove, hkey, hreserve, Bool.false_eq_true, and_false, if_false, hnow]
    exact (h.agrees k).mono hle
  | false =>
    have hreserve := @reserveAttempt_open o s.table key s.now (s.now + ms) hlocked
    have hok : TableOk (isLocked s.table key s.now).2 := by
      rcases isLocked_table s.table key s.now with heq | heq
      · rw [heq]
        exact h.ok
      · rw [heq]
        exact h.ok.resetFailures key
    refine ⟨h.ok.reserveAttempt o key _ _, fun k => ?_⟩
    have hupdate := lookup_map_update (track (isLocked s.table key s.now).2 key) key k (LockoutState.count o · (s.now + ms))
    rw [quota_append]
    simp only [quotaMove, hkey, hreserve, and_true, hnow]
    rw [hupdate]
    by_cases hk : k = key
    · subst hk
      obtain ⟨state, hstate, hunlocked, hcounted, hlt⟩ := agrees_open hmax (h.agrees k) hlocked
      rcases lookup_track hok k k with heq | ⟨hne, -⟩
      · rw [heq, if_pos rfl, if_pos rfl, if_pos rfl, hstate]
        exact agrees_start hunlocked hcounted hlt (by omega)
      · exact absurd rfl hne
    · have hne : ¬ key = k := fun h => hk h.symm
      rw [if_neg hk, if_neg hne]
      rcases lookup_track hok key k with heq | ⟨-, heq, hnone, hfull, e, he, hlookup⟩
      · rw [heq, if_neg hk, lookup_isLocked_of_ne hk]
        exact (h.agrees k).mono hle
      · -- `k` is evicted: the table was full, so that its lock has expired.
        have hsame := isLocked_of_full h.ok hfull
        rw [hsame] at hnone hfull he hlookup
        obtain ⟨hlock, hexpired⟩ := hspares hnone hfull e he
        have hagrees := h.agrees k
        rw [hlookup] at hagrees
        rw [heq]
        exact (agrees_none_of_expired hagrees hlock hexpired).mono hle

theorem Accounts.step (h : Accounts t o history s) (hmax : 1 ≤ o.maxLoginAttempts) (hspares : SparesLocks t s a)
    (hst : lockoutStep t o s a = some s') : Accounts t o (history ++ [⟨s, a, s'⟩]) s' := by
  cases a with
  | attempt user attempted ms => exact h.attempt hmax hspares hst
  | verified key =>
    simp only [lockoutStep] at hst
    split at hst
    · refine h.reset hmax (fun k q => ?_) (Option.some.inj hst).symm
      simp only [quotaMove, eq_comm]
    · cases hst
  | refused key =>
    simp only [lockoutStep] at hst
    split at hst
    · obtain rfl := Option.some.inj hst
      refine ⟨h.ok, fun k => ?_⟩
      rw [quota_append]
      exact h.agrees k
    · cases hst
  | reset key =>
    refine h.reset hmax (fun k q => ?_) (Option.some.inj hst).symm
    simp only [quotaMove, eq_comm]
  | tick ms =>
    obtain rfl := Option.some.inj hst
    refine ⟨h.ok, fun k => ?_⟩
    rw [quota_append]
    have hle : (s.now : Int) ≤ ((s.now + ms : Nat) : Int) := by omega
    exact (h.agrees k).mono hle

/-- A locked key starts no verification. -/
private theorem Agrees.locked (h : Agrees o now (lookup table key) q) (hactive : q.active now = true) :
    (isLocked table key now).1 = true := by
  have hmatch := h.2
  unfold isLocked
  cases hlookup : lookup table key with
  | none =>
    rw [hlookup] at hmatch
    rw [hmatch.1] at hactive
    cases hactive
  | some state =>
    rw [hlookup] at hmatch
    simp only at hmatch ⊢
    by_cases hzero : state.lockedUntil = 0
    · rw [if_pos hzero] at hmatch
      rw [hmatch.1] at hactive
      cases hactive
    · rw [if_neg hzero] at hmatch
      rw [if_neg hzero]
      have hlt : now < state.lockedUntil := by simpa [Quota.active, hmatch.1] using hactive
      rw [if_pos hlt]

/-- When a full table only ever evicts keys whose lock has expired, at most `max_login_attempts` verifications of a key
start between two resets of it, and none starts while the key is locked. -/
theorem lockout_holds (hmax : 1 ≤ o.maxLoginAttempts) {now : Nat}
    (h : GuardedRun (lockoutStep t o) (SparesLocks t) ⟨now, [], []⟩ history s) (key : Str) :
    ((quota t o key history).used : Int) ≤ o.maxLoginAttempts ∧
    ((quota t o key history).active s.now = true →
     ∀ later, reserveAttempt o s.table key s.now later = (false, s.table)) := by
  have hstart : Accounts t o [] ⟨now, [], []⟩ := ⟨⟨List.nodup_nil, Nat.zero_le _⟩, fun _ => agrees_reset hmax⟩
  have hs := h.history hstart fun _ _ _ _ hs hg hst => hs.step hmax hg hst
  refine ⟨(hs.agrees key).1, fun hactive later => ?_⟩
  exact reserveAttempt_locked ((hs.agrees key).locked hactive)

/-- An administrator's lock-out: five wrong passwords. -/
def fiveAttempts : List LockoutAction :=
  List.replicate 5 (.attempt (some ['r']) "root".toList 0) ++ List.replicate 5 (.refused ['r'])

theorem lockout_holds_five :
    let t : CaseTable := fun _ c _ => [c]
    ∃ history s, GuardedRun (lockoutStep t {}) (SparesLocks t) ⟨0, [], []⟩ history s ∧
      (quota t {} ['r'] history).active s.now = true ∧
      ∀ later, reserveAttempt {} s.table ['r'] s.now later = (false, s.table) := by
  intro t
  have hexec : (exec (lockoutStep t {}) ⟨0, [], []⟩ fiveAttempts).any (fun r =>
      r.1.all (fun m => m.pre.table.length < 2) && (quota t {} ['r'] r.1).active r.2.now) = true := by
    decide +kernel
  obtain ⟨⟨history, s⟩, hexec, hboth⟩ := (Option.any_eq_true _ _).1 hexec
  obtain ⟨hsmall, hactive⟩ := Bool.and_eq_true_iff.1 hboth
  have hrun : GuardedRun (lockoutStep t {}) (SparesLocks t) ⟨0, [], []⟩ history s := by
    refine (run_of_exec hexec).restrict fun m hm => ?_
    have hlength : m.pre.table.length < 2 := of_decide_eq_true (List.all_eq_true.1 hsmall m hm)
    cases hact : m.act with
    | attempt user attempted ms =>
      intro _ hfull
      exact absurd (hfull.trans_lt hlength) (by decide)
    | _ => exact trivial
  exact ⟨history, s, hrun, hactive, (lockout_holds (by decide) hrun ['r']).2 hactive⟩

/-! ### A full table -/

/-- The first attempt on a key. -/
private theorem reserveAttempt_new (hok : TableOk table) (hmax : 1 < o.maxLoginAttempts)
    (hnew : key ∉ table.map Prod.fst) :
    reserveAttempt o table key now later =
      (true, (if table.length < maxTrackedKeys then table else table.tail) ++ [(key, ⟨1, 0⟩)]) := by
  have hnone := lookup_eq_none.2 hnew
  have hlocked : isLocked table key now = (false, table) := by rw [isLocked, hnone]
  have hcount : (⟨0, 0⟩ : LockoutState).count o later = ⟨1, 0⟩ := by
    have hlt : ¬ o.maxLoginAttempts ≤ ((0 + 1 : Nat) : Int) := by omega
    simp only [LockoutState.count]
    rw [if_neg hlt]
  have hmap : ∀ l : Lockouts, (∀ e ∈ l, e ∈ table) →
      ((l ++ [(key, (⟨0, 0⟩ : LockoutState))]).map fun e => if e.1 = key then (e.1, e.2.count o later) else e) =
        l ++ [(key, ⟨1, 0⟩)] := by
    intro l hl
    rw [List.map_append, List.map_singleton, if_pos rfl, hcount]
    congr 1
    rw [List.map_congr_left, List.map_id]
    intro e he
    have hne : e.1 ≠ key := fun heq => hnew (heq ▸ List.mem_map_of_mem (hl e he))
    simp [hne]
  have hopen : (isLocked table key now).1 = false := by rw [hlocked]
  rw [reserveAttempt_open hopen, hlocked]
  rcases track_cases hok key with ⟨hsome, -⟩ | ⟨-, hlt, heq⟩ | ⟨e, rest, rfl, -, hfull, heq⟩
  · exact absurd hnone hsome
  · rw [heq, if_pos hlt, hmap table fun e he => he]
  · rw [heq, if_neg (not_lt.2 hfull), List.tail_cons, hmap rest fun e he => List.mem_cons_of_mem _ he]

/-- Attempts on new keys fill the table and leave the accounts of the others. -/
theorem fill (hmax : 1 < o.maxLoginAttempts) {names : List Str} {s : LockoutTable} (hok : TableOk s.table)
    (hnew : (s.table.map Prod.fst ++ names.map (lockoutKey t none)).Nodup)
    (hroom : s.table.length + names.length ≤ maxTrackedKeys) :
    ∃ history s', Run (lockoutStep t o) s history s' ∧ s'.now = s.now ∧
      s'.table = s.table ++ names.map (fun name => (lockoutKey t none name, ⟨1, 0⟩)) ∧
      ∀ key ∉ names.map (lockoutKey t none), ∀ q, history.foldl (quotaMove t o key) q = q := by
  induction names generalizing s with
  | nil => exact ⟨[], s, .start, rfl, by simp, fun key _ q => rfl⟩
  | cons name names ih =>
    have hkey : lockoutKey t none name ∉ s.table.map Prod.fst := fun hmem =>
      (List.nodup_append.1 hnew).2.2 _ hmem _ List.mem_cons_self rfl
    have hlt : s.table.length < maxTrackedKeys := by
      rw [List.length_cons] at hroom
      omega
    have hreserve := @reserveAttempt_new o s.table _ s.now (s.now + (0 : Nat)) hok hmax hkey
    rw [if_pos hlt] at hreserve
    obtain ⟨s₁, hstep, hnow, htable⟩ : ∃ s₁, lockoutStep t o s (.attempt none name 0) = some s₁ ∧ s₁.now = s.now ∧
        s₁.table = s.table ++ [(lockoutKey t none name, ⟨1, 0⟩)] :=
      ⟨_, rfl, rfl, by simp only [hreserve]⟩
    have hok₁ : TableOk s₁.table := by
      have hall := hok.reserveAttempt o (lockoutKey t none name) s.now (s.now + (0 : Nat))
      rwa [hreserve, ← htable] at hall
    have hnew₁ : (s₁.table.map Prod.fst ++ names.map (lockoutKey t none)).Nodup := by
      rw [htable, List.map_append, List.append_assoc]
      exact hnew
    have hroom₁ : s₁.table.length + names.length ≤ maxTrackedKeys := by
      rw [htable, List.length_append, List.length_singleton]
      rw [List.length_cons] at hroom
      omega
    obtain ⟨history, s', hrun, hnow', htable', hquota⟩ := ih hok₁ hnew₁ hroom₁
    have hone : Run (lockoutStep t o) s [⟨s, .attempt none name 0, s₁⟩] s₁ := GuardedRun.step .start trivial hstep
    refine ⟨_, s', hone.append hrun, hnow'.trans hnow, ?_, fun key hkey q => ?_⟩
    · rw [htable', htable, List.append_assoc]
      rfl
    · have hne : ¬ lockoutKey t none name = key := fun heq => hkey (heq ▸ List.mem_cons_self)
      have hmove : quotaMove t o key q ⟨s, .attempt none name 0, s₁⟩ = q := by
        simp only [quotaMove, hne, false_and, if_false]
      rw [List.foldl_append, List.foldl_cons, List.foldl_nil, hmove]
      exact hquota key (fun hmem => hkey (List.mem_cons_of_mem _ hmem)) q

/-- The names of one ideograph each. -/
def ideographs (n : Nat) : List Str := (List.range n).map fun i => [Char.ofNat (0x4e00 + i)]

theorem toNat_ideograph {i : Nat} (h : i < 10000) : (Char.ofNat (0x4e00 + i)).toNat = 0x4e00 + i := by
  have hvalid : (0x4e00 + i).isValidChar := .inl (by omega)
  rw [Char.ofNat, dif_pos hvalid]
  rfl

private theorem lockoutKey_ideograph {c : Char} (h : 0x4e00 ≤ c.toNat) (h' : c.toNat < 0x4e00 + 10000) :
    lockoutKey (fun _ c _ => [c]) none [c] = "unknown:".toList ++ [c] := by
  have hspace : isSpace c = false := by
    simp only [isSpace, Bool.or_eq_false_iff, Bool.and_eq_false_iff, decide_eq_false_iff_not, beq_eq_false_iff_ne]
    omega
  have hstrip : strip [c] = [c] := strip_eq_self fun d hd => List.mem_singleton.1 hd ▸ hspace
  have hne : ∀ d : Char, d.toNat < 0x4e00 → c ≠ d := fun d hd heq => absurd (heq ▸ h) (not_le.2 hd)
  have hlower : lowerChar c = none := by
    have hascii : ¬ c.toNat < 128 := by omega
    rw [lowerChar, if_neg hascii, if_neg (hne _ (by decide)), if_neg (hne _ (by decide)), if_neg (hne _ (by decide)),
      if_neg (hne _ (by decide))]
  have hlowered : lower (fun _ c _ => [c]) [c] = [c] := by simp [lower, lowerFrom, hlower]
  have htake : ([c] : Str).take 256 = [c] := List.take_of_length_le (by rw [List.length_singleton]; omega)
  have hkey : lockoutKey (fun _ c _ => [c]) none [c] =
      "unknown:".toList ++ (lower (fun _ c _ => [c]) (strip [c])).take 256 := rfl
  rw [hkey, hstrip, hlowered, htake]

theorem nodup_ideographs {n : Nat} (h : n ≤ 10000) :
    ((ideographs n).map (lockoutKey (fun _ c _ => [c]) none)).Nodup := by
  rw [ideographs, List.map_map]
  refine List.Nodup.map_on (fun i hi j hj hij => ?_) List.nodup_range
  have hi := List.mem_range.1 hi
  have hj := List.mem_range.1 hj
  have hin := toNat_ideograph (by omega : i < 10000)
  have hjn := toNat_ideograph (by omega : j < 10000)
  simp only [Function.comp_apply] at hij
  rw [lockoutKey_ideograph (by omega) (by omega), lockoutKey_ideograph (by omega) (by omega)] at hij
  have hchar := List.head_eq_of_cons_eq (List.append_cancel_left hij)
  rw [hchar, hjn] at hin
  omega

private theorem ideographs_succ (n : Nat) : ideographs (n + 1) = ideographs n ++ [[Char.ofNat (0x4e00 + n)]] := by
  rw [ideographs, List.range_succ, List.map_append, List.map_singleton, ideographs]

private theorem lockoutKey_none_ne (t : CaseTable) (name : Str) : lockoutKey t none name ≠ ['r'] := by
  intro h
  have hlength := congrArg List.length h
  have hunknown : "unknown:".toList.length = 8 := rfl
  have hkey : lockoutKey t none name = "unknown:".toList ++ (lower t (strip name)).take 256 := rfl
  rw [hkey, List.length_append, hunknown, List.length_singleton] at hlength
  omega

/-- In a full table, an attempt on one more name evicts a locked key, which may then be tried again. -/
private theorem evicts (hmax : 1 < o.maxLoginAttempts) {n : Nat} (hn : n + 1 = maxTrackedKeys) {s : LockoutTable}
    {locked : LockoutState} (hs : s.table = [(['r'], locked)]) :
    ∃ history s', Run (lockoutStep (fun _ c _ => [c]) o) s history s' ∧ s'.now = s.now ∧
      (∀ q, history.foldl (quotaMove (fun _ c _ => [c]) o ['r']) q = q) ∧ lookup s'.table ['r'] = none := by
  set t : CaseTable := fun _ c _ => [c] with ht
  have hmany : maxTrackedKeys = 10000 := rfl
  have hnodup : ((ideographs (n + 1)).map (lockoutKey t none)).Nodup := nodup_ideographs (by omega)
  have hnotin : ∀ names : List Str, ['r'] ∉ names.map (lockoutKey t none) := by
    intro names hmem
    obtain ⟨name, -, heq⟩ := List.mem_map.1 hmem
    exact lockoutKey_none_ne t name heq
  have hok : TableOk s.table := by
    rw [hs]
    exact ⟨List.nodup_singleton _, by rw [List.length_singleton]; omega⟩
  have hnew : (s.table.map Prod.fst ++ (ideographs n).map (lockoutKey t none)).Nodup := by
    rw [ideographs_succ, List.map_append] at hnodup
    rw [hs]
    exact List.nodup_cons.2 ⟨hnotin _, hnodup.of_append_left⟩
  have hlength : (ideographs n).length = n := by rw [ideographs, List.length_map, List.length_range]
  obtain ⟨history, s₂, hrun, hnow, htable, hquota⟩ :=
    fill hmax hok hnew (by rw [hs, hlength, List.length_singleton]; omega)
  -- The table is full, and the locked key is the oldest.
  set last := [Char.ofNat (0x4e00 + n)]
  have hkeys : s₂.table.map Prod.fst = ['r'] :: (ideographs n).map (lockoutKey t none) := by
    rw [htable, hs, List.map_append, List.map_map]
    rfl
  have hnodup₂ : (s₂.table.map Prod.fst ++ [lockoutKey t none last]).Nodup := by
    rw [hkeys, List.cons_append]
    rw [ideographs_succ, List.map_append] at hnodup
    refine List.nodup_cons.2 ⟨fun hmem => ?_, hnodup⟩
    exact hnotin (ideographs (n + 1)) (by rw [ideographs_succ, List.map_append]; exact hmem)
  have hfull : s₂.table.length = maxTrackedKeys := by
    rw [← List.length_map Prod.fst, hkeys, List.length_cons, List.length_map, hlength, hn]
  have hok₂ : TableOk s₂.table := ⟨hnodup₂.of_append_left, hfull.le⟩
  have habsent : lockoutKey t none last ∉ s₂.table.map Prod.fst := fun hmem =>
    (List.nodup_append.1 hnodup₂).2.2 _ hmem _ (List.mem_singleton.2 rfl) rfl
  have hreserve := @reserveAttempt_new o s₂.table _ s₂.now (s₂.now + (0 : Nat)) hok₂ hmax habsent
  rw [if_neg (by omega)] at hreserve
  obtain ⟨s₃, hstep, hnow₃, htable₃⟩ : ∃ s₃, lockoutStep t o s₂ (.attempt none last 0) = some s₃ ∧ s₃.now = s₂.now ∧
      s₃.table = s₂.table.tail ++ [(lockoutKey t none last, ⟨1, 0⟩)] := ⟨_, rfl, rfl, by simp only [hreserve]⟩
  refine ⟨_, s₃, hrun.append (GuardedRun.step .start trivial hstep), hnow₃.trans hnow, fun q => ?_, ?_⟩
  · have hmove : ∀ q, quotaMove t o ['r'] q ⟨s₂, .attempt none last 0, s₃⟩ = q := by
      intro q
      simp only [quotaMove, lockoutKey_none_ne, false_and, if_false]
    rw [List.foldl_append, hquota _ (hnotin _)]
    exact hmove q
  · have htail : s₂.table.tail.map Prod.fst = (ideographs n).map (lockoutKey t none) := by
      rw [List.map_tail, hkeys, List.tail_cons]
    rw [lookup_eq_none, htable₃, List.map_append, htail]
    intro hmem
    rcases List.mem_append.1 hmem with hmem | hmem
    · exact hnotin _ hmem
    · exact lockoutKey_none_ne t last (List.mem_singleton.1 hmem).symm

/-- A locked account is tried again after ten thousand attempts on other names, with no time passed. -/
theorem locked_key_evicted :
    let t : CaseTable := fun _ c _ => [c]
    ∃ history s, Run (lockoutStep t {}) ⟨0, [], []⟩ history s ∧ (quota t {} ['r'] history).active s.now = true ∧
      (reserveAttempt {} s.table ['r'] s.now s.now).1 = true := by
  intro t
  have hexec : (exec (lockoutStep t {}) ⟨0, [], []⟩ fiveAttempts).any (fun r =>
      r.2.table = [(['r'], ⟨0, 300000⟩)] && (quota t {} ['r'] r.1).active r.2.now) = true := by
    decide +kernel
  obtain ⟨⟨history, s⟩, hexec, hboth⟩ := (Option.any_eq_true _ _).1 hexec
  obtain ⟨htable, hactive⟩ := Bool.and_eq_true_iff.1 hboth
  obtain ⟨history', s', hrun, hnow, hquota, hgone⟩ :=
    @evicts {} (by decide) 9999 rfl s _ (of_decide_eq_true htable)
  refine ⟨_, s', (run_of_exec hexec).append hrun, ?_, ?_⟩
  · rw [quota, List.foldl_append, hquota, hnow]
    exact hactive
  · have hopen : (isLocked s'.table ['r'] s'.now).1 = false := by rw [isLocked, hgone]
    rw [reserveAttempt_open hopen]

end CliServer
