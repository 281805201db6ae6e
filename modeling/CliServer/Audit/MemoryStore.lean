import CliServer.Lib.CappedLog
import CliServer.Lib.MergedPages
import CliServer.Server.ClientAddress

/-!
# The in-memory audit store

`InMemoryAuditStore` keeps the failed sign-ins apart from the other entries, each in a deque with a length of its own;
the entries are numbered as they come, and a query sorts both deques together by number.  So the store is one log, of
which the latest entries of each kind are kept (`Keeps.call`).
-/

namespace CliServer

open CappedLog MergedPages

/-- What the store uses of an `AuditEntry`, and its id; the timestamp is in milliseconds. -/
structure AuditEntry where
  id : Str := []
  timestamp : ℤ
  event : Str := []
  username : Str := []
  actor : Option Str := none
  deriving DecidableEq

/-- `AuditQueryOptions`. -/
structure AuditQueryOptions where
  limit : Option ℤ := none
  event : Option Str := none
  username : Option Str := none
  actor : Option Str := none
  offset : Option ℤ := none
  from_ : Option ℤ := none
  to_ : Option ℤ := none

/-- `FAILED_LOGIN_EVENT`. -/
def failedLoginEvent : Str := "login_failed".toList

def AuditEntry.failedLogin (entry : AuditEntry) : Bool := entry.event = failedLoginEvent

/-- `InMemoryAuditStore`; `seq` is the next number. -/
structure InMemoryAuditStore where
  maxEntries : ℕ
  maxFailedLoginEntries : ℕ
  seq : ℕ := 0
  entries : List (ℕ × AuditEntry) := []
  failed : List (ℕ × AuditEntry) := []

namespace InMemoryAuditStore

/-- `MAX_ENTRIES`. -/
def defaultEntries : ℕ := 1000

/-- `MAX_FAILED_LOGIN_ENTRIES`. -/
def defaultFailedLoginEntries : ℕ := 200

/-- A length that is not positive is replaced. -/
def capacity (n : ℤ) (default : ℕ) : ℕ := if 0 < n then n.toNat else default

/-- `__init__`. -/
def new (maxEntries maxFailedLoginEntries : ℤ) : InMemoryAuditStore where
  maxEntries := capacity maxEntries defaultEntries
  maxFailedLoginEntries := capacity maxFailedLoginEntries defaultFailedLoginEntries

/-- `log`; the deques drop their first items when they are full. -/
def log (s : InMemoryAuditStore) (entry : AuditEntry) : InMemoryAuditStore :=
  if entry.failedLogin then
    { s with seq := s.seq + 1, failed := (s.failed ++ [(s.seq, entry)]).rtake s.maxFailedLoginEntries }
  else { s with seq := s.seq + 1, entries := (s.entries ++ [(s.seq, entry)]).rtake s.maxEntries }

/-- The filter of `event`, `username` and `actor`. -/
def filterText (t : CaseTable) (value : Option Str) (field : AuditEntry → Str) (result : List AuditEntry) :
    List AuditEntry :=
  match value.bind nonEmpty with
  | none => result
  | some value => result.filter fun e => lower t (field e) = lower t value

/-- The filter of `from_` and `to`. -/
def filterTime (value : Option ℤ) (keep : ℤ → AuditEntry → Bool) (result : List AuditEntry) : List AuditEntry :=
  match value with
  | none => result
  | some value => result.filter (keep value)

/-- `offset` and `limit`. -/
def pageOf (offset limit : Option ℤ) (result : List AuditEntry) : List AuditEntry :=
  let result := match offset with
    | some offset => if 0 < offset then result.drop offset.toNat else result
    | none => result
  match limit with
  | some limit => if 0 ≤ limit then result.take limit.toNat else result
  | none => result

/-- `get_entries`. -/
def getEntries (t : CaseTable) (s : InMemoryAuditStore) (options : Option AuditQueryOptions) : List AuditEntry :=
  let result := (newestFirst Prod.fst (s.entries ++ s.failed)).map Prod.snd
  match options with
  | none => result
  | some options =>
    let result := filterText t options.event AuditEntry.event result
    let result := filterText t options.username AuditEntry.username result
    let result := filterText t options.actor (fun e => e.actor.getD []) result
    let result := filterTime options.from_ (fun start e => start ≤ e.timestamp) result
    let result := filterTime options.to_ (fun stop e => e.timestamp < stop) result
    pageOf options.offset options.limit result

/-- A deque without the entries before a time, and how many there were. -/
def pruneDeque (maxlen : ℕ) (before : ℤ) (entries : List (ℕ × AuditEntry)) : List (ℕ × AuditEntry) × ℕ :=
  let kept := entries.filter (before ≤ ·.2.timestamp)
  (kept.rtake maxlen, entries.length - kept.length)

/-- `prune`. -/
def prune (s : InMemoryAuditStore) (before : ℤ) : InMemoryAuditStore × ℕ :=
  let entries := pruneDeque s.maxEntries before s.entries
  let failed := pruneDeque s.maxFailedLoginEntries before s.failed
  ({ s with entries := entries.1, failed := failed.1 }, entries.2 + failed.2)

/-- `clear`. -/
def clear (s : InMemoryAuditStore) : InMemoryAuditStore := { s with entries := [], failed := [] }

end InMemoryAuditStore

/-- A call of the store. -/
inductive AuditCall where
  | log (entry : AuditEntry)
  | prune (before : ℤ)
  | clear

/-- The store after a call. -/
def InMemoryAuditStore.call (s : InMemoryAuditStore) : AuditCall → InMemoryAuditStore
  | .log entry => s.log entry
  | .prune before => (s.prune before).1
  | .clear => s.clear

/-- The store after calls. -/
def InMemoryAuditStore.run (s : InMemoryAuditStore) (calls : List AuditCall) : InMemoryAuditStore := calls.foldl call s

/-! ### One log -/

/-- How many entries of a kind are kept; the kind is whether it is a failed sign-in. -/
def auditCap (maxEntries maxFailedLoginEntries : ℤ) (failedLogin : Bool) : ℕ :=
  if failedLogin then InMemoryAuditStore.capacity maxFailedLoginEntries InMemoryAuditStore.defaultFailedLoginEntries
  else InMemoryAuditStore.capacity maxEntries InMemoryAuditStore.defaultEntries

/-- The latest entries of each kind. -/
abbrev latestEntries (cap : Bool → ℕ) : List AuditEntry → List AuditEntry := latest AuditEntry.failedLogin cap

/-- The entries that are kept, the oldest first, after a call. -/
def auditLogCall (cap : Bool → ℕ) (log : List AuditEntry) : AuditCall → List AuditEntry
  | .log entry => latestEntries cap (log ++ [entry])
  | .prune before => log.filter (before ≤ ·.timestamp)
  | .clear => []

def auditLog (cap : Bool → ℕ) (calls : List AuditCall) : List AuditEntry := calls.foldl (auditLogCall cap) []

/-- The entries that no call removed, with no caps. -/
def survivingCall (log : List AuditEntry) : AuditCall → List AuditEntry
  | .log entry => log ++ [entry]
  | .prune before => log.filter (before ≤ ·.timestamp)
  | .clear => []

def surviving (calls : List AuditCall) : List AuditEntry := calls.foldl survivingCall []

/-- The entries in the order in which they are recorded. -/
def recordedEntries (calls : List AuditCall) : List AuditEntry :=
  calls.filterMap fun call => match call with
    | .log entry => some entry
    | _ => none

/-- What is selected. -/
def AuditQueryOptions.Matches (t : CaseTable) (options : AuditQueryOptions) (e : AuditEntry) : Bool :=
  ((options.event.bind nonEmpty).all fun value => lower t e.event = lower t value) &&
  ((options.username.bind nonEmpty).all fun value => lower t e.username = lower t value) &&
  ((options.actor.bind nonEmpty).all fun value => lower t (e.actor.getD []) = lower t value) &&
  (options.from_.all (· ≤ e.timestamp)) &&
  options.to_.all (e.timestamp < ·)

/-- The query of a log. -/
def queryLog (t : CaseTable) (log : List AuditEntry) (options : AuditQueryOptions) : List AuditEntry :=
  InMemoryAuditStore.pageOf options.offset options.limit (log.reverse.filter (options.Matches t))

/-! ### The store keeps its log -/

/-- The kind of a numbered entry. -/
abbrev numberedKind (item : ℕ × AuditEntry) : Bool := item.2.failedLogin

/-- The store has the parts of a numbered log, which is within the caps. -/
structure Keeps (cap : Bool → ℕ) (numbered : List (ℕ × AuditEntry)) (s : InMemoryAuditStore) : Prop where
  ordered : numbered.Pairwise fun x y => x.1 < y.1
  next : ∀ x ∈ numbered, x.1 < s.seq
  parts : s.entries = numbered.filter (numberedKind · = false) ∧ s.failed = numbered.filter (numberedKind · = true)
  caps : s.maxEntries = cap false ∧ s.maxFailedLoginEntries = cap true
  within : ∀ kind, numbered.countP (numberedKind · = kind) ≤ cap kind

private theorem rtake_of_length_le {α : Type*} {l : List α} {n : ℕ} (h : l.length ≤ n) : l.rtake n = l := by
  rw [List.rtake, Nat.sub_eq_zero_of_le h, List.drop_zero]

namespace Keeps

variable {cap : Bool → ℕ} {numbered : List (ℕ × AuditEntry)} {s : InMemoryAuditStore}

theorem new (maxEntries maxFailedLoginEntries : ℤ) :
    Keeps (auditCap maxEntries maxFailedLoginEntries) [] (.new maxEntries maxFailedLoginEntries) where
  ordered := List.Pairwise.nil
  next := fun _ hx => absurd hx List.not_mem_nil
  parts := ⟨rfl, rfl⟩
  caps := ⟨rfl, rfl⟩
  within := fun _ => Nat.zero_le _

/-- The part of a kind when an entry is added: it changes only if the entry is of the kind. -/
private theorem part_log (h : Keeps cap numbered s) (item : ℕ × AuditEntry) (kind : Bool) :
    (latest numberedKind cap (numbered ++ [item])).filter (numberedKind · = kind) =
      if numberedKind item = kind then (numbered.filter (numberedKind · = kind) ++ [item]).rtake (cap kind)
      else numbered.filter (numberedKind · = kind) := by
  have hwithin := h.within kind
  rw [List.countP_eq_length_filter] at hwithin
  rw [filter_latest, List.filter_append]
  split
  · next hkind => rw [List.filter_singleton, decide_eq_true hkind, cond_true]
  · next hkind => rw [List.filter_singleton, decide_eq_false hkind, cond_false, List.append_nil,
      rtake_of_length_le hwithin]

theorem log (h : Keeps cap numbered s) (entry : AuditEntry) :
    Keeps cap (latest numberedKind cap (numbered ++ [(s.seq, entry)])) (s.log entry) := by
  have hordered : (numbered ++ [(s.seq, entry)]).Pairwise fun x y => x.1 < y.1 :=
    List.pairwise_append.2
      ⟨h.ordered, List.pairwise_singleton _ _, fun x hx y hy => List.mem_singleton.1 hy ▸ h.next x hx⟩
  have hnext : ∀ x ∈ numbered ++ [(s.seq, entry)], x.1 < s.seq + 1 := by
    intro x hx
    rcases List.mem_append.1 hx with hx | hx
    · exact (h.next x hx).trans (Nat.lt_succ_self _)
    · rw [List.mem_singleton.1 hx]
      exact Nat.lt_succ_self _
  have hsub : (latest numberedKind cap (numbered ++ [(s.seq, entry)])).Sublist (numbered ++ [(s.seq, entry)]) :=
    latest_sublist _
  refine ⟨hordered.sublist hsub, fun x hx => ?_, ?_, ?_, fun kind => (countP_latest _ kind).trans_le (min_le_left _ _)⟩
  · have hlt := hnext x (hsub.subset hx)
    unfold InMemoryAuditStore.log
    split <;> exact hlt
  · rw [h.part_log, h.part_log]
    unfold InMemoryAuditStore.log
    cases hkind : entry.failedLogin
    · simp [hkind, h.parts.1, h.parts.2, h.caps.1]
    · simp [hkind, h.parts.1, h.parts.2, h.caps.2]
  · unfold InMemoryAuditStore.log
    split <;> exact h.caps

private theorem length_parts (l : List (ℕ × AuditEntry)) :
    (l.filter (numberedKind · = false)).length + (l.filter (numberedKind · = true)).length = l.length := by
  rw [List.length_eq_length_filter_add (l := l) (numberedKind · = false)]
  congr 2
  exact List.filter_congr fun x _ => by simp

/-- The pruning of a part. -/
private theorem pruneDeque_eq {l : List (ℕ × AuditEntry)} {maxlen : ℕ} (hlength : l.length ≤ maxlen) (before : ℤ) :
    InMemoryAuditStore.pruneDeque maxlen before l =
      (l.filter (before ≤ ·.2.timestamp), (l.filter (·.2.timestamp < before)).length) := by
  have hkept := (List.length_filter_le (fun x : ℕ × AuditEntry => decide (before ≤ x.2.timestamp)) l).trans hlength
  have hsum := List.length_eq_length_filter_add (l := l) fun x : ℕ × AuditEntry => decide (before ≤ x.2.timestamp)
  have hold : l.filter (fun x => !decide (before ≤ x.2.timestamp)) = l.filter (·.2.timestamp < before) :=
    List.filter_congr fun x _ => by rw [← decide_not, decide_eq_decide, not_le]
  rw [hold] at hsum
  rw [InMemoryAuditStore.pruneDeque, rtake_of_length_le hkept, Prod.mk.injEq]
  refine ⟨rfl, ?_⟩
  omega

theorem prune (h : Keeps cap numbered s) (before : ℤ) :
    Keeps cap (numbered.filter (before ≤ ·.2.timestamp)) (s.prune before).1 ∧
    (s.prune before).2 = (numbered.filter (·.2.timestamp < before)).length := by
  have hsub : (numbered.filter (before ≤ ·.2.timestamp)).Sublist numbered := List.filter_sublist
  have hlength : ∀ kind, (numbered.filter (numberedKind · = kind)).length ≤ cap kind := fun kind => by
    rw [← List.countP_eq_length_filter]
    exact h.within kind
  have hentries : InMemoryAuditStore.pruneDeque s.maxEntries before s.entries = _ :=
    pruneDeque_eq (by rw [h.parts.1, h.caps.1]; exact hlength false) before
  have hfailed : InMemoryAuditStore.pruneDeque s.maxFailedLoginEntries before s.failed = _ :=
    pruneDeque_eq (by rw [h.parts.2, h.caps.2]; exact hlength true) before
  rw [InMemoryAuditStore.prune, hentries, hfailed, h.parts.1, h.parts.2]
  refine ⟨⟨h.ordered.sublist hsub, fun x hx => h.next x (hsub.subset hx), ?_, h.caps, fun kind =>
    hsub.countP_le.trans (h.within kind)⟩, ?_⟩
  · exact ⟨List.filter_comm .., List.filter_comm ..⟩
  · rw [← length_parts (numbered.filter _)]
    exact congrArg₂ (· + ·) (congrArg List.length (List.filter_comm ..)) (congrArg List.length (List.filter_comm ..))

theorem clear (h : Keeps cap numbered s) : Keeps cap [] s.clear where
  ordered := List.Pairwise.nil
  next := fun _ hx => absurd hx List.not_mem_nil
  parts := ⟨rfl, rfl⟩
  caps := h.caps
  within := fun _ => Nat.zero_le _

/-- A call on the store is a call on its log. -/
theorem call (h : Keeps cap numbered s) (call : AuditCall) :
    ∃ numbered', Keeps cap numbered' (s.call call) ∧
      numbered'.map Prod.snd = auditLogCall cap (numbered.map Prod.snd) call := by
  cases call with
  | log entry =>
    refine ⟨_, h.log entry, ?_⟩
    have hlog : numbered.map Prod.snd ++ [entry] = (numbered ++ [(s.seq, entry)]).map Prod.snd := by
      rw [List.map_append, List.map_singleton]
    rw [auditLogCall, latestEntries, hlog, latest_map]
  | prune before =>
    refine ⟨_, (h.prune before).1, ?_⟩
    rw [auditLogCall, List.filter_map]
    rfl
  | clear => exact ⟨_, h.clear, rfl⟩

end Keeps

/-- Calls keep the store on its log. -/
private theorem run_keeps (maxEntries maxFailedLoginEntries : ℤ) (calls : List AuditCall) :
    ∃ numbered, Keeps (auditCap maxEntries maxFailedLoginEntries) numbered
      ((InMemoryAuditStore.new maxEntries maxFailedLoginEntries).run calls) ∧
      numbered.map Prod.snd = auditLog (auditCap maxEntries maxFailedLoginEntries) calls := by
  induction calls using List.reverseRecOn with
  | nil => exact ⟨[], Keeps.new _ _, rfl⟩
  | append_singleton calls call ih =>
    obtain ⟨numbered, hkeeps, hlog⟩ := ih
    obtain ⟨numbered', hkeeps', hlog'⟩ := hkeeps.call call
    refine ⟨numbered', ?_, ?_⟩
    · rw [InMemoryAuditStore.run, List.foldl_append]
      exact hkeeps'
    · rw [hlog', hlog, auditLog, auditLog, List.foldl_append]
      rfl

/-! ### Queries -/

section Queries

variable {t : CaseTable}

private theorem filterText_eq (value : Option Str) (field : AuditEntry → Str) (result : List AuditEntry) :
    InMemoryAuditStore.filterText t value field result =
      result.filter fun e => (value.bind nonEmpty).all fun value => lower t (field e) = lower t value := by
  unfold InMemoryAuditStore.filterText
  split
  · next h => simp [h]
  · next h => simp [h]

private theorem filterTime_eq (value : Option ℤ) (keep : ℤ → AuditEntry → Bool) (result : List AuditEntry) :
    InMemoryAuditStore.filterTime value keep result = result.filter fun e => value.all fun value => keep value e := by
  cases value <;> simp [InMemoryAuditStore.filterTime]

/-- The filters together. -/
private theorem filters_eq (options : AuditQueryOptions) (result : List AuditEntry) :
    InMemoryAuditStore.filterTime options.to_ (fun stop e => e.timestamp < stop)
      (InMemoryAuditStore.filterTime options.from_ (fun start e => start ≤ e.timestamp)
        (InMemoryAuditStore.filterText t options.actor (fun e => e.actor.getD [])
          (InMemoryAuditStore.filterText t options.username AuditEntry.username
            (InMemoryAuditStore.filterText t options.event AuditEntry.event result)))) =
            result.filter (options.Matches t) := by
  rw [filterText_eq, filterText_eq, filterText_eq, filterTime_eq, filterTime_eq, List.filter_filter, List.filter_filter,
    List.filter_filter, List.filter_filter]
  refine List.filter_congr fun e _ => ?_
  simp only [AuditQueryOptions.Matches]
  ac_rfl

/-- Sorted by number, the two parts are the log again, the newest first. -/
private theorem Keeps.newestFirst_parts {cap : Bool → ℕ} {numbered : List (ℕ × AuditEntry)} {s : InMemoryAuditStore}
    (h : Keeps cap numbered s) : newestFirst Prod.fst (s.entries ++ s.failed) = numbered.reverse := by
  have hdescending : Descending Prod.fst numbered.reverse := List.pairwise_reverse.2 h.ordered
  have hparts : (numbered.filter (numberedKind · = false) ++ numbered.filter (numberedKind · = true)).Perm
      numbered := by
    have htrue : numbered.filter (numberedKind · = true) = numbered.filter fun x => !decide (numberedKind x = false) :=
      List.filter_congr fun x _ => by simp
    rw [htrue]
    exact List.filter_append_perm _ _
  rw [h.parts.1, h.parts.2]
  exact newestFirst_eq hdescending (hparts.trans (List.reverse_perm _).symm)

private theorem Keeps.getEntries {cap : Bool → ℕ} {numbered : List (ℕ × AuditEntry)} {s : InMemoryAuditStore}
    (h : Keeps cap numbered s) (options : Option AuditQueryOptions) :
    s.getEntries t options = options.elim (numbered.map Prod.snd).reverse (queryLog t (numbered.map Prod.snd)) := by
  unfold InMemoryAuditStore.getEntries
  rw [h.newestFirst_parts, List.map_reverse]
  cases options with
  | none => rfl
  | some options => exact congrArg (InMemoryAuditStore.pageOf options.offset options.limit) (filters_eq options _)

/-- The pages of some sizes, one after the other from an offset. -/
def auditPages (t : CaseTable) (s : InMemoryAuditStore) (options : AuditQueryOptions) :
    ℕ → List ℕ → List (List AuditEntry)
  | _, [] => []
  | offset, limit :: sizes =>
    s.getEntries t (some { options with offset := some offset, limit := some limit }) ::
      auditPages t s options (offset + limit) sizes

private theorem pageOf_nat (offset limit : ℕ) (result : List AuditEntry) :
    InMemoryAuditStore.pageOf (some offset) (some limit) result = (result.drop offset).take limit := by
  have hdrop : (if (0 : ℤ) < offset then result.drop (offset : ℤ).toNat else result) = result.drop offset := by
    rcases Nat.eq_zero_or_pos offset with rfl | hpos
    · rfl
    · rw [if_pos (by omega), Int.toNat_natCast]
  rw [InMemoryAuditStore.pageOf, hdrop, if_pos (Int.natCast_nonneg limit), Int.toNat_natCast]

/-- The pages are the listing, cut where they end. -/
theorem Keeps.pages {cap : Bool → ℕ} {numbered : List (ℕ × AuditEntry)} {s : InMemoryAuditStore}
    (h : Keeps cap numbered s) (options : AuditQueryOptions) (offset : ℕ) (sizes : List ℕ) :
    (auditPages t s options offset sizes).flatten =
      ((s.getEntries t (some { options with offset := none, limit := none })).drop offset).take sizes.sum := by
  have hall : s.getEntries t (some { options with offset := none, limit := none }) =
      (numbered.map Prod.snd).reverse.filter (options.Matches t) := h.getEntries _
  rw [hall]
  induction sizes generalizing offset with
  | nil => rfl
  | cons limit sizes ih =>
    have hpage : s.getEntries t (some { options with offset := some (offset : ℤ), limit := some (limit : ℤ) }) =
        (((numbered.map Prod.snd).reverse.filter (options.Matches t)).drop offset).take limit :=
      (h.getEntries _).trans (pageOf_nat _ _ _)
    rw [auditPages, List.flatten_cons, hpage, ih, List.sum_cons, List.take_add, List.drop_drop]

end Queries

private theorem surviving_sublist (calls : List AuditCall) : (surviving calls).Sublist (recordedEntries calls) := by
  induction calls using List.reverseRecOn with
  | nil => exact List.Sublist.refl _
  | append_singleton calls call ih =>
    rw [surviving, List.foldl_append, recordedEntries, List.filterMap_append]
    cases call with
    | log entry => exact ih.append_right _
    | prune before => exact (List.filter_sublist.trans ih).trans (List.sublist_append_left _ _)
    | clear => exact List.nil_sublist _

/-- Of entries that come in the order of their timestamps, the latest that survive are the same whether the others are
dropped at once or at the end. -/
private theorem auditLog_of_sorted {cap : Bool → ℕ} {calls : List AuditCall}
    (h : (recordedEntries calls).Pairwise fun e e' => e.timestamp ≤ e'.timestamp) :
    auditLog cap calls = latestEntries cap (surviving calls) := by
  induction calls using List.reverseRecOn with
  | nil => rfl
  | append_singleton calls call ih =>
    rw [recordedEntries, List.filterMap_append] at h
    have hcalls := h.sublist (List.sublist_append_left _ _)
    have hlog : auditLog cap (calls ++ [call]) = auditLogCall cap (latestEntries cap (surviving calls)) call := by
      rw [← ih hcalls, auditLog, List.foldl_append]
      rfl
    have hsurviving : surviving (calls ++ [call]) = survivingCall (surviving calls) call := by
      rw [surviving, List.foldl_append]
      rfl
    rw [hlog, hsurviving]
    cases call with
    | log entry => exact latest_latest_append _ _
    | prune before => exact filter_latest_of_sorted (hcalls.sublist (surviving_sublist calls)) before
    | clear => rfl

/-- A failed sign-in leaves the other entries. -/
private theorem filter_auditLog_failedLogin {cap : Bool → ℕ} {log : List AuditEntry} {entry : AuditEntry}
    (hwithin : log.countP (·.failedLogin = false) ≤ cap false) (hentry : entry.failedLogin = true) :
    (auditLogCall cap log (.log entry)).filter (·.failedLogin = false) = log.filter (·.failedLogin = false) := by
  rw [List.countP_eq_length_filter] at hwithin
  have hkind : ¬ entry.failedLogin = false := by simp [hentry]
  rw [auditLogCall, latestEntries, filter_latest, List.filter_append, List.filter_singleton, decide_eq_false hkind,
    cond_false, List.append_nil, rtake_of_length_le hwithin]

/-- The store, after any calls, is its log: queries are queries of the log, and pages cut one listing; the log has the
latest entries of what survives, if the entries are recorded in the order of their timestamps; a failed sign-in drops no
other entry; and `prune` removes what is old and gives its number. -/
theorem getEntries_auditLog (t : CaseTable) (maxEntries maxFailedLoginEntries : ℤ) (calls : List AuditCall) :
    let cap := auditCap maxEntries maxFailedLoginEntries
    let s := (InMemoryAuditStore.new maxEntries maxFailedLoginEntries).run calls
    let log := auditLog cap calls
    (∀ options, s.getEntries t options = options.elim log.reverse (queryLog t log)) ∧
    ((recordedEntries calls).Pairwise (fun e e' => e.timestamp ≤ e'.timestamp) →
     log = latestEntries cap (surviving calls)) ∧
    (∀ entry, entry.failedLogin = true →
      (auditLog cap (calls ++ [.log entry])).filter (·.failedLogin = false) = log.filter (·.failedLogin = false)) ∧
    (∀ options sizes, (auditPages t s options 0 sizes).flatten =
      (s.getEntries t (some { options with offset := none, limit := none })).take sizes.sum) ∧
    ∀ before, (s.prune before).2 = (log.filter (·.timestamp < before)).length ∧
      ∀ options, (s.prune before).1.getEntries t options =
        options.elim (log.filter (before ≤ ·.timestamp)).reverse (queryLog t (log.filter (before ≤ ·.timestamp))) := by
  intro cap s log
  obtain ⟨numbered, hkeeps, hlog⟩ := run_keeps maxEntries maxFailedLoginEntries calls
  have hlog : numbered.map Prod.snd = log := hlog
  refine ⟨fun options => ?_, auditLog_of_sorted, fun entry hentry => ?_, fun options sizes => ?_, fun before => ?_⟩
  · rw [← hlog]
    exact hkeeps.getEntries options
  · have hwithin : log.countP (·.failedLogin = false) ≤ cap false := by
      rw [← hlog, List.countP_map]
      exact hkeeps.within false
    have hafter : auditLog cap (calls ++ [.log entry]) = auditLogCall cap log (.log entry) := by
      rw [auditLog, List.foldl_append]
      rfl
    rw [hafter]
    exact filter_auditLog_failedLogin hwithin hentry
  · exact hkeeps.pages options 0 sizes
  · obtain ⟨hpruned, hnumber⟩ := hkeeps.prune before
    constructor
    · rw [hnumber, ← hlog, List.filter_map, List.length_map]
      rfl
    · intro options
      have hlist : (numbered.filter (before ≤ ·.2.timestamp)).map Prod.snd = log.filter (before ≤ ·.timestamp) := by
        rw [← hlog, List.filter_map]
        rfl
      rw [← hlist]
      exact hpruned.getEntries options

section

private def auditedAt (timestamp : ℤ) : AuditEntry := { timestamp := timestamp, event := "user_created".toList }

private def evicting : List AuditCall := [.log (auditedAt 10), .log (auditedAt 1), .prune 5]

/-- An entry that was evicted does not come back when the one that evicted it is pruned. -/
theorem evicted_not_listed :
    ¬ ∀ (t : CaseTable) (maxEntries maxFailedLoginEntries : ℤ) (calls : List AuditCall),
      ((InMemoryAuditStore.new maxEntries maxFailedLoginEntries).run calls).getEntries t none =
        (latestEntries (auditCap maxEntries maxFailedLoginEntries) (surviving calls)).reverse := by
  intro hall
  obtain ⟨numbered, hkeeps, hlog⟩ := run_keeps 1 1 evicting
  have hlisted := hall (fun _ _ _ => []) 1 1 evicting
  rw [hkeeps.getEntries, hlog] at hlisted
  exact absurd hlisted (by decide)

end

end CliServer
