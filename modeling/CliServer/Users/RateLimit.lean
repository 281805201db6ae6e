import CliServer.Lib.BoundedTable
import CliServer.Lib.SlidingWindow
import CliServer.Server.ClientAddress
import CliServer.Users.Lockout

/-!
# The rate limit

`check_rate_limit` keeps for each client address the times of its accepted calls.  A call is rejected exactly when as
many calls of its address as the limit allows were accepted within the window, as long as a new address does not push
one whose calls still count out of the table (`rate_limit_exact`); ten thousand other addresses do
(`rate_limit_evaded`).
-/

namespace CliServer

open Transition SlidingWindow

structure RateLimitOptions where
  rateLimitAttempts : Int := 20
  rateLimitWindowMs : Int := 60 * 1000
  trustProxy : TrustProxy := .bool false

/-- What a request says about its client: the `X-Forwarded-For` lines and the peer's host, if there is one. -/
structure RateRequest where
  forwardedFor : List Str
  client : Option Str

/-- `_rate`, oldest address first. -/
abbrev RateTable := List (Str × List Int)

variable (o : RateLimitOptions)

/-- `client_ip`. -/
def clientIp (request : RateRequest) : Str :=
  match UsersPlugin.forwardedClientIp request.forwardedFor o.trustProxy with
  | some forwarded => forwarded
  | none => (request.client.bind nonEmpty).getD "unknown".toList

/-- `check_rate_limit`: whether the call is accepted, and the table after it. -/
def checkRateLimit (table : RateTable) (request : RateRequest) (now : Int) : Bool × RateTable :=
  let ip := clientIp o request
  let table := BoundedTable.track maxTrackedKeys table ip []
  let window := ((BoundedTable.find? table ip).getD []).dropWhile (· ≤ now - o.rateLimitWindowMs)
  if o.rateLimitAttempts ≤ window.length then (false, BoundedTable.set table ip window)
  else (true, BoundedTable.set table ip (window ++ [now]))

/-- The clock and the table. -/
structure RateLimiter where
  now : Int
  table : RateTable

inductive RateAction where
  | call (request : RateRequest)
  | tick (ms : Nat)

def rateStep (s : RateLimiter) : RateAction → Option RateLimiter
  | .call request => some { s with table := (checkRateLimit o s.table request s.now).2 }
  | .tick ms => some { s with now := s.now + ms }

/-! ### The calls of an address -/

/-- The time of a move that is an accepted call of the address. -/
def acceptedCall (ip : Str) (m : Move RateLimiter RateAction) : Option Int :=
  match m.act with
  | .call request =>
    if clientIp o request = ip ∧ (checkRateLimit o m.pre.table request m.pre.now).1 = true then some m.pre.now else none
  | .tick _ => none

/-- The times of the accepted calls of an address. -/
def accepted (ip : Str) (history : List (Move RateLimiter RateAction)) : List Int :=
  history.filterMap (acceptedCall o ip)

/-- A call of a new address comes when the table has room, or no call of the oldest address counts any more. -/
def SparesCalls (s : RateLimiter) : RateAction → Prop
  | .call request => BoundedTable.find? s.table (clientIp o request) = none → maxTrackedKeys ≤ s.table.length →
      ∀ e ∈ s.table.head?, recent o.rateLimitWindowMs s.now e.2 = []
  | .tick _ => True

/-- The table's entry for an address lists the accepted calls that still count. -/
structure EntryCounts (now : Int) (entry : Option (List Int)) (times : List Int) : Prop where
  sorted : (entry.getD []).Pairwise (· ≤ ·)
  le_now : ∀ t ∈ entry.getD [], t ≤ now
  counts : recent o.rateLimitWindowMs now (entry.getD []) = recent o.rateLimitWindowMs now times

/-- The times of the accepted calls of an address: in order, and no more of them at a time than the limit allows. -/
structure WithinLimit (now : Int) (times : List Int) : Prop where
  sorted : times.Pairwise (· ≤ ·)
  le_now : ∀ t ∈ times, t ≤ now
  limited : Limited o.rateLimitWindowMs o.rateLimitAttempts.toNat times

/-- The invariant of the table. -/
structure RatesKept (history : List (Move RateLimiter RateAction)) (s : RateLimiter) : Prop where
  fits : BoundedTable.Fits maxTrackedKeys s.table
  counted : ∀ ip, EntryCounts o s.now (BoundedTable.find? s.table ip) (accepted o ip history)
  within : ∀ ip, WithinLimit o s.now (accepted o ip history)

variable {o} {now later : Int} {entry : Option (List Int)} {times : List Int} {s s' : RateLimiter}
  {history : List (Move RateLimiter RateAction)}

private theorem accepted_concat (ip : Str) (m : Move RateLimiter RateAction) :
    accepted o ip (history ++ [m]) = accepted o ip history ++ (acceptedCall o ip m).toList := by
  unfold accepted
  rw [List.filterMap_append]
  cases h : acceptedCall o ip m with
  | none => simp [h]
  | some t => simp [h]

theorem EntryCounts.mono (h : EntryCounts o now entry times) (hle : now ≤ later) : EntryCounts o later entry times := by
  refine ⟨h.sorted, fun t ht => (h.le_now t ht).trans hle, ?_⟩
  rw [← recent_recent hle, h.counts, recent_recent hle]

theorem WithinLimit.mono (h : WithinLimit o now times) (hle : now ≤ later) : WithinLimit o later times :=
  ⟨h.sorted, fun t ht => (h.le_now t ht).trans hle, h.limited⟩

/-- An entry that is dropped when none of its calls counts, or one that was never there. -/
theorem EntryCounts.dropped (h : EntryCounts o now entry times)
    (hnone : recent o.rateLimitWindowMs now (entry.getD []) = []) :
    EntryCounts o now none times := by
  refine ⟨List.Pairwise.nil, fun t ht => (by cases ht), ?_⟩
  rw [← h.counts, hnone]
  rfl

/-- The calls that still count, without the others. -/
theorem EntryCounts.drop (h : EntryCounts o now entry times) :
    (entry.getD []).dropWhile (· ≤ now - o.rateLimitWindowMs) = recent o.rateLimitWindowMs now times ∧
    EntryCounts o now (some (recent o.rateLimitWindowMs now times)) times := by
  have hdrop : (entry.getD []).dropWhile (· ≤ now - o.rateLimitWindowMs) =
      recent o.rateLimitWindowMs now (entry.getD []) := dropWhile_eq_recent h.sorted
  rw [hdrop, h.counts]
  refine ⟨rfl, ?_, fun t ht => ?_, recent_recent le_rfl⟩
  · rw [Option.getD_some, ← h.counts]
    exact h.sorted.sublist List.filter_sublist
  · rw [Option.getD_some, ← h.counts] at ht
    exact h.le_now t (List.mem_of_mem_filter ht)

/-- One more accepted call. -/
theorem EntryCounts.accept (h : EntryCounts o now (some times') times) :
    EntryCounts o now (some (times' ++ [now])) (times ++ [now]) := by
  refine ⟨?_, fun t ht => ?_, ?_⟩
  · rw [Option.getD_some, List.pairwise_append]
    refine ⟨h.sorted, List.pairwise_singleton _ _, fun t ht t' ht' => ?_⟩
    obtain rfl := List.mem_singleton.1 ht'
    exact h.le_now t ht
  · rw [Option.getD_some] at ht
    rcases List.mem_append.1 ht with ht | ht
    · exact h.le_now t ht
    · exact (List.mem_singleton.1 ht).le
  · have hrecent := h.counts
    rw [Option.getD_some] at hrecent ⊢
    rw [recent_append, recent_append, hrecent]

theorem WithinLimit.accept (h : WithinLimit o now times)
    (hlt : ¬ o.rateLimitAttempts ≤ (recent o.rateLimitWindowMs now times).length) :
    WithinLimit o now (times ++ [now]) := by
  refine ⟨?_, fun t ht => ?_, h.limited.concat (by omega)⟩
  · rw [List.pairwise_append]
    refine ⟨h.sorted, List.pairwise_singleton _ _, fun t ht t' ht' => ?_⟩
    obtain rfl := List.mem_singleton.1 ht'
    exact h.le_now t ht
  · rcases List.mem_append.1 ht with ht | ht
    · exact h.le_now t ht
    · exact (List.mem_singleton.1 ht).le

private theorem maxTrackedKeys_pos : 0 < maxTrackedKeys := by decide

/-- Tracking an address keeps what the table has on each. -/
theorem RatesKept.track (h : RatesKept o history s) {request : RateRequest} (hspares : SparesCalls o s (.call request))
    (ip : Str) : EntryCounts o s.now
      (BoundedTable.find? (BoundedTable.track maxTrackedKeys s.table (clientIp o request) []) ip)
      (accepted o ip history) := by
  have hcounted := h.counted ip
  rcases BoundedTable.find?_track h.fits maxTrackedKeys_pos (clientIp o request) ip ([] : List Int) with
    hkept | ⟨-, hgone, hnew, hfull, e, he, rfl⟩
  · rw [hkept]
    split
    · rename_i hip
      subst hip
      cases hentry : BoundedTable.find? s.table (clientIp o request) with
      | none =>
        rw [hentry] at hcounted
        exact ⟨hcounted.sorted, hcounted.le_now, hcounted.counts⟩
      | some times =>
        rw [hentry] at hcounted
        exact hcounted
    · exact hcounted
  · rw [hgone]
    refine hcounted.dropped ?_
    have hentry : BoundedTable.find? s.table e.1 = some e.2 := by
      cases htable : s.table with
      | nil => rw [htable] at he; cases he
      | cons e' rest =>
        rw [htable] at he
        obtain rfl := Option.some.inj he
        rw [BoundedTable.find?_cons, if_pos rfl]
    rw [hentry]
    exact hspares hnew hfull e he

/-- A call is rejected when as many calls of the address count as the limit allows. -/
theorem RatesKept.check (h : RatesKept o history s) {request : RateRequest}
    (hspares : SparesCalls o s (.call request)) :
    checkRateLimit o s.table request s.now =
      let table := BoundedTable.track maxTrackedKeys s.table (clientIp o request) []
      let window := recent o.rateLimitWindowMs s.now (accepted o (clientIp o request) history)
      if o.rateLimitAttempts ≤ window.length then (false, BoundedTable.set table (clientIp o request) window)
      else (true, BoundedTable.set table (clientIp o request) (window ++ [s.now])) := by
  unfold checkRateLimit
  dsimp only
  rw [((h.track hspares (clientIp o request)).drop).1]

private theorem find?_track_self (h : RatesKept o history s) (request : RateRequest) :
    ∃ times, BoundedTable.find? (BoundedTable.track maxTrackedKeys s.table (clientIp o request) [])
      (clientIp o request) = some times := by
  rcases BoundedTable.find?_track h.fits maxTrackedKeys_pos (clientIp o request) (clientIp o request)
    ([] : List Int) with
    hkept | ⟨hne, -⟩
  · rw [if_pos rfl] at hkept
    exact ⟨_, hkept⟩
  · exact absurd rfl hne

theorem RatesKept.call (h : RatesKept o history s) {request : RateRequest} (hspares : SparesCalls o s (.call request)) :
    RatesKept o (history ++ [⟨s, .call request, { s with table := (checkRateLimit o s.table request s.now).2 }⟩])
      { s with table := (checkRateLimit o s.table request s.now).2 } := by
  have hcheck := h.check hspares
  have htrack := h.track hspares
  obtain ⟨entry, hself⟩ := find?_track_self h request
  have hfits := h.fits.track maxTrackedKeys_pos (clientIp o request) ([] : List Int)
  set ip := clientIp o request with hip
  set table := BoundedTable.track maxTrackedKeys s.table ip []
  have hwindow := (htrack ip).drop.2
  set window := recent o.rateLimitWindowMs s.now (accepted o ip history)
  have hmove : ∀ k s', acceptedCall o k ⟨s, .call request, s'⟩ =
      if ip = k ∧ (checkRateLimit o s.table request s.now).1 = true then some s.now else none := fun _ _ => rfl
  -- What the table has on an address after the call, by the new window of the caller.
  have hset : ∀ value k, BoundedTable.find? (BoundedTable.set table ip value) k =
      if k = ip then some value else BoundedTable.find? table k := by
    intro value k
    rw [BoundedTable.find?_set]
    split
    · rename_i hk
      rw [hk, hself]
      rfl
    · rfl
  dsimp only at hcheck
  by_cases hfull : o.rateLimitAttempts ≤ window.length
  · rw [if_pos hfull] at hcheck
    have hsame : ∀ k s', accepted o k (history ++ [⟨s, .call request, s'⟩]) = accepted o k history := by
      intro k s'
      rw [accepted_concat, hmove, hcheck]
      simp
    refine ⟨by rw [hcheck]; exact hfits.set _ _, fun k => ?_, fun k => ?_⟩
    · rw [hsame, hcheck, hset]
      split
      · rename_i hk
        rw [hk]
        exact hwindow
      · exact htrack k
    · rw [hsame]
      exact h.within k
  · rw [if_neg hfull] at hcheck
    have hmore : ∀ k s', accepted o k (history ++ [⟨s, .call request, s'⟩]) =
        accepted o k history ++ if k = ip then [s.now] else [] := by
      intro k s'
      rw [accepted_concat, hmove, hcheck]
      by_cases hk : k = ip
      · simp [hk]
      · have hne : ip ≠ k := fun heq => hk heq.symm
        simp [hk, hne]
    refine ⟨by rw [hcheck]; exact hfits.set _ _, fun k => ?_, fun k => ?_⟩
    · rw [hmore, hcheck, hset]
      split
      · rename_i hk
        rw [hk]
        exact hwindow.accept
      · rw [List.append_nil]
        exact htrack k
    · rw [hmore]
      split
      · rename_i hk
        rw [hk]
        exact (h.within ip).accept hfull
      · rw [List.append_nil]
        exact h.within k

theorem RatesKept.step {a : RateAction} (h : RatesKept o history s) (hspares : SparesCalls o s a)
    (hst : rateStep o s a = some s') : RatesKept o (history ++ [⟨s, a, s'⟩]) s' := by
  cases a with
  | call request =>
    obtain rfl := Option.some.inj hst
    exact h.call hspares
  | tick ms =>
    obtain rfl := Option.some.inj hst
    have hle : s.now ≤ s.now + ms := by omega
    have hsame : ∀ ip t, accepted o ip (history ++ [⟨s, .tick ms, t⟩]) = accepted o ip history := by
      intro ip t
      rw [accepted_concat]
      simp [acceptedCall]
    refine ⟨h.fits, fun ip => ?_, fun ip => ?_⟩
    · rw [hsame]
      exact (h.counted ip).mono hle
    · rw [hsame]
      exact (h.within ip).mono hle

private theorem ratesKept_start (o : RateLimitOptions) (now : Int) : RatesKept o [] ⟨now, []⟩ := by
  refine ⟨⟨List.nodup_nil, Nat.zero_le _⟩, fun ip => ⟨List.Pairwise.nil, fun t ht => (by cases ht), rfl⟩,
    fun ip => ⟨List.Pairwise.nil, fun t ht => (by cases ht), fun before t after h => ?_⟩⟩
  have hlength := congrArg List.length h
  simp [accepted] at hlength

/-- In a run in which no address is dropped from the table while calls of it count, a call is rejected exactly when as
many calls of its address as the limit allows were accepted within the window, and no window holds more. -/
theorem rate_limit_exact {o : RateLimitOptions} {now : Int} {history : List (Move RateLimiter RateAction)}
    {s : RateLimiter} (h : GuardedRun (rateStep o) (SparesCalls o) ⟨now, []⟩ history s) :
    (∀ before m after request, history = before ++ m :: after → m.act = .call request →
      ((checkRateLimit o m.pre.table request m.pre.now).1 = false ↔
        o.rateLimitAttempts ≤
          (recent o.rateLimitWindowMs m.pre.now (accepted o (clientIp o request) before)).length)) ∧
    ∀ ip T, ((accepted o ip history).filter fun t => T - o.rateLimitWindowMs < t ∧ t ≤ T).length ≤
      o.rateLimitAttempts.toNat := by
  have hkept : ∀ {history s}, GuardedRun (rateStep o) (SparesCalls o) ⟨now, []⟩ history s → RatesKept o history s :=
    fun h => h.history (ratesKept_start o now) fun _ _ _ _ hs hg hst => hs.step hg hst
  refine ⟨fun before m after request heq hact => ?_, fun ip T => ?_⟩
  · subst heq
    obtain ⟨hbefore, hspares, -, -⟩ := h.at_move
    rw [hact] at hspares
    rw [(hkept hbefore).check hspares]
    dsimp only
    split
    · rename_i hfull
      simp [hfull]
    · rename_i hfull
      simp [hfull]
  · have hwithin := (hkept h).within ip
    exact hwithin.limited.length_le hwithin.sorted T

/-- A call that is rejected. -/
def RateLimitOptions.rejects (o : RateLimitOptions) (s : RateLimiter) : RateAction → Bool
  | .call request => !(checkRateLimit o s.table request s.now).1
  | .tick _ => false

/-- Two addresses call, in a table with room for both, and the third call of the first one is rejected. -/
theorem rate_limit_exact_room :
    let o : RateLimitOptions := { rateLimitAttempts := 2 }
    ∃ history s, GuardedRun (rateStep o) (SparesCalls o) ⟨0, []⟩ history s ∧ s.table.length = 2 ∧
      (∃ before m after request, history = before ++ m :: after ∧ m.act = .call request ∧ o.rejects m.pre m.act ∧
        2 ≤ (recent o.rateLimitWindowMs m.pre.now (accepted o (clientIp o request) before)).length) ∧
      ((accepted o ['r'] history).filter fun t => 5 - o.rateLimitWindowMs < t ∧ t ≤ 5).length ≤ 2 := by
  intro o
  let actions : List RateAction :=
    [.call ⟨[], some ['r']⟩, .call ⟨[], some ['q']⟩, .tick 5, .call ⟨[], some ['r']⟩, .call ⟨[], some ['r']⟩]
  have hexec : (exec (rateStep o) ⟨0, []⟩ actions).any (fun r => (r.1.all fun m => m.pre.table.length < 3) &&
      (r.2.table.length = 2 && r.1.any fun m => o.rejects m.pre m.act)) = true := by
    decide +kernel
  obtain ⟨⟨history, s⟩, hexec, hend⟩ := (Option.any_eq_true _ _).1 hexec
  obtain ⟨hsmall, hend⟩ := Bool.and_eq_true_iff.1 hend
  obtain ⟨htwo, hrejected⟩ := Bool.and_eq_true_iff.1 hend
  obtain ⟨m, hm, hrejected⟩ := List.any_eq_true.1 hrejected
  have hrun : GuardedRun (rateStep o) (SparesCalls o) ⟨0, []⟩ history s := by
    refine (run_of_exec hexec).restrict fun m hm => ?_
    have hlength : m.pre.table.length < 3 := of_decide_eq_true (List.all_eq_true.1 hsmall m hm)
    cases m.act with
    | call request =>
      intro _ hfull
      exact absurd (hfull.trans_lt hlength) (by decide)
    | tick ms => trivial
  have hexact := rate_limit_exact hrun
  obtain ⟨before, after, hsplit⟩ := List.append_of_mem hm
  cases hact : m.act with
  | tick ms =>
    rw [hact] at hrejected
    cases hrejected
  | call request =>
    have hcheck : (checkRateLimit o m.pre.table request m.pre.now).1 = false := by
      rw [hact] at hrejected
      simpa [RateLimitOptions.rejects] using hrejected
    have hcount := (hexact.1 before m after request hsplit hact).1 hcheck
    refine ⟨history, s, hrun, of_decide_eq_true htwo, ?_, hexact.2 ['r'] 5⟩
    exact ⟨before, m, after, request, hsplit, hact, hact ▸ hrejected, Int.ofNat_le.1 hcount⟩

/-! ### A full table -/

/-- A call puts its address into the table and sets its entry. -/
private theorem checkRateLimit_table (o : RateLimitOptions) (table : RateTable) (request : RateRequest) (now : Int) :
    ∃ window, (checkRateLimit o table request now).2 =
      BoundedTable.set (BoundedTable.track maxTrackedKeys table (clientIp o request) [])
      (clientIp o request) window := by
  unfold checkRateLimit
  dsimp only
  split
  · exact ⟨_, rfl⟩
  · exact ⟨_, rfl⟩

/-- An address that the table does not have is accepted. -/
private theorem checkRateLimit_new (hattempts : 0 < o.rateLimitAttempts) {table : RateTable}
    (hfits : BoundedTable.Fits maxTrackedKeys table) {request : RateRequest}
    (hnew : BoundedTable.find? table (clientIp o request) = none) (now : Int) :
    (checkRateLimit o table request now).1 = true := by
  have hempty : BoundedTable.find? (BoundedTable.track maxTrackedKeys table (clientIp o request) [])
      (clientIp o request) = some [] := by
    rcases BoundedTable.find?_track hfits maxTrackedKeys_pos (clientIp o request) (clientIp o request) ([] : List Int)
      with hkept | ⟨hne, -⟩
    · rw [hkept, if_pos rfl, hnew]
      rfl
    · exact absurd rfl hne
  have hroom : ¬ o.rateLimitAttempts ≤ ((([] : List Int)).length : Int) := by
    rw [List.length_nil]
    omega
  unfold checkRateLimit
  dsimp only
  rw [hempty, Option.getD_some, List.dropWhile_nil, if_neg hroom]

/-- Calls from a list of addresses, one after another. -/
theorem calls (o : RateLimitOptions) (requests : List RateRequest) {s : RateLimiter}
    (hfits : BoundedTable.Fits maxTrackedKeys s.table) :
    ∃ history s', Run (rateStep o) s history s' ∧ s'.now = s.now ∧ BoundedTable.Fits maxTrackedKeys s'.table ∧
      s'.table.map Prod.fst = (requests.map (clientIp o)).foldl (BoundedTable.trackKey maxTrackedKeys)
        (s.table.map Prod.fst) ∧
      ∀ ip ∉ requests.map (clientIp o), accepted o ip history = [] := by
  induction requests generalizing s with
  | nil => exact ⟨[], s, .start, rfl, hfits, rfl, fun _ _ => rfl⟩
  | cons request requests ih =>
    obtain ⟨window, htable⟩ := checkRateLimit_table o s.table request s.now
    have hfits' := (hfits.track maxTrackedKeys_pos (clientIp o request) []).set (clientIp o request) window
    rw [← htable] at hfits'
    obtain ⟨history, s', hrun, hnow, hfits'', hkeys, hnone⟩ :=
      @ih { s with table := (checkRateLimit o s.table request s.now).2 } hfits'
    have hone : Run (rateStep o) s [⟨s, .call request, _⟩]
        { s with table := (checkRateLimit o s.table request s.now).2 } :=
      GuardedRun.step .start trivial rfl
    refine ⟨_, s', hone.append hrun, hnow, hfits'', ?_, fun ip hip => ?_⟩
    · rw [hkeys, htable, BoundedTable.keys_set, BoundedTable.keys_track]
      rfl
    · have hne : ¬ clientIp o request = ip := fun heq => hip (heq ▸ List.mem_cons_self)
      have hothers := hnone ip fun hmem => hip (List.mem_cons_of_mem _ hmem)
      unfold accepted at hothers ⊢
      rw [List.filterMap_append, hothers, List.append_nil]
      simp [acceptedCall, hne]

private theorem clientIp_ideograph {name : Str} (h : name ∈ ideographs 10000) : clientIp {} ⟨[], some name⟩ = name := by
  obtain ⟨i, -, rfl⟩ := List.mem_map.1 h
  rfl

private theorem notMem_ideographs : ['r'] ∉ ideographs 10000 := by
  intro hmem
  obtain ⟨i, hi, heq⟩ := List.mem_map.1 hmem
  have hchar := congrArg Char.toNat (List.singleton_inj.1 heq)
  rw [toNat_ideograph (List.mem_range.1 hi)] at hchar
  have hr : 'r'.toNat = 114 := rfl
  omega

/-- An address whose calls are used up is accepted again after ten thousand calls of other addresses, with no time
passed. -/
theorem rate_limit_evaded : ∃ history s, Run (rateStep {}) ⟨0, []⟩ history s ∧
    ({} : RateLimitOptions).rateLimitAttempts ≤ (recent ({} : RateLimitOptions).rateLimitWindowMs s.now
      (accepted {} (clientIp {} ⟨[], some ['r']⟩) history)).length ∧
    (checkRateLimit {} s.table ⟨[], some ['r']⟩ s.now).1 = true := by
  have hexec : (exec (rateStep {}) ⟨0, []⟩ (List.replicate 20 (.call ⟨[], some ['r']⟩))).any (fun r =>
      r.2.now = 0 && (r.2.table.map Prod.fst = [['r']] && (recent 60000 0 (accepted {} ['r'] r.1)).length = 20)) =
        true := by
    decide +kernel
  obtain ⟨⟨history, s⟩, hexec, hall⟩ := (Option.any_eq_true _ _).1 hexec
  simp only [Bool.and_eq_true, decide_eq_true_eq] at hall
  obtain ⟨hnow, hkeys, hused⟩ := hall
  have hfits : BoundedTable.Fits maxTrackedKeys s.table := by
    have hlength : s.table.length = 1 := by rw [← List.length_map Prod.fst, hkeys]; rfl
    exact ⟨hkeys ▸ List.nodup_singleton _, by rw [hlength]; exact maxTrackedKeys_pos⟩
  have hips : ((ideographs 10000).map fun name => (⟨[], some name⟩ : RateRequest)).map (clientIp {}) =
      ideographs 10000 := by
    rw [List.map_map]
    exact (List.map_congr_left fun name hname => clientIp_ideograph hname).trans (List.map_id _)
  obtain ⟨others, s', hrun, hnow', hfits', hkeys', hothers⟩ :=
    calls {} ((ideographs 10000).map fun name => ⟨[], some name⟩) hfits
  rw [hips] at hkeys' hothers
  have hnodup : (['r'] :: ideographs 10000).Nodup :=
    List.nodup_cons.2 ⟨notMem_ideographs, (nodup_ideographs (Nat.le_refl 10000)).of_map _⟩
  -- The ten thousand new addresses are all that the table has room for.
  have hgone : s'.table.map Prod.fst = ideographs 10000 := by
    have hlength : (ideographs 10000).length = 10000 := by rw [ideographs, List.length_map, List.length_range]
    have hone : [['r']].length + 10000 - maxTrackedKeys = 1 := by decide
    rw [hkeys', hkeys, BoundedTable.foldl_trackKey (by simpa using hnodup) maxTrackedKeys_pos, hlength, hone,
      List.singleton_append, List.drop_succ_cons, List.drop_zero]
  refine ⟨history ++ others, s', (run_of_exec hexec).append hrun, ?_, ?_⟩
  · have haccepted : accepted {} ['r'] (history ++ others) = accepted {} ['r'] history := by
      have hnone := hothers ['r'] notMem_ideographs
      unfold accepted at hnone ⊢
      rw [List.filterMap_append, hnone, List.append_nil]
    have hip : clientIp {} ⟨[], some ['r']⟩ = ['r'] := rfl
    rw [hip, haccepted, hnow', hnow]
    change (20 : Int) ≤ ((recent 60000 0 (accepted {} ['r'] history)).length : Int)
    rw [hused]
    rfl
  · refine checkRateLimit_new (by decide) hfits' (BoundedTable.find?_eq_none.2 ?_) s'.now
    rw [hgone]
    exact notMem_ideographs

end CliServer
