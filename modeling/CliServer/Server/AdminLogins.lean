import CliServer.Lib.SlidingWindow
import CliServer.Lib.Transition

/-!
# Logins of the admin dashboard

`_RateLimiter` refuses a login of an address with five failed ones in the last sixty seconds.  It is asked before the
credentials are verified and told after they were found wrong.  With the static credentials nothing comes between; with
the users plugin the verification suspends, and the logins in flight are not counted.  As long as a login is let through
only while the recorded failures and the logins in flight are less than five, the limit holds (`admin_logins_limited`);
six logins at the same time break it (`admin_logins_exceeded`).

Times are microseconds.
-/

namespace CliServer

open Transition SlidingWindow

/-- `_MAX_ATTEMPTS`. -/
def adminMaxAttempts : Nat := 5

/-- `_WINDOW_SECONDS`. -/
def adminWindow : Int := 60 * 10 ^ 6

variable {ι : Type*} [DecidableEq ι]

/-- The limiter's attempts by address, and the addresses of the logins in flight. -/
structure AdminLogins (ι : Type*) where
  now : Int
  /-- `_attempts`. -/
  attempts : ι → List Int
  /-- The logins whose credentials are being verified. -/
  verifying : List ι
  /-- The logins with wrong credentials whose failure is not recorded yet. -/
  failing : List ι

/-- What `auth_service.login` comes to: the credentials are wrong, right, or not verified (a locked account, an
error). -/
inductive Verdict where
  | wrong | right | unverified
  deriving DecidableEq

inductive AdminAction (ι : Type*) where
  | tick (us : Nat)
  /-- `login` with the static credentials; `elapsed` passes between the limiter's two looks at the clock. -/
  | staticLogin (ip : ι) (valid : Bool) (elapsed : Nat)
  /-- `login` with the users plugin, up to its first await. -/
  | usersLogin (ip : ι)
  /-- A verification ends. -/
  | verified (ip : ι) (verdict : Verdict)
  /-- `_users_login` gets the 401 of a login with wrong credentials. -/
  | failed (ip : ι)

namespace AdminLogins

/-- The attempts of an address that still count. -/
def counting (s : AdminLogins ι) (ip : ι) : List Int := recent adminWindow s.now (s.attempts ip)

/-- Whether `check` raises the 429. -/
def limited (s : AdminLogins ι) (ip : ι) : Bool := adminMaxAttempts ≤ (s.counting ip).length

/-- `check`, which forgets the attempts that no longer count. -/
def check (s : AdminLogins ι) (ip : ι) : AdminLogins ι :=
  { s with attempts := Function.update s.attempts ip (s.counting ip) }

/-- `record_failure`. -/
def recordFailure (s : AdminLogins ι) (ip : ι) : AdminLogins ι :=
  { s with attempts := Function.update s.attempts ip (s.attempts ip ++ [s.now]) }

/-- The logins of an address in flight. -/
def inFlight (s : AdminLogins ι) (ip : ι) : Nat := s.verifying.count ip + s.failing.count ip

end AdminLogins

/-- A limiter that has not been asked yet. -/
def AdminLogins.new (now : Int) : AdminLogins ι := ⟨now, fun _ => [], [], []⟩

/-- One step of the logins, with the users plugin or without; `none`: it is not possible. -/
def adminStep (usersPlugin : Bool) (s : AdminLogins ι) : AdminAction ι → Option (AdminLogins ι)
  | .tick us => some { s with now := s.now + us }
  | .staticLogin ip valid elapsed =>
    if usersPlugin then none
    else if s.limited ip then some (s.check ip)
    else if valid then some (s.check ip)
    else some (AdminLogins.recordFailure { s.check ip with now := s.now + elapsed } ip)
  | .usersLogin ip =>
    if usersPlugin then
      if s.limited ip then some (s.check ip) else some { s.check ip with verifying := ip :: s.verifying }
    else none
  | .verified ip verdict =>
    if ip ∈ s.verifying then
      let s := { s with verifying := s.verifying.erase ip }
      if verdict = .wrong then some { s with failing := ip :: s.failing } else some s
    else none
  | .failed ip =>
    if ip ∈ s.failing then some (AdminLogins.recordFailure { s with failing := s.failing.erase ip } ip) else none

/-- The time at which a move verifies wrong credentials from an address. -/
def wrongLogin (ip : ι) (m : Move (AdminLogins ι) (AdminAction ι)) : Option Int :=
  match m.act with
  | .staticLogin ip' valid _ => if ip' = ip ∧ valid = false ∧ m.pre.limited ip = false then some m.pre.now else none
  | .verified ip' verdict => if ip' = ip ∧ verdict = .wrong then some m.pre.now else none
  | _ => none

/-- The times at which wrong credentials from an address were verified. -/
def wrongLogins (ip : ι) (history : List (Move (AdminLogins ι) (AdminAction ι))) : List Int :=
  history.filterMap (wrongLogin ip)

/-- The action is a login from the address. -/
def AdminAction.LoginFrom (ip : ι) (a : AdminAction ι) : Prop :=
  a = .usersLogin ip ∨ ∃ valid elapsed, a = .staticLogin ip valid elapsed

/-- No sixty seconds have more than five verifications of wrong credentials from the address, and a login that comes
when the last sixty seconds have five is refused. -/
structure LoginsLimited (ip : ι) (history : List (Move (AdminLogins ι) (AdminAction ι))) : Prop where
  bound : ∀ T, ((wrongLogins ip history).filter fun t => T - adminWindow < t ∧ t ≤ T).length ≤ adminMaxAttempts
  refused : ∀ before m after, history = before ++ m :: after → m.act.LoginFrom ip →
    adminMaxAttempts ≤ (recent adminWindow m.pre.now (wrongLogins ip before)).length → m.pre.limited ip = true

/-- A login with the users plugin is let through only while its address has less than five recorded failures and logins
in flight. -/
def CountsInFlight (s : AdminLogins ι) : AdminAction ι → Prop
  | .usersLogin ip => s.limited ip = false → (s.counting ip).length + s.inFlight ip < adminMaxAttempts
  | _ => True

/-! ### The invariant -/

/-- What the limiter knows of an address: the recorded failures and the logins in flight are at most five, and each
verification of wrong credentials that counts at some later time is recorded, and counts then, or its login is in
flight. -/
structure AddressKept (usersPlugin : Bool) (s : AdminLogins ι) (ip : ι) (wrong : List Int) : Prop where
  few : (s.counting ip).length + s.inFlight ip ≤ adminMaxAttempts
  static : usersPlugin = false → s.inFlight ip = 0
  known : ∀ later, s.now ≤ later →
    (recent adminWindow later wrong).length ≤ (recent adminWindow later (s.attempts ip)).length + s.failing.count ip
  sorted : wrong.Pairwise (· ≤ ·)
  le_now : ∀ t ∈ wrong, t ≤ s.now
  within : Limited adminWindow adminMaxAttempts wrong

private theorem wrongLogins_concat (ip : ι) (history : List (Move (AdminLogins ι) (AdminAction ι)))
    (m : Move (AdminLogins ι) (AdminAction ι)) :
    wrongLogins ip (history ++ [m]) = wrongLogins ip history ++ (wrongLogin ip m).toList := by
  rw [wrongLogins, List.filterMap_append]
  cases h : wrongLogin ip m <;> simp [wrongLogins, h]

namespace AddressKept

variable {usersPlugin : Bool} {s s' : AdminLogins ι} {ip : ι} {wrong : List Int}

/-- The invariant of an address is about its own attempts and logins. -/
theorem congr (h : AddressKept usersPlugin s ip wrong) (hnow : s'.now = s.now)
    (hattempts : s'.attempts ip = s.attempts ip) (hverifying : s'.verifying.count ip = s.verifying.count ip)
    (hfailing : s'.failing.count ip = s.failing.count ip) : AddressKept usersPlugin s' ip wrong := by
  refine ⟨?_, fun hstatic => ?_, fun later hlater => ?_, h.sorted, hnow ▸ h.le_now, h.within⟩
  · rw [AdminLogins.counting, AdminLogins.inFlight, hnow, hattempts, hverifying, hfailing]
    exact h.few
  · rw [AdminLogins.inFlight, hverifying, hfailing]
    exact h.static hstatic
  · rw [hattempts, hfailing]
    exact h.known later (hnow ▸ hlater)

theorem tick (h : AddressKept usersPlugin s ip wrong) (us : Nat) :
    AddressKept usersPlugin { s with now := s.now + us } ip wrong := by
  have hle : s.now ≤ s.now + us := by omega
  refine ⟨?_, h.static, fun later hlater => h.known later (hle.trans hlater), h.sorted,
    fun t ht => (h.le_now t ht).trans hle, h.within⟩
  exact (Nat.add_le_add_right (length_recent_le hle _) _).trans h.few

private theorem counting_check (s : AdminLogins ι) (ip : ι) : (s.check ip).counting ip = s.counting ip := by
  have hattempts : (s.check ip).attempts ip = s.counting ip := Function.update_self ip _ _
  rw [AdminLogins.counting, hattempts]
  exact recent_recent le_rfl

theorem check (h : AddressKept usersPlugin s ip wrong) (ip' : ι) : AddressKept usersPlugin (s.check ip') ip wrong := by
  by_cases hip : ip = ip'
  · subst hip
    have hattempts : (s.check ip).attempts ip = s.counting ip := Function.update_self ip _ _
    refine ⟨?_, h.static, fun later hlater => ?_, h.sorted, h.le_now, h.within⟩
    · rw [counting_check]
      exact h.few
    · have hnow : s.now ≤ later := hlater
      rw [hattempts, AdminLogins.counting, recent_recent hnow]
      exact h.known later hnow
  · exact h.congr rfl (Function.update_of_ne hip _ _) rfl rfl

/-- A failure is recorded. -/
theorem failed (h : AddressKept usersPlugin s ip wrong) (hmem : ip ∈ s.failing) :
    AddressKept usersPlugin (AdminLogins.recordFailure { s with failing := s.failing.erase ip } ip) ip wrong := by
  have hpos : 0 < s.failing.count ip := List.count_pos_iff.2 hmem
  have hcount : (s.failing.erase ip).count ip = s.failing.count ip - 1 := List.count_erase_self
  have hattempts : (AdminLogins.recordFailure { s with failing := s.failing.erase ip } ip).attempts ip =
      s.attempts ip ++ [s.now] := Function.update_self ip _ _
  have hfew := h.few
  refine ⟨?_, fun hstatic => ?_, fun later hlater => ?_, h.sorted, h.le_now, h.within⟩
  · rw [AdminLogins.counting, hattempts, length_recent_concat]
    show _ + (s.verifying.count ip + (s.failing.erase ip).count ip) ≤ _
    rw [AdminLogins.counting, AdminLogins.inFlight] at hfew
    rw [hcount]
    show (recent adminWindow s.now (s.attempts ip)).length + _ + _ ≤ _
    split <;> omega
  · have hnone := h.static hstatic
    rw [AdminLogins.inFlight] at hnone
    omega
  · rw [hattempts, length_recent_concat]
    show _ ≤ _ + (s.failing.erase ip).count ip
    rw [hcount]
    have hknown := h.known later hlater
    by_cases hlate : later - adminWindow < s.now
    · rw [if_pos hlate]
      omega
    · rw [recent_eq_nil h.le_now (Int.not_lt.1 hlate)]
      exact Nat.zero_le _

/-- A login with wrong credentials is verified. -/
private theorem wrong_verified (h : AddressKept usersPlugin s ip wrong) (hmem : ip ∈ s.verifying) :
    AddressKept usersPlugin { s with verifying := s.verifying.erase ip, failing := ip :: s.failing } ip
      (wrong ++ [s.now]) := by
  have hpos : 0 < s.verifying.count ip := List.count_pos_iff.2 hmem
  have hcount : (s.verifying.erase ip).count ip = s.verifying.count ip - 1 := List.count_erase_self
  have hcons : (ip :: s.failing).count ip = s.failing.count ip + 1 := List.count_cons_self
  have hfew := h.few
  rw [AdminLogins.inFlight] at hfew
  refine ⟨?_, fun hstatic => ?_, fun later hlater => ?_, ?_, fun t ht => ?_, h.within.concat ?_⟩
  · show (s.counting ip).length + ((s.verifying.erase ip).count ip + (ip :: s.failing).count ip) ≤ _
    omega
  · have hnone := h.static hstatic
    rw [AdminLogins.inFlight] at hnone
    omega
  · rw [length_recent_concat]
    show _ ≤ (recent adminWindow later (s.attempts ip)).length + (ip :: s.failing).count ip
    have hknown := h.known later hlater
    split <;> omega
  · exact sorted_concat h.sorted h.le_now
  · rcases List.mem_append.1 ht with ht | ht
    · exact h.le_now t ht
    · exact (List.mem_singleton.1 ht).le
  · have hknown := h.known s.now le_rfl
    have hcounting : (s.counting ip).length = (recent adminWindow s.now (s.attempts ip)).length := rfl
    omega

/-- A verification ends otherwise. -/
theorem ended (h : AddressKept usersPlugin s ip wrong) :
    AddressKept usersPlugin { s with verifying := s.verifying.erase ip } ip wrong := by
  have hcount : (s.verifying.erase ip).count ip = s.verifying.count ip - 1 := List.count_erase_self
  have hfew := h.few
  rw [AdminLogins.inFlight] at hfew
  refine ⟨?_, fun hstatic => ?_, h.known, h.sorted, h.le_now, h.within⟩
  · show (s.counting ip).length + ((s.verifying.erase ip).count ip + s.failing.count ip) ≤ _
    omega
  · have hnone := h.static hstatic
    rw [AdminLogins.inFlight] at hnone
    show (s.verifying.erase ip).count ip + s.failing.count ip = 0
    omega

/-- A login is let through to its verification. -/
private theorem let_through (h : AddressKept true s ip wrong)
    (hfew : (s.counting ip).length + s.inFlight ip < adminMaxAttempts) :
    AddressKept true { s with verifying := ip :: s.verifying } ip wrong := by
  have hcons : (ip :: s.verifying).count ip = s.verifying.count ip + 1 := List.count_cons_self
  rw [AdminLogins.inFlight] at hfew
  refine ⟨?_, fun hstatic => (by cases hstatic), h.known, h.sorted, h.le_now, h.within⟩
  show (s.counting ip).length + ((ip :: s.verifying).count ip + s.failing.count ip) ≤ _
  omega

/-- The static credentials are wrong: they are verified, and the failure is recorded, before anything else happens. -/
private theorem wrong_static (h : AddressKept false s ip wrong) (hlimited : (s.counting ip).length < adminMaxAttempts)
    (elapsed : Nat) : AddressKept false (AdminLogins.recordFailure { s with now := s.now + elapsed } ip) ip
      (wrong ++ [s.now]) := by
  have hle : s.now ≤ s.now + elapsed := by omega
  have hnone := h.static rfl
  have hattempts : (AdminLogins.recordFailure { s with now := s.now + elapsed } ip).attempts ip =
      s.attempts ip ++ [s.now + elapsed] := Function.update_self ip _ _
  rw [AdminLogins.inFlight] at hnone
  refine ⟨?_, fun _ => hnone, fun later hlater => ?_, ?_, fun t ht => ?_, h.within.concat ?_⟩
  · rw [AdminLogins.counting, hattempts, length_recent_concat]
    show (recent adminWindow (s.now + elapsed) (s.attempts ip)).length + _ +
      (s.verifying.count ip + s.failing.count ip) ≤ _
    have hfewer : _ ≤ (s.counting ip).length := length_recent_le hle (s.attempts ip)
    split <;> omega
  · rw [hattempts, length_recent_concat, length_recent_concat]
    show _ ≤ _ + s.failing.count ip
    have hknown := h.known later (hle.trans hlater)
    have hnow : s.now + elapsed ≤ later := hlater
    split
    next hcounts =>
      have hcounts' : later - adminWindow < s.now + elapsed := by omega
      show _ ≤ _ + (if later - adminWindow < s.now + elapsed then 1 else 0) + _
      rw [if_pos hcounts']
      omega
    next => omega
  · exact sorted_concat h.sorted h.le_now
  · show t ≤ s.now + elapsed
    rcases List.mem_append.1 ht with ht | ht
    · exact (h.le_now t ht).trans hle
    · rw [List.mem_singleton.1 ht]
      exact hle
  · have hknown := h.known s.now le_rfl
    have hcounting : (s.counting ip).length = (recent adminWindow s.now (s.attempts ip)).length := rfl
    omega

end AddressKept

/-! ### Runs of the dashboard -/

variable {usersPlugin : Bool} {history : List (Move (AdminLogins ι) (AdminAction ι))} {s s₀ s' : AdminLogins ι}

private theorem step_static {ip ip' : ι} {valid : Bool} {elapsed : Nat}
    (h : AddressKept usersPlugin s ip (wrongLogins ip history))
    (hst : adminStep usersPlugin s (.staticLogin ip' valid elapsed) = some s') :
    AddressKept usersPlugin s' ip
      (wrongLogins ip history ++ (wrongLogin ip ⟨s, .staticLogin ip' valid elapsed, s'⟩).toList) := by
  have hwhen : wrongLogin ip ⟨s, .staticLogin ip' valid elapsed, s'⟩ =
      if ip' = ip ∧ valid = false ∧ s.limited ip = false then some s.now else none := rfl
  rw [adminStep] at hst
  split at hst
  · cases hst
  next hstatic =>
    obtain rfl : usersPlugin = false := by simpa using hstatic
    split at hst
    next hlimited =>
      obtain rfl := Option.some.inj hst
      have hno : ¬ (ip' = ip ∧ valid = false ∧ s.limited ip = false) := by
        rintro ⟨rfl, -, hfree⟩
        rw [hfree] at hlimited
        cases hlimited
      rw [hwhen, if_neg hno, Option.toList_none, List.append_nil]
      exact h.check ip'
    next hfree =>
      split at hst
      next hvalid =>
        obtain rfl := Option.some.inj hst
        have hno : ¬ (ip' = ip ∧ valid = false ∧ s.limited ip = false) := by
          rintro ⟨-, hwrong, -⟩
          rw [hwrong] at hvalid
          cases hvalid
        rw [hwhen, if_neg hno, Option.toList_none, List.append_nil]
        exact h.check ip'
      next hwrong =>
        obtain rfl := Option.some.inj hst
        by_cases hip : ip = ip'
        · subst hip
          have hyes : ip = ip ∧ valid = false ∧ s.limited ip = false :=
            ⟨rfl, by simpa using hwrong, by simpa using hfree⟩
          have hfew : ((s.check ip).counting ip).length < adminMaxAttempts := by
            rw [AddressKept.counting_check]
            simpa [AdminLogins.limited] using hfree
          rw [hwhen, if_pos hyes]
          exact (h.check ip).wrong_static hfew elapsed
        · rw [hwhen, if_neg fun hboth => hip hboth.1.symm, Option.toList_none, List.append_nil]
          exact ((h.check ip').tick elapsed).congr rfl (Function.update_of_ne hip _ _) rfl rfl

private theorem step_users {ip ip' : ι} (h : AddressKept usersPlugin s ip (wrongLogins ip history))
    (hg : CountsInFlight s (.usersLogin ip')) (hst : adminStep usersPlugin s (.usersLogin ip') = some s') :
    AddressKept usersPlugin s' ip (wrongLogins ip history) := by
  rw [adminStep] at hst
  split at hst
  next husers =>
    subst husers
    split at hst
    · obtain rfl := Option.some.inj hst
      exact h.check ip'
    next hfree =>
      obtain rfl := Option.some.inj hst
      by_cases hip : ip = ip'
      · subst hip
        have hfew : ((s.check ip).counting ip).length + (s.check ip).inFlight ip < adminMaxAttempts := by
          rw [AddressKept.counting_check]
          exact hg (by simpa using hfree)
        exact (h.check ip).let_through hfew
      · exact (h.check ip').congr rfl rfl (List.count_cons_of_ne (Ne.symm hip)) rfl
  · cases hst

private theorem step_verified {ip ip' : ι} {verdict : Verdict}
    (h : AddressKept usersPlugin s ip (wrongLogins ip history))
    (hst : adminStep usersPlugin s (.verified ip' verdict) = some s') : AddressKept usersPlugin s' ip
      (wrongLogins ip history ++ (wrongLogin ip ⟨s, .verified ip' verdict, s'⟩).toList) := by
  have hwhen : wrongLogin ip ⟨s, .verified ip' verdict, s'⟩ =
      if ip' = ip ∧ verdict = .wrong then some s.now else none := rfl
  rw [adminStep] at hst
  split at hst
  next hmem =>
    dsimp only at hst
    by_cases hip : ip = ip'
    · subst hip
      split at hst
      next hwrong =>
        obtain rfl := Option.some.inj hst
        rw [hwhen, if_pos ⟨rfl, hwrong⟩]
        exact h.wrong_verified hmem
      next hother =>
        obtain rfl := Option.some.inj hst
        rw [hwhen, if_neg fun hboth => hother hboth.2, Option.toList_none, List.append_nil]
        exact h.ended
    · rw [hwhen, if_neg fun hboth => hip hboth.1.symm, Option.toList_none, List.append_nil]
      split at hst
      · obtain rfl := Option.some.inj hst
        exact h.congr rfl rfl (List.count_erase_of_ne hip) (List.count_cons_of_ne (Ne.symm hip))
      · obtain rfl := Option.some.inj hst
        exact h.congr rfl rfl (List.count_erase_of_ne hip) rfl
  · cases hst

private theorem step_failed {ip ip' : ι} (h : AddressKept usersPlugin s ip (wrongLogins ip history))
    (hst : adminStep usersPlugin s (.failed ip') = some s') :
    AddressKept usersPlugin s' ip (wrongLogins ip history) := by
  rw [adminStep] at hst
  split at hst
  next hmem =>
    obtain rfl := Option.some.inj hst
    by_cases hip : ip = ip'
    · subst hip
      exact h.failed hmem
    · exact h.congr rfl (Function.update_of_ne hip _ _) rfl (List.count_erase_of_ne hip)
  · cases hst

/-- A step that meets the guard keeps the invariant of every address. -/
theorem AddressKept.step {a : AdminAction ι} {ip : ι} (h : AddressKept usersPlugin s ip (wrongLogins ip history))
    (hg : CountsInFlight s a) (hst : adminStep usersPlugin s a = some s') :
    AddressKept usersPlugin s' ip (wrongLogins ip (history ++ [⟨s, a, s'⟩])) := by
  rw [wrongLogins_concat]
  cases a with
  | tick us =>
    obtain rfl := Option.some.inj hst
    rw [show wrongLogin ip ⟨s, .tick us, _⟩ = none from rfl, Option.toList_none, List.append_nil]
    exact h.tick us
  | staticLogin ip' valid elapsed => exact step_static h hst
  | usersLogin ip' =>
    rw [show wrongLogin ip ⟨s, .usersLogin ip', s'⟩ = none from rfl, Option.toList_none, List.append_nil]
    exact step_users h hg hst
  | verified ip' verdict => exact step_verified h hst
  | failed ip' =>
    rw [show wrongLogin ip ⟨s, .failed ip', s'⟩ = none from rfl, Option.toList_none, List.append_nil]
    exact step_failed h hst

/-- A login let through finds less than five verifications of wrong credentials that count. -/
private theorem refused_of_kept {a : AdminAction ι} {ip : ι} (h : AddressKept usersPlugin s ip (wrongLogins ip history))
    (hg : CountsInFlight s a) (hst : adminStep usersPlugin s a = some s') (hlogin : a.LoginFrom ip)
    (hmany : adminMaxAttempts ≤ (recent adminWindow s.now (wrongLogins ip history)).length) : s.limited ip = true := by
  by_contra hfree
  have hfree : s.limited ip = false := by simpa using hfree
  have hcounting : (s.counting ip).length < adminMaxAttempts := by simpa [AdminLogins.limited] using hfree
  have hknown : _ ≤ (s.counting ip).length + s.failing.count ip := h.known s.now le_rfl
  rcases hlogin with rfl | ⟨valid, elapsed, rfl⟩
  · have hfew := hg hfree
    rw [AdminLogins.inFlight] at hfew
    omega
  · have hstatic : usersPlugin = false := by
      rw [adminStep] at hst
      split at hst
      · cases hst
      next h => simpa using h
    have hnone := h.static hstatic
    rw [AdminLogins.inFlight] at hnone
    omega

/-- As long as every login of the users plugin is let through only while its address has less than five recorded
failures and logins in flight, no sixty seconds have more than five verifications of wrong credentials from one
address, and a login that comes when the last sixty seconds have five is refused. -/
theorem admin_logins_limited {now : Int} (h : GuardedRun (adminStep usersPlugin) CountsInFlight (.new now) history s)
    (ip : ι) : LoginsLimited ip history := by
  have hkept : ∀ {history : List (Move (AdminLogins ι) (AdminAction ι))} {s : AdminLogins ι},
      GuardedRun (adminStep usersPlugin) CountsInFlight (.new now) history s →
      AddressKept usersPlugin s ip (wrongLogins ip history) := by
    intro history s h
    have hempty : Limited adminWindow adminMaxAttempts (wrongLogins (ι := ι) ip []) := by
      intro before t after heq
      simp [wrongLogins] at heq
    exact h.history (I := fun history s => AddressKept usersPlugin s ip (wrongLogins ip history))
      ⟨Nat.zero_le _, fun _ => rfl, fun _ _ => Nat.zero_le _, .nil, fun t ht => (by cases ht), hempty⟩
      fun history s a s' hs hg hst => hs.step hg hst
  refine ⟨(hkept h).within.length_le (hkept h).sorted, ?_⟩
  rintro before m after rfl hlogin hmany
  obtain ⟨hbefore, hg, hst, -⟩ := h.at_move
  exact refused_of_kept (hkept hbefore) hg hst hlogin hmany

/-! ### Six logins -/

/-- Five logins with wrong credentials one after another, a second each, and a sixth. -/
def sixInTurn : List (AdminAction Nat) :=
  let one : List (AdminAction Nat) := [.usersLogin 1, .verified 1 .wrong, .failed 1, .tick (10 ^ 6)]
  one ++ one ++ one ++ one ++ one ++ [.usersLogin 1]

/-- `CountsInFlight`, as a test. -/
def countsInFlight (s : AdminLogins Nat) : AdminAction Nat → Bool
  | .usersLogin ip => s.limited ip || (s.counting ip).length + s.inFlight ip < adminMaxAttempts
  | _ => true

/-- The sixth is refused. -/
theorem admin_logins_limited_six : ∃ history s,
    GuardedRun (adminStep true) CountsInFlight (.new 0) history s ∧ (wrongLogins 1 history).length = 5 ∧
    s.verifying = [] ∧ LoginsLimited 1 history := by
  have hexec : (exec (adminStep true) (.new 0) sixInTurn).any (fun r =>
      r.1.all (fun m => countsInFlight m.pre m.act) &&
        ((wrongLogins 1 r.1).length = 5 && r.2.verifying = [])) = true := by decide +kernel
  obtain ⟨⟨history, s⟩, hexec, hboth⟩ := (Option.any_eq_true _ _).1 hexec
  simp only [Bool.and_eq_true, List.all_eq_true, decide_eq_true_eq] at hboth
  obtain ⟨hguard, hfive, hidle⟩ := hboth
  have hrun : GuardedRun (adminStep true) CountsInFlight (.new 0) history s := by
    refine (run_of_exec hexec).restrict fun m hm => ?_
    have htest := hguard m hm
    cases hact : m.act with
    | usersLogin ip =>
      intro hfree
      rw [hact, countsInFlight, hfree] at htest
      simpa using htest
    | _ => trivial
  exact ⟨history, s, hrun, hfive, hidle, admin_logins_limited hrun 1⟩

/-- Six logins pass the limiter before the first of them fails. -/
theorem admin_logins_exceeded : ∃ history s, Run (adminStep true) (.new 0) history s ∧
    (wrongLogins 1 history).length = 6 ∧ ¬ LoginsLimited 1 history := by
  have hexec : (exec (adminStep true) (.new 0) (List.replicate 6 (.usersLogin 1) ++
      List.replicate 6 (.verified 1 .wrong))).any (fun r => decide ((wrongLogins 1 r.1).length = 6) &&
        decide (¬ ((wrongLogins 1 r.1).filter fun t => 0 - adminWindow < t ∧ t ≤ 0).length ≤ adminMaxAttempts)) =
      true := by decide +kernel
  obtain ⟨⟨history, s⟩, hexec, hboth⟩ := (Option.any_eq_true _ _).1 hexec
  simp only [Bool.and_eq_true, decide_eq_true_eq] at hboth
  exact ⟨history, s, run_of_exec hexec, hboth.1, fun hlimited => hboth.2 (hlimited.bound 0)⟩

end CliServer
