import CliServer.Lib.ProcessTable
import CliServer.Lib.Transition
import CliServer.Shell.ProcFiles

/-!
# The closing of a shell

`_terminate`, while the processes of the system fork, start groups and sessions and end.  Its waits are of any length,
and the processes that the first two signals end are among those that end by themselves.  The processes that are found
by a collection have gone when it returns, and the server has not (`nothing_survives`).
-/

namespace CliServer.Shell

open Relation ProcessTable Transition

/-- The processes, with the entries of their environments. -/
abbrev System := ProcTable (List (List UInt8))

/-- A shell, and the server that has started it. -/
structure Started where
  own : Nat
  group : Nat
  pid : Nat
  birth : Nat
  shellId : Option Str

def Started.server (sh : Started) : ServerProcess := ⟨sh.own, sh.group⟩

/-- What is read of the processes. -/
structure Snapshot where
  procs : List ProcInfo
  markedPids : Str → Finset ℤ

/-- Where `_terminate` is: before it, between the collections, at the question which of the targets are alive, with
signals left to send, and after it. -/
inductive ClosingPhase where
  | runs
  | waits (targets : Finset ℤ)
  | checks (targets : Finset ℤ) (left : List ℤ)
  | kills (left : List Kill)
  | returned

/-- The exit task, if there is one, is done when the shell has been reaped. -/
structure ShellClosing where
  table : System
  phase : ClosingPhase
  exitTask : Option Bool

inductive TerminateAction where
  | system (e : Event (List (List UInt8)))
  | exits
  | collects (seen : Snapshot)
  | collectsAgain (seen : Snapshot) (order : List ℤ) (outcome : KillpgOutcome)
  | checks (alive : Bool) (order : List ℤ) (outcome : KillpgOutcome)
  | sends (reached : Bool) (reaper : Nat)

/-- One of the two collections. -/
def TerminateAction.Collection : TerminateAction → Prop
  | .collects _ | .collectsAgain .. => True
  | _ => False

/-- The processes that are killed. -/
def Kill.hits : Kill → Nat → Proc (List (List UInt8)) → Bool
  | .group g, _, p => (p.group : ℤ) = g
  | .process t, q, _ => (q : ℤ) = t

namespace ShellClosing

variable (sh : Started)

def exited (s : ShellClosing) : Bool := s.exitTask = some true

def collected (s : ShellClosing) (seen : Snapshot) : Finset ℤ :=
  collectTargets sh.server seen.procs seen.markedPids sh.pid sh.shellId (!s.exited)

/-- One thing that the system or `_terminate` does.  The targets are gone through in some order. -/
def step (s : ShellClosing) : TerminateAction → Option ShellClosing
  | .system e => (s.table.step e).map fun table => { s with table := table }
  | .exits => if s.exitTask = some false then some { s with exitTask := some true } else none
  | .collects seen => match s.phase with
    | .runs => some { s with phase := .waits (s.collected sh seen) }
    | _ => none
  | .collectsAgain seen order outcome => match s.phase with
    | .waits targets =>
      let targets := targets ∪ s.collected sh seen
      if s.exited then
        if order.toFinset = targets.erase sh.pid then some { s with phase := .checks targets order } else none
      else if order.toFinset = targets then
        some { s with phase := .kills (signalAll sh.server outcome sh.pid false order) }
      else none
    | _ => none
  | .checks alive order outcome => match s.phase with
    | .checks _ [] => some { s with phase := .returned }
    | .checks targets (_ :: left) =>
      if alive then
        if order.toFinset = targets then
          some { s with phase := .kills (signalAll sh.server outcome sh.pid true order) }
        else none
      else some { s with phase := .checks targets left }
    | _ => none
  | .sends reached reaper => match s.phase with
    | .kills [] => some { s with phase := .returned }
    | .kills (kill :: left) =>
      some { s with table := if reached then s.table.ended kill.hits reaper else s.table, phase := .kills left }
    | _ => none

end ShellClosing

/-! ### What the system lets happen -/

def procInfo (q : Nat) (p : Proc (List (List UInt8))) : ProcInfo := ⟨q, p.parent, p.group, some p.session⟩

/-- All processes are read as they are.  Some that have ended since may be read too. -/
structure Sees (table : System) (seen : Snapshot) : Prop where
  listed : ∀ q p, table.proc q = some p → procInfo q p ∈ seen.procs
  own : ∀ info ∈ seen.procs, ∀ q p, table.proc q = some p → info.pid = q → info = procInfo q p
  marked : ∀ id q p, table.proc q = some p → marker id ∈ p.environ → (q : ℤ) ∈ seen.markedPids id

/-- The files show a process as it is, and its environment can be read. -/
structure SystemProcess.Shows (r : SystemProcess) (q : Nat) (p : Proc (List (List UInt8))) : Prop where
  info : r.info = procInfo q p
  environ : r.environ = some p.environ

/-- The files of all processes show them; the files of some that have ended may be there too. -/
theorem sees_of_files {table : System} {listed : List (Nat ⊕ SystemProcess)}
    (hlisted : ∀ q p, table.proc q = some p → ∃ r, .inr r ∈ listed ∧ r.Shows q p)
    (hown : ∀ r : SystemProcess, .inr r ∈ listed → ∀ p, table.proc r.pid = some p → r.Shows r.pid p) :
    Sees table ⟨listProcesses (statFiles listed), markedPids (environFiles listed)⟩ where
  listed q p hp := by
    obtain ⟨r, hr, hshows⟩ := hlisted q p hp
    exact mem_listProcesses.2 ⟨r, hr, hshows.info⟩
  own info hinfo q p hp hpid := by
    obtain ⟨r, hr, rfl⟩ := mem_listProcesses.1 hinfo
    obtain rfl : r.pid = q := Int.ofNat_inj.1 hpid
    exact (hown r hr p hp).info
  marked id q p hp hmarker := by
    obtain ⟨r, hr, hshows⟩ := hlisted q p hp
    exact mem_markedPids.2 ⟨r, hr, congrArg ProcInfo.pid hshows.info, _, hshows.environ, hmarker⟩

/-- The server does not leave its group, does not end, and may signal every process.  The exit task is done only when
the shell has gone, and a target is not alive only when its number is no process. -/
def ShellClosing.Allowed (sh : Started) (s : ShellClosing) : TerminateAction → Prop
  | .system e => s.table.Permits e ∧ e.Spares sh.own
  | .exits => ∀ q p, s.table.proc q = some p → p.birth ≠ sh.birth
  | .collects seen | .collectsAgain seen _ _ => Sees s.table seen
  | .checks alive _ _ => ∀ targets (q : Nat) left, s.phase = .checks targets ((q : ℤ) :: left) → alive = false →
      s.table.proc q = none
  | .sends reached _ => ∀ t left, s.phase = .kills (.process t :: left) → reached = true

/-- The shell has just been started: its number was free, and it has a session of its own. -/
def ShellClosing.Opens (sh : Started) (s : ShellClosing) : Prop :=
  ∃ (before : System) (own : Proc (List (List UInt8))), before.Formed ∧ before.Free sh.pid ∧ before.births = sh.birth ∧
    before.proc sh.own = some own ∧ own.group = sh.group ∧ before.spawn sh.own sh.pid = some s.table ∧
    s.phase = .runs ∧ s.exitTask ≠ some true

/-! ### What a step changes -/

variable {sh : Started} {s s' : ShellClosing} {a : TerminateAction} {seen : Snapshot} {q b session : Nat}
  {p p' : Proc (List (List UInt8))}

private theorem mem_signalAll {server : ServerProcess} {outcome : KillpgOutcome} {pid t : ℤ} {reaped : Bool}
    {order : List ℤ}
    (hmem : t ∈ order) (hlarge : 1 < t) (hown : t ≠ server.ownPid) (hpid : reaped = true → t ≠ pid) :
    .process t ∈ signalAll server outcome pid reaped order := by
  refine List.mem_append_right _ (List.mem_flatMap.2 ⟨t, hmem, ?_⟩)
  have hnot : ¬(reaped = true ∧ t = pid) := fun ⟨hreaped, heq⟩ => hpid hreaped heq
  have hsignal : ¬(t ≤ 1 ∨ t = server.ownPid) := by
    rintro (hle | heq)
    · exact absurd hlarge (not_lt.2 hle)
    · exact hown heq
  rw [if_neg hnot, signalPid, if_neg hsignal]
  exact List.mem_singleton_self _

/-- Neither the server nor its group. -/
def Started.Spared (sh : Started) : Kill → Prop
  | .group g => g ≠ sh.group
  | .process t => t ≠ sh.own

private theorem spared_of_mem_signalAll {outcome : KillpgOutcome} {pid : ℤ} {reaped : Bool} {order : List ℤ}
    {kill : Kill}
    (h : kill ∈ signalAll sh.server outcome pid reaped order) : sh.Spared kill := by
  have hprocess : ∀ {t}, kill ∈ signalPid sh.server t → sh.Spared kill := fun {t} h => by
    obtain ⟨rfl, -, hne⟩ := mem_signalPid h
    exact hne
  rcases List.mem_append.1 h with h | h
  · rcases mem_signalGroup h with ⟨rfl, -, hne⟩ | ⟨rfl, -, hne⟩
    · exact hne
    · exact hne
  · obtain ⟨target, -, h⟩ := List.mem_flatMap.1 h
    split at h
    · cases h
    · exact hprocess h

private theorem hits_eq_false {kill : Kill} (h : sh.Spared kill) (hgroup : p.group = sh.group) :
    kill.hits sh.own p = false := by
  cases kill with
  | group g =>
    refine decide_eq_false fun heq => h ?_
    rw [← heq, hgroup]
  | process t => exact decide_eq_false fun heq => h heq.symm

namespace ShellClosing

/-- The steps, case by case. -/
inductive Takes (sh : Started) (s : ShellClosing) : TerminateAction → ShellClosing → Prop
  | system {e : Event _} {table : System} (hevent : s.table.step e = some table) :
      Takes sh s (.system e) { s with table := table }
  | exits (htask : s.exitTask = some false) : Takes sh s .exits { s with exitTask := some true }
  | collects {seen : Snapshot} (hphase : s.phase = .runs) :
      Takes sh s (.collects seen) { s with phase := .waits (s.collected sh seen) }
  | asks {seen : Snapshot} {order : List ℤ} {outcome : KillpgOutcome} {targets : Finset ℤ}
      (hphase : s.phase = .waits targets) (hexited : s.exited = true)
      (horder : order.toFinset = (targets ∪ s.collected sh seen).erase sh.pid) :
      Takes sh s (.collectsAgain seen order outcome)
        { s with phase := .checks (targets ∪ s.collected sh seen) order }
  | kills {seen : Snapshot} {order : List ℤ} {outcome : KillpgOutcome} {targets : Finset ℤ}
      (hphase : s.phase = .waits targets) (horder : order.toFinset = targets ∪ s.collected sh seen) :
      Takes sh s (.collectsAgain seen order outcome)
        { s with phase := .kills (signalAll sh.server outcome sh.pid false order) }
  | noneAlive {alive : Bool} {order : List ℤ} {outcome : KillpgOutcome} {targets : Finset ℤ}
      (hphase : s.phase = .checks targets []) : Takes sh s (.checks alive order outcome) { s with phase := .returned }
  | oneAlive {order : List ℤ} {outcome : KillpgOutcome} {targets : Finset ℤ} {t : ℤ} {left : List ℤ}
      (hphase : s.phase = .checks targets (t :: left)) (horder : order.toFinset = targets) :
      Takes sh s (.checks true order outcome)
        { s with phase := .kills (signalAll sh.server outcome sh.pid true order) }
  | notAlive {order : List ℤ} {outcome : KillpgOutcome} {targets : Finset ℤ} {t : ℤ} {left : List ℤ}
      (hphase : s.phase = .checks targets (t :: left)) :
      Takes sh s (.checks false order outcome) { s with phase := .checks targets left }
  | allSent {reached : Bool} {reaper : Nat} (hphase : s.phase = .kills []) :
      Takes sh s (.sends reached reaper) { s with phase := .returned }
  | sent {reached : Bool} {reaper : Nat} {kill : Kill} {left : List Kill} (hphase : s.phase = .kills (kill :: left)) :
      Takes sh s (.sends reached reaper)
        { s with table := if reached then s.table.ended kill.hits reaper else s.table, phase := .kills left }

private theorem takes_of_step (h : step sh s a = some s') : Takes sh s a s' := by
  cases a with
  | system e =>
    obtain ⟨table, hst, rfl⟩ := Option.map_eq_some_iff.1 h
    exact .system hst
  | exits =>
    obtain ⟨htask, heq⟩ := Option.ite_none_right_eq_some.1 h
    obtain rfl := Option.some.inj heq
    exact .exits htask
  | collects seen =>
    simp only [step] at h
    split at h
    · next hphase =>
      obtain rfl := Option.some.inj h
      exact .collects hphase
    · cases h
  | collectsAgain seen order outcome =>
    simp only [step] at h
    split at h
    · next targets hphase =>
      split at h
      · next hexited =>
        obtain ⟨horder, heq⟩ := Option.ite_none_right_eq_some.1 h
        obtain rfl := Option.some.inj heq
        exact .asks hphase hexited horder
      · obtain ⟨horder, heq⟩ := Option.ite_none_right_eq_some.1 h
        obtain rfl := Option.some.inj heq
        exact .kills hphase horder
    · cases h
  | checks alive order outcome =>
    simp only [step] at h
    split at h
    · next hphase =>
      obtain rfl := Option.some.inj h
      exact .noneAlive hphase
    · next targets t left hphase =>
      cases alive with
      | true =>
        obtain ⟨horder, heq⟩ := Option.ite_none_right_eq_some.1 h
        obtain rfl := Option.some.inj heq
        exact .oneAlive hphase horder
      | false =>
        obtain rfl := Option.some.inj h
        exact .notAlive hphase
    · cases h
  | sends reached reaper =>
    simp only [step] at h
    split at h
    · next hphase =>
      obtain rfl := Option.some.inj h
      exact .allSent hphase
    · next kill left hphase =>
      obtain rfl := Option.some.inj h
      exact .sent hphase
    · cases h

/-! ### The server -/

/-- The server is there, apart from what the shell has started, and is not to be signalled; and when the exit task is
done, the shell has gone. -/
structure Kept (sh : Started) (session : Nat) (s : ShellClosing) : Prop where
  formed : s.table.Formed
  apart : Apart s.table sh.own session sh.group sh.birth
  spared : ∀ left kill, s.phase = .kills left → kill ∈ left → sh.Spared kill
  reaped : s.exited = true → ∀ q p, s.table.proc q = some p → p.birth ≠ sh.birth

theorem Kept.step (h : Kept sh session s) (hg : Allowed sh s a) (hst : ShellClosing.step sh s a = some s') :
    Kept sh session s' := by
  cases takes_of_step hst with
  | @system e table hevent =>
    refine ⟨h.formed.step hg.1 hevent, h.apart.step hg.1 hg.2 hevent, h.spared, fun hexited q p hp hbirth => ?_⟩
    obtain ⟨p₀, hp₀, hbirth₀⟩ := ProcTable.old_of_step hevent hp (hbirth.symm ▸ h.apart.born)
    exact h.reaped hexited q p₀ hp₀ (hbirth₀.trans hbirth)
  | exits htask => exact ⟨h.formed, h.apart, h.spared, fun _ => hg⟩
  | collects hphase => exact ⟨h.formed, h.apart, nofun, h.reaped⟩
  | asks hphase hexited horder => exact ⟨h.formed, h.apart, nofun, h.reaped⟩
  | kills hphase horder =>
    refine ⟨h.formed, h.apart, fun left kill heq hmem => ?_, h.reaped⟩
    obtain rfl := ClosingPhase.kills.inj heq
    exact spared_of_mem_signalAll hmem
  | noneAlive hphase => exact ⟨h.formed, h.apart, nofun, h.reaped⟩
  | oneAlive hphase horder =>
    refine ⟨h.formed, h.apart, fun left kill heq hmem => ?_, h.reaped⟩
    obtain rfl := ClosingPhase.kills.inj heq
    exact spared_of_mem_signalAll hmem
  | notAlive hphase => exact ⟨h.formed, h.apart, nofun, h.reaped⟩
  | allSent hphase => exact ⟨h.formed, h.apart, nofun, h.reaped⟩
  | @sent reached reaper kill left hphase =>
    have hspared : ∀ left' kill', ClosingPhase.kills left = .kills left' → kill' ∈ left' → sh.Spared kill' := by
      rintro left' kill' heq hmem
      obtain rfl := ClosingPhase.kills.inj heq
      exact h.spared _ kill' hphase (List.mem_cons_of_mem _ hmem)
    cases reached with
    | false => exact ⟨h.formed, h.apart, hspared, h.reaped⟩
    | true =>
      refine ⟨h.formed.ended _ _, h.apart.ended (fun own hown => ?_) _, hspared, fun hexited q p hp => ?_⟩
      · exact hits_eq_false (h.spared _ kill hphase List.mem_cons_self) (h.apart.group_eq hown)
      · obtain ⟨parent, hp, -⟩ := ProcTable.proc_ended hp
        have hbirth := h.reaped hexited q _ hp
        exact hbirth

/-! ### What has been collected -/

/-- The number will be signalled, or asked for. -/
def Hunts (sh : Started) (q : Nat) : ClosingPhase → Prop
  | .runs | .returned => False
  | .waits targets => (q : ℤ) ∈ targets
  | .checks targets left => (q : ℤ) ∈ targets ∧ (q : ℤ) ∈ left ∧ q ≠ sh.pid
  | .kills left => .process q ∈ left

/-- While the process of this birth is there, its number is hunted. -/
structure Doomed (sh : Started) (b q : Nat) (s : ShellClosing) : Prop where
  born : b < s.table.births
  hunted : ∀ q' p, s.table.proc q' = some p → p.birth = b → q' = q ∧ Hunts sh q s.phase

/-- Whom the server may signal, and is the shell itself if it has the number of it. -/
structure Exposed (sh : Started) (b q : Nat) : Prop where
  large : 1 < q
  other : q ≠ sh.own
  shell : q = sh.pid → b = sh.birth

/-- Who is there after a step and was born before was there before. -/
private theorem old_of_takes (h : Takes sh s a s') (hp : s'.table.proc q = some p) (hborn : p.birth < s.table.births) :
    ∃ p₀, s.table.proc q = some p₀ ∧ p₀.birth = p.birth := by
  cases h with
  | system hevent => exact ProcTable.old_of_step hevent hp hborn
  | @sent reached reaper kill left hphase =>
    cases reached with
    | false => exact ⟨p, hp, rfl⟩
    | true =>
      obtain ⟨parent, hold, -⟩ := ProcTable.proc_ended hp
      exact ⟨_, hold, rfl⟩
  | _ => exact ⟨p, hp, rfl⟩

private theorem births_le_of_takes (h : Takes sh s a s') : s.table.births ≤ s'.table.births := by
  cases h with
  | system hevent => exact ProcTable.births_le_step hevent
  | @sent reached reaper kill left hphase =>
    cases reached with
    | false => exact le_rfl
    | true => exact le_rfl
  | _ => exact le_rfl

/-- What is a target at the second collection, and there, is signalled or asked for. -/
private theorem hunts_of_again {targets : Finset ℤ} {order : List ℤ} {outcome : KillpgOutcome}
    (hkept : Kept sh session s) (hexposed : Exposed sh b q) (hp : s.table.proc q = some p) (hbirth : p.birth = b)
    (hmem : (q : ℤ) ∈ targets ∪ s.collected sh seen) (hphase : s.phase = .waits targets)
    (h : Takes sh s (.collectsAgain seen order outcome) s') : Hunts sh q s'.phase := by
  cases h with
  | asks hphase' hexited horder =>
    obtain rfl := ClosingPhase.waits.inj (hphase.symm.trans hphase')
    have hne : q ≠ sh.pid := fun heq => hkept.reaped hexited q p hp (hbirth.trans (hexposed.shell heq))
    refine ⟨hmem, ?_, hne⟩
    rw [← List.mem_toFinset, horder]
    exact Finset.mem_erase.2 ⟨fun heq => hne (Int.ofNat_inj.1 heq), hmem⟩
  | kills hphase' horder =>
    obtain rfl := ClosingPhase.waits.inj (hphase.symm.trans hphase')
    refine mem_signalAll ?_ (by exact_mod_cast hexposed.large) (fun heq => hexposed.other (Int.ofNat_inj.1 heq)) nofun
    rw [← List.mem_toFinset, horder]
    exact hmem

theorem Doomed.step (h : Doomed sh b q s) (hkept : Kept sh session s) (hexposed : Exposed sh b q)
    (hg : Allowed sh s a) (hst : ShellClosing.step sh s a = some s') : Doomed sh b q s' := by
  have htakes := takes_of_step hst
  have htakes' := htakes
  refine ⟨h.born.trans_le (births_le_of_takes htakes), fun q' p hp hbirth => ?_⟩
  obtain ⟨p₀, hp₀, hbirth₀⟩ := old_of_takes htakes hp (hbirth.symm ▸ h.born)
  obtain ⟨rfl, hhunts⟩ := h.hunted q' p₀ hp₀ (hbirth₀.trans hbirth)
  refine ⟨rfl, ?_⟩
  cases htakes with
  | system hevent => exact hhunts
  | exits htask => exact hhunts
  | collects hphase =>
    rw [hphase] at hhunts
    exact hhunts.elim
  | asks hphase hexited horder =>
    rw [hphase] at hhunts
    exact hunts_of_again hkept hexposed hp hbirth (Finset.mem_union_left _ hhunts) hphase htakes'
  | kills hphase horder =>
    rw [hphase] at hhunts
    exact hunts_of_again hkept hexposed hp hbirth (Finset.mem_union_left _ hhunts) hphase htakes'
  | noneAlive hphase =>
    rw [hphase] at hhunts
    exact absurd hhunts.2.1 List.not_mem_nil
  | oneAlive hphase horder =>
    rw [hphase] at hhunts
    refine mem_signalAll ?_ (by exact_mod_cast hexposed.large) (fun heq => hexposed.other (Int.ofNat_inj.1 heq))
      fun _ heq => hhunts.2.2 (Int.ofNat_inj.1 heq)
    rw [← List.mem_toFinset, horder]
    exact hhunts.1
  | @notAlive order outcome targets t left hphase =>
    rw [hphase] at hhunts
    obtain ⟨htargets, hleft, hne⟩ := hhunts
    rcases List.mem_cons.1 hleft with rfl | hleft
    · rw [hg targets q' left hphase rfl] at hp₀
      cases hp₀
    · exact ⟨htargets, hleft, hne⟩
  | allSent hphase =>
    rw [hphase] at hhunts
    exact absurd hhunts List.not_mem_nil
  | @sent reached reaper kill left hphase =>
    rw [hphase] at hhunts
    rcases List.mem_cons.1 hhunts with rfl | hleft
    · -- its signal: it has ended, so it is not there after the step
      obtain rfl := hg _ left hphase
      obtain ⟨parent, -, hgone⟩ := ProcTable.proc_ended hp
      exact absurd rfl (of_decide_eq_false hgone)
    · exact hleft

/-- A process is looked for in the table: one of the tree, unless the shell has been reaped, a member of the group or of
the session, or one with the marker. -/
def Sought (sh : Started) (s : ShellClosing) (q : Nat) (p : Proc (List (List UInt8))) : Prop :=
  (s.exited = false ∧ ReflTransGen (fun parent q => ∃ p, s.table.proc q = some p ∧ p.parent = parent) sh.pid q) ∨
    p.group = sh.pid ∨ p.session = sh.pid ∨ ∃ id, sh.shellId = some id ∧ id ≠ [] ∧ marker id ∈ p.environ

private theorem mem_collected (hkept : Kept sh session s) (hsees : Sees s.table seen) (hp : s.table.proc q = some p)
    (hof : p.Of sh.birth) (hsought : Sought sh s q p) : (q : ℤ) ∈ s.collected sh seen := by
  obtain ⟨hother, hgroup⟩ := hkept.apart.ne hkept.formed hp hof
  have hlarge := (hkept.apart.apart q p hp hof).1
  refine mem_collectTargets.2 ⟨⟨by exact_mod_cast hlarge, fun heq => hother (Int.ofNat_inj.1 heq), ?_⟩, ?_⟩
  · rintro info hinfo hown hpid
    rw [hsees.own info hinfo q p hp hpid] at hown
    exact hgroup (Int.ofNat_inj.1 hown)
  · rcases hsought with ⟨hexited, htree⟩ | hmember | hmember | ⟨id, hid, hne, hmarker⟩
    · have hlink : ReflTransGen (ParentLink seen.procs) (sh.pid : ℤ) q := by
        refine htree.lift (fun q : Nat => (q : ℤ)) ?_
        rintro parent q' ⟨p', hp', rfl⟩
        exact ⟨_, hsees.listed q' p' hp', rfl, rfl⟩
      refine .inl ⟨by rw [hexited]; rfl, ?_⟩
      by_cases hq : (q : ℤ) = sh.pid
      · exact .inl hq
      · exact .inr (mem_descendants.2 ⟨hq, hlink⟩)
    · exact .inr (.inl ⟨_, hsees.listed q p hp, rfl, .inl (congrArg Nat.cast hmember)⟩)
    · exact .inr (.inl ⟨_, hsees.listed q p hp, rfl, .inr (congrArg (some ∘ Nat.cast) hmember)⟩)
    · exact .inr (.inr ⟨id, hid, hne, hsees.marked id q p hp hmarker⟩)

/-- From a collection on, what it has looked for is hunted. -/
private theorem doomed_of_collection (hkept : Kept sh session s) (hp : s.table.proc q = some p) (hof : p.Of sh.birth)
    (hshell : q = sh.pid → p.birth = sh.birth) (hsought : Sought sh s q p) (hg : Allowed sh s a)
    (hst : ShellClosing.step sh s a = some s') (hcollection : a.Collection) :
    Exposed sh p.birth q ∧ Doomed sh p.birth q s' := by
  have hexposed : Exposed sh p.birth q :=
    ⟨(hkept.apart.apart q p hp hof).1, (hkept.apart.ne hkept.formed hp hof).1, hshell⟩
  refine ⟨hexposed, ?_⟩
  have htakes := takes_of_step hst
  suffices hhunts : Hunts sh q s'.phase ∧ s'.table = s.table by
    refine ⟨hhunts.2.symm ▸ hkept.formed.birth_lt hp, fun q' p' hp' hbirth => ⟨?_, hhunts.1⟩⟩
    rw [hhunts.2] at hp'
    exact hkept.formed.unique q' q p' p hp' hp hbirth
  cases takes_of_step hst with
  | collects hphase => exact ⟨mem_collected hkept hg hp hof hsought, rfl⟩
  | asks hphase hexited horder =>
    have hmem := mem_collected hkept hg hp hof hsought
    exact ⟨hunts_of_again hkept hexposed hp rfl (Finset.mem_union_right _ hmem) hphase htakes, rfl⟩
  | kills hphase horder =>
    have hmem := mem_collected hkept hg hp hof hsought
    exact ⟨hunts_of_again hkept hexposed hp rfl (Finset.mem_union_right _ hmem) hphase htakes, rfl⟩
  | _ => exact hcollection.elim

private theorem kept_of_opens (h : Opens sh s) : ∃ session, Kept sh session s := by
  obtain ⟨before, own, hformed, hfree, hbirth, hown, hgroup, hspawn, hphase, hexit⟩ := h
  obtain ⟨htable, hapart⟩ := Apart.of_spawn hformed hfree hown hspawn
  rw [hbirth, hgroup] at hapart
  refine ⟨own.session, htable, hapart, fun left kill heq => ?_, fun hexited => absurd (of_decide_eq_true hexited) hexit⟩
  rw [hphase] at heq
  cases heq

end ShellClosing

/-- What a collection looks for has gone when a shell is closed, whatever the processes do meanwhile; the server is
there, in its group. -/
theorem nothing_survives {s₀ : ShellClosing} {before after : List (Move ShellClosing TerminateAction)}
    {m : Move ShellClosing TerminateAction} (hopens : s₀.Opens sh)
    (hrun : GuardedRun (ShellClosing.step sh) (ShellClosing.Allowed sh) s₀ (before ++ m :: after) s)
    (hcollection : m.act.Collection) (hphase : s.phase = .returned) :
    (∃ own, s.table.proc sh.own = some own ∧ own.group = sh.group) ∧
    ∀ q p, m.pre.table.proc q = some p → p.Of sh.birth → (q = sh.pid → p.birth = sh.birth) → m.pre.Sought sh q p →
      ∀ q' p', s.table.proc q' = some p' → p'.birth ≠ p.birth := by
  obtain ⟨session, hkept₀⟩ := ShellClosing.kept_of_opens hopens
  have hinv : ∀ s a t, ShellClosing.Kept sh session s → ShellClosing.Allowed sh s a →
      ShellClosing.step sh s a = some t → ShellClosing.Kept sh session t := fun s a t hs hg hst => hs.step hg hst
  obtain ⟨hbefore, hg, hst, hafter⟩ := hrun.at_move
  have hkept := hbefore.invariant hkept₀ hinv
  constructor
  · obtain ⟨own, hown, -, hgroup, -⟩ := (hrun.invariant hkept₀ hinv).apart.watcher
    exact ⟨own, hown, hgroup⟩
  · intro q p hp hof hshell hsought q' p' hp' hbirth
    obtain ⟨hexposed, hdoomed⟩ := ShellClosing.doomed_of_collection hkept hp hof hshell hsought hg hst hcollection
    have hend : ShellClosing.Kept sh session s ∧ ShellClosing.Doomed sh p.birth q s := by
      refine hafter.invariant (I := fun s => ShellClosing.Kept sh session s ∧ ShellClosing.Doomed sh p.birth q s)
        ⟨hkept.step hg hst, hdoomed⟩ fun s a t hs hg hst => ?_
      exact ⟨hs.1.step hg hst, hs.2.step hs.1 hexposed hg hst⟩
    have hhunts := (hend.2.hunted q' p' hp' hbirth).2
    rw [hphase] at hhunts
    exact hhunts

/-- A shell that has ended has left a process of its group. -/
theorem nothing_survives_left :
    ∃ (sh : Started) (s₀ s : ShellClosing) (before after : List (Move ShellClosing TerminateAction))
      (m : Move ShellClosing TerminateAction),
      GuardedRun (ShellClosing.step sh) (ShellClosing.Allowed sh) s₀ (before ++ m :: after) s ∧
      m.pre.exited = true ∧ (m.pre.table.proc 21).map Proc.birth = some 2 ∧
      ∀ q' p', s.table.proc q' = some p' → p'.birth ≠ 2 := by
  let server : Proc (List (List UInt8)) := ⟨0, [], 0, 10, 10, []⟩
  let shell : Proc (List (List UInt8)) := ⟨1, [0], 10, 20, 20, []⟩
  let left : Proc (List (List UInt8)) := ⟨2, [1, 0], 1, 20, 20, []⟩
  let sh : Started := ⟨10, 10, 20, 1, none⟩
  let before : System := ProcTable.first 10 []
  let table₀ : System := { before.set 20 ⟨1, [0], 10, 10, 10, []⟩ with births := 2 }.set 20 shell
  let table₁ : System := { table₀.set 21 ⟨2, [1, 0], 20, 20, 20, []⟩ with births := 3 }
  let table₂ : System := table₁.ended (fun q _ => q = 20) 1
  let table₃ : System := table₂.ended (Kill.hits (.group 20)) 1
  let table₄ : System := table₃.ended (Kill.hits (.process 21)) 1
  let seen : Snapshot := ⟨[procInfo 10 server, procInfo 21 left], fun _ => ∅⟩
  have hfree : before.Free 20 := by
    refine ⟨by decide, rfl, fun q p hp => ?_⟩
    obtain ⟨rfl, rfl⟩ := ProcTable.proc_first hp
    decide
  have hopens : ShellClosing.Opens sh ⟨table₀, .runs, some false⟩ :=
    ⟨before, server, ProcTable.formed_first 10 [], hfree, rfl, rfl, rfl, rfl, rfl, by decide⟩
  have hproc₀ : ∀ q p, table₀.proc q = some p → q = 10 ∧ server = p ∨ q = 20 ∧ shell = p := fun q p hp => by
    rcases ProcTable.set_cases hp with ⟨rfl, rfl⟩ | ⟨_, hp⟩
    · exact .inr ⟨rfl, rfl⟩
    · rcases ProcTable.set_cases hp with ⟨rfl, rfl⟩ | ⟨_, hp⟩
      · contradiction
      · exact .inl (ProcTable.proc_first hp)
  have hfree₁ : table₀.Free 21 := by
    refine ⟨by decide, rfl, fun q p hp => ?_⟩
    rcases hproc₀ q p hp with ⟨rfl, rfl⟩ | ⟨rfl, rfl⟩
    · decide
    · decide
  have hproc₂ : ∀ q p, table₂.proc q = some p → q = 10 ∧ server = p ∨ q = 21 ∧ left = p := fun q p hp => by
    by_cases hq : q = 21
    · subst hq
      exact .inr ⟨rfl, Option.some.inj hp⟩
    · obtain ⟨parent, hold, hgone⟩ := ProcTable.proc_ended hp
      rcases ProcTable.set_cases hold with ⟨rfl, -⟩ | ⟨_, hold⟩
      · contradiction
      · rcases hproc₀ q _ hold with ⟨rfl, -⟩ | ⟨rfl, -⟩
        · exact .inl ⟨rfl, Option.some.inj hp⟩
        · exact absurd rfl (of_decide_eq_false hgone)
  have hsees : Sees table₂ seen := by
    constructor
    · intro q p hp
      rcases hproc₂ q p hp with ⟨rfl, rfl⟩ | ⟨rfl, rfl⟩
      · exact List.mem_cons_self
      · exact List.mem_cons_of_mem _ (List.mem_singleton_self _)
    · intro info hinfo q p hp hpid
      rcases hproc₂ q p hp with ⟨rfl, rfl⟩ | ⟨rfl, rfl⟩
      · rcases List.mem_pair.1 hinfo with rfl | rfl
        · rfl
        · cases hpid
      · rcases List.mem_pair.1 hinfo with rfl | rfl
        · cases hpid
        · rfl
    · intro id q p hp hmarker
      rcases hproc₂ q p hp with ⟨rfl, rfl⟩ | ⟨rfl, rfl⟩
      · cases hmarker
      · cases hmarker
  have hreaped : ∀ q p, table₂.proc q = some p → p.birth ≠ 1 := fun q p hp => by
    rcases hproc₂ q p hp with ⟨rfl, rfl⟩ | ⟨rfl, rfl⟩
    · decide
    · decide
  have hcollected : collectTargets sh.server seen.procs seen.markedPids 20 none false = {21} := by decide
  have hnext : ∀ {s t u : ShellClosing} (a : TerminateAction),
      (∃ ms, GuardedRun (ShellClosing.step sh) (ShellClosing.Allowed sh) s ms t) → ShellClosing.Allowed sh t a →
      ShellClosing.step sh t a = some u → ∃ ms, GuardedRun (ShellClosing.step sh) (ShellClosing.Allowed sh) s ms u :=
    fun _ ⟨_, hrun⟩ hg hst => ⟨_, hrun.step hg hst⟩
  have hrun₁ : ∃ ms, GuardedRun (ShellClosing.step sh) (ShellClosing.Allowed sh) ⟨table₀, .runs, some false⟩ ms
      ⟨table₂, .waits {21}, some true⟩ := by
    refine hnext (t := ⟨table₂, .runs, some true⟩) (.collects seen) ?_ hsees ?_
    · refine hnext (t := ⟨table₂, .runs, some false⟩) .exits ?_ hreaped rfl
      refine hnext (t := ⟨table₁, .runs, some false⟩) (.system (.exit 20 1)) ?_ ⟨trivial, (by decide : 20 ≠ 10)⟩ rfl
      exact hnext (.system (.fork 20 21)) ⟨_, .start⟩ ⟨hfree₁, trivial⟩ rfl
    · exact congrArg (fun targets => some (ShellClosing.mk table₂ (.waits targets) (some true))) hcollected
  have hrun₂ : ∃ ms, GuardedRun (ShellClosing.step sh) (ShellClosing.Allowed sh)
      ⟨table₂, .checks {21} [21], some true⟩ ms ⟨table₄, .returned, some true⟩ := by
    refine hnext (t := ⟨table₄, .kills [], some true⟩) (.sends true 1) ?_ (fun _ _ h => by cases h) rfl
    refine hnext (t := ⟨table₃, .kills [.process 21], some true⟩) (.sends true 1) ?_ (fun _ _ _ => rfl) rfl
    refine hnext (t := ⟨table₂, .kills [.group 20, .process 21], some true⟩) (.sends true 1) ?_ (fun _ _ _ => rfl) rfl
    exact hnext (.checks true [21] .done) ⟨_, .start⟩ (fun _ _ _ _ h => by cases h) rfl
  obtain ⟨ms, hrun₁⟩ := hrun₁
  obtain ⟨ms', hrun₂⟩ := hrun₂
  have hagain : ShellClosing.step sh ⟨table₂, .waits {21}, some true⟩ (.collectsAgain seen [21] .done) =
      some ⟨table₂, .checks {21} [21], some true⟩ := by
    have hasked : {21} ∪ ShellClosing.collected sh ⟨table₂, .waits {21}, some true⟩ seen = {21} := by
      rw [ShellClosing.collected]
      exact (congrArg ({21} ∪ ·) hcollected).trans (by decide)
    simp only [ShellClosing.step, hasked]
    rfl
  have hrun := (hrun₁.step (a := TerminateAction.collectsAgain seen [21] .done) hsees hagain).append hrun₂
  rw [List.append_assoc] at hrun
  refine ⟨sh, _, _, ms, ms', _, hrun, rfl, rfl, ?_⟩
  exact (nothing_survives hopens hrun trivial rfl).2 21 left rfl (.inr (by decide)) nofun (.inr (.inl rfl))
end CliServer.Shell
