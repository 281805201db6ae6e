import CliServer.Lib.GraphSearch
import CliServer.Server.ClientAddress

/-!
# The processes of a shell

The processes that are signalled when a shell closes: with `_descendants`, a search of the process table by the
parents of the processes, the group and the session of the shell, and the processes with its marker.  The table is
read while processes start and end, so it may have a process twice, parents that are not in it, and cycles.
-/

namespace CliServer.Shell

open Relation GraphSearch

/-- `_ProcInfo`. -/
structure ProcInfo where
  pid : ℤ
  ppid : ℤ
  pgid : ℤ
  sid : Option ℤ

/-- The dict `children`. -/
def children (procs : List ProcInfo) : ℤ → List ℤ :=
  procs.foldl (fun dict proc => Function.update dict proc.ppid (dict proc.ppid ++ [proc.pid])) fun _ => []

private theorem children_eq (procs : List ProcInfo) (pid : ℤ) :
    children procs pid = (procs.filter (·.ppid = pid)).map ProcInfo.pid := by
  induction procs using List.reverseRecOn with
  | nil => rfl
  | append_singleton procs proc ih =>
    have hstep : children (procs ++ [proc]) =
        Function.update (children procs) proc.ppid (children procs proc.ppid ++ [proc.pid]) := by
      rw [children, List.foldl_append]
      rfl
    rw [hstep, List.filter_append, List.map_append, ← ih]
    by_cases hpid : proc.ppid = pid
    · simp [hpid]
    · rw [Function.update_of_ne (Ne.symm hpid)]
      simp [hpid]

private theorem children_subset (procs : List ProcInfo) (pid : ℤ) : children procs pid ⊆ procs.map ProcInfo.pid := by
  rw [children_eq]
  exact List.map_subset _ (List.filter_subset_self _)

/-- The processes and their children. -/
def processGraph (procs : List ProcInfo) : Graph ℤ := ⟨procs.map ProcInfo.pid, children procs, children_subset procs⟩

/-- `_descendants`. -/
def descendants (procs : List ProcInfo) (root : ℤ) : List ℤ := (processGraph procs).search (.start root)

/-- `parent` is the parent of `pid` in the table. -/
def ParentLink (procs : List ProcInfo) (parent pid : ℤ) : Prop := ∃ proc ∈ procs, proc.ppid = parent ∧ proc.pid = pid

private theorem edge_iff {procs : List ProcInfo} {parent pid : ℤ} :
    (processGraph procs).Edge parent pid ↔ ParentLink procs parent pid := by
  show pid ∈ children procs parent ↔ _
  rw [children_eq, List.mem_map]
  simp only [List.mem_filter, decide_eq_true_eq, ParentLink, and_assoc]

theorem mem_descendants {procs : List ProcInfo} {root pid : ℤ} :
    pid ∈ descendants procs root ↔ pid ≠ root ∧ ReflTransGen (ParentLink procs) root pid := by
  have hedge : (processGraph procs).Edge = ParentLink procs := funext₂ fun _ _ => propext edge_iff
  rw [descendants, mem_search, hedge]

/-- What the server is, as the system tells it. -/
structure ServerProcess where
  ownPid : ℤ
  ownGroup : ℤ

/-- `_collect_targets`, of the processes and those with a marker. -/
def collectTargets (server : ServerProcess) (procs : List ProcInfo) (markedPids : Str → Finset ℤ) (pid : ℤ)
    (shellId : Option Str) (includeTree : Bool) : Finset ℤ :=
  let tree := if includeTree then insert pid (descendants procs pid).toFinset else ∅
  let members := ((procs.filter fun p => p.pgid = pid ∨ p.sid = some pid).map ProcInfo.pid).toFinset
  let marked := ((shellId.bind nonEmpty).map markedPids).getD ∅
  let ownMembers := ((procs.filter (·.pgid = server.ownGroup)).map ProcInfo.pid).toFinset
  (tree ∪ members ∪ marked).filter fun t => 1 < t ∧ t ≠ server.ownPid ∧ t ∉ ownMembers

/-- Not a process that is never signalled: the first one, the server and the members of its group. -/
def ServerProcess.MaySignal (server : ServerProcess) (procs : List ProcInfo) (pid : ℤ) : Prop :=
  1 < pid ∧ pid ≠ server.ownPid ∧ ∀ proc ∈ procs, proc.pgid = server.ownGroup → proc.pid ≠ pid

/-- What is collected. -/
theorem mem_collectTargets {server : ServerProcess} {procs : List ProcInfo} {markedPids : Str → Finset ℤ} {pid t : ℤ}
    {shellId : Option Str} {includeTree : Bool} :
    t ∈ collectTargets server procs markedPids pid shellId includeTree ↔
      server.MaySignal procs t ∧
      ((includeTree = true ∧ (t = pid ∨ t ∈ descendants procs pid)) ∨
        (∃ proc ∈ procs, proc.pid = t ∧ (proc.pgid = pid ∨ proc.sid = some pid)) ∨
        ∃ id, shellId = some id ∧ id ≠ [] ∧ t ∈ markedPids id) := by
  have hmembers : t ∈ ((procs.filter fun p => p.pgid = pid ∨ p.sid = some pid).map ProcInfo.pid).toFinset ↔
      ∃ proc ∈ procs, proc.pid = t ∧ (proc.pgid = pid ∨ proc.sid = some pid) := by
    simp only [List.mem_toFinset, List.mem_map, List.mem_filter, decide_eq_true_eq]
    exact exists_congr fun _ => and_assoc.trans (and_congr_right fun _ => and_comm)
  have hown : t ∉ ((procs.filter (·.pgid = server.ownGroup)).map ProcInfo.pid).toFinset ↔
      ∀ proc ∈ procs, proc.pgid = server.ownGroup → proc.pid ≠ t := by
    simp only [List.mem_toFinset, List.mem_map, List.mem_filter, decide_eq_true_eq, not_exists, not_and, and_imp]
  have htree : t ∈ (if includeTree then insert pid (descendants procs pid).toFinset else ∅) ↔
      includeTree = true ∧ (t = pid ∨ t ∈ descendants procs pid) := by
    cases includeTree <;> simp
  have hmarked : t ∈ ((shellId.bind nonEmpty).map markedPids).getD ∅ ↔
      ∃ id, shellId = some id ∧ id ≠ [] ∧ t ∈ markedPids id := by
    cases shellId with
    | none => simp
    | some id =>
      by_cases hid : id = []
      · simp [nonEmpty, hid]
      · simp [nonEmpty, hid]
  rw [collectTargets, Finset.mem_filter, Finset.mem_union, Finset.mem_union, hmembers, hown, htree, hmarked, or_assoc,
    and_comm]
  rfl

/-- The descendants are the processes that can be reached, each once; and what is collected is, of the processes that
may be signalled, the shell and its descendants when they are asked for, the members of its group and of its session,
and what has its marker. -/
theorem collectTargets_spec (server : ServerProcess) (procs : List ProcInfo) (markedPids : Str → Finset ℤ) (pid : ℤ)
    (shellId : Option Str) (includeTree : Bool) :
    ((descendants procs pid).Nodup ∧
      ∀ t, t ∈ descendants procs pid ↔ t ≠ pid ∧ ReflTransGen (ParentLink procs) pid t) ∧
    ∀ t, t ∈ collectTargets server procs markedPids pid shellId includeTree ↔
      server.MaySignal procs t ∧
      ((includeTree = true ∧ ReflTransGen (ParentLink procs) pid t) ∨
        (∃ proc ∈ procs, proc.pid = t ∧ (proc.pgid = pid ∨ proc.sid = some pid)) ∨
        ∃ id, shellId = some id ∧ id ≠ [] ∧ t ∈ markedPids id) := by
  refine ⟨⟨nodup_search _ _, fun t => mem_descendants⟩, fun t => ?_⟩
  have htree : (t = pid ∨ t ∈ descendants procs pid) ↔ ReflTransGen (ParentLink procs) pid t := by
    rw [mem_descendants]
    constructor
    · rintro (rfl | ⟨-, hreach⟩)
      · exact ReflTransGen.refl
      · exact hreach
    · exact fun hreach => or_iff_not_imp_left.2 fun hne => ⟨hne, hreach⟩
  rw [mem_collectTargets, htree]

/-- The child of a shell, in a group and a session of its own, is not collected without the tree. -/
theorem descendant_left_out :
    ¬ ∀ (server : ServerProcess) (procs : List ProcInfo) (markedPids : Str → Finset ℤ) (pid : ℤ) (shellId : Option Str)
      (includeTree : Bool), ∀ t ∈ descendants procs pid, server.MaySignal procs t →
        t ∈ collectTargets server procs markedPids pid shellId includeTree := by
  intro hall
  have hlink : ParentLink [⟨3, 2, 3, some 3⟩] 2 3 := ⟨_, List.mem_singleton_self _, rfl, rfl⟩
  have hmay : (⟨10, 10⟩ : ServerProcess).MaySignal [⟨3, 2, 3, some 3⟩] 3 := by simp [ServerProcess.MaySignal]
  have hcollected := hall ⟨10, 10⟩ [⟨3, 2, 3, some 3⟩] (fun _ => ∅) 2 none false 3
    (mem_descendants.2 ⟨by decide, ReflTransGen.single hlink⟩) hmay
  rw [mem_collectTargets] at hcollected
  simp at hcollected

/-! ### Signals -/

/-- A call of `os.killpg` or of `os.kill`. -/
inductive Kill where
  | group (pgid : ℤ)
  | process (pid : ℤ)

/-- How `os.killpg` ends; `refused`: with a `ProcessLookupError` or a `PermissionError`. -/
inductive KillpgOutcome where
  | done
  | refused
  | failed
  deriving DecidableEq

/-- `_signal_pid`. -/
def signalPid (server : ServerProcess) (pid : ℤ) : List Kill :=
  if pid ≤ 1 ∨ pid = server.ownPid then [] else [.process pid]

/-- `_signal_group`. -/
def signalGroup (server : ServerProcess) (outcome : KillpgOutcome) (pid : ℤ) (fallbackToPid : Bool) : List Kill :=
  if pid ≤ 1 ∨ pid = server.ownGroup then []
  else .group pid :: if outcome = .refused ∧ fallbackToPid then signalPid server pid else []

/-- `signal_all`, for targets in some order. -/
def signalAll (server : ServerProcess) (outcome : KillpgOutcome) (pid : ℤ) (reaped : Bool) (targets : List ℤ) :
    List Kill :=
  signalGroup server outcome pid (!reaped) ++
    targets.flatMap fun target => if reaped ∧ target = pid then [] else signalPid server target

theorem mem_signalPid {server : ServerProcess} {pid : ℤ} {kill : Kill} (h : kill ∈ signalPid server pid) :
    kill = .process pid ∧ 1 < pid ∧ pid ≠ server.ownPid := by
  unfold signalPid at h
  split at h
  · cases h
  · next hpid =>
    rw [not_or, not_le] at hpid
    exact ⟨List.mem_singleton.1 h, hpid⟩

theorem mem_signalGroup {server : ServerProcess} {outcome : KillpgOutcome} {pid : ℤ} {fallbackToPid : Bool}
    {kill : Kill} (h : kill ∈ signalGroup server outcome pid fallbackToPid) :
    (kill = .group pid ∧ 1 < pid ∧ pid ≠ server.ownGroup) ∨ (kill = .process pid ∧ 1 < pid ∧ pid ≠ server.ownPid) := by
  unfold signalGroup at h
  split at h
  · cases h
  · next hpid =>
    rw [not_or, not_le] at hpid
    rcases List.mem_cons.1 h with rfl | h
    · exact .inl ⟨rfl, hpid⟩
    · split at h
      · exact .inr (mem_signalPid h)
      · cases h

/-- A closing shell signals its own group and process and what was collected, never the server or its group. -/
theorem signalAll_spares_server {server : ServerProcess} {procs : List ProcInfo} {markedPids : Str → Finset ℤ} {pid : ℤ}
    {shellId : Option Str} {includeTree reaped : Bool} {outcome : KillpgOutcome} {targets : List ℤ} {kill : Kill}
    (htargets : ∀ t ∈ targets, t ∈ collectTargets server procs markedPids pid shellId includeTree)
    (hkill : kill ∈ signalAll server outcome pid reaped targets) :
    (kill = .group pid ∧ 1 < pid ∧ pid ≠ server.ownGroup) ∨
    ∃ t, kill = .process t ∧ 1 < t ∧ t ≠ server.ownPid ∧ (t ≠ pid → server.MaySignal procs t) := by
  rcases List.mem_append.1 hkill with hkill | hkill
  · refine (mem_signalGroup hkill).imp_right fun ⟨heq, hpid⟩ => ?_
    exact ⟨pid, heq, hpid.1, hpid.2, fun hne => absurd rfl hne⟩
  · obtain ⟨target, hmem, hkill⟩ := List.mem_flatMap.1 hkill
    split at hkill
    · cases hkill
    · obtain ⟨heq, hpid⟩ := mem_signalPid hkill
      exact .inr ⟨target, heq, hpid.1, hpid.2, fun _ => (mem_collectTargets.1 (htargets target hmem)).1⟩

end CliServer.Shell
