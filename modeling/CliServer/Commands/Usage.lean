import CliServer.Commands.Registry
import CliServer.Lib.Tallies
import CliServer.Lib.Transition
import CliServer.Server.ClientAddress

/-!
# Counting the executions

The executor counts every execution when it ends: under the name of the root command that the registry has for it, or
under its own first word.  It also announces the end of a command it knows.  Executions overlap, and processors are
registered meanwhile; what `GET /commands/stats` answers are nevertheless the executions that have ended
(`command_stats`), and no argument of a command is in it or in an event.
-/

namespace CliServer

namespace CommandUsage

open Transition

section Usage

variable {δ τ : Type} [Zero δ] [Add δ] [Max δ]

/-- `_Usage`. -/
structure Usage (δ τ : Type) where
  known : Bool
  executions : Nat
  failures : Nat
  totalDuration : δ
  lastExecutedAt : Option τ
  lastFailedAt : Option τ
  deriving DecidableEq

/-- `_Usage(known=known)`. -/
def Usage.start (known : Bool) : Usage δ τ := ⟨known, 0, 0, 0, none, none⟩

/-- What `record` does to an entry. -/
def Usage.count (known : Bool) (duration : δ) (failed : Bool) (now : τ) (u : Usage δ τ) : Usage δ τ where
  known := u.known || known
  executions := u.executions + 1
  totalDuration := u.totalDuration + max duration 0
  lastExecutedAt := some now
  failures := if failed then u.failures + 1 else u.failures
  lastFailedAt := if failed then some now else u.lastFailedAt

variable (t : CaseTable)

/-- `record`. -/
def record (usage : List (Str × Usage δ τ)) (command : Str) (known : Bool) (duration : δ) (failed : Bool) (now : τ) :
    List (Str × Usage δ τ) :=
  let name := lower t (strip command)
  if name = [] then usage
  else Tallies.upsert usage name (.count known duration failed now (.start known)) (.count known duration failed now)

/-- `record_usage`. -/
def recordUsage (r : Registry t) (usage : List (Str × Usage δ τ)) (command : Str) (duration : δ) (failed : Bool)
    (now : τ) : List (Str × Usage δ τ) :=
  let name := strip command
  if name = [] then usage
  else match r.findProcessor t name [] with
    | some p => record t usage p.command true duration failed now
    | none => record t usage (name.takeWhile fun c => !isSpace c) false duration failed now

/-- The data of a `command:executed` event. -/
structure CommandExecuted where
  command : Str
  success : Bool
  durationMs : Int
  userId : Option Str
  deriving DecidableEq

/-- `notify_executed`, with an event bus: the event that is published. -/
def notifyExecuted (round : δ → Int) (r : Registry t) (command : Str) (duration : δ) (failed : Bool)
    (userId : Option Str) : Option CommandExecuted :=
  let name := strip command
  if name = [] then none
  else (r.findProcessor t name []).map fun p => ⟨p.command, !failed, round duration, userId.bind nonEmpty⟩

/-- An entry of the answer of `GET /commands/stats`. -/
structure StatsRow (δ τ : Type) where
  command : Str
  known : Bool
  executions : Nat
  failures : Nat
  avgDuration : Option δ
  lastExecutedAt : Option τ
  lastFailedAt : Option τ

/-- The order of the sort key `(-executions, name)`. -/
def precedes (a b : Str × Usage δ τ) : Bool :=
  b.2.executions < a.2.executions ∨ a.2.executions = b.2.executions ∧ a.1 ≤ b.1

/-- `snapshot`. -/
def snapshot [HDiv δ Nat δ] (usage : List (Str × Usage δ τ)) : List (StatsRow δ τ) :=
  (usage.mergeSort precedes).map fun e => ⟨e.1, e.2.known, e.2.executions, e.2.failures,
    if e.2.executions = 0 then none else some (e.2.totalDuration / e.2.executions),
    e.2.lastExecutedAt, e.2.lastFailedAt⟩

/-! ### The server -/

/-- An execution, by the executor or as a stream. -/
structure Execution where
  command : Str
  userId : Option Str
  outcome : Outcome
  finished : Bool := false

/-- The registry, the counters, the executions so far and the events that were published. -/
structure CommandServer (t : CaseTable) (δ τ : Type) where
  registry : Registry t := .empty
  usage : List (Str × Usage δ τ) := []
  executions : List Execution := []
  events : List CommandExecuted := []

inductive CommandAction (δ τ : Type) where
  | register (p : Processor)
  | execute (command : Str) (chain : List Str) (userId : Option Str) (isBlocked : Processor → Bool)
  /-- The command has its exit code, or raises, or is cancelled; then it is counted, and the event published. -/
  | finish (i : Nat) (failed : Bool) (duration : δ) (now : τ)

def commandStep (round : δ → Int) (s : CommandServer t δ τ) : CommandAction δ τ → Option (CommandServer t δ τ)
  | .register p => some { s with registry := s.registry.register p }
  | .execute command chain userId isBlocked =>
    let outcome := execute t s.registry isBlocked command chain
    some { s with executions := s.executions ++ [⟨command, userId, outcome, false⟩] }
  | .finish i failed duration now =>
    match s.executions[i]? with
    | none => none
    | some e =>
      -- What does not run a processor has the exit code 1.
      let failed := match e.outcome with
        | .ran _ => failed
        | _ => true
      if e.finished then none
      else some { s with
        executions := s.executions.set i { e with finished := true }
        usage := recordUsage t s.registry s.usage e.command duration failed now
        events := s.events ++ (notifyExecuted t round s.registry e.command duration failed e.userId).toList }

/-! ### What has ended -/

/-- The end of an execution: the root command, whether the registry knew it, and what was recorded. -/
structure Finished (δ τ : Type) where
  root : Str
  known : Bool
  userId : Option Str
  duration : δ
  failed : Bool
  now : τ

/-- The name it is counted under. -/
def Finished.name (d : Finished δ τ) : Str := lower t (strip d.root)

/-- The end of an execution, unless its command is blank. -/
def finished (m : Move (CommandServer t δ τ) (CommandAction δ τ)) : Option (Finished δ τ) :=
  match m.act with
  | .finish i failed duration now =>
    (m.pre.executions[i]?).bind fun e =>
      let name := strip e.command
      let failed := match e.outcome with
        | .ran _ => failed
        | _ => true
      if name = [] then none
      else match m.pre.registry.findProcessor t name [] with
        | some p => some ⟨p.command, true, e.userId, duration, failed, now⟩
        | none => some ⟨name.takeWhile fun c => !isSpace c, false, e.userId, duration, failed, now⟩
  | _ => none

/-- The counters of executions that have ended. -/
def summary (l : List (Finished δ τ)) : Usage δ τ where
  known := l.any (·.known)
  executions := l.length
  failures := l.countP (·.failed)
  totalDuration := (l.map fun d => max d.duration 0).foldl (· + ·) 0
  lastExecutedAt := l.getLast?.map (·.now)
  lastFailedAt := (l.filter (·.failed)).getLast?.map (·.now)

/-- The event of one that the registry knew. -/
def Finished.event (round : δ → Int) (d : Finished δ τ) : Option CommandExecuted :=
  if d.known then some ⟨d.root, !d.failed, round d.duration, d.userId.bind nonEmpty⟩ else none

variable {t} {round : δ → Int} {usage : List (Str × Usage δ τ)} {s s' : CommandServer t δ τ}
  {ms : List (Move (CommandServer t δ τ) (CommandAction δ τ))} {a : CommandAction δ τ} {d : Finished δ τ}

private theorem summary_single (d : Finished δ τ) :
    summary [d] = Usage.count d.known d.duration d.failed d.now (.start d.known) := by
  cases hfailed : d.failed <;> simp [summary, Usage.count, Usage.start, hfailed]

private theorem summary_append (l : List (Finished δ τ)) (d : Finished δ τ) :
    summary (l ++ [d]) = (summary l).count d.known d.duration d.failed d.now := by
  cases hfailed : d.failed <;> simp [summary, Usage.count, hfailed]

/-- Those that are counted. -/
def counted (t : CaseTable) (ms : List (Move (CommandServer t δ τ) (CommandAction δ τ))) : List (Finished δ τ) :=
  (ms.filterMap (finished t)).filter fun d => d.name t ≠ []

/-- The counters are those of what has ended. -/
structure Tallied (round : δ → Int) (ms : List (Move (CommandServer t δ τ) (CommandAction δ τ)))
    (s : CommandServer t δ τ) : Prop where
  usage : s.usage = (Tallies.groupBy (Finished.name t) (counted t ms)).map fun g => (g.1, summary g.2)
  events : s.events = (ms.filterMap (finished t)).filterMap (Finished.event round)

/-- What a step counts and publishes is what has ended with it. -/
theorem step_cases (hst : commandStep t round s a = some s') :
    s'.usage = ((finished t ⟨s, a, s'⟩).map fun d =>
      record t s.usage d.root d.known d.duration d.failed d.now).getD s.usage ∧
      s'.events = s.events ++ ((finished t ⟨s, a, s'⟩).bind (Finished.event round)).toList := by
  cases a with
  | register p =>
    obtain rfl := Option.some.inj hst
    simp [finished]
  | execute command chain userId isBlocked =>
    obtain rfl := Option.some.inj hst
    simp [finished]
  | finish i failed duration now =>
    simp only [commandStep] at hst
    split at hst
    · cases hst
    · next e he =>
      split at hst
      · cases hst
      · obtain rfl := Option.some.inj hst
        simp only [finished, he, Option.bind_some, recordUsage, notifyExecuted]
        by_cases hblank : strip e.command = []
        · simp [hblank]
        · simp only [if_neg hblank]
          cases s.registry.findProcessor t (strip e.command) [] with
          | none => simp [Finished.event]
          | some p => simp [Finished.event]

omit [Zero δ] [Add δ] [Max δ] in
/-- The name of a command that the registry knew is that of a processor. -/
private theorem finished_known {m : Move (CommandServer t δ τ) (CommandAction δ τ)} (hd : finished t m = some d)
    (hknown : d.known = true) : ∃ p ∈ m.pre.registry.processors, d.root = p.command := by
  unfold finished at hd
  split at hd
  · obtain ⟨e, -, hd⟩ := Option.bind_eq_some_iff.1 hd
    dsimp only at hd
    split at hd
    · cases hd
    · split at hd
      · next p hp =>
        obtain rfl := Option.some.inj hd
        refine ⟨p, ?_, rfl⟩
        obtain ⟨root, hroot, hresolved⟩ := Option.bind_eq_some_iff.1 hp
        obtain rfl := Option.some.inj hresolved
        obtain ⟨entry, hentry, rfl⟩ := Option.map_eq_some_iff.1 hroot
        exact List.mem_map_of_mem (List.mem_of_find?_eq_some hentry)
      · obtain rfl := Option.some.inj hd
        cases hknown
  · cases hd

private theorem record_groupBy (l : List (Finished δ τ)) (d : Finished δ τ) :
    record t ((Tallies.groupBy (Finished.name t) l).map fun g => (g.1, summary g.2)) d.root d.known d.duration d.failed
      d.now = (Tallies.groupBy (Finished.name t) (l ++ [d].filter fun d => d.name t ≠ [])).map fun g =>
        (g.1, summary g.2) := by
  unfold record
  by_cases hblank : d.name t = []
  · have hname : lower t (strip d.root) = [] := hblank
    simp [hname, hblank]
  · have hname : lower t (strip d.root) ≠ [] := hblank
    have hstep : Tallies.groupBy (Finished.name t) (l ++ [d]) =
        Tallies.append (Tallies.groupBy (Finished.name t) l) (d.name t) d := by
      unfold Tallies.groupBy
      rw [List.foldl_append]
      rfl
    rw [List.filter_cons_of_pos (by simpa using hblank), List.filter_nil, hstep,
      ← Tallies.upsert_summaries (summary_single d) fun l => summary_append l d]
    exact if_neg hname

theorem Tallied.step (h : Tallied round ms s) (hst : commandStep t round s a = some s') :
    Tallied round (ms ++ [⟨s, a, s'⟩]) s' := by
  obtain ⟨husage, hevents⟩ := step_cases hst
  constructor
  · rw [husage, h.usage, counted, counted, List.filterMap_append, List.filter_append]
    cases hfinished : finished t ⟨s, a, s'⟩ with
    | none => simp [hfinished]
    | some d =>
      simp only [hfinished, List.filterMap_cons, List.filterMap_nil, Option.map_some, Option.getD_some, record_groupBy]
  · rw [hevents, h.events, List.filterMap_append, List.filterMap_append]
    cases hfinished : finished t ⟨s, a, s'⟩ with
    | none => simp [hfinished]
    | some d =>
      simp only [hfinished, Option.bind_some, List.filterMap_cons, List.filterMap_nil]
      cases d.event round <;> rfl

/-! ### The statistics -/

variable [HDiv δ Nat δ]

/-- The entry for executions that are counted under one name. -/
def statsRow (name : Str) (l : List (Finished δ τ)) : StatsRow δ τ where
  command := name
  known := l.any (·.known)
  executions := l.length
  failures := l.countP (·.failed)
  avgDuration := some ((l.map fun d => max d.duration 0).foldl (· + ·) 0 / l.length)
  lastExecutedAt := l.getLast?.map (·.now)
  lastFailedAt := (l.filter (·.failed)).getLast?.map (·.now)

/-- The names under which executions are counted. -/
def names (l : List (Finished δ τ)) : List Str := (Tallies.groupBy (Finished.name t) l).map Prod.fst

/-- The rows in the order of the counters. -/
private theorem snapshot_perm (l : List (Finished δ τ)) :
    (snapshot ((Tallies.groupBy (Finished.name t) l).map fun g => (g.1, summary g.2))).Perm
      ((names (t := t) l).map fun name => statsRow name (l.filter fun d => d.name t = name)) := by
  obtain ⟨hnodup, hkeys, hgroup⟩ := Tallies.groupBy_spec (Finished.name t) l
  refine ((List.mergeSort_perm _ _).map _).trans (.of_eq ?_)
  rw [names, List.map_map, List.map_map]
  refine List.map_congr_left fun g hg => ?_
  have hlist : g.2 = l.filter fun d => d.name t = g.1 := by rw [← hgroup, Tallies.group_of_mem hnodup hg]
  have hne : (l.filter fun d => d.name t = g.1) ≠ [] := by
    obtain ⟨d, hd, hname⟩ := (hkeys g.1).1 (List.mem_map_of_mem hg)
    exact List.ne_nil_of_mem (List.mem_filter.2 ⟨hd, decide_eq_true hname⟩)
  have hlength : (l.filter fun d => d.name t = g.1).length ≠ 0 := fun h => hne (List.length_eq_zero_iff.1 h)
  simp only [Function.comp_apply, hlist, summary, statsRow, if_neg hlength]

omit [Zero δ] [Add δ] [Max δ] in
/-- The most executed come first; of those executed as often, the first by name. -/
private theorem snapshot_sorted (hnames : (usage.map Prod.fst).Nodup) :
    (snapshot usage).Pairwise fun a b => b.executions < a.executions ∨
      a.executions = b.executions ∧ a.command < b.command := by
  have htrans : ∀ a b c : Str × Usage δ τ, precedes a b = true → precedes b c = true → precedes a c = true := by
    intro a b c hab hbc
    simp only [precedes, decide_eq_true_eq] at hab hbc ⊢
    rcases hab with hab | ⟨hab, hname⟩
    · rcases hbc with hbc | ⟨hbc, -⟩
      · exact .inl (hbc.trans hab)
      · exact .inl (hbc ▸ hab)
    · rcases hbc with hbc | ⟨hbc, hname'⟩
      · exact .inl (hab ▸ hbc)
      · exact .inr ⟨hab.trans hbc, hname.trans hname'⟩
  have htotal : ∀ a b : Str × Usage δ τ, (precedes a b || precedes b a) = true := by
    intro a b
    simp only [precedes, Bool.or_eq_true, decide_eq_true_eq]
    rcases Nat.lt_trichotomy a.2.executions b.2.executions with hlt | heq | hlt
    · exact .inr (.inl hlt)
    · exact (le_total a.1 b.1).imp (fun hle => .inr ⟨heq, hle⟩) fun hle => .inr ⟨heq.symm, hle⟩
    · exact .inl (.inl hlt)
  have hsorted : (usage.mergeSort precedes).Pairwise fun a b => precedes a b = true :=
    List.pairwise_mergeSort htrans htotal usage
  have hdistinct : (usage.mergeSort precedes).Pairwise fun a b => a.1 ≠ b.1 :=
    List.pairwise_map.1 (((List.mergeSort_perm _ _).map Prod.fst).nodup_iff.2 hnames)
  refine List.pairwise_map.2 (hsorted.imp₂ (fun a b hab hne => ?_) hdistinct)
  simp only [precedes, decide_eq_true_eq] at hab
  exact hab.imp_right fun ⟨heq, hle⟩ => ⟨heq, lt_of_le_of_ne hle hne⟩

/-- However executions overlap, the answer has one entry for each name under which an execution has ended, with all that
have; the most executed come first.  What was published are the ends of the known commands, each with the name of a
processor. -/
theorem command_stats (h : Run (commandStep t round) {} ms s) :
    (snapshot s.usage).Pairwise (fun a b => b.executions < a.executions ∨
      a.executions = b.executions ∧ a.command < b.command) ∧
    (∀ row, row ∈ snapshot s.usage ↔ ∃ d ∈ counted t ms,
      row = statsRow (d.name t) ((counted t ms).filter fun d' => d'.name t = d.name t)) ∧
    ((snapshot s.usage).map (·.executions)).sum = (counted t ms).length ∧
    s.events = (ms.filterMap (finished t)).filterMap (Finished.event round) ∧
    ∀ e ∈ s.events, ∃ m ∈ ms, ∃ p ∈ m.pre.registry.processors, e.command = p.command := by
  have htallied : Tallied round ms s := h.history (I := Tallied round) ⟨rfl, rfl⟩ fun _ _ _ _ hs _ hst => hs.step hst
  obtain ⟨hnodup, hkeys, -⟩ := Tallies.groupBy_spec (Finished.name t) (counted t ms)
  rw [htallied.usage]
  refine ⟨snapshot_sorted (by rwa [List.map_map]), fun row => ?_, ?_, htallied.events, fun e he => ?_⟩
  · rw [(snapshot_perm _).mem_iff, List.mem_map]
    constructor
    · rintro ⟨name, hname, rfl⟩
      obtain ⟨d, hd, rfl⟩ := (hkeys name).1 hname
      exact ⟨d, hd, rfl⟩
    · rintro ⟨d, hd, rfl⟩
      exact ⟨d.name t, (hkeys _).2 ⟨d, hd, rfl⟩, rfl⟩
  · have hsum := Tallies.sum_countP_groups hnodup (fun d hd => (hkeys _).2 ⟨d, hd, rfl⟩) fun _ => true
    rw [((snapshot_perm _).map _).sum_eq, List.map_map]
    simp only [List.countP_true] at hsum
    exact hsum
  · rw [htallied.events, List.mem_filterMap] at he
    obtain ⟨d, hd, hevent⟩ := he
    obtain ⟨m, hm, hfinished⟩ := List.mem_filterMap.1 hd
    unfold Finished.event at hevent
    split at hevent
    · next hknown =>
      obtain ⟨p, hp, hroot⟩ := finished_known hfinished hknown
      obtain rfl := Option.some.inj hevent
      exact ⟨m, hm, p, hp, hroot⟩
    · cases hevent

end Usage

/-- A command that is not known and one that is, the second of which ends first. -/
theorem command_stats_overlapping :
    let t : CaseTable := fun _ _ _ => []
    ∃ (ms : List (Move (CommandServer t Nat Nat) (CommandAction Nat Nat))) (s : CommandServer t Nat Nat),
      s.usage.map Prod.fst = ["echo".toList, "nope".toList] ∧
      s.events = [⟨"Echo".toList, true, 3, some "u1".toList⟩] ∧
      ((snapshot s.usage).map (·.executions)).sum = (counted t ms).length := by
  intro t
  let actions : List (CommandAction Nat Nat) :=
    [.register { id := 1, command := "Echo".toList },
      .execute " nope x".toList [] none fun _ => false, .execute "echo".toList [] (some "u1".toList) fun _ => false,
      .finish 1 false 3 10, .finish 0 false 5 11]
  have hexec : (exec (commandStep t Int.ofNat) ({} : CommandServer t Nat Nat) actions).any (fun r =>
      decide (r.2.usage.map Prod.fst = ["echo".toList, "nope".toList] ∧
        r.2.events = [⟨"Echo".toList, true, 3, some "u1".toList⟩])) = true := by
    decide +kernel
  obtain ⟨⟨ms, s⟩, hexec, hboth⟩ := (Option.any_eq_true _ _).1 hexec
  obtain ⟨hnames, hevents⟩ := of_decide_eq_true hboth
  exact ⟨ms, s, hnames, hevents, (command_stats (run_of_exec hexec)).2.2.1⟩

end CommandUsage

end CliServer
