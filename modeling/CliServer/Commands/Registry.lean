import CliServer.Text

/-!
# The command registry and the executor

Processors form trees; the registry holds their roots under the lower case of their names, and resolves a command name
and a chain of sub-command names to the processor that runs.  A chain that leaves the tree at a processor with
`allow_unlisted_commands` runs that processor.

`resolveTrail` is the same resolution with the processors it goes through.
-/

namespace CliServer

/-- A processor; `id` is its identity, `streams` whether it implements streaming. -/
structure Processor where
  id : Nat
  command : Str
  requiredPermissions : List Str := []
  allowUnlistedCommands : Bool := false
  valueRequired : Option Bool := none
  parameters : List Str := []
  streams : Bool := false
  processors : List Processor := []

/-- `CliCommandRegistry`: a dict from the lower case of a processor's name to the processor. -/
structure Registry (t : CaseTable) where
  entries : List (Str × Processor)
  keyed : ∀ e ∈ entries, e.1 = lower t e.2.command
  nodup : (entries.map Prod.fst).Nodup

variable {t : CaseTable}

namespace Registry

def empty : Registry t where
  entries := []
  keyed := by simp
  nodup := by simp

/-- `register`: a processor takes the place of one with the same name. -/
def register (r : Registry t) (p : Processor) : Registry t :=
  if h : lower t p.command ∈ r.entries.map Prod.fst then
    { entries := r.entries.map fun e => if e.1 = lower t p.command then (e.1, p) else e
      keyed := by
        intro e' he'
        obtain ⟨e, he, rfl⟩ := List.mem_map.1 he'
        split
        · assumption
        · exact r.keyed e he
      nodup := by
        have hkeys : Prod.fst ∘ (fun e : Str × Processor => if e.1 = lower t p.command then (e.1, p) else e) =
            Prod.fst := by
          funext e
          simp only [Function.comp_apply]
          split <;> rfl
        rw [List.map_map, hkeys]
        exact r.nodup }
  else
    { entries := r.entries ++ [(lower t p.command, p)]
      keyed := by
        intro e he
        rcases List.mem_append.1 he with he | he
        · exact r.keyed e he
        · rw [List.mem_singleton.1 he]
      nodup := by
        rw [List.map_append, List.nodup_append]
        refine ⟨r.nodup, by simp, ?_⟩
        intro a ha b hb heq
        have hb : b = lower t p.command := by simpa using hb
        exact h (hb ▸ heq ▸ ha) }

/-- `processors`. -/
def processors (r : Registry t) : List Processor := r.entries.map Prod.snd

def lookup (r : Registry t) (command : Str) : Option Processor :=
  (r.entries.find? (·.1 = lower t command)).map Prod.snd

end Registry

variable (t)

/-- The sub-processor of a name: the first whose name is the same up to case. -/
def Processor.sub (p : Processor) (name : Str) : Option Processor :=
  p.processors.find? fun q => lower t q.command = lower t name

/-- `_resolve_chain`. -/
def resolveChain (current : Processor) : List Str → Option Processor
  | [] => some current
  | name :: chain =>
    if current.processors.isEmpty then if current.allowUnlistedCommands then some current else none
    else match current.sub t name with
      | none => if current.allowUnlistedCommands then some current else none
      | some found => resolveChain found chain

/-- `find_processor`. -/
def Registry.findProcessor (r : Registry t) (command : Str) (chain : List Str) : Option Processor :=
  (r.lookup command).bind fun root => resolveChain t root chain

/-! ### Execution -/

/-- What became of a command. -/
inductive Outcome where
  | unknown
  | disabled
  | ran (p : Processor)

/-- `_execute`, with what `is_blocked` answers. -/
def execute (r : Registry t) (isBlocked : Processor → Bool) (command : Str) (chain : List Str) : Outcome :=
  match r.findProcessor t command chain with
  | none => .unknown
  | some p => if isBlocked p then .disabled else .ran p

/-- `execute_stream`: a processor that cannot stream is left to the executor. -/
def executeStream (r : Registry t) (isBlocked : Processor → Bool) (command : Str) (chain : List Str) : Outcome :=
  match r.findProcessor t command chain with
  | none => .unknown
  | some p =>
    if isBlocked p then .disabled
    else if p.streams then .ran p
    else execute t r isBlocked command chain

/-- The call of an MCP tool for the command `path`. -/
def callTool (r : Registry t) (isBlocked : Processor → Bool) (path : List Str) : Outcome :=
  execute t r isBlocked (path.headD []) path.tail

/-- The ways to run a command. -/
inductive Entry where
  | rest | stream | tool

def Entry.run (entry : Entry) (r : Registry t) (isBlocked : Processor → Bool) (command : Str) (chain : List Str) :
    Outcome :=
  match entry with
  | .rest => execute t r isBlocked command chain
  | .stream => executeStream t r isBlocked command chain
  | .tool => callTool t r isBlocked (command :: chain)

variable {t}

@[simp] theorem executeStream_eq (r : Registry t) (isBlocked : Processor → Bool) (command : Str) (chain : List Str) :
    executeStream t r isBlocked command chain = execute t r isBlocked command chain := by
  unfold executeStream
  cases h : r.findProcessor t command chain with
  | none => simp [execute, h]
  | some p =>
    cases hb : isBlocked p with
    | true => simp [execute, h, hb]
    | false => simp [execute, h, hb]

/-- All of them run the processor that is found, unless it is blocked. -/
theorem Entry.run_of_find (entry : Entry) {r : Registry t} {isBlocked : Processor → Bool} {command : Str}
    {chain : List Str} {p : Processor} (h : r.findProcessor t command chain = some p) :
    entry.run t r isBlocked command chain = if isBlocked p then .disabled else .ran p := by
  have hexecute : execute t r isBlocked command chain = if isBlocked p then .disabled else .ran p := by
    rw [execute, h]
  cases entry with
  | rest => exact hexecute
  | stream => exact (executeStream_eq r isBlocked command chain).trans hexecute
  | tool => exact hexecute

theorem execute_eq_ran {r : Registry t} {isBlocked : Processor → Bool} {command : Str} {chain : List Str}
    {p : Processor} : execute t r isBlocked command chain = .ran p ↔
      r.findProcessor t command chain = some p ∧ isBlocked p = false := by
  unfold execute
  cases h : r.findProcessor t command chain with
  | none => simp
  | some q =>
    simp only [Option.some.injEq]
    constructor
    · intro hran
      split at hran
      · cases hran
      · rename_i hb
        obtain rfl := Outcome.ran.inj hran
        exact ⟨rfl, by simpa using hb⟩
    · rintro ⟨rfl, hb⟩
      rw [hb]
      rfl

/-- A registered processor is found under its name. -/
theorem Registry.lookup_command (r : Registry t) {p : Processor} (hp : p ∈ r.processors) :
    r.lookup p.command = some p := by
  obtain ⟨e, he, rfl⟩ := List.mem_map.1 hp
  have hkey := r.keyed e he
  have hsome : (r.entries.find? (·.1 = lower t e.2.command)).isSome := List.find?_isSome.2 ⟨e, he, by simp [hkey]⟩
  obtain ⟨e', he'⟩ := Option.isSome_iff_exists.1 hsome
  have hkey' : e'.1 = lower t e.2.command := by simpa using List.find?_some he'
  have hsame : e' = e :=
    List.inj_on_of_nodup_map r.nodup (List.mem_of_find?_eq_some he') he (hkey'.trans hkey.symm)
  rw [Registry.lookup, he', hsame]
  rfl

/-! ### The processors on the way -/

/-- `_resolve_chain`, with the processors it goes through. -/
def resolveTrail (t : CaseTable) (current : Processor) : List Str → Option (List Processor)
  | [] => some [current]
  | name :: chain =>
    if current.processors.isEmpty then if current.allowUnlistedCommands then some [current] else none
    else match current.sub t name with
      | none => if current.allowUnlistedCommands then some [current] else none
      | some found => (resolveTrail t found chain).map (current :: ·)

private theorem resolveTrail_ne_nil {current : Processor} {chain : List Str} {ps : List Processor}
    (h : resolveTrail t current chain = some ps) : ps ≠ [] := by
  cases chain with
  | nil =>
    obtain rfl := Option.some.inj h
    exact List.cons_ne_nil _ _
  | cons name chain =>
    simp only [resolveTrail] at h
    split at h
    · split at h
      · obtain rfl := Option.some.inj h
        exact List.cons_ne_nil _ _
      · cases h
    · split at h
      · split at h
        · obtain rfl := Option.some.inj h
          exact List.cons_ne_nil _ _
        · cases h
      · obtain ⟨qs, -, rfl⟩ := Option.map_eq_some_iff.1 h
        exact List.cons_ne_nil _ _

/-- The last of these processors is the one that runs. -/
theorem resolveChain_eq_last (current : Processor) (chain : List Str) :
    resolveChain t current chain = (resolveTrail t current chain).bind List.getLast? := by
  induction chain generalizing current with
  | nil => rfl
  | cons name chain ih =>
    simp only [resolveChain, resolveTrail]
    split
    · split <;> rfl
    · split
      · split <;> rfl
      · rename_i found hfound
        rw [ih found]
        cases h : resolveTrail t found chain with
        | none => rfl
        | some ps =>
          have hne := resolveTrail_ne_nil h
          simp [List.getLast?_cons, List.getLast?_eq_some_getLast hne]

end CliServer
