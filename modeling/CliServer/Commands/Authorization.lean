import CliServer.Commands.Registry
import CliServer.Lib.Regex

/-!
# Who may run which processor

A processor's permissions apply to everything beneath it.  The REST API asks for those along the chain of a command, by
a walk of its own (`chainProcessors`), which is the way the resolution takes.  A tool of the MCP endpoint asks for those
on the tool's path in the tree, and its call resolves the path by name: an earlier sibling of the same name, ignoring
case, stands in for a processor of the path, and may run without its permissions (`stand_in_runs`).
-/

namespace CliServer

variable {t : CaseTable}

/-- `missing_processor_permissions`, of a caller given by what it can do. -/
def missingPermissions (can : Str → Bool) (procs : List Processor) : List Str :=
  ((procs.flatMap Processor.requiredPermissions).filter fun perm => !can perm).eraseDups

variable (t)

/-- `_chain_processors`. -/
def chainProcessors (root : Processor) : List Str → List Processor
  | [] => []
  | name :: chain =>
    match root.sub t name with
    | none => []
    | some found => found :: chainProcessors found chain

/-- The processors whose permissions `_permission_denied` asks for. -/
def askedProcessors (r : Registry t) (command : Str) (chain : List Str) : List Processor :=
  let root := r.lookup command
  root.toList ++ (root.map fun root => chainProcessors t root chain).getD [] ++ (r.findProcessor t command chain).toList

/-- `_permission_denied`: the permissions the caller lacks. -/
def permissionDenied (r : Registry t) (can : Str → Bool) (command : Str) (chain : List Str) : List Str :=
  missingPermissions can (askedProcessors t r command chain)

/-- A request to run a command: `POST /execute`, or `POST /execute/stream`. -/
structure ExecuteRequest where
  command : Str
  chain : List Str
  stream : Bool

/-- What the REST API does with it; `none` when it is denied. -/
def ExecuteRequest.handle (r : Registry t) (can : Str → Bool) (isBlocked : Processor → Bool)
    (request : ExecuteRequest) : Option Outcome :=
  if permissionDenied t r can request.command request.chain ≠ [] then none
  else if request.stream then some (executeStream t r isBlocked request.command request.chain)
  else some (execute t r isBlocked request.command request.chain)

/-! ### MCP tools -/

/-- An MCP tool; `path` is the command of a command tool. -/
structure McpTool where
  name : Str
  requiredPermissions : List Str
  path : Option (List Str)
  deriving DecidableEq

/-- `[a-z0-9_-]`. -/
def isToolNameChar (c : Char) : Bool := c.isLower || c.isDigit || c = '_' || c = '-'

/-- `command_tool_name`. -/
def commandToolName (path : List Str) : Str :=
  ((lower t (['_'].intercalate path)).map fun c => if isToolNameChar c then c else '-').take 64

/-- Whether a node becomes a tool. -/
def Processor.isTool (p : Processor) : Bool :=
  p.processors.isEmpty || !p.parameters.isEmpty || p.valueRequired.isSome

mutual

/-- `visit`: the paths of the tools of a node, below the processors `above`. -/
def visit (above : List Processor) : Processor → List (List Processor)
  | p@⟨_, _, _, _, _, _, _, subs⟩ =>
    (if p.isTool then [above ++ [p]] else []) ++ visitAll (above ++ [p]) subs

def visitAll (above : List Processor) : List Processor → List (List Processor)
  | [] => []
  | p :: ps => visit above p ++ visitAll above ps

end

/-- The tool of a path of processors. -/
def toolOf (path : List Processor) : McpTool where
  name := commandToolName t (path.map Processor.command)
  requiredPermissions := ("commands:execute".toList :: path.flatMap Processor.requiredPermissions).eraseDups
  path := some (path.map Processor.command)

/-- The first tool of each name. -/
def firstOfName (seen : List Str) : List McpTool → List McpTool
  | [] => []
  | tool :: tools =>
    if tool.name ∈ seen then firstOfName seen tools else tool :: firstOfName (tool.name :: seen) tools

/-- `CommandsMcpToolProvider.get_tools`. -/
def getTools (r : Registry t) : List McpTool := firstOfName [] ((visitAll [] r.processors).map (toolOf t))

/-- `CliMcpOptions`. -/
structure McpOptions where
  tools : Option (List Str) := none
  exclude : List Str := []

/-- `_matches`. -/
def matchesTool (name : Str) (patterns : List Str) : Bool :=
  patterns.any fun pattern =>
    let p := lower t (strip pattern)
    if p.getLast? = some '*' then p.dropLast.isPrefixOf name else name = p

/-- `TOOL_NAME_RE`, between its anchors. -/
def toolNameRe : Regex Char := .times (.set isToolNameChar) 63 1

/-- Whether `tools` shows a tool to a caller, but for its name being taken. -/
def shows (options : McpOptions) (can : Str → Bool) (tool : McpTool) : Bool :=
  Regex.acceptsLine '\n' toolNameRe tool.name &&
    options.tools.all (matchesTool t tool.name) && !matchesTool t tool.name options.exclude &&
    tool.requiredPermissions.all can

/-- `McpToolRegistry.tools`, of the tools left, after those in `out`. -/
def showTools (options : McpOptions) (can : Str → Bool) (out : List McpTool) : List McpTool → List McpTool
  | [] => out
  | tool :: tools =>
    if shows t options can tool ∧ tool.name ∉ out.map McpTool.name then showTools options can (out ++ [tool]) tools
    else showTools options can out tools

/-- `McpToolRegistry.tools`: the tools of other providers come before the command tools, or after them. -/
def mcpTools (r : Registry t) (options : McpOptions) (before after : List McpTool) (can : Str → Bool) : List McpTool :=
  showTools t options can [] (before ++ getTools t r ++ after)

/-! ### What a caller must hold -/

/-- When a processor runs, the caller holds the permissions of every processor on the way to it. -/
def RunsAuthorized (r : Registry t) (can : Str → Bool) (command : Str) (chain : List Str) (outcome : Outcome) : Prop :=
  ∀ p, outcome = .ran p → ∃ root ps, r.lookup command = some root ∧ resolveTrail t root chain = some ps ∧
    ps.getLast? = some p ∧ ∀ q ∈ ps, ∀ perm ∈ q.requiredPermissions, can perm = true

/-- A tool asks for all that the REST API would ask for the tool's command, if it is one. -/
def AsksAsRest (r : Registry t) (tool : McpTool) (command : Str) (chain : List Str) : Prop :=
  (r.findProcessor t command chain).isSome = true →
    ∀ p ∈ askedProcessors t r command chain, ∀ perm ∈ p.requiredPermissions, perm ∈ tool.requiredPermissions

/-- On the path every processor is the first of its siblings with its name. -/
def Unshadowed : List Processor → Prop
  | p :: q :: path => p.sub t q.command = some q ∧ Unshadowed (q :: path)
  | _ => True

variable {t}

/-! ### The walk of the check is the way of the resolution -/

private theorem resolveTrail_eq_chain {root : Processor} {chain : List Str} {ps : List Processor}
    (h : resolveTrail t root chain = some ps) : ps = root :: chainProcessors t root chain := by
  induction chain generalizing root ps with
  | nil => exact (Option.some.inj h).symm
  | cons name chain ih =>
    simp only [resolveTrail] at h
    have hstop : ∀ b : Bool, (if b then some [root] else none) = some ps → ps = [root] := by
      intro b hb
      cases b with
      | true => exact (Option.some.inj hb).symm
      | false => cases hb
    by_cases hleaf : root.processors.isEmpty = true
    · rw [if_pos hleaf] at h
      have hnone : root.sub t name = none := by
        rw [Processor.sub, List.isEmpty_iff.1 hleaf]
        rfl
      rw [hstop _ h, chainProcessors, hnone]
    · rw [if_neg hleaf] at h
      cases hsub : root.sub t name with
      | none =>
        rw [hsub] at h
        rw [hstop _ h, chainProcessors, hsub]
      | some found =>
        rw [hsub] at h
        obtain ⟨qs, hqs, rfl⟩ := Option.map_eq_some_iff.1 h
        have hwalk : chainProcessors t root (name :: chain) = found :: chainProcessors t found chain := by
          rw [chainProcessors, hsub]
        rw [hwalk, ← ih hqs]

private theorem trail_of_find {r : Registry t} {command : Str} {chain : List Str} {p : Processor}
    (h : r.findProcessor t command chain = some p) :
    ∃ root ps, r.lookup command = some root ∧ resolveTrail t root chain = some ps ∧ ps.getLast? = some p ∧
      ps = root :: chainProcessors t root chain := by
  obtain ⟨root, hroot, hresolve⟩ := Option.bind_eq_some_iff.1 h
  rw [resolveChain_eq_last] at hresolve
  obtain ⟨ps, hps, hlast⟩ := Option.bind_eq_some_iff.1 hresolve
  exact ⟨root, ps, hroot, hps, hlast, resolveTrail_eq_chain hps⟩

/-- The check asks for the processors on the way, and no others. -/
private theorem mem_asked {r : Registry t} {command : Str} {chain : List Str} {root p q : Processor}
    {ps : List Processor}
    (hfind : r.findProcessor t command chain = some p) (hroot : r.lookup command = some root)
    (hps : ps = root :: chainProcessors t root chain) (hlast : ps.getLast? = some p) :
    q ∈ askedProcessors t r command chain ↔ q ∈ ps := by
  simp only [askedProcessors, hroot, hfind, Option.toList_some, Option.map_some, Option.getD_some,
    List.singleton_append, ← hps, List.mem_append, List.mem_singleton]
  constructor
  · rintro (h | rfl)
    · exact h
    · exact List.mem_of_getLast? hlast
  · exact .inl

private theorem missingPermissions_eq_nil {can : Str → Bool} {procs : List Processor}
    (h : missingPermissions can procs = []) :
    ∀ p ∈ procs, ∀ perm ∈ p.requiredPermissions, can perm = true := by
  intro p hp perm hperm
  by_contra hcan
  have hmem : perm ∈ missingPermissions can procs := by
    refine List.mem_eraseDups.2 (List.mem_filter.2 ⟨List.mem_flatMap.2 ⟨p, hp, hperm⟩, ?_⟩)
    simpa using hcan
  rw [h] at hmem
  cases hmem

/-- The REST API: a caller that is not denied holds what it must. -/
private theorem rest_authorized {r : Registry t} {can : Str → Bool} {isBlocked : Processor → Bool}
    {request : ExecuteRequest}
    {outcome : Outcome} (h : request.handle t r can isBlocked = some outcome) :
    RunsAuthorized t r can request.command request.chain outcome := by
  rintro p rfl
  unfold ExecuteRequest.handle at h
  by_cases hdenied : permissionDenied t r can request.command request.chain = []
  · rw [if_neg (not_not_intro hdenied)] at h
    have hran : execute t r isBlocked request.command request.chain = .ran p := by
      split at h
      · rw [executeStream_eq] at h
        exact Option.some.inj h
      · exact Option.some.inj h
    obtain ⟨hfind, -⟩ := execute_eq_ran.1 hran
    obtain ⟨root, ps, hroot, htrail, hlast, hps⟩ := trail_of_find hfind
    refine ⟨root, ps, hroot, htrail, hlast, fun q hq => ?_⟩
    exact missingPermissions_eq_nil hdenied q ((mem_asked hfind hroot hps hlast).2 hq)
  · rw [if_pos hdenied] at h
    cases h

/-! ### Tools -/

variable {options : McpOptions} {can : Str → Bool}

private theorem mem_showTools {tool : McpTool} {out tools : List McpTool} : tool ∈ showTools t options can out tools ↔
    tool ∈ out ∨ ∃ front back, tools = front ++ tool :: back ∧ shows t options can tool = true ∧
      tool.name ∉ out.map McpTool.name ∧ ∀ x ∈ front, shows t options can x = true → x.name ≠ tool.name := by
  induction tools generalizing out with
  | nil => simp [showTools]
  | cons x tools ih =>
    simp only [showTools]
    by_cases hx : shows t options can x = true ∧ x.name ∉ out.map McpTool.name
    · rw [if_pos hx, ih]
      constructor
      · rintro (hmem | ⟨front, back, rfl, hshows, hname, hfront⟩)
        · rcases List.mem_append.1 hmem with hmem | hmem
          · exact .inl hmem
          · obtain rfl := List.mem_singleton.1 hmem
            exact .inr ⟨[], tools, rfl, hx.1, hx.2, by simp⟩
        · have hne : tool.name ∉ out.map McpTool.name ∧ x.name ≠ tool.name := by
            simp only [List.map_append, List.mem_append, not_or] at hname
            exact ⟨hname.1, fun heq => hname.2 (by simp [heq])⟩
          refine .inr ⟨x :: front, back, rfl, hshows, hne.1, ?_⟩
          intro y hy hyshows
          rcases List.mem_cons.1 hy with rfl | hy
          · exact hne.2
          · exact hfront y hy hyshows
      · rintro (hmem | ⟨front, back, heq, hshows, hname, hfront⟩)
        · exact .inl (List.mem_append_left _ hmem)
        · cases front with
          | nil =>
            obtain ⟨rfl, -⟩ := List.cons.inj heq
            exact .inl (List.mem_append_right _ (List.mem_singleton.2 rfl))
          | cons y front =>
            obtain ⟨rfl, rfl⟩ := List.cons.inj heq
            have hne := hfront x List.mem_cons_self hx.1
            refine .inr ⟨front, back, rfl, hshows, ?_, fun z hz => hfront z (List.mem_cons_of_mem _ hz)⟩
            simp only [List.map_append, List.map_cons, List.map_nil, List.mem_append, List.mem_singleton, not_or]
            exact ⟨hname, Ne.symm hne⟩
    · rw [if_neg hx, ih]
      refine or_congr Iff.rfl ⟨?_, ?_⟩
      · rintro ⟨front, back, rfl, hshows, hname, hfront⟩
        refine ⟨x :: front, back, rfl, hshows, hname, ?_⟩
        intro y hy hyshows
        rcases List.mem_cons.1 hy with rfl | hy
        · intro heq
          exact hx ⟨hyshows, heq ▸ hname⟩
        · exact hfront y hy hyshows
      · rintro ⟨front, back, heq, hshows, hname, hfront⟩
        cases front with
        | nil =>
          obtain ⟨rfl, -⟩ := List.cons.inj heq
          exact absurd ⟨hshows, hname⟩ hx
        | cons y front =>
          obtain ⟨rfl, rfl⟩ := List.cons.inj heq
          exact ⟨front, back, rfl, hshows, hname, fun z hz => hfront z (List.mem_cons_of_mem _ hz)⟩

theorem allows_of_shows {tool : McpTool} (h : shows t options can tool = true) :
    ∀ perm ∈ tool.requiredPermissions, can perm = true := by
  simp only [shows, Bool.and_eq_true, List.all_eq_true] at h
  exact h.2

/-- A tool shows to a caller who can do less only if it does to one who can do more. -/
private theorem shows_mono {can' : Str → Bool} (hle : ∀ perm, can' perm = true → can perm = true) {tool : McpTool}
    (h : shows t options can' tool = true) : shows t options can tool = true := by
  simp only [shows, Bool.and_eq_true, List.all_eq_true] at h ⊢
  exact ⟨h.1, fun perm hperm => hle perm (h.2 perm hperm)⟩

/-- A tool that some caller sees is seen by a caller with the tool's permissions alone. -/
private theorem mem_mcpTools_own {r : Registry t} {before after : List McpTool} {tool : McpTool}
    (h : tool ∈ mcpTools t r options before after can) :
    tool ∈ mcpTools t r options before after fun perm => perm ∈ tool.requiredPermissions := by
  rcases mem_showTools.1 h with hnone | ⟨front, back, hsplit, hshows, hname, hfront⟩
  · cases hnone
  · have hallows := allows_of_shows hshows
    refine mem_showTools.2 (.inr ⟨front, back, hsplit, ?_, hname, fun x hx hxshows => hfront x hx ?_⟩)
    · simp only [shows, Bool.and_eq_true, List.all_eq_true] at hshows ⊢
      exact ⟨hshows.1, fun perm hperm => decide_eq_true hperm⟩
    · exact shows_mono (fun perm hperm => hallows perm (of_decide_eq_true hperm)) hxshows

private theorem allows_of_mem_mcpTools {r : Registry t} {before after : List McpTool} {tool : McpTool}
    (h : tool ∈ mcpTools t r options before after can) : ∀ perm ∈ tool.requiredPermissions, can perm = true := by
  rcases mem_showTools.1 h with hnone | ⟨_, _, -, hshows, -, -⟩
  · cases hnone
  · exact allows_of_shows hshows

/-! ### The paths of the tools -/

mutual

private theorem mem_visit {above path : List Processor} {p : Processor} (h : path ∈ visit above p) :
    ∃ rest, path = above ++ p :: rest := by
  match p, h with
  | ⟨id, command, perms, allow, value, params, streams, subs⟩, h =>
    simp only [visit, List.mem_append] at h
    rcases h with h | h
    · split at h
      · exact ⟨[], List.mem_singleton.1 h⟩
      · cases h
    · obtain ⟨q, rest, -, rfl⟩ := mem_visitAll h
      exact ⟨q :: rest, by simp⟩

private theorem mem_visitAll {above path : List Processor} {ps : List Processor} (h : path ∈ visitAll above ps) :
    ∃ p rest, p ∈ ps ∧ path = above ++ p :: rest := by
  match ps, h with
  | p :: ps, h =>
    simp only [visitAll, List.mem_append] at h
    rcases h with h | h
    · obtain ⟨rest, rfl⟩ := mem_visit h
      exact ⟨p, rest, List.mem_cons_self, rfl⟩
    · obtain ⟨q, rest, hq, rfl⟩ := mem_visitAll h
      exact ⟨q, rest, List.mem_cons_of_mem _ hq, rfl⟩

end

private theorem resolveTrail_unshadowed {p : Processor} {rest : List Processor} (h : Unshadowed t (p :: rest)) :
    resolveTrail t p (rest.map Processor.command) = some (p :: rest) := by
  induction rest generalizing p with
  | nil => rfl
  | cons q rest ih =>
    obtain ⟨hsub, hrest⟩ := h
    have hne : p.processors.isEmpty = false := by
      rw [← Bool.not_eq_true, List.isEmpty_iff]
      intro hnil
      rw [Processor.sub, hnil] at hsub
      cases hsub
    simp only [List.map_cons, resolveTrail, hne, hsub]
    rw [ih hrest]
    rfl

private theorem findProcessor_of_trail {r : Registry t} {p : Processor} (hp : p ∈ r.processors) {chain : List Str}
    {ps : List Processor} (h : resolveTrail t p chain = some ps) :
    r.findProcessor t p.command chain = ps.getLast? := by
  rw [Registry.findProcessor, r.lookup_command hp, Option.bind_some, resolveChain_eq_last, h]
  rfl

/-- The tool of a path without shadowed processors asks for all that the REST API would. -/
private theorem asksAsRest_of_unshadowed {r : Registry t} {path : List Processor}
    (hpath : path ∈ visitAll [] r.processors)
    (h : Unshadowed t path) :
    AsksAsRest t r (toolOf t path) ((path.map Processor.command).headD []) (path.map Processor.command).tail := by
  obtain ⟨p, rest, hp, rfl⟩ := mem_visitAll hpath
  intro _ q hq perm hperm
  have htrail := resolveTrail_unshadowed h
  have hfind := findProcessor_of_trail hp htrail
  have hlast : ([] ++ p :: rest).getLast? = some ((p :: rest).getLast (by simp)) := List.getLast?_eq_some_getLast _
  have hmem : q ∈ p :: rest :=
    (mem_asked (hfind.trans hlast) (r.lookup_command hp) (resolveTrail_eq_chain htrail) hlast).1 hq
  refine List.mem_eraseDups.2 (List.mem_cons_of_mem _ ?_)
  exact List.mem_flatMap.2 ⟨q, hmem, hperm⟩

/-- Whenever the REST API runs a processor for a caller, the caller holds the permissions on the way to it.  The MCP
tools of a server keep this, for all callers, exactly when every tool that some caller sees asks for all that the REST
API would ask for its command; the tool of a path on which no processor has an earlier sibling of its name does. -/
theorem authorization_iff (t : CaseTable) (r : Registry t) :
    (∀ can isBlocked (request : ExecuteRequest) outcome, request.handle t r can isBlocked = some outcome →
      RunsAuthorized t r can request.command request.chain outcome) ∧
    (∀ options before after,
      (∀ can isBlocked, ∀ path ∈ visitAll [] r.processors, toolOf t path ∈ mcpTools t r options before after can →
        let names := path.map Processor.command
        RunsAuthorized t r can (names.headD []) names.tail (callTool t r isBlocked names)) ↔
      ∀ path ∈ visitAll [] r.processors, (∃ can, toolOf t path ∈ mcpTools t r options before after can) →
        let names := path.map Processor.command
        AsksAsRest t r (toolOf t path) (names.headD []) names.tail) ∧
    ∀ path ∈ visitAll [] r.processors, Unshadowed t path →
      let names := path.map Processor.command
      AsksAsRest t r (toolOf t path) (names.headD []) names.tail := by
  refine ⟨fun can isBlocked request outcome h => rest_authorized h, fun options before after => ⟨?_, ?_⟩,
    fun path hpath h => asksAsRest_of_unshadowed hpath h⟩
  · intro hauthorized path hpath hseen names hsome p hp perm hperm
    obtain ⟨can, hseen⟩ := hseen
    obtain ⟨q, hq⟩ := Option.isSome_iff_exists.1 hsome
    have hran : callTool t r (fun _ => false) names = .ran q := execute_eq_ran.2 ⟨hq, rfl⟩
    obtain ⟨root, ps, hroot, htrail, hlast, hholds⟩ :=
      hauthorized _ (fun _ => false) path hpath (mem_mcpTools_own hseen) q hran
    have hmem := (mem_asked hq hroot (resolveTrail_eq_chain htrail) hlast).1 hp
    exact of_decide_eq_true (hholds p hmem perm hperm)
  · intro hasks can isBlocked path hpath hseen names p hran
    obtain ⟨hfind, -⟩ := execute_eq_ran.1 hran
    obtain ⟨root, ps, hroot, htrail, hlast, hps⟩ := trail_of_find hfind
    refine ⟨root, ps, hroot, htrail, hlast, fun q hq perm hperm => ?_⟩
    have hasked := (mem_asked hfind hroot hps hlast).2 hq
    have hsome : (r.findProcessor t (names.headD []) names.tail).isSome = true := by rw [hfind]; rfl
    exact allows_of_mem_mcpTools hseen perm (hasks path hpath ⟨can, hseen⟩ hsome q hasked perm hperm)

/-- A group of commands that needs `db:admin`. -/
def dbGroup : Processor :=
  { id := 1, command := "db".toList, requiredPermissions := ["db:admin".toList]
    processors := [{ id := 2, command := "drop".toList }] }

/-- A command of the same name that needs nothing. -/
def dbCommand : Processor := { id := 3, command := "DB".toList }

def serverGroup : Processor := { id := 0, command := "server".toList, processors := [dbGroup, dbCommand] }

/-- The tool of the second runs the first, for a caller without `db:admin`. -/
theorem stand_in_runs :
    let t : CaseTable := fun _ c _ => [c]
    let r : Registry t := Registry.empty.register serverGroup
    let can : Str → Bool := fun perm => perm = "commands:execute".toList
    let path := [serverGroup, dbCommand]
    let names := path.map Processor.command
    path ∈ visitAll [] r.processors ∧ toolOf t path ∈ mcpTools t r {} [] [] can ∧
      callTool t r (fun _ => false) names = .ran dbGroup ∧ can "db:admin".toList = false ∧
      ¬ RunsAuthorized t r can (names.headD []) names.tail (callTool t r (fun _ => false) names) := by
  intro t r can path names
  have hran : callTool t r (fun _ => false) names = .ran dbGroup := rfl
  refine ⟨List.mem_cons_of_mem _ List.mem_cons_self, by decide, hran, by decide, fun h => ?_⟩
  obtain ⟨root, ps, hroot, htrail, hlast, hholds⟩ := h dbGroup hran
  have hdenied := hholds dbGroup (List.mem_of_getLast? hlast) "db:admin".toList List.mem_cons_self
  exact absurd hdenied (by decide)

end CliServer
