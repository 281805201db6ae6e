import CliServer.Commands.Authorization
import CliServer.Lib.FirstByKey

/-!
# Which tool a name denotes

`McpToolRegistry.tools` goes through the tools of the providers, in their order, and shows a caller the first of each
name among the tools the caller may use: a tool that lacks a permission is left out before its name is taken.  So two
callers who both see a name see the same tool, the first of that name, exactly when both may use that first one
(`tool_identity_iff`); a caller who may not use a built-in tool gets a later one under its name
(`missing_permission_renames`).
-/

namespace CliServer

/-- `McpCallContext`; `auth` is what the caller can do, `none` without an auth provider. -/
structure McpCallContext (ρ : Type*) where
  auth : Option (Str → Bool)
  request : ρ

/-- `McpCallContext.can`. -/
def McpCallContext.can {ρ : Type*} (context : McpCallContext ρ) (permission : Str) : Bool :=
  context.auth.all fun auth => auth permission

/-- A tool with its `call`. -/
structure ProvidedTool (η : Type*) extends McpTool where
  call : η
  deriving DecidableEq

/-- `IMcpToolProvider`; `getTools` is `none` where it raises. -/
structure McpToolProvider (ρ η : Type*) where
  mcpTier : Option Nat := none
  getTools : McpCallContext ρ → Option (List (ProvidedTool η))

def tierBuiltin : Nat := 0

def tierPlugin : Nat := 1

def tierCommands : Nat := 2

/-- An entry of `_providers`. -/
structure ProviderEntry (ρ η : Type*) where
  tier : Nat
  index : Nat
  provider : McpToolProvider ρ η

/-- The key the providers are sorted by. -/
def ProviderEntry.le {ρ η : Type*} (p q : ProviderEntry ρ η) : Prop :=
  p.tier < q.tier ∨ p.tier = q.tier ∧ p.index ≤ q.index

variable {ρ η : Type*}

instance (p q : ProviderEntry ρ η) : Decidable (p.le q) := inferInstanceAs (Decidable (_ ∨ _))

instance : Std.Total (ProviderEntry.le (ρ := ρ) (η := η)) := ⟨fun p q => by unfold ProviderEntry.le; omega⟩

instance : IsTrans (ProviderEntry ρ η) ProviderEntry.le := ⟨fun p q r hpq hqr => by unfold ProviderEntry.le at *; omega⟩

/-- `McpToolRegistry`; the entries are numbered as they are added. -/
structure McpToolRegistry (ρ η : Type*) where
  options : Option McpOptions
  entries : List (ProviderEntry ρ η)
  numbered : entries.map ProviderEntry.index = List.range entries.length

def McpToolRegistry.empty (options : Option McpOptions) : McpToolRegistry ρ η where
  options := options
  entries := []
  numbered := rfl

/-- `add_provider`. -/
def McpToolRegistry.addProvider (r : McpToolRegistry ρ η) (provider : McpToolProvider ρ η) (builtin : Bool) :
    McpToolRegistry ρ η where
  options := r.options
  entries := r.entries ++
    [⟨provider.mcpTier.getD (if builtin then tierBuiltin else tierPlugin), r.entries.length, provider⟩]
  numbered := by simp [r.numbered, List.range_succ]

/-- `providers`, with what they are sorted by. -/
def McpToolRegistry.providers (r : McpToolRegistry ρ η) : List (ProviderEntry ρ η) :=
  r.entries.insertionSort ProviderEntry.le

variable (t : CaseTable)

/-- One tool in the loop of `tools`. -/
def considerTool (options : McpOptions) (context : McpCallContext ρ) (out : List (ProvidedTool η))
    (tool : ProvidedTool η) : List (ProvidedTool η) :=
  if !shows t options context.can tool.toMcpTool then out
  else if tool.name ∈ out.map fun x => x.name then out
  else out ++ [tool]

/-- One provider in the loop of `tools`. -/
def considerProvider (options : McpOptions) (context : McpCallContext ρ) (out : List (ProvidedTool η))
    (entry : ProviderEntry ρ η) : List (ProvidedTool η) :=
  match entry.provider.getTools context with
  | none => out
  | some tools => tools.foldl (considerTool t options context) out

/-- `McpToolRegistry.tools`: the values of the dict. -/
def McpToolRegistry.tools (r : McpToolRegistry ρ η) (context : McpCallContext ρ) : List (ProvidedTool η) :=
  r.providers.foldl (considerProvider t (r.options.getD {}) context) []

/-- `(await tools(context)).get(name)`. -/
def McpToolRegistry.tool? (r : McpToolRegistry ρ η) (context : McpCallContext ρ) (name : Str) :
    Option (ProvidedTool η) :=
  FirstByKey.named (fun x => x.name) name (r.tools t context)

/-- The tools the providers have for a caller, in provider order. -/
def McpToolRegistry.offered (r : McpToolRegistry ρ η) (context : McpCallContext ρ) : List (ProvidedTool η) :=
  r.providers.flatMap fun entry => (entry.provider.getTools context).getD []

/-- The first tool of a name in provider order. -/
def McpToolRegistry.firstOffered (r : McpToolRegistry ρ η) (context : McpCallContext ρ) (name : Str) :
    Option (ProvidedTool η) :=
  FirstByKey.named (fun x => x.name) name (r.offered context)

/-- A caller may use a tool. -/
def McpCallContext.mayUse (context : McpCallContext ρ) (tool : ProvidedTool η) : Prop :=
  ∀ perm ∈ tool.requiredPermissions, context.can perm = true

variable {t} {options : McpOptions} {r : McpToolRegistry ρ η} {context : McpCallContext ρ}

/-! ### The order of the providers -/

private theorem pairwise_index (r : McpToolRegistry ρ η) : r.entries.Pairwise fun p q => p.index ≠ q.index := by
  have hnodup : (r.entries.map ProviderEntry.index).Nodup := by
    rw [r.numbered]
    exact List.nodup_range
  exact List.pairwise_map.1 hnodup

/-- The providers are sorted by tier, and in a tier they stand as they were added. -/
private theorem pairwise_providers (r : McpToolRegistry ρ η) :
    r.providers.Pairwise fun p q => p.tier < q.tier ∨ p.tier = q.tier ∧ p.index < q.index := by
  have hsorted : r.providers.Pairwise ProviderEntry.le := List.pairwise_insertionSort _ _
  have hindex : r.providers.Pairwise fun p q => p.index ≠ q.index :=
    (List.perm_insertionSort _ r.entries).symm.pairwise (pairwise_index r) fun h => h.symm
  refine (hsorted.and hindex).imp ?_
  rintro p q ⟨hle, hne⟩
  unfold ProviderEntry.le at hle
  omega

/-! ### The loop takes the first of each name -/

private theorem considerTool_eq : considerTool (η := η) t options context =
    FirstByKey.consider (fun x => x.name) fun x => shows t options context.can x.toMcpTool := by
  funext out tool
  unfold considerTool FirstByKey.consider
  by_cases hshows : shows t options context.can tool.toMcpTool = true
  · by_cases hname : tool.name ∈ out.map fun x => x.name
    · simp [hshows, hname]
    · simp [hshows, hname]
  · simp [hshows]

private theorem considerProvider_eq (out : List (ProvidedTool η)) (entry : ProviderEntry ρ η) :
    considerProvider t options context out entry =
      ((entry.provider.getTools context).getD []).foldl (considerTool t options context) out := by
  unfold considerProvider
  split
  next h => rw [h]; rfl
  next h => rw [h]; rfl

private theorem tools_eq_collect (r : McpToolRegistry ρ η) (context : McpCallContext ρ) :
    r.tools t context = FirstByKey.collect (fun x => x.name)
      (fun x => shows t (r.options.getD {}) context.can x.toMcpTool) [] (r.offered context) := by
  rw [FirstByKey.collect, ← considerTool_eq, McpToolRegistry.offered, List.foldl_flatMap]
  unfold McpToolRegistry.tools
  congr 1
  funext out entry
  exact considerProvider_eq out entry

/-- A shown tool's name is one that is shown, whoever asks. -/
private theorem shows_of_name {can can' : Str → Bool} {tool tool' : McpTool} (h : shows t options can tool = true)
    (hname : tool'.name = tool.name) (hperms : ∀ perm ∈ tool'.requiredPermissions, can' perm = true) :
    shows t options can' tool' = true := by
  simp only [shows, Bool.and_eq_true, List.all_eq_true] at h ⊢
  rw [hname]
  exact ⟨h.1, hperms⟩

private theorem shows_of_tool? {name : Str} {a : ProvidedTool η} (h : r.tool? t context name = some a) :
    shows t (r.options.getD {}) context.can a.toMcpTool = true ∧ a.name = name := by
  rw [McpToolRegistry.tool?, tools_eq_collect] at h
  have hkeep := FirstByKey.keep_of_named_collect h
  have hkey := FirstByKey.key_of_named h
  exact ⟨hkeep, hkey⟩

/-- The providers are tried by tier and in a tier as they were added; and of two callers who both see a tool of a
name, both see the same tool, the first of the name in that order, exactly when the first of the name is the same for
both and both may use it. -/
theorem tool_identity_iff (t : CaseTable) (r : McpToolRegistry ρ η) (A B : McpCallContext ρ) (name : Str)
    (a b : ProvidedTool η) (hA : r.tool? t A name = some a) (hB : r.tool? t B name = some b) :
    (r.providers.Perm r.entries ∧
      r.providers.Pairwise fun p q => p.tier < q.tier ∨ p.tier = q.tier ∧ p.index < q.index) ∧
    ((a = b ∧ r.firstOffered A name = some a ∧ r.firstOffered B name = some b) ↔
      ∃ f, r.firstOffered A name = some f ∧ r.firstOffered B name = some f ∧ A.mayUse f ∧ B.mayUse f) := by
  refine ⟨⟨List.perm_insertionSort _ _, pairwise_providers r⟩, ?_⟩
  obtain ⟨hshowsA, hnameA⟩ := shows_of_tool? hA
  obtain ⟨hshowsB, hnameB⟩ := shows_of_tool? hB
  rw [McpToolRegistry.tool?, tools_eq_collect] at hA hB
  rw [McpToolRegistry.firstOffered, McpToolRegistry.firstOffered, FirstByKey.agree_iff hA hB]
  -- the first tool of the name passes the checks of the name, as the tools shown do
  refine exists_congr fun f => and_congr_right fun hfA => and_congr_right fun hfB => ?_
  have hname := FirstByKey.key_of_named hfA
  constructor
  · rintro ⟨hA', hB'⟩
    exact ⟨allows_of_shows hA', allows_of_shows hB'⟩
  · rintro ⟨hA', hB'⟩
    exact ⟨shows_of_name hshowsA (hname.trans hnameA.symm) hA', shows_of_name hshowsB (hname.trans hnameB.symm) hB'⟩

/-- A provider of one tool, whose call is a number. -/
def oneTool (name : Str) (perms : List Str) (call : Nat) : McpToolProvider Unit Nat where
  getTools _ := some [{ name := name, requiredPermissions := perms, path := none, call := call }]

/-- A built-in `fs_write` that needs `files:write`, and a plugin's that needs nothing. -/
def twoWriters : McpToolRegistry Unit Nat :=
  ((McpToolRegistry.empty none).addProvider (oneTool "fs_write".toList [] 1) false).addProvider
    (oneTool "fs_write".toList ["files:write".toList] 0) true

def fileWriter : McpCallContext Unit := ⟨some fun perm => perm = "files:write".toList, ()⟩

def reader : McpCallContext Unit := ⟨some fun _ => false, ()⟩

def anyone : McpCallContext Unit := ⟨none, ()⟩

/-- A caller that may write files and one of a server without an auth provider both see the built-in tool. -/
theorem tool_identity_writers :
    let tool : ProvidedTool Nat := ⟨⟨"fs_write".toList, ["files:write".toList], none⟩, 0⟩
    twoWriters.firstOffered fileWriter "fs_write".toList = some tool ∧
      twoWriters.firstOffered anyone "fs_write".toList = some tool := by
  intro tool
  refine ((tool_identity_iff (fun _ c _ => [c]) twoWriters fileWriter anyone "fs_write".toList tool tool
    (by decide) (by decide)).2.2 ⟨tool, rfl, rfl, ?_, ?_⟩).2
  · intro perm hperm
    exact decide_eq_true (List.mem_singleton.1 hperm)
  · intro perm hperm
    rfl

/-- A caller without `files:write` gets the plugin's tool under the name of the built-in one. -/
theorem missing_permission_renames :
    let t : CaseTable := fun _ c _ => [c]
    ¬ ∀ (r : McpToolRegistry Unit Nat) (A B : McpCallContext Unit) (name : Str) (a b : ProvidedTool Nat),
      r.tool? t A name = some a → r.tool? t B name = some b →
      a = b ∧ r.firstOffered A name = some a ∧ r.firstOffered B name = some b := by
  intro t h
  have hsame := (h twoWriters fileWriter reader "fs_write".toList
    ⟨⟨"fs_write".toList, ["files:write".toList], none⟩, 0⟩ ⟨⟨"fs_write".toList, [], none⟩, 1⟩
    (by decide) (by decide)).1
  exact absurd (congrArg ProvidedTool.call hsame) (by decide)

end CliServer
