import CliServer.Commands.Registry
import CliServer.Lib.Transition

/-!
# Disabled modules

`ModuleRegistry` refuses the processors of a disabled module.  It knows a processor by its identity, in a map filled
once with the processors that each module lists; the executor asks about the processor a command resolves to.  So a
sub-processor is never refused (`sub_command_runs`), nor is any processor of a module that builds its list on each
access; and modules with one id share their state.  `disabled_module_iff` says that these are the only gaps.
-/

namespace CliServer

open Transition

/-- A module: its name, if it has one, and the processors that each access to `processors` gives. -/
structure CliModule where
  name : Option Str
  processors : Nat → List Processor

/-- What the host adds to the builder. -/
inductive BuilderCall where
  | processor (p : Processor)
  | module (m : CliModule)

/-- `CliBuilder`, after the host's calls. -/
structure CliBuilder where
  calls : List BuilderCall

namespace CliBuilder

/-- `modules`. -/
def modules (b : CliBuilder) : List CliModule :=
  b.calls.filterMap fun
    | .module m => some m
    | .processor _ => none

/-- The processors in the order in which they are registered, each with the index of its module. -/
def registrationsFrom (idx : Nat) : List BuilderCall → List (Option Nat × Processor)
  | [] => []
  | .processor p :: calls => (none, p) :: registrationsFrom idx calls
  | .module m :: calls => (m.processors 0).map (some idx, ·) ++ registrationsFrom (idx + 1) calls

def registrations (b : CliBuilder) : List (Option Nat × Processor) := registrationsFrom 0 b.calls

/-- The registry: `add_processor` and `add_module` register as they are called. -/
def registry (t : CaseTable) (b : CliBuilder) : Registry t :=
  b.registrations.foldl (fun r e => r.register e.2) Registry.empty

/-- The module that registered the root processor of a command: the last to register that name. -/
def owner (t : CaseTable) (b : CliBuilder) (command : Str) : Option Nat :=
  (b.registrations.findRev? fun e => lower t e.2.command = lower t command).bind Prod.fst

end CliBuilder

/-! ### The module registry -/

variable (b : CliBuilder)

/-- `_module_id`. -/
def moduleId (modules : List CliModule) (idx : Nat) : Str :=
  match (modules[idx]?).bind CliModule.name with
  | some name =>
    if name ≠ [] ∧ (modules.map CliModule.name).count (some name) = 1 then name else (toString idx).toList
  | none => (toString idx).toList

/-- `int(s)` of a text of digits. -/
def intOf (s : Str) : Option Nat :=
  if s = [] then none else (s.mapM decimalValue).map digitsToNat

/-- `_find`. -/
def findModule (modules : List CliModule) (id : Str) : Option Nat :=
  match (List.range modules.length).find? fun idx => moduleId modules idx = id with
  | some idx => some idx
  | none => (intOf id).filter (· < modules.length)

/-- The entries of the processor map: the identity of each processor that a module lists, and the module's index. -/
def listings (modules : List CliModule) : List (Nat × Nat) :=
  modules.zipIdx.flatMap fun (m, idx) => (m.processors 1).map fun p => (p.id, idx)

/-- The module that lists a processor: the last one, as its entry overwrites the others. -/
def listedBy (modules : List CliModule) (p : Processor) : Option Nat :=
  ((listings modules).findRev? (·.1 = p.id)).map Prod.snd

/-- `is_allowed`, with the ids of the disabled modules. -/
def isAllowed (modules : List CliModule) (disabled : List Str) (p : Processor) : Bool :=
  match listedBy modules p with
  | none => true
  | some idx => moduleId modules idx ∉ disabled

/-- `toggle`. -/
def toggle (modules : List CliModule) (disabled : List Str) (id : Str) : Option (List Str) :=
  (findModule modules id).map fun idx =>
    let key := moduleId modules idx
    if key ∈ disabled then disabled.filter (· ≠ key) else key :: disabled

/-- Whether the toggles so far, counted for one module, have disabled it. -/
def toggledOff (modules : List CliModule) (ms : List (Move (List Str) Str)) (idx : Nat) : Prop :=
  (ms.filter fun m => findModule modules m.act = some idx).length % 2 = 1

variable {b} {t : CaseTable} {modules : List CliModule}

/-! ### The host's calls -/

theorem lookup_register {r : Registry t} {p : Processor} {command : Str} : (r.register p).lookup command =
    if lower t p.command = lower t command then some p else r.lookup command := by
  unfold Registry.register Registry.lookup
  by_cases hkey : lower t p.command ∈ r.entries.map Prod.fst
  · rw [dif_pos hkey]
    have hkeep : (fun x : Str × Processor => decide (x.1 = lower t command)) ∘
        (fun e : Str × Processor => if e.1 = lower t p.command then (e.1, p) else e) =
          fun x : Str × Processor => decide (x.1 = lower t command) := by
      funext e
      simp only [Function.comp_apply]
      split <;> rfl
    rw [List.find?_map, hkeep]
    cases hfind : r.entries.find? (fun x : Str × Processor => decide (x.1 = lower t command)) with
    | none =>
      have hne : lower t p.command ≠ lower t command := by
        intro heq
        obtain ⟨e, he, hfst⟩ := List.mem_map.1 hkey
        have hno := List.find?_eq_none.1 hfind e he
        exact hno (decide_eq_true (hfst.trans heq))
      simp [hne]
    | some e =>
      have he : e.1 = lower t command := by simpa using List.find?_some hfind
      by_cases heq : lower t p.command = lower t command
      · simp [he, heq]
      · simp [he, heq, Ne.symm heq]
  · rw [dif_neg hkey]
    simp only [List.find?_append, List.find?_singleton]
    by_cases heq : lower t p.command = lower t command
    · have hnone : r.entries.find? (fun x : Str × Processor => decide (x.1 = lower t command)) = none := by
        refine List.find?_eq_none.2 fun e he => ?_
        simp only [decide_eq_true_eq]
        intro h
        exact hkey (heq ▸ h ▸ List.mem_map_of_mem he)
      simp [hnone, heq]
    · simp [heq]

private theorem lt_of_mem_registrationsFrom {calls : List BuilderCall} {start idx : Nat} {p : Processor}
    (h : (some idx, p) ∈ CliBuilder.registrationsFrom start calls) :
    idx < start + (CliBuilder.modules ⟨calls⟩).length := by
  induction calls generalizing start with
  | nil => cases h
  | cons call calls ih =>
    cases call with
    | processor q =>
      rcases List.mem_cons.1 h with h | h
      · cases h
      · exact ih h
    | module m =>
      have hlen : (CliBuilder.modules ⟨.module m :: calls⟩).length = (CliBuilder.modules ⟨calls⟩).length + 1 := rfl
      rcases List.mem_append.1 h with h | h
      · obtain ⟨q, -, heq⟩ := List.mem_map.1 h
        obtain rfl : start = idx := Option.some.inj (Prod.mk.inj heq).1
        omega
      · have := ih h
        omega

private theorem owner_lt {command : Str} {idx : Nat} (h : b.owner t command = some idx) : idx < b.modules.length := by
  obtain ⟨⟨owner, p⟩, hfind, rfl⟩ := Option.bind_eq_some_iff.1 h
  rw [List.findRev?_eq_find?_reverse] at hfind
  have hmem := List.mem_reverse.1 (List.mem_of_find?_eq_some hfind)
  have hlt : idx < 0 + b.modules.length := lt_of_mem_registrationsFrom hmem
  omega

/-! ### Toggles -/

private theorem findModule_lt {id : Str} {idx : Nat} (h : findModule modules id = some idx) : idx < modules.length := by
  unfold findModule at h
  split at h
  · rename_i idx' hfind
    obtain rfl := Option.some.inj h
    exact List.mem_range.1 (List.mem_of_find?_eq_some hfind)
  · simpa using Option.mem_filter_iff.1 h |>.2

/-- A module is found under its id, or another module with that id is. -/
private theorem findModule_moduleId {idx : Nat} (h : idx < modules.length) :
    ∃ k, findModule modules (moduleId modules idx) = some k ∧ k < modules.length ∧
      moduleId modules k = moduleId modules idx := by
  have hsome : ((List.range modules.length).find? fun k => moduleId modules k = moduleId modules idx).isSome :=
    List.find?_isSome.2 ⟨idx, List.mem_range.2 h, by simp⟩
  obtain ⟨k, hk⟩ := Option.isSome_iff_exists.1 hsome
  refine ⟨k, ?_, List.mem_range.1 (List.mem_of_find?_eq_some hk), by simpa using List.find?_some hk⟩
  rw [findModule, hk]

/-- The ids of the modules are distinct. -/
def DistinctIds (modules : List CliModule) : Prop :=
  ∀ i j, i < modules.length → j < modules.length → moduleId modules i = moduleId modules j → i = j

private theorem toggledOff_append {ms : List (Move (List Str) Str)} {m : Move (List Str) Str} {idx : Nat} :
    toggledOff modules (ms ++ [m]) idx ↔
      (findModule modules m.act = some idx ↔ ¬ toggledOff modules ms idx) := by
  by_cases h : findModule modules m.act = some idx
  · simp only [toggledOff, List.filter_append, h, List.filter_cons, decide_true, List.filter_nil, List.length_append,
      true_iff]
    simp only [if_true, List.length_cons, List.length_nil]
    omega
  · simp [toggledOff, List.filter_append, h]

private theorem mem_toggle {disabled : List Str} {key key' : Str} :
    key' ∈ (if key ∈ disabled then disabled.filter (· ≠ key) else key :: disabled) ↔
      (key' = key ↔ key' ∉ disabled) := by
  by_cases hkey : key' = key
  · subst hkey
    by_cases hmem : key' ∈ disabled
    · simp [hmem]
    · simp [hmem]
  · by_cases hmem : key ∈ disabled
    · simp [hmem, hkey]
    · simp [hmem, hkey]

/-- With distinct ids, a module's state is that of its own toggles. -/
private theorem mem_disabled_iff (hdistinct : DistinctIds modules) {ms : List (Move (List Str) Str)}
    {disabled : List Str}
    (hrun : Run (toggle modules) [] ms disabled) :
    ∀ idx < modules.length, moduleId modules idx ∈ disabled ↔ toggledOff modules ms idx := by
  refine hrun.history (I := fun ms disabled => ∀ idx < modules.length,
    moduleId modules idx ∈ disabled ↔ toggledOff modules ms idx) ?_ ?_
  · intro idx _
    simp [toggledOff]
  · intro ms disabled id disabled' hinv _ hstep idx hidx
    obtain ⟨k, hk, rfl⟩ := Option.map_eq_some_iff.1 hstep
    have hkey : moduleId modules idx = moduleId modules k ↔ findModule modules id = some idx := by
      rw [hk, Option.some.injEq]
      constructor
      · exact fun heq => (hdistinct idx k hidx (findModule_lt hk) heq).symm
      · rintro rfl
        rfl
    rw [mem_toggle, toggledOff_append, hkey, hinv idx hidx]

/-! ### Execution -/

private theorem listedBy_lt {p : Processor} {idx : Nat} (h : listedBy modules p = some idx) : idx < modules.length := by
  obtain ⟨e, he, rfl⟩ := Option.map_eq_some_iff.1 h
  rw [List.findRev?_eq_find?_reverse] at he
  have hmem := List.mem_reverse.1 (List.mem_of_find?_eq_some he)
  obtain ⟨⟨m, i⟩, hm, hlist⟩ := List.mem_flatMap.1 hmem
  obtain ⟨p, -, rfl⟩ := List.mem_map.1 hlist
  have := List.mem_zipIdx hm
  omega

/-- `is_blocked`, with the module registry as the only filter. -/
def isBlocked (modules : List CliModule) (disabled : List Str) (p : Processor) : Bool := !isAllowed modules disabled p

private theorem isBlocked_iff {disabled : List Str} {p : Processor} : isBlocked modules disabled p = true ↔
    ∃ idx, listedBy modules p = some idx ∧ moduleId modules idx ∈ disabled := by
  unfold isBlocked isAllowed
  cases listedBy modules p <;> simp

/-- In a state of the module registry: the modules' states are those of their own toggles, a command is refused when the
module that registered its root processor is disabled, and it is refused only because of a disabled module. -/
structure Refuses (t : CaseTable) (b : CliBuilder) (ms : List (Move (List Str) Str)) (disabled : List Str) : Prop where
  states : ∀ idx < b.modules.length, moduleId b.modules idx ∈ disabled ↔ toggledOff b.modules ms idx
  refuses : ∀ (entry : Entry) command chain p idx, (b.registry t).findProcessor t command chain = some p →
    b.owner t command = some idx → toggledOff b.modules ms idx →
    entry.run t (b.registry t) (isBlocked b.modules disabled) command chain = .disabled
  justified : ∀ (entry : Entry) command chain p, (b.registry t).findProcessor t command chain = some p →
    entry.run t (b.registry t) (isBlocked b.modules disabled) command chain = .disabled →
    ∃ idx, listedBy b.modules p = some idx ∧ toggledOff b.modules ms idx

/-- Disabled modules are refused, and no others, in every state that toggles lead to, exactly when the modules have
distinct ids and every processor that a command of a module resolves to, at any depth, is listed by that module (and by
no later one) as the very same object when the processor map is built. -/
theorem disabled_module_iff (t : CaseTable) (b : CliBuilder) :
    (∀ ms disabled, Run (toggle b.modules) [] ms disabled → Refuses t b ms disabled) ↔
      DistinctIds b.modules ∧ ∀ command chain p idx, (b.registry t).findProcessor t command chain = some p →
        b.owner t command = some idx → listedBy b.modules p = some idx := by
  have hdisabled : ∀ {entry : Entry} {disabled : List Str} {command : Str} {chain : List Str} {p : Processor},
      (b.registry t).findProcessor t command chain = some p →
      (entry.run t (b.registry t) (isBlocked b.modules disabled) command chain = .disabled ↔
        isBlocked b.modules disabled p = true) := by
    intro entry disabled command chain p hfind
    rw [entry.run_of_find hfind]
    cases isBlocked b.modules disabled p <;> simp
  constructor
  · intro hall
    -- The run that toggles one module once.
    have hone : ∀ idx < b.modules.length, ∃ k, k < b.modules.length ∧
        moduleId b.modules k = moduleId b.modules idx ∧
        findModule b.modules (moduleId b.modules idx) = some k ∧
        Refuses t b [⟨[], moduleId b.modules idx, [moduleId b.modules idx]⟩] [moduleId b.modules idx] := by
      intro idx hidx
      obtain ⟨k, hk, hlt, hid⟩ := findModule_moduleId hidx
      have hstep : toggle b.modules [] (moduleId b.modules idx) = some [moduleId b.modules idx] := by
        simp [toggle, hk, hid]
      exact ⟨k, hlt, hid, hk, hall _ _ (.step .start trivial hstep)⟩
    have htoggled : ∀ {id : Str} {d d' : List Str} {idx : Nat}, toggledOff b.modules [⟨d, id, d'⟩] idx ↔
        findModule b.modules id = some idx := by
      intro id d d' idx
      by_cases h : findModule b.modules id = some idx
      · simp [toggledOff, h]
      · simp [toggledOff, h]
    have hdistinct : DistinctIds b.modules := by
      intro i j hi hj hij
      obtain ⟨k, -, -, hk, hrefuses⟩ := hone i hi
      have hki := htoggled.1 ((hrefuses.states i hi).1 (List.mem_singleton.2 rfl))
      have hkj := htoggled.1 ((hrefuses.states j hj).1 (List.mem_singleton.2 hij.symm))
      rw [hki] at hkj
      exact Option.some.inj hkj
    refine ⟨hdistinct, fun command chain p idx hfind howner => ?_⟩
    have hidx := owner_lt howner
    obtain ⟨k, hlt, hid, hk, hrefuses⟩ := hone idx hidx
    obtain rfl := hdistinct k idx hlt hidx hid
    have hblocked := (hdisabled hfind).1 (hrefuses.refuses .rest command chain p k hfind howner (htoggled.2 hk))
    obtain ⟨i, hi, hmem⟩ := isBlocked_iff.1 hblocked
    have heq := hdistinct i k (listedBy_lt hi) hidx (List.mem_singleton.1 hmem)
    rwa [heq] at hi
  · rintro ⟨hdistinct, hlisted⟩ ms disabled hrun
    have hstates := mem_disabled_iff hdistinct hrun
    refine ⟨hstates, fun entry command chain p idx hfind howner hoff => ?_,
      fun entry command chain p hfind hrefused => ?_⟩
    · rw [hdisabled hfind, isBlocked_iff]
      exact ⟨idx, hlisted command chain p idx hfind howner, (hstates idx (owner_lt howner)).2 hoff⟩
    · obtain ⟨idx, hidx, hmem⟩ := isBlocked_iff.1 ((hdisabled hfind).1 hrefused)
      exact ⟨idx, hidx, (hstates idx (listedBy_lt hidx)).1 hmem⟩

def currentWeather : Processor := { id := 1, command := "current".toList }

/-- A module `weather` with a command that has a sub-command. -/
def weatherBuilder : CliBuilder where
  calls := [.module
    { name := some "weather".toList
      processors := fun _ => [{ id := 0, command := "weather".toList, processors := [currentWeather] }] }]

/-- The sub-command runs when the module is disabled. -/
theorem sub_command_runs :
    let t : CaseTable := fun _ c _ => [c]
    ∃ ms disabled, Run (toggle weatherBuilder.modules) [] ms disabled ∧
      weatherBuilder.owner t "weather".toList = some 0 ∧ toggledOff weatherBuilder.modules ms 0 ∧
      Entry.rest.run t (weatherBuilder.registry t) (isBlocked weatherBuilder.modules disabled) "weather".toList
        ["current".toList] = .ran currentWeather := by
  intro t
  have hstep : toggle weatherBuilder.modules [] "weather".toList = some ["weather".toList] := rfl
  exact ⟨_, _, .step .start trivial hstep, rfl, rfl, rfl⟩

end CliServer
