import CliServer.Commands.Pages
import CliServer.Lib.Dicts
import CliServer.Lib.Utf8Strict

/-!
# The environment of a shell

A shell gets a few variables of the server, those the options name, and its own `QCLI_SHELL_ID` (`lookup_buildEnv`).  A
process that has inherited the variable is found by it, as the bytes of its environment hold it as an entry of their own
(`environHasMarker_iff`), and the shell of one session is never taken for that of another (`shell_environment`).
-/

namespace CliServer.Shell

/-- A dictionary of variables. -/
abbrev Env := List (Str × Str)

structure EnvOptions where
  envAllow : List Str
  envSet : Env

def baseEnvNames : List Str := ["PATH".toList, "HOME".toList, "USER".toList, "LANG".toList]

def shellIdEnv : Str := "QCLI_SHELL_ID".toList

def defaultPath : Str := "/usr/local/bin:/usr/bin:/bin".toList

/-- `env[name] = source[name]`, if the server has it. -/
def copyVariable (source env : Env) (name : Str) : Env :=
  match source.lookup name with
  | some value => Dict.set env name value
  | none => env

/-- The lines of `build_env` for the variables of the server; `account`: the home and the name that `pwd` has. -/
def baseEnv (source : Env) (account : Option (Str × Str)) : Env :=
  let env := baseEnvNames.foldl (copyVariable source) []
  let env := Dict.setDefault env "PATH".toList defaultPath
  if "HOME".toList ∉ env.map Prod.fst ∨ "USER".toList ∉ env.map Prod.fst then
    match account with
    | some (home, user) => Dict.setDefault (Dict.setDefault env "HOME".toList home) "USER".toList user
    | none => env
  else env

/-- The variables of the terminal. -/
def terminalEnv (shell : Str) (cols rows : Nat) : Env :=
  [("TERM".toList, "xterm-256color".toList), ("COLUMNS".toList, intText cols), ("LINES".toList, intText rows),
    ("SHELL".toList, shell)]

/-- `build_env`. -/
def buildEnv (source : Env) (account : Option (Str × Str)) (o : EnvOptions) (shell : Str) (cols rows : Nat)
    (shellId : Option Str) : Env :=
  let env := Dict.update (baseEnv source account) (terminalEnv shell cols rows)
  let env := o.envAllow.foldl (copyVariable source) env
  let env := Dict.update env o.envSet
  match shellId with
  | some id => Dict.set env shellIdEnv id
  | none => env

section Lookup

variable {source env : Env} {account : Option (Str × Str)} {o : EnvOptions} {shell name : Str} {cols rows : Nat}

private theorem lookup_copyVariable (source env : Env) (name key : Str) :
    (copyVariable source env name).lookup key =
      if key = name then (source.lookup name).or (env.lookup key) else env.lookup key := by
  unfold copyVariable
  cases source.lookup name with
  | none => simp
  | some value =>
    rw [Dict.lookup_set]
    simp

private theorem lookup_foldl_copyVariable (source env : Env) (names : List Str) (key : Str) :
    (names.foldl (copyVariable source) env).lookup key =
      if key ∈ names then (source.lookup key).or (env.lookup key) else env.lookup key := by
  induction names generalizing env with
  | nil => simp
  | cons name names ih =>
    rw [List.foldl_cons, ih, lookup_copyVariable]
    by_cases hkey : key = name
    · subst hkey
      by_cases hmem : key ∈ names
      · cases hsource : source.lookup key <;> simp [hmem]
      · simp [hmem]
    · simp [hkey]

/-- The variables of the base that are not the server's. -/
private theorem lookup_baseEnv (hname : name ∉ baseEnvNames) : (baseEnv source account).lookup name = none := by
  have hne : ∀ other ∈ baseEnvNames, (name == other) = false := fun other hother =>
    beq_false_of_ne fun heq => hname (heq ▸ hother)
  have hpath : (Dict.setDefault (baseEnvNames.foldl (copyVariable source) []) "PATH".toList defaultPath).lookup name =
      none := by
    rw [Dict.lookup_setDefault, hne _ (by decide), if_neg Bool.false_ne_true, lookup_foldl_copyVariable, if_neg hname,
      List.lookup_nil]
  unfold baseEnv
  dsimp only
  split
  · cases account with
    | none => exact hpath
    | some entry =>
      dsimp only
      rw [Dict.lookup_setDefault, hne _ (by decide), if_neg Bool.false_ne_true, Dict.lookup_setDefault,
        hne _ (by decide), if_neg Bool.false_ne_true, hpath]
  · exact hpath

/-- What a shell sees: its own marker, else what the options set, else a variable of the server that they allow, else
one of the terminal, and else one of the four of the base. -/
private theorem lookup_buildEnv (source : Env) (account : Option (Str × Str)) (o : EnvOptions) (shell : Str)
    (cols rows : Nat)
    (shellId name : Str) :
    (buildEnv source account o shell cols rows (some shellId)).lookup name =
      if name = shellIdEnv then some shellId
      else (o.envSet.reverse.lookup name).or
        ((if name ∈ o.envAllow then source.lookup name else none).or
          (((terminalEnv shell cols rows).lookup name).or
            (if name ∈ baseEnvNames then (baseEnv source account).lookup name else none))) := by
  have hterminal : (terminalEnv shell cols rows).reverse.lookup name = (terminalEnv shell cols rows).lookup name := by
    have hkeyed : Dict.Keyed (terminalEnv shell cols rows) := by
      have hkeys : (terminalEnv shell cols rows).map Prod.fst =
          ["TERM".toList, "COLUMNS".toList, "LINES".toList, "SHELL".toList] := rfl
      rw [Dict.Keyed, hkeys]
      decide
    exact hkeyed.lookup_reverse
  have hbase : (baseEnv source account).lookup name =
      if name ∈ baseEnvNames then (baseEnv source account).lookup name else none := by
    split
    · rfl
    · next hname => exact lookup_baseEnv hname
  unfold buildEnv
  dsimp only
  rw [Dict.lookup_set, Dict.lookup_update, lookup_foldl_copyVariable, Dict.lookup_update, hterminal, ← hbase]
  by_cases hmarker : name = shellIdEnv
  · simp [hmarker]
  · rw [beq_false_of_ne hmarker, if_neg Bool.false_ne_true, if_neg hmarker]
    by_cases hallow : name ∈ o.envAllow
    · rw [if_pos hallow, if_pos hallow]
    · rw [if_neg hallow, if_neg hallow, Option.none_or]

end Lookup

/-! ### The marker -/

/-- An entry of an environment, `name=value`. -/
def envEntry (m : Str × Str) : Str := m.1 ++ '=' :: m.2

/-- The bytes of `/proc/<pid>/environ`: every entry ends in a zero. -/
def environBytes (entries : List (List UInt8)) : List UInt8 := entries.flatMap fun entry => entry ++ [0]

/-- The environment that `execvpe` gives to a process. -/
def Env.bytes (env : Env) : List UInt8 := environBytes (env.map fun m => Utf8.encode (envEntry m))

/-- `execvpe` does not raise: no zero is in a name or a value, and no name has an equals sign after its first
character. -/
def Env.Executable (env : Env) : Prop := ∀ m ∈ env, '\x00' ∉ envEntry m ∧ '=' ∉ m.1.tail

/-- The marker of a shell, in bytes. -/
def marker (shellId : Str) : List UInt8 := Utf8.encode (envEntry (shellIdEnv, shellId))

/-- `_environ_has_marker`. -/
def environHasMarker (environ : List UInt8) (shellId : Str) : Bool := (environ.splitOn 0).contains (marker shellId)

private theorem splitOn_environBytes {entries : List (List UInt8)} (h : ∀ entry ∈ entries, 0 ∉ entry) :
    (environBytes entries).splitOn 0 = entries ++ [[]] := by
  induction entries with
  | nil => rfl
  | cons entry entries ih =>
    have hentry : entry.splitOn 0 = [entry] := List.splitOn_eq_singleton (h entry List.mem_cons_self)
    rw [environBytes, List.flatMap_cons, ← environBytes, List.append_assoc, List.singleton_append,
      List.splitOn_append_cons_self, hentry, ih fun e he => h e (List.mem_cons_of_mem _ he)]
    rfl

private theorem marker_ne_nil (shellId : Str) : marker shellId ≠ [] := by
  have hcons : envEntry (shellIdEnv, shellId) = 'Q' :: ("CLI_SHELL_ID".toList ++ '=' :: shellId) := rfl
  rw [marker, hcons, Utf8.encode_cons]
  exact List.append_ne_nil_of_left_ne_nil (by decide) _

/-- The marker is found exactly if it is one of the entries. -/
theorem environHasMarker_iff {entries : List (List UInt8)} (h : ∀ entry ∈ entries, 0 ∉ entry) (shellId : Str) :
    environHasMarker (environBytes entries) shellId = true ↔ marker shellId ∈ entries := by
  rw [environHasMarker, splitOn_environBytes h, List.contains_iff_mem, List.mem_append, List.mem_singleton]
  exact or_iff_left (marker_ne_nil shellId)

theorem encode_injective : Function.Injective Utf8.encode := fun s t h => by
  rw [← Utf8.decode_encode s, h, Utf8.decode_encode]

private theorem takeWhile_entry {s t : Str} (h : '=' ∉ s) : (s ++ '=' :: t).takeWhile (· ≠ '=') = s := by
  have hs : ∀ c ∈ s, decide (c ≠ '=') = true := fun c hc => decide_eq_true fun heq => h (heq ▸ hc)
  rw [List.takeWhile_append_of_pos hs, List.takeWhile_cons_of_neg (by simp), List.append_nil]

/-- An entry determines its name and its value. -/
private theorem envEntry_eq_marker_iff {m : Str × Str} (hname : '=' ∉ m.1.tail) {shellId : Str} :
    envEntry m = envEntry (shellIdEnv, shellId) ↔ m = (shellIdEnv, shellId) := by
  refine ⟨fun h => ?_, fun h => h ▸ rfl⟩
  obtain ⟨name, value⟩ := m
  have hmarker : envEntry (shellIdEnv, shellId) = 'Q' :: ("CLI_SHELL_ID".toList ++ '=' :: shellId) := rfl
  rw [hmarker] at h
  cases name with
  | nil =>
    have hhead : '=' = 'Q' := (List.cons.inj h).1
    exact absurd hhead (by decide)
  | cons c name =>
    obtain ⟨rfl, hrest⟩ := List.cons.inj h
    have hname' : name = "CLI_SHELL_ID".toList := by
      have htake : (name ++ '=' :: value).takeWhile (· ≠ '=') = name := takeWhile_entry hname
      have hrest' : name ++ '=' :: value = "CLI_SHELL_ID".toList ++ '=' :: shellId := hrest
      rw [hrest', takeWhile_entry (by decide)] at htake
      exact htake.symm
    subst hname'
    have hvalue : value = shellId := (List.cons.inj (List.append_cancel_left hrest)).2
    rw [hvalue]
    rfl

/-! ### The shell's own environment -/

private theorem keyed_foldl_copyVariable {source env : Env} (h : Dict.Keyed env) (names : List Str) :
    Dict.Keyed (names.foldl (copyVariable source) env) := by
  induction names generalizing env with
  | nil => exact h
  | cons name names ih =>
    refine ih ?_
    unfold copyVariable
    split
    · exact h.set _ _
    · exact h

private theorem keyed_buildEnv (source : Env) (account : Option (Str × Str)) (o : EnvOptions) (shell : Str)
    (cols rows : Nat)
    (shellId : Str) : Dict.Keyed (buildEnv source account o shell cols rows (some shellId)) := by
  have hpath : Dict.Keyed (Dict.setDefault (baseEnvNames.foldl (copyVariable source) []) "PATH".toList defaultPath) :=
    (keyed_foldl_copyVariable Dict.keyed_nil _).setDefault _ _
  have hbase : Dict.Keyed (baseEnv source account) := by
    unfold baseEnv
    dsimp only
    split
    · cases account with
      | none => exact hpath
      | some entry => exact (hpath.setDefault _ _).setDefault _ _
    · exact hpath
  exact ((keyed_foldl_copyVariable (hbase.update _) _).update _).set _ _

/-- A shell whose process can be started has the marker of its own session, and that of no other. -/
private theorem environHasMarker_buildEnv {source : Env} {account : Option (Str × Str)} {o : EnvOptions}
    {shell shellId : Str}
    {cols rows : Nat} (h : (buildEnv source account o shell cols rows (some shellId)).Executable) (other : Str) :
    environHasMarker (buildEnv source account o shell cols rows (some shellId)).bytes other = true ↔
      other = shellId := by
  have hzero : ∀ entry ∈ (buildEnv source account o shell cols rows (some shellId)).map fun m =>
      Utf8.encode (envEntry m), 0 ∉ entry := by
    intro entry hentry
    obtain ⟨m, hm, rfl⟩ := List.mem_map.1 hentry
    rw [Utf8.zero_mem_encode_iff]
    exact (h m hm).1
  have hmem : marker other ∈ ((buildEnv source account o shell cols rows (some shellId)).map fun m =>
      Utf8.encode (envEntry m)) ↔ (shellIdEnv, other) ∈ buildEnv source account o shell cols rows (some shellId) := by
    rw [List.mem_map]
    constructor
    · rintro ⟨m, hm, heq⟩
      rw [← (envEntry_eq_marker_iff (h m hm).2).1 (encode_injective heq)]
      exact hm
    · exact fun hm => ⟨_, hm, rfl⟩
  rw [Env.bytes, environHasMarker_iff hzero, hmem, (keyed_buildEnv source account o shell cols rows shellId).mem_iff,
    lookup_buildEnv, if_pos rfl, Option.some_inj, eq_comm]

/-- Of the server's variables a shell has only those of the base and those that the options allow, whatever else there
is; and whatever the options set, its process is found by the marker of its own session and by no other. -/
theorem shell_environment (source : Env) (account : Option (Str × Str)) (o : EnvOptions) (shell shellId : Str)
    (cols rows : Nat) :
    (∀ m ∈ buildEnv source account o shell cols rows (some shellId), m.1 ∉ baseEnvNames → m.1 ∉ o.envAllow →
      m = (shellIdEnv, shellId) ∨ m ∈ o.envSet ∨ m ∈ terminalEnv shell cols rows) ∧
    ((buildEnv source account o shell cols rows (some shellId)).Executable →
      ∀ other, environHasMarker (buildEnv source account o shell cols rows (some shellId)).bytes other = true ↔
        other = shellId) := by
  refine ⟨fun m hm hbase hallow => ?_, environHasMarker_buildEnv⟩
  obtain ⟨name, value⟩ := m
  rw [(keyed_buildEnv source account o shell cols rows shellId).mem_iff, lookup_buildEnv] at hm
  rw [if_neg hallow, if_neg hbase, Option.none_or, Option.or_none] at hm
  split at hm
  · next hmarker =>
    rw [hmarker, Option.some.inj hm]
    exact .inl rfl
  · have hfound : ∀ d : Env, d.lookup name = some value → (name, value) ∈ d := by
      intro d hd
      obtain ⟨l₁, l₂, rfl, -⟩ := List.lookup_eq_some_iff.1 hd
      exact List.mem_append_right _ List.mem_cons_self
    rcases Option.or_eq_some_iff.1 hm with hset | ⟨-, hterminal⟩
    · exact .inr (.inl (List.mem_reverse.1 (hfound _ hset)))
    · exact .inr (.inr (hfound _ hterminal))

/-- A shell whose options set the marker of another one is found by its own. -/
theorem shell_environment_marked :
    let env := buildEnv [("PATH".toList, "/bin".toList), ("SECRET".toList, "x".toList)] none
      { envAllow := ["LANG".toList], envSet := [(shellIdEnv, "other".toList), ("LANG".toList, "C".toList)] }
      "/bin/sh".toList 80 24 (some "own".toList)
    env.Executable ∧ environHasMarker env.bytes "own".toList = true ∧
      environHasMarker env.bytes "other".toList ≠ true := by
  intro env
  have hexecutable : env.Executable := by
    intro m hm
    revert m
    decide +kernel
  have hfound := (shell_environment [("PATH".toList, "/bin".toList), ("SECRET".toList, "x".toList)] none
    { envAllow := ["LANG".toList], envSet := [(shellIdEnv, "other".toList), ("LANG".toList, "C".toList)] }
    "/bin/sh".toList "own".toList 80 24).2 hexecutable
  exact ⟨hexecutable, (hfound _).2 rfl, fun h => absurd ((hfound _).1 h) (by decide)⟩

end CliServer.Shell
