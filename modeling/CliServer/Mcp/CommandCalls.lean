import CliServer.Commands.ShellWords
import CliServer.Mcp.Arguments

/-!
# The calls of command tools

The tool of a command passes the arguments of a call on to the processor: one of them, under the key `value`, may be
the positional value, and the others are its `args`.  An argument that is `null` counts as absent when the arguments
are checked, but it is one of the `args`, and in the raw command it is `--key=None`.  So a call is the same without
its `null` arguments exactly when the positional value is the only one (`toCommand_withoutNulls_iff`).
The texts of a call may have surrogates; without them the raw command is that of the shell words
(`rawCommand_ofChars`).
-/

open Json (CodePoint Text ofChar ofChars)

namespace CliServer

namespace Mcp

/-! ### The raw command -/

/-- `_NEEDS_QUOTING`; it matches no surrogate. -/
def needsQuotingPoint (c : CodePoint) : Bool :=
  if h : c.val.isValidChar then needsQuoting (Char.ofNatAux c.val h) else false

/-- `str.replace` of one character. -/
def replacePoint (c : Char) (by_ : Text) (s : Text) : Text := s.flatMap fun d => if d = ofChar c then by_ else [d]

/-- `quote_shell_word` of a text that may have surrogates. -/
def quoteText (value : Text) : Text :=
  if value ≠ [] ∧ ¬ value.any needsQuotingPoint then value
  else if ofChar doubleQuote ∉ value then
    ofChars [doubleQuote] ++ replacePoint backslash (ofChars [backslash, backslash]) value ++ ofChars [doubleQuote]
  else if ofChar singleQuote ∉ value then ofChars [singleQuote] ++ value ++ ofChars [singleQuote]
  else
    let escaped := replacePoint backslash (ofChars [backslash, backslash]) value
    ofChars [doubleQuote] ++ replacePoint doubleQuote (ofChars [backslash, doubleQuote]) escaped ++
      ofChars [doubleQuote]

private theorem needsQuotingPoint_ofChar (c : Char) : needsQuotingPoint (ofChar c) = needsQuoting c := by
  have hvalid : (ofChar c).val.isValidChar := by
    rw [Json.val_ofChar]
    exact c.valid
  have hchar : Char.ofNatAux (ofChar c).val hvalid = c := by
    refine Char.ext (UInt32.toNat_inj.1 ?_)
    show (ofChar c).val = c.toNat
    exact Json.val_ofChar c
  rw [needsQuotingPoint, dif_pos hvalid, hchar]

private theorem mem_ofChars {c : Char} {s : List Char} : ofChar c ∈ ofChars s ↔ c ∈ s := by
  rw [ofChars, List.mem_map]
  constructor
  · rintro ⟨d, hd, heq⟩
    exact Json.ofChar_injective heq ▸ hd
  · exact fun hc => ⟨c, hc, rfl⟩

private theorem replacePoint_ofChars (c : Char) (by_ s : List Char) :
    replacePoint c (ofChars by_) (ofChars s) = ofChars (replaceChar c by_ s) := by
  induction s with
  | nil => rfl
  | cons d s ih =>
    have hhead : (if ofChar d = ofChar c then ofChars by_ else [ofChar d]) = ofChars (if d = c then by_ else [d]) := by
      by_cases hd : d = c
      · rw [if_pos hd, if_pos (congrArg ofChar hd)]
      · rw [if_neg hd, if_neg (fun heq => hd (Json.ofChar_injective heq))]
        rfl
    have happend : ∀ u v, ofChars (u ++ v) = ofChars u ++ ofChars v := fun u v => List.map_append
    rw [replaceChar, List.flatMap_cons, happend, ← replaceChar, ← ih, ← hhead]
    rfl

/-- Without surrogates it is the quoting of the shell words. -/
private theorem quoteText_ofChars (s : List Char) : quoteText (ofChars s) = ofChars (quoteShellWord s) := by
  have happend : ∀ u v, ofChars (u ++ v) = ofChars u ++ ofChars v := fun u v => List.map_append
  have hnil : ofChars s ≠ [] ↔ s ≠ [] := not_congr List.map_eq_nil_iff
  have hany : (ofChars s).any needsQuotingPoint = s.any needsQuoting := by
    rw [ofChars, List.any_map]
    exact congrArg (s.any ·) (funext needsQuotingPoint_ofChar)
  simp only [quoteText, quoteShellWord, hnil, hany, mem_ofChars, replacePoint_ofChars]
  split
  · rfl
  · split
    · simp only [happend]
    · split
      · simp only [happend]
      · simp only [happend]

section Command

variable (py : Python)

/-- `str(value)`. -/
def strOf : JsonValue → Text
  | .null => lit "None"
  | .bool value => if value then lit "True" else lit "False"
  | .str s => s
  | value => py.repr value

/-- `bool(value)`. -/
def truthy : JsonValue → Bool
  | .null => false
  | .bool value => value
  | .num n => !py.isZero n
  | .str s => s ≠ []
  | .arr items => !items.isEmpty
  | .obj members => !members.isEmpty

/-- The part of the raw command that an argument makes. -/
def rawPart (key : Text) : JsonValue → Text
  | .bool value => if value then lit "--" ++ key else lit "--" ++ key ++ lit "=false"
  | .arr items => lit "--" ++ key ++ lit "=" ++ quoteText ((lit ",").intercalate (items.map (strOf py)))
  | value => lit "--" ++ key ++ lit "=" ++ quoteText (strOf py value)

/-- The part that the positional value makes; `none` if the search in it raises. -/
def valuePart (value : JsonValue) : Option (List Text) :=
  if truthy py value then
    match value with
    | .str s => some [quoteText s]
    | _ => none
  else some []

/-- `_raw_command`. -/
def rawCommand (path : List Str) (value : JsonValue) (args : List (Text × JsonValue)) : Option Text :=
  (valuePart py value).map fun part =>
    (lit " ").intercalate (path.map ofChars ++ part ++ args.map fun argument => rawPart py argument.1 argument.2)

end Command

section Written

variable {py : Python}

/-- The raw command has this of an argument. -/
inductive Written (py : Python) : JsonValue → ArgValue → Prop
  | bool (b : Bool) : Written py (.bool b) (.bool b)
  | list {items : List JsonValue} {texts : List Str} (h : items.map (strOf py) = texts.map ofChars) :
    Written py (.arr items) (.list texts)
  | string (s : Str) : Written py (.str (ofChars s)) (.string s)
  | other {value : JsonValue} {text : Str} (hbool : ∀ b, value ≠ .bool b) (harr : ∀ items, value ≠ .arr items)
    (h : strOf py value = ofChars text) : Written py value (.other text)

private theorem ofChars_append (u v : Str) : ofChars (u ++ v) = ofChars u ++ ofChars v := List.map_append

private theorem ofChars_intercalate (c : Str) (parts : List Str) :
    ofChars (c.intercalate parts) = (ofChars c).intercalate (parts.map ofChars) := by
  induction parts with
  | nil => rfl
  | cons part parts ih =>
    cases parts with
    | nil => simp
    | cons next parts =>
      rw [List.map_cons, List.map_cons, List.intercalate_cons_cons, List.intercalate_cons_cons, ofChars_append,
        ofChars_append, ih, List.map_cons]

private theorem rawPart_ofChars {value : JsonValue} {argument : ArgValue} (h : Written py value argument) (key : Str) :
    rawPart py (ofChars key) value = ofChars (rawArgument key argument) := by
  cases h with
  | bool b =>
    cases b with
    | true => simp [rawPart, rawArgument, ofChars, lit]
    | false => simp [rawPart, rawArgument, ofChars, lit]
  | list h =>
    simp only [rawPart, rawArgument, ofChars_append, h, ← quoteText_ofChars, ofChars_intercalate]
    rfl
  | string s =>
    simp only [rawPart, rawArgument, ofChars_append, ← quoteText_ofChars]
    rfl
  | other hbool harr h =>
    have hpart : rawPart py (ofChars key) value = lit "--" ++ ofChars key ++ lit "=" ++ quoteText (strOf py value) := by
      unfold rawPart
      split
      · exact absurd rfl (hbool _)
      · exact absurd rfl (harr _)
      · rfl
    rw [hpart, h, quoteText_ofChars]
    simp only [rawArgument, ofChars_append]
    rfl

/-- Without surrogates it is the raw command that is read back as its words. -/
theorem rawCommand_ofChars {path : List Str} {value : Option Str} {entries : List (Text × JsonValue)}
    {args : List (Str × ArgValue)}
    (h : List.Forall₂ (fun e argument => e.1 = ofChars argument.1 ∧ Written py e.2 argument.2) entries args) :
    rawCommand py path (value.elim .null fun s => .str (ofChars s)) entries =
      some (ofChars (CliServer.rawCommand path value args)) := by
  have hparts : entries.map (fun e => rawPart py e.1 e.2) =
      (args.map fun argument => rawArgument argument.1 argument.2).map ofChars := by
    induction h with
    | nil => rfl
    | cons hfirst _ ih =>
      rw [List.map_cons, List.map_cons, List.map_cons, ih, hfirst.1, rawPart_ofChars hfirst.2]
  have hvalue : valuePart py (value.elim .null fun s => .str (ofChars s)) =
      some (((value.filter (· ≠ [])).toList.map quoteShellWord).map ofChars) := by
    cases value with
    | none => rfl
    | some s =>
      cases s with
      | nil => rfl
      | cons c s =>
        have hquote := quoteText_ofChars (c :: s)
        simpa [valuePart, truthy, ofChars, Option.filter] using hquote
  rw [rawCommand, hvalue, Option.map_some, hparts, CliServer.rawCommand, ofChars_intercalate]
  simp only [List.map_append]
  rfl

end Written

/-! ### The tool -/

/-- A parameter of a processor; the name is `none` if it is no text. -/
structure Parameter where
  name : Option Text
  type : Str
  required : Bool

/-- What `_tool` reads of a node of the command tree. -/
structure CommandTool where
  /-- The path of the node: its root, and the rest. -/
  command : Str
  chain : List Str
  parameters : List Parameter
  valueRequired : Option Bool

/-- A dict of arguments. -/
structure Arguments where
  entries : List (Text × JsonValue)
  nodup : (entries.map Prod.fst).Nodup

def Arguments.withoutNulls (arguments : Arguments) : Arguments where
  entries := Mcp.withoutNulls arguments.entries
  nodup := List.Nodup.sublist (List.Sublist.map _ List.filter_sublist) arguments.nodup

/-- What `pop(key)` leaves. -/
def Arguments.without (arguments : Arguments) (key : Text) : Arguments where
  entries := arguments.entries.filter fun argument => argument.1 ≠ key
  nodup := List.Nodup.sublist (List.Sublist.map _ List.filter_sublist) arguments.nodup

/-- `CliProcessCommand`; `value` is `null` for `None`. -/
structure CliProcessCommand where
  command : Str
  rawCommand : Text
  value : JsonValue
  args : Arguments
  chainCommands : List Str
  positionals : List JsonValue

def valueKey : Text := lit "value"

namespace CommandTool

def path (tool : CommandTool) : List Str := tool.command :: tool.chain

/-- `takes_value`. -/
def takesValue (tool : CommandTool) : Bool := tool.valueRequired.isSome

/-- `_JSON_TYPES`, of the lower case of a type. -/
def jsonType (t : CaseTable) (type : Str) : Text :=
  let name := ofChars (lower t type)
  if name ∈ [lit "string", lit "number", lit "boolean", lit "array"] then name else lit "string"

/-- The loop of `command_input_schema`. -/
def addParameter (t : CaseTable) (schema : InputSchema) (param : Parameter) : InputSchema :=
  match param.name with
  | none => schema
  | some name =>
    if name = [] ∨ name ∈ schema.properties.map Prod.fst then schema
    else
      let type := jsonType t param.type
      let prop : Property := { type := some type, items := if type = lit "array" then some (lit "string") else none }
      { properties := schema.properties ++ [(name, prop)]
        required := if param.required then schema.required ++ [name] else schema.required }

/-- `command_input_schema`. -/
def commandInputSchema (t : CaseTable) (tool : CommandTool) : InputSchema :=
  let schema := tool.parameters.foldl (addParameter t) ⟨[], []⟩
  if tool.takesValue ∧ valueKey ∉ schema.properties.map Prod.fst then
    { properties := schema.properties ++ [(valueKey, { type := some (lit "string") })]
      required := if tool.valueRequired = some true then schema.required ++ [valueKey] else schema.required }
  else schema

/-- The positional value is one of the arguments, as no parameter has its name. -/
def popsValue (tool : CommandTool) : Bool := tool.takesValue && some valueKey ∉ tool.parameters.map Parameter.name

/-- The command that `call` gives to the executor; `none` if it raises. -/
def toCommand (py : Python) (tool : CommandTool) (arguments : Arguments) : Option CliProcessCommand :=
  let value := if tool.popsValue then get arguments.entries valueKey else .null
  let args := if tool.popsValue then arguments.without valueKey else arguments
  (rawCommand py tool.path value args.entries).map fun raw =>
    { command := tool.command
      rawCommand := raw
      value := value
      args := args
      chainCommands := tool.chain
      positionals := if truthy py value then [value] else [] }

variable {t : CaseTable} {py : Python} {tool : CommandTool} {arguments : Arguments}

/-- The declared names are those of the parameters. -/
private theorem mem_declared {schema : InputSchema} {params : List Parameter} {name : Text}
    (h : name ∈ (params.foldl (addParameter t) schema).properties.map Prod.fst) :
    name ∈ schema.properties.map Prod.fst ∨ some name ∈ params.map Parameter.name := by
  induction params generalizing schema with
  | nil => exact .inl h
  | cons param params ih =>
    rw [List.foldl_cons] at h
    rcases ih h with hmem | hmem
    · rw [addParameter] at hmem
      cases hname : param.name with
      | none =>
        rw [hname] at hmem
        exact .inl hmem
      | some name' =>
        simp only [hname] at hmem
        split at hmem
        · exact .inl hmem
        · rw [List.map_append, List.mem_append] at hmem
          rcases hmem with hmem | hmem
          · exact .inl hmem
          · obtain rfl := List.mem_singleton.1 hmem
            exact .inr (by simp [hname])
    · exact .inr (List.mem_cons_of_mem _ hmem)

/-- The positional value is declared as a text. -/
private theorem lookup_valueKey (h : tool.popsValue = true) :
    (commandInputSchema t tool).properties.lookup valueKey = some { type := some (lit "string") } := by
  simp only [popsValue, Bool.and_eq_true, decide_eq_true_eq] at h
  obtain ⟨htakes, hnames⟩ := h
  have hnot : valueKey ∉ (tool.parameters.foldl (addParameter t) ⟨[], []⟩).properties.map Prod.fst := fun hmem =>
    (mem_declared hmem).elim (fun hnil => by cases hnil) hnames
  have hnone : (tool.parameters.foldl (addParameter t) ⟨[], []⟩).properties.lookup valueKey = none := by
    rw [List.lookup_eq_none_iff]
    intro p hp
    rw [bne_iff_ne]
    intro heq
    exact hnot (heq ▸ List.mem_map_of_mem hp)
  rw [commandInputSchema, if_pos ⟨htakes, hnot⟩, List.lookup_append, hnone]
  simp

/-- If the arguments are accepted the positional value is a text or `null`. -/
private theorem value_of_accepted (h : validateArguments py arguments.entries (commandInputSchema t tool) = none)
    (hpops : tool.popsValue = true) :
    get arguments.entries valueKey = .null ∨ ∃ s, get arguments.entries valueKey = .str s := by
  cases hlookup : arguments.entries.lookup valueKey with
  | none => exact .inl (by rw [get, hlookup]; rfl)
  | some value =>
    have hget : get arguments.entries valueKey = value := by
      rw [get, hlookup]
      rfl
    have hmem : (valueKey, value) ∈ arguments.entries := by
      obtain ⟨l₁, l₂, hsplit, -⟩ := List.lookup_eq_some_iff.1 hlookup
      exact hsplit ▸ List.mem_append_right _ List.mem_cons_self
    obtain ⟨prop, hprop, hcheck⟩ := checkArguments_eq_none_iff.1 (validateArguments_eq_none_iff.1 h).1 _ hmem
    rw [lookup_valueKey hpops, Option.some.injEq] at hprop
    subst hprop
    rw [hget]
    rcases hcheck with hnull | hcheck
    · cases value with
      | null => exact .inl rfl
      | _ => cases hnull
    · cases value with
      | str s => exact .inr ⟨s, rfl⟩
      | _ => cases hcheck

/-- So nothing is raised. -/
private theorem exists_toCommand (h : validateArguments py arguments.entries (commandInputSchema t tool) = none) :
    ∃ command, toCommand py tool arguments = some command ∧
      command.args = if tool.popsValue then arguments.without valueKey else arguments := by
  have hpart : ∃ part, valuePart py (if tool.popsValue then get arguments.entries valueKey else .null) = some part := by
    by_cases hpops : tool.popsValue = true
    · rw [if_pos hpops]
      rcases value_of_accepted h hpops with hvalue | ⟨s, hvalue⟩
      · exact ⟨[], by rw [hvalue]; rfl⟩
      · rw [hvalue, valuePart]
        split
        · exact ⟨[quoteText s], rfl⟩
        · exact ⟨[], rfl⟩
    · exact ⟨[], by rw [if_neg hpops]; rfl⟩
  obtain ⟨part, hpart⟩ := hpart
  rw [toCommand, rawCommand, hpart]
  exact ⟨_, rfl, rfl⟩

private theorem isNull_of_mem_withoutNulls {argument : Text × JsonValue}
    (h : argument ∈ arguments.withoutNulls.entries) :
    isNull argument.2 = false := by
  simpa using (List.mem_filter.1 h).2

/-- Arguments that are not `null` are all kept. -/
private theorem withoutNulls_eq_self {entries : List (Text × JsonValue)}
    (h : ∀ argument ∈ entries, isNull argument.2 = false) :
    Mcp.withoutNulls entries = entries := List.filter_eq_self.2 fun argument hmem => by simp [h argument hmem]

/-- The value of a key is the same without the arguments that are `null`. -/
private theorem get_entries_withoutNulls (arguments : Arguments) (key : Text) :
    get arguments.withoutNulls.entries key = get arguments.entries key := by
  cases hlookup : arguments.entries.lookup key with
  | none =>
    have hnone : arguments.withoutNulls.entries.lookup key = none := by
      rw [List.lookup_eq_none_iff] at hlookup ⊢
      exact fun p hp => hlookup p (List.mem_filter.1 hp).1
    rw [get, get, hlookup, hnone]
  | some value =>
    by_cases hnull : isNull value = true
    · have hvalue : value = .null := by
        cases value with
        | null => rfl
        | _ => cases hnull
      subst hvalue
      -- the key is there once, and that argument is left out
      have hnone : arguments.withoutNulls.entries.lookup key = none := by
        obtain ⟨l₁, l₂, hsplit, -⟩ := List.lookup_eq_some_iff.1 hlookup
        rw [List.lookup_eq_none_iff]
        intro p hp
        rw [bne_iff_ne]
        rintro rfl
        have hmem := (List.mem_filter.1 hp).1
        have hvalue := isNull_of_mem_withoutNulls hp
        have hnodup := arguments.nodup
        rw [hsplit, List.map_append, List.map_cons, List.nodup_middle, List.nodup_cons, ← List.map_append] at hnodup
        rw [hsplit, List.mem_append, List.mem_cons, or_left_comm] at hmem
        rcases hmem with hmem | hmem
        · rw [hmem] at hvalue
          cases hvalue
        · exact hnodup.1 (List.mem_map.2 ⟨p, List.mem_append.2 hmem, rfl⟩)
      rw [get, get, hlookup, hnone]
      rfl
    · have hget : get arguments.entries key = value := by
        rw [get, hlookup]
        rfl
      exact get_withoutNulls (by simpa [hget] using hnull)

/-- Accepted arguments are accepted without those that are `null`, and the processor gets the same command exactly when
none is `null` but the positional value. -/
theorem toCommand_withoutNulls_iff (t : CaseTable) (py : Python) (tool : CommandTool) (arguments : Arguments)
    (h : validateArguments py arguments.entries (commandInputSchema t tool) = none) :
    validateArguments py arguments.withoutNulls.entries (commandInputSchema t tool) = none ∧
      (toCommand py tool arguments.withoutNulls = toCommand py tool arguments ↔
        ∀ argument ∈ arguments.entries, isNull argument.2 = true → tool.popsValue = true ∧ argument.1 = valueKey) := by
  have hwithout : validateArguments py arguments.withoutNulls.entries (commandInputSchema t tool) = none :=
    validateArguments_withoutNulls h
  refine ⟨hwithout, fun heq argument hmem hnull => ?_, fun hall => ?_⟩
  · obtain ⟨command, hcommand, hargs⟩ := exists_toCommand h
    obtain ⟨command', hcommand', hargs'⟩ := exists_toCommand hwithout
    rw [hcommand, hcommand', Option.some.injEq] at heq
    rw [heq, hargs] at hargs'
    -- an argument that is `null` and not popped would be among the arguments without `null`
    have habsent : argument ∉ arguments.withoutNulls.entries := fun hin => by
      rw [isNull_of_mem_withoutNulls hin] at hnull
      cases hnull
    by_cases hpops : tool.popsValue = true
    · refine ⟨hpops, by_contra fun hkey => ?_⟩
      rw [if_pos hpops, if_pos hpops] at hargs'
      have hin : argument ∈ (arguments.without valueKey).entries := List.mem_filter.2 ⟨hmem, by simpa using hkey⟩
      rw [hargs'] at hin
      exact habsent (List.mem_filter.1 hin).1
    · rw [if_neg hpops, if_neg hpops] at hargs'
      exact absurd (hargs' ▸ hmem) habsent
  · have hargs : (if tool.popsValue then arguments.withoutNulls.without valueKey else arguments.withoutNulls) =
        if tool.popsValue then arguments.without valueKey else arguments := by
      by_cases hpops : tool.popsValue = true
      · rw [if_pos hpops, if_pos hpops, Arguments.without, Arguments.without, Arguments.mk.injEq]
        simp only [Arguments.withoutNulls, Mcp.withoutNulls, List.filter_filter]
        refine List.filter_congr fun argument hmem => ?_
        by_cases hkey : argument.1 = valueKey
        · simp [hkey]
        · have hnull : isNull argument.2 = false := Bool.eq_false_iff.2 fun hnull => hkey (hall argument hmem hnull).2
          simp [hnull]
      · rw [if_neg hpops, if_neg hpops, Arguments.withoutNulls, Arguments.mk.injEq]
        refine withoutNulls_eq_self fun argument hmem => Bool.eq_false_iff.2 fun hnull => ?_
        exact hpops (hall argument hmem hnull).1
    rw [toCommand, toCommand, get_entries_withoutNulls, hargs]

/-- A command with one optional parameter. -/
def weather : CommandTool where
  command := "weather".toList
  chain := []
  parameters := [⟨some (lit "city"), "string".toList, false⟩]
  valueRequired := none

/-- A call with the parameter and `null`. -/
def nullCity : Arguments where
  entries := [(lit "city", .null)]
  nodup := List.nodup_singleton _

theorem toCommand_withoutNulls_nullCity :
    let t : CaseTable := fun _ _ _ => []
    let py : Python := ⟨fun _ => true, fun _ => false, fun _ => []⟩
    validateArguments py nullCity.entries (commandInputSchema t weather) = none ∧
      validateArguments py nullCity.withoutNulls.entries (commandInputSchema t weather) = none ∧
      (toCommand py weather nullCity.withoutNulls = toCommand py weather nullCity ↔
        ∀ argument ∈ nullCity.entries, isNull argument.2 = true → weather.popsValue = true ∧ argument.1 = valueKey) :=
  ⟨rfl, toCommand_withoutNulls_iff _ _ weather nullCity rfl⟩

/-- The processor gets the `null`, and the raw command has it as a word. -/
theorem null_city_kept :
    let t : CaseTable := fun _ _ _ => []
    let py : Python := ⟨fun _ => true, fun _ => false, fun _ => []⟩
    validateArguments py nullCity.entries (commandInputSchema t weather) = none ∧
      (toCommand py weather nullCity).map (fun command => (command.rawCommand, command.args.entries.map Prod.fst)) =
        some (lit "weather --city=None", [lit "city"]) ∧
      (toCommand py weather nullCity.withoutNulls).map
        (fun command => (command.rawCommand, command.args.entries.map Prod.fst)) = some (lit "weather", []) :=
  ⟨rfl, rfl, rfl⟩

end CommandTool

end Mcp

end CliServer
