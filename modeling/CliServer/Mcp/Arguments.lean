import CliServer.Text
import CliServer.Lib.JsonValues

/-!
# The arguments of a tool call

`validate_arguments` checks the arguments of a call against the schema of the tool: an argument that is `null` counts as
absent.  So arguments that it accepts are accepted without those that are `null` (`validateArguments_withoutNulls`).
-/

open Json (Text ofChars)

namespace CliServer

namespace Mcp

/-- A text of the source. -/
def lit (s : String) : Text := ofChars s.toList

/-- What Python makes of numbers and of values that are written into a text. -/
structure Python where
  /-- `float.is_integer`, and true of an `int`. -/
  isInteger : JsonValue.Number → Bool
  /-- `value == 0`. -/
  isZero : JsonValue.Number → Bool
  /-- `str(value)` of a number, a list or a dict. -/
  repr : JsonValue → Text

def isNull : JsonValue → Bool
  | .null => true
  | _ => false

/-- `arguments.get(key)`, with `null` for `None`. -/
def get (arguments : List (Text × JsonValue)) (key : Text) : JsonValue := (arguments.lookup key).getD .null

/-- What the check of an argument reads of its schema; `items` is the type of the items, where there is one. -/
structure Property where
  type : Option Text
  items : Option Text := none

/-- What `validate_arguments` reads of the schema of a tool. -/
structure InputSchema where
  properties : List (Text × Property)
  required : List Text

/-- Why the arguments are invalid. -/
inductive Reason where
  | unknown (key : Text)
  | wrongType (key label : Text)
  | wrongItems (key itemsType : Text)
  | missing (key : Text)

/-- The texts that a reason quotes. -/
def Reason.texts : Reason → List Text
  | unknown key => [key]
  | wrongType key label => [key, label]
  | wrongItems key itemsType => [key, itemsType]
  | missing key => [key]

def Reason.message : Reason → Text
  | unknown key => lit "unknown argument '" ++ key ++ lit "'"
  | wrongType key label => lit "argument '" ++ key ++ lit "' must be " ++ label
  | wrongItems key itemsType => lit "argument '" ++ key ++ lit "' must be an array of " ++ itemsType ++ lit "s"
  | missing key => lit "missing required argument '" ++ key ++ lit "'"

section Validation

variable (py : Python)

/-- `_type_ok`. -/
def typeOk (value : JsonValue) (expected : Option Text) : Bool :=
  if expected = some (lit "string") then match value with | .str _ => true | _ => false
  else if expected = some (lit "number") then match value with | .num _ => true | _ => false
  else if expected = some (lit "integer") then match value with | .num n => py.isInteger n | _ => false
  else if expected = some (lit "boolean") then match value with | .bool _ => true | _ => false
  else if expected = some (lit "array") then match value with | .arr _ => true | _ => false
  else if expected = some (lit "object") then match value with | .obj _ => true | _ => false
  else true

/-- `_TYPE_LABELS`. -/
def typeLabels : List (Text × Text) :=
  [(lit "string", lit "a string"), (lit "number", lit "a number"), (lit "integer", lit "an integer"),
    (lit "boolean", lit "a boolean"), (lit "object", lit "an object"), (lit "array", lit "an array")]

/-- The items of a list. -/
def itemsOf : JsonValue → List JsonValue
  | .arr items => items
  | _ => []

/-- The type of the items, if one is asked for: `expected == "array" and items_type`. -/
def Property.itemsType (prop : Property) : Option Text :=
  if prop.type = some (lit "array") then prop.items.filter (· ≠ []) else none

/-- `_check_property`. -/
def checkProperty (key : Text) (prop : Property) (value : JsonValue) : Option Reason :=
  if !typeOk py value prop.type then
    match prop.itemsType with
    | some itemsType => some (.wrongItems key itemsType)
    | none =>
      let expected := prop.type.getD (lit "None")
      some (.wrongType key ((typeLabels.lookup expected).getD expected))
  else match prop.itemsType with
    | some itemsType =>
      if (itemsOf value).any fun item => !typeOk py item (some itemsType) then some (.wrongItems key itemsType)
        else none
    | none => none

/-- The first loop of `validate_arguments`, over the arguments. -/
def checkArguments (schema : InputSchema) : List (Text × JsonValue) → Option Reason
  | [] => none
  | (key, value) :: arguments =>
    match schema.properties.lookup key with
    | none => some (.unknown key)
    | some prop =>
      if isNull value then checkArguments schema arguments
      else match checkProperty py key prop value with
        | some reason => some reason
        | none => checkArguments schema arguments

/-- The second loop, over the arguments that the schema requires. -/
def checkRequired (arguments : List (Text × JsonValue)) : List Text → Option Reason
  | [] => none
  | key :: keys =>
    if isNull (get arguments key) then some (.missing key)
    else checkRequired arguments keys

/-- `validate_arguments`: the reason why the arguments are invalid, whose message the source returns. -/
def validateArguments (arguments : List (Text × JsonValue)) (schema : InputSchema) : Option Reason :=
  match checkArguments py schema arguments with
  | some reason => some reason
  | none => checkRequired arguments schema.required

/-- The arguments that are not `null`. -/
def withoutNulls (arguments : List (Text × JsonValue)) : List (Text × JsonValue) :=
  arguments.filter fun argument => !isNull argument.2

variable {py} {schema : InputSchema} {arguments : List (Text × JsonValue)}

/-- What an accepted argument is. -/
theorem checkArguments_eq_none_iff : checkArguments py schema arguments = none ↔ ∀ argument ∈ arguments,
    ∃ prop, schema.properties.lookup argument.1 = some prop ∧
      (isNull argument.2 = true ∨ checkProperty py argument.1 prop argument.2 = none) := by
  induction arguments with
  | nil => simp [checkArguments]
  | cons argument arguments ih =>
    obtain ⟨key, value⟩ := argument
    rw [checkArguments, List.forall_mem_cons, ← ih]
    cases hprop : schema.properties.lookup key with
    | none => simp
    | some prop =>
      by_cases hnull : isNull value = true
      · simp [hnull]
      · cases hreason : checkProperty py key prop value <;> simp [hnull, hreason]

private theorem checkRequired_eq_none_iff {keys : List Text} :
    checkRequired arguments keys = none ↔ ∀ key ∈ keys, isNull (get arguments key) = false := by
  induction keys with
  | nil => simp [checkRequired]
  | cons key keys ih =>
    rw [checkRequired, List.forall_mem_cons, ← ih]
    by_cases hnull : isNull (get arguments key) = true <;> simp [hnull]

theorem validateArguments_eq_none_iff : validateArguments py arguments schema = none ↔
    checkArguments py schema arguments = none ∧ checkRequired arguments schema.required = none := by
  rw [validateArguments]
  cases checkArguments py schema arguments <;> simp

/-- The first argument of a key, if it is not `null`, is still there. -/
theorem get_withoutNulls {key : Text} (h : isNull (get arguments key) = false) :
    get (withoutNulls arguments) key = get arguments key := by
  induction arguments with
  | nil => rfl
  | cons argument arguments ih =>
    obtain ⟨key', value⟩ := argument
    by_cases hkey : key = key'
    · subst hkey
      have hvalue : get ((key, value) :: arguments) key = value := by simp [get]
      rw [hvalue] at h ⊢
      simp [withoutNulls, h, get]
    · have hrest : get ((key', value) :: arguments) key = get arguments key := by
        simp [get, List.lookup_cons, beq_false_of_ne hkey]
      rw [hrest] at h ⊢
      rw [← ih h, withoutNulls, List.filter_cons]
      split
      · simp [get, List.lookup_cons, beq_false_of_ne hkey, withoutNulls]
      · rfl

/-- Accepted arguments are accepted without those that are `null`. -/
theorem validateArguments_withoutNulls (h : validateArguments py arguments schema = none) :
    validateArguments py (withoutNulls arguments) schema = none := by
  rw [validateArguments_eq_none_iff] at h ⊢
  obtain ⟨harguments, hrequired⟩ := h
  rw [checkArguments_eq_none_iff] at harguments ⊢
  rw [checkRequired_eq_none_iff] at hrequired ⊢
  refine ⟨fun argument hmem => harguments argument (List.mem_filter.1 hmem).1, fun key hkey => ?_⟩
  have hget := hrequired key hkey
  rw [get_withoutNulls hget]
  exact hget

end Validation

end Mcp

end CliServer
