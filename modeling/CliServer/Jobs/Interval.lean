import CliServer.Text

/-!
# Intervals

`parse_interval`: texts such as `30s`, `5m`, `1h`, `1d`, read as a number of seconds.  Seconds are exact here; the
code's floats are the same numbers, rounded.
-/

namespace CliServer

/-- What `parse_interval` raises. -/
inductive IntervalError where
  /-- `ValueError`: not a number followed by a unit (or more digits than `int` reads). -/
  | value
  /-- `OverflowError`: the number does not fit in a float. -/
  | overflow
  deriving DecidableEq, Repr

/-- Integers from `2 ^ 1024 - 2 ^ 970` on do not convert to a float. -/
def floatOverflow : Nat := (2 ^ 54 - 1) * (2 ^ 194) ^ 5

/-- The digits `int` reads at most (`sys.get_int_max_str_digits`). -/
def maxStrDigits : Nat := 4300

/-- `_MULTIPLIERS`. -/
def multiplier : Char → Option Nat
  | 's' => some 1
  | 'm' => some 60
  | 'h' => some 3600
  | 'd' => some 86400
  | _ => none

/-- `parse_interval`, in seconds. -/
def parseInterval (value : Str) : Except IntervalError Nat :=
  let v := strip value
  match v.getLast?.bind multiplier, v.dropLast.mapM decimalValue with
  | some m, some ds =>
    if ds = [] ∨ maxStrDigits < ds.length then .error .value
    else if floatOverflow ≤ digitsToNat ds then .error .overflow
    else .ok (digitsToNat ds * m)
  | _, _ => .error .value

example : parseInterval " 5m ".toList = .ok 300 := by decide
example : parseInterval "5x".toList = .error .value := by decide

end CliServer
