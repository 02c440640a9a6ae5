import ScriptModules.Number.Binary64

/-!
# JSON values

Objects keep the order of their members. A key that is written again keeps its first place and
takes the last value.
-/

namespace ScriptModules.Json

/-- Numbers: integers of 64 bits, and doubles for everything else. -/
inductive Number where
  /-- An integer from zero up to 2^64 - 1. -/
  | natural (n : Nat)
  /-- The negative of an integer from one up to 2^63. -/
  | negative (n : Nat)
  | float (x : Number.Binary64)
  deriving DecidableEq, Repr, Inhabited

/-- A JSON document. -/
inductive Value where
  | null
  | bool (b : Bool)
  | number (n : Number)
  | string (s : String)
  | array (items : List Value)
  | object (members : List (String × Value))
  deriving Repr, Inhabited

/-- The members of an object. -/
abbrev Members := List (String × Value)

/-- Replace the value of a key, or add the key at the end. -/
def Members.insert (key : String) (value : Value) : Members → Members
  | [] => [(key, value)]
  | (k, v) :: r => if k == key then (k, value) :: r else (k, v) :: insert key value r

/-- The value of a key. -/
def Members.get? (key : String) (ms : Members) : Option Value := ms.lookup key

/-- The members of an object, given one at a time. -/
def Members.ofList (pairs : List (String × Value)) : Members :=
  pairs.foldl (fun ms (k, v) => Members.insert k v ms) []

namespace Value

/-- A natural number as a JSON value. -/
def ofNat (n : Nat) : Value := number (.natural n)

/-- The member of an object, and nothing for any other value. -/
def get? (key : String) : Value → Option Value
  | object ms => Members.get? key ms
  | _ => none

/-- The text of a string value. -/
def string? : Value → Option String
  | string s => some s
  | _ => none

/-- The truth value of a boolean. -/
def bool? : Value → Option Bool
  | bool b => some b
  | _ => none

/-- The items of an array. -/
def items? : Value → Option (List Value)
  | array items => some items
  | _ => none

/-- The members of an object. -/
def members? : Value → Option Members
  | object ms => some ms
  | _ => none

/-- A natural number. -/
def nat? : Value → Option Nat
  | number (.natural n) => some n
  | _ => none

/-- Text or null. -/
def ofOption (s? : Option String) : Value :=
  match s? with
  | some s => string s
  | none => null

end Value

end ScriptModules.Json
