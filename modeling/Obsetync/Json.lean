import Obsetync.Assoc
import Obsetync.Keyed

namespace Obsetync.Json
open Keyed

/-- `serde_json::Number`; a float is given by its bits. -/
inductive Number
  | posInt (n : UInt64)
  | negInt (n : Int64)
  | float (bits : UInt64)
  deriving DecidableEq

/-- `serde_json::Value`. -/
inductive Value
  | null
  | bool (b : Bool)
  | number (n : Number)
  | string (s : String)
  | array (items : List Value)
  | object (fields : List (String × Value))

/-- Objects are maps that are ordered by their keys. -/
inductive Value.WellFormed : Value → Prop where
  | null : WellFormed .null
  | bool (b : Bool) : WellFormed (.bool b)
  | number (n : Number) : WellFormed (.number n)
  | string (s : String) : WellFormed (.string s)
  | array : (∀ v ∈ items, WellFormed v) → WellFormed (.array items)
  | object : Sorted Prod.fst fields → (∀ f ∈ fields, WellFormed f.2) → WellFormed (.object fields)

abbrev JsonValue := {value : Value // value.WellFormed}

namespace Value

def asObject : Value → Option (List (String × Value))
  | .object fields => some fields
  | _ => none

def asArray : Value → Option (List Value)
  | .array items => some items
  | _ => none

def asStr : Value → Option String
  | .string s => some s
  | _ => none

def asU64 : Value → Option UInt64
  | .number (.posInt n) => some n
  | _ => none

/-- The comparison with `Value::Bool(true)`. -/
def isTrue : Value → Bool
  | .bool b => b
  | _ => false

end Value

def field (object : List (String × Value)) (key : String) (test : Value → Bool) : Bool :=
  (Assoc.find object key).any test

end Obsetync.Json
