import PMLib.Objects
import Mathlib.Data.Rat.Defs

/-! # JSON values of the configuration

The accessors and conversions of the JSON library that comes with the server. What its
assertions reject leaves by an exception. -/
namespace PMLib

open Int32Conv

def ascii (s : String) : List Byte := s.toList.map fun c => .ofNat 8 c.toNat

abbrev Name := List Byte

/-- A document. The members of an object stand as in the text. -/
inductive Json where
  | null
  | bool (b : Bool)
  | int (n : ℤ)
  | real (x : ℚ)
  | string (s : List Byte)
  | array (items : List Json)
  | object (members : List (Name × Json))

namespace Json

/-- An object keeps one value for each name, the last one of the text, in the order of the
names. Null is as good as an empty object. -/
def fields : Json → Outcome (Std.TreeMap Name Json)
  | .null => .done ∅
  | .object members => .done (members.foldl (fun m p => m.insert p.1 p.2) ∅)
  | _ => .failed

/-- `get` with a default. The operator `[]` has the default null. -/
def get (j : Json) (name : String) (default : Json) : Outcome Json := do
  let fields ← j.fields
  .done (fields.getD (ascii name) default)

def isNull : Json → Bool
  | .null => true
  | _ => false

def asInt : Json → Outcome ℤ
  | .null => .done 0
  | .bool b => .done (if b then 1 else 0)
  | .int n => if FitsInt n then .done n else .failed
  | .real x => if -2 ^ 31 ≤ x ∧ x ≤ 2 ^ 31 - 1 then .done (x.num.tdiv x.den) else .failed
  | _ => .failed

/-- `text` writes a number. -/
def asString (text : Json → List Byte) : Json → Outcome (List Byte)
  | .null => .done []
  | .bool b => .done (ascii (if b then "true" else "false"))
  | .int n => .done (text (.int n))
  | .real x => .done (text (.real x))
  | .string s => .done s
  | _ => .failed

/-- `asFloat`, of which only the exception matters. -/
def asFloat : Json → Outcome Unit
  | .null | .bool _ | .int _ | .real _ => .done ()
  | _ => .failed

end Json

end PMLib
