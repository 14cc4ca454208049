import TemplateTree.Json.Double

/-!
JSON values. Objects keep their members in written order, repeated names included, so that a
decoder can tell a repeated field from a single one. Numbers keep apart the words a field may
ask for, the negative integers, and everything that is only a double.
-/

namespace TemplateTree
set_option autoImplicit false

/-- Negative integers are at least `-2 ^ 63` and carry their magnitude; negative zero and all
other numbers are doubles. -/
inductive JsonNumber where
  | word (n : UInt64)
  | negative (magnitude : Nat)
  | double (isNegative : Bool) (magnitude : Magnitude)
deriving DecidableEq, Repr, Inhabited

namespace JsonNumber

def render : JsonNumber → String
  | .word n => toString n.toNat
  | .negative m => "-" ++ toString m
  | .double false m => m.render
  | .double true m => "-" ++ m.render

end JsonNumber

inductive Json where
  | null
  | bool (b : Bool)
  | number (n : JsonNumber)
  | string (s : String)
  | array (items : List Json)
  | object (members : List (String × Json))
deriving Repr, BEq, Inhabited

namespace Json

def word (n : UInt64) : Json := .number (.word n)

/-- An absent text is written as null. -/
def ofText? : Option String → Json
  | some s => .string s
  | none => .null

end Json

end TemplateTree
