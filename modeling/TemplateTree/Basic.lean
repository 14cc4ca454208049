/-!
Vocabulary shared by tokens and trees: line numbers, the origin of a tree node,
attributes, and the ways a named block combines with the block it overrides.
-/

namespace TemplateTree
set_option autoImplicit false

/-- Line numbers are machine words; the templates never compute with them. -/
abbrev Line := UInt64

/-- Where a node was written. No file name means that none was given for the template. -/
structure Origin where
  line : Line
  file : Option String
deriving DecidableEq, Repr, Inhabited

/-- An attribute's value: an expression of the host language, or a bare flag. -/
inductive AttributeValue where
  | expression (source : String)
  | flag (on : Bool)
deriving DecidableEq, Repr, Inhabited

structure Attribute where
  name : String
  value : AttributeValue
  escaped : Bool
deriving DecidableEq, Repr, Inhabited

/-- How a named block treats the content of the block it overrides. -/
inductive BlockMode where
  | replace
  | append
  | prepend
deriving DecidableEq, Repr, Inhabited

namespace BlockMode

def all : List BlockMode := [.replace, .append, .prepend]

def wireName : BlockMode → String
  | replace => "replace"
  | append => "append"
  | prepend => "prepend"

end BlockMode

namespace Attribute

/-- The attribute that a shorthand stands for: its text as a quoted expression, not escaped. -/
def shorthand (name text : String) : Attribute :=
  ⟨name, .expression ("'" ++ text ++ "'"), false⟩

end Attribute

end TemplateTree
