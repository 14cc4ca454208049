import TemplateTree.Basic

/-!
Lists of named things, in the order of their names' UTF-8 bytes, which is the order of the names'
code points.
-/

namespace TemplateTree
set_option autoImplicit false

namespace Text

variable {α : Type}

def nameLe (a b : String) : Bool := !(b < a)

def insertByName (m : String × α) : List (String × α) → List (String × α)
  | [] => [m]
  | n :: rest => if nameLe m.1 n.1 then m :: n :: rest else n :: insertByName m rest

/-- Things of one name keep their order. -/
def sortByName (ms : List (String × α)) : List (String × α) := ms.foldr insertByName []

end Text

end TemplateTree
