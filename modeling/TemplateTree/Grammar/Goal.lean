import TemplateTree.Grammar.Routine
import TemplateTree.Node.Basic

/-!
What the grammar can be asked to read, and the parts that only frame a smaller question. A
`Below n` answers every question about fewer than `n` tokens.
-/

namespace TemplateTree
set_option autoImplicit false

/-- What is known from the outside: the template's file. -/
structure Scope where
  file : Option String
deriving DecidableEq, Repr, Inhabited

namespace Scope

def origin (scope : Scope) (line : Line) : Origin := ⟨line, scope.file⟩

def node (scope : Scope) (line : Line) (shape : Shape Node) : Node := ⟨scope.origin line, shape⟩

def block (scope : Scope) (line : Line) (nodes : List Node) : Block :=
  .ofNodes (scope.origin line) nodes

def text (scope : Scope) (line : Line) (content : String) : Node :=
  scope.node line (.text content false)

def htmlText (scope : Scope) (line : Line) (content : String) : Node :=
  scope.node line (.text content true)

/-- One node stands for itself, and any other number of them for a block. -/
def collapse (scope : Scope) (line : Line) : List Node → Node
  | [n] => n
  | nodes => .ofBlock (scope.block line nodes)

end Scope

inductive Goal where
  /-- One expression. -/
  | expression
  /-- Everything up to the end of the stream, or of a body when there is one to end. -/
  | items (inBody : Bool)
  /-- Text and interpolations. A run that spans lines takes newlines along. -/
  | textRun (spansLines : Bool)
  /-- Pipeless text up to and including its end. -/
  | pipeless
  /-- Lines of HTML with the bodies nested under them. -/
  | htmlRun
  /-- The branches of a case. -/
  | branches
deriving DecidableEq, Repr, Inhabited

abbrev Goal.Result : Goal → Type
  | .expression => Node
  | _ => List Node

abbrev Below (n : Nat) : Type := (goal : Goal) → Routine n goal.Result

namespace Grammar

variable {n : Nat} (scope : Scope) (below : Below n)

def expression : Routine n Node := below .expression

/-- An indented body. -/
def body : Routine n Block := do
  let indent ← Routine.expect .indent
  let nodes ← below (.items true)
  let _ ← Routine.expect .outdent
  return scope.block indent.line nodes

/-- A body if there is one. -/
def body? : Routine n (Option Block) := do
  if (← Routine.peek).kind = .indent then return some (← body scope below) else return none

/-- A colon and the one expression that makes up a body, or an indented body. -/
def expansion : Routine n Block := do
  match ← Routine.accept .colon with
  | some _ => do
    let line ← Routine.look fun s => s.cursor.line
    let node ← expression below
    return scope.block line [node]
  | none => body scope below

/-- An expression inside text, after its opening token. -/
def interpolation : Routine n Node := do
  let node ← expression below
  let _ ← Routine.expect .endInterpolation
  return node

/-- Pipeless text if there is some. -/
def pipelessBody? : Routine n (Option Block) := do
  match ← Routine.accept .startPipeless with
  | some start => do
    let nodes ← below .pipeless
    return some (scope.block start.line nodes)
  | none => return none

/-- Pipeless text, or an empty block on the given line. -/
def pipelessBody (line : Line) : Routine n Block := do
  return (← pipelessBody? scope below).getD (scope.block line [])

end Grammar

end TemplateTree
