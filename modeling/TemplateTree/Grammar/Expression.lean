import TemplateTree.Grammar.Head
import TemplateTree.Text.Quoted

/-!
Expressions, the items of a body, and the branches of a case. Here the grammar's recursion is
closed: what may be asked about fewer than `n + 1` tokens is answered by reading one of them and
asking about fewer than `n`.
-/

namespace TemplateTree
set_option autoImplicit false

namespace Grammar

variable {n : Nat} (linking : Linking) (scope : Scope) (below : Below n)

/-- A case after its token. Its body holds branches only. -/
def caseFrom (line : Line) (source : String) : Routine n Node := do
  let indent ← Routine.expect .indent
  let nodes ← below .branches
  let _ ← Routine.expect .outdent
  return scope.node line (.case source (scope.block indent.line nodes))

/-- A branch of a case after its token. A branch without a body falls through to the next. -/
def branchFrom (line : Line) (source : String) : Routine n Node := do
  let kind := (← Routine.peek).kind
  if kind = .colon ∨ kind = .indent then
    return scope.node line (.when source (some (← expansion scope below)))
  else return scope.node line (.when source none)

/-- Code that opens the alternative of a loop. -/
def isAlternative : Lexeme → Bool
  | .code c => c.source == "else"
  | _ => false

/-- What is shown for an empty collection, behind an else that directly follows a loop's body. -/
def alternative? : Routine n (Option Block) := do
  match ← Routine.acceptIf fun t => isAlternative t.lexeme with
  | some _ => return some (← body scope below)
  | none => return none

/-- A loop after its token. -/
def eachFrom (line : Line) (head : LoopHead) : Routine n Node := do
  let main ← body scope below
  let alternative ← alternative? scope below
  return scope.node line (.each head main alternative)

/-- The attributes that a group gives to a filter. -/
def groupAttrs (group : Option Token) : List Attribute :=
  match group.map Token.lexeme with
  | some (.attrs list _) => list
  | _ => []

def filterFrom (line : Line) (name : String) : Routine n Node := do
  let attrs := groupAttrs (← Routine.accept .attrs)
  return scope.node line (.filter name attrs (← pipelessBody scope below line))

def commentFrom (line : Line) (text : String) (buffered : Bool) : Routine n Node := do
  match ← pipelessBody? scope below with
  | some body => return scope.node line (.blockComment text buffered body)
  | none => return scope.node line (.comment text buffered)

/-- The place in a mixin's body that takes a call's content. -/
def mixinBlockFrom (line : Line) : Routine n Node := do
  if (← Routine.look State.mixinDepth) = 0 then Routine.fail .anonymousBlock line
  else return scope.node line .mixinBlock

/-- An expression after its first token, which stood at the given position. -/
def expressionFrom (place : Option Nat) (t : Token) : Routine n Node :=
  match t.lexeme with
  | .tag name selfClosing => tagFrom linking scope below t.line name selfClosing false none
  | .interpolation source => tagFrom linking scope below t.line source false true none
  | .idName name =>
    tagFrom linking scope below t.line "div" false false (some ⟨⟨t.line, .idName name⟩, rfl⟩)
  | .className name =>
    tagFrom linking scope below t.line "div" false false (some ⟨⟨t.line, .className name⟩, rfl⟩)
  | .mixin name args => mixinFrom scope below t.line name args
  | .call name args => callFrom linking scope below t.line name args
  | .mixinBlock => mixinBlockFrom scope t.line
  | .block name mode => do
    let nested ← body? scope below
    return scope.node t.line
      (.namedBlock (Text.trim name) mode ((nested.map BlockOf.nodes).getD []))
  | .case source => caseFrom scope below t.line source
  | .each head => eachFrom scope below t.line head
  | .code c => codeFrom linking scope below place t.line c
  | .inherit path => return scope.node t.line (.inherit (Text.trim path))
  | .inclusion path via attrs => do
    let nested ← body? scope below
    return scope.node t.line
      (.inclusion (Text.trim path) via attrs (nested.getD (scope.block t.line [])))
  | .doctype name => return scope.node t.line (.doctype name)
  | .filter name => filterFrom scope below t.line name
  | .comment content buffered => commentFrom scope below t.line content buffered
  | .dot => return .ofBlock (← pipelessBody scope below t.line)
  | .text content => textFrom scope below t.line (scope.text t.line content)
  | .startInterpolation => do
    let first ← interpolation below
    textFrom scope below t.line first
  | .textHtml content =>
    return .ofBlock (scope.block t.line (← htmlFrom scope below t.line content))
  | .yield => return .ofBlock ⟨scope.origin t.line, [], true⟩
  | _ => Routine.fail (.noExpression t.kind) t.line

def anyExpression : Routine (n + 1) Node :=
  Routine.opening (fun place t => some (expressionFrom linking scope below place t))
    (fun t => Routine.fail (.noExpression t.kind) t.line)

/-- The items that stand at one level. Newlines between them are dropped and the pieces of an HTML
run are spliced in. -/
def items (inBody : Bool) : Routine (n + 1) (List Node) :=
  Routine.opening
    (fun place t =>
      match t.lexeme with
      | .eos => none
      | .outdent =>
        if inBody then none else some (Routine.fail (.noExpression t.kind) t.line)
      | .newline => some (below (.items inBody))
      | .textHtml content => some do
        let run ← htmlFrom scope below t.line content
        return run ++ (← below (.items inBody))
      | _ => some do
        let node ← expressionFrom linking scope below place t
        return node :: (← below (.items inBody)))
    (fun _ => return [])

def branches : Routine (n + 1) (List Node) :=
  Routine.opening
    (fun _ t =>
      match t.lexeme with
      | .outdent => none
      | .newline => some (below .branches)
      | .when source => some do
        let branch ← branchFrom scope below t.line source
        return branch :: (← below .branches)
      | .default => some do
        let branch ← branchFrom scope below t.line "default"
        return branch :: (← below .branches)
      | _ => some (Routine.fail (.inCase t.kind) t.line))
    (fun t =>
      if t.kind = .outdent then return []
      else Routine.fail (.inCase t.kind) t.line)

/-- Reads one token more than what is below. -/
def extend : Below (n + 1)
  | .expression => anyExpression linking scope below
  | .items inBody => items linking scope below inBody
  | .textRun spansLines => textRun scope below spansLines
  | .pipeless => pipeless scope below
  | .htmlRun => htmlRun scope below
  | .branches => branches scope below

/-- Answers every question about fewer than `n` tokens. -/
def answer : (n : Nat) → Below n
  | 0, _ => fun _ h => absurd h (Nat.not_lt_zero _)
  | n + 1, goal => extend linking scope (answer n) goal

end Grammar

end TemplateTree
