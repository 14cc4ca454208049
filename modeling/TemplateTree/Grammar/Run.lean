import TemplateTree.Grammar.Goal

/-!
Runs of text. A run of plain text gives one node per token and one per interpolation; between two
lines of text stands a node for the line break. Adjacent pieces of raw HTML become one node.
-/

namespace TemplateTree
set_option autoImplicit false

/-- Nodes that were collected, and where among them the HTML stands that more HTML may join. -/
structure RunningHtml where
  nodes : Array Node
  current : Option Nat
deriving Repr, Inhabited

namespace RunningHtml

/-- The text that more HTML joins, with its place. -/
def text? (r : RunningHtml) : Option (Nat × Origin × String) := do
  let place ← r.current
  let node ← r.nodes[place]?
  let content ← node.htmlText?
  return (place, node.origin, content)

/-- Adds a node. HTML joins the running text or starts a new one, and any other node ends it. -/
def add (r : RunningHtml) (n : Node) : RunningHtml :=
  match n.htmlText? with
  | none => ⟨r.nodes.push n, none⟩
  | some content =>
    match r.text? with
    | some (place, origin, running) =>
      let joined : Node := ⟨origin, .text (running ++ "\n" ++ content) true⟩
      { r with nodes := r.nodes.setIfInBounds place joined }
    | none => ⟨r.nodes.push n, some r.nodes.size⟩

end RunningHtml

/-- Joins adjacent HTML. -/
def Node.mergeHtml (nodes : List Node) : List Node :=
  (nodes.foldl RunningHtml.add ⟨#[], none⟩).nodes.toList

namespace Grammar

variable {n : Nat} (scope : Scope) (below : Below n)

def textRun (spansLines : Bool) : Routine (n + 1) (List Node) :=
  Routine.opening
    (fun _ t =>
      match t.lexeme with
      | .text content => some do
        return scope.text t.line content :: (← below (.textRun spansLines))
      | .startInterpolation => some do
        let node ← interpolation below
        return node :: (← below (.textRun spansLines))
      | .newline =>
        if spansLines then some do
          let following ← Routine.peek
          let more ← below (.textRun spansLines)
          return if following.kind = .text then scope.text t.line "\n" :: more else more
        else none
      | _ => none)
    (fun _ => return [])

def pipeless : Routine (n + 1) (List Node) :=
  Routine.opening
    (fun _ t =>
      match t.lexeme with
      | .endPipeless => some (return [])
      | .text content => some do
        return scope.text t.line content :: (← below .pipeless)
      | .newline => some do
        return scope.text t.line "\n" :: (← below .pipeless)
      | .startInterpolation => some do
        let node ← interpolation below
        return node :: (← below .pipeless)
      | _ => none)
    (fun t => Routine.fail (.inPipeless t.kind) t.line)

/-- What belongs to a line of HTML: the body nested under it, or the newline that ends it. -/
def htmlNested : Routine n (List Node) := do
  match ← body? scope below with
  | some nested => return nested.nodes
  | none => do
    let _ ← Routine.accept .newline
    return []

/-- A line of HTML after its token, with the lines that follow. Nothing is joined yet. -/
def htmlLine (line : Line) (content : String) : Routine n (List Node) := do
  let nested ← htmlNested scope below
  let more ← below .htmlRun
  return scope.htmlText line content :: (nested ++ more)

def htmlRun : Routine (n + 1) (List Node) :=
  Routine.opening
    (fun _ t =>
      match t.lexeme with
      | .textHtml content => some (htmlLine scope below t.line content)
      | _ => none)
    (fun _ => return [])

/-- A run of HTML after its first token. -/
def htmlFrom (line : Line) (content : String) : Routine n (List Node) := do
  return Node.mergeHtml (← htmlLine scope below line content)

/-- A text run that spans lines, as one node, after its first node was read. -/
def textFrom (line : Line) (first : Node) : Routine n Node := do
  let more ← below (.textRun true)
  return scope.collapse line (first :: more)

end Grammar

end TemplateTree
