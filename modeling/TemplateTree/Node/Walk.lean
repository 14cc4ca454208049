import TemplateTree.Node.Basic

/-!
Walking a tree. A visitor carries a state; it is told of every node before and after the node's
children, and may decline the children. The root block itself is not visited.
-/

namespace TemplateTree
set_option autoImplicit false

/-- What happens at a node, before its children and after them. -/
structure Visitor (σ : Type) where
  /-- Answers whether the children are to be visited. -/
  enter : Node → σ → Bool × σ
  leave : Node → σ → σ

namespace Visitor

variable {σ : Type} (v : Visitor σ)

mutual

def visit : Node → σ → σ
  | ⟨origin, shape⟩, s =>
    let (descend, s) := v.enter ⟨origin, shape⟩ s
    v.leave ⟨origin, shape⟩ (if descend then visitShape shape s else s)

/-- The children of a shape: a tag's code comes before its body. -/
def visitShape : Shape Node → σ → σ
  | .block nodes _, s => visitNodes nodes s
  | .namedBlock _ _ nodes, s => visitNodes nodes s
  | .tag _ body code, s => visitBlock body (visitNode? code s)
  | .text .., s => s
  | .mixin _ body, s => visitBlock? body s
  | .mixinBlock, s => s
  | .code _ body, s => visitBlock? body s
  | .case _ body, s => visitBlock body s
  | .when _ body, s => visitBlock? body s
  | .each _ body alternative, s => visitBlock? alternative (visitBlock body s)
  | .inherit _, s => s
  | .inclusion _ _ _ body, s => visitBlock body s
  | .comment .., s => s
  | .blockComment _ _ body, s => visitBlock body s
  | .doctype _, s => s
  | .filter _ _ body, s => visitBlock body s

def visitBlock : BlockOf Node → σ → σ
  | ⟨_, nodes, _⟩, s => visitNodes nodes s

def visitBlock? : Option (BlockOf Node) → σ → σ
  | none, s => s
  | some b, s => visitBlock b s

def visitNode? : Option Node → σ → σ
  | none, s => s
  | some n, s => visit n s

def visitNodes : List Node → σ → σ
  | [], s => s
  | n :: rest, s => visitNodes rest (visit n s)

end

end Visitor

/-- Shows every node under a block to a visitor. -/
def Block.walk {σ : Type} (root : Block) (v : Visitor σ) (s : σ) : σ := v.visitBlock root s

/-- A moment of a walk. -/
inductive WalkEvent where
  | enter (n : Node)
  | leave (n : Node)
deriving Repr

/-- Records a walk, the latest event first; children are visited where the test says so. -/
def WalkEvent.recorder (descend : Node → Bool) : Visitor (List WalkEvent) where
  enter n events := (descend n, .enter n :: events)
  leave n events := .leave n :: events

/-- The events of a walk in the order in which they happen. -/
def Block.trace (root : Block) (descend : Node → Bool) : List WalkEvent :=
  (root.walk (WalkEvent.recorder descend) []).reverse

end TemplateTree
