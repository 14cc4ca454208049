import TemplateTree.Node.Walk

/-!
Trees and their walks. The children of a shape are listed in the order of the walk, so a walk is a
fold over the children of each node, and what holds of a node whenever it holds of its children
holds of every node.
-/

namespace TemplateTree
set_option autoImplicit false

/-- The nodes of a block that may be absent. -/
def BlockOf.nodesOf {ν : Type} : Option (BlockOf ν) → List ν
  | none => []
  | some b => b.nodes

namespace Shape

variable {ν : Type}

/-- The nodes right under a node of the shape: a tag's code comes before its body. -/
def children : Shape ν → List ν
  | .block nodes _ => nodes
  | .namedBlock _ _ nodes => nodes
  | .tag _ body c => c.toList ++ body.nodes
  | .text .. => []
  | .mixin _ body => BlockOf.nodesOf body
  | .mixinBlock => []
  | .code _ body => BlockOf.nodesOf body
  | .case _ body => body.nodes
  | .when _ body => BlockOf.nodesOf body
  | .each _ body alternative => body.nodes ++ BlockOf.nodesOf alternative
  | .inherit _ => []
  | .inclusion _ _ _ body => body.nodes
  | .comment .. => []
  | .blockComment _ _ body => body.nodes
  | .doctype _ => []
  | .filter _ _ body => body.nodes

end Shape

namespace Node

def children (n : Node) : List Node := n.shape.children

/-- What holds of a node whenever it holds of its children holds of every node. -/
theorem induction {P : Node → Prop} (step : ∀ n : Node, (∀ m ∈ n.children, P m) → P n) (n : Node) :
    P n := by
  refine @Node.rec P (fun shape => ∀ m ∈ shape.children, P m) (fun nodes => ∀ m ∈ nodes, P m)
    (fun b => ∀ m ∈ b.nodes, P m) (fun code => ∀ m ∈ code.toList, P m)
    (fun b => ∀ m ∈ BlockOf.nodesOf b, P m) ?node ?block ?namedBlock ?tag ?text ?mixin ?mixinBlock
    ?code ?case ?when ?each ?inherit ?inclusion ?comment ?blockComment ?doctype ?filter ?nil ?cons
    ?body ?noCode ?someCode ?noBody ?someBody n
  case node => exact fun origin shape ih => step ⟨origin, shape⟩ ih
  case block | mixin | code | case | when => exact fun _ _ ih => ih
  case namedBlock | blockComment | filter => exact fun _ _ _ ih => ih
  case inclusion => exact fun _ _ _ _ ih => ih
  case tag => exact fun _ _ _ ihb ihc => List.forall_mem_append.mpr ⟨ihc, ihb⟩
  case each => exact fun _ _ _ ihb iha => List.forall_mem_append.mpr ⟨ihb, iha⟩
  case text | mixinBlock | inherit | comment | doctype | nil | noCode | noBody =>
    intros
    exact absurd ‹_ ∈ _› List.not_mem_nil
  case cons => exact fun _ _ ih ihs => List.forall_mem_cons.mpr ⟨ih, ihs⟩
  case body => exact fun _ _ _ ih => ih
  case someCode => exact fun _ ih => List.forall_mem_singleton.mpr ih
  case someBody => exact fun _ ih => ih

end Node

namespace Visitor

variable {σ : Type} (v : Visitor σ)

theorem visitNodes_append (ms ns : List Node) (s : σ) :
    v.visitNodes (ms ++ ns) s = v.visitNodes ns (v.visitNodes ms s) := by
  induction ms generalizing s with
  | nil => rfl
  | cons m ms ih => exact ih (v.visit m s)

theorem visitBlock_eq (b : Block) (s : σ) : v.visitBlock b s = v.visitNodes b.nodes s := by
  cases b
  rfl

theorem visitBlock?_eq (b : Option Block) (s : σ) :
    v.visitBlock? b s = v.visitNodes (BlockOf.nodesOf b) s := by
  cases b with
  | none => rfl
  | some b => exact v.visitBlock_eq b s

theorem visitNode?_eq (n : Option Node) (s : σ) : v.visitNode? n s = v.visitNodes n.toList s := by
  cases n <;> rfl

theorem visitShape_eq (shape : Shape Node) (s : σ) :
    v.visitShape shape s = v.visitNodes shape.children s := by
  cases shape <;> simp only [visitShape, Shape.children, visitNodes_append, visitBlock_eq,
    visitBlock?_eq, visitNode?_eq, visitNodes]

theorem visit_eq (n : Node) (s : σ) : v.visit n s = v.leave n
    (if (v.enter n s).1 then v.visitNodes n.children (v.enter n s).2 else (v.enter n s).2) := by
  obtain ⟨origin, shape⟩ := n
  simp only [visit, visitShape_eq, Node.children]

end Visitor

namespace WalkEvent

def entered? : WalkEvent → Option Node
  | enter n => some n
  | leave _ => none

theorem visit_recorder (descend : Node → Bool) (n : Node) (events : List WalkEvent) :
    (recorder descend).visit n events = .leave n ::
      (if descend n then (recorder descend).visitNodes n.children (.enter n :: events)
        else .enter n :: events) :=
  (recorder descend).visit_eq n events

/-- What a walk records does not depend on what was recorded before. -/
theorem visitNodes_recorder (descend : Node → Bool) (nodes : List Node)
    (events : List WalkEvent) : (recorder descend).visitNodes nodes events =
      (recorder descend).visitNodes nodes [] ++ events := by
  have hnodes {ns : List Node} (h : ∀ n ∈ ns, ∀ es, (recorder descend).visit n es =
      (recorder descend).visit n [] ++ es) (es : List WalkEvent) :
      (recorder descend).visitNodes ns es = (recorder descend).visitNodes ns [] ++ es := by
    induction ns generalizing es with
    | nil => rfl
    | cons n ns ih =>
      obtain ⟨hn, hns⟩ := List.forall_mem_cons.mp h
      simp only [Visitor.visitNodes]
      rw [ih hns, ih hns ((recorder descend).visit n []), hn, List.append_assoc]
  have hnode (n : Node) : ∀ es, (recorder descend).visit n es =
      (recorder descend).visit n [] ++ es := by
    induction n using Node.induction with
    | step n ih =>
      intro es
      rw [visit_recorder, visit_recorder]
      split
      · rw [hnodes ih, hnodes ih [.enter n], List.cons_append, List.append_assoc]
        rfl
      · rfl
  exact hnodes (fun n _ => hnode n) events

end WalkEvent

namespace Node

/-- The nodes under a list of nodes, each before its children, in the order in which a walk that
skips nothing enters them. -/
def preorder (nodes : List Node) : List Node :=
  ((WalkEvent.recorder fun _ => true).visitNodes nodes []).reverse.filterMap WalkEvent.entered?

@[simp] theorem preorder_nil : preorder [] = [] := rfl

@[simp] theorem preorder_append (ms ns : List Node) :
    preorder (ms ++ ns) = preorder ms ++ preorder ns := by
  rw [preorder, Visitor.visitNodes_append, WalkEvent.visitNodes_recorder, List.reverse_append,
    List.filterMap_append]
  rfl

theorem preorder_cons (n : Node) (ns : List Node) :
    preorder (n :: ns) = n :: (preorder n.children ++ preorder ns) := by
  have hone : preorder [n] = n :: preorder n.children := by
    simp only [preorder, Visitor.visitNodes]
    rw [WalkEvent.visit_recorder, if_pos rfl, WalkEvent.visitNodes_recorder]
    simp [WalkEvent.entered?]
  rw [← List.singleton_append, preorder_append, hone, List.cons_append]

end Node

/-- A walk that skips nothing enters the nodes under a block in preorder. -/
theorem Block.entered_trace (root : Block) :
    (root.trace fun _ => true).filterMap WalkEvent.entered? = Node.preorder root.nodes := by
  rw [Block.trace, Block.walk, Visitor.visitBlock_eq, Node.preorder]

end TemplateTree
