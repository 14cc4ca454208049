import TemplateTree.Proofs.RawHtml
import TemplateTree.Proofs.Trees
import TemplateTree.Template

/-!
Relabelling. What is reported about a template says where it was written: on which line, and in
which file. A relabelling changes the lines and the files, and the grammar builds relabelled trees
from relabelled tokens.
-/

namespace TemplateTree
set_option autoImplicit false

/-- Other lines and files for those that are reported. -/
structure Relabelling where
  line : Line → Line
  file : Option String → Option String

namespace Relabelling

/-- Leaves everything as it is. -/
abbrev same : Relabelling := ⟨fun line => line, fun file => file⟩

/-- Puts everything into one file. -/
def within (file : Option String) : Relabelling := ⟨fun line => line, fun _ => file⟩

/-- Changes the lines only. -/
def lines (g : Line → Line) : Relabelling := ⟨g, fun file => file⟩

variable (label : Relabelling)

/-! What carries a line or a file. -/

def origin (o : Origin) : Origin := ⟨label.line o.line, label.file o.file⟩

def token (t : Token) : Token := ⟨label.line t.line, t.lexeme⟩

/-- A token that opens a run of head tokens, relabelled. -/
def opener (t : { t : Token // t.isHead = true }) : { t : Token // t.isHead = true } :=
  ⟨label.token t.1, t.2⟩

def scope (scope : Scope) : Scope := ⟨label.file scope.file⟩

def fault (e : Fault) : Fault := ⟨e.cause, label.line e.line⟩

def notice (n : Notice) : Notice := ⟨n.remark, label.line n.line⟩

def diagnostic (d : Diagnostic) : Diagnostic :=
  { d with line := label.line d.line, file := label.file d.file }

def warning (w : Warning) : Warning :=
  { w with line := label.line w.line, file := label.file w.file }

mutual

def node : Node → Node
  | ⟨origin, s⟩ => ⟨label.origin origin, shape s⟩

/-- A shape with every node and every block in it relabelled. -/
@[simp] def shape : Shape Node → Shape Node
  | .block ns isYield => .block (nodes ns) isYield
  | .namedBlock name mode ns => .namedBlock name mode (nodes ns)
  | .tag head body code => .tag head (block body) (node? code)
  | .text content isHtml => .text content isHtml
  | .mixin head body => .mixin head (block? body)
  | .mixinBlock => .mixinBlock
  | .code head body => .code head (block? body)
  | .case source body => .case source (block body)
  | .when source body => .when source (block? body)
  | .each head body alternative => .each head (block body) (block? alternative)
  | .inherit path => .inherit path
  | .inclusion path via attrs body => .inclusion path via attrs (block body)
  | .comment content buffered => .comment content buffered
  | .blockComment content buffered body => .blockComment content buffered (block body)
  | .doctype name => .doctype name
  | .filter name attrs body => .filter name attrs (block body)

def block : BlockOf Node → BlockOf Node
  | ⟨origin, ns, isYield⟩ => ⟨label.origin origin, nodes ns, isYield⟩

def block? : Option (BlockOf Node) → Option (BlockOf Node)
  | none => none
  | some b => some (block b)

def node? : Option Node → Option Node
  | none => none
  | some n => some (node n)

def nodes : List Node → List Node
  | [] => []
  | n :: rest => node n :: nodes rest

end

/-- A template's tree with every node and block in it relabelled. The root block stands on no
line, so it keeps its own. -/
def parsed (p : Parsed) : Parsed :=
  ⟨⟨⟨p.root.origin.line, label.file p.root.origin.file⟩, p.root.nodes.map label.node,
    p.root.isYield⟩, p.warnings.map label.warning⟩

/-- What a template is parsed to, relabelled. -/
def result : Except Diagnostic Parsed → Except Diagnostic Parsed
  | .error d => .error (label.diagnostic d)
  | .ok p => .ok (label.parsed p)

/-- What the items of a stream are read to, relabelled. -/
def items : Except Fault (List Node × List Notice) → Except Fault (List Node × List Notice)
  | .error e => .error (label.fault e)
  | .ok (nodes, notices) => .ok (nodes.map label.node, notices.map label.notice)

/-- What a question is answered with, relabelled. -/
abbrev answer : (goal : Goal) → goal.Result → goal.Result
  | .expression, n => label.node n
  | .items _, ns | .textRun _, ns | .pipeless, ns | .htmlRun, ns | .branches, ns =>
    ns.map label.node

def content (c : Content) : Content :=
  ⟨c.head, c.textOnly, label.block c.body, c.code.map label.node⟩

/-! The parts of a tree. -/

@[simp] theorem nodes_eq (ns : List Node) : label.nodes ns = ns.map label.node := by
  induction ns with
  | nil => rfl
  | cons n ns ih => rw [nodes, ih, List.map_cons]

@[simp] theorem node?_eq (n : Option Node) : label.node? n = n.map label.node := by
  cases n <;> rfl

@[simp] theorem block?_eq (b : Option Block) : label.block? b = b.map label.block := by
  cases b <;> rfl

@[simp] theorem origin_node (n : Node) : (label.node n).origin = label.origin n.origin := by
  cases n
  rfl

@[simp] theorem shape_node (n : Node) : (label.node n).shape = label.shape n.shape := by
  cases n
  rfl

theorem block_eq (b : Block) :
    label.block b = ⟨label.origin b.origin, b.nodes.map label.node, b.isYield⟩ := by
  cases b
  rw [block, nodes_eq]

@[simp] theorem nodes_block (b : Block) : (label.block b).nodes = b.nodes.map label.node := by
  rw [block_eq]

theorem nodesOf_block (b : Option Block) :
    BlockOf.nodesOf (b.map label.block) = (BlockOf.nodesOf b).map label.node := by
  cases b with
  | none => rfl
  | some b => exact label.nodes_block b

@[simp] theorem htmlText?_node (n : Node) : (label.node n).htmlText? = n.htmlText? := by
  obtain ⟨origin, s⟩ := n
  cases s <;> rfl

theorem children_node (n : Node) : (label.node n).children = n.children.map label.node := by
  rw [Node.children, shape_node, Node.children]
  cases n.shape with
  | tag head body code => cases code <;> simp [Shape.children]
  | _ => simp [Shape.children, nodesOf_block]

theorem preorder_map (ns : List Node) :
    Node.preorder (ns.map label.node) = (Node.preorder ns).map label.node := by
  have hnodes {ms : List Node} (h : ∀ m ∈ ms, Node.preorder (label.node m).children =
      (Node.preorder m.children).map label.node) :
      Node.preorder (ms.map label.node) = (Node.preorder ms).map label.node := by
    induction ms with
    | nil => rfl
    | cons m ms ih =>
      obtain ⟨hm, hms⟩ := List.forall_mem_cons.mp h
      rw [List.map_cons, Node.preorder_cons, hm, ih hms, Node.preorder_cons, List.map_cons,
        List.map_append]
  have hnode (n : Node) :
      Node.preorder (label.node n).children = (Node.preorder n.children).map label.node := by
    induction n using Node.induction with
    | step n ih =>
      rw [children_node]
      exact hnodes ih
  exact hnodes fun n _ => hnode n

/-! How the grammar builds trees. -/

section Builders

variable (scope : Scope) (line : Line)

theorem node_scope (s : Shape Node) :
    label.node (scope.node line s) = (label.scope scope).node (label.line line) (label.shape s) :=
  rfl

@[simp] theorem htmlText_scope (content : String) : label.node (scope.htmlText line content) =
    (label.scope scope).htmlText (label.line line) content := rfl

@[simp] theorem block_scope (ns : List Node) : label.block (scope.block line ns) =
    (label.scope scope).block (label.line line) (ns.map label.node) := by
  rw [block_eq]
  rfl

@[simp] theorem node_ofBlock (b : Block) : label.node (.ofBlock b) = .ofBlock (label.block b) := by
  cases b
  rfl

theorem node_collapse (ns : List Node) : label.node (scope.collapse line ns) =
    (label.scope scope).collapse (label.line line) (ns.map label.node) := by
  rcases ns with - | ⟨n, - | ⟨m, ns⟩⟩
  · rfl
  · rfl
  · rw [List.map_cons, List.map_cons, Scope.collapse, Scope.collapse, node_ofBlock, block_scope,
      List.map_cons, List.map_cons]
    · nofun
    · nofun

theorem consHtml_map (n : Node) (ns : List Node) : (n.consHtml ns).map label.node =
    (label.node n).consHtml (ns.map label.node) := by
  cases ns with
  | nil => rfl
  | cons m ns =>
    simp only [Node.consHtml, List.map_cons, htmlText?_node]
    split
    · rw [List.map_cons, origin_node]
      rfl
    · rfl

theorem joinHtml_map (ns : List Node) :
    (Node.joinHtml ns).map label.node = Node.joinHtml (ns.map label.node) := by
  induction ns with
  | nil => rfl
  | cons n ns ih =>
    rw [List.map_cons, Node.joinHtml, Node.joinHtml, List.foldr_cons, List.foldr_cons, consHtml_map]
    exact congrArg _ ih

theorem followedBy_block (b : Block) (nested : Option Block) : label.block (b.followedBy nested) =
    Block.followedBy (label.block b) (nested.map label.block) := by
  cases nested <;> simp [Block.followedBy, block_eq]

theorem node_codeNode (c : CodeLine) (nested : Option Block) :
    label.node (Grammar.codeNode scope line c nested) =
      Grammar.codeNode (label.scope scope) (label.line line) c (nested.map label.block) := by
  rw [Grammar.codeNode, node_scope, shape, block?_eq, Grammar.codeNode]
  cases nested with
  | some b => rfl
  | none =>
    cases hc : c.requiresBlock <;> simp

theorem node_tag (name : String) (buffered : Bool) (c : Content) :
    label.node (c.tag scope line name buffered) =
      (label.content c).tag (label.scope scope) (label.line line) name buffered := by
  rw [Content.tag, node_scope, shape, node?_eq]
  rfl

theorem node_call (name : String) (args : Option String) (c : Content) :
    label.node (c.call scope line name args) =
      (label.content c).call (label.scope scope) (label.line line) name args := by
  obtain ⟨head, textOnly, ⟨origin, ns, isYield⟩, code⟩ := c
  simp only [Content.call, node_scope, shape, content, block?_eq, block_eq]
  cases code <;> cases ns <;> simp [BlockOf.isEmpty, block_eq]

end Builders

/-! Runs of head tokens. -/

theorem addAttribute_line (line : Line) (h : Head) (a : Attribute) :
    h.addAttribute (label.line line) a = (h.addAttribute line a).mapError label.fault := by
  unfold Head.addAttribute
  split <;> rfl

theorem foldlM_mapError {α α' β : Type} {f : β → α → Except Fault β} {f' : β → α' → Except Fault β}
    {g : α → α'} (hf : ∀ b a, f' b (g a) = (f b a).mapError label.fault) (xs : List α) (b : β) :
    (xs.map g).foldlM f' b = (xs.foldlM f b).mapError label.fault := by
  induction xs generalizing b with
  | nil => rfl
  | cons x xs ih =>
    rw [List.map_cons, List.foldlM_cons, List.foldlM_cons, hf]
    cases f b x with
    | error e => rfl
    | ok b => exact ih b

theorem addToken_token (h : Head) (t : Token) :
    h.addToken (label.token t) = (h.addToken t).mapError label.fault := by
  obtain ⟨line, lexeme⟩ := t
  cases lexeme with
  | idName | className => exact label.addAttribute_line line h _
  | attrs list selfClosing =>
    have hfold := label.foldlM_mapError (g := fun a => a) (label.addAttribute_line line) list
      { h with selfClosing := h.selfClosing || selfClosing }
    rwa [List.map_id'] at hfold
  | _ => rfl

theorem ofRun_map (selfClosing : Bool) (run : List Token) :
    Head.ofRun selfClosing (run.map label.token) =
      (Head.ofRun selfClosing run).mapError label.fault :=
  label.foldlM_mapError label.addToken_token run _

theorem notices_map (grouped : Bool) (run : List Token) :
    Head.notices grouped (run.map label.token) = (Head.notices grouped run).map label.notice := by
  induction run generalizing grouped with
  | nil => rfl
  | cons t run ih =>
    have hk : (label.token t).kind = t.kind := rfl
    simp only [List.map_cons, Head.notices, hk]
    split
    · split
      · rw [ih, List.map_cons]
        rfl
      · exact ih true
    · exact ih grouped

/-! Leaving everything as it is. -/

theorem origin_same (o : Origin) : same.origin o = o := rfl

theorem node_same (n : Node) : same.node n = n := by
  refine @Node.rec (fun n => same.node n = n) (fun s => same.shape s = s)
    (fun ns => same.nodes ns = ns) (fun b => same.block b = b) (fun n => same.node? n = n)
    (fun b => same.block? b = b) ?node ?block ?namedBlock ?tag ?text ?mixin ?mixinBlock
    ?code ?case ?when ?each ?inherit ?inclusion ?comment ?blockComment ?doctype ?filter ?nil ?cons
    ?body ?noCode ?someCode ?noBody ?someBody n
  all_goals
    intros
    simp only [node, shape, nodes, block, node?, block?, origin_same, *]

theorem map_token_same (ts : List Token) : ts.map same.token = ts := List.map_id' ts

theorem map_notice_same (ns : List Notice) : ns.map same.notice = ns := List.map_id' ns

theorem map_opener_same (shorthand : Option { t : Token // t.isHead = true }) :
    shorthand.map same.opener = shorthand := Option.map_id'

theorem items_same (r : Except Fault (List Node × List Notice)) : same.items r = r := by
  cases r with
  | error e => rfl
  | ok r =>
    obtain ⟨ns, notices⟩ := r
    rw [items, List.map_congr_left fun n _ => node_same n, List.map_id', map_notice_same]

theorem result_same (r : Except Diagnostic Parsed) : same.result r = r := by
  cases r with
  | error d => rfl
  | ok p =>
    obtain ⟨⟨origin, ns, isYield⟩, warnings⟩ := p
    have hwarnings : warnings.map same.warning = warnings := List.map_id' warnings
    rw [result, parsed, List.map_congr_left fun n _ => node_same n, List.map_id', hwarnings]

theorem answer_same (goal : Goal) (a : goal.Result) : same.answer goal a = a := by
  cases goal with
  | expression => exact node_same a
  | _ => exact (List.map_congr_left fun n _ => node_same n).trans (List.map_id' a)

end Relabelling

end TemplateTree
