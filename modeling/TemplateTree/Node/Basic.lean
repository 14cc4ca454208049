import TemplateTree.Token.Basic

/-!
Syntax trees. A node is an origin and a shape; a shape's children are either nodes or whole
blocks, which have an origin of their own. Shapes are generic in their children, and `Node` ties
the knot.
-/

namespace TemplateTree
set_option autoImplicit false

/-- A sequence of children that remembers where it was opened. A yield block marks the place
that an including template fills. -/
structure BlockOf (ν : Type) where
  origin : Origin
  nodes : List ν
  isYield : Bool
deriving DecidableEq, Repr, Inhabited

/-- A tag without its content. A buffered tag takes its name from an expression. -/
structure TagHead where
  name : String
  selfClosing : Bool
  attrs : List Attribute
  attributeBlocks : List String
  isInline : Bool
  buffered : Bool
  textOnly : Bool
deriving DecidableEq, Repr, Inhabited

/-- A mixin definition or call without its body. -/
structure MixinHead where
  name : String
  args : Option String
  isCall : Bool
  attrs : List Attribute
  attributeBlocks : List String
deriving DecidableEq, Repr, Inhabited

/-- A line of code without its body. -/
structure CodeHead where
  source : String
  buffered : Bool
  escaped : Bool
  debug : Option Bool
deriving DecidableEq, Repr, Inhabited

/-- A node without its origin, over children of any type. -/
inductive Shape (ν : Type) where
  | block (nodes : List ν) (isYield : Bool)
  | namedBlock (name : String) (mode : BlockMode) (nodes : List ν)
  | tag (head : TagHead) (body : BlockOf ν) (code : Option ν)
  | text (content : String) (isHtml : Bool)
  | mixin (head : MixinHead) (body : Option (BlockOf ν))
  | mixinBlock
  | code (head : CodeHead) (body : Option (BlockOf ν))
  | case (source : String) (body : BlockOf ν)
  | when (source : String) (body : Option (BlockOf ν))
  | each (head : LoopHead) (body : BlockOf ν) (alternative : Option (BlockOf ν))
  | inherit (path : String)
  | inclusion (path : String) (filter : Option String) (attrs : List Attribute) (body : BlockOf ν)
  | comment (content : String) (buffered : Bool)
  | blockComment (content : String) (buffered : Bool) (body : BlockOf ν)
  | doctype (name : String)
  | filter (name : String) (attrs : List Attribute) (body : BlockOf ν)
deriving Repr, Inhabited

structure Node where
  origin : Origin
  shape : Shape Node
deriving Repr

instance : Inhabited Node := ⟨⟨default, default⟩⟩

abbrev Block := BlockOf Node

/-- The type of a node. -/
inductive NodeKind where
  | block
  | namedBlock
  | tag
  | text
  | mixin
  | mixinBlock
  | code
  | case
  | when
  | each
  | inherit
  | inclusion
  | comment
  | blockComment
  | doctype
  | filter
deriving DecidableEq, Repr, Inhabited

namespace NodeKind

/-- Every type, in the order in which diagnostics list them. -/
def all : List NodeKind :=
  [block, namedBlock, tag, text, mixin, mixinBlock, code, case, when, each, inherit, inclusion,
    comment, blockComment, doctype, filter]

/-- The name a type carries in JSON. -/
def wireName : NodeKind → String
  | .block => "Block"
  | .namedBlock => "NamedBlock"
  | .tag => "Tag"
  | .text => "Text"
  | .mixin => "Mixin"
  | .mixinBlock => "MixinBlock"
  | .code => "Code"
  | .case => "Case"
  | .when => "When"
  | .each => "Each"
  | .inherit => "Extends"
  | .inclusion => "Include"
  | .comment => "Comment"
  | .blockComment => "BlockComment"
  | .doctype => "Doctype"
  | .filter => "Filter"

end NodeKind

namespace Shape

variable {ν : Type}

def kind : Shape ν → NodeKind
  | .block .. => .block
  | .namedBlock .. => .namedBlock
  | .tag .. => .tag
  | .text .. => .text
  | .mixin .. => .mixin
  | .mixinBlock => .mixinBlock
  | .code .. => .code
  | .case .. => .case
  | .when .. => .when
  | .each .. => .each
  | .inherit _ => .inherit
  | .inclusion .. => .inclusion
  | .comment .. => .comment
  | .blockComment .. => .blockComment
  | .doctype _ => .doctype
  | .filter .. => .filter

end Shape

namespace BlockOf

variable {ν : Type}

/-- A block of the given nodes that yields to nothing. -/
def ofNodes (origin : Origin) (nodes : List ν) : BlockOf ν := ⟨origin, nodes, false⟩

def isEmpty (b : BlockOf ν) : Bool := b.nodes.isEmpty

end BlockOf

namespace Node

def kind (n : Node) : NodeKind := n.shape.kind

/-- A block standing where a node is wanted. -/
def ofBlock (b : Block) : Node := ⟨b.origin, .block b.nodes b.isYield⟩

/-- The block a node is, if it is one. -/
def toBlock? (n : Node) : Option Block :=
  match n.shape with
  | .block nodes isYield => some ⟨n.origin, nodes, isYield⟩
  | _ => none

/-- The text of a node that stands for raw HTML. -/
def htmlText? (n : Node) : Option String :=
  match n.shape with
  | .text content true => some content
  | _ => none

end Node

end TemplateTree
