import TemplateTree.Node.Basic
import TemplateTree.Json.Record

/-!
Trees as JSON. A node is an object whose `type` names its kind, and a block in a field is written
as a block node. When an object is read, its members come with their values already read as
trees, so that a field can take the node or the list of nodes it wants.
-/

namespace TemplateTree
set_option autoImplicit false

namespace Origin

def members (o : Origin) : List (String × Json) :=
  [("line", .word o.line), ("filename", .ofText? o.file)]

end Origin

namespace Node

mutual

def toJson : Node → Json
  | ⟨origin, shape⟩ =>
    .object (("type", .string shape.kind.wireName) :: (origin.members ++ shapeMembers shape))

/-- The fields of a shape. False marks and absent code, bodies and alternatives are not written,
except for the body of a mixin, which is written as null. -/
def shapeMembers : Shape Node → List (String × Json)
  | .block nodes isYield =>
    ("nodes", .array (nodesToJson nodes)) :: (if isYield then [("yield", .bool true)] else [])
  | .namedBlock name mode nodes =>
    [("name", .string name), ("mode", mode.toJson), ("nodes", .array (nodesToJson nodes))]
  | .tag head body code =>
    [("name", .string head.name), ("selfClosing", .bool head.selfClosing),
      ("attrs", Attribute.listToJson head.attrs),
      ("attributeBlocks", .array (head.attributeBlocks.map .string)),
      ("block", blockToJson body)] ++
    nodeMember? code ++
    [("isInline", .bool head.isInline), ("buffer", .bool head.buffered),
      ("textOnly", .bool head.textOnly)]
  | .text content isHtml =>
    ("val", .string content) :: (if isHtml then [("isHtml", .bool true)] else [])
  | .mixin head body =>
    [("name", .string head.name), ("args", .ofText? head.args),
      ("block", blockToJson? body), ("call", .bool head.isCall),
      ("attrs", Attribute.listToJson head.attrs),
      ("attributeBlocks", .array (head.attributeBlocks.map .string))]
  | .mixinBlock => []
  | .code head body =>
    [("val", .string head.source), ("buffer", .bool head.buffered),
      ("escape", .bool head.escaped)] ++
    blockMember? "block" body ++
    (match head.debug with
      | some b => [("debug", .bool b)]
      | none => [])
  | .case source body => [("expr", .string source), ("block", blockToJson body)]
  | .when source body => ("expr", .string source) :: blockMember? "block" body
  | .each head body alternative =>
    [("obj", .string head.collection), ("val", .string head.item), ("key", .ofText? head.key),
      ("block", blockToJson body)] ++
    blockMember? "alternative" alternative
  | .inherit path => [("path", .string path)]
  | .inclusion path via attrs body =>
    [("path", .string path), ("filter", .ofText? via), ("attrs", Attribute.listToJson attrs),
      ("block", blockToJson body)]
  | .comment content buffered => [("val", .string content), ("buffer", .bool buffered)]
  | .blockComment content buffered body =>
    [("val", .string content), ("buffer", .bool buffered), ("block", blockToJson body)]
  | .doctype name => [("val", .string name)]
  | .filter name attrs body =>
    [("name", .string name), ("attrs", Attribute.listToJson attrs), ("block", blockToJson body)]

/-- A block as a block node. -/
def blockToJson : BlockOf Node → Json
  | ⟨origin, nodes, isYield⟩ =>
    .object (("type", .string NodeKind.block.wireName) :: (origin.members ++
      ("nodes", .array (nodesToJson nodes)) ::
        (if isYield then [("yield", .bool true)] else [])))

def blockToJson? : Option (BlockOf Node) → Json
  | none => .null
  | some b => blockToJson b

def blockMember? (name : String) : Option (BlockOf Node) → List (String × Json)
  | none => []
  | some b => [(name, blockToJson b)]

def nodeMember? : Option Node → List (String × Json)
  | none => []
  | some n => [("code", toJson n)]

def nodesToJson : List Node → List Json
  | [] => []
  | n :: rest => toJson n :: nodesToJson rest

end

/-- A value together with what it reads as: as a node, as a node or null, as a list of nodes. -/
structure Candidate where
  json : Json
  node : Except DecodeError Node
  nodes : Except DecodeError (List Node)

namespace Candidate

/-- Reads a plain value. -/
def plain {β : Type} (decode : Decoder Json β) : Decoder Candidate β := fun c => decode c.json

def node? (c : Candidate) : Except DecodeError (Option Node) :=
  match c.json with
  | .null => .ok none
  | _ => c.node.map some

def block (c : Candidate) : Except DecodeError Block := do
  let n ← c.node
  match n.toBlock? with
  | some b => .ok b
  | none => .error (.notBlock false n.kind.wireName)

def block? (c : Candidate) : Except DecodeError (Option Block) := do
  match ← c.node? with
  | none => .ok none
  | some n =>
    match n.toBlock? with
    | some b => .ok (some b)
    | none => .error (.notBlock true n.kind.wireName)

end Candidate

/-- The shapes of a kind. -/
def shapeRecord : NodeKind → Record Candidate (Shape Node)
  | .block => Shape.block <$> nodes <*> mark "yield"
  | .namedBlock =>
    Shape.namedBlock <$> text "name" <*> .required "mode" (Candidate.plain BlockMode.ofJson)
      <*> nodes
  | .tag =>
    (fun name selfClosing attrs blocks body code isInline buffered textOnly =>
      .tag ⟨name, selfClosing, attrs, blocks, isInline, buffered, textOnly⟩ body code)
    <$> text "name" <*> flag "selfClosing" <*> attributes
      <*> .required "attributeBlocks" texts <*> block
      <*> .withDefault "code" none Candidate.node?
      <*> flag "isInline" <*> flag "buffer" <*> flag "textOnly"
  | .text => Shape.text <$> text "val" <*> mark "isHtml"
  | .mixin =>
    (fun name args body isCall attrs blocks => .mixin ⟨name, args, isCall, attrs, blocks⟩ body)
    <$> text "name" <*> text? "args" <*> .required "block" Candidate.block? <*> flag "call"
      <*> .withDefault "attrs" [] (Candidate.plain Attribute.listOfJson)
      <*> .withDefault "attributeBlocks" [] texts
  | .mixinBlock => pure .mixinBlock
  | .code =>
    (fun source buffered escaped body debug => .code ⟨source, buffered, escaped, debug⟩ body)
    <$> text "val" <*> flag "buffer" <*> flag "escape" <*> block? "block"
      <*> .withDefault "debug" none (Candidate.plain Json.toFlag?)
  | .case => Shape.case <$> text "expr" <*> block
  | .when => Shape.when <$> text "expr" <*> block? "block"
  | .each =>
    (fun collection item key => .each ⟨item, key, collection⟩)
    <$> text "obj" <*> text "val" <*> text? "key" <*> block <*> block? "alternative"
  | .inherit => Shape.inherit <$> text "path"
  | .inclusion => Shape.inclusion <$> text "path" <*> text? "filter" <*> attributes <*> block
  | .comment => Shape.comment <$> text "val" <*> flag "buffer"
  | .blockComment => Shape.blockComment <$> text "val" <*> flag "buffer" <*> block
  | .doctype => Shape.doctype <$> text "val"
  | .filter => Shape.filter <$> text "name" <*> attributes <*> block
where
  text (name : String) : Record Candidate String := .required name (Candidate.plain Json.toText)
  text? (name : String) : Record Candidate (Option String) :=
    .withDefault name none (Candidate.plain Json.toText?)
  texts : Decoder Candidate (List String) := Candidate.plain (Json.toList Json.toText)
  flag (name : String) : Record Candidate Bool := .required name (Candidate.plain Json.toFlag)
  mark (name : String) : Record Candidate Bool :=
    .withDefault name false (Candidate.plain Json.toFlag)
  attributes : Record Candidate (List Attribute) :=
    .required "attrs" (Candidate.plain Attribute.listOfJson)
  nodes : Record Candidate (List Node) := .required "nodes" Candidate.nodes
  block : Record Candidate Block := .required "block" Candidate.block
  block? (name : String) : Record Candidate (Option Block) :=
    .withDefault name none Candidate.block?

def originRecord : Record Candidate Origin :=
  Origin.mk <$> .required "line" (Candidate.plain Json.toWord)
    <*> .withDefault "filename" none (Candidate.plain Json.toText?)

/-- The nodes of a kind. -/
def record (kind : NodeKind) : Record Candidate Node := mk <$> originRecord <*> shapeRecord kind

/-- Reads the kind first, wherever it stands, and then the fields of that kind. -/
def ofMembers (indexed : Bool) (ms : List (String × Candidate)) : Except DecodeError Node := do
  let kind ←
    (Record.required "type"
      (Candidate.plain (Json.toVariant NodeKind.all NodeKind.wireName indexed))).read ms
  (record kind).read ms

mutual

/-- A node within another, which may name its kind by the index. -/
def innerOfJson : Decoder Json Node
  | .object ms => ofMembers true (candidates ms)
  | .array [] => .error (.missingField "type")
  | v => .error (.wrongType v .node)

def candidates : List (String × Json) → List (String × Candidate)
  | [] => []
  | (name, v) :: rest => (name, ⟨v, innerOfJson v, listOfJson v⟩) :: candidates rest

def listOfJson : Decoder Json (List Node)
  | .array items => itemsOfJson items
  | v => .error (.wrongType v .sequence)

/-- The items of a sequence, read in order up to the first that fails. -/
def itemsOfJson : List Json → Except DecodeError (List Node)
  | [] => .ok []
  | v :: rest => do
    let n ← innerOfJson v
    return n :: (← itemsOfJson rest)

end

/-- A node that stands alone, which names its kind. -/
def ofJson : Decoder Json Node
  | .object ms => ofMembers false (candidates ms)
  | .array [] => .error (.missingField "type")
  | v => .error (.wrongType v .node)

end Node

namespace Block

def toJson (b : Block) : Json := Node.blockToJson b

/-- A block by way of its JSON form. -/
def normalize (b : Block) : Except DecodeError Block := do
  let n ← Node.ofJson b.toJson
  match n.toBlock? with
  | some b => .ok b
  | none => .error (.notBlock false n.kind.wireName)

end Block

end TemplateTree
