import TemplateTree.Token.Basic
import TemplateTree.Json.Record

/-!
Tokens as JSON. A token is an object whose `type` names its kind; every field is written, and
the fields that have a default may be left out when a token is read.
-/

namespace TemplateTree
set_option autoImplicit false

namespace Lexeme

/-- The fields of a lexeme beside its kind and line. -/
def members : Lexeme → List (String × Json)
  | .tag name selfClosing => [("val", .string name), ("selfClosing", .bool selfClosing)]
  | .interpolation source => [("val", .string source)]
  | .idName name => [("val", .string name)]
  | .className name => [("val", .string name)]
  | .attrs list selfClosing =>
    [("attrs", Attribute.listToJson list), ("selfClosing", .bool selfClosing)]
  | .attributeBlock source => [("val", .string source)]
  | .code c =>
    [("val", .string c.source), ("buffer", .bool c.buffered), ("escape", .bool c.escaped),
      ("isElse", .bool c.isElse), ("isIf", .bool c.isIf), ("hasIf", .bool c.hasIf),
      ("requiresBlock", .bool c.requiresBlock)]
  | .case source => [("val", .string source)]
  | .when source => [("val", .string source)]
  | .default => []
  | .each head =>
    [("val", .string head.item), ("key", .ofText? head.key), ("code", .string head.collection)]
  | .mixin name args => [("val", .string name), ("args", .ofText? args)]
  | .mixinBlock => []
  | .call name args => [("val", .string name), ("args", .ofText? args)]
  | .inherit path => [("val", .string path)]
  | .inclusion path via list =>
    [("val", .string path), ("filter", .ofText? via), ("attrs", Attribute.listToJson list)]
  | .block name mode => [("val", .string name), ("mode", mode.toJson)]
  | .yield => []
  | .doctype name => [("val", .string name)]
  | .filter name => [("val", .string name)]
  | .comment content buffered => [("val", .string content), ("buffer", .bool buffered)]
  | .text content => [("val", .string content)]
  | .textHtml content => [("val", .string content)]
  | .startInterpolation => []
  | .endInterpolation => []
  | .startPipeless => []
  | .endPipeless => []
  | .indent width => [("val", .word width)]
  | .outdent => []
  | .newline => []
  | .colon => []
  | .dot => []
  | .eos => []

/-- The lexemes of a kind. -/
def record : TokenKind → Record Json Lexeme
  | .tag => tag <$> val <*> flag "selfClosing"
  | .interpolation => interpolation <$> val
  | .idName => idName <$> val
  | .className => className <$> val
  | .attrs => attrs <$> attributes <*> flag "selfClosing"
  | .attributeBlock => attributeBlock <$> val
  | .code =>
    code <$> (CodeLine.mk <$> val <*> flag "buffer" <*> flag "escape" <*> flag "isElse"
      <*> flag "isIf" <*> flag "hasIf" <*> flag "requiresBlock")
  | .case => case <$> val
  | .when => when <$> val
  | .default => pure default
  | .each => each <$> (LoopHead.mk <$> val <*> text? "key" <*> .required "code" Json.toText)
  | .mixin => mixin <$> val <*> text? "args"
  | .mixinBlock => pure mixinBlock
  | .call => call <$> val <*> text? "args"
  | .inherit => inherit <$> val
  | .inclusion => inclusion <$> val <*> text? "filter" <*> attributes
  | .block => block <$> val <*> .withDefault "mode" .replace BlockMode.ofJson
  | .yield => pure yield
  | .doctype => doctype <$> .withDefault "val" "" Json.toText
  | .filter => filter <$> val
  | .comment => comment <$> val <*> flag "buffer"
  | .text => text <$> val
  | .textHtml => textHtml <$> val
  | .startInterpolation => pure startInterpolation
  | .endInterpolation => pure endInterpolation
  | .startPipeless => pure startPipeless
  | .endPipeless => pure endPipeless
  | .indent => indent <$> .withDefault "val" 0 Json.toWord
  | .outdent => pure outdent
  | .newline => pure newline
  | .colon => pure colon
  | .dot => pure dot
  | .eos => pure eos
where
  val : Record Json String := .required "val" Json.toText
  flag (name : String) : Record Json Bool := .withDefault name false Json.toFlag
  text? (name : String) : Record Json (Option String) := .withDefault name none Json.toText?
  attributes : Record Json (List Attribute) := .withDefault "attrs" [] Attribute.listOfJson

end Lexeme

namespace Token

def toJson (t : Token) : Json :=
  .object (("type", .string t.kind.wireName) :: ("line", .word t.line) :: t.lexeme.members)

/-- The tokens of a kind. -/
def record (kind : TokenKind) : Record Json Token :=
  mk <$> .required "line" Json.toWord <*> Lexeme.record kind

/-- Reads the kind first, wherever it stands, and then the fields of that kind. -/
def ofJson : Decoder Json Token
  | .object ms => do
    let kind ←
      (Record.required "type" (Json.toVariant TokenKind.all TokenKind.wireName false)).read ms
    (record kind).read ms
  | .array [] => .error (.missingField "type")
  | v => .error (.wrongType v .token)

/-- A whole stream. -/
def listToJson (ts : List Token) : Json := .array (ts.map toJson)

def listOfJson : Decoder Json (List Token) := Json.toList ofJson

end Token

end TemplateTree
