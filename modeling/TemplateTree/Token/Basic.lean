import TemplateTree.Basic

/-!
The tokens of a template. A token is a lexeme together with the line it starts on;
its kind is what the grammar dispatches on and what diagnostics name.
-/

namespace TemplateTree
set_option autoImplicit false

/-- A token without its line and payload. -/
inductive TokenKind where
  | tag
  | interpolation
  | idName
  | className
  | attrs
  | attributeBlock
  | code
  | case
  | when
  | default
  | each
  | mixin
  | mixinBlock
  | call
  | inherit
  | inclusion
  | block
  | yield
  | doctype
  | filter
  | comment
  | text
  | textHtml
  | startInterpolation
  | endInterpolation
  | startPipeless
  | endPipeless
  | indent
  | outdent
  | newline
  | colon
  | dot
  | eos
deriving DecidableEq, Repr, Inhabited

namespace TokenKind

/-- Every kind, in the order in which diagnostics list them. -/
def all : List TokenKind :=
  [tag, interpolation, idName, className, attrs, attributeBlock, code, case, when, default, each,
    mixin, mixinBlock, call, inherit, inclusion, block, yield, doctype, filter, comment, text,
    textHtml, startInterpolation, endInterpolation, startPipeless, endPipeless, indent, outdent,
    newline, colon, dot, eos]

/-- The name a kind carries in JSON and in messages. -/
def wireName : TokenKind → String
  | .tag => "tag"
  | .interpolation => "interpolation"
  | .idName => "id"
  | .className => "class"
  | .attrs => "attrs"
  | .attributeBlock => "&attributes"
  | .code => "code"
  | .case => "case"
  | .when => "when"
  | .default => "default"
  | .each => "each"
  | .mixin => "mixin"
  | .mixinBlock => "mixin-block"
  | .call => "call"
  | .inherit => "extends"
  | .inclusion => "include"
  | .block => "block"
  | .yield => "yield"
  | .doctype => "doctype"
  | .filter => "filter"
  | .comment => "comment"
  | .text => "text"
  | .textHtml => "text-html"
  | .startInterpolation => "start-jade-interpolation"
  | .endInterpolation => "end-jade-interpolation"
  | .startPipeless => "start-pipeless-text"
  | .endPipeless => "end-pipeless-text"
  | .indent => "indent"
  | .outdent => "outdent"
  | .newline => "newline"
  | .colon => ":"
  | .dot => "dot"
  | .eos => "eos"

end TokenKind

/-- A line of host code and what the lexer knows about it. -/
structure CodeLine where
  source : String
  buffered : Bool
  escaped : Bool
  isElse : Bool
  isIf : Bool
  hasIf : Bool
  requiresBlock : Bool
deriving DecidableEq, Repr, Inhabited

/-- The head of a loop: the item, perhaps its key, and the collection. -/
structure LoopHead where
  item : String
  key : Option String
  collection : String
deriving DecidableEq, Repr, Inhabited

/-- A token without its line. -/
inductive Lexeme where
  | tag (name : String) (selfClosing : Bool)
  | interpolation (source : String)
  | idName (name : String)
  | className (name : String)
  | attrs (list : List Attribute) (selfClosing : Bool)
  | attributeBlock (source : String)
  | code (line : CodeLine)
  | case (source : String)
  | when (source : String)
  | default
  | each (head : LoopHead)
  | mixin (name : String) (args : Option String)
  | mixinBlock
  | call (name : String) (args : Option String)
  | inherit (path : String)
  | inclusion (path : String) (filter : Option String) (attrs : List Attribute)
  | block (name : String) (mode : BlockMode)
  | yield
  | doctype (name : String)
  | filter (name : String)
  | comment (content : String) (buffered : Bool)
  | text (content : String)
  | textHtml (content : String)
  | startInterpolation
  | endInterpolation
  | startPipeless
  | endPipeless
  | indent (width : UInt64)
  | outdent
  | newline
  | colon
  | dot
  | eos
deriving DecidableEq, Repr, Inhabited

namespace Lexeme

def kind : Lexeme → TokenKind
  | .tag .. => .tag
  | .interpolation _ => .interpolation
  | .idName _ => .idName
  | .className _ => .className
  | .attrs .. => .attrs
  | .attributeBlock _ => .attributeBlock
  | .code _ => .code
  | .case _ => .case
  | .when _ => .when
  | .default => .default
  | .each _ => .each
  | .mixin .. => .mixin
  | .mixinBlock => .mixinBlock
  | .call .. => .call
  | .inherit _ => .inherit
  | .inclusion .. => .inclusion
  | .block .. => .block
  | .yield => .yield
  | .doctype _ => .doctype
  | .filter _ => .filter
  | .comment .. => .comment
  | .text _ => .text
  | .textHtml _ => .textHtml
  | .startInterpolation => .startInterpolation
  | .endInterpolation => .endInterpolation
  | .startPipeless => .startPipeless
  | .endPipeless => .endPipeless
  | .indent _ => .indent
  | .outdent => .outdent
  | .newline => .newline
  | .colon => .colon
  | .dot => .dot
  | .eos => .eos

/-- The text a lexeme carries, empty when it carries none or something else than text. -/
def value : Lexeme → String
  | .tag name _ => name
  | .interpolation source => source
  | .idName name => name
  | .className name => name
  | .attributeBlock source => source
  | .code line => line.source
  | .case source => source
  | .when source => source
  | .each head => head.item
  | .mixin name _ => name
  | .call name _ => name
  | .inherit path => path
  | .inclusion path _ _ => path
  | .block name _ => name
  | .doctype name => name
  | .filter name => name
  | .comment content _ => content
  | .text content => content
  | .textHtml content => content
  | _ => ""

/-- Marks an else branch, which only an open conditional may precede. -/
def isElse : Lexeme → Bool
  | .code line => line.isElse
  | _ => false

/-- The lexemes that describe a tag between its name and its content. -/
def isHead : Lexeme → Bool
  | .idName _ => true
  | .className _ => true
  | .attrs .. => true
  | .attributeBlock _ => true
  | _ => false

end Lexeme

structure Token where
  line : Line
  lexeme : Lexeme
deriving DecidableEq, Repr, Inhabited

namespace Token

def kind (t : Token) : TokenKind := t.lexeme.kind

def isElse (t : Token) : Bool := t.lexeme.isElse

def isHead (t : Token) : Bool := t.lexeme.isHead

def isEos (t : Token) : Bool := t.kind == .eos

/-- The end of a stream, as a token on the given line. -/
def eos (line : Line) : Token := ⟨line, .eos⟩

/-- An opening tag that is not closed by itself. -/
def tag (name : String) (line : Line) : Token := ⟨line, .tag name false⟩

def text (content : String) (line : Line) : Token := ⟨line, .text content⟩

/-- Host code that only runs: it writes nothing, branches nowhere and asks for no body. -/
def code (source : String) (line : Line) : Token :=
  ⟨line, .code ⟨source, false, false, false, false, false, false⟩⟩

/-- An attribute group of escaped expressions. -/
def attrs (pairs : List (String × String)) (line : Line) : Token :=
  ⟨line, .attrs (pairs.map fun p => ⟨p.1, .expression p.2, true⟩) false⟩

end Token

end TemplateTree
