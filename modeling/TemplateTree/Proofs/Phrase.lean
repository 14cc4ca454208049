import TemplateTree.Grammar.Expression
import TemplateTree.Proofs.Heads
import TemplateTree.Proofs.RawHtml

/-!
The grammar of token streams. A phrase is a derivation tree: one indexed family has a constructor
for each way in which a symbol of the grammar can be read. From a phrase come its tokens, the
nodes it stands for, and what happens while it is read; `Fits` says that every choice in it is the
one that the next token asks for.
-/

namespace TemplateTree
set_option autoImplicit false

/-- Where pieces of text stand: on the line of a head, as lines of their own, or between the marks
of pipeless text. -/
inductive TextPlace where
  | inLine
  | lines
  | pipeless
deriving DecidableEq, Repr, Inhabited

/-- The kinds of tokens that continue a run of text. -/
def TextPlace.takes (p : TextPlace) : TokenKind → Bool
  | .text => true
  | .startInterpolation => true
  | .newline => p != .inLine
  | _ => false

/-- The kinds of tokens in front of which a line may end behind a head. -/
def TokenKind.endsLine : TokenKind → Bool
  | .newline => true
  | .indent => true
  | .outdent => true
  | .startPipeless => true
  | .endInterpolation => true
  | .eos => true
  | _ => false

inductive Symbol where
  /-- What stands at one level. -/
  | items
  /-- An indented body. -/
  | body
  | optionalBody
  | expression
  /-- What follows the name of a tag or call. -/
  | content
  /-- What stands behind a head on its line. -/
  | line
  | code
  | text (place : TextPlace)
  | optionalPipeless
  /-- Lines of HTML. -/
  | html
  /-- What belongs to a line of HTML. -/
  | nested
  | branches
  /-- The body of a branch. -/
  | expansion
  /-- What a loop shows for an empty collection. -/
  | alternative
deriving DecidableEq, Repr, Inhabited

/-- What a phrase of a symbol stands for. What follows a name depends on the name's line and on
whether its token is self-closing. -/
abbrev Symbol.Value : Symbol → Type
  | .items => List Node
  | .body => Block
  | .optionalBody => Option Block
  | .expression => Node
  | .content => Line → Bool → Content
  | .line => Line → Block × Option Node
  | .code => Node
  | .text _ => List Node
  | .optionalPipeless => Option Block
  | .html => List Node
  | .nested => List Node
  | .branches => List Node
  | .expansion => Option Block
  | .alternative => Option Block

inductive Phrase : Symbol → Type where
  | done : Phrase .items
  | newline (line : Line) (more : Phrase .items) : Phrase .items
  | html (line : Line) (content : String) (nested : Phrase .nested) (lines : Phrase .html)
      (more : Phrase .items) : Phrase .items
  | item (e : Phrase .expression) (more : Phrase .items) : Phrase .items
  | body (opening : Line) (width : UInt64) (items : Phrase .items) (closing : Line) : Phrase .body
  | noBody : Phrase .optionalBody
  | someBody (b : Phrase .body) : Phrase .optionalBody
  | textEnd {p : TextPlace} : Phrase (.text p)
  | textPiece {p : TextPlace} (line : Line) (content : String) (more : Phrase (.text p)) :
      Phrase (.text p)
  | textBreak {p : TextPlace} (line : Line) (more : Phrase (.text p)) : Phrase (.text p)
  | textInterpolation {p : TextPlace} (opening : Line) (e : Phrase .expression) (closing : Line)
      (more : Phrase (.text p)) : Phrase (.text p)
  | noPipeless : Phrase .optionalPipeless
  | somePipeless (opening : Line) (pieces : Phrase (.text .pipeless)) (closing : Line) :
      Phrase .optionalPipeless
  | htmlEnd : Phrase .html
  | htmlLine (line : Line) (content : String) (nested : Phrase .nested) (lines : Phrase .html) :
      Phrase .html
  | nestedNone : Phrase .nested
  | nestedBody (b : Phrase .body) : Phrase .nested
  | nestedNewline (line : Line) : Phrase .nested
  | code (line : Line) (c : CodeLine) (b : Phrase .optionalBody) : Phrase .code
  | lineEnd : Phrase .line
  | lineText (pieces : Phrase (.text .inLine)) : Phrase .line
  | lineCode (c : Phrase .code) : Phrase .line
  | lineColon (colon : Line) (e : Phrase .expression) : Phrase .line
  | plain (heads : List Token) (l : Phrase .line) (newlines : List Line)
      (b : Phrase .optionalBody) : Phrase .content
  | dotted (heads : List Token) (dot : Line) (l : Phrase .line) (newlines : List Line)
      (b : Phrase .optionalPipeless) : Phrase .content
  | noBranches : Phrase .branches
  | branchNewline (line : Line) (more : Phrase .branches) : Phrase .branches
  | branch (line : Line) (source : Option String) (x : Phrase .expansion)
      (more : Phrase .branches) : Phrase .branches
  | fallThrough : Phrase .expansion
  | expansionColon (colon : Line) (e : Phrase .expression) : Phrase .expansion
  | expansionBody (b : Phrase .body) : Phrase .expansion
  | noAlternative : Phrase .alternative
  | someAlternative (line : Line) (c : CodeLine) (b : Phrase .body) : Phrase .alternative
  | tag (line : Line) (name : String) (selfClosing : Bool) (c : Phrase .content) :
      Phrase .expression
  | buffered (line : Line) (source : String) (c : Phrase .content) : Phrase .expression
  /-- A tag that a shorthand opens. -/
  | division (c : Phrase .content) : Phrase .expression
  | call (line : Line) (name : String) (args : Option String) (c : Phrase .content) :
      Phrase .expression
  | definition (line : Line) (name : String) (args : Option String) (b : Phrase .body) :
      Phrase .expression
  | oldCall (line : Line) (name : String) (args : Option String) : Phrase .expression
  | mixinBlock (line : Line) : Phrase .expression
  | namedBlock (line : Line) (name : String) (mode : BlockMode) (b : Phrase .optionalBody) :
      Phrase .expression
  | inclusion (line : Line) (path : String) (via : Option String) (attrs : List Attribute)
      (b : Phrase .optionalBody) : Phrase .expression
  | statement (c : Phrase .code) : Phrase .expression
  | each (line : Line) (head : LoopHead) (b : Phrase .body) (a : Phrase .alternative) :
      Phrase .expression
  | case (line : Line) (source : String) (opening : Line) (width : UInt64) (bs : Phrase .branches)
      (closing : Line) : Phrase .expression
  | inherit (line : Line) (path : String) : Phrase .expression
  | doctype (line : Line) (name : String) : Phrase .expression
  | yield (line : Line) : Phrase .expression
  | filter (line : Line) (name : String) (group : Option (Line × List Attribute × Bool))
      (b : Phrase .optionalPipeless) : Phrase .expression
  | comment (line : Line) (text : String) (buffered : Bool) (b : Phrase .optionalPipeless) :
      Phrase .expression
  | dot (line : Line) (b : Phrase .optionalPipeless) : Phrase .expression
  | textLines (pieces : Phrase (.text .lines)) : Phrase .expression
  | rawHtml (line : Line) (content : String) (nested : Phrase .nested) (lines : Phrase .html) :
      Phrase .expression

/-- Something that happens while a stream is read. -/
inductive Event where
  /-- A token is read. -/
  | read (t : Token)
  /-- The token of a line of code is read. -/
  | code (line : Line) (c : CodeLine)
  /-- The body of a conditional was read. -/
  | finish
  /-- The place for the content of a mixin call is read. -/
  | mixinBlock (line : Line)
  | enterMixin
  | leaveMixin
  | notices (ns : List Notice)
deriving Repr

namespace Event

def token? : Event → Option Token
  | read t => some t
  | code line c => some ⟨line, .code c⟩
  | mixinBlock line => some ⟨line, .mixinBlock⟩
  | _ => none

def newline (line : Line) : Event := read ⟨line, .newline⟩

variable (line : Line)

@[simp] theorem token?_read (t : Token) : (read t).token? = some t := rfl

@[simp] theorem token?_code (c : CodeLine) : (code line c).token? = some ⟨line, .code c⟩ := rfl

@[simp] theorem token?_mixinBlock : (mixinBlock line).token? = some ⟨line, .mixinBlock⟩ := rfl

@[simp] theorem token?_finish : finish.token? = none := rfl

@[simp] theorem token?_enterMixin : enterMixin.token? = none := rfl

@[simp] theorem token?_leaveMixin : leaveMixin.token? = none := rfl

@[simp] theorem token?_notices (ns : List Notice) : (notices ns).token? = none := rfl

end Event

/-- How a branch of a case begins. The default branch has no source. -/
def branchLexeme : Option String → Lexeme
  | some source => .when source
  | none => .default

/-- The attribute group of a filter as a token. -/
def groupToken (g : Line × List Attribute × Bool) : Token := ⟨g.1, .attrs g.2.1 g.2.2⟩

namespace Phrase

/-- What happens while a phrase is read. -/
@[simp] def trace : {g : Symbol} → Phrase g → List Event
  | _, done => []
  | _, newline line more => .newline line :: more.trace
  | _, html line content nested lines more =>
    .read ⟨line, .textHtml content⟩ :: nested.trace ++ lines.trace ++ more.trace
  | _, item e more => e.trace ++ more.trace
  | _, body opening width items closing =>
    .read ⟨opening, .indent width⟩ :: items.trace ++ [.read ⟨closing, .outdent⟩]
  | _, noBody => []
  | _, someBody b => b.trace
  | _, textEnd => []
  | _, textPiece line content more => .read ⟨line, .text content⟩ :: more.trace
  | _, textBreak line more => .newline line :: more.trace
  | _, textInterpolation opening e closing more =>
    .read ⟨opening, .startInterpolation⟩ :: e.trace ++ .read ⟨closing, .endInterpolation⟩ ::
      more.trace
  | _, noPipeless => []
  | _, somePipeless opening pieces closing =>
    .read ⟨opening, .startPipeless⟩ :: pieces.trace ++ [.read ⟨closing, .endPipeless⟩]
  | _, htmlEnd => []
  | _, htmlLine line content nested lines =>
    .read ⟨line, .textHtml content⟩ :: nested.trace ++ lines.trace
  | _, nestedNone => []
  | _, nestedBody b => b.trace
  | _, nestedNewline line => [.newline line]
  | _, code line c b => .code line c :: b.trace ++ if c.isIf then [.finish] else []
  | _, lineEnd => []
  | _, lineText pieces => pieces.trace
  | _, lineCode c => c.trace
  | _, lineColon colon e => .read ⟨colon, .colon⟩ :: e.trace
  | _, plain heads l newlines b =>
    heads.map .read ++ .notices (Head.notices false heads) :: l.trace ++ newlines.map .newline ++
      b.trace
  | _, dotted heads dotLine l newlines b =>
    heads.map .read ++ .notices (Head.notices false heads) :: .read ⟨dotLine, .dot⟩ :: l.trace ++
      newlines.map .newline ++ b.trace
  | _, noBranches => []
  | _, branchNewline line more => .newline line :: more.trace
  | _, branch line source x more => .read ⟨line, branchLexeme source⟩ :: x.trace ++ more.trace
  | _, fallThrough => []
  | _, expansionColon colon e => .read ⟨colon, .colon⟩ :: e.trace
  | _, expansionBody b => b.trace
  | _, noAlternative => []
  | _, someAlternative line c b => .read ⟨line, .code c⟩ :: b.trace
  | _, tag line name selfClosing c => .read ⟨line, .tag name selfClosing⟩ :: c.trace
  | _, buffered line source c => .read ⟨line, .interpolation source⟩ :: c.trace
  | _, division c => c.trace
  | _, call line name args c => .read ⟨line, .call name args⟩ :: c.trace
  | _, definition line name args b =>
    .read ⟨line, .mixin name args⟩ :: .enterMixin :: b.trace ++ [.leaveMixin]
  | _, oldCall line name args =>
    [.read ⟨line, .mixin name args⟩, .notices [⟨.deprecatedMixinCall name, line⟩]]
  | _, mixinBlock line => [.mixinBlock line]
  | _, namedBlock line name mode b => .read ⟨line, .block name mode⟩ :: b.trace
  | _, inclusion line path via attrs b => .read ⟨line, .inclusion path via attrs⟩ :: b.trace
  | _, statement c => c.trace
  | _, each line head b a => .read ⟨line, .each head⟩ :: b.trace ++ a.trace
  | _, case line source opening width bs closing =>
    .read ⟨line, .case source⟩ :: .read ⟨opening, .indent width⟩ :: bs.trace ++
      [.read ⟨closing, .outdent⟩]
  | _, inherit line path => [.read ⟨line, .inherit path⟩]
  | _, doctype line name => [.read ⟨line, .doctype name⟩]
  | _, yield line => [.read ⟨line, .yield⟩]
  | _, filter line name group b =>
    .read ⟨line, .filter name⟩ :: (group.map fun g => .read (groupToken g)).toList ++ b.trace
  | _, comment line content isBuffered b => .read ⟨line, .comment content isBuffered⟩ :: b.trace
  | _, dot line b => .read ⟨line, .dot⟩ :: b.trace
  | _, textLines pieces => pieces.trace
  | _, rawHtml line content nested lines =>
    .read ⟨line, .textHtml content⟩ :: nested.trace ++ lines.trace

/-- The tokens of a phrase in the order of the stream. -/
def tokens {g : Symbol} (t : Phrase g) : List Token := t.trace.filterMap Event.token?

/-! The tokens of a phrase are those of its parts, between its own. -/

section Tokens

variable {g : Symbol} {p : TextPlace} (line : Line)

theorem tokens_item (e : Phrase .expression) (more : Phrase .items) :
    (item e more).tokens = e.tokens ++ more.tokens := List.filterMap_append

theorem tokens_html (content : String) (nested : Phrase .nested) (lines : Phrase .html)
    (more : Phrase .items) : (html line content nested lines more).tokens =
      ⟨line, .textHtml content⟩ :: (nested.tokens ++ (lines.tokens ++ more.tokens)) := by
  simp [tokens]

theorem tokens_body (width : UInt64) (items : Phrase .items) (closing : Line) :
    (body line width items closing).tokens =
      ⟨line, .indent width⟩ :: (items.tokens ++ [⟨closing, .outdent⟩]) := by
  simp [tokens]

theorem tokens_textInterpolation (e : Phrase .expression) (closing : Line)
    (more : Phrase (.text p)) : (textInterpolation line e closing more).tokens =
      ⟨line, .startInterpolation⟩ ::
        (e.tokens ++ ⟨closing, .endInterpolation⟩ :: more.tokens) := by
  simp [tokens]

theorem tokens_somePipeless (pieces : Phrase (.text .pipeless)) (closing : Line) :
    (somePipeless line pieces closing).tokens =
      ⟨line, .startPipeless⟩ :: (pieces.tokens ++ [⟨closing, .endPipeless⟩]) := by
  simp [tokens]

theorem tokens_htmlLine (content : String) (nested : Phrase .nested) (lines : Phrase .html) :
    (htmlLine line content nested lines).tokens =
      ⟨line, .textHtml content⟩ :: (nested.tokens ++ lines.tokens) := by
  simp [tokens]

theorem tokens_code (c : CodeLine) (b : Phrase .optionalBody) :
    (code line c b).tokens = ⟨line, .code c⟩ :: b.tokens := by
  cases hc : c.isIf <;> simp [tokens, hc]

theorem tokens_branch (source : Option String) (x : Phrase .expansion) (more : Phrase .branches) :
    (branch line source x more).tokens =
      ⟨line, branchLexeme source⟩ :: (x.tokens ++ more.tokens) := by
  simp [tokens]

theorem tokens_definition (name : String) (args : Option String) (b : Phrase .body) :
    (definition line name args b).tokens = ⟨line, .mixin name args⟩ :: b.tokens := by
  simp [tokens, List.filterMap_cons]

theorem tokens_each (head : LoopHead) (b : Phrase .body) (a : Phrase .alternative) :
    (each line head b a).tokens = ⟨line, .each head⟩ :: (b.tokens ++ a.tokens) := by
  simp [tokens]

theorem tokens_case (source : String) (opening : Line) (width : UInt64) (bs : Phrase .branches)
    (closing : Line) : (Phrase.case line source opening width bs closing).tokens =
      ⟨line, .case source⟩ :: ⟨opening, .indent width⟩ ::
        (bs.tokens ++ [⟨closing, .outdent⟩]) := by
  simp [tokens]

theorem tokens_filter (name : String) (group : Option (Line × List Attribute × Bool))
    (b : Phrase .optionalPipeless) : (filter line name group b).tokens =
      ⟨line, .filter name⟩ :: ((group.map groupToken).toList ++ b.tokens) := by
  cases group <;> simp [tokens]

theorem tokens_rawHtml (content : String) (nested : Phrase .nested) (lines : Phrase .html) :
    (rawHtml line content nested lines).tokens =
      ⟨line, .textHtml content⟩ :: (nested.tokens ++ lines.tokens) := by
  simp [tokens]

end Tokens

/-- The lexeme that stands where a phrase begins, when the given one follows it. -/
def lead {g : Symbol} (t : Phrase g) (next : Lexeme) : Lexeme :=
  (t.tokens.head?.map Token.lexeme).getD next

/-- The line of the first token. -/
def startLine {g : Symbol} (t : Phrase g) : Line := (t.tokens.head?.map Token.line).getD 0

/-- The head tokens at the beginning of a content. -/
def heads : Phrase .content → List Token
  | plain heads .. => heads
  | dotted heads .. => heads

def opensWithText {p : TextPlace} : Phrase (.text p) → Bool
  | textPiece .. => true
  | _ => false

variable (scope : Scope)

/-- What a phrase stands for. -/
@[simp] def value : {g : Symbol} → Phrase g → g.Value
  | _, done => []
  | _, newline _ more => more.value
  | _, html line content nested lines more =>
    Node.joinHtml (scope.htmlText line content :: (nested.value ++ lines.value)) ++ more.value
  | _, item e more => e.value :: more.value
  | _, body opening _ items _ => scope.block opening items.value
  | _, noBody => none
  | _, someBody b => some b.value
  | _, textEnd => []
  | _, textPiece line content more => scope.text line content :: more.value
  | _, textBreak (p := p) line more =>
    if p = .pipeless ∨ more.opensWithText then scope.text line "\n" :: more.value else more.value
  | _, textInterpolation _ e _ more => e.value :: more.value
  | _, noPipeless => none
  | _, somePipeless opening pieces _ => some (scope.block opening pieces.value)
  | _, htmlEnd => []
  | _, htmlLine line content nested lines =>
    scope.htmlText line content :: (nested.value ++ lines.value)
  | _, nestedNone => []
  | _, nestedBody b => b.value.nodes
  | _, nestedNewline _ => []
  | _, code line c b => Grammar.codeNode scope line c b.value
  | _, lineEnd => fun line => (scope.block line [], none)
  | _, lineText pieces => fun line =>
    (scope.block line [scope.collapse pieces.startLine pieces.value], none)
  | _, lineCode c => fun line => (scope.block line [], some c.value)
  | _, lineColon colon e => fun _ => (scope.block colon [e.value], none)
  | _, plain heads l _ b => fun line selfClosing =>
    ⟨.gather selfClosing heads, false, (l.value line).1.followedBy b.value, (l.value line).2⟩
  | _, dotted heads _ l _ b => fun line selfClosing =>
    ⟨.gather selfClosing heads, true, b.value.getD (scope.block line []), (l.value line).2⟩
  | _, noBranches => []
  | _, branchNewline _ more => more.value
  | _, branch line source x more =>
    scope.node line (.when (source.getD "default") x.value) :: more.value
  | _, fallThrough => none
  | _, expansionColon colon e => some (scope.block colon [e.value])
  | _, expansionBody b => some b.value
  | _, noAlternative => none
  | _, someAlternative _ _ b => some b.value
  | _, tag line name selfClosing c => (c.value line selfClosing).tag scope line name false
  | _, buffered line source c => (c.value line false).tag scope line source true
  | _, division c => (c.value c.startLine false).tag scope c.startLine "div" false
  | _, call line name args c => (c.value line false).call scope line name args
  | _, definition line name args b =>
    scope.node line (.mixin ⟨name, args, false, [], []⟩ (some b.value))
  | _, oldCall line name args => scope.node line (.mixin ⟨name, args, true, [], []⟩ none)
  | _, mixinBlock line => scope.node line .mixinBlock
  | _, namedBlock line name mode b =>
    scope.node line (.namedBlock (Text.trim name) mode ((b.value.map BlockOf.nodes).getD []))
  | _, inclusion line path via attrs b =>
    scope.node line (.inclusion (Text.trim path) via attrs (b.value.getD (scope.block line [])))
  | _, statement c => c.value
  | _, each line head b a => scope.node line (.each head b.value a.value)
  | _, case line source opening _ bs _ =>
    scope.node line (.case source (scope.block opening bs.value))
  | _, inherit line path => scope.node line (.inherit (Text.trim path))
  | _, doctype line name => scope.node line (.doctype name)
  | _, yield line => .ofBlock ⟨scope.origin line, [], true⟩
  | _, filter line name group b =>
    scope.node line (.filter name ((group.map fun g => g.2.1).getD [])
      (b.value.getD (scope.block line [])))
  | _, comment line content isBuffered b =>
    scope.node line (match b.value with
      | some nested => .blockComment content isBuffered nested
      | none => .comment content isBuffered)
  | _, dot line b => .ofBlock (b.value.getD (scope.block line []))
  | _, textLines pieces => scope.collapse pieces.startLine pieces.value
  | _, rawHtml line content nested lines =>
    .ofBlock (scope.block line
      (Node.joinHtml (scope.htmlText line content :: (nested.value ++ lines.value))))

/-- Every choice in a phrase is the greedy one when the given lexeme follows: what may be read is
read whenever the next token can start it. Head tokens contribute no unique name twice. -/
def Fits : {g : Symbol} → Phrase g → Lexeme → Prop
  | _, done, _ => True
  | _, newline _ more, next => more.Fits next
  | _, html _ _ nested lines more, next =>
    nested.Fits (lines.lead (more.lead next)) ∧ lines.Fits (more.lead next) ∧ more.Fits next
  | _, item e more, next =>
    (e.lead (more.lead next)).kind ≠ .textHtml ∧ e.Fits (more.lead next) ∧ more.Fits next
  | _, body _ _ items _, _ => items.Fits .outdent
  | _, noBody, next => next.kind ≠ .indent
  | _, someBody b, next => b.Fits next
  | _, textEnd (p := p), next => p.takes next.kind = false
  | _, textPiece _ _ more, next => more.Fits next
  | _, textBreak (p := p) _ more, next => p ≠ .inLine ∧ more.Fits next
  | _, textInterpolation _ e _ more, next => e.Fits .endInterpolation ∧ more.Fits next
  | _, noPipeless, next => next.kind ≠ .startPipeless
  | _, somePipeless _ pieces _, _ => pieces.Fits .endPipeless
  | _, htmlEnd, next => next.kind ≠ .textHtml
  | _, htmlLine _ _ nested lines, next => nested.Fits (lines.lead next) ∧ lines.Fits next
  | _, nestedNone, next => next.kind ≠ .indent ∧ next.kind ≠ .newline
  | _, nestedBody b, next => b.Fits next
  | _, nestedNewline _, _ => True
  | _, code _ _ b, next => b.Fits next
  | _, lineEnd, next => next.kind.endsLine = true
  | _, lineText pieces, next =>
    TextPlace.inLine.takes (pieces.lead next).kind = true ∧ pieces.Fits next
  | _, lineCode c, next => c.Fits next
  | _, lineColon _ e, next => e.Fits next
  | _, plain heads l newlines b, next =>
    (∀ t ∈ heads, t.isHead = true) ∧ (Head.uniqueNames (heads.flatMap Token.attributes)).Nodup ∧
      l.Fits (if newlines = [] then b.lead next else .newline) ∧
      (b.lead next).kind ≠ .newline ∧ b.Fits next
  | _, dotted heads _ l newlines b, next =>
    (∀ t ∈ heads, t.isHead = true) ∧ (Head.uniqueNames (heads.flatMap Token.attributes)).Nodup ∧
      l.Fits (if newlines = [] then b.lead next else .newline) ∧
      (b.lead next).kind ≠ .newline ∧ b.Fits next
  | _, noBranches, _ => True
  | _, branchNewline _ more, next => more.Fits next
  | _, branch _ _ x more, next => x.Fits (more.lead next) ∧ more.Fits next
  | _, fallThrough, next => next.kind ≠ .colon ∧ next.kind ≠ .indent
  | _, expansionColon _ e, next => e.Fits next
  | _, expansionBody b, next => b.Fits next
  | _, noAlternative, next => Grammar.isAlternative next = false
  | _, someAlternative _ c b, next => Grammar.isAlternative (.code c) = true ∧ b.Fits next
  | _, tag _ _ _ c, next => c.Fits next
  | _, buffered _ _ c, next => c.Fits next
  | _, division c, next =>
    (∃ t ∈ c.heads.head?, t.kind = .idName ∨ t.kind = .className) ∧ c.Fits next
  | _, call _ _ _ c, next => c.Fits next
  | _, definition _ _ _ b, next => b.Fits next
  | _, oldCall _ _ _, next => next.kind ≠ .indent
  | _, mixinBlock _, _ => True
  | _, namedBlock _ _ _ b, next => b.Fits next
  | _, inclusion _ _ _ _ b, next => b.Fits next
  | _, statement c, next => c.Fits next
  | _, each _ _ b a, next => b.Fits (a.lead next) ∧ a.Fits next
  | _, case _ _ _ _ bs _, _ => bs.Fits .outdent
  | _, inherit _ _, _ => True
  | _, doctype _ _, _ => True
  | _, yield _, _ => True
  | _, filter _ _ group b, next => (group = none → (b.lead next).kind ≠ .attrs) ∧ b.Fits next
  | _, comment _ _ _ b, next => b.Fits next
  | _, dot _ b, next => b.Fits next
  | _, textLines pieces, next =>
    TextPlace.inLine.takes (pieces.lead next).kind = true ∧ pieces.Fits next
  | _, rawHtml _ _ nested lines, next => nested.Fits (lines.lead next) ∧ lines.Fits next

/-- A property of a phrase and of all phrases in it. -/
def All (P : {g : Symbol} → Phrase g → Prop) : {g : Symbol} → Phrase g → Prop
  | _, done => P done
  | _, newline line more => P (newline line more) ∧ more.All P
  | _, html line content nested lines more =>
    P (html line content nested lines more) ∧ nested.All P ∧ lines.All P ∧ more.All P
  | _, item e more => P (item e more) ∧ e.All P ∧ more.All P
  | _, body opening width items closing => P (body opening width items closing) ∧ items.All P
  | _, noBody => P noBody
  | _, someBody b => P (someBody b) ∧ b.All P
  | _, textEnd (p := p) => P (textEnd (p := p))
  | _, textPiece line content more => P (textPiece line content more) ∧ more.All P
  | _, textBreak line more => P (textBreak line more) ∧ more.All P
  | _, textInterpolation opening e closing more =>
    P (textInterpolation opening e closing more) ∧ e.All P ∧ more.All P
  | _, noPipeless => P noPipeless
  | _, somePipeless opening pieces closing => P (somePipeless opening pieces closing) ∧ pieces.All P
  | _, htmlEnd => P htmlEnd
  | _, htmlLine line content nested lines =>
    P (htmlLine line content nested lines) ∧ nested.All P ∧ lines.All P
  | _, nestedNone => P nestedNone
  | _, nestedBody b => P (nestedBody b) ∧ b.All P
  | _, nestedNewline line => P (nestedNewline line)
  | _, code line c b => P (code line c b) ∧ b.All P
  | _, lineEnd => P lineEnd
  | _, lineText pieces => P (lineText pieces) ∧ pieces.All P
  | _, lineCode c => P (lineCode c) ∧ c.All P
  | _, lineColon colon e => P (lineColon colon e) ∧ e.All P
  | _, plain heads l newlines b => P (plain heads l newlines b) ∧ l.All P ∧ b.All P
  | _, dotted heads dotLine l newlines b =>
    P (dotted heads dotLine l newlines b) ∧ l.All P ∧ b.All P
  | _, noBranches => P noBranches
  | _, branchNewline line more => P (branchNewline line more) ∧ more.All P
  | _, branch line source x more => P (branch line source x more) ∧ x.All P ∧ more.All P
  | _, fallThrough => P fallThrough
  | _, expansionColon colon e => P (expansionColon colon e) ∧ e.All P
  | _, expansionBody b => P (expansionBody b) ∧ b.All P
  | _, noAlternative => P noAlternative
  | _, someAlternative line c b => P (someAlternative line c b) ∧ b.All P
  | _, tag line name selfClosing c => P (tag line name selfClosing c) ∧ c.All P
  | _, buffered line source c => P (buffered line source c) ∧ c.All P
  | _, division c => P (division c) ∧ c.All P
  | _, call line name args c => P (call line name args c) ∧ c.All P
  | _, definition line name args b => P (definition line name args b) ∧ b.All P
  | _, oldCall line name args => P (oldCall line name args)
  | _, mixinBlock line => P (mixinBlock line)
  | _, namedBlock line name mode b => P (namedBlock line name mode b) ∧ b.All P
  | _, inclusion line path via attrs b => P (inclusion line path via attrs b) ∧ b.All P
  | _, statement c => P (statement c) ∧ c.All P
  | _, each line head b a => P (each line head b a) ∧ b.All P ∧ a.All P
  | _, case line source opening width bs closing =>
    P (case line source opening width bs closing) ∧ bs.All P
  | _, inherit line path => P (inherit line path)
  | _, doctype line name => P (doctype line name)
  | _, yield line => P (yield line)
  | _, filter line name group b => P (filter line name group b) ∧ b.All P
  | _, comment line content isBuffered b => P (comment line content isBuffered b) ∧ b.All P
  | _, dot line b => P (dot line b) ∧ b.All P
  | _, textLines pieces => P (textLines pieces) ∧ pieces.All P
  | _, rawHtml line content nested lines =>
    P (rawHtml line content nested lines) ∧ nested.All P ∧ lines.All P

theorem isHead_heads {c : Phrase .content} {next : Lexeme} (hf : c.Fits next) :
    ∀ t ∈ c.heads, t.isHead = true := by
  cases c <;> exact hf.1

/-- A division opens with a shorthand that the rest of its head stands behind. -/
theorem exists_heads_of_division {c : Phrase .content} {next : Lexeme}
    (hf : (division c).Fits next) : ∃ t more, c.heads = t :: more ∧
      (t.kind = .idName ∨ t.kind = .className) ∧ ∀ u ∈ more, u.isHead = true := by
  obtain ⟨⟨t, ht, hk⟩, hf⟩ := hf
  obtain ⟨more, hheads⟩ := List.head?_eq_some_iff.mp ht
  have hmore := isHead_heads hf
  rw [hheads] at hmore
  exact ⟨t, more, hheads, hk, (List.forall_mem_cons.mp hmore).2⟩

/-! Induction along what is read one after the other. -/

theorem items_induction {P : Phrase .items → Prop} (done : P .done)
    (newline : ∀ line more, P more → P (.newline line more))
    (html : ∀ line content nested lines more, P more → P (.html line content nested lines more))
    (item : ∀ e more, P more → P (.item e more)) : (t : Phrase .items) → P t
  | .done => done
  | .newline line more => newline line more (items_induction done newline html item more)
  | .html line content nested lines more =>
    html line content nested lines more (items_induction done newline html item more)
  | .item e more => item e more (items_induction done newline html item more)

theorem text_induction {p : TextPlace} {P : Phrase (.text p) → Prop} (textEnd : P .textEnd)
    (textPiece : ∀ line content more, P more → P (.textPiece line content more))
    (textBreak : ∀ line more, P more → P (.textBreak line more))
    (textInterpolation : ∀ opening e closing more, P more →
      P (.textInterpolation opening e closing more)) : (t : Phrase (.text p)) → P t
  | .textEnd => textEnd
  | .textPiece line content more => textPiece line content more
    (text_induction textEnd textPiece textBreak textInterpolation more)
  | .textBreak line more => textBreak line more
    (text_induction textEnd textPiece textBreak textInterpolation more)
  | .textInterpolation opening e closing more => textInterpolation opening e closing more
    (text_induction textEnd textPiece textBreak textInterpolation more)

theorem html_induction {P : Phrase .html → Prop} (htmlEnd : P .htmlEnd)
    (htmlLine : ∀ line content nested lines, P lines → P (.htmlLine line content nested lines)) :
    (t : Phrase .html) → P t
  | .htmlEnd => htmlEnd
  | .htmlLine line content nested lines => htmlLine line content nested lines
    (html_induction htmlEnd htmlLine lines)

/-- What holds of every phrase that fits holds of all phrases in one that fits. -/
theorem all_of_fits {P : {g : Symbol} → Phrase g → Prop}
    (hP : ∀ {g : Symbol} (t : Phrase g) {next : Lexeme}, t.Fits next → P t) {g : Symbol}
    (t : Phrase g) {next : Lexeme} (hf : t.Fits next) : t.All P := by
  induction t generalizing next with
  | done | noBody | textEnd | noPipeless | htmlEnd | nestedNone | nestedNewline | lineEnd
    | noBranches | fallThrough | noAlternative | oldCall | mixinBlock | inherit | doctype
    | yield => exact hP _ hf
  | newline _ _ ih | body _ _ _ _ ih | someBody _ ih | textPiece _ _ _ ih
    | somePipeless _ _ _ ih | nestedBody _ ih | code _ _ _ ih | lineCode _ ih | lineColon _ _ ih
    | branchNewline _ _ ih | expansionColon _ _ ih | expansionBody _ ih | tag _ _ _ _ ih
    | buffered _ _ _ ih | call _ _ _ _ ih | definition _ _ _ _ ih | namedBlock _ _ _ _ ih
    | inclusion _ _ _ _ _ ih | statement _ ih | case _ _ _ _ _ _ ih | comment _ _ _ _ ih
    | dot _ _ ih => exact ⟨hP _ hf, ih hf⟩
  | textBreak _ _ ih | lineText _ ih | someAlternative _ _ _ ih | division _ ih | filter _ _ _ _ ih
    | textLines _ ih => exact ⟨hP _ hf, ih hf.2⟩
  | textInterpolation _ _ _ _ ihe ih | htmlLine _ _ _ _ ihe ih | branch _ _ _ _ ihe ih
    | each _ _ _ _ ihe ih | rawHtml _ _ _ _ ihe ih => exact ⟨hP _ hf, ihe hf.1, ih hf.2⟩
  | html _ _ _ _ _ ihn ihl ih => exact ⟨hP _ hf, ihn hf.1, ihl hf.2.1, ih hf.2.2⟩
  | item _ _ ihe ih => exact ⟨hP _ hf, ihe hf.2.1, ih hf.2.2⟩
  | plain _ _ _ _ ihl ih | dotted _ _ _ _ _ ihl ih =>
    exact ⟨hP _ hf, ihl hf.2.2.1, ih hf.2.2.2.2⟩

end Phrase

end TemplateTree
