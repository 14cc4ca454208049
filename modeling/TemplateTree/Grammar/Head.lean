import TemplateTree.Grammar.Run

/-!
Tags and mixin calls. After the name comes a run of head tokens, which is folded into attributes;
then perhaps a dot, content on the same line, and a body. A name other than class may be given
to one attribute only.
-/

namespace TemplateTree
set_option autoImplicit false

/-- What a run of head tokens says about a tag. -/
structure Head where
  selfClosing : Bool
  attrs : List Attribute
  attributeBlocks : List String
deriving DecidableEq, Repr, Inhabited

namespace Head

/-- Adds an attribute that a token on the given line contributes. -/
def addAttribute (line : Line) (h : Head) (a : Attribute) : Except Fault Head :=
  if a.name ≠ "class" ∧ h.attrs.any (fun b => b.name == a.name) then
    .error ⟨.duplicateAttribute a.name, line⟩
  else .ok { h with attrs := h.attrs ++ [a] }

def addToken (h : Head) (t : Token) : Except Fault Head :=
  match t.lexeme with
  | .idName name => h.addAttribute t.line (.shorthand "id" name)
  | .className name => h.addAttribute t.line (.shorthand "class" name)
  | .attrs list selfClosing =>
    list.foldlM (addAttribute t.line) { h with selfClosing := h.selfClosing || selfClosing }
  | .attributeBlock source => .ok { h with attributeBlocks := h.attributeBlocks ++ [source] }
  | _ => .ok h

def ofRun (selfClosing : Bool) (run : List Token) : Except Fault Head :=
  run.foldlM addToken ⟨selfClosing, [], []⟩

/-- Every attribute group of a run but the first is remarkable. -/
def notices (grouped : Bool) : List Token → List Notice
  | [] => []
  | t :: rest =>
    if t.kind = .attrs then
      if grouped then ⟨.multipleAttributeGroups, t.line⟩ :: notices true rest
      else notices true rest
    else notices grouped rest

/-- The elements that are set within a line of text. -/
def inlineElements : List String :=
  ["a", "abbr", "acronym", "b", "br", "code", "em", "font", "i", "img", "ins", "kbd", "map",
    "samp", "small", "span", "strong", "sub", "sup"]

/-- Element names do not distinguish the case of ASCII letters. -/
def isInline (name : String) : Bool :=
  inlineElements.contains (String.ofList (name.toList.map Char.toLower))

end Head

/-- Everything between the name of a tag or call and its end. -/
structure Content where
  head : Head
  textOnly : Bool
  body : Block
  code : Option Node

namespace Content

variable (scope : Scope) (line : Line) (name : String)

/-- The tag of a name with its content. A buffered name is an expression. -/
def tag (buffered : Bool) (c : Content) : Node :=
  scope.node line (.tag
    ⟨name, c.head.selfClosing, c.head.attrs, c.head.attributeBlocks, Head.isInline name, buffered,
      c.textOnly⟩ c.body c.code)

/-- The mixin call of a name with its content. Code on its line becomes the end of the body, and
an empty body is none. -/
def call (args : Option String) (c : Content) : Node :=
  let body := { c.body with nodes := c.body.nodes ++ c.code.toList }
  scope.node line (.mixin ⟨name, args, true, c.head.attrs, c.head.attributeBlocks⟩
    (if body.isEmpty then none else some body))

end Content

/-- A block followed by what is nested under it. -/
def Block.followedBy (b : Block) (nested : Option Block) : Block :=
  { b with nodes := b.nodes ++ (nested.map BlockOf.nodes).getD [] }

namespace Grammar

variable {n : Nat} (linking : Linking) (scope : Scope) (below : Below n)

/-- A branch that others may follow lets them know when its body is read. -/
def finishBranch (c : CodeLine) : Routine n Unit :=
  if c.isIf then Routine.modify linking.finish linking.size_finish else return

/-- An else branch may not stand anywhere. -/
def checkElse (place : Option Nat) (line : Line) (c : CodeLine) : Routine n Unit := do
  let admitted ← Routine.look fun s => linking.admits s place c
  if c.isElse && !admitted then Routine.fail .elseWithoutIf line else return

/-- Debugging output never separates an else from the branch before it. -/
def codeDebug (source : String) : Option Bool :=
  if ['e', 'l', 's', 'e'].isPrefixOf (source.toList.dropWhile (· == ' ')) then some false else none

/-- A line of code over its body. One that asks for a body gets an empty one if it has none. -/
def codeNode (line : Line) (c : CodeLine) (nested : Option Block) : Node :=
  scope.node line (.code ⟨c.source, c.buffered, c.escaped, codeDebug c.source⟩
    (nested.or (if c.requiresBlock then some (scope.block line []) else none)))

/-- A line of code after its token, which stood at the given position. -/
def codeFrom (place : Option Nat) (line : Line) (c : CodeLine) : Routine n Node := do
  checkElse linking place line c
  let nested ← body? scope below
  finishBranch linking c
  return codeNode scope line c nested

/-- What stands behind the head on its line: text, code, or a colon with an expression. -/
def lineContent (line : Line) : Routine n (Block × Option Node) := do
  let first ← Routine.peek
  match first.lexeme with
  | .text _ | .startInterpolation => do
    let nodes ← below (.textRun false)
    return (scope.block line [scope.collapse first.line nodes], none)
  | .code c => do
    let place ← Routine.look fun s => s.cursor.position 1
    let t ← Routine.next
    return (scope.block line [], some (← codeFrom linking scope below place t.line c))
  | .colon => return (← expansion scope below, none)
  | .newline | .indent _ | .outdent | .eos | .startPipeless | .endInterpolation =>
    return (scope.block line [], none)
  | _ => Routine.fail (.afterHead first.kind) first.line

/-- What the run of head tokens says that comes next. -/
def head (selfClosing : Bool) (shorthand : Option { t : Token // t.isHead = true }) :
    Routine n Head := do
  let run ← Routine.headRun shorthand
  let head ← Routine.ofExcept (Head.ofRun selfClosing run)
  Routine.addNotices (Head.notices false run)
  return head

/-- The body below the line of a tag. With a dot it is pipeless text and takes the place of what
stands on the line; otherwise it follows that. -/
def bodyAfter (line : Line) (textOnly : Bool) (inLine : Block) : Routine n Block := do
  if textOnly then pipelessBody scope below line
  else return inLine.followedBy (← body? scope below)

/-- The content of a tag or call whose name stands on the given line. -/
def content (line : Line) (selfClosing : Bool)
    (shorthand : Option { t : Token // t.isHead = true }) : Routine n Content := do
  let head ← head selfClosing shorthand
  let textOnly := (← Routine.accept .dot).isSome
  let inLine ← lineContent linking scope below line
  Routine.skipNewlines
  let body ← bodyAfter scope below line textOnly inLine.1
  return ⟨head, textOnly, body, inLine.2⟩

/-- A tag after its name. -/
def tagFrom (line : Line) (name : String) (selfClosing buffered : Bool)
    (shorthand : Option { t : Token // t.isHead = true }) : Routine n Node := do
  return (← content linking scope below line selfClosing shorthand).tag scope line name buffered

/-- A mixin call after its name. -/
def callFrom (line : Line) (name : String) (args : Option String) : Routine n Node := do
  return (← content linking scope below line false none).call scope line name args

/-- A mixin after its name: a definition when a body follows, otherwise a call in the old way. -/
def mixinFrom (line : Line) (name : String) (args : Option String) : Routine n Node := do
  if (← Routine.peek).kind = .indent then
    Routine.enterMixin
    let definition ← body scope below
    Routine.leaveMixin
    return scope.node line (.mixin ⟨name, args, false, [], []⟩ (some definition))
  else
    Routine.addNotices [⟨.deprecatedMixinCall name, line⟩]
    return scope.node line (.mixin ⟨name, args, true, [], []⟩ none)

end Grammar

end TemplateTree
