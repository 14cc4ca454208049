import TemplateTree.Grammar.Expression
import TemplateTree.Diagnostic.Render
import TemplateTree.Node.Wire
import TemplateTree.Token.Wire

/-!
From token streams to trees. `parse` reads a stream; `compile` also sends the tree through its
JSON form, and `compileText` starts from a stream's JSON text.
-/

namespace TemplateTree
set_option autoImplicit false

/-- A template's tree and what is remarkable about it. -/
structure Parsed where
  root : Block
  warnings : List Warning
deriving Repr

namespace Parsed

def toJson (p : Parsed) : Json :=
  .object [("ast", Block.toJson p.root), ("warnings", .array (p.warnings.map Warning.toJson))]

end Parsed

namespace Template

/-- The items of a whole stream, and the notices they gave rise to. -/
def readItems (linking : Linking) (file : Option String) (c : Cursor) :
    Except Fault (List Node × List Notice) :=
  let read := Grammar.answer linking ⟨file⟩ (c.size + 1) (.items false)
  match read (.start c) (Nat.lt_succ_self _) with
  | .error e => .error e
  | .ok a => .ok (a.value, a.state.notices)

/-- The tree of a stream, whose else branches find their conditionals in a certain way. The root
block stands on no line. -/
def parseLinking (linking : Linking) (file : Option String) (ts : List Token) :
    Except Diagnostic Parsed :=
  match readItems linking file (.ofTokens ts) with
  | .error fault => .error (fault.diagnostic file)
  | .ok (nodes, notices) =>
    .ok ⟨.ofNodes ⟨0, file⟩ nodes, notices.map (Notice.warning file)⟩

/-- The tree of a stream. -/
def parse (file : Option String) (ts : List Token) : Except Diagnostic Parsed :=
  parseLinking .slot file ts

/-- Parses each stream on its own. -/
def parseAll (file : Option String) (streams : List (List Token)) :
    List (Except Diagnostic Parsed) :=
  streams.map (parse file)

def compile (file : Option String) (ts : List Token) : Except CompileError Parsed :=
  match parse file ts with
  | .error d => .error (.parse d)
  | .ok p =>
    match Block.normalize p.root with
    | .error e => .error (.decode e.message)
    | .ok root => .ok { p with root := root }

/-- The tokens that a JSON text holds. -/
def tokensOfText (text : String) : Except StreamError (List Token) :=
  match Json.parse text with
  | .error fault => .error (.text fault)
  | .ok v =>
    match Token.listOfJson v with
    | .error e => .error (.form e)
    | .ok ts => .ok ts

def compileText (file : Option String) (text : String) : Except CompileError Parsed :=
  match tokensOfText text with
  | .error e => .error (.decode e.message)
  | .ok ts => compile file ts

end Template

end TemplateTree
