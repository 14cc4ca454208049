import TemplateTree.Diagnostic.Basic
import TemplateTree.Json.Reader
import TemplateTree.Json.Record

/-!
Reports as text. One layout serves plain and coloured reports: the palette decides what stands
before and after the parts that colour sets off, and the plain palette puts nothing there.
-/

namespace TemplateTree
set_option autoImplicit false

/-- The sequences that switch colours. -/
structure Palette where
  red : String
  dim : String
  cyan : String
  bold : String
  reset : String
deriving DecidableEq, Repr, Inhabited

namespace Palette

def plain : Palette := ⟨"", "", "", "", ""⟩

def ansi : Palette :=
  ⟨"\x1b[1;31m", "\x1b[2m", "\x1b[1;38;5;73m", "\x1b[1m", "\x1b[0m"⟩

end Palette

/-- How reports speak of the file of a template. -/
def fileLabel (file : Option String) : String := file.getD "<anonymous>"

namespace Diagnostic

/-- The help text, its first line behind a label and the others indented under it. -/
def helpLines (p : Palette) : List String → String
  | [] => ""
  | first :: rest =>
    " " ++ p.cyan ++ "help:" ++ p.reset ++ " " ++ first ++ "\n" ++
      String.join (rest.map fun line => "       " ++ line ++ "\n")

def render (p : Palette) (d : Diagnostic) : String :=
  "\n" ++
  " " ++ p.dim ++ "file:" ++ p.reset ++ " " ++ fileLabel d.file ++ ":" ++
    toString d.line.toNat ++ "\n" ++
  p.red ++ "error:" ++ p.reset ++ " " ++ d.message ++ "\n" ++
  (match d.expected, d.found with
    | some expected, some found =>
      p.dim ++ "   |" ++ p.reset ++ " expected `" ++ expected.wireName ++ "`, found `" ++
        found.wireName ++ "`\n"
    | _, _ => "") ++
  (match d.help with
    | some help => "\n" ++ helpLines p (Text.lines help)
    | none => "") ++
  "\n"

end Diagnostic

namespace Warning

def display (w : Warning) : String :=
  fileLabel w.file ++ ", line " ++ toString w.line.toNat ++ ": " ++ w.message

def toJson (w : Warning) : Json :=
  .object [("kind", .string w.kind.wireName), ("message", .string w.message),
    ("line", .word w.line), ("filename", .ofText? w.file)]

end Warning

/-- Why a text is not a stream of tokens: it is not JSON, or not of the wanted form. -/
inductive StreamError where
  | text (fault : JsonFault)
  | form (error : DecodeError)
deriving Repr, BEq, Inhabited

namespace StreamError

def message : StreamError → String
  | .text .ended => "the text ends within a value"
  | .text .malformed => "the text is not a JSON value"
  | .form e => e.message

end StreamError

/-- Everything that can keep a template from its tree. The message of a stream that cannot be
decoded is the decoder's. -/
inductive CompileError where
  | parse (d : Diagnostic)
  | decode (message : String)
deriving DecidableEq, Repr, Inhabited

namespace CompileError

def display : CompileError → String
  | .parse d => d.message
  | .decode message => "Invalid token stream: " ++ message

def render (e : CompileError) : String :=
  match e with
  | .parse d => d.render .plain
  | .decode _ => "error: " ++ e.display ++ "\n"

def renderColor (e : CompileError) : String :=
  match e with
  | .parse d => d.render .ansi
  | .decode _ =>
    Palette.ansi.red ++ "error" ++ Palette.ansi.reset ++ ": " ++ Palette.ansi.bold ++ e.display ++
      Palette.ansi.reset ++ "\n"

end CompileError

end TemplateTree
