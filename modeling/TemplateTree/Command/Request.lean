import TemplateTree.Basic

/-!
What the command line asks for. Arguments that ask for nothing are refused as a whole.
-/

namespace TemplateTree
set_option autoImplicit false

/-- How results are written. -/
structure Format where
  pretty : Bool
  summary : Bool
deriving DecidableEq, Repr, Inhabited

inductive Request where
  /-- One stream from standard input, whose template has perhaps a file name. -/
  | standardInput (file : Option String) (format : Format)
  /-- A file or a directory. -/
  | path (path : String) (format : Format)
deriving DecidableEq, Repr, Inhabited

/-- The arguments met so far. -/
structure Arguments where
  path : Option String
  standardInput : Bool
  pretty : Bool
  summary : Bool
  file : Option String
deriving DecidableEq, Repr, Inhabited

namespace Arguments

def none : Arguments := ⟨.none, false, false, false, .none⟩

/-- There is at most one path, and it is not empty. -/
def addPath (a : Arguments) (path : String) : Option Arguments :=
  if a.path.isSome || path == "" then .none else some { a with path := some path }

def addFile (a : Arguments) (name : String) : Option Arguments :=
  if a.file.isSome then .none else some { a with file := some name }

/-- Arguments that start with a dash and do not consist of it name an option. -/
def isOption (arg : String) : Bool :=
  match arg.toList with
  | '-' :: _ :: _ => true
  | _ => false

/-- The value written together with the option for the file name. -/
def attachedFile? (arg : String) : Option String :=
  let label := "--filename=".toList
  if label.isPrefixOf arg.toList then some (String.ofList (arg.toList.drop label.length))
  else .none

/-- Each option is given at most once; behind two dashes everything is a path. -/
def scan (a : Arguments) : List String → Option Arguments
  | [] => some a
  | "--" :: rest => rest.foldlM addPath a
  | "--stdin" :: rest =>
    if a.standardInput then .none else scan { a with standardInput := true } rest
  | "--pretty" :: rest => if a.pretty then .none else scan { a with pretty := true } rest
  | "--summary" :: rest => if a.summary then .none else scan { a with summary := true } rest
  | ["--filename"] => .none
  | "--filename" :: value :: rest =>
    if isOption value then .none else (a.addFile value).bind fun a => scan a rest
  | arg :: rest =>
    match attachedFile? arg with
    | some value => (a.addFile value).bind fun a => scan a rest
    | .none => if isOption arg then .none else (a.addPath arg).bind fun a => scan a rest

/-- Standard input wins over a path, and one of them is needed. -/
def request? (a : Arguments) : Option Request :=
  let format : Format := ⟨a.pretty, a.summary⟩
  if a.standardInput then some (.standardInput a.file format)
  else a.path.map fun path => .path path format

end Arguments

namespace Request

def ofArguments : List String → Option Request
  | "parse" :: rest => (Arguments.none.scan rest).bind Arguments.request?
  | _ => none

end Request

end TemplateTree
