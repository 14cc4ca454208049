import TemplateTree.Command.Request
import TemplateTree.Command.FileTree
import TemplateTree.Template
import TemplateTree.Node.Summary
import TemplateTree.Json.Writer

/-!
Running a request. Each token file `X.tokens.json` becomes a tree file `X.ast.json` beside it;
a directory is taken file by file, in the order of the walk, and a file that fails does not keep
the others from their turn.
-/

namespace TemplateTree
set_option autoImplicit false

namespace Command

def tokenEnding : String := ".tokens.json"

def treeEnding : String := ".ast.json"

/-- The result of a template as JSON text. -/
def render (format : Format) (p : Parsed) : String :=
  let v := if format.summary then (Summary.ofBlock p.root).toJson else Block.toJson p.root
  if format.pretty then v.pretty else v.compact

def warningLines (ws : List Warning) : String :=
  String.join (ws.map fun w => "  warning: " ++ w.display ++ "\n")

/-- What one stream of bytes gives: the text to be written, if there is one, and the messages. The
complaint is for bytes that are not text. -/
def convert (format : Format) (file : Option String) (complaint : String) (bytes : ByteArray) :
    Option String × String :=
  match String.fromUTF8? bytes with
  | none => (none, complaint ++ ": stream did not contain valid UTF-8\n")
  | some text =>
    match Template.compileText file text with
    | .error e => (none, e.render)
    | .ok p => (some (render format p ++ "\n"), warningLines p.warnings)

/-- The state of a run over files: the tree as it is by now, the messages so far, and what was
written under which path. -/
structure Progress where
  tree : FileTree
  messages : String
  written : List (String × String)

namespace Progress

def say (p : Progress) (message : String) : Progress := { p with messages := p.messages ++ message }

end Progress

/-- The name of the tree file that belongs to a token file. -/
def outputName (name : String) : String :=
  (FilePath.dropEnding? tokenEnding name).getD name ++ treeEnding

/-- Converts the token file at a place. The path is how messages and the template's name speak of
it. -/
def convertFile (format : Format) (place : Place) (path : String) (p : Progress) :
    Bool × Progress :=
  match p.tree.find? place with
  | some (.file bytes) =>
    match convert format (FilePath.dropEnding? tokenEnding path)
        ("Error: failed to read " ++ path) bytes with
    | (none, messages) => (false, p.say messages)
    | (some text, messages) =>
      let p := p.say messages
      let output := outputName (FilePath.name path)
      let outputPath := FilePath.sibling path output
      match p.tree.write text.toUTF8 (place.dropLast ++ [output]) with
      | some tree =>
        (true, { p.say ("  ✓ " ++ outputPath ++ "\n") with
          tree := tree, written := p.written ++ [(outputPath, text)] })
      | none =>
        (false, p.say ("Error: failed to write " ++ outputPath ++
          ": Is a directory (os error 21)\n"))
  | _ => (false, p)

def closing (count : Nat) : String :=
  "\n✨ Parsed " ++ toString count ++ (if count = 1 then " file\n" else " files\n")

def isTokenName (name : String) : Bool := (FilePath.dropEnding? tokenEnding name).isSome

/-- The token files under a place, as places below it. -/
def tokenFiles (t : FileTree) : List Place :=
  t.files.filter fun place => isTokenName (place.getLast?.getD "")

/-- Converts every token file of a directory and counts the successes. -/
def convertAll (format : Format) (place : Place) (path : String) (files : List Place)
    (p : Progress) : Nat × Progress :=
  files.foldl
    (fun (count, p) file =>
      let (done, p) := convertFile format (place ++ file) (file.foldl FilePath.join path) p
      (if done then count + 1 else count, p))
    (0, p)

/-- What a run leaves behind. -/
structure Outcome where
  success : Bool
  output : String
  progress : Progress

/-- Converts what a path leads to. -/
def convertPath (format : Format) (path : String) (place : Option Place) (p : Progress) : Outcome :=
  match place.bind fun place => (p.tree.find? place).map fun t => (place, t) with
  | none => ⟨false, "", p.say ("Error: " ++ path ++ " does not exist\n")⟩
  | some (place, .file _) =>
    if isTokenName (FilePath.name path) then
      let (done, p) := convertFile format place path p
      ⟨done, "", p.say (closing (if done then 1 else 0))⟩
    else ⟨false, "", p.say ("Error: " ++ path ++ " is not a " ++ tokenEnding ++ " file\n")⟩
  | some (place, .directory entries) =>
    let files := tokenFiles (.directory entries)
    if files.isEmpty then
      ⟨false, "", p.say ("No " ++ tokenEnding ++ " files found in " ++ path ++ "\n")⟩
    else
      let (count, p) := convertAll format place path files p
      ⟨count == files.length, "", p.say (closing count)⟩

/-- Serves a request in a tree, given the place that the requested path leads to. -/
def run (request : Request) (place : Option Place) (tree : FileTree) (input : ByteArray) : Outcome :=
  let p : Progress := ⟨tree, "", []⟩
  match request with
  | .standardInput file format =>
    match convert format file "Error: failed to read stdin" input with
    | (none, messages) => ⟨false, "", p.say messages⟩
    | (some text, messages) => ⟨true, text, p.say messages⟩
  | .path path format => convertPath format path place p

/-- Serves a request whose path is relative to the root of a tree. -/
def runIn (request : Request) (tree : FileTree) (input : ByteArray) : Outcome :=
  let place :=
    match request with
    | .path path _ => FilePath.locate tree path
    | .standardInput .. => none
  run request place tree input

/-- The exit code when the arguments are refused. -/
def refusedCode : UInt8 := 2

def exitCode (success : Bool) : UInt8 := if success then 0 else 1

end Command

end TemplateTree
