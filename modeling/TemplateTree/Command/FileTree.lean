import TemplateTree.Text.Named

/-!
Trees of directories and files, and paths through them. A place in a tree is the list of names
that lead to it; a path is text as a user writes it, with empty, single dot and double dot steps.
-/

namespace TemplateTree
set_option autoImplicit false

inductive FileTree where
  | file (bytes : ByteArray)
  | directory (entries : List (String × FileTree))
deriving Inhabited

abbrev Place := List String

namespace FileTree

def isDirectory : FileTree → Bool
  | .file _ => false
  | .directory _ => true

def child? (name : String) : FileTree → Option FileTree
  | .file _ => none
  | .directory entries => (entries.find? fun e => e.1 == name).map (·.2)

def find? (t : FileTree) : Place → Option FileTree
  | [] => some t
  | name :: rest => (t.child? name).bind fun c => c.find? rest

/-- Puts an entry in place of the one of its name, or behind all others. -/
def putEntry (name : String) (t : FileTree) : List (String × FileTree) → List (String × FileTree)
  | [] => [(name, t)]
  | e :: rest => if e.1 == name then (name, t) :: rest else e :: putEntry name t rest

/-- Writes a file. A directory cannot be overwritten, and the directories on the way must exist. -/
def write (bytes : ByteArray) : Place → FileTree → Option FileTree
  | [], .file _ => some (.file bytes)
  | [], .directory _ => none
  | _ :: _, .file _ => none
  | [name], .directory entries =>
    match (FileTree.directory entries).child? name with
    | some (.directory _) => none
    | _ => some (.directory (putEntry name (.file bytes) entries))
  | name :: rest, .directory entries => do
    let c ← (FileTree.directory entries).child? name
    let c ← write bytes rest c
    return .directory (putEntry name c entries)

mutual

/-- The places of all files: entries by name, and a directory's files where its name stands. -/
def files : FileTree → List Place
  | .file _ => [[]]
  | .directory entries => (Text.sortByName (entryFiles entries)).flatMap Prod.snd

def entryFiles : List (String × FileTree) → List (String × List Place)
  | [] => []
  | (name, t) :: rest => (name, (files t).map (name :: ·)) :: entryFiles rest

end

end FileTree

namespace FilePath

/-- Splits at slashes. -/
def stepsFrom (step : List Char) : List Char → List String
  | [] => [String.ofList step]
  | c :: cs => if c = '/' then String.ofList step :: stepsFrom [] cs else stepsFrom (step ++ [c]) cs

def steps (path : String) : List String := stepsFrom [] path.toList

/-- Follows one step. Only from a directory can a step be taken. -/
def follow (t : FileTree) (here : Place) (step : String) : Option Place :=
  match t.find? here with
  | some (.directory _) =>
    if step == "" || step == "." then some here
    else if step == ".." then if here.isEmpty then none else some here.dropLast
    else if (t.find? (here ++ [step])).isSome then some (here ++ [step])
    else none
  | _ => none

/-- The place a relative path leads to. -/
def locate (t : FileTree) (path : String) : Option Place :=
  if path.toList.head? = some '/' then none else (steps path).foldlM (follow t) []

/-- The last step of a path. -/
def name (path : String) : String := (steps path).getLast?.getD ""

def join (directory name : String) : String :=
  if directory.toList.getLast? = some '/' then directory ++ name else directory ++ "/" ++ name

/-- Drops the steps at the end that lead nowhere; the first step always stays. -/
def dropIdle (steps : List String) : List String :=
  match steps with
  | [] => []
  | first :: rest => first :: (rest.reverse.dropWhile fun s => s == "" || s == ".").reverse

/-- The path of another file in the directory of a file. -/
def sibling (path other : String) : String :=
  match dropIdle (steps path).dropLast with
  | [] => other
  | [""] => "/" ++ other
  | parent => "/".intercalate parent ++ "/" ++ other

/-- A text without the ending it has. -/
def dropEnding? (ending s : String) : Option String :=
  if ending.toList.isSuffixOf s.toList then
    some (String.ofList (s.toList.take (s.toList.length - ending.toList.length)))
  else none

end FilePath

end TemplateTree
