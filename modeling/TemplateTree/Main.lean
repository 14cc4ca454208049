import TemplateTree.Command.Run

/-!
The command line. It loads what a path leads to, runs the request on that, and carries out what
the run has written. Elapsed times and colours are not shown.
-/

namespace TemplateTree
set_option autoImplicit false

namespace Command

/-- The bytes of a file that a run may read. Other files only have to be there. -/
def loadFile (name path : String) : IO FileTree := do
  if isTokenName name then return .file (← IO.FS.readBinFile path) else return .file .empty

partial def loadDirectory (path : String) : IO FileTree := do
  let mut entries := []
  for e in ← (← IO.FS.realPath path).readDir do
    let below := FilePath.join path e.fileName
    let t ← if ← e.path.isDir then loadDirectory below else loadFile e.fileName below
    entries := entries ++ [(e.fileName, t)]
  return .directory entries

def isDirectory (path : String) : IO Bool := do
  try (← IO.FS.realPath path).isDir catch _ => return false

def isPresent (path : String) : IO Bool := do
  try (← IO.FS.realPath path).pathExists catch _ => return false

/-- What a path leads to, with its place: a directory alone, and a file with the directory that
stands in the way of its result if there is one. -/
def load (path : String) : IO (Option Place × FileTree) := do
  if ← isDirectory path then return (some [], ← loadDirectory path)
  else if ← isPresent path then
    let name := FilePath.name path
    let output := outputName name
    let others ←
      if ← isDirectory (FilePath.sibling path output) then pure [(output, FileTree.directory [])]
      else pure []
    return (some [name], .directory ((name, ← loadFile name path) :: others))
  else return (none, .directory [])

partial def readAll (input : IO.FS.Stream) (read : ByteArray) : IO ByteArray := do
  let chunk ← input.read 65536
  if chunk.isEmpty then return read else readAll input (read ++ chunk)

def serve (request : Request) : IO UInt32 := do
  let outcome ←
    match request with
    | .standardInput .. => do
      pure (run request none (.directory []) (← readAll (← IO.getStdin) .empty))
    | .path path _ => do
      let (place, tree) ← load path
      pure (run request place tree .empty)
  for (path, text) in outcome.progress.written do
    IO.FS.writeFile path text
  (← IO.getStdout).putStr outcome.output
  (← IO.getStderr).putStr outcome.progress.messages
  return (exitCode outcome.success).toUInt32

end Command

end TemplateTree

def main (args : List String) : IO UInt32 :=
  match TemplateTree.Request.ofArguments args with
  | some request => TemplateTree.Command.serve request
  | none => return TemplateTree.Command.refusedCode.toUInt32
