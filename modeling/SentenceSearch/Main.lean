import SentenceSearch.CommandLine.Run

/-!
# The program

The files that a command line is about are read into a tree, the command line is carried out on the
tree, and what has changed is written back.
-/

namespace SentenceSearch.Program

/-- The position that a path leads to when no link is on the way. -/
def positionOf (files : FileTree) (path : String) : List String :=
  (Path.names path).foldl Path.follow (files.start path)

/-- Read a file, or a directory with all that is below it. Links below it are left out. -/
partial def readBelow (files : FileTree) (position : List String) : IO FileTree := do
  let place := (← IO.currentDir) / Path.ofPosition position
  if ← place.isDir then
    let mut files := files
    if !files.isDirectoryAt position then
      files := files.insert position (.directory [])
    for entry in ← place.readDir do
      if (← entry.path.symlinkMetadata).type != .symlink then
        files ← readBelow files (position ++ [entry.fileName])
    return files
  else if ← place.pathExists then
    return files.insert position (.file (← IO.FS.readBinFile place))
  else
    return files

/-- Read the directories above a position, each with its ignore rules. -/
def readAbove (files : FileTree) (position : List String) : IO FileTree := do
  let mut files := files
  for depth in List.range position.length do
    let above := position.take depth
    let place := (← IO.currentDir) / Path.ofPosition above
    if ← place.isDir then
      if !files.isDirectoryAt above then
        files := files.insert above (.directory [])
      if ← (place / ignoreName).pathExists then
        files ← readBelow files (above ++ [ignoreName])
  return files

/-- Read what a path leads to. -/
def readPlace (files : FileTree) (path : String) : IO FileTree := do
  let position := positionOf files path
  readBelow (← readAbove files position) position

/-- The files that stand for the data of repositories. -/
partial def linkFiles (node : FileNode) : List ByteArray :=
  node.entries.flatMap fun (name, below) =>
    match below with
    | .file content => if name == Repository.dataName then [content] else []
    | .directory _ => linkFiles below

/-- Read the rules of repositories that have their data elsewhere. -/
def readLinked (files : FileTree) : IO FileTree := do
  let mut files := files
  for content in linkFiles files.root do
    if let some directory := (Text.firstLine? content).bind Repository.linkedDirectory? then
      files ← readPlace files (Path.join directory Repository.sharedName)
    if let some path := files.linkedExcludePath? content then
      files ← readPlace files path
  return files

/-- Read the personal rules. -/
def readPersonal (files : FileTree) : IO FileTree := do
  let mut files := files
  for path in files.configPaths do
    files ← readPlace files path
  if let some path := files.personalPath? then
    files ← readPlace files path
  return files

/-- Write what has changed at a path. -/
partial def writeBack (path : String) (before : Option FileNode) (after : FileNode) : IO Unit := do
  match before, after with
  | some (.file old), .file content =>
    if old.data != content.data then
      IO.FS.writeBinFile path content
  | _, .file content => IO.FS.writeBinFile path content
  | _, .directory entries =>
    if !before.any FileNode.isDirectory then
      IO.FS.createDirAll path
    for (name, node) in entries do
      writeBack (Path.join path name) (before.bind (·.child? name)) node

end SentenceSearch.Program

open SentenceSearch in
/-- Carry out the command line. No search runs out of time. -/
def main (words : List String) : IO UInt32 := do
  let home ← IO.getEnv "HOME"
  let dataHome := CommandLine.dataHome? (← IO.getEnv "XDG_DATA_HOME") home
  let configHome ← IO.getEnv "XDG_CONFIG_HOME"
  let current := (Path.names (← IO.currentDir).toString).filter (· != "")
  let places :=
    match CommandLine.Invocation.read words with
    | .ok invocation =>
      (dataHome.map CommandLine.dataDirectory).toList ++ invocation.command.places
    | .error _ => []
  let mut files := { FileTree.ofCurrent current with home, configHome }
  for place in places do
    files ← Program.readPlace files place
  files ← Program.readPersonal (← Program.readLinked files)
  let (ending, after) := CommandLine.run (fun _ => false) dataHome words files
  Program.writeBack (Path.ofPosition []) (some files.root) after.root
  IO.print ending.output
  if let some failure := ending.failure then
    IO.eprintln (CommandLine.failureLine failure)
  return UInt32.ofNat ending.code
