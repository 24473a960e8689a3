import SentenceSearch.Files.Ignore
import SentenceSearch.Files.Tree

/-!
# Repositories

A directory with certain entries is a repository, and a repository may have ignore rules of its own
besides those that are kept with its files. The data of a repository are below it, or elsewhere when
a file tells where.

## Main definitions

* `FileNode.isRepository` — whether a directory is a repository
* `FileTree.linkedExcludePath?` — the file of the rules when the data are elsewhere
* `FileTree.excludeRules` — the rules of a repository
-/

namespace SentenceSearch

namespace Repository

/-- The entry for the data of a repository. -/
def dataName : String := ".git"

/-- The entry that marks a repository of another kind, which has no rules. -/
def otherName : String := ".jj"

/-- The way from the data of a repository to its ignore rules. -/
def excludeWay : List String := ["info", "exclude"]

/-- The file that tells where the data are that several repositories share. -/
def sharedName : String := "commondir"

/-- The directory that a line tells about. -/
def linkedDirectory? (line : String) : Option String :=
  ("gitdir: ".toList.isPrefixOf? line.toList).map String.ofList

end Repository

/-- What is found along some names from a directory with a path. Too long a path leads nowhere. -/
def FileNode.reach? (node : FileNode) (path : String) (way : List String) : Option FileNode :=
  (node.along? way).filter fun _ => Path.isUsable (way.foldl Path.join path)

/-- Whether a directory is a repository. -/
def FileNode.isRepository (node : FileNode) (path : String) : Bool :=
  (node.reach? path [Repository.dataName]).isSome ||
    (node.reach? path [Repository.otherName]).isSome

namespace FileTree

/-- The file of the rules of a repository whose data are elsewhere, given the content of the file
that tells where. The first line there names a directory, and the first line of a file in that
directory names the place of the data that are shared. -/
def linkedExcludePath? (tree : FileTree) (content : ByteArray) : Option String := do
  let line ← Text.firstLine? content
  let directory ← Repository.linkedDirectory? line
  let content ← tree.read? (Path.join directory Repository.sharedName)
  let shared ← Text.firstLine? content
  -- A name that starts with a dot is seen from the directory itself.
  let place := if shared.toList.head? == some '.' then Path.join directory shared else shared
  pure (Repository.excludeWay.foldl Path.join place)

/-- The rules of a repository. They are for its directory, wherever its data are. -/
def excludeRules (tree : FileTree) (path : String) (node : FileNode) : RuleSet :=
  let content :=
    match node.reach? path [Repository.dataName] with
    | some (.file content) => (tree.linkedExcludePath? content).bind tree.read?
    | _ =>
      (node.reach? path (Repository.dataName :: Repository.excludeWay)).bind FileNode.content?
  .ofFile path content

end FileTree

end SentenceSearch
