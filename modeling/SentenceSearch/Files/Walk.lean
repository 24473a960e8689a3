import SentenceSearch.Files.Personal
import SentenceSearch.Files.Repository

/-!
# Walking a directory

The files below a directory that are worth reading. Entries whose names start with a dot are left
out, and so are entries that ignore rules hide; rules may also show an entry in spite of its name.
Nothing is found in a directory that is left out itself. The directory of the walk is never left
out. Entries go by their paths as the walk spells them.

## Main definitions

* `WalkLevel` — a directory on the way to an entry
* `Walk` — a walk, with the rules from outside of its directory
* `Walk.verdict?` — what the ignore rules say about an entry
* `Walk.isVisible` — whether an entry is not left out
* `FileTree.visibleFiles` — the files that a walk finds
-/

namespace SentenceSearch

/-- The name of a file with ignore rules. -/
def ignoreName : String := ".ignore"

/-- A directory on the way to an entry. -/
structure WalkLevel where
  /-- The rules in the directory. -/
  rules : RuleSet
  /-- The rules of the repository that the directory is, if it is one. -/
  repository? : Option RuleSet

/-- The rules in a directory. -/
def FileNode.ignoreRules (node : FileNode) (path : String) : RuleSet :=
  .ofFile path ((node.reach? path [ignoreName]).bind FileNode.content?)

/-- A directory on the way to its entries. -/
def FileTree.walkLevel (tree : FileTree) (path : String) (node : FileNode) : WalkLevel where
  rules := node.ignoreRules path
  repository? := if node.isRepository path then some (tree.excludeRules path node) else none

/-- A walk, with the rules from outside of its directory. -/
structure Walk where
  /-- All files. -/
  tree : FileTree
  /-- The path of the directory. -/
  path : String
  /-- The position of the directory. -/
  position : List String
  /-- The rules in the directories above, the nearest first. -/
  above : List RuleSet
  /-- The personal rules. -/
  personal : RuleSet

namespace Walk

/-- The rules in the directories along a way from a directory, all but the last, in front of
others. The nearest to the end of the way come first. -/
def rulesAlong (others : List RuleSet) (path : String) (node : FileNode) :
    List String → List RuleSet
  | [] => others
  | name :: way =>
    let rules := node.ignoreRules path
    let others := if rules.rules.isEmpty then others else rules :: others
    match node.child? name with
    | some below => rulesAlong others (Path.join path name) below way
    | none => others

/-- The walk of a directory. -/
def ofDirectory (tree : FileTree) (path : String) (position : List String) : Walk where
  tree := tree
  path := path
  position := position
  above := rulesAlong [] (Path.ofPosition []) tree.root position
  personal := tree.personalRules

/-- The path of an entry from the root. Nothing is dropped from a path that starts at the current
directory by a dot alone. -/
def absolutePath (walk : Walk) (path : String) : String :=
  let way :=
    if Path.isHere walk.path then path
    else Path.dropFront "/" (Path.dropFront (Path.dropHere walk.path) path)
  Path.resolve (Path.ofPosition walk.position) way

/-- What the rules in directories say about an entry. The nearest directory counts first. -/
def directoryVerdict? (walk : Walk) (levels : List WalkLevel) (path : String)
    (isDirectory : Bool) : Option Verdict :=
  match levels.findSome? (·.rules.verdict? path isDirectory) with
  | some verdict => some verdict
  | none => walk.above.findSome? (·.verdict? (walk.absolutePath path) isDirectory)

/-- What the rules of repositories say about an entry. Outside of repositories the personal rules
do not count either. -/
def repositoryVerdict? (walk : Walk) (levels : List WalkLevel) (path : String)
    (isDirectory : Bool) : Option Verdict :=
  match levels.findSome? WalkLevel.repository? with
  | none => none
  | some rules => rules.verdict? path isDirectory <|> walk.personal.verdict? path isDirectory

/-- What ignore rules say about an entry. -/
def verdict? (walk : Walk) (levels : List WalkLevel) (path : String) (isDirectory : Bool) :
    Option Verdict :=
  let path := Path.dropHere path
  walk.directoryVerdict? levels path isDirectory <|>
    walk.repositoryVerdict? levels path isDirectory

/-- Whether a name starts with a dot. Names that end with a dot do not count. -/
def isDotName (name : String) : Bool :=
  name.toList.head? == some '.' && name.toList.getLast? != some '.'

/-- Whether an entry is not left out. -/
def isVisible (walk : Walk) (levels : List WalkLevel) (path name : String)
    (isDirectory : Bool) : Bool :=
  match walk.verdict? levels path isDirectory with
  | some .hidden => false
  | some .shown => true
  | none => !isDotName name

mutual

/-- The files in what is found at a path, in order. The directories around it come first to last
from the nearest one. -/
def filesIn (walk : Walk) (levels : List WalkLevel) (path : String) : FileNode → List String
  | .file _ => [path]
  | .directory entries =>
    -- Too long a path cannot be followed.
    if Path.isUsable path then
      walk.filesAmong (walk.tree.walkLevel path (.directory entries) :: levels) path entries
    else []

/-- The files in the visible ones of some entries of a directory, in order. -/
def filesAmong (walk : Walk) (levels : List WalkLevel) (directory : String) :
    List (String × FileNode) → List String
  | [] => []
  | (name, node) :: entries =>
    let path := Path.join directory name
    let found :=
      if walk.isVisible levels path name node.isDirectory then walk.filesIn levels path node
      else []
    found ++ walk.filesAmong levels directory entries

end

end Walk

/-- The path that stands for a stream and not for a directory. -/
def streamName : String := "-"

/-- The paths of the files that a walk of a directory finds, in order. -/
def FileTree.visibleFiles (tree : FileTree) (path : String) : List String :=
  match tree.locate path with
  | none => []
  | some position =>
    if Path.isOnly streamName path then []
    else
      match tree.entryAt? position with
      | some node => (Walk.ofDirectory tree path position).filesIn [] path node
      | none => []

end SentenceSearch
