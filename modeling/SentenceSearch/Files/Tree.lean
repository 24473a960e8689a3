import SentenceSearch.Files.Path

/-!
# File trees

The files and directories that a command works with, and the directory that relative paths start
from. Wherever a path goes on there has to be a directory.

## Main definitions

* `FileNode` — a file, or a directory with its entries
* `FileTree` — all files and directories
* `FileTree.locate` — the position that a path leads to
* `FileTree.read?`, `FileTree.isFile`, `FileTree.isDirectory` — what is there
* `FileTree.write`, `FileTree.makeDirectories` — the tree after a change

## Main results

* `FileTree.read?_write` — what was written is read back
-/

namespace SentenceSearch

/-- A file, or a directory with its entries in the order of their names. -/
inductive FileNode where
  | file (content : ByteArray)
  | directory (entries : List (String × FileNode))
  deriving Inhabited

namespace FileNode

/-- Whether a node is a directory. -/
def isDirectory : FileNode → Bool
  | .file _ => false
  | .directory _ => true

/-- The entries of a directory. A file has none. -/
def entries : FileNode → List (String × FileNode)
  | .file _ => []
  | .directory entries => entries

/-- The entries that a directory is made of. -/
@[simp] theorem entries_directory (entries : List (String × FileNode)) :
    (directory entries).entries = entries := rfl

/-- The content of a file. -/
def content? : FileNode → Option ByteArray
  | .file content => some content
  | .directory _ => none

/-- The entry of a name. -/
def child? (node : FileNode) (name : String) : Option FileNode := node.entries.lookup name

/-- What is found along some names. -/
def along? : FileNode → List String → Option FileNode
  | node, [] => some node
  | node, name :: way => (node.child? name).bind (·.along? way)

/-- Entries with another one, which replaces an entry of its name. -/
def insertEntry (name : String) (node : FileNode) :
    List (String × FileNode) → List (String × FileNode)
  | [] => [(name, node)]
  | (other, old) :: entries =>
    if name = other then (name, node) :: entries
    else if name < other then (name, node) :: (other, old) :: entries
    else (other, old) :: insertEntry name node entries

/-- A node with another one put along some names. What is missing on the way is made. -/
def put (new : FileNode) : FileNode → List String → FileNode
  | _, [] => new
  | node, name :: way =>
    let below := (node.child? name).getD (.directory [])
    .directory (insertEntry name (new.put below way) node.entries)

/-- The entry of a name among a first entry and others. -/
theorem lookup_entry_cons (name other : String) (node : FileNode)
    (entries : List (String × FileNode)) :
    ((name, node) :: entries).lookup other =
      if other = name then some node else entries.lookup other := by
  by_cases h : other = name
  · simp [h]
  · simp [List.lookup_cons, beq_false_of_ne h, h]

/-- The entry of a name among entries with another one. -/
theorem lookup_insertEntry (name other : String) (node : FileNode)
    (entries : List (String × FileNode)) :
    (insertEntry name node entries).lookup other =
      if other = name then some node else entries.lookup other := by
  induction entries with
  | nil => rw [insertEntry, lookup_entry_cons]
  | cons entry entries ih =>
    obtain ⟨key, old⟩ := entry
    simp only [insertEntry]
    split
    next hkey =>
      subst hkey
      simp only [lookup_entry_cons]
      split <;> rfl
    next hkey =>
      split
      · simp only [lookup_entry_cons]
      · simp only [lookup_entry_cons, ih]
        by_cases hother : other = name
        · simp [hother, hkey]
        · simp [hother]

/-- What is found where a node was put. -/
theorem along?_put (new node : FileNode) (way : List String) :
    (new.put node way).along? way = some new := by
  induction way generalizing node with
  | nil => rfl
  | cons name way ih => simp [put, along?, child?, lookup_insertEntry, ih]

/-- Nothing but files and missing entries is lost where a node is put. -/
theorem isDirectory_along?_put (new node : FileNode) (way other : List String)
    (h : (node.along? way).any isDirectory = false)
    (hother : (node.along? other).any isDirectory = true) :
    ((new.put node way).along? other).any isDirectory = true := by
  induction way generalizing node other with
  | nil =>
    cases node with
    | file content =>
      cases other with
      | nil => simp [along?, isDirectory] at hother
      | cons name other => simp [along?, child?, entries] at hother
    | directory entries => simp [along?, isDirectory] at h
  | cons name way ih =>
    cases other with
    | nil => simp [put, along?, isDirectory]
    | cons first other =>
      simp only [put, along?, child?, entries_directory, lookup_insertEntry] at h hother ⊢
      by_cases hfirst : first = name
      · subst hfirst
        cases hentry : node.entries.lookup first with
        | none => simp [hentry] at hother
        | some below =>
          simp only [hentry, Option.bind_some] at h hother
          simpa [hentry] using ih below other h hother
      · simpa [hfirst] using hother

end FileNode

/-- Files and directories, and the places that paths may be meant from. -/
structure FileTree where
  /-- The entries of the root. -/
  entries : List (String × FileNode)
  /-- The position that relative paths start from. -/
  current : List String
  /-- The home directory, if there is one. -/
  home : Option String := none
  /-- The directory that is set for configuration files, if one is set. -/
  configHome : Option String := none

namespace FileTree

/-- The root of the tree. -/
def root (tree : FileTree) : FileNode := .directory tree.entries

/-- What is at a position. The root is a directory. -/
def entryAt? (tree : FileTree) (position : List String) : Option FileNode :=
  tree.root.along? position

/-- Whether there is a directory at a position. -/
def isDirectoryAt (tree : FileTree) (position : List String) : Bool :=
  (tree.entryAt? position).any FileNode.isDirectory

/-- The root is a directory. -/
@[simp] theorem isDirectoryAt_nil (tree : FileTree) : tree.isDirectoryAt [] = true := rfl

/-- The position that some names lead to. There is a directory wherever a name is followed. -/
def followAll (tree : FileTree) : List String → List String → Option (List String)
  | position, [] => some position
  | position, name :: names =>
    if tree.isDirectoryAt position then tree.followAll (Path.follow position name) names else none

/-- The position that a path starts from. -/
def start (tree : FileTree) (path : String) : List String :=
  if Path.isAbsolute path then [] else tree.current

/-- The position that a path leads to. There may be nothing yet. The empty path and paths that are
too long lead nowhere. -/
def locate (tree : FileTree) (path : String) : Option (List String) :=
  if path == "" || !Path.isUsable path then none
  else tree.followAll (tree.start path) (Path.names path)

/-- What a path leads to. -/
def node? (tree : FileTree) (path : String) : Option FileNode :=
  (tree.locate path).bind tree.entryAt?

/-- The content of a file. -/
def read? (tree : FileTree) (path : String) : Option ByteArray :=
  (tree.node? path).bind FileNode.content?

/-- Whether a path leads to a file. -/
def isFile (tree : FileTree) (path : String) : Bool := (tree.read? path).isSome

/-- Whether a path leads to a directory. -/
def isDirectory (tree : FileTree) (path : String) : Bool :=
  (tree.node? path).any FileNode.isDirectory

/-- The tree with another node at a position. The root always is a directory. -/
def insert (tree : FileTree) (position : List String) (node : FileNode) : FileTree :=
  { tree with entries := (node.put tree.root position).entries }

/-- The tree after a file has been written, unless that is impossible. A file that was there is
replaced; a directory is not. -/
def write (tree : FileTree) (path : String) (content : ByteArray) : Option FileTree := do
  let position ← tree.locate path
  if tree.isDirectoryAt position then none else pure (tree.insert position (.file content))

/-- The tree after the directories that some names lead through have been made, from a directory
on, and whether nothing was in the way. Directories that were made before stay. -/
def makeFrom (tree : FileTree) (position : List String) : List String → FileTree × Bool
  | [] => (tree, true)
  | name :: names =>
    let next := Path.follow position name
    match tree.entryAt? next with
    -- What is there already stays as it is.
    | some (.directory _) => tree.makeFrom next names
    | some (.file _) => (tree, false)
    | none =>
      if Path.isName name then (tree.insert next (.directory [])).makeFrom next names
      else (tree, false)

/-- The tree after all directories of a path have been made, and whether the path leads to a
directory now. A directory is not made under a name that stays. -/
def makeDirectories (tree : FileTree) (path : String) : FileTree × Bool :=
  let names := Path.names path
  if !Path.isUsable path then
    (tree, false)
  else if Path.endsWithDot names && !tree.isDirectory path then
    -- The directories around the last one are made before it turns out that it cannot be.
    match tree.makeFrom (tree.start path) (Path.trimIdle names).dropLast with
    | (tree, made) => (tree, made && tree.isDirectory path)
  else
    tree.makeFrom (tree.start path) names

/-- What is at a position where something was put. -/
theorem entryAt?_insert (tree : FileTree) {position : List String} (node : FileNode)
    (h : position ≠ []) : (tree.insert position node).entryAt? position = some node := by
  obtain ⟨name, way, rfl⟩ := List.exists_cons_of_ne_nil h
  exact FileNode.along?_put node tree.root (name :: way)

/-- Directories stay where nothing but a file is replaced. -/
theorem isDirectoryAt_insert (tree : FileTree) {position other : List String} (node : FileNode)
    (h : tree.isDirectoryAt position = false) (hother : tree.isDirectoryAt other = true) :
    (tree.insert position node).isDirectoryAt other = true := by
  cases position with
  | nil => simp at h
  | cons name way =>
    exact FileNode.isDirectory_along?_put node tree.root (name :: way) other h hother

/-- A file that replaces no directory is in nobody's way. -/
theorem followAll_insert (tree : FileTree) {position : List String} (node : FileNode)
    (h : tree.isDirectoryAt position = false) (names start target : List String)
    (hfollow : tree.followAll start names = some target) :
    (tree.insert position node).followAll start names = some target := by
  induction names generalizing start with
  | nil => exact hfollow
  | cons name names ih =>
    simp only [followAll] at hfollow ⊢
    split at hfollow
    next hdir =>
      rw [if_pos (isDirectoryAt_insert tree node h hdir)]
      exact ih _ hfollow
    next => simp at hfollow

/-- A file that replaces no directory changes no way. -/
theorem locate_insert (tree : FileTree) {position target : List String} (node : FileNode)
    (h : tree.isDirectoryAt position = false) {path : String}
    (hlocate : tree.locate path = some target) :
    (tree.insert position node).locate path = some target := by
  unfold locate at hlocate ⊢
  split at hlocate
  · simp at hlocate
  next hpath =>
    rw [if_neg hpath]
    exact followAll_insert tree node h _ _ _ hlocate

/-- What was written is read back. -/
theorem read?_write {tree after : FileTree} {path : String} {content : ByteArray}
    (h : tree.write path content = some after) : after.read? path = some content := by
  simp only [write, Option.bind_eq_bind, Option.bind_eq_some_iff] at h
  obtain ⟨position, hlocate, h⟩ := h
  split at h
  · simp at h
  next hdir =>
    simp only [Bool.not_eq_true] at hdir
    obtain rfl : tree.insert position (.file content) = after := by simpa using h
    have hne : position ≠ [] := by
      rintro rfl
      simp at hdir
    simp [read?, node?, locate_insert tree _ hdir hlocate, entryAt?_insert tree _ hne,
      FileNode.content?]

/-- The tree without entries but the directory that relative paths start from. -/
def ofCurrent (current : List String) : FileTree :=
  (FileTree.makeFrom { entries := [], current } [] current).1

end FileTree

end SentenceSearch
