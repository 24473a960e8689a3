import SentenceSearch.Failure
import SentenceSearch.Files.Tree

/-!
# Tasks with files

A task reads and changes a file tree and may fail. What it changed before it failed stays changed.

## Main definitions

* `FileTask` — a task with a result
* `FileTask.write`, `FileTask.makeDirectories`, `FileTask.reading` — the single steps
-/

namespace SentenceSearch

/-- A task with files that has a result or fails. -/
abbrev FileTask (α : Type) : Type := ExceptT Failure (StateM FileTree) α

namespace FileTask

variable {α : Type}

/-- What a task does to a tree. -/
def runOn (task : FileTask α) (tree : FileTree) : Except Failure α × FileTree :=
  (ExceptT.run task).run tree

/-- Change the tree, or fail where that is impossible. -/
def change (failure : Failure) (f : FileTree → Option FileTree) : FileTask Unit := do
  match f (← get) with
  | some tree => set tree
  | none => throw failure

/-- Write a file. -/
def write (path : String) (content : ByteArray) : FileTask Unit :=
  change (.notCreated path) (·.write path content)

/-- Make all directories of a path. Those that were made before a failure stay. -/
def makeDirectories (path : String) : FileTask Unit := do
  let (tree, made) := (← get).makeDirectories path
  set tree
  if !made then throw (.notCreated path)

/-- Look at the tree without changing it. -/
def reading (f : FileTree → Except Failure α) : FileTask α := do liftExcept (f (← get))
where
  /-- A result or a failure as a task. -/
  liftExcept : Except Failure α → FileTask α
    | .ok a => pure a
    | .error failure => throw failure

end FileTask

end SentenceSearch
