import SentenceSearch.Corpus.Basic
import SentenceSearch.Failure
import SentenceSearch.Files.Walk

/-!
# Loading a corpus

A corpus is loaded from one file, or from all files below a directory whose names match a glob. The
files are read in the order of their paths, name by name.

## Main definitions

* `Corpus.filePaths` — the files that a path and a glob stand for
* `Corpus.load` — the corpus in these files
-/

namespace SentenceSearch.Corpus

/-- The files below a directory whose names match a glob. -/
def matchingPaths (tree : FileTree) (path : String) (glob : Glob) : List String :=
  (tree.visibleFiles path).filter fun file =>
    glob.accepts (Text.encode (Path.lastName file)).data.toList

/-- The files that a path and a glob stand for. The glob does not matter for a single file. -/
def filePaths (tree : FileTree) (path glob : String) : Except Failure (List String) :=
  if tree.isFile path then
    .ok [path]
  else if !tree.isDirectory path then
    .error (.noCorpusPath path)
  else
    match Glob.read? glob.toList with
    | none => .error (.invalidGlob glob)
    | some pattern =>
      -- A directory without any such file is taken for a mistake.
      match matchingPaths tree path pattern with
      | [] => .error (.noCorpusFiles glob path)
      | paths => .ok paths

/-- Add the records of a file. -/
def addFile (tree : FileTree) (corpus : Corpus) (path : String) : Except Failure Corpus :=
  match tree.read? path with
  | none => .error (.notOpened path)
  | some content =>
    match corpus.addLines content with
    | (corpus, true) => .ok corpus
    | (_, false) => .error (.notRead path)

/-- The corpus in the files that a path and a glob stand for. -/
def load (tree : FileTree) (path glob : String) : Except Failure Corpus := do
  (← filePaths tree path glob).foldlM (addFile tree) empty

end SentenceSearch.Corpus
