import SentenceSearch.Automaton.Dot
import SentenceSearch.Automaton.Run
import SentenceSearch.CommandLine.Command
import SentenceSearch.Hits
import SentenceSearch.Query
import SentenceSearch.Settings
import SentenceSearch.SuffixTree.Dot
import SentenceSearch.SuffixTree.Stats
import SentenceSearch.Tabular.PageCache
import SentenceSearch.Tabular.Storage

/-!
# Carrying out commands

A command line is a task with files that ends with a text to print. A corpus that is the directory
of a stored tree is searched there; it has no texts of sentences.

## Main definitions

* `CommandLine.runCommand` — what a command prints
* `CommandLine.run` — what a command line prints and the code that it ends with
-/

namespace SentenceSearch.CommandLine

/-! ### Settings -/

/-- The directory for the data of applications: the one that is set, if its path starts at the
root, or else one below the home directory. -/
def dataHome? (set home : Option String) : Option String :=
  match set.filter Path.isAbsolute with
  | some directory => some directory
  | none => home.map fun home => Path.join (Path.join home ".local") "share"

/-- The directory for the data of this application. -/
def dataDirectory (dataHome : String) : String := Path.join dataHome "kansearch"

/-- The file of the settings. -/
def settingsPath (dataHome : String) : String := Path.join (dataDirectory dataHome) "config.json"

/-! ### Searches -/

/-- What is searched for. -/
inductive Wanted where
  /-- Sentences that contain the keys of a query. -/
  | keys (keys : List (List Char))
  /-- Sentences with a match of a pattern. -/
  | pattern (text : List Char)

/-- The keys that are marked in the hits. -/
def Wanted.marked : Wanted → List (List Char)
  | .keys given => given
  | .pattern _ => []

/-- The result of a step that only fails at a pattern. -/
def orInvalidPattern {α : Type} : Except PatternError α → Except Failure α
  | .ok a => .ok a
  | .error _ => .error .invalidPattern

/-- The hits in a stored tree, without texts. The tree is read through a page cache. -/
def searchStored (tree : TabularTree SentenceId) (pages : Nat) (limits : SearchLimits)
    (wanted : Wanted) : Except Failure (List Hit) := do
  let source : TreeSource Id SentenceId := tree.source
  let search ←
    match wanted with
    | .keys keys => pure (source.cached.findKeys tree.table limits keys)
    | .pattern text => do
      let automaton ← orInvalidPattern (compilePattern tree.table text)
      pure (source.cached.findMatching automaton limits)
  let (outcome, _) := search.run (.ofCapacity pages)
  pure (outcome.results.toList.map fun id => ⟨id, ""⟩)

/-- The hits in an index. -/
def searchIndex (index : Index) (limits : SearchLimits) (wanted : Wanted) :
    Except Failure (List Hit) := do
  let outcome ←
    match wanted with
    | .keys keys =>
      if keys.isEmpty then throw .noKeys else pure (index.findKeys limits keys)
    | .pattern text => orInvalidPattern (index.findMatching limits text)
  pure (index.resolve outcome.results.toList)

/-- The index of a corpus. -/
def openIndex (files : FileTree) (settings : Settings) (corpus : String) :
    Except Failure Index :=
  Index.load files corpus settings.corpusGlob settings.effectiveBuckets

/-- The hits in a corpus or in a stored tree. -/
def search (files : FileTree) (settings : Settings) (corpus : String) (limits : SearchLimits)
    (wanted : Wanted) : Except Failure (List Hit) :=
  -- The symbol table tells a stored tree from a directory of texts.
  if files.isFile (Path.join corpus tableName) then do
    searchStored (← TabularTree.load files corpus) settings.pageCapacity limits wanted
  else do
    searchIndex (← openIndex files settings corpus) limits wanted

/-! ### Texts to print -/

/-- A JSON value as it is printed. -/
def printedJson (json : Json) : String := json.pretty ++ "\n"

/-- Hits as they are printed. -/
def printedHits (invocation : Invocation) (hits : List Hit) (keys : List (List Char)) : String :=
  if invocation.json then printedJson (hitsJson hits)
  else renderHits invocation.color hits keys

/-- The buckets of a table, one a line. -/
def printedBuckets (table : SymbolTable) : String :=
  String.join (table.buckets.map fun (bucket, symbols) =>
    s!"{TreeStats.paddedBucket bucket} {String.ofList symbols}\n")

/-- The table for a command without a corpus. -/
def tableFor (texts : List String) : SymbolTable :=
  Bucketing.default.tableOfTexts (texts.map String.toList)

/-- Which texts a pattern accepts, one a line. -/
def printedVerdicts (pattern : String) (texts : List String) : Except Failure String := do
  -- With the pattern in the table every character has a bucket.
  let table := tableFor (texts ++ [pattern])
  let automaton ← orInvalidPattern (compilePattern table pattern.toList)
  let verdict (text : String) := if automaton.accepts text.toList then "match" else "no match"
  pure (String.join (texts.map fun text => s!"{verdict text}\t{text}\n"))

/-! ### Commands -/

/-- What a command prints. The clock tells whether the deadline of a search has passed. -/
def runCommand (clock : Nat → Bool) (dataHome : String) (invocation : Invocation)
    (settings : Settings) : FileTask String :=
  match invocation.command with
  | .buckets corpus => FileTask.reading fun files => do
    let loaded ← Corpus.load files corpus settings.corpusGlob
    match Bucketing.ofCount settings.effectiveBuckets with
    | .error _ => throw .invalidBucketCount
    | .ok bucketing =>
      let table := bucketing.tableOfTexts loaded.textList
      pure (if invocation.json then printedJson table.toJson else printedBuckets table)
  | .find corpus query max timeout => FileTask.reading fun files => do
    let wanted := Wanted.keys (Query.keys query.toList)
    let hits ← search files settings corpus (settings.limits clock max timeout) wanted
    pure (printedHits invocation hits wanted.marked)
  -- The number of results that is set is for queries with keys only.
  | .matching corpus pattern max timeout => FileTask.reading fun files => do
    let wanted := Wanted.pattern pattern.toList
    let limits := settings.limits clock (some (max.getD 0)) timeout
    let hits ← search files settings corpus limits wanted
    pure (printedHits invocation hits wanted.marked)
  | .check pattern texts => FileTask.reading fun _ => printedVerdicts pattern texts
  | .drawTree corpus => FileTask.reading fun files => do
    pure (← openIndex files settings corpus).tree.dot
  | .drawPattern pattern => FileTask.reading fun _ => do
    pure (← orInvalidPattern (compilePattern (tableFor [pattern]) pattern.toList)).dot
  | .store corpus directory => do
    let index ← FileTask.reading fun files => openIndex files settings corpus
    index.tree.rows.save index.table directory
    pure s!"Exported to {directory}\n"
  | .stats corpus => FileTask.reading fun files => do
    let index ← openIndex files settings corpus
    let stats := TreeStats.ofTree index.tree index.table
    pure (if invocation.json then printedJson stats.toJson else stats.report)
  | .config write => do
    let path := settingsPath dataHome
    let effective :=
      if write then { settings with bucketCount := settings.effectiveBuckets } else settings
    if write then effective.save path
    if invocation.json then pure (printedJson (JsonForm.toJson effective))
    else pure s!"Config file: {path}\n{effective.text}\n"

/-- The settings for an invocation. The directory of their file is made where it is missing. -/
def loadSettings (dataHome : Option String) (invocation : Invocation) :
    FileTask (String × Settings) := do
  let some dataHome := dataHome | throw .noDataDirectory
  FileTask.makeDirectories (dataDirectory dataHome)
  let settings ← FileTask.reading fun files => Settings.load files (settingsPath dataHome)
  let bucketCount := invocation.buckets.getD settings.bucketCount
  pure (dataHome, { settings with bucketCount })

/-- How a command line ends. -/
structure Ending where
  /-- Zero for success, one for a failure, two for a misuse. -/
  code : Nat
  /-- What is printed. -/
  output : String
  /-- Why it failed, if it did. -/
  failure : Option Failure
  deriving DecidableEq, Repr

/-- The line that reports a failure. -/
def failureLine (failure : Failure) : String := "Error: " ++ failure.message

/-- Carry out a command line. -/
def run (clock : Nat → Bool) (dataHome : Option String) (words : List String)
    (files : FileTree) : Ending × FileTree :=
  match Invocation.read words with
  | .error .help => (⟨0, "", none⟩, files)
  | .error .misuse => (⟨2, "", none⟩, files)
  | .ok invocation =>
    let task : FileTask String := do
      let (dataHome, settings) ← loadSettings dataHome invocation
      runCommand clock dataHome invocation settings
    match task.runOn files with
    | (.ok output, files) => (⟨0, output, none⟩, files)
    | (.error failure, files) => (⟨1, "", some failure⟩, files)

end SentenceSearch.CommandLine
