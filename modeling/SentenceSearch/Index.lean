import SentenceSearch.Corpus.Load
import SentenceSearch.Pattern.Compile
import SentenceSearch.Search.Keys
import SentenceSearch.Search.Matching
import SentenceSearch.SuffixTree.Insert
import SentenceSearch.SuffixTree.Source
import SentenceSearch.Symbol.Bucketing

/-!
# Indexes

An index is a corpus that is ready for searches: the alphabet is spread over buckets, all sentences
are in a suffix tree, and the tree is annotated.

## Main definitions

* `Index` — a corpus with its table and its tree
* `Index.ofCorpus`, `Index.load` — the index of a corpus
* `Index.findKeys`, `Index.findMatching` — searches
-/

namespace SentenceSearch

/-- A corpus that is ready for searches. -/
structure Index where
  /-- The masks of the characters. -/
  table : SymbolTable
  /-- The suffix tree of all sentences. -/
  tree : SuffixTree SentenceId
  /-- The sentences. -/
  corpus : Corpus

namespace Index

/-- The suffix tree of a corpus, not yet annotated. -/
def plantTree (table : SymbolTable) (corpus : Corpus) : SuffixTree SentenceId :=
  corpus.toList.foldl
    (fun tree entry => tree.add (Sentence.ofText table entry.2.toList) entry.1) .empty

/-- The index of a corpus with sentences, for a number of buckets between 1 and 32. -/
def ofCorpus (corpus : Corpus) (buckets : Nat) : Except Failure Index :=
  if corpus.isEmpty then
    .error .noSentences
  else
    match Bucketing.ofCount buckets with
    | .error _ => .error .invalidBucketCount
    | .ok bucketing =>
      let table := bucketing.tableOfTexts corpus.textList
      .ok ⟨table, (plantTree table corpus).annotate, corpus⟩

/-- The index of the corpus that a path and a glob stand for. -/
def load (files : FileTree) (path glob : String) (buckets : Nat) : Except Failure Index :=
  match Corpus.load files path glob with
  | .error cause => .error (.notLoaded path cause)
  | .ok corpus => ofCorpus corpus buckets

/-- The text of a sentence. -/
def lookup? (index : Index) (id : SentenceId) : Option String := index.corpus.get? id

/-- The automaton of a pattern. -/
def compile (index : Index) (pattern : List Char) : Except PatternError Automaton :=
  compilePattern index.table pattern

/-- The sentences that contain keys in order. -/
def findKeys (index : Index) (limits : SearchLimits) (keys : List (List Char)) :
    SearchOutcome SentenceId :=
  Id.run (index.tree.source.findKeys index.table limits keys)

/-- The sentences that contain a match of a pattern. -/
def findMatching (index : Index) (limits : SearchLimits) (pattern : List Char) :
    Except PatternError (SearchOutcome SentenceId) :=
  (index.compile pattern).map fun automaton =>
    Id.run (index.tree.source.findMatching automaton limits)

end Index

end SentenceSearch
