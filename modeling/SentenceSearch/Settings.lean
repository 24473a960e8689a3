import SentenceSearch.Files.Task
import SentenceSearch.Json.Codec
import SentenceSearch.Search.Source
import SentenceSearch.Tabular.PageCache
import SentenceSearch.Text.Lines

/-!
# Settings

The settings of the command line are kept in a file. Where the file or a part of it is missing,
there are defaults.

## Main definitions

* `Settings` — the settings
* `Settings.load`, `Settings.save` — read and write the file
* `Settings.limits` — the limits of a search
-/

namespace SentenceSearch

/-- The settings of the command line. -/
structure Settings where
  /-- The number of buckets for the alphabet. -/
  bucketCount : Nat
  /-- The number of results of a wildcard query, or zero for all. -/
  maxResults : Nat
  /-- The glob for the names of corpus files. -/
  corpusGlob : String
  /-- The time for a search in milliseconds, or zero for any time. -/
  timeoutMillis : Nat
  /-- The number of pages that are kept when a stored tree is searched. -/
  pageCapacity : Nat
  deriving DecidableEq, Repr

namespace Settings

/-- The settings where nothing is set. -/
def default : Settings where
  bucketCount := Mask.width
  maxResults := 40
  corpusGlob := "*.jsonl"
  timeoutMillis := 0
  pageCapacity := PageCache.defaultCapacity

instance : Inhabited Settings := ⟨default⟩

/-- Numbers of settings are words of 64 bits. -/
def numberBound : Nat := 0x10000000000000000

/-- The fields of the JSON form. -/
def fieldNames : List String :=
  ["bucket_count", "max_results", "corpus_glob", "search_timeout_ms", "page_cache_capacity"]

/-- A number that a tree stands for, or the default one without a tree. -/
def numberOr (number : Nat) (tree : Option JsonTree) : Option Nat :=
  tree.elim (some number) (JsonTree.nat? numberBound)

/-- The settings that a tree stands for. Every field may be missing. -/
def ofTree? (tree : JsonTree) : Option Settings :=
  match tree.fields? fieldNames with
  | some [buckets, results, glob, timeout, pages] => do
    pure
      { bucketCount := ← numberOr default.bucketCount buckets
        maxResults := ← numberOr default.maxResults results
        corpusGlob := ← glob.elim (some default.corpusGlob) JsonTree.string?
        timeoutMillis := ← numberOr default.timeoutMillis timeout
        pageCapacity := ← numberOr default.pageCapacity pages }
  | _ => none

instance : JsonForm Settings where
  toJson settings :=
    .object
      [("bucket_count", .nat settings.bucketCount),
        ("max_results", .nat settings.maxResults),
        ("corpus_glob", .string settings.corpusGlob),
        ("search_timeout_ms", .nat settings.timeoutMillis),
        ("page_cache_capacity", .nat settings.pageCapacity)]
  ofTree? := ofTree?

/-- The written form of settings. -/
def text (settings : Settings) : String := (JsonForm.toJson settings).pretty

/-- The settings in a file, or the default ones without a file. -/
def load (files : FileTree) (path : String) : Except Failure Settings :=
  match files.node? path with
  -- Nobody has to write settings before the first use.
  | none => .ok default
  | some (.directory _) => .error (.settingsNotRead path)
  | some (.file content) =>
    match Text.decode? content.data.toList with
    | none => .error (.settingsNotRead path)
    | some text =>
      match (JsonTree.read text).bind ofTree? with
      | none => .error (.invalidSettings path)
      | some settings => .ok settings

/-- Write settings into a file. -/
def save (settings : Settings) (path : String) : FileTask Unit :=
  FileTask.change .settingsNotWritten (·.write path (Text.encode settings.text))

/-- The number of buckets, at least one and no more than bits. -/
def effectiveBuckets (settings : Settings) : Nat := max 1 (min settings.bucketCount Mask.width)

/-- The time for a search, unless there is any. -/
def timeout? (settings : Settings) : Option Nat :=
  if settings.timeoutMillis = 0 then none else some settings.timeoutMillis

/-- The limits of a search. What a command asks for goes before what is set. The clock tells
whether the deadline has passed; without a time for the search nobody looks at it. -/
def limits (settings : Settings) (clock : Nat → Bool) (max timeout : Option Nat) :
    SearchLimits where
  maxResults := max.getD settings.maxResults
  deadline := if timeout.getD settings.timeoutMillis = 0 then none else some clock

end Settings

end SentenceSearch
