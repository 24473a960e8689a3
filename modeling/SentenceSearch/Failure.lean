/-!
# Failures

What may go wrong outside of a query: with files, with settings and with commands.

## Main definitions

* `Failure` — the causes
* `Failure.message` — the text of a failure
-/

namespace SentenceSearch

/-- Why something could not be done. -/
inductive Failure where
  /-- No file and no directory is where a corpus should be. -/
  | noCorpusPath (path : String)
  /-- The glob for the names of corpus files is none. -/
  | invalidGlob (glob : String)
  /-- No file below a directory has a name that the glob matches. -/
  | noCorpusFiles (glob path : String)
  /-- A corpus could not be loaded. -/
  | notLoaded (path : String) (cause : Failure)
  /-- A corpus has no sentences. -/
  | noSentences
  /-- There is no bucket, or there are more than bits. -/
  | invalidBucketCount
  /-- A pattern was refused. -/
  | invalidPattern
  /-- A query has no keys. -/
  | noKeys
  /-- There is no file. -/
  | notOpened (path : String)
  /-- A file is no text. -/
  | notRead (path : String)
  /-- A file or a directory could not be made. -/
  | notCreated (path : String)
  /-- A file is no symbol table. -/
  | invalidTable (path : String)
  /-- A line of a file is no row. -/
  | invalidRow (path : String) (line : Nat)
  /-- The file of the settings is no text. -/
  | settingsNotRead (path : String)
  /-- The file of the settings does not hold settings. -/
  | invalidSettings (path : String)
  /-- The file of the settings could not be written. -/
  | settingsNotWritten
  /-- There is no place for the settings. -/
  | noDataDirectory
  deriving DecidableEq, Repr

/-- The text of a failure. -/
def Failure.message : Failure → String
  | .noCorpusPath path => s!"Corpus path does not exist: {path}"
  | .invalidGlob glob => s!"Invalid corpus glob '{glob}'"
  | .noCorpusFiles glob path => s!"No corpus files matching '{glob}' under {path}"
  | .notLoaded path _ => s!"Failed to load {path}"
  | .noSentences => "Corpus has no sentences"
  | .invalidBucketCount => "Invalid bucket count"
  | .invalidPattern => "Invalid pattern"
  | .noKeys => "Query has no keys"
  | .notOpened path => s!"Failed to open {path}"
  | .notRead path => s!"Failed to read {path}"
  | .notCreated path => s!"Failed to create {path}"
  | .invalidTable path => s!"Invalid symbol table in {path}"
  | .invalidRow path line => s!"{path}:{line}: invalid row"
  | .settingsNotRead path => s!"Failed to read config file {path}"
  | .invalidSettings path => s!"Failed to parse config file {path}"
  | .settingsNotWritten => "Failed to write config file"
  | .noDataDirectory => "Could not determine app data directory"

end SentenceSearch
