import SentenceSearch.Files.Glob.Depth
import SentenceSearch.Files.Glob.Matching
import SentenceSearch.Files.Path
import SentenceSearch.Text.Blank
import SentenceSearch.Text.Lines

/-!
# Ignore rules

A file of ignore rules holds one rule a line. A rule is a glob for the paths of entries, as they are
seen from the directory that the rules are for. Of the rules that apply to an entry the last one
counts: it hides the entry, or shows it when the line starts with an exclamation mark.

## Main definitions

* `IgnoreRule.read?` — the rule that a line spells
* `IgnoreRule.readAll` — the rules of a file
* `RuleSet` — the rules for a directory
* `RuleSet.verdict?` — what they say about an entry
-/

namespace SentenceSearch

/-- A rule that hides or shows entries. -/
structure IgnoreRule where
  /-- The paths of the entries. -/
  glob : Glob
  /-- Whether entries are shown. -/
  shows : Bool
  /-- Whether only directories are meant. -/
  onlyDirectories : Bool

/-- What rules say about an entry. -/
inductive Verdict where
  | hidden
  | shown
  deriving DecidableEq, Repr

namespace IgnoreRule

/-- Whether a text ends with another. -/
def endsWith (text ending : List Char) : Bool := ending.reverse.isPrefixOf text.reverse

/-- A line without the blanks at its end, unless the last of them is escaped. -/
def trimLine (line : List Char) : List Char :=
  if endsWith line ['\\', ' '] then line else Text.trimEnd line

/-- A line without the mark in front that makes a rule show entries, and whether it was there. An
escaped mark, or an escaped sign of a comment, stands for itself. -/
def splitMark : List Char → Bool × List Char
  | '\\' :: '!' :: rest => (false, '!' :: rest)
  | '\\' :: '#' :: rest => (false, '#' :: rest)
  | '!' :: rest => (true, rest)
  | line => (false, line)

/-- A line without a slash in front, and whether it was there. -/
def splitAnchor : List Char → Bool × List Char
  | '/' :: rest => (true, rest)
  | line => (false, line)

/-- A line without a slash at its end, and whether it was there. The backslash of an escaped slash
goes too. -/
def splitDirectoryMark (line : List Char) : Bool × List Char :=
  match line.reverse with
  | '/' :: '\\' :: rest => (true, rest.reverse)
  | '/' :: rest => (true, rest.reverse)
  | _ => (false, line)

/-- The glob of a rule. Without a slash, it is meant for the names at any depth. Two stars at the
end stand for what is inside a directory, not for the directory. -/
def globText (anchored : Bool) (line : List Char) : List Char :=
  -- A slash inside, or one in front, ties a rule to the directory of its file.
  let anywhere :=
    !anchored && !line.contains '/' && line != ['*', '*']
  let line := if anywhere then '*' :: '*' :: '/' :: line else line
  if endsWith line ['/', '*', '*'] then line ++ ['/', '*'] else line

/-- The rule that a line spells. Blank lines, comments and lines that are no glob spell none. -/
def read? (line : List Char) : Option IgnoreRule :=
  if line.head? == some '#' then
    none
  else
    let line := trimLine line
    if line.isEmpty then
      none
    else
      let (shows, line) := splitMark line
      let (anchored, line) := splitAnchor line
      let (onlyDirectories, line) := splitDirectoryMark line
      (Glob.read? (globText anchored line) true).map fun glob => ⟨glob, shows, onlyDirectories⟩

/-- The byte order mark that may start a file. -/
def byteOrderMark : Char := '\ufeff'

/-- The rules of some lines, up to the first line that is no text. -/
def ofLines : List (Option (List Char)) → List IgnoreRule
  | some line :: lines => (read? line).toList ++ ofLines lines
  | _ => []

/-- The rules of a file. A file with a glob that nests too deep has no rules at all. -/
def readAll (content : ByteArray) : List IgnoreRule :=
  let rules :=
    match (Text.lines content).map Text.decode? with
    -- Only the first line may start with a byte order mark.
    | some line :: lines => ofLines (some (line.dropWhile (· == byteOrderMark)) :: lines)
    | _ => []
  if rules.any (·.glob.isTooDeep) then [] else rules

/-- Whether a rule applies to an entry, which is given by the bytes of its path. -/
def appliesTo (rule : IgnoreRule) (path : List UInt8) (isDirectory : Bool) : Bool :=
  (!rule.onlyDirectories || isDirectory) && Glob.accepts rule.glob path true

end IgnoreRule

/-- The rules for a directory. -/
structure RuleSet where
  /-- The path of the directory. -/
  directory : String
  /-- The rules in order. -/
  rules : List IgnoreRule

namespace RuleSet

/-- The rules of a file, if there is one, for a directory. -/
def ofFile (directory : String) (content : Option ByteArray) : RuleSet :=
  ⟨Path.dropHere directory, (content.map IgnoreRule.readAll).getD []⟩

/-- The path of an entry as it is seen from a directory. Paths are compared as texts, so that a
path that spells its directory in another way keeps the names of the directory. -/
def pathFrom (directory path : String) : String :=
  let path := Path.dropHere path
  if Path.isHere directory || !path.toList.contains Path.separator then
    path
  else
    match directory.toList.isPrefixOf? path.toList with
    | some rest => Path.dropFront "/" (String.ofList rest)
    | none => path

/-- What the rules say about an entry, if any of them applies to it. -/
def verdict? (set : RuleSet) (path : String) (isDirectory : Bool) : Option Verdict :=
  if set.rules.isEmpty then
    none
  else
    let bytes := (Text.encode (pathFrom set.directory path)).data.toList
    -- Later rules go before earlier ones.
    (set.rules.reverse.find? fun rule => rule.appliesTo bytes isDirectory).map fun rule =>
      if rule.shows then .shown else .hidden

end RuleSet

end SentenceSearch
