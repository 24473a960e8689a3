import SentenceSearch.Files.Ignore
import SentenceSearch.Files.Tree

/-!
# Personal ignore rules

A user may have ignore rules for all repositories. A configuration file may name the file of these
rules; otherwise it has a fixed name in the directory of configuration files.

## Main definitions

* `Personal.setting?` — the value that a configuration file sets
* `FileTree.personalPath?` — the file of the personal rules
* `FileTree.personalRules` — the personal rules
-/

namespace SentenceSearch

namespace Personal

/-- Whether a byte is white space. -/
def isSpace (b : UInt8) : Bool := (0x09 ≤ b && b ≤ 0x0D) || b == 0x20

/-- The quotation mark that may enclose a value. -/
def quote : UInt8 := 0x22

/-- A text without white space in front. -/
def skipSpace (text : List UInt8) : List UInt8 := text.dropWhile isSpace

/-- The lower-case form of a byte. -/
def lower (b : UInt8) : UInt8 := if 0x41 ≤ b && b ≤ 0x5A then b + 0x20 else b

/-- The name of the setting, in lower case. -/
def settingName : List UInt8 := (Text.encode "excludesfile").data.toList

/-- The text after the name of the setting and an equals sign. -/
def afterName? (text : List UInt8) : Option (List UInt8) :=
  let text := skipSpace text
  if (text.take settingName.length).map lower == settingName then
    match skipSpace (text.drop settingName.length) with
    | 0x3D :: rest => some (skipSpace rest)
    | _ => none
  else
    none

/-- Whether a line may end within the white space in front of a text. -/
def endsInSpace (text : List UInt8) : Bool :=
  (text.takeWhile isSpace).contains Text.lineFeed || (skipSpace text).isEmpty

/-- Whether nothing but white space and a quotation mark stands before the end of a line. -/
def endsLine (text : List UInt8) : Bool :=
  endsInSpace text ||
    match skipSpace text with
    | b :: rest => b == quote && endsInSpace rest
    | [] => false

/-- The shortest value without white space after which a line may end. -/
def value? (done : List UInt8) : List UInt8 → Option (List UInt8)
  | [] => none
  | b :: rest =>
    if isSpace b then none
    else if endsLine rest then some (b :: done).reverse
    else value? (b :: done) rest

/-- The value that a line sets. White space may stand between its parts, line ends included. -/
def lineSetting? (text : List UInt8) : Option (List UInt8) :=
  match afterName? text with
  | none => none
  | some rest =>
    -- A quotation mark belongs to the value only where there is none otherwise.
    match rest with
    | 0x22 :: quoted => value? [] (skipSpace quoted) <|> value? [] rest
    | _ => value? [] rest

/-- The first value that a line sets, where `atStart` tells whether a line starts here. -/
def settingFrom? (atStart : Bool) : List UInt8 → Option (List UInt8)
  | [] => none
  | b :: rest =>
    (if atStart then lineSetting? (b :: rest) else none) <|>
      settingFrom? (b == Text.lineFeed) rest

/-- The value that a configuration file sets. A value that is no text counts as none. -/
def setting? (content : ByteArray) : Option String :=
  (settingFrom? true content.data.toList).bind fun value =>
    (Text.decode? value).map String.ofList

/-- A path with the home directory in place of every tilde. -/
def expandHome (home : Option String) (path : String) : String :=
  match home with
  | none => path
  | some home =>
    String.ofList (path.toList.flatMap fun c => if c = '~' then home.toList else [c])

end Personal

namespace FileTree

/-- The directory of configuration files. -/
def configDirectory? (tree : FileTree) : Option String :=
  match tree.configHome.filter (· != "") with
  | some directory => some directory
  | none => tree.home.map (Path.join · ".config")

/-- The configuration files that may name a file of rules. The first of them that does counts. -/
def configPaths (tree : FileTree) : List String :=
  (tree.home.map (Path.join · ".gitconfig")).toList ++
    (tree.configDirectory?.map (Path.join · "git/config")).toList

/-- The file of the personal rules. -/
def personalPath? (tree : FileTree) : Option String :=
  let named := tree.configPaths.findSome? fun path =>
    ((tree.read? path).bind Personal.setting?).map (Personal.expandHome tree.home)
  named <|> tree.configDirectory?.map (Path.join · "git/ignore")

/-- The personal rules. They are for the current directory. -/
def personalRules (tree : FileTree) : RuleSet :=
  .ofFile (Path.ofPosition tree.current) (tree.personalPath?.bind tree.read?)

end FileTree

end SentenceSearch
