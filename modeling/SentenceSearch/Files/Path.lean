/-!
# Paths

A path is a text of names with slashes between them. It is followed name by name: `.` and the empty
name stay, `..` goes up. A position is a list of names from the root, none of which is special.

## Main definitions

* `Path.names`, `Path.join` — the names of a path, and the path of an entry of a directory
* `Path.follow` — where a name leads from a position
* `Path.isUsable` — whether a path may lead anywhere
* `Path.dropFront` — a path without a text in front
-/

namespace SentenceSearch.Path

/-- The character between the names of a path. -/
def separator : Char := '/'

/-- The names of a path, empty ones included. -/
def names (path : String) : List String := (path.toList.splitOn separator).map String.ofList

/-- The last name of a path. -/
def lastName (path : String) : String := (names path).getLastD ""

/-- Whether a path starts at the root. -/
def isAbsolute (path : String) : Bool := path.toList.head? == some separator

/-- The path of an entry of a directory. -/
def join (directory name : String) : String :=
  if directory == "" || directory.toList.getLast? == some separator then directory ++ name
  else directory ++ "/" ++ name

/-- Where a path leads that starts at a directory, unless it starts at the root. -/
def resolve (directory path : String) : String :=
  if isAbsolute path then path else join directory path

/-- Whether a name leads nowhere else. -/
def isIdle (name : String) : Bool := name == "" || name == "."

/-- Names without those at the end that lead nowhere else. -/
def trimIdle (names : List String) : List String := (names.reverse.dropWhile isIdle).reverse

/-- Whether the last name that is not empty is a dot. -/
def endsWithDot (names : List String) : Bool :=
  (names.reverse.dropWhile (· == "")).head? == some "."

/-- Where a name leads from a position. -/
def follow (position : List String) (name : String) : List String :=
  if isIdle name then position
  else if name == ".." then position.dropLast
  else position ++ [name]

/-- The path of a position. -/
def ofPosition (position : List String) : String := position.foldl join "/"

/-! ### Limits -/

/-- The number of bytes that no path may reach. -/
def sizeLimit : Nat := 4096

/-- The largest number of bytes of a name. -/
def nameLimit : Nat := 255

/-- Whether a path may lead anywhere. -/
def isUsable (path : String) : Bool :=
  decide (path.utf8ByteSize < sizeLimit) && !path.toList.contains '\x00'

/-- Whether there may be an entry of a name. -/
def isName (name : String) : Bool := decide (name.utf8ByteSize ≤ nameLimit)

/-! ### Spelling -/

/-- A path without a text in front, as far as it starts with that text. -/
def dropFront (front path : String) : String :=
  match front.toList.isPrefixOf? path.toList with
  | some rest => String.ofList rest
  | none => path

/-- A path without one mark of the current directory in front. -/
def dropHere (path : String) : String := dropFront "./" path

/-- Whether a path is one name, followed by names that lead nowhere else. -/
def isOnly (name path : String) : Bool :=
  match names path with
  | first :: rest => first == name && rest.all isIdle
  | [] => false

/-- Whether a path spells the current directory by nothing but dots. -/
def isHere (path : String) : Bool := isOnly "." path

end SentenceSearch.Path
