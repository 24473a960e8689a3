/-!
# Globs

A glob is a pattern for names of files. A question mark stands for any byte and a star for any
bytes, brackets stand for one byte of a class, and braces enclose alternatives. Two stars between
slashes stand for any directories.

## Main definitions

* `GlobToken`, `Glob` — the parts of a glob
* `Glob.read?` — the glob that a text spells
-/

namespace SentenceSearch

/-- A range of bytes, both ends included. -/
structure ByteRange where
  first : UInt8
  last : UInt8
  deriving DecidableEq, Repr

/-- A part of a glob. -/
inductive GlobToken where
  /-- A character that stands for itself. -/
  | literal (c : Char)
  /-- Any byte. -/
  | anyByte
  /-- Any bytes. -/
  | anyBytes
  /-- Any directories in front of a name. -/
  | directoriesBefore
  /-- Anything inside a directory. -/
  | everythingInside
  /-- Any directories between two names. -/
  | directoriesBetween
  /-- One byte in, or in none of, some ranges. -/
  | byteClass (negated : Bool) (ranges : List ByteRange)
  /-- One of some alternatives. Without any, nothing is matched and nothing is needed. -/
  | alternatives (branches : List (List GlobToken))

/-- A glob. -/
abbrev Glob := List GlobToken

namespace GlobToken

/-- The bytes of a character. -/
def bytesOf (c : Char) : List UInt8 := String.utf8EncodeChar c

/-- The ranges that bytes stand for one by one. -/
def singles (bytes : List UInt8) : List ByteRange := bytes.map fun b => ⟨b, b⟩

/-- The ranges of bytes for a range of characters. Beyond ASCII only the bytes that meet in the
middle form a range. -/
def byteRanges (lo hi : Char) : List ByteRange :=
  if lo = hi then
    singles (bytesOf lo)
  else
    let before := bytesOf lo
    let after := bytesOf hi
    singles before.dropLast ++ [⟨before.getLastD 0, after.headD 0⟩] ++ singles after.tail

/-- Whether a byte is in one of some ranges. -/
def inRanges (ranges : List ByteRange) (b : UInt8) : Bool :=
  ranges.any fun range => range.first ≤ b && b ≤ range.last

/-- Whether a token needs nothing and stands for nothing. -/
def isVoid : GlobToken → Bool
  | .alternatives [] => true
  | _ => false

end GlobToken

namespace Glob

open GlobToken

/-- The ranges of a class after `last`, where a hyphen may have opened a range. A range that would
run backwards is refused. A hyphen opens a range that starts where the last one started. -/
def classRanges (done : List (Char × Char)) (last : Char × Char) (opened : Bool) :
    List Char → Option (List (Char × Char))
  | [] => some ((if opened then [('-', '-')] else []).append (last :: done)).reverse
  | c :: text =>
    -- The hyphen before this character turns the last one into the start of a range.
    if opened then
      if c < last.1 then none else classRanges done (last.1, c) false text
    else if c = '-' then
      classRanges done last true text
    else
      classRanges (last :: done) (c, c) false text

/-- The parts of a class after its opening bracket: whether it is negated, its content, and the
text from the closing bracket on. The first character is content whatever it is. -/
def splitClass (text : List Char) : Bool × List Char × List Char :=
  let (negated, text) :=
    match text with
    | '!' :: rest => (true, rest)
    | '^' :: rest => (true, rest)
    | _ => (false, text)
  match text with
  | [] => (negated, [], [])
  | c :: rest => (negated, c :: rest.takeWhile (· ≠ ']'), rest.dropWhile (· ≠ ']'))

/-- What an opening bracket turns out to be. -/
inductive ClassReading where
  /-- A class and the text after it. -/
  | closed (token : GlobToken) (rest : List Char)
  /-- A bracket without an end. -/
  | unclosed
  /-- A class with a range that runs backwards. -/
  | invalid

/-- Read a class after its opening bracket. -/
def readClass (text : List Char) : ClassReading :=
  match splitClass text with
  | (_, [], _) => .unclosed
  | (negated, c :: content, rest) =>
    match classRanges [] (c, c) false content with
    | none => .invalid
    | some ranges =>
      match rest with
      | [] => .unclosed
      | _ :: rest => .closed (.byteClass negated (ranges.flatMap fun r => byteRanges r.1 r.2)) rest

/-- An open brace. -/
structure OpenBrace where
  /-- What was read before the brace, its last token first. -/
  before : Glob
  /-- The alternatives that have been read, the last one first. -/
  branches : List Glob

/-- What has been read of a glob. -/
structure Reading where
  /-- The alternative that is being read, or the glob itself, its last token first. -/
  branch : Glob
  /-- The open braces, the innermost one first. -/
  braces : List OpenBrace
  /-- The character in front. -/
  previous : Option Char

namespace Reading

/-- Before the first character. -/
def start : Reading := ⟨[], [], none⟩

/-- Go on after a character. -/
def after (reading : Reading) (c : Char) : Reading := { reading with previous := some c }

/-- Add a token to the alternative that is being read. -/
def add (reading : Reading) (token : GlobToken) : Reading :=
  { reading with branch := token :: reading.branch }

/-- Add a token in place of the last one. -/
def replaceLast (reading : Reading) (token : GlobToken) : Reading :=
  { reading with branch := token :: reading.branch.tail }

/-- The last token of the alternative that is being read. -/
def last? (reading : Reading) : Option GlobToken := reading.branch.head?

/-- Whether an alternative in braces is being read. -/
def isInside (reading : Reading) : Bool := !reading.braces.isEmpty

/-- Open a brace. -/
def openBrace (reading : Reading) : Reading :=
  { reading with branch := [], braces := ⟨reading.branch, []⟩ :: reading.braces }

/-- Start the next alternative. -/
def nextBranch (reading : Reading) : Reading :=
  match reading.braces with
  | brace :: braces =>
    let brace := { brace with branches := reading.branch.reverse :: brace.branches }
    { reading with branch := [], braces := brace :: braces }
  | [] => reading

/-- Close a brace, if one is open. Alternatives that stand for nothing are dropped. -/
def closeBrace (reading : Reading) : Option Reading :=
  match reading.braces with
  | [] => none
  | brace :: braces =>
    let branches := (reading.branch.reverse :: brace.branches).reverse
    let kept := branches.filter fun branch => !branch.all isVoid
    some { reading with branch := .alternatives kept :: brace.before, braces }

/-- The glob, unless a brace is still open. -/
def finish (reading : Reading) : Option Glob :=
  if reading.isInside then none else some reading.branch.reverse

/-- Two stars that stand for any bytes. -/
def addStars (reading : Reading) : Reading := (reading.add .anyBytes).add .anyBytes

/-- Two stars that stand for directories, after a slash or at the start of an alternative. -/
def addDirectories (reading : Reading) (token : GlobToken) : Reading :=
  match reading.last? with
  | some .directoriesBefore => reading
  | some .everythingInside => reading
  | _ => reading.replaceLast token

/-- Two stars before `next`. Also tells whether `next` is a slash that belongs to them. -/
def addDoubleStar (reading : Reading) (next : Option Char) : Reading × Bool :=
  let atStart := reading.last?.isNone
  let afterBreak :=
    reading.previous == some '/' ||
      reading.isInside && (reading.previous == some ',' || reading.previous == some '\x7b')
  let endsBranch :=
    next == none || reading.isInside && (next == some ',' || next == some '\x7d')
  -- Nothing in front: alone, or before a slash, the stars stand for directories.
  if atStart then
    if next == none then (reading.add .directoriesBefore, false)
    else if next == some '/' then (reading.add .directoriesBefore, true)
    else (reading.addStars, false)
  else if !afterBreak then
    (reading.addStars, false)
  -- After a slash and with nothing behind, everything inside the directory is meant.
  else if endsBranch then
    (reading.addDirectories .everythingInside, false)
  -- Between two slashes any number of directories may stand, or none.
  else if next == some '/' then
    (reading.addDirectories .directoriesBetween, true)
  else
    (reading.addStars, false)

end Reading

/-- Read the rest of a glob. With `lenient`, a bracket without an end stands for itself, and so do
all brackets after it. The fuel bounds the number of steps, each of which takes a character. -/
def readFrom : Nat → Bool → Bool → Reading → List Char → Option Reading
  | 0, _, _, _, _ => none
  | _ + 1, _, _, reading, [] => some reading
  | fuel + 1, lenient, literalBrackets, reading, c :: text =>
    let go := readFrom fuel lenient literalBrackets
    let onward := (reading.after c)
    match c with
    | '?' => go (onward.add .anyByte) text
    | '*' =>
      match text with
      | '*' :: rest =>
        match reading.addDoubleStar rest.head? with
        | (next, true) => go (next.after '/') rest.tail
        | (next, false) => go (next.after '*') rest
      | _ => go (onward.add .anyBytes) text
    | '[' =>
      if literalBrackets then
        go (onward.add (.literal '[')) text
      else
        match readClass text with
        | .closed token rest => go ((reading.after ']').add token) rest
        | .unclosed =>
          -- No later bracket can have an end either.
          if lenient then readFrom fuel lenient true (onward.add (.literal '[')) text else none
        | .invalid => none
    | '\x7b' => go onward.openBrace text
    | '\x7d' => (onward.closeBrace).bind fun next => go next text
    | ',' =>
      if reading.isInside then go onward.nextBranch text else go (onward.add (.literal ',')) text
    | '\\' =>
      match text with
      | [] => none
      | escaped :: rest => go ((reading.after escaped).add (.literal escaped)) rest
    | _ => go (onward.add (.literal c)) text

/-- The glob that a text spells. With `lenient`, a bracket without an end stands for itself;
otherwise such a text is refused. -/
def read? (text : List Char) (lenient : Bool := false) : Option Glob :=
  (readFrom (text.length + 1) lenient false .start text).bind Reading.finish

end Glob

end SentenceSearch
