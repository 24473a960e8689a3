/-!
# Lines of bytes

A file is cut into lines before it is read as text, so that a line that is no text does not harm
the lines before it. A line feed ends a line, together with a carriage return right before it. The
last line needs no line feed, but an empty rest is no line.

## Main definitions

* `Text.lines` — the lines of some bytes
* `Text.decode?`, `Text.encode` — between bytes and text in UTF-8
-/

namespace SentenceSearch.Text

/-- The byte that ends a line. -/
def lineFeed : UInt8 := 0x0A

/-- The byte that belongs to the end of a line when it stands right before a line feed. -/
def carriageReturn : UInt8 := 0x0D

/-- A line that was ended by a line feed, without a carriage return at its end. -/
def dropReturn (line : List UInt8) : List UInt8 :=
  if line.getLast? = some carriageReturn then line.dropLast else line

/-- The lines of some bytes. -/
def lines (bytes : ByteArray) : List (List UInt8) :=
  let pieces := bytes.data.toList.splitOn lineFeed
  -- The last piece was not ended by a line feed.
  let rest := pieces.getLastD []
  pieces.dropLast.map dropReturn ++ if rest.isEmpty then [] else [rest]

/-- The text that some bytes spell in UTF-8. -/
def decode? (bytes : List UInt8) : Option (List Char) :=
  (String.fromUTF8? ⟨bytes.toArray⟩).map String.toList

/-- The first line of some bytes, if there is one and it is a text. -/
def firstLine? (bytes : ByteArray) : Option String :=
  ((lines bytes).head?.bind decode?).map String.ofList

/-- The bytes of a text in UTF-8. -/
def encode (text : String) : ByteArray := text.toUTF8

end SentenceSearch.Text
