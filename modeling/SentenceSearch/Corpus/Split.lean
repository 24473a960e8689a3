import SentenceSearch.Text.Blank

/-!
# Splitting prose into sentences

A sentence ends with the full stop `。`, but not inside corner brackets: quoted text stays in one
piece with the sentence around it. Spaces between sentences belong to none of them, and a rest
without a full stop is a sentence of its own.

## Main definitions

* `Corpus.splitSentences` — the sentences of a text
-/

namespace SentenceSearch.Corpus

/-- The character that ends a sentence. -/
def fullStop : Char := '。'

/-- The character that opens a quotation. -/
def openQuote : Char := '「'

/-- The character that closes a quotation. -/
def closeQuote : Char := '」'

/-- Whether a character is dropped in front of a sentence: the blanks of ASCII and the ideographic
space. -/
def isLeadingSpace (c : Char) : Bool :=
  c = ' ' || c = '\t' || c = '\n' || c = '\x0c' || c = '\r' || c = '\u3000'

/-- The number of quotations that are open after a character. A close quote without an open one
does not count. -/
def quoteDepth (depth : Nat) (c : Char) : Nat :=
  if c = openQuote then depth + 1 else if c = closeQuote then depth - 1 else depth

/-- The sentences of a text after a piece of the current one, last character first, in which
`depth` quotations are open. -/
def splitFrom (piece : List Char) (depth : Nat) : List Char → List (List Char)
  | [] =>
    -- Spaces in front have been dropped already.
    let rest := Text.trimEnd piece.reverse
    if rest.isEmpty then [] else [rest]
  | c :: text =>
    if piece.isEmpty && isLeadingSpace c then
      splitFrom [] depth text
    else if c = fullStop && quoteDepth depth c == 0 then
      (c :: piece).reverse :: splitFrom [] 0 text
    else
      splitFrom (c :: piece) (quoteDepth depth c) text

/-- The sentences of a text. -/
def splitSentences (text : List Char) : List (List Char) := splitFrom [] 0 text

end SentenceSearch.Corpus
