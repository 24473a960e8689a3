import SentenceSearch.Index

/-!
# Hits

A hit is a sentence that a search has found, with its text. Hits are shown one a line, after the
source and the position of the sentence. The keys of the query are marked in the text, each after
the end of the one before it.

## Main definitions

* `Hit` — a sentence with its text
* `Index.resolve` — the hits of some identifiers
* `keySpans` — where the keys of a query are in a text
* `Hit.pieces` — a line, cut into pieces by style
* `renderHits`, `hitsJson` — the hits as text and as JSON
-/

namespace SentenceSearch

/-- A sentence with its text. -/
structure Hit where
  /-- The sentence. -/
  id : SentenceId
  /-- The text. -/
  text : String
  deriving DecidableEq, Repr, Inhabited

/-- Identifiers in ascending order, as often as they are given. -/
def sortIds (ids : List SentenceId) : List SentenceId := ids.mergeSort fun a b => (compare a b).isLE

/-- The hits of some identifiers in ascending order. Those that the corpus does not know are left
out. -/
def Index.resolve (index : Index) (ids : List SentenceId) : List Hit :=
  (sortIds ids).filterMap fun id => (index.lookup? id).map fun text => ⟨id, text⟩

/-! ### Keys in a text -/

/-- A part of a text: from the character at `start` up to, but without, the one at `stop`. -/
structure TextSpan where
  start : Nat
  stop : Nat
  deriving DecidableEq, Repr

/-- The first position at which a key starts in a text. -/
def firstPosition? (key : List Char) : List Char → Option Nat
  | [] => if key.isEmpty then some 0 else none
  | c :: text =>
    if key.isPrefixOf (c :: text) then some 0 else (firstPosition? key text).map (· + 1)

/-- The spans of keys in what is left of a text after `offset` characters. -/
def keySpansFrom (offset : Nat) (text : List Char) : List (List Char) → List TextSpan
  | [] => []
  | key :: keys =>
    match firstPosition? key text with
    -- Without this key the later ones are not marked either.
    | none => []
    | some i =>
      let start := offset + i
      let stop := start + key.length
      ⟨start, stop⟩ :: keySpansFrom stop (text.drop (i + key.length)) keys

/-- Where the keys of a query are in a text: each as early as possible after the end of the one
before it, up to the first one that is missing. Empty keys do not count. -/
def keySpans (text : List Char) (keys : List (List Char)) : List TextSpan :=
  keySpansFrom 0 text (keys.filter (!·.isEmpty))

/-! ### Lines -/

/-- The style of a piece of a line. -/
inductive Style where
  /-- The source of a sentence. -/
  | source
  /-- The position of a sentence. -/
  | position
  /-- A key of the query. -/
  | key
  /-- Anything else. -/
  | plain
  deriving DecidableEq, Repr

/-- A piece of a line in one style. -/
structure Piece where
  style : Style
  text : List Char
  deriving DecidableEq, Repr

/-- A text, of which `offset` characters are left out, cut at the ends of spans. -/
def cutAtSpans (offset : Nat) (text : List Char) : List TextSpan → List Piece
  | [] => [⟨.plain, text.drop offset⟩]
  | span :: spans =>
    ⟨.plain, (text.take span.start).drop offset⟩ ::
      ⟨.key, (text.take span.stop).drop span.start⟩ :: cutAtSpans span.stop text spans

/-- The line of a hit. -/
def Hit.pieces (hit : Hit) (keys : List (List Char)) : List Piece :=
  let text := hit.text.toList
  [⟨.source, hit.id.source.toList⟩, ⟨.plain, [':']⟩,
    ⟨.position, (toString hit.id.index).toList⟩, ⟨.plain, [':', ' ']⟩] ++
    cutAtSpans 0 text (keySpans text keys) ++ [⟨.plain, ['\n']⟩]

/-- The codes that switch a style of a terminal on. -/
def Style.codes : Style → List Nat
  | .source => [35]
  | .position => [32]
  | .key => [1, 31]
  | .plain => []

/-- The control sequence of a code. -/
def controlSequence (code : Nat) : List Char := '\x1b' :: '[' :: (toString code).toList ++ ['m']

/-- The code that ends all styles. -/
def resetCode : Nat := 0

/-- A piece with the control sequences of its style around it. -/
def Piece.colored (piece : Piece) : List Char :=
  if piece.style = .plain then
    piece.text
  else
    (resetCode :: piece.style.codes).flatMap controlSequence ++ piece.text ++
      controlSequence resetCode

/-- A piece as it is shown. -/
def Piece.render (color : Bool) (piece : Piece) : List Char :=
  if color then piece.colored else piece.text

/-- The lines of some hits. -/
def renderHits (color : Bool) (hits : List Hit) (keys : List (List Char)) : String :=
  String.ofList (hits.flatMap fun hit => (hit.pieces keys).flatMap (Piece.render color))

instance : JsonForm Hit where
  toJson hit :=
    .object [("source_id", .string hit.id.source), ("sentence_index", .nat hit.id.index),
      ("text", .string hit.text)]
  ofTree? tree :=
    match CorpusRecord.sentenceOfTree? tree with
    | some (.sentence id text) => some ⟨id, text⟩
    | _ => none

/-- Hits as JSON. -/
def hitsJson (hits : List Hit) : Json := .array (hits.map JsonForm.toJson)

end SentenceSearch
