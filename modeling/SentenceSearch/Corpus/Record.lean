import SentenceSearch.Corpus.Split
import SentenceSearch.Json.Codec

/-!
# Records of a corpus

A line of a corpus file holds one sentence or one article. An article becomes its title, at
position 1, and the sentences of its body from position 2 on.

## Main definitions

* `CorpusRecord` — a sentence or an article
* `CorpusRecord.read?` — the record that a line spells
* `CorpusRecord.sentences` — the sentences that a record contributes
-/

namespace SentenceSearch

/-- What a line of a corpus file may hold. -/
inductive CorpusRecord where
  /-- One sentence. -/
  | sentence (id : SentenceId) (text : String)
  /-- An article with its title and its text. -/
  | article (id title body : String)
  deriving DecidableEq, Repr, Inhabited

namespace CorpusRecord

/-- The fields of a sentence. -/
def sentenceFields : List String := ["source_id", "sentence_index", "text"]

/-- The fields of an article. The last one may be missing. -/
def articleFields : List String := ["id", "title", "body"]

/-- The sentence that a tree stands for. -/
def sentenceOfTree? (tree : JsonTree) : Option CorpusRecord :=
  match tree.fields? sentenceFields with
  | some [some source, some index, some text] => do
    pure (.sentence ⟨← source.string?, ← index.nat? wordBound⟩ (← text.string?))
  | _ => none

/-- The article that a tree stands for. -/
def articleOfTree? (tree : JsonTree) : Option CorpusRecord :=
  match tree.fields? articleFields with
  | some [some id, some title, body] => do
    let body ← body.elim (some "") JsonTree.string?
    pure (.article (← id.string?) (← title.string?) body)
  | _ => none

/-- The record that a tree stands for: a sentence where that is possible. The whole tree has to be
sound, also where nothing is asked for. -/
def ofTree? (tree : JsonTree) : Option CorpusRecord :=
  if tree.isSound then sentenceOfTree? tree <|> articleOfTree? tree else none

instance : JsonForm CorpusRecord where
  toJson
    | .sentence id text =>
      .object [("source_id", .string id.source), ("sentence_index", .nat id.index),
        ("text", .string text)]
    | .article id title body =>
      .object [("id", .string id), ("title", .string title), ("body", .string body)]
  ofTree? := ofTree?

/-- The record that a text spells. -/
def read? (text : List Char) : Option CorpusRecord := (JsonTree.read text).bind ofTree?

/-- The sentences that a record contributes, in order. -/
def sentences : CorpusRecord → List (SentenceId × String)
  | .sentence id text => [(id, text)]
  | .article id title body =>
    -- The title comes first, so the body starts one position later.
    let texts := title :: (Corpus.splitSentences body.toList).map String.ofList
    texts.zipIdx.map fun (text, i) => (⟨id, SentenceId.titleIndex + i⟩, text)

end CorpusRecord

end SentenceSearch
