import SentenceSearch.Corpus.Record
import SentenceSearch.Text.Lines

/-!
# Corpora

A corpus is a list of sentences with different identifiers, in the order in which they were added,
and a way to find the text of each. Empty texts and identifiers that are already there are skipped.

## Main definitions

* `Corpus` — sentences in order, with their texts by identifier
* `Corpus.push` — add a sentence
* `Corpus.addLines` — add the records of a file

## Main results

* `Corpus.toList_push` — the sentences after adding one
* `Corpus.get?_eq` — a text is found where the list has it
-/

namespace SentenceSearch

/-- Sentences in order, with their texts by identifier. -/
structure Corpus where
  /-- The sentences. -/
  sentences : Array (SentenceId × String)
  /-- The texts by identifier. -/
  texts : Std.ExtTreeMap SentenceId String
  /-- A text is found where the list has it first. -/
  getElem?_texts : ∀ id : SentenceId,
    texts[id]? = (sentences.toList.find? fun entry => entry.1 == id).map Prod.snd

namespace Corpus

/-- The corpus without sentences. -/
def empty : Corpus where
  sentences := #[]
  texts := ∅
  getElem?_texts := by simp

instance : EmptyCollection Corpus := ⟨empty⟩

instance : Inhabited Corpus := ⟨empty⟩

/-- The sentences in order. -/
def toList (corpus : Corpus) : List (SentenceId × String) := corpus.sentences.toList

/-- Number of sentences. -/
def size (corpus : Corpus) : Nat := corpus.sentences.size

/-- Whether there is no sentence. -/
def isEmpty (corpus : Corpus) : Bool := corpus.sentences.isEmpty

/-- The text of a sentence. -/
def get? (corpus : Corpus) (id : SentenceId) : Option String := corpus.texts[id]?

/-- The texts in order. -/
def textList (corpus : Corpus) : List (List Char) := corpus.toList.map fun entry => entry.2.toList

/-- A text is found where the list has it. -/
theorem get?_eq (corpus : Corpus) (id : SentenceId) :
    corpus.get? id = (corpus.toList.find? fun entry => entry.1 == id).map Prod.snd :=
  corpus.getElem?_texts id

/-- Whether a sentence would be added: its text is not empty and its identifier is new. -/
def accepts (corpus : Corpus) (id : SentenceId) (text : String) : Bool :=
  text != "" && (corpus.get? id).isNone

/-- Add a sentence at the end. Nothing changes unless it is accepted. -/
def push (corpus : Corpus) (id : SentenceId) (text : String) : Corpus :=
  if h : corpus.accepts id text = true then
    { sentences := corpus.sentences.push (id, text)
      texts := corpus.texts.insert id text
      getElem?_texts := by
        intro other
        have hnone : corpus.texts[id]? = none := by
          simpa [accepts, get?] using (Bool.and_eq_true_iff.1 h).2
        rw [Std.ExtTreeMap.getElem?_insert, Array.toList_push, List.find?_append,
          corpus.getElem?_texts]
        by_cases hid : id = other
        · subst hid
          rw [corpus.getElem?_texts, Option.map_eq_none_iff] at hnone
          simp [hnone]
        · cases hfind : corpus.sentences.toList.find? fun entry => entry.1 == other <;>
            simp [hid] }
  else
    corpus

/-- Add sentences in order. -/
def pushAll (corpus : Corpus) (entries : List (SentenceId × String)) : Corpus :=
  entries.foldl (fun corpus entry => corpus.push entry.1 entry.2) corpus

/-- The corpus of some sentences. -/
def ofList (entries : List (SentenceId × String)) : Corpus := empty.pushAll entries

/-- Add the record that a line spells. Any other line is skipped. -/
def addLine (corpus : Corpus) (line : List Char) : Corpus :=
  match CorpusRecord.read? (Text.trim line) with
  | some record => corpus.pushAll record.sentences
  | none => corpus

/-- Add the records of some lines, up to the first line that is no text. Also tells whether all of
them were texts. -/
def addDecoded (corpus : Corpus) : List (Option (List Char)) → Corpus × Bool
  | [] => (corpus, true)
  | none :: _ => (corpus, false)
  | some line :: lines => (corpus.addLine line).addDecoded lines

/-- Add the records of a file. Also tells whether the whole file is text. -/
def addLines (corpus : Corpus) (bytes : ByteArray) : Corpus × Bool :=
  corpus.addDecoded ((Text.lines bytes).map Text.decode?)

/-- The sentences after adding one. -/
theorem toList_push (corpus : Corpus) (id : SentenceId) (text : String) :
    (corpus.push id text).toList =
      if corpus.accepts id text then corpus.toList ++ [(id, text)] else corpus.toList := by
  unfold push
  split <;> simp_all [toList]

/-- Nothing is found in the corpus without sentences. -/
@[simp] theorem get?_empty (id : SentenceId) : empty.get? id = none := by simp [get?, empty]

/-- There are no sentences in the corpus without sentences. -/
@[simp] theorem toList_empty : empty.toList = [] := rfl

end Corpus

end SentenceSearch
