import SentenceSearch.Json.Reader
import SentenceSearch.Json.Writer
import SentenceSearch.Sentence

/-!
# JSON forms

Types with a JSON form: how a value is written, and how it is found again in a tree.

## Main definitions

* `JsonForm` — a type with a JSON form
* `SymbolTable.toJson`, `SymbolTable.ofJson?` — the JSON form of symbol tables
-/

namespace SentenceSearch

/-- A type whose values have a JSON form. -/
class JsonForm (α : Type) where
  /-- The value to be written. -/
  toJson : α → Json
  /-- The value that a tree stands for. -/
  ofTree? : JsonTree → Option α

/-- Numbers of nodes, masks and positions are words of 32 bits. -/
def wordBound : Nat := 0x100000000

instance : JsonForm String := ⟨.string, JsonTree.string?⟩

namespace SentenceId

/-- The fields of the JSON form. -/
def fieldNames : List String := ["source_id", "sentence_index"]

/-- The identifier that a tree stands for. -/
def ofTree? (tree : JsonTree) : Option SentenceId :=
  match tree.fields? fieldNames with
  | some [some source, some index] => do
    pure ⟨← source.string?, ← index.nat? wordBound⟩
  | _ => none

instance : JsonForm SentenceId where
  toJson id := .object [("source_id", .string id.source), ("sentence_index", .nat id.index)]
  ofTree? := ofTree?

end SentenceId

namespace SymbolTable

/-- The JSON form of a table: its masks by character. -/
def toJson (table : SymbolTable) : Json :=
  .object (table.entries.map fun (c, mask) => (String.singleton c, .nat mask.toNat))

/-- A field of a table: the name is one character and the value a mask. -/
def entry? : Option String × JsonTree → Option (Char × Mask)
  | (some key, value) =>
    match key.toList with
    | [c] => (value.nat? wordBound).map fun n => (c, UInt32.ofNat n)
    | _ => none
  | (none, _) => none

/-- The table that a tree stands for. The masks may be any words, and the last one of a character
counts. -/
def ofTree? : JsonTree → Option SymbolTable
  | .object fields => (fields.mapM entry?).map ofList
  | _ => none

/-- The table that a text stands for. -/
def ofJson? (text : List Char) : Option SymbolTable := (JsonTree.read text).bind ofTree?

end SymbolTable

end SentenceSearch
