import SentenceSearch.Files.Task
import SentenceSearch.Tabular.Tree
import SentenceSearch.Text.Blank
import SentenceSearch.Text.Lines

/-!
# Stored trees

A tree is stored in a directory as three files: its edges and its payloads, one row a line, and the
symbol table.

## Main definitions

* `TreeRows.save` — store rows and a table
* `TabularTree.load` — the tree in a directory
-/

namespace SentenceSearch

/-- The file of the edges. -/
def edgesName : String := "edges.jsonl"

/-- The file of the payloads. -/
def payloadsName : String := "payloads.jsonl"

/-- The file of the symbol table. -/
def tableName : String := "buckets.json"

/-- The written form of some rows, one a line. -/
def rowLines {α : Type} [JsonForm α] (rows : List α) : String :=
  String.join (rows.map fun row => (JsonForm.toJson row).compact ++ "\n")

/-- Store rows and a table in a directory, which is made where it is missing. -/
def TreeRows.save {P : Type} [JsonForm P] (rows : TreeRows P) (table : SymbolTable)
    (directory : String) : FileTask Unit := do
  FileTask.makeDirectories directory
  FileTask.write (Path.join directory edgesName) (Text.encode (rowLines rows.edges))
  FileTask.write (Path.join directory payloadsName) (Text.encode (rowLines rows.payloads))
  FileTask.write (Path.join directory tableName) (Text.encode table.toJson.pretty)

/-- The row that a line spells, if the line is not blank. -/
def readRow {α : Type} [JsonForm α] (path : String) (number : Nat) (line : List UInt8) :
    Except Failure (Option α) :=
  match Text.decode? line with
  | none => .error (.notRead path)
  | some text =>
    if (Text.trim text).isEmpty then
      .ok none
    else
      match (JsonTree.read text).bind JsonForm.ofTree? with
      | some row => .ok (some row)
      | none => .error (.invalidRow path number)

/-- The rows that some lines spell, which are counted from `number` on. -/
def readRowsFrom {α : Type} [JsonForm α] (path : String) :
    Nat → List (List UInt8) → Except Failure (List α)
  | _, [] => .ok []
  | number, line :: lines => do
    let row ← readRow path number line
    let rows ← readRowsFrom path (number + 1) lines
    pure (row.toList ++ rows)

/-- The rows in a file. -/
def readRows {α : Type} [JsonForm α] (tree : FileTree) (path : String) :
    Except Failure (List α) :=
  match tree.node? path with
  | none => .error (.notOpened path)
  | some (.directory _) => .error (.notRead path)
  | some (.file content) => readRowsFrom path 1 (Text.lines content)

/-- The symbol table in a file. -/
def readTable (tree : FileTree) (path : String) : Except Failure SymbolTable :=
  match tree.node? path with
  | none => .error (.notOpened path)
  | some (.directory _) => .error (.invalidTable path)
  | some (.file content) =>
    match (Text.decode? content.data.toList).bind SymbolTable.ofJson? with
    | some table => .ok table
    | none => .error (.invalidTable path)

/-- The tree in a directory. The masks of its table may be any words. -/
def TabularTree.load {P : Type} [JsonForm P] (tree : FileTree) (directory : String) :
    Except Failure (TabularTree P) := do
  let table ← readTable tree (Path.join directory tableName)
  let edges : List EdgeRow ← readRows tree (Path.join directory edgesName)
  let payloads : List (PayloadRow P) ← readRows tree (Path.join directory payloadsName)
  pure (.ofRows edges payloads table)

end SentenceSearch
