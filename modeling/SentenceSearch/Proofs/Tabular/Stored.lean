import SentenceSearch.Proofs.Files.Writing
import SentenceSearch.Proofs.Json.Forms
import SentenceSearch.Proofs.SuffixTree.History
import SentenceSearch.Proofs.Tabular.Export
import SentenceSearch.Tabular.Storage

/-!
# Stored trees are loaded again

The rows of a tree are written one a line and its symbol table on many lines, each into a file of
its own. The compact form of a row has no end of a line in it and begins with a brace, so that each
line that is read is one row and none is taken for blank, whatever characters the texts and the
sources have.

## Main definitions

* `FileTree.CanStore` — the three files may be written

## Main results

* `readRows_rowLines`, `readTable_pretty` — rows and tables are read back from their files
* `TreeRows.load_save`, `TreeRows.load_of_save` — rows that are stored are loaded
* `SuffixTree.load_save_rows` — a tree that is stored is loaded
-/

namespace SentenceSearch

open Text

/-! ### Blank lines -/

/-- A text that begins with a character that is not blank is not blank. -/
theorem Text.trim_cons_ne_nil {c : Char} {text : List Char} (h : isBlank c = false) :
    trim (c :: text) ≠ [] := by
  have hstart : trimStart (c :: text) = c :: text := List.dropWhile_cons_of_neg (by simp [h])
  rw [trim, hstart]
  intro hnil
  obtain ⟨blanks, heq, hblanks⟩ := trimEnd_append (c :: text)
  rw [hnil, List.nil_append] at heq
  have hc := hblanks c (heq ▸ List.mem_cons_self)
  rw [h] at hc
  cases hc

/-! ### Rows -/

section Rows

variable {α : Type} [JsonForm α] {rows : List α} {row : α} {path : String} {files : FileTree}

/-- The form of the value is an object. -/
def JsonForm.IsObject (a : α) : Prop := ∃ fields, JsonForm.toJson a = .object fields

/-- The line of a row is read as that row. -/
theorem readRow_compact (hobject : JsonForm.IsObject row) (hreads : JsonForm.ReadsBack row)
    (number : Nat) :
    readRow path number (bytes (JsonForm.toJson row).compact) = .ok (some row) := by
  obtain ⟨fields, hfields⟩ := hobject
  have htext : (JsonForm.toJson row).compact.toList = (JsonForm.toJson row).compactChars :=
    String.toList_ofList
  have hblank : (trim (JsonForm.toJson row).compactChars).isEmpty = false := by
    rw [hfields, Json.compactChars, List.isEmpty_eq_false_iff]
    exact trim_cons_ne_nil (by decide)
  have hrow : (JsonTree.read (JsonForm.toJson row).compactChars).bind JsonForm.ofTree? =
      some row := by
    rw [JsonTree.read_compactChars, Option.bind_some]
    exact hreads
  rw [readRow, decode?_encode, htext]
  simp only [hblank, hrow, Bool.false_eq_true, if_false]

theorem readRowsFrom_compact (hobject : ∀ row ∈ rows, JsonForm.IsObject row)
    (hreads : ∀ row ∈ rows, JsonForm.ReadsBack row) (number : Nat) :
    readRowsFrom path number (rows.map fun row => bytes (JsonForm.toJson row).compact) =
      .ok rows := by
  induction rows generalizing number with
  | nil => rfl
  | cons row rows ih =>
    obtain ⟨hrowObject, hobject⟩ := List.forall_mem_cons.mp hobject
    obtain ⟨hrow, hreads⟩ := List.forall_mem_cons.mp hreads
    rw [List.map_cons, readRowsFrom, readRow_compact hrowObject hrow, ih hobject hreads]
    rfl

/-- The lines of rows are their compact forms. -/
theorem lines_rowLines (rows : List α) :
    lines (encode (rowLines rows)) = rows.map fun row => bytes (JsonForm.toJson row).compact := by
  have hprintable : ∀ text ∈ rows.map fun row => (JsonForm.toJson row).compact,
      IsPrintable text.toList := by
    intro text htext
    obtain ⟨row, -, rfl⟩ := List.mem_map.mp htext
    rw [Json.compact, String.toList_ofList]
    exact Json.isPrintable_compactChars _
  have hlines := lines_encode_join hprintable
  rwa [List.map_map, List.map_map] at hlines

/-- Rows are read back from a file with one row a line. -/
theorem readRows_rowLines (hheld : files.Holds path (encode (rowLines rows)))
    (hobject : ∀ row ∈ rows, JsonForm.IsObject row)
    (hreads : ∀ row ∈ rows, JsonForm.ReadsBack row) : readRows files path = .ok rows := by
  rw [FileTree.Holds] at hheld
  rw [readRows, hheld]
  simp only [lines_rowLines, readRowsFrom_compact hobject hreads]

/-- A symbol table is read back from its file. -/
theorem readTable_pretty {table : SymbolTable}
    (hheld : files.Holds path (encode table.toJson.pretty)) :
    readTable files path = .ok table := by
  have htable : SymbolTable.ofJson? table.toJson.pretty.toList = some table := by
    rw [Json.pretty, String.toList_ofList, SymbolTable.ofJson?, JsonTree.read_prettyChars,
      Option.bind_some, SymbolTable.ofTree?_toJson]
  have hdecode := decode?_encode table.toJson.pretty
  rw [bytes] at hdecode
  rw [FileTree.Holds] at hheld
  rw [readTable, hheld]
  simp only [hdecode, Option.bind_some, htable]

end Rows

/-! ### Directories -/

/-- The directory can be made, and a file may be written there under each of the three names. -/
structure FileTree.CanStore (files : FileTree) (directory : String) : Prop where
  made : (files.makeDirectories directory).2 = true
  canWrite : ∀ name ∈ [edgesName, payloadsName, tableName],
    (files.makeDirectories directory).1.CanWrite (Path.join directory name)

theorem isPlainName_edgesName : Path.IsPlainName edgesName :=
  ⟨by decide, by decide, by decide, by decide⟩

theorem isPlainName_payloadsName : Path.IsPlainName payloadsName :=
  ⟨by decide, by decide, by decide, by decide⟩

theorem isPlainName_tableName : Path.IsPlainName tableName :=
  ⟨by decide, by decide, by decide, by decide⟩

/-- Where nothing is, a directory can be made. -/
theorem FileTree.canStore_empty : FileTree.CanStore { entries := [], current := [] } "out" := by
  refine ⟨by decide +kernel, ?_⟩
  simp only [List.forall_mem_cons]
  exact ⟨⟨["out", edgesName], by decide +kernel⟩, ⟨["out", payloadsName], by decide +kernel⟩,
    ⟨["out", tableName], by decide +kernel⟩, nofun⟩

section Store

variable {P : Type} [JsonForm P] {rows : TreeRows P} {files : FileTree} {directory : String}

/-- What is stored is in the three files. -/
theorem TreeRows.exists_save (rows : TreeRows P) (table : SymbolTable)
    (h : files.CanStore directory) :
    ∃ after, (rows.save table directory).runOn files = (.ok (), after) ∧
      after.Holds (Path.join directory edgesName) (encode (rowLines rows.edges)) ∧
      after.Holds (Path.join directory payloadsName) (encode (rowLines rows.payloads)) ∧
      after.Holds (Path.join directory tableName) (encode table.toJson.pretty) := by
  have hedges := h.canWrite edgesName (by simp)
  have hpayloads := h.canWrite payloadsName (by simp)
  have htable := h.canWrite tableName (by simp)
  obtain ⟨first, hfirst, hheldEdges, hbeside⟩ :=
    FileTree.exists_write isPlainName_edgesName hedges (encode (rowLines rows.edges))
  have hpayloads := (hbeside _ isPlainName_payloadsName (by decide)).1 hpayloads
  have htable := (hbeside _ isPlainName_tableName (by decide)).1 htable
  obtain ⟨second, hsecond, hheldPayloads, hbeside⟩ :=
    FileTree.exists_write isPlainName_payloadsName hpayloads (encode (rowLines rows.payloads))
  have hheldEdges := (hbeside _ isPlainName_edgesName (by decide)).2 _ hheldEdges
  have htable := (hbeside _ isPlainName_tableName (by decide)).1 htable
  obtain ⟨after, hafter, hheldTable, hbeside⟩ :=
    FileTree.exists_write isPlainName_tableName htable (encode table.toJson.pretty)
  refine ⟨after, ?_, (hbeside _ isPlainName_edgesName (by decide)).2 _ hheldEdges,
    (hbeside _ isPlainName_payloadsName (by decide)).2 _ hheldPayloads, hheldTable⟩
  rw [TreeRows.save, FileTask.runOn_bind (FileTask.runOn_makeDirectories h.made),
    FileTask.runOn_bind (FileTask.runOn_write hfirst),
    FileTask.runOn_bind (FileTask.runOn_write hsecond), FileTask.runOn_write hafter]

/-- Rows and a table are in the three files once they have been stored. -/
theorem TreeRows.holds_of_save {table : SymbolTable} {after : FileTree}
    (h : (rows.save table directory).runOn files = (.ok (), after)) :
    after.Holds (Path.join directory edgesName) (encode (rowLines rows.edges)) ∧
      after.Holds (Path.join directory payloadsName) (encode (rowLines rows.payloads)) ∧
      after.Holds (Path.join directory tableName) (encode table.toJson.pretty) := by
  obtain ⟨_, _, -, h⟩ := FileTask.exists_of_runOn_bind h
  obtain ⟨⟨⟩, first, hfirst, h⟩ := FileTask.exists_of_runOn_bind h
  obtain ⟨⟨⟩, second, hsecond, hthird⟩ := FileTask.exists_of_runOn_bind h
  obtain ⟨hedges, -⟩ :=
    FileTree.holds_of_write isPlainName_edgesName (FileTask.write_of_runOn hfirst)
  obtain ⟨hpayloads, hsecond⟩ :=
    FileTree.holds_of_write isPlainName_payloadsName (FileTask.write_of_runOn hsecond)
  obtain ⟨htable, hthird⟩ :=
    FileTree.holds_of_write isPlainName_tableName (FileTask.write_of_runOn hthird)
  have hedges := hsecond _ isPlainName_edgesName (by decide) _ hedges
  exact ⟨hthird _ isPlainName_edgesName (by decide) _ hedges,
    hthird _ isPlainName_payloadsName (by decide) _ hpayloads, htable⟩

/-- The tree that is loaded from the three files is the one that is put together from the rows. -/
theorem TreeRows.load_of_holds {table : SymbolTable}
    (hedges : ∀ row ∈ rows.edges, JsonForm.ReadsBack row)
    (hpayloads : ∀ row ∈ rows.payloads, JsonForm.ReadsBack row)
    (h : files.Holds (Path.join directory edgesName) (encode (rowLines rows.edges)) ∧
      files.Holds (Path.join directory payloadsName) (encode (rowLines rows.payloads)) ∧
      files.Holds (Path.join directory tableName) (encode table.toJson.pretty)) :
    TabularTree.load files directory = .ok (.ofRows rows.edges rows.payloads table) := by
  obtain ⟨hheldEdges, hheldPayloads, hheldTable⟩ := h
  rw [TabularTree.load, readTable_pretty hheldTable,
    readRows_rowLines hheldEdges (fun _ _ => ⟨_, rfl⟩) hedges,
    readRows_rowLines hheldPayloads (fun _ _ => ⟨_, rfl⟩) hpayloads]
  rfl

/-- Rows that have been stored are loaded. -/
theorem TreeRows.load_of_save {table : SymbolTable} {after : FileTree}
    (hedges : ∀ row ∈ rows.edges, JsonForm.ReadsBack row)
    (hpayloads : ∀ row ∈ rows.payloads, JsonForm.ReadsBack row)
    (h : (rows.save table directory).runOn files = (.ok (), after)) :
    TabularTree.load after directory = .ok (.ofRows rows.edges rows.payloads table) :=
  load_of_holds hedges hpayloads (holds_of_save h)

/-- Rows that are stored are loaded. -/
theorem TreeRows.load_save (table : SymbolTable)
    (hedges : ∀ row ∈ rows.edges, JsonForm.ReadsBack row)
    (hpayloads : ∀ row ∈ rows.payloads, JsonForm.ReadsBack row) (h : files.CanStore directory) :
    ∃ after, (rows.save table directory).runOn files = (.ok (), after) ∧
      TabularTree.load after directory = .ok (.ofRows rows.edges rows.payloads table) := by
  obtain ⟨after, hafter, hheld⟩ := rows.exists_save table h
  exact ⟨after, hafter, load_of_holds hedges hpayloads hheld⟩

end Store

/-! ### Trees -/

namespace SuffixTree

/-- The edges of a tree are read back where its nodes are words. -/
theorem Labelled.readsBack_edges {P : Type} {tree : SuffixTree P} {spell : Nat → List Char}
    (h : Labelled tree spell) (hnodes : tree.nodeCount ≤ wordBound) :
    ∀ row ∈ tree.rows.edges, JsonForm.ReadsBack row := by
  intro row hrow
  obtain ⟨v, hv, hrow⟩ := List.mem_flatMap.mp hrow
  obtain ⟨edge, hedge, rfl⟩ := List.mem_map.mp hrow
  obtain ⟨c, e, he, rfl⟩ := mem_edgesBelow.mp hedge
  exact EdgeRow.readsBack (Nat.lt_of_lt_of_le (List.mem_range.mp hv) hnodes)
    (Nat.lt_of_lt_of_le (h.fits he).child_lt hnodes)

/-- The payloads of a tree are read back where its nodes are words and they are read back. -/
theorem readsBack_payloads {P : Type} [JsonForm P] {tree : SuffixTree P}
    (hnodes : tree.nodeCount ≤ wordBound)
    (hpayloads : ∀ v, ∀ p ∈ tree.payloads v, JsonForm.ReadsBack p) :
    ∀ row ∈ tree.rows.payloads, JsonForm.ReadsBack row := by
  intro row hrow
  obtain ⟨v, hv, hrow⟩ := List.mem_flatMap.mp hrow
  obtain ⟨p, hp, rfl⟩ := List.mem_map.mp hrow
  exact PayloadRow.readsBack (Nat.lt_of_lt_of_le (List.mem_range.mp hv) hnodes)
    (hpayloads v p (Array.mem_toList_iff.mp hp))

/-- A tree whose rows are stored with a table is loaded with that table, and it is the tree that is
put together from the rows themselves. Nodes and positions of sentences are words of 32 bits. -/
theorem load_save_rows {tree : SuffixTree SentenceId} (htree : Reachable tree)
    (hnodes : tree.nodeCount ≤ wordBound)
    (hindices : ∀ v, ∀ id ∈ tree.payloads v, id.index < wordBound) (table : SymbolTable)
    {files : FileTree} {directory : String} (hstore : files.CanStore directory) :
    ∃ after loaded, (tree.rows.save table directory).runOn files = (.ok (), after) ∧
      TabularTree.load after directory = .ok loaded ∧ loaded.table = table ∧
      ∀ v, loaded.recordsBelow v =
          (TabularTree.ofRows tree.rows.edges tree.rows.payloads table).recordsBelow v ∧
        loaded.payloadsAt v =
          (TabularTree.ofRows tree.rows.edges tree.rows.payloads table).payloadsAt v := by
  obtain ⟨spell, ends, hsettled⟩ := htree.exists_settled
  have hedges := hsettled.stores.labelled.readsBack_edges hnodes
  have hpayloads := readsBack_payloads hnodes fun v id hid =>
    SentenceId.readsBack (hindices v id hid)
  obtain ⟨after, hsave, hload⟩ := TreeRows.load_save table hedges hpayloads hstore
  exact ⟨after, _, hsave, hload, rfl, fun _ => ⟨rfl, rfl⟩⟩

/-- A text with an end of a line, a quote, a backslash, a control character and a character beyond
the basic plane, from a source with a line feed. -/
private def escaped : SuffixTree SentenceId :=
  (empty.add (Sentence.ofText .empty "\r\n\"\\\x01😀".toList) ⟨"a\n", 3⟩).annotate

/-- The tree is stored in a directory that is made for it. -/
theorem load_save_rows_escaped :
    escaped.nodeCount ≤ wordBound ∧
    FileTree.CanStore { entries := [], current := [] } "out" ∧
    ∃ after loaded,
      (escaped.rows.save (.ofList [('"', 1), ('\n', 6)]) "out").runOn
          { entries := [], current := [] } = (.ok (), after) ∧
        TabularTree.load after "out" = .ok loaded ∧
        loaded.table = .ofList [('"', 1), ('\n', 6)] ∧
        ∀ v, loaded.recordsBelow v = (TabularTree.ofRows escaped.rows.edges escaped.rows.payloads
            (.ofList [('"', 1), ('\n', 6)])).recordsBelow v ∧
          loaded.payloadsAt v = (TabularTree.ofRows escaped.rows.edges escaped.rows.payloads
            (.ofList [('"', 1), ('\n', 6)])).payloadsAt v := by
  have htree : Reachable escaped := .annotate (.add _ _ .empty)
  have hnodes : escaped.nodeCount ≤ wordBound := by decide +kernel
  have hrows : ∀ row ∈ escaped.rows.payloads, row.payload.index < wordBound := by decide +kernel
  have hindices : ∀ v, ∀ id ∈ escaped.payloads v, id.index < wordBound := by
    intro v id hid
    exact hrows ⟨v, id⟩ ((mem_rows_payloads escaped).mpr (Array.mem_toList_iff.mpr hid))
  have hstore := FileTree.canStore_empty
  exact ⟨hnodes, hstore, load_save_rows htree hnodes hindices _ hstore⟩

end SuffixTree

end SentenceSearch
