import SentenceSearch.Proofs.Json.RoundTrip
import SentenceSearch.Proofs.MapValues
import SentenceSearch.Proofs.Text.Lines
import SentenceSearch.Tabular.Rows

/-!
# Rows and tables in JSON

The compact form of a value is one line of text, since control characters only occur escaped. The
forms of rows and symbol tables are read back as what they were made from, as long as the numbers
in them are words of 32 bits.

## Main definitions

* `JsonForm.ReadsBack` — the form of a value is the form of that value

## Main results

* `Json.isPrintable_compactChars` — the compact form has no control characters
* `EdgeRow.readsBack`, `PayloadRow.readsBack`, `SentenceId.readsBack` — rows are read back
* `SymbolTable.ofTree?_toJson` — a symbol table is read back
-/

namespace SentenceSearch

open Text

/-! ### The compact form is one line -/

namespace Json

theorem isPrintable_digits (n : Nat) : IsPrintable (digits n) := by
  intro c hc
  have hdigit := JsonTree.isDigit_of_mem_digits hc
  rw [Char.isDigit, Bool.and_eq_true, decide_eq_true_eq, decide_eq_true_eq,
    UInt32.le_iff_toNat_le] at hdigit
  exact Nat.le_trans (by decide) hdigit.1

theorem le_toNat_hexDigit {n : Nat} (h : n < 16) : 0x20 ≤ (hexDigit n).toNat := by
  revert n
  decide

theorem isPrintable_escapeChar (c : Char) : IsPrintable (escapeChar c) := by
  unfold escapeChar
  split_ifs with hquote hbackslash hb hf hn hr ht hcontrol
  -- Seven characters have an escape of their own.
  iterate 7 · simp [IsPrintable]
  · have hhigh := le_toNat_hexDigit (show c.toNat / 16 < 16 by omega)
    have hlow := le_toNat_hexDigit (Nat.mod_lt c.toNat (show 0 < 16 by decide))
    simp [IsPrintable, hhigh, hlow]
  · simpa [IsPrintable] using hcontrol

theorem isPrintable_quote (s : String) : IsPrintable (quote s) := by
  have hescape : IsPrintable (s.toList.flatMap escapeChar) := by
    intro d hd
    obtain ⟨c, -, hd⟩ := List.mem_flatMap.mp hd
    exact isPrintable_escapeChar c d hd
  simpa [quote, IsPrintable, or_imp, forall_and] using hescape

mutual

/-- The compact form has no control characters. -/
theorem isPrintable_compactChars : (json : Json) → IsPrintable json.compactChars
  | .nat n => isPrintable_digits n
  | .string s => isPrintable_quote s
  | .array items => by
    have hitems := isPrintable_compactItems items
    simpa [compactChars, IsPrintable, or_imp, forall_and] using hitems
  | .object fields => by
    have hfields := isPrintable_compactFields fields
    simpa [compactChars, IsPrintable, or_imp, forall_and] using hfields

theorem isPrintable_compactItems : (items : List Json) → IsPrintable (compactItems items)
  | [] => nofun
  | [item] => isPrintable_compactChars item
  | item :: next :: items => by
    have hitem := isPrintable_compactChars item
    have hitems := isPrintable_compactItems (next :: items)
    rw [compactItems]
    · simpa [IsPrintable, or_imp, forall_and] using And.intro hitem hitems
    · exact List.cons_ne_nil _ _

theorem isPrintable_compactFields : (fields : List (String × Json)) →
    IsPrintable (compactFields fields)
  | [] => nofun
  | [(key, value)] => by
    have hkey := isPrintable_quote key
    have hvalue := isPrintable_compactChars value
    rw [compactFields]
    simpa [IsPrintable, or_imp, forall_and] using And.intro hkey hvalue
  | (key, value) :: next :: fields => by
    have hkey := isPrintable_quote key
    have hvalue := isPrintable_compactChars value
    have hfields := isPrintable_compactFields (next :: fields)
    rw [compactFields]
    · simpa [IsPrintable, or_imp, forall_and] using ⟨hkey, hvalue, hfields⟩
    · exact List.cons_ne_nil _ _

end

end Json

/-! ### Forms -/

/-- What is written for the value is read as that value. -/
def JsonForm.ReadsBack {α : Type} [JsonForm α] (a : α) : Prop :=
  JsonForm.ofTree? (JsonForm.toJson a).tree = some a

/-- A word of 32 bits is read back. -/
theorem Json.nat?_tree {n : Nat} (h : n < wordBound) :
    (Json.nat n).tree.nat? wordBound = some n := by
  have hlong : n < JsonTree.longWordBound := Nat.lt_trans h (by decide)
  rw [Json.tree, Json.natTree, if_pos hlong, JsonTree.nat?, if_pos h]

theorem Json.nat?_tree_word (word : UInt32) :
    (Json.nat word.toNat).tree.nat? wordBound = some word.toNat :=
  Json.nat?_tree word.toNat_lt

theorem Json.string?_tree (s : String) : (Json.string s).tree.string? = some s := rfl

theorem SentenceId.readsBack {id : SentenceId} (h : id.index < wordBound) :
    JsonForm.ReadsBack id := by
  have hfields : (JsonForm.toJson id).tree.fields? SentenceId.fieldNames =
      some [some (Json.string id.source).tree, some (Json.nat id.index).tree] := rfl
  change SentenceId.ofTree? _ = _
  simp only [SentenceId.ofTree?, hfields, Json.string?_tree, Json.nat?_tree h]
  rfl

section Rows

variable {P : Type} [JsonForm P]

theorem EdgeRow.readsBack {row : EdgeRow} (hsource : row.source < wordBound)
    (htarget : row.target < wordBound) : JsonForm.ReadsBack row := by
  have hfields : (JsonForm.toJson row).tree.fields? EdgeRow.fieldNames =
      some [some (Json.nat row.source).tree, some (Json.nat row.target).tree,
        some (Json.string row.text).tree, some (Json.nat row.childMask.toNat).tree] := rfl
  change EdgeRow.ofTree? _ = _
  simp only [EdgeRow.ofTree?, hfields, Json.string?_tree, Json.nat?_tree hsource,
    Json.nat?_tree htarget, Json.nat?_tree_word, Option.bind_eq_bind, Option.bind_some,
    Option.pure_def, UInt32.ofNat_toNat]

theorem PayloadRow.readsBack {row : PayloadRow P} (hnode : row.node < wordBound)
    (hpayload : JsonForm.ReadsBack row.payload) : JsonForm.ReadsBack row := by
  have hfields : (JsonForm.toJson row).tree.fields? PayloadRow.fieldNames =
      some [some (Json.nat row.node).tree, some (JsonForm.toJson row.payload).tree] := rfl
  change PayloadRow.ofTree? _ = _
  rw [JsonForm.ReadsBack] at hpayload
  simp only [PayloadRow.ofTree?, hfields, hpayload, Json.nat?_tree hnode, Option.bind_eq_bind,
    Option.bind_some, Option.pure_def]

end Rows

/-! ### Symbol tables -/

namespace SymbolTable

theorem masks_foldl_insert (table : SymbolTable) (entries : List (Char × Mask)) :
    (entries.foldl (fun table entry => table.insert entry.1 entry.2) table).masks =
      entries.foldl (fun masks (c, mask) => masks.insert c mask) table.masks := by
  induction entries generalizing table with
  | nil => rfl
  | cons entry entries ih => exact ih _

/-- A table is made of its entries. -/
theorem ofList_entries (table : SymbolTable) : ofList table.entries = table := by
  have hmasks : (ofList table.entries).masks = table.masks := by
    rw [ofList, masks_foldl_insert, foldl_insert_eq, empty,
      ← Std.ExtTreeMap.ofList_eq_insertMany_empty, entries, ofList_toList]
  cases table
  exact congrArg mk hmasks

theorem entry?_tree (c : Char) (mask : Mask) :
    entry? (some (String.singleton c), (Json.nat mask.toNat).tree) = some (c, mask) := by
  have hword := Json.nat?_tree_word mask
  simp [ entry?, hword]

theorem ofTree?_toJson (table : SymbolTable) : ofTree? table.toJson.tree = some table := by
  have hentries : (Json.fieldTrees (table.entries.map fun (c, mask) =>
      (String.singleton c, Json.nat mask.toNat))).mapM entry? = some table.entries := by
    rw [Json.fieldTrees_eq_map, List.map_map]
    generalize table.entries = entries
    induction entries with
    | nil => rfl
    | cons entry entries ih =>
      simp only [List.map_cons, List.mapM_cons, Function.comp_apply, entry?_tree, ih,
        Option.bind_eq_bind, Option.bind_some, Option.pure_def]
  rw [toJson, Json.tree, ofTree?, hentries, Option.map_some, ofList_entries]

end SymbolTable

end SentenceSearch
