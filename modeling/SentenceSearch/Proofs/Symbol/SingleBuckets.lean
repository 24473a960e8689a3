import SentenceSearch.Proofs.Tabular.Stored
import SentenceSearch.Symbol.Bucketing

/-!
# One bucket for each character

The masks of a symbol table are meant to name one bucket each. The tables that are made by spreading
an alphabet over buckets are like that, and so are the tables of given entries, because entries are
checked. A table that is loaded from a file is not checked. It has the masks that the file spells, so
that it is like that just when the file is: always if the file was stored from such a table, but
not if somebody else has written another word there.

## Main definitions

* `SymbolTable.OneBucketEach` — every character has one bucket
* `SymbolTable.IsSpelledIn` — the entries of a table that a file spells

## Main results

* `SymbolTable.ofEntries_eq_ok_iff` — entries are accepted if all their masks are of one bucket
* `Bucketing.oneBucketEach_table` — spreading an alphabet gives each character one bucket
* `SymbolTable.oneBucketEach_ofList_iff` — the last entry of each character counts
* `oneBucketEach_of_sources` — where tables come from, and which of them have one bucket each
* `not_oneBucketEach_load` — a table of a file may have a mask of two buckets
-/

namespace SentenceSearch

/-- The mask of a bucket names one bucket. -/
theorem Mask.bitCount_ofBucket : ∀ id < width, (ofBucket id).bitCount = 1 := by decide

namespace SymbolTable

variable {table : SymbolTable} {entries : List (Char × Mask)} {c d : Char} {mask : Mask}

/-- Every character of the table has exactly one bucket. -/
def OneBucketEach (table : SymbolTable) : Prop :=
  ∀ c mask, table.get? c = some mask → mask.bitCount = 1

@[simp] theorem get?_empty (c : Char) : empty.get? c = none := by simp [get?, empty]

theorem get?_insert (table : SymbolTable) (c : Char) (mask : Mask) (d : Char) :
    (table.insert c mask).get? d = if c = d then some mask else table.get? d := by
  simp [get?, insert, Std.ExtTreeMap.getElem?_insert]

theorem OneBucketEach.insert (h : table.OneBucketEach) (hmask : mask.bitCount = 1) (c : Char) :
    (table.insert c mask).OneBucketEach := by
  intro d other hget
  rw [get?_insert] at hget
  split at hget
  · exact Option.some.inj hget ▸ hmask
  · exact h d other hget

/-- The table has the mask that comes last for a character. -/
theorem get?_ofList (entries : List (Char × Mask)) (c : Char) :
    (ofList entries).get? c = entries.reverse.lookup c := by
  induction entries using List.reverseRecOn with
  | nil => simp [ofList]
  | append_singleton entries entry ih =>
    obtain ⟨d, mask⟩ := entry
    rw [ofList, List.foldl_append, List.foldl_cons, List.foldl_nil, get?_insert, List.reverse_append,
      List.reverse_singleton, List.singleton_append]
    by_cases h : d = c
    · simp [h]
    · rw [if_neg h, List.lookup_cons, beq_false_of_ne (Ne.symm h)]
      exact ih

theorem oneBucketEach_ofList_iff :
    (ofList entries).OneBucketEach ↔
      ∀ c mask, entries.reverse.lookup c = some mask → mask.bitCount = 1 := by
  simp only [OneBucketEach, get?_ofList]

theorem oneBucketEach_ofList (h : ∀ entry ∈ entries, entry.2.bitCount = 1) :
    (ofList entries).OneBucketEach := by
  rw [oneBucketEach_ofList_iff]
  intro c mask hlookup
  obtain ⟨front, back, hentries, -⟩ := List.lookup_eq_some_iff.mp hlookup
  have hmem : (c, mask) ∈ entries := by
    rw [← List.mem_reverse, hentries]
    simp
  exact h _ hmem

/-- Entries are accepted exactly when each of their masks is of one bucket, and then they make up the
table. -/
theorem ofEntries_eq_ok_iff :
    ofEntries entries = .ok table ↔
      (∀ entry ∈ entries, entry.2.bitCount = 1) ∧ ofList entries = table := by
  have hnone : (entries.find? fun entry => entry.2.bitCount != 1) = none ↔
      ∀ entry ∈ entries, entry.2.bitCount = 1 := by
    simp [List.find?_eq_none]
  rw [ofEntries, ← hnone]
  cases entries.find? fun entry => entry.2.bitCount != 1 with
  | none => simp
  | some entry => simp

/-! ### Tables in files -/

/-- The file at the path is text, and as JSON it spells the entries, which may be given more than
once for a character. -/
def IsSpelledIn (entries : List (Char × Mask)) (files : FileTree) (path : String) : Prop :=
  ∃ content text fields, files.Holds path content ∧
    Text.decode? content.data.toList = some text ∧
    JsonTree.read text = some (.object fields) ∧ fields.mapM entry? = some entries

/-- A table that is read from a file has the entries that the file spells. -/
theorem exists_isSpelledIn_of_readTable {files : FileTree} {path : String}
    (h : readTable files path = .ok table) :
    ∃ entries, IsSpelledIn entries files path ∧ table = ofList entries := by
  rw [readTable] at h
  split at h
  · cases h
  · cases h
  · rename_i content hnode
    split at h
    · rename_i found hfound
      obtain rfl := Except.ok.inj h
      obtain ⟨text, hdecode, hjson⟩ := Option.bind_eq_some_iff.mp hfound
      obtain ⟨tree, hread, htree⟩ := Option.bind_eq_some_iff.mp hjson
      cases tree with
      | object fields =>
        obtain ⟨entries, hentries, rfl⟩ := Option.map_eq_some_iff.mp htree
        exact ⟨entries, ⟨content, text, fields, hnode, hdecode, hread, hentries⟩, rfl⟩
      | _ => cases htree
    · cases h

end SymbolTable

/-- The table of a loaded tree is the one that is read from its file. -/
theorem readTable_of_load {P : Type} [JsonForm P] {files : FileTree} {directory : String}
    {tree : TabularTree P} (h : TabularTree.load files directory = .ok tree) :
    readTable files (Path.join directory tableName) = .ok tree.table := by
  rw [TabularTree.load] at h
  cases htable : readTable files (Path.join directory tableName) with
  | error failure =>
    rw [htable] at h
    cases h
  | ok table =>
    -- Reading the rows may fail, but the table has been read by then.
    rw [htable] at h
    cases hedges : (readRows files (Path.join directory edgesName) :
        Except Failure (List EdgeRow)) with
    | error failure =>
      rw [hedges] at h
      cases h
    | ok edges =>
      cases hpayloads : (readRows files (Path.join directory payloadsName) :
          Except Failure (List (PayloadRow P))) with
      | error failure =>
        rw [hedges, hpayloads] at h
        cases h
      | ok payloads =>
        rw [hedges, hpayloads] at h
        obtain rfl := Except.ok.inj h
        rfl

/-! ### Spreading an alphabet -/

namespace Bucketing

open SymbolTable

variable {assignment : Assignment} {loads : List BucketLoad} {count id : Nat}

/-- The buckets have numbers below a bound, and each character that has been assigned has one of
them. -/
structure Assignment.Within (assignment : Assignment) (count : Nat) : Prop where
  id_lt : ∀ load ∈ assignment.loads, load.id < count
  oneBucketEach : assignment.table.OneBucketEach

theorem id_lt_of_mem_seeds {symbols : List (Char × Nat)} {load : BucketLoad}
    (h : load ∈ seeds id symbols) : load.id < id + symbols.length := by
  induction symbols generalizing id with
  | nil => cases h
  | cons entry symbols ih =>
    rw [List.length_cons]
    rcases List.mem_cons.mp h with rfl | hrest
    · exact Nat.lt_add_of_pos_right (Nat.succ_pos _)
    · have hlt := ih hrest
      omega

/-- Characters that open the buckets have their numbers. -/
theorem within_seeded {symbols : List (Char × Nat)} (hlength : symbols.length ≤ count)
    (hcount : count ≤ Mask.width) : (Assignment.seeded symbols).Within count := by
  have hid : ∀ load ∈ seeds 0 symbols, load.id < count := by
    intro load hload
    have hlt := id_lt_of_mem_seeds hload
    omega
  refine ⟨hid, oneBucketEach_ofList ?_⟩
  intro entry hentry
  obtain ⟨load, hload, hentry⟩ := List.mem_flatMap.mp hentry
  obtain ⟨symbol, -, rfl⟩ := List.mem_map.mp hentry
  exact Mask.bitCount_ofBucket load.id (Nat.lt_of_lt_of_le (hid load hload) hcount)

theorem foldl_lighter_mem (load : BucketLoad) (loads : List BucketLoad) :
    loads.foldl lighter load ∈ load :: loads := by
  induction loads generalizing load with
  | nil => exact List.mem_cons_self
  | cons next loads ih =>
    rcases List.mem_cons.mp (ih (lighter load next)) with h | h
    · rw [List.foldl_cons, h, lighter]
      split <;> simp
    · exact List.mem_cons_of_mem _ (List.mem_cons_of_mem _ h)

/-- The lightest bucket is one of them. -/
theorem exists_mem_of_lightest? (h : lightest? loads = some id) : ∃ load ∈ loads, load.id = id := by
  cases loads with
  | nil => cases h
  | cons load loads => exact ⟨_, foldl_lighter_mem load loads, Option.some.inj h⟩

/-- A character joins a bucket that is there. -/
theorem Assignment.Within.assign (h : assignment.Within count) (hcount : count ≤ Mask.width)
    (entry : Char × Nat) : (assignment.assign entry).Within count := by
  rw [Assignment.assign]
  cases hlightest : lightest? assignment.loads with
  | none => exact h
  | some id =>
    obtain ⟨load, hload, rfl⟩ := exists_mem_of_lightest? hlightest
    refine ⟨fun other hother => ?_, h.oneBucketEach.insert ?_ _⟩
    · obtain ⟨before, hbefore, rfl⟩ := List.mem_map.mp hother
      split <;> exact h.id_lt before hbefore
    · exact Mask.bitCount_ofBucket load.id (Nat.lt_of_lt_of_le (h.id_lt load hload) hcount)

theorem Assignment.Within.assignAll (h : assignment.Within count) (hcount : count ≤ Mask.width)
    (entries : List (Char × Nat)) : (entries.foldl Assignment.assign assignment).Within count := by
  induction entries generalizing assignment with
  | nil => exact h
  | cons entry entries ih => exact ih (h.assign hcount entry)

/-- Whatever the frequencies are, no bucket beyond the given number is used. -/
theorem within_fill (bucketing : Bucketing) (frequencies : List (Char × Nat)) :
    (bucketing.fill frequencies).Within bucketing.count :=
  (within_seeded (List.length_take_le _ _) bucketing.le_width).assignAll bucketing.le_width _

/-- Spreading an alphabet gives each character one bucket, also if it is listed more than once. -/
theorem oneBucketEach_table (bucketing : Bucketing) (frequencies : List (Char × Nat)) :
    (bucketing.table frequencies).OneBucketEach := (bucketing.within_fill frequencies).oneBucketEach

end Bucketing

open SymbolTable

/-- Tables that an alphabet is spread by and tables of accepted entries have one bucket for each
character. A table that is loaded from a directory has one just when the masks in its file have, of
which the last one of each character counts. So it has if such a table was stored there. -/
theorem oneBucketEach_of_sources {P : Type} [JsonForm P] :
    (∀ (bucketing : Bucketing) frequencies, (bucketing.table frequencies).OneBucketEach) ∧
    (∀ entries table, ofEntries entries = .ok table → table.OneBucketEach) ∧
    (∀ files directory, ∀ tree : TabularTree P, TabularTree.load files directory = .ok tree →
      ∃ entries, IsSpelledIn entries files (Path.join directory tableName) ∧
        (tree.table.OneBucketEach ↔
          ∀ c mask, entries.reverse.lookup c = some mask → mask.bitCount = 1)) ∧
    ∀ (rows : TreeRows P) (table : SymbolTable) directory files after, table.OneBucketEach →
      (rows.save table directory).runOn files = (.ok (), after) →
        ∀ tree : TabularTree P, TabularTree.load after directory = .ok tree →
          tree.table.OneBucketEach := by
  refine ⟨Bucketing.oneBucketEach_table, ?_, ?_, ?_⟩
  · intro entries table h
    obtain ⟨hentries, rfl⟩ := ofEntries_eq_ok_iff.mp h
    exact oneBucketEach_ofList hentries
  · intro files directory tree h
    obtain ⟨entries, hentries, htable⟩ := exists_isSpelledIn_of_readTable (readTable_of_load h)
    exact ⟨entries, hentries, htable ▸ oneBucketEach_ofList_iff⟩
  · intro rows table directory files after htable hsave tree h
    have hread := readTable_pretty (TreeRows.holds_of_save hsave).2.2
    rwa [Except.ok.inj ((readTable_of_load h).symm.trans hread)]

/-- A directory that can be made, in which a tree without edges is stored with the table of an
alphabet in which a character is listed twice. -/
theorem oneBucketEach_of_sources_repeated :
    (Bucketing.default.table [('a', 3), ('b', 1), ('a', 5)]).OneBucketEach ∧
    ∃ after, ∃ tree : TabularTree String, (TreeRows.save (P := String) ⟨[], []⟩
          (Bucketing.default.table [('a', 3), ('b', 1), ('a', 5)]) "out").runOn
        { entries := [], current := [] } = (.ok (), after) ∧
      TabularTree.load after "out" = .ok tree ∧ tree.table.OneBucketEach := by
  have htable := (oneBucketEach_of_sources (P := String)).1 .default [('a', 3), ('b', 1), ('a', 5)]
  let rows : TreeRows String := ⟨[], []⟩
  have hedges : ∀ row ∈ rows.edges, JsonForm.ReadsBack row := nofun
  have hpayloads : ∀ row ∈ rows.payloads, JsonForm.ReadsBack row := nofun
  obtain ⟨after, hsave, hload⟩ := TreeRows.load_save
    (Bucketing.default.table [('a', 3), ('b', 1), ('a', 5)]) hedges hpayloads
      FileTree.canStore_empty
  exact ⟨htable, after, _, hsave, hload,
    oneBucketEach_of_sources.2.2.2 _ _ _ _ _ htable hsave _ hload⟩

/-- A stored tree without edges and payloads, in whose table a character has two buckets. -/
private def doubled : FileTree where
  entries := [("buckets.json", .file (Text.encode "\x7b\"a\":3\x7d")),
    ("edges.jsonl", .file (Text.encode "")), ("payloads.jsonl", .file (Text.encode ""))]
  current := []

/-- A table is loaded although a character has two buckets. -/
theorem not_oneBucketEach_load :
    ∃ tree, TabularTree.load (P := String) doubled "." = .ok tree ∧ ¬ tree.table.OneBucketEach := by
  have hmask : (TabularTree.load (P := String) doubled ".").toOption.map
      (fun tree => tree.table.get? 'a') = some (some 3) := by
    decide +kernel
  cases hload : TabularTree.load (P := String) doubled "." with
  | error failure =>
    rw [hload] at hmask
    cases hmask
  | ok tree =>
    rw [hload] at hmask
    refine ⟨tree, rfl, fun hone => ?_⟩
    have hcount := hone 'a' 3 (Option.some.inj hmask)
    revert hcount
    decide

end SentenceSearch
