import SentenceSearch.CommandLine.Run
import SentenceSearch.Proofs.Hits.Resolution
import SentenceSearch.Proofs.Tabular.Paging
import SentenceSearch.Proofs.Tabular.Stored

/-!
# Searches in a corpus and in its stored tree

A command searches a corpus in one way and the directory with its stored tree in another one: either
an index is made and the hits are resolved, or rows are loaded and read through a page cache. Both
ways make the same search. The rows are read back as what was stored, a tree made of its rows looks
like the tree, a cache makes no difference, and no hit is lost when it is resolved.

The two ways part before the search. Only for a corpus a query without keys is refused; in a stored
tree it is searched for like any other one, and nothing is found.

## Main definitions

* `SearchRequest` — a search that is asked for, wherever it is made
* `Wanted.outcome` — what a search comes to
* `Index.FitsWords` — nodes and positions of sentences are words

## Main results

* `IsOf.exists_load_of_save` — what is loaded looks like the tree that was stored
* `runOn_command` — what a command for a search prints
* `searchStored_eq`, `searchIndex_eq` — both ways make the same search
* `answers_of_store` — a corpus and its stored tree answer alike, except without keys
-/

namespace SentenceSearch

open SuffixTree TreeStep

/-! ### The tree of an index, stored and loaded -/

namespace Index

variable {index : Index} {files after : FileTree} {directory : String}

/-- Nodes and positions of sentences are words of 32 bits. -/
structure FitsWords (index : Index) : Prop where
  nodeCount_le : index.tree.nodeCount ≤ wordBound
  index_lt : ∀ entry ∈ index.corpus.toList, entry.1.index < wordBound

/-- The tree of an index that is loaded holds the sentences of its corpus. -/
theorem isOf_of_load {path glob : String} {buckets : Nat}
    (h : load files path glob buckets = .ok index) : index.IsOf index.corpus := by
  rw [load] at h
  split at h
  · cases h
  · obtain ⟨hof, hcorpus⟩ := isOf_of_ofCorpus h
    exact hcorpus ▸ hof

/-- The payloads of the tree are sentences of the corpus. -/
theorem IsOf.exists_of_mem_payloads {corpus : Corpus} (h : index.IsOf corpus) {v : Nat}
    {id : SentenceId} (hid : id ∈ index.tree.payloads v) :
    ∃ text, (id, text) ∈ corpus.toList := by
  obtain ⟨spell, hrecords⟩ := exists_records index.table (steps corpus)
  rw [h] at hid
  by_cases hv : v < (ofSteps index.table (steps corpus)).nodeCount
  · rw [hrecords.settled.stores.payloads hv] at hid
    obtain ⟨-, _, hmem, -⟩ := mem_endsAfter.mp hid
    obtain ⟨text, htext, -⟩ := mem_inserted_steps.mp hmem
    exact ⟨text, htext⟩
  · rw [payloads, node_of_nodeCount_le (Nat.le_of_not_lt hv)] at hid
    exact absurd hid (Array.not_mem_empty id)

/-- What is loaded from a directory in which the tree has been stored looks like the tree. -/
theorem IsOf.exists_load_of_save (hof : index.IsOf index.corpus) (hwords : index.FitsWords)
    (hsave : (index.tree.rows.save index.table directory).runOn files = (.ok (), after)) :
    ∃ tree : TabularTree SentenceId, TabularTree.load after directory = .ok tree ∧
      tree.table = index.table ∧ index.tree.source.Alike tree.source := by
  obtain ⟨spell, hrecords⟩ := exists_records index.table (steps index.corpus)
  rw [← hof] at hrecords
  have hedges := hrecords.settled.stores.labelled.readsBack_edges hwords.nodeCount_le
  have hpayloads : ∀ row ∈ index.tree.rows.payloads, JsonForm.ReadsBack row := by
    refine readsBack_payloads hwords.nodeCount_le fun v id hid => ?_
    obtain ⟨text, hmem⟩ := hof.exists_of_mem_payloads hid
    exact SentenceId.readsBack (hwords.index_lt _ hmem)
  exact ⟨_, TreeRows.load_of_save hedges hpayloads hsave, rfl,
    hrecords.alike_source (List.Perm.refl _) (List.Perm.refl _)⟩

end Index

namespace CommandLine

/-! ### Requests -/

/-- A search that is asked for, wherever it is made. -/
inductive SearchRequest where
  /-- A search for the keys of a query. -/
  | find (query : String) (max timeout : Option Nat)
  /-- A search for a pattern. -/
  | matching (pattern : String) (max timeout : Option Nat)

namespace SearchRequest

/-- The command for a search at a path. -/
def command (path : String) : SearchRequest → Command
  | .find query max timeout => .find path query max timeout
  | .matching pattern max timeout => .matching path pattern max timeout

/-- What is searched for. -/
def wanted : SearchRequest → Wanted
  | .find query _ _ => .keys (Query.keys query.toList)
  | .matching pattern _ _ => .pattern pattern.toList

/-- When the search stops early. -/
def limits (settings : Settings) (clock : Nat → Bool) : SearchRequest → SearchLimits
  | .find _ max timeout => settings.limits clock max timeout
  | .matching _ max timeout => settings.limits clock (some (max.getD 0)) timeout

/-- What is found at a path. -/
def answer (request : SearchRequest) (settings : Settings) (clock : Nat → Bool) (files : FileTree)
    (path : String) : Except Failure (List Hit) :=
  search files settings path (request.limits settings clock) request.wanted

/-- The command for a search prints what is found and changes nothing. -/
theorem runOn_command (request : SearchRequest) (clock : Nat → Bool) (dataHome : String)
    (invocation : Invocation) (settings : Settings) (files : FileTree) (path : String) :
    (runCommand clock dataHome { invocation with command := request.command path } settings).runOn
        files =
      ((request.answer settings clock files path).map fun hits =>
        printedHits invocation hits request.wanted.marked, files) := by
  cases request with
  | find query max timeout => exact FileTask.runOn_reading _ files
  | matching pattern max timeout => exact FileTask.runOn_reading _ files

end SearchRequest

/-! ### The search itself -/

/-- What a search in a source comes to, with a table for the characters. -/
def Wanted.outcome (table : SymbolTable) (source : TreeSource Id SentenceId)
    (limits : SearchLimits) : Wanted → Except Failure (SearchOutcome SentenceId)
  | .keys given => .ok (source.findKeys table limits given).run
  | .pattern text => orInvalidPattern ((compilePattern table text).map fun automaton =>
      (source.findMatching automaton limits).run)

/-- The hits of an outcome, without texts. -/
def bareHits (outcome : SearchOutcome SentenceId) : List Hit :=
  outcome.results.toList.map fun id => ⟨id, ""⟩

theorem map_id_bareHits (outcome : SearchOutcome SentenceId) :
    (bareHits outcome).map Hit.id = outcome.results.toList := by
  rw [bareHits, List.map_map]
  exact List.map_id _

/-- A step that fails at a pattern only has the results of that step. -/
theorem orInvalidPattern_eq_ok_iff {α : Type} {step : Except PatternError α} {a : α} :
    orInvalidPattern step = .ok a ↔ step = .ok a := by
  cases step with
  | error error => exact ⟨nofun, nofun⟩
  | ok b => simp only [orInvalidPattern, Except.ok.injEq]

variable {table : SymbolTable} {source source' : TreeSource Id SentenceId} {limits : SearchLimits}
  {wanted : Wanted} {index : Index} {outcome : SearchOutcome SentenceId}

/-- Sources that look the same give the same outcome. -/
theorem outcome_congr (h : source.Alike source') (table : SymbolTable) (limits : SearchLimits)
    (wanted : Wanted) : wanted.outcome table source limits = wanted.outcome table source' limits := by
  cases wanted with
  | keys keys => exact congrArg Except.ok (h.findKeys_eq table limits keys)
  | pattern text => simp only [Wanted.outcome, h.findMatching_eq]

/-- Without keys nothing is found. -/
theorem outcome_of_keyless (table : SymbolTable) (source : TreeSource Id SentenceId)
    (limits : SearchLimits) : (Wanted.keys []).outcome table source limits = .ok (.nothing 0) :=
  rfl

/-- In a stored tree the search is made in the tree that is loaded. -/
theorem searchStored_eq (tree : TabularTree SentenceId) (pages : Nat) (limits : SearchLimits)
    (wanted : Wanted) :
    searchStored tree pages limits wanted =
      (wanted.outcome tree.table tree.source limits).map bareHits := by
  have hcached := tree.consistent.run_cached pages
  cases wanted with
  | keys keys =>
    have hsame := hcached (.keys tree.table limits keys)
    exact congrArg (fun outcome => Except.ok (bareHits outcome)) hsame
  | pattern text =>
    rw [searchStored, Wanted.outcome]
    cases compilePattern tree.table text with
    | error error => rfl
    | ok automaton =>
      have hsame := hcached (.matching automaton limits)
      exact congrArg (fun outcome => Except.ok (bareHits outcome)) hsame

/-- In a corpus the search is made in the suffix tree, if there is a key. -/
theorem searchIndex_eq (index : Index) (limits : SearchLimits) (hkeys : wanted ≠ .keys []) :
    searchIndex index limits wanted = (wanted.outcome index.table index.tree.source limits).map
      fun outcome => index.resolve outcome.results.toList := by
  cases wanted with
  | keys keys =>
    have hne : keys.isEmpty = false := by
      cases keys with
      | nil => exact absurd rfl hkeys
      | cons key keys => rfl
    rw [searchIndex]
    simp only [hne]
    rfl
  | pattern text =>
    rw [searchIndex, Wanted.outcome, Index.findMatching, Index.compile]
    cases compilePattern index.table text with
    | error error => rfl
    | ok automaton => rfl

/-- No result is lost when it is resolved. -/
theorem map_id_resolve_outcome (hof : index.IsOf index.corpus)
    (h : wanted.outcome index.table index.tree.source limits = .ok outcome) :
    (index.resolve outcome.results.toList).map Hit.id = outcome.results.toList := by
  rw [Index.map_id_resolve, sortIds_eq_toList (List.Perm.refl _)]
  intro id hid
  rw [Std.ExtTreeSet.mem_toList] at hid
  have hmem : ∃ text, (id, text) ∈ index.corpus.toList := by
    cases wanted with
    | keys keys =>
      cases h
      obtain ⟨text, hmem, -⟩ := hof.exists_of_mem_findKeys hid
      exact ⟨text, hmem⟩
    | pattern text =>
      have hfound : index.findMatching limits text = .ok outcome :=
        orInvalidPattern_eq_ok_iff.mp h
      exact hof.exists_of_mem_findMatching hfound hid
  obtain ⟨text, hmem⟩ := hmem
  exact Corpus.isSome_get?_iff.mpr (List.mem_map_of_mem hmem)

/-! ### Storing and loading -/

variable {clock : Nat → Bool} {dataHome output corpus directory : String} {invocation : Invocation}
  {settings : Settings} {files after : FileTree}

/-- A command that stores a tree has opened the index and saved its rows. -/
theorem save_of_store (hopen : openIndex files settings corpus = .ok index)
    (hstore : (runCommand clock dataHome { invocation with command := .store corpus directory }
      settings).runOn files = (.ok output, after)) :
    (index.tree.rows.save index.table directory).runOn files = (.ok (), after) := by
  obtain ⟨opened, _, hread, hrest⟩ := FileTask.exists_of_runOn_bind hstore
  rw [FileTask.runOn_reading, hopen] at hread
  cases hread
  obtain ⟨⟨⟩, _, hsave, hprint⟩ := FileTask.exists_of_runOn_bind hrest
  cases hprint
  exact hsave

/-- What is found in a corpus is what is found in its index. -/
theorem answer_corpus (hopen : openIndex files settings corpus = .ok index)
    (hcorpus : files.isFile (Path.join corpus tableName) = false) (request : SearchRequest) :
    request.answer settings clock files corpus =
      searchIndex index (request.limits settings clock) request.wanted := by
  rw [SearchRequest.answer, search, hcorpus, hopen]
  rfl

/-- What is found in the stored tree is what is found in the tree of the index, without texts. -/
theorem answer_stored (hopen : openIndex files settings corpus = .ok index)
    (hwords : index.FitsWords)
    (hstore : (runCommand clock dataHome { invocation with command := .store corpus directory }
      settings).runOn files = (.ok output, after)) (request : SearchRequest) :
    request.answer settings clock after directory =
      (request.wanted.outcome index.table index.tree.source (request.limits settings clock)).map
        bareHits := by
  have hsave := save_of_store hopen hstore
  obtain ⟨tree, hload, htable, halike⟩ := (Index.isOf_of_load hopen).exists_load_of_save hwords hsave
  have hstored : after.isFile (Path.join directory tableName) = true :=
    (TreeRows.holds_of_save hsave).2.2.isFile
  -- The stored table is that of the index, so a pattern becomes the same automaton.
  rw [outcome_congr halike, ← htable, ← searchStored_eq tree settings.pageCapacity,
    SearchRequest.answer, search, hstored, hload]
  rfl

/-- In the stored tree nothing is found for a query without keys. -/
theorem answer_stored_of_keyless (hopen : openIndex files settings corpus = .ok index)
    (hwords : index.FitsWords)
    (hstore : (runCommand clock dataHome { invocation with command := .store corpus directory }
      settings).runOn files = (.ok output, after)) {request : SearchRequest}
    (hkeyless : request.wanted = .keys []) :
    request.answer settings clock after directory = .ok [] := by
  rw [answer_stored hopen hwords hstore, hkeyless, outcome_of_keyless]
  rfl

/-- A corpus and the directory that its tree has been stored in answer alike, where the corpus still
has the same index: a search fails at both of them in the same way, or it finds the same sentences
at both of them, in the same order. Only a query without keys is told apart. It fails at the corpus,
and in the stored tree it succeeds and finds nothing. -/
theorem answers_of_store {now : FileTree} (hopen : openIndex files settings corpus = .ok index)
    (hwords : index.FitsWords)
    (hstore : (runCommand clock dataHome { invocation with command := .store corpus directory }
      settings).runOn files = (.ok output, after))
    (hnow : openIndex now settings corpus = .ok index)
    (hcorpus : now.isFile (Path.join corpus tableName) = false) (request : SearchRequest) :
    (request.wanted ≠ .keys [] →
      (request.answer settings clock now corpus).map (·.map Hit.id) =
        (request.answer settings clock after directory).map (·.map Hit.id)) ∧
    (request.wanted = .keys [] →
      request.answer settings clock now corpus = .error .noKeys ∧
        request.answer settings clock after directory = .ok []) := by
  refine ⟨fun hkeys => ?_, fun hkeyless => ⟨?_, ?_⟩⟩
  · rw [answer_corpus hnow hcorpus, answer_stored hopen hwords hstore,
      searchIndex_eq index _ hkeys]
    cases houtcome : request.wanted.outcome index.table index.tree.source
        (request.limits settings clock) with
    | error failure => rfl
    | ok outcome =>
      have hids := map_id_resolve_outcome (Index.isOf_of_load hopen) houtcome
      exact congrArg Except.ok (hids.trans (map_id_bareHits outcome).symm)
  · rw [answer_corpus hnow hcorpus, hkeyless]
    rfl
  · exact answer_stored_of_keyless hopen hwords hstore hkeyless

/-! ### One sentence -/

/-- A directory with one sentence. -/
private def oneSentence : FileTree where
  entries := [("corpus", .directory [("t.jsonl", .file (Text.encode
    "\x7b\"source_id\":\"s\",\"sentence_index\":2,\"text\":\"ab\"\x7d\n"))])]
  current := []

/-- The options that are there when none is given. -/
private def plain : Invocation := ⟨.config false, none, false, false, false⟩

/-- A clock that never runs out. -/
private def never : Nat → Bool := fun _ => false

private theorem exists_store_oneSentence :
    ∃ after, (runCommand never "data" { plain with command := .store "corpus" "out" }
      .default).runOn oneSentence = (.ok "Exported to out\n", after) := by
  have hfirst : ((runCommand never "data" { plain with command := .store "corpus" "out" }
      .default).runOn oneSentence).1 = .ok "Exported to out\n" := by decide +kernel
  cases hstore : (runCommand never "data" { plain with command := .store "corpus" "out" }
      .default).runOn oneSentence with
  | mk result after =>
    rw [hstore] at hfirst
    exact ⟨after, congrArg (·, after) hfirst⟩

private theorem exists_oneSentence :
    ∃ index, openIndex oneSentence .default "corpus" = .ok index ∧ index.FitsWords := by
  have hwords : (openIndex oneSentence .default "corpus").toOption.any (fun index =>
      decide (index.tree.nodeCount ≤ wordBound) &&
        index.corpus.toList.all fun entry => decide (entry.1.index < wordBound)) = true := by
    decide +kernel
  cases hopen : openIndex oneSentence .default "corpus" with
  | error failure => simp [hopen, Except.toOption] at hwords
  | ok index =>
    simp only [hopen, Except.toOption, Option.any_some, Bool.and_eq_true, decide_eq_true_eq,
      List.all_eq_true] at hwords
    exact ⟨index, rfl, hwords.1, hwords.2⟩

/-- A search with two keys, of which one result is enough. -/
private def twoKeys : SearchRequest := .find "a*b" (some 1) none

/-- A search with keys finds the same in the corpus and in the stored tree. -/
theorem answers_of_store_twoKeys :
    ∃ index after, openIndex oneSentence .default "corpus" = .ok index ∧ index.FitsWords ∧
      oneSentence.isFile (Path.join "corpus" tableName) = false ∧
      (runCommand never "data" { plain with command := .store "corpus" "out" } .default).runOn
        oneSentence = (.ok "Exported to out\n", after) ∧
      twoKeys.wanted ≠ .keys [] ∧
      (twoKeys.answer .default never oneSentence "corpus").map (·.map Hit.id) =
        (twoKeys.answer .default never after "out").map (·.map Hit.id) := by
  obtain ⟨index, hopen, hwords⟩ := exists_oneSentence
  obtain ⟨after, hstore⟩ := exists_store_oneSentence
  have hcorpus : oneSentence.isFile (Path.join "corpus" tableName) = false := by decide +kernel
  have hne : Query.keys "a*b".toList ≠ [] := by decide
  have hkeys : twoKeys.wanted ≠ .keys [] := fun hwanted => hne (Wanted.keys.inj hwanted)
  exact ⟨index, after, hopen, hwords, hcorpus, hstore, hkeys,
    (answers_of_store hopen hwords hstore hopen hcorpus twoKeys).1 hkeys⟩

/-- Once the tree has been stored, a query that is nothing but a gap fails in the corpus and succeeds
in the stored tree. -/
theorem runCommand_gap :
    ∃ after, (runCommand never "data" { plain with command := .store "corpus" "out" }
        .default).runOn oneSentence = (.ok "Exported to out\n", after) ∧
      ((runCommand never "data" { plain with command := .find "corpus" "*" none none }
        .default).runOn after).1 = .error .noKeys ∧
      ((runCommand never "data" { plain with command := .find "out" "*" none none }
        .default).runOn after).1 = .ok "" := by
  obtain ⟨index, hopen, hwords⟩ := exists_oneSentence
  obtain ⟨after, hstore⟩ := exists_store_oneSentence
  refine ⟨after, hstore, ?_, ?_⟩
  · have hcorpus : ((runCommand never "data" { plain with command := .find "corpus" "*" none none }
        .default).runOn ((runCommand never "data" { plain with command := .store "corpus" "out" }
          .default).runOn oneSentence).2).1 = .error .noKeys := by decide +kernel
    rwa [hstore] at hcorpus
  · have hrun := (SearchRequest.find "*" none none).runOn_command never "data" plain .default
      after "out"
    rw [answer_stored_of_keyless hopen hwords hstore rfl] at hrun
    exact congrArg Prod.fst hrun

end CommandLine

end SentenceSearch
