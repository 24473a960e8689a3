import Mathlib.Data.List.Nodup
import Mathlib.Data.List.TakeWhile
import SentenceSearch.Corpus.Basic

/-!
# First texts

A corpus is made step by step: sentences are pushed one by one, or the lines of a file are read.
However the steps are mixed, what they offer is one list of sentences, and the corpus holds the
first non-empty text of each identifier in this list, in the order of the list.

## Main definitions

* `CorpusStep` — a push, or a file whose lines are read
* `CorpusStep.offered` — the sentences that a step offers
* `Corpus.ofSteps` — the corpus after some steps
* `Corpus.firstTexts` — the first non-empty text of each identifier
* `Corpus.IsDistinct` — no two sentences have one identifier

## Main results

* `Corpus.toList_pushAll` — what is added is the first texts of new identifiers
* `Corpus.addDecoded_eq` — lines are read up to the first one that is no text
* `Corpus.toList_ofSteps` — the corpus after any steps
-/

namespace SentenceSearch

/-- A step in the making of a corpus. -/
inductive CorpusStep where
  /-- One sentence. -/
  | push (id : SentenceId) (text : String)
  /-- The lines of a file. -/
  | readLines (bytes : ByteArray)

namespace Corpus

variable {corpus : Corpus} {id : SentenceId} {text : String} {line : List Char}
  {entries : List (SentenceId × String)}

/-! ### Identifiers -/

/-- No two sentences of the corpus have one identifier. -/
def IsDistinct (corpus : Corpus) : Prop := (corpus.toList.map Prod.fst).Nodup

theorem isSome_get?_iff : (corpus.get? id).isSome = true ↔ id ∈ corpus.toList.map Prod.fst := by
  rw [get?_eq, Option.isSome_map, List.find?_isSome, List.mem_map]
  simp only [beq_iff_eq]

theorem accepts_iff :
    corpus.accepts id text = true ↔ text ≠ "" ∧ id ∉ corpus.toList.map Prod.fst := by
  rw [accepts, Bool.and_eq_true, bne_iff_ne, Option.isNone_iff_eq_none, ← isSome_get?_iff,
    Bool.not_eq_true, Option.isSome_eq_false_iff, Option.isNone_iff_eq_none]

theorem IsDistinct.push (h : corpus.IsDistinct) (id : SentenceId) (text : String) :
    (corpus.push id text).IsDistinct := by
  rw [IsDistinct, toList_push]
  split
  · rename_i haccepts
    rw [List.map_append]
    exact List.Nodup.append h (List.nodup_singleton _)
      (List.disjoint_singleton.mpr (accepts_iff.mp haccepts).2)
  · exact h

theorem IsDistinct.pushAll (h : corpus.IsDistinct) (entries : List (SentenceId × String)) :
    (corpus.pushAll entries).IsDistinct := by
  induction entries generalizing corpus with
  | nil => exact h
  | cons entry entries ih => exact ih (h.push entry.1 entry.2)

/-- A corpus that is made sentence by sentence is distinct. -/
theorem isDistinct_ofList (entries : List (SentenceId × String)) : (ofList entries).IsDistinct := by
  have hempty : empty.IsDistinct := List.nodup_nil
  exact hempty.pushAll entries

/-- The text of an identifier is that of its only sentence. -/
theorem IsDistinct.get?_eq_some_iff (h : corpus.IsDistinct) :
    corpus.get? id = some text ↔ (id, text) ∈ corpus.toList := by
  have hmem {found : String} (hget : corpus.get? id = some found) :
      (id, found) ∈ corpus.toList := by
    rw [get?_eq, Option.map_eq_some_iff] at hget
    obtain ⟨⟨other, _⟩, hfind, rfl⟩ := hget
    have hfits := List.find?_some hfind
    obtain rfl : other = id := beq_iff_eq.mp hfits
    exact List.mem_of_find?_eq_some hfind
  refine ⟨hmem, fun hentry => ?_⟩
  -- What is found is some sentence of the identifier, so it is this one.
  obtain ⟨found, hget⟩ := Option.isSome_iff_exists.mp
    (isSome_get?_iff.mpr (List.mem_map_of_mem hentry))
  have hsame := List.inj_on_of_nodup_map h (hmem hget) hentry rfl
  rw [hget, (Prod.mk.inj hsame).2]

/-! ### Sentences that are added -/

/-- The sentences that have a text, each identifier with its first one only. -/
def firstTexts : List (SentenceId × String) → List (SentenceId × String)
  | [] => []
  | entry :: later =>
    if entry.2 = "" then
      firstTexts later
    else
      entry :: (firstTexts later).filter (·.1 ≠ entry.1)

/-- What is added is the first texts of the identifiers that are not there yet. -/
theorem toList_pushAll (corpus : Corpus) (entries : List (SentenceId × String)) :
    (corpus.pushAll entries).toList =
      corpus.toList ++ (firstTexts entries).filter (·.1 ∉ corpus.toList.map Prod.fst) := by
  induction entries generalizing corpus with
  | nil => exact (List.append_nil _).symm
  | cons entry later ih =>
    have hstep : (corpus.pushAll (entry :: later)).toList =
        ((corpus.push entry.1 entry.2).pushAll later).toList := rfl
    rw [hstep, ih, toList_push, firstTexts]
    by_cases htext : entry.2 = ""
    · have hskip : ¬ corpus.accepts entry.1 entry.2 = true := fun h => (accepts_iff.mp h).1 htext
      rw [if_neg hskip, if_pos htext]
    rw [if_neg htext]
    by_cases hold : entry.1 ∈ corpus.toList.map Prod.fst
    · have hskip : ¬ corpus.accepts entry.1 entry.2 = true := fun h => (accepts_iff.mp h).2 hold
      rw [if_neg hskip, List.filter_cons_of_neg (by simpa using hold), List.filter_filter]
      -- No later sentence of this identifier is new either.
      congr 1
      refine List.filter_congr fun other _ => ?_
      grind
    · rw [if_pos (accepts_iff.mpr ⟨htext, hold⟩), List.filter_cons_of_pos (by simpa using hold),
        List.filter_filter, List.append_assoc, List.singleton_append]
      congr 2
      refine List.filter_congr fun other _ => ?_
      rw [List.map_append, List.map_singleton]
      grind

theorem toList_ofList (entries : List (SentenceId × String)) :
    (ofList entries).toList = firstTexts entries := by
  rw [ofList, toList_pushAll, toList_empty, List.nil_append, List.filter_eq_self]
  exact fun _ _ => rfl

theorem pushAll_append (corpus : Corpus) (entries later : List (SentenceId × String)) :
    corpus.pushAll (entries ++ later) = (corpus.pushAll entries).pushAll later :=
  List.foldl_append

/-! ### Lines that are read -/

/-- The sentences that a line offers: those of its record, if it spells one. -/
def lineSentences (line : List Char) : List (SentenceId × String) :=
  ((CorpusRecord.read? (Text.trim line)).map CorpusRecord.sentences).getD []

theorem addLine_eq (corpus : Corpus) (line : List Char) :
    corpus.addLine line = corpus.pushAll (lineSentences line) := by
  rw [addLine, lineSentences]
  cases CorpusRecord.read? (Text.trim line) <;> rfl

theorem lineSentences_of_isBlank (h : ∀ c ∈ line, Text.isBlank c = true) :
    lineSentences line = [] := by
  have htrim : Text.trim line = [] := by
    rw [Text.trim, Text.trimStart, List.dropWhile_eq_nil_iff.mpr h]
    rfl
  have hnone : CorpusRecord.read? [] = none := rfl
  rw [lineSentences, htrim, hnone]
  rfl

theorem lineSentences_of_read?_eq_none (h : CorpusRecord.read? (Text.trim line) = none) :
    lineSentences line = [] := by
  rw [lineSentences, h]
  rfl

/-- A line that offers nothing changes nothing. -/
theorem addDecoded_skip (h : lineSentences line = []) (corpus : Corpus)
    (before after : List (Option (List Char))) :
    corpus.addDecoded (before ++ some line :: after) = corpus.addDecoded (before ++ after) := by
  induction before generalizing corpus with
  | nil =>
    rw [List.nil_append, addDecoded, addLine_eq, h]
    rfl
  | cons first before ih =>
    cases first with
    | none => rfl
    | some first => exact ih (corpus.addLine first)

/-- The lines of a file up to the first one that is no text. -/
def textLines (lines : List (List UInt8)) : List (List Char) :=
  (lines.takeWhile fun line => (Text.decode? line).isSome).filterMap Text.decode?

theorem textLines_cons {bytes : List UInt8} (h : Text.decode? bytes = some line)
    (lines : List (List UInt8)) : textLines (bytes :: lines) = line :: textLines lines := by
  rw [textLines, List.takeWhile_cons_of_pos (by rw [h]; rfl), List.filterMap_cons_some h]
  rfl

theorem textLines_cons_of_eq_none {bytes : List UInt8} (h : Text.decode? bytes = none)
    (lines : List (List UInt8)) : textLines (bytes :: lines) = [] := by
  rw [textLines, List.takeWhile_cons_of_neg (by rw [h]; exact Bool.false_ne_true)]
  rfl

/-- The sentences of the lines up to the first one that is no text are added, and it is told whether
there is such a line. -/
theorem addDecoded_map (corpus : Corpus) (lines : List (List UInt8)) :
    corpus.addDecoded (lines.map Text.decode?) =
      (corpus.pushAll ((textLines lines).flatMap lineSentences),
        lines.all fun line => (Text.decode? line).isSome) := by
  induction lines generalizing corpus with
  | nil => rfl
  | cons bytes lines ih =>
    rw [List.map_cons, List.all_cons]
    cases hline : Text.decode? bytes with
    | none =>
      rw [textLines_cons_of_eq_none hline]
      rfl
    | some line =>
      rw [addDecoded, ih, addLine_eq, textLines_cons hline, List.flatMap_cons, pushAll_append]
      rfl

/-- After a line that is no text nothing is read. -/
theorem textLines_append {bad : List UInt8} {before after : List (List UInt8)}
    (hbefore : ∀ line ∈ before, (Text.decode? line).isSome = true)
    (hbad : Text.decode? bad = none) :
    textLines (before ++ bad :: after) = before.filterMap Text.decode? := by
  induction before with
  | nil => exact textLines_cons_of_eq_none hbad after
  | cons bytes before ih =>
    obtain ⟨hbytes, hbefore⟩ := List.forall_mem_cons.mp hbefore
    obtain ⟨line, hline⟩ := Option.isSome_iff_exists.mp hbytes
    rw [List.cons_append, textLines_cons hline, ih hbefore, List.filterMap_cons_some hline]

end Corpus

/-! ### Steps -/

namespace CorpusStep

/-- Make a step. It is told whether a pushed sentence was added, and whether a file was all text. -/
def apply (corpus : Corpus) : CorpusStep → Corpus × Bool
  | .push id text => (corpus.push id text, corpus.accepts id text)
  | .readLines bytes => corpus.addLines bytes

/-- The sentences that a step offers. -/
def offered : CorpusStep → List (SentenceId × String)
  | .push id text => [(id, text)]
  | .readLines bytes => (Corpus.textLines (Text.lines bytes)).flatMap Corpus.lineSentences

/-- After a step the corpus has been offered the sentences of the step. -/
theorem apply_fst (corpus : Corpus) (step : CorpusStep) :
    (step.apply corpus).1 = corpus.pushAll step.offered := by
  cases step with
  | push id text => rfl
  | readLines bytes => rw [apply, Corpus.addLines, Corpus.addDecoded_map, offered]

end CorpusStep

namespace Corpus

/-- The corpus after some steps. -/
def ofSteps (steps : List CorpusStep) : Corpus :=
  steps.foldl (fun corpus step => (step.apply corpus).1) empty

/-- The steps make the corpus of the sentences that they offer. -/
theorem ofSteps_eq (steps : List CorpusStep) :
    ofSteps steps = ofList (steps.flatMap CorpusStep.offered) := by
  have hrun (corpus : Corpus) : steps.foldl (fun corpus step => (step.apply corpus).1) corpus =
      corpus.pushAll (steps.flatMap CorpusStep.offered) := by
    induction steps generalizing corpus with
    | nil => rfl
    | cons step steps ih =>
      rw [List.foldl_cons, ih, CorpusStep.apply_fst, List.flatMap_cons, pushAll_append]
  exact hrun empty

theorem ofSteps_concat (steps : List CorpusStep) (step : CorpusStep) :
    ofSteps (steps ++ [step]) = (step.apply (ofSteps steps)).1 :=
  List.foldl_concat ..

/-- The title of an article comes first, and the sentences of its body follow from position 2 on. -/
theorem sentences_article (id title body : String) :
    (CorpusRecord.article id title body).sentences =
      (⟨id, 1⟩, title) :: (splitSentences body.toList).mapIdx fun i piece =>
        (⟨id, i + 2⟩, String.ofList piece) := by
  refine List.ext_getElem? fun i => ?_
  cases i with
  | zero => rfl
  | succ i =>
    have hindex : SentenceId.titleIndex + (i + 1) = i + 2 := Nat.add_comm 1 (i + 1)
    rw [CorpusRecord.sentences, List.getElem?_map, List.getElem?_zipIdx, List.getElem?_cons_succ,
      List.getElem?_cons_succ, List.getElem?_map, List.getElem?_mapIdx]
    cases (splitSentences body.toList)[i]? with
    | none => rfl
    | some piece => simp [hindex]

/-- An article without a title. -/
private def articleLine : String := "\x7b\"id\":\"a\",\"title\":\"\",\"body\":\"一。二。\"\x7d"

/-- A sentence of the same article. -/
private def sentenceLine : String :=
  "\x7b\"source_id\":\"a\",\"sentence_index\":3,\"text\":\"三。\"\x7d"

/-- A file in which a line that is no text comes between the two. -/
private def brokenFile : ByteArray :=
  ⟨((Text.encode (articleLine ++ "\n")).data ++ #[0xFF, 0x0A]) ++ (Text.encode sentenceLine).data⟩

-- The text that came first stays, and an empty one is no text.
example : (ofSteps [.push ⟨"a", 3⟩ "先。", .readLines brokenFile, .push ⟨"a", 1⟩ "題"]).toList =
    [(⟨"a", 3⟩, "先。"), (⟨"a", 2⟩, "一。"), (⟨"a", 1⟩, "題")] := by decide +kernel

end Corpus

end SentenceSearch
