import Mathlib.Data.List.DropRight
import SentenceSearch.Corpus.Split

/-!
# Where sentences end

When pieces are the sentences of a text is said here without the splitter: they follow one another
in the text with nothing but spaces in between, each but perhaps the last one ends with a full stop
outside of quotations, and inside of a piece there is no such full stop. The splitter finds these
pieces and no other ones.

Nothing more is needed to split again. A sentence is its own only sentence, and sentences that are
put together without the spaces are found again.

## Main definitions

* `Corpus.openQuotes` — how many quotations are open after a piece
* `Corpus.IsSentence` — what each sentence looks like
* `Corpus.Splits` — the pieces are the sentences of a text

## Main results

* `Corpus.splitSentences_eq_iff` — the splitter finds the sentences of a text
* `Corpus.lossless_splitSentences` — what sentences look like, and that only spaces are lost
-/

namespace SentenceSearch.Corpus

variable {c : Char} {front piece more spaces blanks text : List Char} {pieces : List (List Char)}

/-! ### Pieces of a text -/

/-- Number of quotations that are open after a piece of a text. -/
def openQuotes (piece : List Char) : Nat := piece.foldl quoteDepth 0

/-- The piece ends with a full stop outside of quotations. -/
def IsComplete (piece : List Char) : Prop :=
  piece.getLast? = some fullStop ∧ openQuotes piece = 0

/-- A piece that does not start with a space or end with a blank, and in which no full stop outside
of quotations comes before the end. -/
structure IsSentence (piece : List Char) : Prop where
  ne_nil : piece ≠ []
  not_space : ∀ c, piece.head? = some c → isLeadingSpace c = false
  not_blank : ∀ c, piece.getLast? = some c → Text.isBlank c = false
  undivided : ∀ front, front <+: piece → front ≠ piece → ¬ IsComplete front

/-- The pieces are the sentences of the text: there are only spaces in front of each of them and
only blanks after the last one. -/
inductive Splits : List Char → List (List Char) → Prop
  /-- Without a sentence. -/
  | blank {blanks : List Char} (hblanks : ∀ c ∈ blanks, Text.isBlank c = true) : Splits blanks []
  /-- A last sentence without a full stop. -/
  | rest {spaces piece blanks : List Char} (hspaces : ∀ c ∈ spaces, isLeadingSpace c = true)
      (hpiece : IsSentence piece) (hopen : ¬ IsComplete piece)
      (hblanks : ∀ c ∈ blanks, Text.isBlank c = true) :
      Splits (spaces ++ (piece ++ blanks)) [piece]
  /-- A sentence up to its full stop, and the ones after it. -/
  | sentence {spaces piece text : List Char} {pieces : List (List Char)}
      (hspaces : ∀ c ∈ spaces, isLeadingSpace c = true) (hpiece : IsSentence piece)
      (hcomplete : IsComplete piece) (hlater : Splits text pieces) :
      Splits (spaces ++ (piece ++ text)) (piece :: pieces)

/-- A piece in which no sentence has ended yet. -/
structure IsUnfinished (piece : List Char) : Prop where
  not_space : ∀ c, piece.head? = some c → isLeadingSpace c = false
  not_complete : ∀ front, front <+: piece → ¬ IsComplete front

instance : DecidablePred IsComplete := fun _ => inferInstanceAs (Decidable (_ ∧ _))

theorem not_isComplete_nil : ¬ IsComplete [] := fun h => nomatch h.1

theorem isComplete_concat_iff :
    IsComplete (piece ++ [c]) ↔ c = fullStop ∧ quoteDepth (openQuotes piece) c = 0 := by
  rw [IsComplete, openQuotes, List.getLast?_concat, Option.some.injEq, List.foldl_concat]
  rfl

theorem isBlank_of_isLeadingSpace (h : isLeadingSpace c = true) : Text.isBlank c = true := by
  simp only [isLeadingSpace, Bool.or_eq_true, decide_eq_true_eq] at h
  rcases h with ((((rfl | rfl) | rfl) | rfl) | rfl) | rfl <;> rfl

theorem isBlank_fullStop : Text.isBlank fullStop = false := rfl

theorem isUnfinished_nil : IsUnfinished [] where
  not_space _ h := nomatch h
  not_complete front hfront := by
    rw [List.prefix_nil.mp hfront]
    exact not_isComplete_nil

theorem IsUnfinished.head_concat (h : IsUnfinished piece)
    (hc : piece = [] → isLeadingSpace c = false) :
    ∀ d, (piece ++ [c]).head? = some d → isLeadingSpace d = false := by
  intro d hd
  cases piece with
  | nil =>
    obtain rfl : c = d := Option.some.inj hd
    exact hc rfl
  | cons e piece => exact h.not_space d hd

theorem IsUnfinished.concat (h : IsUnfinished piece) (hc : piece = [] → isLeadingSpace c = false)
    (hopen : ¬ IsComplete (piece ++ [c])) : IsUnfinished (piece ++ [c]) where
  not_space := h.head_concat hc
  not_complete front hfront := by
    rcases List.prefix_concat_iff.mp hfront with rfl | hfront
    · exact hopen
    · exact h.not_complete front hfront

/-- A piece becomes a sentence with its full stop. -/
theorem IsUnfinished.isSentence_concat (h : IsUnfinished piece)
    (hc : piece = [] → isLeadingSpace c = false) (hcomplete : IsComplete (piece ++ [c])) :
    IsSentence (piece ++ [c]) where
  ne_nil := List.concat_ne_nil c piece
  not_space := h.head_concat hc
  not_blank d hd := by
    rw [hcomplete.1, Option.some.injEq] at hd
    exact hd ▸ isBlank_fullStop
  undivided front hfront hne := by
    rcases List.prefix_concat_iff.mp hfront with rfl | hfront
    · exact absurd rfl hne
    · exact h.not_complete front hfront

theorem IsUnfinished.of_prefix (h : IsUnfinished piece) (hfront : front <+: piece) :
    IsUnfinished front where
  not_space c hc := by
    obtain ⟨more, rfl⟩ := hfront
    cases front with
    | nil => cases hc
    | cons d front => exact h.not_space c hc
  not_complete other hother := h.not_complete other (hother.trans hfront)

/-- What is left at the end is a sentence without a full stop, less the blanks at its end. -/
theorem IsUnfinished.isSentence_trimEnd (h : IsUnfinished piece) (hne : Text.trimEnd piece ≠ []) :
    IsSentence (Text.trimEnd piece) ∧ ¬ IsComplete (Text.trimEnd piece) := by
  obtain ⟨blanks, hpiece, -⟩ := Text.trimEnd_append piece
  have hkept := h.of_prefix ⟨blanks, hpiece.symm⟩
  exact ⟨⟨hne, hkept.not_space, fun c => Text.isBlank_getLast_trimEnd,
    fun front hfront _ => hkept.not_complete front hfront⟩, hkept.not_complete _ List.prefix_rfl⟩

theorem IsSentence.isUnfinished (h : IsSentence piece) (hopen : ¬ IsComplete piece) :
    IsUnfinished piece where
  not_space := h.not_space
  not_complete front hfront hcomplete := by
    by_cases heq : front = piece
    · exact hopen (heq ▸ hcomplete)
    · exact h.undivided front hfront heq hcomplete

/-- Before its full stop a sentence is unfinished. -/
theorem IsSentence.isUnfinished_of_concat (h : IsSentence (piece ++ [c])) : IsUnfinished piece where
  not_space d hd := by
    cases piece with
    | nil => cases hd
    | cons e piece => exact h.not_space d hd
  not_complete front hfront := by
    refine h.undivided front (hfront.trans (List.prefix_append piece [c])) ?_
    rintro rfl
    have hlength := hfront.length_le
    rw [List.length_append, List.length_singleton] at hlength
    omega

/-! ### Splitting on after a piece -/

/-- The sentences of a text after an unfinished piece of the first one. -/
def splitAfter (piece text : List Char) : List (List Char) :=
  splitFrom piece.reverse (openQuotes piece) text

theorem splitAfter_nil_right :
    splitAfter piece [] = if Text.trimEnd piece = [] then [] else [Text.trimEnd piece] := by
  simp only [splitAfter, splitFrom, List.reverse_reverse, List.isEmpty_iff]

theorem splitAfter_cons_of_isLeadingSpace (h : isLeadingSpace c = true) :
    splitAfter [] (c :: text) = splitAfter [] text := by
  rw [splitAfter, splitFrom, List.reverse_nil, h]
  rfl

/-- After a character of the piece the sentence either ends or goes on. -/
theorem splitAfter_cons (hc : piece = [] → isLeadingSpace c = false) :
    splitAfter piece (c :: text) =
      if IsComplete (piece ++ [c]) then (piece ++ [c]) :: splitAfter [] text
      else splitAfter (piece ++ [c]) text := by
  have hspace : (piece.reverse.isEmpty && isLeadingSpace c) = false := by
    cases piece with
    | nil => exact hc rfl
    | cons d piece => simp
  have hdepth : openQuotes (piece ++ [c]) = quoteDepth (openQuotes piece) c := List.foldl_concat ..
  rw [splitAfter, splitFrom, hspace, if_neg Bool.false_ne_true, List.reverse_cons,
    List.reverse_reverse, splitAfter, splitAfter, hdepth, List.reverse_concat]
  congr 1
  simp [isComplete_concat_iff]

/-- Spaces in front are skipped. -/
theorem splitAfter_spaces (hspaces : ∀ c ∈ spaces, isLeadingSpace c = true) :
    splitAfter [] (spaces ++ text) = splitAfter [] text := by
  induction spaces with
  | nil => rfl
  | cons c spaces ih =>
    obtain ⟨hc, hspaces⟩ := List.forall_mem_cons.mp hspaces
    rw [List.cons_append, splitAfter_cons_of_isLeadingSpace hc, ih hspaces]

/-- An unfinished piece is read without an end in it. -/
theorem splitAfter_append (h : IsUnfinished (front ++ more)) :
    splitAfter front (more ++ text) = splitAfter (front ++ more) text := by
  induction more generalizing front with
  | nil => rw [List.append_nil, List.nil_append]
  | cons c more ih =>
    rw [List.append_cons] at h ⊢
    have hc : front = [] → isLeadingSpace c = false := by
      rintro rfl
      exact h.not_space c rfl
    rw [List.cons_append, splitAfter_cons hc,
      if_neg (h.not_complete _ (List.prefix_append _ more)), ih h]

/-- Blanks at the end make no difference. -/
theorem splitAfter_blanks (hblanks : ∀ c ∈ blanks, Text.isBlank c = true) :
    splitAfter piece blanks = splitAfter piece [] := by
  induction blanks generalizing piece with
  | nil => rfl
  | cons c blanks ih =>
    obtain ⟨hc, hblanks⟩ := List.forall_mem_cons.mp hblanks
    have hopen : ¬ IsComplete (piece ++ [c]) := by
      rw [isComplete_concat_iff]
      rintro ⟨rfl, -⟩
      exact Bool.false_ne_true (isBlank_fullStop.symm.trans hc)
    have htrim : Text.trimEnd (piece ++ [c]) = Text.trimEnd piece :=
      List.rdropWhile_concat_pos Text.isBlank piece c hc
    by_cases hskip : piece = [] ∧ isLeadingSpace c = true
    · obtain ⟨rfl, hspace⟩ := hskip
      rw [splitAfter_cons_of_isLeadingSpace hspace, ih hblanks]
    · have hc : piece = [] → isLeadingSpace c = false := by simpa using hskip
      rw [splitAfter_cons hc, if_neg hopen, ih hblanks, splitAfter_nil_right,
        splitAfter_nil_right, htrim]

/-! ### The sentences of a text -/

/-- A sentence at the very start of a text. -/
theorem Splits.cons (hpiece : IsSentence piece) (hcomplete : IsComplete piece)
    (h : Splits text pieces) : Splits (piece ++ text) (piece :: pieces) :=
  .sentence (List.forall_mem_nil _) hpiece hcomplete h

/-- A last sentence at the very start of a text. -/
theorem splits_append_blanks (hpiece : IsSentence piece) (hopen : ¬ IsComplete piece)
    (hblanks : ∀ c ∈ blanks, Text.isBlank c = true) : Splits (piece ++ blanks) [piece] :=
  .rest (List.forall_mem_nil _) hpiece hopen hblanks

theorem Splits.space (hc : isLeadingSpace c = true) (h : Splits text pieces) :
    Splits (c :: text) pieces := by
  cases h with
  | blank hblanks => exact .blank (List.forall_mem_cons.mpr ⟨isBlank_of_isLeadingSpace hc, hblanks⟩)
  | rest hspaces hpiece hopen hblanks =>
    exact .rest (List.forall_mem_cons.mpr ⟨hc, hspaces⟩) hpiece hopen hblanks
  | sentence hspaces hpiece hcomplete hlater =>
    exact .sentence (List.forall_mem_cons.mpr ⟨hc, hspaces⟩) hpiece hcomplete hlater

/-- What is found is the sentences of the text. -/
theorem splits_splitAfter (h : IsUnfinished piece) :
    Splits (piece ++ text) (splitAfter piece text) := by
  induction text generalizing piece with
  | nil =>
    obtain ⟨blanks, hpiece, hblanks⟩ := Text.trimEnd_append piece
    rw [splitAfter_nil_right, List.append_nil]
    split
    · rename_i hnone
      rw [hnone, List.nil_append] at hpiece
      exact .blank (hpiece ▸ hblanks)
    · rename_i hne
      obtain ⟨hsentence, hopen⟩ := h.isSentence_trimEnd hne
      have hsplits := splits_append_blanks hsentence hopen hblanks
      rwa [← hpiece] at hsplits
  | cons c text ih =>
    by_cases hskip : piece = [] ∧ isLeadingSpace c = true
    · obtain ⟨rfl, hspace⟩ := hskip
      rw [splitAfter_cons_of_isLeadingSpace hspace]
      exact (ih h).space hspace
    · have hc : piece = [] → isLeadingSpace c = false := by simpa using hskip
      rw [splitAfter_cons hc, List.append_cons]
      split
      · rename_i hcomplete
        exact (ih isUnfinished_nil).cons (h.isSentence_concat hc hcomplete) hcomplete
      · rename_i hopen
        exact ih (h.concat hc hopen)

/-- The sentences of a text are what is found. -/
theorem Splits.eq_splitAfter (h : Splits text pieces) : splitAfter [] text = pieces := by
  induction h with
  | blank hblanks =>
    rw [splitAfter_blanks hblanks]
    rfl
  | @rest spaces piece blanks hspaces hpiece hopen hblanks =>
    have hunfinished : IsUnfinished ([] ++ piece) := hpiece.isUnfinished hopen
    have htrim : Text.trimEnd piece = piece := by
      refine List.rdropWhile_eq_self_iff.mpr fun hne => ?_
      rw [hpiece.not_blank _ (List.getLast?_eq_some_getLast hne)]
      exact Bool.false_ne_true
    rw [splitAfter_spaces hspaces, splitAfter_append hunfinished, splitAfter_blanks hblanks,
      List.nil_append, splitAfter_nil_right, htrim, if_neg hpiece.ne_nil]
  | @sentence spaces piece text pieces hspaces hpiece hcomplete hlater ih =>
    -- The full stop of the sentence is the first one that counts.
    obtain ⟨front, rfl⟩ : ∃ front, piece = front ++ [fullStop] :=
      List.getLast?_eq_some_iff.mp hcomplete.1
    have hunfinished : IsUnfinished ([] ++ front) := hpiece.isUnfinished_of_concat
    rw [splitAfter_spaces hspaces, List.append_assoc, splitAfter_append hunfinished,
      List.nil_append, List.singleton_append, splitAfter_cons (fun _ => rfl), if_pos hcomplete, ih]

/-- The splitter finds the sentences of a text, whatever it is. -/
theorem splitSentences_eq_iff : splitSentences text = pieces ↔ Splits text pieces := by
  constructor
  · rintro rfl
    exact splits_splitAfter isUnfinished_nil
  · exact Splits.eq_splitAfter

/-! ### What sentences are like -/

theorem Splits.isSentence (h : Splits text pieces) : ∀ piece ∈ pieces, IsSentence piece := by
  induction h with
  | blank => exact List.forall_mem_nil _
  | rest _ hpiece => exact List.forall_mem_singleton.mpr hpiece
  | sentence _ hpiece _ _ ih => exact List.forall_mem_cons.mpr ⟨hpiece, ih⟩

/-- Only the last sentence may have no full stop. -/
theorem Splits.isComplete_of_mem_dropLast (h : Splits text pieces) :
    ∀ piece ∈ pieces.dropLast, IsComplete piece := by
  induction h with
  | blank => exact List.forall_mem_nil _
  | rest => exact List.forall_mem_nil _
  | @sentence spaces piece text pieces _ _ hcomplete _ ih =>
    cases pieces with
    | nil => exact List.forall_mem_nil _
    | cons next pieces => exact List.forall_mem_cons.mpr ⟨hcomplete, ih⟩

/-- The text is its sentences with spaces in front of each of them and blanks at the end. -/
theorem Splits.exists_gaps (h : Splits text pieces) :
    ∃ gaps blanks, gaps.length = pieces.length ∧
      (∀ gap ∈ gaps, ∀ c ∈ gap, isLeadingSpace c = true) ∧
      (∀ c ∈ blanks, Text.isBlank c = true) ∧
      text = (List.zipWith (· ++ ·) gaps pieces).flatten ++ blanks := by
  induction h with
  | @blank blanks hblanks => exact ⟨[], blanks, rfl, List.forall_mem_nil _, hblanks, rfl⟩
  | @rest spaces piece blanks hspaces _ _ hblanks =>
    exact ⟨[spaces], blanks, rfl, List.forall_mem_singleton.mpr hspaces, hblanks, by simp⟩
  | @sentence spaces piece text pieces hspaces _ _ _ ih =>
    obtain ⟨gaps, blanks, hlength, hgaps, hblanks, rfl⟩ := ih
    exact ⟨spaces :: gaps, blanks, congrArg (· + 1) hlength,
      List.forall_mem_cons.mpr ⟨hspaces, hgaps⟩, hblanks, by simp⟩

/-- A sentence is its own only sentence. -/
theorem IsSentence.splits (h : IsSentence piece) : Splits piece [piece] := by
  by_cases hcomplete : IsComplete piece
  · have hnone : Splits [] [] := .blank (List.forall_mem_nil _)
    have hsplits := hnone.cons h hcomplete
    rwa [List.append_nil] at hsplits
  · have hsplits := splits_append_blanks h hcomplete (List.forall_mem_nil _)
    rwa [List.append_nil] at hsplits

/-- Sentences that are put together are the sentences of the result. -/
theorem Splits.flatten (h : Splits text pieces) : Splits pieces.flatten pieces := by
  induction h with
  | blank => exact .blank (List.forall_mem_nil _)
  | rest _ hpiece =>
    rw [List.flatten_singleton]
    exact hpiece.splits
  | sentence _ hpiece hcomplete _ ih => exact ih.cons hpiece hcomplete

/-- Splitting loses nothing but spaces between sentences and blanks at the end, and it is stable:
the sentences are split in the same way again, one by one as well as put together. -/
theorem lossless_splitSentences (text : List Char) :
    (∀ piece ∈ splitSentences text,
      piece ≠ [] ∧ (∀ c, piece.head? = some c → isLeadingSpace c = false) ∧
      (∀ front, front <+: piece → front ≠ piece → front.getLast? = some fullStop →
        openQuotes front ≠ 0) ∧
      splitSentences piece = [piece]) ∧
    (∀ piece ∈ (splitSentences text).dropLast, piece.getLast? = some fullStop) ∧
    (∃ gaps blanks, gaps.length = (splitSentences text).length ∧
      (∀ gap ∈ gaps, ∀ c ∈ gap, isLeadingSpace c = true) ∧
      (∀ c ∈ blanks, Text.isBlank c = true) ∧
      text = (List.zipWith (· ++ ·) gaps (splitSentences text)).flatten ++ blanks) ∧
    splitSentences (splitSentences text).flatten = splitSentences text := by
  have hsplits : Splits text (splitSentences text) := splitSentences_eq_iff.mp rfl
  refine ⟨fun piece hpiece => ?_, fun piece hpiece => ?_, hsplits.exists_gaps, ?_⟩
  · have hsentence := hsplits.isSentence piece hpiece
    exact ⟨hsentence.ne_nil, hsentence.not_space,
      fun front hfront hne hstop hdepth => hsentence.undivided front hfront hne ⟨hstop, hdepth⟩,
      splitSentences_eq_iff.mpr hsentence.splits⟩
  · exact (hsplits.isComplete_of_mem_dropLast piece hpiece).1
  · exact splitSentences_eq_iff.mpr hsplits.flatten

-- Blanks that are no spaces stay in front, and an unclosed quotation holds two full stops together.
example : splitSentences "\u3000\u00a0一。 」「二。三。」 四。\n五「六。七。\u00a0 ".toList =
    ["\u00a0一。".toList, "」「二。三。」 四。".toList, "五「六。七。".toList] := by decide

end SentenceSearch.Corpus
