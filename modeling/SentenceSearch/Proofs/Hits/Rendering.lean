import SentenceSearch.Proofs.Hits.ByteSpans

/-!
# Lines of hits

A line of a hit is cut at the spans of the keys, and the pieces are written one after the other.
Because each span starts after the end of the one before it, the pieces make up the text again.
Colors only add control sequences, and only where the source, the position or a span starts or ends.

## Main definitions

* `SpansFollow` — spans that follow one another in a text
* `withMarks` — a text with something put in front of its characters
* `spanMarks` — what spans put in front of the character at a position

## Main results

* `flatMap_text_cutAtSpans` — the pieces of a text make it up
* `flatMap_colored_cutAtSpans` — with colors there is more at the ends of spans and nowhere else
* `renderHits_keySpans` — the spans of keys, and the lines with and without colors
-/

namespace SentenceSearch

variable {text rest whole : List Char} {keys : List (List Char)} {span : TextSpan}
  {spans : List TextSpan} {offset length i : Nat}

open Text

/-! ### Spans that follow one another -/

/-- The spans follow one another in a text of some length, each at least one character long and the
first one not before `offset`. -/
def SpansFollow (length : Nat) : Nat → List TextSpan → Prop
  | offset, [] => offset ≤ length
  | offset, span :: spans =>
    offset ≤ span.start ∧ span.start < span.stop ∧ SpansFollow length span.stop spans

theorem SpansFollow.le (h : SpansFollow length offset spans) : offset ≤ length := by
  induction spans generalizing offset with
  | nil => exact h
  | cons span spans ih =>
    obtain ⟨hstart, hstop, hlater⟩ := h
    exact hstart.trans (hstop.le.trans (ih hlater))

theorem SpansFollow.of_mem (h : SpansFollow length offset spans) (hspan : span ∈ spans) :
    offset ≤ span.start ∧ span.start < span.stop ∧ span.stop ≤ length := by
  induction spans generalizing offset with
  | nil => cases hspan
  | cons first spans ih =>
    obtain ⟨hstart, hstop, hlater⟩ := h
    rcases List.mem_cons.mp hspan with rfl | hspan
    · exact ⟨hstart, hstop, hlater.le⟩
    · obtain ⟨hafter, hinside⟩ := ih hlater hspan
      exact ⟨hstart.trans (hstop.le.trans hafter), hinside⟩

theorem spansFollow_keySpansFrom (hkeys : ∀ key ∈ keys, key ≠ [])
    (hoffset : offset ≤ whole.length) :
    SpansFollow whole.length offset (keySpansFrom offset (whole.drop offset) keys) := by
  induction keys generalizing offset with
  | nil => exact hoffset
  | cons key keys ih =>
    obtain ⟨hne, hkeys⟩ := List.forall_mem_cons.mp hkeys
    rw [keySpansFrom]
    split
    · exact hoffset
    · rename_i i hfirst
      obtain ⟨hi, hhere, -⟩ := firstPosition?_eq_some_iff.mp hfirst
      have hpos : 0 < key.length := List.length_pos_iff.mpr hne
      have hfits := hhere.length_le
      rw [List.length_drop] at hi
      rw [List.length_drop, List.length_drop] at hfits
      have hstop : offset + i + key.length ≤ whole.length := by omega
      refine ⟨Nat.le_add_right _ _, Nat.lt_add_of_pos_right hpos, ?_⟩
      rw [List.drop_drop, ← Nat.add_assoc]
      exact ih hkeys hstop

theorem spansFollow_keySpans (text : List Char) (keys : List (List Char)) :
    SpansFollow text.length 0 (keySpans text keys) :=
  spansFollow_keySpansFrom (ne_nil_of_mem_filter keys) (Nat.zero_le _)

/-! ### Pieces of a text -/

/-- A part of a text and what comes after it. -/
theorem slice_append_drop {stop : Nat} (hle : offset ≤ stop) (hstop : stop ≤ text.length) :
    (text.take stop).drop offset ++ text.drop stop = text.drop offset := by
  have hlength : offset ≤ (text.take stop).length := by
    rwa [List.length_take, Nat.min_eq_left hstop]
  rw [← List.drop_append_of_le_length hlength, List.take_append_drop]

/-- What is left of a text in front of a span, the span, and what comes after it. -/
theorem SpansFollow.drop_eq (h : SpansFollow text.length offset (span :: spans)) :
    text.drop offset =
      (text.take span.start).drop offset ++ (span.slice text ++ text.drop span.stop) := by
  obtain ⟨hstart, hstop, hlater⟩ := h
  have hinside := hlater.le
  rw [TextSpan.slice, slice_append_drop hstop.le hinside,
    slice_append_drop hstart (hstop.le.trans hinside)]

/-- The pieces into which a text is cut make it up. -/
theorem flatMap_text_cutAtSpans (h : SpansFollow text.length offset spans) :
    (cutAtSpans offset text spans).flatMap Piece.text = text.drop offset := by
  induction spans generalizing offset with
  | nil => exact List.append_nil _
  | cons span spans ih =>
    rw [h.drop_eq, cutAtSpans, List.flatMap_cons, List.flatMap_cons, ih h.2.2]
    rfl

/-! ### Marks -/

/-- A text with something put in front of each of its characters, and at its end. -/
def withMarks (marks : Nat → List Char) : List Char → List Char
  | [] => marks 0
  | c :: text => marks 0 ++ c :: withMarks (fun i => marks (i + 1)) text

/-- Where there are no marks the text is as it was. -/
theorem withMarks_append {marks : Nat → List Char} (hnone : ∀ i < text.length, marks i = []) :
    withMarks marks (text ++ rest) = text ++ withMarks (fun i => marks (text.length + i)) rest := by
  induction text generalizing marks with
  | nil => simp only [List.nil_append, List.length_nil, Nat.zero_add]
  | cons c text ih =>
    have hlater : ∀ i < text.length, marks (i + 1) = [] :=
      fun i hi => hnone (i + 1) (Nat.succ_lt_succ hi)
    rw [List.cons_append, withMarks, hnone 0 (Nat.succ_pos _), ih hlater]
    simp only [List.nil_append, List.cons_append, List.length_cons, Nat.add_right_comm]

theorem withMarks_of_nil {marks : Nat → List Char} (hnone : ∀ i ≤ text.length, marks i = []) :
    withMarks marks text = text := by
  have hend := hnone text.length le_rfl
  have happend : withMarks marks (text ++ []) = _ :=
    withMarks_append fun i hi => hnone i (Nat.le_of_lt hi)
  rwa [withMarks, Nat.add_zero, hend, List.append_nil] at happend

/-- The mark in front of a text is written first. -/
theorem withMarks_of_first {marks marks' : Nat → List Char} {mark : List Char}
    (hfirst : marks 0 = mark ++ marks' 0) (hlater : ∀ i, marks (i + 1) = marks' (i + 1)) :
    withMarks marks text = mark ++ withMarks marks' text := by
  cases text with
  | nil => exact hfirst
  | cons c text => simp only [withMarks, hfirst, hlater, List.append_assoc]

/-- A mark in front of a text that is not empty, and none inside of it. -/
theorem withMarks_append_of_ne_nil {marks : Nat → List Char} {mark : List Char} (hne : text ≠ [])
    (hmarks : ∀ i < text.length, marks i = if i = 0 then mark else []) :
    withMarks marks (text ++ rest) =
      mark ++ (text ++ withMarks (fun i => marks (text.length + i)) rest) := by
  obtain ⟨c, text, rfl⟩ := List.exists_cons_of_ne_nil hne
  have hnone : ∀ i < text.length, marks (i + 1) = [] :=
    fun i hi => (hmarks (i + 1) (Nat.succ_lt_succ hi)).trans (if_neg (Nat.succ_ne_zero i))
  rw [List.cons_append, withMarks, hmarks 0 (Nat.succ_pos _), if_pos rfl, withMarks_append hnone]
  simp only [List.cons_append, List.length_cons, Nat.add_right_comm]

/-- The control sequences that switch a style on. -/
def Style.switchOn (style : Style) : List Char :=
  (resetCode :: style.codes).flatMap controlSequence

/-- The control sequence that switches all styles off. -/
def switchOff : List Char := controlSequence resetCode

/-- A text in a style. -/
def Style.around (style : Style) (text : List Char) : List Char :=
  style.switchOn ++ text ++ switchOff

/-- What spans put in front of the character at a position: the end of a span there, and then the
start of one. -/
def spanMarks (spans : List TextSpan) (i : Nat) : List Char :=
  (if i ∈ spans.map TextSpan.stop then switchOff else []) ++
    if i ∈ spans.map TextSpan.start then Style.key.switchOn else []

/-- Up to the end of the first span there is nothing but its start. -/
theorem SpansFollow.spanMarks_of_lt (h : SpansFollow length offset (span :: spans))
    (hi : i < span.stop) :
    spanMarks (span :: spans) i = if i = span.start then Style.key.switchOn else [] := by
  have hstops : i ∉ (span :: spans).map TextSpan.stop := by
    intro hmem
    obtain ⟨other, hother, rfl⟩ := List.mem_map.mp hmem
    rcases List.mem_cons.mp hother with rfl | hother
    · exact absurd hi (Nat.lt_irrefl _)
    · have hlater := h.2.2.of_mem hother
      omega
  have hstarts : i ∈ (span :: spans).map TextSpan.start ↔ i = span.start := by
    rw [List.map_cons, List.mem_cons, or_iff_left_iff_imp]
    intro hmem
    obtain ⟨other, hother, rfl⟩ := List.mem_map.mp hmem
    exact absurd hi (Nat.not_lt_of_le (h.2.2.of_mem hother).1)
  rw [spanMarks, if_neg hstops, List.nil_append]
  simp only [hstarts]

/-- After the first span there are the marks of the later ones, and its end in front of them. -/
theorem SpansFollow.spanMarks_of_le (h : SpansFollow length offset (span :: spans))
    (hi : span.stop ≤ i) :
    spanMarks (span :: spans) i =
      (if i = span.stop then switchOff else []) ++ spanMarks spans i := by
  have hstarts : i ∈ (span :: spans).map TextSpan.start ↔ i ∈ spans.map TextSpan.start := by
    rw [List.map_cons, List.mem_cons, or_iff_right_iff_imp]
    rintro rfl
    exact absurd h.2.1 (Nat.not_lt_of_le hi)
  simp only [spanMarks, hstarts]
  by_cases hstop : i = span.stop
  · -- No later span ends here.
    have hlater : i ∉ spans.map TextSpan.stop := by
      intro hmem
      obtain ⟨other, hother, hsame⟩ := List.mem_map.mp hmem
      have hafter := h.2.2.of_mem hother
      omega
    have hhere : i ∈ (span :: spans).map TextSpan.stop := by
      rw [hstop]
      exact List.mem_cons_self
    rw [if_pos hhere, if_neg hlater, if_pos hstop, List.nil_append]
  · have hstops : i ∈ (span :: spans).map TextSpan.stop ↔ i ∈ spans.map TextSpan.stop := by
      rw [List.map_cons, List.mem_cons, or_iff_right hstop]
    simp only [hstops, if_neg hstop, List.nil_append]

/-- The marks of the first span are around its characters. -/
theorem SpansFollow.withMarks_drop (h : SpansFollow text.length offset (span :: spans)) :
    withMarks (fun i => spanMarks (span :: spans) (offset + i)) (text.drop offset) =
      (text.take span.start).drop offset ++ (Style.key.around (span.slice text) ++
        withMarks (fun i => spanMarks spans (span.stop + i)) (text.drop span.stop)) := by
  have hstart := h.1
  have hstop := h.2.1
  have hinside := h.2.2.le
  have hfront : offset + ((text.take span.start).drop offset).length = span.start := by
    rw [List.length_drop, List.length_take, Nat.min_eq_left (hstop.le.trans hinside),
      Nat.add_sub_cancel' hstart]
  have hslice : span.start + (span.slice text).length = span.stop := by
    rw [TextSpan.slice, List.length_drop, List.length_take, Nat.min_eq_left hinside,
      Nat.add_sub_cancel' hstop.le]
  have hne : span.slice text ≠ [] := List.length_pos_iff.mp (by omega)
  have hbefore : ∀ i < ((text.take span.start).drop offset).length,
      spanMarks (span :: spans) (offset + i) = [] := by
    intro i hi
    rw [h.spanMarks_of_lt (by omega), if_neg (by omega)]
  have hwithin : ∀ i < (span.slice text).length, spanMarks (span :: spans) (span.start + i) =
      if i = 0 then Style.key.switchOn else [] := by
    intro i hi
    rw [h.spanMarks_of_lt (by omega)]
    simp only [Nat.add_eq_left]
  have hafter : withMarks (fun i => spanMarks (span :: spans) (span.stop + i))
      (text.drop span.stop) =
        switchOff ++ withMarks (fun i => spanMarks spans (span.stop + i)) (text.drop span.stop) := by
    refine withMarks_of_first ?_ fun i => ?_
    · rw [h.spanMarks_of_le (Nat.le_add_right _ _), if_pos (Nat.add_zero _)]
    · rw [h.spanMarks_of_le (Nat.le_add_right _ _), if_neg (by omega), List.nil_append]
  rw [h.drop_eq, withMarks_append hbefore]
  simp only [← Nat.add_assoc, hfront]
  rw [withMarks_append_of_ne_nil hne hwithin]
  simp only [← Nat.add_assoc, hslice]
  rw [hafter, Style.around]
  simp only [List.append_assoc]

/-- With colors the pieces of a text have more where spans start or end and nowhere else. -/
theorem flatMap_colored_cutAtSpans (h : SpansFollow text.length offset spans) :
    (cutAtSpans offset text spans).flatMap Piece.colored =
      withMarks (fun i => spanMarks spans (offset + i)) (text.drop offset) := by
  induction spans generalizing offset with
  | nil =>
    have hnone : ∀ i ≤ (text.drop offset).length, spanMarks [] (offset + i) = [] := fun _ _ => rfl
    rw [withMarks_of_nil hnone]
    exact List.append_nil _
  | cons span spans ih =>
    rw [h.withMarks_drop, cutAtSpans, List.flatMap_cons, List.flatMap_cons, ih h.2.2]
    rfl

/-! ### Lines -/

theorem Hit.flatMap_text_pieces (hit : Hit) (keys : List (List Char)) :
    (hit.pieces keys).flatMap Piece.text =
      hit.id.source.toList ++ ([':'] ++ ((toString hit.id.index).toList ++
        ([':', ' '] ++ (hit.text.toList ++ ['\n'])))) := by
  have htext := flatMap_text_cutAtSpans (spansFollow_keySpans hit.text.toList keys)
  rw [Hit.pieces, List.flatMap_append, List.flatMap_append, htext]
  simp only [List.flatMap_cons, List.flatMap_nil, List.append_nil, List.append_assoc,
    List.drop_zero]

theorem Hit.flatMap_colored_pieces (hit : Hit) (keys : List (List Char)) :
    (hit.pieces keys).flatMap Piece.colored =
      Style.source.around hit.id.source.toList ++ ([':'] ++
        (Style.position.around (toString hit.id.index).toList ++ ([':', ' '] ++
          (withMarks (spanMarks (keySpans hit.text.toList keys)) hit.text.toList ++ ['\n'])))) := by
  have htext := flatMap_colored_cutAtSpans (spansFollow_keySpans hit.text.toList keys)
  simp only [Nat.zero_add, List.drop_zero] at htext
  have hplain (text : List Char) : Piece.colored ⟨.plain, text⟩ = text := if_pos rfl
  have hsource (text : List Char) : Piece.colored ⟨.source, text⟩ = Style.source.around text := rfl
  have hposition (text : List Char) :
      Piece.colored ⟨.position, text⟩ = Style.position.around text := rfl
  rw [Hit.pieces, List.flatMap_append, List.flatMap_append, htext]
  simp only [List.flatMap_cons, List.flatMap_nil, List.append_nil, List.append_assoc, hplain,
    hsource, hposition]

/-- Hits are shown one after the other. -/
theorem renderHits_eq_join {color : Bool} {line : Hit → String}
    (hline : ∀ hit : Hit, (hit.pieces keys).flatMap (Piece.render color) = (line hit).toList)
    (hits : List Hit) : renderHits color hits keys = String.join (hits.map line) := by
  rw [← String.toList_inj, renderHits, String.toList_ofList, String.toList_join, List.flatMap_map]
  exact List.flatMap_congr fun hit _ => hline hit

/-- The spans of keys are in order and inside of the text, a search of its bytes finds the same
ones, they spell the first keys that are not empty, and there are as many of them as of these keys
occur in order. Without colors a line has the source, the position and the text of its hit as they are.
With colors there are control sequences around the source, the position and each span, and nothing
else is different. -/
theorem renderHits_keySpans :
    (∀ (text : List Char) (keys : List (List Char)),
      (keySpans text keys).Pairwise (fun a b => a.stop ≤ b.start) ∧
      (∀ span ∈ keySpans text keys, span.start < span.stop ∧ span.stop ≤ text.length) ∧
      (keySpans text keys).map (·.inBytes text) = byteSpans (utf8 text) (keys.map utf8) ∧
      (keySpans text keys).map (·.slice text) =
        (keys.filter (!·.isEmpty)).take (keySpans text keys).length ∧
      IsGreatest {m | m ≤ (keys.filter (!·.isEmpty)).length ∧
        OccursInOrder ((keys.filter (!·.isEmpty)).take m) text} (keySpans text keys).length) ∧
    ∀ (hits : List Hit) (keys : List (List Char)),
      renderHits false hits keys = String.join (hits.map fun hit =>
        hit.id.source ++ ":" ++ toString hit.id.index ++ ": " ++ hit.text ++ "\n") ∧
      renderHits true hits keys = String.join (hits.map fun hit => String.ofList
        (Style.source.around hit.id.source.toList ++ [':'] ++
          Style.position.around (toString hit.id.index).toList ++ [':', ' '] ++
          withMarks (spanMarks (keySpans hit.text.toList keys)) hit.text.toList ++ ['\n'])) := by
  constructor
  · intro text keys
    have hfollow := spansFollow_keySpans text keys
    exact ⟨pairwise_keySpans text keys, fun span hspan => (hfollow.of_mem hspan).2,
      (byteSpans_utf8 text keys).symm, map_slice_keySpans text keys,
      isGreatest_length_keySpans text keys⟩
  · intro hits keys
    refine ⟨renderHits_eq_join (fun hit => ?_) hits, renderHits_eq_join (fun hit => ?_) hits⟩
    · refine (hit.flatMap_text_pieces keys).trans ?_
      simp only [String.toList_append, List.append_assoc]
      rfl
    · refine (hit.flatMap_colored_pieces keys).trans ?_
      simp only [String.toList_ofList, List.append_assoc]

example : renderHits true [⟨⟨"h", 3⟩, "赤い夢"⟩] ["夢".toList, "赤い".toList] =
    "\x1b[0m\x1b[35mh\x1b[0m:\x1b[0m\x1b[32m3\x1b[0m: 赤い\x1b[0m\x1b[1m\x1b[31m夢\x1b[0m\n" := by
  decide

end SentenceSearch
