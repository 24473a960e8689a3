import SentenceSearch.Proofs.Pattern.Gating

/-!
# What the automaton of a pattern accepts

The runs of a compiled pattern lie between the language of the pattern and its loose language:
every text of the language has a run, and every run reads a text of the loose language. Without
masks every text of the loose language has a run as well.

## Main definitions

* `StateArena.Unmasked` — no transition needs anything

## Main results

* `inRange_automaton` — every transition leads to a state
* `Pattern.automaton_run` — the texts of the language have runs
* `Pattern.mem_looseLanguage_of_run` — runs read texts of the loose language
* `Pattern.automaton_run_of_unmasked` — without masks all of those have runs
-/

namespace SentenceSearch

open Computability

namespace State

variable {s : State} {t u : Transition} {c : Char}

/-- No transition out of the state needs anything. -/
def Unmasked (s : State) : Prop := ∀ t ∈ s.transitions, t.mask = 0

theorem unmasked_blank : blank.Unmasked := by
  intro t ht
  simp [transitions, blank, mem_values_iff] at ht

theorem unmasked_addChar_blank (c : Char) (r : Nat) : (blank.addChar c ⟨r, 0⟩).Unmasked := by
  intro t ht
  simp only [transitions, blank, addChar, Option.toList_none, List.append_nil, mem_values_iff,
    Std.ExtTreeMap.getElem?_insert, Std.ExtTreeMap.getElem?_empty] at ht
  obtain ⟨d, hd⟩ := ht
  split at hd
  · exact Option.some.inj hd ▸ rfl
  · cases hd

theorem unmasked_addAny_blank (r : Nat) : (blank.addAny ⟨r, 0⟩).Unmasked := by
  intro t ht
  simp only [transitions, blank, addAny, mem_values_iff, List.mem_append, Option.toList_some,
    List.mem_singleton, Std.ExtTreeMap.getElem?_empty] at ht
  simp_all

theorem unmasked_excluding (excluded : Std.ExtTreeSet Char) (r : Nat) :
    (excluding excluded ⟨r, 0⟩).Unmasked := by
  intro t ht
  obtain rfl : t = ⟨r, 0⟩ := by simpa [transitions, excluding] using ht
  rfl

theorem Unmasked.addEpsilon (h : s.Unmasked) (r : Nat) : (s.addEpsilon ⟨r, 0⟩).Unmasked := by
  have hempty : ∀ t ∈ (s.addEpsilon ⟨r, 0⟩).epsilons, t.mask = 0 := by
    intro t ht
    unfold State.addEpsilon at ht
    split at ht
    · obtain ⟨u, hu, rfl⟩ := List.mem_map.mp ht
      have hzero := h u (epsilons_subset_transitions _ hu)
      split <;> simp [hzero]
    · rcases List.mem_append.mp ht with hs | hs
      · exact h t (epsilons_subset_transitions _ hs)
      · rw [List.mem_singleton.mp hs]
  intro t ht
  unfold transitions at ht
  rw [kind_addEpsilon] at ht
  unfold Unmasked transitions at h
  cases hk : s.kind with
  | standard chars any =>
    simp only [hk, List.mem_append] at ht h
    rcases ht with ht | ht
    · exact h t (Or.inl ht)
    · exact hempty t ht
  | negated excluded next =>
    simp only [hk, List.mem_cons] at ht h
    rcases ht with ht | ht
    · exact h t (Or.inl ht)
    · exact hempty t ht

theorem Unmasked.requiredMask_eq_zero (h : s.Unmasked) : s.requiredMask = 0 := by
  cases hs : s.transitions with
  | nil => simp [requiredMask, hs]
  | cons t ts =>
    have ht : t ∈ s.transitions := by simp [hs]
    have hallows := requiredMask_allows ht
    rw [h t ht] at hallows
    exact Mask.allows_zero_iff.mp hallows

end State

namespace StateArena

variable {arena : StateArena} {available : List Char → Mask} {q r : Nat} {text left : List Char}

/-- No transition of the arena needs anything. -/
def Unmasked (arena : StateArena) : Prop := ∀ q, (arena.state q).Unmasked

theorem Unmasked.push {s : State} (h : arena.Unmasked) (hs : s.Unmasked) :
    (arena.push s).Unmasked := by
  intro q
  rw [state_push]
  split
  · exact hs
  · exact h q

theorem Unmasked.modify {f : State → State} (hq : q < arena.size)
    (hf : (f (arena.state q)).Unmasked) (h : arena.Unmasked) : (arena.modify q f).Unmasked := by
  intro r
  rw [state_modify hq]
  split
  · rename_i hr
    exact hr ▸ hf
  · exact h r

theorem Unmasked.addEpsilon (h : arena.Unmasked) (hq : q < arena.size) :
    (arena.addEpsilon q ⟨r, 0⟩).Unmasked := by
  intro s
  rw [state_addEpsilon hq]
  split
  · exact (h s).addEpsilon r
  · exact h s

theorem Unmasked.requiredMask (h : arena.Unmasked) : arena.requiredMask q = 0 :=
  (h q).requiredMask_eq_zero

/-- A run follows a path. -/
theorem Run.path (run : arena.Run available q text r left) :
    ∃ u, text = u ++ left ∧ arena.Path Set.univ q u r := by
  induction run with
  | refl q text => exact ⟨[], rfl, .refl q⟩
  | epsilon t ht _ _ ih =>
    obtain ⟨u, rfl, path⟩ := ih
    exact ⟨u, rfl, .empty (Set.mem_univ _) ⟨t, ht, rfl⟩ path⟩
  | @consume q r c text left t ht _ _ ih =>
    obtain ⟨u, rfl, path⟩ := ih
    exact ⟨c :: u, rfl, .read (Set.mem_univ _) ⟨t, ht, rfl⟩ path⟩

/-- Where nothing is needed a path is a run. -/
theorem Path.run {inside : Set Nat} (h : arena.Unmasked) (path : arena.Path inside q text r)
    (available : List Char → Mask) : arena.Run available q (text ++ left) r left := by
  induction path with
  | refl q => exact .refl q left
  | empty _ hempty _ ih =>
    obtain ⟨t, ht, rfl⟩ := hempty
    refine .epsilon t ht ?_ ih
    rw [Transition.allowed, h _ t (State.epsilons_subset_transitions _ ht)]
    exact Mask.zero_allows _
  | read _ hread _ ih =>
    obtain ⟨t, ht, rfl⟩ := hread
    refine .consume t ht ?_ ih
    rw [Transition.allowed, h _ t (State.consuming_subset_transitions _ _ ht)]
    exact Mask.zero_allows _

end StateArena

namespace Pattern

open StateArena

variable {table : SymbolTable} {pattern : Pattern} {text tail : List Char}

/-! ### Tables without masks -/

theorem maskAcross_zero (hzero : ∀ c, table.mask c = 0) (pattern : Pattern) :
    pattern.maskAcross table 0 = 0 := by
  induction pattern with
  | literal c => rw [maskAcross, hzero, UInt32.or_zero]
  | sequence left right ihLeft ihRight => rw [maskAcross, ihRight, ihLeft]
  | _ => rfl

theorem unmasked_addLoop {arena : StateArena} {hub start next : Nat} (hhub : hub < arena.size)
    (h : arena.Unmasked) : (addLoop hub start next 0 arena).Unmasked := by
  rw [addLoop, h.requiredMask, UInt32.or_zero]
  exact (h.addEpsilon hhub).addEpsilon (by simpa using hhub)

/-- A table without masks gives transitions that need nothing. -/
theorem unmasked_wire (hzero : ∀ c, table.mask c = 0) (pattern : Pattern) (next : Nat)
    (arena : StateArena) (hnext : next < arena.size) (h : arena.Unmasked) :
    (pattern.wire table next 0 arena).arena.Unmasked := by
  induction pattern generalizing next arena with
  | empty => exact h
  | literal c =>
    simp only [wire, addChar, hzero, UInt32.or_zero]
    refine (h.push State.unmasked_blank).modify (by simp) ?_
    rw [state_push, if_pos rfl]
    exact State.unmasked_addChar_blank c next
  | wildcard =>
    simp only [wire, addAny]
    refine (h.push State.unmasked_blank).modify (by simp) ?_
    rw [state_push, if_pos rfl]
    exact State.unmasked_addAny_blank next
  | negated excluded => exact h.push (State.unmasked_excluding excluded next)
  | group body ih => exact ih next arena hnext h
  | quantified q body ih =>
    have hsize : arena.size < (arena.push .blank).size := by simp
    cases q with
    | optional =>
      exact (ih next arena hnext h).addEpsilon
        ((wired table body next 0 arena hnext).start_lt hnext)
    | plus | star =>
      refine unmasked_addLoop ?_ (ih _ _ hsize (h.push State.unmasked_blank))
      exact Nat.lt_of_lt_of_le hsize (wired table body _ 0 _ hsize).grows
  | sequence left right ihLeft ihRight =>
    have hmask : (right.wire table next 0 arena).mask = 0 := by
      rw [wire_mask, maskAcross_zero hzero]
    change (left.wire table _ (right.wire table next 0 arena).mask _).arena.Unmasked
    rw [hmask]
    exact ihLeft _ _ ((wired table right next 0 arena hnext).start_lt hnext)
      (ihRight next arena hnext h)
  | union left right ihLeft ihRight =>
    set g := right.wire table next 0 arena with hg
    have hleftEnd : (withLeftEnd g.arena next 0).Unmasked :=
      ((ihRight next arena hnext h).push State.unmasked_blank).addEpsilon (by simp [hg])
    set f := left.wire table g.arena.size 0 (withLeftEnd g.arena next 0) with hf
    have hunmasked : f.arena.Unmasked := ihLeft _ _ (by simp) hleftEnd
    change (withChoice f.arena f.start g.start (f.arena.requiredMask f.start)
      (f.arena.requiredMask g.start)).Unmasked
    rw [hunmasked.requiredMask, hunmasked.requiredMask]
    exact ((hunmasked.push State.unmasked_blank).addEpsilon (by simp)).addEpsilon (by simp)

/-! ### The automaton of a pattern -/

variable {available : List Char → Mask}

/-- The states of the automaton but for the accepting one are wired for the pattern. -/
theorem wired_automaton (table : SymbolTable) (pattern : Pattern) :
    Wired pattern 0 (StateArena.empty.push .blank)
      (pattern.wire table 0 0 (StateArena.empty.push .blank)) :=
  wired table pattern 0 0 _ (by simp)

/-- Every transition of the automaton leads to one of its states. -/
theorem inRange_automaton (table : SymbolTable) (pattern : Pattern) :
    (pattern.automaton table).InRange := by
  have hwired := wired_automaton table pattern
  have hsize : 0 < (StateArena.empty.push .blank).size := by simp
  set f := pattern.wire table 0 0 (StateArena.empty.push .blank) with hf
  have hzero : 0 < f.arena.size := Nat.lt_of_lt_of_le hsize hwired.grows
  have hblank (r : Nat) : ¬ State.blank.LeadsTo r := by
    rintro (h | ⟨c, h⟩)
    · exact State.not_emptyTo_blank h
    · exact State.not_readTo_blank h
  -- Only the states of the fragment have transitions, and these lead there or to the exit.
  have hleads (q r : Nat) (h : (f.arena.state q).LeadsTo r) : r < f.arena.size := by
    by_cases hq : q ∈ f.region (StateArena.empty.push .blank)
    · rcases hwired.confined q hq r h with hr | rfl
      · exact hr.2
      · exact hzero
    · have hstate : f.arena.state q = .blank := by
        rcases Nat.lt_or_ge q (StateArena.empty.push .blank).size with hlt | hge
        · rw [hwired.frame q hlt]
          obtain rfl : q = 0 := Nat.lt_one_iff.mp hlt
          rfl
        · exact state_of_size_le (Nat.le_of_not_lt fun hlt => hq ⟨hge, hlt⟩)
      exact absurd (hstate ▸ h) (hblank r)
  refine ⟨hwired.start_lt hsize, fun q t ht => ?_, fun q c t ht => ?_⟩
  · exact hleads q t.target (Or.inl ⟨t, mem_epsilons_finish.mp ht, rfl⟩)
  · exact hleads q t.target (Or.inr ⟨c, t, mem_step_finish.mp ht, rfl⟩)

/-- Each text of a proper pattern has a run that needs only buckets of the text that is left. -/
theorem automaton_run (table : SymbolTable) (hproper : pattern.Proper)
    (htext : text ∈ pattern.language) (tail : List Char) :
    Automaton.Run (pattern.automaton table) table.maskOf (pattern.automaton table).start
      (text ++ tail) (pattern.automaton table).accept tail :=
  run_finish_iff.mpr (gated_wire table pattern hproper 0 0 _ (by simp) text htext tail
    (Mask.zero_allows _))

/-- The automaton is entered at its start and left at the accepting state, from where nothing leads
on. -/
theorem path_automaton_iff (table : SymbolTable) (pattern : Pattern) :
    Path (pattern.wire table 0 0 (StateArena.empty.push .blank)).arena Set.univ
      (pattern.wire table 0 0 (StateArena.empty.push .blank)).start text 0 ↔
      text ∈ pattern.looseLanguage := by
  have hwired := wired_automaton table pattern
  set f := pattern.wire table 0 0 (StateArena.empty.push .blank)
  have hzero : (0 : Nat) ∉ f.region (StateArena.empty.push .blank) :=
    not_mem_region (by simp)
  have hdead : ∀ v, Path f.arena Set.univ 0 v 0 ↔ v = [] := by
    have hstate : f.arena.state 0 = .blank := hwired.frame 0 (by simp)
    refine fun v => ⟨fun path => ?_, fun hv => hv ▸ .refl 0⟩
    cases path with
    | refl => rfl
    | empty _ h _ => exact absurd h (hstate ▸ State.not_emptyTo_blank)
    | read _ h _ => exact absurd h (hstate ▸ State.not_readTo_blank)
  rw [← hwired.reads]
  cases htrivial : pattern.isTrivial with
  | true => rw [hwired.start_eq htrivial, hdead, Path.nil_iff_of_notMem hzero]
  | false =>
    rw [Path.through hwired.confined (Set.subset_univ _) (hwired.start_mem htrivial) hzero]
    constructor
    · rintro ⟨u, v, rfl, hu, hv⟩
      rwa [(hdead v).mp hv, List.append_nil]
    · exact fun path => ⟨text, [], (List.append_nil text).symm, path, .refl 0⟩

/-- What a run reads is in the loose language. -/
theorem mem_looseLanguage_of_run
    (run : Automaton.Run (pattern.automaton table) available (pattern.automaton table).start text
      (pattern.automaton table).accept tail) :
    ∃ u, text = u ++ tail ∧ u ∈ pattern.looseLanguage := by
  obtain ⟨u, rfl, path⟩ := (run_finish_iff.mp run).path
  exact ⟨u, rfl, (path_automaton_iff table pattern).mp path⟩

/-- Without masks each text of the loose language has a run. -/
theorem automaton_run_of_unmasked (table : SymbolTable) (available : List Char → Mask)
    (hzero : ∀ c, table.mask c = 0) (htext : text ∈ pattern.looseLanguage) (tail : List Char) :
    Automaton.Run (pattern.automaton table) available (pattern.automaton table).start
      (text ++ tail) (pattern.automaton table).accept tail := by
  have hblank : StateArena.empty.Unmasked := fun q => by
    rw [state_of_size_le (Nat.zero_le q)]
    exact State.unmasked_blank
  have hunmasked := unmasked_wire hzero pattern 0 (StateArena.empty.push .blank) (by simp)
    (hblank.push State.unmasked_blank)
  exact run_finish_iff.mpr (((path_automaton_iff table pattern).mpr htext).run hunmasked available)

end Pattern

end SentenceSearch
