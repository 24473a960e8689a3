import SentenceSearch.Proofs.Search.Buckets
import SentenceSearch.Proofs.Search.KeySearch

/-!
# Keys as a pattern

Keys in order can be asked for in two ways: by a search for keys, or by a search for the pattern that
has a gap between every two of them. The two searches are made in different ways, one key after the
other and breadth first with an automaton, but what they find is the same.

## Main definitions

* `Pattern.ofKeys` — the tree of keys with gaps between them
* `joinKeys` — its written form

## Main results

* `spelled_ofKeys` — the written form has this tree
* `hasPart_ofKeys_iff` — the pattern denotes a part of the texts that have the keys in order
* `findKeys_eq_findMatching` — both searches find the same
-/

namespace SentenceSearch

open SuffixTree TreeStep

/-- Keys with a gap between every two of them. -/
def joinKeys (keys : List (List Char)) : List Char := ['.', '*'].intercalate keys

namespace Pattern

variable {key text : List Char} {keys : List (List Char)} {right : Pattern}

/-- The characters of a key and then what is to the right of them. -/
def ofKey (right : Pattern) (key : List Char) : Pattern :=
  key.foldr (fun c pattern => .sequence (.literal c) pattern) right

/-- Any text. -/
def gap : Pattern := .quantified .star .wildcard

/-- Keys with a gap between every two of them. -/
def ofKeys : List (List Char) → Pattern
  | [] => .empty
  | [key] => ofKey .empty key
  | key :: keys => ofKey (.sequence gap (ofKeys keys)) key

/-! ### The written form -/

/-- A key is written as it is. -/
theorem spelled_ofKey {symbols : List PatternToken} (hkey : ∀ c ∈ key, isReserved c = false)
    (hright : Spelled (.branch false) right symbols) :
    Spelled (.branch false) (ofKey right key) (key.map PatternToken.ofChar ++ symbols) := by
  induction key with
  | nil => exact hright
  | cons c key ih =>
    have hrest := ih fun d hd => hkey d (List.mem_cons_of_mem c hd)
    have hliteral : Spelled .item (.literal c) [PatternToken.ofChar c] := by
      rw [PatternToken.ofChar_eq_plain_iff.mpr ⟨rfl, hkey c List.mem_cons_self⟩]
      exact .ofAtom (.literal c)
    have hspelled : Spelled (.branch false) _ ([PatternToken.ofChar c] ++ _) :=
      .cons hliteral hrest
    exact hspelled

theorem spelled_gap : Spelled .item gap [.dot, .quantifier .star] :=
  .repeated (by decide) .wildcard

/-- Keys without reserved characters are written with a wildcard and a star between them. -/
theorem spelled_ofKeys (hkeys : ∀ key ∈ keys, ∀ c ∈ key, isReserved c = false) :
    Spelled (.branch false) (ofKeys keys) ((joinKeys keys).map PatternToken.ofChar) := by
  induction keys with
  | nil => exact .nil
  | cons key keys ih =>
    have hkey := hkeys key List.mem_cons_self
    cases keys with
    | nil =>
      have hspelled := spelled_ofKey hkey .nil
      rw [List.append_nil] at hspelled
      rwa [joinKeys, List.intercalate_singleton]
    | cons next keys =>
      have hrest := ih fun key hmem => hkeys key (List.mem_cons_of_mem _ hmem)
      have hspelled := spelled_ofKey hkey (.cons spelled_gap hrest)
      rw [joinKeys, List.intercalate_cons_cons, List.map_append, List.map_append,
        List.append_assoc]
      exact hspelled

/-! ### What is denoted -/

theorem hasPlainOptions_ofKey (hright : right.hasPlainOptions = true) (key : List Char) :
    (ofKey right key).hasPlainOptions = true := by
  induction key with
  | nil => exact hright
  | cons c key ih => exact ih

theorem hasPlainOptions_ofKeys (keys : List (List Char)) :
    (ofKeys keys).hasPlainOptions = true := by
  induction keys with
  | nil => rfl
  | cons key keys ih =>
    cases keys with
    | nil => exact hasPlainOptions_ofKey rfl key
    | cons next keys =>
      have hright : (Pattern.sequence gap (ofKeys (next :: keys))).hasPlainOptions = true := ih
      exact hasPlainOptions_ofKey hright key

theorem mem_language_ofKey_iff :
    text ∈ (ofKey right key).language ↔ ∃ rest ∈ right.language, text = key ++ rest := by
  induction key generalizing text with
  | nil =>
    change text ∈ right.language ↔ _
    simp
  | cons c key ih =>
    change text ∈ ({[c]} : Language Char) * (ofKey right key).language ↔ _
    rw [Language.mem_mul]
    constructor
    · rintro ⟨_, rfl, tail, htail, rfl⟩
      obtain ⟨rest, hrest, rfl⟩ := ih.mp htail
      exact ⟨rest, hrest, rfl⟩
    · rintro ⟨rest, hrest, rfl⟩
      exact ⟨[c], rfl, key ++ rest, ih.mpr ⟨rest, hrest, rfl⟩, rfl⟩

/-- A gap may be any text. -/
theorem mem_language_gap (text : List Char) : text ∈ gap.language := by
  refine Language.mem_kstar.mpr
    ⟨text.map ([·]), (List.flatMap_singleton' text).symm, fun part hpart => ?_⟩
  obtain ⟨c, -, rfl⟩ := List.mem_map.mp hpart
  exact ⟨c, rfl⟩

theorem mem_language_ofKeys_cons_iff {next : List Char} :
    text ∈ (ofKeys (key :: next :: keys)).language ↔
      ∃ between, ∃ rest ∈ (ofKeys (next :: keys)).language, text = key ++ (between ++ rest) := by
  change text ∈ (ofKey (.sequence gap (ofKeys (next :: keys))) key).language ↔ _
  rw [mem_language_ofKey_iff]
  constructor
  · rintro ⟨_, ⟨between, -, rest, hrest, rfl⟩, rfl⟩
    exact ⟨between, rest, hrest, rfl⟩
  · rintro ⟨between, rest, hrest, rfl⟩
    exact ⟨_, ⟨between, mem_language_gap between, rest, hrest, rfl⟩, rfl⟩

/-- The pattern denotes a part of a text if the text has the keys in order. -/
theorem hasPart_ofKeys_iff (hne : keys ≠ []) :
    HasPart (· ∈ (ofKeys keys).language) text ↔ OccursInOrder keys text := by
  induction keys generalizing text with
  | nil => exact absurd rfl hne
  | cons key keys ih =>
    cases keys with
    | nil =>
      constructor
      · rintro ⟨before, _, after, rfl, hpart⟩
        obtain ⟨_, rfl, rfl⟩ := mem_language_ofKey_iff.mp hpart
        exact ⟨before, after, by rw [List.append_nil], trivial⟩
      · rintro ⟨before, after, rfl, -⟩
        exact ⟨before, key, after, rfl,
          mem_language_ofKey_iff.mpr ⟨[], rfl, (List.append_nil key).symm⟩⟩
    | cons next keys =>
      -- What follows the first key is the gap, the later keys and the rest of the text.
      have ih {after : List Char} : HasPart (· ∈ (ofKeys (next :: keys)).language) after ↔
          OccursInOrder (next :: keys) after := ih (List.cons_ne_nil next keys)
      constructor
      · rintro ⟨before, _, after, rfl, hpart⟩
        obtain ⟨between, rest, hrest, rfl⟩ := mem_language_ofKeys_cons_iff.mp hpart
        exact ⟨before, between ++ rest ++ after, by simp, ih.mp ⟨between, rest, after, rfl, hrest⟩⟩
      · rintro ⟨before, _, rfl, hoccurs⟩
        obtain ⟨between, rest, after, rfl, hrest⟩ := ih.mpr hoccurs
        exact ⟨before, key ++ (between ++ rest), after, by simp,
          mem_language_ofKeys_cons_iff.mpr ⟨between, rest, hrest, rfl⟩⟩

/-- Keys without reserved characters are read as they were joined. -/
theorem read_joinKeys (hne : keys ≠ []) (hkeys : ∀ key ∈ keys, key ≠ [])
    (hplain : ∀ key ∈ keys, ∀ c ∈ key, isReserved c = false) :
    Pattern.read (joinKeys keys) = .ok (ofKeys keys) := by
  refine read_eq_ok_iff.mpr ⟨?_, .ofBranch ((spelled_ofKeys hplain).lead true)⟩
  obtain ⟨key, keys, rfl⟩ := List.exists_cons_of_ne_nil hne
  have hkey : key ≠ [] := hkeys key List.mem_cons_self
  cases keys with
  | nil => rwa [joinKeys, List.intercalate_singleton]
  | cons next keys =>
    rw [joinKeys, List.intercalate_cons_cons]
    exact List.append_ne_nil_of_left_ne_nil (List.append_ne_nil_of_left_ne_nil hkey _) _

end Pattern

variable {P : Type} [DecidableEq P] [Ord P] [Std.TransOrd P] [Std.LawfulEqOrd P]
  {tree : SuffixTree P} {spell : Nat → List Char} {table : SymbolTable}
  {steps : List (TreeStep P)} {pattern : Pattern} {p : P}

/-- A search with the automaton of a pattern whose options are plain finds the payloads of the texts
with a part that the pattern denotes. -/
theorem SuffixTree.Records.mem_findMatching_iff_hasPart
    (h : Records table tree spell (endsAfter steps)) (hproper : pattern.Proper)
    (hplain : pattern.hasPlainOptions = true) :
    p ∈ ((tree.source (m := Id)).findMatching (pattern.automaton table) .unlimited).run.results ↔
      ∃ text, (text, p) ∈ inserted steps ∧ text ≠ [] ∧ HasPart (· ∈ pattern.language) text := by
  have hrange := Pattern.inRange_automaton table pattern
  constructor
  · intro hp
    obtain ⟨text, hmem, hne, hruns⟩ := h.exists_runsInside hrange hp
    refine ⟨text, hmem, hne, ?_⟩
    rw [← Pattern.looseLanguage_eq hplain]
    exact Pattern.hasPart_of_runsInside hruns
  · rintro ⟨text, hmem, hne, hpart⟩
    exact h.mem_findMatching_of_runsInside hrange h.offers_maskOf (fun _ => Mask.zero_allows _)
      hmem hne (Pattern.runsInside_of_hasPart hproper hpart)

/-- Keys of known characters, none of them reserved, can be joined to a pattern, and a search for it
finds what a search for the keys finds. -/
theorem findKeys_eq_findMatching (table : SymbolTable) (steps : List (TreeStep P))
    {keys : List (List Char)} (hne : keys ≠ []) (hkeys : ∀ key ∈ keys, key ≠ [])
    (hknown : ∀ key ∈ keys, ∀ c ∈ key, table.contains c = true)
    (hplain : ∀ key ∈ keys, ∀ c ∈ key, isReserved c = false) :
    ∃ automaton, compilePattern table (joinKeys keys) = .ok automaton ∧
      (Id.run ((ofSteps table steps).source.findKeys table .unlimited keys)).results =
        (Id.run ((ofSteps table steps).source.findMatching automaton .unlimited)).results := by
  have hread := Pattern.read_joinKeys hne hkeys hplain
  refine ⟨_, compilePattern_eq_ok_iff.mpr ⟨_, hread, rfl⟩, ?_⟩
  obtain ⟨spell, hrecords⟩ := exists_records table steps
  have hproper := (Pattern.read_eq_ok_iff.mp hread).2.proper
  have hfilter : keys.filter (!·.isEmpty) = keys :=
    List.filter_eq_self.mpr fun key hkey => by simpa using hkeys key hkey
  have hgiven : ∃ key ∈ keys, key ≠ [] := by
    obtain ⟨key, hkey⟩ := List.exists_mem_of_ne_nil keys hne
    exact ⟨key, hkey, hkeys key hkey⟩
  -- Both searches find the payloads of the texts that have the keys in order.
  apply Std.ExtTreeSet.ext_mem
  intro p
  refine Iff.trans ?_ (hrecords.mem_findMatching_iff_hasPart hproper
    (Pattern.hasPlainOptions_ofKeys keys)).symm
  constructor
  · intro hp
    obtain ⟨-, -, text, hmem, hoccurs⟩ := hrecords.exists_occursInOrder rfl rfl hp
    rw [hfilter] at hoccurs
    refine ⟨text, hmem, ?_, (Pattern.hasPart_ofKeys_iff hne).mpr hoccurs⟩
    obtain ⟨key, rest, rfl⟩ := List.exists_cons_of_ne_nil hne
    obtain ⟨before, after, rfl, -⟩ := hoccurs
    simp [hkeys key List.mem_cons_self]
  · rintro ⟨text, hmem, -, hpart⟩
    have hoccurs := (Pattern.hasPart_ofKeys_iff hne).mp hpart
    exact hrecords.mem_findKeys_of_occursInOrder rfl rfl hgiven hknown hmem (hfilter.symm ▸ hoccurs)

/-- Keys that overlap, in a tree that has grown after its annotation, with two characters in one
bucket. -/
theorem findKeys_eq_findMatching_overlap :
    ["ab".toList, "b".toList] ≠ [] ∧ (∀ key ∈ ["ab".toList, "b".toList], key ≠ []) ∧
    (∀ key ∈ ["ab".toList, "b".toList], ∀ c ∈ key,
      (SymbolTable.ofList [('a', 1), ('b', 1), ('c', 4)]).contains c = true) ∧
    (∀ key ∈ ["ab".toList, "b".toList], ∀ c ∈ key, isReserved c = false) ∧
    ∃ automaton, compilePattern (.ofList [('a', 1), ('b', 1), ('c', 4)])
        (joinKeys ["ab".toList, "b".toList]) = .ok automaton ∧
      (Id.run ((ofSteps (.ofList [('a', 1), ('b', 1), ('c', 4)]) [.insert "ab".toList 3, .annotate,
        .insert "abcab".toList 7]).source.findKeys (.ofList [('a', 1), ('b', 1), ('c', 4)])
          .unlimited ["ab".toList, "b".toList])).results =
      (Id.run ((ofSteps (.ofList [('a', 1), ('b', 1), ('c', 4)]) [.insert "ab".toList 3, .annotate,
        .insert "abcab".toList 7]).source.findMatching automaton .unlimited)).results := by
  have hne : ["ab".toList, "b".toList] ≠ [] := List.cons_ne_nil _ _
  have hkeys : ∀ key ∈ ["ab".toList, "b".toList], key ≠ [] := by decide
  have hknown : ∀ key ∈ ["ab".toList, "b".toList], ∀ c ∈ key,
      (SymbolTable.ofList [('a', 1), ('b', 1), ('c', 4)]).contains c = true := by
    simp only [← List.all_eq_true]
    decide
  have hplain : ∀ key ∈ ["ab".toList, "b".toList], ∀ c ∈ key, isReserved c = false := by
    simp only [← Bool.not_eq_true', ← List.all_eq_true]
    decide
  exact ⟨hne, hkeys, hknown, hplain, findKeys_eq_findMatching _ _ hne hkeys hknown hplain⟩

end SentenceSearch
