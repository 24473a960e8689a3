import SentenceSearch.Proofs.Automaton.Runs
import SentenceSearch.Proofs.Pattern.Acceptance
import SentenceSearch.Proofs.Pattern.Grammar

/-!
# What compiled patterns accept

A compiled pattern accepts every text that the written pattern denotes, whatever the masks. The
converse fails when a question mark follows a group that repeats something: the loose reading says
what may be accepted beyond that, and a table without masks accepts all of it.

## Main definitions

* `Denotes` — the texts that a written pattern stands for
* `LooselyDenotes` — the same when an optional group may be left wherever it starts anew
* `OptionsArePlain` — no group that contains a repetition is followed by a question mark

## Main results

* `accepts_compilePattern` — when a compiled pattern accepts exactly what the pattern denotes
* `isInLanguage_compilePattern` — masks never hold back a text that the pattern denotes
-/

namespace SentenceSearch

open Pattern Computability

/-- The text is one that the written pattern stands for. -/
def Denotes (pattern text : List Char) : Prop :=
  ∃ tree, Spelled (.scope true) tree (pattern.map PatternToken.ofChar) ∧ text ∈ tree.language

/-- The text is one that the written pattern stands for when an optional group may be left wherever
it starts anew. -/
def LooselyDenotes (pattern text : List Char) : Prop :=
  ∃ tree, Spelled (.scope true) tree (pattern.map PatternToken.ofChar) ∧ text ∈ tree.looseLanguage

/-! ### Optional groups -/

/-- Whether the parentheses match when `depth` groups are open. -/
def isBalanced : Nat → List PatternToken → Bool
  | depth, [] => depth == 0
  | depth, .openGroup :: rest => isBalanced (depth + 1) rest
  | 0, .closeGroup :: _ => false
  | depth + 1, .closeGroup :: rest => isBalanced depth rest
  | depth, _ :: rest => isBalanced depth rest

/-- The symbols after position `i` and before position `j`. -/
def between (symbols : List PatternToken) (i j : Nat) : List PatternToken :=
  (symbols.take j).drop (i + 1)

/-- A group from position `i` to position `j` is followed by a question mark. -/
def IsOptionalGroup (symbols : List PatternToken) (i j : Nat) : Prop :=
  symbols[i]? = some .openGroup ∧ symbols[j]? = some .closeGroup ∧
    symbols[j + 1]? = some (.quantifier .optional) ∧ isBalanced 0 (between symbols i j) = true

instance (symbols : List PatternToken) (i j : Nat) : Decidable (IsOptionalGroup symbols i j) :=
  inferInstanceAs (Decidable (_ ∧ _ ∧ _ ∧ _))

/-- No group whose symbols contain a plus or a star is followed by a question mark. -/
def OptionsArePlain (symbols : List PatternToken) : Prop :=
  ∀ i < symbols.length, ∀ j < symbols.length, IsOptionalGroup symbols i j →
    .quantifier .plus ∉ between symbols i j ∧ .quantifier .star ∉ between symbols i j

instance (symbols : List PatternToken) : Decidable (OptionsArePlain symbols) :=
  inferInstanceAs (Decidable (∀ i < symbols.length, ∀ j < symbols.length, _ → _ ∧ _))

/-- The condition speaks of every group wherever it stands. -/
theorem OptionsArePlain.body {symbols body : List PatternToken} (h : OptionsArePlain symbols)
    (hsymbols : .openGroup :: (body ++ [.closeGroup, .quantifier .optional]) <:+: symbols)
    (hbody : isBalanced 0 body = true) :
    .quantifier .plus ∉ body ∧ .quantifier .star ∉ body := by
  obtain ⟨before, after, heq⟩ := hsymbols
  obtain rfl : before ++ .openGroup :: (body ++ .closeGroup :: .quantifier .optional :: after) =
      symbols := by simp [← heq]
  have hshape : before ++ .openGroup ::
      (body ++ .closeGroup :: .quantifier .optional :: after) =
      (before ++ .openGroup :: body) ++ .closeGroup :: .quantifier .optional :: after := by simp
  have hlength : (before ++ .openGroup :: body).length = before.length + 1 + body.length := by
    simp
    omega
  have hbetween : between (before ++ .openGroup ::
      (body ++ .closeGroup :: .quantifier .optional :: after)) before.length
      (before.length + 1 + body.length) = body := by
    rw [between, hshape, ← hlength, List.take_left, List.drop_append]
    simp
  have hgroup := h before.length (by simp) (before.length + 1 + body.length) (by simp; omega)
    ⟨by simp, ?_, ?_, hbetween.symm ▸ hbody⟩
  · rwa [hbetween] at hgroup
  · rw [hshape, ← hlength]
    simp
  · rw [hshape, ← hlength, List.getElem?_append_right (by simp)]
    simp

namespace Pattern

variable {form : PatternForm} {pattern : Pattern} {u : List PatternToken}

/-- What is written has no union with a trivial right side. -/
theorem Spelled.proper (h : Spelled form pattern u) : pattern.Proper := by
  induction h with
  | literal | wildcard | negated | nil => trivial
  | group _ ih | optional _ ih | again _ ih | ofAtom _ ih | ofOption _ ih | repeated _ _ ih
  | ofBranch _ ih => exact ih
  | cons _ _ ihItem ihBody => exact ⟨ihItem, ihBody⟩
  | bare _ _ ih => exact ⟨trivial, ih⟩
  | union _ _ hright _ ihLeft ihRight => exact ⟨ihLeft, ihRight, hright⟩

theorem isBalanced_plain (depth : Nat) (chars : List Char) (rest : List PatternToken) :
    isBalanced depth (chars.map .plain ++ rest) = isBalanced depth rest := by
  induction chars with
  | nil => rfl
  | cons c chars ih => simpa [isBalanced] using ih

/-- Parentheses match in every part. -/
theorem Spelled.isBalanced_append (h : Spelled form pattern u) (depth : Nat)
    (rest : List PatternToken) : isBalanced depth (u ++ rest) = isBalanced depth rest := by
  induction h generalizing depth rest with
  | literal | wildcard => rfl
  | group _ ih => simp [isBalanced, ih]
  | optional _ ih | again _ ih => simp [isBalanced, ih]
  | repeated _ _ ih => simp [isBalanced, ih]
  | ofAtom _ ih | ofOption _ ih | ofBranch _ ih => exact ih depth rest
  | negated _ _ => simp [isBalanced, isBalanced_plain]
  | nil => rfl
  | cons _ _ ihItem ihBody => rw [List.append_assoc, ihItem, ihBody]
  | bare _ _ ih => exact ih depth rest
  | union _ _ _ _ ihLeft ihRight => simp [isBalanced, ihLeft, ihRight]

/-- Without the symbols that repeat nothing is repeated. -/
theorem Spelled.not_hasRepeat (h : Spelled form pattern u) (hplus : .quantifier .plus ∉ u)
    (hstar : .quantifier .star ∉ u) : pattern.hasRepeat = false := by
  induction h with
  | literal | wildcard | negated | nil => rfl
  | ofAtom _ ih | ofOption _ ih | ofBranch _ ih => exact ih hplus hstar
  | group _ ih => exact ih (by simp_all) (by simp_all)
  | optional _ ih | again _ ih => exact ih (by simp_all) (by simp_all)
  | @repeated q _ _ hq => cases q <;> simp_all
  | cons _ _ ihItem ihBody =>
    rw [hasRepeat, ihItem (by simp_all) (by simp_all), ihBody (by simp_all) (by simp_all)]
    rfl
  | @bare q _ _ hq => cases q <;> simp_all
  | union _ _ _ _ ihLeft ihRight =>
    rw [hasRepeat, ihLeft (by simp_all) (by simp_all), ihRight (by simp_all) (by simp_all)]
    rfl

/-- What a question mark follows repeats nothing. -/
theorem Spelled.atom_not_hasRepeat {symbols : List PatternToken} (h : Spelled .atom pattern u)
    (hplain : OptionsArePlain symbols) (hsymbols : u ++ [.quantifier .optional] <:+: symbols) :
    pattern.hasRepeat = false := by
  cases h with
  | literal | wildcard => rfl
  | @group body v hbody =>
    -- What stands between the parentheses is balanced, so the condition is about all of it.
    have hbalanced := hbody.isBalanced_append 0 []
    rw [List.append_nil] at hbalanced
    obtain ⟨hplus, hstar⟩ := hplain.body (by simpa using hsymbols) hbalanced
    exact hbody.not_hasRepeat hplus hstar

/-- The condition on the symbols carries over to the tree. -/
theorem Spelled.options {symbols : List PatternToken} (h : Spelled form pattern u)
    (hplain : OptionsArePlain symbols) (hsymbols : u <:+: symbols) :
    pattern.hasPlainOptions = true ∧ (form = .option → pattern.hasRepeat = false) := by
  induction h with
  | literal | wildcard | negated | nil => exact ⟨rfl, fun hform => by cases hform⟩
  | ofAtom _ ih | ofBranch _ ih | ofOption _ ih =>
    exact ⟨(ih hsymbols).1, fun hform => by cases hform⟩
  | group _ ih =>
    have hinfix := (List.infix_append' [PatternToken.openGroup] _ [PatternToken.closeGroup]).trans
      hsymbols
    exact ⟨(ih hinfix).1, fun hform => by cases hform⟩
  | optional hatom ih =>
    have hrepeat := hatom.atom_not_hasRepeat hplain hsymbols
    have hbody := ih ((List.prefix_append _ _).isInfix.trans hsymbols)
    exact ⟨by rw [hasPlainOptions, hrepeat, hbody.1]; rfl, fun _ => hrepeat⟩
  | again _ ih =>
    obtain ⟨hbody, hrepeat⟩ := ih ((List.prefix_append _ _).isInfix.trans hsymbols)
    exact ⟨by rw [hasPlainOptions, hrepeat rfl, hbody]; rfl, fun _ => hrepeat rfl⟩
  | @repeated q body v hq _ ih =>
    have hbody := ih ((List.prefix_append _ _).isInfix.trans hsymbols)
    refine ⟨?_, fun hform => by cases hform⟩
    cases q with
    | optional => exact absurd rfl hq
    | plus | star => exact hbody.1
  | cons _ _ ihItem ihBody =>
    have hitem := ihItem ((List.prefix_append _ _).isInfix.trans hsymbols)
    have hbody := ihBody ((List.suffix_append _ _).isInfix.trans hsymbols)
    exact ⟨by rw [hasPlainOptions, hitem.1, hbody.1]; rfl, fun hform => by cases hform⟩
  | @bare q body w hq _ ih =>
    have hbody := ih ((List.suffix_cons _ _).isInfix.trans hsymbols)
    refine ⟨?_, fun hform => by cases hform⟩
    cases q with
    | optional => exact absurd rfl hq
    | plus | star => exact hbody.1
  | union _ _ _ _ ihLeft ihRight =>
    have hleft := ihLeft ((List.prefix_append _ _).isInfix.trans hsymbols)
    have hright := ihRight (((List.suffix_cons _ _).trans (List.suffix_append _ _)).isInfix.trans
      hsymbols)
    exact ⟨by rw [hasPlainOptions, hleft.1, hright.1]; rfl, fun hform => by cases hform⟩

end Pattern

/-! ### Compiled patterns -/

section Compiled

variable {table : SymbolTable} {pattern text : List Char} {tree : Pattern} {automaton : Automaton}

/-- A pattern is compiled exactly when it can be read. -/
theorem compilePattern_eq_ok_iff : compilePattern table pattern = .ok automaton ↔
    ∃ tree, Pattern.read pattern = .ok tree ∧ automaton = tree.automaton table := by
  unfold compilePattern
  cases hread : Pattern.read pattern with
  | error e => exact ⟨nofun, nofun⟩
  | ok tree =>
    constructor
    · rintro ⟨⟩
      exact ⟨tree, rfl, rfl⟩
    · rintro ⟨_, ⟨⟩, rfl⟩
      rfl

theorem denotes_iff (h : Pattern.read pattern = .ok tree) :
    Denotes pattern text ↔ text ∈ tree.language := by
  obtain ⟨hne, hspelled⟩ := read_eq_ok_iff.mp h
  constructor
  · rintro ⟨tree', hspelled', htext⟩
    rwa [hspelled.unique hne hspelled']
  · exact fun htext => ⟨tree, hspelled, htext⟩

theorem looselyDenotes_iff (h : Pattern.read pattern = .ok tree) :
    LooselyDenotes pattern text ↔ text ∈ tree.looseLanguage := by
  obtain ⟨hne, hspelled⟩ := read_eq_ok_iff.mp h
  constructor
  · rintro ⟨tree', hspelled', htext⟩
    rwa [hspelled.unique hne hspelled']
  · exact fun htext => ⟨tree, hspelled, htext⟩

/-- With plain options the loose reading of a pattern is the strict one. -/
theorem LooselyDenotes.strict (hplain : OptionsArePlain (pattern.map PatternToken.ofChar))
    (h : LooselyDenotes pattern text) : Denotes pattern text := by
  obtain ⟨tree, hspelled, htext⟩ := h
  have hoptions := hspelled.options hplain List.infix_rfl
  exact ⟨tree, hspelled, looseLanguage_eq hoptions.1 ▸ htext⟩

/-- The suffix masks of a text say what is left of it at each position. -/
theorem masksAgree_suffixMasks (table : SymbolTable) (text : List Char) :
    Automaton.MasksAgree table.maskOf text (table.suffixMasks text) := by
  intro i hi
  rw [List.getD_eq_getElem?_getD]
  rcases Nat.lt_or_eq_of_le hi with hlt | rfl
  · rw [SymbolTable.getElem?_suffixMasks table text i hlt]
    rfl
  · rw [List.drop_length, List.getElem?_eq_none (by simp)]
    rfl

/-- A run that needs only what is left of a text needs nothing at the end. -/
theorem maskOf_allows_nothingAtEnd (rest : List Char) :
    (table.maskOf rest).allows (Automaton.nothingAtEnd rest) = true := by
  cases rest with
  | nil => exact Mask.allows_refl _
  | cons c rest => exact Mask.allows_full _

/-- A compiled pattern accepts every text that the pattern denotes and no text that the pattern
does not denote loosely. Under every table it accepts exactly what the pattern denotes if and only
if the loose reading of the pattern is the strict one, and that is so when no group with a
repetition is optional. -/
theorem accepts_compilePattern (h : Pattern.read pattern = .ok tree) :
    (∀ table automaton, compilePattern table pattern = .ok automaton → ∀ text,
      (Denotes pattern text → automaton.accepts text = true) ∧
      (automaton.accepts text = true → LooselyDenotes pattern text)) ∧
    ((∀ table automaton, compilePattern table pattern = .ok automaton →
      ∀ text, automaton.accepts text = true ↔ Denotes pattern text) ↔
      ∀ text, LooselyDenotes pattern text → Denotes pattern text) ∧
    (OptionsArePlain (pattern.map PatternToken.ofChar) →
      ∀ text, LooselyDenotes pattern text → Denotes pattern text) := by
  have hproper : tree.Proper := (read_eq_ok_iff.mp h).2.proper
  have hbounds : ∀ table automaton, compilePattern table pattern = .ok automaton → ∀ text,
      (Denotes pattern text → automaton.accepts text = true) ∧
      (automaton.accepts text = true → LooselyDenotes pattern text) := by
    intro table automaton hcompile text
    obtain ⟨tree', hread, rfl⟩ := compilePattern_eq_ok_iff.mp hcompile
    obtain rfl := Except.ok.inj (h.symm.trans hread)
    rw [denotes_iff h, looselyDenotes_iff h, Automaton.accepts_iff_run]
    constructor
    · intro htext
      have run := automaton_run table hproper htext []
      rw [List.append_nil] at run
      exact run.mono maskOf_allows_nothingAtEnd
    · intro run
      obtain ⟨u, rfl, hu⟩ := mem_looseLanguage_of_run run
      rwa [List.append_nil]
  refine ⟨hbounds, ⟨fun hexact text hloose => ?_, fun hstrict table automaton hcompile text => ?_⟩,
    fun hplain text hloose => hloose.strict hplain⟩
  · -- A table without masks accepts whatever the pattern denotes loosely.
    have hcompile : compilePattern .empty pattern = .ok (tree.automaton .empty) :=
      compilePattern_eq_ok_iff.mpr ⟨tree, h, rfl⟩
    rw [looselyDenotes_iff h] at hloose
    rw [← hexact .empty _ hcompile, Automaton.accepts_iff_run]
    have run := automaton_run_of_unmasked .empty Automaton.nothingAtEnd (fun c => rfl) hloose
      []
    rwa [List.append_nil] at run
  · exact ⟨fun haccepts => hstrict text ((hbounds table automaton hcompile text).2 haccepts),
      (hbounds table automaton hcompile text).1⟩

/-- The tree of `(a*b)?`, a repetition at the start of an optional group. -/
private def optionalLoop : Pattern :=
  .sequence (.quantified .optional (.group
    (.sequence (.quantified .star (.literal 'a')) (.sequence (.literal 'b') .empty)))) .empty

/-- The tree of `(ab)?c*`. -/
private def optionThenLoop : Pattern :=
  .sequence (.quantified .optional (.group
    (.sequence (.literal 'a') (.sequence (.literal 'b') .empty))))
    (.sequence (.quantified .star (.literal 'c')) .empty)

private theorem not_mem_language_optionalLoop : ['a'] ∉ optionalLoop.language := by
  simp only [optionalLoop, language, Language.mem_mul, Language.mem_add, Language.mem_one]
  rintro ⟨u, ⟨v, -, w, ⟨x, rfl, y, rfl, rfl⟩, rfl⟩ | rfl, z, rfl, h⟩
  · have hlast := congrArg List.getLast? h
    simp at hlast
  · cases h

private theorem mem_looseLanguage_optionalLoop : ['a'] ∈ optionalLoop.looseLanguage := by
  simp only [optionalLoop, looseLanguage, returns, isTrivial, Bool.false_eq_true, if_false]
  refine Language.mem_mul.mpr ⟨['a'], Or.inr ?_, [], Language.nil_mem_one, rfl⟩
  exact Language.mem_kstar.mpr ⟨[['a']], rfl, by simp; rfl⟩

/-- The automaton of `(a*b)?` accepts texts that the pattern does not denote, that of `(ab)?c*`
does not. -/
theorem accepts_compilePattern_options :
    Pattern.read "(a*b)?".toList = .ok optionalLoop ∧
    (¬ ∀ table automaton, compilePattern table "(a*b)?".toList = .ok automaton →
      ∀ text, automaton.accepts text = true ↔ Denotes "(a*b)?".toList text) ∧
    OptionsArePlain ("(ab)?c*".toList.map PatternToken.ofChar) ∧
    ∀ table automaton, compilePattern table "(ab)?c*".toList = .ok automaton →
      ∀ text, automaton.accepts text = true ↔ Denotes "(ab)?c*".toList text := by
  have hread : Pattern.read "(a*b)?".toList = .ok optionalLoop := by decide +kernel
  have hplain : OptionsArePlain ("(ab)?c*".toList.map PatternToken.ofChar) := by decide
  have hread' : Pattern.read "(ab)?c*".toList = .ok optionThenLoop := by decide +kernel
  refine ⟨hread, fun hexact => ?_, hplain, ?_⟩
  · have hloose := (looselyDenotes_iff hread).mpr mem_looseLanguage_optionalLoop
    have hstrict := (accepts_compilePattern hread).2.1.mp hexact _ hloose
    exact not_mem_language_optionalLoop ((denotes_iff hread).mp hstrict)
  · obtain ⟨-, hiff, hoptions⟩ := accepts_compilePattern hread'
    exact hiff.mpr (hoptions hplain)

/-- Masks never hold back a text that the pattern denotes: it has an accepting run on which each
transition needs only buckets of the text that is left. -/
theorem isInLanguage_compilePattern (h : compilePattern table pattern = .ok automaton)
    (htext : Denotes pattern text) :
    automaton.isInLanguage text (table.suffixMasks text) = true ∧
      Automaton.Run automaton table.maskOf automaton.start text automaton.accept [] := by
  obtain ⟨tree, hread, rfl⟩ := compilePattern_eq_ok_iff.mp h
  have run := automaton_run table (read_eq_ok_iff.mp hread).2.proper
    ((denotes_iff hread).mp htext) []
  rw [List.append_nil] at run
  exact ⟨(Automaton.isInLanguage_iff_run (masksAgree_suffixMasks table text)).mpr run, run⟩

/-- The tree of `a(b|.)*`. -/
private def literalThenLoop : Pattern :=
  .sequence (.literal 'a') (.sequence (.quantified .star (.group
    (.union (.sequence (.literal 'b') .empty) (.sequence .wildcard .empty)))) .empty)

private theorem mem_language_literalThenLoop : ['a', 'b', 'x'] ∈ literalThenLoop.language := by
  simp only [literalThenLoop, language]
  refine ⟨['a'], rfl, ['b', 'x'], ⟨['b', 'x'], ?_, [], rfl, rfl⟩, rfl⟩
  refine Language.mem_kstar.mpr ⟨[['b'], ['x']], rfl, fun part hpart => ?_⟩
  rcases List.mem_cons.mp hpart with rfl | hpart
  · exact Or.inl ⟨['b'], rfl, [], rfl, rfl⟩
  · exact Or.inr ⟨['x'], ⟨'x', rfl⟩, [], rfl, (List.mem_singleton.mp hpart).symm⟩

/-- The text has a character that the table does not know and two whose masks have a bit in
common. -/
theorem isInLanguage_compilePattern_loop :
    ∃ automaton, compilePattern (.ofList [('a', 1), ('b', 3)]) "a(b|.)*".toList = .ok automaton ∧
      Denotes "a(b|.)*".toList "abx".toList ∧
      automaton.isInLanguage "abx".toList
        ((SymbolTable.ofList [('a', 1), ('b', 3)]).suffixMasks "abx".toList) = true := by
  have hread : Pattern.read "a(b|.)*".toList = .ok literalThenLoop := by decide +kernel
  have hcompile : compilePattern (.ofList [('a', 1), ('b', 3)]) "a(b|.)*".toList =
      .ok (literalThenLoop.automaton (.ofList [('a', 1), ('b', 3)])) :=
    compilePattern_eq_ok_iff.mpr ⟨_, hread, rfl⟩
  have htext : Denotes "a(b|.)*".toList "abx".toList :=
    (denotes_iff hread).mpr mem_language_literalThenLoop
  exact ⟨_, hcompile, htext, (isInLanguage_compilePattern hcompile htext).1⟩

end Compiled

end SentenceSearch
