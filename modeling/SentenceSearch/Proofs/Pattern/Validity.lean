import SentenceSearch.Proofs.Pattern.ErrorPlaces
import SentenceSearch.Proofs.Pattern.Meaning

/-!
# Which patterns are accepted

The grammar of patterns as texts, without trees and without a reader. A scope is one or more
operands with bars between them and an operand is a row of items. An item is a character, a dot or a
group, with what quantifies it, or a class. An operand after a bar needs an item that is not
trivial, where a trivial item is a group that holds nothing but trivial items.

`Pattern.Spelled` assigns trees to the same texts, and there an operand is trivial when its tree is.
That the two agree on which items are trivial needs both directions: a trivial item is written by a
trivial tree, which is the only tree it has.

## Main definitions

* `Pattern.IsItem`, `Pattern.IsTrivialItem` — the texts that are items and trivial items
* `Pattern.IsLaterOperand` — the items of an operand after a bar
* `Pattern.IsTopScope` — the texts that are patterns

## Main results

* `Pattern.Spelled.shape` — what a tree is written by is in the grammar
* `Pattern.exists_spelled_of_isItem` — an item is written by a tree
* `compilePattern_ok_iff_isTopScope` — the texts that compile, and where the others are wrong
-/

namespace SentenceSearch

namespace Pattern

/-- What may follow a character, a dot or a group: any number of question marks, or one quantifier
that repeats. -/
inductive IsQuantifying : List Char → Prop where
  | optional (n : Nat) : IsQuantifying (List.replicate n '?')
  | star : IsQuantifying ['*']
  | plus : IsQuantifying ['+']

/-- Operands with a bar between every two of them. An operand is a list of items. -/
def joinOperands (operands : List (List (List Char))) : List Char :=
  ['|'].intercalate (operands.map List.flatten)

/-- A group of trivial items, with any number of question marks after it. -/
inductive IsTrivialItem : List Char → Prop where
  | group {items : List (List Char)} (n : Nat) :
      (∀ item ∈ items, IsTrivialItem item) →
      IsTrivialItem ('(' :: (items.flatten ++ ')' :: List.replicate n '?'))

/-- An item: a character, a dot or a group, with what quantifies it, or a class. -/
inductive IsItem : List Char → Prop where
  | plain {c : Char} {quantifying : List Char} :
      isReserved c = false → IsQuantifying quantifying → IsItem (c :: quantifying)
  | dot {quantifying : List Char} : IsQuantifying quantifying → IsItem ('.' :: quantifying)
  | group {first : List (List Char)} {later : List (List (List Char))} {quantifying : List Char} :
      (∀ item ∈ first, IsItem item) →
      (∀ operand ∈ later, ∀ item ∈ operand, IsItem item) →
      (∀ operand ∈ later, ∃ item ∈ operand, ¬ IsTrivialItem item) →
      IsQuantifying quantifying →
      IsItem ('(' :: (joinOperands (first :: later) ++ ')' :: quantifying))
  | negated {chars : List Char} :
      chars ≠ [] → (∀ c ∈ chars, isReserved c = false) → IsItem ('[' :: (chars ++ [']']))

/-- The items of the first operand of a scope. At the start of the pattern the first item may be a
quantifier that repeats. -/
inductive IsFirstOperand : Bool → List (List Char) → Prop where
  | items {leading : Bool} {items : List (List Char)} :
      (∀ item ∈ items, IsItem item) → IsFirstOperand leading items
  | bare {quantifier : Char} {items : List (List Char)} :
      quantifier = '*' ∨ quantifier = '+' → (∀ item ∈ items, IsItem item) →
      IsFirstOperand true ([quantifier] :: items)

/-- The items of an operand that follows a bar. -/
structure IsLaterOperand (items : List (List Char)) : Prop where
  isItem : ∀ item ∈ items, IsItem item
  exists_not_isTrivialItem : ∃ item ∈ items, ¬ IsTrivialItem item

/-- The operands of a scope. A scope that is `leading` begins where the pattern begins, and there
something must stand to the left of a bar. -/
structure IsScope (leading : Bool) (first : List (List Char)) (later : List (List (List Char))) :
    Prop where
  isFirst : IsFirstOperand leading first
  isLater : ∀ operand ∈ later, IsLaterOperand operand
  ne_nil : leading = true → later ≠ [] → first.flatten ≠ []

/-- The text is a pattern. -/
def IsTopScope (text : List Char) : Prop :=
  ∃ first later, text = joinOperands (first :: later) ∧ IsScope true first later

/-- The symbols of a text. -/
def symbolsOf (text : List Char) : List PatternToken := text.map PatternToken.ofChar

section Symbols

variable {text text' : List Char} {c : Char}

@[simp] theorem symbolsOf_nil : symbolsOf [] = [] := rfl

@[simp] theorem symbolsOf_cons :
    symbolsOf (c :: text) = PatternToken.ofChar c :: symbolsOf text := rfl

@[simp] theorem symbolsOf_append : symbolsOf (text ++ text') = symbolsOf text ++ symbolsOf text' :=
  List.map_append

theorem symbolsOf_replicate (n : Nat) :
    symbolsOf (List.replicate n '?') = List.replicate n (.quantifier .optional) :=
  List.map_replicate

theorem symbolsOf_plain {chars : List Char} (h : ∀ c ∈ chars, isReserved c = false) :
    symbolsOf chars = chars.map .plain :=
  List.map_congr_left fun c hc => PatternToken.ofChar_eq_plain_iff.mpr ⟨rfl, h c hc⟩

theorem plain_of_symbolsOf {chars : List Char} (h : symbolsOf text = chars.map .plain) :
    text = chars ∧ ∀ c ∈ chars, isReserved c = false := by
  induction chars generalizing text with
  | nil => exact ⟨List.map_eq_nil_iff.mp h, nofun⟩
  | cons d chars ih =>
    obtain ⟨c, rest, rfl, hc, hrest⟩ := List.map_eq_cons_iff.mp h
    obtain ⟨rfl, hplain⟩ := PatternToken.ofChar_eq_plain_iff.mp hc
    obtain ⟨rfl, hchars⟩ := ih hrest
    exact ⟨rfl, List.forall_mem_cons.mpr ⟨hplain, hchars⟩⟩

/-- A text whose symbols begin with the given one. -/
theorem cons_of_symbolsOf {symbol : PatternToken} {u : List PatternToken}
    (h : symbolsOf text = symbol :: u) :
    ∃ rest, text = symbol.toChar :: rest ∧ symbolsOf rest = u := by
  obtain ⟨c, rest, rfl, hc, hrest⟩ := List.map_eq_cons_iff.mp h
  exact ⟨rest, by rw [PatternToken.eq_toChar_of_ofChar hc], hrest⟩

theorem append_of_symbolsOf {u v : List PatternToken} (h : symbolsOf text = u ++ v) :
    ∃ left right, text = left ++ right ∧ symbolsOf left = u ∧ symbolsOf right = v :=
  List.map_eq_append_iff.mp h

/-- A text whose symbols end with the given one. -/
theorem concat_of_symbolsOf {symbol : PatternToken} {u : List PatternToken}
    (h : symbolsOf text = u ++ [symbol]) :
    ∃ rest, text = rest ++ [symbol.toChar] ∧ symbolsOf rest = u := by
  obtain ⟨rest, last, rfl, hrest, hlast⟩ := append_of_symbolsOf h
  obtain ⟨left, rfl, hleft⟩ := cons_of_symbolsOf hlast
  obtain rfl := List.map_eq_nil_iff.mp hleft
  exact ⟨rest, rfl, hrest⟩

end Symbols

/-! ### Joining operands -/

section Operands

variable {first operand : List (List Char)} {operands later : List (List (List Char))}

theorem joinOperands_singleton : joinOperands [operand] = operand.flatten :=
  List.intercalate_singleton

theorem joinOperands_concat (hne : operands ≠ []) :
    joinOperands (operands ++ [operand]) = joinOperands operands ++ '|' :: operand.flatten := by
  induction operands with
  | nil => exact absurd rfl hne
  | cons first later ih =>
    cases later with
    | nil => simp [joinOperands, List.intercalate_cons_cons]
    | cons second later =>
      have ih := ih (List.cons_ne_nil _ _)
      simp only [joinOperands, List.cons_append, List.map_cons, List.intercalate_cons_cons] at ih ⊢
      rw [ih]
      simp

theorem joinOperands_ne_nil (h : first.flatten ≠ []) : joinOperands (first :: later) ≠ [] := by
  cases later with
  | nil => rwa [joinOperands_singleton]
  | cons second later =>
    rw [joinOperands, List.map_cons, List.map_cons, List.intercalate_cons_cons]
    simp

end Operands

/-! ### Trees of trivial items -/

section Trees

variable {u : List PatternToken} {body : Pattern}

/-- A part with question marks after it. -/
theorem Spelled.exists_item_replicate (h : Spelled .atom body u) (n : Nat) :
    ∃ item, Spelled .item item (u ++ List.replicate n (.quantifier .optional)) ∧
      item.isTrivial = body.isTrivial := by
  have hoption (m : Nat) :
      ∃ item, Spelled .option item (u ++ List.replicate (m + 1) (.quantifier .optional)) ∧
        item.isTrivial = body.isTrivial := by
    induction m with
    | zero => exact ⟨_, .optional h, rfl⟩
    | succ m ih =>
      obtain ⟨item, hspelled, htrivial⟩ := ih
      rw [List.replicate_succ', ← List.append_assoc]
      exact ⟨_, .again hspelled, htrivial⟩
  cases n with
  | zero =>
    rw [List.replicate_zero, List.append_nil]
    exact ⟨body, .ofAtom h, rfl⟩
  | succ n =>
    obtain ⟨item, hspelled, htrivial⟩ := hoption n
    exact ⟨item, .ofOption hspelled, htrivial⟩

/-- An atom with what quantifies it. -/
theorem Spelled.exists_item (h : Spelled .atom body u) {quantifying : List Char}
    (hquantifying : IsQuantifying quantifying) :
    ∃ item, Spelled .item item (u ++ symbolsOf quantifying) := by
  cases hquantifying with
  | optional n =>
    rw [symbolsOf_replicate]
    obtain ⟨item, hspelled, -⟩ := h.exists_item_replicate n
    exact ⟨item, hspelled⟩
  | star => exact ⟨_, .repeated (by decide) h⟩
  | plus => exact ⟨_, .repeated (by decide) h⟩

/-- The text is an item of a tree, which is trivial exactly when the text is. -/
def HasTree (item : List Char) : Prop :=
  ∃ tree, Spelled .item tree (symbolsOf item) ∧ (tree.isTrivial = true ↔ IsTrivialItem item)

/-- Items in a row have a tree, which is trivial exactly when all of them are. -/
theorem exists_branch {items : List (List Char)} (h : ∀ item ∈ items, HasTree item) :
    ∃ body, Spelled (.branch false) body (symbolsOf items.flatten) ∧
      (body.isTrivial = true ↔ ∀ item ∈ items, IsTrivialItem item) := by
  induction items with
  | nil => exact ⟨.empty, .nil, iff_of_true rfl nofun⟩
  | cons item items ih =>
    obtain ⟨⟨tree, htree, htrivial⟩, hitems⟩ := List.forall_mem_cons.mp h
    obtain ⟨body, hbody, hall⟩ := ih hitems
    rw [List.flatten_cons, symbolsOf_append]
    refine ⟨_, .cons htree hbody, ?_⟩
    rw [isTrivial, Bool.and_eq_true, htrivial, hall, List.forall_mem_cons]

theorem IsTrivialItem.exists_spelled {item : List Char} (h : IsTrivialItem item) :
    ∃ tree, Spelled .item tree (symbolsOf item) ∧ tree.isTrivial = true := by
  induction h with
  | @group items n hitems ih =>
    obtain ⟨body, hbody, htrivial⟩ := exists_branch fun item hitem => by
      obtain ⟨tree, hspelled, htree⟩ := ih item hitem
      exact ⟨tree, hspelled, iff_of_true htree (hitems item hitem)⟩
    obtain ⟨tree, hspelled, htree⟩ := (Spelled.group (.ofBranch hbody)).exists_item_replicate n
    refine ⟨tree, ?_, htree.trans (htrivial.mpr hitems)⟩
    simpa [symbolsOf_replicate, PatternToken.ofChar] using hspelled

/-- An item has one tree. -/
theorem Spelled.item_unique {tree tree' : Pattern} (h : Spelled .item tree u)
    (h' : Spelled .item tree' u) : tree = tree' := by
  have hread := h.readsBack none .empty []
  have hread' := h'.readsBack none .empty []
  rw [hread, readFrom_scope_nil, readFrom_scope_nil, Except.ok.injEq, Prod.mk.injEq,
    sequence.injEq] at hread'
  exact hread'.1.1

theorem IsTrivialItem.isTrivial {item : List Char} (h : IsTrivialItem item) {tree : Pattern}
    (hspelled : Spelled .item tree (symbolsOf item)) : tree.isTrivial = true := by
  obtain ⟨tree', hspelled', htree⟩ := h.exists_spelled
  rwa [hspelled.item_unique hspelled']

end Trees

/-! ### What is written is in the grammar -/

/-- What the grammar says of the text of a part of each form. -/
def Shape : PatternForm → Pattern → List Char → Prop
  | .atom, body, text =>
    (∀ quantifying, IsQuantifying quantifying → IsItem (text ++ quantifying)) ∧
      (body.isTrivial = true → ∀ n, IsTrivialItem (text ++ List.replicate n '?'))
  | .option, body, text => (∀ n, IsItem (text ++ List.replicate n '?')) ∧
      (body.isTrivial = true → ∀ n, IsTrivialItem (text ++ List.replicate n '?'))
  | .item, body, text => IsItem text ∧ (body.isTrivial = true → IsTrivialItem text)
  | .branch leading, body, text => ∃ items, text = items.flatten ∧ IsFirstOperand leading items ∧
      (body.isTrivial = true ↔ ∀ item ∈ items, IsTrivialItem item)
  | .scope leading, body, text =>
    ∃ first later, text = joinOperands (first :: later) ∧ IsScope leading first later ∧
      (body.isTrivial = true → later = [] ∧ ∀ item ∈ first, IsTrivialItem item)

theorem IsFirstOperand.isItem {items : List (List Char)} (h : IsFirstOperand false items) :
    ∀ item ∈ items, IsItem item := by
  cases h with
  | items hitems => exact hitems

theorem not_isTrivialItem_singleton (c : Char) : ¬ IsTrivialItem [c] := by
  intro h
  generalize htext : [c] = text at h
  cases h with
  | group n hitems => simp at htext

/-- A group of whatever is a scope takes any quantifier. -/
theorem Shape.group {body : Pattern} {text : List Char} (h : Shape (.scope false) body text) :
    Shape .atom (.group body) ('(' :: (text ++ [')'])) := by
  obtain ⟨first, later, rfl, hscope, htrivial⟩ := h
  constructor
  · intro quantifying hquantifying
    have hitem : IsItem ('(' :: (joinOperands (first :: later) ++ ')' :: quantifying)) :=
      .group hscope.isFirst.isItem (fun operand h => (hscope.isLater operand h).isItem)
        (fun operand h => (hscope.isLater operand h).exists_not_isTrivialItem) hquantifying
    simpa using hitem
  · intro hbody n
    obtain ⟨rfl, hitems⟩ := htrivial hbody
    rw [joinOperands_singleton]
    simpa using IsTrivialItem.group n hitems

/-- One more question mark after a part that takes any number of them. -/
theorem Shape.optional {body : Pattern} {text : List Char}
    (hitem : ∀ n, IsItem (text ++ List.replicate n '?'))
    (htrivial : body.isTrivial = true → ∀ n, IsTrivialItem (text ++ List.replicate n '?')) :
    Shape .option (.quantified .optional body) (text ++ ['?']) := by
  have hshift (n : Nat) :
      text ++ ['?'] ++ List.replicate n '?' = text ++ List.replicate (n + 1) '?' := by
    rw [List.replicate_succ, List.append_assoc, List.singleton_append]
  refine ⟨fun n => ?_, fun hbody n => ?_⟩
  · rw [hshift]
    exact hitem (n + 1)
  · rw [hshift]
    exact htrivial hbody (n + 1)

/-- An item and the items that follow it. -/
theorem Shape.cons {leading : Bool} {item body : Pattern} {left right : List Char}
    (hspelled : Spelled .item item (symbolsOf left)) (hitem : Shape .item item left)
    (hbody : Shape (.branch false) body right) :
    Shape (.branch leading) (.sequence item body) (left ++ right) := by
  obtain ⟨items, rfl, hitems, htrivial⟩ := hbody
  have hleft : item.isTrivial = true ↔ IsTrivialItem left :=
    ⟨hitem.2, fun h => h.isTrivial hspelled⟩
  refine ⟨left :: items, rfl, .items (List.forall_mem_cons.mpr ⟨hitem.1, hitems.isItem⟩), ?_⟩
  rw [isTrivial, Bool.and_eq_true, hleft, htrivial, List.forall_mem_cons]

/-- A quantifier at the start of the pattern and the items that follow it. -/
theorem Shape.bare {q : Quantifier} {body : Pattern} {right : List Char} (hq : q ≠ .optional)
    (hbody : Shape (.branch false) body right) :
    Shape (.branch true) (.sequence (.quantified q .wildcard) body) (q.symbol :: right) := by
  obtain ⟨items, rfl, hitems, -⟩ := hbody
  have hsymbol : q.symbol = '*' ∨ q.symbol = '+' := by
    cases q with
    | optional => exact absurd rfl hq
    | plus => exact .inr rfl
    | star => exact .inl rfl
  refine ⟨[q.symbol] :: items, rfl, .bare hsymbol hitems.isItem, ?_⟩
  refine iff_of_false ?_ fun h => not_isTrivialItem_singleton _ (h _ List.mem_cons_self)
  cases q with
  | optional => exact absurd rfl hq
  | plus | star => simp [isTrivial]

/-- A scope and one more operand. -/
theorem Shape.union {leading : Bool} {leftBody rightBody : Pattern} {left right : List Char}
    (hleft : Shape (.scope leading) leftBody left) (hright : Shape (.branch false) rightBody right)
    (htrivial : rightBody.isTrivial = false) (hne : leading = true → left ≠ []) :
    Shape (.scope leading) (.union leftBody rightBody) (left ++ '|' :: right) := by
  obtain ⟨first, later, rfl, hscope, -⟩ := hleft
  obtain ⟨items, rfl, hitems, hall⟩ := hright
  have hplace : ∃ item ∈ items, ¬ IsTrivialItem item := by
    by_contra hnone
    push Not at hnone
    rw [hall.mpr hnone] at htrivial
    cases htrivial
  refine ⟨first, later ++ [items], ?_, ⟨hscope.isFirst, ?_, fun hleading _ => ?_⟩, nofun⟩
  · rw [← List.cons_append, joinOperands_concat (List.cons_ne_nil _ _)]
  · rw [List.forall_mem_append]
    exact ⟨hscope.isLater, List.forall_mem_singleton.mpr ⟨hitems.isItem, hplace⟩⟩
  · by_cases hlater : later = []
    · subst hlater
      rw [joinOperands_singleton] at hne
      exact hne hleading
    · exact hscope.ne_nil hleading hlater

/-- The text that writes a tree is in the grammar. -/
theorem Spelled.shape {form : PatternForm} {body : Pattern} {u : List PatternToken}
    (h : Spelled form body u) {text : List Char} (htext : symbolsOf text = u) :
    Shape form body text := by
  -- The text is cut where its symbols are, and each of its parts is written by a part of the tree.
  induction h generalizing text with
  | literal c =>
    have hsymbols : symbolsOf text = [c].map .plain := htext
    obtain ⟨rfl, hplain⟩ := plain_of_symbolsOf hsymbols
    exact ⟨fun _ h => .plain (hplain c (List.mem_singleton_self c)) h, nofun⟩
  | wildcard =>
    obtain ⟨rest, rfl, hrest⟩ := cons_of_symbolsOf htext
    obtain rfl := List.map_eq_nil_iff.mp hrest
    exact ⟨fun _ h => .dot h, nofun⟩
  | group _ ih =>
    obtain ⟨rest, rfl, hrest⟩ := cons_of_symbolsOf htext
    obtain ⟨inner, rfl, hinner⟩ := concat_of_symbolsOf hrest
    exact (ih hinner).group
  | optional _ ih =>
    obtain ⟨inner, rfl, hinner⟩ := concat_of_symbolsOf htext
    obtain ⟨hitem, htrivial⟩ := ih hinner
    exact .optional (fun n => hitem _ (.optional n)) htrivial
  | again _ ih =>
    obtain ⟨inner, rfl, hinner⟩ := concat_of_symbolsOf htext
    obtain ⟨hitem, htrivial⟩ := ih hinner
    exact .optional hitem htrivial
  | ofAtom _ ih =>
    obtain ⟨hitem, htrivial⟩ := ih htext
    rw [← List.append_nil text]
    exact ⟨hitem _ (.optional 0), fun hbody => htrivial hbody 0⟩
  | ofOption _ ih =>
    obtain ⟨hitem, htrivial⟩ := ih htext
    rw [← List.append_nil text]
    exact ⟨hitem 0, fun hbody => htrivial hbody 0⟩
  | @repeated q _ _ hq _ ih =>
    obtain ⟨inner, rfl, hinner⟩ := concat_of_symbolsOf htext
    cases q with
    | optional => exact absurd rfl hq
    | plus => exact ⟨(ih hinner).1 _ .plus, nofun⟩
    | star => exact ⟨(ih hinner).1 _ .star, nofun⟩
  | negated hne _ =>
    obtain ⟨rest, rfl, hrest⟩ := cons_of_symbolsOf htext
    obtain ⟨inner, rfl, hinner⟩ := concat_of_symbolsOf hrest
    obtain ⟨rfl, hplain⟩ := plain_of_symbolsOf hinner
    exact ⟨.negated hne hplain, nofun⟩
  | nil =>
    obtain rfl := List.map_eq_nil_iff.mp htext
    exact ⟨[], rfl, .items nofun, iff_of_true rfl nofun⟩
  | cons hitem _ ihItem ihBody =>
    obtain ⟨left, right, rfl, rfl, hright⟩ := append_of_symbolsOf htext
    exact .cons hitem (ihItem rfl) (ihBody hright)
  | bare hq _ ih =>
    obtain ⟨right, rfl, hright⟩ := cons_of_symbolsOf htext
    exact .bare hq (ih hright)
  | ofBranch _ ih =>
    obtain ⟨items, rfl, hitems, htrivial⟩ := ih htext
    exact ⟨items, [], joinOperands_singleton.symm, ⟨hitems, nofun, fun _ h => absurd rfl h⟩,
      fun hbody => ⟨rfl, htrivial.mp hbody⟩⟩
  | union _ _ htrivial hne ihLeft ihRight =>
    obtain ⟨left, rest, rfl, rfl, hrest⟩ := append_of_symbolsOf htext
    obtain ⟨right, rfl, hright⟩ := cons_of_symbolsOf hrest
    refine .union (ihLeft rfl) (ihRight hright) htrivial fun hleading hnil => ?_
    exact hne hleading (by rw [hnil, symbolsOf_nil])

/-! ### What is in the grammar is written -/

/-- Where a text has a tree, the tree is trivial exactly when the text is. -/
theorem Spelled.hasTree {tree : Pattern} {item : List Char}
    (h : Spelled .item tree (symbolsOf item)) : HasTree item :=
  ⟨tree, h, (h.shape rfl).2, fun htrivial => htrivial.isTrivial h⟩

/-- Operands with bars between them have a tree. -/
theorem exists_scope {leading : Bool} {first : List (List Char)}
    {later : List (List (List Char))}
    (hfirst : ∃ body, Spelled (.branch leading) body (symbolsOf first.flatten))
    (hlater : ∀ operand ∈ later, (∀ item ∈ operand, HasTree item) ∧
      ∃ item ∈ operand, ¬ IsTrivialItem item)
    (hne : leading = true → later ≠ [] → first.flatten ≠ []) :
    ∃ body, Spelled (.scope leading) body (symbolsOf (joinOperands (first :: later))) := by
  -- A tree splits a scope at its last bar, so operands are taken off at the end.
  induction later using List.reverseRecOn with
  | nil =>
    obtain ⟨body, hbody⟩ := hfirst
    rw [joinOperands_singleton]
    exact ⟨body, .ofBranch hbody⟩
  | append_singleton later operand ih =>
    rw [List.forall_mem_append] at hlater
    obtain ⟨hlater, hoperand⟩ := hlater
    obtain ⟨hitems, item, hitem, hplace⟩ := hoperand operand (List.mem_singleton_self operand)
    have hne (hleading : leading = true) : first.flatten ≠ [] :=
      hne hleading (List.append_ne_nil_of_right_ne_nil _ (List.cons_ne_nil _ _))
    obtain ⟨left, hleft⟩ := ih hlater fun hleading _ => hne hleading
    obtain ⟨right, hright, htrivial⟩ := exists_branch hitems
    rw [← List.cons_append, joinOperands_concat (List.cons_ne_nil _ _), symbolsOf_append]
    refine ⟨_, .union hleft hright ?_ fun hleading hnil => ?_⟩
    · rw [← Bool.not_eq_true, htrivial]
      exact fun hall => hplace (hall item hitem)
    · exact joinOperands_ne_nil (hne hleading) (List.map_eq_nil_iff.mp hnil)

/-- An item has a tree. -/
theorem IsItem.hasTree {item : List Char} (h : IsItem item) : HasTree item := by
  induction h with
  | @plain c quantifying hc hquantifying =>
    obtain ⟨tree, h⟩ := (Spelled.literal c).exists_item hquantifying
    have hspelled : Spelled .item tree (symbolsOf (c :: quantifying)) := by
      rwa [symbolsOf_cons, PatternToken.ofChar_eq_plain_iff.mpr ⟨rfl, hc⟩]
    exact hspelled.hasTree
  | @dot quantifying hquantifying =>
    obtain ⟨tree, h⟩ := Spelled.wildcard.exists_item hquantifying
    have hspelled : Spelled .item tree (symbolsOf ('.' :: quantifying)) := h
    exact hspelled.hasTree
  | @group first later quantifying _ _ hplaces hquantifying ihFirst ihLater =>
    obtain ⟨branch, hbranch, -⟩ := exists_branch ihFirst
    obtain ⟨body, hbody⟩ := exists_scope ⟨branch, hbranch⟩
      (fun operand h => ⟨ihLater operand h, hplaces operand h⟩) nofun
    obtain ⟨tree, h⟩ := (Spelled.group hbody).exists_item hquantifying
    have hspelled : Spelled .item tree
        (symbolsOf ('(' :: (joinOperands (first :: later) ++ ')' :: quantifying))) := by
      simpa [PatternToken.ofChar] using h
    exact hspelled.hasTree
  | @negated chars hne hchars =>
    have h : Spelled .item (.negated (.ofList chars)) _ :=
      .negated hne fun c => by rw [Std.ExtTreeSet.mem_ofList]; simp
    have hspelled : Spelled .item (.negated (.ofList chars))
        (symbolsOf ('[' :: (chars ++ [']']))) := by
      simpa [symbolsOf_plain hchars, PatternToken.ofChar] using h
    exact hspelled.hasTree

/-- The first operand of a pattern has a tree. -/
theorem IsFirstOperand.exists_branch {leading : Bool} {items : List (List Char)}
    (h : IsFirstOperand leading items) :
    ∃ body, Spelled (.branch leading) body (symbolsOf items.flatten) := by
  cases h with
  | items hitems =>
    obtain ⟨body, hbody, -⟩ := Pattern.exists_branch fun item h => (hitems item h).hasTree
    exact ⟨body, hbody.lead leading⟩
  | @bare quantifier items hquantifier hitems =>
    obtain ⟨body, hbody, -⟩ := Pattern.exists_branch fun item h => (hitems item h).hasTree
    rcases hquantifier with rfl | rfl
    · exact ⟨_, .bare (by decide) hbody⟩
    · exact ⟨_, .bare (by decide) hbody⟩

/-- The texts that are written by a tree are those that are in the grammar. -/
theorem exists_spelled_iff {text : List Char} :
    (∃ tree, Spelled (.scope true) tree (symbolsOf text)) ↔ IsTopScope text := by
  constructor
  · rintro ⟨tree, h⟩
    obtain ⟨first, later, rfl, hscope, -⟩ := h.shape rfl
    exact ⟨first, later, rfl, hscope⟩
  · rintro ⟨first, later, rfl, hscope⟩
    refine exists_scope hscope.isFirst.exists_branch (fun operand h => ?_) hscope.ne_nil
    obtain ⟨hitems, hplace⟩ := hscope.isLater operand h
    exact ⟨fun item hitem => (hitems item hitem).hasTree, hplace⟩

end Pattern

/-- A text that does not compile is not read. -/
theorem read_eq_error_of_compilePattern {table : SymbolTable} {text : List Char}
    {error : PatternError} (h : compilePattern table text = .error error) :
    Pattern.read text = .error error := by
  rcases Pattern.bind_eq_error h with hread | ⟨tree, -, hpure⟩
  · exact hread
  · cases hpure

end SentenceSearch
