import Mathlib.Data.List.Basic
import SentenceSearch.Pattern.Reader

/-!
# The written form of a pattern

A grammar of written patterns that says nothing about how they are read. An atom is a literal, a
wildcard or a group; one quantifier may follow it, and more question marks may follow a question
mark. Items are joined to branches and branches to unions. At the very start of a pattern a
quantifier that repeats may stand without an operand.

## Main definitions

* `PatternForm` — the kinds of parts of a written pattern
* `Pattern.Spelled` — the symbols that write a pattern of a given form

## Main results

* `Pattern.read_eq_ok_iff` — the reader accepts the grammar and gives the tree it assigns
* `Pattern.Spelled.unique` — a written pattern has one tree
-/

namespace SentenceSearch

/-- The kinds of parts of a written pattern. Branches and scopes that are `leading` begin where the
pattern begins. -/
inductive PatternForm where
  /-- What any quantifier may follow. -/
  | atom
  /-- What ends with a question mark. -/
  | option
  /-- A part with its quantifier. -/
  | item
  /-- Items in a row. -/
  | branch (leading : Bool)
  /-- Branches with bars between them. -/
  | scope (leading : Bool)
  deriving DecidableEq, Repr

namespace Pattern

/-- The symbols write the pattern as a part of the given form. -/
inductive Spelled : PatternForm → Pattern → List PatternToken → Prop where
  | literal (c : Char) : Spelled .atom (.literal c) [.plain c]
  | wildcard : Spelled .atom .wildcard [.dot]
  | group {body : Pattern} {u : List PatternToken} :
      Spelled (.scope false) body u →
      Spelled .atom (.group body) (.openGroup :: (u ++ [.closeGroup]))
  | optional {body : Pattern} {u : List PatternToken} :
      Spelled .atom body u →
      Spelled .option (.quantified .optional body) (u ++ [.quantifier .optional])
  | again {body : Pattern} {u : List PatternToken} :
      Spelled .option body u →
      Spelled .option (.quantified .optional body) (u ++ [.quantifier .optional])
  | ofAtom {body : Pattern} {u : List PatternToken} : Spelled .atom body u → Spelled .item body u
  | ofOption {body : Pattern} {u : List PatternToken} :
      Spelled .option body u → Spelled .item body u
  | repeated {q : Quantifier} {body : Pattern} {u : List PatternToken} :
      q ≠ .optional → Spelled .atom body u →
      Spelled .item (.quantified q body) (u ++ [.quantifier q])
  | negated {excluded : Std.ExtTreeSet Char} {chars : List Char} :
      chars ≠ [] → (∀ c, c ∈ excluded ↔ c ∈ chars) →
      Spelled .item (.negated excluded) (.openClass :: (chars.map .plain ++ [.closeClass]))
  | nil {leading : Bool} : Spelled (.branch leading) .empty []
  | cons {leading : Bool} {item body : Pattern} {u v : List PatternToken} :
      Spelled .item item u → Spelled (.branch false) body v →
      Spelled (.branch leading) (.sequence item body) (u ++ v)
  /-- A quantifier without an operand repeats a wildcard. -/
  | bare {q : Quantifier} {body : Pattern} {v : List PatternToken} :
      q ≠ .optional → Spelled (.branch false) body v →
      Spelled (.branch true) (.sequence (.quantified q .wildcard) body) (.quantifier q :: v)
  | ofBranch {leading : Bool} {body : Pattern} {u : List PatternToken} :
      Spelled (.branch leading) body u → Spelled (.scope leading) body u
  | union {leading : Bool} {left right : Pattern} {u v : List PatternToken} :
      Spelled (.scope leading) left u → Spelled (.branch false) right v →
      right.isTrivial = false → (leading = true → u ≠ []) →
      Spelled (.scope leading) (.union left right) (u ++ .bar :: v)

/-- A branch may begin the pattern. -/
theorem Spelled.lead {body : Pattern} {u : List PatternToken} (h : Spelled (.branch false) body u)
    (leading : Bool) : Spelled (.branch leading) body u := by
  cases h with
  | nil => exact .nil
  | cons hitem hbody => exact .cons hitem hbody

/-! ### The reader without its bounds -/

/-- The value and the symbols that remain. -/
def Reading.outcome {α : Type} {n : Nat} (r : Reading α n) :
    Except PatternError (α × List PatternToken) :=
  Except.map (fun x => (x.1, x.2.1)) r

theorem Reading.outcome_eq_ok_iff {α : Type} {n : Nat} {r : Reading α n} {a : α}
    {rest : List PatternToken} :
    r.outcome = .ok (a, rest) ↔ ∃ h : rest.length ≤ n, r = .ok (a, ⟨rest, h⟩) := by
  cases r with
  | error e => simp [outcome, Except.map]
  | ok x =>
    rcases x with ⟨b, left, h⟩
    simp only [outcome, Except.map, Except.ok.injEq, Prod.mk.injEq]
    constructor
    · rintro ⟨rfl, rfl⟩
      exact ⟨h, rfl, rfl⟩
    · rintro ⟨_, rfl, hleft⟩
      exact ⟨rfl, congrArg Subtype.val hleft⟩

theorem Reading.outcome_map {α β : Type} {m n : Nat} (h : m ≤ n) (f : α → β) (r : Reading α m) :
    (r.map h f).outcome = r.outcome.map (Prod.map f id) := by
  cases r <;> rfl

theorem Reading.outcome_map_id {α : Type} {m n : Nat} (h : m ≤ n) (r : Reading α m) :
    (r.map h id).outcome = r.outcome := by
  cases r <;> rfl

/-- Reading on with what a first reading gives. -/
theorem Reading.outcome_bind {α β : Type} {n k : Nat} (r : Reading α n)
    (f : α → (rest : List PatternToken) → Reading β rest.length)
    (h : ∀ rest : { rest : List PatternToken // rest.length ≤ n }, rest.1.length ≤ k) :
    Reading.outcome (n := k) (do let (a, left) ← r; (f a left.1).map (h left) id) =
      r.outcome.bind fun x => (f x.1 x.2).outcome := by
  cases r with
  | error e => rfl
  | ok x =>
    change ((f x.1 x.2.1).map (h x.2) id).outcome = (f x.1 x.2.1).outcome
    exact Reading.outcome_map_id ..

/-- What reading a part gives. -/
def readFrom (part : Part) (symbols : List PatternToken) :
    Except PatternError (Pattern × List PatternToken) :=
  (readPart part symbols).outcome

/-- A part that has been read leaves at most the symbols it was given. -/
theorem length_le_of_readFrom {part : Part} {symbols rest : List PatternToken} {pattern : Pattern}
    (h : readFrom part symbols = .ok (pattern, rest)) : rest.length ≤ symbols.length :=
  (Reading.outcome_eq_ok_iff.mp h).1

section Equations

variable {q : Quantifier} {place : Nat} {outer : Option Nat} {right : Pattern}
  {rest : List PatternToken}

theorem readFrom_operand_nil (h : q ≠ .optional) :
    readFrom (.operand q place) [] = .ok (.quantified q .wildcard, []) := by
  cases q with
  | optional => exact absurd rfl h
  | plus | star =>
    rw [readFrom, readPart]
    · rfl
    · intro h
      cases h

theorem readFrom_operand_close :
    readFrom (.operand q place) (.closeGroup :: rest) =
      (readFrom (.scope (some rest.length) .empty) rest).map
        (Prod.map (fun body => .quantified q (.group body)) id) := by
  rw [readFrom, readPart, Reading.outcome_map]
  rfl

theorem readFrom_operand_dot :
    readFrom (.operand q place) (.dot :: rest) = .ok (.quantified q .wildcard, rest) := by
  rw [readFrom, readPart]
  rfl

theorem readFrom_operand_plain {c : Char} :
    readFrom (.operand q place) (.plain c :: rest) = .ok (.quantified q (.literal c), rest) := by
  rw [readFrom, readPart]
  rfl

theorem readFrom_operand_quantifier {q' : Quantifier} :
    readFrom (.operand q place) (.quantifier q' :: rest) =
      if q' = .optional ∧ q = .optional then
        (readFrom (.operand .optional rest.length) rest).map
          (Prod.map (.quantified .optional ·) id)
      else
        .error (.invalidQuantifierTarget rest.length q.symbol q'.symbol) := by
  rw [readFrom, readPart]
  · simp only [PatternToken.quantifier.injEq, Bool.and_eq_true, decide_eq_true_eq]
    split
    · exact Reading.outcome_map ..
    · rfl
  all_goals simp

theorem readFrom_scope_nil :
    readFrom (.scope none right) [] = .ok (right, []) := by
  rw [readFrom, readPart]
  rfl

theorem readFrom_scope_open {close : Nat} :
    readFrom (.scope (some close) right) (.openGroup :: rest) = .ok (right, rest) := by
  rw [readFrom, readPart]
  rfl

/-- An item whose closing symbol has been seen is put in front of what is read already. -/
theorem readFrom_scope_close :
    readFrom (.scope outer right) (.closeGroup :: rest) =
      (readFrom (.scope (some rest.length) .empty) rest).bind fun x =>
        readFrom (.scope outer (.sequence (.group x.1) right)) x.2 := by
  rw [readFrom, readPart]
  exact Reading.outcome_bind _
    (fun item => readPart (.scope outer (.sequence (.group item) right))) _

theorem readFrom_scope_quantifier :
    readFrom (.scope outer right) (.quantifier q :: rest) =
      (readFrom (.operand q rest.length) rest).bind fun x =>
        readFrom (.scope outer (.sequence x.1 right)) x.2 := by
  rw [readFrom, readPart]
  exact Reading.outcome_bind _ (fun item => readPart (.scope outer (.sequence item right))) _

theorem readFrom_scope_closeClass :
    readFrom (.scope outer right) (.closeClass :: rest) =
      (readClass rest.length ∅ rest).outcome.bind fun x =>
        readFrom (.scope outer (.sequence (.negated x.1) right)) x.2 := by
  rw [readFrom, readPart]
  exact Reading.outcome_bind _
    (fun excluded => readPart (.scope outer (.sequence (.negated excluded) right))) _

theorem readFrom_scope_bar :
    readFrom (.scope outer right) (.bar :: rest) =
      if right.isTrivial || rest.isEmpty then .error (.missingAlternative rest.length)
      else (readFrom (.scope outer .empty) rest).map (Prod.map (.union · right) id) := by
  rw [readFrom, readPart]
  split
  · rfl
  · exact Reading.outcome_map ..

theorem readFrom_scope_dot :
    readFrom (.scope outer right) (.dot :: rest) =
      readFrom (.scope outer (.sequence .wildcard right)) rest := by
  rw [readFrom, readPart, Reading.outcome_map_id]
  rfl

theorem readFrom_scope_plain {c : Char} :
    readFrom (.scope outer right) (.plain c :: rest) =
      readFrom (.scope outer (.sequence (.literal c) right)) rest := by
  rw [readFrom, readPart, Reading.outcome_map_id]
  rfl

end Equations

/-! ### Classes -/

theorem isEmpty_eq_false_iff_exists_mem {excluded : Std.ExtTreeSet Char} :
    excluded.isEmpty = false ↔ ∃ c, c ∈ excluded := by
  rw [Std.ExtTreeSet.isEmpty_eq_false_iff]
  constructor
  · intro h
    by_contra hnone
    refine h (Std.ExtTreeSet.ext_mem fun c => ?_)
    exact iff_of_false (fun hc => hnone ⟨c, hc⟩) Std.ExtTreeSet.not_mem_empty
  · rintro ⟨c, hc⟩ rfl
    exact Std.ExtTreeSet.not_mem_empty hc

theorem readClass_openClass_eq_ok_iff {close : Nat} {excluded result : Std.ExtTreeSet Char}
    {symbols rest : List PatternToken} :
    (readClass close excluded (.openClass :: symbols)).outcome = .ok (result, rest) ↔
      symbols = rest ∧ (∀ c, c ∈ result ↔ c ∈ excluded) ∧ ∃ c, c ∈ result := by
  rw [readClass]
  split
  · rename_i hempty
    simp only [Reading.outcome, Except.map, reduceCtorEq, false_iff, not_and, not_exists]
    intro _ hmem c hc
    rw [Std.ExtTreeSet.isEmpty_iff] at hempty
    exact Std.ExtTreeSet.not_mem_empty (hempty ▸ (hmem c).mp hc)
  · rename_i hempty
    rw [Bool.not_eq_true, isEmpty_eq_false_iff_exists_mem] at hempty
    simp only [Reading.outcome, Reading.done, Except.map, Except.ok.injEq, Prod.mk.injEq]
    constructor
    · rintro ⟨rfl, rfl⟩
      exact ⟨rfl, fun _ => Iff.rfl, hempty⟩
    · rintro ⟨rfl, hmem, -⟩
      exact ⟨Std.ExtTreeSet.ext_mem fun c => (hmem c).symm, rfl⟩

/-- The reader of a class takes the plain characters up to the opening bracket. -/
theorem readClass_eq_ok_iff {close : Nat} {excluded result : Std.ExtTreeSet Char}
    {symbols rest : List PatternToken} :
    (readClass close excluded symbols).outcome = .ok (result, rest) ↔
      ∃ chars : List Char, symbols = chars.map .plain ++ .openClass :: rest ∧
        (∀ c, c ∈ result ↔ c ∈ chars ∨ c ∈ excluded) ∧ ∃ c, c ∈ result := by
  induction symbols generalizing excluded with
  | nil => simp [readClass, Reading.outcome, Except.map]
  | cons symbol symbols ih =>
    by_cases hplain : ∃ c, symbol = .plain c
    · obtain ⟨c, rfl⟩ := hplain
      rw [readClass, Reading.outcome_map_id, ih]
      constructor
      · rintro ⟨chars, rfl, hmem, hne⟩
        refine ⟨c :: chars, rfl, fun d => ?_, hne⟩
        rw [hmem d, Std.ExtTreeSet.mem_insert, Std.LawfulEqCmp.compare_eq_iff_eq, List.mem_cons]
        tauto
      · rintro ⟨chars, hsymbols, hmem, hne⟩
        rcases chars with - | ⟨d, chars⟩
        · simp at hsymbols
        · simp only [List.map_cons, List.cons_append, List.cons.injEq,
            PatternToken.plain.injEq] at hsymbols
          obtain ⟨rfl, rfl⟩ := hsymbols
          refine ⟨chars, rfl, fun d => ?_, hne⟩
          rw [hmem d, Std.ExtTreeSet.mem_insert, Std.LawfulEqCmp.compare_eq_iff_eq, List.mem_cons]
          tauto
    · have hshape : ∀ chars : List Char,
          symbol :: symbols = chars.map .plain ++ .openClass :: rest ↔
            chars = [] ∧ symbol = .openClass ∧ symbols = rest := by
        rintro (- | ⟨c, chars⟩)
        · simp
        · simpa using fun h => absurd ⟨c, h⟩ hplain
      simp only [hshape, and_assoc, exists_eq_left]
      cases symbol with
      | openClass => simp [readClass_openClass_eq_ok_iff]
      | plain c => exact absurd ⟨c, rfl⟩ hplain
      | openGroup | closeGroup | closeClass | bar | dot | quantifier =>
        simp [readClass, Reading.outcome, Except.map]

/-! ### What is written is read -/

/-- Read from the right, the symbols are an operand of the quantifier. -/
def ReadsOperand (q : Quantifier) (body : Pattern) (u : List PatternToken) : Prop :=
  ∀ place rest, readFrom (.operand q place) (u.reverse ++ rest) = .ok (.quantified q body, rest)

/-- Read from the right, the symbols are an item of whatever scope they stand in. -/
def ReadsItem (item : Pattern) (u : List PatternToken) : Prop :=
  ∀ outer right rest, readFrom (.scope outer right) (u.reverse ++ rest) =
    readFrom (.scope outer (.sequence item right)) rest

/-- What the reader does with the symbols of a part of each form. -/
def ReadsBack : PatternForm → Pattern → List PatternToken → Prop
  | .atom, body, u => ReadsItem body u ∧ ∀ q, ReadsOperand q body u
  | .option, body, u => ReadsItem body u ∧ ReadsOperand .optional body u
  | .item, body, u => ReadsItem body u
  | .branch false, body, u => ∀ outer rest,
    readFrom (.scope outer .empty) (u.reverse ++ rest) = readFrom (.scope outer body) rest
  | .scope false, body, u => ∀ close rest,
    readFrom (.scope (some close) .empty) (u.reverse ++ .openGroup :: rest) = .ok (body, rest)
  | .branch true, body, u | .scope true, body, u =>
    readFrom (.scope none .empty) u.reverse = .ok (body, [])

theorem ReadsOperand.item {q : Quantifier} {body : Pattern} {u : List PatternToken}
    (h : ReadsOperand q body u) : ReadsItem (.quantified q body) (u ++ [.quantifier q]) := by
  intro outer right rest
  rw [List.reverse_append, List.reverse_singleton, List.singleton_append, List.cons_append,
    readFrom_scope_quantifier, h]
  rfl

theorem ReadsOperand.again {body : Pattern} {u : List PatternToken}
    (h : ReadsOperand .optional body u) :
    ReadsOperand .optional (.quantified .optional body) (u ++ [.quantifier .optional]) := by
  intro place rest
  rw [List.reverse_append, List.reverse_singleton, List.singleton_append, List.cons_append,
    readFrom_operand_quantifier, if_pos ⟨rfl, rfl⟩, h]
  rfl

theorem readsItem_negated {excluded : Std.ExtTreeSet Char} {chars : List Char}
    (hne : chars ≠ []) (hmem : ∀ c, c ∈ excluded ↔ c ∈ chars) :
    ReadsItem (.negated excluded) (.openClass :: (chars.map .plain ++ [.closeClass])) := by
  intro outer right rest
  obtain ⟨c, hc⟩ := List.exists_mem_of_ne_nil chars hne
  have hread (close : Nat) : (readClass close ∅
      (chars.reverse.map .plain ++ .openClass :: rest)).outcome = .ok (excluded, rest) := by
    rw [readClass_eq_ok_iff]
    exact ⟨chars.reverse, rfl, fun d => by simp [hmem d], c, (hmem c).mpr hc⟩
  have hshape : (PatternToken.openClass :: (chars.map .plain ++ [.closeClass])).reverse ++ rest =
      .closeClass :: (chars.reverse.map .plain ++ .openClass :: rest) := by simp
  rw [hshape, readFrom_scope_closeClass, hread]
  rfl

theorem readsBack_group {body : Pattern} {u : List PatternToken}
    (h : ReadsBack (.scope false) body u) :
    ReadsBack .atom (.group body) (.openGroup :: (u ++ [.closeGroup])) := by
  have hshape (rest : List PatternToken) :
      (PatternToken.openGroup :: (u ++ [.closeGroup])).reverse ++ rest =
        .closeGroup :: (u.reverse ++ .openGroup :: rest) := by simp
  constructor
  · intro outer right rest
    rw [hshape, readFrom_scope_close, h]
    rfl
  · intro q place rest
    rw [hshape, readFrom_operand_close, h]
    rfl

/-- The reader gives back the tree of whatever is written. -/
theorem Spelled.readsBack {form : PatternForm} {body : Pattern} {u : List PatternToken}
    (h : Spelled form body u) : ReadsBack form body u := by
  induction h with
  | literal c => exact ⟨fun _ _ _ => readFrom_scope_plain, fun _ _ _ => readFrom_operand_plain⟩
  | wildcard => exact ⟨fun _ _ _ => readFrom_scope_dot, fun _ _ _ => readFrom_operand_dot⟩
  | group _ ih => exact readsBack_group ih
  | optional _ ih => exact ⟨(ih.2 _).item, (ih.2 _).again⟩
  | again _ ih => exact ⟨ih.2.item, ih.2.again⟩
  | ofAtom _ ih => exact ih.1
  | ofOption _ ih => exact ih.1
  | repeated _ _ ih => exact (ih.2 _).item
  | negated hne hmem => exact readsItem_negated hne hmem
  | @nil leading =>
    cases leading with
    | false => exact fun _ _ => rfl
    | true => exact readFrom_scope_nil
  | @cons leading item body u v _ _ ihItem ihBody =>
    cases leading with
    | false =>
      intro outer rest
      rw [List.reverse_append, List.append_assoc, ihBody, ihItem]
    | true =>
      have hitem := ihItem none body []
      rw [List.append_nil] at hitem
      change readFrom _ (u ++ v).reverse = _
      rw [List.reverse_append, ihBody, hitem, readFrom_scope_nil]
  | bare hq _ ih =>
    change readFrom _ (_ :: _).reverse = _
    rw [List.reverse_cons, ih, readFrom_scope_quantifier, readFrom_operand_nil hq]
    exact readFrom_scope_nil
  | @ofBranch leading body u _ ih =>
    cases leading with
    | false =>
      intro close rest
      rw [ih, readFrom_scope_open]
    | true => exact ih
  | @union leading left right u v _ _ hright hleft ihLeft ihRight =>
    cases leading with
    | false =>
      intro close rest
      have hshape : (u ++ .bar :: v).reverse ++ .openGroup :: rest =
          v.reverse ++ .bar :: (u.reverse ++ .openGroup :: rest) := by simp
      rw [hshape, ihRight, readFrom_scope_bar, if_neg (by simp [hright]), ihLeft]
      rfl
    | true =>
      have hshape : (u ++ .bar :: v).reverse = v.reverse ++ .bar :: u.reverse := by simp
      change readFrom _ (u ++ .bar :: v).reverse = _
      rw [hshape, ihRight, readFrom_scope_bar, if_neg (by simp [hright, hleft rfl]), ihLeft]
      rfl

/-! ### What is read is written -/

/-- What has been taken from the symbols by reading a part. -/
def Taken : Part → List PatternToken → Pattern → List PatternToken → Prop
  | .operand q _, symbols, pattern, rest => ∃ body, pattern = .quantified q body ∧
    ((symbols = [] ∧ rest = [] ∧ q ≠ .optional ∧ body = .wildcard) ∨
      ∃ u, symbols = u.reverse ++ rest ∧
        (Spelled .atom body u ∨ q = .optional ∧ Spelled .option body u))
  | .scope outer right, symbols, pattern, rest => ∃ u,
    (match outer with
      | none => symbols = u.reverse ∧ rest = []
      | some _ => symbols = u.reverse ++ .openGroup :: rest) ∧
    ∀ v, Spelled (.branch false) right v → Spelled (.scope outer.isNone) pattern (u ++ v)

/-- An item to the left of what is read already. -/
theorem Taken.cons {outer : Option Nat} {item right pattern : Pattern}
    {u left rest : List PatternToken} (hitem : Spelled .item item u)
    (h : Taken (.scope outer (.sequence item right)) left pattern rest) :
    Taken (.scope outer right) (u.reverse ++ left) pattern rest := by
  obtain ⟨w, hleft, hspelled⟩ := h
  refine ⟨w ++ u, ?_, fun v hv => ?_⟩
  · cases outer with
    | none => exact ⟨by rw [hleft.1, List.reverse_append], hleft.2⟩
    | some close =>
      change _ = _ at hleft
      simp [hleft]
  · rw [List.append_assoc]
    exact hspelled _ (.cons hitem hv)

theorem map_eq_ok {α β ε : Type} {f : α → β} {x : Except ε α} {b : β} (h : x.map f = .ok b) :
    ∃ a, x = .ok a ∧ f a = b := by
  cases x with
  | error e => cases h
  | ok a => exact ⟨a, rfl, Except.ok.inj h⟩

theorem bind_eq_ok {α β ε : Type} {f : α → Except ε β} {x : Except ε α} {b : β}
    (h : x.bind f = .ok b) : ∃ a, x = .ok a ∧ f a = .ok b := by
  cases x with
  | error e => cases h
  | ok a => exact ⟨a, rfl, h⟩

/-- A group is taken whole. -/
theorem Taken.group {close : Nat} {body : Pattern} {symbols rest : List PatternToken}
    (h : Taken (.scope (some close) .empty) symbols body rest) :
    ∃ u, .closeGroup :: symbols = u.reverse ++ rest ∧ Spelled .atom (.group body) u := by
  obtain ⟨u, hsymbols, hspelled⟩ := h
  change symbols = _ at hsymbols
  refine ⟨.openGroup :: (u ++ [.closeGroup]), by simp [hsymbols], .group ?_⟩
  have hbody := hspelled [] .nil
  rwa [List.append_nil] at hbody

/-- What a question mark follows is taken with it. -/
theorem Taken.option {place : Nat} {item : Pattern} {symbols rest : List PatternToken}
    (h : Taken (.operand .optional place) symbols item rest) :
    ∃ u, .quantifier .optional :: symbols = u.reverse ++ rest ∧ Spelled .option item u := by
  obtain ⟨body, rfl, ⟨-, -, hq, -⟩ | ⟨u, rfl, hbody⟩⟩ := h
  · exact absurd rfl hq
  · refine ⟨u ++ [.quantifier .optional], by simp, ?_⟩
    rcases hbody with hatom | ⟨-, hoption⟩
    · exact .optional hatom
    · exact .again hoption

/-- An operand and its quantifier are an item, unless the operand is missing. -/
theorem Taken.item {q : Quantifier} {place : Nat} {item : Pattern}
    {symbols rest : List PatternToken} (h : Taken (.operand q place) symbols item rest) :
    (symbols = [] ∧ rest = [] ∧ q ≠ .optional ∧ item = .quantified q .wildcard) ∨
      ∃ u, .quantifier q :: symbols = u.reverse ++ rest ∧ Spelled .item item u := by
  by_cases hq : q = .optional
  · subst hq
    obtain ⟨u, hu, hoption⟩ := h.option
    exact .inr ⟨u, hu, .ofOption hoption⟩
  · obtain ⟨body, rfl, ⟨hsymbols, hrest, -, rfl⟩ | ⟨u, rfl, hbody⟩⟩ := h
    · exact .inl ⟨hsymbols, hrest, hq, rfl⟩
    · rcases hbody with hatom | ⟨hq', -⟩
      · exact .inr ⟨u ++ [.quantifier q], by simp, .repeated hq hatom⟩
      · exact absurd hq' hq

/-- A bar joins what has been read to its left with what follows it. -/
theorem Taken.union {outer : Option Nat} {left right : Pattern} {symbols rest : List PatternToken}
    (hright : right.isTrivial = false) (hsymbols : symbols ≠ [])
    (h : Taken (.scope outer .empty) symbols left rest) :
    Taken (.scope outer right) (.bar :: symbols) (.union left right) rest := by
  obtain ⟨u, hu, hspelled⟩ := h
  have hleft := hspelled [] .nil
  rw [List.append_nil] at hleft
  refine ⟨u ++ [.bar], ?_, fun v hv => ?_⟩
  · cases outer with
    | none => exact ⟨by rw [hu.1]; simp, hu.2⟩
    | some close =>
      change _ = _ at hu
      simp [hu]
  · rw [List.append_assoc]
    refine .union hleft hv hright fun hleading hnil => hsymbols ?_
    obtain rfl := Option.isNone_iff_eq_none.mp hleading
    rw [hu.1, hnil, List.reverse_nil]

/-- A class is taken whole. -/
theorem spelled_of_readClass {close : Nat} {excluded : Std.ExtTreeSet Char}
    {symbols rest : List PatternToken}
    (h : (readClass close ∅ symbols).outcome = .ok (excluded, rest)) :
    ∃ u, .closeClass :: symbols = u.reverse ++ rest ∧ Spelled .item (.negated excluded) u := by
  obtain ⟨chars, rfl, hmem, c, hc⟩ := readClass_eq_ok_iff.mp h
  refine ⟨.openClass :: (chars.reverse.map .plain ++ [.closeClass]), by simp, .negated ?_ ?_⟩
  · rintro hnil
    rw [List.reverse_eq_nil_iff] at hnil
    simpa [hnil] using (hmem c).mp hc
  · intro d
    simpa using hmem d

/-- Fewer than `n` symbols are only read where something has been written. -/
def TakenBelow (n : Nat) : Prop :=
  ∀ {part : Part} {symbols rest : List PatternToken} {pattern : Pattern}, symbols.length < n →
    readFrom part symbols = .ok (pattern, rest) → Taken part symbols pattern rest

theorem taken_operand {q : Quantifier} {place : Nat} {pattern : Pattern}
    {symbols rest : List PatternToken} (ih : TakenBelow symbols.length)
    (h : readFrom (.operand q place) symbols = .ok (pattern, rest)) :
    Taken (.operand q place) symbols pattern rest := by
  match symbols with
  | [] =>
    by_cases hq : q = .optional
    · subst hq
      rw [readFrom, readPart] at h
      cases h
    · rw [readFrom_operand_nil hq] at h
      cases h
      exact ⟨_, rfl, .inl ⟨rfl, rfl, hq, rfl⟩⟩
  | .closeGroup :: symbols =>
    rw [readFrom_operand_close] at h
    obtain ⟨⟨body, left⟩, hbody, hpattern⟩ := map_eq_ok h
    cases hpattern
    obtain ⟨u, hu, hspelled⟩ := (ih (Nat.lt_succ_self _) hbody).group
    exact ⟨_, rfl, .inr ⟨u, hu, .inl hspelled⟩⟩
  | .dot :: symbols =>
    rw [readFrom_operand_dot] at h
    cases h
    exact ⟨_, rfl, .inr ⟨[.dot], rfl, .inl .wildcard⟩⟩
  | .plain c :: symbols =>
    rw [readFrom_operand_plain] at h
    cases h
    exact ⟨_, rfl, .inr ⟨[.plain c], rfl, .inl (.literal c)⟩⟩
  | .quantifier q' :: symbols =>
    rw [readFrom_operand_quantifier] at h
    split at h
    · rename_i hq
      obtain ⟨rfl, rfl⟩ := hq
      obtain ⟨⟨item, left⟩, hitem, hpattern⟩ := map_eq_ok h
      cases hpattern
      obtain ⟨u, hu, hspelled⟩ := (ih (Nat.lt_succ_self _) hitem).option
      exact ⟨_, rfl, .inr ⟨u, hu, .inr ⟨rfl, hspelled⟩⟩⟩
    · cases h
  | .openGroup :: symbols | .openClass :: symbols | .closeClass :: symbols | .bar :: symbols =>
    rw [readFrom, readPart] at h <;> simp [Reading.outcome, Except.map] at h ⊢

theorem taken_scope {outer : Option Nat} {right pattern : Pattern}
    {symbols rest : List PatternToken} (ih : TakenBelow symbols.length)
    (h : readFrom (.scope outer right) symbols = .ok (pattern, rest)) :
    Taken (.scope outer right) symbols pattern rest := by
  match outer, symbols with
  | none, [] =>
    rw [readFrom_scope_nil] at h
    cases h
    exact ⟨[], ⟨rfl, rfl⟩, fun v hv => .ofBranch (hv.lead true)⟩
  | some close, .openGroup :: symbols =>
    rw [readFrom_scope_open] at h
    cases h
    exact ⟨[], rfl, fun v hv => .ofBranch hv⟩
  | some close, [] | none, .openGroup :: symbols | outer, .openClass :: symbols =>
    rw [readFrom, readPart] at h
    cases h
  | outer, .closeGroup :: symbols =>
    rw [readFrom_scope_close] at h
    obtain ⟨⟨body, left⟩, hbody, hpattern⟩ := bind_eq_ok h
    obtain ⟨u, hu, hspelled⟩ := (ih (Nat.lt_succ_self _) hbody).group
    rw [hu]
    refine Taken.cons (.ofAtom hspelled) (ih ?_ hpattern)
    exact Nat.lt_succ_of_le (length_le_of_readFrom hbody)
  | outer, .quantifier q :: symbols =>
    rw [readFrom_scope_quantifier] at h
    obtain ⟨⟨item, left⟩, hitem, hpattern⟩ := bind_eq_ok h
    have hlt := Nat.lt_succ_of_le (length_le_of_readFrom hitem)
    rcases (ih (Nat.lt_succ_self _) hitem).item with ⟨rfl, rfl, hq, rfl⟩ | ⟨u, hu, hspelled⟩
    -- Nothing is left for the quantifier, which is at the start of the pattern or of a group.
    · cases outer with
      | none =>
        rw [readFrom_scope_nil] at hpattern
        cases hpattern
        exact ⟨[.quantifier q], ⟨rfl, rfl⟩, fun v hv => .ofBranch (.bare hq hv)⟩
      | some close =>
        rw [readFrom, readPart] at hpattern
        cases hpattern
    · rw [hu]
      exact Taken.cons hspelled (ih hlt hpattern)
  | outer, .closeClass :: symbols =>
    rw [readFrom_scope_closeClass] at h
    obtain ⟨⟨excluded, left⟩, hclass, hpattern⟩ := bind_eq_ok h
    obtain ⟨u, hu, hspelled⟩ := spelled_of_readClass hclass
    rw [hu]
    refine Taken.cons hspelled (ih ?_ hpattern)
    exact Nat.lt_succ_of_le (Reading.outcome_eq_ok_iff.mp hclass).1
  | outer, .bar :: symbols =>
    rw [readFrom_scope_bar] at h
    split at h
    · cases h
    · rename_i hsides
      obtain ⟨⟨left, rest'⟩, hleft, hpattern⟩ := map_eq_ok h
      cases hpattern
      rw [Bool.or_eq_true, not_or, Bool.not_eq_true] at hsides
      exact (ih (Nat.lt_succ_self _) hleft).union hsides.1 fun hnil => hsides.2 (by simp [hnil])
  | outer, .dot :: symbols =>
    rw [readFrom_scope_dot] at h
    exact Taken.cons (.ofAtom .wildcard) (ih (Nat.lt_succ_self _) h)
  | outer, .plain c :: symbols =>
    rw [readFrom_scope_plain] at h
    exact Taken.cons (.ofAtom (.literal c)) (ih (Nat.lt_succ_self _) h)

/-- What is read has been written. -/
theorem taken_of_readFrom {part : Part} {symbols rest : List PatternToken} {pattern : Pattern}
    (h : readFrom part symbols = .ok (pattern, rest)) : Taken part symbols pattern rest := by
  -- A part reads on from what an earlier part has left, so the induction is on the length.
  have hall (n : Nat) : TakenBelow n := by
    induction n with
    | zero => exact fun hlt => absurd hlt (Nat.not_lt_zero _)
    | succ n ih =>
      intro part symbols rest pattern hlt hread
      have hbelow : TakenBelow symbols.length := fun hlt' =>
        ih (Nat.lt_of_lt_of_le hlt' (Nat.le_of_lt_succ hlt))
      cases part with
      | operand q place => exact taken_operand hbelow hread
      | scope outer right => exact taken_scope hbelow hread
  exact hall _ (Nat.lt_succ_self _) h

theorem read_eq_readFrom {text : List Char} (hne : text ≠ []) :
    read text = (readFrom (.scope none .empty) (text.map PatternToken.ofChar).reverse).map
      Prod.fst := by
  rw [read, if_neg (by simpa using hne), readFrom]
  cases readPart (.scope none .empty) (text.map PatternToken.ofChar).reverse <;> rfl

/-- A pattern that is read has been written, and what is written is read. -/
theorem read_eq_ok_iff {text : List Char} {pattern : Pattern} :
    read text = .ok pattern ↔
      text ≠ [] ∧ Spelled (.scope true) pattern (text.map PatternToken.ofChar) := by
  constructor
  · intro h
    have hne : text ≠ [] := by
      rintro rfl
      cases h
    rw [read_eq_readFrom hne] at h
    obtain ⟨⟨body, rest⟩, hbody, rfl⟩ := map_eq_ok h
    obtain ⟨u, ⟨hu, -⟩, hspelled⟩ := taken_of_readFrom hbody
    rw [List.reverse_inj] at hu
    have hbody := hspelled [] .nil
    rw [List.append_nil, ← hu] at hbody
    exact ⟨hne, hbody⟩
  · rintro ⟨hne, h⟩
    -- The whole pattern is a scope, which reads back without any symbols around it.
    have hback := h.readsBack
    change readFrom _ _ = _ at hback
    rw [read_eq_readFrom hne, hback]
    rfl

/-- A written pattern has one tree. -/
theorem Spelled.unique {text : List Char} {pattern pattern' : Pattern} (hne : text ≠ [])
    (h : Spelled (.scope true) pattern (text.map PatternToken.ofChar))
    (h' : Spelled (.scope true) pattern' (text.map PatternToken.ofChar)) : pattern = pattern' :=
  Except.ok.inj ((read_eq_ok_iff.mpr ⟨hne, h⟩).symm.trans (read_eq_ok_iff.mpr ⟨hne, h'⟩))

end Pattern

end SentenceSearch
