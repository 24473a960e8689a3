import SentenceSearch.Pattern.Basic

/-!
# Reading patterns

The written form of a pattern is read from right to left, so that a quantifier is seen before its
operand. The list of symbols that remain to be read is therefore in reverse order, and the
position of a symbol is the number of symbols that remain after it.

## Main definitions

* `Pattern.readClass` — the characters of a class, from its closing bracket on
* `Pattern.readPart` — a scope, or an operand with its quantifier
* `Pattern.read` — the tree of a written pattern
-/

namespace SentenceSearch

namespace Pattern

/-- What a reader gives: a value and the symbols that remain, of which there are at most `n`. -/
abbrev Reading (α : Type) (n : Nat) :=
  Except PatternError (α × { rest : List PatternToken // rest.length ≤ n })

/-- Read on with a value and the symbols that remain. -/
def Reading.done {α : Type} {n : Nat} (a : α) (rest : List PatternToken)
    (h : rest.length ≤ n := by simp) : Reading α n :=
  .ok (a, ⟨rest, h⟩)

/-- Change the value of a reading and allow for more symbols. -/
def Reading.map {α β : Type} {m n : Nat} (h : m ≤ n) (f : α → β) : Reading α m → Reading β n
  | .error e => .error e
  | .ok (a, rest) => .ok (f a, ⟨rest.1, Nat.le_trans rest.2 h⟩)

/-- The excluded characters of a class, read from the symbol before its closing bracket, which is
at position `close`. -/
def readClass (close : Nat) (excluded : Std.ExtTreeSet Char) :
    (symbols : List PatternToken) → Reading (Std.ExtTreeSet Char) symbols.length
  | [] => .error (.unopenedClass close)
  | .openClass :: rest =>
    if excluded.isEmpty then .error (.emptyClass rest.length) else .done excluded rest
  | .plain c :: rest => (readClass close (excluded.insert c) rest).map (by simp) id
  | symbol :: rest => .error (.reservedInClass rest.length symbol.toChar)

/-- What is to be read next. -/
inductive Part where
  /-- The operand of the quantifier `q`, which is at position `place`. -/
  | operand (q : Quantifier) (place : Nat)
  /-- The scope that ends with `right`, up to the start of the pattern or, in a group whose closing
  parenthesis is at `group`, up to its opening parenthesis. -/
  | scope (group : Option Nat) (right : Pattern)

/-- Read a scope, or an operand with its quantifier. Without an operand the quantifiers that repeat
take a wildcard. -/
def readPart (part : Part) (symbols : List PatternToken) : Reading Pattern symbols.length :=
  match part, symbols with
  | .operand q place, [] =>
    match q with
    | .optional => .error (.nothingToQuantify place q.symbol)
    | _ => .done (.quantified q .wildcard) []
  | .operand q _, symbol :: rest =>
    match symbol with
    | .closeGroup =>
      (readPart (.scope (some rest.length) .empty) rest).map (by simp) fun body =>
        .quantified q (.group body)
    | .dot => .done (.quantified q .wildcard) rest
    | .plain c => .done (.quantified q (.literal c)) rest
    | _ =>
      -- Only a question mark may stand in front of another one.
      if symbol = .quantifier .optional && q = .optional then
        (readPart (.operand .optional rest.length) rest).map (by simp) (.quantified .optional ·)
      else
        .error (.invalidQuantifierTarget rest.length q.symbol symbol.toChar)
  | .scope (some close) _, [] => .error (.unmatchedClose close)
  | .scope none right, [] => .done right []
  | .scope (some _) right, .openGroup :: rest => .done right rest
  | .scope none _, .openGroup :: rest => .error (.unmatchedOpen rest.length)
  | .scope outer right, .closeGroup :: rest => do
    let (body, left) ← readPart (.scope (some rest.length) .empty) rest
    (readPart (.scope outer (.sequence (.group body) right)) left.1).map
      (Nat.le_succ_of_le left.2) id
  | .scope outer right, .quantifier q :: rest => do
    let (item, left) ← readPart (.operand q rest.length) rest
    (readPart (.scope outer (.sequence item right)) left.1).map (Nat.le_succ_of_le left.2) id
  | .scope outer right, .closeClass :: rest => do
    let (excluded, left) ← readClass rest.length ∅ rest
    (readPart (.scope outer (.sequence (.negated excluded) right)) left.1).map
      (Nat.le_succ_of_le left.2) id
  | .scope _ _, .openClass :: rest => .error (.unclosedClass rest.length)
  | .scope outer right, .bar :: rest =>
    -- The right side has been read already; the left side needs a symbol at least.
    if right.isTrivial || rest.isEmpty then
      .error (.missingAlternative rest.length)
    else
      (readPart (.scope outer .empty) rest).map (by simp) fun left => .union left right
  | .scope outer right, .dot :: rest =>
    (readPart (.scope outer (.sequence .wildcard right)) rest).map (by simp) id
  | .scope outer right, .plain c :: rest =>
    (readPart (.scope outer (.sequence (.literal c) right)) rest).map (by simp) id
termination_by symbols.length
decreasing_by
  all_goals simp only [List.length_cons, Nat.lt_succ_iff, Nat.le_refl]
  all_goals exact left.2

/-- The tree of a written pattern. -/
def read (text : List Char) : Except PatternError Pattern :=
  if text.isEmpty then
    .error .empty
  else do
    -- Outside of groups a scope ends at the start of the pattern, where nothing remains.
    let (pattern, _) ← readPart (.scope none .empty) (text.map PatternToken.ofChar).reverse
    pure pattern

end Pattern

end SentenceSearch
