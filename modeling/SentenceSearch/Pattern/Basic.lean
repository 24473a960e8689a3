import Std.Data.ExtTreeSet

/-!
# Patterns

Search patterns as trees: literal characters, a wildcard, negated classes, groups, the three
quantifiers, juxtaposition and union. A pattern that cannot be read has a `PatternError`.

## Main definitions

* `Pattern` — the tree of a pattern
* `Pattern.isTrivial` — whether the tree has no item that would be a place of its own
* `PatternToken`, `Quantifier` — the symbols of the written form
* `PatternError` — why a written form is rejected
-/

namespace SentenceSearch

/-- How often the operand of a quantifier may occur. -/
inductive Quantifier where
  /-- Once or not at all. -/
  | optional
  /-- Once or more. -/
  | plus
  /-- Any number of times. -/
  | star
  deriving DecidableEq, Repr

/-- The written form of a quantifier. -/
def Quantifier.symbol : Quantifier → Char
  | .optional => '?'
  | .plus => '+'
  | .star => '*'

/-- A symbol of the written form of a pattern. -/
inductive PatternToken where
  | openGroup
  | closeGroup
  | openClass
  | closeClass
  | bar
  | dot
  | quantifier (q : Quantifier)
  /-- A character that stands for itself. -/
  | plain (c : Char)
  deriving DecidableEq, Repr

namespace PatternToken

/-- The symbol that a character is. -/
def ofChar : Char → PatternToken
  | '(' => .openGroup
  | ')' => .closeGroup
  | '[' => .openClass
  | ']' => .closeClass
  | '|' => .bar
  | '.' => .dot
  | '?' => .quantifier .optional
  | '+' => .quantifier .plus
  | '*' => .quantifier .star
  | c => .plain c

/-- The character that a symbol is. -/
def toChar : PatternToken → Char
  | .openGroup => '('
  | .closeGroup => ')'
  | .openClass => '['
  | .closeClass => ']'
  | .bar => '|'
  | .dot => '.'
  | .quantifier q => q.symbol
  | .plain c => c

/-- Whether the symbol stands for itself. -/
def isPlain : PatternToken → Bool
  | .plain _ => true
  | _ => false

theorem toChar_ofChar (c : Char) : (ofChar c).toChar = c := by
  unfold ofChar
  split <;> rfl

end PatternToken

/-- Whether a character has a meaning of its own in patterns. -/
def isReserved (c : Char) : Bool := !(PatternToken.ofChar c).isPlain

theorem PatternToken.eq_toChar_of_ofChar {c : Char} {symbol : PatternToken}
    (h : PatternToken.ofChar c = symbol) : c = symbol.toChar :=
  h ▸ (PatternToken.toChar_ofChar c).symm

theorem PatternToken.ofChar_eq_plain_iff {c d : Char} :
    PatternToken.ofChar c = .plain d ↔ c = d ∧ isReserved c = false := by
  constructor
  · intro h
    exact ⟨PatternToken.eq_toChar_of_ofChar h, by rw [isReserved, h]; rfl⟩
  · rintro ⟨rfl, hc⟩
    cases hsymbol : PatternToken.ofChar c with
    | plain d => exact congrArg _ (PatternToken.eq_toChar_of_ofChar hsymbol).symm
    | openGroup | closeGroup | openClass | closeClass | bar | dot | quantifier =>
      simp [isReserved, hsymbol, PatternToken.isPlain] at hc

/-- The tree of a pattern. -/
inductive Pattern where
  /-- Nothing. -/
  | empty
  /-- The character itself. -/
  | literal (c : Char)
  /-- Any one character. -/
  | wildcard
  /-- Any one character but the excluded ones. -/
  | negated (excluded : Std.ExtTreeSet Char)
  /-- A pattern in parentheses. -/
  | group (body : Pattern)
  /-- The body as often as the quantifier says. -/
  | quantified (q : Quantifier) (body : Pattern)
  /-- The left part and then the right part. -/
  | sequence (left right : Pattern)
  /-- The left part or the right part. -/
  | union (left right : Pattern)
  deriving DecidableEq

instance : Inhabited Pattern := ⟨.empty⟩

namespace Pattern

/-- Whether the pattern consists of groups without content, perhaps optional ones, alone. Such a
pattern cannot be the right side of a union. -/
def isTrivial : Pattern → Bool
  | .empty => true
  | .group body => body.isTrivial
  | .quantified .optional body => body.isTrivial
  | .sequence left right => left.isTrivial && right.isTrivial
  | _ => false

end Pattern

/-- Why a pattern is rejected. Positions count the characters before the place. -/
inductive PatternError where
  /-- There is no character. -/
  | empty
  /-- A group is not closed. -/
  | unmatchedOpen (position : Nat)
  /-- A group is not opened. -/
  | unmatchedClose (position : Nat)
  /-- A class is not closed. -/
  | unclosedClass (position : Nat)
  /-- A class is not opened. -/
  | unopenedClass (position : Nat)
  /-- A class excludes nothing. -/
  | emptyClass (position : Nat)
  /-- A reserved character stands in a class. -/
  | reservedInClass (position : Nat) (symbol : Char)
  /-- A quantifier stands at the very start. -/
  | nothingToQuantify (position : Nat) (symbol : Char)
  /-- A quantifier follows something that cannot be repeated. -/
  | invalidQuantifierTarget (position : Nat) (symbol target : Char)
  /-- A side of a union is missing. -/
  | missingAlternative (position : Nat)
  deriving DecidableEq, Repr

/-- The text of the error in reports. -/
def PatternError.message : PatternError → String
  | .empty => "Pattern is empty"
  | .unmatchedOpen position => s!"Unmatched '(' at position {position}"
  | .unmatchedClose position => s!"Unmatched ')' at position {position}"
  | .unclosedClass position => s!"'[' at position {position} has no closing ']'"
  | .unopenedClass position => s!"']' at position {position} has no opening '['"
  | .emptyClass position => s!"Empty character class at position {position}"
  | .reservedInClass position symbol =>
    s!"Reserved symbol '{symbol}' inside character class at position {position}"
  | .nothingToQuantify position symbol =>
    s!"Nothing to quantify with '{symbol}' at position {position}"
  | .invalidQuantifierTarget position symbol target =>
    s!"'{symbol}' cannot quantify '{target}' at position {position}"
  | .missingAlternative position => s!"'|' at position {position} is missing an alternative"

end SentenceSearch
