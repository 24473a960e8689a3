import Mathlib.Data.List.Infix
import SentenceSearch.Proofs.Pattern.Grammar

/-!
# Where a pattern is wrong

A pattern that is rejected is rejected at one of its characters, and the error says which: its
position is a position of the pattern, and the symbol it names stands there. The reader only knows
how many symbols remain, so the proof carries along that the symbols that remain are the first ones
of the pattern, and that the quantifier or parenthesis that a part belongs to stands where the
reader says.

## Main definitions

* `PatternError.named?` — the position of an error and the character it names there
* `Pattern.Ahead` — the symbols that remain to be read of a pattern
* `Pattern.Part.Placed` — what is read next belongs to a symbol at the position it is known by

## Main results

* `Pattern.names_of_readFrom` — every error of the reader names a symbol of the pattern
* `Pattern.exists_named_of_read` — every error of a pattern with characters names one of them
-/

namespace SentenceSearch

/-- The position of an error and the character that is named as standing there. -/
def PatternError.named? : PatternError → Option (Nat × Char)
  | .empty => none
  | .unmatchedOpen position => some (position, '(')
  | .unmatchedClose position => some (position, ')')
  | .unclosedClass position => some (position, '[')
  | .unopenedClass position => some (position, ']')
  | .emptyClass position => some (position, '[')
  | .reservedInClass position symbol => some (position, symbol)
  | .nothingToQuantify position symbol => some (position, symbol)
  | .invalidQuantifierTarget position _ target => some (position, target)
  | .missingAlternative position => some (position, '|')

namespace Pattern

/-- The symbols that remain, the last one first, are the first ones of the pattern. -/
def Ahead (whole symbols : List PatternToken) : Prop := symbols.reverse <+: whole

/-- The error is about a symbol of the pattern. -/
def Names (whole : List PatternToken) (error : PatternError) : Prop :=
  ∃ position symbol, error.named? = some (position, symbol.toChar) ∧
    whole[position]? = some symbol

/-- The quantifier of an operand and the closing parenthesis of a group are where they are said to
be. -/
def Part.Placed (whole : List PatternToken) : Part → Prop
  | .operand q place => whole[place]? = some (.quantifier q)
  | .scope (some close) _ => whole[close]? = some .closeGroup
  | .scope none _ => True

section

variable {whole symbols rest : List PatternToken} {symbol : PatternToken} {error : PatternError}

theorem Ahead.suffix (h : Ahead whole symbols) (hrest : rest <:+ symbols) : Ahead whole rest :=
  (List.reverse_prefix.mpr hrest).trans h

theorem Ahead.tail (h : Ahead whole (symbol :: rest)) : Ahead whole rest :=
  h.suffix (List.suffix_cons symbol rest)

/-- The number of symbols that remain after a symbol is its position. -/
theorem Ahead.getElem? (h : Ahead whole (symbol :: rest)) : whole[rest.length]? = some symbol := by
  obtain ⟨behind, rfl⟩ := h
  simp

/-- An error at the next symbol that names it. -/
theorem Ahead.names (h : Ahead whole (symbol :: rest))
    (hnamed : error.named? = some (rest.length, symbol.toChar)) : Names whole error :=
  ⟨_, symbol, hnamed, h.getElem?⟩

/-- A group is read next where its closing parenthesis has been seen. -/
theorem Ahead.placed_scope (h : Ahead whole (.closeGroup :: rest)) :
    (Part.scope (some rest.length) .empty).Placed whole :=
  h.getElem?

/-- An operand is read next where its quantifier has been seen. -/
theorem Ahead.placed_operand {q : Quantifier} (h : Ahead whole (.quantifier q :: rest)) :
    (Part.operand q rest.length).Placed whole :=
  h.getElem?

/-- A scope stays where it is when something is put in front of what is read already. -/
theorem Part.Placed.scope {outer : Option Nat} {right right' : Pattern}
    (h : (Part.scope outer right).Placed whole) : (Part.scope outer right').Placed whole := by
  cases outer with
  | none => exact trivial
  | some close => exact h

end

/-! ### What has been read is a stretch of the symbols -/

theorem suffix_of_readFrom {part : Part} {symbols rest : List PatternToken} {pattern : Pattern}
    (h : readFrom part symbols = .ok (pattern, rest)) : rest <:+ symbols := by
  have htaken := taken_of_readFrom h
  cases part with
  | operand q place =>
    obtain ⟨_, -, ⟨rfl, rfl, -⟩ | ⟨u, rfl, -⟩⟩ := htaken
    · exact List.suffix_refl []
    · exact List.suffix_append _ _
  | scope outer right =>
    obtain ⟨u, hsymbols, -⟩ := htaken
    cases outer with
    | none =>
      rw [hsymbols.2]
      exact List.nil_suffix
    | some close =>
      change symbols = _ at hsymbols
      rw [hsymbols]
      exact (List.suffix_cons _ _).trans (List.suffix_append _ _)

theorem suffix_of_readClass {close : Nat} {excluded result : Std.ExtTreeSet Char}
    {symbols rest : List PatternToken}
    (h : (readClass close excluded symbols).outcome = .ok (result, rest)) : rest <:+ symbols := by
  obtain ⟨chars, rfl, -⟩ := readClass_eq_ok_iff.mp h
  exact (List.suffix_cons _ _).trans (List.suffix_append _ _)

/-! ### Errors -/

theorem map_eq_error {α β ε : Type} {f : α → β} {x : Except ε α} {error : ε}
    (h : x.map f = .error error) : x = .error error := by
  cases x with
  | error e => exact congrArg _ (Except.error.inj h)
  | ok a => cases h

theorem bind_eq_error {α β ε : Type} {f : α → Except ε β} {x : Except ε α} {error : ε}
    (h : x.bind f = .error error) :
    x = .error error ∨ ∃ a, x = .ok a ∧ f a = .error error := by
  cases x with
  | error e => exact .inl (congrArg _ (Except.error.inj h))
  | ok a => exact .inr ⟨a, rfl, h⟩

/-- A class is wrong at its closing bracket, at its opening bracket or at what stands between. -/
theorem names_of_readClass {whole symbols : List PatternToken} {close : Nat}
    {excluded : Std.ExtTreeSet Char} {error : PatternError}
    (hclose : whole[close]? = some .closeClass) (hahead : Ahead whole symbols)
    (h : (readClass close excluded symbols).outcome = .error error) : Names whole error := by
  induction symbols generalizing excluded with
  | nil =>
    cases h
    exact ⟨close, .closeClass, rfl, hclose⟩
  | cons symbol symbols ih =>
    cases symbol with
    | openClass =>
      rw [readClass] at h
      split at h
      · cases h
        exact hahead.names rfl
      · cases h
    | plain c =>
      rw [readClass, Reading.outcome_map_id] at h
      exact ih hahead.tail h
    | openGroup | closeGroup | closeClass | bar | dot | quantifier =>
      rw [readClass] at h <;> simp only [Reading.outcome, Except.map, reduceCtorEq,
        Except.error.injEq, imp_self, implies_true] at h ⊢
      subst h
      exact hahead.names rfl

/-- Where fewer than `n` symbols remain, every error names a symbol of the pattern. -/
def NamesBelow (whole : List PatternToken) (n : Nat) : Prop :=
  ∀ {part : Part} {symbols : List PatternToken} {error : PatternError}, symbols.length < n →
    part.Placed whole → Ahead whole symbols → readFrom part symbols = .error error →
    Names whole error

theorem names_operand {whole symbols : List PatternToken} {q : Quantifier} {place : Nat}
    {error : PatternError} (ih : NamesBelow whole symbols.length)
    (hplaced : (Part.operand q place).Placed whole) (hahead : Ahead whole symbols)
    (h : readFrom (.operand q place) symbols = .error error) : Names whole error := by
  match symbols with
  | [] =>
    by_cases hq : q = .optional
    · subst hq
      rw [readFrom, readPart] at h
      cases h
      exact ⟨place, .quantifier .optional, rfl, hplaced⟩
    · rw [readFrom_operand_nil hq] at h
      cases h
  | .closeGroup :: symbols =>
    rw [readFrom_operand_close] at h
    exact ih (Nat.lt_succ_self _) hahead.placed_scope hahead.tail (map_eq_error h)
  | .dot :: symbols =>
    rw [readFrom_operand_dot] at h
    cases h
  | .plain c :: symbols =>
    rw [readFrom_operand_plain] at h
    cases h
  | .quantifier q' :: symbols =>
    rw [readFrom_operand_quantifier] at h
    split at h
    · rename_i hq
      obtain ⟨rfl, rfl⟩ := hq
      exact ih (Nat.lt_succ_self _) hahead.placed_operand hahead.tail (map_eq_error h)
    · cases h
      exact hahead.names rfl
  | .openGroup :: symbols | .openClass :: symbols | .closeClass :: symbols | .bar :: symbols =>
    rw [readFrom, readPart] at h <;> simp only [Reading.outcome, Except.map, reduceCtorEq,
      decide_false, Bool.false_and, Bool.false_eq_true, ↓reduceIte, List.length_cons,
      Except.error.injEq, imp_self, implies_true] at h ⊢
    subst h
    exact hahead.names rfl

theorem names_scope {whole symbols : List PatternToken} {outer : Option Nat} {right : Pattern}
    {error : PatternError} (ih : NamesBelow whole symbols.length)
    (hplaced : (Part.scope outer right).Placed whole) (hahead : Ahead whole symbols)
    (h : readFrom (.scope outer right) symbols = .error error) : Names whole error := by
  -- What a part has left is a suffix of what remained, so that the scope may be read on there.
  have hon {item : Pattern} {left : List PatternToken} (hlt : left.length < symbols.length)
      (hleft : left <:+ symbols) (hread : readFrom (.scope outer item) left = .error error) :
      Names whole error :=
    ih hlt hplaced.scope (hahead.suffix hleft) hread
  match outer, symbols with
  | none, [] =>
    rw [readFrom_scope_nil] at h
    cases h
  | some close, .openGroup :: symbols =>
    rw [readFrom_scope_open] at h
    cases h
  | some close, [] =>
    rw [readFrom, readPart] at h
    cases h
    exact ⟨close, .closeGroup, rfl, hplaced⟩
  | none, .openGroup :: symbols | outer, .openClass :: symbols =>
    rw [readFrom, readPart] at h
    cases h
    exact hahead.names rfl
  | outer, .closeGroup :: symbols =>
    rw [readFrom_scope_close] at h
    rcases bind_eq_error h with hbody | ⟨⟨body, left⟩, hbody, hscope⟩
    · exact ih (Nat.lt_succ_self _) hahead.placed_scope hahead.tail hbody
    · exact hon (Nat.lt_succ_of_le (length_le_of_readFrom hbody))
        ((suffix_of_readFrom hbody).trans (List.suffix_cons _ _)) hscope
  | outer, .quantifier q :: symbols =>
    rw [readFrom_scope_quantifier] at h
    rcases bind_eq_error h with hitem | ⟨⟨item, left⟩, hitem, hscope⟩
    · exact ih (Nat.lt_succ_self _) hahead.placed_operand hahead.tail hitem
    · exact hon (Nat.lt_succ_of_le (length_le_of_readFrom hitem))
        ((suffix_of_readFrom hitem).trans (List.suffix_cons _ _)) hscope
  | outer, .closeClass :: symbols =>
    rw [readFrom_scope_closeClass] at h
    rcases bind_eq_error h with hclass | ⟨⟨excluded, left⟩, hclass, hscope⟩
    · exact names_of_readClass hahead.getElem? hahead.tail hclass
    · exact hon (Nat.lt_succ_of_le (Reading.outcome_eq_ok_iff.mp hclass).1)
        ((suffix_of_readClass hclass).trans (List.suffix_cons _ _)) hscope
  | outer, .bar :: symbols =>
    rw [readFrom_scope_bar] at h
    split at h
    · cases h
      exact hahead.names rfl
    · exact hon (Nat.lt_succ_self _) (List.suffix_cons _ _) (map_eq_error h)
  | outer, .dot :: symbols =>
    rw [readFrom_scope_dot] at h
    exact hon (Nat.lt_succ_self _) (List.suffix_cons _ _) h
  | outer, .plain c :: symbols =>
    rw [readFrom_scope_plain] at h
    exact hon (Nat.lt_succ_self _) (List.suffix_cons _ _) h

/-- Every error of the reader names a symbol of the pattern. -/
theorem names_of_readFrom {whole symbols : List PatternToken} {part : Part} {error : PatternError}
    (hplaced : part.Placed whole) (hahead : Ahead whole symbols)
    (h : readFrom part symbols = .error error) : Names whole error := by
  have hall (n : Nat) : NamesBelow whole n := by
    induction n with
    | zero => exact fun hlt => absurd hlt (Nat.not_lt_zero _)
    | succ n ih =>
      intro part symbols error hlt hplaced hahead hread
      have hbelow : NamesBelow whole symbols.length := fun hlt' =>
        ih (Nat.lt_of_lt_of_le hlt' (Nat.le_of_lt_succ hlt))
      cases part with
      | operand q place => exact names_operand hbelow hplaced hahead hread
      | scope outer right => exact names_scope hbelow hplaced hahead hread
  exact hall _ (Nat.lt_succ_self _) hplaced hahead h

/-- A pattern with characters is wrong at one of them, which the error names. -/
theorem exists_named_of_read {text : List Char} {error : PatternError} (hne : text ≠ [])
    (h : read text = .error error) :
    ∃ position c, error.named? = some (position, c) ∧ text[position]? = some c := by
  rw [read_eq_readFrom hne] at h
  have hahead : Ahead (text.map PatternToken.ofChar) (text.map PatternToken.ofChar).reverse := by
    rw [Ahead, List.reverse_reverse]
  have hplaced : (Part.scope none .empty).Placed (text.map PatternToken.ofChar) := trivial
  obtain ⟨position, symbol, hnamed, hsymbol⟩ :=
    names_of_readFrom hplaced hahead (map_eq_error h)
  rw [List.getElem?_map, Option.map_eq_some_iff] at hsymbol
  obtain ⟨c, hc, rfl⟩ := hsymbol
  rw [PatternToken.toChar_ofChar] at hnamed
  exact ⟨position, c, hnamed, hc⟩

end Pattern

end SentenceSearch
