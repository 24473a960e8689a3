import Mathlib.Computability.Language
import Mathlib.Order.CompletePartialOrder
import SentenceSearch.Pattern.Basic

/-!
# What a pattern denotes

A pattern tree denotes a regular language. Beside it stands a larger language: an optional part
whose automaton can come back to its own start may be left there as well, so that a front of the
part counts for the whole of it. The two languages are equal when no optional part repeats
anything.

## Main definitions

* `Pattern.language` — the texts that a pattern stands for
* `Pattern.returns` — what is read on the way from the start of a part back to it
* `Pattern.looseLanguage` — the texts when an optional part may be left wherever it starts anew
* `Pattern.hasPlainOptions` — no optional part repeats anything

## Main results

* `Pattern.language_le_looseLanguage` — the larger language is one
* `Pattern.looseLanguage_eq` — the two are equal when options are plain
-/

namespace SentenceSearch.Pattern

open Computability

/-- The texts that a pattern stands for. -/
def language : Pattern → Language Char
  | .empty => 1
  | .literal c => {[c]}
  | .wildcard => {text | ∃ c, text = [c]}
  | .negated excluded => {text | ∃ c, c ∉ excluded ∧ text = [c]}
  | .group body => body.language
  | .quantified .optional body => body.language + 1
  | .quantified .plus body => body.language * body.language∗
  | .quantified .star body => body.language∗
  | .sequence left right => left.language * right.language
  | .union left right => left.language + right.language

mutual

/-- The texts of a pattern when an optional part may be left wherever it starts anew. -/
def looseLanguage : Pattern → Language Char
  | .empty => 1
  | .literal c => {[c]}
  | .wildcard => {text | ∃ c, text = [c]}
  | .negated excluded => {text | ∃ c, c ∉ excluded ∧ text = [c]}
  | .group body => body.looseLanguage
  | .quantified .optional body => body.looseLanguage + body.returns
  | .quantified .plus body => body.looseLanguage * body.looseLanguage∗
  | .quantified .star body => body.looseLanguage∗
  | .sequence left right => left.looseLanguage * right.looseLanguage
  | .union left right => left.looseLanguage + right.looseLanguage

/-- What is read on the way from the start of a part back to its start. -/
def returns : Pattern → Language Char
  | .group body => body.returns
  | .quantified .optional body => body.returns
  | .quantified .plus body => body.looseLanguage∗ * body.returns
  | .quantified .star body => body.looseLanguage∗
  -- A sequence starts where its first part with a place of its own starts.
  | .sequence left right => if left.isTrivial then right.returns else left.returns
  | .empty | .literal _ | .wildcard | .negated _ | .union _ _ => 1

end

/-- Whether the pattern repeats anything. -/
def hasRepeat : Pattern → Bool
  | .empty | .literal _ | .wildcard | .negated _ => false
  | .group body => body.hasRepeat
  | .quantified .optional body => body.hasRepeat
  | .quantified _ _ => true
  | .sequence left right => left.hasRepeat || right.hasRepeat
  | .union left right => left.hasRepeat || right.hasRepeat

/-- Whether no optional part of the pattern repeats anything. -/
def hasPlainOptions : Pattern → Bool
  | .empty | .literal _ | .wildcard | .negated _ => true
  | .group body => body.hasPlainOptions
  | .quantified .optional body => !body.hasRepeat && body.hasPlainOptions
  | .quantified _ body => body.hasPlainOptions
  | .sequence left right => left.hasPlainOptions && right.hasPlainOptions
  | .union left right => left.hasPlainOptions && right.hasPlainOptions

theorem nil_mem_returns (pattern : Pattern) : [] ∈ pattern.returns := by
  induction pattern with
  | group body ih => simpa only [returns] using ih
  | quantified q body ih =>
    cases q with
    | optional => simpa only [returns] using ih
    | plus =>
      rw [returns]
      exact Language.append_mem_mul (Language.nil_mem_kstar _) ih
    | star =>
      rw [returns]
      exact Language.nil_mem_kstar _
  | sequence left right ihLeft ihRight =>
    rw [returns]
    split
    · exact ihRight
    · exact ihLeft
  | empty | literal | wildcard | negated | union =>
    rw [returns]
    exact Language.nil_mem_one

/-- A trivial pattern stands for the empty text alone. -/
theorem looseLanguage_of_isTrivial {pattern : Pattern} (h : pattern.isTrivial = true) :
    pattern.looseLanguage = 1 ∧ pattern.returns = 1 := by
  induction pattern with
  | empty => exact ⟨by rw [looseLanguage], by rw [returns]⟩
  | group body ih =>
    rw [isTrivial] at h
    rw [looseLanguage, returns]
    exact ih h
  | quantified q body ih =>
    cases q with
    | optional =>
      rw [isTrivial] at h
      obtain ⟨hloose, hreturns⟩ := ih h
      rw [looseLanguage, returns, hloose, hreturns]
      exact ⟨Language.add_self 1, rfl⟩
    | plus | star => simp [isTrivial] at h
  | sequence left right ihLeft ihRight =>
    rw [isTrivial, Bool.and_eq_true] at h
    rw [looseLanguage, returns, if_pos h.1, (ihLeft h.1).1, (ihRight h.2).1, (ihRight h.2).2]
    exact ⟨one_mul 1, rfl⟩
  | literal | wildcard | negated | union => simp [isTrivial] at h

/-- A part without repetitions never comes back to its start. -/
theorem returns_of_not_hasRepeat {pattern : Pattern} (h : pattern.hasRepeat = false) :
    pattern.returns = 1 := by
  induction pattern with
  | group body ih =>
    rw [hasRepeat] at h
    rw [returns, ih h]
  | quantified q body ih =>
    cases q with
    | optional =>
      rw [hasRepeat] at h
      rw [returns, ih h]
    | plus | star => simp [hasRepeat] at h
  | sequence left right ihLeft ihRight =>
    rw [hasRepeat, Bool.or_eq_false_iff] at h
    rw [returns, ihLeft h.1, ihRight h.2, ite_self]
  | empty | literal | wildcard | negated | union => rw [returns]

/-- Leaving an optional part early only adds texts. -/
theorem language_le_looseLanguage (pattern : Pattern) :
    pattern.language ≤ pattern.looseLanguage := by
  induction pattern with
  | empty | literal | wildcard | negated => exact le_of_eq (by rw [language, looseLanguage])
  | group body ih =>
    rw [language, looseLanguage]
    exact ih
  | quantified q body ih =>
    cases q with
    | optional =>
      rw [language, looseLanguage]
      refine add_le_add ih fun text htext => ?_
      obtain rfl := htext
      exact nil_mem_returns body
    | plus =>
      rw [language, looseLanguage]
      exact mul_le_mul' ih (kstar_mono ih)
    | star =>
      rw [language, looseLanguage]
      exact kstar_mono ih
  | sequence left right ihLeft ihRight =>
    rw [language, looseLanguage]
    exact mul_le_mul' ihLeft ihRight
  | union left right ihLeft ihRight =>
    rw [language, looseLanguage]
    exact add_le_add ihLeft ihRight

/-- Optional parts that repeat nothing cannot be left early. -/
theorem looseLanguage_eq {pattern : Pattern} (h : pattern.hasPlainOptions = true) :
    pattern.looseLanguage = pattern.language := by
  induction pattern with
  | empty | literal | wildcard | negated => rw [language, looseLanguage]
  | group body ih =>
    rw [hasPlainOptions] at h
    rw [language, looseLanguage, ih h]
  | quantified q body ih =>
    cases q with
    | optional =>
      rw [hasPlainOptions, Bool.and_eq_true, Bool.not_eq_true'] at h
      rw [language, looseLanguage, ih h.2, returns_of_not_hasRepeat h.1]
    | plus | star =>
      rw [hasPlainOptions] at h
      · rw [language, looseLanguage, ih h]
      · simp
  | sequence left right ihLeft ihRight =>
    rw [hasPlainOptions, Bool.and_eq_true] at h
    rw [language, looseLanguage, ihLeft h.1, ihRight h.2]
  | union left right ihLeft ihRight =>
    rw [hasPlainOptions, Bool.and_eq_true] at h
    rw [language, looseLanguage, ihLeft h.1, ihRight h.2]

end SentenceSearch.Pattern
