import SentenceSearch.Automaton.Basic
import SentenceSearch.Pattern.Reader
import SentenceSearch.Symbol.Table

/-!
# From patterns to automata

The states of a pattern are wired from right to left: each part is given the state that follows it
and returns the state where it starts. Every transition needs the buckets of the literal
characters to its right in the same scope, which is a necessary condition for a match through it.

## Main definitions

* `Pattern.maskAcross` — the buckets needed to the left of a part
* `Pattern.Fragment` — a part whose states have been added
* `Pattern.addLoop` — the way back from the end of a repeated part
* `Pattern.wire` — the states of a part
* `Pattern.automaton` — the automaton of a pattern
* `compilePattern` — the automaton of a written pattern

## Main results

* `Pattern.wire_mask` — what is needed to the left of a part
-/

namespace SentenceSearch

namespace Pattern

/-- The buckets needed to the left of a part, when `mask` is needed to the right of it. Only the
plain characters of the scope itself count, not those of groups or under quantifiers. -/
def maskAcross (table : SymbolTable) : Pattern → Mask → Mask
  | .literal c, mask => mask ||| table.mask c
  | .sequence left right, mask => left.maskAcross table (right.maskAcross table mask)
  | _, mask => mask

/-- A part whose states have been added. -/
structure Fragment where
  /-- The state where the part starts. -/
  start : Nat
  /-- The buckets needed to the left of the part. -/
  mask : Mask
  /-- All states so far. -/
  arena : StateArena

/-- Let the hub that follows a body lead back to the start of the body or on to `next`. The way
back needs what every transition out of the body's start needs. -/
def addLoop (hub start next : Nat) (mask : Mask) (arena : StateArena) : StateArena :=
  (arena.addEpsilon hub ⟨start, mask ||| arena.requiredMask start⟩).addEpsilon hub ⟨next, mask⟩

/-- Add the states of a part that is followed by the state `next`, where `mask` is needed. -/
def wire (table : SymbolTable) : Pattern → Nat → Mask → StateArena → Fragment
  | .empty, next, mask, arena => ⟨next, mask, arena⟩
  | .literal c, next, mask, arena =>
    let start := arena.size
    let needed := mask ||| table.mask c
    ⟨start, needed, (arena.push .blank).addChar start c ⟨next, needed⟩⟩
  | .wildcard, next, mask, arena =>
    let start := arena.size
    ⟨start, mask, (arena.push .blank).addAny start ⟨next, mask⟩⟩
  | .negated excluded, next, mask, arena =>
    ⟨arena.size, mask, arena.push (.excluding excluded ⟨next, mask⟩)⟩
  | .group body, next, mask, arena => { body.wire table next mask arena with mask }
  | .quantified .optional body, next, mask, arena =>
    let ⟨start, _, arena⟩ := body.wire table next mask arena
    -- The body may be passed by.
    ⟨start, mask, arena.addEpsilon start ⟨next, mask⟩⟩
  | .quantified .plus body, next, mask, arena =>
    let hub := arena.size
    let ⟨start, _, arena⟩ := body.wire table hub mask (arena.push .blank)
    ⟨start, mask, addLoop hub start next mask arena⟩
  | .quantified .star body, next, mask, arena =>
    let hub := arena.size
    let ⟨start, _, arena⟩ := body.wire table hub mask (arena.push .blank)
    -- Unlike a plus, a star starts at its hub, so that the body may be left out.
    ⟨hub, mask, addLoop hub start next mask arena⟩
  | .sequence left right, next, mask, arena =>
    let ⟨middle, needed, arena⟩ := right.wire table next mask arena
    left.wire table middle needed arena
  | .union left right, next, mask, arena =>
    let ⟨rightStart, _, arena⟩ := right.wire table next mask arena
    let leftEnd := arena.size
    let ⟨leftStart, _, arena⟩ :=
      left.wire table leftEnd mask ((arena.push .blank).addEpsilon leftEnd ⟨next, mask⟩)
    let start := arena.size
    -- What a side needs at its start is known once the whole side is wired.
    let leftMask := arena.requiredMask leftStart
    let rightMask := arena.requiredMask rightStart
    ⟨start, mask, ((arena.push .blank).addEpsilon start ⟨leftStart, leftMask⟩).addEpsilon start
      ⟨rightStart, rightMask⟩⟩

/-- Adding states keeps account of what is needed to the left. -/
theorem wire_mask (table : SymbolTable) (pattern : Pattern) (next : Nat) (mask : Mask)
    (arena : StateArena) :
    (pattern.wire table next mask arena).mask = pattern.maskAcross table mask := by
  induction pattern generalizing next mask arena with
  | sequence left right ihLeft ihRight => simp only [wire, maskAcross, ihLeft, ihRight]
  | quantified quantifier body => cases quantifier <;> rfl
  | _ => rfl

/-- The automaton of a pattern. The accepting state comes first. -/
def automaton (table : SymbolTable) (pattern : Pattern) : Automaton :=
  let ⟨start, _, arena⟩ := pattern.wire table 0 0 (StateArena.empty.push .blank)
  arena.finish start 0

end Pattern

/-- The automaton of a written pattern. -/
def compilePattern (table : SymbolTable) (text : List Char) : Except PatternError Automaton := do
  let pattern ← Pattern.read text
  pure (pattern.automaton table)

end SentenceSearch
