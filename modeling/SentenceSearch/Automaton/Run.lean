import SentenceSearch.Automaton.Basic

/-!
# Runs on a text

An automaton reads a text while a mask says what is available at each position. The states that
can be reached are followed position by position: first along empty transitions, then over the
next character.

## Main definitions

* `Automaton.closure` — the states reached along empty transitions at one position
* `Automaton.advance` — the states reached over one character
* `Automaton.isInLanguage` — whether an accepting run exists under given masks
* `Automaton.accepts` — whether an accepting run exists when nothing is held back
-/

namespace SentenceSearch

namespace Automaton

/-- The targets of those transitions that the available buckets allow. -/
def allowedTargets (available : Mask) (transitions : List Transition) : List Nat :=
  (transitions.filter (·.allowed available)).map Transition.target

/-- Follow empty transitions from the states of `frontier` in at most `fuel` layers. The states of
`frontier` are in `known` already. -/
def closureFrom (automaton : Automaton) (available : Mask) :
    Nat → Std.ExtTreeSet Nat → List Nat → Std.ExtTreeSet Nat
  | 0, known, _ => known
  | fuel + 1, known, frontier =>
    let targets := frontier.flatMap fun id => allowedTargets available (automaton.epsilons id)
    match (Std.ExtTreeSet.ofList (targets.filter fun id => !known.contains id)).toList with
    -- A layer without new states ends the search: nothing more can be reached.
    | [] => known
    | found => automaton.closureFrom available fuel (known.insertMany found) found

/-- The states that are reached from `ids` along empty transitions. A layer finds a new state of the
automaton, or numbers that are not in use and lead nowhere, or nothing; so a layer for each state
and two more are enough. -/
def closure (automaton : Automaton) (available : Mask) (ids : Std.ExtTreeSet Nat) :
    Std.ExtTreeSet Nat :=
  automaton.closureFrom available (automaton.stateCount + 2) ids ids.toList

/-- The states that are reached from `ids` over the character `c`. -/
def advance (automaton : Automaton) (available : Mask) (c : Char) (ids : Std.ExtTreeSet Nat) :
    Std.ExtTreeSet Nat :=
  .ofList (ids.toList.flatMap fun id => allowedTargets available (automaton.step id c))

/-- Whether the text leads from some state of `ids` to the accepting state. The list of masks goes
along with the text; what is available past its end is nothing. -/
def leadsToAccept (automaton : Automaton) : Std.ExtTreeSet Nat → List Char → List Mask → Bool
  | ids, [], masks => (automaton.closure (masks.headD 0) ids).contains automaton.accept
  | ids, c :: text, masks =>
    let available := masks.headD 0
    automaton.leadsToAccept (automaton.advance available c (automaton.closure available ids))
      text masks.tail

/-- Whether some run over the whole text ends in the accepting state, when `masks` says what is
available at each position and nothing is available past its end. -/
def isInLanguage (automaton : Automaton) (text : List Char) (masks : List Mask) : Bool :=
  automaton.leadsToAccept (.ofList [automaton.start]) text masks

/-- Whether some run over the whole text ends in the accepting state, when everything is available
before the end of the text and nothing is available there. -/
def accepts (automaton : Automaton) (text : List Char) : Bool :=
  automaton.isInLanguage text (text.map fun _ => Mask.full)

end Automaton

end SentenceSearch
