import Std.Data.ExtTreeMap
import Std.Data.ExtTreeSet
import SentenceSearch.Mask

/-!
# Masked automata

Nondeterministic finite automata with empty transitions. Every transition carries the mask of the
buckets that must still be available to the right of the current position.

## Main definitions

* `Transition`, `StateKind`, `State` — the parts of an automaton
* `Automaton` — states in an array, with a start and an accepting state
* `Automaton.step`, `Automaton.epsilons` — the transitions out of a state
* `StateArena` — states that are still being wired together
-/

namespace SentenceSearch

/-- A transition to `target` that needs the buckets of `mask`. -/
structure Transition where
  /-- The number of the next state. -/
  target : Nat
  /-- The buckets that must be available. -/
  mask : Mask
  deriving DecidableEq, Repr, Inhabited

/-- Whether the buckets that the transition needs are available. -/
def Transition.allowed (t : Transition) (available : Mask) : Bool := t.mask.allows available

/-- What a state consumes. -/
inductive StateKind where
  /-- Exact characters, and perhaps any character at all. -/
  | standard (chars : Std.ExtTreeMap Char Transition) (any : Option Transition)
  /-- Any character but the excluded ones. -/
  | negated (excluded : Std.ExtTreeSet Char) (next : Transition)
  deriving DecidableEq

/-- A state: its consuming transitions and its empty ones. -/
structure State where
  /-- The consuming transitions. -/
  kind : StateKind
  /-- The transitions that consume nothing, in order of addition. -/
  epsilons : List Transition
  deriving DecidableEq

namespace State

/-- The state without transitions. -/
def blank : State := ⟨.standard ∅ none, []⟩

instance : Inhabited State := ⟨blank⟩

/-- The state that consumes any character but the excluded ones. -/
def excluding (excluded : Std.ExtTreeSet Char) (next : Transition) : State :=
  ⟨.negated excluded next, []⟩

/-- Every transition out of the state, the consuming ones first. -/
def transitions (state : State) : List Transition :=
  match state.kind with
  | .standard chars any => chars.values ++ any.toList ++ state.epsilons
  | .negated _ next => next :: state.epsilons

/-- The buckets that every transition out of the state needs; none for a dead end. -/
def requiredMask (state : State) : Mask :=
  match state.transitions with
  | [] => 0
  | t :: ts => ts.foldl (fun acc t => acc &&& t.mask) t.mask

/-- The transitions that consume `c`: an exact or negated one, and an any-character one. -/
def step (state : State) (c : Char) : Option Transition × Option Transition :=
  match state.kind with
  | .standard chars any => (chars[c]?, any)
  | .negated excluded next => if excluded.contains c then (none, none) else (some next, none)

/-- Let the state consume exactly `c`. A negated state stays as it is. -/
def addChar (state : State) (c : Char) (t : Transition) : State :=
  match state.kind with
  | .standard chars any => { state with kind := .standard (chars.insert c t) any }
  | .negated _ _ => state

/-- Let the state consume any character. A negated state stays as it is. -/
def addAny (state : State) (t : Transition) : State :=
  match state.kind with
  | .standard chars _ => { state with kind := .standard chars (some t) }
  | .negated _ _ => state

/-- Add an empty transition. A second one to the same target leaves one transition, which needs
only the buckets that both need. -/
def addEpsilon (state : State) (t : Transition) : State :=
  if state.epsilons.any (·.target == t.target) then
    -- Whoever could take either of the two may take the one that is left.
    { state with epsilons := state.epsilons.map fun u =>
        if u.target == t.target then { u with mask := u.mask &&& t.mask } else u }
  else
    { state with epsilons := state.epsilons ++ [t] }

end State

/-- States that are still being wired together. Their numbers never change. -/
structure StateArena where
  /-- The states by number. -/
  states : Array State
  deriving DecidableEq

namespace StateArena

/-- No states yet. -/
def empty : StateArena := ⟨#[]⟩

instance : Inhabited StateArena := ⟨empty⟩

/-- The number that the next state gets. -/
def size (arena : StateArena) : Nat := arena.states.size

/-- Add a state; its number is the `size` of the arena before. -/
def push (arena : StateArena) (state : State) : StateArena := ⟨arena.states.push state⟩

/-- Change one state. -/
def modify (arena : StateArena) (id : Nat) (f : State → State) : StateArena :=
  ⟨arena.states.modify id f⟩

/-- Let state `source` consume exactly `c`. -/
def addChar (arena : StateArena) (source : Nat) (c : Char) (t : Transition) : StateArena :=
  arena.modify source (·.addChar c t)

/-- Let state `source` consume any character. -/
def addAny (arena : StateArena) (source : Nat) (t : Transition) : StateArena :=
  arena.modify source (·.addAny t)

/-- Add an empty transition out of state `source`, unless it leads back there. -/
def addEpsilon (arena : StateArena) (source : Nat) (t : Transition) : StateArena :=
  if source == t.target then arena else arena.modify source (·.addEpsilon t)

/-- The buckets that every transition out of a state needs. -/
def requiredMask (arena : StateArena) (id : Nat) : Mask :=
  (arena.states.getD id .blank).requiredMask

end StateArena

/-- A nondeterministic automaton with one start and one accepting state. -/
structure Automaton where
  /-- The states by number. -/
  states : Array State
  /-- The state where every run starts. -/
  start : Nat
  /-- The state where an accepting run ends. -/
  accept : Nat
  deriving DecidableEq

/-- The automaton of an arena. -/
def StateArena.finish (arena : StateArena) (start accept : Nat) : Automaton :=
  ⟨arena.states, start, accept⟩

namespace Automaton

instance : Inhabited Automaton := ⟨⟨#[], 0, 0⟩⟩

/-- A state by number; a number that is not in use stands for a dead end. -/
def state (automaton : Automaton) (id : Nat) : State := automaton.states.getD id .blank

/-- Number of states. -/
def stateCount (automaton : Automaton) : Nat := automaton.states.size

/-- The empty transitions out of a state. -/
def epsilons (automaton : Automaton) (id : Nat) : List Transition := (automaton.state id).epsilons

/-- The transitions out of a state that consume `c`, the exact one first. -/
def step (automaton : Automaton) (id : Nat) (c : Char) : List Transition :=
  let (exact, any) := (automaton.state id).step c
  exact.toList ++ any.toList

/-- The buckets that every transition out of a state needs. -/
def requiredMask (automaton : Automaton) (id : Nat) : Mask := (automaton.state id).requiredMask

end Automaton

end SentenceSearch
