import SentenceSearch.Automaton.Basic
import SentenceSearch.Text.DotLabel

/-!
# Drawing an automaton

The graph of an automaton in the DOT language: the accepting state has a double circle, each arc
shows what it consumes and its mask in octal, and empty transitions are dashed.

## Main definitions

* `Automaton.dot` — the text of the drawing
-/

namespace SentenceSearch

namespace Automaton

/-- The line of one arc. -/
def dotArc (source : Nat) (t : Transition) (label style : String) : String :=
  s!"  s{source} -> s{t.target} [label=\"{label} {t.mask.octal}\", style={style}];\n"

/-- The lines of one state and of its arcs. -/
def dotState (automaton : Automaton) (id : Nat) (state : State) : String :=
  let shape := if id == automaton.accept then "doublecircle" else "circle"
  let (label, consuming) :=
    match state.kind with
    | .standard chars any =>
      let exact := chars.toList.map fun (c, t) =>
        dotArc id t (DotLabel.escape (String.singleton c)) "solid"
      (toString id, exact ++ any.toList.map fun t => dotArc id t "." "solid")
    | .negated excluded next =>
      (s!"{id} [^{DotLabel.escape (String.ofList excluded.toList)}]",
        [dotArc id next "not" "solid"])
  let empty := state.epsilons.map fun t => dotArc id t "ε" "dashed"
  String.join (s!"  s{id} [shape={shape}, label=\"{label}\"];\n" :: (consuming ++ empty))

/-- The drawing of an automaton, state by state. -/
def dot (automaton : Automaton) : String :=
  let header := "digraph automaton \x7b\n  rankdir=LR;\n  start [shape=point];\n"
  let entry := s!"  start -> s{automaton.start};\n"
  let states := automaton.states.toList.zipIdx.map fun (state, id) => automaton.dotState id state
  String.join ([header, entry] ++ states ++ ["\x7d\n"])

end Automaton

end SentenceSearch
