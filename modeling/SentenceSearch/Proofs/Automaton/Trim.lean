import Mathlib.Logic.Relation
import SentenceSearch.Proofs.Automaton.Construction

/-!
# Trim automata

In a trim automaton every state lies on a way from the start to the accepting state. A way follows
any transitions, whatever they need and whatever they read, so that a state that excludes some
characters counts with its transition even if it should exclude them all.

A construction is valid if no step of it lets a negated state consume anything more. Whatever it
builds, the empty transitions out of a state lead to different states, and never back to it.

## Main definitions

* `State.targets` — where the transitions out of a state lead
* `StateArena.Leads` — one transition from a state to another one
* `StateArena.Admits` — steps of a construction that are valid where they are taken
* `StateArena.Tidy` — no empty transition is a loop or a repetition
* `Automaton.Trim` — an automaton without anything superfluous

## Main results

* `State.mem_targets_addEpsilon` — an empty transition adds one target
* `StateArena.Tidy.foldl` — valid steps keep the empty transitions tidy
-/

namespace SentenceSearch

open Relation

/-! ### Where transitions lead -/

namespace State

variable {s : State} {t : Transition} {c : Char} {r : Nat}

/-- The targets of all transitions out of the state. -/
def targets (s : State) : List Nat := s.transitions.map Transition.target

@[simp] theorem targets_blank : blank.targets = [] := rfl

theorem targets_excluding {excluded : Std.ExtTreeSet Char} :
    (excluding excluded t).targets = [t.target] := rfl

theorem targets_addAny_blank : (blank.addAny t).targets = [t.target] := rfl

theorem mem_targets_addChar_blank : r ∈ (blank.addChar c t).targets ↔ r = t.target := by
  simp only [targets, transitions, addChar, blank, Option.toList_none, List.append_nil,
    List.mem_map, mem_values_iff, Std.ExtTreeMap.getElem?_insert, Std.compare_eq_iff_eq,
    Std.ExtTreeMap.getElem?_empty]
  constructor
  · rintro ⟨u, ⟨d, hu⟩, rfl⟩
    split at hu
    · rw [Option.some.inj hu]
    · cases hu
  · rintro rfl
    exact ⟨t, ⟨c, if_pos rfl⟩, rfl⟩

/-- The empty transitions come after the consuming ones, which an empty transition leaves alone. -/
theorem exists_transitions_eq (s : State) (t : Transition) :
    ∃ front, s.transitions = front ++ s.epsilons ∧
      (s.addEpsilon t).transitions = front ++ (s.addEpsilon t).epsilons := by
  unfold transitions
  rw [kind_addEpsilon]
  cases s.kind with
  | standard chars any => exact ⟨chars.values ++ any.toList, rfl, rfl⟩
  | negated excluded next => exact ⟨[next], rfl, rfl⟩

/-- An empty transition adds one target. -/
theorem mem_targets_addEpsilon :
    r ∈ (s.addEpsilon t).targets ↔ r ∈ s.targets ∨ r = t.target := by
  obtain ⟨front, hold, hnew⟩ := exists_transitions_eq s t
  have hempty : r ∈ (s.addEpsilon t).epsilons.map Transition.target ↔
      r ∈ s.epsilons.map Transition.target ∨ r = t.target := by
    rw [List.mem_map, List.mem_map]
    exact emptyTo_addEpsilon
  rw [targets, targets, hold, hnew, List.map_append, List.map_append, List.mem_append,
    List.mem_append, hempty, or_assoc]

/-- Whether the state may get transitions over characters. -/
def IsStandard (s : State) : Prop := ∃ chars any, s.kind = .standard chars any

theorem isStandard_blank : blank.IsStandard := ⟨_, _, rfl⟩

/-- The empty transitions of a state that consume something more are the same. -/
@[simp] theorem epsilons_addChar : (s.addChar c t).epsilons = s.epsilons := by
  unfold addChar
  split <;> rfl

@[simp] theorem epsilons_addAny : (s.addAny t).epsilons = s.epsilons := by
  unfold addAny
  split <;> rfl

/-- The targets of the empty transitions stay distinct when one is added. -/
theorem nodup_addEpsilon (h : (s.epsilons.map Transition.target).Nodup) :
    ((s.addEpsilon t).epsilons.map Transition.target).Nodup := by
  unfold addEpsilon
  split
  · -- The transition to this target stays, and only its mask changes.
    have hsame : Transition.target ∘ (fun u : Transition =>
        if u.target == t.target then { u with mask := u.mask &&& t.mask } else u) =
          Transition.target := by
      funext u
      rw [Function.comp_apply]
      split <;> rfl
    rwa [List.map_map, hsame]
  · rename_i hnew
    rw [List.map_append, List.map_singleton, List.nodup_append]
    refine ⟨h, List.nodup_singleton _, ?_⟩
    intro r hr r' hr' heq
    obtain ⟨u, hu, rfl⟩ := List.mem_map.mp hr
    apply hnew
    rw [List.any_eq_true]
    exact ⟨u, hu, beq_iff_eq.mpr (heq.trans (List.mem_singleton.mp hr'))⟩

end State

/-- Some transition leads from a state to another one. -/
def StateArena.Leads (arena : StateArena) (q r : Nat) : Prop := r ∈ (arena.state q).targets

/-- Some transition leads from a state to another one. -/
def Automaton.Leads (automaton : Automaton) (q r : Nat) : Prop :=
  r ∈ (automaton.state q).targets

/-- Every transition leads to a state, the accepting state is a dead end, empty transitions are
neither loops nor repetitions, and every state is on a way from the start to the accepting
state. -/
structure Automaton.Trim (automaton : Automaton) : Prop where
  start_lt : automaton.start < automaton.stateCount
  accept_lt : automaton.accept < automaton.stateCount
  target_lt : ∀ q, ∀ t ∈ (automaton.state q).transitions, t.target < automaton.stateCount
  accept_end : (automaton.state automaton.accept).transitions = []
  epsilon_ne : ∀ q, ∀ t ∈ automaton.epsilons q, t.target ≠ q
  epsilons_nodup : ∀ q, ((automaton.epsilons q).map Transition.target).Nodup
  reached : ∀ q < automaton.stateCount, ReflTransGen automaton.Leads automaton.start q
  completes : ∀ q < automaton.stateCount, ReflTransGen automaton.Leads q automaton.accept

namespace StateArena

variable {arena arena' : StateArena} {t : Transition} {p q r : Nat}

theorem Leads.lt (h : arena.Leads q r) : q < arena.size := by
  by_contra hq
  rw [Leads, state_of_size_le (Nat.le_of_not_lt hq)] at h
  exact List.not_mem_nil h

/-- Transitions stay where no state changes. -/
theorem Leads.frame (hframe : ∀ q < arena.size, arena'.state q = arena.state q)
    (h : arena.Leads q r) : arena'.Leads q r := by
  rw [Leads, hframe q h.lt]
  exact h

/-- An empty transition adds one way, unless it leads back to where it starts. -/
theorem leads_addEpsilon (hp : p < arena.size) :
    (arena.addEpsilon p t).Leads q r ↔
      arena.Leads q r ∨ q = p ∧ p ≠ t.target ∧ r = t.target := by
  rw [Leads, state_addEpsilon hp]
  split
  · rename_i hnew
    rw [State.mem_targets_addEpsilon, ← Leads]
    simp [hnew]
  · rename_i hold
    rw [← Leads]
    constructor
    · exact Or.inl
    · rintro (h | ⟨hq, hne, -⟩)
      · exact h
      · exact absurd ⟨hq, hne⟩ hold

theorem Leads.addEpsilon (hp : p < arena.size) (h : arena.Leads q r) :
    (arena.addEpsilon p t).Leads q r :=
  (leads_addEpsilon hp).mpr (Or.inl h)

end StateArena

/-! ### Valid constructions -/

/-- The step is about states that are there, and characters are added to a standard state only. -/
def WiringStep.Applies (arena : StateArena) : WiringStep → Prop
  | .state | .negated _ _ => True
  | .char source _ _ | .any source _ => source < arena.size ∧ (arena.state source).IsStandard
  | .epsilon source _ => source < arena.size

namespace StateArena

variable {arena : StateArena} {step : WiringStep} {steps steps' : List WiringStep} {q : Nat}

/-- Every one of the steps applies where it is taken. -/
def Admits : StateArena → List WiringStep → Prop
  | _, [] => True
  | arena, step :: steps => step.Applies arena ∧ (step.apply arena).Admits steps

theorem admits_append : arena.Admits (steps ++ steps') ↔
    arena.Admits steps ∧ (steps.foldl WiringStep.apply arena).Admits steps' := by
  induction steps generalizing arena with
  | nil => exact (and_iff_right trivial).symm
  | cons step steps ih =>
    rw [List.cons_append, Admits, ih, Admits, and_assoc]
    rfl

/-- No empty transition leads back to where it starts, and no two lead to the same state. -/
def Tidy (arena : StateArena) : Prop :=
  ∀ q, q ∉ (arena.state q).epsilons.map Transition.target ∧
    ((arena.state q).epsilons.map Transition.target).Nodup

theorem tidy_empty : empty.Tidy := by
  intro q
  rw [state_of_size_le (Nat.zero_le q)]
  exact ⟨List.not_mem_nil, List.nodup_nil⟩

theorem Tidy.push {s : State} (h : arena.Tidy) (hs : s.epsilons = []) : (arena.push s).Tidy := by
  intro q
  rw [state_push]
  split
  · rw [hs]
    exact ⟨List.not_mem_nil, List.nodup_nil⟩
  · exact h q

theorem Tidy.modify {f : State → State} {id : Nat} (h : arena.Tidy)
    (hf : ∀ s, (f s).epsilons = s.epsilons) : (arena.modify id f).Tidy := by
  intro q
  rcases state_modify_cases arena id q f with heq | heq
  · rw [heq]
    exact h q
  · rw [heq, hf]
    exact h q

/-- A step that applies keeps the empty transitions tidy. -/
theorem Tidy.apply (h : arena.Tidy) (hstep : step.Applies arena) : (step.apply arena).Tidy := by
  cases step with
  | state => exact h.push rfl
  | negated excluded t => exact h.push rfl
  | char source c t => exact h.modify fun s => State.epsilons_addChar
  | any source t => exact h.modify fun s => State.epsilons_addAny
  | epsilon source t =>
    intro q
    rw [WiringStep.apply, state_addEpsilon hstep]
    split
    · rename_i hnew
      obtain ⟨rfl, hne⟩ := hnew
      refine ⟨?_, State.nodup_addEpsilon (h q).2⟩
      intro hmem
      rcases State.emptyTo_addEpsilon.mp (List.mem_map.mp hmem) with hold | heq
      · exact (h q).1 (List.mem_map.mpr hold)
      · exact hne heq
    · exact h q

/-- Steps that apply one after the other keep the empty transitions tidy. -/
theorem Tidy.foldl (h : arena.Tidy) (hsteps : arena.Admits steps) :
    (steps.foldl WiringStep.apply arena).Tidy := by
  induction steps generalizing arena with
  | nil => exact h
  | cons step steps ih => exact ih (h.apply hsteps.1) hsteps.2

end StateArena

end SentenceSearch
