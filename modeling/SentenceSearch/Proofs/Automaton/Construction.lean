import SentenceSearch.Proofs.Automaton.Path
import SentenceSearch.Proofs.Automaton.Runs

/-!
# Automata made by hand

An automaton may be put together from any states and transitions, not only from those of a pattern.
Its transitions lead where the steps of its construction let them lead, so an automaton is in range
when all of its steps are.

## Main definitions

* `WiringStep` — a step that adds a state or a transition
* `StateArena.ofSteps` — the states after some steps

## Main results

* `StateArena.inRange_finish` — an automaton whose steps stay in range is in range
-/

namespace SentenceSearch

namespace State

variable {s : State} {t : Transition} {c : Char} {r : Nat}

theorem not_leadsTo_blank : ¬ blank.LeadsTo r := by
  rintro (h | ⟨c, h⟩)
  · exact not_emptyTo_blank h
  · exact not_readTo_blank h

theorem leadsTo_excluding {excluded : Std.ExtTreeSet Char}
    (h : (excluding excluded t).LeadsTo r) : r = t.target := by
  rcases h with ⟨u, hu, -⟩ | ⟨c, h⟩
  · cases hu
  · exact (readTo_excluding.mp h).2

/-- A transition over an exact character leads nowhere else than it says. -/
theorem leadsTo_addChar (h : (s.addChar c t).LeadsTo r) : r = t.target ∨ s.LeadsTo r := by
  unfold addChar at h
  cases hkind : s.kind with
  | negated excluded next =>
    rw [hkind] at h
    exact Or.inr h
  | standard chars any =>
    rw [hkind] at h
    rcases h with h | ⟨d, u, hu, rfl⟩
    · exact Or.inr (Or.inl h)
    · simp only [consuming, step, List.mem_append, Option.mem_toList,
        Std.ExtTreeMap.getElem?_insert] at hu
      have hold (hu : chars[d]? = some u ∨ any = some u) : s.LeadsTo u.target := by
        refine Or.inr ⟨d, u, ?_, rfl⟩
        simpa only [consuming, step, hkind, List.mem_append, Option.mem_toList] using hu
      split at hu
      · rcases hu with hu | hu
        · exact Or.inl (Option.some.inj hu ▸ rfl)
        · exact Or.inr (hold (Or.inr hu))
      · exact Or.inr (hold hu)

/-- A transition over any character leads nowhere else than it says. -/
theorem leadsTo_addAny (h : (s.addAny t).LeadsTo r) : r = t.target ∨ s.LeadsTo r := by
  unfold addAny at h
  cases hkind : s.kind with
  | negated excluded next =>
    rw [hkind] at h
    exact Or.inr h
  | standard chars any =>
    rw [hkind] at h
    rcases h with h | ⟨d, u, hu, rfl⟩
    · exact Or.inr (Or.inl h)
    · simp only [consuming, step, List.mem_append, Option.mem_toList] at hu
      rcases hu with hu | hu
      · refine Or.inr (Or.inr ⟨d, u, ?_, rfl⟩)
        simpa only [consuming, step, hkind, List.mem_append, Option.mem_toList] using Or.inl hu
      · exact Or.inl (Option.some.inj hu ▸ rfl)

/-- An empty transition leads nowhere else than it says. -/
theorem leadsTo_addEpsilon (h : (s.addEpsilon t).LeadsTo r) : r = t.target ∨ s.LeadsTo r := by
  rcases h with h | ⟨c, h⟩
  · exact (emptyTo_addEpsilon.mp h).symm.imp_right Or.inl
  · rw [ReadTo, consuming_addEpsilon] at h
    exact Or.inr (Or.inr ⟨c, h⟩)

end State

/-- A step in the construction of an automaton. -/
inductive WiringStep where
  /-- A state without transitions is added. -/
  | state
  /-- A state is added that consumes any character but the excluded ones. -/
  | negated (excluded : Std.ExtTreeSet Char) (t : Transition)
  /-- A state gets a transition over an exact character. -/
  | char (source : Nat) (c : Char) (t : Transition)
  /-- A state gets a transition over any character. -/
  | any (source : Nat) (t : Transition)
  /-- A state gets an empty transition. -/
  | epsilon (source : Nat) (t : Transition)

namespace WiringStep

/-- The transition that a step adds. -/
def transition? : WiringStep → Option Transition
  | state => none
  | negated _ t => some t
  | char _ _ t => some t
  | any _ t => some t
  | epsilon _ t => some t

/-- Take a step. -/
def apply (arena : StateArena) : WiringStep → StateArena
  | state => arena.push .blank
  | negated excluded t => arena.push (.excluding excluded t)
  | char source c t => arena.addChar source c t
  | any source t => arena.addAny source t
  | epsilon source t => arena.addEpsilon source t

end WiringStep

namespace StateArena

variable {arena : StateArena} {steps : List WiringStep} {step : WiringStep} {n q r : Nat}

/-- The states after some steps. -/
def ofSteps (steps : List WiringStep) : StateArena := steps.foldl WiringStep.apply .empty

/-- Changing a state does so if there is one of this number. -/
theorem state_modify_cases (arena : StateArena) (id q : Nat) (f : State → State) :
    (arena.modify id f).state q = arena.state q ∨
      (arena.modify id f).state q = f (arena.state q) := by
  by_cases hid : id < arena.size
  · rw [state_modify hid]
    split
    · exact Or.inr rfl
    · exact Or.inl rfl
  · -- Nothing is changed where there is no state.
    by_cases hq : q < arena.size
    · refine Or.inl ?_
      have hne : id ≠ q := fun heq => hid (heq ▸ hq)
      simp [state, modify, Array.getD_eq_getD_getElem?, Array.getElem?_modify, hne]
    · rw [state_of_size_le (Nat.le_of_not_lt hq), state_of_size_le (by simpa using hq)]
      exact Or.inl rfl

/-- A step adds no way but the one that it says. -/
theorem leadsTo_apply (h : ((step.apply arena).state q).LeadsTo r) :
    (∃ t, step.transition? = some t ∧ r = t.target) ∨ (arena.state q).LeadsTo r := by
  have hchanged {t : Transition} {f : State → State} {id : Nat}
      (hf : ∀ s : State, (f s).LeadsTo r → r = t.target ∨ s.LeadsTo r)
      (h : ((arena.modify id f).state q).LeadsTo r) :
      r = t.target ∨ (arena.state q).LeadsTo r := by
    rcases state_modify_cases arena id q f with heq | heq
    · exact Or.inr (heq ▸ h)
    · exact hf _ (heq ▸ h)
  cases step with
  | state =>
    rw [WiringStep.apply, state_push] at h
    split at h
    · exact absurd h State.not_leadsTo_blank
    · exact Or.inr h
  | negated excluded t =>
    rw [WiringStep.apply, state_push] at h
    split at h
    · exact Or.inl ⟨t, rfl, State.leadsTo_excluding h⟩
    · exact Or.inr h
  | char source c t =>
    exact (hchanged (fun s => State.leadsTo_addChar) h).imp_left fun heq => ⟨t, rfl, heq⟩
  | any source t =>
    exact (hchanged (fun s => State.leadsTo_addAny) h).imp_left fun heq => ⟨t, rfl, heq⟩
  | epsilon source t =>
    rw [WiringStep.apply, addEpsilon] at h
    split at h
    · exact Or.inr h
    · exact (hchanged (fun s => State.leadsTo_addEpsilon) h).imp_left fun heq => ⟨t, rfl, heq⟩

/-- Every way from a state is one that some step says. -/
theorem leadsTo_ofSteps (h : ((ofSteps steps).state q).LeadsTo r) :
    ∃ step ∈ steps, ∃ t, step.transition? = some t ∧ r = t.target := by
  induction steps using List.reverseRecOn with
  | nil =>
    have hblank : (ofSteps []).state q = .blank := state_of_size_le (Nat.zero_le q)
    rw [hblank] at h
    exact absurd h State.not_leadsTo_blank
  | append_singleton steps step ih =>
    rw [ofSteps, List.foldl_append] at h
    rcases leadsTo_apply h with ht | h
    · exact ⟨step, List.mem_append_right _ (List.mem_singleton_self step), ht⟩
    · obtain ⟨step, hmem, ht⟩ := ih h
      exact ⟨step, List.mem_append_left _ hmem, ht⟩

/-- An automaton is in range if its start and the targets of its steps are. -/
theorem inRange_finish {start : Nat} (hstart : start < (ofSteps steps).size)
    (htargets : ∀ step ∈ steps, ∀ t, step.transition? = some t →
      t.target < (ofSteps steps).size) (accept : Nat) :
    ((ofSteps steps).finish start accept).InRange := by
  have hleads (q r : Nat) (h : ((ofSteps steps).state q).LeadsTo r) :
      r < (ofSteps steps).size := by
    obtain ⟨step, hmem, t, ht, rfl⟩ := leadsTo_ofSteps h
    exact htargets step hmem t ht
  refine ⟨hstart, ?_, ?_⟩
  · intro q t ht
    exact hleads q _ (Or.inl ⟨t, mem_epsilons_finish.mp ht, rfl⟩)
  · intro q c t ht
    exact hleads q _ (Or.inr ⟨c, t, mem_step_finish.mp ht, rfl⟩)

end StateArena

end SentenceSearch
