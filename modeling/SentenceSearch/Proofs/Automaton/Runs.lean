import Mathlib.Data.Finset.Card
import Mathlib.Data.Finset.Range
import SentenceSearch.Automaton.Run

/-!
# Runs of an automaton

A run reads a text transition by transition. What is available at a position is a function of the
text that is left there, so that a run over a part of a text can be moved into a longer one. The
search in layers finds exactly the states that a run can reach.

## Main definitions

* `Automaton.InRange` — every transition leads to a state of the automaton
* `Automaton.Run` — a sequence of allowed transitions
* `Automaton.nothingAtEnd` — everything is available but at the end of the text

## Main results

* `Run.mono` — a run stays one when more is available
* `mem_closure` — the closure of a set of states is what empty transitions reach
* `isInLanguage_iff_run` — the search accepts exactly when there is an accepting run
* `accepts_iff_run` — the same for plain acceptance
-/

namespace SentenceSearch.Automaton

variable {automaton : Automaton} {available available' : List Char → Mask}

/-- The start and all transitions lead to states of the automaton. -/
structure InRange (automaton : Automaton) : Prop where
  start_lt : automaton.start < automaton.stateCount
  epsilons_lt : ∀ q, ∀ t ∈ automaton.epsilons q, t.target < automaton.stateCount
  step_lt : ∀ q c, ∀ t ∈ automaton.step q c, t.target < automaton.stateCount

/-- The transitions lead from a state, with some text left, to another state with less text left.
Each of them needs buckets that are available where it is taken. -/
inductive Run (automaton : Automaton) (available : List Char → Mask) :
    Nat → List Char → Nat → List Char → Prop
  | refl (q : Nat) (text : List Char) : Run automaton available q text q text
  | epsilon {q r : Nat} {text left : List Char} (t : Transition)
      (ht : t ∈ automaton.epsilons q) (allowed : t.allowed (available text) = true)
      (run : Run automaton available t.target text r left) :
      Run automaton available q text r left
  | consume {q r : Nat} {c : Char} {text left : List Char} (t : Transition)
      (ht : t ∈ automaton.step q c) (allowed : t.allowed (available (c :: text)) = true)
      (run : Run automaton available t.target text r left) :
      Run automaton available q (c :: text) r left

namespace Run

theorem trans {q r s : Nat} {text left rest : List Char}
    (hqr : Run automaton available q text r left)
    (hrs : Run automaton available r left s rest) :
    Run automaton available q text s rest := by
  induction hqr with
  | refl => exact hrs
  | epsilon t ht allowed _ ih => exact .epsilon t ht allowed (ih hrs)
  | consume t ht allowed _ ih => exact .consume t ht allowed (ih hrs)

/-- A run stays one when more is available at every place. -/
theorem mono {q r : Nat} {text left : List Char}
    (h : ∀ rest, (available rest).allows (available' rest) = true)
    (run : Run automaton available q text r left) :
    Run automaton available' q text r left := by
  induction run with
  | refl => exact .refl _ _
  | epsilon t ht allowed _ ih => exact .epsilon t ht (Mask.allows_trans allowed (h _)) ih
  | consume t ht allowed _ ih => exact .consume t ht (Mask.allows_trans allowed (h _)) ih

/-- What a run leaves is the end of its text. -/
theorem suffix {q r : Nat} {text left : List Char}
    (run : Run automaton available q text r left) : left <:+ text := by
  induction run with
  | refl => exact List.suffix_rfl
  | epsilon _ _ _ _ ih => exact ih
  | consume _ _ _ _ ih => exact ih.trans (List.suffix_cons _ _)

/-- A run only asks what is available at the ends of its text. -/
theorem congr_of_suffix {q r : Nat} {text left : List Char}
    (h : ∀ rest, rest <:+ text → available rest = available' rest)
    (run : Run automaton available q text r left) :
    Run automaton available' q text r left := by
  induction run with
  | refl => exact .refl _ _
  | epsilon t ht allowed _ ih =>
    exact .epsilon t ht (h _ List.suffix_rfl ▸ allowed) (ih h)
  | consume t ht allowed _ ih =>
    refine .consume t ht (h _ List.suffix_rfl ▸ allowed) (ih fun rest hrest => ?_)
    exact h rest (hrest.trans (List.suffix_cons _ _))

end Run

/-! ## Closure along empty transitions -/

/-- Empty transitions lead from one state to another while the buckets `m` are available. -/
inductive Reaches (automaton : Automaton) (m : Mask) : Nat → Nat → Prop
  | refl (q : Nat) : Reaches automaton m q q
  | tail {q r : Nat} (t : Transition) (h : Reaches automaton m q r)
      (ht : t ∈ automaton.epsilons r) (allowed : t.allowed m = true) :
      Reaches automaton m q t.target

theorem Reaches.head {m : Mask} {q r : Nat} (t : Transition) (ht : t ∈ automaton.epsilons q)
    (allowed : t.allowed m = true) (h : Reaches automaton m t.target r) :
    Reaches automaton m q r := by
  induction h with
  | refl => exact .tail t (.refl q) ht allowed
  | tail u _ hu allowed' ih => exact .tail u ih hu allowed'

theorem Reaches.run {q r : Nat} {text : List Char}
    (h : Reaches automaton (available text) q r) : Run automaton available q text r text := by
  induction h with
  | refl => exact .refl _ _
  | tail t _ ht allowed ih => exact ih.trans (.epsilon t ht allowed (.refl _ _))

theorem mem_allowedTargets {m : Mask} {transitions : List Transition} {r : Nat} :
    r ∈ allowedTargets m transitions ↔
      ∃ t ∈ transitions, t.allowed m = true ∧ t.target = r := by
  simp [allowedTargets, and_assoc]

theorem epsilons_of_stateCount_le {q : Nat} (h : automaton.stateCount ≤ q) :
    automaton.epsilons q = [] := by
  have hs : automaton.states[q]? = none := Array.getElem?_eq_none h
  simp [epsilons, state, State.blank, Array.getD_eq_getD_getElem?, hs]

/-- Every allowed empty transition out of one of the states leads to one of them. -/
def IsClosed (automaton : Automaton) (m : Mask) (ids : Std.ExtTreeSet Nat) : Prop :=
  ∀ q ∈ ids, ∀ t ∈ automaton.epsilons q, t.allowed m = true → t.target ∈ ids

/-- The states with a number in use that have not been found. -/
def unseen (automaton : Automaton) (known : Std.ExtTreeSet Nat) : Finset Nat :=
  (Finset.range automaton.stateCount).filter fun id => id ∉ known

theorem unseen_insertMany {known : Std.ExtTreeSet Nat} {found : List Nat} {q : Nat}
    (hq : q < automaton.stateCount) (hfound : q ∈ found) (hnew : q ∉ known) :
    (automaton.unseen (known.insertMany found)).card < (automaton.unseen known).card := by
  refine Finset.card_lt_card ⟨fun id hid => ?_, fun hsub => ?_⟩
  · simp only [unseen, Finset.mem_filter, Std.ExtTreeSet.mem_insertMany_list, not_or] at hid ⊢
    exact ⟨hid.1, hid.2.1⟩
  · have hmem : q ∈ automaton.unseen known := by simp [unseen, hq, hnew]
    have := hsub hmem
    simp [unseen, Std.ExtTreeSet.mem_insertMany_list, hfound] at this

/-- The states that one more layer adds. -/
def layer (automaton : Automaton) (m : Mask) (known : Std.ExtTreeSet Nat) (frontier : List Nat) :
    List Nat :=
  (Std.ExtTreeSet.ofList
    ((frontier.flatMap fun id => allowedTargets m (automaton.epsilons id)).filter
      fun id => !known.contains id)).toList

theorem mem_layer {m : Mask} {known : Std.ExtTreeSet Nat} {frontier : List Nat} {r : Nat} :
    r ∈ automaton.layer m known frontier ↔
      (∃ q ∈ frontier, ∃ t ∈ automaton.epsilons q, t.allowed m = true ∧ t.target = r) ∧
        r ∉ known := by
  simp [layer, mem_allowedTargets, ← Bool.not_eq_true]

theorem closureFrom_succ (m : Mask) (fuel : Nat) (known : Std.ExtTreeSet Nat)
    (frontier : List Nat) :
    automaton.closureFrom m (fuel + 1) known frontier =
      if automaton.layer m known frontier = [] then known
      else automaton.closureFrom m fuel (known.insertMany (automaton.layer m known frontier))
        (automaton.layer m known frontier) := by
  rw [closureFrom, layer]
  split
  · rename_i hlayer
    rw [if_pos hlayer]
  · rename_i hlayer
    rw [if_neg hlayer]

/-- A search in layers keeps what it knows. -/
theorem subset_closureFrom {m : Mask} {fuel : Nat} {known : Std.ExtTreeSet Nat}
    {frontier : List Nat} {q : Nat} (hq : q ∈ known) :
    q ∈ automaton.closureFrom m fuel known frontier := by
  induction fuel generalizing known frontier with
  | zero => exact hq
  | succ fuel ih =>
    rw [closureFrom_succ]
    split
    · exact hq
    · exact ih (Std.ExtTreeSet.mem_insertMany_list.mpr (Or.inl hq))

/-- A search in layers finds nothing that cannot be reached. -/
theorem closureFrom_sound {m : Mask} {fuel : Nat} {known : Std.ExtTreeSet Nat}
    {frontier : List Nat} {start : Nat → Prop}
    (hknown : ∀ r ∈ known, ∃ q, start q ∧ Reaches automaton m q r)
    (hfrontier : ∀ r ∈ frontier, r ∈ known) :
    ∀ r ∈ automaton.closureFrom m fuel known frontier,
      ∃ q, start q ∧ Reaches automaton m q r := by
  induction fuel generalizing known frontier with
  | zero => exact hknown
  | succ fuel ih =>
    rw [closureFrom_succ]
    split
    · exact hknown
    · refine ih (fun r hr => ?_) fun r hr => ?_
      · rcases Std.ExtTreeSet.mem_insertMany_list.mp hr with hr | hr
        · exact hknown r hr
        -- What a layer adds is one transition away from the frontier.
        · obtain ⟨⟨s, hs, t, ht, allowed, rfl⟩, -⟩ := mem_layer.mp (List.contains_iff_mem.mp hr)
          obtain ⟨q, hq, hreach⟩ := hknown s (hfrontier s hs)
          exact ⟨q, hq, .tail t hreach ht allowed⟩
      · exact Std.ExtTreeSet.mem_insertMany_list.mpr (Or.inr (List.contains_iff_mem.mpr hr))

/-- With enough layers a search ends with a closed set. It needs a layer for each state that is not
found yet, one for numbers that are not in use, and one to see that nothing is new. -/
theorem closureFrom_closed {m : Mask} {fuel : Nat} {known : Std.ExtTreeSet Nat}
    {frontier : List Nat}
    (hknown : ∀ q ∈ known, q ∉ frontier → ∀ t ∈ automaton.epsilons q, t.allowed m = true →
      t.target ∈ known)
    (hfuel : (automaton.unseen known).card + 2 ≤ fuel ∨
      (1 ≤ fuel ∧ ∀ q ∈ frontier, automaton.stateCount ≤ q)) :
    automaton.IsClosed m (automaton.closureFrom m fuel known frontier) := by
  induction fuel generalizing known frontier with
  | zero => omega
  | succ fuel ih =>
    rw [closureFrom_succ]
    split
    case isTrue hnil =>
      intro q hq t ht allowed
      by_cases hf : q ∈ frontier
      -- Otherwise its target would be in the layer.
      · by_contra hnew
        have : t.target ∈ automaton.layer m known frontier :=
          mem_layer.mpr ⟨⟨q, hf, t, ht, allowed, rfl⟩, hnew⟩
        simp [hnil] at this
      · exact hknown q hq hf t ht allowed
    case isFalse hsome =>
      refine ih (fun q hq hnew t ht allowed => ?_) ?_
      · have hq : q ∈ known := by
          rcases Std.ExtTreeSet.mem_insertMany_list.mp hq with hq | hq
          · exact hq
          · exact absurd (List.contains_iff_mem.mp hq) hnew
        rw [Std.ExtTreeSet.mem_insertMany_list]
        by_cases hf : q ∈ frontier
        · by_cases htarget : t.target ∈ known
          · exact Or.inl htarget
          · exact Or.inr (List.contains_iff_mem.mpr
              (mem_layer.mpr ⟨⟨q, hf, t, ht, allowed, rfl⟩, htarget⟩))
        · exact Or.inl (hknown q hq hf t ht allowed)
      · -- A layer of numbers that are not in use is the last one.
        by_cases hall : ∀ q ∈ automaton.layer m known frontier, automaton.stateCount ≤ q
        · right
          rcases hfuel with hfuel | ⟨-, hout⟩
          · exact ⟨by omega, hall⟩
          · obtain ⟨r, hr⟩ := List.exists_mem_of_ne_nil _ hsome
            obtain ⟨⟨q, hq, t, ht, -⟩, -⟩ := mem_layer.mp hr
            rw [epsilons_of_stateCount_le (hout q hq)] at ht
            simp at ht
        · push Not at hall
          obtain ⟨r, hr, hlt⟩ := hall
          obtain ⟨⟨q, hq, t, ht, -⟩, hnew⟩ := mem_layer.mp hr
          rcases hfuel with hfuel | ⟨-, hout⟩
          · have := unseen_insertMany hlt hr hnew
            omega
          · rw [epsilons_of_stateCount_le (hout q hq)] at ht
            simp at ht

theorem card_unseen_le (known : Std.ExtTreeSet Nat) :
    (automaton.unseen known).card ≤ automaton.stateCount := by
  simpa [unseen] using
    Finset.card_filter_le (Finset.range automaton.stateCount) fun id => id ∉ known

/-- The closure of a set of states is what empty transitions reach from it. -/
theorem mem_closure {m : Mask} {ids : Std.ExtTreeSet Nat} {r : Nat} :
    r ∈ automaton.closure m ids ↔ ∃ q ∈ ids, Reaches automaton m q r := by
  constructor
  · intro hr
    refine closureFrom_sound (fun q hq => ⟨q, hq, .refl q⟩) (fun q hq => ?_) r hr
    exact Std.ExtTreeSet.mem_toList.mp hq
  · rintro ⟨q, hq, hreach⟩
    have hclosed : automaton.IsClosed m (automaton.closure m ids) :=
      closureFrom_closed
        (fun q hq hnew => absurd (Std.ExtTreeSet.mem_toList.mpr hq) hnew)
        (Or.inl (Nat.add_le_add_right (card_unseen_le ids) 2))
    -- The closure is closed, so that it keeps up with every transition on the way.
    induction hreach with
    | refl => exact subset_closureFrom hq
    | tail t _ ht allowed ih => exact hclosed _ ih t ht allowed

/-! ## Runs over a text -/

/-- A run that reads nothing follows empty transitions, and any other run does so up to the first
character that it reads. -/
theorem Run.reaches_or_reads {q r : Nat} {text left : List Char}
    (run : Run automaton available q text r left) :
    (left = text ∧ Reaches automaton (available text) q r) ∨
      ∃ c rest s t, text = c :: rest ∧ Reaches automaton (available text) q s ∧
        t ∈ automaton.step s c ∧ t.allowed (available text) = true ∧
        Run automaton available t.target rest r left := by
  induction run with
  | refl q text => exact Or.inl ⟨rfl, .refl q⟩
  | epsilon t ht allowed _ ih =>
    rcases ih with ⟨rfl, hreach⟩ | ⟨c, rest, s, u, rfl, hreach, hu, allowed', run⟩
    · exact Or.inl ⟨rfl, hreach.head t ht allowed⟩
    · exact Or.inr ⟨c, rest, s, u, rfl, hreach.head t ht allowed, hu, allowed', run⟩
  | @consume q _ c text _ t ht allowed run _ =>
    exact Or.inr ⟨c, text, q, t, rfl, .refl q, ht, allowed, run⟩

theorem run_nil_iff {q r : Nat} :
    Run automaton available q [] r [] ↔ Reaches automaton (available []) q r := by
  constructor
  · intro run
    rcases run.reaches_or_reads with ⟨-, hreach⟩ | ⟨c, rest, s, t, h, -⟩
    · exact hreach
    · simp at h
  · exact fun hreach => hreach.run

theorem run_cons_iff {q r : Nat} {c : Char} {text : List Char} :
    Run automaton available q (c :: text) r [] ↔
      ∃ s, Reaches automaton (available (c :: text)) q s ∧ ∃ t ∈ automaton.step s c,
        t.allowed (available (c :: text)) = true ∧ Run automaton available t.target text r [] := by
  constructor
  · intro run
    rcases run.reaches_or_reads with ⟨h, -⟩ | ⟨_, _, s, t, h, hreach, ht, allowed, run⟩
    · simp at h
    · obtain ⟨rfl, rfl⟩ := List.cons.inj h
      exact ⟨s, hreach, t, ht, allowed, run⟩
  · rintro ⟨s, hreach, t, ht, allowed, run⟩
    exact hreach.run.trans (.consume t ht allowed run)

theorem mem_advance {m : Mask} {c : Char} {ids : Std.ExtTreeSet Nat} {r : Nat} :
    r ∈ automaton.advance m c ids ↔
      ∃ q ∈ ids, ∃ t ∈ automaton.step q c, t.allowed m = true ∧ t.target = r := by
  simp [advance, mem_allowedTargets]

/-- The masks say what is available at each position of the text and at its end. -/
def MasksAgree (available : List Char → Mask) (text : List Char) (masks : List Mask) : Prop :=
  ∀ i ≤ text.length, masks.getD i 0 = available (text.drop i)

theorem MasksAgree.head {text : List Char} {masks : List Mask}
    (h : MasksAgree available text masks) : masks.headD 0 = available text := by
  have := h 0 (Nat.zero_le _)
  cases masks <;> simpa using this

theorem MasksAgree.tail {c : Char} {text : List Char} {masks : List Mask}
    (h : MasksAgree available (c :: text) masks) : MasksAgree available text masks.tail := by
  intro i hi
  have := h (i + 1) (by simpa using hi)
  cases masks <;> simpa using this

theorem leadsToAccept_iff_run {text : List Char} {masks : List Mask} {ids : Std.ExtTreeSet Nat}
    (h : MasksAgree available text masks) :
    automaton.leadsToAccept ids text masks = true ↔
      ∃ q ∈ ids, Run automaton available q text automaton.accept [] := by
  induction text generalizing masks ids with
  | nil =>
    rw [leadsToAccept, ← Std.ExtTreeSet.mem_iff_contains, mem_closure, h.head]
    simp only [run_nil_iff]
  | cons c text ih =>
    rw [leadsToAccept, ih h.tail, h.head]
    simp only [mem_advance, mem_closure, run_cons_iff]
    constructor
    · rintro ⟨_, ⟨s, ⟨q, hq, hreach⟩, t, ht, allowed, rfl⟩, run⟩
      exact ⟨q, hq, s, hreach, t, ht, allowed, run⟩
    · rintro ⟨q, hq, s, hreach, t, ht, allowed, run⟩
      exact ⟨t.target, ⟨s, ⟨q, hq, hreach⟩, t, ht, allowed, rfl⟩, run⟩

/-- The search accepts a text exactly when an allowed run leads over the whole of it. -/
theorem isInLanguage_iff_run {text : List Char} {masks : List Mask}
    (h : MasksAgree available text masks) :
    automaton.isInLanguage text masks = true ↔
      Run automaton available automaton.start text automaton.accept [] := by
  rw [isInLanguage, leadsToAccept_iff_run h]
  simp

/-- Everything is available before the end of a text and nothing there. -/
def nothingAtEnd : List Char → Mask
  | [] => 0
  | _ :: _ => Mask.full

theorem accepts_iff_run {text : List Char} :
    automaton.accepts text = true ↔
      Run automaton nothingAtEnd automaton.start text automaton.accept [] := by
  refine isInLanguage_iff_run fun i hi => ?_
  rcases Nat.lt_or_eq_of_le hi with hlt | rfl
  · rw [List.drop_eq_getElem_cons hlt]
    simp [nothingAtEnd, hlt]
  · simp [nothingAtEnd]

end SentenceSearch.Automaton
