import Mathlib.Computability.Language
import Mathlib.Order.Interval.Set.Defs
import SentenceSearch.Proofs.Automaton.Arena

/-!
# Paths through a region of states

A path follows transitions whatever they need. All its states but the last one lie in a region, so
that what a part of an automaton reads can be told from what its surroundings read.

## Main definitions

* `State.LeadsTo` — some transition leads from a state to another one
* `StateArena.Path` — a way through a region
* `StateArena.Confined` — a region with one exit
* `StateArena.Hub` — a region whose paths all come back to one state
* `StateArena.Fork` — a region of two parts side by side

## Main results

* `Path.exit` — a path leaves a confined region through its exit
* `path_addEpsilon_iff` — a new way out of a region is taken at most once, as the last step
* `Hub.path_iff` — a path from a hub goes round and round before it ends
* `Fork.path_next_iff` — a path through a fork is one through either of its parts
-/

namespace SentenceSearch

/-- Some transition leads from the state to `r`. -/
def State.LeadsTo (s : State) (r : Nat) : Prop := s.EmptyTo r ∨ ∃ c, s.ReadTo c r

namespace StateArena

open Computability

variable {arena arena' : StateArena} {inside inside' : Set Nat} {q r s : Nat}
  {text text' : List Char}

/-- The transitions lead from a state to another one and read a text. Every state on the way but
the last one is inside the region. -/
inductive Path (arena : StateArena) (inside : Set Nat) : Nat → List Char → Nat → Prop
  | refl (q : Nat) : Path arena inside q [] q
  | empty {q r s : Nat} {text : List Char} (hq : q ∈ inside) (h : (arena.state q).EmptyTo r)
      (path : Path arena inside r text s) : Path arena inside q text s
  | read {q r s : Nat} {c : Char} {text : List Char} (hq : q ∈ inside)
      (h : (arena.state q).ReadTo c r) (path : Path arena inside r text s) :
      Path arena inside q (c :: text) s

namespace Path

theorem trans (hqr : Path arena inside q text r) (hrs : Path arena inside r text' s) :
    Path arena inside q (text ++ text') s := by
  induction hqr with
  | refl => exact hrs
  | empty hq h _ ih => exact .empty hq h (ih hrs)
  | read hq h _ ih => exact .read hq h (ih hrs)

/-- A path stays one in a larger region and with more transitions. -/
theorem mono (hinside : inside ⊆ inside')
    (hempty : ∀ q ∈ inside, ∀ r, (arena.state q).EmptyTo r → (arena'.state q).EmptyTo r)
    (hread : ∀ q ∈ inside, ∀ c r, (arena.state q).ReadTo c r → (arena'.state q).ReadTo c r)
    (path : Path arena inside q text r) : Path arena' inside' q text r := by
  induction path with
  | refl => exact .refl _
  | empty hq h _ ih => exact .empty (hinside hq) (hempty _ hq _ h) ih
  | read hq h _ ih => exact .read (hinside hq) (hread _ hq _ _ h) ih

theorem widen (hinside : inside ⊆ inside') (path : Path arena inside q text r) :
    Path arena inside' q text r :=
  path.mono hinside (fun _ _ _ => id) fun _ _ _ _ => id

/-- A path through a region depends on the states there alone. -/
theorem congr (h : ∀ q ∈ inside, arena.state q = arena'.state q) :
    Path arena inside q text r ↔ Path arena' inside q text r := by
  constructor
  · exact mono subset_rfl (fun q hq r => (h q hq ▸ id)) fun q hq c r => (h q hq ▸ id)
  · exact mono subset_rfl (fun q hq r => (h q hq ▸ id)) fun q hq c r => (h q hq ▸ id)

/-- A path cannot go on outside of its region. -/
theorem eq_of_notMem (hq : q ∉ inside) (path : Path arena inside q text r) :
    text = [] ∧ r = q := by
  cases path with
  | refl => exact ⟨rfl, rfl⟩
  | empty h => exact absurd h hq
  | read h => exact absurd h hq

theorem nil_iff_of_notMem (hq : q ∉ inside) : Path arena inside q text q ↔ text = [] :=
  ⟨fun path => (path.eq_of_notMem hq).1, fun h => h ▸ .refl q⟩

end Path

/-- Every transition out of the region leads to the state `exit`. -/
def Confined (arena : StateArena) (region : Set Nat) (exit : Nat) : Prop :=
  ∀ q ∈ region, ∀ r, (arena.state q).LeadsTo r → r ∈ region ∨ r = exit

/-- A path that starts in a confined region stays there or leaves it through the exit. -/
theorem Path.exit {region : Set Nat} {exit : Nat} (hconf : arena.Confined region exit)
    (path : Path arena inside q text r) (hq : q ∈ region) :
    (r ∈ region ∧ Path arena region q text r) ∨
      ∃ u v, text = u ++ v ∧ Path arena region q u exit ∧ Path arena inside exit v r := by
  induction path with
  | refl q => exact Or.inl ⟨hq, .refl q⟩
  | @empty q s r text _ h path ih =>
    rcases hconf q hq s (Or.inl h) with hs | rfl
    · rcases ih hs with ⟨hr, path'⟩ | ⟨u, v, rfl, hu, hv⟩
      · exact Or.inl ⟨hr, .empty hq h path'⟩
      · exact Or.inr ⟨u, v, rfl, .empty hq h hu, hv⟩
    · exact Or.inr ⟨[], text, rfl, .empty hq h (.refl _), path⟩
  | @read q s r c text _ h path ih =>
    rcases hconf q hq s (Or.inr ⟨c, h⟩) with hs | rfl
    · rcases ih hs with ⟨hr, path'⟩ | ⟨u, v, rfl, hu, hv⟩
      · exact Or.inl ⟨hr, .read hq h path'⟩
      · exact Or.inr ⟨c :: u, v, rfl, .read hq h hu, hv⟩
    · exact Or.inr ⟨[c], text, rfl, .read hq h (.refl _), path⟩

/-- A path from a confined region to a state outside of both leaves through the exit. -/
theorem Path.through {region : Set Nat} {exit : Nat} (hconf : arena.Confined region exit)
    (hsub : region ⊆ inside) (hq : q ∈ region) (hr : r ∉ region) :
    Path arena inside q text r ↔
      ∃ u v, text = u ++ v ∧ Path arena region q u exit ∧ Path arena inside exit v r := by
  constructor
  · intro path
    rcases path.exit hconf hq with ⟨hmem, -⟩ | h
    · exact absurd hmem hr
    · exact h
  · rintro ⟨u, v, rfl, hu, hv⟩
    exact (hu.widen hsub).trans hv

/-- A path from a confined region whose exit is a dead end does not leave the region before its
end. -/
theorem Path.stays {region : Set Nat} {exit : Nat} (hconf : arena.Confined region exit)
    (hexit : exit ∉ inside) (path : Path arena inside q text r) (hq : q ∈ region) :
    (r ∈ region ∨ r = exit) ∧ Path arena region q text r := by
  rcases path.exit hconf hq with ⟨hr, path⟩ | ⟨u, v, rfl, hu, hv⟩
  · exact ⟨Or.inl hr, path⟩
  · obtain ⟨rfl, rfl⟩ := hv.eq_of_notMem hexit
    exact ⟨Or.inr rfl, by simpa using hu⟩

theorem Confined.congr {region : Set Nat} {exit : Nat} (hconf : arena.Confined region exit)
    (h : ∀ q ∈ region, arena'.state q = arena.state q) : arena'.Confined region exit :=
  fun q hq r hr => hconf q hq r (h q hq ▸ hr)

/-! ### A new way out -/

section Exit

variable {t : Transition}

theorem Confined.addEpsilon {region : Set Nat} (hconf : arena.Confined region t.target)
    (hs : s < arena.size) (hne : s ≠ t.target) :
    (arena.addEpsilon s t).Confined region t.target := by
  rintro q hq r (hr | ⟨c, hr⟩)
  · rcases (emptyTo_state_addEpsilon hs hne).mp hr with hr | ⟨-, rfl⟩
    · exact hconf q hq r (Or.inl hr)
    · exact Or.inr rfl
  · exact hconf q hq r (Or.inr ⟨c, (readTo_state_addEpsilon hs).mp hr⟩)

/-- A new way out of a region is taken at most once, as the last step. -/
theorem path_addEpsilon_iff (hs : s < arena.size) (hmem : s ∈ inside) (hexit : t.target ∉ inside) :
    Path (arena.addEpsilon s t) inside q text r ↔
      Path arena inside q text r ∨ (r = t.target ∧ Path arena inside q text s) := by
  -- The target is outside, so that the new transition ends the path.
  have hne : s ≠ t.target := fun heq => hexit (heq ▸ hmem)
  have hold {q r : Nat} {text : List Char} (path : Path arena inside q text r) :
      Path (arena.addEpsilon s t) inside q text r :=
    path.mono subset_rfl (fun _ _ _ hr => (emptyTo_state_addEpsilon hs hne).mpr (Or.inl hr))
      fun _ _ _ _ => (readTo_state_addEpsilon hs).mpr
  constructor
  · intro path
    induction path with
    | refl q => exact Or.inl (.refl q)
    | empty hq hr path ih =>
      rcases (emptyTo_state_addEpsilon hs hne).mp hr with hr | ⟨rfl, rfl⟩
      · exact ih.imp (.empty hq hr) fun h => ⟨h.1, .empty hq hr h.2⟩
      · obtain ⟨rfl, rfl⟩ := path.eq_of_notMem hexit
        exact Or.inr ⟨rfl, .refl _⟩
    | read hq hr path ih =>
      have hr := (readTo_state_addEpsilon hs).mp hr
      exact ih.imp (.read hq hr) fun h => ⟨h.1, .read hq hr h.2⟩
  · rintro (path | ⟨rfl, path⟩)
    · exact hold path
    · have hlast := (emptyTo_state_addEpsilon hs hne).mpr (Or.inr ⟨rfl, rfl⟩)
      simpa using (hold path).trans (.empty hmem hlast (.refl _))

end Exit

/-! ### Loops -/

/-- A region in which every path leads back to the state `hub`, from where it goes on to `start`
or to `next`, which lies outside. -/
structure Hub (arena : StateArena) (inside region : Set Nat) (hub start next : Nat) : Prop where
  mem_inside : ∀ q, q ∈ inside ↔ q = hub ∨ q ∈ region
  hub_notMem : hub ∉ region
  next_notMem : next ∉ inside
  start_mem : start = hub ∨ start ∈ region
  confined : arena.Confined region hub
  hub_empty : ∀ r, (arena.state hub).EmptyTo r ↔ (r = start ∧ start ≠ hub) ∨ r = next
  hub_read : ∀ c r, ¬ (arena.state hub).ReadTo c r

namespace Hub

variable {region : Set Nat} {hub start next : Nat}

/-- What is read on one round. -/
def round (arena : StateArena) (region : Set Nat) (hub start : Nat) : Language Char :=
  {text | Path arena region start text hub}

/-- What is read after the last round, on the way to `r`. -/
def Last (arena : StateArena) (region : Set Nat) (hub start next : Nat) (text : List Char)
    (r : Nat) : Prop :=
  (text = [] ∧ (r = hub ∨ r = next)) ∨ (r ∈ region ∧ Path arena region start text r)

theorem subset (h : Hub arena inside region hub start next) : region ⊆ inside :=
  fun q hq => (h.mem_inside q).mpr (Or.inr hq)

theorem mem (h : Hub arena inside region hub start next) : hub ∈ inside :=
  (h.mem_inside hub).mpr (Or.inl rfl)

/-- A path from the hub is some rounds and a last way. From elsewhere in the region it stays there
or comes to the hub first. -/
theorem rounds (h : Hub arena inside region hub start next)
    (path : Path arena inside q text r) :
    (q = hub → ∃ u v, text = u ++ v ∧ u ∈ (round arena region hub start)∗ ∧
      Last arena region hub start next v r) ∧
    (q ∈ region → (r ∈ region ∧ Path arena region q text r) ∨
      ∃ u v w, text = u ++ (v ++ w) ∧ Path arena region q u hub ∧
        v ∈ (round arena region hub start)∗ ∧ Last arena region hub start next w r) := by
  -- Both at once, by induction on the path: from the hub it goes into the region, and from there it
  -- may come back to the hub.
  induction path with
  | refl q =>
    constructor
    · rintro rfl
      exact ⟨[], [], rfl, Language.nil_mem_kstar _, Or.inl ⟨rfl, Or.inl rfl⟩⟩
    · exact fun hq => Or.inl ⟨hq, .refl q⟩
  | @empty q s r text hq hs path ih =>
    constructor
    · rintro rfl
      rcases (h.hub_empty s).mp hs with ⟨rfl, hne⟩ | rfl
      · rcases ih.2 (h.start_mem.resolve_left hne) with ⟨hr, hlast⟩ | ⟨u, v, w, rfl, hu, hv, hw⟩
        · exact ⟨[], text, rfl, Language.nil_mem_kstar _, Or.inr ⟨hr, hlast⟩⟩
        -- The way to the hub completes a round.
        · refine ⟨u ++ v, w, by simp, ?_, hw⟩
          have hmem := Language.append_mem_mul (l := round arena region q s) hu hv
          rw [← Language.one_add_self_mul_kstar_eq_kstar]
          exact Or.inr hmem
      · obtain ⟨rfl, rfl⟩ := path.eq_of_notMem h.next_notMem
        exact ⟨[], [], rfl, Language.nil_mem_kstar _, Or.inl ⟨rfl, Or.inr rfl⟩⟩
    · intro hq
      rcases h.confined q hq s (Or.inl hs) with hmem | rfl
      · rcases ih.2 hmem with ⟨hr, hlast⟩ | ⟨u, v, w, rfl, hu, hv, hw⟩
        · exact Or.inl ⟨hr, .empty hq hs hlast⟩
        · exact Or.inr ⟨u, v, w, rfl, .empty hq hs hu, hv, hw⟩
      · obtain ⟨v, w, rfl, hv, hw⟩ := ih.1 rfl
        exact Or.inr ⟨[], v, w, rfl, .empty hq hs (.refl _), hv, hw⟩
  | @read q s r c text hq hs path ih =>
    constructor
    · rintro rfl
      exact absurd hs (h.hub_read c s)
    · intro hq
      rcases h.confined q hq s (Or.inr ⟨c, hs⟩) with hmem | rfl
      · rcases ih.2 hmem with ⟨hr, hlast⟩ | ⟨u, v, w, rfl, hu, hv, hw⟩
        · exact Or.inl ⟨hr, .read hq hs hlast⟩
        · exact Or.inr ⟨c :: u, v, w, rfl, .read hq hs hu, hv, hw⟩
      · obtain ⟨v, w, rfl, hv, hw⟩ := ih.1 rfl
        exact Or.inr ⟨[c], v, w, rfl, .read hq hs (.refl _), hv, hw⟩

/-- From the hub a path can go to the start of a round. -/
theorem path_start (h : Hub arena inside region hub start next) :
    Path arena inside hub [] start := by
  by_cases hs : start = hub
  · exact hs ▸ .refl start
  · exact .empty h.mem ((h.hub_empty start).mpr (Or.inl ⟨rfl, hs⟩)) (.refl _)

theorem path_next (h : Hub arena inside region hub start next) : Path arena inside hub [] next :=
  .empty h.mem ((h.hub_empty next).mpr (Or.inr rfl)) (.refl _)

/-- Any number of rounds leads back to the hub. -/
theorem path_of_mem_kstar (h : Hub arena inside region hub start next)
    (hmem : text ∈ (round arena region hub start)∗) : Path arena inside hub text hub := by
  obtain ⟨parts, rfl, hparts⟩ := Language.mem_kstar.mp hmem
  clear hmem
  induction parts with
  | nil => exact .refl hub
  | cons part parts ih =>
    have hround : Path arena region start part hub := hparts part (by simp)
    have hrest := ih fun y hy => hparts y (List.mem_cons_of_mem _ hy)
    exact h.path_start.trans
      ((hround.widen h.subset).trans hrest)

/-- A path from the hub is any number of rounds and a last way. -/
theorem path_iff (h : Hub arena inside region hub start next) :
    Path arena inside hub text r ↔
      ∃ u v, text = u ++ v ∧ u ∈ (round arena region hub start)∗ ∧
        Last arena region hub start next v r := by
  refine ⟨fun path => (h.rounds path).1 rfl, ?_⟩
  rintro ⟨u, v, rfl, hu, (⟨rfl, rfl | rfl⟩ | ⟨-, hlast⟩)⟩
  · exact (h.path_of_mem_kstar hu).trans (.refl _)
  · exact (h.path_of_mem_kstar hu).trans h.path_next
  · exact (h.path_of_mem_kstar hu).trans
      (h.path_start.trans (hlast.widen h.subset))

/-- A path from the hub back to it is any number of rounds. -/
theorem path_hub_iff (h : Hub arena inside region hub start next) :
    Path arena inside hub text hub ↔ text ∈ (round arena region hub start)∗ := by
  refine ⟨fun path => ?_, h.path_of_mem_kstar⟩
  obtain ⟨u, v, rfl, hu, (⟨rfl, -⟩ | ⟨hmem, -⟩)⟩ := h.path_iff.mp path
  · simpa using hu
  · exact absurd hmem h.hub_notMem

/-- A path from the hub to what follows is any number of rounds. -/
theorem path_next_iff (h : Hub arena inside region hub start next) :
    Path arena inside hub text next ↔ text ∈ (round arena region hub start)∗ := by
  constructor
  · intro path
    obtain ⟨u, v, rfl, hu, (⟨rfl, -⟩ | ⟨hmem, -⟩)⟩ := h.path_iff.mp path
    · simpa using hu
    · exact absurd (h.subset hmem) h.next_notMem
  · intro hmem
    simpa using (h.path_of_mem_kstar hmem).trans h.path_next

end Hub

/-! ### Choices -/

/-- A region of two parts side by side. The state `choice` leads to the start of either. The left
part ends at the state `leftEnd`, which leads to `next`, and the right part ends at `next`, which
lies outside. -/
structure Fork (arena : StateArena) (inside leftPart rightPart : Set Nat)
    (choice leftStart leftEnd rightStart next : Nat) : Prop where
  mem_inside : ∀ q, q ∈ inside ↔ q = choice ∨ q = leftEnd ∨ q ∈ leftPart ∨ q ∈ rightPart
  next_notMem : next ∉ inside
  choice_notMem_left : choice ∉ leftPart
  choice_notMem_right : choice ∉ rightPart
  choice_ne : choice ≠ leftEnd
  left_start : leftStart = leftEnd ∨ leftStart ∈ leftPart
  right_start : rightStart = next ∨ rightStart ∈ rightPart
  left_confined : arena.Confined leftPart leftEnd
  right_confined : arena.Confined rightPart next
  choice_empty : ∀ r, (arena.state choice).EmptyTo r ↔ r = leftStart ∨ r = rightStart
  choice_read : ∀ c r, ¬ (arena.state choice).ReadTo c r
  end_empty : ∀ r, (arena.state leftEnd).EmptyTo r ↔ r = next
  end_read : ∀ c r, ¬ (arena.state leftEnd).ReadTo c r

namespace Fork

variable {leftPart rightPart : Set Nat} {choice leftStart leftEnd rightStart next : Nat}

section

variable (h : Fork arena inside leftPart rightPart choice leftStart leftEnd rightStart next)

include h

theorem choice_mem : choice ∈ inside := (h.mem_inside choice).mpr (Or.inl rfl)

theorem end_mem : leftEnd ∈ inside := (h.mem_inside leftEnd).mpr (Or.inr (Or.inl rfl))

theorem left_subset : leftPart ⊆ inside :=
  fun q hq => (h.mem_inside q).mpr (Or.inr (Or.inr (Or.inl hq)))

theorem right_subset : rightPart ⊆ inside :=
  fun q hq => (h.mem_inside q).mpr (Or.inr (Or.inr (Or.inr hq)))

theorem confined : arena.Confined inside next := by
  intro q hq r hr
  rcases (h.mem_inside q).mp hq with rfl | rfl | hq | hq
  · rcases hr with hr | ⟨c, hr⟩
    · rcases (h.choice_empty r).mp hr with rfl | rfl
      · exact Or.inl (h.left_start.elim (fun heq => heq ▸ h.end_mem) fun hs => h.left_subset hs)
      · exact h.right_start.symm.imp (fun hs => h.right_subset hs) id
    · exact absurd hr (h.choice_read c r)
  · rcases hr with hr | ⟨c, hr⟩
    · exact Or.inr ((h.end_empty r).mp hr)
    · exact absurd hr (h.end_read c r)
  · rcases h.left_confined q hq r hr with hr | rfl
    · exact Or.inl (h.left_subset hr)
    · exact Or.inl h.end_mem
  · exact (h.right_confined q hq r hr).imp (fun hr => h.right_subset hr) id

/-- The end of the left part leads to what follows, and nowhere else. -/
theorem path_end (path : Path arena inside leftEnd text r) :
    text = [] ∧ (r = leftEnd ∨ r = next) := by
  cases path with
  | refl => exact ⟨rfl, Or.inl rfl⟩
  | empty _ hr path =>
    obtain rfl := (h.end_empty _).mp hr
    obtain ⟨rfl, rfl⟩ := path.eq_of_notMem h.next_notMem
    exact ⟨rfl, Or.inr rfl⟩
  | read _ hr _ => exact absurd hr (h.end_read _ _)

theorem path_left_iff : Path arena inside leftStart text next ↔
    Path arena leftPart leftStart text leftEnd := by
  constructor
  · intro path
    rcases h.left_start with rfl | hs
    · obtain ⟨rfl, -⟩ := h.path_end path
      exact .refl _
    · rcases path.exit h.left_confined hs with ⟨hr, -⟩ | ⟨u, v, rfl, hu, hv⟩
      · exact absurd (h.left_subset hr) h.next_notMem
      · obtain ⟨rfl, -⟩ := h.path_end hv
        rwa [List.append_nil]
  · intro path
    have hlast : Path arena inside leftEnd [] next :=
      .empty h.end_mem ((h.end_empty next).mpr rfl) (.refl _)
    simpa using (path.widen h.left_subset).trans hlast

theorem path_right_iff : Path arena inside rightStart text next ↔
    Path arena rightPart rightStart text next := by
  refine ⟨fun path => ?_, Path.widen h.right_subset⟩
  rcases h.right_start with rfl | hs
  · obtain ⟨rfl, -⟩ := path.eq_of_notMem h.next_notMem
    exact .refl _
  · exact (path.stays h.right_confined h.next_notMem hs).2

/-- A path through a fork is one through either of its parts. -/
theorem path_next_iff : Path arena inside choice text next ↔
    Path arena leftPart leftStart text leftEnd ∨ Path arena rightPart rightStart text next := by
  rw [← h.path_left_iff, ← h.path_right_iff]
  constructor
  · intro path
    cases path with
    | refl => exact absurd h.choice_mem h.next_notMem
    | empty _ hr path =>
      rcases (h.choice_empty _).mp hr with rfl | rfl
      · exact Or.inl path
      · exact Or.inr path
    | read _ hr _ => exact absurd hr (h.choice_read _ _)
  · rintro (path | path)
    · exact .empty h.choice_mem ((h.choice_empty _).mpr (Or.inl rfl)) path
    · exact .empty h.choice_mem ((h.choice_empty _).mpr (Or.inr rfl)) path

/-- No path leads back to the choice. -/
theorem path_choice_iff : Path arena inside choice text choice ↔ text = [] := by
  have hne : choice ≠ next := fun heq => h.next_notMem (heq ▸ h.choice_mem)
  have hend {text : List Char} : ¬ Path arena inside leftEnd text choice := fun path =>
    (h.path_end path).2.elim h.choice_ne hne
  refine ⟨fun path => ?_, fun heq => heq ▸ .refl _⟩
  cases path with
  | refl => rfl
  | empty _ hr path =>
    rcases (h.choice_empty _).mp hr with rfl | rfl
    · rcases h.left_start with rfl | hs
      · exact absurd path hend
      · rcases path.exit h.left_confined hs with ⟨hr, -⟩ | ⟨u, v, -, -, hv⟩
        · exact absurd hr h.choice_notMem_left
        · exact absurd hv hend
    · rcases h.right_start with rfl | hs
      · exact absurd (path.eq_of_notMem h.next_notMem).2 hne
      · exact ((path.stays h.right_confined h.next_notMem hs).1.elim
          (fun hr => absurd hr h.choice_notMem_right) fun heq => absurd heq hne)
  | read _ hr _ => exact absurd hr (h.choice_read _ _)

end

end Fork

end StateArena

end SentenceSearch
