import Mathlib.Data.Finset.Card
import Mathlib.Data.Multiset.Basic
import SentenceSearch.Proofs.Search.Collection

/-!
# Explorations

A search goes from cursor to cursor. It keeps the cursors that it still has to look at, and the
spots that have been among them, so that none comes back. Where a spot tells which cursor it is
of, the search comes to every cursor that the moves lead to.

## Main definitions

* `Agenda` — the cursors that are pending and the spots that have been seen
* `Agenda.push`, `Agenda.pushAll` — add cursors, unless their spots have been seen
* `Tour` — from where a search starts, how it goes on and where it collects
* `Tour.Underway` — what holds while a search is under way

## Main results

* `Underway.expand`, `Underway.take` — what a step of a search preserves
* `Underway.mem_results_iff` — what a search has found when nothing is pending
-/

namespace SentenceSearch

/-- The cursors that a search still has to look at, and the spots that have been among them. -/
structure Agenda (C S : Type) where
  /-- The cursors to look at. -/
  pending : Multiset C
  /-- The spots that have been there. -/
  seen : Finset S

namespace Agenda

variable {C S : Type} [DecidableEq S] {spot : C → S} {agenda : Agenda C S} {moves : List C}
  {c d : C} {s : S}

/-- Add a cursor, unless its spot has been there. -/
def push (spot : C → S) (agenda : Agenda C S) (c : C) : Agenda C S :=
  if spot c ∈ agenda.seen then agenda else ⟨c ::ₘ agenda.pending, insert (spot c) agenda.seen⟩

/-- Add some cursors one after another. -/
def pushAll (spot : C → S) (agenda : Agenda C S) (moves : List C) : Agenda C S :=
  moves.foldl (push spot) agenda

theorem push_cases (spot : C → S) (agenda : Agenda C S) (c : C) :
    (spot c ∈ agenda.seen ∧ agenda.push spot c = agenda) ∨
      (spot c ∉ agenda.seen ∧
        agenda.push spot c = ⟨c ::ₘ agenda.pending, insert (spot c) agenda.seen⟩) := by
  by_cases h : spot c ∈ agenda.seen
  · exact Or.inl ⟨h, if_pos h⟩
  · exact Or.inr ⟨h, if_neg h⟩

theorem mem_seen_push : s ∈ (agenda.push spot c).seen ↔ s ∈ agenda.seen ∨ spot c = s := by
  rcases push_cases spot agenda c with ⟨h, heq⟩ | ⟨-, heq⟩
  · rw [heq]
    exact ⟨Or.inl, fun hs => hs.elim id fun hspot => hspot ▸ h⟩
  · rw [heq, Finset.mem_insert, eq_comm, or_comm]

theorem mem_seen_pushAll (spot : C → S) (agenda : Agenda C S) (moves : List C) :
    s ∈ (agenda.pushAll spot moves).seen ↔ s ∈ agenda.seen ∨ ∃ c ∈ moves, spot c = s := by
  induction moves generalizing agenda with
  | nil => simp [pushAll]
  | cons c moves ih =>
    rw [pushAll, List.foldl_cons]
    change s ∈ ((agenda.push spot c).pushAll spot moves).seen ↔ _
    rw [ih, mem_seen_push, or_assoc, List.exists_mem_cons_iff]

/-- The pending cursors stay, and each new one is among the moves. -/
theorem pending_pushAll (spot : C → S) (agenda : Agenda C S) (moves : List C) :
    (∀ d ∈ agenda.pending, d ∈ (agenda.pushAll spot moves).pending) ∧
      ∀ d ∈ (agenda.pushAll spot moves).pending, d ∈ agenda.pending ∨ d ∈ moves := by
  induction moves generalizing agenda with
  | nil => exact ⟨fun _ => id, fun _ => Or.inl⟩
  | cons c moves ih =>
    obtain ⟨hold, hnew⟩ := ih (agenda.push spot c)
    have hpush (d : C) : (d ∈ agenda.pending → d ∈ (agenda.push spot c).pending) ∧
        (d ∈ (agenda.push spot c).pending → d ∈ agenda.pending ∨ d = c) := by
      rcases push_cases spot agenda c with ⟨-, heq⟩ | ⟨-, heq⟩
      · rw [heq]
        exact ⟨id, Or.inl⟩
      · rw [heq]
        exact ⟨Multiset.mem_cons_of_mem, fun hd => (Multiset.mem_cons.mp hd).symm⟩
    refine ⟨fun d hd => hold d ((hpush d).1 hd), fun d hd => ?_⟩
    rcases hnew d hd with hd | hd
    · rcases (hpush d).2 hd with hd | rfl
      · exact Or.inl hd
      · exact Or.inr List.mem_cons_self
    · exact Or.inr (List.mem_cons_of_mem _ hd)

/-- A spot that is new belongs to a cursor that is pending. -/
theorem pending_of_seen_pushAll (hs : s ∈ (agenda.pushAll spot moves).seen) :
    s ∈ agenda.seen ∨ ∃ c ∈ (agenda.pushAll spot moves).pending, spot c = s := by
  induction moves generalizing agenda with
  | nil => exact Or.inl hs
  | cons c moves ih =>
    rcases ih hs with hs | hs
    · rcases push_cases spot agenda c with ⟨-, heq⟩ | ⟨-, heq⟩
      · exact Or.inl (heq ▸ hs)
      · rw [heq, Finset.mem_insert] at hs
        rcases hs with rfl | hs
        · have hpending : c ∈ (agenda.push spot c).pending := heq ▸ Multiset.mem_cons_self c _
          exact Or.inr ⟨c, (pending_pushAll spot (agenda.push spot c) moves).1 c hpending, rfl⟩
        · exact Or.inl hs
    · exact Or.inr hs

/-- Each cursor that is added takes one more spot. -/
theorem card_pushAll (spot : C → S) (agenda : Agenda C S) (moves : List C) :
    (agenda.pushAll spot moves).pending.card + agenda.seen.card =
      agenda.pending.card + (agenda.pushAll spot moves).seen.card := by
  induction moves generalizing agenda with
  | nil => rfl
  | cons c moves ih =>
    have hrest := ih (agenda.push spot c)
    change ((agenda.push spot c).pushAll spot moves).pending.card + agenda.seen.card =
      agenda.pending.card + ((agenda.push spot c).pushAll spot moves).seen.card
    rcases push_cases spot agenda c with ⟨-, heq⟩ | ⟨hnew, heq⟩
    · rw [heq] at hrest ⊢
      exact hrest
    · rw [heq] at hrest ⊢
      rw [Finset.card_insert_of_notMem hnew, Multiset.card_cons] at hrest
      omega

end Agenda

section Spots

variable {S : Type} [DecidableEq S] {cmp : S → S → Ordering} [Std.TransCmp cmp]
  [Std.LawfulEqCmp cmp] {spots : Std.ExtTreeSet S cmp} {s : S}

/-- The spots that a search keeps, as a finite set. -/
def spotsOf (spots : Std.ExtTreeSet S cmp) : Finset S := spots.toList.toFinset

theorem mem_spotsOf : s ∈ spotsOf spots ↔ spots.contains s = true := by
  rw [spotsOf, List.mem_toFinset, Std.ExtTreeSet.mem_toList, Std.ExtTreeSet.mem_iff_contains]

theorem spotsOf_insert : spotsOf (spots.insert s) = insert s (spotsOf spots) := by
  ext t
  rw [spotsOf, List.mem_toFinset, Std.ExtTreeSet.mem_toList, Std.ExtTreeSet.mem_insert,
    Std.LawfulEqCmp.compare_eq_iff_eq, Finset.mem_insert, spotsOf, List.mem_toFinset,
    Std.ExtTreeSet.mem_toList, eq_comm]

omit [Std.LawfulEqCmp cmp] in
theorem spotsOf_empty : spotsOf (∅ : Std.ExtTreeSet S cmp) = ∅ := by
  simp [spotsOf]

end Spots

/-- From where a search starts, how it goes on from a cursor, and at which cursors it collects
below which node. -/
structure Tour (C S : Type) where
  /-- What tells cursors apart. -/
  spot : C → S
  /-- The first cursors. -/
  starts : C → Prop
  /-- The cursors that come after a cursor. -/
  moves : C → List C
  /-- Whether the search collects at a cursor. -/
  final : C → Prop
  /-- The node below which it collects. -/
  target : C → Nat

namespace Tour

variable {C S : Type} [DecidableEq S] {tour : Tour C S} {pending : Multiset C} {seen : Finset S}
  {agenda : Agenda C S} {done : C → Prop} {c d : C}

/-- The moves lead to a cursor. -/
inductive Reached (tour : Tour C S) : C → Prop
  | start {c : C} (h : tour.starts c) : Reached tour c
  | move {c d : C} (h : Reached tour c) (hd : d ∈ tour.moves c) : Reached tour d

/-- The spot of a cursor tells which one it is, and each spot is among finitely many. -/
structure Told (tour : Tour C S) (spots : Finset S) : Prop where
  inj : ∀ c d, tour.Reached c → tour.Reached d → tour.spot c = tour.spot d → c = d
  mem : ∀ c, tour.Reached c → tour.spot c ∈ spots

/-- What the agenda and the cursors that are done with have in common: the moves lead to them, and
whatever a move leads to from one that is done with has been seen. -/
structure Explores (tour : Tour C S) (agenda : Agenda C S) (done : C → Prop) : Prop where
  reached : ∀ c, c ∈ agenda.pending ∨ done c → tour.Reached c
  starts : ∀ c, tour.starts c → c ∈ agenda.pending ∨ done c
  seen : ∀ s ∈ agenda.seen, ∃ c, tour.spot c = s ∧ (c ∈ agenda.pending ∨ done c)
  closed : ∀ c, done c → ∀ d ∈ tour.moves c, tour.spot d ∈ agenda.seen

/-- A search starts with all of its first cursors on the agenda. -/
theorem explores_starts {spots : Finset S} (htold : tour.Told spots) {starts : List C}
    (hstarts : ∀ c, tour.starts c ↔ c ∈ starts) :
    tour.Explores (Agenda.pushAll tour.spot ⟨0, ∅⟩ starts) fun _ => False := by
  have hreached {c : C} (hc : c ∈ (Agenda.pushAll tour.spot ⟨0, ∅⟩ starts).pending) :
      tour.Reached c := by
    rcases (Agenda.pending_pushAll tour.spot ⟨0, ∅⟩ starts).2 c hc with hc | hc
    · exact absurd hc (Multiset.notMem_zero c)
    · exact .start ((hstarts c).mpr hc)
  have hpending {s : S} (hs : s ∈ (Agenda.pushAll tour.spot ⟨0, ∅⟩ starts).seen) :
      ∃ c ∈ (Agenda.pushAll tour.spot ⟨0, ∅⟩ starts).pending, tour.spot c = s :=
    (Agenda.pending_of_seen_pushAll hs).resolve_left (Finset.notMem_empty s)
  refine ⟨fun c hc => hreached (hc.resolve_right id), fun c hc => Or.inl ?_, fun s hs => ?_,
    fun c hc => hc.elim⟩
  · -- Another cursor with the same spot would be the same cursor.
    have hseen := (Agenda.mem_seen_pushAll tour.spot ⟨0, ∅⟩ starts).mpr
      (Or.inr ⟨c, (hstarts c).mp hc, rfl⟩)
    obtain ⟨d, hd, hspot⟩ := hpending hseen
    exact htold.inj d c (hreached hd) (.start hc) hspot ▸ hd
  · obtain ⟨c, hc, hspot⟩ := hpending hs
    exact ⟨c, hspot, Or.inl hc⟩

/-- A cursor is done with once its moves are on the agenda. -/
theorem Explores.step (h : tour.Explores ⟨c ::ₘ pending, seen⟩ done) :
    tour.Explores (Agenda.pushAll tour.spot ⟨pending, seen⟩ (tour.moves c))
      fun d => done d ∨ d = c := by
  have hc := h.reached c (Or.inl (Multiset.mem_cons_self c pending))
  obtain ⟨hold, hnew⟩ := Agenda.pending_pushAll tour.spot ⟨pending, seen⟩ (tour.moves c)
  -- What was pending is so still, or it is the cursor that is done with.
  have hpop {d : C} (hd : d ∈ c ::ₘ pending ∨ done d) :
      d ∈ (Agenda.pushAll tour.spot ⟨pending, seen⟩ (tour.moves c)).pending ∨
        (done d ∨ d = c) := by
    rcases hd with hd | hd
    · rcases Multiset.mem_cons.mp hd with rfl | hd
      · exact Or.inr (Or.inr rfl)
      · exact Or.inl (hold d hd)
    · exact Or.inr (Or.inl hd)
  refine ⟨fun d hd => ?_, fun d hd => hpop (h.starts d hd), fun s hs => ?_,
    fun d hd d' hd' => ?_⟩
  · rcases hd with hd | hd | rfl
    · rcases hnew d hd with hd | hd
      · exact h.reached d (Or.inl (Multiset.mem_cons_of_mem hd))
      · exact .move hc hd
    · exact h.reached d (Or.inr hd)
    · exact hc
  · rcases Agenda.pending_of_seen_pushAll hs with hs | ⟨d, hd, rfl⟩
    · obtain ⟨d, rfl, hd⟩ := h.seen s hs
      exact ⟨d, rfl, hpop hd⟩
    · exact ⟨d, rfl, Or.inl hd⟩
  · rw [Agenda.mem_seen_pushAll]
    rcases hd with hd | rfl
    · exact Or.inl (h.closed d hd d' hd')
    · exact Or.inr ⟨d', hd', rfl⟩

omit [DecidableEq S] in
/-- When nothing is pending, all cursors that the moves lead to are done with. -/
theorem Explores.done_iff {spots : Finset S} (h : tour.Explores agenda done)
    (hpending : agenda.pending = 0) (htold : tour.Told spots) : done c ↔ tour.Reached c := by
  have hpending {d : C} (hd : d ∈ agenda.pending ∨ done d) : done d :=
    hd.resolve_left (hpending ▸ Multiset.notMem_zero d)
  refine ⟨fun hc => h.reached c (Or.inr hc), fun hc => ?_⟩
  -- The induction is on how the moves lead to the cursor: what is closed under them has it.
  induction hc with
  | start hstart => exact hpending (h.starts _ hstart)
  | move hc hmove ih =>
    obtain ⟨d, hspot, hd⟩ := h.seen _ (h.closed _ ih _ hmove)
    have hdone := hpending hd
    exact htold.inj _ _ (h.reached d (Or.inr hdone)) (.move hc hmove) hspot ▸ hdone

omit [DecidableEq S] in
theorem Explores.card_seen_le {spots : Finset S} (h : tour.Explores agenda done)
    (htold : tour.Told spots) : agenda.seen.card ≤ spots.card := by
  refine Finset.card_le_card fun s hs => ?_
  obtain ⟨c, rfl, hc⟩ := h.seen s hs
  exact htold.mem c (h.reached c hc)

/-! ### Searches -/

variable {P : Type} [Ord P] [Std.TransOrd P] {source : TreeSource Id P}
  {collection : Collection P} {fuel : Nat}

/-- What holds while a search is under way: the payloads below the final cursors that are done with
have been collected, and the fuel is enough for all spots that have not been seen. -/
structure Underway (tour : Tour C S) (source : TreeSource Id P) (spots : Finset S) (fuel : Nat)
    (agenda : Agenda C S) (collection : Collection P) (done : C → Prop) : Prop where
  explores : tour.Explores agenda done
  holds : Collection.Holds source (fun r => ∃ c, done c ∧ tour.final c ∧ tour.target c = r) []
    collection
  fuel : agenda.pending.card + spots.card ≤ fuel + agenda.seen.card

variable {spots : Finset S}

/-- A step to the moves of a cursor that is not final. -/
theorem Underway.expand
    (h : tour.Underway source spots (fuel + 1) ⟨c ::ₘ pending, seen⟩ collection done)
    (hfinal : ¬ tour.final c) :
    tour.Underway source spots fuel (Agenda.pushAll tour.spot ⟨pending, seen⟩ (tour.moves c))
      collection fun d => done d ∨ d = c where
  explores := h.explores.step
  holds := by
    refine h.holds.congr fun r => exists_congr fun d => ?_
    constructor
    · rintro ⟨hd | rfl, hd', hr⟩
      · exact ⟨hd, hd', hr⟩
      · exact absurd hd' hfinal
    · exact fun ⟨hd, hr⟩ => ⟨Or.inl hd, hr⟩
  fuel := by
    have hcard := Agenda.card_pushAll tour.spot ⟨pending, seen⟩ (tour.moves c)
    have hfuel := h.fuel
    dsimp only at hcard hfuel
    rw [Multiset.card_cons] at hfuel
    omega

/-- A step that collects below a final cursor, from where the search does not go on. -/
theorem Underway.take [Std.LawfulEqOrd P] {nodes : Finset Nat} {limits : SearchLimits}
    (h : tour.Underway source spots (fuel + 1) ⟨c ::ₘ pending, seen⟩ collection done)
    (hbounded : source.Bounded nodes) (hmax : limits.maxResults = 0) (hfinal : tour.final c)
    (hmoves : tour.moves c = []) :
    tour.Underway source spots fuel ⟨pending, seen⟩
      (collection.collect source limits (tour.target c)).run fun d => done d ∨ d = c where
  explores := by
    have hstep := h.explores.step
    rwa [hmoves] at hstep
  holds := by
    refine (h.holds.collect hbounded hmax (tour.target c)).congr fun r => ?_
    constructor
    · rintro ⟨d, hd | rfl, hd', hr⟩
      · exact Or.inl ⟨d, hd, hd', hr⟩
      · exact Or.inr hr.symm
    · rintro (⟨d, hd, hd', hr⟩ | hr)
      · exact ⟨d, Or.inl hd, hd', hr⟩
      · exact ⟨c, Or.inr rfl, hfinal, hr.symm⟩
  fuel := by
    have hfuel := h.fuel
    dsimp only at hfuel ⊢
    rw [Multiset.card_cons] at hfuel
    omega

omit [DecidableEq S] in
/-- Without fuel nothing is pending. -/
theorem Underway.pending_eq_zero (h : tour.Underway source spots 0 agenda collection done)
    (htold : tour.Told spots) : agenda.pending = 0 := by
  have hfuel := h.fuel
  have hcard := h.explores.card_seen_le htold
  exact Multiset.card_eq_zero.mp (by omega)

omit [DecidableEq S] in
/-- When nothing is pending the search has found what is below the final cursors that the moves
lead to. -/
theorem Underway.mem_results_iff (h : tour.Underway source spots fuel agenda collection done)
    (hpending : agenda.pending = 0) (htold : tour.Told spots) {p : P} :
    p ∈ collection.results ↔ ∃ c v, tour.Reached c ∧ tour.final c ∧
      source.Below (tour.target c) v ∧ p ∈ (source.payloadsAt v).run := by
  rw [h.holds.mem_results_iff]
  constructor
  · rintro ⟨r, v, ⟨c, hc, hfinal, rfl⟩, hbelow, hp⟩
    exact ⟨c, v, h.explores.reached c (Or.inr hc), hfinal, hbelow, hp⟩
  · rintro ⟨c, v, hc, hfinal, hbelow, hp⟩
    exact ⟨_, v, ⟨c, (h.explores.done_iff hpending htold).mpr hc, hfinal, rfl⟩, hbelow, hp⟩

end Tour

end SentenceSearch
