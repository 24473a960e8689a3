import SentenceSearch.Proofs.Automaton.Trim
import SentenceSearch.Proofs.Pattern.Meaning

/-!
# Compiled automata are trim

The states of a part of a pattern can all be reached from where the part starts, and from each of
them the state that follows the part can be reached. So the automaton of a pattern is trim. The
steps that put it together are listed beside the automaton; characters are only ever added to states
that have just been made for them. There are at most two states for each symbol, and the accepting
one.

## Main definitions

* `Pattern.steps` — the steps that wire a part
* `Pattern.stateCount` — how many states a part takes
* `Pattern.Connected` — the states of a part lie on ways from its start to what follows it

## Main results

* `Pattern.foldl_steps` — wiring a part is taking its steps
* `Pattern.admits_steps` — they all apply
* `Pattern.connected` — every part is connected
* `Pattern.Spelled.stateCount_le` — a written part takes at most two states for each symbol
* `trim_compilePattern` — compiled automata are trim and small
-/

namespace SentenceSearch

open StateArena Relation

namespace Pattern

variable {table : SymbolTable} {pattern body left right : Pattern} {next : Nat} {mask : Mask}
  {arena arena' : StateArena} {f g : Fragment}

/-! ### The steps of a construction -/

/-- The steps that wire a part, in the order in which they are taken. -/
def steps (table : SymbolTable) : Pattern → Nat → Mask → StateArena → List WiringStep
  | .empty, _, _, _ => []
  | .literal c, next, mask, arena =>
    [.state, .char arena.size c ⟨next, mask ||| table.mask c⟩]
  | .wildcard, next, mask, arena => [.state, .any arena.size ⟨next, mask⟩]
  | .negated excluded, next, mask, _ => [.negated excluded ⟨next, mask⟩]
  | .group body, next, mask, arena => body.steps table next mask arena
  | .quantified .optional body, next, mask, arena =>
    body.steps table next mask arena ++
      [.epsilon (body.wire table next mask arena).start ⟨next, mask⟩]
  | .quantified .plus body, next, mask, arena | .quantified .star body, next, mask, arena =>
    let hub := arena.size
    let round := body.wire table hub mask (arena.push .blank)
    .state :: body.steps table hub mask (arena.push .blank) ++
      [.epsilon hub ⟨round.start, mask ||| round.arena.requiredMask round.start⟩,
        .epsilon hub ⟨next, mask⟩]
  | .sequence left right, next, mask, arena =>
    let after := right.wire table next mask arena
    right.steps table next mask arena ++ left.steps table after.start after.mask after.arena
  | .union left right, next, mask, arena =>
    let second := right.wire table next mask arena
    let leftEnd := second.arena.size
    let opened := (second.arena.push .blank).addEpsilon leftEnd ⟨next, mask⟩
    let first := left.wire table leftEnd mask opened
    let choice := first.arena.size
    -- The right side is there before the left one gets an end of its own.
    right.steps table next mask arena ++
      (.state :: .epsilon leftEnd ⟨next, mask⟩ :: left.steps table leftEnd mask opened ++
        [.state, .epsilon choice ⟨first.start, first.arena.requiredMask first.start⟩,
          .epsilon choice ⟨second.start, first.arena.requiredMask second.start⟩])

/-- Wiring a part is taking its steps. -/
theorem foldl_steps (table : SymbolTable) (pattern : Pattern) (next : Nat) (mask : Mask)
    (arena : StateArena) :
    (pattern.steps table next mask arena).foldl WiringStep.apply arena =
      (pattern.wire table next mask arena).arena := by
  induction pattern generalizing next mask arena with
  | empty | literal | wildcard | negated => rfl
  | group body ih => exact ih next mask arena
  | quantified q body ih =>
    cases q with
    | optional => simp only [steps, wire, List.foldl_append, ih, List.foldl, WiringStep.apply]
    | plus | star =>
      simp only [steps, wire, addLoop, List.foldl_append, ih, List.foldl, WiringStep.apply]
  | sequence left right ihLeft ihRight =>
    simp only [steps, wire, List.foldl_append, ihRight, ihLeft]
  | union left right ihLeft ihRight =>
    simp only [steps, wire, List.foldl_append, ihRight, ihLeft, List.foldl, WiringStep.apply]

/-- Every step applies: a state gets characters right after it has been made. -/
theorem admits_steps (table : SymbolTable) (pattern : Pattern) (next : Nat) (mask : Mask)
    (arena : StateArena) (h : next < arena.size) :
    arena.Admits (pattern.steps table next mask arena) := by
  have hblank (arena : StateArena) : ((arena.push .blank).state arena.size).IsStandard := by
    rw [state_push, if_pos rfl]
    exact State.isStandard_blank
  induction pattern generalizing next mask arena with
  | empty => trivial
  | literal | wildcard => exact ⟨trivial, ⟨by simp [WiringStep.apply], hblank arena⟩, trivial⟩
  | negated => exact ⟨trivial, trivial⟩
  | group body ih => exact ih next mask arena h
  | quantified q body ih =>
    have hsize : arena.size < (arena.push .blank).size := by simp
    have hhub : arena.size < (body.wire table arena.size mask (arena.push .blank)).arena.size :=
      Nat.lt_of_lt_of_le hsize (wired table body _ mask _ hsize).grows
    cases q with
    | optional =>
      rw [steps, admits_append, foldl_steps]
      exact ⟨ih next mask arena h, (wired table body next mask arena h).start_lt h, trivial⟩
    | plus | star =>
      rw [steps, admits_append, List.foldl_cons, WiringStep.apply, foldl_steps]
      refine ⟨⟨trivial, ih arena.size mask _ hsize⟩, hhub, ?_, trivial⟩
      exact hhub.trans_eq size_addEpsilon.symm
  | sequence left right ihLeft ihRight =>
    rw [steps, admits_append, foldl_steps]
    refine ⟨ihRight next mask arena h, ihLeft _ _ _ ?_⟩
    exact (wired table right next mask arena h).start_lt h
  | union left right ihLeft ihRight =>
    have hend (arena : StateArena) (t : Transition) :
        arena.size < ((arena.push .blank).addEpsilon arena.size t).size := by simp
    rw [steps, admits_append, foldl_steps, admits_append, List.foldl_cons, List.foldl_cons,
      WiringStep.apply, WiringStep.apply, foldl_steps]
    refine ⟨ihRight next mask arena h, ⟨trivial, ?_, ihLeft _ mask _ (hend _ _)⟩, trivial, ?_, ?_,
      trivial⟩
    · simp [WiringStep.Applies, WiringStep.apply]
    · simp [WiringStep.Applies, WiringStep.apply]
    · simp [WiringStep.Applies, WiringStep.apply]

/-! ### Ways through a part -/

/-- All states of a part are reached from its start, lead to the state that follows it and lead
nowhere else. -/
structure Connected (next : Nat) (arena : StateArena) (f : Fragment) : Prop where
  confined : ∀ q ∈ f.region arena, ∀ r, f.arena.Leads q r → r ∈ f.region arena ∨ r = next
  reached : ∀ q ∈ f.region arena, ReflTransGen f.arena.Leads f.start q
  completes : ∀ q ∈ f.region arena, ReflTransGen f.arena.Leads q next

/-- What follows a part is reached from its start. -/
theorem Connected.start_completes (hf : Connected next arena f)
    (hwired : Wired pattern next arena f) : ReflTransGen f.arena.Leads f.start next := by
  rcases hwired.start_eq_or_mem with heq | hmem
  · exact heq ▸ .refl
  · exact hf.completes _ hmem

/-- Ways stay where no state changes. -/
theorem reflTransGen_frame (hframe : ∀ q < arena.size, arena'.state q = arena.state q) {q r : Nat}
    (h : ReflTransGen arena.Leads q r) : ReflTransGen arena'.Leads q r :=
  ReflTransGen.mono (fun _ _ hleads => hleads.frame hframe) _ _ h

/-- A part without states is connected. -/
theorem connected_empty : Connected next arena ⟨next, mask, arena⟩ where
  confined _ hq := absurd hq.2 (Nat.not_lt_of_le hq.1)
  reached _ hq := absurd hq.2 (Nat.not_lt_of_le hq.1)
  completes _ hq := absurd hq.2 (Nat.not_lt_of_le hq.1)

/-- A part with one state is connected if its transitions lead to the state that follows. -/
theorem connected_single (hsize : arena'.size = arena.size + 1)
    (htargets : ∀ r, r ∈ (arena'.state arena.size).targets ↔ r = next) :
    Connected next arena ⟨arena.size, mask, arena'⟩ := by
  have hregion : ∀ q ∈ (⟨arena.size, mask, arena'⟩ : Fragment).region arena, q = arena.size := by
    rintro q ⟨hle, hlt⟩
    rw [hsize] at hlt
    omega
  refine ⟨?_, ?_, ?_⟩
  · intro q hq r hr
    rw [hregion q hq] at hr
    exact Or.inr ((htargets r).mp hr)
  · intro q hq
    rw [hregion q hq]
  · intro q hq
    rw [hregion q hq]
    exact .single ((htargets next).mpr rfl)

/-- A part that may be passed by is connected. -/
theorem connected_optional {mask' : Mask} (h : next < arena.size)
    (hwired : Wired body next arena f) (hbody : Connected next arena f) :
    Connected next arena ⟨f.start, mask', f.arena.addEpsilon f.start ⟨next, mask⟩⟩ := by
  have hstart := hwired.start_lt h
  have hways {q r : Nat} (hway : ReflTransGen f.arena.Leads q r) :
      ReflTransGen (f.arena.addEpsilon f.start ⟨next, mask⟩).Leads q r :=
    ReflTransGen.mono (fun _ _ hleads => hleads.addEpsilon hstart) _ _ hway
  have hregion : (⟨f.start, mask', f.arena.addEpsilon f.start ⟨next, mask⟩⟩ :
      Fragment).region arena = f.region arena := by simp [Fragment.region]
  refine ⟨?_, ?_, ?_⟩
  · rw [hregion]
    intro q hq r hr
    rcases (leads_addEpsilon hstart).mp hr with hold | ⟨-, -, rfl⟩
    · exact hbody.confined q hq r hold
    · exact Or.inr rfl
  · rw [hregion]
    exact fun q hq => hways (hbody.reached q hq)
  · rw [hregion]
    exact fun q hq => hways (hbody.completes q hq)

/-- The hub of a loop leads to the body and to what follows the loop. -/
theorem leads_addLoop {hub start q r : Nat} (hhub : hub < arena.size) :
    (addLoop hub start next mask arena).Leads q r ↔
      arena.Leads q r ∨ q = hub ∧ (hub ≠ start ∧ r = start ∨ hub ≠ next ∧ r = next) := by
  rw [addLoop, leads_addEpsilon (hhub.trans_eq size_addEpsilon.symm), leads_addEpsilon hhub,
    or_assoc, ← and_or_left]

/-- A loop is connected wherever it starts, as each round of it passes the hub. -/
theorem connected_addLoop {mask' : Mask} {start : Nat} (h : next < arena.size)
    (hwired : Wired body arena.size (arena.push .blank) f)
    (hbody : Connected arena.size (arena.push .blank) f)
    (hstart : start = arena.size ∨ start = f.start) :
    Connected next arena ⟨start, mask', addLoop arena.size f.start next mask f.arena⟩ := by
  have hgrows : arena.size + 1 ≤ f.arena.size := by simpa using hwired.grows
  have hhub : arena.size < f.arena.size := hgrows
  have hregion : ∀ q,
      q ∈ (⟨start, mask', addLoop arena.size f.start next mask f.arena⟩ : Fragment).region arena ↔
        q = arena.size ∨ q ∈ f.region (arena.push .blank) := by
    intro q
    rw [Fragment.region, size_addLoop]
    exact mem_loop_iff hgrows
  have hways {q r : Nat} (hway : ReflTransGen f.arena.Leads q r) :
      ReflTransGen (addLoop arena.size f.start next mask f.arena).Leads q r :=
    ReflTransGen.mono (fun _ _ hleads => (leads_addLoop hhub).mpr (Or.inl hleads)) _ _ hway
  have henter : ReflTransGen (addLoop arena.size f.start next mask f.arena).Leads
      arena.size f.start := by
    by_cases heq : arena.size = f.start
    · exact heq ▸ .refl
    · exact .single ((leads_addLoop hhub).mpr (Or.inr ⟨rfl, Or.inl ⟨heq, rfl⟩⟩))
  have hleave : (addLoop arena.size f.start next mask f.arena).Leads arena.size next :=
    (leads_addLoop hhub).mpr (Or.inr ⟨rfl, Or.inr ⟨Nat.ne_of_gt h, rfl⟩⟩)
  refine ⟨?_, ?_, ?_⟩
  · intro q hq r hr
    rw [hregion]
    rcases (leads_addLoop hhub).mp hr with hold | ⟨-, ⟨-, rfl⟩ | ⟨-, rfl⟩⟩
    · rcases (hregion q).mp hq with rfl | hq
      · -- The body does not touch the hub, which is without transitions until the loop is closed.
        rw [StateArena.Leads, hwired.frame _ (by simp), state_push, if_pos rfl] at hold
        exact absurd hold List.not_mem_nil
      · exact Or.inl (hbody.confined q hq r hold).symm
    · exact Or.inl hwired.start_eq_or_mem
    · exact Or.inr rfl
  · have hround : ReflTransGen (addLoop arena.size f.start next mask f.arena).Leads
        start arena.size := by
      rcases hstart with rfl | rfl
      · exact .refl
      · exact hways (hbody.start_completes hwired)
    intro q hq
    rcases (hregion q).mp hq with rfl | hq
    · exact hround
    · exact (hround.trans henter).trans (hways (hbody.reached q hq))
  · intro q hq
    rcases (hregion q).mp hq with rfl | hq
    · exact .single hleave
    · exact (hways (hbody.completes q hq)).tail hleave

/-- Two connected parts are connected if the first one is followed by the start of the second. -/
theorem connected_sequence (hright : Wired right next arena g)
    (hleft : Wired left g.start g.arena f) (hsecond : Connected next arena g)
    (hfirst : Connected g.start g.arena f) : Connected next arena f := by
  have hsplit : ∀ q ∈ f.region arena, q ∈ g.region arena ∨ q ∈ f.region g.arena := by
    intro q hq
    rcases Nat.lt_or_ge q g.arena.size with hlt | hle
    · exact Or.inl ⟨hq.1, hlt⟩
    · exact Or.inr ⟨hle, hq.2⟩
  -- Whatever starts in the left part goes on to the right one, also if the left part is empty.
  have henter : ReflTransGen f.arena.Leads f.start g.start := hfirst.start_completes hleft
  refine ⟨?_, ?_, ?_⟩
  · intro q hq r hr
    rcases hsplit q hq with hq | hq
    · rw [StateArena.Leads, hleft.frame q hq.2] at hr
      exact (hsecond.confined q hq r hr).imp_left fun hr => region_subset_of_right hleft hr
    · rcases hfirst.confined q hq r hr with hr | rfl
      · exact Or.inl (region_subset_of_left hright hr)
      · exact hright.start_eq_or_mem.symm.imp_left fun hr => region_subset_of_right hleft hr
  · intro q hq
    rcases hsplit q hq with hq | hq
    · exact henter.trans (reflTransGen_frame hleft.frame (hsecond.reached q hq))
    · exact hfirst.reached q hq
  · intro q hq
    rcases hsplit q hq with hq | hq
    · exact reflTransGen_frame hleft.frame (hsecond.completes q hq)
    · exact (hfirst.completes q hq).trans
        (reflTransGen_frame hleft.frame (hsecond.start_completes hright))

/-- The end of the left side of a union leads to what follows the union and nowhere else. -/
theorem leads_withLeftEnd {r : Nat} (h : next < arena.size) :
    (withLeftEnd arena next mask).Leads arena.size r ↔ r = next := by
  rw [withLeftEnd, leads_addEpsilon (by simp), StateArena.Leads, state_push, if_pos rfl,
    State.targets_blank]
  simp [Nat.ne_of_gt h]

/-- The start of a union leads to its sides and nowhere else. -/
theorem leads_withChoice {leftStart rightStart r : Nat} {leftMask rightMask : Mask}
    (hleft : leftStart < arena.size) (hright : rightStart < arena.size) :
    (withChoice arena leftStart rightStart leftMask rightMask).Leads arena.size r ↔
      r = leftStart ∨ r = rightStart := by
  rw [withChoice, leads_addEpsilon (by simp), leads_addEpsilon (by simp), StateArena.Leads,
    state_push, if_pos rfl, State.targets_blank]
  simp [Nat.ne_of_gt hleft, Nat.ne_of_gt hright]

section Union

variable {leftMask rightMask : Mask}

/-- The states of a union: its start, the end of its left side and the states of both sides. -/
theorem mem_union_iff (hright : Wired right next arena g)
    (hleft : Wired left g.arena.size (withLeftEnd g.arena next mask) f) {q : Nat} :
    q ∈ Set.Ico arena.size (f.arena.size + 1) ↔
      q = f.arena.size ∨ q = g.arena.size ∨ q ∈ g.region arena ∨
        q ∈ f.region (withLeftEnd g.arena next mask) := by
  have hgrows := hright.grows
  have hgrows' : g.arena.size + 1 ≤ f.arena.size := by simpa using hleft.grows
  simp only [Fragment.region, size_withLeftEnd, Set.mem_Ico]
  omega

/-- The end of the left side leads to what follows the union and nowhere else. -/
theorem leads_union_end {r : Nat} (hnext : next < g.arena.size)
    (hleft : Wired left g.arena.size (withLeftEnd g.arena next mask) f) :
    (withChoice f.arena f.start g.start leftMask rightMask).Leads g.arena.size r ↔ r = next := by
  have hgrows : g.arena.size + 1 ≤ f.arena.size := by simpa using hleft.grows
  rw [StateArena.Leads, state_withChoice_of_lt hgrows, hleft.frame _ (by simp)]
  exact leads_withLeftEnd hnext

/-- A choice between two connected parts is connected. -/
theorem connected_union {mask' : Mask} (h : next < arena.size)
    (hright : Wired right next arena g)
    (hleft : Wired left g.arena.size (withLeftEnd g.arena next mask) f)
    (hsecond : Connected next arena g)
    (hfirst : Connected g.arena.size (withLeftEnd g.arena next mask) f) :
    Connected next arena
      ⟨f.arena.size, mask', withChoice f.arena f.start g.start leftMask rightMask⟩ := by
  have hgrows : g.arena.size + 1 ≤ f.arena.size := by simpa using hleft.grows
  have hregion : (⟨f.arena.size, mask', withChoice f.arena f.start g.start leftMask rightMask⟩ :
      Fragment).region arena = Set.Ico arena.size (f.arena.size + 1) := by simp [Fragment.region]
  have hchoice (r : Nat) : (withChoice f.arena f.start g.start leftMask rightMask).Leads
      f.arena.size r ↔ r = f.start ∨ r = g.start :=
    leads_withChoice (hleft.start_lt (by simp)) (Nat.lt_trans (hright.start_lt h) hgrows)
  have hend (r : Nat) : (withChoice f.arena f.start g.start leftMask rightMask).Leads
      g.arena.size r ↔ r = next := leads_union_end (Nat.lt_of_lt_of_le h hright.grows) hleft
  -- Nothing is added to the states of the sides, so the ways through them are still there.
  have hways {q r : Nat} (hway : ReflTransGen f.arena.Leads q r) :
      ReflTransGen (withChoice f.arena f.start g.start leftMask rightMask).Leads q r :=
    reflTransGen_frame (fun q hq => state_withChoice_of_lt hq) hway
  have hways' {q r : Nat} (hway : ReflTransGen g.arena.Leads q r) :
      ReflTransGen (withChoice f.arena f.start g.start leftMask rightMask).Leads q r :=
    reflTransGen_frame (fun q hq => state_union hleft hq) hway
  have henter := ReflTransGen.single ((hchoice _).mpr (Or.inl rfl))
  have henter' := ReflTransGen.single ((hchoice _).mpr (Or.inr rfl))
  refine ⟨?_, ?_, ?_⟩
  · rw [hregion]
    intro q hq r hr
    rw [mem_union_iff hright hleft]
    rcases (mem_union_iff hright hleft).mp hq with rfl | rfl | hq | hq
    · rcases (hchoice r).mp hr with rfl | rfl
      · exact Or.inl (Or.inr (hleft.start_eq_or_mem.imp_right Or.inr))
      · exact hright.start_eq_or_mem.symm.imp_left fun hr => Or.inr (Or.inr (Or.inl hr))
    · exact Or.inr ((hend r).mp hr)
    · rw [StateArena.Leads, state_union hleft hq.2] at hr
      exact (hsecond.confined q hq r hr).imp_left fun hr => Or.inr (Or.inr (Or.inl hr))
    · rw [StateArena.Leads, state_withChoice_of_lt hq.2] at hr
      exact Or.inl (Or.inr ((hfirst.confined q hq r hr).symm.imp_right Or.inr))
  · rw [hregion]
    intro q hq
    rcases (mem_union_iff hright hleft).mp hq with rfl | rfl | hq | hq
    · exact .refl
    · exact henter.trans (hways (hfirst.start_completes hleft))
    · exact henter'.trans (hways' (hsecond.reached q hq))
    · exact henter.trans (hways (hfirst.reached q hq))
  · rw [hregion]
    intro q hq
    rcases (mem_union_iff hright hleft).mp hq with rfl | rfl | hq | hq
    · exact henter'.trans (hways' (hsecond.start_completes hright))
    · exact .single ((hend next).mpr rfl)
    · exact hways' (hsecond.completes q hq)
    · -- The left side is left through its own end.
      exact (hways (hfirst.completes q hq)).tail ((hend next).mpr rfl)

end Union

/-- Every part is connected. -/
theorem connected (table : SymbolTable) (pattern : Pattern) (next : Nat) (mask : Mask)
    (arena : StateArena) (h : next < arena.size) :
    Connected next arena (pattern.wire table next mask arena) := by
  induction pattern generalizing next mask arena with
  | empty => exact connected_empty
  | literal c =>
    refine connected_single (by simp) ?_
    intro r
    rw [addChar, state_modify (by simp), if_pos rfl, state_push, if_pos rfl]
    exact State.mem_targets_addChar_blank
  | wildcard =>
    refine connected_single (by simp) ?_
    intro r
    rw [addAny, state_modify (by simp), if_pos rfl, state_push, if_pos rfl,
      State.targets_addAny_blank, List.mem_singleton]
  | negated excluded =>
    refine connected_single (by simp) ?_
    intro r
    rw [state_push, if_pos rfl, State.targets_excluding, List.mem_singleton]
  | group body ih =>
    have hbody := ih next mask arena h
    exact ⟨hbody.confined, hbody.reached, hbody.completes⟩
  | quantified q body ih =>
    have hsize : arena.size < (arena.push .blank).size := by simp
    cases q with
    | optional => exact connected_optional h (wired table body _ _ _ h) (ih next mask arena h)
    | plus =>
      exact connected_addLoop h (wired table body _ _ _ hsize) (ih _ _ _ hsize) (Or.inr rfl)
    | star =>
      exact connected_addLoop h (wired table body _ _ _ hsize) (ih _ _ _ hsize) (Or.inl rfl)
  | sequence left right ihLeft ihRight =>
    have hright := wired table right next mask arena h
    have hstart := hright.start_lt h
    exact connected_sequence hright (wired table left _ _ _ hstart) (ihRight next mask arena h)
      (ihLeft _ _ _ hstart)
  | union left right ihLeft ihRight =>
    exact connected_union h (wired table right next mask arena h)
      (wired table left _ mask _ (by simp)) (ihRight next mask arena h) (ihLeft _ mask _ (by simp))

/-! ### The number of states -/

/-- How many states a part takes. -/
def stateCount : Pattern → Nat
  | .empty => 0
  | .literal _ | .wildcard | .negated _ => 1
  | .group body | .quantified .optional body => body.stateCount
  | .quantified .plus body | .quantified .star body => body.stateCount + 1
  | .sequence left right => left.stateCount + right.stateCount
  -- Besides its sides a union needs a start, and an end for the left side.
  | .union left right => left.stateCount + right.stateCount + 2

/-- Wiring a part adds its states. -/
theorem size_wire (table : SymbolTable) (pattern : Pattern) (next : Nat) (mask : Mask)
    (arena : StateArena) :
    (pattern.wire table next mask arena).arena.size = arena.size + pattern.stateCount := by
  induction pattern generalizing next mask arena with
  | empty => rfl
  | literal | wildcard | negated => simp [wire, stateCount]
  | group body ih => exact ih next mask arena
  | quantified q body ih =>
    cases q with
    | optional => exact size_addEpsilon.trans (ih next mask arena)
    | plus | star =>
      rw [wire, size_addLoop, ih, size_push, stateCount]
      omega
  | sequence left right ihLeft ihRight =>
    rw [wire, ihLeft, ihRight, stateCount]
    omega
  | union left right ihLeft ihRight =>
    simp only [wire, size_addEpsilon, size_push, ihLeft, ihRight, stateCount]
    omega

/-- A written part takes at most two states for each symbol. -/
theorem Spelled.stateCount_le {form : PatternForm} {u : List PatternToken}
    (h : Spelled form pattern u) : pattern.stateCount ≤ 2 * u.length := by
  induction h with
  | literal | wildcard | nil => simp [stateCount]
  | negated hne _ =>
    simp only [stateCount, List.length_cons]
    omega
  | group _ ih | optional _ ih | again _ ih =>
    simp only [stateCount, List.length_cons, List.length_append]
    omega
  | ofAtom _ ih | ofOption _ ih | ofBranch _ ih => exact ih
  | @repeated q _ _ hq _ ih =>
    rw [List.length_append, List.length_singleton]
    cases q with
    | optional => exact absurd rfl hq
    | plus | star =>
      rw [stateCount]
      omega
  | cons _ _ ihItem ihBody =>
    rw [stateCount, List.length_append]
    omega
  | @bare q _ _ hq _ ih =>
    rw [List.length_cons]
    cases q with
    | optional => exact absurd rfl hq
    | plus | star =>
      -- The operand that is left out is a state, and so is the hub.
      simp only [stateCount]
      omega
  | union _ _ _ _ ihLeft ihRight =>
    rw [stateCount, List.length_append, List.length_cons]
    omega

/-! ### Whole patterns -/

/-- The steps that put the automaton of a pattern together. The accepting state comes first. -/
def construction (table : SymbolTable) (pattern : Pattern) : List WiringStep :=
  .state :: pattern.steps table 0 0 (StateArena.empty.push .blank)

/-- The automaton of a pattern is the outcome of its construction. -/
theorem ofSteps_construction (table : SymbolTable) (pattern : Pattern) :
    ofSteps (pattern.construction table) =
      (pattern.wire table 0 0 (StateArena.empty.push .blank)).arena := by
  rw [ofSteps, construction, List.foldl_cons, WiringStep.apply, foldl_steps]

/-- Every step of a construction applies. -/
theorem admits_construction (table : SymbolTable) (pattern : Pattern) :
    StateArena.empty.Admits (pattern.construction table) :=
  have hsize : 0 < (StateArena.empty.push .blank).size := by simp
  ⟨trivial, admits_steps table pattern 0 0 _ hsize⟩

theorem stateCount_automaton (table : SymbolTable) (pattern : Pattern) :
    (pattern.automaton table).stateCount = pattern.stateCount + 1 := by
  have hsize := size_wire table pattern 0 0 (StateArena.empty.push .blank)
  rw [size_push, Nat.add_right_comm] at hsize
  exact hsize.trans (by simp [StateArena.empty, StateArena.size])

/-- The automaton of a pattern is trim. -/
theorem trim_automaton (table : SymbolTable) (pattern : Pattern) :
    (pattern.automaton table).Trim := by
  have hwired := wired_automaton table pattern
  have hconnected := connected table pattern 0 0 (StateArena.empty.push .blank) (by simp)
  have htidy := tidy_empty.foldl (admits_construction table pattern)
  rw [← ofSteps, ofSteps_construction] at htidy
  set f := pattern.wire table 0 0 (StateArena.empty.push .blank) with hf
  have hautomaton : pattern.automaton table = f.arena.finish f.start 0 := rfl
  rw [hautomaton]
  have hzero : 0 < f.arena.size := Nat.lt_of_lt_of_le (by simp) hwired.grows
  have haccept : f.arena.state 0 = .blank := by
    rw [hwired.frame 0 (by simp)]
    rfl
  have hstates : ∀ q < f.arena.size, q = 0 ∨ q ∈ f.region (StateArena.empty.push .blank) := by
    intro q hq
    rcases Nat.eq_zero_or_pos q with rfl | hpos
    · exact Or.inl rfl
    · exact Or.inr ⟨hpos, hq⟩
  refine ⟨hwired.start_lt (by simp), hzero, ?_, ?_, ?_, fun q => (htidy q).2, ?_, ?_⟩
  · intro q t ht
    have hleads : f.arena.Leads q t.target := List.mem_map_of_mem ht
    rcases hstates q hleads.lt with rfl | hq
    · rw [StateArena.Leads, haccept] at hleads
      exact absurd hleads List.not_mem_nil
    · rcases hconnected.confined q hq _ hleads with hr | hr
      · exact hr.2
      · exact hr ▸ hzero
  · exact (congrArg State.transitions haccept).trans rfl
  · intro q t ht heq
    exact (htidy q).1 (List.mem_map.mpr ⟨t, ht, heq⟩)
  · intro q hq
    rcases hstates q hq with rfl | hq
    · exact hconnected.start_completes hwired
    · exact hconnected.reached q hq
  · intro q hq
    rcases hstates q hq with rfl | hq
    · exact .refl
    · exact hconnected.completes q hq

end Pattern

/-- The tree of `(|[a])?b+`, an optional choice whose left side is empty. -/
private def optionalChoice : Pattern :=
  .sequence (.quantified .optional (.group
    (.union .empty (.sequence (.negated (.ofList ['a'])) .empty))))
    (.sequence (.quantified .plus (.literal 'b')) .empty)

private theorem read_optionalChoice : Pattern.read "(|[a])?b+".toList = .ok optionalChoice := by
  have hclass : Pattern.Spelled .item (.negated (.ofList ['a']))
      [.openClass, .plain 'a', .closeClass] :=
    .negated (List.cons_ne_nil 'a' []) fun c => by simpa using eq_comm
  have hchoice : Pattern.Spelled (.scope false)
      (.union .empty (.sequence (.negated (.ofList ['a'])) .empty))
      [.bar, .openClass, .plain 'a', .closeClass] :=
    .union (.ofBranch .nil) (.cons hclass .nil) rfl nofun
  have hloop : Pattern.Spelled .item (.quantified .plus (.literal 'b'))
      [.plain 'b', .quantifier .plus] :=
    .repeated (by decide) (.literal 'b')
  refine Pattern.read_eq_ok_iff.mpr ⟨by decide, ?_⟩
  have hsymbols : "(|[a])?b+".toList.map PatternToken.ofChar =
      [.openGroup, .bar, .openClass, .plain 'a', .closeClass, .closeGroup, .quantifier .optional,
        .plain 'b', .quantifier .plus] := by decide
  rw [hsymbols]
  exact .ofBranch (.cons (.ofOption (.optional (.group hchoice))) (.cons hloop .nil))

end SentenceSearch
