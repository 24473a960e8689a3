import SentenceSearch.Proofs.Automaton.Runs
import SentenceSearch.Proofs.Pattern.Wiring

/-!
# Masks never hold back a match

Every transition of a compiled pattern needs only buckets that occur in what a match still has to
read. So each text of the pattern has a run on which every transition finds what it needs, even
when nothing is available but the buckets of the text that is left.

## Main definitions

* `StateArena.Extends` — every transition is still there and needs no more than before
* `Pattern.Proper` — no union has a trivial right side
* `Pattern.Gated` — each text of a pattern has a run on which nothing more is needed

## Main results

* `Pattern.gated_wire` — the fragment of every proper pattern is like that
-/

namespace SentenceSearch

open StateArena Computability

namespace StateArena

variable {arena arena' arena'' : StateArena} {available : List Char → Mask} {q r s : Nat}
  {text left : List Char}

/-- A run over states that are still being wired. -/
abbrev Run (arena : StateArena) (available : List Char → Mask) :
    Nat → List Char → Nat → List Char → Prop :=
  Automaton.Run (arena.finish 0 0) available

theorem run_finish_iff {start accept : Nat} :
    (arena.finish start accept).Run available q text r left ↔
      arena.Run available q text r left := by
  constructor
  all_goals
    intro run
    induction run with
    | refl => exact .refl _ _
    | epsilon t ht allowed _ ih => exact .epsilon t ht allowed ih
    | consume t ht allowed _ ih => exact .consume t ht allowed ih

/-- Every transition is still there and needs no more than before. -/
structure Extends (arena arena' : StateArena) : Prop where
  empty : ∀ q, ∀ t ∈ (arena.state q).epsilons, ∃ u ∈ (arena'.state q).epsilons,
    u.target = t.target ∧ u.mask.allows t.mask = true
  read : ∀ q c, (arena.state q).consuming c ⊆ (arena'.state q).consuming c

theorem Extends.trans (h : Extends arena arena') (h' : Extends arena' arena'') :
    Extends arena arena'' where
  empty q t ht := by
    obtain ⟨u, hu, htarget, hallows⟩ := h.empty q t ht
    obtain ⟨v, hv, htarget', hallows'⟩ := h'.empty q u hu
    exact ⟨v, hv, htarget'.trans htarget, Mask.allows_trans hallows' hallows⟩
  read q c := List.Subset.trans (h.read q c) (h'.read q c)

/-- An arena extends another one when the states that were there have not changed. -/
theorem extends_of_frame (h : ∀ q < arena.size, arena'.state q = arena.state q) :
    Extends arena arena' where
  empty q t ht := by
    by_cases hq : q < arena.size
    · exact ⟨t, h q hq ▸ ht, rfl, Mask.allows_refl _⟩
    · simp [state_of_size_le (Nat.le_of_not_lt hq), State.blank] at ht
  read q c := by
    by_cases hq : q < arena.size
    · rw [h q hq]
      exact List.Subset.refl _
    · rw [state_of_size_le (Nat.le_of_not_lt hq)]
      simp

theorem extends_addEpsilon (t : Transition) (h : q < arena.size) :
    Extends arena (arena.addEpsilon q t) where
  empty r u hu := by
    rw [state_addEpsilon h]
    split
    · exact State.addEpsilon_keeps hu
    · exact ⟨u, hu, rfl, Mask.allows_refl _⟩
  read r c := by
    rw [state_addEpsilon h]
    split
    · rw [State.consuming_addEpsilon]
      exact List.Subset.refl _
    · exact List.Subset.refl _

/-- A run stays one when transitions are added or need less. -/
theorem Extends.run (h : Extends arena arena') (run : arena.Run available q text r left) :
    arena'.Run available q text r left := by
  induction run with
  | refl => exact .refl _ _
  | epsilon t ht allowed _ ih =>
    obtain ⟨u, hu, htarget, hallows⟩ := h.empty _ t ht
    exact .epsilon u hu (Mask.allows_trans hallows allowed) (htarget ▸ ih)
  | consume t ht allowed _ ih => exact .consume t (h.read _ _ ht) allowed ih

/-- The empty transition that was added can be taken where its buckets are available. -/
theorem run_addEpsilon {t : Transition} (h : q < arena.size) (ht : q ≠ t.target)
    (hallows : t.mask.allows (available text) = true) :
    (arena.addEpsilon q t).Run available q text t.target text := by
  obtain ⟨u, hu, htarget, hmask⟩ := State.addEpsilon_adds (s := arena.state q) (t := t)
  have hmem : u ∈ ((arena.addEpsilon q t).state q).epsilons := by
    rw [state_addEpsilon h, if_pos ⟨rfl, ht⟩]
    exact hu
  exact .epsilon u hmem (Mask.allows_trans hmask hallows) (htarget ▸ .refl _ _)

/-- What every transition out of a state needs is available where a run leaves the state. -/
theorem requiredMask_allows (run : arena.Run available q text r left) (h : q ≠ r) :
    (arena.requiredMask q).allows (available text) = true := by
  cases run with
  | refl => exact absurd rfl h
  | epsilon t ht allowed _ =>
    exact Mask.allows_trans (State.requiredMask_allows (State.epsilons_subset_transitions _ ht))
      allowed
  | consume t ht allowed _ =>
    exact Mask.allows_trans
      (State.requiredMask_allows (State.consuming_subset_transitions _ _ ht)) allowed

end StateArena

namespace Pattern

variable {table : SymbolTable} {pattern body left right : Pattern} {next : Nat}
  {mask : Mask} {arena : StateArena} {f g : Fragment} {text tail : List Char}

/-- No union has a trivial right side. -/
def Proper : Pattern → Prop
  | .empty | .literal _ | .wildcard | .negated _ => True
  | .group body => body.Proper
  | .quantified _ body => body.Proper
  | .sequence left right => left.Proper ∧ right.Proper
  | .union left right => left.Proper ∧ right.Proper ∧ right.isTrivial = false

/-- What is needed to the left of a part occurs in every text of the part and what follows. -/
theorem maskAcross_allows (htext : text ∈ pattern.language)
    (hmask : mask.allows (table.maskOf tail) = true) :
    (pattern.maskAcross table mask).allows (table.maskOf (text ++ tail)) = true := by
  induction pattern generalizing text mask tail with
  | literal c =>
    rw [language] at htext
    obtain rfl : text = [c] := htext
    rw [maskAcross, Mask.or_allows_iff]
    exact ⟨Mask.allows_trans hmask (SymbolTable.maskOf_allows_append _ _ _),
      Mask.allows_or_left _ _⟩
  | sequence left right ihLeft ihRight =>
    rw [language, Language.mem_mul] at htext
    obtain ⟨u, hu, v, hv, rfl⟩ := htext
    rw [maskAcross, List.append_assoc]
    exact ihLeft hu (ihRight hv hmask)
  | empty | wildcard | negated | group | quantified | union =>
    exact Mask.allows_trans hmask (SymbolTable.maskOf_allows_append _ _ _)

/-- Each text of the pattern has a run over the fragment on which each transition needs only
buckets that occur in the text that is left, where `mask` is needed at its end. -/
def Gated (table : SymbolTable) (pattern : Pattern) (next : Nat) (mask : Mask) (f : Fragment) :
    Prop :=
  ∀ text ∈ pattern.language, ∀ tail, mask.allows (table.maskOf tail) = true →
    f.arena.Run table.maskOf f.start (text ++ tail) next tail

/-- A transition that reads one character of the text. -/
theorem run_single {q : Nat} {c : Char} {t : Transition} (hread : t ∈ (arena.state q).consuming c)
    (hmask : t.mask.allows (table.maskOf (c :: tail)) = true) :
    arena.Run table.maskOf q ([c] ++ tail) t.target tail :=
  .consume t hread hmask (.refl _ _)

/-- The run over an optional part, or the transition that passes it by. -/
theorem gated_optional {mask' : Mask} (hstart : f.start < f.arena.size)
    (hbody : Gated table body next mask f) :
    Gated table (.quantified .optional body) next mask
      ⟨f.start, mask', f.arena.addEpsilon f.start ⟨next, mask⟩⟩ := by
  intro text htext tail hmask
  rw [language, Language.mem_add, Language.mem_one] at htext
  rcases htext with htext | rfl
  · exact (extends_addEpsilon _ hstart).run (hbody text htext tail hmask)
  · by_cases hs : f.start = next
    · exact hs ▸ .refl _ _
    · exact run_addEpsilon (t := ⟨next, mask⟩) hstart hs hmask

/-! ### Loops -/

theorem extends_addLoop {hub start : Nat} (hhub : hub < arena.size) :
    Extends arena (addLoop hub start next mask arena) :=
  (extends_addEpsilon _ hhub).trans (extends_addEpsilon _ (by simpa using hhub))

/-- The transitions of a loop lead from its hub over any number of rounds to what follows. -/
theorem run_addLoop {hub : Nat} (hhub : hub < f.arena.size) (hnext : next ≠ hub)
    (hbody : Gated table body hub mask f) (hmask : mask.allows (table.maskOf tail) = true)
    (htext : text ∈ body.language∗) :
    (addLoop hub f.start next mask f.arena).Run table.maskOf hub (text ++ tail) next tail := by
  -- The induction is on the rounds of the loop.
  obtain ⟨parts, rfl, hparts⟩ := Language.mem_kstar.mp htext
  clear htext
  induction parts with
  | nil => exact run_addEpsilon (t := ⟨next, mask⟩) (by simpa using hhub) hnext.symm hmask
  | cons part parts ih =>
    have hrest : mask.allows (table.maskOf (parts.flatten ++ tail)) = true :=
      Mask.allows_trans hmask (SymbolTable.maskOf_allows_append _ _ _)
    have hround := hbody part (hparts part (by simp)) _ hrest
    rw [List.flatten_cons, List.append_assoc]
    refine Automaton.Run.trans ?_
      (((extends_addLoop hhub).run hround).trans (ih fun y hy => hparts y (by simp [hy])))
    by_cases hs : f.start = hub
    · exact hs ▸ .refl _ _
    · -- The way into a round needs what all transitions of its start need.
      have hneeded : (mask ||| f.arena.requiredMask f.start).allows
          (table.maskOf (part ++ (parts.flatten ++ tail))) = true :=
        Mask.or_allows_iff.mpr ⟨Mask.allows_trans hrest (SymbolTable.maskOf_allows_append _ _ _),
          requiredMask_allows hround hs⟩
      exact (extends_addEpsilon _ (by simpa using hhub)).run
        (run_addEpsilon hhub (Ne.symm hs) hneeded)

theorem gated_star {hub : Nat} {mask' : Mask} (hhub : hub < f.arena.size) (hnext : next ≠ hub)
    (hbody : Gated table body hub mask f) :
    Gated table (.quantified .star body) next mask
      ⟨hub, mask', addLoop hub f.start next mask f.arena⟩ := by
  intro text htext tail hmask
  rw [language] at htext
  exact run_addLoop hhub hnext hbody hmask htext

/-- A plus reads its body once before it comes to the hub. -/
theorem gated_plus {hub : Nat} {mask' : Mask} (hhub : hub < f.arena.size) (hnext : next ≠ hub)
    (hbody : Gated table body hub mask f) :
    Gated table (.quantified .plus body) next mask
      ⟨f.start, mask', addLoop hub f.start next mask f.arena⟩ := by
  intro text htext tail hmask
  rw [language, Language.mem_mul] at htext
  obtain ⟨u, hu, v, hv, rfl⟩ := htext
  have hfirst := hbody u hu (v ++ tail)
    (Mask.allows_trans hmask (SymbolTable.maskOf_allows_append _ v tail))
  rw [List.append_assoc]
  exact ((extends_addLoop hhub).run hfirst).trans (run_addLoop hhub hnext hbody hmask hv)

/-! ### Fragments side by side -/

/-- The run over the left part ends where what is needed across the right part is there. -/
theorem gated_sequence (hextends : Extends g.arena f.arena)
    (hneeded : g.mask = right.maskAcross table mask) (hright : Gated table right next mask g)
    (hleft : Gated table left g.start g.mask f) :
    Gated table (.sequence left right) next mask f := by
  intro text htext tail hmask
  rw [language, Language.mem_mul] at htext
  obtain ⟨u, hu, v, hv, rfl⟩ := htext
  have hmiddle : g.mask.allows (table.maskOf (v ++ tail)) = true :=
    hneeded ▸ maskAcross_allows hv hmask
  rw [List.append_assoc]
  exact (hleft u hu (v ++ tail) hmiddle).trans (hextends.run (hright v hv tail hmask))

theorem extends_withLeftEnd : Extends arena (withLeftEnd arena next mask) :=
  extends_of_frame fun _ => state_withLeftEnd_of_lt

theorem extends_withChoice {leftStart rightStart : Nat} {leftMask rightMask : Mask} :
    Extends arena (withChoice arena leftStart rightStart leftMask rightMask) :=
  extends_of_frame fun _ => state_withChoice_of_lt

/-- A choice can be made for a side whose start has what it needs. -/
theorem run_withChoice {leftStart rightStart : Nat} {leftMask rightMask : Mask}
    (hleft : leftStart < arena.size) (hright : rightStart < arena.size) :
    (leftMask.allows (table.maskOf text) = true →
      (withChoice arena leftStart rightStart leftMask rightMask).Run table.maskOf
        arena.size text leftStart text) ∧
    (rightMask.allows (table.maskOf text) = true →
      (withChoice arena leftStart rightStart leftMask rightMask).Run table.maskOf
        arena.size text rightStart text) := by
  refine ⟨fun hmask => (extends_addEpsilon _ (by simp)).run ?_, fun hmask => ?_⟩
  · exact run_addEpsilon (t := ⟨leftStart, leftMask⟩) (by simp) (Nat.ne_of_gt hleft) hmask
  · exact run_addEpsilon (t := ⟨rightStart, rightMask⟩) (by simp) (Nat.ne_of_gt hright) hmask

/-- The run over a side of a union begins with the choice for it, which needs what the side needs at
its start. -/
theorem gated_union {mask' : Mask} (h : next < arena.size) (htrivial : right.isTrivial = false)
    (hrightWired : Wired right next arena g)
    (hleftWired : Wired left g.arena.size (withLeftEnd g.arena next mask) f)
    (hright : Gated table right next mask g) (hleft : Gated table left g.arena.size mask f) :
    Gated table (.union left right) next mask ⟨f.arena.size, mask', withChoice f.arena f.start
      g.start (f.arena.requiredMask f.start) (f.arena.requiredMask g.start)⟩ := by
  intro text htext tail hmask
  have hend : next < g.arena.size := Nat.lt_of_lt_of_le h hrightWired.grows
  have hgrows : g.arena.size + 1 ≤ f.arena.size := by simpa using hleftWired.grows
  have hleftStart : f.start < f.arena.size := hleftWired.start_lt (by simp)
  have hrightStart : g.start < f.arena.size := Nat.lt_trans (hrightWired.start_lt h) hgrows
  have hextends : Extends (withLeftEnd g.arena next mask) f.arena :=
    extends_of_frame hleftWired.frame
  rw [language, Language.mem_add] at htext
  rcases htext with htext | htext
  · -- The left side goes through its own end.
    have hrun : f.arena.Run table.maskOf f.start (text ++ tail) next tail :=
      (hleft text htext tail hmask).trans
        (hextends.run (run_addEpsilon (t := ⟨next, mask⟩) (by simp) (Nat.ne_of_gt hend) hmask))
    have hne : f.start ≠ next := by
      rcases hleftWired.start_eq_or_mem with heq | hmem
      · omega
      · have hge : g.arena.size + 1 ≤ f.start := by simpa using hmem.1
        omega
    exact ((run_withChoice hleftStart hrightStart).1 (requiredMask_allows hrun hne)).trans
      (extends_withChoice.run hrun)
  · -- The right side was wired before the left one, which has only added states.
    have hrun : f.arena.Run table.maskOf g.start (text ++ tail) next tail :=
      (extends_withLeftEnd.trans hextends).run (hright text htext tail hmask)
    have hne : g.start ≠ next := fun heq =>
      not_mem_region h (heq ▸ hrightWired.start_mem htrivial)
    exact ((run_withChoice hleftStart hrightStart).2 (requiredMask_allows hrun hne)).trans
      (extends_withChoice.run hrun)

/-- Each text of a proper pattern has a run over the states that are wired for the pattern. -/
theorem gated_wire (table : SymbolTable) (pattern : Pattern) (hproper : pattern.Proper)
    (next : Nat) (mask : Mask) (arena : StateArena) (h : next < arena.size) :
    Gated table pattern next mask (pattern.wire table next mask arena) := by
  induction pattern generalizing next mask arena with
  | empty =>
    intro text htext tail hmask
    rw [language, Language.mem_one] at htext
    exact htext ▸ .refl _ _
  | literal c =>
    intro text htext tail hmask
    rw [language] at htext
    obtain rfl : text = [c] := htext
    refine run_single (t := ⟨next, mask ||| table.mask c⟩) ?_ ?_
    · simp only [wire, addChar]
      rw [state_modify (by simp), if_pos rfl, state_push, if_pos rfl,
        State.consuming_addChar_blank, if_pos rfl]
      exact List.mem_singleton_self _
    · rw [Mask.or_allows_iff]
      exact ⟨Mask.allows_trans hmask (SymbolTable.maskOf_allows_append _ [c] tail),
        Mask.allows_or_left _ _⟩
  | wildcard =>
    intro text htext tail hmask
    rw [language] at htext
    obtain ⟨c, rfl⟩ := htext
    refine run_single (t := ⟨next, mask⟩) ?_
      (Mask.allows_trans hmask (SymbolTable.maskOf_allows_append _ [c] tail))
    simp only [wire, addAny]
    rw [state_modify (by simp), if_pos rfl, state_push, if_pos rfl, State.consuming_addAny_blank]
    exact List.mem_singleton_self _
  | negated excluded =>
    intro text htext tail hmask
    rw [language] at htext
    obtain ⟨c, hc, rfl⟩ := htext
    refine run_single (t := ⟨next, mask⟩) ?_
      (Mask.allows_trans hmask (SymbolTable.maskOf_allows_append _ [c] tail))
    simp only [wire]
    rw [state_push, if_pos rfl, State.consuming_excluding, if_neg hc]
    exact List.mem_singleton_self _
  | group body ih =>
    intro text htext tail hmask
    rw [language] at htext
    exact ih hproper next mask arena h text htext tail hmask
  | quantified q body ih =>
    have hsize : arena.size < (arena.push .blank).size := by simp
    have hhub : arena.size < (body.wire table arena.size mask (arena.push .blank)).arena.size :=
      Nat.lt_of_lt_of_le hsize (wired table body _ mask _ hsize).grows
    have hround := ih hproper arena.size mask (arena.push .blank) hsize
    cases q with
    | optional =>
      exact gated_optional ((wired table body next mask arena h).start_lt h)
        (ih hproper next mask arena h)
    | plus => exact gated_plus hhub (Nat.ne_of_lt h) hround
    | star => exact gated_star hhub (Nat.ne_of_lt h) hround
  | sequence left right ihLeft ihRight =>
    have hstart := (wired table right next mask arena h).start_lt h
    exact gated_sequence (extends_of_frame (wired table left _ _ _ hstart).frame)
      (wire_mask table right next mask arena) (ihRight hproper.2 next mask arena h)
      (ihLeft hproper.1 _ _ _ hstart)
  | union left right ihLeft ihRight =>
    exact gated_union h hproper.2.2 (wired table right next mask arena h)
      (wired table left _ mask _ (by simp)) (ihRight hproper.2.1 next mask arena h)
      (ihLeft hproper.1 _ mask _ (by simp))

end Pattern

end SentenceSearch
