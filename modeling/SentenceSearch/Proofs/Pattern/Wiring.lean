import SentenceSearch.Pattern.Compile
import SentenceSearch.Proofs.Automaton.Path
import SentenceSearch.Proofs.Pattern.Denotation

/-!
# What the states of a pattern read

The states that are wired for a pattern form a region of their own. Every path through it ends at
the state that follows the pattern, and what it reads on the way is exactly the loose language of
the pattern. Masks play no role here.

## Main definitions

* `Pattern.Wired` — a fragment reads what its pattern stands for

## Main results

* `Pattern.wired` — every fragment does
-/

namespace SentenceSearch

open StateArena Computability

namespace Pattern

variable {pattern left right body : Pattern} {next : Nat} {arena : StateArena}
  {f g : Fragment} {text : List Char}

/-- The states that a fragment has added. -/
def Fragment.region (arena : StateArena) (f : Fragment) : Set Nat := Set.Ico arena.size f.arena.size

/-- The states of a fragment are a region of their own, whose paths from the start to the state
`next` read what the pattern stands for. -/
structure Wired (pattern : Pattern) (next : Nat) (arena : StateArena) (f : Fragment) : Prop where
  grows : arena.size ≤ f.arena.size
  frame : ∀ q < arena.size, f.arena.state q = arena.state q
  start_eq : pattern.isTrivial = true → f.start = next
  start_mem : pattern.isTrivial = false → f.start ∈ f.region arena
  confined : f.arena.Confined (f.region arena) next
  reads : ∀ text, Path f.arena (f.region arena) f.start text next ↔ text ∈ pattern.looseLanguage
  returns : ∀ text, Path f.arena (f.region arena) f.start text f.start ↔ text ∈ pattern.returns

theorem not_mem_region (h : next < arena.size) : next ∉ f.region arena := fun hmem =>
  Nat.not_lt_of_le hmem.1 h

theorem Wired.start_eq_or_mem (hf : Wired pattern next arena f) :
    f.start = next ∨ f.start ∈ f.region arena := by
  cases htrivial : pattern.isTrivial with
  | true => exact Or.inl (hf.start_eq htrivial)
  | false => exact Or.inr (hf.start_mem htrivial)

theorem Wired.start_lt (hf : Wired pattern next arena f) (h : next < arena.size) :
    f.start < f.arena.size := by
  rcases hf.start_eq_or_mem with heq | hmem
  · exact heq ▸ Nat.lt_of_lt_of_le h hf.grows
  · exact hmem.2

/-- A fragment without states is left at once. -/
theorem wired_empty (mask : Mask) (h : next < arena.size) :
    Wired .empty next arena ⟨next, mask, arena⟩ where
  grows := Nat.le_refl _
  frame _ _ := rfl
  start_eq _ := rfl
  start_mem htrivial := by simp [isTrivial] at htrivial
  confined q hq := absurd hq.2 (Nat.not_lt_of_le hq.1)
  reads text := by
    rw [looseLanguage, Language.mem_one]
    exact Path.nil_iff_of_notMem (not_mem_region (f := ⟨next, mask, arena⟩) h)
  returns text := by
    rw [Pattern.returns, Language.mem_one]
    exact Path.nil_iff_of_notMem (not_mem_region (f := ⟨next, mask, arena⟩) h)

/-- One state that reads a character and goes on to `next` reads the texts of one such character. -/
theorem wired_single (chars : Set Char) (h : next < arena.size)
    (htrivial : pattern.isTrivial = false) (hstart : f.start = arena.size)
    (hsize : f.arena.size = arena.size + 1)
    (hframe : ∀ q < arena.size, f.arena.state q = arena.state q)
    (hempty : ∀ r, ¬ (f.arena.state arena.size).EmptyTo r)
    (hread : ∀ c r, (f.arena.state arena.size).ReadTo c r ↔ c ∈ chars ∧ r = next)
    (hloose : pattern.looseLanguage = {text | ∃ c ∈ chars, text = [c]})
    (hreturns : pattern.returns = 1) : Wired pattern next arena f := by
  have hregion : ∀ q, q ∈ f.region arena ↔ q = arena.size := by
    intro q
    simp only [Fragment.region, Set.mem_Ico, hsize]
    omega
  have hnext : next ∉ f.region arena := not_mem_region h
  have hmem : arena.size ∈ f.region arena := (hregion _).mpr rfl
  refine ⟨by omega, hframe, by simp [htrivial], fun _ => hstart ▸ hmem, ?_, ?_, ?_⟩
  · rintro q hq r (hr | ⟨c, hr⟩)
    · rw [(hregion q).mp hq] at hr
      exact absurd hr (hempty r)
    · rw [(hregion q).mp hq] at hr
      exact Or.inr ((hread c r).mp hr).2
  · intro text
    rw [hstart, hloose]
    constructor
    · intro path
      cases path with
      | refl => exact absurd hmem hnext
      | empty _ hr _ => exact absurd hr (hempty _)
      | read _ hr path =>
        obtain ⟨hc, rfl⟩ := (hread _ _).mp hr
        obtain ⟨rfl, -⟩ := path.eq_of_notMem hnext
        exact ⟨_, hc, rfl⟩
    · rintro ⟨c, hc, rfl⟩
      exact .read hmem ((hread c next).mpr ⟨hc, rfl⟩) (.refl _)
  · intro text
    rw [hstart, hreturns, Language.mem_one]
    constructor
    · intro path
      cases path with
      | refl => rfl
      | empty _ hr _ => exact absurd hr (hempty _)
      | read _ hr path =>
        obtain ⟨-, rfl⟩ := (hread _ _).mp hr
        obtain ⟨-, hback⟩ := path.eq_of_notMem hnext
        exact absurd (hback ▸ hmem) hnext
    · rintro rfl
      exact .refl _

/-- A part without states starts at the state that follows it, so that nothing is added. -/
theorem wired_optional_of_isTrivial {mask' : Mask} (hbody : Wired body next arena f)
    (htrivial : body.isTrivial = true) :
    Wired (.quantified .optional body) next arena ⟨f.start, mask', f.arena⟩ := by
  obtain ⟨hloose, hreturns⟩ := looseLanguage_of_isTrivial htrivial
  refine ⟨hbody.grows, hbody.frame, fun _ => hbody.start_eq htrivial, fun hn => ?_,
    hbody.confined, fun text => ?_, fun text => ?_⟩
  · simp [isTrivial, htrivial] at hn
  · rw [looseLanguage, hloose, hreturns, Language.add_self, ← hloose]
    exact hbody.reads text
  · rw [Pattern.returns]
    exact hbody.returns text

/-- An optional part can also be left from its start. -/
theorem wired_optional {mask mask' : Mask} (h : next < arena.size)
    (hbody : Wired body next arena f) :
    Wired (.quantified .optional body) next arena
      ⟨f.start, mask', f.arena.addEpsilon f.start ⟨next, mask⟩⟩ := by
  cases htrivial : body.isTrivial with
  | true =>
    have hsame : f.arena.addEpsilon f.start ⟨next, mask⟩ = f.arena := by
      simp [addEpsilon, hbody.start_eq htrivial]
    rw [hsame]
    exact wired_optional_of_isTrivial hbody htrivial
  | false =>
    have hstart := hbody.start_mem htrivial
    have hnext : next ∉ f.region arena := not_mem_region h
    have hne : f.start ≠ next := fun heq => hnext (heq ▸ hstart)
    have hregion : (⟨f.start, mask', f.arena.addEpsilon f.start ⟨next, mask⟩⟩ :
        Fragment).region arena = f.region arena := by simp [Fragment.region]
    refine ⟨by simpa using hbody.grows, fun q hq => ?_, fun ht => ?_, fun _ => ?_, ?_,
      fun text => ?_, fun text => ?_⟩
    · have hqs : q ≠ f.start := fun heq => Nat.not_lt_of_le hstart.1 (heq ▸ hq)
      rw [state_addEpsilon hstart.2, if_neg fun hand => hqs hand.1]
      exact hbody.frame q hq
    · simp [isTrivial, htrivial] at ht
    · rw [hregion]
      exact hstart
    · rw [hregion]
      exact hbody.confined.addEpsilon hstart.2 hne
    · rw [hregion, looseLanguage, Language.mem_add, ← hbody.reads, ← hbody.returns]
      exact (path_addEpsilon_iff hstart.2 hstart hnext).trans
        (or_congr_right (and_iff_right rfl))
    · rw [hregion, Pattern.returns, ← hbody.returns]
      exact (path_addEpsilon_iff hstart.2 hstart hnext).trans
        (or_iff_left fun hend => hne hend.1)

/-! ### Loops -/

section Loop

variable {mask mask' : Mask}

/-- The states of a loop: the hub that comes first and the states of the body. -/
theorem mem_loop_iff (hgrows : arena.size + 1 ≤ f.arena.size) {q : Nat} :
    q ∈ Set.Ico arena.size f.arena.size ↔
      q = arena.size ∨ q ∈ f.region (arena.push .blank) := by
  simp only [Fragment.region, size_push, Set.mem_Ico]
  omega

theorem state_addLoop_of_ne {hub start q : Nat} (hhub : hub < arena.size) (hq : q ≠ hub) :
    (addLoop hub start next mask arena).state q = arena.state q := by
  rw [addLoop, state_addEpsilon (by simpa using hhub), if_neg (by simp [hq]),
    state_addEpsilon hhub, if_neg (by simp [hq])]

theorem emptyTo_addLoop {hub start r : Nat} (hhub : hub < arena.size) (hnext : next ≠ hub) :
    ((addLoop hub start next mask arena).state hub).EmptyTo r ↔
      ((arena.state hub).EmptyTo r ∨ (r = start ∧ start ≠ hub)) ∨ r = next := by
  rw [addLoop, state_addEpsilon (by simpa using hhub), if_pos ⟨rfl, hnext.symm⟩,
    State.emptyTo_addEpsilon, state_addEpsilon hhub]
  by_cases hs : start = hub
  · simp [hs]
  · simp [hs, Ne.symm hs, State.emptyTo_addEpsilon]

theorem readTo_addLoop {hub start r : Nat} {c : Char} (hhub : hub < arena.size) :
    ((addLoop hub start next mask arena).state hub).ReadTo c r ↔
      (arena.state hub).ReadTo c r := by
  rw [addLoop, state_addEpsilon (by simpa using hhub), state_addEpsilon hhub]
  simp only [State.ReadTo]
  split <;> split <;> simp

@[simp] theorem size_addLoop {hub start : Nat} :
    (addLoop hub start next mask arena).size = arena.size := by simp [addLoop]

theorem state_loop_of_ne (hbody : Wired body arena.size (arena.push .blank) f) {q : Nat}
    (hq : q ≠ arena.size) :
    (addLoop arena.size f.start next mask f.arena).state q = f.arena.state q :=
  state_addLoop_of_ne (by have := hbody.grows; simp at this; omega) hq

/-- A body that is wired to its own hub forms a loop with it. -/
theorem hub_addLoop (mask : Mask) (h : next < arena.size)
    (hbody : Wired body arena.size (arena.push .blank) f) :
    Hub (addLoop arena.size f.start next mask f.arena) (Set.Ico arena.size f.arena.size)
      (f.region (arena.push .blank)) arena.size f.start next := by
  have hgrows : arena.size + 1 ≤ f.arena.size := by simpa using hbody.grows
  have hhub : arena.size < f.arena.size := by omega
  have hblank : f.arena.state arena.size = .blank := by
    rw [hbody.frame _ (by simp), state_push, if_pos rfl]
  have hnotMem : arena.size ∉ f.region (arena.push .blank) := not_mem_region (by simp)
  refine ⟨fun q => mem_loop_iff hgrows, hnotMem, fun hmem => Nat.not_lt_of_le hmem.1 h,
    ?_, ?_, fun r => ?_, fun c r => ?_⟩
  · exact hbody.start_eq_or_mem
  · intro q hq r hr
    rw [state_loop_of_ne hbody fun heq => hnotMem (heq ▸ hq)] at hr
    exact hbody.confined q hq r hr
  · rw [emptyTo_addLoop hhub (Nat.ne_of_lt h), hblank]
    simp
  · rw [readTo_addLoop hhub, hblank]
    simp

theorem path_loop_iff (hbody : Wired body arena.size (arena.push .blank) f) {q r : Nat} :
    Path (addLoop arena.size f.start next mask f.arena) (f.region (arena.push .blank)) q text r ↔
      Path f.arena (f.region (arena.push .blank)) q text r :=
  Path.congr fun q hq => state_loop_of_ne hbody fun heq =>
    not_mem_region (f := f) (by simp) (heq ▸ hq)

/-- One round of a loop reads the body once. -/
theorem round_addLoop (next : Nat) (mask : Mask)
    (hbody : Wired body arena.size (arena.push .blank) f) :
    Hub.round (addLoop arena.size f.start next mask f.arena) (f.region (arena.push .blank))
      arena.size f.start = body.looseLanguage := by
  ext text
  exact (path_loop_iff hbody).trans (hbody.reads text)

theorem confined_addLoop (h : next < arena.size)
    (hbody : Wired body arena.size (arena.push .blank) f) :
    (addLoop arena.size f.start next mask f.arena).Confined
      (Set.Ico arena.size f.arena.size) next := by
  have hhub := hub_addLoop mask h hbody
  intro q hq r hr
  rcases (hhub.mem_inside q).mp hq with rfl | hq
  · rcases hr with hr | ⟨c, hr⟩
    · rcases (hhub.hub_empty r).mp hr with ⟨rfl, hne⟩ | rfl
      · exact Or.inl (hhub.subset (hhub.start_mem.resolve_left hne))
      · exact Or.inr rfl
    · exact absurd hr (hhub.hub_read c r)
  · rcases hhub.confined q hq r hr with hr | rfl
    · exact Or.inl (hhub.subset hr)
    · exact Or.inl hhub.mem

theorem frame_addLoop (hbody : Wired body arena.size (arena.push .blank) f) {q : Nat}
    (hq : q < arena.size) :
    (addLoop arena.size f.start next mask f.arena).state q = arena.state q := by
  rw [state_loop_of_ne hbody (Nat.ne_of_lt hq), hbody.frame q (by simp; omega), state_push,
    if_neg (Nat.ne_of_lt hq)]

/-- The states of a loop are wired for a pattern if what is read from a start is what the pattern
stands for. -/
theorem wired_addLoop {start : Nat} (h : next < arena.size)
    (hbody : Wired body arena.size (arena.push .blank) f) (htrivial : pattern.isTrivial = false)
    (hstart : start ∈ Set.Ico arena.size f.arena.size)
    (hreads : ∀ text, Path (addLoop arena.size f.start next mask f.arena)
      (Set.Ico arena.size f.arena.size) start text next ↔ text ∈ pattern.looseLanguage)
    (hreturns : ∀ text, Path (addLoop arena.size f.start next mask f.arena)
      (Set.Ico arena.size f.arena.size) start text start ↔ text ∈ pattern.returns) :
    Wired pattern next arena ⟨start, mask', addLoop arena.size f.start next mask f.arena⟩ := by
  have hgrows : arena.size + 1 ≤ f.arena.size := by simpa using hbody.grows
  have hregion : (⟨start, mask', addLoop arena.size f.start next mask f.arena⟩ :
      Fragment).region arena = Set.Ico arena.size f.arena.size := by simp [Fragment.region]
  refine ⟨?_, fun q => frame_addLoop hbody, by simp [htrivial], fun _ => hregion ▸ hstart,
    hregion ▸ confined_addLoop h hbody, hregion ▸ hreads, hregion ▸ hreturns⟩
  simp only [size_addLoop]
  omega

/-- A star starts at its hub. -/
theorem wired_star (h : next < arena.size)
    (hbody : Wired body arena.size (arena.push .blank) f) :
    Wired (.quantified .star body) next arena
      ⟨arena.size, mask', addLoop arena.size f.start next mask f.arena⟩ := by
  have hhub := hub_addLoop mask h hbody
  refine wired_addLoop h hbody rfl hhub.mem (fun text => ?_) fun text => ?_
  · rw [hhub.path_next_iff, round_addLoop next mask hbody, looseLanguage]
  · rw [hhub.path_hub_iff, round_addLoop next mask hbody, Pattern.returns]

/-- From the start of the body a loop reads the body once and then goes on from the hub. -/
theorem path_next_of_body_iff (h : next < arena.size)
    (hbody : Wired body arena.size (arena.push .blank) f) :
    Path (addLoop arena.size f.start next mask f.arena) (Set.Ico arena.size f.arena.size)
      f.start text next ↔ text ∈ body.looseLanguage * body.looseLanguage∗ := by
  have hhub := hub_addLoop mask h hbody
  have hround := round_addLoop next mask hbody
  cases htrivial : body.isTrivial with
  | true =>
    rw [hbody.start_eq htrivial] at hround hhub ⊢
    rw [hhub.path_next_iff, hround, (looseLanguage_of_isTrivial htrivial).1, one_mul]
  | false =>
    have hnext : next ∉ f.region (arena.push .blank) := fun hmem =>
      hhub.next_notMem (hhub.subset hmem)
    rw [Path.through hhub.confined hhub.subset (hbody.start_mem htrivial) hnext, Language.mem_mul]
    constructor
    · rintro ⟨u, v, rfl, hu, hv⟩
      rw [hhub.path_next_iff, hround] at hv
      exact ⟨u, (hround ▸ hu : u ∈ body.looseLanguage), v, hv, rfl⟩
    · rintro ⟨u, hu, v, hv, rfl⟩
      rw [← hround] at hu hv
      exact ⟨u, v, rfl, hu, hhub.path_next_iff.mpr hv⟩

/-- From the hub of a loop the start of the body is come to after any number of rounds. -/
theorem path_body_of_hub_iff (h : next < arena.size)
    (hbody : Wired body arena.size (arena.push .blank) f) (htrivial : body.isTrivial = false) :
    Path (addLoop arena.size f.start next mask f.arena) (Set.Ico arena.size f.arena.size)
      arena.size text f.start ↔ text ∈ body.looseLanguage∗ * body.returns := by
  have hhub := hub_addLoop mask h hbody
  have hstart := hbody.start_mem htrivial
  -- After the last round the path ends in the body, as the body does not start at the hub.
  rw [hhub.path_iff, round_addLoop next mask hbody, Language.mem_mul]
  constructor
  · rintro ⟨u, v, rfl, hu, (⟨-, heq | heq⟩ | ⟨-, hlast⟩)⟩
    · exact absurd (heq ▸ hstart) hhub.hub_notMem
    · exact absurd (hhub.subset (heq ▸ hstart)) hhub.next_notMem
    · exact ⟨u, hu, v, (hbody.returns v).mp ((path_loop_iff hbody).mp hlast), rfl⟩
  · rintro ⟨u, hu, v, hv, rfl⟩
    exact ⟨u, v, rfl, hu,
      Or.inr ⟨hstart, (path_loop_iff hbody).mpr ((hbody.returns v).mpr hv)⟩⟩

/-- From the start of the body a loop comes back there within the body, or by way of the hub. -/
theorem path_body_iff (h : next < arena.size)
    (hbody : Wired body arena.size (arena.push .blank) f) :
    Path (addLoop arena.size f.start next mask f.arena) (Set.Ico arena.size f.arena.size)
      f.start text f.start ↔ text ∈ body.looseLanguage∗ * body.returns := by
  have hhub := hub_addLoop mask h hbody
  have hround := round_addLoop next mask hbody
  cases htrivial : body.isTrivial with
  | true =>
    rw [hbody.start_eq htrivial] at hround hhub ⊢
    rw [hhub.path_hub_iff, hround, (looseLanguage_of_isTrivial htrivial).2, mul_one]
  | false =>
    -- Either the path stays in the body, or the first part of it completes a round.
    rw [← Language.one_add_self_mul_kstar_eq_kstar, add_mul, one_mul, mul_assoc,
      Language.mem_add, Language.mem_mul]
    constructor
    · intro path
      rcases path.exit hhub.confined (hbody.start_mem htrivial) with ⟨-, path⟩ | ⟨u, v, rfl, hu, hv⟩
      · exact Or.inl ((hbody.returns text).mp ((path_loop_iff hbody).mp path))
      · exact Or.inr ⟨u, (hround ▸ hu : u ∈ body.looseLanguage), v,
          (path_body_of_hub_iff h hbody htrivial).mp hv, rfl⟩
    · rintro (hmem | ⟨u, hu, v, hv, rfl⟩)
      · exact ((path_loop_iff hbody).mpr ((hbody.returns text).mpr hmem)).widen hhub.subset
      · rw [← hround] at hu
        have hu : Path (addLoop arena.size f.start next mask f.arena)
            (f.region (arena.push .blank)) f.start u arena.size := hu
        exact (hu.widen hhub.subset).trans ((path_body_of_hub_iff h hbody htrivial).mpr hv)

/-- A plus starts at its body. -/
theorem wired_plus (h : next < arena.size)
    (hbody : Wired body arena.size (arena.push .blank) f) :
    Wired (.quantified .plus body) next arena
      ⟨f.start, mask', addLoop arena.size f.start next mask f.arena⟩ := by
  have hhub := hub_addLoop mask h hbody
  refine wired_addLoop h hbody rfl ((hhub.mem_inside _).mpr hhub.start_mem) (fun text => ?_)
    fun text => ?_
  · rw [path_next_of_body_iff h hbody, looseLanguage]
  · rw [path_body_iff h hbody, Pattern.returns]

end Loop

/-! ### Fragments side by side -/

section Parts

variable {arena' : StateArena} {inside : Set Nat}

/-- A fragment reads the same when more states are around it, as long as the state that follows it
is not among them. -/
theorem Wired.path_iff (hf : Wired pattern next arena f) (hsub : f.region arena ⊆ inside)
    (hnext : next ∉ inside) (hsame : ∀ q ∈ f.region arena, arena'.state q = f.arena.state q)
    {r : Nat} (hr : r = next ∨ r = f.start) :
    Path arena' inside f.start text r ↔ Path f.arena (f.region arena) f.start text r := by
  rw [← Path.congr hsame]
  refine ⟨fun path => ?_, Path.widen hsub⟩
  rcases hf.start_eq_or_mem with heq | hmem
  · rw [heq] at path ⊢
    obtain ⟨rfl, rfl⟩ := path.eq_of_notMem hnext
    exact .refl _
  · exact (path.stays (hf.confined.congr hsame) hnext hmem).2

/-- What is reached from a fragment lies in it or is the state that follows it. -/
theorem Wired.mem_of_path (hf : Wired pattern next arena f) (hnext : next ∉ inside)
    (hsame : ∀ q ∈ f.region arena, arena'.state q = f.arena.state q) {r : Nat}
    (path : Path arena' inside f.start text r) : r ∈ f.region arena ∨ r = next := by
  rcases hf.start_eq_or_mem with heq | hmem
  · rw [heq] at path
    exact Or.inr (path.eq_of_notMem hnext).2
  · exact (path.stays (hf.confined.congr hsame) hnext hmem).1

theorem region_subset_of_left (hright : Wired right next arena g) :
    f.region g.arena ⊆ f.region arena := fun _ hq => ⟨Nat.le_trans hright.grows hq.1, hq.2⟩

theorem region_subset_of_right (hleft : Wired left g.start g.arena f) :
    g.region arena ⊆ f.region arena := fun _ hq => ⟨hq.1, Nat.lt_of_lt_of_le hq.2 hleft.grows⟩

/-- The states of a sequence are left through those of its right part. -/
theorem confined_sequence (hright : Wired right next arena g)
    (hleft : Wired left g.start g.arena f) : f.arena.Confined (f.region arena) next := by
  have hsub : g.region arena ⊆ f.region arena := region_subset_of_right hleft
  intro q hq r hr
  -- The left part leads to the start of the right one, which may be `next` already.
  by_cases hmem : q ∈ g.region arena
  · have hconfined := hright.confined.congr fun q hq => hleft.frame q hq.2
    exact (hconfined q hmem r hr).imp (fun hr => hsub hr) id
  · have hq' : q ∈ f.region g.arena := ⟨Nat.le_of_not_lt fun hlt => hmem ⟨hq.1, hlt⟩, hq.2⟩
    rcases hleft.confined q hq' r hr with hr | rfl
    · exact Or.inl (region_subset_of_left hright hr)
    · exact hright.start_eq_or_mem.symm.imp (fun hs => hsub hs) id

/-- From the start of its left part a sequence reads the left part and then the right one. -/
theorem path_sequence_iff (h : next < arena.size) (hright : Wired right next arena g)
    (hleft : Wired left g.start g.arena f) :
    Path f.arena (f.region arena) f.start text next ↔
      text ∈ left.looseLanguage * right.looseLanguage := by
  have hnext : next ∉ f.region arena := not_mem_region h
  have hsub : f.region g.arena ⊆ f.region arena := region_subset_of_left hright
  have hreads (text : List Char) : Path f.arena (f.region arena) g.start text next ↔
      text ∈ right.looseLanguage :=
    (hright.path_iff (region_subset_of_right hleft) hnext
      (fun q hq => hleft.frame q hq.2) (Or.inl rfl)).trans (hright.reads text)
  cases htrivial : left.isTrivial with
  | true =>
    rw [hleft.start_eq htrivial, (looseLanguage_of_isTrivial htrivial).1, one_mul, hreads]
  | false =>
    rw [Path.through hleft.confined hsub (hleft.start_mem htrivial)
      (fun hmem => hnext (hsub hmem)), Language.mem_mul]
    simp only [hleft.reads, hreads]
    constructor
    · rintro ⟨u, v, rfl, hu, hv⟩
      exact ⟨u, hu, v, hv, rfl⟩
    · rintro ⟨u, hu, v, hv, rfl⟩
      exact ⟨u, v, rfl, hu, hv⟩

/-- A sequence comes back to its start within the part that it starts in. -/
theorem path_sequence_start_iff (h : next < arena.size) (hright : Wired right next arena g)
    (hleft : Wired left g.start g.arena f) :
    Path f.arena (f.region arena) f.start text f.start ↔
      text ∈ if left.isTrivial then right.returns else left.returns := by
  have hnext : next ∉ f.region arena := not_mem_region h
  have hsame : ∀ q ∈ g.region arena, f.arena.state q = g.arena.state q := fun q hq =>
    hleft.frame q hq.2
  cases htrivial : left.isTrivial with
  | true =>
    rw [if_pos rfl, hleft.start_eq htrivial, ← hright.returns]
    exact hright.path_iff (region_subset_of_right hleft) hnext hsame (Or.inr rfl)
  | false =>
    have hstart := hleft.start_mem htrivial
    have hsub : f.region g.arena ⊆ f.region arena := region_subset_of_left hright
    rw [if_neg Bool.false_ne_true, ← hleft.returns]
    refine ⟨fun path => ?_, Path.widen hsub⟩
    rcases path.exit hleft.confined hstart with ⟨-, path⟩ | ⟨u, v, rfl, -, hv⟩
    · exact path
    -- The right part does not lead back into the left one.
    · rcases hright.mem_of_path hnext hsame hv with hmem | heq
      · exact absurd hmem.2 (Nat.not_lt_of_le hstart.1)
      · exact absurd (heq ▸ hsub hstart) hnext

/-- The left part of a sequence is wired to the start of the right part. -/
theorem wired_sequence (h : next < arena.size) (hright : Wired right next arena g)
    (hleft : Wired left g.start g.arena f) : Wired (.sequence left right) next arena f := by
  refine ⟨hright.grows.trans hleft.grows, fun q hq => ?_, fun ht => ?_, fun ht => ?_,
    confined_sequence hright hleft, fun text => ?_, fun text => ?_⟩
  · rw [hleft.frame q (Nat.lt_of_lt_of_le hq hright.grows), hright.frame q hq]
  · rw [isTrivial, Bool.and_eq_true] at ht
    rw [hleft.start_eq ht.1, hright.start_eq ht.2]
  · cases htrivial : left.isTrivial with
    | true =>
      rw [hleft.start_eq htrivial]
      exact region_subset_of_right hleft
        (hright.start_mem (by simpa [isTrivial, htrivial] using ht))
    | false => exact region_subset_of_left hright (hleft.start_mem htrivial)
  · rw [path_sequence_iff h hright hleft, looseLanguage]
  · rw [path_sequence_start_iff h hright hleft, Pattern.returns]

/-- The end of the left side of a union leads to what follows the union. -/
def withLeftEnd (arena : StateArena) (next : Nat) (mask : Mask) : StateArena :=
  (arena.push .blank).addEpsilon arena.size ⟨next, mask⟩

/-- A new state with empty transitions to both sides of a union. -/
def withChoice (arena : StateArena) (leftStart rightStart : Nat) (leftMask rightMask : Mask) :
    StateArena :=
  ((arena.push .blank).addEpsilon arena.size ⟨leftStart, leftMask⟩).addEpsilon arena.size
    ⟨rightStart, rightMask⟩

@[simp] theorem size_withLeftEnd {mask : Mask} :
    (withLeftEnd arena next mask).size = arena.size + 1 := by simp [withLeftEnd]

@[simp] theorem size_withChoice {leftStart rightStart : Nat} {leftMask rightMask : Mask} :
    (withChoice arena leftStart rightStart leftMask rightMask).size = arena.size + 1 := by
  simp [withChoice]

theorem state_withLeftEnd_of_lt {mask : Mask} {q : Nat} (hq : q < arena.size) :
    (withLeftEnd arena next mask).state q = arena.state q := by
  rw [withLeftEnd, state_addEpsilon (by simp), if_neg (by omega), state_push, if_neg (by omega)]

theorem state_withChoice_of_lt {leftStart rightStart q : Nat} {leftMask rightMask : Mask}
    (hq : q < arena.size) :
    (withChoice arena leftStart rightStart leftMask rightMask).state q = arena.state q := by
  rw [withChoice, state_addEpsilon (by simp), if_neg (by omega), state_addEpsilon (by simp),
    if_neg (by omega), state_push, if_neg (by omega)]

theorem emptyTo_withLeftEnd {mask : Mask} {r : Nat} (h : next < arena.size) :
    ((withLeftEnd arena next mask).state arena.size).EmptyTo r ↔ r = next := by
  rw [withLeftEnd, state_addEpsilon (by simp), if_pos ⟨rfl, by simp; omega⟩,
    State.emptyTo_addEpsilon, state_push, if_pos rfl]
  simp

theorem readTo_withLeftEnd {mask : Mask} {c : Char} {r : Nat} :
    ¬ ((withLeftEnd arena next mask).state arena.size).ReadTo c r := by
  rw [withLeftEnd, state_addEpsilon (by simp), state_push, if_pos rfl]
  split <;> simp [State.ReadTo]

theorem emptyTo_withChoice {leftStart rightStart r : Nat} {leftMask rightMask : Mask}
    (hleft : leftStart < arena.size) (hright : rightStart < arena.size) :
    ((withChoice arena leftStart rightStart leftMask rightMask).state arena.size).EmptyTo r ↔
      r = leftStart ∨ r = rightStart := by
  rw [withChoice, state_addEpsilon (by simp), if_pos ⟨rfl, by simp; omega⟩,
    State.emptyTo_addEpsilon, state_addEpsilon (by simp), if_pos ⟨rfl, by simp; omega⟩,
    State.emptyTo_addEpsilon, state_push, if_pos rfl]
  simp

theorem readTo_withChoice {leftStart rightStart r : Nat} {leftMask rightMask : Mask} {c : Char} :
    ¬ ((withChoice arena leftStart rightStart leftMask rightMask).state arena.size).ReadTo c r := by
  rw [withChoice, state_addEpsilon (by simp), state_addEpsilon (by simp), state_push, if_pos rfl]
  split <;> split <;> simp [State.ReadTo]

/-- What is before the sides of a union is left as it is. -/
theorem state_union {mask leftMask rightMask : Mask} {q : Nat}
    (hleft : Wired left g.arena.size (withLeftEnd g.arena next mask) f) (hq : q < g.arena.size) :
    (withChoice f.arena f.start g.start leftMask rightMask).state q = g.arena.state q := by
  have hgrows : g.arena.size + 1 ≤ f.arena.size := by simpa using hleft.grows
  rw [state_withChoice_of_lt (by omega), hleft.frame q (by simp; omega), state_withLeftEnd_of_lt hq]

/-- The states of a union are a fork with the states of its sides as parts. -/
theorem fork_withChoice {mask : Mask} (leftMask rightMask : Mask) (h : next < arena.size)
    (hright : Wired right next arena g)
    (hleft : Wired left g.arena.size (withLeftEnd g.arena next mask) f) :
    Fork (withChoice f.arena f.start g.start leftMask rightMask)
      (Set.Ico arena.size (f.arena.size + 1)) (f.region (withLeftEnd g.arena next mask))
      (g.region arena) f.arena.size f.start g.arena.size g.start next := by
  have hgrows : g.arena.size + 1 ≤ f.arena.size := by simpa using hleft.grows
  have hend : (withChoice f.arena f.start g.start leftMask rightMask).state g.arena.size =
      (withLeftEnd g.arena next mask).state g.arena.size := by
    rw [state_withChoice_of_lt hgrows, hleft.frame _ (by simp)]
  have hnext : next < g.arena.size := Nat.lt_of_lt_of_le h hright.grows
  exact
    { mem_inside := fun q => by
        have := hright.grows
        simp only [Fragment.region, size_withLeftEnd, Set.mem_Ico]
        omega
      next_notMem := fun hmem => Nat.not_lt_of_le hmem.1 h
      choice_notMem_left := fun hmem => Nat.lt_irrefl _ hmem.2
      choice_notMem_right := fun hmem => Nat.lt_asymm hgrows hmem.2
      choice_ne := Nat.ne_of_gt hgrows
      left_start := hleft.start_eq_or_mem
      right_start := hright.start_eq_or_mem
      left_confined := hleft.confined.congr fun q hq => state_withChoice_of_lt hq.2
      right_confined := hright.confined.congr fun q hq => state_union hleft hq.2
      choice_empty := fun r => emptyTo_withChoice (hleft.start_lt (by simp))
        (Nat.lt_trans (hright.start_lt h) hgrows)
      choice_read := fun c r => readTo_withChoice
      end_empty := fun r => by rw [hend, emptyTo_withLeftEnd hnext]
      end_read := fun c r => by
        rw [hend]
        exact readTo_withLeftEnd }

/-- The sides of a union are wired to the same state, the left one through an end of its own. -/
theorem wired_union {mask mask' leftMask rightMask : Mask} (h : next < arena.size)
    (hright : Wired right next arena g)
    (hleft : Wired left g.arena.size (withLeftEnd g.arena next mask) f) :
    Wired (.union left right) next arena
      ⟨f.arena.size, mask', withChoice f.arena f.start g.start leftMask rightMask⟩ := by
  have hfork := fork_withChoice leftMask rightMask h hright hleft
  have hregion : (⟨f.arena.size, mask', withChoice f.arena f.start g.start leftMask rightMask⟩ :
      Fragment).region arena = Set.Ico arena.size (f.arena.size + 1) := by simp [Fragment.region]
  refine ⟨?_, fun q hq => ?_, fun ht => ?_, fun _ => hregion ▸ hfork.choice_mem,
    hregion ▸ hfork.confined, fun text => ?_, fun text => ?_⟩
  · have hgrows : g.arena.size + 1 ≤ f.arena.size := by simpa using hleft.grows
    have := hright.grows
    rw [size_withChoice]
    omega
  · rw [state_union hleft (Nat.lt_of_lt_of_le hq hright.grows), hright.frame q hq]
  · simp [isTrivial] at ht
  · rw [hregion, hfork.path_next_iff, looseLanguage, Language.mem_add, ← hleft.reads,
      ← hright.reads]
    exact or_congr (Path.congr fun q hq => state_withChoice_of_lt hq.2)
      (Path.congr fun q hq => state_union hleft hq.2)
  · rw [hregion, hfork.path_choice_iff, Pattern.returns, Language.mem_one]

end Parts

/-- The states that are wired for a pattern read exactly what it stands for. -/
theorem wired (table : SymbolTable) (pattern : Pattern) (next : Nat) (mask : Mask)
    (arena : StateArena) (h : next < arena.size) :
    Wired pattern next arena (pattern.wire table next mask arena) := by
  induction pattern generalizing next mask arena with
  | empty => exact wired_empty mask h
  | literal c =>
    refine wired_single {c} h rfl rfl (by simp [wire]) (fun q hq => ?_) (fun r => ?_)
      (fun d r => ?_) (by rw [looseLanguage]; simp; rfl) (by rw [Pattern.returns])
    all_goals simp only [wire, addChar]
    all_goals rw [state_modify (by simp)]
    · simp [state_push, Nat.ne_of_lt hq]
    · simp [state_push, State.EmptyTo, State.addChar, State.blank]
    · simpa [state_push] using State.readTo_addChar_blank
  | wildcard =>
    refine wired_single Set.univ h rfl rfl (by simp [wire]) (fun q hq => ?_)
      (fun r => ?_) (fun d r => ?_) (by rw [looseLanguage]; ext; simp) (by rw [Pattern.returns])
    all_goals simp only [wire, addAny]
    all_goals rw [state_modify (by simp)]
    · simp [state_push, Nat.ne_of_lt hq]
    · simp [state_push, State.EmptyTo, State.addAny, State.blank]
    · simpa [state_push] using State.readTo_addAny_blank
  | negated excluded =>
    refine wired_single {c | c ∉ excluded} h rfl rfl (by simp [wire]) (fun q hq => ?_)
      (fun r => ?_) (fun d r => ?_) (by rw [looseLanguage]; rfl) (by rw [Pattern.returns])
    all_goals simp only [wire, state_push]
    · rw [if_neg (Nat.ne_of_lt hq)]
    · simp [State.EmptyTo, State.excluding]
    · exact State.readTo_excluding
  | group body ih =>
    have hbody := ih next mask arena h
    refine ⟨hbody.grows, hbody.frame, fun ht => hbody.start_eq ?_, fun ht => hbody.start_mem ?_,
      hbody.confined, fun text => ?_, fun text => ?_⟩
    · simpa only [isTrivial] using ht
    · simpa only [isTrivial] using ht
    · rw [looseLanguage]
      exact hbody.reads text
    · rw [Pattern.returns]
      exact hbody.returns text
  | quantified q body ih =>
    cases q with
    | optional => exact wired_optional h (ih next mask arena h)
    | plus => exact wired_plus h (ih arena.size mask (arena.push .blank) (by simp))
    | star => exact wired_star h (ih arena.size mask (arena.push .blank) (by simp))
  | sequence left right ihLeft ihRight =>
    have hright := ihRight next mask arena h
    exact wired_sequence h hright (ihLeft _ _ _ (hright.start_lt h))
  | union left right ihLeft ihRight =>
    have hright := ihRight next mask arena h
    exact wired_union h hright (ihLeft _ mask _ (by simp))

end Pattern

end SentenceSearch
