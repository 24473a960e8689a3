import SentenceSearch.Proofs.Automaton.Runs
import SentenceSearch.Proofs.Search.Matching
import SentenceSearch.Proofs.Search.TreePlaces

/-!
# Runs of an automaton through a suffix tree

The cursors of a search with an automaton stand where runs lead: the automaton has read what is
spelled at the place. A run over a suffix is followed as long as the masks offer what it needs, so
that no run is lost that needs only what is left of its text.

## Main definitions

* `SuffixTree.Offers` — the masks offer what is available to a run
* `SuffixTree.Towards` — a cursor on the way to a node

## Main results

* `Records.exists_run_of_mem_findMatching` — what is found has an accepted part
* `Records.mem_findMatching_of_run` — what has an accepted part is found
-/

namespace SentenceSearch

namespace SuffixTree

variable {P : Type} {tree : SuffixTree P} {spell : Nat → List Char} {ends : List Char → Array P}
  {table : SymbolTable} {automaton : Automaton} {cursor next : MatchCursor}
  {available : List Char → Mask} {x text left : List Char} {w : Nat} {p : P}

/-! ### Soundness -/

/-- A cursor stands at a place where the automaton has read what is spelled there, if masks do not
count. -/
theorem Labelled.place_of_reached (h : Labelled tree spell)
    (hreached : ((tree.source (m := Id)).matchTour automaton).Reached cursor) :
    ∃ x, tree.Place spell cursor.edge cursor.offset x ∧ ∀ rest,
      automaton.Run (fun _ => Mask.full) automaton.start (x ++ rest) cursor.state rest := by
  induction hreached with
  | start hstart =>
    obtain ⟨edge, hedge, rfl⟩ := List.mem_map.mp hstart
    exact ⟨[], h.place_root hedge, fun rest => .refl _ _⟩
  | @move cursor next _ hmove ih =>
    obtain ⟨x, hplace, hrun⟩ := ih
    cases matchStep_of_mem_moves hmove with
    | empty t ht _ =>
      exact ⟨x, hplace, fun rest =>
        (hrun rest).trans (.epsilon t ht (Mask.allows_full _) (.refl _ _))⟩
    | read t hinside ht _ =>
      have hlt : cursor.offset < cursor.edge.length := lt_of_le_of_ne hplace.le hinside
      refine ⟨_, hplace.next h hlt, fun rest => ?_⟩
      rw [List.append_assoc, List.singleton_append]
      exact (hrun _).trans (.consume t ht (Mask.allows_full _) (.refl _ _))
    | enter edge hend hedge => exact ⟨x, hplace.enter h hend hedge, hrun⟩

/-! ### The spots of a search -/

/-- The spots of the states and places. -/
def matchSpots (tree : SuffixTree P) (automaton : Automaton) : Finset MatchSpot :=
  (Finset.range automaton.stateCount ×ˢ tree.places).image fun spot =>
    ⟨spot.1, spot.2.1, spot.2.2⟩

theorem card_matchSpots_le :
    (tree.matchSpots automaton).card ≤
      automaton.stateCount * (tree.source (m := Id)).placeCount := by
  refine Finset.card_image_le.trans ?_
  rw [Finset.card_product, Finset.card_range]
  exact Nat.mul_le_mul_left _ card_places_le

theorem state_lt_of_reached (hrange : automaton.InRange)
    (hreached : ((tree.source (m := Id)).matchTour automaton).Reached cursor) :
    cursor.state < automaton.stateCount := by
  induction hreached with
  | start hstart =>
    obtain ⟨edge, -, rfl⟩ := List.mem_map.mp hstart
    exact hrange.start_lt
  | @move cursor next _ hmove ih =>
    cases matchStep_of_mem_moves hmove with
    | empty t ht _ => exact hrange.epsilons_lt _ t ht
    | read t _ ht _ => exact hrange.step_lt _ _ t ht
    | enter edge _ _ => exact ih

/-- In a suffix tree the spot of a cursor tells which one it is. -/
theorem Labelled.told_matchTour (h : Labelled tree spell) (hrange : automaton.InRange) :
    ((tree.source (m := Id)).matchTour automaton).Told (tree.matchSpots automaton) where
  inj c d hc hd hspot := by
    obtain ⟨x, hplace, -⟩ := h.place_of_reached hc
    obtain ⟨y, hplace', -⟩ := h.place_of_reached hd
    obtain ⟨hstate, hchild, hoffset⟩ := MatchSpot.mk.inj hspot
    have hedge := hplace.edge_eq hplace' h hchild
    cases c
    cases d
    simp_all
  mem c hc := by
    obtain ⟨x, hplace, -⟩ := h.place_of_reached hc
    exact Finset.mem_image.mpr ⟨(c.state, c.edge.child, c.offset), Finset.mem_product.mpr
      ⟨Finset.mem_range.mpr (state_lt_of_reached hrange hc), hplace.mem_places h⟩, rfl⟩

/-! ### Completeness -/

/-- On the way to a node, the masks of every place offer what is available there to a run. -/
def Offers (tree : SuffixTree P) (spell : Nat → List Char) (available : List Char → Mask) : Prop :=
  ∀ {edge offset x w rest}, tree.Place spell edge offset x → w < tree.nodeCount →
    spell edge.child <+: spell w → spell w = x ++ rest →
    (available rest).allows (edge.partialMask offset) = true

theorem Records.offers_maskOf (h : Records table tree spell ends) :
    Offers tree spell table.maskOf := fun hplace hw hto hspell =>
  h.maskOf_allows_partialMask hplace hw hto hspell

/-- A cursor on the way to the node `w`, where `text` is still to be read. -/
structure Towards (tree : SuffixTree P) (spell : Nat → List Char) (automaton : Automaton) (w : Nat)
    (text : List Char) (cursor : MatchCursor) : Prop where
  reached : ((tree.source (m := Id)).matchTour automaton).Reached cursor
  place : ∃ x, tree.Place spell cursor.edge cursor.offset x ∧ spell w = x ++ text
  towards : spell cursor.edge.child <+: spell w

/-- Before a character is read, a cursor at the end of an edge goes on to the next one. -/
theorem Towards.exists_inside {c : Char} (h : Towards tree spell automaton w (c :: text) cursor)
    (hlabelled : Labelled tree spell) (hw : w < tree.nodeCount)
    (hstate : cursor.state ≠ automaton.accept) :
    ∃ cursor', Towards tree spell automaton w (c :: text) cursor' ∧
      cursor'.state = cursor.state ∧ cursor'.offset < cursor'.edge.length := by
  obtain ⟨x, hplace, hspell⟩ := h.place
  rcases Nat.lt_or_eq_of_le hplace.le with hlt | hend
  · exact ⟨cursor, h, rfl, hlt⟩
  · obtain ⟨edge, hedge, hto, -⟩ := hplace.enter_towards hlabelled hend hw hspell
    have hplace' := hplace.enter hlabelled hend hedge
    have hmove : ⟨cursor.state, edge, 0⟩ ∈
        ((tree.source (m := Id)).matchTour automaton).moves cursor :=
      (mem_matchMoves_iff tree.source hstate).mpr (.enter edge hend hedge)
    exact ⟨_, ⟨h.reached.move hmove, ⟨x, hplace', hspell⟩, hto⟩, rfl,
      hplace'.length_pos hlabelled⟩

/-- A run towards a node is followed to a cursor in the accepting state. -/
theorem Towards.exists_accept (hlabelled : Labelled tree spell) (hw : w < tree.nodeCount)
    (hoffers : Offers tree spell available)
    (run : automaton.Run available cursor.state text automaton.accept left)
    (h : Towards tree spell automaton w text cursor) :
    ∃ cursor' rest, cursor'.state = automaton.accept ∧
      Towards tree spell automaton w rest cursor' := by
  generalize hq : cursor.state = q at run
  generalize hr : automaton.accept = r at run
  induction run generalizing cursor with
  | refl q text => exact ⟨cursor, text, hq, h⟩
  | @epsilon q r text left t ht allowed run ih =>
    -- The search stops at the accepting state, even if the run goes on from there.
    by_cases hstate : cursor.state = automaton.accept
    · exact ⟨cursor, text, hstate.trans hr, h⟩
    · obtain ⟨x, hplace, hspell⟩ := h.place
      have hmove := (mem_matchMoves_iff tree.source hstate).mpr (.empty t (hq ▸ ht)
        (Mask.allows_trans allowed (hoffers hplace hw h.towards hspell)))
      exact ih ⟨h.reached.move hmove, ⟨x, hplace, hspell⟩, h.towards⟩ rfl hr
  | @consume q r c text left t ht allowed run ih =>
    by_cases hstate : cursor.state = automaton.accept
    · exact ⟨cursor, _, hstate.trans hr, h⟩
    · -- The character is read on the next edge when this one has ended.
      obtain ⟨inside, h', hstate', hlt⟩ := h.exists_inside hlabelled hw hstate
      obtain ⟨x, hplace, hspell⟩ := h'.place
      have hchar := hplace.charAt_eq hlabelled hlt h'.towards hspell
      have hmove := (mem_matchMoves_iff tree.source (hstate' ▸ hstate)).mpr
        (.read t (Nat.ne_of_lt hlt) (by rw [hchar, hstate', hq]; exact ht)
          (Mask.allows_trans allowed (hoffers hplace hw h'.towards hspell)))
      refine ih ⟨h'.reached.move hmove, ⟨_, hplace.next hlabelled hlt, ?_⟩, h'.towards⟩ rfl hr
      rw [hspell, hchar, List.append_assoc]
      rfl

/-! ### What a search finds -/

variable [Ord P] [Std.TransOrd P] [Std.LawfulEqOrd P] {limits : SearchLimits}

/-- A search finds the payloads of the nodes below the cursors in the accepting state. -/
theorem Records.mem_findMatching_iff (h : Records table tree spell ends)
    (hrange : automaton.InRange) (hmax : limits.maxResults = 0)
    (hdeadline : limits.deadline = none) :
    p ∈ ((tree.source (m := Id)).findMatching automaton limits).run.results ↔
      ∃ cursor w, ((tree.source (m := Id)).matchTour automaton).Reached cursor ∧
        cursor.state = automaton.accept ∧ w < tree.nodeCount ∧
        spell cursor.edge.child <+: spell w ∧ p ∈ ends (spell w) := by
  have hlabelled := h.settled.stores.labelled
  rw [TreeSource.mem_findMatching_iff hlabelled.bounded_source
    (hlabelled.told_matchTour hrange) hmax hdeadline (card_matchSpots_le.trans (Nat.le_succ _))]
  refine exists_congr fun cursor => exists_congr fun w => and_congr_right fun hreached =>
    and_congr_right fun _ => ?_
  obtain ⟨x, hplace, -⟩ := hlabelled.place_of_reached hreached
  exact h.payload_below_iff (hplace.child_lt hlabelled)

/-- What a search finds has a suffix whose front the automaton accepts, if masks do not count. -/
theorem Records.exists_run_of_mem_findMatching (h : Records table tree spell ends)
    (hrange : automaton.InRange) (hmax : limits.maxResults = 0)
    (hdeadline : limits.deadline = none)
    (hp : p ∈ ((tree.source (m := Id)).findMatching automaton limits).run.results) :
    ∃ text left, p ∈ ends text ∧
      automaton.Run (fun _ => Mask.full) automaton.start text automaton.accept left := by
  obtain ⟨cursor, w, hreached, hstate, hw, hto, hp⟩ :=
    (h.mem_findMatching_iff hrange hmax hdeadline).mp hp
  have hlabelled := h.settled.stores.labelled
  obtain ⟨x, hplace, hrun⟩ := hlabelled.place_of_reached hreached
  obtain ⟨rest, hrest⟩ := (hplace.spell_child hlabelled ▸ List.prefix_append _ _).trans hto
  have run := hrun rest
  rw [hrest, hstate] at run
  exact ⟨_, rest, hp, run⟩

/-- A suffix with a front that the automaton accepts is found, if its run needs no more than the
masks offer. -/
theorem Records.mem_findMatching_of_run (h : Records table tree spell ends)
    (hrange : automaton.InRange) (hmax : limits.maxResults = 0)
    (hdeadline : limits.deadline = none) (hoffers : Offers tree spell available)
    (hp : p ∈ ends text)
    (run : automaton.Run available automaton.start text automaton.accept left) :
    p ∈ ((tree.source (m := Id)).findMatching automaton limits).run.results := by
  have hlabelled := h.settled.stores.labelled
  have hends : ends text ≠ #[] := fun hnil => by simp [hnil] at hp
  obtain ⟨w, hw, rfl⟩ := h.settled.stores.ended hends
  have hne : spell w ≠ [] := fun hnil => hends (hnil ▸ h.settled.stores.ends_nil)
  obtain ⟨edge, hedge, hto⟩ := hlabelled.exists_start hw hne
  have hstart : Towards tree spell automaton w (spell w) ⟨automaton.start, edge, 0⟩ :=
    ⟨.start (List.mem_map.mpr ⟨edge, hedge, rfl⟩), ⟨[], hlabelled.place_root hedge, rfl⟩, hto⟩
  obtain ⟨cursor, rest, hstate, htowards⟩ := hstart.exists_accept hlabelled hw hoffers run
  exact (h.mem_findMatching_iff hrange hmax hdeadline).mpr
    ⟨cursor, w, htowards.reached, hstate, hw, htowards.towards, hp⟩

end SuffixTree

end SentenceSearch
