import SentenceSearch.Proofs.Search.KeyOrder
import SentenceSearch.Proofs.Search.Keys
import SentenceSearch.Proofs.Search.Loop

/-!
# Searches that come to an end

A search is computed with fuel. Here it is said without fuel what it means that a search comes to an
end with an outcome, step by step, and that the fuel is enough for it. Nothing is asked of the tree
but a bound on its edges: there may be cycles, and two edges with different labels may lead to one
node, so that a spot does not tell which cursor it belongs to. What carries the count is that the
spots that have been seen are those of the cursors that are pending or have been looked at, each
once.

## Main definitions

* `Collection.Gathers` — a collection takes what is at and below the nodes of a stack
* `TreeSource.Descends` — the way down along the first key
* `SearchLoop.Ends` — a search looks at some cursors and comes to an end
* `TreeSource.EndsKeys` — a whole search for keys
* `Tour.Drives` — the turns of a loop are the steps of a tour
* `Tour.Accounts` — what holds of the cursors and spots of a search that is under way
* `Tour.Traces` — what holds of the cursors that it goes on to look at

## Main results

* `Ends.unique` — a search comes to one end
* `gathers_collect`, `descends_descend`, `exists_ends_run` — the fuel is enough
* `Accounts.pop`, `Accounts.pushAll` — a cursor is looked at, and the moves from it are added
* `Drives.states_eq`, `Drives.collected_le` — what the statistics count
* `drives_keyLoop`, `drives_matchLoop` — both searches are driven by their tours
-/

namespace SentenceSearch

variable {P : Type} {source : TreeSource Id P} {limits : SearchLimits} {nodes : Finset Nat}

/-! ### Collecting -/

namespace Collection

variable [Ord P] [Std.TransOrd P] {collection result result' : Collection P} {stack : List Nat}
  {id fuel : Nat}

/-- A collection takes the payloads at and below the nodes of a stack, one node after another, until
the stack is empty or enough has been found. -/
inductive Gathers (source : TreeSource Id P) (limits : SearchLimits) :
    List Nat → Collection P → Collection P → Prop
  /-- The stack is empty. -/
  | done {collection : Collection P} : Gathers source limits [] collection collection
  /-- Enough has been found. -/
  | full {stack : List Nat} {collection : Collection P}
      (hfull : collection.isFull limits = true) :
      Gathers source limits stack collection collection
  /-- The next node has been visited already. -/
  | skip {id : Nat} {stack : List Nat} {collection result : Collection P}
      (hfull : collection.isFull limits = false) (hid : id ∈ collection.visited)
      (h : Gathers source limits stack collection result) :
      Gathers source limits (id :: stack) collection result
  /-- The next node is visited, and its children go on the stack. -/
  | visit {id : Nat} {stack : List Nat} {collection result : Collection P}
      (hfull : collection.isFull limits = false) (hid : id ∉ collection.visited)
      (h : Gathers source limits
        ((collection.visit id (source.payloadsAt id).run).unvisited (source.edgesFrom id).run ++
          stack)
        (collection.visit id (source.payloadsAt id).run) result) :
      Gathers source limits (id :: stack) collection result

/-- There is one way to do so. -/
theorem Gathers.unique (h : Gathers source limits stack collection result)
    (h' : Gathers source limits stack collection result') : result = result' := by
  induction h with
  | done =>
    cases h' with
    | done => rfl
    | full => rfl
  | full hfull =>
    cases h' with
    | done => rfl
    | full => rfl
    | skip hnot => cases hfull.symm.trans hnot
    | visit hnot => cases hfull.symm.trans hnot
  | skip hnot hid h ih =>
    cases h' with
    | full hfull => cases hnot.symm.trans hfull
    | skip _ _ h' => exact ih h'
    | visit _ hnew => exact absurd hid hnew
  | visit hnot hid h ih =>
    cases h' with
    | full hfull => cases hnot.symm.trans hfull
    | skip _ hvisited => exact absurd hvisited hid
    | visit _ _ h' => exact ih h'

/-- Each edge puts at most one node on the stack, so that the stack is worked off, wherever the
edges lead. -/
theorem gathers_collectFrom (hbounded : source.Bounded nodes)
    (hfuel : stack.length + edgesLeft source nodes collection ≤ fuel) :
    Gathers source limits stack collection
      (collectFrom source limits fuel stack collection).run := by
  induction fuel generalizing stack collection with
  | zero =>
    obtain rfl : stack = [] := List.length_eq_zero_iff.mp (by omega)
    exact .done
  | succ fuel ih =>
    cases stack with
    | nil => exact .done
    | cons id stack =>
      rw [collectFrom]
      cases hfull : collection.isFull limits with
      | true =>
        rw [if_pos rfl]
        exact .full hfull
      | false =>
        rw [if_neg Bool.false_ne_true]
        rw [List.length_cons] at hfuel
        by_cases hid : id ∈ collection.visited
        · rw [if_pos (Std.ExtTreeSet.mem_iff_contains.mp hid)]
          exact .skip hfull hid (ih (by omega))
        · rw [if_neg fun hcontains => hid (Std.ExtTreeSet.mem_iff_contains.mpr hcontains)]
          have hleft := edgesLeft_visit hbounded (source.payloadsAt id).run hid
          exact .visit hfull hid (ih (by rw [List.length_append]; omega))

theorem gathers_collect (hbounded : source.Bounded nodes) (id : Nat) (collection : Collection P) :
    Gathers source limits [id] collection (collection.collect source limits id).run := by
  have hleft := edgesLeft_le collection hbounded
  exact gathers_collectFrom hbounded (by rw [List.length_singleton]; omega)

/-- A collection does not leave the nodes that the edges lead to. -/
theorem Gathers.visited_mem (h : Gathers source limits stack collection result)
    (hnodes : ∀ v w, w ∈ source.childrenFrom v → w ∈ nodes) (hstack : ∀ v ∈ stack, v ∈ nodes)
    (hvisited : ∀ v ∈ collection.visited, v ∈ nodes) : ∀ v ∈ result.visited, v ∈ nodes := by
  induction h with
  | done => exact hvisited
  | full => exact hvisited
  | skip hfull hid h ih => exact ih (List.forall_mem_cons.mp hstack).2 hvisited
  | visit hfull hid h ih =>
    obtain ⟨hid, hstack⟩ := List.forall_mem_cons.mp hstack
    apply ih
    · intro v hv
      rcases List.mem_append.mp hv with hv | hv
      · exact hnodes _ v (mem_unvisited.mp hv).1
      · exact hstack v hv
    · intro v hv
      rcases mem_visited_visit.mp hv with rfl | hv
      · exact hid
      · exact hvisited v hv

omit [Std.TransOrd P] in
/-- There are no more nodes in a collection than those that it may visit. -/
theorem size_visited_le (h : ∀ v ∈ collection.visited, v ∈ nodes) :
    collection.visited.size ≤ nodes.card := by
  have hnodup : collection.visited.toList.Nodup :=
    Std.ExtTreeSet.distinct_toList.imp fun hne heq => hne (Std.compare_eq_iff_eq.mpr heq)
  rw [← Std.ExtTreeSet.length_toList, ← List.toFinset_card_of_nodup hnodup]
  exact Finset.card_le_card fun v hv =>
    h v (Std.ExtTreeSet.mem_toList.mp (List.mem_toFinset.mp hv))

end Collection

/-! ### The way down along the first key -/

namespace TreeSource

/-- The first key, of which `pos` characters have been matched, is matched on below a node. Each
step matches the next character of the key, which there has to be. -/
inductive Descends (source : TreeSource Id P) (keys : SearchKeys) : Nat → Nat → Descent → Prop
  /-- No edge goes on with the character. -/
  | missing {id pos : Nat} {c : Char} (hc : (keys.key 0)[pos]? = some c)
      (hedge : (source.edgeStarting id c).run = none) : Descends source keys id pos .missing
  /-- A mask rules the edge out. -/
  | pruned {id pos : Nat} {c : Char} {edge : EdgeRecord} (hc : (keys.key 0)[pos]? = some c)
      (hedge : (source.edgeStarting id c).run = some edge)
      (hmask : (keys.requiredAt 0 pos).allows edge.fullMask = false) :
      Descends source keys id pos .pruned
  /-- The label and the key differ. -/
  | differs {id pos : Nat} {c : Char} {edge : EdgeRecord} (hc : (keys.key 0)[pos]? = some c)
      (hedge : (source.edgeStarting id c).run = some edge)
      (hmask : (keys.requiredAt 0 pos).allows edge.fullMask = true)
      (hlabel : remainderAfter edge.label ((keys.key 0).toList.drop pos) = none) :
      Descends source keys id pos .missing
  /-- The key ends on the edge. -/
  | ends {id pos : Nat} {c : Char} {edge : EdgeRecord} (hc : (keys.key 0)[pos]? = some c)
      (hedge : (source.edgeStarting id c).run = some edge)
      (hmask : (keys.requiredAt 0 pos).allows edge.fullMask = true)
      (hlabel : remainderAfter edge.label ((keys.key 0).toList.drop pos) = some []) :
      Descends source keys id pos (.found edge ((keys.key 0).size - pos))
  /-- The key goes on below the edge. -/
  | deeper {id pos : Nat} {c : Char} {edge : EdgeRecord} {left : List Char} {descent : Descent}
      (hc : (keys.key 0)[pos]? = some c) (hedge : (source.edgeStarting id c).run = some edge)
      (hmask : (keys.requiredAt 0 pos).allows edge.fullMask = true)
      (hlabel : remainderAfter edge.label ((keys.key 0).toList.drop pos) = some left)
      (hleft : left ≠ [])
      (h : Descends source keys edge.child ((keys.key 0).size - left.length) descent) :
      Descends source keys id pos descent

variable {keys : SearchKeys} {id pos fuel : Nat}

/-- Each edge on the way takes a character off the key, so that the way is no longer than the key,
also around a cycle. -/
theorem descends_descendFrom
    (hlabels : ∀ {id c edge}, (source.edgeStarting id c).run = some edge → edge.label ≠ [])
    {rest : List Char} (hrest : (keys.key 0).toList.drop pos = rest) (hne : rest ≠ [])
    (hfuel : rest.length ≤ fuel) :
    source.Descends keys id pos (source.descendFrom keys fuel id pos rest).run := by
  induction fuel generalizing id pos rest with
  | zero => exact absurd (List.length_eq_zero_iff.mp (by omega)) hne
  | succ fuel ih =>
    obtain ⟨c, rest, rfl⟩ := List.exists_cons_of_ne_nil hne
    have hc : (keys.key 0)[pos]? = some c := by
      rw [← Array.getElem?_toList, ← List.head?_drop, hrest, List.head?_cons]
    have hsize : (keys.key 0).size - pos = rest.length + 1 := by
      rw [← Array.length_toList, ← List.length_drop, hrest, List.length_cons]
    rw [descendFrom]
    generalize hedge : source.edgeStarting id c = found
    cases found with
    | none => exact .missing hc hedge
    | some edge =>
      change source.Descends keys id pos (Id.run (if _ then _ else _))
      cases hmask : (keys.requiredAt 0 pos).allows edge.fullMask with
      | false => exact .pruned hc hedge hmask
      | true =>
        rw [if_neg (by simp)]
        cases hlabel : remainderAfter edge.label (c :: rest) with
        | none => exact .differs hc hedge hmask (hrest ▸ hlabel)
        | some left =>
          cases left with
          | nil => exact hsize ▸ .ends hc hedge hmask (hrest ▸ hlabel)
          | cons d left =>
            have hkey := (cases_of_remainderAfter hlabel).resolve_right fun h => nomatch h.1
            have hlength := congrArg List.length hkey
            have hpos := List.length_pos_iff.mpr (hlabels hedge)
            rw [List.length_append, List.length_cons] at hlength
            have hsuffix : d :: left <:+ (keys.key 0).toList :=
              (hkey ▸ List.suffix_append _ _ : d :: left <:+ c :: rest).trans
                (hrest ▸ List.drop_suffix _ _)
            have hfuel : (d :: left).length ≤ fuel := by
              rw [List.length_cons] at hfuel
              omega
            have hplace : pos + (rest.length + 1 - (d :: left).length) =
                (keys.key 0).size - (d :: left).length := by omega
            refine .deeper hc hedge hmask (hrest ▸ hlabel) (List.cons_ne_nil _ _) ?_
            change source.Descends keys edge.child _ (source.descendFrom keys fuel edge.child
              (pos + (rest.length + 1 - (d :: left).length)) (d :: left)).run
            rw [hplace]
            exact ih (List.suffix_iff_eq_drop.mp hsuffix).symm (List.cons_ne_nil _ _) hfuel

theorem descends_descend (source : TreeSource Id P)
    (hlabels : ∀ {id c edge}, (source.edgeStarting id c).run = some edge → edge.label ≠ [])
    (hkey : keys.key 0 ≠ #[]) :
    source.Descends keys source.root 0 (source.descend keys).run :=
  descends_descendFrom hlabels List.drop_zero (fun h => hkey (Array.toList_eq_nil_iff.mp h)) le_rfl

/-- The place where the key ends is on an edge of the tree. -/
theorem Descends.found_place {descent : Descent} (h : source.Descends keys id pos descent)
    {edge : EdgeRecord} {offset : Nat} (hdescent : descent = .found edge offset) :
    (∃ v c, (source.edgeStarting v c).run = some edge) ∧ offset ≤ edge.label.length := by
  induction h with
  | missing => cases hdescent
  | pruned => cases hdescent
  | differs => cases hdescent
  | @ends id pos c edge hc hedge hmask hlabel =>
    obtain ⟨rfl, rfl⟩ := Descent.found.inj hdescent
    have hle := (prefix_of_remainderAfter hlabel).length_le
    rw [List.length_drop, Array.length_toList] at hle
    exact ⟨⟨id, c, hedge⟩, hle⟩
  | deeper hc hedge hmask hlabel hleft h ih => exact ih hdescent

end TreeSource

/-! ### Loops -/

variable [Ord P] [Std.TransOrd P]

/-- A search looks at some cursors, one after another, and comes to an end with an outcome. -/
inductive SearchLoop.Ends {C S : Type} (loop : SearchLoop Id P S) (cursor? : S → Option C)
    (source : TreeSource Id P) (limits : SearchLimits) : S → List C → SearchOutcome P → Prop
  /-- There is no cursor left. -/
  | empty {search : S} (hturn : loop.turn? search = none) :
      Ends loop cursor? source limits search [] (loop.outcome search false)
  /-- Enough has been found. -/
  | full {search : S} (hfull : (loop.collection search).isFull limits = true) :
      Ends loop cursor? source limits search [] (loop.outcome search false)
  /-- The deadline has passed. -/
  | expired {search : S} {turn : SearchTurn Id P S} (hturn : loop.turn? search = some turn)
      (hfull : (loop.collection search).isFull limits = false)
      (htime : limits.expiredAt (loop.states search + 1) = true) :
      Ends loop cursor? source limits search [] (loop.outcome search true)
  /-- The search collects at and below a node. -/
  | collect {search : S} {c : C} {id : Nat} {resume : Collection P → S}
      {collection : Collection P} {cursors : List C} {outcome : SearchOutcome P}
      (hcursor : cursor? search = some c)
      (hturn : loop.turn? search = some (.collect id resume))
      (hfull : (loop.collection search).isFull limits = false)
      (htime : limits.expiredAt (loop.states search + 1) = false)
      (hgathers : Collection.Gathers source limits [id] (loop.collection search) collection)
      (h : Ends loop cursor? source limits (resume collection) cursors outcome) :
      Ends loop cursor? source limits search (c :: cursors) outcome
  /-- The search goes on to the moves from a cursor. -/
  | expand {search : S} {c : C} {next : Id S} {cursors : List C} {outcome : SearchOutcome P}
      (hcursor : cursor? search = some c) (hturn : loop.turn? search = some (.expand next))
      (hfull : (loop.collection search).isFull limits = false)
      (htime : limits.expiredAt (loop.states search + 1) = false)
      (h : Ends loop cursor? source limits next.run cursors outcome) :
      Ends loop cursor? source limits search (c :: cursors) outcome

namespace SearchLoop

variable {C S : Type} {loop : SearchLoop Id P S} {cursor? : S → Option C} {search : S} {c : C}
  {cursors cursors' : List C} {outcome outcome' : SearchOutcome P}

/-- What a search looks at first is its next cursor. -/
theorem Ends.cursor?_eq (h : loop.Ends cursor? source limits search (c :: cursors) outcome) :
    cursor? search = some c := by
  cases h with
  | collect hcursor => exact hcursor
  | expand hcursor => exact hcursor

/-- A search comes to one end. -/
theorem Ends.unique (h : loop.Ends cursor? source limits search cursors outcome)
    (h' : loop.Ends cursor? source limits search cursors' outcome') :
    cursors = cursors' ∧ outcome = outcome' := by
  induction h generalizing cursors' with
  | empty hnone =>
    cases h' with
    | empty => exact ⟨rfl, rfl⟩
    | full => exact ⟨rfl, rfl⟩
    | expired hturn => cases hnone.symm.trans hturn
    | collect _ hturn => cases hnone.symm.trans hturn
    | expand _ hturn => cases hnone.symm.trans hturn
  | full hfull =>
    cases h' with
    | empty => exact ⟨rfl, rfl⟩
    | full => exact ⟨rfl, rfl⟩
    | expired _ hnot => cases hfull.symm.trans hnot
    | collect _ _ hnot => cases hfull.symm.trans hnot
    | expand _ _ hnot => cases hfull.symm.trans hnot
  | expired hturn hnot htime =>
    cases h' with
    | empty hnone => cases hnone.symm.trans hturn
    | full hfull => cases hfull.symm.trans hnot
    | expired => exact ⟨rfl, rfl⟩
    | collect _ _ _ hearly => cases htime.symm.trans hearly
    | expand _ _ _ hearly => cases htime.symm.trans hearly
  | collect hcursor hturn hnot hearly hgathers h ih =>
    cases h' with
    | empty hnone => cases hnone.symm.trans hturn
    | full hfull => cases hfull.symm.trans hnot
    | expired _ _ htime => cases htime.symm.trans hearly
    | collect hcursor' hturn' _ _ hgathers' h' =>
      obtain rfl := Option.some.inj (hcursor.symm.trans hcursor')
      obtain ⟨rfl, rfl⟩ := SearchTurn.collect.inj (Option.some.inj (hturn.symm.trans hturn'))
      obtain rfl := hgathers.unique hgathers'
      exact (ih h').imp_left (congrArg _)
    | expand _ hturn' => cases hturn.symm.trans hturn'
  | expand hcursor hturn hnot hearly h ih =>
    cases h' with
    | empty hnone => cases hnone.symm.trans hturn
    | full hfull => cases hfull.symm.trans hnot
    | expired _ _ htime => cases htime.symm.trans hearly
    | collect _ hturn' => cases hturn.symm.trans hturn'
    | expand hcursor' hturn' _ _ h' =>
      obtain rfl := Option.some.inj (hcursor.symm.trans hcursor')
      obtain rfl := SearchTurn.expand.inj (Option.some.inj (hturn.symm.trans hturn'))
      exact (ih h').imp_left (congrArg _)

end SearchLoop

namespace Tour

variable {C S T : Type} [DecidableEq T] {tour : Tour C T} {loop : SearchLoop Id P S}
  {cursor? : S → Option C} {agenda : S → Agenda C T} {fits : C → Prop} {spots : Finset T}
  {fuel : Nat} {extra past : Multiset T} {search : S} {cursors : List C}
  {outcome : SearchOutcome P}

/-- The turns of a loop are the steps of a tour: each takes a cursor off the agenda and either
collects below it or adds the moves from it. -/
structure Drives (tour : Tour C T) (loop : SearchLoop Id P S) (cursor? : S → Option C)
    (agenda : S → Agenda C T) : Prop where
  stop : ∀ {search}, cursor? search = none →
    loop.turn? search = none ∧ (agenda search).pending = 0
  take : ∀ {search c}, cursor? search = some c → ∃ rest,
    agenda search = ⟨c ::ₘ rest, (agenda search).seen⟩ ∧
    ((∃ resume, loop.turn? search = some (.collect (tour.target c) resume) ∧
      ∀ collection, agenda (resume collection) = ⟨rest, (agenda search).seen⟩ ∧
        loop.collection (resume collection) = collection ∧
        loop.states (resume collection) = loop.states search + 1) ∨
    ∃ next, loop.turn? search = some (.expand next) ∧
      agenda next.run = Agenda.pushAll tour.spot ⟨rest, (agenda search).seen⟩ (tour.moves c) ∧
        loop.collection next.run = loop.collection search ∧
        loop.states next.run = loop.states search + 1)

/-- Each spot that has been seen belongs to one cursor that is pending or has been looked at. Beside
these there may be some cursors that were not asked whether their spots have been seen. All pending
cursors fit, and the fuel is enough for all spots that have not been seen. -/
structure Accounts (tour : Tour C T) (fits : C → Prop) (spots : Finset T) (fuel : Nat)
    (extra past : Multiset T) (agenda : Agenda C T) : Prop where
  pending_fits : ∀ c ∈ agenda.pending, fits c
  map_spot : agenda.pending.map tour.spot + past = extra + agenda.seen.val
  seen_subset : agenda.seen ⊆ spots
  fuel_le : agenda.pending.card + spots.card ≤ fuel + agenda.seen.card

/-- New cursors take new spots. -/
theorem map_spot_pushAll (spot : C → T) (agenda : Agenda C T) (moves : List C)
    (h : agenda.pending.map spot + past = extra + agenda.seen.val) :
    (agenda.pushAll spot moves).pending.map spot + past =
      extra + (agenda.pushAll spot moves).seen.val := by
  induction moves generalizing agenda with
  | nil => exact h
  | cons c moves ih =>
    refine ih (agenda.push spot c) ?_
    rcases Agenda.push_cases spot agenda c with ⟨-, heq⟩ | ⟨hnew, heq⟩
    · rw [heq, h]
    · rw [heq, Multiset.map_cons, Finset.insert_val_of_notMem hnew, Multiset.cons_add, h,
        Multiset.add_cons]

omit [DecidableEq T] in
/-- A search starts with nothing on the agenda, and fuel for all spots. -/
theorem accounts_empty (hfuel : spots.card ≤ fuel) : tour.Accounts fits spots fuel 0 0 ⟨0, ∅⟩ where
  pending_fits c hc := absurd hc (Multiset.notMem_zero c)
  map_spot := rfl
  seen_subset := Finset.empty_subset spots
  fuel_le := by simpa using hfuel

omit [DecidableEq T] in
/-- A search starts with one cursor that is not asked, and fuel for it and all spots. -/
theorem accounts_singleton {c : C} (hc : fits c) (hfuel : spots.card + 1 ≤ fuel) :
    tour.Accounts fits spots fuel {tour.spot c} 0 ⟨{c}, ∅⟩ where
  pending_fits d hd := Multiset.mem_singleton.mp hd ▸ hc
  map_spot := by simp
  seen_subset := Finset.empty_subset spots
  fuel_le := by
    rw [Multiset.card_singleton, Finset.card_empty]
    omega

omit [DecidableEq T] in
/-- A cursor is taken off the agenda and looked at. -/
theorem Accounts.pop {pending : Multiset C} {seen : Finset T} {c : C}
    (h : tour.Accounts fits spots (fuel + 1) extra past ⟨c ::ₘ pending, seen⟩) :
    tour.Accounts fits spots fuel extra (tour.spot c ::ₘ past) ⟨pending, seen⟩ where
  pending_fits d hd := h.pending_fits d (Multiset.mem_cons_of_mem hd)
  map_spot := by
    have hmap := h.map_spot
    rwa [Multiset.map_cons, Multiset.cons_add, ← Multiset.add_cons] at hmap
  seen_subset := h.seen_subset
  fuel_le := by
    have hfuel := h.fuel_le
    dsimp only at hfuel ⊢
    rw [Multiset.card_cons] at hfuel
    omega

/-- Moves are put on the agenda. -/
theorem Accounts.pushAll {agenda : Agenda C T} {moves : List C}
    (h : tour.Accounts fits spots fuel extra past agenda) (hmoves : ∀ d ∈ moves, fits d)
    (hspots : ∀ d, fits d → tour.spot d ∈ spots) :
    tour.Accounts fits spots fuel extra past (agenda.pushAll tour.spot moves) where
  pending_fits d hd := by
    rcases (Agenda.pending_pushAll tour.spot agenda moves).2 d hd with hd | hd
    · exact h.pending_fits d hd
    · exact hmoves d hd
  map_spot := map_spot_pushAll tour.spot agenda moves h.map_spot
  seen_subset s hs := by
    rcases (Agenda.mem_seen_pushAll tour.spot agenda moves).mp hs with hs | ⟨d, hd, rfl⟩
    · exact h.seen_subset hs
    · exact hspots d (hmoves d hd)
  fuel_le := by
    have hcard := Agenda.card_pushAll tour.spot agenda moves
    have hfuel := h.fuel_le
    omega

omit [DecidableEq T] in
/-- Without fuel nothing is pending. -/
theorem Accounts.pending_eq_zero {agenda : Agenda C T}
    (h : tour.Accounts fits spots 0 extra past agenda) : agenda.pending = 0 := by
  have hfuel := h.fuel_le
  have hcard := Finset.card_le_card h.seen_subset
  exact Multiset.card_eq_zero.mp (by omega)

omit [DecidableEq T] in
/-- What has been looked at has been seen. -/
theorem Accounts.past_le {agenda : Agenda C T}
    (h : tour.Accounts fits spots fuel extra past agenda) : past ≤ extra + spots.val := by
  refine le_trans ?_ (Multiset.add_le_add_left (Finset.val_le_iff.mpr h.seen_subset))
  rw [← h.map_spot]
  exact Multiset.le_add_left _ _

/-- The cursors of a search fit, and their spots stay within a bound together with the past ones. -/
structure Traces (tour : Tour C T) (fits : C → Prop) (bound past : Multiset T) (cursors : List C) :
    Prop where
  fits : ∀ c ∈ cursors, fits c
  spots_le : past + ↑(cursors.map tour.spot) ≤ bound

omit [DecidableEq T] in
theorem Traces.nil {bound : Multiset T} (h : past ≤ bound) : tour.Traces fits bound past [] :=
  ⟨List.forall_mem_nil _, by simpa using h⟩

omit [DecidableEq T] in
theorem Traces.cons {bound : Multiset T} {c : C} (hc : fits c)
    (h : tour.Traces fits bound (tour.spot c ::ₘ past) cursors) :
    tour.Traces fits bound past (c :: cursors) where
  fits := List.forall_mem_cons.mpr ⟨hc, h.fits⟩
  spots_le := by
    have hle := h.spots_le
    rwa [Multiset.cons_add, ← Multiset.add_cons, Multiset.cons_coe] at hle

omit [DecidableEq T] in
/-- If all spots are asked, no two cursors have the same one. -/
theorem Traces.nodup (h : tour.Traces fits spots.val 0 cursors) :
    (cursors.map tour.spot).Nodup := by
  have hle := h.spots_le
  rw [zero_add] at hle
  exact Multiset.coe_nodup.mp (Multiset.nodup_of_le hle spots.nodup)

omit [DecidableEq T] in
theorem Traces.length_le {bound : Multiset T} (h : tour.Traces fits bound 0 cursors) :
    cursors.length ≤ bound.card := by
  have hle := Multiset.card_le_card h.spots_le
  rwa [zero_add, Multiset.coe_card, List.length_map] at hle

omit [DecidableEq T] in
/-- After a cursor that is not asked, all are. -/
theorem Traces.tail {c : C}
    (h : tour.Traces fits ({tour.spot c} + spots.val) 0 (c :: cursors)) :
    tour.Traces fits spots.val 0 cursors where
  fits := (List.forall_mem_cons.mp h.fits).2
  spots_le := by
    have hle := h.spots_le
    rw [zero_add, List.map_cons, ← Multiset.cons_coe, Multiset.singleton_add] at hle
    rw [zero_add]
    exact (Multiset.cons_le_cons_iff _).mp hle

/-- A loop that is driven by a tour comes to an end. The cursors that it looks at fit, and no two of
them have the same spot, but for those that were not asked. -/
theorem exists_ends_run (hdrives : tour.Drives loop cursor? agenda)
    (hbounded : source.Bounded nodes) (hmoves : ∀ c, fits c → ∀ d ∈ tour.moves c, fits d)
    (hspots : ∀ d, fits d → tour.spot d ∈ spots)
    (h : tour.Accounts fits spots fuel extra past (agenda search)) :
    ∃ cursors, loop.Ends cursor? source limits search cursors
        (loop.run source limits fuel search).run ∧
      tour.Traces fits (extra + spots.val) past cursors := by
  induction fuel generalizing search past with
  | zero =>
    cases hcursor : cursor? search with
    | none => exact ⟨[], .empty (hdrives.stop hcursor).1, .nil h.past_le⟩
    | some c =>
      obtain ⟨rest, hagenda, -⟩ := hdrives.take hcursor
      have hpending := h.pending_eq_zero
      rw [hagenda] at hpending
      exact absurd hpending Multiset.cons_ne_zero
  | succ fuel ih =>
    have hpast := h.past_le
    cases hcursor : cursor? search with
    | none =>
      rw [SearchLoop.run_of_none (hdrives.stop hcursor).1]
      exact ⟨[], .empty (hdrives.stop hcursor).1, .nil hpast⟩
    | some c =>
      obtain ⟨rest, hagenda, hturn⟩ := hdrives.take hcursor
      obtain ⟨turn, hsome⟩ : ∃ turn, loop.turn? search = some turn := by
        rcases hturn with ⟨resume, hturn, -⟩ | ⟨next, hturn, -⟩
        · exact ⟨_, hturn⟩
        · exact ⟨_, hturn⟩
      cases hfull : (loop.collection search).isFull limits with
      | true =>
        rw [SearchLoop.run_of_isFull hfull]
        exact ⟨[], .full hfull, .nil hpast⟩
      | false =>
        cases htime : limits.expiredAt (loop.states search + 1) with
        | true =>
          rw [SearchLoop.run_of_expired hsome hfull htime]
          exact ⟨[], .expired hsome hfull htime, .nil hpast⟩
        | false =>
          rw [hagenda] at h
          have hc := h.pending_fits c (Multiset.mem_cons_self c rest)
          rcases hturn with ⟨resume, hturn, hresume⟩ | ⟨next, hturn, hnext, -⟩
          · rw [SearchLoop.run_of_collect hturn hfull htime]
            have hgathers : Collection.Gathers source limits [tour.target c] _ _ :=
              Collection.gathers_collect hbounded _ (loop.collection search)
            have hrest := h.pop
            rw [← (hresume _).1] at hrest
            obtain ⟨cursors, hends, htraces⟩ := ih hrest
            exact ⟨c :: cursors, .collect hcursor hturn hfull htime hgathers hends, htraces.cons hc⟩
          · rw [SearchLoop.run_of_expand hturn hfull htime]
            have hrest := h.pop.pushAll (hmoves c hc) hspots
            rw [← hnext] at hrest
            obtain ⟨cursors, hends, htraces⟩ := ih hrest
            exact ⟨c :: cursors, .expand hcursor hturn hfull htime hends, htraces.cons hc⟩

/-! ### What is counted -/

omit [Std.TransOrd P] in
/-- A turn that collects does so below the cursor that is looked at. -/
theorem Drives.collect (hdrives : tour.Drives loop cursor? agenda) {c : C} {id : Nat}
    {resume : Collection P → S} (hcursor : cursor? search = some c)
    (hturn : loop.turn? search = some (.collect id resume)) (collection : Collection P) :
    id = tour.target c ∧ loop.collection (resume collection) = collection ∧
      loop.states (resume collection) = loop.states search + 1 := by
  obtain ⟨rest, -, ⟨resume', hturn', hresume⟩ | ⟨next, hturn', -⟩⟩ := hdrives.take hcursor
  · obtain ⟨rfl, rfl⟩ := SearchTurn.collect.inj (Option.some.inj (hturn.symm.trans hturn'))
    exact ⟨rfl, (hresume collection).2⟩
  · cases hturn.symm.trans hturn'

omit [Std.TransOrd P] in
theorem Drives.expand (hdrives : tour.Drives loop cursor? agenda) {c : C} {next : Id S}
    (hcursor : cursor? search = some c) (hturn : loop.turn? search = some (.expand next)) :
    loop.collection next.run = loop.collection search ∧
      loop.states next.run = loop.states search + 1 := by
  obtain ⟨rest, -, ⟨resume, hturn', -⟩ | ⟨next', hturn', -, hnext⟩⟩ := hdrives.take hcursor
  · cases hturn.symm.trans hturn'
  · obtain rfl := SearchTurn.expand.inj (Option.some.inj (hturn.symm.trans hturn'))
    exact hnext

/-- The steps that are counted are the cursors that the search looks at. -/
theorem Drives.states_eq (hdrives : tour.Drives loop cursor? agenda)
    (h : loop.Ends cursor? source limits search cursors outcome) :
    outcome.stats.states = loop.states search + cursors.length := by
  induction h with
  | empty => rfl
  | full => rfl
  | expired => rfl
  | collect hcursor hturn hfull htime hgathers h ih =>
    rw [ih, (hdrives.collect hcursor hturn _).2.2, List.length_cons, Nat.add_right_comm,
      Nat.add_assoc]
  | expand hcursor hturn hfull htime h ih =>
    rw [ih, (hdrives.expand hcursor hturn).2, List.length_cons, Nat.add_right_comm, Nat.add_assoc]

/-- A search does not collect at more nodes than the edges lead to. -/
theorem Drives.collected_le (hdrives : tour.Drives loop cursor? agenda)
    (h : loop.Ends cursor? source limits search cursors outcome)
    (hnodes : ∀ v w, w ∈ source.childrenFrom v → w ∈ nodes)
    (hcursors : ∀ c ∈ cursors, tour.target c ∈ nodes)
    (hvisited : ∀ v ∈ (loop.collection search).visited, v ∈ nodes) :
    outcome.stats.collected ≤ nodes.card := by
  induction h with
  | empty => exact Collection.size_visited_le hvisited
  | full => exact Collection.size_visited_le hvisited
  | expired => exact Collection.size_visited_le hvisited
  | @collect _ _ _ _ collection _ _ hcursor hturn hfull htime hgathers h ih =>
    obtain ⟨hc, hcursors⟩ := List.forall_mem_cons.mp hcursors
    obtain ⟨hid, hcollection, -⟩ := hdrives.collect hcursor hturn collection
    have hvisited := hgathers.visited_mem hnodes
      (fun v hv => List.mem_singleton.mp hv ▸ hid ▸ hc) hvisited
    rw [← hcollection] at hvisited
    exact ih hcursors hvisited
  | expand hcursor hturn hfull htime h ih =>
    have hcollection := (hdrives.expand hcursor hturn).1
    rw [← hcollection] at hvisited
    exact ih (List.forall_mem_cons.mp hcursors).2 hvisited

end Tour

/-! ### Both searches -/

section Searches

variable {keys : SearchKeys} {automaton : Automaton}

/-- The next cursor of a search for keys. -/
def KeySearch.cursor? (search : KeySearch P) : Option KeyCursor := search.stack.head?

/-- The next cursor of a search with an automaton. -/
def MatchSearch.cursor? (search : MatchSearch P) : Option MatchCursor := search.next?.map Prod.fst

omit [Std.TransOrd P] in
theorem KeySearch.states_pushAll (search : KeySearch P) (moves : List KeyCursor) :
    (moves.foldl (·.push keys ·) search).states = search.states := by
  induction moves generalizing search with
  | nil => rfl
  | cons cursor moves ih =>
    rw [List.foldl_cons, ih, push]
    split
    · rfl
    · split <;> rfl

omit [Std.TransOrd P] in
theorem MatchSearch.states_pushAll (search : MatchSearch P) (moves : List MatchMove) :
    (moves.foldl push search).states = search.states := by
  induction moves generalizing search with
  | nil => rfl
  | cons move moves ih =>
    rw [List.foldl_cons, ih, push]
    split
    · rfl
    · split <;> rfl

omit [Std.TransOrd P] in
theorem MatchSearch.states_next? {search rest : MatchSearch P} {cursor : MatchCursor}
    (h : search.next? = some (cursor, rest)) : rest.states = search.states := by
  unfold next? at h
  split at h
  · obtain ⟨-, rfl⟩ := Prod.mk.inj (Option.some.inj h)
    rfl
  · split at h
    · obtain ⟨-, rfl⟩ := Prod.mk.inj (Option.some.inj h)
      rfl
    · cases h

omit [Std.TransOrd P] in
/-- A search with an automaton starts on some edges. -/
theorem MatchSearch.agenda_initial (automaton : Automaton) (edges : List EdgeRecord) :
    (initial automaton edges : MatchSearch P).agenda =
      Agenda.pushAll MatchCursor.spot ⟨0, ∅⟩
        (edges.map fun edge => ⟨automaton.start, edge, 0⟩) := by
  have hallowed : ((edges.map fun edge => (⟨⟨automaton.start, edge, 0⟩, true⟩ : MatchMove)).filter
      MatchMove.allowed).map MatchMove.cursor =
        edges.map fun edge => (⟨automaton.start, edge, 0⟩ : MatchCursor) := by
    rw [List.filter_map, List.map_map]
    simp [Function.comp_def]
  have hempty : (⟨[], [], ∅, .empty, 0, 0⟩ : MatchSearch P).agenda = ⟨0, ∅⟩ := by
    rw [agenda, spotsOf_empty]
    rfl
  rw [initial, (agenda_pushAll _ _).1, hallowed, hempty]

omit [Std.TransOrd P] in
/-- The search for keys is driven by its tour. -/
theorem TreeSource.drives_keyLoop (source : TreeSource Id P) (keys : SearchKeys)
    (start : KeyCursor) :
    (source.keyTour keys start).Drives (source.keyLoop keys) KeySearch.cursor?
      KeySearch.agenda where
  stop {search} hcursor := by
    have hstack : search.stack = [] := List.head?_eq_none_iff.mp hcursor
    simp [keyLoop, KeySearch.agenda, hstack]
  take {search cursor} hcursor := by
    obtain ⟨stack, hstack⟩ := List.head?_eq_some_iff.mp hcursor
    refine ⟨↑stack, by rw [KeySearch.agenda, hstack]; rfl, ?_⟩
    set taken : KeySearch P := { search with stack, states := search.states + 1 } with htaken
    have hturn : (source.keyLoop keys).turn? search = some (source.keyTurn keys cursor taken) := by
      simp only [keyLoop, hstack, htaken]
    by_cases hfinal : cursor.key = keys.count
    · rw [keyTurn, if_pos hfinal] at hturn
      exact Or.inl ⟨_, hturn, fun collection => ⟨rfl, rfl, rfl⟩⟩
    · rw [keyTurn, if_neg hfinal] at hturn
      have hmoves : (source.keyTour keys start).moves cursor =
          (source.keyWays keys cursor).run.filter (·.isFeasible keys) := by
        have hways : (source.keyWays keys cursor).run = source.keyMoves keys cursor := by
          unfold keyWays keyMoves
          split <;> rfl
        rw [hways]
        exact if_neg hfinal
      refine Or.inr ⟨_, hturn, ?_, (taken.agenda_pushAll _).2, taken.states_pushAll _⟩
      rw [hmoves]
      exact (taken.agenda_pushAll _).1

omit [Std.TransOrd P] in
/-- The search with an automaton is driven by its tour. -/
theorem TreeSource.drives_matchLoop (source : TreeSource Id P) (automaton : Automaton) :
    (source.matchTour automaton).Drives (source.matchLoop automaton) MatchSearch.cursor?
      MatchSearch.agenda where
  stop {search} hcursor := by
    have hnext : search.next? = none := Option.map_eq_none_iff.mp hcursor
    exact ⟨by simp only [matchLoop, hnext, Option.map_none], search.pending_of_next?_none hnext⟩
  take {search _} hcursor := by
    obtain ⟨⟨cursor, rest⟩, hnext, rfl⟩ := Option.map_eq_some_iff.mp hcursor
    dsimp only
    obtain ⟨hagenda, hcollection⟩ := MatchSearch.agenda_next? hnext
    have hstates := MatchSearch.states_next? hnext
    set taken : MatchSearch P := { rest with states := rest.states + 1 } with htaken
    have hrest : taken.agenda = ⟨rest.agenda.pending, search.agenda.seen⟩ := by
      rw [hagenda]
      rfl
    refine ⟨rest.agenda.pending, by rw [hagenda], ?_⟩
    have hturn : (source.matchLoop automaton).turn? search =
        some (source.matchTurn automaton cursor taken) := by
      simp only [matchLoop, hnext, Option.map_some, htaken]
    by_cases hfinal : cursor.state = automaton.accept
    · rw [matchTurn, if_pos hfinal] at hturn
      exact Or.inl ⟨_, hturn, fun collection => ⟨hrest, rfl, congrArg (· + 1) hstates⟩⟩
    · rw [matchTurn, if_neg hfinal] at hturn
      have hmoves : (source.matchTour automaton).moves cursor =
          ((source.moves automaton cursor).run.filter MatchMove.allowed).map MatchMove.cursor :=
        if_neg hfinal
      obtain ⟨hagenda', hcollection'⟩ := taken.agenda_pushAll (source.moves automaton cursor).run
      refine Or.inr ⟨_, hturn, ?_, hcollection'.trans hcollection,
        (taken.states_pushAll _).trans (congrArg (· + 1) hstates)⟩
      rw [hmoves, ← hrest]
      exact hagenda'

/-- A search for keys comes to an end, having looked at some cursors. -/
inductive TreeSource.EndsKeys (source : TreeSource Id P) (table : SymbolTable)
    (limits : SearchLimits) (keys : List (List Char)) : List KeyCursor → SearchOutcome P → Prop
  /-- The table does not know one of the characters. -/
  | unknown (hkeys : SearchKeys.ofList? table keys = none) :
      EndsKeys source table limits keys [] (.nothing 0)
  /-- There is no key. -/
  | blank {found : SearchKeys} (hkeys : SearchKeys.ofList? table keys = some found)
      (hcount : found.count = 0) : EndsKeys source table limits keys [] (.nothing 0)
  /-- The tree does not spell the first key. -/
  | missing {found : SearchKeys} (hkeys : SearchKeys.ofList? table keys = some found)
      (hcount : found.count ≠ 0) (hdescends : source.Descends found source.root 0 .missing) :
      EndsKeys source table limits keys [] (.nothing 0)
  /-- A mask rules the first key out. -/
  | pruned {found : SearchKeys} (hkeys : SearchKeys.ofList? table keys = some found)
      (hcount : found.count ≠ 0) (hdescends : source.Descends found source.root 0 .pruned) :
      EndsKeys source table limits keys [] (.nothing 1)
  /-- The search goes on from where the first key ends. -/
  | searched {found : SearchKeys} {edge : EdgeRecord} {offset : Nat} {cursors : List KeyCursor}
      {outcome : SearchOutcome P} (hkeys : SearchKeys.ofList? table keys = some found)
      (hcount : found.count ≠ 0)
      (hdescends : source.Descends found source.root 0 (.found edge offset))
      (hends : (source.keyLoop found).Ends KeySearch.cursor? source limits
        ⟨[⟨edge, offset, 1, 0⟩], ∅, .empty, 0, 0⟩ cursors outcome) :
      EndsKeys source table limits keys cursors outcome

end Searches

end SentenceSearch
