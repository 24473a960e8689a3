import SentenceSearch.Proofs.Search.KeyOrder
import SentenceSearch.Proofs.Search.Keys
import SentenceSearch.Proofs.Search.TreePlaces

/-!
# Keys in order in a suffix tree

The cursors of a search for keys stand where the keys before them occur in order in what is
spelled. A suffix that has the keys in order is followed along its way down, because the masks
offer all that it still has.

## Main definitions

* `SuffixTree.KeyStart` — the first cursor of a search for keys
* `SuffixTree.KeyTowards` — a cursor on the way to a node

## Main results

* `Labelled.occurs_of_reached` — where a cursor stands, the keys before it occur in order
* `KeyTowards.exists_final` — a suffix with the keys in order is followed to the last key
* `Records.descend_spec` — where the first key ends
-/

namespace SentenceSearch

namespace SuffixTree

open SearchKeys

variable {P : Type} {tree : SuffixTree P} {spell : Nat → List Char} {ends : List Char → Array P}
  {table : SymbolTable} {keys : List (List Char)} {cursor next start : KeyCursor}
  {x text rest : List Char} {k pos w : Nat} {p : P}

/-- The search starts where the first key ends, before the second one. -/
structure KeyStart (tree : SuffixTree P) (spell : Nat → List Char) (keys : List (List Char))
    (start : KeyCursor) : Prop where
  place : tree.Place spell start.edge start.offset (keys.getD 0 [])
  key : start.key = 1
  pos : start.pos = 0
  keys_ne : keys ≠ []
  key_ne : ∀ key ∈ keys, key ≠ []

theorem advance_ofKeys :
    cursor.advance (ofKeys table keys) = ⟨cursor.edge, cursor.offset + 1,
      (afterChar keys cursor.key cursor.pos).1, (afterChar keys cursor.key cursor.pos).2⟩ := by
  unfold KeyCursor.advance afterChar
  rw [key_ofKeys, List.size_toArray]
  split <;> rfl

theorem KeyStart.keyAt (h : KeyStart tree spell keys start) : KeyAt keys start.key start.pos := by
  rw [h.key, h.pos]
  exact keyAt_one h.keys_ne h.key_ne

/-! ### Soundness -/

/-- A cursor stands at a place before which the keys up to there occur in order: if what it wants
comes next, all keys do. -/
theorem KeyStart.occurs_of_reached (h : KeyStart tree spell keys start)
    (hlabelled : Labelled tree spell)
    (hreached : ((tree.source (m := Id)).keyTour (ofKeys table keys) start).Reached cursor) :
    KeyAt keys cursor.key cursor.pos ∧ ∃ x, tree.Place spell cursor.edge cursor.offset x ∧
      ∀ rest, Wants keys cursor.key cursor.pos rest → OccursInOrder keys (x ++ rest) := by
  induction hreached with
  | start hstart =>
    subst hstart
    refine ⟨h.keyAt, _, h.place, fun rest hwants => ?_⟩
    rw [h.key, h.pos, wants_start] at hwants
    have hkeys := drop_eq_getD_cons [] (List.length_pos_iff.mpr h.keys_ne)
    rw [List.drop_zero] at hkeys
    rw [hkeys]
    exact ⟨[], rest, rfl, hwants⟩
  | @move cursor next _ hmove ih =>
    obtain ⟨hat, x, hplace, hoccurs⟩ := ih
    obtain ⟨hne, hstep, -⟩ := mem_keyTour_moves_iff.mp hmove
    rw [count_ofKeys] at hne
    have hk := lt_of_le_of_ne hat.le hne
    cases hstep with
    | read hinside hchar =>
      have hplace' := hplace.next hlabelled (lt_of_le_of_ne hplace.le hinside)
      rw [advance_ofKeys]
      refine ⟨hat.afterChar hk h.key_ne, _, hplace', fun rest hwants => ?_⟩
      rw [getD_key_ofKeys] at hchar
      rw [List.append_assoc, List.singleton_append, hchar]
      exact hoccurs _ (Wants.cons hat hk hwants)
    | skip hinside hpos =>
      have hplace' := hplace.next hlabelled (lt_of_le_of_ne hplace.le hinside)
      refine ⟨hat, _, hplace', fun rest hwants => ?_⟩
      rw [List.append_assoc, List.singleton_append]
      refine hoccurs _ ?_
      change Wants keys cursor.key cursor.pos rest at hwants
      rw [hpos] at hwants ⊢
      exact hwants.skip
    | enter edge hend hedge _ =>
      exact ⟨hat, x, hplace.enter hlabelled hend hedge, hoccurs⟩

/-! ### The spots of a search -/

/-- The spots of the places of the tree and of the keys. -/
def keySpots (tree : SuffixTree P) (keys : List (List Char)) : Finset KeySpot :=
  (tree.places ×ˢ (SearchKeys.places 0 keys).toFinset).image fun spot =>
    ⟨spot.1.1, spot.1.2, spot.2.1, spot.2.2⟩

theorem card_keySpots_le :
    (tree.keySpots keys).card ≤
      (tree.source (m := Id)).placeCount * (ofKeys table keys).placeCount := by
  refine Finset.card_image_le.trans ?_
  rw [Finset.card_product]
  exact Nat.mul_le_mul card_places_le ((List.toFinset_card_le _).trans_eq length_places)

/-- In a suffix tree the spot of a cursor tells which one it is. -/
theorem KeyStart.told_keyTour (h : KeyStart tree spell keys start)
    (hlabelled : Labelled tree spell) :
    ((tree.source (m := Id)).keyTour (ofKeys table keys) start).Told (tree.keySpots keys) where
  inj c d hc hd hspot := by
    obtain ⟨-, x, hplace, -⟩ := h.occurs_of_reached hlabelled hc
    obtain ⟨-, y, hplace', -⟩ := h.occurs_of_reached hlabelled hd
    obtain ⟨hchild, hoffset, hkey, hpos⟩ := KeySpot.mk.inj hspot
    have hedge := hplace.edge_eq hplace' hlabelled hchild
    cases c
    cases d
    simp_all
  mem c hc := by
    obtain ⟨hat, x, hplace, -⟩ := h.occurs_of_reached hlabelled hc
    have hkeys := mem_places (k := 0) hat
    rw [Nat.zero_add] at hkeys
    exact Finset.mem_image.mpr ⟨((c.edge.child, c.offset), c.key, c.pos), Finset.mem_product.mpr
      ⟨hplace.mem_places hlabelled, List.mem_toFinset.mpr hkeys⟩, rfl⟩

/-! ### Completeness -/

/-- A cursor on the way to the node `w`, where `text` is left and has what the cursor wants. -/
structure KeyTowards (tree : SuffixTree P) (spell : Nat → List Char) (table : SymbolTable)
    (keys : List (List Char)) (start : KeyCursor) (w : Nat) (text : List Char)
    (cursor : KeyCursor) : Prop where
  reached : ((tree.source (m := Id)).keyTour (ofKeys table keys) start).Reached cursor
  keyAt : KeyAt keys cursor.key cursor.pos
  place : ∃ x, tree.Place spell cursor.edge cursor.offset x ∧ spell w = x ++ text
  towards : spell cursor.edge.child <+: spell w
  wants : Wants keys cursor.key cursor.pos text

/-- The masks allow a cursor on the way to a node that has what the cursor wants. -/
theorem Records.isFeasible (h : Records table tree spell ends)
    (hplace : tree.Place spell cursor.edge cursor.offset x) (hw : w < tree.nodeCount)
    (hto : spell cursor.edge.child <+: spell w) (hspell : spell w = x ++ text)
    (hat : KeyAt keys cursor.key cursor.pos) (hwants : Wants keys cursor.key cursor.pos text) :
    cursor.isFeasible (ofKeys table keys) = true := by
  rw [KeyCursor.isFeasible, count_ofKeys, Bool.or_eq_true, decide_eq_true_iff]
  rcases Nat.lt_or_ge cursor.key keys.length with hk | hk
  · rw [requiredAt_ofKeys hk (hat.pos_lt hk)]
    exact Or.inr (Mask.allows_trans (hwants.maskOf_allows hk)
      (h.maskOf_allows_partialMask hplace hw hto hspell))
  · exact Or.inl hk

/-- A step of a cursor on the way to a node, if what is left there has what is wanted. -/
theorem KeyTowards.step (hcursor : KeyTowards tree spell table keys start w rest cursor)
    (h : Records table tree spell ends) (hw : w < tree.nodeCount) (hne : cursor.key ≠ keys.length)
    (hstep : KeyStep tree.source (ofKeys table keys) cursor next)
    (hplace : tree.Place spell next.edge next.offset x) (hspell : spell w = x ++ text)
    (hto : spell next.edge.child <+: spell w) (hat : KeyAt keys next.key next.pos)
    (hwants : Wants keys next.key next.pos text) :
    KeyTowards tree spell table keys start w text next where
  reached := hcursor.reached.move (mem_keyTour_moves_iff.mpr
    ⟨by rwa [count_ofKeys], hstep, h.isFeasible hplace hw hto hspell hat hwants⟩)
  keyAt := hat
  place := ⟨x, hplace, hspell⟩
  towards := hto
  wants := hwants

/-- Before a character is read, a cursor at the end of an edge goes on to the next one. -/
theorem KeyTowards.exists_inside {c : Char}
    (hcursor : KeyTowards tree spell table keys start w (c :: text) cursor)
    (h : Records table tree spell ends) (hw : w < tree.nodeCount)
    (hne : cursor.key ≠ keys.length) :
    ∃ cursor', KeyTowards tree spell table keys start w (c :: text) cursor' ∧
      cursor'.key = cursor.key ∧ cursor'.offset < cursor'.edge.length := by
  have hlabelled := h.settled.stores.labelled
  obtain ⟨x, hplace, hspell⟩ := hcursor.place
  rcases Nat.lt_or_eq_of_le hplace.le with hlt | hend
  · exact ⟨cursor, hcursor, rfl, hlt⟩
  · obtain ⟨edge, hedge, hto, hfirst⟩ := hplace.enter_towards hlabelled hend hw hspell
    have hplace' := hplace.enter hlabelled hend hedge
    refine ⟨cursor.enter edge, hcursor.step h hw hne (.enter edge hend hedge ?_) hplace' hspell hto
      hcursor.keyAt hcursor.wants, rfl, hplace'.length_pos hlabelled⟩
    -- Inside a key the edge begins with the next character of it.
    have hk := lt_of_le_of_ne hcursor.keyAt.le hne
    rcases Wants.uncons hcursor.keyAt hk hcursor.wants with ⟨hchar, -⟩ | ⟨hpos, -⟩
    · rw [getD_key_ofKeys]
      exact Or.inr (hfirst.trans hchar)
    · exact Or.inl hpos

/-- A suffix that has what a cursor wants is followed to the last key. -/
theorem KeyTowards.exists_final (hcursor : KeyTowards tree spell table keys start w text cursor)
    (h : Records table tree spell ends) (hw : w < tree.nodeCount)
    (hkeys : ∀ key ∈ keys, key ≠ []) :
    ∃ cursor' rest, cursor'.key = keys.length ∧
      KeyTowards tree spell table keys start w rest cursor' := by
  have hlabelled := h.settled.stores.labelled
  induction text generalizing cursor with
  | nil => exact ⟨cursor, [], hcursor.wants.eq_length hcursor.keyAt, hcursor⟩
  | cons c text ih =>
    by_cases hne : cursor.key = keys.length
    · exact ⟨cursor, _, hne, hcursor⟩
    · obtain ⟨inside, hinside, hkey, hlt⟩ := hcursor.exists_inside h hw hne
      rw [← hkey] at hne
      obtain ⟨x, hplace, hspell⟩ := hinside.place
      have hk := lt_of_le_of_ne hinside.keyAt.le hne
      have hchar := hplace.charAt_eq hlabelled hlt hinside.towards hspell
      have hplace' := hplace.next hlabelled hlt
      have hspell' : spell w = (x ++ [inside.edge.charAt inside.offset]) ++ text := by
        rw [hspell, hchar, List.append_assoc]
        rfl
      rcases Wants.uncons hinside.keyAt hk hinside.wants with ⟨hc, hwants⟩ | ⟨hpos, hwants⟩
      · refine ih (hinside.step h hw hne (.read (Nat.ne_of_lt hlt) ?_) ?_ hspell' ?_ ?_ ?_)
        · rw [getD_key_ofKeys]
          exact hchar.trans hc
        all_goals rw [advance_ofKeys]
        · exact hplace'
        · exact hinside.towards
        · exact hinside.keyAt.afterChar hk hkeys
        · exact hwants
      · exact ih (hinside.step h hw hne (.skip (Nat.ne_of_lt hlt) hpos) hplace' hspell'
          hinside.towards hinside.keyAt hwants)

/-! ### The first key -/

/-- The string of some node has the keys in order, the first one at its start. -/
def StartsInOrder (tree : SuffixTree P) (spell : Nat → List Char) (keys : List (List Char))
    (w : Nat) : Prop :=
  w < tree.nodeCount ∧ ∃ rest, spell w = keys.getD 0 [] ++ rest ∧ OccursInOrder (keys.drop 1) rest

/-- Where matching the first key has come to is right: at a place that spells it and that all nodes
with the keys in order are below, or nowhere if there is no such node. -/
def DescentFits (tree : SuffixTree P) (spell : Nat → List Char) (keys : List (List Char)) :
    Descent → Prop
  | .found edge offset => tree.Place spell edge offset (keys.getD 0 []) ∧
      ∀ w, tree.StartsInOrder spell keys w → spell edge.child <+: spell w
  | _ => ∀ w, ¬ tree.StartsInOrder spell keys w

/-- If a node has the keys in order, the first key has been matched on the way to the node. -/
theorem DescentFits.exists_found {descent : Descent} (h : tree.DescentFits spell keys descent)
    (hw : tree.StartsInOrder spell keys w) :
    ∃ edge offset, descent = .found edge offset ∧
      tree.Place spell edge offset (keys.getD 0 []) ∧ spell edge.child <+: spell w := by
  cases descent with
  | missing => exact absurd hw (h w)
  | pruned => exact absurd hw (h w)
  | found edge offset => exact ⟨edge, offset, rfl, h.1, h.2 w hw⟩

/-- A node that has the keys in order is below the edge that goes on with the first key. -/
theorem StartsInOrder.towards {id e : Nat} {c : Char} (hw : tree.StartsInOrder spell keys w)
    (hlabelled : Labelled tree spell) (he : tree.Filed id c e)
    (hkey : keys.getD 0 [] = spell id ++ c :: rest) : spell (tree.edge e).child <+: spell w := by
  obtain ⟨hlt, after, hspell, -⟩ := hw
  rw [hkey, List.append_assoc, List.cons_append] at hspell
  have hne : w ≠ id := by
    rintro rfl
    simp at hspell
  obtain ⟨d, e', he', hto⟩ := hlabelled.exists_edge_towards hlt he.lt hne
    (hspell ▸ List.prefix_append _ _)
  have hchar := (place_start spell he').charAt_eq hlabelled
    (hlabelled.fits he').length_pos hto hspell
  obtain rfl : d = c := (hlabelled.fits he').first.symm.trans hchar
  exact he.unique he' ▸ hto

/-- The masks of an edge on the way allow the rest of the first key and all other keys. -/
theorem Records.requiredAt_allows {id e : Nat} {c : Char} (h : Records table tree spell ends)
    (hkeys : keys ≠ []) (hkey : keys.getD 0 [] = spell id ++ c :: rest)
    (hpos : pos = (spell id).length) (he : tree.Filed id c e)
    (hw : tree.StartsInOrder spell keys w) :
    ((ofKeys table keys).requiredAt 0 pos).allows (tree.record (tree.edge e)).fullMask = true := by
  have hto := hw.towards h.settled.stores.labelled he hkey
  obtain ⟨hlt, after, hspell, hoccurs⟩ := hw
  rw [hkey, List.append_assoc] at hspell
  refine Mask.allows_trans ?_ (h.maskOf_allows_partialMask (place_start spell he) hlt hto hspell)
  have hlength : pos < (keys.getD 0 []).length := by
    rw [hkey, hpos, List.length_append, List.length_cons]
    omega
  rw [requiredAt_ofKeys (List.length_pos_iff.mpr hkeys) hlength, hkey, hpos, List.drop_left,
    table.maskOf_append, table.maskOf_append, Mask.or_allows_iff]
  exact ⟨Mask.allows_or_left _ _,
    Mask.allows_trans hoccurs.maskOf_allows (Mask.allows_or_right _ _)⟩

/-- Without an edge for the next character of the first key no node has the keys in order. -/
theorem Labelled.not_startsInOrder {id : Nat} {c : Char} (hlabelled : Labelled tree spell)
    (hid : id < tree.nodeCount) (hkey : keys.getD 0 [] = spell id ++ c :: rest)
    (hfree : ∀ e, ¬ tree.Filed id c e) : ¬ tree.StartsInOrder spell keys w := by
  rintro ⟨hlt, after, hspell, -⟩
  rw [hkey] at hspell
  obtain ⟨e, he, -⟩ := hlabelled.exists_edge_of_spelled hid
    ⟨w, hlt, hspell ▸ List.prefix_append _ _⟩
  exact hfree e he

section Edge

variable {id e : Nat} {c : Char} {left : List Char}

/-- Where the first key differs from the label of the edge for its next character, no node has the
keys in order. -/
theorem StartsInOrder.not_differs (hw : tree.StartsInOrder spell keys w)
    (hlabelled : Labelled tree spell) (he : tree.Filed id c e)
    (hkey : keys.getD 0 [] = spell id ++ c :: rest) :
    remainderAfter (tree.record (tree.edge e)).label (c :: rest) ≠ none := by
  intro hremainder
  obtain ⟨hlabel, hrest⟩ := not_prefix_of_remainderAfter hremainder
  have hto := hw.towards hlabelled he hkey
  obtain ⟨-, after, hspell, -⟩ := hw
  rw [(hlabelled.fits he).spell_child, hspell, hkey, List.append_assoc,
    List.prefix_append_right_inj] at hto
  rcases List.prefix_or_prefix_of_prefix hto (List.prefix_append _ after) with hto | hto
  · exact hlabel hto
  · exact hrest hto

/-- Where nothing is left of the first key after an edge, it ends on the edge. -/
theorem Labelled.place_of_remainderAfter (hlabelled : Labelled tree spell)
    (he : tree.Filed id c e) (hkey : keys.getD 0 [] = spell id ++ c :: rest)
    (hremainder : remainderAfter (tree.record (tree.edge e)).label (c :: rest) = some []) :
    tree.Place spell (tree.record (tree.edge e)) (c :: rest).length (keys.getD 0 []) := by
  have hfront := prefix_of_remainderAfter hremainder
  refine ⟨id, c, e, he, rfl, ?_, ?_⟩
  · have hlength := hfront.length_le
    rwa [(place_start spell he).length_label hlabelled] at hlength
  · rw [hkey]
    exact congrArg _ (List.prefix_iff_eq_take.mp hfront)

/-- Where something is left of the first key after an edge, it goes on from the child. -/
theorem Labelled.key_of_remainderAfter (hlabelled : Labelled tree spell)
    (he : tree.Filed id c e) (hkey : keys.getD 0 [] = spell id ++ c :: rest) (hleft : left ≠ [])
    (hremainder : remainderAfter (tree.record (tree.edge e)).label (c :: rest) = some left) :
    keys.getD 0 [] = spell (tree.edge e).child ++ left ∧
      rest.length + 1 = (tree.edge e).length + left.length ∧
      (spell (tree.edge e).child).length = (spell id).length + (tree.edge e).length := by
  have hlabel := (cases_of_remainderAfter hremainder).resolve_right fun hend => hleft hend.1
  have hfit := hlabelled.fits he
  have hspell := congrArg List.length hfit.spell_child
  have hlength := congrArg List.length hlabel
  rw [List.length_append, hfit.length_label] at hspell
  rw [List.length_append, (place_start spell he).length_label hlabelled] at hlength
  refine ⟨?_, hlength, hspell⟩
  rw [hkey, hlabel, ← List.append_assoc]
  exact congrArg (· ++ left) hfit.spell_child.symm

end Edge

/-- Matching the first key ends where the key ends, if there is a node that has all keys. -/
theorem Records.descendFrom_spec {fuel id : Nat} (h : Records table tree spell ends)
    (hkeys : keys ≠ []) (hid : id < tree.nodeCount) (hkey : keys.getD 0 [] = spell id ++ rest)
    (hpos : pos = (spell id).length) (hrest : rest ≠ []) (hfuel : rest.length ≤ fuel) :
    tree.DescentFits spell keys
      ((tree.source (m := Id)).descendFrom (ofKeys table keys) fuel id pos rest).run := by
  have hlabelled := h.settled.stores.labelled
  induction fuel generalizing id pos rest with
  | zero => exact absurd (List.length_eq_zero_iff.mp (Nat.le_zero.mp hfuel)) hrest
  | succ fuel ih =>
    cases rest with
    | nil => exact absurd rfl hrest
    | cons c rest =>
      have hstart : (tree.source (m := Id)).edgeStarting id c =
          pure ((tree.node id).edges[c]?.map fun e => tree.record (tree.edge e)) := rfl
      rw [TreeSource.descendFrom, hstart, pure_bind]
      cases he : (tree.node id).edges[c]? with
      | none =>
        intro w
        refine hlabelled.not_startsInOrder hid hkey fun e hfiled => ?_
        cases he.symm.trans hfiled
      | some e =>
        have hfiled : tree.Filed id c e := he
        simp only [Option.map_some]
        split
        · rename_i hmask
          intro w hw
          have hallows := h.requiredAt_allows hkeys hkey hpos hfiled hw
          simp [hallows] at hmask
        · split
          · rename_i hremainder
            exact fun w hw => hw.not_differs hlabelled hfiled hkey hremainder
          · rename_i hremainder
            exact ⟨hlabelled.place_of_remainderAfter hfiled hkey hremainder,
              fun w hw => hw.towards hlabelled hfiled hkey⟩
          · rename_i left hleft hremainder
            obtain ⟨hkey', hlength, hspell⟩ :=
              hlabelled.key_of_remainderAfter hfiled hkey hleft hremainder
            have hpositive := (hlabelled.fits hfiled).length_pos
            rw [List.length_cons] at hfuel
            refine ih (hlabelled.fits hfiled).child_lt hkey' ?_ hleft (by omega)
            change _ = (spell (tree.edge e).child).length
            omega

/-- Matching the first key from the root ends where the key ends, if there is a node that has all
keys. -/
theorem Records.descend_spec (h : Records table tree spell ends) (hkeys : keys ≠ [])
    (hne : ∀ key ∈ keys, key ≠ []) :
    tree.DescentFits spell keys
      ((tree.source (m := Id)).descend (ofKeys table keys)).run := by
  have hlabelled := h.settled.stores.labelled
  have hmem : keys.getD 0 [] ∈ keys := by simp [List.length_pos_iff.mpr hkeys]
  have hkey : keys.getD 0 [] = spell root ++ keys.getD 0 [] := by
    rw [hlabelled.spell_root, List.nil_append]
  have hpos : 0 = (spell root).length := by rw [hlabelled.spell_root, List.length_nil]
  rw [TreeSource.descend, key_ofKeys]
  exact h.descendFrom_spec hkeys hlabelled.root_lt hkey hpos (hne _ hmem) (Nat.le_refl _)

/-! ### What a search finds -/

/-- Below a cursor that is past the last key the nodes have the keys in order. -/
theorem KeyStart.occurs_of_final (hstart : KeyStart tree spell keys start)
    (hlabelled : Labelled tree spell)
    (hreached : ((tree.source (m := Id)).keyTour (ofKeys table keys) start).Reached cursor)
    (hkey : cursor.key = keys.length) (hto : spell cursor.edge.child <+: spell w) :
    OccursInOrder keys (spell w) := by
  obtain ⟨hat, x, hplace, hoccurs⟩ := hstart.occurs_of_reached hlabelled hreached
  obtain ⟨rest, hrest⟩ := (hplace.spell_child hlabelled ▸ List.prefix_append _ _).trans hto
  rw [← hrest]
  refine hoccurs rest ?_
  rw [hat.pos_eq hkey, hkey]
  exact wants_length keys rest

/-- A node that has the keys in order is below a cursor that is past the last key. -/
theorem StartsInOrder.exists_final (hw : tree.StartsInOrder spell keys w)
    (hstart : KeyStart tree spell keys start) (h : Records table tree spell ends)
    (hto : spell start.edge.child <+: spell w) :
    ∃ cursor, ((tree.source (m := Id)).keyTour (ofKeys table keys) start).Reached cursor ∧
      cursor.key = keys.length ∧ spell cursor.edge.child <+: spell w := by
  obtain ⟨hlt, rest, hspell, hoccurs⟩ := hw
  have hwants : Wants keys start.key start.pos rest := by
    rw [hstart.key, hstart.pos, wants_start]
    exact hoccurs
  have htowards : KeyTowards tree spell table keys start w rest start :=
    ⟨.start rfl, hstart.keyAt, ⟨_, hstart.place, hspell⟩, hto, hwants⟩
  obtain ⟨cursor, _, hkey, hfinal⟩ := htowards.exists_final h hlt hstart.key_ne
  exact ⟨cursor, hfinal.reached, hkey, hfinal.towards⟩

variable [Ord P] [Std.TransOrd P] [Std.LawfulEqOrd P] {limits : SearchLimits}

/-- From the place where the first key ends a search finds the payloads of the nodes that have the
keys in order. -/
theorem KeyStart.mem_searchKeys_iff {fuel : Nat} (hstart : KeyStart tree spell keys start)
    (h : Records table tree spell ends) (hmax : limits.maxResults = 0)
    (hdeadline : limits.deadline = none) (hfuel : (tree.keySpots keys).card + 1 ≤ fuel) :
    p ∈ ((tree.source (m := Id)).searchKeys (ofKeys table keys) limits fuel
        ⟨[start], ∅, .empty, 0, 0⟩).run.results ↔
      ∃ cursor w, ((tree.source (m := Id)).keyTour (ofKeys table keys) start).Reached cursor ∧
        cursor.key = keys.length ∧ w < tree.nodeCount ∧ spell cursor.edge.child <+: spell w ∧
        p ∈ ends (spell w) := by
  have hlabelled := h.settled.stores.labelled
  rw [TreeSource.mem_searchKeys_iff hlabelled.bounded_source (hstart.told_keyTour hlabelled) hmax
    hdeadline hfuel, count_ofKeys]
  refine exists_congr fun cursor => exists_congr fun w => and_congr_right fun hreached =>
    and_congr_right fun _ => ?_
  obtain ⟨-, x, hplace, -⟩ := hstart.occurs_of_reached hlabelled hreached
  exact h.payload_below_iff (hplace.child_lt hlabelled)

end SuffixTree

end SentenceSearch
