import Mathlib.Algebra.Ring.Nat
import Mathlib.Data.List.Infix
import SentenceSearch.Search.Keys

/-!
# Keys in order

What it means that keys occur one after another in a text, and how far a cursor is with them. A
cursor wants the rest of the key that it is in and all later keys; the masks that a search
requires are those of what it wants.

## Main definitions

* `OccursInOrder` — the keys occur one after another
* `Wants` — what a cursor needs of what is left of a text
* `SearchKeys.ofKeys` — the keys of a search, made from a list
* `KeyAt` — the cursor is before a character of a key or after all of them

## Main results

* `Wants.cons`, `Wants.uncons` — a character either belongs to the next key or to a gap
* `requiredAt_allows` — the required masks ask for no more than what is wanted
-/

namespace SentenceSearch

variable {key left label text text' : List Char} {keys : List (List Char)} {c : Char}
  {k pos : Nat} {table : SymbolTable}

/-- The keys occur in the text one after another, each after the end of the one before it. -/
def OccursInOrder : List (List Char) → List Char → Prop
  | [], _ => True
  | key :: keys, text => ∃ before after, text = before ++ key ++ after ∧ OccursInOrder keys after

/-- A text has what occurs in a suffix of it. -/
theorem OccursInOrder.of_suffix (h : OccursInOrder keys text) (hsuffix : text <:+ text') :
    OccursInOrder keys text' := by
  cases keys with
  | nil => trivial
  | cons key keys =>
    obtain ⟨front, rfl⟩ := hsuffix
    obtain ⟨before, after, rfl, hafter⟩ := h
    exact ⟨front ++ before, after, by simp, hafter⟩

/-- The buckets of keys that occur in a text occur there. -/
theorem OccursInOrder.maskOf_allows (h : OccursInOrder keys text) :
    (table.maskOf keys.flatten).allows (table.maskOf text) = true := by
  induction keys generalizing text with
  | nil => exact Mask.zero_allows _
  | cons key keys ih =>
    obtain ⟨before, after, rfl, hafter⟩ := h
    rw [List.flatten_cons, table.maskOf_append, Mask.or_allows_iff, List.append_assoc]
    refine ⟨?_, ?_⟩
    · exact Mask.allows_trans (table.maskOf_allows_of_prefix (List.prefix_append _ _))
        (table.maskOf_allows_append _ _)
    · exact Mask.allows_trans (ih hafter) (Mask.allows_trans (table.maskOf_allows_append _ _)
        (table.maskOf_allows_append _ _))

/-- Before a key the later keys have to occur in what is left of the text. Inside a key it has to
go on with the rest of the key first. -/
def Wants (keys : List (List Char)) (k pos : Nat) (text : List Char) : Prop :=
  if pos = 0 then
    OccursInOrder (keys.drop k) text
  else
    ∃ after, text = (keys.getD k []).drop pos ++ after ∧ OccursInOrder (keys.drop (k + 1)) after

/-- The cursor is before a character of a key, or after all keys. -/
structure KeyAt (keys : List (List Char)) (k pos : Nat) : Prop where
  le : k ≤ keys.length
  pos_lt : k < keys.length → pos < (keys.getD k []).length
  pos_eq : k = keys.length → pos = 0

theorem wants_start (keys : List (List Char)) (k : Nat) (text : List Char) :
    Wants keys k 0 text ↔ OccursInOrder (keys.drop k) text := by
  rw [Wants, if_pos rfl]

theorem wants_length (keys : List (List Char)) (text : List Char) :
    Wants keys keys.length 0 text := by
  rw [wants_start, List.drop_length]
  trivial

theorem drop_eq_getD_cons {α : Type} {l : List α} {i : Nat} (d : α) (hi : i < l.length) :
    l.drop i = l.getD i d :: l.drop (i + 1) := by
  rw [List.drop_eq_getElem_cons hi, List.getD_eq_getElem?_getD, List.getElem?_eq_getElem hi,
    Option.getD_some]

/-- A key starts here when the rest of it is what comes next. -/
theorem Wants.of_rest {after : List Char} (pos : Nat) (hk : k < keys.length)
    (h : OccursInOrder (keys.drop (k + 1)) after) :
    Wants keys k pos ((keys.getD k []).drop pos ++ after) := by
  unfold Wants
  split
  · rename_i hpos
    rw [drop_eq_getD_cons [] hk, hpos]
    exact ⟨[], after, rfl, h⟩
  · exact ⟨after, rfl, h⟩

/-- After the first key a cursor is before the second one, or after all keys. -/
theorem keyAt_one (hkeys : keys ≠ []) (hne : ∀ key ∈ keys, key ≠ []) : KeyAt keys 1 0 := by
  refine ⟨List.length_pos_iff.mpr hkeys, fun hk => ?_, fun _ => rfl⟩
  have hmem : keys.getD 1 [] ∈ keys := by simp [hk]
  exact List.length_pos_iff.mpr (hne _ hmem)

/-- How far a cursor is after the next character of a key. -/
def afterChar (keys : List (List Char)) (k pos : Nat) : Nat × Nat :=
  if pos + 1 = (keys.getD k []).length then (k + 1, 0) else (k, pos + 1)

theorem KeyAt.afterChar (h : KeyAt keys k pos) (hk : k < keys.length)
    (hne : ∀ key ∈ keys, key ≠ []) :
    KeyAt keys (afterChar keys k pos).1 (afterChar keys k pos).2 := by
  have hpos := h.pos_lt hk
  unfold SentenceSearch.afterChar
  split
  · refine ⟨hk, fun hk' => ?_, fun _ => rfl⟩
    have hmem : keys.getD (k + 1) [] ∈ keys := by simp [hk']
    exact List.length_pos_iff.mpr (hne _ hmem)
  · exact ⟨h.le, fun _ => by dsimp only; omega, fun heq => absurd heq (Nat.ne_of_lt hk)⟩

/-- The next character of a key is what is wanted before the rest. -/
theorem Wants.cons (h : KeyAt keys k pos) (hk : k < keys.length)
    (hwants : Wants keys (afterChar keys k pos).1 (afterChar keys k pos).2 text) :
    Wants keys k pos ((keys.getD k []).getD pos default :: text) := by
  have hpos := h.pos_lt hk
  unfold afterChar at hwants
  split at hwants
  · rename_i hlast
    rw [wants_start] at hwants
    have hrest := Wants.of_rest pos hk hwants
    rwa [drop_eq_getD_cons default hpos, List.drop_eq_nil_of_le (Nat.le_of_eq hlast.symm)] at hrest
  · rw [Wants, if_neg (Nat.succ_ne_zero pos)] at hwants
    obtain ⟨after, rfl, hafter⟩ := hwants
    have hrest := Wants.of_rest pos hk hafter
    rwa [drop_eq_getD_cons default hpos, List.cons_append] at hrest

/-- A character of a gap may come before a key. -/
theorem Wants.skip (hwants : Wants keys k 0 text) : Wants keys k 0 (c :: text) := by
  rw [wants_start] at hwants ⊢
  exact hwants.of_suffix (List.suffix_cons c text)

/-- A character either is the next one of a key or belongs to the gap before it. -/
theorem Wants.uncons (h : KeyAt keys k pos) (hk : k < keys.length)
    (hwants : Wants keys k pos (c :: text)) :
    (c = (keys.getD k []).getD pos default ∧
        Wants keys (afterChar keys k pos).1 (afterChar keys k pos).2 text) ∨
      (pos = 0 ∧ Wants keys k pos text) := by
  have hpos := h.pos_lt hk
  have hmatch {after : List Char} (htext : c :: text = (keys.getD k []).drop pos ++ after)
      (hafter : OccursInOrder (keys.drop (k + 1)) after) :
      c = (keys.getD k []).getD pos default ∧
        Wants keys (afterChar keys k pos).1 (afterChar keys k pos).2 text := by
    rw [drop_eq_getD_cons default hpos, List.cons_append] at htext
    obtain ⟨rfl, rfl⟩ := List.cons.inj htext
    refine ⟨rfl, ?_⟩
    unfold afterChar
    split
    · rename_i hlast
      rw [wants_start, List.drop_eq_nil_of_le (Nat.le_of_eq hlast.symm)]
      exact hafter
    · rw [Wants, if_neg (Nat.succ_ne_zero pos)]
      exact ⟨after, rfl, hafter⟩
  by_cases hzero : pos = 0
  · subst hzero
    rw [wants_start, drop_eq_getD_cons [] hk] at hwants
    obtain ⟨before, after, htext, hafter⟩ := hwants
    -- The key starts with the character, or the gap does.
    cases before with
    | nil => exact Or.inl (hmatch (by simpa using htext) hafter)
    | cons d before =>
      refine Or.inr ⟨rfl, ?_⟩
      rw [wants_start, drop_eq_getD_cons [] hk]
      exact ⟨before, after, (List.cons.inj htext).2, hafter⟩
  · rw [Wants, if_neg hzero] at hwants
    obtain ⟨after, htext, hafter⟩ := hwants
    exact Or.inl (hmatch htext hafter)

/-- At the end of a text nothing can be wanted. -/
theorem Wants.eq_length (h : KeyAt keys k pos) (hwants : Wants keys k pos []) :
    k = keys.length := by
  by_contra hne
  have hk := lt_of_le_of_ne h.le hne
  have hpos := h.pos_lt hk
  by_cases hzero : pos = 0
  · subst hzero
    rw [wants_start, drop_eq_getD_cons [] hk] at hwants
    obtain ⟨before, after, htext, -⟩ := hwants
    have hlength := congrArg List.length htext
    simp only [List.length_append, List.length_nil] at hlength
    omega
  · rw [Wants, if_neg hzero] at hwants
    obtain ⟨after, htext, -⟩ := hwants
    have hlength := congrArg List.length htext
    simp only [List.length_append, List.length_drop, List.length_nil] at hlength
    omega

/-- The buckets of what is wanted of a text occur there. -/
theorem Wants.maskOf_allows (hk : k < keys.length) (hwants : Wants keys k pos text) :
    (table.maskOf ((keys.getD k []).drop pos ++ (keys.drop (k + 1)).flatten)).allows
      (table.maskOf text) = true := by
  by_cases hzero : pos = 0
  · subst hzero
    rw [wants_start, drop_eq_getD_cons [] hk] at hwants
    exact hwants.maskOf_allows
  · rw [Wants, if_neg hzero] at hwants
    obtain ⟨after, rfl, hafter⟩ := hwants
    rw [table.maskOf_append, Mask.or_allows_iff]
    exact ⟨table.maskOf_allows_of_prefix (List.prefix_append _ _),
      Mask.allows_trans hafter.maskOf_allows (table.maskOf_allows_append _ _)⟩

/-! ### The keys of a search -/

theorem ne_nil_of_mem_filter (keys : List (List Char)) :
    ∀ key ∈ keys.filter (!·.isEmpty), key ≠ [] := by
  rintro key hkey rfl
  simp at hkey

theorem sum_length_filter (keys : List (List Char)) :
    ((keys.filter (!·.isEmpty)).map List.length).sum = (keys.map List.length).sum := by
  induction keys with
  | nil => rfl
  | cons key keys ih =>
    cases key with
    | nil => simpa using ih
    | cons c key => simpa using ih

namespace SearchKeys

/-- Keys as a search uses them. -/
def ofKeys (table : SymbolTable) (keys : List (List Char)) : SearchKeys where
  chars := (keys.map List.toArray).toArray
  required := ((requiredMasks table keys).map List.toArray).toArray

/-- A search has keys when the table knows all of their characters. The empty ones are left out. -/
theorem ofList?_eq_some_iff {found : SearchKeys} :
    ofList? table keys = some found ↔
      (∀ key ∈ keys, ∀ c ∈ key, table.contains c = true) ∧
        found = ofKeys table (keys.filter (!·.isEmpty)) := by
  have hknown : (keys.filter (!·.isEmpty)).all (fun key => key.all table.contains) = true ↔
      ∀ key ∈ keys, ∀ c ∈ key, table.contains c = true := by
    simp only [List.all_eq_true, List.mem_filter]
    refine ⟨fun h key hkey c hc => h key ⟨hkey, ?_⟩ c hc, fun h key hkey => h key hkey.1⟩
    cases key with
    | nil => cases hc
    | cons d key => rfl
  unfold ofList?
  dsimp only
  split
  · rename_i hall
    rw [Option.some.injEq, eq_comm]
    exact ⟨fun heq => ⟨hknown.mp hall, heq⟩, fun h => h.2⟩
  · rename_i hall
    exact ⟨nofun, fun h => absurd (hknown.mpr h.1) hall⟩

@[simp] theorem count_ofKeys : (ofKeys table keys).count = keys.length := by
  simp [count, ofKeys]

theorem key_ofKeys : (ofKeys table keys).key k = (keys.getD k []).toArray := by
  by_cases hk : k < keys.length
  · simp [key, ofKeys, hk]
  · simp [key, ofKeys, hk]

theorem getD_key_ofKeys (c : Char) :
    ((ofKeys table keys).key k).getD pos c = (keys.getD k []).getD pos c := by
  simp only [key_ofKeys, Array.getD_eq_getD_getElem?, List.getElem?_toArray,
    List.getD_eq_getElem?_getD]

theorem getElem?_requiredMasks (table : SymbolTable) (hk : k < keys.length) :
    (requiredMasks table keys)[k]? = some ((table.suffixMasks (keys.getD k [])).map
      (· ||| table.maskOf (keys.drop (k + 1)).flatten)) := by
  induction keys generalizing k with
  | nil => simp at hk
  | cons key keys ih =>
    cases k with
    | zero => rfl
    | succ k => simpa [requiredMasks] using ih (Nat.lt_of_succ_lt_succ hk)

/-- From a character of a key on, the buckets of the rest of the key and of all later keys are
needed. -/
theorem requiredAt_ofKeys (hk : k < keys.length) (hpos : pos < (keys.getD k []).length) :
    (ofKeys table keys).requiredAt k pos =
      table.maskOf ((keys.getD k []).drop pos ++ (keys.drop (k + 1)).flatten) := by
  have hmask := SymbolTable.getElem?_suffixMasks table _ pos hpos
  have hmasks := getElem?_requiredMasks table hk
  simp only [List.getD_eq_getElem?_getD] at hmask hmasks ⊢
  simp [requiredAt, ofKeys, Array.getD_eq_getD_getElem?, hmasks, hmask, table.maskOf_append]

/-- The ways to stand before a character of a key or after all keys. -/
def places : Nat → List (List Char) → List (Nat × Nat)
  | k, [] => [(k, 0)]
  | k, key :: keys => (List.range key.length).map (fun pos => (k, pos)) ++ places (k + 1) keys

theorem length_places : (places k keys).length = (ofKeys table keys).placeCount := by
  rw [placeCount, ofKeys]
  dsimp only
  induction keys generalizing k with
  | nil => rfl
  | cons key keys ih =>
    rw [places, List.length_append, List.length_map, List.length_range, ih]
    rfl

theorem length_places_eq_sum : (places k keys).length = (keys.map List.length).sum + 1 := by
  induction keys generalizing k with
  | nil => rfl
  | cons key keys ih =>
    rw [places, List.length_append, List.length_map, List.length_range, ih, List.map_cons,
      List.sum_cons, Nat.add_assoc]

theorem mem_places {i : Nat} (h : KeyAt keys i pos) : (k + i, pos) ∈ places k keys := by
  induction keys generalizing i k with
  | nil =>
    obtain rfl : i = 0 := Nat.le_zero.mp h.le
    rw [h.pos_eq rfl]
    exact List.mem_singleton_self _
  | cons key keys ih =>
    rw [places, List.mem_append]
    cases i with
    | zero =>
      exact Or.inl (List.mem_map.mpr ⟨pos, List.mem_range.mpr (h.pos_lt (Nat.succ_pos _)), rfl⟩)
    | succ i =>
      have hrest : KeyAt keys i pos := ⟨Nat.le_of_succ_le_succ h.le,
        fun hi => h.pos_lt (Nat.succ_lt_succ hi), fun hi => h.pos_eq (congrArg (· + 1) hi)⟩
      have hmem := ih (k := k + 1) hrest
      rw [Nat.add_assoc, Nat.add_comm 1 i] at hmem
      exact Or.inr hmem

end SearchKeys

/-! ### Matching a label -/

/-- What is left of a key after a label: the key goes on, or it ends on the label. -/
theorem cases_of_remainderAfter (h : remainderAfter label key = some left) :
    key = label ++ left ∨ left = [] ∧ key <+: label := by
  induction label generalizing key with
  | nil => exact Or.inl (Option.some.inj h)
  | cons a label ih =>
    cases key with
    | nil => exact Or.inr ⟨(Option.some.inj h).symm, List.nil_prefix⟩
    | cons c key =>
      rw [remainderAfter] at h
      split at h
      · rename_i hac
        subst hac
        rcases ih h with rfl | ⟨hleft, hfront⟩
        · exact Or.inl rfl
        · exact Or.inr ⟨hleft, List.cons_prefix_cons.mpr ⟨rfl, hfront⟩⟩
      · cases h

/-- Nothing is left of a key that ends on the label. -/
theorem prefix_of_remainderAfter (h : remainderAfter label key = some []) : key <+: label := by
  rcases cases_of_remainderAfter h with rfl | ⟨-, hfront⟩
  · rw [List.append_nil]
  · exact hfront

/-- Nothing is left when the two differ. -/
theorem not_prefix_of_remainderAfter (h : remainderAfter label key = none) :
    ¬ label <+: key ∧ ¬ key <+: label := by
  induction label generalizing key with
  | nil => cases h
  | cons a label ih =>
    cases key with
    | nil => cases h
    | cons c key =>
      rw [remainderAfter] at h
      rw [List.cons_prefix_cons, List.cons_prefix_cons]
      split at h
      · obtain ⟨hlabel, hkey⟩ := ih h
        exact ⟨fun hto => hlabel hto.2, fun hto => hkey hto.2⟩
      · rename_i hac
        exact ⟨fun hto => hac hto.1, fun hto => hac hto.1.symm⟩

end SentenceSearch
