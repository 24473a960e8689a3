import Mathlib.Data.List.DropRight
import SentenceSearch.Proofs.Json.Lexical

/-!
# Reading what has been written

Both written forms of a value differ only in the blanks between the symbols. `Json.Writes` allows
any blanks where one of them has some, and whatever it relates to a value is read as the tree of
the value. What remains to be said of each form is that it is one of these texts.

## Main definitions

* `Json.tree` — the tree that a value is read as
* `Json.Writes` — the texts that write a value, or the rest of a list or an object

## Main results

* `Json.Writes.reads` — what writes a value is read as its tree
* `JsonTree.read_compactChars`, `JsonTree.read_prettyChars` — both forms are read back
-/

namespace SentenceSearch

namespace Json

mutual

/-- The tree that a value is read as. -/
def tree : Json → JsonTree
  | .nat n => natTree n
  | .string s => .string (some s)
  | .array items => .array (trees items)
  | .object fields => .object (fieldTrees fields)

/-- The trees of the items of a list. -/
def trees : List Json → List JsonTree
  | [] => []
  | item :: items => item.tree :: trees items

/-- The trees of the fields of an object. -/
def fieldTrees : List (String × Json) → List (Option String × JsonTree)
  | [] => []
  | (key, value) :: fields => (some key, value.tree) :: fieldTrees fields

end

theorem fieldTrees_eq_map (fields : List (String × Json)) :
    fieldTrees fields = fields.map fun field => (some field.1, field.2.tree) := by
  induction fields with
  | nil => rfl
  | cons field fields ih => rw [fieldTrees, ih, List.map_cons]

/-- What is written: a value, or what follows the opening bracket of a list or an object that has
an item or a field. -/
inductive Part where
  | value (json : Json)
  | items (items : List Json)
  | fields (fields : List (String × Json))

/-- Nothing but blanks. -/
def IsBlanks (text : List Char) : Prop := ∀ c ∈ text, JsonTree.isBlank c = true

/-- The text writes the part, with blanks between its symbols. -/
inductive Writes : Part → List Char → Prop where
  | nat (n : Nat) : Writes (.value (.nat n)) (digits n)
  | string (s : String) : Writes (.value (.string s)) (quote s)
  | emptyArray : Writes (.value (.array [])) ['[', ']']
  | array {items : List Json} {u : List Char} :
      Writes (.items items) u → Writes (.value (.array items)) ('[' :: u)
  | emptyObject : Writes (.value (.object [])) ['\x7b', '\x7d']
  | object {fields : List (String × Json)} {u : List Char} :
      Writes (.fields fields) u → Writes (.value (.object fields)) ('\x7b' :: u)
  | lastItem {item : Json} {before u after : List Char} :
      IsBlanks before → Writes (.value item) u → IsBlanks after →
      Writes (.items [item]) (before ++ (u ++ (after ++ [']'])))
  | item {item : Json} {items : List Json} {before u after v : List Char} :
      IsBlanks before → Writes (.value item) u → IsBlanks after → Writes (.items items) v →
      Writes (.items (item :: items)) (before ++ (u ++ (after ++ ',' :: v)))
  | lastField {key : String} {value : Json} {before between u after : List Char} :
      IsBlanks before → IsBlanks between → Writes (.value value) u → IsBlanks after →
      Writes (.fields [(key, value)])
        (before ++ (quote key ++ ':' :: (between ++ (u ++ (after ++ ['\x7d'])))))
  | field {key : String} {value : Json} {fields : List (String × Json)}
      {before between u after v : List Char} :
      IsBlanks before → IsBlanks between → Writes (.value value) u → IsBlanks after →
      Writes (.fields fields) v →
      Writes (.fields ((key, value) :: fields))
        (before ++ (quote key ++ ':' :: (between ++ (u ++ (after ++ ',' :: v)))))

/-! ### Blanks -/

section Blanks

variable {blanks text rest : List Char} {c : Char}

theorem isBlanks_nil : IsBlanks [] := nofun

theorem isBlanks_newline (level : Nat) : IsBlanks (newline level) := by
  intro c hc
  rcases List.mem_cons.mp hc with rfl | hc
  · rfl
  · rw [List.eq_of_mem_replicate hc]
    rfl

theorem IsBlanks.skipBlanks (h : IsBlanks blanks) :
    JsonTree.skipBlanks (blanks ++ text) = JsonTree.skipBlanks text :=
  List.dropWhile_append_of_pos h

theorem skipBlanks_cons (h : JsonTree.isBlank c = false) :
    JsonTree.skipBlanks (c :: text) = c :: text :=
  List.dropWhile_cons_of_neg (by simp [h])

/-- After blanks the next symbol comes. -/
theorem IsBlanks.skipBlanks_cons (h : IsBlanks blanks) (hc : JsonTree.isBlank c = false) :
    JsonTree.skipBlanks (blanks ++ c :: text) = c :: text := by
  rw [h.skipBlanks, Json.skipBlanks_cons hc]

/-- Blanks and then a comma or a closing bracket do not go on with a number. -/
theorem IsBlanks.follows (h : IsBlanks blanks) (hc : c = ',' ∨ c = ']' ∨ c = '\x7d') :
    JsonTree.Follows (blanks ++ c :: rest) := by
  intro d hd
  cases blanks with
  | nil =>
    obtain rfl : c = d := Option.some.inj hd
    rcases hc with rfl | rfl | rfl <;> decide
  | cons blank blanks =>
    obtain rfl : blank = d := Option.some.inj hd
    have hblank := h blank List.mem_cons_self
    simp only [JsonTree.isBlank, Bool.or_eq_true, decide_eq_true_eq] at hblank
    rcases hblank with ((rfl | rfl) | rfl) | rfl <;> decide

theorem follows_nil : JsonTree.Follows [] := nofun

end Blanks

/-! ### The first symbol -/

theorem not_isBlank_of_isDigit {c : Char} (h : c.isDigit = true) :
    JsonTree.isBlank c = false ∧ c ≠ ']' ∧ c ≠ '\x7d' := by
  refine ⟨?_, ?_, ?_⟩
  · by_contra hblank
    simp only [JsonTree.isBlank, Bool.not_eq_false, Bool.or_eq_true, decide_eq_true_eq] at hblank
    rcases hblank with ((rfl | rfl) | rfl) | rfl <;> exact absurd h (by decide)
  · rintro rfl
    exact absurd h (by decide)
  · rintro rfl
    exact absurd h (by decide)

/-- What is written begins with a symbol that is no closing bracket, after blanks. -/
theorem Writes.exists_head {part : Part} {u : List Char} (h : Writes part u) :
    ∃ before c v, u = before ++ c :: v ∧ IsBlanks before ∧ JsonTree.isBlank c = false ∧
      c ≠ ']' ∧ c ≠ '\x7d' := by
  induction h with
  | nat n =>
    cases hdigits : digits n with
    | nil => exact absurd hdigits Nat.toDigits_ne_nil
    | cons c v =>
      have hc := JsonTree.isDigit_of_mem_digits (hdigits ▸ List.mem_cons_self)
      exact ⟨[], c, v, rfl, isBlanks_nil, not_isBlank_of_isDigit hc⟩
  | string s => exact ⟨[], '"', _, rfl, isBlanks_nil, by decide⟩
  | emptyArray => exact ⟨[], '[', _, rfl, isBlanks_nil, by decide⟩
  | array _ _ => exact ⟨[], '[', _, rfl, isBlanks_nil, by decide⟩
  | emptyObject => exact ⟨[], '\x7b', _, rfl, isBlanks_nil, by decide⟩
  | object _ _ => exact ⟨[], '\x7b', _, rfl, isBlanks_nil, by decide⟩
  | @lastItem _ before _ after hbefore _ _ ih =>
    obtain ⟨blanks, c, v, rfl, hblanks, hc⟩ := ih
    exact ⟨before ++ blanks, c, v ++ (after ++ [']']), by simp,
      List.forall_mem_append.mpr ⟨hbefore, hblanks⟩, hc⟩
  | @item _ _ before _ after w hbefore _ _ _ ih =>
    obtain ⟨blanks, c, v, rfl, hblanks, hc⟩ := ih
    exact ⟨before ++ blanks, c, v ++ (after ++ ',' :: w), by simp,
      List.forall_mem_append.mpr ⟨hbefore, hblanks⟩, hc⟩
  | lastField hbefore _ _ _ _ | field hbefore _ _ _ _ _ =>
    exact ⟨_, '"', _, rfl, hbefore, by decide⟩

end Json

namespace JsonTree

/-! ### The reader -/

variable {fuel : Nat} {text u rest : List Char} {json : Json}

theorem skipBlanks_skipBlanks (text : List Char) :
    skipBlanks (skipBlanks text) = skipBlanks text :=
  List.dropWhile_idempotent isBlank text

/-- Blanks in front do not matter. -/
theorem readValue_skipBlanks : readValue fuel (skipBlanks text) = readValue fuel text := by
  cases fuel with
  | zero => rfl
  | succ fuel => rw [readValue, readValue, skipBlanks_skipBlanks]

theorem readItems_skipBlanks : readItems fuel (skipBlanks text) = readItems fuel text := by
  cases fuel with
  | zero => rfl
  | succ fuel => rw [readItems, readItems, readValue_skipBlanks]

theorem readFields_skipBlanks : readFields fuel (skipBlanks text) = readFields fuel text := by
  cases fuel with
  | zero => rfl
  | succ fuel => rw [readFields, readFields, skipBlanks_skipBlanks]

/-- The reader with enough fuel takes the text of a part and gives its tree. -/
def Reads : Json.Part → List Char → Prop
  | .value json, u => ∀ fuel rest, u.length < fuel → Follows rest →
    readValue fuel (u ++ rest) = some (json.tree, rest)
  | .items items, u => ∀ fuel rest, u.length < fuel →
    readItems fuel (u ++ rest) = some (Json.trees items, rest)
  | .fields fields, u => ∀ fuel rest, u.length < fuel →
    readFields fuel (u ++ rest) = some (Json.fieldTrees fields, rest)

theorem reads_nat (n : Nat) : Reads (.value (.nat n)) (Json.digits n) := by
  intro fuel rest hfuel hrest
  obtain ⟨fuel, rfl⟩ := Nat.exists_eq_add_one.mpr (Nat.zero_lt_of_lt hfuel)
  have hnumber := readNumber_digits n hrest
  cases hdigits : Json.digits n with
  | nil => exact absurd hdigits Nat.toDigits_ne_nil
  | cons c v =>
    have hc := isDigit_of_mem_digits (hdigits ▸ List.mem_cons_self)
    rw [hdigits] at hnumber
    rw [List.cons_append] at hnumber ⊢
    rw [readValue, Json.skipBlanks_cons (Json.not_isBlank_of_isDigit hc).1]
    -- None of the other symbols that begin a value is a digit.
    split
    case h_8 => exact hnumber
    all_goals
      rename_i heq
      cases heq
      try exact absurd hc (by decide)

theorem reads_string (s : String) : Reads (.value (.string s)) (Json.quote s) := by
  intro fuel rest hfuel _
  obtain ⟨fuel, rfl⟩ := Nat.exists_eq_add_one.mpr (Nat.zero_lt_of_lt hfuel)
  have hstring := readString_quote s rest
  rw [Json.quote, List.cons_append, List.append_assoc, List.singleton_append, readValue,
    Json.skipBlanks_cons (by decide)]
  simp only [hstring, Option.map_some, Json.tree]

/-- A list with items is read by reading its items. -/
theorem reads_array {items : List Json} (hwrites : Json.Writes (.items items) u)
    (h : Reads (.items items) u) : Reads (.value (.array items)) ('[' :: u) := by
  intro fuel rest hfuel _
  obtain ⟨fuel, rfl⟩ := Nat.exists_eq_add_one.mpr (Nat.zero_lt_of_lt hfuel)
  have hitems := h fuel rest (Nat.lt_of_succ_lt_succ hfuel)
  -- The first item is no closing bracket, so that the list is not taken for an empty one.
  obtain ⟨before, c, v, rfl, hbefore, hblank, hbracket, -⟩ := hwrites.exists_head
  have hskip : skipBlanks (before ++ c :: v ++ rest) = c :: (v ++ rest) := by
    rw [List.append_assoc, List.cons_append, hbefore.skipBlanks_cons hblank]
  rw [← readItems_skipBlanks, hskip] at hitems
  rw [List.cons_append, readValue, Json.skipBlanks_cons (by decide)]
  simp only [hskip]
  split
  · rename_i heq
    exact absurd (List.cons.inj heq).1 hbracket
  · rw [hitems]
    rfl

/-- An object with fields is read by reading its fields. -/
theorem reads_object {fields : List (String × Json)} (hwrites : Json.Writes (.fields fields) u)
    (h : Reads (.fields fields) u) : Reads (.value (.object fields)) ('\x7b' :: u) := by
  intro fuel rest hfuel _
  obtain ⟨fuel, rfl⟩ := Nat.exists_eq_add_one.mpr (Nat.zero_lt_of_lt hfuel)
  have hfields := h fuel rest (Nat.lt_of_succ_lt_succ hfuel)
  obtain ⟨before, c, v, rfl, hbefore, hblank, -, hbrace⟩ := hwrites.exists_head
  have hskip : skipBlanks (before ++ c :: v ++ rest) = c :: (v ++ rest) := by
    rw [List.append_assoc, List.cons_append, hbefore.skipBlanks_cons hblank]
  rw [← readFields_skipBlanks, hskip] at hfields
  rw [List.cons_append, readValue, Json.skipBlanks_cons (by decide)]
  simp only [hskip]
  split
  · rename_i heq
    exact absurd (List.cons.inj heq).1 hbrace
  · rw [hfields]
    rfl

/-- A value between blanks is read up to the symbol that follows it. -/
theorem readValue_append {before after : List Char} {c : Char} (rest : List Char)
    (hbefore : Json.IsBlanks before) (hvalue : Reads (.value json) u)
    (hafter : Json.IsBlanks after) (hc : c = ',' ∨ c = ']' ∨ c = '\x7d') (hfuel : u.length < fuel) :
    readValue fuel (before ++ (u ++ (after ++ c :: rest))) =
      some (json.tree, after ++ c :: rest) := by
  rw [← readValue_skipBlanks, hbefore.skipBlanks, readValue_skipBlanks]
  exact hvalue fuel _ hfuel (hafter.follows hc)

section Items

variable {before after v : List Char} {items : List Json}

theorem reads_lastItem (hbefore : Json.IsBlanks before) (hitem : Reads (.value json) u)
    (hafter : Json.IsBlanks after) :
    Reads (.items [json]) (before ++ (u ++ (after ++ [']']))) := by
  intro fuel rest hfuel
  obtain ⟨fuel, rfl⟩ := Nat.exists_eq_add_one.mpr (Nat.zero_lt_of_lt hfuel)
  have hlt : u.length < fuel := by
    simp only [List.length_append, List.length_cons] at hfuel
    omega
  have hvalue := readValue_append rest hbefore hitem hafter (.inr (.inl rfl)) hlt
  have hshape : before ++ (u ++ (after ++ [']'])) ++ rest =
      before ++ (u ++ (after ++ ']' :: rest)) := by simp
  rw [hshape, readItems, hvalue]
  simp only [Option.bind_eq_bind, Option.bind_some,
    hafter.skipBlanks_cons (show isBlank ']' = false by decide)]
  rfl

theorem reads_item (hbefore : Json.IsBlanks before) (hitem : Reads (.value json) u)
    (hafter : Json.IsBlanks after) (hitems : Reads (.items items) v) :
    Reads (.items (json :: items)) (before ++ (u ++ (after ++ ',' :: v))) := by
  intro fuel rest hfuel
  obtain ⟨fuel, rfl⟩ := Nat.exists_eq_add_one.mpr (Nat.zero_lt_of_lt hfuel)
  have hlt : u.length < fuel ∧ v.length < fuel := by
    simp only [List.length_append, List.length_cons] at hfuel
    omega
  have hvalue := readValue_append (v ++ rest) hbefore hitem hafter (.inl rfl) hlt.1
  have hshape : before ++ (u ++ (after ++ ',' :: v)) ++ rest =
      before ++ (u ++ (after ++ ',' :: (v ++ rest))) := by simp
  rw [hshape, readItems, hvalue]
  simp only [Option.bind_eq_bind, Option.bind_some,
    hafter.skipBlanks_cons (show isBlank ',' = false by decide), hitems fuel rest hlt.2]
  rfl

end Items

section Fields

variable {key : String} {before between after v : List Char} {fields : List (String × Json)}

/-- A field is read up to the blanks and the symbol that follow it. -/
theorem readFields_append {c : Char} (hbefore : Json.IsBlanks before)
    (hbetween : Json.IsBlanks between) (hvalue : Reads (.value json) u)
    (hafter : Json.IsBlanks after) (hc : c = ',' ∨ c = ']' ∨ c = '\x7d')
    (hfuel : u.length < fuel) :
    readFields (fuel + 1)
        (before ++ (Json.quote key ++ ':' :: (between ++ (u ++ (after ++ c :: rest))))) =
      match c :: rest with
      | '\x7d' :: rest => some ([(some key, json.tree)], rest)
      | ',' :: rest => (readFields fuel rest).bind fun x => some ((some key, json.tree) :: x.1, x.2)
      | _ => none := by
  have hkey := readString_quote key (':' :: (between ++ (u ++ (after ++ c :: rest))))
  have hread := readValue_append rest hbetween hvalue hafter hc hfuel
  have hshape : Json.quote key ++ ':' :: (between ++ (u ++ (after ++ c :: rest))) =
      '"' :: (key.toList.flatMap Json.escapeChar ++
        '"' :: ':' :: (between ++ (u ++ (after ++ c :: rest)))) := by
    simp [Json.quote]
  have hblank : isBlank c = false := by
    rcases hc with rfl | rfl | rfl <;> decide
  rw [hshape, readFields, hbefore.skipBlanks_cons (by decide)]
  simp only [hkey, Option.bind_eq_bind, Option.bind_some,
    Json.skipBlanks_cons (show isBlank ':' = false by decide), hread,
    hafter.skipBlanks_cons hblank]
  rcases hc with rfl | rfl | rfl <;> rfl

theorem reads_lastField (hbefore : Json.IsBlanks before) (hbetween : Json.IsBlanks between)
    (hvalue : Reads (.value json) u) (hafter : Json.IsBlanks after) :
    Reads (.fields [(key, json)])
      (before ++ (Json.quote key ++ ':' :: (between ++ (u ++ (after ++ ['\x7d']))))) := by
  intro fuel rest hfuel
  obtain ⟨fuel, rfl⟩ := Nat.exists_eq_add_one.mpr (Nat.zero_lt_of_lt hfuel)
  have hlt : u.length < fuel := by
    simp only [List.length_append, List.length_cons] at hfuel
    omega
  have hshape :
      before ++ (Json.quote key ++ ':' :: (between ++ (u ++ (after ++ ['\x7d'])))) ++ rest =
        before ++ (Json.quote key ++ ':' :: (between ++ (u ++ (after ++ '\x7d' :: rest)))) := by simp
  rw [hshape, readFields_append hbefore hbetween hvalue hafter (.inr (.inr rfl)) hlt]
  rfl

theorem reads_field (hbefore : Json.IsBlanks before) (hbetween : Json.IsBlanks between)
    (hvalue : Reads (.value json) u) (hafter : Json.IsBlanks after)
    (hfields : Reads (.fields fields) v) :
    Reads (.fields ((key, json) :: fields))
      (before ++ (Json.quote key ++ ':' :: (between ++ (u ++ (after ++ ',' :: v))))) := by
  intro fuel rest hfuel
  obtain ⟨fuel, rfl⟩ := Nat.exists_eq_add_one.mpr (Nat.zero_lt_of_lt hfuel)
  have hlt : u.length < fuel ∧ v.length < fuel := by
    simp only [List.length_append, List.length_cons] at hfuel
    omega
  have hshape :
      before ++ (Json.quote key ++ ':' :: (between ++ (u ++ (after ++ ',' :: v)))) ++ rest =
        before ++ (Json.quote key ++ ':' :: (between ++ (u ++ (after ++ ',' :: (v ++ rest))))) := by
    simp
  rw [hshape, readFields_append hbefore hbetween hvalue hafter (.inl rfl) hlt.1]
  simp only [hfields fuel rest hlt.2]
  rfl

end Fields

end JsonTree

/-- What writes a value, or the rest of a list or an object, is read as its tree. -/
theorem Json.Writes.reads {part : Json.Part} {u : List Char} (h : Json.Writes part u) :
    JsonTree.Reads part u := by
  -- The fuel is not fixed: each level of the text needs one more than the texts within it.
  induction h with
  | nat n => exact JsonTree.reads_nat n
  | string s => exact JsonTree.reads_string s
  | emptyArray | emptyObject =>
    intro fuel rest hfuel _
    obtain ⟨fuel, rfl⟩ := Nat.exists_eq_add_one.mpr (Nat.zero_lt_of_lt hfuel)
    rfl
  | array hwrites ih => exact JsonTree.reads_array hwrites ih
  | object hwrites ih => exact JsonTree.reads_object hwrites ih
  | lastItem hbefore _ hafter ih => exact JsonTree.reads_lastItem hbefore ih hafter
  | item hbefore _ hafter _ ihItem ihItems =>
    exact JsonTree.reads_item hbefore ihItem hafter ihItems
  | lastField hbefore hbetween _ hafter ih =>
    exact JsonTree.reads_lastField hbefore hbetween ih hafter
  | field hbefore hbetween _ hafter _ ihValue ihFields =>
    exact JsonTree.reads_field hbefore hbetween ihValue hafter ihFields

/-- A text that writes a value is read as its tree. -/
theorem Json.Writes.read {json : Json} {u : List Char} (h : Json.Writes (.value json) u) :
    JsonTree.read u = some json.tree := by
  have hread := h.reads (u.length + 1) [] (Nat.lt_succ_self _) follows_nil
  rw [List.append_nil] at hread
  rw [JsonTree.read, hread]
  rfl

namespace Json

/-! ### The two written forms -/

mutual

theorem writes_compactChars : (json : Json) → Writes (.value json) json.compactChars
  | .nat n => .nat n
  | .string s => .string s
  | .array [] => .emptyArray
  | .array (item :: items) => .array (writes_compactItems (item :: items) (List.cons_ne_nil _ _))
  | .object [] => .emptyObject
  | .object (field :: fields) =>
    .object (writes_compactFields (field :: fields) (List.cons_ne_nil _ _))

theorem writes_compactItems : (items : List Json) → items ≠ [] →
    Writes (.items items) (compactItems items ++ [']'])
  | [], h => absurd rfl h
  | [item], _ => .lastItem isBlanks_nil (writes_compactChars item) isBlanks_nil
  | item :: next :: items, _ => by
    have hitem := Writes.item isBlanks_nil (writes_compactChars item) isBlanks_nil
      (writes_compactItems (next :: items) (List.cons_ne_nil _ _))
    rw [compactItems, List.append_assoc]
    · exact hitem
    · exact List.cons_ne_nil _ _

theorem writes_compactFields : (fields : List (String × Json)) → fields ≠ [] →
    Writes (.fields fields) (compactFields fields ++ ['\x7d'])
  | [], h => absurd rfl h
  | [(key, value)], _ => by
    have hfield : Writes (.fields [(key, value)]) _ :=
      .lastField isBlanks_nil isBlanks_nil (writes_compactChars value) isBlanks_nil
    rw [compactFields, List.append_assoc]
    exact hfield
  | (key, value) :: next :: fields, _ => by
    have hfield : Writes (.fields ((key, value) :: next :: fields)) _ :=
      .field isBlanks_nil isBlanks_nil (writes_compactChars value) isBlanks_nil
        (writes_compactFields (next :: fields) (List.cons_ne_nil _ _))
    rw [compactFields]
    · simpa using hfield
    · exact List.cons_ne_nil _ _

end

mutual

theorem writes_prettyChars (level : Nat) : (json : Json) →
    Writes (.value json) (json.prettyChars level)
  | .nat n => .nat n
  | .string s => .string s
  | .array [] => .emptyArray
  | .array (item :: items) => by
    have hitems := writes_prettyItems (level + 1) item items (isBlanks_newline (level + 1))
      (isBlanks_newline level)
    rw [prettyChars]
    simpa using Writes.array hitems
  | .object [] => .emptyObject
  | .object ((key, value) :: fields) => by
    have hfields := writes_prettyFields (level + 1) key value fields (isBlanks_newline (level + 1))
      (isBlanks_newline level)
    rw [prettyChars]
    simpa using Writes.object hfields
termination_by json => sizeOf json

theorem writes_prettyItems (level : Nat) (item : Json) (items : List Json)
    {before after : List Char} (hbefore : IsBlanks before) (hafter : IsBlanks after) :
    Writes (.items (item :: items))
      (before ++ (item.prettyChars level ++ (prettyItems level items ++ (after ++ [']'])))) :=
  match items with
  | [] => .lastItem hbefore (writes_prettyChars level item) hafter
  | next :: items => by
    have hitem := Writes.item hbefore (writes_prettyChars level item) isBlanks_nil
      (writes_prettyItems level next items (isBlanks_newline level) hafter)
    simpa [prettyItems] using hitem
termination_by sizeOf (item :: items)

theorem writes_prettyFields (level : Nat) (key : String) (value : Json)
    (fields : List (String × Json)) {before after : List Char}
    (hbefore : IsBlanks before) (hafter : IsBlanks after) :
    Writes (.fields ((key, value) :: fields))
      (before ++ (quote key ++ ':' :: ([' '] ++ (value.prettyChars level ++
        (prettyFields level fields ++ (after ++ ['\x7d'])))))) :=
  have hcolon : IsBlanks [' '] := List.forall_mem_singleton.mpr rfl
  match fields with
  | [] => .lastField hbefore hcolon (writes_prettyChars level value) hafter
  | (next, nextValue) :: fields => by
    have hfield : Writes (.fields ((key, value) :: (next, nextValue) :: fields)) _ :=
      .field hbefore hcolon (writes_prettyChars level value) isBlanks_nil
        (writes_prettyFields level next nextValue fields (isBlanks_newline level) hafter)
    simpa [prettyFields] using hfield
termination_by sizeOf ((key, value) :: fields)

end

end Json

/-- The compact form of a value is read back. -/
theorem JsonTree.read_compactChars (json : Json) :
    JsonTree.read json.compactChars = some json.tree :=
  (Json.writes_compactChars json).read

/-- The form of a value on many lines is read back. -/
theorem JsonTree.read_prettyChars (json : Json) :
    JsonTree.read (json.prettyChars 0) = some json.tree :=
  (Json.writes_prettyChars 0 json).read

end SentenceSearch
