import Std.Data.ExtTreeMap
import SentenceSearch.Mask

/-!
# Symbol tables

A symbol table gives each character of a corpus the mask of its bucket. Characters outside the
table have the empty mask. The suffix masks of a text say, for each position, which buckets still
occur from there on.

## Main definitions

* `SymbolTable` — a finite map from characters to masks
* `SymbolTable.ofEntries` — a table of masks with one bucket each
* `SymbolTable.maskOf`, `SymbolTable.suffixMasks` — the masks of a text and of its suffixes
* `SymbolTable.buckets` — the characters of each bucket

## Main results

* `SymbolTable.getElem?_suffixMasks` — the entry at `i` is the mask of the text from `i` on
* `SymbolTable.maskOf_append` — the mask of a text in two parts
-/

namespace SentenceSearch

/-- Why a symbol table cannot be made. -/
inductive BucketError where
  /-- More buckets were asked for than a mask has bits. -/
  | tooMany (count : Nat)
  /-- No bucket was asked for. -/
  | zero
  /-- The mask of a character does not name exactly one bucket. -/
  | notSingleton (symbol : Char) (mask : Mask)
  deriving DecidableEq, Repr

/-- The text of the error in reports. -/
def BucketError.message : BucketError → String
  | .tooMany count => s!"Requested {count} buckets, at most {Mask.width} are supported"
  | .zero => "At least one bucket is required"
  | .notSingleton symbol mask =>
    s!"Mask {mask.octal} for '{symbol}' must have exactly one bit set"

/-- A finite map from characters to the masks of their buckets. -/
structure SymbolTable where
  /-- The mask of each character that the table knows. -/
  masks : Std.ExtTreeMap Char Mask
  deriving DecidableEq

namespace SymbolTable

/-- The table that knows no character. -/
def empty : SymbolTable := ⟨∅⟩

instance : Inhabited SymbolTable := ⟨empty⟩

/-- The mask of `c`, if the table knows it. -/
def get? (table : SymbolTable) (c : Char) : Option Mask := table.masks[c]?

/-- The mask of `c`; a character that the table does not know has the empty mask. -/
def mask (table : SymbolTable) (c : Char) : Mask := (table.get? c).getD 0

/-- Whether the table knows `c`. -/
def contains (table : SymbolTable) (c : Char) : Bool := table.masks.contains c

/-- Number of characters that the table knows. -/
def size (table : SymbolTable) : Nat := table.masks.size

/-- Whether the table knows no character. -/
def isEmpty (table : SymbolTable) : Bool := table.masks.isEmpty

/-- The characters with their masks, in ascending order of characters. -/
def entries (table : SymbolTable) : List (Char × Mask) := table.masks.toList

/-- Give `c` the mask `mask`, in place of an earlier one. -/
def insert (table : SymbolTable) (c : Char) (mask : Mask) : SymbolTable :=
  ⟨table.masks.insert c mask⟩

/-- The table of `entries`, in which the last entry of a character counts. -/
def ofList (entries : List (Char × Mask)) : SymbolTable :=
  entries.foldl (fun table entry => table.insert entry.1 entry.2) empty

/-- The table of `entries`, in which each mask has to name exactly one bucket. The first entry
that does not is the error. -/
def ofEntries (entries : List (Char × Mask)) : Except BucketError SymbolTable :=
  match entries.find? fun entry => entry.2.bitCount != 1 with
  | some (symbol, mask) => .error (.notSingleton symbol mask)
  | none => .ok (ofList entries)

/-- The buckets that some character is in. -/
def usedMask (table : SymbolTable) : Mask :=
  table.entries.foldl (fun acc entry => acc ||| entry.2) 0

/-- Number of buckets that some character is in. -/
def bucketCount (table : SymbolTable) : Nat := table.usedMask.bitCount

/-- The characters of the table by the lowest bucket of their masks, both in ascending order. A
character with an empty mask is listed under `Mask.width`. -/
def buckets (table : SymbolTable) : List (Nat × List Char) :=
  -- The place after the last bucket is for empty masks.
  (List.range (Mask.width + 1)).filterMap fun bucket =>
    match (table.entries.filter fun entry => entry.2.lowestBit == bucket).map Prod.fst with
    | [] => none
    | symbols => some (bucket, symbols)

/-- The buckets of the characters of a text. -/
def maskOf (table : SymbolTable) : List Char → Mask
  | [] => 0
  | c :: text => table.mask c ||| table.maskOf text

/-- The buckets of the characters of every suffix of a text, the longest suffix first. -/
def suffixMasks (table : SymbolTable) : List Char → List Mask
  | [] => []
  | c :: text =>
    let rest := table.suffixMasks text
    (table.mask c ||| rest.headD 0) :: rest

@[simp] theorem length_suffixMasks (table : SymbolTable) (text : List Char) :
    (table.suffixMasks text).length = text.length := by
  induction text with
  | nil => rfl
  | cons c text ih => simp [suffixMasks, ih]

@[simp] theorem headD_suffixMasks (table : SymbolTable) (text : List Char) :
    (table.suffixMasks text).headD 0 = table.maskOf text := by
  induction text with
  | nil => rfl
  | cons c text ih => simp [suffixMasks, maskOf, ← ih]

/-- The entry at `i` is the mask of the text from `i` on. -/
theorem getElem?_suffixMasks (table : SymbolTable) (text : List Char) (i : Nat)
    (h : i < text.length) :
    (table.suffixMasks text)[i]? = some (table.maskOf (text.drop i)) := by
  induction text generalizing i with
  | nil => simp at h
  | cons c text ih =>
    cases i with
    | zero => simp [suffixMasks, ← headD_suffixMasks]
    | succ i => simpa [suffixMasks] using ih i (by simpa using h)

theorem maskOf_append (table : SymbolTable) (u v : List Char) :
    table.maskOf (u ++ v) = table.maskOf u ||| table.maskOf v := by
  induction u with
  | nil => simp [maskOf]
  | cons c u ih => rw [List.cons_append, maskOf, ih, maskOf, UInt32.or_assoc]

/-- What occurs in the end of a text occurs in the text. -/
theorem maskOf_allows_append (table : SymbolTable) (u v : List Char) :
    (table.maskOf v).allows (table.maskOf (u ++ v)) = true := by
  rw [maskOf_append]
  exact Mask.allows_or_right _ _

/-- What occurs in the front of a text occurs in the text. -/
theorem maskOf_allows_of_prefix (table : SymbolTable) {u v : List Char} (h : u <+: v) :
    (table.maskOf u).allows (table.maskOf v) = true := by
  obtain ⟨w, rfl⟩ := h
  rw [maskOf_append]
  exact Mask.allows_or_left _ _

end SymbolTable

end SentenceSearch
