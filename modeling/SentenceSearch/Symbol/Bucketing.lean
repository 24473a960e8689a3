import SentenceSearch.Symbol.Table
import SentenceSearch.Symbol.Frequency

/-!
# Bucketing

Greedy distribution of an alphabet over buckets. Characters are taken from the most frequent to
the least, ties by character. The first ones open a bucket each; every later one joins the bucket
that is lightest so far, ties by bucket number.

## Main definitions

* `Bucketing` — how many buckets to fill
* `BucketLoad` — a bucket with its characters and their total frequency
* `Bucketing.loads` — the filled buckets
* `Bucketing.table` — the symbol table of the filled buckets
-/

namespace SentenceSearch

/-- A bucket while characters are assigned to it. -/
structure BucketLoad where
  /-- The number of the bucket. -/
  id : Nat
  /-- The total frequency of its characters. -/
  mass : Nat
  /-- Its characters in order of assignment. -/
  symbols : List Char
  deriving DecidableEq, Repr

/-- Put one more character into the bucket. -/
def BucketLoad.push (load : BucketLoad) (symbol : Char) (frequency : Nat) : BucketLoad :=
  { load with mass := load.mass + frequency, symbols := load.symbols ++ [symbol] }

/-- A number of buckets that a mask can tell apart. -/
structure Bucketing where
  /-- How many buckets there are. -/
  count : Nat
  /-- There is a bucket. -/
  pos : 0 < count := by decide
  /-- A mask has a bit for each bucket. -/
  le_width : count ≤ Mask.width := by decide

namespace Bucketing

/-- Bucketing into as many buckets as a mask has bits. -/
def default : Bucketing where
  count := Mask.width

instance : Inhabited Bucketing := ⟨default⟩

/-- Bucketing into `count` buckets, if a mask can tell them apart. -/
def ofCount (count : Nat) : Except BucketError Bucketing :=
  if h : count = 0 then
    .error .zero
  else if h' : count ≤ Mask.width then
    .ok ⟨count, Nat.pos_of_ne_zero h, h'⟩
  else
    .error (.tooMany count)

/-- The order of assignment: the more frequent character first, ties by character. -/
def before (a b : Char × Nat) : Bool := b.2 < a.2 || (a.2 == b.2 && a.1 ≤ b.1)

/-- The characters in order of assignment. -/
def ranked (frequencies : List (Char × Nat)) : List (Char × Nat) := frequencies.mergeSort before

/-- One bucket for each character, numbered from `id` on. -/
def seeds (id : Nat) : List (Char × Nat) → List BucketLoad
  | [] => []
  | (symbol, frequency) :: rest => ⟨id, frequency, [symbol]⟩ :: seeds (id + 1) rest

/-- The lighter of two buckets, ties by number. -/
def lighter (a b : BucketLoad) : BucketLoad :=
  if b.mass < a.mass || (b.mass == a.mass && b.id < a.id) then b else a

/-- The number of the lightest bucket, if there is any. -/
def lightest? : List BucketLoad → Option Nat
  | [] => none
  | load :: loads => some (loads.foldl lighter load).id

/-- The buckets so far and the table of the characters assigned so far. -/
structure Assignment where
  /-- The buckets in order of their numbers. -/
  loads : List BucketLoad
  /-- The mask of each character that has been assigned. -/
  table : SymbolTable

/-- Assign one character to each bucket, in turn. -/
def Assignment.seeded (symbols : List (Char × Nat)) : Assignment :=
  let loads := seeds 0 symbols
  let entries := loads.flatMap fun load => load.symbols.map (·, Mask.ofBucket load.id)
  ⟨loads, .ofList entries⟩

/-- Assign a character to the lightest bucket. -/
def Assignment.assign (assignment : Assignment) (entry : Char × Nat) : Assignment :=
  match lightest? assignment.loads with
  | none => assignment
  | some id =>
    { loads := assignment.loads.map fun load =>
        if load.id == id then load.push entry.1 entry.2 else load
      table := assignment.table.insert entry.1 (Mask.ofBucket id) }

/-- Assign every character of a frequency list. -/
def fill (bucketing : Bucketing) (frequencies : List (Char × Nat)) : Assignment :=
  -- The first characters open the buckets, and the others are spread over them.
  let symbols := ranked frequencies
  (symbols.drop bucketing.count).foldl Assignment.assign
    (.seeded (symbols.take bucketing.count))

/-- The filled buckets of a frequency list. -/
def loads (bucketing : Bucketing) (frequencies : List (Char × Nat)) : List BucketLoad :=
  (bucketing.fill frequencies).loads

/-- The symbol table of a frequency list. A character that is listed more than once has the
bucket that it was assigned to last. -/
def table (bucketing : Bucketing) (frequencies : List (Char × Nat)) : SymbolTable :=
  (bucketing.fill frequencies).table

/-- The symbol table of a list of texts. -/
def tableOfTexts (bucketing : Bucketing) (texts : List (List Char)) : SymbolTable :=
  bucketing.table (Frequencies.ofTexts texts).toList

end Bucketing

end SentenceSearch
