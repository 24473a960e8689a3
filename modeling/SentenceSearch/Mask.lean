/-!
# Bucket masks

A mask is a set of at most 32 buckets, one bit for each. Texts, edges and transitions carry masks;
a search skips whatever cannot offer the buckets that it still needs.

## Main definitions

* `Mask` — a word of 32 bucket bits
* `Mask.allows` — every bucket that is required is available
* `Mask.bits`, `Mask.lowestBit` — the bucket numbers in a mask
* `Mask.octal` — the text of a mask in reports

## Main results

* `Mask.allows_iff` — a mask allows a requirement exactly when it has each of its bits
-/

namespace SentenceSearch

/-- A set of buckets: bit `i` stands for bucket `i`. -/
abbrev Mask := UInt32

namespace Mask

/-- Number of buckets that a mask can tell apart. -/
def width : Nat := 32

/-- The mask with every bucket, for places about which nothing is known. -/
def full : Mask := 0xFFFFFFFF

/-- The mask of bucket `id` alone. -/
def ofBucket (id : Nat) : Mask := 1 <<< UInt32.ofNat id

/-- Whether every bucket of `required` is in `available`. Requiring nothing always passes. -/
def allows (required available : Mask) : Bool := required &&& available == required

/-- Whether bucket `i` is in the mask. -/
def hasBit (mask : Mask) (i : Nat) : Bool := mask.toBitVec.getLsbD i

/-- The buckets of a mask in ascending order. -/
def bits (mask : Mask) : List Nat := (List.range width).filter mask.hasBit

/-- Number of buckets in a mask. -/
def bitCount (mask : Mask) : Nat := mask.bits.length

/-- The least bucket of a mask, or `width` when the mask is empty. -/
def lowestBit (mask : Mask) : Nat := mask.bits.headD width

/-- The mask in octal, without leading zeros. -/
def octal (mask : Mask) : String := String.ofList (Nat.toDigits 8 mask.toNat)

theorem ext_hasBit {m n : Mask} (h : ∀ i, m.hasBit i = n.hasBit i) : m = n := by
  apply UInt32.toBitVec_inj.mp
  exact BitVec.eq_of_getLsbD_eq fun i _ => h i

@[simp] theorem hasBit_or (m n : Mask) (i : Nat) :
    (m ||| n).hasBit i = (m.hasBit i || n.hasBit i) := by
  simp [hasBit]

@[simp] theorem hasBit_and (m n : Mask) (i : Nat) :
    (m &&& n).hasBit i = (m.hasBit i && n.hasBit i) := by
  simp [hasBit]

@[simp] theorem hasBit_zero (i : Nat) : hasBit 0 i = false := by
  simp [hasBit]

/-- A mask allows a requirement exactly when it has each of its bits. -/
theorem allows_iff {required available : Mask} :
    required.allows available = true ↔
      ∀ i, required.hasBit i = true → available.hasBit i = true := by
  rw [allows, beq_iff_eq]
  constructor
  · intro h i hi
    rw [← h, hasBit_and, Bool.and_eq_true] at hi
    exact hi.2
  · intro h
    apply ext_hasBit
    intro i
    rw [hasBit_and]
    cases hi : required.hasBit i with
    | false => rfl
    | true => simp [h i hi]

theorem allows_refl (m : Mask) : m.allows m = true := allows_iff.mpr fun _ => id

theorem zero_allows (available : Mask) : allows 0 available = true :=
  allows_iff.mpr fun i hi => by simp at hi

theorem allows_trans {a b c : Mask} (hab : a.allows b = true) (hbc : b.allows c = true) :
    a.allows c = true :=
  allows_iff.mpr fun i hi => allows_iff.mp hbc i (allows_iff.mp hab i hi)

theorem allows_antisymm {a b : Mask} (hab : a.allows b = true) (hba : b.allows a = true) :
    a = b := by
  apply ext_hasBit
  intro i
  rw [Bool.eq_iff_iff]
  exact ⟨allows_iff.mp hab i, allows_iff.mp hba i⟩

theorem and_allows_left (m n : Mask) : (m &&& n).allows m = true :=
  allows_iff.mpr fun i hi => by
    rw [hasBit_and, Bool.and_eq_true] at hi
    exact hi.1

theorem and_allows_right (m n : Mask) : (m &&& n).allows n = true :=
  allows_iff.mpr fun i hi => by
    rw [hasBit_and, Bool.and_eq_true] at hi
    exact hi.2

/-- Two requirements together are allowed exactly when each of them is. -/
theorem or_allows_iff {m n available : Mask} :
    (m ||| n).allows available = true ↔
      m.allows available = true ∧ n.allows available = true := by
  simp only [allows_iff, hasBit_or, Bool.or_eq_true]
  exact ⟨fun h => ⟨fun i hi => h i (Or.inl hi), fun i hi => h i (Or.inr hi)⟩,
    fun h i hi => hi.elim (h.1 i) (h.2 i)⟩

theorem allows_or_left (m n : Mask) : m.allows (m ||| n) = true :=
  (or_allows_iff.mp (allows_refl (m ||| n))).1

theorem allows_or_right (m n : Mask) : n.allows (m ||| n) = true :=
  (or_allows_iff.mp (allows_refl (m ||| n))).2

/-- Where nothing is available only an empty requirement is allowed. -/
theorem allows_zero_iff {m : Mask} : m.allows 0 = true ↔ m = 0 := by
  rw [allows, UInt32.and_zero, beq_iff_eq]
  exact eq_comm

/-- Every requirement is allowed where everything is available. -/
theorem allows_full (m : Mask) : m.allows full = true := by
  rw [allows, beq_iff_eq]
  apply UInt32.toBitVec_inj.mp
  rw [UInt32.toBitVec_and]
  exact BitVec.and_allOnes

theorem full_or (m : Mask) : full ||| m = full :=
  allows_antisymm (allows_full _) (allows_or_left _ _)

end Mask

end SentenceSearch
