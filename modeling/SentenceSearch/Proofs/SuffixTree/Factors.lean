import Mathlib.Data.List.Infix
import SentenceSearch.Proofs.SuffixTree.Contents

/-!
# Factors of an incoming text

The parts of a text that an insertion deals with, and the credits that it has given when the first
few suffixes of the text have been made to end.

## Main definitions

* `factor` — the part of a text between two positions
* `creditedUpTo` — the ends after the first suffixes of a text
* `TailClosed` — with a string its own suffixes end as well

## Main results

* `creditedUpTo_ne_empty_iff`, `creditedUpTo_eq` — which strings end by then, with which payloads
* `Stores.spelled_tail` — after one more suffix the tree spells the tail of all it spelled before
-/

namespace SentenceSearch

/-- The part of a text from position `i` up to, but without, position `j`. -/
def factor (text : List Char) (i j : Nat) : List Char := (text.drop i).take (j - i)

variable {text : List Char} {i j k : Nat}

theorem length_factor (h : j ≤ text.length) : (factor text i j).length = j - i := by
  rw [factor, List.length_take, List.length_drop]
  omega

theorem factor_eq_nil (h : j ≤ i) : factor text i j = [] := by
  rw [factor, Nat.sub_eq_zero_of_le h, List.take_zero]

theorem factor_length (text : List Char) (i : Nat) : factor text i text.length = text.drop i := by
  rw [factor, ← List.length_drop, List.take_length]

theorem factor_append (hij : i ≤ j) (hjk : j ≤ k) :
    factor text i j ++ factor text j k = factor text i k := by
  have hdrop : text.drop j = (text.drop i).drop (j - i) := by
    rw [List.drop_drop]
    congr 1
    omega
  have hlength : k - i = (j - i) + (k - j) := by omega
  rw [factor, factor, factor, hdrop, hlength, List.take_add]

theorem factor_append_drop (h : i ≤ j) : factor text i j ++ text.drop j = text.drop i := by
  have hdrop : text.drop j = (text.drop i).drop (j - i) := by
    rw [List.drop_drop]
    congr 1
    omega
  rw [factor, hdrop, List.take_append_drop]

theorem factor_prefix (text : List Char) (i j : Nat) : factor text i j <+: text.drop i :=
  List.take_prefix _ _

theorem tail_factor (text : List Char) (i j : Nat) :
    (factor text i j).tail = factor text (i + 1) j := by
  rw [factor, factor, ← List.drop_one, List.drop_take, List.drop_drop, Nat.sub_sub]

theorem tail_drop (text : List Char) (i : Nat) : (text.drop i).tail = text.drop (i + 1) :=
  List.tail_drop

theorem factor_singleton (h : i < text.length) : factor text i (i + 1) = [text[i]] := by
  rw [factor, Nat.add_sub_cancel_left, List.drop_eq_getElem_cons h]
  rfl

theorem factor_cons (hij : i < j) (hj : j ≤ text.length) :
    factor text i j = text.getD i default :: factor text (i + 1) j := by
  have hlt : i < text.length := Nat.lt_of_lt_of_le hij hj
  rw [← factor_append (Nat.le_succ i) hij, factor_singleton hlt]
  simp [hlt]

theorem factor_concat (hij : i ≤ j) (hj : j < text.length) :
    factor text i (j + 1) = factor text i j ++ [text.getD j default] := by
  rw [← factor_append hij (Nat.le_succ j), factor_singleton hj]
  simp [hj]

theorem Incoming.getD_toList {P : Type} (incoming : Incoming P) (i : Nat) :
    incoming.chars.toList.getD i default = incoming.charAt i := by
  rw [Incoming.charAt, List.getD_eq_getElem?_getD, Array.getElem?_toList,
    Array.getD_eq_getD_getElem?]

namespace SuffixTree

variable {P : Type} [DecidableEq P] {before : List Char → Array P} {x : List Char} {p : P}

/-- The ends after the suffixes of a text at the first positions have been made to end. -/
def creditedUpTo (before : List Char → Array P) (text : List Char) (p : P) :
    Nat → List Char → Array P
  | 0 => before
  | count + 1 => creditAt (creditedUpTo before text p count) (text.drop count) p

theorem creditedUpTo_ne_empty_iff {count : Nat} :
    creditedUpTo before text p count x ≠ #[] ↔
      before x ≠ #[] ∨ ∃ i < count, x = text.drop i := by
  induction count with
  | zero => simp [creditedUpTo]
  | succ count ih =>
    rw [creditedUpTo, creditAt_ne_empty_iff, ih, or_assoc, Nat.exists_lt_succ_right]

/-- Every proper suffix of a text is credited once. -/
theorem creditedUpTo_eq {count : Nat} (hcount : count ≤ text.length) :
    creditedUpTo before text p count x =
      if ∃ i < count, x = text.drop i then credit (before x) p else before x := by
  induction count with
  | zero => simp [creditedUpTo]
  | succ count ih =>
    have ih := ih (Nat.le_of_succ_le hcount)
    by_cases hx : x = text.drop count
    · -- The suffixes before are longer, so that this one has not had its credit yet.
      have hfresh : ¬ ∃ i < count, x = text.drop i := by
        rintro ⟨i, hi, hxi⟩
        have hlength := congrArg List.length (hxi.symm.trans hx)
        rw [List.length_drop, List.length_drop] at hlength
        omega
      rw [if_neg hfresh] at ih
      rw [creditedUpTo, creditAt, hx, Function.update_self, ← hx, ih,
        if_pos ⟨count, Nat.lt_succ_self _, hx⟩]
    · rw [creditedUpTo, creditAt, Function.update_of_ne hx, ih]
      simp only [Nat.exists_lt_succ_right, hx, or_false]

theorem mem_credit {payloads : Array P} {q : P} :
    q ∈ credit payloads p ↔ q ∈ payloads ∨ q = p := by
  unfold credit
  split
  · rename_i hlast
    exact ⟨Or.inl, fun hq => hq.elim id fun heq => heq ▸ Array.mem_of_back? hlast⟩
  · exact Array.mem_push

theorem mem_creditedUpTo {count : Nat} {q : P} (hcount : count ≤ text.length) :
    q ∈ creditedUpTo before text p count x ↔
      q ∈ before x ∨ q = p ∧ ∃ i < count, x = text.drop i := by
  rw [creditedUpTo_eq hcount]
  split
  · rename_i hx
    rw [mem_credit, and_iff_left hx]
  · rename_i hx
    exact ⟨Or.inl, fun hq => hq.resolve_right fun h => hx h.2⟩

/-- A proper part of the text from some position on is a suffix that is not empty. -/
theorem exists_drop_iff : (∃ i < text.length, x = text.drop i) ↔ x ≠ [] ∧ x <:+ text := by
  constructor
  · rintro ⟨i, hi, rfl⟩
    exact ⟨by simpa using hi, List.drop_suffix i text⟩
  · rintro ⟨hne, hx⟩
    refine ⟨text.length - x.length, ?_, List.suffix_iff_eq_drop.mp hx⟩
    have hpos := List.length_pos_iff.mpr hne
    have hle := hx.length_le
    omega

/-- With a string that ends its own suffixes end as well. -/
def TailClosed (ends : List Char → Array P) : Prop :=
  ∀ x, ends x ≠ #[] → x.tail = [] ∨ ends x.tail ≠ #[]

theorem TailClosed.credited_tail (h : TailClosed before) {count : Nat}
    (hx : creditedUpTo before text p count x ≠ #[]) :
    x.tail = [] ∨ creditedUpTo before text p (count + 1) x.tail ≠ #[] := by
  rw [creditedUpTo_ne_empty_iff] at hx ⊢
  rcases hx with hx | ⟨i, hi, rfl⟩
  · exact (h x hx).imp_right Or.inl
  · exact Or.inr (Or.inr ⟨i + 1, Nat.succ_lt_succ hi, tail_drop text i⟩)

/-- After all suffixes of a text have been made to end, the ends are closed again. -/
theorem TailClosed.credited (h : TailClosed before) :
    TailClosed (creditedUpTo before text p text.length) := by
  intro x hx
  rcases h.credited_tail hx with hnil | htail
  · exact Or.inl hnil
  · rw [creditedUpTo, creditAt_ne_empty_iff, List.drop_length] at htail
    exact htail.symm

/-- After one more suffix the tree spells the tail of all that it spelled before. -/
theorem Stores.spelled_tail {tree tree' : SuffixTree P} {spell spell' : Nat → List Char}
    {count : Nat} (hbefore : TailClosed before)
    (h : Stores tree spell (creditedUpTo before text p count))
    (h' : Stores tree' spell' (creditedUpTo before text p (count + 1)))
    (hx : tree.Spelled spell x) : tree'.Spelled spell' x.tail := by
  rw [h'.spelled_iff]
  rcases h.spelled_iff.mp hx with rfl | ⟨y, hy, hxy⟩
  · exact Or.inl rfl
  · have htail : x.tail <+: y.tail := by
      rw [← List.drop_one, ← List.drop_one]
      exact hxy.drop 1
    rcases hbefore.credited_tail hy with hnil | hend
    · rw [hnil, List.prefix_nil] at htail
      exact Or.inl htail
    · exact Or.inr ⟨y.tail, hend, htail⟩

end SuffixTree

end SentenceSearch
