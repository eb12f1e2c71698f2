/-
  SELinux.Lib.Bits — sets of bits in a fixed-width word.

  A word is the set of its set bits: `|||` is union, `&&& ~~~` difference, and a
  non-zero `&&&` a common bit. `orAll` is the union of a list of words, `ones` an initial run
  of bits.
-/
import Mathlib

namespace SELinux.Lib.Bits

open BitVec

variable {w : Nat}

/-- The union of a list of words. -/
def orAll (l : List (BitVec w)) : BitVec w := l.foldl (· ||| ·) 0#w

theorem getLsbD_foldl_or (l : List (BitVec w)) (a : BitVec w) (i : Nat) :
    (l.foldl (· ||| ·) a).getLsbD i = (a.getLsbD i || l.any (·.getLsbD i)) := by
  induction l generalizing a with
  | nil => simp
  | cons x l ih => simp [ih, Bool.or_assoc]

@[simp] theorem getLsbD_orAll (l : List (BitVec w)) (i : Nat) : (orAll l).getLsbD i = l.any (·.getLsbD i) := by
  simp [orAll, getLsbD_foldl_or]

theorem foldl_or_eq (l : List (BitVec w)) (a : BitVec w) : l.foldl (· ||| ·) a = a ||| orAll l := by
  apply eq_of_getLsbD_eq
  intro i _
  rw [getLsbD_foldl_or, getLsbD_or, getLsbD_orAll]

theorem orAll_append (l m : List (BitVec w)) : orAll (l ++ m) = orAll l ||| orAll m := by
  unfold orAll
  rw [List.foldl_append, foldl_or_eq]
  rfl

theorem orAll_cons (a : BitVec w) (l : List (BitVec w)) : orAll (a :: l) = a ||| orAll l := by
  unfold orAll
  rw [List.foldl_cons, foldl_or_eq, zero_or]
  rfl

/-- Lists with the same members have the same union. -/
theorem orAll_congr {l m : List (BitVec w)} (h : ∀ x, x ∈ l ↔ x ∈ m) : orAll l = orAll m := by
  apply eq_of_getLsbD_eq
  intro i _
  rw [Bool.eq_iff_iff]
  simp [h]

theorem ne_zero_iff (x : BitVec w) : x ≠ 0#w ↔ ∃ i, x.getLsbD i = true := by
  have hzero : x = 0#w ↔ ∀ i, x.getLsbD i = false := by
    constructor
    · rintro rfl
      exact fun _ => getLsbD_zero
    · exact fun h => eq_of_getLsbD_eq fun i _ => (h i).trans getLsbD_zero.symm
  simp [hzero]

/-- Two words meet when some bit is set in both. -/
theorem and_ne_zero_iff (x y : BitVec w) : x &&& y ≠ 0#w ↔ ∃ i, x.getLsbD i = true ∧ y.getLsbD i = true := by
  rw [ne_zero_iff]
  simp only [getLsbD_and, Bool.and_eq_true]

theorem and_or_ne_zero_iff (x y z : BitVec w) : x &&& (y ||| z) ≠ 0#w ↔ x &&& y ≠ 0#w ∨ x &&& z ≠ 0#w := by
  rw [and_or_distrib_left, Ne, or_eq_zero_iff, Decidable.not_and_iff_not_or_not]

/-- Nothing of `x` lies outside `y`. -/
theorem and_not_eq_zero_iff (x y : BitVec w) : x &&& ~~~y = 0#w ↔ ∀ i, x.getLsbD i = true → y.getLsbD i = true := by
  rw [← Decidable.not_not (p := x &&& ~~~y = 0#w), ← ne_eq, and_ne_zero_iff, not_exists]
  refine forall_congr' fun i => ?_
  cases hx : x.getLsbD i with
  | false => simp
  | true => simp [lt_of_getLsbD hx]

/-- Taking away what is not there. -/
theorem and_not_of_disjoint {x y : BitVec w} (h : x &&& y = 0#w) : y &&& ~~~x = y := by
  calc y &&& ~~~x = (y &&& x) ||| (y &&& ~~~x) := by rw [BitVec.and_comm y x, h, zero_or]
    _ = y := by rw [← and_or_distrib_left, or_not_self, and_allOnes]

theorem and_not_zero (x : BitVec w) : x &&& ~~~(0#w) = x :=
  and_not_of_disjoint zero_and

theorem and_and_not (x y : BitVec w) : (x &&& y) &&& ~~~x = 0#w := by
  rw [and_not_eq_zero_iff]
  intro i hi
  rw [getLsbD_and, Bool.and_eq_true] at hi
  exact hi.1

theorem and_not_or (x y z : BitVec w) : x &&& ~~~(y ||| z) = x &&& ~~~y &&& ~~~z := by
  rw [BitVec.not_or, BitVec.and_assoc]

/-! ## Runs of bits -/

/-- The word with the bits below `n` set. -/
def ones (w n : Nat) : BitVec w := (1#w <<< n) - 1#w

variable {m n : Nat}

theorem toNat_one_shiftLeft (hn : n < w) : (1#w <<< n).toNat = 2 ^ n := by
  rw [← twoPow_eq, toNat_twoPow_of_lt hn]

/-- Between two powers of two the bits from the one to the other are set. -/
theorem getLsbD_shiftLeft_sub (hmn : m ≤ n) (hn : n < w) (i : Nat) :
    ((1#w <<< n) - (1#w <<< m)).getLsbD i = (decide (m ≤ i) && decide (i < n)) := by
  have hle : 2 ^ m ≤ 2 ^ n := Nat.pow_le_pow_right (by decide) hmn
  have hto : ((1#w <<< n) - (1#w <<< m)).toNat = 2 ^ m * (2 ^ (n - m) - 1) := by
    rw [toNat_sub_of_le (by rw [le_def, toNat_one_shiftLeft hn, toNat_one_shiftLeft (by omega)]; exact hle),
      toNat_one_shiftLeft hn, toNat_one_shiftLeft (by omega), Nat.mul_sub, ← Nat.pow_add]
    congr 2
    · omega
    · omega
  rw [BitVec.getLsbD, hto, Nat.testBit_two_pow_mul, Nat.testBit_two_pow_sub_one]
  by_cases h : m ≤ i
  · simp only [ge_iff_le, h, decide_true, Bool.true_and, decide_eq_decide]
    omega
  · simp [h]

theorem getLsbD_ones (hn : n < w) (i : Nat) : (ones w n).getLsbD i = decide (i < n) := by
  have h := getLsbD_shiftLeft_sub (m := 0) (Nat.zero_le n) hn i
  simpa [ones] using h

theorem getLsbD_ones_sub_ones (hmn : m ≤ n) (hn : n < w) (i : Nat) :
    (ones w n - ones w m).getLsbD i = (decide (m ≤ i) && decide (i < n)) := by
  rw [← getLsbD_shiftLeft_sub hmn hn, ones, ones, sub_sub_sub_cancel_right]

theorem getLsbD_allOnes_sub_ones (hn : n < w) {i : Nat} (hi : i < w) :
    (BitVec.allOnes w - ones w n).getLsbD i = decide (n ≤ i) := by
  rw [allOnes_sub_eq_not, getLsbD_not, getLsbD_ones hn]
  simp only [hi, decide_true, Bool.true_and, ← decide_not, Nat.not_lt]

end SELinux.Lib.Bits
