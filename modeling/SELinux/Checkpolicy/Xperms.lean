/-
  SELinux.Checkpolicy.Xperms — the 256 bits of an extended permission record
  (`checkpolicy/policy_define.c`: `avrule_xperm_setrangebits`, `avrule_xperms_used`,
  `xperms_for_each_bit`; `policydb.h`: `xperm_set`, `xperm_clear`).

  A record has eight words of 32 bits. `avrule_xperm_setrangebits` sets a range of bits word by
  word: a word is filled, or gets the bits below the end of the range, those from its start on, or
  those between. `xpermTest_setrangebits` is what all four cases come to.
-/
import SELinux.Check.NeverallowXperms

namespace SELinux.Checkpolicy

open Db Check Lib BitVec

/-! ## Single bits -/

abbrev XpermBits := Vector (BitVec 32) 8

def noXperms : XpermBits := Vector.replicate 8 0#32

/-- An assignment to `p[i]`. -/
def onWord (p : XpermBits) (i : Nat) (f : BitVec 32 → BitVec 32) : XpermBits :=
  if h : i < 8 then p.set i (f p[i]) else p

/-- `xperm_set` -/
def xpermSet (x : BitVec 8) (p : XpermBits) : XpermBits := onWord p (x.toNat / 32) (· ||| 1#32 <<< (x.toNat % 32))

/-- `xperm_clear` -/
def xpermClear (x : BitVec 8) (p : XpermBits) : XpermBits := onWord p (x.toNat / 32) (· &&& ~~~(1#32 <<< (x.toNat % 32)))

/-- `avrule_xperms_used` -/
def avruleXpermsUsed (p : XpermBits) : Bool := p.any (· != 0#32)

/-! ## A range of bits -/

/-- `XPERM_IDX` -/
def xpermIdx (x : Nat) : Nat := x / 32

/-- `XPERM_SETBITS`; the macro's `1 << 31` and its predecessor are taken in 32 bits. -/
def xpermSetbits (x : Nat) : BitVec 32 := Bits.ones 32 (x % 32)

/-- `XPERM_LOW` -/
def xpermLow (i : Nat) : Nat := 32 * i

/-- `XPERM_HIGH` -/
def xpermHigh (i : Nat) : Nat := 32 * (i + 1) - 1

/-- What a round of the loop adds to the word `i`. -/
def rangeWord (low high : Nat) (i : Nat) : BitVec 32 :=
  let h := high + 1
  if low ≤ xpermLow i ∧ xpermHigh i ≤ high then BitVec.allOnes 32
  else if low ≤ xpermLow i ∧ high < xpermHigh i then xpermSetbits h
  else if xpermLow i < low ∧ xpermHigh i ≤ high then BitVec.allOnes 32 - xpermSetbits low
  else if xpermLow i < low ∧ high ≤ xpermHigh i then xpermSetbits h - xpermSetbits low
  else 0#32

/-- `avrule_xperm_setrangebits`. The callers pass at most 0xff, so `i` stays within the array. -/
def avruleXpermSetrangebits (low high : Nat) (p : XpermBits) : XpermBits :=
  (List.range' (xpermIdx low) (xpermIdx high + 1 - xpermIdx low)).foldl
    (fun p i => onWord p i (· ||| rangeWord low high i)) p

/-! ## The bits set -/

theorem idx_lt (x : BitVec 8) : x.toNat / 32 < 8 := by
  omega

theorem xpermTest_eq (x : BitVec 8) (p : XpermBits) (h : x.toNat / 32 < 8) :
    xpermTest x p = (p[x.toNat / 32]).getLsbD (x.toNat % 32) := rfl

theorem getElem_onWord (p : XpermBits) (i : Nat) (f : BitVec 32 → BitVec 32) {j : Nat} (hj : j < 8) :
    (onWord p i f)[j] = if i = j then f p[j] else p[j] := by
  unfold onWord
  split
  · rw [Vector.getElem_set]
    split
    next hij =>
      subst hij
      rfl
    · rfl
  · rw [if_neg (by omega)]

@[simp] theorem xpermTest_noXperms (x : BitVec 8) : xpermTest x noXperms = false := by
  rw [xpermTest_eq x _ (idx_lt x), noXperms, Vector.getElem_replicate, getLsbD_zero]

theorem xpermTest_onWord (x : BitVec 8) (p : XpermBits) (i : Nat) (f : BitVec 32 → BitVec 32) (h : x.toNat / 32 < 8) :
    xpermTest x (onWord p i f) = if i = x.toNat / 32 then (f p[x.toNat / 32]).getLsbD (x.toNat % 32) else xpermTest x p := by
  rw [xpermTest_eq x _ h, getElem_onWord, xpermTest_eq x _ h, apply_ite (BitVec.getLsbD · _)]

theorem xpermTest_orWord (x : BitVec 8) (p : XpermBits) (i : Nat) (m : BitVec 32) :
    xpermTest x (onWord p i (· ||| m)) = (xpermTest x p || (decide (i = x.toNat / 32) && m.getLsbD (x.toNat % 32))) := by
  rw [xpermTest_onWord x p i _ (idx_lt x), xpermTest_eq x p (idx_lt x)]
  by_cases h : i = x.toNat / 32
  · simp [h]
  · simp [h]

theorem getLsbD_bit (x y : BitVec 8) :
    (1#32 <<< (y.toNat % 32)).getLsbD (x.toNat % 32) = decide (x.toNat % 32 = y.toNat % 32) := by
  rw [← twoPow_eq]
  have : y.toNat % 32 < 32 := Nat.mod_lt _ (by decide)
  simp [this, eq_comm]

theorem same_bit_iff (x y : BitVec 8) : y.toNat / 32 = x.toNat / 32 ∧ x.toNat % 32 = y.toNat % 32 ↔ x = y := by
  rw [← toNat_inj]
  omega

theorem xpermTest_xpermSet (x y : BitVec 8) (p : XpermBits) :
    xpermTest x (xpermSet y p) = (xpermTest x p || decide (x = y)) := by
  rw [xpermSet, xpermTest_orWord, getLsbD_bit, ← Bool.decide_and, decide_eq_decide.mpr (same_bit_iff x y)]

theorem xpermTest_xpermClear (x y : BitVec 8) (p : XpermBits) :
    xpermTest x (xpermClear y p) = (xpermTest x p && !decide (x = y)) := by
  have hlt : x.toNat % 32 < 32 := Nat.mod_lt _ (by decide)
  rw [xpermClear, xpermTest_onWord x p _ _ (idx_lt x), getLsbD_and, getLsbD_not, getLsbD_bit, xpermTest_eq x p (idx_lt x)]
  by_cases h : y.toNat / 32 = x.toNat / 32
  · simp [← same_bit_iff x y, h, hlt]
  · simp [← same_bit_iff x y, h]

/-- Some bit is set in a word that is not 0. -/
theorem avruleXpermsUsed_iff (p : XpermBits) : avruleXpermsUsed p = true ↔ ∃ x, xpermTest x p = true := by
  rw [avruleXpermsUsed, Vector.any_eq_true]
  constructor
  · intro h
    obtain ⟨i, hi, hne⟩ := h
    obtain ⟨j, hj⟩ := (Bits.ne_zero_iff _).mp (bne_iff_ne.mp hne)
    have hj32 := lt_of_getLsbD hj
    have hx : (BitVec.ofNat 8 (32 * i + j)).toNat = 32 * i + j := by
      rw [toNat_ofNat]
      omega
    refine ⟨BitVec.ofNat 8 (32 * i + j), ?_⟩
    have hword : (32 * i + j) / 32 = i := by omega
    have hbit : (32 * i + j) % 32 = j := by omega
    rw [xpermTest_eq _ p (idx_lt _)]
    simp only [hx, hword, hbit]
    exact hj
  · intro h
    obtain ⟨x, hx⟩ := h
    exact ⟨x.toNat / 32, idx_lt x, bne_iff_ne.mpr ((Bits.ne_zero_iff _).mpr ⟨_, hx⟩)⟩

/-- The bits a round adds to a word the range touches. -/
theorem getLsbD_rangeWord {low high i : Nat} (hlow : xpermIdx low ≤ i) (hhigh : i ≤ xpermIdx high) (hle : low ≤ high)
    {j : Nat} (hj : j < 32) : (rangeWord low high i).getLsbD j = decide (low ≤ 32 * i + j ∧ 32 * i + j ≤ high) := by
  unfold xpermIdx at hlow hhigh
  unfold rangeWord xpermSetbits xpermLow xpermHigh
  have hl : low % 32 < 32 := Nat.mod_lt _ (by decide)
  have hh : (high + 1) % 32 < 32 := Nat.mod_lt _ (by decide)
  split_ifs with h1 h2 h3 h4
  · rw [getLsbD_allOnes, decide_eq_decide]
    omega
  · rw [Bits.getLsbD_ones hh, decide_eq_decide]
    omega
  · rw [Bits.getLsbD_allOnes_sub_ones hl hj, decide_eq_decide]
    omega
  · rw [Bits.getLsbD_ones_sub_ones (by omega) hh, ← Bool.decide_and, decide_eq_decide]
    omega
  · omega

theorem xpermTest_foldl_orWord (x : BitVec 8) (m : Nat → BitVec 32) (l : List Nat) (p : XpermBits) :
    xpermTest x (l.foldl (fun p i => onWord p i (· ||| m i)) p) =
      (xpermTest x p || (decide (x.toNat / 32 ∈ l) && (m (x.toNat / 32)).getLsbD (x.toNat % 32))) := by
  induction l generalizing p with
  | nil => simp
  | cons i l ih =>
    rw [List.foldl_cons, ih, xpermTest_orWord]
    by_cases h : i = x.toNat / 32
    · subst h
      cases xpermTest x p <;> simp
    · simp [h, Ne.symm h]

/-- The bits from `low` to `high` are set, and no other ones. -/
theorem xpermTest_setrangebits (x : BitVec 8) {low high : Nat} (hle : low ≤ high) (p : XpermBits) :
    xpermTest x (avruleXpermSetrangebits low high p) = (xpermTest x p || decide (low ≤ x.toNat ∧ x.toNat ≤ high)) := by
  rw [avruleXpermSetrangebits, xpermTest_foldl_orWord]
  congr 1
  have hx : 32 * (x.toNat / 32) + x.toNat % 32 = x.toNat := Nat.div_add_mod _ _
  by_cases hmem : xpermIdx low ≤ x.toNat / 32 ∧ x.toNat / 32 ≤ xpermIdx high
  · rw [getLsbD_rangeWord hmem.1 hmem.2 hle (Nat.mod_lt _ (by decide)), hx, ← Bool.decide_and, decide_eq_decide,
      List.mem_range'_1]
    omega
  · have hnot : ¬(low ≤ x.toNat ∧ x.toNat ≤ high) := by
      unfold xpermIdx at hmem
      omega
    have hout : x.toNat / 32 ∉ List.range' (xpermIdx low) (xpermIdx high + 1 - xpermIdx low) := by
      rw [List.mem_range'_1]
      omega
    simp [hnot, hout]

/-! ## The bits one after the other -/

/-- `while (xperms_for_each_bit(&i, p))` from `i` on. A call clears the bit it finds and the next
    one starts there, so the bit after it is looked at next. -/
def xpermsForEachBit : Nat → Nat → XpermBits → List (BitVec 8)
  | 0, _, _ => []
  | n + 1, i, p =>
    let x := BitVec.ofNat 8 i
    if xpermTest x p then x :: xpermsForEachBit n (i + 1) (xpermClear x p) else xpermsForEachBit n (i + 1) p

/-- Every set bit is visited once. -/
theorem count_xpermsForEachBit (n i : Nat) (hi : i + n = 256) (p : XpermBits) (x : BitVec 8) :
    (xpermsForEachBit n i p).count x = if i ≤ x.toNat ∧ xpermTest x p = true then 1 else 0 := by
  induction n generalizing i p with
  | zero =>
    rw [if_neg (by omega)]
    rfl
  | succ n ih =>
    have hto : (BitVec.ofNat 8 i).toNat = i := by
      rw [toNat_ofNat]
      omega
    by_cases hx : x = BitVec.ofNat 8 i
    · have hxi : x.toNat = i := hx ▸ hto
      rw [xpermsForEachBit, ← hx]
      split
      next htest =>
        rw [List.count_cons_self, ih (i + 1) (by omega), if_neg (by omega), if_pos ⟨by omega, htest⟩]
      next htest =>
        rw [ih (i + 1) (by omega), if_neg (by omega), if_neg (fun h => htest h.2)]
    · have hxi : x.toNat ≠ i := fun h => hx (eq_of_toNat_eq (h.trans hto.symm))
      have hle : i + 1 ≤ x.toNat ↔ i ≤ x.toNat := by omega
      rw [xpermsForEachBit]
      split
      · rw [List.count_cons_of_ne (Ne.symm hx), ih (i + 1) (by omega)]
        simp [xpermTest_xpermClear, hx, hle]
      · simp [ih (i + 1) (by omega), hle]

end SELinux.Checkpolicy
