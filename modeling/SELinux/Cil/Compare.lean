/-
  SELinux.Cil.Compare — the order in which contexts of number ranges are written
  (`libsepol/cil/src/cil_post.c`: `cil_post_portcon_compare`, `cil_post_ioportcon_compare`,
  `cil_post_iomemcon_compare`).

  A lookup takes the first range that holds the number, so `cil_post_process` sorts the smaller
  ranges to the front. The comparators return the difference of the two sizes, computed in the
  unsigned type of the bounds and assigned to an `int`. A difference of 2^31 or more changes its sign
  on the way, and one of a multiple of 2^32, which only the 64-bit bounds of `iomemcon` have,
  becomes 0 and leaves the decision to the lower bounds.

  `cilPostCompare_sorts_iff`: the comparators order the contexts of a list, smaller ranges first,
  if and only if for any two of them the difference of the sizes keeps its sign as an `int`, or
  becomes 0 and the smaller range starts lower.
-/
import Mathlib

namespace SELinux.Cil

open BitVec List

/-! ## The comparators -/

/-- The bounds of a context. -/
structure Span (w : Nat) where
  low : BitVec w
  high : BitVec w
  deriving DecidableEq, Repr

/-- The body the three comparators share. -/
def spanCompare {w : Nat} (a b : Span w) : Int :=
  let rc := (((a.high - a.low) - (b.high - b.low)).setWidth 32).toInt
  if rc = 0 then if a.low < b.low then -1 else if b.low < a.low then 1 else 0 else rc

/-- `struct cil_portcon` -/
structure CilPortcon where
  portLow : BitVec 32
  portHigh : BitVec 32
  deriving DecidableEq, Repr

/-- `struct cil_ioportcon` -/
structure CilIoportcon where
  ioportLow : BitVec 32
  ioportHigh : BitVec 32
  deriving DecidableEq, Repr

/-- `struct cil_iomemcon` -/
structure CilIomemcon where
  iomemLow : BitVec 64
  iomemHigh : BitVec 64
  deriving DecidableEq, Repr

def CilPortcon.span (c : CilPortcon) : Span 32 := ⟨c.portLow, c.portHigh⟩

def CilIoportcon.span (c : CilIoportcon) : Span 32 := ⟨c.ioportLow, c.ioportHigh⟩

def CilIomemcon.span (c : CilIomemcon) : Span 64 := ⟨c.iomemLow, c.iomemHigh⟩

/-- `cil_post_portcon_compare` -/
def cilPostPortconCompare (a b : CilPortcon) : Int := spanCompare a.span b.span

/-- `cil_post_ioportcon_compare` -/
def cilPostIoportconCompare (a b : CilIoportcon) : Int := spanCompare a.span b.span

/-- `cil_post_iomemcon_compare` -/
def cilPostIomemconCompare (a b : CilIomemcon) : Int := spanCompare a.span b.span

/-! ## What the comparators are for -/

namespace Span

variable {w : Nat}

def Formed (s : Span w) : Prop := s.low ≤ s.high

instance (s : Span w) : Decidable s.Formed := inferInstanceAs (Decidable (s.low ≤ s.high))

/-- How many numbers the range has, less one. -/
def size (s : Span w) : Nat := s.high.toNat - s.low.toNat

end Span

/-- The comparator is a total preorder on the members of the list, equal only on equal ranges, and
    every arrangement it accepts as sorted has the smaller ranges first. -/
structure SortsBySize {α : Type} {w : Nat} (cmp : α → α → Int) (span : α → Span w) (l : List α) : Prop where
  total : ∀ a ∈ l, ∀ b ∈ l, cmp a b ≤ 0 ∨ cmp b a ≤ 0
  antisymm : ∀ a ∈ l, ∀ b ∈ l, cmp a b ≤ 0 → cmp b a ≤ 0 → span a = span b
  trans : ∀ a ∈ l, ∀ b ∈ l, ∀ c ∈ l, cmp a b ≤ 0 → cmp b c ≤ 0 → cmp a c ≤ 0
  sorted : ∀ l' : List α, l'.Perm l → l'.Pairwise (fun a b => cmp a b ≤ 0) → l'.Pairwise fun a b =>
    (span a).size ≤ (span b).size

/-- The difference of the sizes of a range and a larger one is positive as an `int`,
    or 0 with the smaller range starting lower. -/
def Span.KeepsSign {w : Nat} (a b : Span w) : Prop :=
  (0 < (b.size - a.size) % 2 ^ 32 ∧ (b.size - a.size) % 2 ^ 32 < 2 ^ 31) ∨ ((b.size - a.size) % 2 ^ 32 = 0 ∧ a.low < b.low)

instance {w : Nat} (a b : Span w) : Decidable (a.KeepsSign b) :=
  inferInstanceAs (Decidable (_ ∧ _ ∨ _ ∧ _))

/-- An arrangement of the members exists that the comparator accepts. -/
theorem SortsBySize.exists_sorted {α : Type} {w : Nat} {cmp : α → α → Int} {span : α → Span w} {l : List α}
    (h : SortsBySize cmp span l) : ∃ l' : List α, l'.Perm l ∧ l'.Pairwise fun a b => cmp a b ≤ 0 := by
  let le (a b : {x // x ∈ l}) : Bool := decide (cmp a.1 b.1 ≤ 0)
  have htrans : ∀ a b c, le a b = true → le b c = true → le a c = true := by
    intro a b c hab hbc
    simp only [le, decide_eq_true_eq] at hab hbc ⊢
    exact h.trans a.1 a.2 b.1 b.2 c.1 c.2 hab hbc
  have htotal : ∀ a b, (le a b || le b a) = true := by
    intro a b
    simpa only [le, Bool.or_eq_true, decide_eq_true_eq] using h.total a.1 a.2 b.1 b.2
  refine ⟨(l.attach.mergeSort le).map Subtype.val, ?_, ?_⟩
  · simpa using (mergeSort_perm l.attach le).map Subtype.val
  · rw [pairwise_map]
    refine (pairwise_mergeSort htrans htotal l.attach).imp ?_
    intro a b hab
    simpa only [le, decide_eq_true_eq] using hab

/-- Of two members of an arrangement by size, the smaller one comes first. -/
theorem SortsBySize.le_of_size_lt {α : Type} {w : Nat} {cmp : α → α → Int} {span : α → Span w} {l : List α}
    (h : SortsBySize cmp span l) {a b : α} (ha : a ∈ l) (hb : b ∈ l) (hlt : (span a).size < (span b).size) :
    cmp a b ≤ 0 := by
  obtain ⟨l', hperm, hsorted⟩ := h.exists_sorted
  have hsize := h.sorted l' hperm hsorted
  obtain ⟨i, hi, rfl⟩ := getElem_of_mem (hperm.mem_iff.mpr ha)
  obtain ⟨j, hj, rfl⟩ := getElem_of_mem (hperm.mem_iff.mpr hb)
  rcases Nat.lt_trichotomy i j with hij | rfl | hji
  · exact pairwise_iff_getElem.mp hsorted i j hi hj hij
  · omega
  · have := pairwise_iff_getElem.mp hsize j i hj hi hji
    omega

/-! ## The sign of a comparison -/

section

variable {w : Nat} {a b : Span w}

theorem Span.toNat_sub (ha : a.Formed) : (a.high - a.low).toNat = a.size := toNat_sub_of_le ha

/-- The `int` is the difference of the sizes modulo 2^32. -/
theorem toInt_diff (hw : 32 ≤ w) (ha : a.Formed) (hb : b.Formed) :
    (((a.high - a.low) - (b.high - b.low)).setWidth 32).toInt = ((a.size : Int) - b.size).bmod (2 ^ 32) := by
  have hlt : b.size < 2 ^ w := by
    rw [← Span.toNat_sub hb]
    exact BitVec.isLt _
  obtain ⟨k, hk⟩ : (4294967296 : Int) ∣ 2 ^ w := pow_dvd_pow 2 hw
  have hmod : (((2 ^ w - b.size + a.size) % 2 ^ w : Nat) : Int) % (2 ^ 32 : Nat) =
      ((a.size : Int) - b.size) % (2 ^ 32 : Nat) := by
    push_cast [Nat.cast_sub (Nat.le_of_lt hlt)]
    rw [Int.emod_emod_of_dvd _ ⟨k, hk⟩, hk]
    omega
  rw [toInt_setWidth, toNat_sub, Span.toNat_sub ha, Span.toNat_sub hb]
  rw [← Int.emod_bmod, hmod, Int.emod_bmod]

theorem Span.size_eq_iff (ha : a.Formed) (hb : b.Formed) (hlow : a.low = b.low) : a.size = b.size ↔ a = b := by
  constructor
  · intro h
    have ha' : a.low.toNat ≤ a.high.toNat := ha
    have hb' : b.low.toNat ≤ b.high.toNat := hb
    have hhigh : a.high = b.high := by
      apply eq_of_toNat_eq
      rw [Span.size, Span.size, hlow] at h
      rw [hlow] at ha'
      omega
    cases a
    simp_all
  · rintro rfl
    rfl

/-- Of ranges of one size, the lower one comes first. -/
theorem spanCompare_of_size_eq (hw : 32 ≤ w) (ha : a.Formed) (hb : b.Formed) (h : a.size = b.size) :
    spanCompare a b ≤ 0 ↔ a.low ≤ b.low := by
  rw [spanCompare, toInt_diff hw ha hb, h]
  simp only [Int.sub_self, Int.zero_bmod, if_true]
  split
  next hlt =>
    simp [BitVec.le_of_lt hlt]
  · split
    next hlt =>
      simpa using hlt
    next hlt =>
      simpa using hlt

/-- Of ranges of different sizes, the smaller one comes first in the cases of `KeepsSign`. -/
theorem spanCompare_of_size_lt (hw : 32 ≤ w) (ha : a.Formed) (hb : b.Formed) (h : a.size < b.size) :
    spanCompare a b ≤ 0 ∧ 0 < spanCompare b a ↔ a.KeepsSign b := by
  rw [spanCompare, spanCompare, toInt_diff hw ha hb, toInt_diff hw hb ha, Span.KeepsSign, Int.bmod_def, Int.bmod_def]
  obtain ⟨d, hd⟩ : ∃ d, b.size = a.size + d := ⟨b.size - a.size, by omega⟩
  have e1 : ((a.size : Int) - b.size) = -(d : Int) := by omega
  have e2 : ((b.size : Int) - a.size) = (d : Int) := by omega
  have e3 : b.size - a.size = d := by omega
  have hlow : a.low < b.low ↔ a.low.toNat < b.low.toNat := lt_def
  have hlow' : b.low < a.low ↔ b.low.toNat < a.low.toNat := lt_def
  simp only [hlow, hlow']
  split_ifs <;> omega

/-- Where the differences keep their signs, the order is by size and then by lower bound. -/
theorem spanCompare_le_iff (hw : 32 ≤ w) (ha : a.Formed) (hb : b.Formed) (hab : a.size < b.size → a.KeepsSign b)
    (hba : b.size < a.size → b.KeepsSign a) :
    spanCompare a b ≤ 0 ↔ a.size < b.size ∨ a.size = b.size ∧ a.low.toNat ≤ b.low.toNat := by
  rcases Nat.lt_trichotomy a.size b.size with h | h | h
  · have := (spanCompare_of_size_lt hw ha hb h).mpr (hab h)
    simp [h, this.1]
  · rw [spanCompare_of_size_eq hw ha hb h]
    simp [h, le_def]
  · have := (spanCompare_of_size_lt hw hb ha h).mpr (hba h)
    constructor
    · intro hle
      omega
    · intro hor
      omega

end

/-! ## The lists of contexts -/

section

variable {α : Type} {w : Nat} {span : α → Span w} {l : List α}

theorem sortsBySize_of_keepsSign (hw : 32 ≤ w) (hl : ∀ a ∈ l, (span a).Formed)
    (hkeep : ∀ a ∈ l, ∀ b ∈ l, (span a).size < (span b).size → (span a).KeepsSign (span b)) :
    SortsBySize (fun a b => spanCompare (span a) (span b)) span l := by
  have hle : ∀ a ∈ l, ∀ b ∈ l, spanCompare (span a) (span b) ≤ 0 ↔
      (span a).size < (span b).size ∨ (span a).size = (span b).size ∧ (span a).low.toNat ≤ (span b).low.toNat := by
    intro a ha b hb
    exact spanCompare_le_iff hw (hl a ha) (hl b hb) (hkeep a ha b hb) (hkeep b hb a ha)
  refine ⟨?_, ?_, ?_, ?_⟩
  · intro a ha b hb
    rw [hle a ha b hb, hle b hb a ha]
    omega
  · intro a ha b hb hab hba
    rw [hle a ha b hb] at hab
    rw [hle b hb a ha] at hba
    have hsize : (span a).size = (span b).size := by omega
    have hlow : (span a).low = (span b).low := by
      apply eq_of_toNat_eq
      omega
    exact (Span.size_eq_iff (hl a ha) (hl b hb) hlow).mp hsize
  · intro a ha b hb c hc hab hbc
    rw [hle a ha b hb] at hab
    rw [hle b hb c hc] at hbc
    rw [hle a ha c hc]
    omega
  · intro l' hperm hsorted
    refine hsorted.imp_of_mem ?_
    intro a b ha hb hab
    rw [hle a (hperm.mem_iff.mp ha) b (hperm.mem_iff.mp hb)] at hab
    omega

theorem keepsSign_of_sortsBySize (hw : 32 ≤ w) (hl : ∀ a ∈ l, (span a).Formed)
    (h : SortsBySize (fun a b => spanCompare (span a) (span b)) span l) {a b : α} (ha : a ∈ l) (hb : b ∈ l)
    (hlt : (span a).size < (span b).size) : (span a).KeepsSign (span b) := by
  have hle := h.le_of_size_lt ha hb hlt
  refine (spanCompare_of_size_lt hw (hl a ha) (hl b hb) hlt).mp ⟨hle, ?_⟩
  by_contra hba
  have heq := h.antisymm a ha b hb hle (Int.not_lt.mp hba)
  rw [heq] at hlt
  exact Nat.lt_irrefl _ hlt

/-- The members of the list keep the signs of their differences. -/
def KeepSigns (span : α → Span w) (l : List α) : Prop :=
  ∀ a ∈ l, ∀ b ∈ l, (span a).size < (span b).size → (span a).KeepsSign (span b)

instance (span : α → Span w) (l : List α) : Decidable (KeepSigns span l) :=
  inferInstanceAs (Decidable (∀ a ∈ l, ∀ b ∈ l, _ → _))

theorem spanCompare_sorts_iff (hw : 32 ≤ w) (hl : ∀ a ∈ l, (span a).Formed) :
    SortsBySize (fun a b => spanCompare (span a) (span b)) span l ↔ KeepSigns span l := by
  constructor
  · intro h a ha b hb hlt
    exact keepsSign_of_sortsBySize hw hl h ha hb hlt
  · intro h
    exact sortsBySize_of_keepsSign hw hl h

end

/-- Each comparator orders a list, smaller ranges first, where its differences keep their signs. -/
theorem cilPostCompare_sorts_iff (ports : List CilPortcon) (ioports : List CilIoportcon) (iomem : List CilIomemcon)
    (hports : ∀ c ∈ ports, c.span.Formed) (hioports : ∀ c ∈ ioports, c.span.Formed) (hiomem : ∀ c ∈ iomem, c.span.Formed) :
    (SortsBySize cilPostPortconCompare CilPortcon.span ports ↔ KeepSigns CilPortcon.span ports) ∧
    (SortsBySize cilPostIoportconCompare CilIoportcon.span ioports ↔ KeepSigns CilIoportcon.span ioports) ∧
    (SortsBySize cilPostIomemconCompare CilIomemcon.span iomem ↔ KeepSigns CilIomemcon.span iomem) := by
  refine ⟨?_, ?_, ?_⟩
  · exact spanCompare_sorts_iff (Nat.le_refl 32) hports
  · exact spanCompare_sorts_iff (Nat.le_refl 32) hioports
  · exact spanCompare_sorts_iff (by decide) hiomem

/-- A port, and a range of 2^31 + 2 ports. -/
def farPorts : List CilPortcon := [⟨0, 0⟩, ⟨0, 0x80000001⟩]

def farIoports : List CilIoportcon := [⟨0, 0⟩, ⟨0, 0x80000001⟩]

/-- An address, and a range of 2^32 + 1 addresses. -/
def farIomem : List CilIomemcon := [⟨0, 0⟩, ⟨0, 0x100000000⟩]

/-- The larger range of ports comes first, and the two ranges of memory compare as equal. -/
theorem cilPostCompare_far :
    ((∀ c ∈ farPorts, c.span.Formed) ∧ cilPostPortconCompare ⟨0, 0x80000001⟩ ⟨0, 0⟩ < 0 ∧
      ¬ SortsBySize cilPostPortconCompare CilPortcon.span farPorts) ∧
    ((∀ c ∈ farIoports, c.span.Formed) ∧ cilPostIoportconCompare ⟨0, 0x80000001⟩ ⟨0, 0⟩ < 0 ∧
      ¬ SortsBySize cilPostIoportconCompare CilIoportcon.span farIoports) ∧
    ((∀ c ∈ farIomem, c.span.Formed) ∧ cilPostIomemconCompare ⟨0, 0x100000000⟩ ⟨0, 0⟩ = 0 ∧
      ¬ SortsBySize cilPostIomemconCompare CilIomemcon.span farIomem) := by
  refine ⟨⟨by decide, by decide, ?_⟩, ⟨by decide, by decide, ?_⟩, by decide, by decide, ?_⟩
  · intro h
    have := h.le_of_size_lt (a := ⟨0, 0⟩) (b := ⟨0, 0x80000001⟩) (by decide) (by decide) (by decide)
    revert this
    decide
  · intro h
    have := h.le_of_size_lt (a := ⟨0, 0⟩) (b := ⟨0, 0x80000001⟩) (by decide) (by decide) (by decide)
    revert this
    decide
  · intro h
    have := h.antisymm ⟨0, 0⟩ (by decide) ⟨0, 0x100000000⟩ (by decide) (by decide) (by decide)
    revert this
    decide

/-- Ranges of the size of real policies. -/
def nearPorts : List CilPortcon := [⟨0, 1023⟩, ⟨80, 80⟩, ⟨1024, 65535⟩]

def nearIoports : List CilIoportcon := [⟨0x3f8, 0x3ff⟩, ⟨0x60, 0x60⟩]

def nearIomem : List CilIomemcon := [⟨0, 0x7fffffff⟩, ⟨0xfee00, 0xfee01⟩]

theorem cilPostCompare_near :
    SortsBySize cilPostPortconCompare CilPortcon.span nearPorts ∧
      SortsBySize cilPostIoportconCompare CilIoportcon.span nearIoports ∧
      SortsBySize cilPostIomemconCompare CilIomemcon.span nearIomem := by
  obtain ⟨hports, hioports, hiomem⟩ :=
    cilPostCompare_sorts_iff nearPorts nearIoports nearIomem (by decide) (by decide) (by decide)
  exact ⟨hports.mpr (by decide), hioports.mpr (by decide), hiomem.mpr (by decide)⟩

end SELinux.Cil
