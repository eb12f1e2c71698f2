/-
  SELinux.Db.Bitset — bitmaps as sets (`libsepol/src/ebitmap.c`, `mls_types.h`).

  A bitmap stands for the set of the bits its maps hold. The merge of `ebitmap_or`, the
  bit-by-bit loops of `ebitmap_and`, `ebitmap_xor` and `ebitmap_not` and the side-by-side
  walks of `ebitmap_cmp`, `ebitmap_contains` and `ebitmap_match_any` are the operations and
  the relations of sets; dominance of levels is then the product of the order of
  sensitivities and inclusion of categories.

  The end of a bitmap is a `uint32_t`, so that no map of a well-formed one lies past the bit
  2^32 - 65, and the loops set no bit that `ebitmap_set_bit` refuses.

  Proved:
  - `ebitmap_setOperations`: every operation succeeds and returns the well-formed bitmap of
    the set it is named after.
  - `ebitmap_setRelations`: the three tests decide equality, inclusion and a common bit, and
    dominance is a partial order.
-/
import SELinux.Db.Context

namespace SELinux.Db

open List BitVec Bool

variable {e1 e2 : Ebitmap} {l1 l2 : List EbitmapNode} {e : Ebitmap}

/-! ## The other operations -/

/-- The loop of `ebitmap_xor` and `ebitmap_not`. -/
def ebitmapFill (val : Nat → Bool) (length : Nat) : Option Ebitmap :=
  (List.range length).foldlM (fun dst i => ebitmapSetBit dst i (val i)) {}

def ebitmapXor (e1 e2 : Ebitmap) : Option Ebitmap :=
  ebitmapFill (fun i => ebitmapGetBit e1 i ^^ ebitmapGetBit e2 i) (max (ebitmapLength e1) (ebitmapLength e2))

def ebitmapNot (e1 : Ebitmap) (maxbit : Nat) : Option Ebitmap := ebitmapFill (fun i => !ebitmapGetBit e1 i) maxbit

def ebitmapAndnot (e1 e2 : Ebitmap) (maxbit : Nat) : Option Ebitmap := do
  let e3 ← ebitmapNot e2 maxbit
  ebitmapAnd e1 e3

/-- `ebitmap_union`: the merge takes the place of `dst`. -/
def ebitmapUnion (dst e1 : Ebitmap) : Ebitmap :=
  let tmp := ebitmapOr dst e1
  { node := tmp.node, highbit := tmp.highbit }

def ebitmapCpy (src : Ebitmap) : Ebitmap :=
  { node := src.node.map fun n => { startbit := n.startbit, map := n.map }, highbit := src.highbit }

/-- The walk of `ebitmap_cmp`: while the nodes agree; then both lists have to be at their end. -/
def cmpFrom : List EbitmapNode → List EbitmapNode → Bool
  | [], [] => true
  | n1 :: l1, n2 :: l2 => if n1.startbit = n2.startbit ∧ n1.map = n2.map then cmpFrom l1 l2 else false
  | _, _ => false

theorem cmpFrom_iff : cmpFrom l1 l2 = true ↔ l1 = l2 := by
  induction l1 generalizing l2 with
  | nil => cases l2 <;> simp [cmpFrom]
  | cons n1 l1 ih =>
    cases l2 with
    | nil => simp [cmpFrom]
    | cons n2 l2 =>
      obtain ⟨s1, m1⟩ := n1
      obtain ⟨s2, m2⟩ := n2
      simp [cmpFrom, ih]

/-- `ebitmapCmp` is that walk. -/
theorem ebitmapCmp_walk (e1 e2 : Ebitmap) :
    ebitmapCmp e1 e2 = if e1.highbit ≠ e2.highbit then false else cmpFrom e1.node e2.node := by
  unfold ebitmapCmp
  by_cases hhigh : e1.highbit = e2.highbit
  · rw [if_neg (Decidable.not_not.mpr hhigh), Bool.eq_iff_iff, cmpFrom_iff]
    simp [hhigh]
  · rw [if_pos hhigh]
    simp [hhigh]

/-! ## Sets of bits -/

/-- The bits of the maps. -/
def Ebitmap.toSet (e : Ebitmap) : Set Nat := { i | Holds e.node i }

/-- A well-formed bitmap of exactly the bits of `s`. -/
structure Ebitmap.Denotes (e : Ebitmap) (s : Set Nat) : Prop where
  wf : e.WF
  bits : e.toSet = s

theorem Ebitmap.WF.mem_toSet (h : e.WF) {i : Nat} : ebitmapGetBit e i = true ↔ i ∈ e.toSet := getBit_iff h i

/-- What a bitmap denotes is read off with `ebitmap_get_bit`. -/
theorem Ebitmap.WF.denotes (h : e.WF) {s : Set Nat} (hs : ∀ i, ebitmapGetBit e i = true ↔ i ∈ s) : e.Denotes s where
  wf := h
  bits := by
    ext i
    rw [← h.mem_toSet]
    exact hs i

/-- Two well-formed bitmaps of one set are the same bitmap. -/
theorem Ebitmap.WF.eq_of_toSet {e f : Ebitmap} (he : e.WF) (hf : f.WF) (h : e.toSet = f.toSet) : e = f := by
  refine he.ext hf ?_
  intro i
  rw [Bool.eq_iff_iff, he.mem_toSet, hf.mem_toSet, h]

/-! ## Operations -/

theorem ebitmapSetBit_denotes (h : e.WF) {bit : Nat} (hbit : bit < 2 ^ 32 - 64) (value : Bool) :
    ∃ r, ebitmapSetBit e bit value = some r ∧ r.Denotes (if value then insert bit e.toSet else e.toSet \ {bit}) := by
  have hend : bit - bit % mapsize + mapsize < 2 ^ 32 := by
    simp only [mapsize]
    omega
  obtain ⟨r, hr⟩ := ebitmapSetBit_isSome e hend value
  obtain ⟨hwf, hbits⟩ := ebitmapSetBit_spec h hr
  refine ⟨r, hr, hwf.denotes ?_⟩
  intro i
  rw [hbits]
  by_cases hi : i = bit
  · cases value <;> simp [hi]
  · cases value <;> simp [hi, h.mem_toSet]

theorem ebitmapOr_denotes (h1 : e1.WF) (h2 : e2.WF) : (ebitmapOr e1 e2).Denotes (e1.toSet ∪ e2.toSet) := by
  obtain ⟨hwf, hbits⟩ := ebitmapOr_spec h1 h2
  refine hwf.denotes ?_
  intro i
  rw [hbits, h1.mem_toSet, h2.mem_toSet]
  rfl

theorem ebitmapUnion_denotes (h1 : e1.WF) (h2 : e2.WF) : (ebitmapUnion e1 e2).Denotes (e1.toSet ∪ e2.toSet) :=
  ebitmapOr_denotes h1 h2

theorem ebitmapAnd_denotes (h1 : e1.WF) (h2 : e2.WF) : ∃ r, ebitmapAnd e1 e2 = some r ∧ r.Denotes (e1.toSet ∩ e2.toSet) := by
  obtain ⟨r, hr, hwf, hbits⟩ := ebitmapAnd_spec h1 h2
  refine ⟨r, hr, hwf.denotes ?_⟩
  intro i
  rw [hbits, h1.mem_toSet, h2.mem_toSet]
  rfl

/-- The loop over bitmaps that carry their well-formedness is this one. -/
theorem ebitmapFill_eq (val : Nat → Bool) (length : Nat) :
    ebitmapFill val length = (Bitmap.fill val length).map Subtype.val := by
  have hset : ∀ (e : Bitmap) (i : Nat) (v : Bool), ebitmapSetBit e.1 i v = (e.setBit i v).map Subtype.val := by
    intro e i v
    unfold Bitmap.setBit
    split
    · exact ‹_›
    · exact ‹_›
  suffices hall : ∀ (l : List Nat) (e : Bitmap), l.foldlM (fun dst i => ebitmapSetBit dst i (val i)) e.1 =
      (l.foldlM (fun (dst : Bitmap) i => dst.setBit i (val i)) e).map Subtype.val from hall _ Bitmap.empty
  intro l
  induction l with
  | nil => exact fun e => rfl
  | cons i l ih =>
    intro e
    rw [foldlM_cons, foldlM_cons, hset]
    cases e.setBit i (val i) with
    | none => rfl
    | some e' => exact ih e'

theorem ebitmapFill_denotes (val : Nat → Bool) {length : Nat} (hlength : ∀ i < length, i - i % mapsize + mapsize < 2 ^ 32) :
    ∃ r, ebitmapFill val length = some r ∧ r.Denotes { i | i < length ∧ val i = true } := by
  obtain ⟨r, hr, hbits⟩ := Bitmap.fill_spec val hlength
  refine ⟨r.1, by rw [ebitmapFill_eq, hr]; rfl, r.2.denotes ?_⟩
  intro i
  have hi := hbits i
  unfold Bitmap.has at hi
  rw [hi, and_eq_true, decide_eq_true_iff]
  rfl

theorem ebitmapXor_denotes (h1 : e1.WF) (h2 : e2.WF) :
    ∃ r, ebitmapXor e1 e2 = some r ∧ r.Denotes (symmDiff e1.toSet e2.toSet) := by
  have hlength : ∀ i < max (ebitmapLength e1) (ebitmapLength e2), i - i % mapsize + mapsize < 2 ^ 32 := by
    intro i hi
    rcases Nat.lt_or_ge i (ebitmapLength e1) with h | h
    · exact h1.lt_highbit h
    · exact h2.lt_highbit (show i < ebitmapLength e2 by omega)
  obtain ⟨r, hr, hwf, hbits⟩ := ebitmapFill_denotes (fun i => ebitmapGetBit e1 i ^^ ebitmapGetBit e2 i) hlength
  refine ⟨r, hr, hwf, ?_⟩
  rw [hbits]
  ext i
  rw [Set.mem_symmDiff, ← h1.mem_toSet, ← h2.mem_toSet]
  show i < max e1.highbit e2.highbit ∧ (ebitmapGetBit e1 i ^^ ebitmapGetBit e2 i) = true ↔ _
  -- a bit of either lies below its length
  have hin1 : ebitmapGetBit e1 i = true → i < e1.highbit := fun h => (h1.getBit_lt h).1
  have hin2 : ebitmapGetBit e2 i = true → i < e2.highbit := fun h => (h2.getBit_lt h).1
  cases hb1 : ebitmapGetBit e1 i <;> cases hb2 : ebitmapGetBit e2 i <;> simp_all

theorem ebitmapNot_denotes (h : e.WF) {maxbit : Nat} (hmax : maxbit ≤ 2 ^ 32 - 64) :
    ∃ r, ebitmapNot e maxbit = some r ∧ r.Denotes (Set.Iio maxbit \ e.toSet) := by
  have hlength : ∀ i < maxbit, i - i % mapsize + mapsize < 2 ^ 32 := by
    simp only [mapsize]
    omega
  obtain ⟨r, hr, hwf, hbits⟩ := ebitmapFill_denotes (fun i => !ebitmapGetBit e i) hlength
  refine ⟨r, hr, hwf, ?_⟩
  rw [hbits]
  ext i
  rw [Set.mem_sdiff, Set.mem_Iio, ← h.mem_toSet, not_eq_true]
  show i < maxbit ∧ (!ebitmapGetBit e i) = true ↔ _
  rw [not_eq_true']

theorem ebitmapAndnot_denotes (h1 : e1.WF) (h2 : e2.WF) {maxbit : Nat} (hmax : maxbit ≤ 2 ^ 32 - 64) :
    ∃ r, ebitmapAndnot e1 e2 maxbit = some r ∧ r.Denotes ((e1.toSet \ e2.toSet) ∩ Set.Iio maxbit) := by
  obtain ⟨e3, he3, hwf3, hbits3⟩ := ebitmapNot_denotes h2 hmax
  obtain ⟨r, hr, hwf, hbits⟩ := ebitmapAnd_denotes h1 hwf3
  refine ⟨r, ?_, hwf, ?_⟩
  · unfold ebitmapAndnot
    rw [he3]
    exact hr
  · rw [hbits, hbits3]
    ext i
    exact ⟨fun ⟨hi1, hlt, hi2⟩ => ⟨⟨hi1, hi2⟩, hlt⟩, fun ⟨⟨hi1, hi2⟩, hlt⟩ => ⟨hi1, hlt, hi2⟩⟩

theorem ebitmapCpy_eq (e : Ebitmap) : ebitmapCpy e = e := by
  simp [ebitmapCpy]

/-- The operations on well-formed bitmaps are those on the sets they denote. -/
theorem ebitmap_setOperations {e1 e2 : Ebitmap} (h1 : e1.WF) (h2 : e2.WF) {bit : Nat} (hbit : bit < 2 ^ 32 - 64)
    {maxbit : Nat} (hmax : maxbit ≤ 2 ^ 32 - 64) :
    (∀ i, ebitmapGetBit e1 i = true ↔ i ∈ e1.toSet) ∧
      (∃ r, ebitmapSetBit e1 bit true = some r ∧ r.Denotes (insert bit e1.toSet)) ∧
      (∃ r, ebitmapSetBit e1 bit false = some r ∧ r.Denotes (e1.toSet \ {bit})) ∧
      (ebitmapOr e1 e2).Denotes (e1.toSet ∪ e2.toSet) ∧
      (ebitmapUnion e1 e2).Denotes (e1.toSet ∪ e2.toSet) ∧
      (∃ r, ebitmapAnd e1 e2 = some r ∧ r.Denotes (e1.toSet ∩ e2.toSet)) ∧
      (∃ r, ebitmapXor e1 e2 = some r ∧ r.Denotes (symmDiff e1.toSet e2.toSet)) ∧
      (∃ r, ebitmapNot e1 maxbit = some r ∧ r.Denotes (Set.Iio maxbit \ e1.toSet)) ∧
      (∃ r, ebitmapAndnot e1 e2 maxbit = some r ∧ r.Denotes ((e1.toSet \ e2.toSet) ∩ Set.Iio maxbit)) ∧
      ((ebitmapCpy e1).Denotes e1.toSet ∧ ebitmapCpy e1 = e1) := by
  refine ⟨fun i => h1.mem_toSet, ebitmapSetBit_denotes h1 hbit true, ebitmapSetBit_denotes h1 hbit false,
    ebitmapOr_denotes h1 h2,
    ebitmapUnion_denotes h1 h2, ebitmapAnd_denotes h1 h2, ebitmapXor_denotes h1 h2, ebitmapNot_denotes h1 hmax,
    ebitmapAndnot_denotes h1 h2 hmax, ?_, ebitmapCpy_eq e1⟩
  rw [ebitmapCpy_eq]
  exact ⟨h1, rfl⟩

/-- Two maps apart against the empty bitmap, up to the largest bit there can be. -/
theorem ebitmap_setOperations_gap :
    (⟨[⟨0, 1#64⟩, ⟨128, 2#64⟩], 192⟩ : Ebitmap).WF ∧
      ∃ r, ebitmapAndnot ⟨[⟨0, 1#64⟩, ⟨128, 2#64⟩], 192⟩ {} (2 ^ 32 - 64) = some r ∧ r.WF := by
  have hwf : (⟨[⟨0, 1#64⟩, ⟨128, 2#64⟩], 192⟩ : Ebitmap).WF := ⟨⟨by decide, by decide, by decide, by decide⟩, by decide⟩
  obtain ⟨-, -, -, -, -, -, -, -, ⟨r, hr, hdenotes⟩, -⟩ :=
    ebitmap_setOperations hwf Ebitmap.WF.empty (show 2 ^ 32 - 65 < 2 ^ 32 - 64 by decide) (Nat.le_refl (2 ^ 32 - 64))
  exact ⟨hwf, r, hr, hdenotes.wf⟩

/-! ## Relations -/

/-- The end of a well-formed list is that of a map with a bit in it, or 0. -/
theorem NodesWF.nodesEnd_dvd {l : List EbitmapNode} (h : NodesWF l) : mapsize ∣ nodesEnd l := by
  unfold nodesEnd
  cases hlast : l.getLast? with
  | none => exact Nat.dvd_zero _
  | some n => exact Nat.dvd_add (h.aligned n (mem_of_getLast? hlast)) (Nat.dvd_refl _)

/-- A bitmap goes to the end of its last map. -/
theorem Bitmap.lt_length_iff (e : Bitmap) {i : Nat} : i < ebitmapLength e.1 ↔ ∃ j, i - i % mapsize ≤ j ∧ e.has j = true := by
  obtain ⟨q, hq⟩ := e.2.nodesEnd_dvd
  constructor
  · intro hi
    rw [ebitmapLength, e.2.high, nodesEnd] at hi
    cases hlast : e.1.node.getLast? with
    | none =>
      rw [hlast] at hi
      exact absurd hi (Nat.not_lt_zero i)
    | some n =>
      have hn := mem_of_getLast? hlast
      obtain ⟨k, hk⟩ := (Lib.Bits.ne_zero_iff _).mp (e.2.nonempty n hn)
      obtain ⟨q, hq⟩ := e.2.aligned n hn
      have hlt : k < 64 := lt_of_getLsbD hk
      rw [hlast] at hi
      refine ⟨n.startbit + k, ?_, (getBit_iff e.2 _).mpr ⟨n, hn, Nat.le_add_right _ _, by simp only [mapsize]; omega, ?_⟩⟩
      · simp only [mapsize, Option.map_some, Option.getD_some] at *
        omega
      · rw [Nat.add_sub_cancel_left]
        exact hk
  · intro h
    obtain ⟨j, hj, hhas⟩ := h
    have hlt := lt_length hhas
    rw [ebitmapLength, e.2.high] at *
    simp only [mapsize] at *
    omega

/-- The last map has a bit, so a list that ends later has a bit the other cannot have. -/
theorem NodesWF.nodesEnd_le (h1 : NodesWF l1) (h2 : NodesWF l2) (h : ∀ i, Holds l2 i → Holds l1 i) :
    nodesEnd l2 ≤ nodesEnd l1 := by
  obtain ⟨q, hq⟩ := h1.nodesEnd_dvd
  cases hlast : l2.getLast? with
  | none =>
    rw [nodesEnd, hlast]
    exact Nat.zero_le _
  | some n =>
    have hn := mem_of_getLast? hlast
    have hend : nodesEnd l2 = n.startbit + mapsize := by rw [nodesEnd, hlast]; rfl
    obtain ⟨k, hk⟩ := (Lib.Bits.ne_zero_iff n.map).mp (h2.nonempty n hn)
    have hlt : k < 64 := lt_of_getLsbD hk
    have hin : Holds l2 (n.startbit + k) :=
      ⟨n, hn, by omega, by simp only [mapsize]; omega, by rwa [Nat.add_sub_cancel_left]⟩
    have hbefore := h1.apart.lt_nodesEnd (h _ hin)
    obtain ⟨x, hx⟩ := h2.aligned n hn
    simp only [mapsize] at *
    omega

/-- Inclusion of two maps is inclusion of their bits. -/
theorem and_eq_right_iff (a b : BitVec 64) : a &&& b = b ↔ ∀ k, b.getLsbD k = true → a.getLsbD k = true := by
  constructor
  · intro h k hk
    rw [← h, getLsbD_and, and_eq_true] at hk
    exact hk.1
  · intro h
    apply eq_of_getLsbD_eq
    intro k _
    rw [getLsbD_and, and_eq_right_iff_imp]
    exact h k

/-- With equal starts the first maps are compared, and the rest of the lists apart from them. -/
theorem holds_imp_cons {n1 n2 : EbitmapNode} (h1 : Apart (n1 :: l1)) (h2 : Apart (n2 :: l2))
    (heq : n1.startbit = n2.startbit) :
    (∀ i, Holds (n2 :: l2) i → Holds (n1 :: l1) i) ↔
      n1.map &&& n2.map = n2.map ∧ ∀ i, Holds l2 i → Holds l1 i := by
  rw [and_eq_right_iff]
  constructor
  · intro h
    refine ⟨?_, ?_⟩
    · intro k hk
      have hlt : k < 64 := lt_of_getLsbD hk
      have hin : Holds (n2 :: l2) (n2.startbit + k) :=
        holds_cons.mpr (Or.inl ⟨by omega, by simp only [mapsize]; omega, by rwa [Nat.add_sub_cancel_left]⟩)
      rcases holds_cons.mp (h _ hin) with hn | hl
      · have hbit := hn.2.2
        rwa [heq, Nat.add_sub_cancel_left] at hbit
      · have hpast := h1.past hl
        simp only [mapsize] at hpast
        omega
    · intro i hi
      have hpast := h2.past hi
      rcases holds_cons.mp (h i (holds_cons.mpr (Or.inr hi))) with hn | hl
      · omega
      · exact hl
  · rintro ⟨hmap, hrest⟩ i hi
    rcases holds_cons.mp hi with hn | hl
    · exact holds_cons.mpr (Or.inl ⟨by omega, by omega, by rw [heq]; exact hmap _ hn.2.2⟩)
    · exact holds_cons.mpr (Or.inr (hrest i hl))

/-- The walk of `ebitmap_contains`: a map of the first list that starts earlier is passed over,
    and one that starts later shows a bit of the second list that is missing. -/
theorem containsFrom_iff (fuel : Nat) :
    ∀ (l1 l2 : List EbitmapNode), l1.length + l2.length ≤ fuel → NodesWF l1 → NodesWF l2 →
    (containsFrom fuel l1 l2 = true ↔ ∀ i, Holds l2 i → Holds l1 i) := by
  have hnone : ∀ i, ¬ Holds [] i := fun i => by simp [Holds]
  induction fuel with
  | zero =>
    intro l1 l2 hf _ _
    obtain rfl : l2 = [] := eq_nil_of_length_eq_zero (by omega)
    exact iff_of_true (by simp [containsFrom]) fun i hi => absurd hi (hnone i)
  | succ fuel ih =>
    intro l1 l2 hf h1 h2
    rcases l2 with _ | ⟨n2, l2⟩
    · exact iff_of_true (by simp [containsFrom]) fun i hi => absurd hi (hnone i)
    obtain ⟨i2, hi2, hstart2, -⟩ := h2.head_startbit
    rcases l1 with _ | ⟨n1, l1⟩
    · exact iff_of_false (by simp [containsFrom]) fun h => hnone i2 (h i2 hi2)
    simp only [length_cons] at hf
    have hd1 := h1.aligned n1 mem_cons_self
    have hd2 := h2.aligned n2 mem_cons_self
    rw [containsFrom]
    by_cases hle : n1.startbit ≤ n2.startbit
    · rw [if_pos hle]
      by_cases hlt : n1.startbit < n2.startbit
      · rw [if_pos hlt, ih l1 (n2 :: l2) (by simp only [length_cons]; omega) h1.tail h2]
        exact forall_congr' fun i => imp_congr_right fun hi => holds_tail_of_later hd1 hd2 hlt h2.apart hi
      · rw [if_neg hlt, holds_imp_cons h1.apart h2.apart (by omega)]
        by_cases hmap : n1.map &&& n2.map = n2.map
        · rw [if_neg (Decidable.not_not.mpr hmap), ih l1 l2 (by omega) h1.tail h2.tail, and_iff_right hmap]
        · rw [if_pos hmap]
          exact iff_of_false false_ne_true fun h => hmap h.1
    · rw [if_neg hle]
      refine iff_of_false false_ne_true ?_
      intro h
      -- the first bit of the second list lies before the first map of the first
      have hge := h1.apart.head_le (h i2 hi2)
      simp only [mapsize] at *
      omega

theorem ebitmapContains_iff (h1 : e1.WF) (h2 : e2.WF) : ebitmapContains e1 e2 = true ↔ e2.toSet ⊆ e1.toSet := by
  have hwalk := containsFrom_iff _ e1.node e2.node (Nat.le_refl _) h1.toNodesWF h2.toNodesWF
  unfold ebitmapContains
  by_cases hhigh : e1.highbit < e2.highbit
  · rw [if_pos hhigh]
    refine iff_of_false false_ne_true ?_
    intro hsub
    have hle := h1.toNodesWF.nodesEnd_le h2.toNodesWF hsub
    rw [h1.high, h2.high] at hhigh
    omega
  · rw [if_neg hhigh, hwalk]
    rfl

theorem ebitmapCmp_iff (h1 : e1.WF) (h2 : e2.WF) : ebitmapCmp e1 e2 = true ↔ e1.toSet = e2.toSet := by
  rw [ebitmapCmp, and_eq_true, beq_iff_eq, beq_iff_eq]
  constructor
  · rintro ⟨-, hnode⟩
    rw [Ebitmap.toSet, Ebitmap.toSet, hnode]
  · intro h
    rw [h1.eq_of_toSet h2 h]
    exact ⟨rfl, rfl⟩

theorem ebitmapMatchAny_inter (h1 : e1.WF) (h2 : e2.WF) : ebitmapMatchAny e1 e2 = true ↔ (e1.toSet ∩ e2.toSet).Nonempty := by
  rw [ebitmapMatchAny_iff h1 h2]
  simp only [h1.mem_toSet, h2.mem_toSet]
  rfl

/-! ## Levels -/

/-- Dominance compares sensitivities and categories each on their own. -/
theorem mlsLevelDom_iff {l1 l2 : MlsLevel} :
    mlsLevelDom l1 l2 = true ↔ l2.sens ≤ l1.sens ∧ l2.cat.1.toSet ⊆ l1.cat.1.toSet := by
  rw [mlsLevelDom, and_eq_true, decide_eq_true_iff, ebitmapContains_iff l1.cat.2 l2.cat.2]

theorem mlsLevelDom_refl (l : MlsLevel) : mlsLevelDom l l = true := mlsLevelDom_iff.mpr ⟨Nat.le_refl _, Set.Subset.rfl⟩

theorem mlsLevelDom_trans {l1 l2 l3 : MlsLevel} (h12 : mlsLevelDom l1 l2 = true) (h23 : mlsLevelDom l2 l3 = true) :
    mlsLevelDom l1 l3 = true := by
  obtain ⟨hs12, hc12⟩ := mlsLevelDom_iff.mp h12
  obtain ⟨hs23, hc23⟩ := mlsLevelDom_iff.mp h23
  exact mlsLevelDom_iff.mpr ⟨Nat.le_trans hs23 hs12, hc23.trans hc12⟩

theorem mlsLevelDom_antisymm {l1 l2 : MlsLevel} (h12 : mlsLevelDom l1 l2 = true) (h21 : mlsLevelDom l2 l1 = true) :
    mlsLevelEq l1 l2 = true := by
  obtain ⟨hs12, hc12⟩ := mlsLevelDom_iff.mp h12
  obtain ⟨hs21, hc21⟩ := mlsLevelDom_iff.mp h21
  rw [mlsLevelEq, and_eq_true, beq_iff_eq, ebitmapCmp_iff l1.cat.2 l2.cat.2]
  exact ⟨Nat.le_antisymm hs21 hs12, Set.Subset.antisymm hc21 hc12⟩

theorem mlsRangeContains_trans {r1 r2 r3 : MlsRange} (h12 : mlsRangeContains r1 r2 = true)
    (h23 : mlsRangeContains r2 r3 = true) : mlsRangeContains r1 r3 = true := by
  rw [mlsRangeContains, and_eq_true] at *
  exact ⟨mlsLevelDom_trans h23.1 h12.1, mlsLevelDom_trans h12.2 h23.2⟩

/-- The tests decide the relations of the sets, which makes dominance a partial order. -/
theorem ebitmap_setRelations {e1 e2 : Ebitmap} (h1 : e1.WF) (h2 : e2.WF) :
    (ebitmapCmp e1 e2 = true ↔ e1.toSet = e2.toSet) ∧
      (ebitmapContains e1 e2 = true ↔ e2.toSet ⊆ e1.toSet) ∧
      (ebitmapMatchAny e1 e2 = true ↔ (e1.toSet ∩ e2.toSet).Nonempty) ∧
      (∀ l : MlsLevel, mlsLevelDom l l = true) ∧
      (∀ l1 l2 : MlsLevel, mlsLevelDom l1 l2 = true → mlsLevelDom l2 l1 = true → mlsLevelEq l1 l2 = true) ∧
      (∀ l1 l2 l3 : MlsLevel, mlsLevelDom l1 l2 = true → mlsLevelDom l2 l3 = true → mlsLevelDom l1 l3 = true) ∧
      (∀ r1 r2 r3 : MlsRange, mlsRangeContains r1 r2 = true → mlsRangeContains r2 r3 = true →
        mlsRangeContains r1 r3 = true) :=
  ⟨ebitmapCmp_iff h1 h2, ebitmapContains_iff h1 h2, ebitmapMatchAny_inter h1 h2, mlsLevelDom_refl,
    fun _ _ => mlsLevelDom_antisymm, fun _ _ _ => mlsLevelDom_trans, fun _ _ _ => mlsRangeContains_trans⟩

/-- A bitmap with a gap contains its last map, and not the other way round. -/
theorem ebitmap_setRelations_gap :
    (⟨[⟨128, 2#64⟩], 192⟩ : Ebitmap).toSet ⊆ (⟨[⟨0, 1#64⟩, ⟨128, 2#64⟩], 192⟩ : Ebitmap).toSet ∧
      ¬ (⟨[⟨0, 1#64⟩, ⟨128, 2#64⟩], 192⟩ : Ebitmap).toSet ⊆ (⟨[⟨128, 2#64⟩], 192⟩ : Ebitmap).toSet := by
  have hwf1 : (⟨[⟨0, 1#64⟩, ⟨128, 2#64⟩], 192⟩ : Ebitmap).WF := ⟨⟨by decide, by decide, by decide, by decide⟩, by decide⟩
  have hwf2 : (⟨[⟨128, 2#64⟩], 192⟩ : Ebitmap).WF := ⟨⟨by decide, by decide, by decide, by decide⟩, by decide⟩
  obtain ⟨-, hsub, -⟩ := ebitmap_setRelations hwf1 hwf2
  obtain ⟨-, hsuper, -⟩ := ebitmap_setRelations hwf2 hwf1
  exact ⟨hsub.mp (by decide), fun h => absurd (hsuper.mpr h) (by decide)⟩

end SELinux.Db
