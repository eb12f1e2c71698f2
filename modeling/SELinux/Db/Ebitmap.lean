/-
  SELinux.Db.Ebitmap — the extensible bitmap (`libsepol/src/ebitmap.c`).

  A bitmap is a list of 64-bit maps, each at a start bit, and the position just past
  the last map. The node list is walked, never indexed, so every operation is a loop
  over it. Start bits and bit numbers are `uint32_t` in the code; here they are `Nat`
  and `Ebitmap.WF` keeps the end of every map below 2^32, where `ebitmap_set_bit`
  refuses to go further (`ebitmapSetBit`, `none` for -EINVAL). Allocation succeeds.

  Proved, for well-formed bitmaps:
  - `getBit_iff`: a bit is set when some node's map has it.
  - `mem_ebitmapBits`: `ebitmap_for_each_bit` meets exactly the set bits.
  - `ebitmapMatchAny_iff`: `ebitmap_match_any` finds a common bit whenever there is one.
  - `ebitmapSetBit_spec`, `ebitmapOr_spec`, `ebitmapAnd_spec`: setting a bit changes that bit,
    `ebitmap_or` is the union and `ebitmap_and` the intersection; all stay well-formed.
-/
import SELinux.Lib.Bits

namespace SELinux.Db

open List

def mapsize : Nat := 64

@[grind =] theorem mapsize_eq : mapsize = 64 := rfl

structure EbitmapNode where
  startbit : Nat
  map : BitVec 64
  deriving DecidableEq, Repr

structure Ebitmap where
  node : List EbitmapNode := []
  highbit : Nat := 0
  deriving DecidableEq, Repr

variable {n : EbitmapNode} {i : Nat} {e : Ebitmap} {bit : Nat} {l l1 l2 : List EbitmapNode} {e1 e2 : Ebitmap}

/-- The end of the last map, 0 without nodes. -/
def nodesEnd (l : List EbitmapNode) : Nat := ((l.getLast?).map (·.startbit + mapsize)).getD 0

/-- Start bits are multiples of the map size, strictly increasing, and 32 bits wide
    with their map; no map is empty. -/
structure NodesWF (l : List EbitmapNode) : Prop where
  aligned : ∀ n ∈ l, mapsize ∣ n.startbit
  sorted : l.Pairwise fun a b => a.startbit < b.startbit
  nonempty : ∀ n ∈ l, n.map ≠ 0#64
  narrow : ∀ n ∈ l, n.startbit + mapsize < 2 ^ 32

/-- What `ebitmap_set_bit` builds. -/
structure Ebitmap.WF (e : Ebitmap) : Prop extends NodesWF e.node where
  high : e.highbit = nodesEnd e.node

/-! ## Reading bits -/

/-- `n->map & (MAPBIT << (bit - n->startbit))` -/
def ebitmapNodeGetBit (n : EbitmapNode) (bit : Nat) : Bool := n.map.getLsbD (bit - n.startbit)

def getBitFrom (bit : Nat) : List EbitmapNode → Bool
  | [] => false
  | n :: l =>
    if n.startbit ≤ bit then
      if bit < n.startbit + mapsize then ebitmapNodeGetBit n bit else getBitFrom bit l
    else false

def ebitmapGetBit (e : Ebitmap) (bit : Nat) : Bool :=
  if e.highbit < bit then false else getBitFrom bit e.node

def ebitmapLength (e : Ebitmap) : Nat := e.highbit

def ebitmapStartbit (e : Ebitmap) : Nat := (e.node.head?.map (·.startbit)).getD 0

/-- The node and the bit `ebitmap_next` moves to. -/
def ebitmapNext (l : List EbitmapNode) (bit : Nat) : List EbitmapNode × Nat :=
  match l with
  | n :: m :: r => if bit = n.startbit + mapsize - 1 then (m :: r, m.startbit) else (n :: m :: r, bit + 1)
  | l => (l, bit + 1)

/-- `ebitmap_for_each_bit` with the `ebitmap_node_get_bit` test every user of it makes.
    The bit grows in every round, so `high` rounds are enough. Of a bitmap that ends with its last
    map, as those built here do; `ebitmapWalk` is for any bitmap of a file. -/
def forEachBitFrom (high : Nat) : Nat → List EbitmapNode → Nat → List Nat
  | 0, _, _ => []
  | fuel + 1, l, bit =>
    if bit < high then
      let rest := forEachBitFrom high fuel (ebitmapNext l bit).1 (ebitmapNext l bit).2
      match l with
      | n :: _ => if ebitmapNodeGetBit n bit then bit :: rest else rest
      | [] => rest
    else []

def ebitmapBits (e : Ebitmap) : List Nat := forEachBitFrom e.highbit e.highbit e.node (ebitmapStartbit e)

/-- The two node lists walked side by side; `fuel` is at least their joint length. -/
def matchAnyFrom : Nat → List EbitmapNode → List EbitmapNode → Bool
  | fuel + 1, n1 :: l1, n2 :: l2 =>
    if n1.startbit < n2.startbit then matchAnyFrom fuel l1 (n2 :: l2)
    else if n2.startbit < n1.startbit then matchAnyFrom fuel (n1 :: l1) l2
    else if n1.map &&& n2.map ≠ 0#64 then true
    else matchAnyFrom fuel l1 l2
  | _, _, _ => false

def ebitmapMatchAny (e1 e2 : Ebitmap) : Bool := matchAnyFrom (e1.node.length + e2.node.length) e1.node e2.node

def containsFrom : Nat → List EbitmapNode → List EbitmapNode → Bool
  | _, _, [] => true
  | fuel + 1, n1 :: l1, n2 :: l2 =>
    if n1.startbit ≤ n2.startbit then
      if n1.startbit < n2.startbit then containsFrom fuel l1 (n2 :: l2)
      else if n1.map &&& n2.map ≠ n2.map then false
      else containsFrom fuel l1 l2
    else false
  | _, _, _ => false

/-- `ebitmap_contains`: every bit of `e2` is in `e1`. -/
def ebitmapContains (e1 e2 : Ebitmap) : Bool :=
  if e1.highbit < e2.highbit then false
  else containsFrom (e1.node.length + e2.node.length) e1.node e2.node

/-- `ebitmap_cmp` walks both lists while the nodes agree and succeeds when both end. -/
def ebitmapCmp (e1 e2 : Ebitmap) : Bool := e1.highbit == e2.highbit && e1.node == e2.node

/-! ## Setting bits -/

def mapbit (bit : Nat) : BitVec 64 := 1#64 <<< (bit % mapsize)

/-- The node list after `ebitmap_set_bit`, and the new `highbit` when it changes. -/
def setBitFrom (bit : Nat) (value : Bool) (prev : Option EbitmapNode) :
    List EbitmapNode → List EbitmapNode × Option Nat
  | [] => if value then ([⟨bit - bit % mapsize, mapbit bit⟩], some (bit - bit % mapsize + mapsize)) else ([], none)
  | n :: l =>
    if n.startbit ≤ bit then
      if bit < n.startbit + mapsize then
        if value then ({ n with map := n.map ||| 1#64 <<< (bit - n.startbit) } :: l, none)
        else
          let m := n.map &&& ~~~(1#64 <<< (bit - n.startbit))
          if m = 0#64 then (l, if l.isEmpty then some ((prev.map (·.startbit + mapsize)).getD 0) else none)
          else ({ n with map := m } :: l, none)
      else
        let r := setBitFrom bit value (some n) l
        (n :: r.1, r.2)
    else if value then (⟨bit - bit % mapsize, mapbit bit⟩ :: n :: l, none)
    else (n :: l, none)

/-- `ebitmap_set_bit`; `none` is -EINVAL. Of a `uint32_t` bit only the last map ends past
    `uint32_t`: there `startbit + MAPSIZE` is 0 in C. -/
def ebitmapSetBit (e : Ebitmap) (bit : Nat) (value : Bool) : Option Ebitmap :=
  if 2 ^ 32 ≤ bit - bit % mapsize + mapsize then none
  else
    let r := setBitFrom bit value none e.node
    some { node := r.1, highbit := r.2.getD e.highbit }

/-- The two node lists merged; `fuel` is at least their joint length. -/
def orFrom : Nat → List EbitmapNode → List EbitmapNode → List EbitmapNode
  | _, [], l2 => l2
  | _, l1, [] => l1
  | 0, _, _ => []
  | fuel + 1, n1 :: l1, n2 :: l2 =>
    if n1.startbit = n2.startbit then ⟨n1.startbit, n1.map ||| n2.map⟩ :: orFrom fuel l1 l2
    else if n1.startbit < n2.startbit then n1 :: orFrom fuel l1 (n2 :: l2)
    else n2 :: orFrom fuel (n1 :: l1) l2

/-- `ebitmap_or`, and `ebitmap_union` into its first argument. -/
def ebitmapOr (e1 e2 : Ebitmap) : Ebitmap :=
  { node := orFrom (e1.node.length + e2.node.length) e1.node e2.node, highbit := max e1.highbit e2.highbit }

/-- `ebitmap_and`: bit by bit up to the shorter length. -/
def ebitmapAnd (e1 e2 : Ebitmap) : Option Ebitmap :=
  (List.range (min (ebitmapLength e1) (ebitmapLength e2))).foldlM
    (fun dst i => if ebitmapGetBit e1 i && ebitmapGetBit e2 i then ebitmapSetBit dst i true else some dst) {}

/-! ## What the loops compute -/

/-- Bit `i` is in one of the maps. -/
def Holds (l : List EbitmapNode) (i : Nat) : Prop :=
  ∃ n ∈ l, n.startbit ≤ i ∧ i < n.startbit + mapsize ∧ n.map.getLsbD (i - n.startbit) = true

/-- The maps lie one after the other. -/
def Apart (l : List EbitmapNode) : Prop := l.Pairwise fun a b => a.startbit + mapsize ≤ b.startbit

@[grind →] theorem NodesWF.tail (h : NodesWF (n :: l)) : NodesWF l where
  aligned m hm := h.aligned m (mem_cons_of_mem _ hm)
  sorted := (pairwise_cons.mp h.sorted).2
  nonempty m hm := h.nonempty m (mem_cons_of_mem _ hm)
  narrow m hm := h.narrow m (mem_cons_of_mem _ hm)

@[grind →] theorem NodesWF.apart (h : NodesWF l) : Apart l := by
  refine h.sorted.imp_of_mem fun {a b} ha hb hab => ?_
  obtain ⟨x, hx⟩ := h.aligned a ha
  obtain ⟨y, hy⟩ := h.aligned b hb
  simp only [mapsize] at *
  omega

@[grind .] theorem not_holds_nil (i : Nat) : ¬ Holds [] i := by simp [Holds]

@[grind =] theorem holds_cons :
    Holds (n :: l) i ↔
      (n.startbit ≤ i ∧ i < n.startbit + mapsize ∧ n.map.getLsbD (i - n.startbit) = true) ∨ Holds l i := by
  simp [Holds]

/-- Every bit of the later maps lies past the first map. -/
@[grind →] theorem Apart.past (h : Apart (n :: l)) (hi : Holds l i) : n.startbit + mapsize ≤ i := by
  obtain ⟨m, hm, hmi, -⟩ := hi
  have := (pairwise_cons.mp h).1 m hm
  omega

@[grind →] theorem Apart.tail (h : Apart (n :: l)) : Apart l :=
  (pairwise_cons.mp h).2

@[grind →] theorem Apart.head_le (h : Apart (n :: l)) (hi : Holds (n :: l) i) : n.startbit ≤ i := by
  rcases holds_cons.mp hi with hi | hi
  · exact hi.1
  · have := h.past hi
    omega

theorem Apart.holds_head (h : Apart (n :: l)) {k : Nat} (hk : k < mapsize) :
    Holds (n :: l) (n.startbit + k) ↔ n.map.getLsbD k = true := by
  grind

/-- A bit of a list that starts at a later map is not in the first map of another. -/
theorem holds_tail_of_later {n1 n2 : EbitmapNode} (ha1 : mapsize ∣ n1.startbit) (ha2 : mapsize ∣ n2.startbit)
    (hlt : n1.startbit < n2.startbit) (h2 : Apart (n2 :: l2)) (hi : Holds (n2 :: l2) i) :
    Holds l1 i ↔ Holds (n1 :: l1) i := by
  have hge := h2.head_le hi
  rw [holds_cons, or_iff_right]
  simp only [mapsize] at *
  omega

theorem getBitFrom_iff (h : Apart l) (i : Nat) : getBitFrom i l = true ↔ Holds l i := by
  fun_induction getBitFrom i l with
  | case1 => exact iff_of_false Bool.false_ne_true (not_holds_nil i)
  | case2 n l hle hlt =>
    rw [holds_cons, or_iff_left fun hl => by have := h.past hl; omega]
    exact ⟨fun hb => ⟨hle, hlt, hb⟩, fun hb => hb.2.2⟩
  | case3 n l _ hge ih =>
    rw [ih h.tail, holds_cons, or_iff_right fun hn => hge hn.2.1]
  | case4 n l hgt => exact iff_of_false Bool.false_ne_true fun hi => hgt (h.head_le hi)

theorem nodesEnd_cons_cons (n m : EbitmapNode) (l : List EbitmapNode) : nodesEnd (n :: m :: l) = nodesEnd (m :: l) := by
  simp [nodesEnd]

theorem Apart.head_le_nodesEnd (h : Apart (n :: l)) : n.startbit + mapsize ≤ nodesEnd (n :: l) := by
  induction l generalizing n with
  | nil => exact Nat.le_refl _
  | cons m l ih =>
    rw [nodesEnd_cons_cons]
    have hnm := (pairwise_cons.mp h).1 m mem_cons_self
    have := ih h.tail
    omega

theorem Apart.nodesEnd_cons (h : Apart (n :: l)) : nodesEnd (n :: l) = max (n.startbit + mapsize) (nodesEnd l) := by
  cases l with
  | nil => simp [nodesEnd]
  | cons m r =>
    have hle := h.head_le_nodesEnd
    rw [nodesEnd_cons_cons] at hle ⊢
    omega

theorem Apart.end_le_nodesEnd (h : Apart l) (hn : n ∈ l) : n.startbit + mapsize ≤ nodesEnd l := by
  induction l with
  | nil => cases hn
  | cons m l ih =>
    rw [h.nodesEnd_cons]
    grind

/-- All bits lie before the end of the last map. -/
@[grind →] theorem Apart.lt_nodesEnd (h : Apart l) (hi : Holds l i) : i < nodesEnd l := by
  induction l with
  | nil => exact absurd hi (not_holds_nil i)
  | cons n l ih =>
    rw [h.nodesEnd_cons]
    grind

theorem getBit_iff (h : e.WF) (i : Nat) : ebitmapGetBit e i = true ↔ Holds e.node i := by
  rw [ebitmapGetBit, ← getBitFrom_iff h.apart]
  split
  next hi =>
    refine iff_of_false Bool.false_ne_true ?_
    intro hb
    have := h.apart.lt_nodesEnd ((getBitFrom_iff h.apart i).mp hb)
    rw [h.high] at hi
    omega
  · exact Iff.rfl

/-- The iteration from a bit of the first map on meets the set bits from there on, to whatever
    end past the last map. By induction on the rounds left: a round that stays in the map moves
    one bit, a round at its last bit jumps to the next map, and no set bit lies in between. -/
theorem mem_forEachBitFrom {i high : Nat} (fuel : Nat) : ∀ (n : EbitmapNode) (l : List EbitmapNode) (bit : Nat),
    Apart (n :: l) → nodesEnd (n :: l) ≤ high → n.startbit ≤ bit → (l ≠ [] → bit < n.startbit + mapsize) →
    high ≤ bit + fuel →
    (i ∈ forEachBitFrom high fuel (n :: l) bit ↔ bit ≤ i ∧ Holds (n :: l) i) := by
  induction fuel with
  | zero =>
    grind [forEachBitFrom]
  | succ fuel ih =>
    intro n l bit h hend hlo hhi hf
    simp only [forEachBitFrom]
    by_cases hb : bit < high
    · rw [if_pos hb]
      cases l with
      | nil =>
        grind [ebitmapNext, ebitmapNodeGetBit]
      | cons m r =>
        have hbn := hhi (by simp)
        have hnm := (pairwise_cons.mp h).1 m mem_cons_self
        by_cases hjump : bit = n.startbit + mapsize - 1
        · have hrest := ih m r m.startbit h.tail (nodesEnd_cons_cons n m r ▸ hend) (Nat.le_refl _) (by grind) (by omega)
          grind [ebitmapNext, ebitmapNodeGetBit]
        · have hrest := ih n (m :: r) (bit + 1) h hend (by omega) (by grind) (by omega)
          grind [ebitmapNext, ebitmapNodeGetBit]
    · grind

/-- Nothing is missed of maps that lie before the end of the bitmap. -/
theorem mem_bits_of_end (ha : Apart e.node) (hend : nodesEnd e.node ≤ e.highbit) : i ∈ ebitmapBits e ↔ Holds e.node i := by
  rw [ebitmapBits, ebitmapStartbit]
  cases hn : e.node with
  | nil =>
    have hnil : ∀ fuel bit, forEachBitFrom e.highbit fuel [] bit = [] := by
      intro fuel
      induction fuel with
      | zero => exact fun _ => rfl
      | succ fuel ih => exact fun bit => by simp [forEachBitFrom, ebitmapNext, ih]
    simp [hnil, Holds]
  | cons n l =>
    rw [hn] at ha hend
    show i ∈ forEachBitFrom e.highbit e.highbit (n :: l) n.startbit ↔ _
    rw [mem_forEachBitFrom _ n l n.startbit ha hend (Nat.le_refl _) (fun _ => by simp [mapsize]) (by omega)]
    exact and_iff_right_of_imp ha.head_le

theorem mem_ebitmapBits (h : e.WF) : i ∈ ebitmapBits e ↔ ebitmapGetBit e i = true := by
  rw [getBit_iff h]
  exact mem_bits_of_end h.apart (Nat.le_of_eq h.high.symm)

theorem lt_ebitmapNext (h : Apart (n :: l)) (bit : Nat) :
    bit < (ebitmapNext (n :: l) bit).2 ∧ ∃ m r, (ebitmapNext (n :: l) bit).1 = m :: r ∧ Apart (m :: r) := by
  cases l with
  | nil => exact ⟨Nat.lt_succ_self _, n, [], rfl, h⟩
  | cons m r =>
    unfold ebitmapNext
    by_cases hb : bit = n.startbit + mapsize - 1
    · have hnm := (pairwise_cons.mp h).1 m mem_cons_self
      simp only [if_pos hb]
      refine ⟨?_, m, r, rfl, h.tail⟩
      simp only [mapsize] at *
      omega
    · simp only [if_neg hb]
      exact ⟨Nat.lt_succ_self _, n, m :: r, rfl, h⟩

/-- The iteration meets the bits in increasing order, from where it starts. -/
theorem forEachBitFrom_sorted (high fuel : Nat) : ∀ (n : EbitmapNode) (l : List EbitmapNode) (bit : Nat),
    Apart (n :: l) →
    (forEachBitFrom high fuel (n :: l) bit).Pairwise (· < ·) ∧ ∀ i ∈ forEachBitFrom high fuel (n :: l) bit, bit ≤ i := by
  induction fuel with
  | zero => intro n l bit _; simp [forEachBitFrom]
  | succ fuel ih =>
    intro n l bit h
    obtain ⟨hlt, m, r, hnext, hm⟩ := lt_ebitmapNext h bit
    simp only [forEachBitFrom, hnext]
    split
    · split <;> grind [pairwise_cons]
    · simp

theorem ebitmapBits_sorted (h : e.WF) : (ebitmapBits e).Pairwise (· < ·) := by
  unfold ebitmapBits
  cases hn : e.node with
  | nil => rw [h.high, hn]; exact List.Pairwise.nil
  | cons n l =>
    have ha := h.apart
    rw [hn] at ha
    exact (forEachBitFrom_sorted _ _ n l _ ha).1

theorem ebitmapBits_nodup (h : e.WF) : (ebitmapBits e).Nodup := (ebitmapBits_sorted h).imp Nat.ne_of_lt

/-- The joint walk finds a common bit of two lists whose maps are aligned: the map
    with the smaller start bit has nothing in common with the rest of the other list. -/
theorem matchAnyFrom_iff (fuel : Nat) (l1 l2 : List EbitmapNode) (hf : l1.length + l2.length ≤ fuel)
    (ha1 : ∀ n ∈ l1, mapsize ∣ n.startbit) (ha2 : ∀ n ∈ l2, mapsize ∣ n.startbit) (h1 : Apart l1) (h2 : Apart l2) :
    matchAnyFrom fuel l1 l2 = true ↔ ∃ i, Holds l1 i ∧ Holds l2 i := by
  fun_induction matchAnyFrom fuel l1 l2 with
  | case1 fuel n1 l1 n2 l2 hlt ih =>
    rw [ih (by grind) (by grind) ha2 h1.tail h2]
    exact exists_congr fun i => and_congr_left fun hi => holds_tail_of_later (by grind) (by grind) hlt h2 hi
  | case2 fuel n1 l1 n2 l2 _ hgt ih =>
    rw [ih (by grind) ha1 (by grind) h1 h2.tail]
    exact exists_congr fun i => and_congr_right fun hi => holds_tail_of_later (by grind) (by grind) hgt h1 hi
  | case3 fuel n1 l1 n2 l2 _ _ hm =>
    obtain ⟨k, hk1, hk2⟩ := (Lib.Bits.and_ne_zero_iff _ _).mp hm
    exact iff_of_true rfl ⟨n1.startbit + k, by grind, by grind⟩
  | case4 fuel n1 l1 n2 l2 _ _ hm ih =>
    have hnone : ∀ k, ¬ (n1.map.getLsbD k = true ∧ n2.map.getLsbD k = true) := fun k hk =>
      hm ((Lib.Bits.and_ne_zero_iff _ _).mpr ⟨k, hk⟩)
    rw [ih (by grind) (by grind) (by grind) h1.tail h2.tail]
    exact exists_congr fun i => by grind
  | case5 fuel l1 l2 hend =>
    have hnil : l1 = [] ∨ l2 = [] := by
      rcases fuel with _ | fuel <;> rcases l1 with _ | ⟨n1, l1⟩ <;> rcases l2 with _ | ⟨n2, l2⟩ <;> grind
    grind

theorem ebitmapMatchAny_iff (h1 : e1.WF) (h2 : e2.WF) :
    ebitmapMatchAny e1 e2 = true ↔ ∃ i, ebitmapGetBit e1 i = true ∧ ebitmapGetBit e2 i = true := by
  simp only [getBit_iff h1, getBit_iff h2]
  exact matchAnyFrom_iff _ _ _ (Nat.le_refl _) h1.aligned h2.aligned h1.apart h2.apart

theorem getLsbD_mapbit {s k : Nat} (hs : s < 64) : (1#64 <<< s).getLsbD k = decide (k = s) := by
  simp only [BitVec.getLsbD_shiftLeft, BitVec.getLsbD_one]
  grind

variable {value : Bool} {prev : Option EbitmapNode}

/-- A node of the result has the start of an old node or the bit's own. -/
theorem startbit_setBitFrom {m : EbitmapNode} (hm : m ∈ (setBitFrom bit value prev l).1) :
    (∃ n ∈ l, n.startbit = m.startbit) ∨ m.startbit = bit - bit % mapsize := by
  fun_induction setBitFrom bit value prev l with
  | case1 => exact Or.inr (by rw [mem_singleton.mp hm])
  | case2 => cases hm
  | case4 prev n l => exact Or.inl ⟨m, mem_cons_of_mem n hm, rfl⟩
  | case3 prev n l | case5 prev n l =>
    rcases mem_cons.mp hm with rfl | hm
    · exact Or.inl ⟨n, mem_cons_self, rfl⟩
    · exact Or.inl ⟨m, mem_cons_of_mem n hm, rfl⟩
  | case6 prev n l _ _ r ih =>
    rcases mem_cons.mp hm with rfl | hm
    · exact Or.inl ⟨m, mem_cons_self, rfl⟩
    · refine (ih hm).imp_left fun h => ?_
      obtain ⟨k, hk, he⟩ := h
      exact ⟨k, mem_cons_of_mem n hk, he⟩
  | case7 prev n l =>
    rcases mem_cons.mp hm with rfl | hm
    · exact Or.inr rfl
    · exact Or.inl ⟨m, hm, rfl⟩
  | case8 prev n l => exact Or.inl ⟨m, hm, rfl⟩

theorem getLsbD_clear (m : BitVec 64) {s : Nat} (hs : s < 64) (k : Nat) :
    (m &&& ~~~(1#64 <<< s)).getLsbD k = (m.getLsbD k && !decide (k = s)) := by
  rw [BitVec.getLsbD_and, BitVec.getLsbD_not, getLsbD_mapbit hs]
  by_cases hk : k < 64
  · simp [hk]
  · simp [BitVec.getLsbD_of_ge m k (by omega)]

theorem holds_new (bit : Nat) (r : List EbitmapNode) (i : Nat) :
    Holds (⟨bit - bit % mapsize, mapbit bit⟩ :: r) i ↔ i = bit ∨ Holds r i := by
  have hlt : bit % mapsize < 64 := Nat.mod_lt _ (by decide)
  rw [holds_cons]
  simp only [mapbit, getLsbD_mapbit hlt, decide_eq_true_eq]
  simp only [mapsize] at *
  exact or_congr_left ⟨fun hi => by omega, fun hi => by omega⟩

theorem holds_setBitFrom (h : NodesWF l) (i : Nat) :
    Holds (setBitFrom bit value prev l).1 i ↔ if i = bit then value = true else Holds l i := by
  fun_induction setBitFrom bit value prev l with
  | case3 prev n l hle hlt =>
    have hs : bit - n.startbit < 64 := by grind
    grind
  | case4 prev n l hle hlt _ m hzero =>
    -- the bit was the only one of its map
    have hbit : ∀ k, m.getLsbD k = _ := getLsbD_clear n.map (s := bit - n.startbit) (by grind)
    grind
  | case5 prev n l hle hlt _ m hne =>
    have hbit : ∀ k, m.getLsbD k = _ := getLsbD_clear n.map (s := bit - n.startbit) (by grind)
    grind
  | _ => grind [holds_new]

theorem NodesWF.head (h : NodesWF (n :: l)) :
    (∀ m ∈ l, n.startbit < m.startbit) ∧ mapsize ∣ n.startbit ∧ n.map ≠ 0#64 ∧ n.startbit + mapsize < 2 ^ 32 :=
  ⟨(pairwise_cons.mp h.sorted).1, h.aligned n mem_cons_self, h.nonempty n mem_cons_self, h.narrow n mem_cons_self⟩

theorem NodesWF.cons (ha : mapsize ∣ n.startbit) (hne : n.map ≠ 0#64) (hnar : n.startbit + mapsize < 2 ^ 32)
    (hs : ∀ m ∈ l, n.startbit < m.startbit) (h : NodesWF l) : NodesWF (n :: l) :=
  ⟨forall_mem_cons.mpr ⟨ha, h.aligned⟩, pairwise_cons.mpr ⟨hs, h.sorted⟩,
    forall_mem_cons.mpr ⟨hne, h.nonempty⟩, forall_mem_cons.mpr ⟨hnar, h.narrow⟩⟩

theorem setBitFrom_wf (hb : bit - bit % mapsize + mapsize < 2 ^ 32) (h : NodesWF l) :
    NodesWF (setBitFrom bit value prev l).1 := by
  have hlt : bit % mapsize < 64 := Nat.mod_lt _ (by decide)
  have hne : mapbit bit ≠ 0#64 :=
    (Lib.Bits.ne_zero_iff _).mpr ⟨bit % mapsize, by rw [mapbit, getLsbD_mapbit hlt]; simp⟩
  have hdvd : mapsize ∣ bit - bit % mapsize := Nat.dvd_sub_mod bit
  have hnil : NodesWF [] := ⟨by simp, by simp, by simp, by simp⟩
  fun_induction setBitFrom bit value prev l with
  | case1 => exact NodesWF.cons hdvd hne hb (by simp) hnil
  | case2 => exact hnil
  | case3 prev n l _ _ =>
    obtain ⟨hsort, halign, hnon, hnar⟩ := h.head
    have hm : n.map ||| 1#64 <<< (bit - n.startbit) ≠ 0#64 := fun h0 => hnon (BitVec.or_eq_zero_iff.mp h0).1
    exact NodesWF.cons halign hm hnar hsort h.tail
  | case4 => exact h.tail
  | case5 prev n l _ _ _ m hm =>
    obtain ⟨hsort, halign, -, hnar⟩ := h.head
    exact NodesWF.cons halign hm hnar hsort h.tail
  | case6 prev n l hle hge r ih =>
    obtain ⟨hsort, halign, hnon, hnar⟩ := h.head
    refine NodesWF.cons halign hnon hnar ?_ (ih h.tail)
    intro m hm
    have := startbit_setBitFrom hm
    grind
  | case7 prev n l hgt => exact NodesWF.cons hdvd hne hb (by grind [h.head]) h
  | case8 => exact h

/-- The end of a list that follows `prev`. -/
def endAfter (prev : Option EbitmapNode) (l : List EbitmapNode) : Nat :=
  if l = [] then (prev.map (·.startbit + mapsize)).getD 0 else nodesEnd l

theorem endAfter_cons (prev : Option EbitmapNode) (n : EbitmapNode) (l : List EbitmapNode) :
    endAfter prev (n :: l) = endAfter (some n) l := by
  cases l <;> simp [endAfter, nodesEnd]

theorem endAfter_setBitFrom :
    (setBitFrom bit value prev l).2.getD (endAfter prev l) = endAfter prev (setBitFrom bit value prev l).1 := by
  fun_induction setBitFrom bit value prev l with
  | case6 prev n l _ _ r ih => simpa only [endAfter_cons] using ih
  | _ => grind [endAfter, nodesEnd]

/-- Setting a bit that succeeds changes that bit and keeps the bitmap well-formed. -/
theorem ebitmapSetBit_spec {e e' : Ebitmap} (h : e.WF) (hs : ebitmapSetBit e bit value = some e') :
    e'.WF ∧ ∀ i, ebitmapGetBit e' i = if i = bit then value else ebitmapGetBit e i := by
  unfold ebitmapSetBit at hs
  split at hs
  · cases hs
  cases hs
  have hend := @endAfter_setBitFrom bit e.node value none
  have hwf : Ebitmap.WF ⟨(setBitFrom bit value none e.node).1,
      (setBitFrom bit value none e.node).2.getD e.highbit⟩ := by
    refine { setBitFrom_wf (by omega) h.toNodesWF with high := ?_ }
    have hz : ∀ l, endAfter none l = nodesEnd l := fun l => by cases l <;> rfl
    rw [h.high, ← hz, ← hz]
    exact hend
  refine ⟨hwf, ?_⟩
  intro i
  rw [Bool.eq_iff_iff, getBit_iff hwf, holds_setBitFrom h.toNodesWF]
  split
  · rfl
  · exact (getBit_iff h i).symm

theorem ebitmapSetBit_isSome (e : Ebitmap) (hb : bit - bit % mapsize + mapsize < 2 ^ 32) (value : Bool) :
    ∃ e', ebitmapSetBit e bit value = some e' := by
  unfold ebitmapSetBit
  rw [if_neg (by omega)]
  exact ⟨_, rfl⟩

theorem Ebitmap.WF.empty : Ebitmap.WF {} := ⟨⟨by simp, by simp, by simp, by simp⟩, rfl⟩

/-- The first map starts at the aligned position of the least set bit. -/
theorem NodesWF.head_startbit (h : NodesWF (n :: l)) :
    ∃ i, Holds (n :: l) i ∧ i - i % mapsize = n.startbit ∧ ∀ j, Holds (n :: l) j → n.startbit ≤ j := by
  obtain ⟨k, hk⟩ := (Lib.Bits.ne_zero_iff n.map).mp (h.nonempty n mem_cons_self)
  have hlt : k < mapsize := BitVec.lt_of_getLsbD hk
  obtain ⟨q, hq⟩ := h.aligned n mem_cons_self
  refine ⟨n.startbit + k, holds_cons.mpr (Or.inl ⟨by omega, by omega, by simpa using hk⟩), ?_, ?_⟩
  · rw [hq]
    simp only [mapsize] at hlt ⊢
    omega
  · intro j hj
    exact h.apart.head_le hj

/-- Two node lists with the same bits are the same list. -/
theorem NodesWF.ext (h1 : NodesWF l1) (h2 : NodesWF l2) (h : ∀ i, Holds l1 i ↔ Holds l2 i) : l1 = l2 := by
  induction l1 generalizing l2 with
  | nil =>
    cases l2 with
    | nil => rfl
    | cons n2 l2 => grind [h2.head_startbit]
  | cons n1 l1 ih =>
    cases l2 with
    | nil => grind [h1.head_startbit]
    | cons n2 l2 =>
      obtain ⟨i1, hi1, hs1, hmin1⟩ := h1.head_startbit
      obtain ⟨i2, hi2, hs2, hmin2⟩ := h2.head_startbit
      have hle1 := hmin2 i1 ((h i1).mp hi1)
      have hle2 := hmin1 i2 ((h i2).mpr hi2)
      have hstart : n1.startbit = n2.startbit := by
        simp only [mapsize] at *
        omega
      -- bits of the first map on either side are bits of the first map on the other
      have hmap : n1.map = n2.map := by
        apply BitVec.eq_of_getLsbD_eq
        intro k hk
        rw [Bool.eq_iff_iff, ← h1.apart.holds_head hk, h, hstart]
        exact h2.apart.holds_head hk
      have hn : n1 = n2 := by
        cases n1
        simp_all
      subst hn
      refine congrArg _ (ih h1.tail h2.tail ?_)
      intro i
      have := h i
      grind

/-- A well-formed bitmap is determined by its bits. -/
theorem Ebitmap.WF.ext {e f : Ebitmap} (he : e.WF) (hf : f.WF) (h : ∀ i, ebitmapGetBit e i = ebitmapGetBit f i) : e = f := by
  have hnode : e.node = f.node := he.toNodesWF.ext hf.toNodesWF fun i => by
    rw [← getBit_iff he, ← getBit_iff hf, h]
  have hhigh : e.highbit = f.highbit := by rw [he.high, hf.high, hnode]
  cases e
  simp_all

theorem not_getBit_empty (i : Nat) : ebitmapGetBit {} i = false := by
  cases i <;> rfl

/-- No set bit lies past `highbit`, and no map ends past `uint32_t`. -/
theorem Ebitmap.WF.getBit_lt (h : e.WF) (hi : ebitmapGetBit e i = true) :
    i < e.highbit ∧ i - i % mapsize + mapsize < 2 ^ 32 := by
  have hh := (getBit_iff h i).mp hi
  refine ⟨by rw [h.high]; exact h.apart.lt_nodesEnd hh, ?_⟩
  obtain ⟨n, hn, hlo, hlt, -⟩ := hh
  have hw := h.narrow n hn
  obtain ⟨k, hk⟩ := h.aligned n hn
  simp only [mapsize] at *
  omega

/-- Below `highbit` no map ends past `uint32_t` either. -/
theorem Ebitmap.WF.lt_highbit (h : e.WF) (hi : i < e.highbit) : i - i % mapsize + mapsize < 2 ^ 32 := by
  rw [h.high, nodesEnd] at hi
  cases hlast : e.node.getLast? with
  | none =>
    rw [hlast] at hi
    exact absurd hi (Nat.not_lt_zero i)
  | some n =>
    rw [hlast] at hi
    have hn := mem_of_getLast? hlast
    have hw := h.narrow n hn
    obtain ⟨k, hk⟩ := h.aligned n hn
    simp only [mapsize, Option.map_some, Option.getD_some] at *
    omega

theorem startbit_orFrom (fuel : Nat) (l1 l2 : List EbitmapNode) {m : EbitmapNode} (hm : m ∈ orFrom fuel l1 l2) :
    ∃ n, (n ∈ l1 ∨ n ∈ l2) ∧ n.startbit = m.startbit := by
  fun_induction orFrom fuel l1 l2 with
  | case1 => exact ⟨m, Or.inr hm, rfl⟩
  | case2 => exact ⟨m, Or.inl hm, rfl⟩
  | case3 => cases hm
  | case4 fuel n1 l1 n2 l2 _ ih =>
    rcases mem_cons.mp hm with rfl | hm
    · exact ⟨n1, Or.inl mem_cons_self, rfl⟩
    · obtain ⟨n, hn, he⟩ := ih hm
      exact ⟨n, hn.imp (mem_cons_of_mem n1) (mem_cons_of_mem n2), he⟩
  | case5 fuel n1 l1 n2 l2 _ _ ih =>
    rcases mem_cons.mp hm with rfl | hm
    · exact ⟨m, Or.inl mem_cons_self, rfl⟩
    · obtain ⟨n, hn, he⟩ := ih hm
      exact ⟨n, hn.imp_left (mem_cons_of_mem n1), he⟩
  | case6 fuel n1 l1 n2 l2 _ _ ih =>
    rcases mem_cons.mp hm with rfl | hm
    · exact ⟨m, Or.inr mem_cons_self, rfl⟩
    · obtain ⟨n, hn, he⟩ := ih hm
      exact ⟨n, hn.imp_right (mem_cons_of_mem n2), he⟩

/-- A map before all of two lists stays in front of their merge. -/
theorem NodesWF.cons_orFrom {fuel : Nat} (ha : mapsize ∣ n.startbit)
    (hne : n.map ≠ 0#64) (hnar : n.startbit + mapsize < 2 ^ 32) (hs1 : ∀ m ∈ l1, n.startbit < m.startbit)
    (hs2 : ∀ m ∈ l2, n.startbit < m.startbit) (h : NodesWF (orFrom fuel l1 l2)) : NodesWF (n :: orFrom fuel l1 l2) := by
  refine NodesWF.cons ha hne hnar ?_ h
  intro m hm
  have := startbit_orFrom fuel l1 l2 hm
  grind

theorem orFrom_wf (fuel : Nat) (h1 : NodesWF l1) (h2 : NodesWF l2) : NodesWF (orFrom fuel l1 l2) := by
  fun_induction orFrom fuel l1 l2 with
  | case1 => exact h2
  | case2 => exact h1
  | case3 => exact ⟨by simp, by simp, by simp, by simp⟩
  | case4 fuel n1 l1 n2 l2 heq ih =>
    obtain ⟨hs1, hd1, hne1, hw1⟩ := h1.head
    have hm : n1.map ||| n2.map ≠ 0#64 := fun h0 => hne1 (BitVec.or_eq_zero_iff.mp h0).1
    exact NodesWF.cons_orFrom hd1 hm hw1 hs1 (heq ▸ h2.head.1) (ih h1.tail h2.tail)
  | case5 fuel n1 l1 n2 l2 _ hlt ih =>
    obtain ⟨hs1, hd1, hne1, hw1⟩ := h1.head
    exact NodesWF.cons_orFrom hd1 hne1 hw1 hs1 (by grind [h2.head]) (ih h1.tail h2)
  | case6 fuel n1 l1 n2 l2 _ _ ih =>
    obtain ⟨hs2, hd2, hne2, hw2⟩ := h2.head
    exact NodesWF.cons_orFrom hd2 hne2 hw2 (by grind [h1.head]) hs2 (ih h1 h2.tail)

theorem holds_orFrom (fuel : Nat) (hf : l1.length + l2.length ≤ fuel) (i : Nat) :
    Holds (orFrom fuel l1 l2) i ↔ Holds l1 i ∨ Holds l2 i := by
  fun_induction orFrom fuel l1 l2 with
  | case1 | case2 => simp [not_holds_nil]
  | case3 => simp_all
  | case4 fuel n1 l1 n2 l2 heq ih =>
    simp only [length_cons] at hf
    simp only [holds_cons, ih (by omega), BitVec.getLsbD_or, Bool.or_eq_true, ← heq]
    grind
  | case5 fuel n1 l1 n2 l2 _ _ ih =>
    simp only [length_cons] at hf ih
    rw [holds_cons, ih (by omega), @holds_cons n1 i l1, or_assoc]
  | case6 fuel n1 l1 n2 l2 _ _ ih =>
    simp only [length_cons] at hf ih
    rw [holds_cons, ih (by omega), @holds_cons n2 i l2, or_left_comm]

/-- The merge ends where the later list ends. -/
theorem nodesEnd_orFrom (fuel : Nat) (hf : l1.length + l2.length ≤ fuel) (h1 : NodesWF l1) (h2 : NodesWF l2) :
    nodesEnd (orFrom fuel l1 l2) = max (nodesEnd l1) (nodesEnd l2) := by
  have hwf := orFrom_wf fuel h1 h2
  fun_induction orFrom fuel l1 l2 with
  | case1 | case2 => simp [nodesEnd]
  | case3 => simp_all
  | _ => grind [Apart.nodesEnd_cons]

/-- `ebitmap_or` computes the union. -/
theorem ebitmapOr_spec (h1 : e1.WF) (h2 : e2.WF) :
    (ebitmapOr e1 e2).WF ∧
      ∀ i, ebitmapGetBit (ebitmapOr e1 e2) i = true ↔ ebitmapGetBit e1 i = true ∨ ebitmapGetBit e2 i = true := by
  have hend := nodesEnd_orFrom _ (Nat.le_refl _) h1.toNodesWF h2.toNodesWF
  have hor : (ebitmapOr e1 e2).WF :=
    { orFrom_wf _ h1.toNodesWF h2.toNodesWF with high := by rw [ebitmapOr, hend, h1.high, h2.high] }
  refine ⟨hor, ?_⟩
  intro i
  rw [getBit_iff hor, getBit_iff h1, getBit_iff h2]
  exact holds_orFrom _ (Nat.le_refl _) i

/-- `ebitmap_and` computes the intersection. -/
theorem ebitmapAnd_spec (h1 : e1.WF) (h2 : e2.WF) :
    ∃ e, ebitmapAnd e1 e2 = some e ∧ e.WF ∧
      ∀ i, ebitmapGetBit e i = true ↔ ebitmapGetBit e1 i = true ∧ ebitmapGetBit e2 i = true := by
  -- the loop invariant: after `k` rounds `dst` is the intersection below `k`
  have loop : ∀ k, ∃ e, (List.range k).foldlM
      (fun dst i => if ebitmapGetBit e1 i && ebitmapGetBit e2 i then ebitmapSetBit dst i true else some dst) {} =
        some e ∧ e.WF ∧
      ∀ i, ebitmapGetBit e i = true ↔ i < k ∧ ebitmapGetBit e1 i = true ∧ ebitmapGetBit e2 i = true := by
    intro k
    induction k with
    | zero => exact ⟨{}, rfl, Ebitmap.WF.empty, fun i => by simp [not_getBit_empty]⟩
    | succ k ih =>
      obtain ⟨e, he, hwf, hbits⟩ := ih
      rw [range_succ, foldlM_append, he]
      by_cases hk : ebitmapGetBit e1 k = true ∧ ebitmapGetBit e2 k = true
      · obtain ⟨e', he'⟩ := ebitmapSetBit_isSome e (h1.getBit_lt hk.1).2 true
        obtain ⟨hwf', hbits'⟩ := ebitmapSetBit_spec hwf he'
        refine ⟨e', by simp [hk, he'], hwf', ?_⟩
        intro i
        rw [hbits']
        split
        next hi =>
          simp [hi, hk]
        next hi =>
          rw [hbits]
          exact and_congr_left' (by omega)
      · refine ⟨e, by simp_all, hwf, ?_⟩
        intro i
        grind
  obtain ⟨e, he, hwf, hbits⟩ := loop (min (ebitmapLength e1) (ebitmapLength e2))
  refine ⟨e, he, hwf, ?_⟩
  intro i
  rw [hbits, and_iff_right_of_imp]
  intro h
  obtain ⟨hi1, hi2⟩ := h
  have := (h1.getBit_lt hi1).1
  have := (h2.getBit_lt hi2).1
  simp only [ebitmapLength]
  omega

end SELinux.Db
