/-
  SELinux.Db.Positions — the positions that `ebitmap_for_each_bit` visits
  (`libsepol/include/sepol/policydb/ebitmap.h`: `ebitmap_start`, `ebitmap_next`).

  The iterator goes through each map bit by bit and jumps from the last bit of a map to the
  first bit of the next one. Maps without bits are not there, so the jump is one of several
  maps where some are missing. Loops that look for runs of set bits on this walk take the bits
  on both sides of a jump for neighbours.

  - `chain_positions`: from each position the walk goes on by one, unless maps are missing there
    (`Follows`).
  - `setPositions_positions`: the set positions of the walk are the bits.
  - `tight_runs_iff`: all runs of the walk are intervals up to their ends exactly if no maps are
    missing after a set bit.
-/
import SELinux.Db.Context
import SELinux.Lib.Runs

namespace SELinux.Db

open Lib.Runs List

variable {H : Nat → Prop} {a b : Nat} {bit : Nat}

/-- Position `a` is the last one of a map, the maps after it are missing up to `b`, and the one
    at `b` is there. -/
structure MissingMaps (H : Nat → Prop) (a b : Nat) : Prop where
  last : (a + 1) % mapsize = 0
  far : a + 1 < b
  start : b % mapsize = 0
  empty : ∀ j, a < j → j < b → ¬H j
  next : ∃ j, b ≤ j ∧ j < b + mapsize ∧ H j

/-- Where the walk goes from `a`. -/
def Follows (H : Nat → Prop) (a b : Nat) : Prop := MissingMaps H a b ∨ b = a + 1 ∧ ∀ s, ¬MissingMaps H a s

theorem MissingMaps.le {a b b' : Nat} (h : MissingMaps H a b) (h' : MissingMaps H a b') : b' ≤ b := by
  by_contra hlt
  obtain ⟨j, hlow, hhigh, hj⟩ := h.next
  have hstart := h.start
  have hstart' := h'.start
  have hfar := h.far
  simp only [mapsize] at *
  exact h'.empty j (by omega) (by omega) hj

theorem MissingMaps.unique {a b b' : Nat} (h : MissingMaps H a b) (h' : MissingMaps H a b') : b = b' :=
  Nat.le_antisymm (h'.le h) (h.le h')

theorem MissingMaps.congr {H H' : Nat → Prop} (h : MissingMaps H a b) (hH : ∀ j, a < j → (H j ↔ H' j)) :
    MissingMaps H' a b := by
  obtain ⟨j, hlow, hhigh, hj⟩ := h.next
  have hfar := h.far
  refine ⟨h.last, h.far, h.start, ?_, j, hlow, hhigh, (hH j (by omega)).mp hj⟩
  intro j hlow hhigh hj
  exact h.empty j hlow hhigh ((hH j hlow).mpr hj)

theorem Follows.congr {H H' : Nat → Prop} (h : Follows H a b) (hH : ∀ j, a < j → (H j ↔ H' j)) : Follows H' a b := by
  rcases h with h | ⟨heq, hno⟩
  · exact Or.inl (h.congr hH)
  · exact Or.inr ⟨heq, fun s hs => hno s (hs.congr fun j hj => (hH j hj).symm)⟩

theorem Follows.lt (h : Follows H a b) : a < b := by
  rcases h with h | h
  · have := h.far
    omega
  · omega

/-- Where maps are missing the walk jumps over them. -/
theorem Follows.eq_of_missing {a b s : Nat} (h : Follows H a b) (hs : MissingMaps H a s) : b = s := by
  rcases h with h | ⟨-, hno⟩
  · exact h.unique hs
  · exact absurd hs (hno s)

variable {l : List EbitmapNode}

section Walk

variable {high : Nat}

/-- One move of the iterator. -/
theorem follows_next {n : EbitmapNode} (hwf : NodesWF (n :: l)) (hlo : n.startbit ≤ bit)
    (hin : l ≠ [] → bit < n.startbit + mapsize) : Follows (Holds (n :: l)) bit (ebitmapNext (n :: l) bit).2 := by
  have halign := Nat.mod_eq_zero_of_dvd (hwf.aligned n mem_cons_self)
  cases l with
  | nil =>
    refine Or.inr ⟨rfl, fun s hs => ?_⟩
    obtain ⟨j, hlow, -, hj⟩ := hs.next
    have hfar := hs.far
    have hlast := hs.last
    -- no bit is past the only map
    obtain ⟨m, hm, -, hjm, -⟩ := hj
    obtain rfl := mem_singleton.mp hm
    simp only [mapsize] at *
    omega
  | cons m r =>
    have hm := hwf.apart
    have hnm := (pairwise_cons.mp hm).1 m mem_cons_self
    have hmalign := Nat.mod_eq_zero_of_dvd (hwf.aligned m (mem_cons_of_mem n mem_cons_self))
    have hbit := hin (cons_ne_nil m r)
    rw [ebitmapNext]
    by_cases hlast : bit = n.startbit + mapsize - 1
    · rw [if_pos hlast]
      -- the next map has a bit, since it is not empty
      obtain ⟨k, hk⟩ : ∃ k, m.map.getLsbD k = true := by
        by_contra hnone
        refine hwf.nonempty m (mem_cons_of_mem n mem_cons_self) (BitVec.eq_of_getLsbD_eq fun k _ => ?_)
        rw [BitVec.getLsbD_zero]
        exact Bool.eq_false_iff.mpr fun hk => hnone ⟨k, hk⟩
      have hk64 := BitVec.lt_of_getLsbD hk
      have hholds : Holds (n :: m :: r) (m.startbit + k) :=
        ⟨m, mem_cons_of_mem n mem_cons_self, by omega, by simp only [mapsize]; omega, by rwa [Nat.add_sub_cancel_left]⟩
      by_cases hadj : m.startbit = bit + 1
      · refine Or.inr ⟨hadj, fun s hs => ?_⟩
        have hfar := hs.far
        have hstart := hs.start
        refine hs.empty (m.startbit + k) ?_ ?_ hholds
        · omega
        · simp only [mapsize] at *
          omega
      · refine Or.inl ⟨?_, ?_, hmalign, ?_, m.startbit + k, ?_, ?_, hholds⟩
        · simp only [mapsize] at *
          omega
        · simp only [mapsize] at *
          omega
        · intro j hlow hhigh hj
          rcases holds_cons.mp hj with hj | hj
          · have := hj.2.1
            omega
          · have := hm.tail.head_le hj
            omega
        · exact Nat.le_add_right _ _
        · simp only [mapsize]
          omega
    · rw [if_neg hlast]
      refine Or.inr ⟨rfl, fun s hs => ?_⟩
      have := hs.last
      simp only [mapsize] at *
      omega

/-- The walk from `bit` begins there, or is at its end. -/
theorem positionsFrom_head {fuel : Nat} (hle : bit ≤ high) (hfuel : high ≤ bit + fuel) :
    ((positionsFrom high fuel l bit).map (·.1) ++ [high]).head? = some bit := by
  cases fuel with
  | zero =>
    have heq : bit = high := by omega
    rw [heq]
    rfl
  | succ fuel =>
    rw [positionsFrom]
    split
    · rfl
    · have heq : bit = high := by omega
      rw [heq]
      rfl

/-- By induction on the rounds left: past the current position, the bits are those of the maps
    that are still to come. -/
theorem chain_positionsFrom (fuel : Nat) : ∀ {n : EbitmapNode} {l : List EbitmapNode} {bit : Nat}, NodesWF (n :: l) →
    nodesEnd (n :: l) ≤ high → n.startbit ≤ bit → (l ≠ [] → bit < n.startbit + mapsize) → bit ≤ high → high ≤ bit + fuel →
    (∀ j, bit < j → (Holds (n :: l) j ↔ H j)) →
    ((positionsFrom high fuel (n :: l) bit).map (·.1) ++ [high]).IsChain (Follows H) := by
  induction fuel with
  | zero =>
    intro n l bit _ _ _ _ _ _ _
    exact isChain_singleton _
  | succ fuel ih =>
    intro n l bit hwf hend hlo hin hle hfuel hH
    rw [positionsFrom]
    split
    next hlt =>
      have hnext := (follows_next hwf hlo hin).congr hH
      have hup := hnext.lt
      have hrest : (ebitmapNext (n :: l) bit).2 ≤ high ∧
          ((positionsFrom high fuel (ebitmapNext (n :: l) bit).1 (ebitmapNext (n :: l) bit).2).map (·.1) ++ [high]).IsChain
            (Follows H) := by
        cases l with
        | nil =>
          exact ⟨hlt, ih hwf hend (Nat.le_succ_of_le hlo)
            (fun hne => absurd rfl hne) hlt (by omega) fun j hj => hH j (by omega)⟩
        | cons m r =>
          have hbit := hin (cons_ne_nil m r)
          rw [ebitmapNext] at hup ⊢
          by_cases hlast : bit = n.startbit + mapsize - 1
          · rw [if_pos hlast] at hup ⊢
            rw [nodesEnd_cons_cons] at hend
            have hm := hwf.apart.tail.head_le_nodesEnd
            have hmle : m.startbit ≤ high := by omega
            refine ⟨hmle, ih hwf.tail hend (Nat.le_refl _) (fun _ => Nat.lt_add_of_pos_right (by decide)) hmle (by omega) ?_⟩
            intro j hj
            -- the first map lies before
            rw [← hH j (by omega), holds_cons (n := n)]
            refine (or_iff_right fun hn => ?_).symm
            omega
          · rw [if_neg hlast] at hup ⊢
            exact ⟨hlt, ih hwf hend (Nat.le_succ_of_le hlo) (fun _ => by omega) hlt (by omega) fun j hj => hH j (by omega)⟩
      have hhead := positionsFrom_head (l := (ebitmapNext (n :: l) bit).1) hrest.1 (show high ≤ _ + fuel by omega)
      rw [map_cons, cons_append]
      refine isChain_cons.mpr ⟨?_, hrest.2⟩
      intro y hy
      rw [hhead] at hy
      cases hy
      exact hnext
    · exact isChain_singleton _

/-- Without maps all positions are visited, and no bit is set. -/
theorem chain_positionsFrom_nil (hH : ∀ j, ¬H j) (fuel : Nat) (hle : bit ≤ high) (hfuel : high ≤ bit + fuel) :
    ((positionsFrom high fuel [] bit).map (·.1) ++ [high]).IsChain (Follows H) := by
  induction fuel generalizing bit with
  | zero => exact isChain_singleton _
  | succ fuel ih =>
    rw [positionsFrom]
    split
    next hlt =>
      have hfuel' : high ≤ bit + 1 + fuel := by omega
      refine isChain_cons.mpr ⟨?_, ih hlt hfuel'⟩
      intro y hy
      have hhead : ((positionsFrom high fuel [] (bit + 1)).map (·.1) ++ [high]).head? = some y := hy
      rw [positionsFrom_head hlt hfuel'] at hhead
      cases hhead
      refine Or.inr ⟨rfl, fun s hs => ?_⟩
      obtain ⟨j, -, -, hj⟩ := hs.next
      exact hH j hj
    · exact isChain_singleton _

theorem setPositions_positionsFrom (fuel : Nat) (l : List EbitmapNode) (bit : Nat) :
    setPositions (positionsFrom high fuel l bit) = forEachBitFrom high fuel l bit := by
  induction fuel generalizing l bit with
  | zero => rfl
  | succ fuel ih =>
    rw [positionsFrom, forEachBitFrom]
    split
    · cases l with
      | nil => exact ih _ _
      | cons n l =>
        show setPositions ((bit, ebitmapNodeGetBit n bit) :: _) = if ebitmapNodeGetBit n bit then _ else _
        cases ebitmapNodeGetBit n bit with
        | true => exact congrArg (bit :: ·) (ih _ _)
        | false => exact ih _ _
    · rfl

end Walk

section Bitmaps

variable {e : Ebitmap} (hwf : NodesWF e.node) (hend : nodesEnd e.node ≤ e.highbit)

theorem setPositions_positions (e : Ebitmap) : setPositions (ebitmapPositions e) = ebitmapBits e :=
  setPositions_positionsFrom _ _ _

include hwf hend

theorem chain_positions : ((ebitmapPositions e).map (·.1) ++ [e.highbit]).IsChain (Follows (Holds e.node)) := by
  unfold ebitmapPositions ebitmapStartbit
  cases hn : e.node with
  | nil =>
    refine chain_positionsFrom_nil (fun j hj => ?_) e.highbit (Nat.zero_le _) (Nat.le_add_left _ _)
    obtain ⟨n, hmem, -⟩ := hj
    cases hmem
  | cons n l =>
    rw [hn] at hwf hend
    have hhead := hwf.apart.head_le_nodesEnd
    exact chain_positionsFrom e.highbit hwf hend (Nat.le_refl _) (fun _ => Nat.lt_add_of_pos_right (by decide)) (by
      show n.startbit ≤ e.highbit
      omega) (Nat.le_add_left _ _) fun _ _ => Iff.rfl

theorem up_positions : Up e.highbit (ebitmapPositions e) := (chain_positions hwf hend).imp fun _ _ h => h.lt

/-- The runs of set bits on the walk. -/
theorem chain_bitRuns : ∀ r ∈ runs e.highbit (ebitmapPositions e), (r.positions ++ [r.stop]).IsChain
    (Follows (Holds e.node)) :=
  chain_runs (chain_positions hwf hend)

theorem follows_of_step {r : Run} (hr : r ∈ runs e.highbit (ebitmapPositions e)) (h : r.Step a b) :
    Follows (Holds e.node) a b := Run.isChain_iff.mp (chain_bitRuns hwf hend r hr) a b h

theorem mem_bitRuns {i : Nat} : Holds e.node i ↔ ∃ r ∈ runs e.highbit (ebitmapPositions e), i ∈ r.positions := by
  rw [← mem_setPositions, setPositions_positions, mem_bits_of_end hwf.apart hend]

/-- All runs are intervals up to their ends exactly if no maps are missing after a set bit. -/
theorem tight_runs_iff : (∀ r ∈ runs e.highbit (ebitmapPositions e), ∀ i, r.first ≤ i ∧ i < r.stop ↔ i ∈ r.positions) ↔
    ∀ a s, Holds e.node a → ¬MissingMaps (Holds e.node) a s := by
  have hup : ∀ r ∈ runs e.highbit (ebitmapPositions e), (r.positions ++ [r.stop]).IsChain (· < ·) :=
    fun r hr => (chain_bitRuns hwf hend r hr).imp fun _ _ h => h.lt
  constructor
  · intro htight a s ha hs
    obtain ⟨r, hr, har⟩ := (mem_bitRuns hwf hend).mp ha
    obtain ⟨b, hb⟩ := Run.exists_step har
    have hone := (Run.tight_iff (hup r hr)).mp (htight r hr) a b hb
    have hjump := (follows_of_step hwf hend hr hb).eq_of_missing hs
    have hfar := hs.far
    omega
  · intro hno r hr
    refine (Run.tight_iff (hup r hr)).mpr fun a b hab => ?_
    have ha : Holds e.node a := (mem_bitRuns hwf hend).mpr ⟨r, hr, Run.mem_of_step hab⟩
    rcases follows_of_step hwf hend hr hab with hs | hone
    · exact absurd hs (hno a b ha)
    · exact hone.1

end Bitmaps

/-! ## Past the last map

A bitmap of a file may announce an end past its last map. The loop then keeps the last node and
shifts by 64 and more, of which C does not say what it gives. -/

/-- What `n->map & (MAPBIT << (bit - n->startbit))` finds past the bits of the map. -/
abbrev PastMap := EbitmapNode → Nat → Bool

/-- The positions of `ebitmap_for_each_bit` with their bits, in any bitmap of a file. With an end
    and no map the loop follows NULL. -/
def ebitmapWalk (past : PastMap) (e : Ebitmap) : Option (List (Nat × Bool)) :=
  match e.node.getLast? with
  | some n => some ((ebitmapPositions e).map fun pos => if pos.1 < n.startbit + mapsize then pos else (pos.1, past n pos.1))
  | none => if e.highbit = 0 then some [] else none

def ebitmapWalkBits (past : PastMap) (e : Ebitmap) : Option (List Nat) := (ebitmapWalk past e).map setPositions

section Past

variable {past : PastMap} {e : Ebitmap} {i : Nat} {pos : Nat × Bool}

theorem lt_of_mem_positionsFrom {high fuel : Nat} (h : pos ∈ positionsFrom high fuel l bit) : pos.1 < high := by
  induction fuel generalizing l bit with
  | zero => cases h
  | succ fuel ih =>
    rw [positionsFrom] at h
    split at h
    next hlt =>
      rcases mem_cons.mp h with rfl | h
      · exact hlt
      · exact ih h
    · cases h

/-- The bits of the maps are found. -/
theorem mem_walkBits (ha : Apart e.node) (hend : nodesEnd e.node ≤ e.highbit) {l : List Nat}
    (h : ebitmapWalkBits past e = some l) (hi : i ∈ ebitmapBits e) : i ∈ l := by
  have hlt := ha.lt_nodesEnd ((mem_bits_of_end ha hend).mp hi)
  obtain ⟨walk, hwalk, rfl⟩ := Option.map_eq_some_iff.mp h
  rw [← setPositions_positions] at hi
  obtain ⟨pos, hpos, rfl⟩ := mem_map.mp hi
  obtain ⟨hmem, hset⟩ := mem_filter.mp hpos
  unfold ebitmapWalk at hwalk
  unfold nodesEnd at hlt
  cases hn : e.node.getLast? with
  | none => simp [hn] at hlt
  | some n =>
    rw [hn] at hwalk hlt
    cases hwalk
    refine mem_map.mpr ⟨pos, mem_filter.mpr ⟨mem_map.mpr ⟨pos, hmem, ?_⟩, hset⟩, rfl⟩
    exact if_pos hlt

/-- A bitmap that ends with its last map. -/
theorem ebitmapWalk_of_end (h : nodesEnd e.node = e.highbit) : ebitmapWalk past e = some (ebitmapPositions e) := by
  have hlt : ∀ pos ∈ ebitmapPositions e, pos.1 < nodesEnd e.node := fun pos hpos => h ▸ lt_of_mem_positionsFrom hpos
  unfold ebitmapWalk
  unfold nodesEnd at h hlt
  cases hn : e.node.getLast? with
  | none =>
    rw [hn] at h
    have hhigh : e.highbit = 0 := h.symm
    simp [hhigh, ebitmapPositions, positionsFrom]
  | some n =>
    rw [hn] at hlt
    refine congrArg some ((map_congr_left ?_).trans (map_id _))
    intro pos hpos
    exact if_pos (hlt pos hpos)

theorem ebitmapWalkBits_of_end (h : nodesEnd e.node = e.highbit) : ebitmapWalkBits past e = some (ebitmapBits e) := by
  rw [ebitmapWalkBits, ebitmapWalk_of_end h, Option.map_some, setPositions_positions]

end Past

end SELinux.Db
