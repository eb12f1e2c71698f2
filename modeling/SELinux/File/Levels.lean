/-
  SELinux.File.Levels — the two forms of a level (`libsepol/src/policydb.c`:
  `mls_level_to_semantic`; `expand.c`: `mls_semantic_level_expand`).

  `mls_level_to_semantic` makes ranges of the categories of a level: a range is opened at a set
  bit and closed at the next bit that is clear, as `ebitmap_for_each_bit` visits them. The
  iterator jumps over maps that are missing, so a range that is open after the last bit of a
  map stays open over the gap, up to the first bit of the next map at least.
  `mls_semantic_level_expand` takes a range for all categories in it, and refuses one that the
  sensitivity does not have.

  Proved: `foldlM_addCats_iff`, an expansion succeeds if all ranges fit, and has their
  categories, in whatever order they come. `mlsLevelToSemantic_expand_iff`: a level comes back
  from its ranges exactly if no maps are missing behind one of its categories (`Bridged`).
-/
import SELinux.Db.Positions
import SELinux.File.Policydb

namespace SELinux.File

open Lib Lib.Trace Lib.Runs List Noted

variable {cats : List SemanticCat} {cat cat' : Db.Bitmap} {lev : LevelDatum} {i : Nat} {r : Run}

/-! ## Ranges of a level -/

/-- The range for a run of categories. -/
def catOf (r : Run) : SemanticCat := ⟨BitVec.ofNat 32 (r.first + 1), BitVec.ofNat 32 r.stop⟩

/-- The ranges so far, with the run that is open. -/
def openCats (cur : Option (Nat × List Nat)) (cats : List SemanticCat) : OpenCats :=
  match cur with
  | none => { cats }
  | some c => { cats := ⟨BitVec.ofNat 32 (c.1 + 1), 0#32⟩ :: cats, isOpen := true }

theorem foldl_visit (high : Nat) (ps : List (Nat × Bool)) (cur : Option (Nat × List Nat)) (cats : List SemanticCat) :
    ((ps.foldl OpenCats.visit (openCats cur cats)).close high).cats = ((runsFrom high cur ps).map catOf).reverse ++
      cats := by
  fun_induction runsFrom high cur ps generalizing cats with
  | case1 => cases cats <;> rfl
  | case2 => rfl
  | case3 p ps ih | case5 c p ps ih => exact ih cats
  | case4 p ps ih =>
    have hclosed : (openCats none cats).visit (p, false) = openCats none cats := by cases cats <;> rfl
    rw [foldl_cons, hclosed]
    exact ih cats
  | case6 c p ps ih =>
    rw [map_cons, reverse_cons, append_assoc]
    exact ih (⟨BitVec.ofNat 32 (c.1 + 1), BitVec.ofNat 32 p⟩ :: cats)

/-- The ranges of a level are those of its runs, the last one first. -/
theorem mlsLevelToSemantic_cat (l : MlsLevel) :
    (mlsLevelToSemantic l).cat = ((runs l.cat.1.highbit (Db.ebitmapPositions l.cat.1)).map catOf).reverse := by
  have h := foldl_visit l.cat.1.highbit (Db.ebitmapPositions l.cat.1) none []
  rw [append_nil] at h
  exact h

theorem catOf_fits (hlt : r.first < r.stop) (hstop : r.stop < 2 ^ 32) : ¬(catOf r).high < (catOf r).low := by
  have hlow : (BitVec.ofNat 32 (r.first + 1)).toNat = r.first + 1 := by
    rw [BitVec.toNat_ofNat]
    omega
  have hhigh : (BitVec.ofNat 32 r.stop).toNat = r.stop := by
    rw [BitVec.toNat_ofNat]
    omega
  show ¬(BitVec.ofNat 32 r.stop).toNat < (BitVec.ofNat 32 (r.first + 1)).toNat
  omega

theorem mem_bits_catOf (hlt : r.first < r.stop) (hstop : r.stop < 2 ^ 32) :
    i ∈ (catOf r).bits ↔ r.first ≤ i ∧ i < r.stop := by
  have hlow : (BitVec.ofNat 32 (r.first + 1) - 1#32).toNat = r.first := by
    rw [BitVec.toNat_sub, BitVec.toNat_ofNat, BitVec.toNat_ofNat]
    omega
  have hhigh : (BitVec.ofNat 32 r.stop).toNat = r.stop := by
    rw [BitVec.toNat_ofNat]
    omega
  unfold SemanticCat.bits catOf
  rw [hlow, hhigh, mem_range'_1]
  omega

/-! ## Expansion -/

/-- The sensitivity has the categories of a range. -/
def Fits (lev : LevelDatum) (c : SemanticCat) : Prop :=
  ¬c.high < c.low ∧ ∀ i ∈ c.bits, Db.ebitmapGetBit lev.level.cat.1 i = true

theorem Readable.narrow_bit {e : Db.Ebitmap} (h : Readable e) (hi : Db.ebitmapGetBit e i = true) :
    i - i % Db.mapsize + Db.mapsize < 2 ^ 32 := by
  obtain ⟨n, hn, hlow, hhigh, -⟩ := h.mem_bits.mp (h.mem_bits_of_getBit hi)
  have hnarrow := h.narrow n hn
  have halign := Nat.mod_eq_zero_of_dvd (h.aligned n hn)
  simp only [Db.mapsize] at *
  omega

section Expand

variable {lev : LevelDatum}

theorem foldlM_addCat {l : List Nat} (h : ∀ i ∈ l, Db.ebitmapGetBit lev.level.cat.1 i = true) (cat : Db.Bitmap) :
    ∃ cat', l.foldlM (addCat lev) cat = some cat' ∧ ∀ i, cat'.has i = true ↔ cat.has i = true ∨ i ∈ l := by
  induction l generalizing cat with
  | nil => exact ⟨cat, rfl, fun i => by simp⟩
  | cons a l ih =>
    obtain ⟨ha, hl⟩ := forall_mem_cons.mp h
    obtain ⟨cat1, hcat1⟩ := cat.setBit_isSome (lev.level.cat.2.narrow_bit ha) true
    obtain ⟨cat', hcat', hhas⟩ := ih hl cat1
    refine ⟨cat', ?_, ?_⟩
    · rw [foldlM_cons, addCat, if_pos ha, hcat1]
      exact hcat'
    · intro i
      rw [hhas, Db.Bitmap.has_setBit hcat1]
      by_cases hi : i = a
      · simp [hi]
      · simp [hi]

theorem getBit_of_foldlM {l : List Nat} (h : l.foldlM (addCat lev) cat = some cat') :
    ∀ i ∈ l, Db.ebitmapGetBit lev.level.cat.1 i = true := by
  induction l generalizing cat with
  | nil => exact forall_mem_nil _
  | cons a l ih =>
    obtain ⟨cat1, h1, hrest⟩ := Option.bind_eq_some_iff.mp h
    refine forall_mem_cons.mpr ⟨?_, ih hrest⟩
    unfold addCat at h1
    split_ifs at h1
    assumption

theorem addCats_iff {c : SemanticCat} :
    addCats lev cat c = some cat' ↔ Fits lev c ∧ ∀ i, cat'.has i = true ↔ cat.has i = true ∨ i ∈ c.bits := by
  unfold addCats
  split
  next hempty =>
    exact iff_of_false nofun fun h => h.1.1 hempty
  next hle =>
    constructor
    · intro h
      have hget := getBit_of_foldlM h
      obtain ⟨cat1, hcat1, hhas⟩ := foldlM_addCat hget cat
      rw [h] at hcat1
      cases hcat1
      exact ⟨⟨hle, hget⟩, hhas⟩
    · intro h
      obtain ⟨cat1, hcat1, hhas⟩ := foldlM_addCat h.1.2 cat
      rw [hcat1]
      refine congrArg some (Db.Bitmap.ext fun i => ?_)
      rw [Bool.eq_iff_iff, hhas, h.2]

/-- An expansion succeeds if all ranges fit, and has their categories. -/
theorem foldlM_addCats_iff :
    cats.foldlM (addCats lev) cat = some cat' ↔
      (∀ c ∈ cats, Fits lev c) ∧ ∀ i, cat'.has i = true ↔ cat.has i = true ∨ ∃ c ∈ cats, i ∈ c.bits := by
  induction cats generalizing cat with
  | nil =>
    constructor
    · intro h
      cases h
      exact ⟨forall_mem_nil _, fun i => by simp⟩
    · intro h
      refine congrArg some (Db.Bitmap.ext fun i => ?_)
      rw [Bool.eq_iff_iff, h.2]
      simp
  | cons c cats ih =>
    rw [foldlM_cons]
    constructor
    · intro h
      obtain ⟨cat1, h1, hrest⟩ := Option.bind_eq_some_iff.mp h
      obtain ⟨hfit, hhas1⟩ := addCats_iff.mp h1
      obtain ⟨hfits, hhas⟩ := ih.mp hrest
      refine ⟨forall_mem_cons.mpr ⟨hfit, hfits⟩, fun i => ?_⟩
      rw [hhas, hhas1, or_assoc]
      simp
    · intro h
      obtain ⟨hfit, hfits⟩ := forall_mem_cons.mp h.1
      obtain ⟨cat1, hcat1, hhas1⟩ := foldlM_addCat hfit.2 cat
      have h1 : addCats lev cat c = some cat1 := addCats_iff.mpr ⟨hfit, hhas1⟩
      rw [h1]
      refine ih.mpr ⟨hfits, fun i => ?_⟩
      rw [h.2, hhas1, or_assoc]
      simp

theorem exists_foldlM_addCats (h : ∀ c ∈ cats, Fits lev c) (cat : Db.Bitmap) :
    ∃ cat', cats.foldlM (addCats lev) cat = some cat' := by
  induction cats generalizing cat with
  | nil => exact ⟨cat, rfl⟩
  | cons c cats ih =>
    obtain ⟨hfit, hfits⟩ := forall_mem_cons.mp h
    obtain ⟨cat1, -, hhas1⟩ := foldlM_addCat hfit.2 cat
    obtain ⟨cat', hcat'⟩ := ih hfits cat1
    exact ⟨cat', by rw [foldlM_cons, addCats_iff.mpr ⟨hfit, hhas1⟩]; exact hcat'⟩

end Expand

/-! ## There and back -/

/-- Maps are missing behind a category of the set. -/
def Bridged (e : Db.Ebitmap) : Prop := ∃ a s, a ∈ Db.ebitmapBits e ∧ Db.MissingMaps (· ∈ Db.ebitmapBits e) a s

/-- The categories of a level are among those of its sensitivity. -/
structure Associated (past : Past) (levels : Symtab (symtabSizes 6) LevelDatum) (l : MlsLevel) : Prop where
  sens : l.sens ≠ 0#32
  cats : ∃ lev w, Noted.Gives (levelOf past levels l.sens) lev w ∧
    ∀ i ∈ Db.ebitmapBits l.cat.1, Db.ebitmapGetBit lev.level.cat.1 i = true

section Level

variable {l : MlsLevel}

theorem bits_eq_holds : (· ∈ Db.ebitmapBits l.cat.1) = Db.Holds l.cat.1.node := funext fun _ => propext l.cat.2.mem_bits

/-- The runs of the categories of a level. -/
def catRuns (l : MlsLevel) : List Run := runs l.cat.1.highbit (Db.ebitmapPositions l.cat.1)

theorem up_cats : Up l.cat.1.highbit (Db.ebitmapPositions l.cat.1) := Db.up_positions l.cat.2.toNodesWF l.cat.2.nodesEnd_le

theorem catRuns_bounds (hr : r ∈ catRuns l) : r.first < r.stop ∧ r.stop < 2 ^ 32 := by
  obtain ⟨hlt, hle⟩ := Run.bounds up_cats hr
  exact ⟨hlt, Nat.lt_of_le_of_lt hle l.cat.2.short⟩

/-- What the ranges of a level cover. -/
theorem mem_ranges : (∃ c ∈ (mlsLevelToSemantic l).cat, i ∈ c.bits) ↔ ∃ r ∈ catRuns l, r.first ≤ i ∧ i < r.stop := by
  rw [mlsLevelToSemantic_cat]
  constructor
  · intro h
    obtain ⟨c, hc, hi⟩ := h
    obtain ⟨r, hr, rfl⟩ := mem_map.mp (mem_reverse.mp hc)
    obtain ⟨hlt, hstop⟩ := catRuns_bounds hr
    exact ⟨r, hr, (mem_bits_catOf hlt hstop).mp hi⟩
  · intro h
    obtain ⟨r, hr, hi⟩ := h
    obtain ⟨hlt, hstop⟩ := catRuns_bounds hr
    exact ⟨catOf r, mem_reverse.mpr (mem_map_of_mem hr), (mem_bits_catOf hlt hstop).mpr hi⟩

/-- The ranges cover the categories and nothing else exactly if no gap is bridged. -/
theorem ranges_exact_iff : (∀ i, (∃ c ∈ (mlsLevelToSemantic l).cat, i ∈ c.bits) ↔ i ∈ Db.ebitmapBits l.cat.1) ↔
    ¬Bridged l.cat.1 := by
  have hcover := cover_iff (P := fun r i => r.first ≤ i ∧ i < r.stop) (up_cats (l := l)) fun _ _ _ h => h
  rw [Db.setPositions_positions] at hcover
  have htight := Db.tight_runs_iff l.cat.2.toNodesWF l.cat.2.nodesEnd_le
  rw [← bits_eq_holds] at htight
  simp only [mem_ranges]
  refine (hcover.trans htight).trans ?_
  unfold Bridged
  push Not
  rfl

/-- The ranges fit if they cover categories of the sensitivity only. -/
theorem fits_ranges_iff : (∀ c ∈ (mlsLevelToSemantic l).cat, Fits lev c) ↔
    ∀ i, (∃ c ∈ (mlsLevelToSemantic l).cat, i ∈ c.bits) → Db.ebitmapGetBit lev.level.cat.1 i = true := by
  constructor
  · intro h i hi
    obtain ⟨c, hc, hi⟩ := hi
    exact (h c hc).2 i hi
  · intro h c hc
    refine ⟨?_, fun i hi => h i ⟨c, hc, hi⟩⟩
    rw [mlsLevelToSemantic_cat] at hc
    obtain ⟨r, hr, rfl⟩ := mem_map.mp (mem_reverse.mp hc)
    obtain ⟨hlt, hstop⟩ := catRuns_bounds hr
    exact catOf_fits hlt hstop

theorem expand_gives_iff {past : Past} {levels : Symtab (symtabSizes 6) LevelDatum} {sl : SemanticLevel}
    (hsens : sl.sens ≠ 0#32)
    {w : List Access} (hlev : Noted.Gives (levelOf past levels sl.sens) lev w) {l' : MlsLevel} {w' : List Access} :
    Noted.Gives (mlsSemanticLevelExpand past levels true sl) l' w' ↔
      w' = w ∧ ∃ cat, sl.cat.foldlM (addCats lev) Db.Bitmap.empty = some cat ∧
        l' = { sens := sl.sens, cat := FileBitmap.ofBitmap cat } := by
  unfold mlsSemanticLevelExpand
  rw [if_neg (by simp), if_neg hsens, bind_iff]
  constructor
  · intro h
    obtain ⟨lev1, w1, w2, h1, h2, rfl⟩ := h
    have heq : (lev1, w1) = (lev, w) := Option.some.inj (h1.symm.trans hlev)
    cases heq
    obtain ⟨cat, w3, w4, h3, h4, rfl⟩ := bind_iff.mp h2
    obtain ⟨hcat, rfl⟩ := give_iff.mp h3
    obtain ⟨rfl, rfl⟩ := pure_iff.mp h4
    exact ⟨append_nil _, cat, hcat, rfl⟩
  · intro h
    obtain ⟨rfl, cat, hcat, rfl⟩ := h
    refine ⟨lev, w', [], hlev, bind_iff.mpr ⟨cat, [], [], give_iff.mpr ⟨hcat, rfl⟩, pure_iff.mpr ⟨rfl, rfl⟩, rfl⟩, ?_⟩
    exact (append_nil _).symm

theorem mem_bits_expanded {cat : Db.Bitmap} (h : cats.foldlM (addCats lev) Db.Bitmap.empty = some cat) :
    i ∈ Db.ebitmapBits (FileBitmap.ofBitmap cat).1 ↔ ∃ c ∈ cats, i ∈ c.bits := by
  have hhas := (foldlM_addCats_iff.mp h).2 i
  rw [Db.Bitmap.has_empty, or_iff_right Bool.false_ne_true] at hhas
  exact Db.Bitmap.mem_bits.trans hhas

/-- A level comes back from its ranges exactly if no maps are missing behind one of its
    categories. -/
theorem mlsLevelToSemantic_expand_iff {past : Past} {levels : Symtab (symtabSizes 6) LevelDatum}
    (h : Associated past levels l) :
    (∃ l' w, Noted.Gives (mlsSemanticLevelExpand past levels true (mlsLevelToSemantic l)) l' w ∧ l'.sens = l.sens ∧
      ∀ i, i ∈ Db.ebitmapBits l'.cat.1 ↔ i ∈ Db.ebitmapBits l.cat.1) ↔ ¬Bridged l.cat.1 := by
  obtain ⟨lev, w, hlev, hcats⟩ := h.cats
  have hsens : (mlsLevelToSemantic l).sens = l.sens := rfl
  have hgives : ∀ l' w', Noted.Gives (mlsSemanticLevelExpand past levels true (mlsLevelToSemantic l)) l' w' ↔
      w' = w ∧ ∃ cat, (mlsLevelToSemantic l).cat.foldlM (addCats lev) Db.Bitmap.empty = some cat ∧
        l' = { sens := (mlsLevelToSemantic l).sens, cat := FileBitmap.ofBitmap cat } :=
    fun l' w' => expand_gives_iff (hsens ▸ h.sens) (hsens ▸ hlev)
  rw [← ranges_exact_iff]
  constructor
  · intro hback i
    obtain ⟨l', w', hl', -, hsame⟩ := hback
    obtain ⟨-, cat, hcat, rfl⟩ := (hgives l' w').mp hl'
    rw [← hsame i]
    exact (mem_bits_expanded hcat).symm
  · intro hexact
    have hfits : ∀ c ∈ (mlsLevelToSemantic l).cat, Fits lev c := fits_ranges_iff.mpr fun i hi => hcats i ((hexact i).mp hi)
    obtain ⟨cat, hcat⟩ := exists_foldlM_addCats hfits Db.Bitmap.empty
    exact ⟨_, w, (hgives _ w).mpr ⟨rfl, cat, hcat, rfl⟩, hsens, fun i => (mem_bits_expanded hcat).trans (hexact i)⟩

end Level

/-! ## Examples -/

/-- The categories 62 to 65, in two maps next to each other. -/
def nextCats : FileBitmap :=
  ⟨{ node := [⟨0, 0xc000000000000000#64⟩, ⟨64, 3#64⟩], highbit := 128 },
    ⟨⟨by decide, by decide, by decide, by decide⟩, by decide, by decide, by decide⟩⟩

/-- The categories 63 and 128; the map between them is missing. -/
def farCats : FileBitmap :=
  ⟨{ node := [⟨0, 0x8000000000000000#64⟩, ⟨128, 1#64⟩], highbit := 192 },
    ⟨⟨by decide, by decide, by decide, by decide⟩, by decide, by decide, by decide⟩⟩

/-- One sensitivity with these categories. -/
def oneLevel (cat : FileBitmap) : Symtab (symtabSizes 6) LevelDatum where
  table := { entries := [(⟨[0x73#8, 0x30#8], by decide, by decide⟩, { level := { sens := 1#32, cat } })] }
  nprim := 1#32

theorem oneLevel_associated {cat : FileBitmap}
    (hlev : ((levelOf nothingPast (oneLevel cat) 1#32).run.map fun e => e.1.level.cat.1) = some cat.1)
    (hcats : ∀ i ∈ Db.ebitmapBits cat.1, Db.ebitmapGetBit cat.1 i = true) :
    Associated nothingPast (oneLevel cat) { sens := 1#32, cat } := by
  obtain ⟨⟨lev, w⟩, hgives, heq⟩ := Option.map_eq_some_iff.mp hlev
  have hcat : lev.level.cat.1 = cat.1 := heq
  refine ⟨show 1#32 ≠ 0#32 by decide, lev, w, hgives, ?_⟩
  rw [hcat]
  exact hcats

theorem nextCats_expand : (∀ i, i ∈ Db.ebitmapBits nextCats.1 ↔ i = 62 ∨ i = 63 ∨ i = 64 ∨ i = 65) ∧
    ∃ l' w, Noted.Gives (mlsSemanticLevelExpand nothingPast (oneLevel nextCats) true
      (mlsLevelToSemantic { sens := 1#32, cat := nextCats }))
      l' w ∧ l'.sens = 1#32 ∧ ∀ i, i ∈ Db.ebitmapBits l'.cat.1 ↔ i ∈ Db.ebitmapBits nextCats.1 := by
  have hbits : Db.ebitmapBits nextCats.1 = [62, 63, 64, 65] := by decide +kernel
  have hmem : ∀ i, i ∈ Db.ebitmapBits nextCats.1 ↔ i = 62 ∨ i = 63 ∨ i = 64 ∨ i = 65 := by
    intro i
    rw [hbits]
    simp
  refine ⟨hmem, (mlsLevelToSemantic_expand_iff (oneLevel_associated (by decide +kernel) ?_)).mpr ?_⟩
  · rw [hbits]
    decide +kernel
  · intro hbridged
    obtain ⟨a, s, -, hs⟩ := hbridged
    -- a map that is missing would lie before bit 65
    obtain ⟨j, hlow, -, hj⟩ := hs.next
    have hfar := hs.far
    have hstart := hs.start
    have hlast := hs.last
    have hj := (hmem j).mp hj
    simp only [Db.mapsize] at *
    omega

/-- The range of the two categories has all those between them. -/
theorem farCats_refused : Associated nothingPast (oneLevel farCats) { sens := 1#32, cat := farCats } ∧
    (mlsLevelToSemantic { sens := 1#32, cat := farCats }).cat = [⟨64#32, 129#32⟩] ∧
    (mlsSemanticLevelExpand nothingPast (oneLevel farCats) true
      (mlsLevelToSemantic { sens := 1#32, cat := farCats })).run.isNone = true := by
  have hbits : Db.ebitmapBits farCats.1 = [63, 128] := by decide +kernel
  refine ⟨oneLevel_associated (by decide +kernel) ?_, by decide +kernel, by decide +kernel⟩
  rw [hbits]
  decide +kernel

end SELinux.File
