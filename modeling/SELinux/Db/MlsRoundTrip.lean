/-
  SELinux.Db.MlsRoundTrip — ranges as text and back (`libsepol/src/mls.c`:
  `mls_sid_to_context`, `mls_context_to_sid`).

  The writer goes through the categories of a level with `ebitmap_for_each_bit` and counts runs
  of set bits. A run of one is written as its category, a run of two as two categories, and a
  longer one as a range from its first category to the one before the position at which the run
  ends. The iterator jumps over maps that are missing, so the bits on both sides of a gap count
  as one run, and the position before the end of a run may lie in the gap.

  Proved: `mlsLevelText_eq`, the text of a level is the name of its sensitivity and the pieces
  of its runs; `foldlM_setPiece`, the parser reads each run back as what was written for it.
  `mlsContextToSid_iff`: a range of a valid context is read back as it was exactly if each gap
  behind a category of its levels is harmless (`Harmless`): the category begins its run, and the
  run has at most one category beyond the gap.
-/
import SELinux.Db.MlsText
import SELinux.Db.Positions

namespace SELinux.Db

open Lib.Runs List Bitmap

variable {p : Policydb} {l : MlsLevel} {i : Nat}

/-! ## The text of a level -/

section Text

variable (p : Policydb)

/-- What is written for a run. -/
def runPieces (r : Run) : List Name :=
  match r.rest with
  | [] => [catName p r.first]
  | [_] => [catName p r.first, catName p (r.stop - 1)]
  | _ :: _ :: _ => [catName p r.first ++ '.' :: catName p (r.stop - 1)]

/-- Pieces with their separators, a colon before the first one. -/
def withSeps (wrote : Bool) : List Name → Name
  | [] => []
  | piece :: pieces => (if wrote then ',' else ':') :: (piece ++ withSeps true pieces)

theorem withSeps_append (wrote : Bool) (l l' : List Name) (h : l ≠ []) :
    withSeps wrote (l ++ l') = withSeps wrote l ++ withSeps true l' := by
  induction l generalizing wrote with
  | nil => exact absurd rfl h
  | cons a l ih =>
    cases l with
    | nil => simp [withSeps]
    | cons b l =>
      rw [cons_append, withSeps, ih true (cons_ne_nil _ _), withSeps.eq_2 wrote a (b :: l)]
      simp

theorem runPieces_ne_nil (r : Run) : runPieces p r ≠ [] := by
  unfold runPieces
  split <;> exact cons_ne_nil _ _

/-- The text so far, with the run that is open. -/
def catText (cur : Option (Nat × List Nat)) (wrote : Bool) (text : Name) : CatText :=
  match cur with
  | none => { range := 0, wroteSep := wrote, text }
  | some c => { range := c.2.length + 1, wroteSep := true, text := text ++ (if wrote then ',' else ':') :: catName p c.1 }

theorem close_catText (c : Nat × List Nat) (wrote : Bool) (text : Name) (i : Nat) :
    (catText p (some c) wrote text).close p i =
      catText p none true (text ++ withSeps wrote (runPieces p ⟨c.1, c.2, i⟩)) := by
  obtain ⟨first, rest⟩ := c
  match rest with
  | [] => simp [catText, CatText.close, runPieces, withSeps]
  | [x] => simp [catText, CatText.close, runPieces, withSeps]
  | x :: y :: l => simp [catText, CatText.close, runPieces, withSeps]

/-- By induction on the walk: the text is that of the runs closed so far. -/
theorem foldl_catText (high : Nat) (ps : List (Nat × Bool)) (cur : Option (Nat × List Nat)) (wrote : Bool) (text : Name) :
    ((ps.foldl (CatText.visit p) (catText p cur wrote text)).close p high).text =
      text ++ withSeps wrote ((runsFrom high cur ps).flatMap (runPieces p)) := by
  fun_induction runsFrom high cur ps generalizing wrote text with
  | case1 => simp [catText, CatText.close, withSeps]
  | case2 c =>
    rw [foldl_nil, close_catText, flatMap_singleton]
    rfl
  | case3 i ps ih | case4 i ps ih => exact ih wrote text
  | case5 c i ps ih =>
    have hvisit : CatText.visit p (catText p (some c) wrote text)
        (i, true) = catText p (some (c.1, c.2 ++ [i])) wrote text := by
      simp [catText, CatText.visit]
    rw [foldl_cons, hvisit, ih]
  | case6 c i ps ih =>
    have hvisit : CatText.visit p (catText p (some c) wrote text)
      (i, false) = (catText p (some c) wrote text).close p i := rfl
    rw [foldl_cons, hvisit, close_catText, ih, flatMap_cons, withSeps_append _ _ _ (runPieces_ne_nil p _), append_assoc]

/-- The runs of the bits of a bitmap. -/
def bitRuns (e : Bitmap) : List Run := runs e.1.highbit (ebitmapPositions e.1)

def MlsLevel.pieces (l : MlsLevel) : List Name := (bitRuns l.cat).flatMap (runPieces p)

theorem mlsLevelText_eq (l : MlsLevel) :
    mlsLevelText p l = (p.pLevels.name? l.sens).getD [] ++ withSeps false (l.pieces p) := by
  unfold mlsLevelText
  rw [show ({} : CatText) = catText p none false [] from rfl, foldl_catText, nil_append]
  rfl

end Text

/-! ## Cutting the text -/

variable {rest : Name}

theorem cutAt_append {sep : Char → Bool} {a : Name} (ha : ∀ c ∈ a, sep c = false) (hrest : ∀ c ∈ rest.head?, sep c = true) :
    cutAt sep (a ++ rest) = (a, rest) := by
  have hkeep : ∀ c ∈ a, (!sep c) = true := by
    intro c hc
    rw [ha c hc]
    rfl
  unfold cutAt
  rw [takeWhile_append_of_pos hkeep, dropWhile_append_of_pos hkeep]
  cases rest with
  | nil => simp
  | cons c rest =>
    have hsep : sep c = true := hrest c rfl
    simp [hsep]

/-- A name without separators. -/
def NoSeps (name : Name) : Prop := ∀ c ∈ name, c ≠ ':' ∧ c ≠ ',' ∧ c ≠ '.' ∧ c ≠ '-'

theorem catPieces_append {piece left : Name} {pieces : List Name} (hcomma : ',' ∉ piece) (hdash : '-' ∉ piece)
    (hrest : catPieces rest = ([] :: pieces, left)) : catPieces (piece ++ rest) = (piece :: pieces, left) := by
  induction piece with
  | nil => exact hrest
  | cons c piece ih =>
    obtain ⟨hc, hcomma⟩ := not_or.mp (mem_cons.not.mp hcomma)
    obtain ⟨hc', hdash⟩ := not_or.mp (mem_cons.not.mp hdash)
    rw [cons_append, catPieces, if_neg (Ne.symm hc'), ih hcomma hdash]
    exact if_neg (Ne.symm hc)

/-- The parser finds the pieces that were written, up to a dash or the end. -/
theorem catPieces_eq {piece : Name} {pieces : List Name} (hpieces : ∀ q ∈ piece :: pieces, ',' ∉ q ∧ '-' ∉ q)
    (hrest : ∀ c ∈ rest.head?, c = '-') : catPieces (piece ++ withSeps true pieces ++ rest) = (piece :: pieces, rest) := by
  induction pieces generalizing piece with
  | nil =>
    obtain ⟨⟨hcomma, hdash⟩, -⟩ := forall_mem_cons.mp hpieces
    rw [withSeps, append_nil]
    refine catPieces_append hcomma hdash ?_
    cases rest with
    | nil => rfl
    | cons c rest =>
      obtain rfl : c = '-' := hrest c rfl
      rfl
  | cons next pieces ih =>
    obtain ⟨⟨hcomma, hdash⟩, htail⟩ := forall_mem_cons.mp hpieces
    rw [append_assoc]
    refine catPieces_append hcomma hdash ?_
    rw [withSeps, cons_append, catPieces, ih htail]
    rfl

/-! ## The policy -/

/-- An MLS policy in which each category has a name, sensitivities have only categories that are
    there, and no name has a separator in it. -/
structure MlsNames (p : Policydb) : Prop where
  mls : p.mls = true
  sens : ∀ o ∈ p.pLevels.valToName, ∀ name ∈ o, NoSeps name
  cats : ∀ o ∈ p.pCats.valToName, ∃ name ∈ o, NoSeps name
  known : ∀ e ∈ p.pLevels.table, ∀ i ∈ e.2.level.cat.bits, i < p.pCats.nprim

section Names

variable {p : Policydb} (hp : MlsNames p)
include hp

theorem noSeps_sens {v : Nat} {name : Name} (h : p.pLevels.name? v = some name) : NoSeps name :=
  hp.sens _ (mem_of_getElem? (Symtab.getElem?_of_name? h).2) name rfl

/-- A category is found under the name it is written with. -/
theorem search_catName (hi : i < p.pCats.nprim) :
    NoSeps (catName p i) ∧ ∃ d, p.pCats.search (catName p i) = some d ∧ d.value = i + 1 := by
  obtain ⟨name, ho, hfree⟩ := hp.cats _ (getElem_mem hi)
  have hname : p.pCats.name? (i + 1) = some name := by
    unfold Symtab.name?
    rw [getD_eq_getElem?_getD, Nat.add_sub_cancel, List.getElem?_eq_getElem hi]
    exact ho
  have hcat : catName p i = name := by
    unfold catName
    rw [hname]
    rfl
  rw [hcat]
  exact ⟨hfree, Symtab.exists_of_name? hname⟩

/-! ## Pieces read back -/

theorem cutAt_catName (hi : i < p.pCats.nprim) (rest : Name) (hrest : ∀ c ∈ rest.head?, c = '.') :
    cutAt (· == '.') (catName p i ++ rest) = (catName p i, rest) := by
  refine cutAt_append ?_ ?_
  · intro c hc
    exact beq_eq_false_iff_ne.mpr ((search_catName hp hi).1 c hc).2.2.1
  · intro c hc
    exact beq_iff_eq.mpr (hrest c hc)

theorem setPiece_one (hi : i < p.pCats.nprim) (cat : Bitmap) : setPiece p cat (catName p i) = cat.setBit i true := by
  obtain ⟨-, d, hd, hv⟩ := search_catName hp hi
  have hcut := cutAt_catName hp hi [] nofun
  rw [append_nil] at hcut
  unfold setPiece
  simp only [hcut, hd, catBit_succ hv, Option.bind_eq_bind, Option.bind_some, Option.pure_def, Option.bind_fun_some]

theorem setPiece_range {i j : Nat} (hi : i < p.pCats.nprim) (hj : j < p.pCats.nprim) (hlt : i < j) (cat : Bitmap) :
    setPiece p cat (catName p i ++ '.' :: catName p j) =
      (List.range' i (j + 1 - i)).foldlM (fun cat i => cat.setBit i true) cat := by
  obtain ⟨-, d, hd, hv⟩ := search_catName hp hi
  obtain ⟨-, d', hd', hv'⟩ := search_catName hp hj
  have hcut := cutAt_catName hp hi ('.' :: catName p j) fun c hc => (Option.some.inj hc).symm
  have hlen : j + 1 - i = (j + 1 - (i + 1)) + 1 := by omega
  have hle : ¬j + 1 ≤ i + 1 := by omega
  unfold setPiece setRange
  rw [hlen, range'_succ, foldlM_cons]
  simp only [hcut, hd, catBit_succ hv, hv, hd', hv', Option.bind_eq_bind, Option.bind_some, if_neg hle]

end Names

/-- The categories that what is written for a run stands for. -/
def runCats (r : Run) : List Nat :=
  match r.rest with
  | [] => [r.first]
  | [_] => [r.first, r.stop - 1]
  | _ :: _ :: _ => List.range' r.first (r.stop - r.first)

/-- What the parser needs to know about a run. -/
structure Readback (p : Policydb) (r : Run) : Prop where
  up : (r.positions ++ [r.stop]).IsChain (· < ·)
  named : r.stop - 1 < p.pCats.nprim
  narrow : ∀ i < r.stop, i - i % mapsize + mapsize < 2 ^ 32

theorem runCats_bounds {r : Run} (hr : Readback p r) : ∀ i ∈ runCats r, r.first ≤ i ∧ i < r.stop := by
  have hfirst := (Run.mem_bounds hr.up (mem_cons_self : r.first ∈ r.positions)).2
  intro i hi
  unfold runCats at hi
  split at hi
  · obtain rfl := mem_singleton.mp hi
    omega
  · simp only [mem_cons, not_mem_nil, or_false] at hi
    omega
  · rw [mem_range'_1] at hi
    omega

section Parse

variable {p : Policydb} (hp : MlsNames p)
include hp

/-- One run read back. -/
theorem foldlM_runPieces {r : Run} (hr : Readback p r) (cat : Bitmap) :
    (runPieces p r).foldlM (setPiece p) cat = (runCats r).foldlM (fun cat i => cat.setBit i true) cat := by
  have hnamed := hr.named
  have hfirst := (Run.mem_bounds hr.up (mem_cons_self : r.first ∈ r.positions)).2
  have hone := setPiece_one hp (show r.first < p.pCats.nprim by omega)
  unfold runPieces runCats
  match hrest : r.rest with
  | [] => simp only [foldlM_cons, foldlM_nil, hone]
  | [_] => simp only [foldlM_cons, foldlM_nil, hone, setPiece_one hp hnamed]
  | x :: _ :: _ =>
    have hx : x ∈ r.positions := mem_cons_of_mem _ (hrest ▸ mem_cons_self)
    have hup := hr.up
    rw [Run.positions, hrest] at hup
    have hlt : r.first < x := (isChain_cons_cons.mp hup).1
    have hxstop := (Run.mem_bounds hr.up hx).2
    rw [foldlM_cons, setPiece_range hp (by omega) hnamed (by omega),
      show r.stop - 1 + 1 - r.first = r.stop - r.first by omega]
    simp

/-- The pieces of runs set what the runs stand for. -/
theorem foldlM_setPiece {l : List Run} (h : ∀ r ∈ l, Readback p r) (cat : Bitmap) :
    ∃ cat', (l.flatMap (runPieces p)).foldlM (setPiece p) cat = some cat' ∧
      ∀ i, cat'.has i = true ↔ cat.has i = true ∨ ∃ r ∈ l, i ∈ runCats r := by
  induction l generalizing cat with
  | nil => exact ⟨cat, rfl, fun i => by simp⟩
  | cons r l ih =>
    obtain ⟨hr, hl⟩ := forall_mem_cons.mp h
    obtain ⟨cat1, hcat1⟩ := setBits_isSome (fun i hi => hr.narrow i (runCats_bounds hr i hi).2) cat
    obtain ⟨cat', hcat', hhas⟩ := ih hl cat1
    refine ⟨cat', ?_, ?_⟩
    · rw [flatMap_cons, foldlM_append, foldlM_runPieces hp hr, hcat1]
      exact hcat'
    · intro i
      rw [hhas, has_setBits hcat1]
      simp [or_assoc]

end Parse

/-! ## Gaps -/

/-- Behind a category maps are missing. The category begins its run, and of the categories
    beyond the gap at most one belongs to the run. -/
def Harmless (H : Nat → Prop) : Prop := ∀ a s, H a → MissingMaps H a s → ¬H (a - 1) ∧ ¬(H s ∧ H (s + 1))

variable {a : Nat}

section Gaps

variable {e : Bitmap}

theorem Bitmap.up : Up e.1.highbit (ebitmapPositions e.1) := up_positions e.2.toNodesWF (Nat.le_of_eq e.2.high.symm)

theorem Bitmap.has_iff : e.has i = true ↔ ∃ r ∈ bitRuns e, i ∈ r.positions := by
  rw [← mem_bits, bits, ← setPositions_positions]
  exact mem_setPositions _

theorem Bitmap.holds_iff : Holds e.1.node i ↔ e.has i = true := (getBit_iff e.2 i).symm

variable {r : Run} (hr : r ∈ bitRuns e)
include hr

theorem bitRun_up : (r.positions ++ [r.stop]).IsChain (· < ·) := chain_runs Bitmap.up r hr

theorem bitRun_follows {b : Nat} (h : r.Step a b) : Follows (e.has · = true) a b :=
  (follows_of_step e.2.toNodesWF (Nat.le_of_eq e.2.high.symm) hr h).congr fun _ _ => holds_iff

/-- The last bit of a map follows the bit before it. -/
theorem pred_of_mem_rest (ha : a ∈ r.rest) (hlast : (a + 1) % mapsize = 0) : e.has (a - 1) = true := by
  obtain ⟨b, hb⟩ := Run.exists_pred ha
  have hmem : e.has b = true := has_iff.mpr ⟨r, hr, Run.mem_of_step hb⟩
  rcases bitRun_follows hr hb with h | h
  · have hstart := h.start
    simp only [mapsize] at *
    omega
  · obtain rfl := h.1
    exact hmem

/-- Bits before the last one of a map are in its run. -/
theorem mem_of_pred (ha : a ∈ r.positions) (hlast : (a + 1) % mapsize = 0) (hpred : e.has (a - 1) = true) :
    a - 1 ∈ r.positions := by
  obtain ⟨r', hr', hmem⟩ := has_iff.mp hpred
  obtain ⟨b, hb⟩ := Run.exists_step hmem
  have hset : a ∈ setPositions (ebitmapPositions e.1) := (mem_setPositions _).mpr ⟨r, hr, ha⟩
  rcases bitRun_follows hr' hb with h | h
  · have hlast' := h.last
    simp only [mapsize] at *
    omega
  · have hba : b = a := by
      simp only [mapsize] at hlast
      omega
    rw [hba] at hb
    rw [Run.eq_of_mem Bitmap.up hr hr' ha (Run.step_mem Bitmap.up hr' hb hset)]
    exact hmem

/-- From the first bit of a map the walk goes on by one. -/
theorem step_of_start {b : Nat} (h : r.Step a b) (hstart : a % mapsize = 0) : b = a + 1 := by
  rcases bitRun_follows hr h with h | h
  · have hlast := h.last
    simp only [mapsize] at *
    omega
  · exact h.1

theorem not_has_stop : e.has r.stop ≠ true := by
  intro h
  refine stop_not_set Bitmap.up hr ((mem_setPositions e.1.highbit).mpr ?_)
  exact has_iff.mp h

/-- Two bits are read back if the second one is not before a gap. -/
theorem two_iff {x : Nat} (hrest : r.rest = [x]) : (∀ i, i ∈ runCats r ↔ i ∈ r.positions) ↔ r.stop = x + 1 := by
  have hup := bitRun_up hr
  have hpos : r.positions = [r.first, x] := by rw [Run.positions, hrest]
  have hcats : runCats r = [r.first, r.stop - 1] := by
    unfold runCats
    rw [hrest]
  rw [hpos] at hup
  have hlt : r.first < x := (isChain_cons_cons.mp hup).1
  rw [hpos, hcats]
  constructor
  · intro h
    have hmem := (h x).mpr (by simp)
    simp only [mem_cons, not_mem_nil, or_false] at hmem
    omega
  · intro h i
    rw [h, Nat.add_sub_cancel]

/-- Longer runs are read back if the walk has no gap on them. -/
theorem many_iff {x y : Nat} {l : List Nat} (hrest : r.rest = x :: y :: l) :
    (∀ i, i ∈ runCats r ↔ i ∈ r.positions) ↔ ∀ a b, r.Step a b → b = a + 1 := by
  have hlt := (Run.mem_bounds (bitRun_up hr) (mem_cons_self : r.first ∈ r.positions)).2
  rw [← Run.tight_iff (bitRun_up hr)]
  refine forall_congr' fun i => ?_
  have hcats : runCats r = List.range' r.first (r.stop - r.first) := by
    unfold runCats
    rw [hrest]
  rw [hcats, mem_range'_1, Nat.add_sub_cancel' (Nat.le_of_lt hlt)]

/-- What is written for a run stands for its categories if gaps are harmless. -/
theorem runCats_of_harmless (h : Harmless (e.has · = true)) (i : Nat) : i ∈ runCats r ↔ i ∈ r.positions := by
  have hpred : ∀ a ∈ r.rest, ∀ s, ¬MissingMaps (e.has · = true) a s := by
    intro a ha s hs
    have hmem : e.has a = true := has_iff.mpr ⟨r, hr, mem_cons_of_mem _ ha⟩
    exact (h a s hmem hs).1 (pred_of_mem_rest hr ha hs.last)
  match hrest : r.rest with
  | [] =>
    unfold runCats Run.positions
    rw [hrest]
  | [x] =>
    refine (two_iff hr hrest).mpr ?_ i
    have hstep : r.Step x r.stop := ⟨[r.first], [], by rw [Run.positions, hrest]; rfl⟩
    rcases bitRun_follows hr hstep with hs | hs
    · exact absurd hs (hpred x (hrest ▸ mem_cons_self) r.stop)
    · exact hs.1
  | x :: y :: l =>
    refine (many_iff hr hrest).mpr ?_ i
    intro a b hab
    rcases bitRun_follows hr hab with hs | hs
    · rcases mem_cons.mp (Run.mem_of_step hab) with rfl | ha
      · -- the gap is behind the first category; the next two ones lie beyond it
        have hfirst : r.Step r.first x := ⟨[], y :: l ++ [r.stop], by rw [Run.positions, hrest]; rfl⟩
        have hsecond : r.Step x y := ⟨[r.first], l ++ [r.stop], by rw [Run.positions, hrest]; rfl⟩
        obtain rfl := (bitRun_follows hr hfirst).eq_of_missing hs
        obtain rfl := step_of_start hr hsecond hs.start
        have hx : e.has x = true := has_iff.mpr ⟨r, hr, Run.mem_of_step hsecond⟩
        have hy : e.has (x + 1) = true := has_iff.mpr ⟨r, hr, by rw [Run.positions, hrest]; simp⟩
        have hmem : e.has r.first = true := has_iff.mpr ⟨r, hr, mem_cons_self⟩
        exact absurd ⟨hx, hy⟩ (h r.first x hmem hs).2
      · exact absurd hs (hpred a ha b)
    · exact hs.1

/-- A gap on a run that is read back. -/
theorem harmless_of_runCats (h : ∀ i, i ∈ runCats r ↔ i ∈ r.positions) {s : Nat} (ha : a ∈ r.positions)
    (hs : MissingMaps (e.has · = true) a s) : ¬e.has (a - 1) = true ∧ ¬(e.has s = true ∧ e.has (s + 1) = true) := by
  have hfar := hs.far
  obtain ⟨b, hab⟩ := Run.exists_step ha
  obtain rfl := (bitRun_follows hr hab).eq_of_missing hs
  -- the gap is behind the first category
  have hfirst : a = r.first ∧ r.rest.length ≤ 1 := by
    match hrest : r.rest with
    | [] =>
      rw [Run.positions, hrest] at ha
      exact ⟨mem_singleton.mp ha, Nat.zero_le 1⟩
    | [x] =>
      rw [Run.positions, hrest] at ha
      rcases mem_cons.mp ha with ha | ha
      · exact ⟨ha, Nat.le_refl 1⟩
      · obtain rfl := mem_singleton.mp ha
        have hstop := (two_iff hr hrest).mp h
        have hstep : r.Step a r.stop := ⟨[r.first], [], by rw [Run.positions, hrest]; rfl⟩
        have := (bitRun_follows hr hstep).eq_of_missing hs
        omega
    | x :: y :: l =>
      have := (many_iff hr hrest).mp h a b hab
      omega
  obtain ⟨rfl, hlen⟩ := hfirst
  have hlast := hs.last
  refine ⟨?_, ?_⟩
  · intro hpred
    have := (Run.mem_bounds (bitRun_up hr) (mem_of_pred hr ha hlast hpred)).1
    simp only [mapsize] at hlast
    omega
  · intro hnext
    have hmem : b ∈ r.positions :=
      Run.step_mem Bitmap.up hr hab ((mem_setPositions e.1.highbit).mpr (has_iff.mp hnext.1))
    rcases mem_cons.mp hmem with hb | hb
    · omega
    · match hrest : r.rest with
      | [] =>
        rw [hrest] at hb
        cases hb
      | [x] =>
        rw [hrest] at hb
        obtain rfl := mem_singleton.mp hb
        refine not_has_stop hr ?_
        rw [(two_iff hr hrest).mp h]
        exact hnext.2
      | x :: y :: l =>
        rw [hrest] at hlen
        simp at hlen

/-- A run ends before the end of a gap, or behind its last bit. -/
theorem stop_pred_lt {bound : Nat} (h : ∀ i, e.has i = true → i < bound) : r.stop - 1 < bound := by
  obtain ⟨a, ha⟩ := Run.exists_last r
  rcases bitRun_follows hr ha with hs | hs
  · obtain ⟨j, hlow, -, hj⟩ := hs.next
    have := h j hj
    omega
  · have := h a (has_iff.mpr ⟨r, hr, Run.mem_of_step ha⟩)
    omega

theorem bitRun_readback (h : ∀ i, e.has i = true → i < p.pCats.nprim) : Readback p r where
  up := bitRun_up hr
  named := stop_pred_lt hr h
  narrow := fun _ hi => e.2.lt_highbit (Nat.lt_of_lt_of_le hi (Run.bounds Bitmap.up hr).2)

end Gaps

theorem harmless_iff {e : Bitmap} : (∀ r ∈ bitRuns e, ∀ i, i ∈ runCats r ↔ i ∈ r.positions) ↔ Harmless (e.has · = true) := by
  constructor
  · intro h a s ha hs
    obtain ⟨r, hr, hmem⟩ := has_iff.mp ha
    exact harmless_of_runCats hr (h r hr) hmem hs
  · intro h r hr
    exact runCats_of_harmless hr h

/-! ## Levels and ranges read back -/

section Levels

variable {p : Policydb} (hp : MlsNames p)
include hp

/-- What is known of a valid level. -/
theorem level_of_isvalid (h : mlsLevelIsvalid p l = true) :
    (∃ name d, p.pLevels.name? l.sens = some name ∧ p.pLevels.search name = some d ∧ d.level.sens = l.sens) ∧
      ∀ i, l.cat.has i = true → i < p.pCats.nprim := by
  unfold mlsLevelIsvalid at h
  split at h
  · cases h
  · cases hname : p.pLevels.name? l.sens with
    | none =>
      rw [hname] at h
      cases h
    | some name =>
      obtain ⟨d, hd, hv⟩ := Symtab.exists_of_name? hname
      rw [hname, Option.bind_some, hd] at h
      refine ⟨⟨name, d, rfl, hd, hv⟩, ?_⟩
      intro i hi
      have hhas := all_eq_true.mp h i (mem_bits.mpr hi)
      rw [Bool.and_eq_true] at hhas
      exact hp.known _ (Symtab.mem_of_search hd) i (mem_bits.mpr hhas.2)

/-- The pieces of a level have no comma and no dash in them. -/
theorem pieces_free (h : ∀ i, l.cat.has i = true → i < p.pCats.nprim) : ∀ q ∈ l.pieces p, ',' ∉ q ∧ '-' ∉ q := by
  intro q hq
  obtain ⟨r, hr, hq⟩ := mem_flatMap.mp hq
  have hread := bitRun_readback hr h
  have hlt := (Run.mem_bounds hread.up (mem_cons_self : r.first ∈ r.positions)).2
  have hnamed := hread.named
  have hfree : ∀ i < p.pCats.nprim, ',' ∉ catName p i ∧ '-' ∉ catName p i := by
    intro i hi
    have hno := (search_catName hp hi).1
    exact ⟨fun hc => (hno _ hc).2.1 rfl, fun hc => (hno _ hc).2.2.2 rfl⟩
  have hfirst := hfree r.first (by omega)
  have hlast := hfree (r.stop - 1) hnamed
  unfold runPieces at hq
  split at hq
  · obtain rfl := mem_singleton.mp hq
    exact hfirst
  · rcases mem_cons.mp hq with rfl | hq
    · exact hfirst
    · obtain rfl := mem_singleton.mp hq
      exact hlast
  · obtain rfl := mem_singleton.mp hq
    simp [hfirst, hlast]

/-- A level is read back with the categories that its runs stand for. -/
theorem readLevel_text (h : mlsLevelIsvalid p l = true) :
    ∃ name cat, mlsLevelText p l = name ++ withSeps false (l.pieces p) ∧ NoSeps name ∧
      (∀ i, cat.has i = true ↔ ∃ r ∈ bitRuns l.cat, i ∈ runCats r) ∧
      ∀ rest : Name, (∀ c ∈ rest.head?, c = '-') →
        readLevel p name (withSeps false (l.pieces p) ++ rest) = some ({ sens := l.sens, cat }, rest) := by
  obtain ⟨⟨name, d, hname, hd, hsens⟩, hcats⟩ := level_of_isvalid hp h
  obtain ⟨cat, hcat, hhas⟩ := foldlM_setPiece hp (fun r hr => bitRun_readback hr hcats) Bitmap.empty
  refine ⟨name, cat, ?_, noSeps_sens hp hname, ?_, ?_⟩
  · rw [mlsLevelText_eq, hname]
    rfl
  · intro i
    rw [hhas, has_empty]
    simp
  · intro rest hrest
    have hfree := pieces_free hp hcats
    have hfold : (l.pieces p).foldlM (setPiece p) Bitmap.empty = some cat := hcat
    unfold readLevel
    rw [hd]
    cases hpieces : l.pieces p with
    | nil =>
      rw [hpieces] at hfold
      cases hfold
      cases rest with
      | nil =>
        rw [← hsens]
        rfl
      | cons c rest =>
        obtain rfl : c = '-' := hrest c rfl
        rw [← hsens]
        rfl
    | cons piece pieces =>
      rw [hpieces] at hfree hfold
      have hcut := catPieces_eq hfree hrest
      simp only [withSeps, Bool.false_eq_true, if_false, cons_append, Option.bind_eq_bind, Option.bind_some, hcut,
        hfold, hsens, Option.pure_def]

end Levels

/-- A level that is written and read is the same exactly if its gaps are harmless. -/
theorem readCats_iff {cat : Bitmap} (h : ∀ i, cat.has i = true ↔ ∃ r ∈ bitRuns l.cat, i ∈ runCats r)
    (hcats : ∀ i, l.cat.has i = true → i < p.pCats.nprim) : cat = l.cat ↔ Harmless (l.cat.has · = true) := by
  have hcover := cover_iff (P := fun r i => i ∈ runCats r) (l.cat.up) fun r hr i hi =>
    runCats_bounds (bitRun_readback hr hcats) i hi
  rw [← harmless_iff]
  refine Iff.trans ?_ hcover
  rw [setPositions_positions]
  constructor
  · intro heq i
    rw [← heq] at h ⊢
    exact (h i).symm.trans mem_bits.symm
  · intro hall
    refine Bitmap.ext fun i => ?_
    rw [Bool.eq_iff_iff, h]
    exact (hall i).trans mem_bits

theorem cutAt_sens (sep : Char → Bool) (hcolon : sep ':' = true) (hsep : ∀ c, sep c = true → c = ':' ∨ c = '-') {name : Name}
    (hname : NoSeps name) (pieces : List Name) (rest : Name) (hrest : ∀ c ∈ rest.head?, sep c = true) :
    cutAt sep (name ++ (withSeps false pieces ++ rest)) = (name, withSeps false pieces ++ rest) := by
  refine cutAt_append ?_ ?_
  · intro c hc
    rw [Bool.eq_false_iff]
    intro htrue
    rcases hsep c htrue with rfl | rfl
    · exact (hname _ hc).1 rfl
    · exact (hname _ hc).2.2.2 rfl
  · cases pieces with
    | nil => exact hrest
    | cons piece pieces =>
      intro c hc
      obtain rfl : ':' = c := Option.some.inj hc
      exact hcolon

/-- One level, which is copied. -/
theorem mlsContextToSid_one {s sens : Name} (hcut : cutAt (fun c => c == ':' || c == '-') s = (sens, rest))
    (hread : readLevel p sens rest = some (l, [])) : mlsContextToSid p s = some { low := l, high := l } := by
  unfold mlsContextToSid
  simp only [hcut, hread, Option.bind_eq_bind, Option.bind_some, Option.pure_def]

theorem mlsContextToSid_two {s sens s' sens' rest' left : Name} {low high : MlsLevel}
    (hcut : cutAt (fun c => c == ':' || c == '-') s = (sens, rest))
    (hread : readLevel p sens rest = some (low, '-' :: s')) (hcut' : cutAt (· == ':') s' = (sens', rest'))
    (hread' : readLevel p sens' rest' = some (high, left)) : mlsContextToSid p s = some { low, high } := by
  unfold mlsContextToSid
  simp only [hcut, hread, hcut', hread', Option.bind_eq_bind, Option.bind_some, Option.pure_def]

theorem levels_of_isvalid (hmls : p.mls = true) {c : Context} (h : mlsContextIsvalid p c = true) :
    mlsLevelIsvalid p c.range.low = true ∧ mlsLevelIsvalid p c.range.high = true := by
  unfold mlsContextIsvalid at h
  split_ifs at h with hno _ hvalid
  · simp [hmls] at hno
  all_goals simpa using hvalid

/-- The text of a valid range is read, and gives for each level what its pieces stand for. -/
theorem mlsContextToSid_text (hp : MlsNames p) {c : Context} (h : mlsContextIsvalid p c = true) :
    ∃ low high, mlsContextToSid p ((mlsSidToContext p c).drop 1) = some { low, high } ∧
      (low = c.range.low ↔ Harmless (c.range.low.cat.has · = true)) ∧
      (high = c.range.high ↔ Harmless (c.range.high.cat.has · = true)) := by
  obtain ⟨hlow, hhigh⟩ := levels_of_isvalid hp.mls h
  obtain ⟨name, cat, htext, hfree, hcat, hread⟩ := readLevel_text hp hlow
  obtain ⟨name', cat', htext', hfree', hcat', hread'⟩ := readLevel_text hp hhigh
  have hsame : ∀ {l : MlsLevel} {cat : Bitmap}, ({ sens := l.sens, cat } : MlsLevel) = l ↔ cat = l.cat := by
    intro l cat
    cases l
    simp
  have hiff := hsame.trans (readCats_iff hcat (level_of_isvalid hp hlow).2)
  have hiff' := hsame.trans (readCats_iff hcat' (level_of_isvalid hp hhigh).2)
  have hmls : (!p.mls) = false := by rw [hp.mls]; rfl
  unfold mlsSidToContext
  rw [hmls]
  by_cases heq : mlsLevelEq c.range.low c.range.high = true
  · have hcut := cutAt_sens (fun c => c == ':' || c == '-') rfl (by simp) hfree (c.range.low.pieces p) [] nofun
    have hlevels := mlsLevelEq_iff.mp heq
    refine ⟨{ sens := c.range.low.sens, cat }, { sens := c.range.low.sens, cat }, ?_, hiff, ?_⟩
    · refine mlsContextToSid_one ?_ (hread [] nofun)
      rw [if_pos heq, htext, ← hcut]
      simp
    · rw [← hlevels]
      exact hiff
  · have hdash : ∀ x ∈ ('-' :: mlsLevelText p c.range.high).head?, x = '-' := fun x hx => (Option.some.inj hx).symm
    have hcut := cutAt_sens (fun c => c == ':' || c == '-') rfl (by simp) hfree (c.range.low.pieces p)
      ('-' :: mlsLevelText p c.range.high) fun x hx => by simp [hdash x hx]
    have hcut' := cutAt_sens (· == ':') rfl (fun c hc => Or.inl (beq_iff_eq.mp hc)) hfree' (c.range.high.pieces p) [] nofun
    refine ⟨_, _, ?_, hiff, hiff'⟩
    refine mlsContextToSid_two ?_ (hread _ hdash) ?_ (hread' [] nofun)
    · rw [if_neg heq, htext, ← hcut]
      simp
    · rw [htext', ← hcut', append_nil]

/-- A range is read back as it was written exactly if the gaps in both levels are harmless. -/
theorem mlsContextToSid_iff {p : Policydb} (hp : MlsNames p) {c : Context} (h : mlsContextIsvalid p c = true) :
    mlsContextToSid p ((mlsSidToContext p c).drop 1) = some c.range ↔
      Harmless (c.range.low.cat.has · = true) ∧ Harmless (c.range.high.cat.has · = true) := by
  obtain ⟨low, high, hread, hlow, hhigh⟩ := mlsContextToSid_text hp h
  rw [hread, ← hlow, ← hhigh, Option.some.injEq]
  constructor
  · intro heq
    rw [← heq]
    exact ⟨rfl, rfl⟩
  · intro heq
    rw [heq.1, heq.2]

/-! ## Two sets on both sides of a gap -/

/-- `c0`, `c1` and so on. -/
def numberedName (i : Nat) : Name := 'c' :: Nat.toDigits 10 i

theorem numberedName_inj {i j : Nat} (h : numberedName i = numberedName j) : i = j := by
  have hdigits : Nat.toDigits 10 i = Nat.toDigits 10 j := (List.cons.inj h).2
  rw [← Nat.ofDigitChars_toDigits (b := 10) (n := i) (by decide) (by decide), hdigits]
  exact Nat.ofDigitChars_toDigits (by decide) (by decide)

/-- The categories `c0` to `c129`. -/
def numberedCats : Symtab CatDatum (·.value) where
  table := (List.range 130).map fun i => (numberedName i, ⟨i + 1⟩)
  valToName := (List.range 130).map fun i => some (numberedName i)
  indexed := by
    intro i name hi
    obtain ⟨hlt, hname⟩ := List.getElem?_eq_some_iff.mp hi
    rw [List.getElem_map, List.getElem_range] at hname
    rw [List.length_map, List.length_range] at hlt
    obtain rfl := Option.some.inj hname
    refine ⟨⟨i + 1⟩, ?_, rfl⟩
    obtain ⟨l₁, l₂, hrange⟩ := List.append_of_mem (List.mem_range.mpr hlt)
    rw [hrange, List.map_append, List.map_cons]
    refine List.lookup_eq_some_iff.mpr ⟨_, _, rfl, ?_⟩
    -- no name is there twice
    intro e he
    obtain ⟨x, hx, rfl⟩ := List.mem_map.mp he
    have hnodup := hrange ▸ List.nodup_range (n := 130)
    have hne : x ≠ i := (List.nodup_append.mp hnodup).2.2 x hx i List.mem_cons_self
    exact bne_iff_ne.mpr fun heq => hne (numberedName_inj heq).symm

/-- One sensitivity, which has the categories. -/
def oneSens (cat : Bitmap) : Policydb where
  mls := true
  pLevels :=
    { table := [(['s', '0'], { level := { sens := 1, cat } })]
      valToName := [some ['s', '0']]
      indexed := Symtab.indexed_of_indexes rfl }
  pCats := numberedCats

/-- From the sensitivity alone to the one with the categories. -/
def upTo (cat : Bitmap) : Context :=
  { user := 1, role := objectRVal, type := 1, range := { low := { sens := 1 }, high := { sens := 1, cat } } }

theorem numberedCats_noSeps : ∀ o ∈ numberedCats.valToName, ∃ name ∈ o, NoSeps name := by
  intro o ho
  obtain ⟨i, -, rfl⟩ := mem_map.mp ho
  refine ⟨_, rfl, ?_⟩
  intro c hc
  rcases mem_cons.mp hc with rfl | hc
  · decide
  · have hdigit := Nat.isDigit_of_mem_toDigits (by decide) (by decide) hc
    refine ⟨?_, ?_, ?_, ?_⟩
    all_goals
      intro heq
      rw [heq] at hdigit
      exact absurd hdigit (by decide)

theorem oneSens_names {cat : Bitmap} (hcat : ∀ i ∈ cat.bits, i < 130) : MlsNames (oneSens cat) where
  mls := rfl
  sens := by
    intro o ho name hname
    obtain rfl := mem_singleton.mp ho
    obtain rfl : ['s', '0'] = name := Option.some.inj hname
    simp [NoSeps]
  cats := numberedCats_noSeps
  known := by
    intro e he i hi
    obtain rfl := mem_singleton.mp he
    exact hcat i hi

/-- The categories 63 and 128; the map between them is missing. -/
def edgeCats : Bitmap :=
  ⟨{ node := [⟨0, 0x8000000000000000#64⟩, ⟨128, 1#64⟩], highbit := 192 },
    ⟨⟨by decide, by decide, by decide, by decide⟩, rfl⟩⟩

/-- The categories 62, 63 and 128. -/
def bridgedCats : Bitmap :=
  ⟨{ node := [⟨0, 0xc000000000000000#64⟩, ⟨128, 1#64⟩], highbit := 192 },
    ⟨⟨by decide, by decide, by decide, by decide⟩, rfl⟩⟩

theorem edgeCats_bits : edgeCats.bits = [63, 128] := by decide +kernel

theorem harmless_edgeCats : Harmless (edgeCats.has · = true) := by
  have hhas : ∀ i, edgeCats.has i = true ↔ i = 63 ∨ i = 128 := by
    intro i
    rw [← mem_bits, edgeCats_bits]
    simp
  intro a s ha hs
  have hlast := hs.last
  simp only [hhas, mapsize] at ha hlast ⊢
  omega

theorem mlsContextToSid_edgeCats : (mlsSidToContext (oneSens edgeCats) (upTo edgeCats)).drop 1 = "s0-s0:c63,c128".toList ∧
    mlsContextToSid (oneSens edgeCats)
    ((mlsSidToContext (oneSens edgeCats) (upTo edgeCats)).drop 1) = some (upTo edgeCats).range := by
  refine ⟨by decide +kernel, (mlsContextToSid_iff (oneSens_names ?_) (by decide +kernel)).mpr ⟨?_, harmless_edgeCats⟩⟩
  · rw [edgeCats_bits]
    decide
  · intro a s ha
    exact absurd ha (by simp [upTo, has_empty])

/-- A category before the gap and one behind it are written as a range, which is read as all
    categories of the gap. -/
theorem mlsContextToSid_bridgedCats :
    MlsNames (oneSens bridgedCats) ∧ mlsContextIsvalid (oneSens bridgedCats) (upTo bridgedCats) = true ∧
    (mlsSidToContext (oneSens bridgedCats) (upTo bridgedCats)).drop 1 = "s0-s0:c62.c128".toList ∧
    mlsContextToSid (oneSens bridgedCats) ((mlsSidToContext (oneSens bridgedCats) (upTo bridgedCats)).drop 1) ≠
      some (upTo bridgedCats).range := by
  refine ⟨oneSens_names ?_, by decide +kernel, by decide +kernel, by decide +kernel⟩
  have hbits : bridgedCats.bits = [62, 63, 128] := by decide +kernel
  rw [hbits]
  decide

end SELinux.Db
