/-
  SELinux.File.Ranges — ranges of levels (`libsepol/src/mls.c`: `mls_setup_user_range`,
  `mls_context_isvalid`; `expand.c`: `mls_semantic_range_expand`).

  Levels are ordered by dominance, partially (`mlsLevelDom_refl`, `mlsLevelDom_trans`). Bitmaps
  from a file may end past their last map, and `ebitmap_contains` compares the ends first, so
  dominance is not only a matter of sensitivities and categories.

  Proved:
  - `mlsSetupUserRange_range`: the range for a user is a range, within that of the user, and its
    clearance is at most that of the context it is asked from.
  - `mlsContextIsvalid_cats_iff`: all categories of valid contexts have names exactly if no
    sensitivity has the category that follows the last one. The check is `i > nprim`, for a bit
    that is an index, and the categories of the sensitivities are those of the file.
  - `SourceRange.expand_kept_iff`: a range whose expansion fails is left as it was unless it is
    the high level that fails. Then the category ranges of the low level are freed and the level
    goes on pointing to them.
-/
import SELinux.Db.Bitset
import SELinux.File.Levels
import SELinux.File.ReadSafety
import SELinux.File.Policydb

namespace SELinux.File

open Lib Lib.Wire Lib.Trace Lib.Runs List Noted

variable {sl : SemanticLevel} {l : MlsLevel} {w : List Access} {u : Unit}

/-! ## Dominance -/

variable {l1 l2 : MlsLevel}

theorem mlsLevelDom_iff : mlsLevelDom l1 l2 = true ↔
    l2.sens.toNat ≤ l1.sens.toNat ∧ l2.cat.1.highbit ≤ l1.cat.1.highbit ∧
      ∀ i, Db.Holds l2.cat.1.node i → Db.Holds l1.cat.1.node i := by
  have hwalk := Db.containsFrom_iff _ l1.cat.1.node l2.cat.1.node (Nat.le_refl _) l1.cat.2.toNodesWF l2.cat.2.toNodesWF
  unfold mlsLevelDom Db.ebitmapContains
  by_cases hhigh : l1.cat.1.highbit < l2.cat.1.highbit
  · simp [hhigh]
  · rw [if_neg hhigh, Bool.and_eq_true, decide_eq_true_iff, hwalk]
    simp [Nat.le_of_not_lt hhigh]

theorem mlsLevelDom_refl (l : MlsLevel) : mlsLevelDom l l = true :=
  mlsLevelDom_iff.mpr ⟨Nat.le_refl _, Nat.le_refl _, fun _ hi => hi⟩

theorem mlsLevelDom_trans {l3 : MlsLevel} (h12 : mlsLevelDom l1 l2 = true) (h23 : mlsLevelDom l2 l3 = true) :
    mlsLevelDom l1 l3 = true := by
  obtain ⟨hsens, hhigh, hcats⟩ := mlsLevelDom_iff.mp h12
  obtain ⟨hsens', hhigh', hcats'⟩ := mlsLevelDom_iff.mp h23
  exact mlsLevelDom_iff.mpr ⟨Nat.le_trans hsens' hsens, Nat.le_trans hhigh' hhigh, fun i hi => hcats i (hcats' i hi)⟩

/-- `l1` lies between `l2` and `l3`. -/
def mlsLevelBetween (l1 l2 l3 : MlsLevel) : Bool := mlsLevelDom l1 l2 && mlsLevelDom l3 l1

theorem mlsLevelBetween_iff {l3 : MlsLevel} :
    mlsLevelBetween l1 l2 l3 = true ↔ mlsLevelDom l1 l2 = true ∧ mlsLevelDom l3 l1 = true :=
  Bool.and_eq_true_iff

/-! ## The range for a user -/

section UserRange

variable (con : MlsRange) (user : UserDatum)

/-- The user's default level if that is possible. -/
def userSen : Option MlsLevel :=
  if mlsLevelBetween user.expDfltlevel con.low con.high then some user.expDfltlevel
  else if mlsLevelBetween con.low user.expDfltlevel user.expRange.high then some con.low
  else if mlsLevelBetween con.high user.expRange.low user.expDfltlevel then some user.expRange.low
  else none

/-- The lower one of the two clearances. -/
def userClr : Option MlsLevel :=
  if mlsLevelDom user.expRange.high con.high then some con.high
  else if mlsLevelDom con.high user.expRange.high then some user.expRange.high
  else none

/-- `none` where the code returns `-EINVAL`. Without MLS the context is left as it is. -/
def mlsSetupUserRange (fromcon : Context) (user : UserDatum) (usercon : Context) (mls : Bool) : Option Context :=
  if mls then do
    let low ← userSen fromcon.range user
    let high ← userClr fromcon.range user
    return { usercon with range := { low, high } }
  else some usercon

variable {con user}

/-- The clearance is below both. -/
theorem userClr_below {clr : MlsLevel} (h : userClr con user = some clr) :
    mlsLevelDom user.expRange.high clr = true ∧ mlsLevelDom con.high clr = true := by
  unfold userClr at h
  split at h
  next hdom =>
    cases h
    exact ⟨hdom, mlsLevelDom_refl _⟩
  · split_ifs at h with hdom
    cases h
    exact ⟨mlsLevelDom_refl _, hdom⟩

/-- What is below both is below the clearance. -/
theorem userClr_above {clr l : MlsLevel} (h : userClr con user = some clr) (huser : mlsLevelDom user.expRange.high l = true)
    (hfrom : mlsLevelDom con.high l = true) : mlsLevelDom clr l = true := by
  unfold userClr at h
  split at h
  · cases h
    exact hfrom
  · split_ifs at h
    cases h
    exact huser

/-- The low level is in the range of the user and below the clearance of the context. -/
theorem userSen_below {low : MlsLevel} (hfrom : mlsLevelDom con.high con.low = true)
    (huser : mlsLevelBetween user.expDfltlevel user.expRange.low user.expRange.high = true)
    (h : userSen con user = some low) :
    mlsLevelDom low user.expRange.low = true ∧ mlsLevelDom user.expRange.high low = true ∧
      mlsLevelDom con.high low = true := by
  obtain ⟨hlow, hhigh⟩ := mlsLevelBetween_iff.mp huser
  unfold userSen at h
  split at h
  next hbetween =>
    cases h
    exact ⟨hlow, hhigh, (mlsLevelBetween_iff.mp hbetween).2⟩
  · split at h
    next hbetween =>
      obtain ⟨hdef, hclr⟩ := mlsLevelBetween_iff.mp hbetween
      cases h
      exact ⟨mlsLevelDom_trans hdef hlow, hclr, hfrom⟩
    · split_ifs at h with hbetween
      cases h
      exact ⟨mlsLevelDom_refl _, mlsLevelDom_trans hhigh hlow, (mlsLevelBetween_iff.mp hbetween).1⟩

/-- The range that is set up for a user goes up, lies in that of the user, and its clearance is
    below that of the context. -/
theorem mlsSetupUserRange_range {fromcon usercon usercon' : Context}
    (hfrom : mlsLevelDom fromcon.range.high fromcon.range.low = true)
    (huser : mlsLevelBetween user.expDfltlevel user.expRange.low user.expRange.high = true)
    (h : mlsSetupUserRange fromcon user usercon true = some usercon') :
    mlsLevelDom usercon'.range.high usercon'.range.low = true ∧ mlsRangeContains user.expRange usercon'.range = true ∧
      mlsLevelDom fromcon.range.high usercon'.range.high = true := by
  obtain ⟨low, hlow, h⟩ := Option.bind_eq_some_iff.mp h
  obtain ⟨high, hhigh, h⟩ := Option.bind_eq_some_iff.mp h
  cases h
  obtain ⟨hbottom, htop, hclr⟩ := userSen_below hfrom huser hlow
  obtain ⟨hbelow, hbelow'⟩ := userClr_below hhigh
  exact ⟨userClr_above hhigh htop hclr, Bool.and_eq_true_iff.mpr ⟨hbottom, hbelow⟩, hbelow'⟩

end UserRange

/-- A user with the categories 62 to 65, from a context without categories: the default level is
    too low, and the clearance is that of the context. -/
theorem mlsSetupUserRange_range_cats :
    let user : UserDatum := { value := 1#32, expRange := { high := { sens := 1#32, cat := nextCats } } }
    let middle : MlsLevel := { sens := 1#32, cat := FileBitmap.empty }
    ∃ usercon, mlsSetupUserRange { range := { low := middle, high := middle } } user {} true = some usercon ∧
      mlsLevelDom usercon.range.high usercon.range.low = true ∧ mlsRangeContains user.expRange usercon.range = true ∧
      mlsLevelDom middle usercon.range.high = true := by
  intro user middle
  have hsome : (mlsSetupUserRange { range := { low := middle, high := middle } } user {} true).isSome = true := by
    decide +kernel
  obtain ⟨usercon, husercon⟩ := Option.isSome_iff_exists.mp hsome
  exact ⟨usercon, husercon, mlsSetupUserRange_range (by decide +kernel) (by decide +kernel) husercon⟩

/-! ## The categories of valid contexts -/

/-- The loop over the categories of a level: the length of the current run, and the indices into
    `p_cat_val_to_name` so far. -/
structure CatLooks where
  range : Nat := 0
  looked : List Nat := []

def CatLooks.close (t : CatLooks) (i : Nat) : CatLooks :=
  if 1 < t.range then { looked := t.looked ++ [i - 1] } else { t with range := 0 }

def CatLooks.visit (t : CatLooks) (ib : Nat × Bool) : CatLooks :=
  if ib.2 then
    if t.range ≠ 0 then { t with range := t.range + 1 } else { range := 1, looked := t.looked ++ [ib.1] }
  else t.close ib.1

def MlsLevel.catLooks (l : MlsLevel) : List Nat :=
  (((Db.ebitmapPositions l.cat.1).foldl CatLooks.visit {}).close l.cat.1.highbit).looked

/-- `mls_level_eq` -/
def mlsLevelEq (l1 l2 : MlsLevel) : Bool := l1.sens == l2.sens && Db.ebitmapCmp l1.cat.1 l2.cat.1

/-- What `mls_compute_context_len` looks up, and `mls_sid_to_context`. -/
def Context.catLooks (mls : Bool) (c : Context) : List Nat :=
  if !mls then []
  else c.range.low.catLooks ++ if mlsLevelEq c.range.low c.range.high then [] else c.range.high.catLooks

/-- The first of a run is looked up, and of a longer one what lies before its end. -/
def runLooks (r : Run) : List Nat := r.first :: if r.rest = [] then [] else [r.stop - 1]

def openLooks (cur : Option (Nat × List Nat)) (looked : List Nat) : CatLooks :=
  match cur with
  | none => { looked }
  | some c => { range := c.2.length + 1, looked := looked ++ [c.1] }

theorem openLooks_close (c : Nat × List Nat) (looked : List Nat) (i : Nat) :
    (openLooks (some c) looked).close i = openLooks none (looked ++ runLooks ⟨c.1, c.2, i⟩) := by
  obtain ⟨first, rest⟩ := c
  cases rest with
  | nil => rfl
  | cons b rest =>
    have hlong : 1 < (b :: rest).length + 1 := by simp
    simp only [openLooks, CatLooks.close, if_pos hlong, runLooks, if_neg (cons_ne_nil b rest), append_assoc]
    rfl

theorem foldl_looks (stop : Nat) (ps : List (Nat × Bool)) (cur : Option (Nat × List Nat)) (looked : List Nat) :
    ((ps.foldl CatLooks.visit (openLooks cur looked)).close stop).looked = looked ++
      (runsFrom stop cur ps).flatMap runLooks := by
  induction ps generalizing cur looked with
  | nil =>
    cases cur with
    | none => exact (append_nil _).symm
    | some c =>
      rw [foldl_nil, openLooks_close, runsFrom, flatMap_singleton]
      rfl
  | cons e ps ih =>
    obtain ⟨p, b⟩ := e
    rw [foldl_cons]
    cases cur with
    | none =>
      cases b with
      | true => exact ih (some (p, [])) looked
      | false => exact ih none looked
    | some c =>
      cases b with
      | true =>
        have hlonger : (openLooks (some c) looked).visit (p, true) = openLooks (some (c.1, c.2 ++ [p])) looked := by
          simp [openLooks, CatLooks.visit]
        rw [hlonger]
        exact ih _ looked
      | false =>
        have hclosed : (openLooks (some c) looked).visit (p, false) = (openLooks (some c) looked).close p := rfl
        rw [hclosed, openLooks_close, ih, runsFrom, flatMap_cons, append_assoc]

/-- No index is past the last category of the level: where maps are missing behind a run, there is
    a category behind them. -/
theorem catLooks_le {j : Nat} (hj : j ∈ l.catLooks) : ∃ i ∈ Db.ebitmapBits l.cat.1, j ≤ i := by
  have hwf := l.cat.2.toNodesWF
  have hend := l.cat.2.nodesEnd_le
  have hlooks : l.catLooks = (catRuns l).flatMap runLooks :=
    foldl_looks l.cat.1.highbit (Db.ebitmapPositions l.cat.1) none []
  rw [hlooks] at hj
  obtain ⟨r, hr, hj⟩ := mem_flatMap.mp hj
  have hmem : ∀ a ∈ r.positions, a ∈ Db.ebitmapBits l.cat.1 := by
    intro a ha
    rw [l.cat.2.mem_bits]
    exact (Db.mem_bitRuns hwf hend).mpr ⟨r, hr, ha⟩
  rcases mem_cons.mp hj with rfl | hj
  · exact ⟨r.first, hmem _ mem_cons_self, Nat.le_refl _⟩
  · obtain ⟨a, hstep⟩ := r.exists_last
    have hstop : j = r.stop - 1 := by
      split at hj
      · cases hj
      · exact mem_singleton.mp hj
    rcases Db.follows_of_step hwf hend hr hstep with hmissing | hnext
    · obtain ⟨i, hle, -, hi⟩ := hmissing.next
      exact ⟨i, l.cat.2.mem_bits.mpr hi, by omega⟩
    · exact ⟨a, hmem a (Run.mem_of_step hstep), by omega⟩

section Valid

variable (past : Past) (p : Policydb)

/-- The categories of a context have slots, and so has what is looked up for its text. -/
structure CatsNamed (c : Context) : Prop where
  bits : ∀ l ∈ c.levels, ∀ i ∈ Db.ebitmapBits l.cat.1, i < p.symtab.cats.nprim.toNat
  looks : ∀ i ∈ c.catLooks p.header.mls, i < p.symtab.cats.nprim.toNat

variable {past p}

theorem mlsLevelIsvalid_iff : Noted.Gives (mlsLevelIsvalid past p l) u w ↔
    valueOk l.sens p.symtab.levels.nprim = true ∧ ∃ lev, Noted.Gives (levelOf past p.symtab.levels l.sens) lev w ∧
      ∃ bits, Db.ebitmapWalkBits past.bit l.cat.1 = some bits ∧
        ∀ i ∈ bits, i ≤ p.symtab.cats.nprim.toNat ∧ Db.ebitmapGetBit lev.level.cat.1 i = true := by
  unfold mlsLevelIsvalid
  simp only [bind_iff, check_iff, give_iff, all_eq_true, Bool.and_eq_true, decide_eq_true_iff]
  constructor
  · intro h
    obtain ⟨_, w1, w2, ⟨hok, rfl⟩, ⟨lev, w3, w4, hlev, ⟨bits, w5, w6, ⟨hbits, rfl⟩, ⟨hcats, rfl⟩, rfl⟩, rfl⟩, rfl⟩ := h
    rw [nil_append, append_nil, append_nil]
    exact ⟨hok, lev, hlev, bits, hbits, hcats⟩
  · intro h
    obtain ⟨hok, lev, hlev, bits, hbits, hcats⟩ := h
    refine ⟨(), [], w, ⟨hok, rfl⟩, ⟨lev, w, [], hlev, ?_, (append_nil w).symm⟩, rfl⟩
    exact ⟨bits, [], [], ⟨hbits, rfl⟩, ⟨hcats, rfl⟩, rfl⟩

/-- Both levels of a valid context are valid. -/
theorem levels_of_mlsContextIsvalid (hmls : p.header.mls = true) {c : Context}
    (h : Noted.Gives (mlsContextIsvalid past p c) u w) :
    ∀ l ∈ c.levels, ∃ u w, Noted.Gives (mlsLevelIsvalid past p l) u w := by
  unfold mlsContextIsvalid at h
  rw [hmls] at h
  obtain ⟨_, _, _, -, h, -⟩ := bind_iff.mp h
  obtain ⟨u1, w1, _, hlow, h, -⟩ := bind_iff.mp h
  obtain ⟨u2, w2, _, hhigh, -, -⟩ := bind_iff.mp h
  exact forall_mem_cons.mpr ⟨⟨u1, w1, hlow⟩, forall_mem_singleton.mpr ⟨u2, w2, hhigh⟩⟩

/-- `object_r` may have any valid level as its range. -/
theorem mlsContextIsvalid_object (h : Noted.Gives (mlsLevelIsvalid past p l) u w) :
    ∃ w, Noted.Gives (mlsContextIsvalid past p { role := objectRVal, range := { low := l, high := l } }) () w := by
  unfold mlsContextIsvalid
  split
  · exact ⟨[], pure_iff.mpr ⟨rfl, rfl⟩⟩
  · refine ⟨[] ++ (w ++ (w ++ [])), bind_iff.mpr ⟨(), _, _, check_iff.mpr ⟨mlsLevelDom_refl l, rfl⟩, ?_, rfl⟩⟩
    refine bind_iff.mpr ⟨(), _, _, h, bind_iff.mpr ⟨(), _, _, h, ?_, rfl⟩, rfl⟩
    exact pure_iff.mpr ⟨rfl, rfl⟩

/-- If the categories have slots, what is looked up has. -/
theorem CatsNamed.of_bits {c : Context} (h : ∀ l ∈ c.levels, ∀ i ∈ Db.ebitmapBits l.cat.1, i < p.symtab.cats.nprim.toNat) :
    CatsNamed p c := by
  refine ⟨h, ?_⟩
  have hlevel : ∀ l ∈ c.levels, ∀ j ∈ l.catLooks, j < p.symtab.cats.nprim.toNat := by
    intro l hl j hj
    obtain ⟨i, hi, hle⟩ := catLooks_le hj
    exact Nat.lt_of_le_of_lt hle (h l hl i hi)
  intro j hj
  unfold Context.catLooks at hj
  split at hj
  · cases hj
  · rcases mem_append.mp hj with hj | hj
    · exact hlevel _ mem_cons_self j hj
    · split at hj
      · cases hj
      · exact hlevel _ (mem_cons_of_mem _ mem_cons_self) j hj

/-- The bitmap of one bit. -/
theorem exists_single {i : Nat} (h : i - i % Db.mapsize + Db.mapsize < 2 ^ 32) :
    ∃ e : FileBitmap, e.1.WF ∧ ∀ j, j ∈ Db.ebitmapBits e.1 ↔ j = i := by
  obtain ⟨cat, hcat⟩ := Db.Bitmap.empty.setBit_isSome h true
  refine ⟨FileBitmap.ofBitmap cat, cat.2, ?_⟩
  intro j
  refine Db.Bitmap.mem_bits.trans ?_
  rw [Db.Bitmap.has_setBit hcat]
  by_cases hj : j = i
  · simp [hj]
  · simp [hj, Db.Bitmap.has_empty]

/-- No bitmap has a later bit. -/
theorem FileBitmap.bits_lt (e : FileBitmap) {i : Nat} (hi : i ∈ Db.ebitmapBits e.1) : i < 2 ^ 32 - Db.mapsize := by
  obtain ⟨n, hn, -, hlt, -⟩ := e.2.mem_bits.mp hi
  have hinside := e.2.inside n hn
  have hends := Nat.mod_eq_zero_of_dvd e.2.ends
  have hshort := e.2.short
  simp only [Db.mapsize] at *
  omega

variable (past p)

/-- No sensitivity has the category that follows the last one. -/
def NoNextCat : Prop :=
  ∀ v lev w, valueOk v p.symtab.levels.nprim = true → Noted.Gives (levelOf past p.symtab.levels v) lev w →
    Db.ebitmapGetBit lev.level.cat.1 p.symtab.cats.nprim.toNat = false

/-- The categories of all valid contexts have names exactly if no sensitivity has the category that
    follows the last one; without MLS, where all contexts are valid, if no bitmap has a category
    without a name. -/
theorem mlsContextIsvalid_cats_iff : (∀ c w, Noted.Gives (mlsContextIsvalid past p c) () w → CatsNamed p c) ↔
    if p.header.mls then NoNextCat past p else 2 ^ 32 - Db.mapsize ≤ p.symtab.cats.nprim.toNat := by
  by_cases hmls : p.header.mls = true
  · rw [if_pos hmls]
    constructor
    · intro h v lev w hok hlev
      by_contra hbit
      have hbit := Bool.eq_true_of_not_eq_false hbit
      obtain ⟨e, hwf, he⟩ := exists_single (lev.level.cat.2.narrow_bit hbit)
      have hvalid : Noted.Gives (mlsLevelIsvalid past p { sens := v, cat := e }) () w := by
        refine mlsLevelIsvalid_iff.mpr ⟨hok, lev, hlev, _, Db.ebitmapWalkBits_of_end hwf.high.symm, ?_⟩
        intro i hi
        obtain rfl := (he i).mp hi
        exact ⟨Nat.le_refl _, hbit⟩
      obtain ⟨w', hc⟩ := mlsContextIsvalid_object hvalid
      exact Nat.lt_irrefl _ ((h _ w' hc).bits _ mem_cons_self _ ((he _).mpr rfl))
    · intro h c w hc
      refine CatsNamed.of_bits ?_
      intro l hl i hi
      obtain ⟨u, w', hvalid⟩ := levels_of_mlsContextIsvalid hmls hc l hl
      obtain ⟨hok, lev, hlev, bits, hbits, hcats⟩ := mlsLevelIsvalid_iff.mp hvalid
      obtain ⟨hle, hbit⟩ := hcats i (Db.mem_walkBits l.cat.2.apart l.cat.2.nodesEnd_le hbits hi)
      refine Nat.lt_of_le_of_ne hle ?_
      intro heq
      rw [heq, h _ lev w' hok hlev] at hbit
      cases hbit
  · rw [if_neg hmls]
    constructor
    · intro h
      -- a context with the last bit that a bitmap may have
      obtain ⟨e, -, he⟩ := exists_single (show 2 ^ 32 - 65 - (2 ^ 32 - 65) % Db.mapsize + Db.mapsize < 2 ^ 32 by decide)
      have hvalid : Noted.Gives (mlsContextIsvalid past p { range := { low := { cat := e } } }) () [] := by
        unfold mlsContextIsvalid
        rw [if_pos (by simpa using hmls)]
        exact pure_iff.mpr ⟨rfl, rfl⟩
      have hlt := (h _ _ hvalid).bits _ mem_cons_self _ ((he _).mpr rfl)
      simp only [Db.mapsize]
      omega
    · intro h c w _
      refine CatsNamed.of_bits ?_
      intro l _ i hi
      exact Nat.lt_of_lt_of_le (l.cat.bits_lt hi) h

end Valid

/-- An MLS kernel policy with one category and one sensitivity, whose categories are given. -/
def catPolicy (map : Nat) : Bytes :=
  putWords [0xf97cff8c, 8] ++ policydbString ++ putWords [20, 1, 8, 7] ++
    putWords [0, 0, 0, 0, 1, 0] ++ putWords [1, 1, 1, 1, 1] ++ [0x74#8] ++ putWords [0, 0, 0, 0] ++
    putWords [1, 1, 1, 0] ++ [0x73#8] ++ putWords [1, 64, 64, 1, 0, map, 0] ++ putWords [1, 1, 1, 1, 0] ++ [0x63#8] ++
    putWords [1] ++ putRule 1 1 1 0x01 1 ++ putWords [0, 0, 0] ++ putWords (List.replicate 9 0) ++
      putWords [64, 64, 1, 0, 1, 0]

/-- The bits 0 and 1 in one map. -/
def twoCats : FileBitmap :=
  ⟨{ node := [⟨0, 3#64⟩], highbit := 64 }, ⟨⟨by decide, by decide, by decide, by decide⟩, by decide, by decide, by decide⟩⟩

/-- The sensitivity has a second category, which the policy has not. A context with both is valid,
    and the name of the second one is looked up. -/
theorem catPolicy_next : ∃ p s' w, (policydbRead nothingPast).Gives (catPolicy 3) p s' w ∧ p.symtab.cats.nprim = 1#32 ∧
    ∃ c w', Noted.Gives (mlsContextIsvalid nothingPast p c) () w' ∧ Db.ebitmapBits c.range.high.cat.1 = [0, 1] ∧
      1 ∈ c.catLooks p.header.mls ∧ ¬CatsNamed p c := by
  have hread : ((policydbRead nothingPast (catPolicy 3)).run.map fun e => (e.1.1.symtab.cats.nprim, e.1.1.header.mls,
      (mlsContextIsvalid nothingPast e.1.1
        { role := objectRVal, range := ⟨⟨1#32, twoCats⟩, ⟨1#32, twoCats⟩⟩ }).run.isSome)) =
      some (1#32, true, true) := by decide +kernel
  obtain ⟨⟨⟨p, s'⟩, w⟩, hp, heq⟩ := Option.map_eq_some_iff.mp hread
  simp only [Prod.mk.injEq] at heq
  obtain ⟨hnprim, hmls, hvalid⟩ := heq
  obtain ⟨⟨u, w'⟩, hgives⟩ := Option.isSome_iff_exists.mp hvalid
  have hbits : Db.ebitmapBits twoCats.1 = [0, 1] := by decide +kernel
  refine ⟨p, s', w, hp, hnprim, _, w', hgives, hbits, ?_, ?_⟩
  · rw [hmls]
    decide +kernel
  · intro hnamed
    have hlt := hnamed.bits _ mem_cons_self 1 (by rw [hbits]; decide)
    rw [hnprim] at hlt
    exact absurd hlt (by decide)

/-! ## The source of an expansion -/

/-- What a function returns that returns 0 or -1. -/
inductive Returned (α : Type)
  | ok (a : α)
  | failed

/-- A semantic level in memory: a category range that has been freed is `none`. -/
structure SourceLevel where
  sens : U32
  cat : List (Option SemanticCat)

structure SourceRange where
  low : SourceLevel
  high : SourceLevel

def SemanticLevel.source (sl : SemanticLevel) : SourceLevel := { sens := sl.sens, cat := sl.cat.map some }

def SemanticRange.source (sr : SemanticRange) : SourceRange := { low := sr.low.source, high := sr.high.source }

/-- `mls_semantic_level_destroy` frees the list and leaves the pointer to it. -/
def SourceLevel.destroy (l : SourceLevel) : SourceLevel := { l with cat := l.cat.map fun _ => none }

/-- The loop over the category ranges. It has no result once it reads what has been freed. -/
def expandCats (lev : LevelDatum) : Db.Bitmap → List (Option SemanticCat) → Option (Returned Db.Bitmap)
  | cat, [] => some (.ok cat)
  | _, none :: _ => none
  | cat, some c :: l =>
    match addCats lev cat c with
    | none => some .failed
    | some cat => expandCats lev cat l

section Source

variable (past : Past) (levels : Symtab (symtabSizes 6) LevelDatum)

/-- `mls_semantic_level_expand`; a sensitivity without a name is looked up by a null pointer. -/
def SourceLevel.expand (mls : Bool) (sl : SourceLevel) : Option (Returned MlsLevel) :=
  if !mls then some (.ok {})
  else if sl.sens = 0#32 then some (.ok {})
  else do
    let (name, _) ← (sensName past levels sl.sens).run
    match levels.table.search name with
    | none => return .failed
    | some lev =>
      match ← expandCats lev Db.Bitmap.empty sl.cat with
      | .failed => return .failed
      | .ok cat => return .ok { sens := sl.sens, cat := FileBitmap.ofBitmap cat }

/-- `mls_semantic_range_expand`, with what it leaves of its source. Where the high level fails, it
    is the source that is cleaned up. -/
def SourceRange.expand (mls : Bool) (sr : SourceRange) : Option (Returned MlsRange × SourceRange) := do
  match ← sr.low.expand past levels mls with
  | .failed => return (.failed, sr)
  | .ok low =>
    match ← sr.high.expand past levels mls with
    | .failed => return (.failed, { sr with low := sr.low.destroy })
    | .ok high => if mlsLevelDom high low then return (.ok { low, high }, sr) else return (.failed, sr)

variable {past levels}

theorem expandCats_source {lev : LevelDatum} {cat : Db.Bitmap} (cats : List SemanticCat) :
    expandCats lev cat (cats.map some) = some ((cats.foldlM (addCats lev) cat).elim .failed .ok) := by
  induction cats generalizing cat with
  | nil => rfl
  | cons c cats ih =>
    rw [map_cons, expandCats, foldlM_cons]
    cases hc : addCats lev cat c with
    | none => rfl
    | some cat' => exact ih

/-- What has not been freed is looked up and expanded. -/
theorem SourceLevel.expand_source (hsens : sl.sens ≠ 0#32) :
    sl.source.expand past levels true = (sensName past levels sl.sens).run.map fun e =>
      ((levels.table.search e.1).bind fun lev => sl.cat.foldlM (addCats lev) Db.Bitmap.empty).elim .failed fun cat =>
        .ok { sens := sl.sens, cat := FileBitmap.ofBitmap cat } := by
  unfold SourceLevel.expand
  rw [if_neg (by decide), if_neg (show sl.source.sens ≠ 0#32 from hsens), show sl.source.sens = sl.sens from rfl,
    show sl.source.cat = sl.cat.map some from rfl]
  cases (sensName past levels sl.sens).run with
  | none => rfl
  | some e =>
    show (match levels.table.search e.1 with | none => _ | some lev => _) = _
    rw [Option.map_some]
    cases levels.table.search e.1 with
    | none => rfl
    | some lev =>
      simp only [expandCats_source, Option.bind_some]
      cases sl.cat.foldlM (addCats lev) Db.Bitmap.empty with
      | none => rfl
      | some cat => rfl

/-- On what has not been freed the expansion is that of the reader. -/
theorem SourceLevel.expand_source_iff {mls : Bool} :
    sl.source.expand past levels mls = some (.ok l) ↔ ∃ w, Noted.Gives (mlsSemanticLevelExpand past levels mls sl) l w := by
  have hpure : some (Returned.ok {}) = some (Returned.ok l) ↔ ∃ w : List Access, Noted.Gives (pure {}) l w := by
    simp [pure_iff]
  cases mls with
  | false => exact hpure
  | true =>
  unfold mlsSemanticLevelExpand
  rw [if_neg (by decide)]
  by_cases hsens : sl.sens = 0#32
  · rw [if_pos hsens, ← hpure, SourceLevel.expand, if_neg (by decide), if_pos (show sl.source.sens = 0#32 from hsens)]
  rw [if_neg hsens, SourceLevel.expand_source hsens]
  unfold levelOf
  simp only [bind_iff, give_iff, pure_iff]
  constructor
  · intro h
    obtain ⟨⟨name, w⟩, hname, h⟩ := Option.map_eq_some_iff.mp h
    cases hcat : (levels.table.search name).bind fun lev => sl.cat.foldlM (addCats lev) Db.Bitmap.empty with
    | none => simp [hcat] at h
    | some cat =>
      obtain ⟨lev, hlev, hfold⟩ := Option.bind_eq_some_iff.mp hcat
      rw [hcat] at h
      exact ⟨w, lev, w, [], ⟨name, w, [], hname, ⟨hlev, rfl⟩, (append_nil w).symm⟩,
        ⟨cat, [], [], ⟨hfold, rfl⟩, ⟨Returned.ok.inj h, rfl⟩, rfl⟩, (append_nil w).symm⟩
  · intro h
    obtain ⟨_, lev, _, _, ⟨name, w, _, hname, ⟨hlev, -⟩, -⟩, ⟨cat, _, _, ⟨hcat, -⟩, ⟨rfl, -⟩, -⟩, -⟩ := h
    refine Option.map_eq_some_iff.mpr ⟨(name, w), hname, ?_⟩
    rw [hlev, Option.bind_some, hcat]
    rfl

variable (past levels) in
/-- The sensitivity of a level has a name, and no level of that name has all its categories. -/
def Misfit (sl : SemanticLevel) : Prop :=
  sl.sens ≠ 0#32 ∧ ∃ name w, Noted.Gives (sensName past levels sl.sens) name w ∧
    ∀ lev, levels.table.search name = some lev → ∃ c ∈ sl.cat, ¬Fits lev c

theorem SourceLevel.expand_failed_iff :
    sl.source.expand past levels true = some .failed ↔ Misfit past levels sl := by
  by_cases hsens : sl.sens = 0#32
  · rw [SourceLevel.expand, if_neg (by decide), if_pos (show sl.source.sens = 0#32 from hsens)]
    simp [Misfit, hsens]
  rw [SourceLevel.expand_source hsens, Option.map_eq_some_iff]
  -- the levels of the name, and what their categories make of the ranges
  have hnone : ∀ name, ((levels.table.search name).bind fun lev => sl.cat.foldlM (addCats lev) Db.Bitmap.empty) = none ↔
      ∀ lev, levels.table.search name = some lev → ∃ c ∈ sl.cat, ¬Fits lev c := by
    intro name
    rw [Option.bind_eq_none_iff]
    refine forall_congr' fun lev => imp_congr_right fun _ => ?_
    constructor
    · intro hfold
      by_contra hfits
      push Not at hfits
      obtain ⟨cat, hcat⟩ := exists_foldlM_addCats hfits Db.Bitmap.empty
      rw [hcat] at hfold
      cases hfold
    · intro hmisfit
      obtain ⟨c, hc, hno⟩ := hmisfit
      rw [Option.eq_none_iff_forall_not_mem]
      intro cat hcat
      exact hno ((foldlM_addCats_iff.mp hcat).1 c hc)
  constructor
  · intro h
    obtain ⟨⟨name, w⟩, hname, h⟩ := h
    refine ⟨hsens, name, w, hname, (hnone name).mp ?_⟩
    cases hcat : (levels.table.search name).bind fun lev => sl.cat.foldlM (addCats lev) Db.Bitmap.empty with
    | none => rfl
    | some cat => simp [hcat] at h
  · intro h
    obtain ⟨-, name, w, hname, hmisfit⟩ := h
    refine ⟨(name, w), hname, ?_⟩
    rw [(hnone name).mpr hmisfit]
    rfl

theorem SourceLevel.not_misfit (h : sl.source.expand past levels true = some (.ok l)) : ¬Misfit past levels sl := by
  intro hmisfit
  rw [expand_failed_iff.mpr hmisfit] at h
  cases h

theorem SourceRange.expand_without_mls (sr : SourceRange) : sr.expand past levels false = some (.ok {}, sr) := rfl

/-- A list is not changed by freeing its cells only if it has none. -/
theorem SourceLevel.destroy_eq_iff : sl.source.destroy = sl.source ↔ sl.cat = [] := by
  obtain ⟨sens, cat⟩ := sl
  cases cat with
  | nil => exact iff_of_true rfl rfl
  | cons c cat => exact iff_of_false (by simp [SemanticLevel.source, SourceLevel.destroy]) (cons_ne_nil c cat)

/-- A range whose expansion fails is left as it was, and can be expanded again, exactly if it is
    not the high level alone that fails, or the low level has no category ranges. -/
theorem SourceRange.expand_kept_iff {mls : Bool} {sr : SemanticRange} {sr' : SourceRange}
    (h : sr.source.expand past levels mls = some (.failed, sr')) :
    sr' = sr.source ∧ sr'.expand past levels mls = some (.failed, sr') ↔
      (Misfit past levels sr.high → ¬Misfit past levels sr.low → sr.low.cat = []) := by
  have hagain : sr' = sr.source ∧ sr'.expand past levels mls = some (.failed, sr') ↔ sr' = sr.source := by
    refine and_iff_left_of_imp ?_
    intro heq
    rwa [← heq] at h
  rw [hagain]
  cases mls with
  | false => exact absurd h (by simp [SourceRange.expand_without_mls])
  | true =>
  obtain ⟨low, hlow, h⟩ := Option.bind_eq_some_iff.mp h
  cases low with
  | failed =>
    -- the low level fails
    cases h
    exact iff_of_true rfl fun _ hno => absurd (SourceLevel.expand_failed_iff.mp hlow) hno
  | ok low =>
    obtain ⟨high, hhigh, h⟩ := Option.bind_eq_some_iff.mp h
    cases high with
    | failed =>
      cases h
      have hmisfit := SourceLevel.expand_failed_iff.mp hhigh
      rw [imp_iff_right hmisfit, imp_iff_right (SourceLevel.not_misfit hlow), ← SourceLevel.destroy_eq_iff]
      simp [SemanticRange.source]
    | ok high =>
      have hdom : (if mlsLevelDom high low = true then some (Returned.ok (MlsRange.mk low high), sr.source)
        else some (.failed, sr.source)) =
        some (.failed, sr') := h
      split at hdom
      · cases hdom
      · cases hdom
        exact iff_of_true rfl fun hmisfit => absurd hmisfit (SourceLevel.not_misfit hhigh)

end Source

/-- A high level with a category that the sensitivity has not, over a low level without any. -/
theorem SourceRange.expand_kept_bare : ∃ sr', (SemanticRange.source ⟨⟨1#32, []⟩, ⟨1#32, [⟨1#32, 1#32⟩]⟩⟩).expand nothingPast
      (oneLevel nextCats) true = some (.failed, sr') ∧ sr' = SemanticRange.source ⟨⟨1#32, []⟩, ⟨1#32, [⟨1#32, 1#32⟩]⟩⟩ := by
  obtain ⟨sr', h⟩ : ∃ sr', (SemanticRange.source ⟨⟨1#32, []⟩, ⟨1#32, [⟨1#32, 1#32⟩]⟩⟩).expand nothingPast
    (oneLevel nextCats) true =
    some (.failed, sr') := ⟨_, by rfl⟩
  exact ⟨sr', h, ((SourceRange.expand_kept_iff h).mpr fun _ _ => rfl).1⟩

/-- The low level has category 63 and the high one category 0, which the sensitivity has not. The
    category range of the low level is freed, and read when the range is expanded again. -/
theorem SourceRange.expand_freed : ∃ sr',
    (SemanticRange.source ⟨⟨1#32, [⟨64#32, 64#32⟩]⟩, ⟨1#32, [⟨1#32, 1#32⟩]⟩⟩).expand nothingPast
      (oneLevel nextCats) true = some (.failed, sr') ∧
      sr'.low.cat = [none] ∧ (sr'.expand nothingPast (oneLevel nextCats) true).isNone = true := by
  refine ⟨_, by rfl, by rfl, by rfl⟩

end SELinux.File
