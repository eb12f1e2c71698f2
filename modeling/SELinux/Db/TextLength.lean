/-
  SELinux.Db.TextLength — the buffers for the text of a context (`libsepol/src/mls.c`:
  `mls_compute_context_len`, `mls_to_string`; `context.c`: `context_to_string`).

  The length of the range is computed by a loop of its own, beside the one of
  `mls_sid_to_context` that writes it. The two go through the same positions and count the same
  runs, so that the length is that of the text (`mlsComputeContextLen_eq`), as far as an
  `unsigned int` goes; it is returned as an `int`.

  `mls_to_string` writes the range into a buffer and copies it from its second character on, to
  cut the colon off. All its callers ask for an MLS policy.

  Proved: `mlsComputeContextLen_iff`, the length is right and nothing is written past the
  buffers exactly if the names of the sensitivities and of the categories that begin and end a run
  are not too long for an `int`, nor all names for a `size_t`.

  Allocation succeeds. `mem` is what memory has before anything is written to it.
-/
import SELinux.Db.MlsRoundTrip

namespace SELinux.Db

open List BitVec Lib.Runs

/-! ## The length of a range -/

/-- The loop over the categories: the length of the current run, and the count. -/
structure CatLen where
  range : Nat := 0
  len : BitVec 32

/-- A name and its separator. -/
def addName (len : BitVec 32) (name : Name) : BitVec 32 := len + BitVec.ofNat 32 (name.length + 1)

def CatLen.close (p : Policydb) (t : CatLen) (i : Nat) : CatLen :=
  if 1 < t.range then { range := 0, len := addName t.len (catName p (i - 1)) } else { t with range := 0 }

def CatLen.visit (p : Policydb) (t : CatLen) (ib : Nat × Bool) : CatLen :=
  if ib.2 then
    if t.range ≠ 0 then { t with range := t.range + 1 } else { range := 1, len := addName t.len (catName p ib.1) }
  else t.close p ib.1

/-- One round of the loop over the levels. -/
def addLevelLen (p : Policydb) (len : BitVec 32) (l : MlsLevel) : BitVec 32 :=
  let start : CatLen := { len := len + BitVec.ofNat 32 ((p.pLevels.name? l.sens).getD []).length }
  (((ebitmapPositions l.cat.1).foldl (CatLen.visit p) start).close p l.cat.1.highbit).len

/-- The `unsigned int len`; the function returns it as an `int`. -/
def mlsComputeContextLen (p : Policydb) (c : Context) : BitVec 32 :=
  if !p.mls then 0#32
  else
    let len := addLevelLen p 1#32 c.range.low
    if mlsLevelEq c.range.low c.range.high then len else addLevelLen p (len + 1#32) c.range.high

/-- The count and the text, at the same position. -/
structure CatLen.Counts (base : BitVec 32) (t : CatLen) (s : CatText) : Prop where
  range : t.range = s.range
  len : t.len = base + BitVec.ofNat 32 s.text.length

section Counts

variable {p : Policydb} {base : BitVec 32} {t : CatLen} {s : CatText}

theorem addName_eq (text : Name) (sep : Char) (name : Name) :
    addName (base + BitVec.ofNat 32 text.length) name = base + BitVec.ofNat 32 (text ++ sep :: name).length := by
  rw [addName, add_assoc, ← ofNat_add, length_append, length_cons]

theorem CatLen.Counts.close (h : CatLen.Counts base t s) (i : Nat) : CatLen.Counts base (t.close p i) (s.close p i) := by
  unfold CatLen.close CatText.close
  rw [h.range]
  by_cases hrun : 1 < s.range
  · rw [if_pos hrun, if_pos hrun, h.len]
    exact ⟨rfl, addName_eq _ _ _⟩
  · rw [if_neg hrun, if_neg hrun]
    exact ⟨rfl, h.len⟩

theorem CatLen.Counts.visit (h : CatLen.Counts base t s) (ib : Nat × Bool) :
    CatLen.Counts base (t.visit p ib) (s.visit p ib) := by
  unfold CatLen.visit CatText.visit
  by_cases hbit : ib.2 = true
  · rw [if_pos hbit, if_pos hbit, h.range]
    by_cases hrun : s.range ≠ 0
    · rw [if_pos hrun, if_pos hrun]
      exact ⟨rfl, h.len⟩
    · rw [if_neg hrun, if_neg hrun, h.len]
      exact ⟨rfl, addName_eq _ _ _⟩
  · rw [if_neg hbit, if_neg hbit]
    exact h.close ib.1

/-- By induction on the walk, which is the same for both loops. -/
theorem CatLen.Counts.foldl (h : CatLen.Counts base t s) (ps : List (Nat × Bool)) :
    CatLen.Counts base (ps.foldl (CatLen.visit p) t) (ps.foldl (CatText.visit p) s) := by
  induction ps generalizing t s with
  | nil => exact h
  | cons ib ps ih => exact ih (h.visit ib)

end Counts

theorem addLevelLen_eq (p : Policydb) (len : BitVec 32) (l : MlsLevel) :
    addLevelLen p len l = len + BitVec.ofNat 32 (mlsLevelText p l).length := by
  have hstart : CatLen.Counts (len + BitVec.ofNat 32 ((p.pLevels.name? l.sens).getD []).length)
      { len := len + BitVec.ofNat 32 ((p.pLevels.name? l.sens).getD []).length } {} := ⟨rfl, (add_zero _).symm⟩
  have hend := ((hstart.foldl (p := p) (ebitmapPositions l.cat.1)).close (p := p) l.cat.1.highbit).len
  rw [addLevelLen, hend, mlsLevelText, length_append, ofNat_add, add_assoc]

/-- The length counts the text, modulo 2^32. -/
theorem mlsComputeContextLen_eq (p : Policydb) (c : Context) :
    mlsComputeContextLen p c = BitVec.ofNat 32 (mlsSidToContext p c).length := by
  unfold mlsComputeContextLen mlsSidToContext
  cases p.mls with
  | false => rfl
  | true =>
    simp only [Bool.not_true, Bool.false_eq_true, if_false]
    by_cases heq : mlsLevelEq c.range.low c.range.high = true
    · rw [if_pos heq, if_pos heq, addLevelLen_eq, append_nil, length_cons, ofNat_add, add_comm]
    · rw [if_neg heq, if_neg heq, addLevelLen_eq, addLevelLen_eq, length_append, length_cons, length_cons]
      refine eq_of_toNat_eq ?_
      simp only [toNat_add, toNat_ofNat]
      omega

/-! ## The names in a range -/

section Sizes

variable (p : Policydb)

/-- A separator and the first category of a run; another separator and the last one, if there are
    more. -/
def runSize (r : Run) : Nat :=
  (catName p r.first).length + 1 + if r.rest = [] then 0 else (catName p (r.stop - 1)).length + 1

def levelSize (l : MlsLevel) : Nat := ((p.pLevels.name? l.sens).getD []).length + ((bitRuns l.cat).map (runSize p)).sum

def rangeSize (c : Context) : Nat :=
  1 + levelSize p c.range.low + if mlsLevelEq c.range.low c.range.high then 0 else 1 + levelSize p c.range.high

def namesSize (c : Context) : Nat :=
  ((p.pUsers.name? c.user).getD []).length + 1 + (((p.pRoles.name? c.role).getD []).length + 1) +
    ((p.pTypes.name? c.type).getD []).length

theorem length_withSeps (wrote : Bool) (l : List Name) :
    (withSeps wrote l).length = (l.map fun piece => piece.length + 1).sum := by
  induction l generalizing wrote with
  | nil => rfl
  | cons piece l ih =>
    rw [withSeps, length_cons, length_append, ih, map_cons, sum_cons]
    omega

theorem sum_runPieces (r : Run) : ((runPieces p r).map fun piece => piece.length + 1).sum = runSize p r := by
  unfold runPieces runSize
  split
  next hrest => simp [hrest]
  next hrest => simp [hrest]
  next hrest =>
    simp [hrest]
    omega

theorem length_mlsLevelText (l : MlsLevel) : (mlsLevelText p l).length = levelSize p l := by
  rw [mlsLevelText_eq, length_append, length_withSeps, MlsLevel.pieces, levelSize]
  congr 1
  induction bitRuns l.cat with
  | nil => rfl
  | cons r runs ih => rw [flatMap_cons, map_append, sum_append, sum_runPieces, ih, map_cons, sum_cons]

theorem length_mlsSidToContext (c : Context) : (mlsSidToContext p c).length = if p.mls then rangeSize p c else 0 := by
  unfold mlsSidToContext rangeSize
  cases p.mls with
  | false => rfl
  | true =>
    simp only [Bool.not_true, Bool.false_eq_true, if_false, if_true]
    split
    · rw [append_nil, length_cons, length_mlsLevelText]
      omega
    · rw [length_append, length_cons, length_cons, length_mlsLevelText, length_mlsLevelText]
      omega

end Sizes

/-! ## The buffers -/

/-- The end of a C string. -/
def nul : Char := Char.ofNat 0

section Buffers

variable (p : Policydb) (c : Context)

/-- `scontext_len` -/
def scontextLen : BitVec 64 :=
  BitVec.ofNat 64 (((p.pUsers.name? c.user).getD []).length + 1) + BitVec.ofNat 64
    (((p.pRoles.name? c.role).getD []).length + 1) +
    BitVec.ofNat 64 ((p.pTypes.name? c.type).getD []).length + (mlsComputeContextLen p c).signExtend 64 + 1#64

/-- Where `context_to_string` writes: the last byte, and the text with the NUL behind it, which
    the `sprintf` of the names or the last `strcpy` of the range puts there. -/
def ContextToStringWrites (i : Nat) : Prop := i = (scontextLen p c - 1#64).toNat ∨ i ≤ (contextToString p c).length

def ContextToStringFits : Prop := ∀ i, ContextToStringWrites p c i → i < (scontextLen p c).toNat

/-- `int len` of `mls_to_string`. -/
def mlsStringLen : BitVec 32 := mlsComputeContextLen p c + 1#32

/-- Memory after `mls_sid_to_context`, from the start of the first buffer. -/
def afterRange (mem : Int → Char) (i : Int) : Char :=
  if p.mls ∧ 0 ≤ i then ((mlsSidToContext p c ++ [nul])[i.toNat]?).getD (mem i) else mem i

/-- `strcpy` writes up to the first NUL of its source. -/
def StrcpyWrites (src : Nat → Char) (i : Nat) : Prop := ∀ j < i, src j ≠ nul

/-- The source of the copy: `ptr`, which the text has moved on, less `len - 1`, plus 1. -/
def copySource (mem : Int → Char) (i : Nat) : Char :=
  afterRange p c mem ((mlsSidToContext p c).length - (mlsStringLen p c - 1#32).toInt + 1 + i)

/-- Neither the range nor the copy of it is written past its buffer. -/
def MlsToStringFits : Prop :=
  ∀ mem, (p.mls = true → ∀ i ≤ (mlsSidToContext p c).length, i < ((mlsStringLen p c).signExtend 64).toNat) ∧
    ∀ i, StrcpyWrites (copySource p c mem) i → i < ((mlsStringLen p c - 1#32).signExtend 64).toNat

end Buffers

section Fits

variable {p : Policydb} {c : Context}

theorem mlsStringLen_sub : mlsStringLen p c - 1#32 = mlsComputeContextLen p c := add_sub_cancel _ _

/-- A length that an `int` holds. -/
theorem toNat_mlsComputeContextLen (h : (mlsSidToContext p c).length < 2 ^ 31) :
    (mlsComputeContextLen p c).toNat = (mlsSidToContext p c).length := by
  rw [mlsComputeContextLen_eq, toNat_ofNat]
  omega

theorem toInt_mlsComputeContextLen (h : (mlsSidToContext p c).length < 2 ^ 31) :
    (mlsComputeContextLen p c).toInt = (mlsSidToContext p c).length := by
  have hnat := toNat_mlsComputeContextLen h
  rw [toInt_eq_toNat_of_lt (by omega), hnat]

theorem toNat_signExtend_len (h : (mlsSidToContext p c).length < 2 ^ 31) :
    ((mlsComputeContextLen p c).signExtend 64).toNat = (mlsSidToContext p c).length := by
  have hnat := toNat_mlsComputeContextLen h
  have hmsb : (mlsComputeContextLen p c).msb = false := by
    rw [msb_eq_false_iff_two_mul_lt]
    omega
  rw [signExtend_eq_setWidth_of_msb_false hmsb, toNat_setWidth]
  omega

theorem length_contextToString (p : Policydb) (c : Context) :
    (contextToString p c).length = namesSize p c + (mlsSidToContext p c).length := by
  unfold contextToString namesSize
  simp only [length_append, length_cons]
  omega

theorem contextToString_fits (h : (mlsSidToContext p c).length < 2 ^ 31)
    (hsize : (contextToString p c).length + 1 < 2 ^ 64) : ContextToStringFits p c := by
  have hlen : (scontextLen p c).toNat = (contextToString p c).length + 1 := by
    have hext := toNat_signExtend_len h
    rw [length_contextToString, namesSize] at hsize ⊢
    unfold scontextLen
    simp only [toNat_add, toNat_ofNat, hext]
    omega
  intro i hi
  rcases hi with rfl | hi
  · rw [toNat_sub, hlen, toNat_ofNat]
    omega
  · omega

/-- The range of an MLS policy has a colon at least. -/
theorem length_pos_of_mls (hmls : p.mls = true) : 0 < (mlsSidToContext p c).length := by
  unfold mlsSidToContext
  rw [hmls]
  exact Nat.succ_pos _

theorem mlsToString_fits (hmls : p.mls = true) (h : (mlsSidToContext p c).length < 2 ^ 31) : MlsToStringFits p c := by
  have hpos := length_pos_of_mls (c := c) hmls
  intro mem
  constructor
  · intro _ i hi
    -- for the longest range `len` wraps to a negative number, and the size to a huge one
    have hnat : (mlsStringLen p c).toNat = (mlsSidToContext p c).length + 1 := by
      rw [mlsStringLen, toNat_add, toNat_mlsComputeContextLen h, toNat_ofNat]
      omega
    rw [toNat_signExtend, toNat_setWidth]
    split <;> omega
  · intro i hi
    rw [mlsStringLen_sub, toNat_signExtend_len h]
    by_contra hle
    -- the copy has passed the NUL behind the text
    refine hi ((mlsSidToContext p c).length - 1) (by omega) ?_
    have hplace : ((mlsSidToContext p c).length : Int) - (mlsStringLen p c - 1#32).toInt + 1 +
      ((mlsSidToContext p c).length - 1 : Nat) =
        ((mlsSidToContext p c).length : Int) := by
      rw [mlsStringLen_sub, toInt_mlsComputeContextLen h]
      omega
    unfold copySource afterRange
    rw [hplace, if_pos ⟨hmls, Int.natCast_nonneg _⟩, Int.toNat_natCast, List.getElem?_concat_length]
    rfl

end Fits

/-- The computed length is that of the text, and nothing is written past a buffer, exactly if the
    names in the range and all names are not too long. -/
theorem mlsComputeContextLen_iff (p : Policydb) (c : Context) :
    ((mlsComputeContextLen p c).toInt = (mlsSidToContext p c).length ∧ ContextToStringFits p c ∧
      (p.mls = true → MlsToStringFits p c)) ↔
      (p.mls = true → rangeSize p c < 2 ^ 31) ∧ namesSize p c + (if p.mls then rangeSize p c else 0) + 1 < 2 ^ 64 := by
  have hrange : (mlsSidToContext p c).length < 2 ^ 31 ↔ (p.mls = true → rangeSize p c < 2 ^ 31) := by
    rw [length_mlsSidToContext]
    cases p.mls <;> simp
  rw [← hrange, ← length_mlsSidToContext, ← length_contextToString]
  constructor
  · intro h
    obtain ⟨hlen, hcontext, -⟩ := h
    refine ⟨?_, ?_⟩
    · have hlt := toInt_lt (x := mlsComputeContextLen p c)
      omega
    · have hlast := hcontext _ (Or.inr (Nat.le_refl _))
      omega
  · intro h
    obtain ⟨hlen, hsize⟩ := h
    exact ⟨toInt_mlsComputeContextLen hlen, contextToString_fits hlen hsize, fun hmls => mlsToString_fits hmls hlen⟩

/-- One sensitivity of this name, and a category. -/
def sensNamed (name : Name) : Policydb where
  mls := true
  pLevels :=
    { table := [(name, { level := { sens := 1, cat := Bitmap.word 1#64 } })]
      valToName := [some name]
      indexed := by
        intro i n hi
        cases i with
        | zero =>
          cases hi
          exact ⟨_, List.lookup_cons_self, rfl⟩
        | succ i => cases hi }
  pCats := Symtab.single "c" { value := 1 } rfl

/-- From the sensitivity alone to that with the category. -/
def sensToCat : Context :=
  { user := 1, role := objectRVal, type := 1,
    range := { low := { sens := 1 }, high := { sens := 1, cat := Bitmap.word 1#64 } } }

theorem rangeSize_sensToCat (name : Name) : rangeSize (sensNamed name) sensToCat = name.length + name.length + 4 := by
  have heq : mlsLevelEq sensToCat.range.low sensToCat.range.high = false := by decide +kernel
  have hlow : levelSize (sensNamed name) sensToCat.range.low = name.length := rfl
  have hhigh : levelSize (sensNamed name) sensToCat.range.high = name.length + 2 := rfl
  rw [rangeSize, heq, hlow, hhigh, if_neg Bool.false_ne_true]
  omega

theorem mlsContextIsvalid_sensToCat (name : Name) : mlsContextIsvalid (sensNamed name) sensToCat = true := by
  have hsearch : ∀ l : MlsLevel, l.sens = 1 → ((sensNamed name).pLevels.name? l.sens).bind (sensNamed name).pLevels.search =
      some { level := { sens := 1, cat := Bitmap.word 1#64 } } := by
    intro l hl
    rw [hl]
    exact List.lookup_cons_self
  have hvalid : ∀ l ∈ [sensToCat.range.low, sensToCat.range.high], mlsLevelIsvalid (sensNamed name) l = true := by
    intro l hl
    unfold mlsLevelIsvalid
    rw [hsearch l (by fin_cases hl <;> rfl)]
    fin_cases hl <;> rfl
  have hdom : mlsLevelDom sensToCat.range.high sensToCat.range.low = true := by decide +kernel
  unfold mlsContextIsvalid
  rw [hdom, hvalid _ (by simp), hvalid _ (by simp)]
  rfl

/-- The name has 2^31 characters. -/
def longNamed : Policydb := sensNamed (List.replicate (2 ^ 31) 's')

/-- The name stands twice in a range that is valid. The length wraps to 4, and the text is written
    past the end of its buffer. -/
theorem contextToString_past :
    mlsContextIsvalid longNamed sensToCat = true ∧ (mlsSidToContext longNamed sensToCat).length = 2 ^ 32 + 4 ∧
      mlsComputeContextLen longNamed sensToCat = 4#32 ∧ ¬ContextToStringFits longNamed sensToCat := by
  have hlength : (mlsSidToContext longNamed sensToCat).length = 2 ^ 32 + 4 := by
    rw [length_mlsSidToContext, longNamed, rangeSize_sensToCat, length_replicate]
    rfl
  have hlen : mlsComputeContextLen longNamed sensToCat = 4#32 := by
    rw [mlsComputeContextLen_eq, hlength]
    decide
  refine ⟨mlsContextIsvalid_sensToCat _, hlength, hlen, ?_⟩
  intro hfits
  have hlast := hfits _ (Or.inr (Nat.le_refl _))
  rw [length_contextToString, hlength, scontextLen, hlen] at hlast
  -- there is no user, role or type
  have hsize : (BitVec.ofNat 64 1 + BitVec.ofNat 64 1 + BitVec.ofNat 64 0 + (4#32).signExtend 64 + 1#64).toNat = 7 := by
    decide
  have hseven : 2 ^ 32 + 4 < 7 := Nat.lt_of_le_of_lt (Nat.le_add_left _ _) (hsize ▸ hlast)
  omega

end SELinux.Db
