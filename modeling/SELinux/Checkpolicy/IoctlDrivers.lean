/-
  SELinux.Checkpolicy.IoctlDrivers — the records of an ioctl rule
  (`checkpolicy/policy_define.c`: `define_te_avtab_ioctl` and what it calls).

  The upper eight bits of a command are its driver. One record lists the drivers of which some
  range has every command; the drivers at the two ends of the other ranges have a record of their
  functions each.

  `ioctlRecords_covers`: a command of a range is in exactly one record, every other one in none.
  The ranges need not be sorted or disjoint for this.
-/
import SELinux.Checkpolicy.IoctlRanges
import SELinux.Checkpolicy.Xperms

namespace SELinux.Checkpolicy

open Db Check Lib List

/-! ## The records -/

/-- `IOC_DRIV` -/
def iocDriv (x : Nat) : Nat := x / 256

/-- `IOC_FUNC` -/
def iocFunc (x : Nat) : Nat := x % 256

/-- `IOC_CMD` -/
def iocCmd (driver func : Nat) : Nat := 256 * driver + func

/-- One round of `avrule_ioctl_completedriver`: the bounds are rounded to whole drivers. -/
def completeStep (p : XpermBits) (r : IoctlRange) : XpermBits :=
  let high := iocDriv (r.high.toNat + 1)
  let low := if iocFunc r.low.toNat ≠ 0 then iocDriv r.low.toNat + 1 else iocDriv r.low.toNat
  if low < high then avruleXpermSetrangebits low (high - 1) p else p

/-- `avrule_ioctl_completedriver` -/
def avruleIoctlCompletedriver (l : List IoctlRange) : Option ExtendedPerms :=
  let perms := l.foldl completeStep noXperms
  if avruleXpermsUsed perms then some { specified := xpermsIoctldriver, driver := 0#8, perms } else none

/-- A driver is set unless it is complete. -/
def setPartial (complete : Option ExtendedPerms) (x : BitVec 8) (p : XpermBits) : XpermBits :=
  match complete with
  | some c => if xpermTest x c.perms then p else xpermSet x p
  | none => xpermSet x p

def partialStep (complete : Option ExtendedPerms) (p : XpermBits) (r : IoctlRange) : XpermBits :=
  setPartial complete (BitVec.ofNat 8 (iocDriv r.high.toNat)) (setPartial complete (BitVec.ofNat 8 (iocDriv r.low.toNat)) p)

/-- `avrule_ioctl_partialdriver` -/
def avruleIoctlPartialdriver (l : List IoctlRange) (complete : Option ExtendedPerms) : Option XpermBits :=
  let perms := l.foldl (partialStep complete) noXperms
  if avruleXpermsUsed perms then some perms else none

/-- One round of `avrule_ioctl_func`: the range is cut to the driver. -/
def funcStep (driver : BitVec 8) (x : ExtendedPerms) (r : IoctlRange) : ExtendedPerms :=
  let low := r.low.toNat
  let high := r.high.toNat
  let d := driver.toNat
  if d ≠ iocDriv low ∧ d ≠ iocDriv high then x
  else
    let cut := if d = iocDriv low then (low, if iocCmd d 0xff < high then iocCmd d 0xff else high)
      else (if low < iocCmd d 0 then iocCmd d 0 else low, high)
    { specified := xpermsIoctlfunction, driver, perms := avruleXpermSetrangebits (iocFunc cut.1) (iocFunc cut.2) x.perms }

/-- `avrule_ioctl_func` -/
def avruleIoctlFunc (l : List IoctlRange) (driver : BitVec 8) : Option ExtendedPerms :=
  let x := l.foldl (funcStep driver) { specified := 0#8, driver := 0#8, perms := noXperms }
  if avruleXpermsUsed x.perms then some x else none

/-- The records that `define_te_avtab_ioctl` gives its rules, in this order. -/
def ioctlRecords (l : List IoctlRange) : List ExtendedPerms :=
  let complete := avruleIoctlCompletedriver l
  complete.toList ++
    match avruleIoctlPartialdriver l complete with
    | some p => (xpermsForEachBit 256 0 p).filterMap (avruleIoctlFunc l)
    | none => []

/-- `define_te_avtab_ioctl`: the rules that are appended. -/
def defineTeAvtabIoctl (ids : List IoctlId) (template : Avrule) : Except IoctlError (List Avrule) := do
  let l ← avruleIoctlRanges ids
  return (ioctlRecords l).map fun xperms => { template with xperms }

/-! ## The bits of the records -/

variable {l : List IoctlRange}

/-- A loop that sets bits for each range. -/
theorem xpermTest_foldl {σ : Type} {b : σ → XpermBits} {f : σ → IoctlRange → σ} {x : BitVec 8} {Q : IoctlRange → Prop}
    (step : ∀ s, ∀ r ∈ l, xpermTest x (b (f s r)) = true ↔ xpermTest x (b s) = true ∨ Q r) (s : σ) :
    xpermTest x (b (l.foldl f s)) = true ↔ xpermTest x (b s) = true ∨ ∃ r ∈ l, Q r := by
  induction l generalizing s with
  | nil => simp
  | cons r l ih =>
    rw [foldl_cons, ih (fun s r hr => step s r (mem_cons_of_mem _ hr)), step s r mem_cons_self]
    simp [or_assoc]

/-- The range has every command of the driver. -/
def IoctlRange.HasDriver (r : IoctlRange) (d : BitVec 8) : Prop :=
  r.low.toNat ≤ 256 * d.toNat ∧ 256 * d.toNat + 255 ≤ r.high.toNat

/-- The range starts or ends in the driver. -/
def IoctlRange.EndsIn (r : IoctlRange) (d : BitVec 8) : Prop :=
  d.toNat = iocDriv r.low.toNat ∨ d.toNat = iocDriv r.high.toNat

theorem xpermTest_completeStep (p : XpermBits) (r : IoctlRange) (d : BitVec 8) :
    xpermTest d (completeStep p r) = true ↔ xpermTest d p = true ∨ r.HasDriver d := by
  unfold completeStep IoctlRange.HasDriver iocDriv iocFunc
  dsimp only
  generalize hlow : (if r.low.toNat % 256 ≠ 0 then r.low.toNat / 256 + 1 else r.low.toNat / 256) = low
  have hfirst : low ≤ d.toNat ↔ r.low.toNat ≤ 256 * d.toNat := by
    rw [← hlow]
    split <;> omega
  split_ifs with hlt
  · rw [xpermTest_setrangebits d (by omega), Bool.or_eq_true, decide_eq_true_eq, hfirst]
    refine or_congr_right ?_
    omega
  · rw [iff_self_or, ← hfirst]
    omega

theorem xpermTest_complete (l : List IoctlRange) (d : BitVec 8) :
    xpermTest d (l.foldl completeStep noXperms) = true ↔ ∃ r ∈ l, r.HasDriver d := by
  rw [xpermTest_foldl (b := fun p => p) (f := completeStep)
    (Q := fun r => r.HasDriver d) fun p r _ => xpermTest_completeStep p r d]
  simp

/-- The complete record has the commands of the complete drivers. -/
theorem any_completedriver (l : List IoctlRange) (d f : BitVec 8) :
    (∃ x ∈ avruleIoctlCompletedriver l, HasCommand x d f) ↔ ∃ r ∈ l, r.HasDriver d := by
  have hne : xpermsIoctldriver ≠ xpermsIoctlfunction := by decide
  rw [← xpermTest_complete, avruleIoctlCompletedriver]
  split
  · simp [HasCommand, hne]
  next hused =>
    rw [avruleXpermsUsed_iff] at hused
    simp only [Option.mem_def, reduceCtorEq, false_and, exists_false, false_iff]
    exact fun h => hused ⟨d, h⟩

theorem xpermTest_setPartial (l : List IoctlRange) (p : XpermBits) (x d : BitVec 8) :
    xpermTest d (setPartial (avruleIoctlCompletedriver l) x p) = true ↔ xpermTest d p = true ∨ d = x ∧
      ¬∃ r ∈ l, r.HasDriver d := by
  rw [← xpermTest_complete, avruleIoctlCompletedriver]
  unfold setPartial
  by_cases hused : avruleXpermsUsed (l.foldl completeStep noXperms) = true
  · rw [if_pos hused]
    dsimp only
    split
    next hx =>
      rw [iff_self_or]
      intro h
      exact absurd (h.1 ▸ hx) h.2
    next hx =>
      rw [xpermTest_xpermSet, Bool.or_eq_true, decide_eq_true_eq]
      refine or_congr_right (iff_self_and.mpr ?_)
      intro h
      exact h ▸ hx
  · rw [if_neg hused, xpermTest_xpermSet, Bool.or_eq_true, decide_eq_true_eq]
    refine or_congr_right (iff_self_and.mpr fun _ h => hused ?_)
    exact (avruleXpermsUsed_iff _).mpr ⟨d, h⟩

theorem eq_iocDriv_iff {d : BitVec 8} {x : BitVec 16} :
    d = BitVec.ofNat 8 (iocDriv x.toNat) ↔ d.toNat = iocDriv x.toNat := by
  rw [← BitVec.toNat_inj, BitVec.toNat_ofNat, iocDriv, Nat.mod_eq_of_lt (by omega)]

/-- The drivers with a record of their own. -/
theorem mem_partial_iff (l : List IoctlRange) (d : BitVec 8) :
    (∃ p ∈ avruleIoctlPartialdriver l (avruleIoctlCompletedriver l), xpermTest d p = true) ↔
      (∃ r ∈ l, r.EndsIn d) ∧ ¬∃ r ∈ l, r.HasDriver d := by
  have hfold : xpermTest d (l.foldl (partialStep (avruleIoctlCompletedriver l)) noXperms) = true ↔
      (∃ r ∈ l, r.EndsIn d) ∧ ¬∃ r ∈ l, r.HasDriver d := by
    rw [xpermTest_foldl (b := fun p => p) (f := partialStep (avruleIoctlCompletedriver l))
      (Q := fun r => r.EndsIn d ∧ ¬∃ r ∈ l, r.HasDriver d)]
    · simp only [xpermTest_noXperms, Bool.false_eq_true, false_or, ← and_assoc, exists_and_right]
    · intro p r _
      unfold partialStep IoctlRange.EndsIn
      rw [xpermTest_setPartial, xpermTest_setPartial, eq_iocDriv_iff, eq_iocDriv_iff, or_assoc, or_and_right]
  rw [← hfold, avruleIoctlPartialdriver]
  split
  · simp
  next hused =>
    rw [avruleXpermsUsed_iff] at hused
    simp only [Option.mem_def, reduceCtorEq, false_and, exists_false, false_iff]
    exact fun h => hused ⟨d, h⟩

/-! ## The records of functions -/

theorem xpermTest_funcStep {r : IoctlRange} (hr : r.Formed) (d : BitVec 8) (x : ExtendedPerms) (f : BitVec 8) :
    xpermTest f (funcStep d x r).perms = true ↔ xpermTest f x.perms = true ∨ r.EndsIn d ∧
      r.Has (256 * d.toNat + f.toNat) := by
  unfold IoctlRange.Formed at hr
  unfold funcStep IoctlRange.EndsIn IoctlRange.Has iocCmd iocDriv iocFunc
  dsimp only
  split_ifs with hout hlow hcut hcut
  · rw [iff_self_or]
    omega
  all_goals
    rw [xpermTest_setrangebits f (by dsimp only; omega), Bool.or_eq_true, decide_eq_true_eq]
    refine or_congr_right ?_
    omega

/-- A record that has bits is one of its driver. -/
theorem funcStep_kind (d : BitVec 8) (l : List IoctlRange) (x : ExtendedPerms)
    (hx : avruleXpermsUsed x.perms = true → x.specified = xpermsIoctlfunction ∧ x.driver = d)
    (hused : avruleXpermsUsed (l.foldl (funcStep d) x).perms = true) :
    (l.foldl (funcStep d) x).specified = xpermsIoctlfunction ∧ (l.foldl (funcStep d) x).driver = d := by
  induction l generalizing x with
  | nil => exact hx hused
  | cons r l ih =>
    refine ih (funcStep d x r) ?_ hused
    intro h
    unfold funcStep at h ⊢
    dsimp only at h ⊢
    split
    next hout =>
      rw [if_pos hout] at h
      exact hx h
    · exact ⟨rfl, rfl⟩

theorem any_func (hl : ∀ r ∈ l, r.Formed) (i d f : BitVec 8) :
    (∃ x ∈ avruleIoctlFunc l i, HasCommand x d f) ↔ i = d ∧ ∃ r ∈ l, r.EndsIn d ∧ r.Has (256 * d.toNat + f.toNat) := by
  have hne : xpermsIoctlfunction ≠ xpermsIoctldriver := by decide
  have hfold : ∀ f, xpermTest f (l.foldl (funcStep i) { specified := 0#8, driver := 0#8, perms := noXperms }).perms = true ↔
      ∃ r ∈ l, r.EndsIn i ∧ r.Has (256 * i.toNat + f.toNat) := by
    intro f
    rw [xpermTest_foldl (b := ExtendedPerms.perms) (f := funcStep i) fun x r hr => xpermTest_funcStep (hl r hr) i x f]
    simp
  have hkind := funcStep_kind i l { specified := 0#8, driver := 0#8, perms := noXperms } fun h => by
    obtain ⟨x, hx⟩ := (avruleXpermsUsed_iff _).mp h
    simp at hx
  rw [avruleIoctlFunc]
  split
  next hused =>
    obtain ⟨hspec, hdriver⟩ := hkind hused
    simp only [Option.mem_def, Option.some.injEq, exists_eq_left', HasCommand, hspec, hdriver, hne, true_and,
      false_and, or_false, hfold]
    refine and_congr_right ?_
    rintro rfl
    rfl
  next hused =>
    simp only [Option.mem_def, reduceCtorEq, false_and, exists_false, false_iff, not_and]
    rintro rfl h
    exact hused ((avruleXpermsUsed_iff _).mpr ⟨f, (hfold f).mpr h⟩)

/-! ## The commands of the records -/

instance (x : ExtendedPerms) (d f : BitVec 8) : Decidable (HasCommand x d f) := inferInstanceAs (Decidable (_ ∨ _))

/-- How many of the records have the command. -/
def timesCovered (l : List ExtendedPerms) (c : BitVec 16) : Nat :=
  l.countP fun x => decide (HasCommand x (BitVec.ofNat 8 (iocDriv c.toNat)) (BitVec.ofNat 8 (iocFunc c.toNat)))

/-- The number is 1 or 0, as `P` holds or not. -/
def OneIf (P : Prop) (n : Nat) : Prop := (P → n = 1) ∧ (¬P → n = 0)

theorem OneIf.add {P Q : Prop} {m n : Nat} (hm : OneIf P m) (hn : OneIf Q n) (hnot : P → ¬Q) : OneIf (P ∨ Q) (m + n) := by
  unfold OneIf at *
  by_cases hP : P
  · simp [hP, hnot hP, hm.1 hP, hn.2 (hnot hP)]
  · by_cases hQ : Q
    · simp [hP, hQ, hm.2 hP, hn.1 hQ]
    · simp [hP, hQ, hm.2 hP, hn.2 hQ]

theorem OneIf.congr {P Q : Prop} {n : Nat} (h : OneIf P n) (hPQ : P ↔ Q) : OneIf Q n := propext hPQ ▸ h

theorem oneIf_option (o : Option ExtendedPerms) (d f : BitVec 8) :
    OneIf (∃ x ∈ o, HasCommand x d f) (o.toList.countP fun x => decide (HasCommand x d f)) := by
  unfold OneIf
  cases o with
  | none => simp
  | some x => by_cases h : HasCommand x d f <;> simp [h]

/-- At most the record of its driver has the command. -/
theorem oneIf_funcs (hl : ∀ r ∈ l, r.Formed) (p : XpermBits) (d f : BitVec 8) :
    OneIf (xpermTest d p = true ∧ ∃ r ∈ l, r.EndsIn d ∧ r.Has (256 * d.toNat + f.toNat))
      (((xpermsForEachBit 256 0 p).filterMap (avruleIoctlFunc l)).countP fun x => decide (HasCommand x d f)) := by
  have hone : ∀ i, ((avruleIoctlFunc l i).map fun x => decide (HasCommand x d f)).getD false = true ↔
      i = d ∧ ∃ r ∈ l, r.EndsIn d ∧ r.Has (256 * d.toNat + f.toNat) := by
    intro i
    rw [← any_func hl i d f]
    cases avruleIoctlFunc l i <;> simp
  have hcount := count_xpermsForEachBit 256 0 rfl p d
  unfold OneIf
  rw [countP_filterMap]
  by_cases hQ : ∃ r ∈ l, r.EndsIn d ∧ r.Has (256 * d.toNat + f.toNat)
  · have hsame : ∀ i ∈ xpermsForEachBit 256 0 p,
        ((avruleIoctlFunc l i).map fun x => decide (HasCommand x d f)).getD false = true ↔ (i == d) = true := by
      intro i _
      rw [hone, beq_iff_eq, and_iff_left hQ]
    rw [countP_congr hsame, ← List.count, hcount]
    by_cases htest : xpermTest d p = true <;> simp [htest, hQ]
  · have hnone : ∀ i ∈ xpermsForEachBit 256 0 p,
        ¬((avruleIoctlFunc l i).map fun x => decide (HasCommand x d f)).getD false = true := by
      intro i _
      rw [hone]
      exact fun h => hQ h.2
    rw [countP_eq_zero.mpr hnone]
    simp only [hQ, and_false, false_implies, implies_true, and_self]

/-- A command is in a range that has its whole driver, or starts or ends in it. -/
theorem covers_iff_driver {d f : BitVec 8} : Covers l (256 * d.toNat + f.toNat) ↔
    (∃ r ∈ l, r.HasDriver d) ∨ ∃ r ∈ l, r.EndsIn d ∧ r.Has (256 * d.toNat + f.toNat) := by
  constructor
  · intro h
    obtain ⟨r, hr, hc⟩ := h
    by_cases hd : r.HasDriver d
    · exact Or.inl ⟨r, hr, hd⟩
    · refine Or.inr ⟨r, hr, ?_, hc⟩
      unfold IoctlRange.HasDriver at hd
      unfold IoctlRange.Has at hc
      unfold IoctlRange.EndsIn iocDriv
      omega
  · intro h
    rcases h with ⟨r, hr, hd⟩ | ⟨r, hr, -, hc⟩
    · refine ⟨r, hr, ?_⟩
      unfold IoctlRange.HasDriver at hd
      unfold IoctlRange.Has
      omega
    · exact ⟨r, hr, hc⟩

/-- A command is in exactly one record if it is in a range, and in none otherwise. -/
theorem ioctlRecords_covers (l : List IoctlRange) (hl : ∀ r ∈ l, r.Formed) (c : BitVec 16) :
    (Covers l c.toNat → timesCovered (ioctlRecords l) c = 1) ∧
      (¬Covers l c.toNat → timesCovered (ioctlRecords l) c = 0) := by
  unfold timesCovered
  have hc : 256 * (BitVec.ofNat 8 (iocDriv c.toNat)).toNat + (BitVec.ofNat 8 (iocFunc c.toNat)).toNat = c.toNat := by
    rw [BitVec.toNat_ofNat, BitVec.toNat_ofNat]
    unfold iocDriv iocFunc
    omega
  generalize BitVec.ofNat 8 (iocDriv c.toNat) = d at hc
  generalize BitVec.ofNat 8 (iocFunc c.toNat) = f at hc
  have hcomplete : OneIf (∃ r ∈ l, r.HasDriver d)
      ((avruleIoctlCompletedriver l).toList.countP fun x => decide (HasCommand x d f)) :=
    (oneIf_option _ d f).congr (any_completedriver l d f)
  have hends : (∃ r ∈ l, r.EndsIn d ∧ r.Has (256 * d.toNat + f.toNat)) → ∃ r ∈ l, r.EndsIn d := by
    intro h
    obtain ⟨r, hr, hend, -⟩ := h
    exact ⟨r, hr, hend⟩
  rw [← hc, covers_iff_driver, ioctlRecords, countP_append]
  refine OneIf.congr (OneIf.add (Q := ?_) hcomplete ?_ ?_) ?_
  · exact (¬∃ r ∈ l, r.HasDriver d) ∧ ∃ r ∈ l, r.EndsIn d ∧ r.Has (256 * d.toNat + f.toNat)
  · have hdrivers := mem_partial_iff l d
    split
    next p hp =>
      simp only [hp, Option.mem_def, Option.some.injEq, exists_eq_left'] at hdrivers
      refine (oneIf_funcs hl p d f).congr ?_
      rw [hdrivers, and_right_comm, and_iff_right_of_imp hends, and_comm]
    next hp =>
      simp only [hp, Option.mem_def, reduceCtorEq, false_and, exists_false, false_iff] at hdrivers
      exact ⟨fun h => absurd ⟨hends h.2, h.1⟩ hdrivers, fun _ => rfl⟩
  · exact fun h hnot => hnot.1 h
  · by_cases h : ∃ r ∈ l, r.HasDriver d
    · simp only [h, not_true_eq_false, false_and, or_false, true_or]
    · simp only [h, not_false_eq_true, true_and]

/-- Part of a driver, two whole ones and part of the next. -/
theorem ioctlRecords_covers_span :
    timesCovered (ioctlRecords [⟨0x1280, 0x1507⟩]) 0x1381 = 1 ∧
      timesCovered (ioctlRecords [⟨0x1280, 0x1507⟩]) 0x1508 = 0 := by
  have hl : ∀ r ∈ [(⟨0x1280, 0x1507⟩ : IoctlRange)], r.Formed := by
    refine forall_mem_singleton.mpr ?_
    show (0x1280 : Nat) ≤ 0x1507
    decide
  refine ⟨(ioctlRecords_covers _ hl _).1 ?_, (ioctlRecords_covers _ hl _).2 ?_⟩
  · refine covers_cons.mpr (Or.inl ?_)
    show (0x1280 : Nat) ≤ 0x1381 ∧ (0x1381 : Nat) ≤ 0x1507
    decide
  · rw [covers_cons, or_iff_left (covers_nil _)]
    show ¬((0x1280 : Nat) ≤ 0x1508 ∧ (0x1508 : Nat) ≤ 0x1507)
    decide

end SELinux.Checkpolicy
