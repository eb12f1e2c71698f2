/-
  SELinux.Cil.Ioctl — extended permission rules in the compiled policy
  (`libsepol/cil/src/cil_binary.c`: `__cil_avrulex_ioctl_to_hashtable`,
  `__cil_avrulex_ioctl_to_policydb`).

  The commands of the rules of a key are united in one bitmap. The loop over its bits cuts it into
  runs that end with the driver at the latest. The drivers of which all commands are there go into
  one record, those of the other drivers into a record each, which is inserted when the loop comes
  to the next driver.

  `cilAvrulexIoctl_commands`: the inserted nodes have the commands of the rules, key by key.
-/
import SELinux.Checkpolicy.IoctlDrivers
import SELinux.Cil.TypeRules
import SELinux.Db.Types

namespace SELinux.Cil

open Db Check Checkpolicy Lib List

/-! ## The table of the commands -/

/-- `kind`; `other` is everything else. -/
inductive AvrulexKind
  | allowed
  | auditallow
  | dontaudit
  | other
  deriving DecidableEq, Repr

def AvrulexKind.specified : AvrulexKind → Option (BitVec 16)
  | .allowed => some avtabXpermsAllowed
  | .auditallow => some avtabXpermsAuditallow
  | .dontaudit => some avtabXpermsDontaudit
  | .other => none

/-- The arguments of a call. A `permissionx` has commands of 16 bits. -/
structure IoctlRule where
  kind : AvrulexKind
  src : BitVec 32
  tgt : BitVec 32
  obj : BitVec 32
  xperms : Bitmap
  short : ∀ i, xperms.has i = true → i < 65536

/-- The key of a rule. Its fields are `uint16_t`. -/
def IoctlRule.key (r : IoctlRule) : Option AvtabKey :=
  r.kind.specified.map fun specified => ⟨r.src.setWidth 16, r.tgt.setWidth 16, r.obj.setWidth 16, specified⟩

/-- The entries of the hash table, which `avrulex_compare` keeps apart by the whole key. -/
abbrev IoctlTable := List (AvtabKey × Bitmap)

/-- `__cil_avrulex_ioctl_to_hashtable`; `none` is an error. -/
def cilAvrulexIoctlToHashtable (h : IoctlTable) (r : IoctlRule) : Option IoctlTable :=
  r.key.map fun key =>
    if h.any (·.1 == key) then h.map fun e => if e.1 = key then (e.1, e.2.union r.xperms) else e
    else h ++ [(key, r.xperms)]

/-! ## The loop over the bits -/

/-- The locals of the loop, and the table of the policy. -/
structure IoctlWalk where
  startNewRange : Bool := true
  low : Nat := 0
  partialPerms : Option ExtendedPerms := none
  completePerms : Option ExtendedPerms := none
  te : Avtab

/-- `avtab_insert` of a record, if there is one. -/
def insertXperms (key : AvtabKey) (te : Avtab) : Option ExtendedPerms → Except AvtabError Avtab
  | none => .ok te
  | some xperms => avtabInsert te key { xperms }

/-- The end of a range that is a whole driver. -/
def completeRange (s : IoctlWalk) (low : Nat) : IoctlWalk :=
  let complete := s.completePerms.getD { driver := 0#8, specified := xpermsIoctldriver }
  let perms := avruleXpermSetrangebits (iocDriv low) (iocDriv low) complete.perms
  { s with startNewRange := true, low, completePerms := some { complete with perms } }

/-- The end of another range. A record of another driver is inserted first. -/
def partialRange (key : AvtabKey) (s : IoctlWalk) (low high : Nat) : Except AvtabError IoctlWalk := do
  let driver := BitVec.ofNat 8 (iocDriv low)
  let same := s.partialPerms.filter (·.driver = driver)
  let te ← if same.isNone then insertXperms key s.te s.partialPerms else .ok s.te
  let x := same.getD { driver, specified := xpermsIoctlfunction }
  let perms := avruleXpermSetrangebits (iocFunc low) (iocFunc high) x.perms
  return { s with startNewRange := true, low, partialPerms := some { x with perms }, te }

/-- One round, for a bit that is set. -/
def ioctlRound (key : AvtabKey) (xperms : Bitmap) (s : IoctlWalk) (i : Nat) : Except AvtabError IoctlWalk :=
  let low := if s.startNewRange then i else s.low
  if iocFunc i ≠ 0xff ∧ xperms.has (i + 1) = true then .ok { s with startNewRange := false, low }
  else if iocFunc low = 0x00 ∧ iocFunc i = 0xff then .ok (completeRange s low)
  else partialRange key s low i

/-- `__cil_avrulex_ioctl_to_policydb` -/
def cilAvrulexIoctlToPolicydb (te : Avtab) (e : AvtabKey × Bitmap) : Except AvtabError Avtab := do
  let s ← e.2.bits.foldlM (ioctlRound e.1 e.2) { te }
  let te ← insertXperms e.1 s.te s.partialPerms
  insertXperms e.1 te s.completePerms

/-! ## What is inserted -/

/-- The table has got nodes with exactly these commands, key by key. -/
structure AddsXperms (te te' : Avtab) (C : AvtabKey → BitVec 8 → BitVec 8 → Prop) : Prop where
  nslot : te'.nslot = te.nslot
  keeps : ∀ n ∈ te.nodes, n ∈ te'.nodes
  added : ∀ k d f, (∃ n ∈ te'.nodes, n ∉ te.nodes ∧ n.key = k ∧ HasCommand n.datum.xperms d f) ↔ C k d f

variable {te te' te'' : Avtab} {C C' : AvtabKey → BitVec 8 → BitVec 8 → Prop} {key : AvtabKey} {xperms : Bitmap}
  {s : IoctlWalk} {low high i pos : Nat} {d f : BitVec 8}

theorem AddsXperms.refl : AddsXperms te te fun _ _ _ => False where
  nslot := rfl
  keeps _ hn := hn
  added k d f := by
    refine iff_of_false ?_ id
    intro h
    obtain ⟨n, hn, hnew, -⟩ := h
    exact hnew hn

theorem AddsXperms.trans (h : AddsXperms te te' C) (h' : AddsXperms te' te'' C') :
    AddsXperms te te'' fun k d f => C k d f ∨ C' k d f where
  nslot := h'.nslot.trans h.nslot
  keeps n hn := h'.keeps n (h.keeps n hn)
  added k d f := by
    rw [← h.added, ← h'.added]
    constructor
    · intro hn
      obtain ⟨n, hn, hnew, hk⟩ := hn
      by_cases hmid : n ∈ te'.nodes
      · exact .inl ⟨n, hmid, hnew, hk⟩
      · exact .inr ⟨n, hn, hmid, hk⟩
    · intro hn
      rcases hn with ⟨n, hn, hnew, hk⟩ | ⟨n, hn, hnew, hk⟩
      · exact ⟨n, h'.keeps n hn, hnew, hk⟩
      · exact ⟨n, hn, fun hold => hnew (h.keeps n hold), hk⟩

theorem AddsXperms.congr (h : AddsXperms te te' C) (hC : ∀ k d f, C k d f ↔ C' k d f) : AddsXperms te te' C' :=
  ⟨h.nslot, h.keeps, fun k d f => (h.added k d f).trans (hC k d f)⟩

/-- The key of an extended permission rule. -/
def IsXperms (key : AvtabKey) : Prop := key.specified ∈ [avtabXpermsAllowed, avtabXpermsAuditallow, avtabXpermsDontaudit]

theorem IsXperms.bits (h : IsXperms key) :
    key.specified &&& avtabXperms ≠ 0#16 ∧ key.specified &&& ~~~avtabEnabled &&& avtabXperms ≠ 0#16 := by
  simp only [IsXperms, mem_cons, not_mem_nil, or_false] at h
  rcases h with h | h | h <;> rw [h] <;> decide

/-- A record is inserted whatever the table has. -/
theorem insertPerms_adds (h0 : te.nslot ≠ 0) (hkey : IsXperms key) (r : Option ExtendedPerms) :
    ∃ te', insertXperms key te r = .ok te' ∧ AddsXperms te te' fun k d f => k = key ∧ ∃ x ∈ r, HasCommand x d f := by
  cases r with
  | none => exact ⟨te, rfl, AddsXperms.refl.congr (by simp)⟩
  | some x =>
    have hnew : te.newNode key { xperms := x } none ∉ te.nodes := by
      intro h
      obtain ⟨i, hi⟩ := Avtab.mem_nodes.mp h
      exact absurd (te.fresh i _ hi) (Nat.lt_irrefl _)
    refine ⟨te.insertNode h0 key { xperms := x } none, ?_, rfl, fun n hn => mem_nodes_insertNode.mpr (.inr hn), ?_⟩
    · rw [insertXperms, avtabInsert, dif_neg h0, if_neg]
      rw [Bool.and_eq_true, beq_iff_eq]
      exact fun h => hkey.bits.2 h.2
    · intro k d f
      simp only [mem_nodes_insertNode, Option.mem_def, Option.some.injEq, exists_eq_left']
      constructor
      · intro h
        obtain ⟨n, hn, hold, hk, hc⟩ := h
        obtain rfl := hn.resolve_right hold
        rw [Avtab.newNode, storedDatum, if_pos hkey.bits.1] at hc
        exact ⟨hk.symm, hc⟩
      · intro h
        refine ⟨_, .inl rfl, hnew, h.1.symm, ?_⟩
        rw [Avtab.newNode, storedDatum, if_pos hkey.bits.1]
        exact h.2

/-! ## The runs -/

/-- The command of a driver and a function. -/
def command (d f : BitVec 8) : Nat := iocCmd d.toNat f.toNat

/-- The commands before `bound` have been written or are in one of the records. -/
def Written (te : Avtab) (key : AvtabKey) (xperms : Bitmap) (s : IoctlWalk) (bound : Nat) : Prop :=
  ∃ T : BitVec 8 → BitVec 8 → Prop, AddsXperms te s.te (fun k d f => k = key ∧ T d f) ∧
    ∀ d f, (T d f ∨ (∃ x ∈ s.partialPerms, HasCommand x d f) ∨ ∃ x ∈ s.completePerms, HasCommand x d f) ↔
      xperms.has (command d f) = true ∧ command d f < bound

/-- The bits before `pos` are gone through. A range that is open is within one driver, and the bit
    at `pos` goes on with it. -/
structure Walked (te : Avtab) (key : AvtabKey) (xperms : Bitmap) (s : IoctlWalk) (pos : Nat) : Prop where
  goesOn : s.startNewRange = false → s.low < pos ∧ iocDriv s.low = iocDriv pos ∧
    ∀ j, s.low ≤ j → j ≤ pos → xperms.has j = true
  partialKind : ∀ x ∈ s.partialPerms, x.specified = xpermsIoctlfunction
  completeKind : ∀ x ∈ s.completePerms, x.specified = xpermsIoctldriver
  written : Written te key xperms s (if s.startNewRange then pos else s.low)

/-- The range that a set bit ends or goes on with. -/
structure Ranged (te : Avtab) (key : AvtabKey) (xperms : Bitmap) (s : IoctlWalk) (low i : Nat) : Prop where
  le : low ≤ i
  driver : iocDriv low = iocDriv i
  full : ∀ j, low ≤ j → j ≤ i → xperms.has j = true
  written : Written te key xperms s low

variable {x : ExtendedPerms}

theorem hasCommand_driver (h : x.specified = xpermsIoctldriver) : HasCommand x d f ↔ xpermTest d x.perms = true := by
  have hne : xpermsIoctldriver ≠ xpermsIoctlfunction := by decide
  simp [HasCommand, h, hne]

theorem hasCommand_function (h : x.specified = xpermsIoctlfunction) :
    HasCommand x d f ↔ x.driver = d ∧ xpermTest f x.perms = true := by
  have hne : xpermsIoctlfunction ≠ xpermsIoctldriver := by decide
  simp [HasCommand, h, hne]

theorem Walked.ranged (h : Walked te key xperms s pos) (hi : pos ≤ i) (hbit : xperms.has i = true)
    (hgap : ∀ j, pos ≤ j → j < i → xperms.has j = false) :
    Ranged te key xperms s (if s.startNewRange then i else s.low) i := by
  have hw := h.written
  cases hs : s.startNewRange with
  | true =>
    rw [hs, if_pos rfl] at hw
    obtain ⟨T, hT, hiff⟩ := hw
    refine ⟨Nat.le_refl i, rfl, fun j h1 h2 => Nat.le_antisymm h1 h2 ▸ hbit, T, hT, fun d f => (hiff d f).trans ?_⟩
    refine and_congr_right fun hc => ⟨fun hlt => lt_of_lt_of_le hlt hi, fun hlt => ?_⟩
    by_contra hle
    rw [hgap _ (by omega) hlt] at hc
    exact Bool.false_ne_true hc
  | false =>
    obtain ⟨hlt, hdriver, hfull⟩ := h.goesOn hs
    -- the bit at `pos` is set, so it is the next one
    have hpos : pos = i := by
      by_contra hne
      have hset := hfull pos hlt.le (Nat.le_refl _)
      rw [hgap pos (Nat.le_refl _) (by omega)] at hset
      exact Bool.false_ne_true hset
    subst hpos
    rw [hs] at hw
    exact ⟨hlt.le, hdriver, hfull, hw⟩

/-- The commands up to the end of the range. -/
theorem Ranged.upTo (h : Ranged te key xperms s low i) (d f : BitVec 8) :
    (xperms.has (command d f) = true ∧ command d f < low ∨ low ≤ command d f ∧ command d f ≤ i) ↔
      xperms.has (command d f) = true ∧ command d f < i + 1 := by
  have := h.le
  constructor
  · intro hc
    rcases hc with hc | hc
    · exact ⟨hc.1, by omega⟩
    · exact ⟨h.full _ hc.1 hc.2, by omega⟩
  · intro hc
    by_cases hlt : command d f < low
    · exact .inl ⟨hc.1, hlt⟩
    · exact .inr (by omega)

theorem hasCommand_new (specified driver : BitVec 8) : ¬HasCommand { specified, driver } d f := by
  have hd : xpermTest d (Vector.replicate 8 0#32) = false := xpermTest_noXperms d
  have hf : xpermTest f (Vector.replicate 8 0#32) = false := xpermTest_noXperms f
  simp [HasCommand, hd, hf]

/-- The record that is there, or a new one, has the commands of the one that is there. -/
theorem hasCommand_getD (r : Option ExtendedPerms) (specified driver : BitVec 8) :
    HasCommand (r.getD { specified, driver }) d f ↔ ∃ x ∈ r, HasCommand x d f := by
  cases r with
  | none => simp [hasCommand_new]
  | some x => simp

theorem specified_getD {r : Option ExtendedPerms} {specified : BitVec 8} (hr : ∀ x ∈ r, x.specified = specified)
    (driver : BitVec 8) : (r.getD { specified, driver }).specified = specified := by
  cases r with
  | none => rfl
  | some x => exact hr x rfl

theorem hasCommand_setDriver (hx : x.specified = xpermsIoctldriver) :
    HasCommand { x with perms := avruleXpermSetrangebits (iocDriv low) (iocDriv low) x.perms } d f ↔
      HasCommand x d f ∨ iocDriv low = d.toNat := by
  rw [hasCommand_driver hx, hasCommand_driver (by exact hx), xpermTest_setrangebits d (Nat.le_refl _),
    Bool.or_eq_true, decide_eq_true_eq, ← le_antisymm_iff]

theorem hasCommand_setFunctions (hx : x.specified = xpermsIoctlfunction) (hle : low ≤ high) :
    HasCommand { x with perms := avruleXpermSetrangebits low high x.perms } d f ↔
      HasCommand x d f ∨ x.driver = d ∧ low ≤ f.toNat ∧ f.toNat ≤ high := by
  rw [hasCommand_function hx, hasCommand_function (by exact hx), xpermTest_setrangebits f hle, Bool.or_eq_true,
    decide_eq_true_eq, and_or_left]

theorem walked_completeRange (hw : Walked te key xperms s pos) (h : Ranged te key xperms s low i) (hlow : iocFunc low = 0)
    (hhigh : iocFunc i = 255) : Walked te key xperms (completeRange s low) (i + 1) := by
  have hkind := specified_getD hw.completeKind 0#8
  refine ⟨fun hs => Bool.noConfusion hs, hw.partialKind, ?_, ?_⟩
  · intro x hx
    cases hx
    exact hkind
  · obtain ⟨T, hT, hiff⟩ := h.written
    refine ⟨T, hT, fun d f => ?_⟩
    have hrange : iocDriv low = d.toNat ↔ low ≤ command d f ∧ command d f ≤ i := by
      have := h.driver
      unfold iocFunc at hlow hhigh
      unfold iocDriv at this ⊢
      unfold command iocCmd
      omega
    show (T d f ∨ (∃ x ∈ s.partialPerms, HasCommand x d f) ∨ ∃ x ∈ some _, HasCommand x d f) ↔
      xperms.has (command d f) = true ∧ command d f < i + 1
    rw [← h.upTo, ← hiff, ← hrange, ← hasCommand_getD s.completePerms xpermsIoctldriver 0#8]
    simp only [Option.mem_def, Option.some.injEq, exists_eq_left', hasCommand_setDriver hkind, or_assoc]

/-- The range is in the record of its driver. -/
theorem Ranged.functions (h : Ranged te key xperms s low i) (hi : i < 65536) :
    iocFunc low ≤ iocFunc i ∧ ∀ d f : BitVec 8, BitVec.ofNat 8 (iocDriv low) = d ∧ iocFunc low ≤ f.toNat ∧
      f.toNat ≤ iocFunc i ↔
      low ≤ command d f ∧ command d f ≤ i := by
  have hd := h.driver
  have hle := h.le
  unfold iocDriv at hd ⊢
  unfold iocFunc
  refine ⟨by omega, fun d f => ?_⟩
  rw [← BitVec.toNat_inj, BitVec.toNat_ofNat]
  unfold command iocCmd
  omega

theorem partialRange_walked (hte : te.nslot ≠ 0) (hkey : IsXperms key) (hw : Walked te key xperms s pos)
    (h : Ranged te key xperms s low i) (hi : i < 65536) :
    ∃ s', partialRange key s low i = .ok s' ∧ Walked te key xperms s' (i + 1) := by
  obtain ⟨T, hT, hiff⟩ := h.written
  obtain ⟨hfunc, hrange⟩ := h.functions hi
  unfold partialRange
  cases hsame : s.partialPerms.filter (·.driver = BitVec.ofNat 8 (iocDriv low)) with
  | none =>
    -- the record of the driver before is inserted, and a new one begins
    obtain ⟨te', hins, hadds⟩ := insertPerms_adds (hT.nslot ▸ hte) hkey s.partialPerms
    simp only [hsame, Option.isNone_none, if_true, hins]
    refine ⟨_, rfl, fun hs => Bool.noConfusion hs, fun x hx => ?_, hw.completeKind, _,
      (hT.trans hadds).congr fun k d f => and_or_left.symm, fun d f => ?_⟩
    · cases hx
      rfl
    · have hnew := hasCommand_setFunctions
        (x := { specified := xpermsIoctlfunction, driver := BitVec.ofNat 8 (iocDriv low) }) (d := d) (f := f) rfl hfunc
      rw [or_iff_right (hasCommand_new _ _)] at hnew
      rw [if_pos rfl, ← h.upTo, ← hiff, ← hrange, ← hnew]
      simp only [Option.mem_def, Option.some.injEq, exists_eq_left', Option.getD_none, or_assoc, or_left_comm, or_comm]
  | some x =>
    obtain ⟨hsome, hdriver⟩ := Option.filter_eq_some_iff.mp hsame
    simp only [hsame, Option.isNone_some, Bool.false_eq_true, if_false, Option.getD_some]
    refine ⟨_, rfl, fun hs => Bool.noConfusion hs, fun y hy => ?_, hw.completeKind, T, hT, fun d f => ?_⟩
    · cases hy
      exact hw.partialKind x hsome
    · rw [if_pos rfl, ← h.upTo, ← hiff, ← hrange, ← of_decide_eq_true hdriver, hsome]
      simp only [Option.mem_def, Option.some.injEq, exists_eq_left', hasCommand_setFunctions (hw.partialKind x hsome) hfunc,
        or_assoc, or_left_comm, or_comm]

theorem ioctlRound_walked (hte : te.nslot ≠ 0) (hkey : IsXperms key) (hw : Walked te key xperms s pos) (hpos : pos ≤ i)
    (hbit : xperms.has i = true) (hgap : ∀ j, pos ≤ j → j < i → xperms.has j = false) (hi : i < 65536) :
    ∃ s', ioctlRound key xperms s i = .ok s' ∧ Walked te key xperms s' (i + 1) := by
  have h := hw.ranged hpos hbit hgap
  unfold ioctlRound
  dsimp only
  generalize (if s.startNewRange = true then i else s.low) = low at h
  split_ifs with hnext hwhole
  · refine ⟨_, rfl, fun _ => ⟨Nat.lt_succ_of_le h.le, ?_, fun j h1 h2 => ?_⟩, hw.partialKind, hw.completeKind, h.written⟩
    · have := h.driver
      unfold iocFunc at hnext
      unfold iocDriv at this ⊢
      dsimp only
      omega
    · rcases Nat.lt_or_eq_of_le h2 with hlt | rfl
      · exact h.full j h1 (Nat.le_of_lt_succ hlt)
      · exact hnext.2
  · exact ⟨_, rfl, walked_completeRange hw h hwhole.1 hwhole.2⟩
  · exact partialRange_walked hte hkey hw h hi

/-- The loop over the bits from `pos` on. -/
theorem foldlM_walked (hte : te.nslot ≠ 0) (hkey : IsXperms key) (hshort : ∀ i, xperms.has i = true → i < 65536)
    {rest : List Nat} (hsorted : rest.Pairwise (· < ·)) (hrest : ∀ j, j ∈ rest ↔ pos ≤ j ∧ xperms.has j = true)
    (hw : Walked te key xperms s pos) :
    ∃ s' pos', rest.foldlM (ioctlRound key xperms) s = .ok s' ∧ Walked te key xperms s' pos' ∧
      ∀ j, pos' ≤ j → xperms.has j = false := by
  induction rest generalizing s pos with
  | nil =>
    refine ⟨s, pos, rfl, hw, fun j hj => Bool.eq_false_iff.mpr fun hset => ?_⟩
    exact absurd ((hrest j).mpr ⟨hj, hset⟩) not_mem_nil
  | cons i rest ih =>
    obtain ⟨hhead, htail⟩ := pairwise_cons.mp hsorted
    obtain ⟨hpos, hbit⟩ := (hrest i).mp mem_cons_self
    have hnext : ∀ j, pos ≤ j → xperms.has j = true → j = i ∨ j ∈ rest :=
      fun j hj hset => mem_cons.mp ((hrest j).mpr ⟨hj, hset⟩)
    obtain ⟨t, ht, hwt⟩ := ioctlRound_walked hte hkey hw hpos hbit (fun j h1 h2 => Bool.eq_false_iff.mpr fun hset => by
      rcases hnext j h1 hset with rfl | hmem
      · omega
      · have := hhead j hmem
        omega) (hshort i hbit)
    have hlater : ∀ j, j ∈ rest ↔ i + 1 ≤ j ∧ xperms.has j = true := by
      intro j
      constructor
      · intro hj
        exact ⟨hhead j hj, ((hrest j).mp (mem_cons_of_mem i hj)).2⟩
      · intro hj
        exact (hnext j (by omega) hj.2).resolve_left (by omega)
    obtain ⟨s', pos', hs', h⟩ := ih htail hlater hwt
    refine ⟨s', pos', ?_, h⟩
    rw [foldlM_cons, ht]
    exact hs'

/-- The nodes of an entry have the commands of its bitmap. -/
theorem cilAvrulexIoctlToPolicydb_adds (hte : te.nslot ≠ 0) {e : AvtabKey × Bitmap} (hkey : IsXperms e.1)
    (hshort : ∀ i, e.2.has i = true → i < 65536) :
    ∃ te', cilAvrulexIoctlToPolicydb te e = .ok te' ∧ AddsXperms te te' fun k d f => k = e.1 ∧
      e.2.has (command d f) = true := by
  have hstart : Walked te e.1 e.2 { te } 0 :=
    ⟨fun h => Bool.noConfusion h, by simp, by simp, fun _ _ => False, AddsXperms.refl.congr (by simp), by simp⟩
  obtain ⟨s, pos, hs, hw, hend⟩ := foldlM_walked hte hkey hshort (ebitmapBits_sorted e.2.2)
    (fun j => ⟨fun hj => ⟨Nat.zero_le j, Bitmap.mem_bits.mp hj⟩, fun hj => Bitmap.mem_bits.mpr hj.2⟩) hstart
  -- no range is open at the end
  have hclosed : s.startNewRange = true := by
    by_contra hne
    obtain ⟨hlt, -, hfull⟩ := hw.goesOn (Bool.eq_false_iff.mpr hne)
    have hset := hfull pos hlt.le (Nat.le_refl pos)
    rw [hend pos (Nat.le_refl pos)] at hset
    exact Bool.false_ne_true hset
  obtain ⟨T, hT, hiff⟩ := hw.written
  obtain ⟨te1, h1, hadds1⟩ := insertPerms_adds (hT.nslot ▸ hte) hkey s.partialPerms
  obtain ⟨te2, h2, hadds2⟩ := insertPerms_adds (hadds1.nslot ▸ hT.nslot ▸ hte) hkey s.completePerms
  refine ⟨te2, ?_, ((hT.trans hadds1).trans hadds2).congr fun k d f => ?_⟩
  · rw [cilAvrulexIoctlToPolicydb, Bitmap.bits, hs]
    show (insertXperms e.1 s.te s.partialPerms >>= fun te => insertXperms e.1 te s.completePerms) = _
    rw [h1]
    exact h2
  · rw [← and_or_left, ← and_or_left, or_assoc, hiff, hclosed, if_pos rfl]
    refine and_congr_right fun _ => and_iff_left_of_imp fun hset => ?_
    by_contra hge
    rw [hend _ (by omega)] at hset
    exact Bool.false_ne_true hset

/-! ## All rules -/

/-- The table holds the commands of the rules gone through. -/
structure Collected (rules : List IoctlRule) (h : IoctlTable) : Prop where
  has : ∀ k i, (∃ e ∈ h, e.1 = k ∧ e.2.has i = true) ↔ ∃ r ∈ rules, r.key = some k ∧ r.xperms.has i = true
  xperms : ∀ e ∈ h, IsXperms e.1

theorem IoctlRule.key_isXperms {r : IoctlRule} (h : r.key = some key) : IsXperms key := by
  obtain ⟨specified, hspecified, rfl⟩ := Option.map_eq_some_iff.mp h
  cases hk : r.kind <;> simp [hk, AvrulexKind.specified] at hspecified <;> simp [IsXperms, ← hspecified]

theorem Collected.step {rules : List IoctlRule} {h h' : IoctlTable} (hc : Collected rules h) {r : IoctlRule}
    (hr : cilAvrulexIoctlToHashtable h r = some h') : Collected (rules ++ [r]) h' := by
  obtain ⟨key, hkey, rfl⟩ := Option.map_eq_some_iff.mp hr
  have hrules : ∀ k i, (∃ r' ∈ rules ++ [r], r'.key = some k ∧ r'.xperms.has i = true) ↔
      (∃ e ∈ h, e.1 = k ∧ e.2.has i = true) ∨ key = k ∧ r.xperms.has i = true := by
    simp [hc.has, or_and_right, exists_or, hkey]
  split
  next hany =>
    obtain ⟨e, he, hek⟩ := any_eq_true.mp hany
    have hunion : ∀ (e : AvtabKey × Bitmap) k i, ((if e.1 = key then (e.1, e.2.union r.xperms) else e).1 = k ∧
        (if e.1 = key then (e.1, e.2.union r.xperms) else e).2.has i = true) ↔
        (e.1 = k ∧ e.2.has i = true) ∨ e.1 = key ∧ key = k ∧ r.xperms.has i = true := by
      intro e k i
      split
      next hk =>
        rw [Bitmap.has_union, hk]
        simp [and_or_left]
      · simp [*]
    refine ⟨fun k i => ?_, fun x hx => ?_⟩
    · rw [hrules]
      simp only [mem_map, exists_exists_and_eq_and, hunion, and_or_left, exists_or]
      refine or_congr_right ⟨fun hx => hx.choose_spec.2.2, fun hx => ⟨e, he, beq_iff_eq.mp hek, hx⟩⟩
    · obtain ⟨y, hy, rfl⟩ := mem_map.mp hx
      split
      · exact hc.xperms y hy
      · exact hc.xperms y hy
  · refine ⟨fun k i => ?_, fun x hx => ?_⟩
    · rw [hrules]
      simp [or_and_right, exists_or]
    · rcases mem_append.mp hx with hx | hx
      · exact hc.xperms x hx
      · rw [mem_singleton.mp hx]
        exact IoctlRule.key_isXperms hkey

theorem Collected.steps {rules : List IoctlRule} {h h' : IoctlTable} (l : List IoctlRule) (hc : Collected rules h)
    (hl : l.foldlM cilAvrulexIoctlToHashtable h = some h') : Collected (rules ++ l) h' := by
  induction l generalizing rules h with
  | nil =>
    cases hl
    rwa [append_nil]
  | cons r l ih =>
    obtain ⟨t, ht, hl⟩ := Option.bind_eq_some_iff.mp hl
    rw [append_cons]
    exact ih (hc.step ht) hl

/-- The entries one after the other. -/
theorem foldlM_adds (hte : te.nslot ≠ 0) {l : IoctlTable} (hl : ∀ e ∈ l, IsXperms e.1 ∧ ∀ i, e.2.has i = true → i < 65536) :
    ∃ te', l.foldlM cilAvrulexIoctlToPolicydb te = .ok te' ∧ AddsXperms te te' fun k d f => ∃ e ∈ l, e.1 = k ∧
      e.2.has (command d f) = true := by
  induction l generalizing te with
  | nil => exact ⟨te, rfl, AddsXperms.refl.congr (by simp)⟩
  | cons e l ih =>
    obtain ⟨hkey, hshort⟩ := hl e mem_cons_self
    obtain ⟨t, ht, hadds⟩ := cilAvrulexIoctlToPolicydb_adds hte hkey hshort
    obtain ⟨te', hte', hadds'⟩ := ih (hadds.nslot ▸ hte) fun x hx => hl x (mem_cons_of_mem e hx)
    refine ⟨te', ?_, (hadds.trans hadds').congr fun k d f => ?_⟩
    · rw [foldlM_cons, ht]
      exact hte'
    · simp only [mem_cons, or_and_right, exists_or, exists_eq_left, eq_comm (a := k)]

/-- The nodes that are inserted for a key have the commands of the rules with that key, whatever
    the order in which `hashtab_map` comes to the entries. -/
theorem cilAvrulexIoctl_commands (rules : List IoctlRule) (h order : IoctlTable) (te : Avtab)
    (hrules : rules.foldlM cilAvrulexIoctlToHashtable [] = some h) (horder : order.Perm h) (hte : te.nslot ≠ 0) :
    ∃ te', order.foldlM cilAvrulexIoctlToPolicydb te = .ok te' ∧ (∀ n ∈ te.nodes, n ∈ te'.nodes) ∧
      ∀ key d f, (∃ n ∈ te'.nodes, n ∉ te.nodes ∧ n.key = key ∧ HasCommand n.datum.xperms d f) ↔
        ∃ r ∈ rules, r.key = some key ∧ r.xperms.has (command d f) = true := by
  have hc : Collected rules h := @Collected.steps [] [] h rules ⟨by simp, by simp⟩ hrules
  have hl : ∀ e ∈ order, IsXperms e.1 ∧ ∀ i, e.2.has i = true → i < 65536 := by
    intro e he
    refine ⟨hc.xperms e (horder.mem_iff.mp he), fun i hi => ?_⟩
    obtain ⟨r, -, -, hr⟩ := (hc.has e.1 i).mp ⟨e, horder.mem_iff.mp he, rfl, hi⟩
    exact r.short i hr
  obtain ⟨te', hte', hadds⟩ := foldlM_adds hte hl
  refine ⟨te', hte', hadds.keeps, fun key d f => ?_⟩
  rw [hadds.added, ← hc.has]
  simp only [horder.mem_iff]

/-- Two rules of a key: the commands 0 and 1, and 1 and 5. -/
def twoRules : List IoctlRule :=
  [⟨.allowed, 1#32, 2#32, 3#32, .word 3#64, fun _ hi => (Bitmap.lt_length hi).trans (by decide)⟩,
    ⟨.allowed, 1#32, 2#32, 3#32, .word 34#64, fun _ hi => (Bitmap.lt_length hi).trans (by decide)⟩]

theorem cilAvrulexIoctl_commands_two :
    ∃ te', [((⟨1, 2, 3, avtabXpermsAllowed⟩ : AvtabKey), (Bitmap.word 3#64).union (.word 34#64))].foldlM
      cilAvrulexIoctlToPolicydb
        (avtabAlloc maxAvtabSize) = .ok te' ∧
      ∃ n ∈ te'.nodes, n.key = ⟨1, 2, 3, avtabXpermsAllowed⟩ ∧ HasCommand n.datum.xperms 0#8 5#8 := by
  obtain ⟨te', hte', -, hiff⟩ := cilAvrulexIoctl_commands twoRules _ _ (avtabAlloc maxAvtabSize) rfl (.refl _) (by decide)
  obtain ⟨n, hn, -, hkey, hcommand⟩ :=
    (hiff ⟨1, 2, 3, avtabXpermsAllowed⟩ 0#8 5#8).mpr ⟨twoRules[1], by simp [twoRules], rfl, rfl⟩
  exact ⟨te', hte', n, hn, hkey, hcommand⟩

end SELinux.Cil
