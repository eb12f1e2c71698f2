/-
  SELinux.Check.Report — what the report of a neverallow counts, and when it agrees with
  the check.

  `reportAssertionFailures` intersects where `checkAssertion` asks for a common bit, so a
  rule is reported exactly when it fails the check (`ruleFailures_pos_iff`), as long as
  both look extended permissions up in one table. They do not: the report's argument
  structure has no table set. `passes_agree_iff` says which neverallows are safe whatever
  that variable holds, and `unset_table_hides` is one that is not.
-/
import SELinux.Check.Assertion

namespace SELinux.Check

open Db List

variable (p : Policydb) (r : Avrule) (avtab : Avtab)

/-! ## The pairs of types -/

/-- The bits two bitmaps have in common. -/
def common (e f : Bitmap) : List Nat := e.bits.filter f.has

def matching (n : AvtabNode) : List ClassPermNode :=
  r.perms.filter fun cp => cp.tclass == n.key.targetClass.toNat && cp.data &&& n.datum.data != 0#32

/-- The target types reported with each source type. With `RULE_SELF` they are source types of
    the neverallow too, not only the one they are paired with. -/
def reportedTargets (k : AvtabKey) : List Nat :=
  if r.flags = ruleSelf then
    r.stypes.types.bits.filter fun t => (p.attrTypes k.sourceType).has t && (p.attrTypes k.targetType).has t
  else common r.ttypes.types (p.attrTypes k.targetType)

theorem length_bits_filter {e : Bitmap} {f : Nat → Bool} {c : Ebitmap} (hwf : c.WF)
    (hc : ∀ i, ebitmapGetBit c i = true ↔ ebitmapGetBit e.1 i = true ∧ f i = true) :
    (ebitmapBits c).length = (e.bits.filter f).length := by
  refine List.Perm.length_eq ((perm_ext_iff_of_nodup (ebitmapBits_nodup hwf) ?_).mpr ?_)
  · exact (ebitmapBits_nodup e.2).filter _
  · intro i
    rw [mem_ebitmapBits hwf, hc, mem_filter, Bitmap.mem_bits]
    rfl

/-- The intersections succeed; an empty one ends the report early and leaves no pair. -/
theorem reportMatches_spec (k : AvtabKey) :
    ∃ src tgt, reportMatches p r k = some (src, tgt) ∧
      (ebitmapBits src).length * (ebitmapBits tgt).length =
        (common r.stypes.types (p.attrTypes k.sourceType)).length * (reportedTargets p r k).length := by
  obtain ⟨src, hsrc, hswf, hsbits⟩ := ebitmapAnd_spec r.stypes.types.2 (p.attrTypes k.sourceType).2
  have hs : (ebitmapBits src).length = (common r.stypes.types (p.attrTypes k.sourceType)).length :=
    length_bits_filter hswf hsbits
  unfold reportMatches
  simp only [hsrc, Option.bind_eq_bind, Option.bind_some]
  by_cases h0 : ebitmapLength src = 0
  · rw [if_pos h0]
    have hnil : ebitmapBits src = [] := by
      unfold ebitmapBits
      rw [show src.highbit = 0 from h0]
      rfl
    refine ⟨src, {}, rfl, ?_⟩
    rw [← hs, hnil]
    simp
  · rw [if_neg h0]
    unfold reportedTargets
    by_cases hself : r.flags = ruleSelf
    · obtain ⟨both, hboth, hbwf, hbbits⟩ := ebitmapAnd_spec (p.attrTypes k.sourceType).2 (p.attrTypes k.targetType).2
      obtain ⟨tgt, htgt, htwf, htbits⟩ := ebitmapAnd_spec r.stypes.types.2 hbwf
      simp only [if_pos hself, hboth, htgt, Option.bind_some]
      refine ⟨src, tgt, rfl, ?_⟩
      rw [hs, length_bits_filter (e := r.stypes.types) htwf]
      intro t
      rw [htbits, hbbits, Bool.and_eq_true]
      exact Iff.rfl
    · obtain ⟨tgt, htgt, htwf, htbits⟩ := ebitmapAnd_spec r.ttypes.types.2 (p.attrTypes k.targetType).2
      simp only [if_neg hself, htgt, Option.bind_some]
      exact ⟨src, tgt, rfl, by rw [hs, length_bits_filter htwf htbits]; rfl⟩

/-- Some pair is reported exactly when the check has a pair to test. -/
theorem exists_reported_iff (k : AvtabKey) :
    ((∃ s, s ∈ common r.stypes.types (p.attrTypes k.sourceType)) ∧ ∃ t, t ∈ reportedTargets p r k) ↔
      ∃ s t, Tests r s t ∧ Covers p k s t := by
  unfold reportedTargets Tests Covers common
  by_cases hself : r.flags = ruleSelf
  · simp only [if_pos hself, mem_filter, Bitmap.mem_bits, Bool.and_eq_true]
    constructor
    · intro ⟨_, t, ht, hcov⟩
      exact ⟨t, t, ⟨ht, rfl⟩, hcov⟩
    · intro ⟨s, t, ⟨hs, hst⟩, hcov⟩
      subst hst
      exact ⟨⟨t, hs, hcov.1⟩, t, hs, hcov⟩
  · simp only [if_neg hself, mem_filter, Bitmap.mem_bits]
    exact ⟨fun ⟨⟨s, hs, hsc⟩, t, ht, htc⟩ => ⟨s, t, ⟨hs, ht⟩, hsc, htc⟩,
      fun ⟨s, t, ⟨hs, ht⟩, hsc, htc⟩ => ⟨⟨s, hs, hsc⟩, t, ht, htc⟩⟩

/-! ## The failures of one pair -/

/-- The allowxperm rules looked up under key `k`. -/
def xpermRules (k : AvtabKey) : List AvtabNode :=
  avtabSearchNodes avtab { k with specified := avtabXpermsAllowed }

/-- One for each ioctl rule with a common command, or one if there is no ioctl rule. -/
def xpermFailures (never : ExtendedPerms) (l : List AvtabNode) : Nat :=
  (l.filter fun n => isIoctl n.datum.xperms && checkExtendedPermissions never n.datum.xperms).length +
    if l.all fun n => !isIoctl n.datum.xperms then 1 else 0

def pairFailures (k : AvtabKey) : Nat :=
  if r.specified = avruleXpermsNeverallow then xpermFailures r.xperms (xpermRules avtab k) else 1

theorem extendedPermissionsLoop_iff (never : ExtendedPerms) (l : List AvtabNode) (rc : Bool) :
    extendedPermissionsLoop never rc l = true ↔
      (rc = true ∧ ∀ x ∈ l, isIoctl x.datum.xperms = false) ∨
        ∃ x ∈ l, isIoctl x.datum.xperms = true ∧ checkExtendedPermissions never x.datum.xperms = true := by
  induction l generalizing rc with
  | nil => simp [extendedPermissionsLoop]
  | cons n l ih =>
    unfold extendedPermissionsLoop
    cases hio : isIoctl n.datum.xperms
    · simp [ih, hio]
    · cases hc : checkExtendedPermissions never n.datum.xperms <;> simp [ih, hio, hc]

theorem length_reportExtendedLoop (never : ExtendedPerms) (f : Failure) (l : List AvtabNode) (rc : Bool)
    (error : ExtendedPerms) :
    (reportExtendedLoop never f rc error l).length =
      (l.filter fun n => isIoctl n.datum.xperms && checkExtendedPermissions never n.datum.xperms).length +
        if rc && l.all fun n => !isIoctl n.datum.xperms then 1 else 0 := by
  induction l generalizing rc error with
  | nil => cases rc <;> simp [reportExtendedLoop]
  | cons n l ih =>
    unfold reportExtendedLoop
    cases hio : isIoctl n.datum.xperms
    · simp [ih, hio]
    · cases hc : checkExtendedPermissions never n.datum.xperms <;> simp [ih, hio, hc]

/-- The two loops over the rules of one key agree. -/
theorem xpermFailures_pos_iff (never : ExtendedPerms) (l : List AvtabNode) :
    0 < xpermFailures never l ↔ extendedPermissionsLoop never true l = true := by
  rw [extendedPermissionsLoop_iff, xpermFailures, Nat.add_pos_iff_pos_or_pos, or_comm, length_pos_iff_exists_mem]
  refine or_congr ?_ ?_
  · by_cases hall : (l.all fun n => !isIoctl n.datum.xperms) = true
    · rw [if_pos hall]
      exact iff_of_true Nat.one_pos ⟨rfl, by simpa using hall⟩
    · rw [if_neg hall]
      exact iff_of_false (by decide) fun ⟨_, h⟩ => hall (by simpa using h)
  · simp only [mem_filter, Bool.and_eq_true]

theorem pairFailures_pos_iff (k : AvtabKey) :
    0 < pairFailures r avtab k ↔
      (r.specified = avruleXpermsNeverallow → checkAssertionExtendedPermissions r avtab k = true) := by
  unfold pairFailures
  by_cases hx : r.specified = avruleXpermsNeverallow
  · rw [if_pos hx, xpermFailures_pos_iff]
    exact ⟨fun h _ => h, fun h => h hx⟩
  · rw [if_neg hx]
    exact iff_of_true Nat.one_pos fun h => absurd h hx

/-! ## The failures of one rule -/

/-- With extended permissions looked up in `avtab`. -/
def ruleFailures (n : AvtabNode) : Nat :=
  if n.key.specified = avtabAllowed then
    (matching r n).length * ((common r.stypes.types (p.attrTypes n.key.sourceType)).length *
      (reportedTargets p r n.key).length * pairFailures r avtab n.key)
  else 0

theorem exists_matching_iff (n : AvtabNode) : (∃ c, c ∈ matching r n) ↔ PermMatch r n := by
  simp only [matching, PermMatch, mem_filter, Bool.and_eq_true, beq_iff_eq, bne_iff_ne]

/-- A rule is reported exactly when the check with the same table fails on it. -/
theorem ruleFailures_pos_iff (n : AvtabNode) :
    0 < ruleFailures p r avtab n ↔
      Hits p r n ∧ (r.specified = avruleXpermsNeverallow → checkAssertionExtendedPermissions r avtab n.key = true) := by
  unfold ruleFailures Hits
  by_cases hspec : n.key.specified = avtabAllowed
  · rw [if_pos hspec, CanonicallyOrderedAdd.mul_pos, CanonicallyOrderedAdd.mul_pos,
      CanonicallyOrderedAdd.mul_pos, length_pos_iff_exists_mem,
      length_pos_iff_exists_mem, length_pos_iff_exists_mem, exists_matching_iff, exists_reported_iff,
      pairFailures_pos_iff]
    simp only [hspec, true_and, and_assoc]
  · rw [if_neg hspec]
    exact iff_of_false (by decide) fun h => hspec h.1.1

theorem report_spec (u : Unset) (p : Policydb) (r : Avrule) (n : AvtabNode) :
    ∃ fs, reportAssertionAvtabMatches u p r n = some fs ∧ fs.length = ruleFailures p r u.avtab n := by
  obtain ⟨src, tgt, hm, hlen⟩ := reportMatches_spec p r n.key
  unfold reportAssertionAvtabMatches ruleFailures
  by_cases hspec : n.key.specified = avtabAllowed
  · rw [if_neg (not_not_intro hspec), if_pos hspec, hm, ← hlen]
    by_cases hperm : matchAnyClassPermissions r.perms n.key.targetClass.toNat n.datum.data = true
    · rw [if_neg (by simpa using hperm)]
      refine ⟨_, rfl, ?_⟩
      have hpair : ∀ f : Failure,
          (if r.specified = avruleXpermsNeverallow then reportAssertionExtendedPermissions u r f n.key else [f]).length =
            pairFailures r u.avtab n.key := by
        intro f
        unfold pairFailures
        by_cases hx : r.specified = avruleXpermsNeverallow
        · rw [if_pos hx, if_pos hx]
          exact length_reportExtendedLoop r.xperms f _ true u.error
        · rw [if_neg hx, if_neg hx]
          rfl
      simp only [length_flatMap, hpair, map_const', sum_replicate_nat, Nat.mul_assoc]
      rfl
    · rw [if_pos (by simpa using hperm)]
      refine ⟨[], rfl, ?_⟩
      have hnil : (matching r n).length = 0 := by
        refine Nat.eq_zero_of_not_pos fun hpos => hperm ?_
        exact (matchAnyClassPermissions_iff r n).mpr ((exists_matching_iff r n).mp (length_pos_iff_exists_mem.mp hpos))
      rw [hnil, Nat.zero_mul]
      rfl
  · rw [if_pos hspec, if_neg hspec]
    exact ⟨[], rfl, rfl⟩

/-! ## The two passes -/

/-- What the report counts. -/
def reported (u : Unset) (p : Policydb) (r : Avrule) : Nat := ((rules p).map (ruleFailures p r u.avtab)).sum

/-- What it would count with each rule's extended permissions looked up in the rule's own table. -/
def violations : Nat :=
  (p.teAvtab.nodes.map (ruleFailures p r p.teAvtab)).sum + (p.teCondAvtab.nodes.map (ruleFailures p r p.teCondAvtab)).sum

theorem reportAssertionFailures_eq (u : Unset) (p : Policydb) (r : Avrule) :
    reportAssertionFailures u p r = (BitVec.ofNat 32 (reported u p r)).toInt := by
  have hmap : ∀ l : List AvtabNode, ∃ fss, l.mapM (reportAssertionAvtabMatches u p r) = some fss ∧
      fss.flatten.length = (l.map (ruleFailures p r u.avtab)).sum := by
    intro l
    induction l with
    | nil => exact ⟨[], rfl, rfl⟩
    | cons n l ih =>
      obtain ⟨fs, hfs, hlen⟩ := report_spec u p r n
      obtain ⟨fss, hfss, hsum⟩ := ih
      refine ⟨fs :: fss, by rw [mapM_cons, hfs, hfss]; rfl, ?_⟩
      simp [hlen, hsum]
  obtain ⟨te, hte, htelen⟩ := hmap p.teAvtab.nodes
  obtain ⟨cond, hcond, hcondlen⟩ := hmap p.teCondAvtab.nodes
  unfold reportAssertionFailures reportTables reported rules
  simp only [hte, hcond, Option.bind_eq_bind, Option.bind_some, Option.pure_def, length_append, htelen, hcondlen,
    map_append, sum_append]

theorem sum_pos_iff {α : Type} (f : α → Nat) (l : List α) : 0 < (l.map f).sum ↔ ∃ x ∈ l, 0 < f x := by
  rw [Nat.pos_iff_ne_zero, Ne, sum_eq_zero_iff]
  simp [Nat.pos_iff_ne_zero]

/-- The check fails exactly when there is something to count. -/
theorem violations_pos_iff : 0 < violations p r ↔ checkAssertion p r ≠ 0 := by
  rw [checkAssertion_ne_zero_iff, checkTable_ne_zero_iff, checkTable_ne_zero_iff, violations,
    Nat.add_pos_iff_pos_or_pos, sum_pos_iff, sum_pos_iff]
  simp only [ruleFailures_pos_iff]

/-- Each lookup of the report, one for every rule that hits, meets the rules it would meet in
    the table it visits. -/
def LooksUpVisited (u : Unset) (p : Policydb) (r : Avrule) : Prop :=
  r.specified = avruleXpermsNeverallow → ∀ avtab ∈ [p.teAvtab, p.teCondAvtab], ∀ n ∈ avtab.nodes, Hits p r n →
    xpermRules u.avtab n.key = xpermRules avtab n.key

theorem ruleFailures_congr {p : Policydb} {r : Avrule} {avtab avtab' : Avtab} {n : AvtabNode}
    (h : r.specified = avruleXpermsNeverallow → Hits p r n → xpermRules avtab n.key = xpermRules avtab' n.key) :
    ruleFailures p r avtab n = ruleFailures p r avtab' n := by
  by_cases hhit : Hits p r n
  · unfold ruleFailures pairFailures
    by_cases hx : r.specified = avruleXpermsNeverallow
    · simp only [if_pos hx, h hx hhit]
    · simp only [if_neg hx]
  · have hzero : ∀ tab, ruleFailures p r tab n = 0 := fun tab =>
      Nat.eq_zero_of_not_pos fun hpos => hhit ((ruleFailures_pos_iff p r tab n).mp hpos).1
    rw [hzero, hzero]

theorem LooksUpVisited.reported_eq {u : Unset} {p : Policydb} {r : Avrule} (h : LooksUpVisited u p r) :
    reported u p r = violations p r := by
  have htab : ∀ avtab ∈ [p.teAvtab, p.teCondAvtab],
      avtab.nodes.map (ruleFailures p r u.avtab) = avtab.nodes.map (ruleFailures p r avtab) := fun avtab ha =>
    map_congr_left fun n hn => ruleFailures_congr fun hx hhit => h hx avtab ha n hn hhit
  unfold reported violations rules
  rw [map_append, sum_append, htab _ mem_cons_self, htab _ (mem_cons_of_mem _ mem_cons_self)]

/-- A count that is still positive as an `int`. -/
def FitsInt (count : Nat) : Prop := 0 < count % 2 ^ 32 ∧ count % 2 ^ 32 < 2 ^ 31

theorem toInt_pos_iff (count : Nat) : 0 < (BitVec.ofNat 32 count).toInt ↔ FitsInt count := by
  unfold FitsInt
  rw [BitVec.toInt_eq_toNat_cond, BitVec.toNat_ofNat]
  split <;> omega

/-- With the table set, the passes agree up to the width of the count. -/
theorem LooksUpVisited.agree_iff {u : Unset} {p : Policydb} {r : Avrule} (h : LooksUpVisited u p r) :
    (checkAssertion p r ≠ 0 ↔ 0 < reportAssertionFailures u p r) ↔ (checkAssertion p r ≠ 0 → FitsInt (violations p r)) := by
  rw [reportAssertionFailures_eq, toInt_pos_iff, h.reported_eq]
  refine ⟨fun hiff => hiff.mp, fun hfits => ⟨hfits, fun hf => (violations_pos_iff p r).mp ?_⟩⟩
  exact Nat.pos_of_ne_zero fun h0 => absurd hf.1 (by simp [h0])

theorem mem_xpermRules {avtab : Avtab} {k : AvtabKey} {x : AvtabNode} :
    x ∈ xpermRules avtab k ↔
      x ∈ avtab.nodes ∧ sameKey k x.key = true ∧ x.key.specified &&& avtabXpermsAllowed ≠ 0#16 := by
  have hmeet : specifiedMeets avtabXpermsAllowed x.key.specified = true ↔
      x.key.specified &&& avtabXpermsAllowed ≠ 0#16 := by
    unfold specifiedMeets
    rw [bne_iff_ne, BitVec.and_comm x.key.specified]
    exact Iff.rfl
  rw [xpermRules, mem_avtabSearchNodes, hitKey, Bool.and_eq_true, hmeet]
  exact Iff.rfl

/-- An unset variable can hold a table with other rules under a key than `avtab`. -/
theorem exists_xpermRules_ne (k : AvtabKey) : ∃ other, xpermRules other k ≠ xpermRules avtab k := by
  by_cases hnil : xpermRules avtab k = []
  · refine ⟨(avtabAlloc 1).insertNode avtabAlloc_one { k with specified := avtabXpermsAllowed } {} none, ?_⟩
    rw [hnil]
    refine ne_nil_of_mem (mem_xpermRules.mpr ⟨mem_nodes_insertNode.mpr (Or.inl rfl), ?_, ?_⟩)
    · simp [sameKey, Avtab.newNode]
    · show avtabXpermsAllowed &&& avtabXpermsAllowed ≠ 0#16
      decide
  · refine ⟨{}, fun heq => hnil ?_⟩
    rw [← heq]
    refine eq_nil_iff_forall_not_mem.mpr fun x hx => ?_
    exact absurd (mem_xpermRules.mp hx).1 (by simp [Avtab.nodes])

/-- Whatever the unset table is, the two passes agree and look up in the table they visit,
    exactly for the neverallows that hit no rule or have no extended permissions, and whose
    violations an `int` can count. -/
theorem passes_agree_iff (p : Policydb) (r : Avrule) :
    (∀ u, (checkAssertion p r ≠ 0 ↔ 0 < reportAssertionFailures u p r) ∧ LooksUpVisited u p r) ↔
      (r.specified = avruleXpermsNeverallow → ∀ n ∈ rules p, ¬ Hits p r n) ∧
        (checkAssertion p r ≠ 0 → FitsInt (violations p r)) := by
  constructor
  · intro h
    refine ⟨fun hx n hn hhit => ?_, (h ⟨{}, {}⟩).2.agree_iff.mp (h ⟨{}, {}⟩).1⟩
    have hlookup : ∀ avtab ∈ [p.teAvtab, p.teCondAvtab], n ∈ avtab.nodes → False := by
      intro avtab ha hmem
      obtain ⟨other, hne⟩ := exists_xpermRules_ne avtab n.key
      exact hne ((h ⟨other, {}⟩).2 hx avtab ha n hmem hhit)
    rcases mem_append.mp hn with hte | hcond
    · exact hlookup _ mem_cons_self hte
    · exact hlookup _ (mem_cons_of_mem _ mem_cons_self) hcond
  · intro ⟨hno, hfits⟩ u
    have hvis : LooksUpVisited u p r := by
      intro hx avtab ha n hn hhit
      refine absurd hhit (hno hx n (mem_append.mpr ?_))
      rcases mem_pair.mp ha with he | he
      · exact Or.inl (he ▸ hn)
      · exact Or.inr (he ▸ hn)
    exact ⟨hvis.agree_iff.mpr hfits, hvis⟩

/-- Functions of driver 1. -/
def driverOne (functions : BitVec 32) : ExtendedPerms :=
  { specified := xpermsIoctlfunction, driver := 1#8, perms := #v[functions, 0#32, 0#32, 0#32, 0#32, 0#32, 0#32, 0#32] }

/-- `allow s t : c ioctl;` and `allowxperm s t : c ioctl 0x0101;` with `s` and `t` of value 1 and 2. -/
def ioctlTable : Avtab :=
  ((avtabAlloc 3).insertNode (by decide) ⟨1#16, 2#16, 1#16, avtabAllowed⟩ { data := 1#32 } none).insertNode (by decide)
    ⟨1#16, 2#16, 1#16, avtabXpermsAllowed⟩ { xperms := driverOne 2#32 } none

/-- `neverallowxperm s t : c ioctl 0x0102;` -/
def neverallowxperm : Avrule :=
  { specified := avruleXpermsNeverallow, stypes := { types := Bitmap.word 1#64 }, ttypes := { types := Bitmap.word 2#64 },
    perms := [⟨1, 1#32⟩], xperms := driverOne 4#32 }

/-- The same grant with no allowxperm rule, so every command is allowed. -/
def grantPolicy : Policydb :=
  { teAvtab := (avtabAlloc 1).insertNode avtabAlloc_one ⟨1#16, 2#16, 1#16, avtabAllowed⟩ { data := 1#32 } none
    attrTypeMap := [Bitmap.word 1#64, Bitmap.word 2#64] }

/-- A detected violation is not reported, and the list passes, when the unset variable happens to
    hold a table with a harmless allowxperm rule. -/
theorem unset_table_hides :
    checkAssertion grantPolicy neverallowxperm = 1 ∧
      reportAssertionFailures ⟨ioctlTable, {}⟩ grantPolicy neverallowxperm = 0 ∧
      checkAssertions ⟨ioctlTable, {}⟩ grantPolicy [neverallowxperm] = 0 ∧
      ¬ LooksUpVisited ⟨ioctlTable, {}⟩ grantPolicy neverallowxperm := by
  refine ⟨by decide +kernel, by decide +kernel, by decide +kernel, ?_⟩
  intro hvis
  have hlost : ¬ (checkAssertion grantPolicy neverallowxperm ≠ 0 → FitsInt (violations grantPolicy neverallowxperm)) :=
    fun hfits => absurd (hvis.agree_iff.mpr hfits) (by decide +kernel)
  exact hlost fun _ => by unfold FitsInt; decide +kernel

end SELinux.Check
