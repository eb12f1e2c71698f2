/-
  SELinux.Check.Assertion — the neverallow checker (`libsepol/src/assertion.c`).

  `checkAssertion` visits every rule of the unconditional and of the conditional table and
  asks whether it grants what a neverallow forbids; `reportAssertionFailures` visits them
  again and lists each violation; `checkAssertions` does both for a list of neverallows.

  A failure is the data of its message (`Failure`). The report reads two variables no code
  sets, the table to look extended permissions up in and the buffer of the violated ones;
  `Unset` is what they hold.
-/
import SELinux.Db.Types

namespace SELinux.Check

open Db

variable (p : Policydb) (r : Avrule) (avrule : Avrule)

/-! ## Permissions -/

def matchAnyClassPermissions (cp : List ClassPermNode) (tclass : Nat) (data : BitVec 32) : Bool :=
  cp.any fun c => c.tclass == tclass && c.data &&& data != 0#32

def extendedPermissionsAnd (perms1 perms2 : Vector (BitVec 32) 8) : Bool :=
  (List.finRange 8).any fun i => perms1.get i &&& perms2.get i != 0#32

/-- `xperm_test`: `1 & (p[x >> 5] >> (x & 0x1f))` -/
def xpermTest (x : BitVec 8) (p : Vector (BitVec 32) 8) : Bool :=
  (p.get ⟨x.toNat / 32, by have := x.isLt; omega⟩).getLsbD (x.toNat % 32)

def checkExtendedPermissions (neverallow allow : ExtendedPerms) : Bool :=
  if neverallow.specified = xpermsIoctlfunction ∧ allow.specified = xpermsIoctlfunction then
    if neverallow.driver = allow.driver then extendedPermissionsAnd neverallow.perms allow.perms else false
  else if neverallow.specified = xpermsIoctlfunction ∧ allow.specified = xpermsIoctldriver then
    xpermTest neverallow.driver allow.perms
  else if neverallow.specified = xpermsIoctldriver ∧ allow.specified = xpermsIoctlfunction then
    xpermTest allow.driver neverallow.perms
  else if neverallow.specified = xpermsIoctldriver ∧ allow.specified = xpermsIoctldriver then
    extendedPermissionsAnd neverallow.perms allow.perms
  else false

/-- The two ioctl forms; every other extended rule is passed over. -/
def isIoctl (x : ExtendedPerms) : Bool :=
  x.specified == xpermsIoctlfunction || x.specified == xpermsIoctldriver

/-- The loop over the allowxperm rules of one key, from result `rc`. -/
def extendedPermissionsLoop (neverallow : ExtendedPerms) : Bool → List AvtabNode → Bool
  | rc, [] => rc
  | rc, n :: l =>
    if !isIoctl n.datum.xperms then extendedPermissionsLoop neverallow rc l
    else if checkExtendedPermissions neverallow n.datum.xperms then true
    else extendedPermissionsLoop neverallow false l

def checkAssertionExtendedPermissions (avtab : Avtab) (k : AvtabKey) : Bool :=
  extendedPermissionsLoop avrule.xperms true
    (avtabSearchNodes avtab { k with specified := avtabXpermsAllowed })

/-! ## Checking -/

/-- What the target of rule `k` is tested against. `RULE_SELF` alone looks for a type of
    the neverallow's source in both the source and the target of the rule. -/
def targetMatchAny (k : AvtabKey) : Option Bool :=
  if avrule.flags = ruleSelf then
    (ebitmapAnd (p.attrTypes k.sourceType).1 (p.attrTypes k.targetType).1).map (ebitmapMatchAny avrule.stypes.types.1 ·)
  else some (ebitmapMatchAny avrule.ttypes.types.1 (p.attrTypes k.targetType).1)

/-- -EINVAL, all `ebitmap_and` can fail with when allocation succeeds. -/
def einval : Int := -22

def checkAssertionAvtabMatch (avtab : Avtab) (n : AvtabNode) : Int :=
  if n.key.specified ≠ avtabAllowed then 0
  else if !matchAnyClassPermissions avrule.perms n.key.targetClass.toNat n.datum.data then 0
  else if !ebitmapMatchAny avrule.stypes.types.1 (p.attrTypes n.key.sourceType).1 then 0
  else
    match targetMatchAny p avrule n.key with
    | none => einval
    | some false => 0
    | some true =>
      if avrule.specified = avruleXpermsNeverallow then
        if checkAssertionExtendedPermissions avrule avtab n.key then 1 else 0
      else 1

def checkTable (avtab : Avtab) : Int :=
  (avtabMap avtab (fun n (_ : Unit) => (checkAssertionAvtabMatch p avrule avtab n, ())) ()).1

def checkAssertion : Int :=
  if checkTable p avrule p.teAvtab = 0 then checkTable p avrule p.teCondAvtab else checkTable p avrule p.teAvtab

/-! ## Reporting -/

/-- `stype` and `ttype` index the type names; `xperms` is set for a violated allowxperm rule. -/
structure Failure where
  stype : Nat
  ttype : Nat
  tclass : Nat
  perms : BitVec 32
  xperms : Option ExtendedPerms := none

structure Unset where
  avtab : Avtab
  error : ExtendedPerms

/-- `extended_permissions_violated`; a field it does not set keeps the value of `result`. -/
def extendedPermissionsViolated (result neverallow allow : ExtendedPerms) : ExtendedPerms :=
  let common := neverallow.perms.zipWith (· &&& ·) allow.perms
  if neverallow.specified = xpermsIoctlfunction ∧ allow.specified = xpermsIoctlfunction then
    { specified := xpermsIoctlfunction, driver := allow.driver, perms := common }
  else if neverallow.specified = xpermsIoctlfunction ∧ allow.specified = xpermsIoctldriver then
    { specified := xpermsIoctlfunction, driver := neverallow.driver, perms := neverallow.perms }
  else if neverallow.specified = xpermsIoctldriver ∧ allow.specified = xpermsIoctlfunction then
    { specified := xpermsIoctlfunction, driver := allow.driver, perms := allow.perms }
  else if neverallow.specified = xpermsIoctldriver ∧ allow.specified = xpermsIoctldriver then
    { specified := xpermsIoctldriver, driver := result.driver, perms := common }
  else result

/-- The loop of `report_assertion_extended_permissions`: a violated rule is reported and
    counts as found (`rc = 0`), so the loop goes on. -/
def reportExtendedLoop (neverallow : ExtendedPerms) (f : Failure) :
    Bool → ExtendedPerms → List AvtabNode → List Failure
  | rc, _, [] => if rc then [f] else []
  | rc, error, n :: l =>
    if !isIoctl n.datum.xperms then reportExtendedLoop neverallow f rc error l
    else if checkExtendedPermissions neverallow n.datum.xperms then
      let error := extendedPermissionsViolated error neverallow n.datum.xperms
      { f with xperms := some error } :: reportExtendedLoop neverallow f false error l
    else reportExtendedLoop neverallow f false error l

def reportAssertionExtendedPermissions (u : Unset) (avrule : Avrule) (f : Failure) (k : AvtabKey) : List Failure :=
  reportExtendedLoop avrule.xperms f true u.error
    (avtabSearchNodes u.avtab { k with specified := avtabXpermsAllowed })

/-- The source types and the target types in common with rule `k`. -/
def reportMatches (k : AvtabKey) : Option (Ebitmap × Ebitmap) := do
  let srcMatches ← ebitmapAnd avrule.stypes.types.1 (p.attrTypes k.sourceType).1
  if ebitmapLength srcMatches = 0 then return (srcMatches, {})
  if avrule.flags = ruleSelf then
    let common ← ebitmapAnd (p.attrTypes k.sourceType).1 (p.attrTypes k.targetType).1
    return (srcMatches, ← ebitmapAnd avrule.stypes.types.1 common)
  else return (srcMatches, ← ebitmapAnd avrule.ttypes.types.1 (p.attrTypes k.targetType).1)

/-- `report_assertion_avtab_matches` of one rule. -/
def reportAssertionAvtabMatches (u : Unset) (p : Policydb) (avrule : Avrule) (n : AvtabNode) : Option (List Failure) :=
  if n.key.specified ≠ avtabAllowed then some []
  else if !matchAnyClassPermissions avrule.perms n.key.targetClass.toNat n.datum.data then some []
  else (reportMatches p avrule n.key).map fun (src, tgt) =>
    (avrule.perms.filter fun cp => cp.tclass == n.key.targetClass.toNat && cp.data &&& n.datum.data != 0#32).flatMap
      fun cp => (ebitmapBits src).flatMap fun i => (ebitmapBits tgt).flatMap fun j =>
        let f : Failure := { stype := i, ttype := j, tclass := cp.tclass, perms := cp.data &&& n.datum.data }
        if avrule.specified = avruleXpermsNeverallow then reportAssertionExtendedPermissions u avrule f n.key else [f]

/-- Both tables reported, or `none` when an intersection failed. -/
def reportTables (u : Unset) (p : Policydb) (avrule : Avrule) : Option (List Failure) := do
  let te ← p.teAvtab.nodes.mapM (reportAssertionAvtabMatches u p avrule)
  let cond ← p.teCondAvtab.nodes.mapM (reportAssertionAvtabMatches u p avrule)
  return te.flatten ++ cond.flatten

/-- The count is an `unsigned long` returned as an `int`. -/
def reportAssertionFailures (u : Unset) (p : Policydb) (avrule : Avrule) : Int :=
  match reportTables u p avrule with
  | none => einval
  | some failures => (BitVec.ofNat 32 failures.length).toInt

/-- The loop of `check_assertions` from `errors`; `none` is its early return of -1. -/
def checkAssertionsLoop (u : Unset) (p : Policydb) : List Avrule → BitVec 64 → Option (BitVec 64)
  | [], errors => some errors
  | a :: l, errors =>
    if a.specified &&& (avruleNeverallow ||| avruleXpermsNeverallow) = 0#32 then checkAssertionsLoop u p l errors
    else if checkAssertion p a = 0 then checkAssertionsLoop u p l errors
    else if reportAssertionFailures u p a < 0 then none
    else checkAssertionsLoop u p l (errors + BitVec.ofInt 64 (reportAssertionFailures u p a))

def checkAssertions (u : Unset) (p : Policydb) (avrules : List Avrule) : Int :=
  match checkAssertionsLoop u p avrules 0#64 with
  | none => -1
  | some errors => if errors ≠ 0#64 then -1 else 0

/-! ## What a neverallow forbids -/

/-- Rule `k` speaks of the pair of types `(s, t)`. -/
def Covers (k : AvtabKey) (s t : Nat) : Prop :=
  (p.attrTypes k.sourceType).has s = true ∧ (p.attrTypes k.targetType).has t = true

/-- The rule's permissions meet those of the neverallow for the rule's class. -/
def PermMatch (n : AvtabNode) : Prop :=
  ∃ c ∈ r.perms, c.tclass = n.key.targetClass.toNat ∧ c.data &&& n.datum.data ≠ 0#32

/-- The pairs a neverallow is tested on: with `RULE_SELF` as its only flag, its source types with themselves. -/
def Tests (s t : Nat) : Prop :=
  r.stypes.types.has s = true ∧ if r.flags = ruleSelf then t = s else r.ttypes.types.has t = true

/-- `n` is an allow rule, never enabled, for a pair and a permission `r` is tested on. -/
def Hits (n : AvtabNode) : Prop :=
  n.key.specified = avtabAllowed ∧ PermMatch r n ∧ ∃ s t, Tests r s t ∧ Covers p n.key s t

/-- Every rule of the policy, unconditional and conditional. -/
def rules : List AvtabNode := p.teAvtab.nodes ++ p.teCondAvtab.nodes

theorem matchAnyClassPermissions_iff (n : AvtabNode) :
    matchAnyClassPermissions r.perms n.key.targetClass.toNat n.datum.data = true ↔ PermMatch r n := by
  simp [matchAnyClassPermissions, PermMatch]

theorem matchAny_iff (e f : Bitmap) : ebitmapMatchAny e.1 f.1 = true ↔ ∃ i, e.has i = true ∧ f.has i = true :=
  ebitmapMatchAny_iff e.2 f.2

/-- The target test never fails, and with the source test it asks for a tested pair. -/
theorem targetMatchAny_spec (k : AvtabKey) :
    ∃ b, targetMatchAny p r k = some b ∧
      (ebitmapMatchAny r.stypes.types.1 (p.attrTypes k.sourceType).1 = true ∧ b = true ↔
        ∃ s t, Tests r s t ∧ Covers p k s t) := by
  unfold targetMatchAny Tests Covers
  by_cases hs : r.flags = ruleSelf
  · obtain ⟨e, he, hwf, hbits⟩ := ebitmapAnd_spec (p.attrTypes k.sourceType).2 (p.attrTypes k.targetType).2
    refine ⟨_, by rw [if_pos hs, he]; rfl, ?_⟩
    simp only [if_pos hs]
    rw [matchAny_iff, ebitmapMatchAny_iff r.stypes.types.2 hwf]
    refine ⟨fun ⟨_, s, h1, h2⟩ => ⟨s, s, ⟨h1, rfl⟩, (hbits s).mp h2⟩, fun ⟨s, t, ⟨h1, hst⟩, h2⟩ => ?_⟩
    subst hst
    exact ⟨⟨t, h1, h2.1⟩, t, h1, (hbits t).mpr h2⟩
  · refine ⟨_, by rw [if_neg hs], ?_⟩
    simp only [if_neg hs]
    rw [matchAny_iff, matchAny_iff]
    exact ⟨fun ⟨⟨s, h1, h2⟩, t, h3, h4⟩ => ⟨s, t, ⟨h1, h3⟩, h2, h4⟩,
      fun ⟨s, t, ⟨h1, h3⟩, h2, h4⟩ => ⟨⟨s, h1, h2⟩, t, h3, h4⟩⟩

/-- One rule fails the check when it hits, and for an xperm neverallow when its extended permissions do too. -/
theorem checkAssertionAvtabMatch_ne_zero_iff (avtab : Avtab) (n : AvtabNode) :
    checkAssertionAvtabMatch p r avtab n ≠ 0 ↔
      Hits p r n ∧ (r.specified = avruleXpermsNeverallow → checkAssertionExtendedPermissions r avtab n.key = true) := by
  obtain ⟨b, hb, hpair⟩ := targetMatchAny_spec p r n.key
  unfold checkAssertionAvtabMatch Hits
  rw [← matchAnyClassPermissions_iff, ← hpair, hb]
  by_cases h1 : n.key.specified = avtabAllowed
  · cases matchAnyClassPermissions r.perms n.key.targetClass.toNat n.datum.data
    · simp
    · cases ebitmapMatchAny r.stypes.types.1 (p.attrTypes n.key.sourceType).1
      · simp
      · cases b
        · simp
        · by_cases hx : r.specified = avruleXpermsNeverallow <;> simp [h1, hx]
  · simp [h1]

theorem checkTable_ne_zero_iff (avtab : Avtab) :
    checkTable p r avtab ≠ 0 ↔ ∃ n ∈ avtab.nodes, Hits p r n ∧
      (r.specified = avruleXpermsNeverallow → checkAssertionExtendedPermissions r avtab n.key = true) := by
  unfold checkTable
  rw [Ne, avtabMap_eq_zero_iff]
  simp only [not_forall, ← checkAssertionAvtabMatch_ne_zero_iff, exists_prop]

theorem checkAssertion_ne_zero_iff :
    checkAssertion p r ≠ 0 ↔ checkTable p r p.teAvtab ≠ 0 ∨ checkTable p r p.teCondAvtab ≠ 0 := by
  unfold checkAssertion
  by_cases h : checkTable p r p.teAvtab = 0 <;> simp [h]

/-! ## Neverallows without extended permissions -/

/-- A neverallow that is not one of extended permissions. -/
structure Neverallow (r : Avrule) : Prop where
  never : r.specified &&& avruleNeverallow ≠ 0#32
  noXperms : r.specified &&& avruleXpermsNeverallow = 0#32

theorem Neverallow.ne_xperms {r : Avrule} (h : Neverallow r) : r.specified ≠ avruleXpermsNeverallow := by
  intro he
  have := h.noXperms
  rw [he] at this
  exact absurd this (by decide)

/-- The check fails exactly when some rule hits. -/
theorem Neverallow.check_iff {r : Avrule} (h : Neverallow r) (p : Policydb) :
    checkAssertion p r ≠ 0 ↔ ∃ n ∈ rules p, Hits p r n := by
  rw [checkAssertion_ne_zero_iff, checkTable_ne_zero_iff, checkTable_ne_zero_iff]
  simp only [h.ne_xperms, false_implies, and_true, rules, List.mem_append, or_and_right, exists_or]

end SELinux.Check
