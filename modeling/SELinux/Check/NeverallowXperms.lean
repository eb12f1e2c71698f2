/-
  SELinux.Check.NeverallowXperms — what a passed xperm neverallow check means.

  An extended permission rule names ioctl commands, pairs of a driver and a function: one
  driver's functions, or whole drivers. `checkExtendedPermissions` intersects two rules.

  The checker looks allowxperm rules up under the very key of the allow rule it visits.
  Rules that reach the same pair of types through other types or attributes are never
  looked at: `check_xperms_iff` says when that is enough, and `attribute_rule_missed` is a
  policy where it is not.
-/
import SELinux.Check.Report

namespace SELinux.Check

open Db

variable (p : Policydb) (r : Avrule)

/-! ## ioctl commands -/

/-- The rule names the command of this driver and function. -/
def HasCommand (x : ExtendedPerms) (driver function : BitVec 8) : Prop :=
  (x.specified = xpermsIoctlfunction ∧ x.driver = driver ∧ xpermTest function x.perms = true) ∨
    (x.specified = xpermsIoctldriver ∧ xpermTest driver x.perms = true)

theorem extendedPermissionsAnd_of_common {p q : Vector (BitVec 32) 8} {x : BitVec 8} (hp : xpermTest x p = true)
    (hq : xpermTest x q = true) : extendedPermissionsAnd p q = true := by
  refine List.any_eq_true.mpr ⟨⟨x.toNat / 32, by have := x.isLt; omega⟩, List.mem_finRange _, ?_⟩
  rw [bne_iff_ne]
  exact (Lib.Bits.and_ne_zero_iff _ _).mpr ⟨x.toNat % 32, hp, hq⟩

/-- A command in both rules is found, in each of the four combinations of forms. -/
theorem checkExtendedPermissions_of_common {x y : ExtendedPerms} {d f : BitVec 8} (hx : HasCommand x d f)
    (hy : HasCommand y d f) : checkExtendedPermissions x y = true := by
  have hne : xpermsIoctldriver ≠ xpermsIoctlfunction := by decide
  unfold checkExtendedPermissions
  rcases hx with ⟨hxs, rfl, hx⟩ | ⟨hxs, hx⟩ <;> rcases hy with ⟨hys, hyd, hy⟩ | ⟨hys, hy⟩ <;>
    simp only [hxs, hys, hne, hne.symm, and_true, and_false, if_true, if_false]
  · rw [if_pos hyd.symm]
    exact extendedPermissionsAnd_of_common hx hy
  · exact hy
  · rw [hyd]
    exact hx
  · exact extendedPermissionsAnd_of_common hx hy

/-! ## The lookup under one key -/

/-- An allowxperm rule of ioctl commands. -/
def IsAllowxperm (x : AvtabNode) : Prop :=
  x.key.specified &&& avtabXpermsAllowed ≠ 0#16 ∧ isIoctl x.datum.xperms = true

/-- The lookup fails the rule when there is no allowxperm rule under its key, or one with a common command. -/
theorem checkAssertionExtendedPermissions_iff (avtab : Avtab) (k : AvtabKey) :
    checkAssertionExtendedPermissions r avtab k = true ↔
      (∀ x ∈ avtab.nodes, sameKey k x.key = true → ¬ IsAllowxperm x) ∨
        ∃ x ∈ avtab.nodes, sameKey k x.key = true ∧ IsAllowxperm x ∧
          checkExtendedPermissions r.xperms x.datum.xperms = true := by
  unfold checkAssertionExtendedPermissions IsAllowxperm
  rw [extendedPermissionsLoop_iff, ← xpermRules]
  simp only [mem_xpermRules, true_and]
  refine or_congr ⟨?_, ?_⟩ ⟨?_, ?_⟩
  · intro h x hx hk hallow
    obtain ⟨hs, hio⟩ := hallow
    rw [h x ⟨hx, hk, hs⟩] at hio
    cases hio
  · intro h x hrule
    obtain ⟨hx, hk, hs⟩ := hrule
    exact Bool.eq_false_iff.mpr fun hio => h x hx hk ⟨hs, hio⟩
  · intro h
    obtain ⟨x, ⟨hx, hk, hs⟩, hio, hc⟩ := h
    exact ⟨x, hx, hk, ⟨hs, hio⟩, hc⟩
  · intro h
    obtain ⟨x, hx, hk, ⟨hs, hio⟩, hc⟩ := h
    exact ⟨x, ⟨hx, hk, hs⟩, hio, hc⟩

/-! ## Xperm neverallows -/

/-- `n` allows a pair of the neverallow's types its ioctl permission. -/
def Grants (n : AvtabNode) (s t : Nat) : Prop :=
  n ∈ p.teAvtab.nodes ∧ n.key.specified &&& avtabAllowed ≠ 0#16 ∧ PermMatch r n ∧
    r.stypes.types.has s = true ∧ r.ttypes.types.has t = true ∧ Covers p n.key s t

/-- Allowxperm rule `x` speaks of `(s, t, tclass)`, under whatever types or attributes. -/
def Applies (x : AvtabNode) (s t : Nat) (tclass : BitVec 16) : Prop :=
  x ∈ p.teAvtab.nodes ∧ IsAllowxperm x ∧ x.key.targetClass = tclass ∧ Covers p x.key s t

def ShareCommand (x y : ExtendedPerms) : Prop := ∃ d f, HasCommand x d f ∧ HasCommand y d f

/-- Every granted pair has an allowxperm rule, and none that names a forbidden command. -/
def XpermsSafe : Prop :=
  ∀ n s t, Grants p r n s t →
    (∃ x, Applies p x s t n.key.targetClass) ∧
      ∀ x, Applies p x s t n.key.targetClass → ¬ ShareCommand r.xperms x.datum.xperms

/-- An exposed pair the checker cannot see: the allow rule is not one it matches, or a
    forbidden command is in a rule under another key. -/
def Hidden : Prop :=
  ∃ n s t, Grants p r n s t ∧
    ((¬ Hits p r n ∧
        ((∀ x, ¬ Applies p x s t n.key.targetClass) ∨
          ∃ x, Applies p x s t n.key.targetClass ∧ ShareCommand r.xperms x.datum.xperms)) ∨
      (Hits p r n ∧ ∃ x, Applies p x s t n.key.targetClass ∧ sameKey n.key x.key = false ∧
        ShareCommand r.xperms x.datum.xperms))

/-- A matched allow rule of one of the tables has no allowxperm rule under its key there,
    or has one that meets the neverallow. -/
def Detected : Prop :=
  ∃ avtab, (avtab = p.teAvtab ∨ avtab = p.teCondAvtab) ∧ ∃ n ∈ avtab.nodes, Hits p r n ∧
    ((∀ x ∈ avtab.nodes, sameKey n.key x.key = true → ¬ IsAllowxperm x) ∨
      ∃ x ∈ avtab.nodes, sameKey n.key x.key = true ∧ IsAllowxperm x ∧
        checkExtendedPermissions r.xperms x.datum.xperms = true)

theorem check_ne_zero_iff_detected {p : Policydb} {r : Avrule} (h : r.specified = avruleXpermsNeverallow) :
    checkAssertion p r ≠ 0 ↔ Detected p r := by
  rw [checkAssertion_ne_zero_iff, checkTable_ne_zero_iff, checkTable_ne_zero_iff]
  unfold Detected
  simp only [h, true_implies, checkAssertionExtendedPermissions_iff, or_and_right, exists_or, exists_eq_left]

theorem covers_of_sameKey {p : Policydb} {k c : AvtabKey} (h : sameKey k c = true) (s t : Nat) :
    Covers p k s t ↔ Covers p c s t := by
  obtain ⟨hs, ht, -⟩ := (sameKey_iff k c).mp h
  unfold Covers
  rw [hs, ht]

/-- Under the key of a matched allow rule nothing stays undetected. -/
theorem safe_of_not_hidden {p : Policydb} {r : Avrule} (hh : ¬ Hidden p r) (hd : ¬ Detected p r) : XpermsSafe p r := by
  intro n s t hg
  by_cases hhit : Hits p r n
  · -- the lookup under the key of `n` found a rule, and none that meets the neverallow
    have hlook : ¬ ((∀ x ∈ p.teAvtab.nodes, sameKey n.key x.key = true → ¬ IsAllowxperm x) ∨
        ∃ x ∈ p.teAvtab.nodes, sameKey n.key x.key = true ∧ IsAllowxperm x ∧
          checkExtendedPermissions r.xperms x.datum.xperms = true) :=
      fun hl => hd ⟨p.teAvtab, Or.inl rfl, n, hg.1, hhit, hl⟩
    simp only [not_or, not_forall, not_not, not_exists, not_and] at hlook
    obtain ⟨⟨x, hx, hk, hax⟩, hmeet⟩ := hlook
    refine ⟨⟨x, hx, hax, ?_, (covers_of_sameKey hk s t).mp hg.2.2.2.2.2⟩, fun y hy ⟨d, f, hc1, hc2⟩ => ?_⟩
    · exact ((sameKey_iff _ _).mp hk).2.2.symm
    · by_cases hky : sameKey n.key y.key = true
      · exact hmeet y hy.1 hky hy.2.1 (checkExtendedPermissions_of_common hc1 hc2)
      · exact hh ⟨n, s, t, hg, Or.inr ⟨hhit, y, hy, Bool.eq_false_iff.mpr hky, d, f, hc1, hc2⟩⟩
  · refine ⟨Classical.byContradiction ?_, ?_⟩
    · intro hno
      exact hh ⟨n, s, t, hg, Or.inl ⟨hhit, Or.inl fun x hx => hno ⟨x, hx⟩⟩⟩
    · intro x hx hshare
      exact hh ⟨n, s, t, hg, Or.inl ⟨hhit, Or.inr ⟨x, hx, hshare⟩⟩⟩

theorem not_safe_of_hidden {p : Policydb} {r : Avrule} (hh : Hidden p r) : ¬ XpermsSafe p r := by
  intro hsafe
  obtain ⟨n, s, t, hg, ⟨-, hno | ⟨x, hx, hshare⟩⟩ | ⟨-, x, hx, -, hshare⟩⟩ := hh
  · obtain ⟨x, hx⟩ := (hsafe n s t hg).1
    exact hno x hx
  · exact (hsafe n s t hg).2 x hx hshare
  · exact (hsafe n s t hg).2 x hx hshare

/-- A passed check means what it should exactly when nothing is exposed out of the
    checker's sight, unless the check fails for another reason. -/
theorem check_xperms_iff (p : Policydb) (r : Avrule) (h : r.specified = avruleXpermsNeverallow) :
    (checkAssertion p r = 0 → XpermsSafe p r) ↔ (Hidden p r → Detected p r) := by
  rw [← check_ne_zero_iff_detected h]
  refine ⟨fun hsafe hh hz => not_safe_of_hidden hh (hsafe hz), ?_⟩
  intro hdet hz
  have hd : ¬ Detected p r := fun hd => (check_ne_zero_iff_detected h).mpr hd hz
  exact safe_of_not_hidden (fun hh => hdet hh hz) hd

/-- With `allowxperm s a : c ioctl 0x0102;` for an attribute `a` of `t`, of value 3. -/
def attributePolicy : Policydb :=
  { teAvtab := ioctlTable.insertNode (by decide) ⟨1#16, 3#16, 1#16, avtabXpermsAllowed⟩ { xperms := driverOne 4#32 } none
    attrTypeMap := [Bitmap.word 1#64, Bitmap.word 2#64, Bitmap.word 2#64] }

theorem attribute_rule_missed : neverallowxperm.specified = avruleXpermsNeverallow ∧
    checkAssertion attributePolicy neverallowxperm = 0 ∧ ¬ XpermsSafe attributePolicy neverallowxperm := by
  refine ⟨rfl, by decide, ?_⟩
  intro hsafe
  refine (hsafe ⟨0, ⟨1#16, 2#16, 1#16, avtabAllowed⟩, { data := 1#32 }, none⟩ 0 1 ?_).2
    ⟨2, ⟨1#16, 3#16, 1#16, avtabXpermsAllowed⟩, { xperms := driverOne 4#32 }, none⟩ ?_ ?_
  · refine ⟨by decide, by decide, ?_, by decide, by decide, by decide, by decide⟩
    exact ⟨⟨1, 1#32⟩, List.mem_singleton_self _, by decide, by decide⟩
  · exact ⟨by decide, ⟨by decide, by decide⟩, by decide, by decide, by decide⟩
  · exact ⟨1#8, 2#8, Or.inl ⟨by decide, by decide, by decide⟩, Or.inl ⟨by decide, by decide, by decide⟩⟩

/-- Without the attribute's rule nothing is hidden. -/
theorem check_xperms_iff_same_key :
    XpermsSafe { teAvtab := ioctlTable, attrTypeMap := [Bitmap.word 1#64, Bitmap.word 2#64] } neverallowxperm := by
  refine (check_xperms_iff _ neverallowxperm rfl).mpr ?_ (by decide)
  intro h
  rcases h with ⟨n, s, t, hg, ⟨hhit, -⟩ | ⟨-, x, hx, hk, -⟩⟩
  · refine absurd ?_ hhit
    obtain ⟨hn, hspec, hperm, hs, ht, hcov⟩ := hg
    have hmem : n.key.specified = avtabAllowed ∨ n.key.specified = avtabXpermsAllowed := by
      have hall : ∀ m ∈ ioctlTable.nodes, m.key.specified = avtabAllowed ∨ m.key.specified = avtabXpermsAllowed := by decide
      exact hall n hn
    rcases hmem with h | h
    · exact ⟨h, hperm, s, t, ⟨hs, ht⟩, hcov⟩
    · rw [h] at hspec
      exact absurd rfl hspec
  · have hall : ∀ m ∈ ioctlTable.nodes, ∀ y ∈ ioctlTable.nodes, sameKey m.key y.key = true := by decide
    rw [hall n hg.1 x hx.1] at hk
    cases hk

end SELinux.Check
