/-
  SELinux.Check.Neverallow — what a passed neverallow check means.

  The checker compares a rule's `specified` bits with `AVTAB_ALLOWED` for equality. A
  conditional rule that is enabled when the policy is expanded also has `AVTAB_ENABLED`,
  so it is never looked at: `check_assertions_iff` says what must hold of the tables for
  the check to be the one its callers expect, and `enabled_rule_missed` is a policy where
  it is not. The count of failures is an `int` on its way to `check_assertions`, so the
  list's verdict also needs that count not to vanish.

  For `RULE_SELF` the checker tests a neverallow's source types with themselves only, and
  drops its target types (`self_check`).
-/
import SELinux.Check.Report

namespace SELinux.Check

open Db List

variable (p : Policydb)

/-! ## Neverallows without `RULE_SELF` -/

structure PlainNeverallow (r : Avrule) : Prop extends Neverallow r where
  noSelf : r.flags &&& ruleSelf = 0#32

variable {r : Avrule}

theorem PlainNeverallow.ne_self (h : PlainNeverallow r) : r.flags ≠ ruleSelf := by
  intro he
  have := h.noSelf
  rw [he] at this
  exact absurd this (by decide)

/-- Some allow rule, enabled or not, grants what the neverallow forbids. -/
def Violated (r : Avrule) : Prop :=
  ∃ n ∈ rules p, n.key.specified &&& avtabAllowed ≠ 0#16 ∧ PermMatch r n ∧
    ∃ s t, (r.stypes.types.has s = true ∧ r.ttypes.types.has t = true) ∧ Covers p n.key s t

/-- What the check sees of the violations: those of rules with no other bit than `AVTAB_ALLOWED`. -/
theorem PlainNeverallow.check_iff (h : PlainNeverallow r) (p : Policydb) :
    checkAssertion p r ≠ 0 ↔ ∃ n ∈ rules p, n.key.specified = avtabAllowed ∧ PermMatch r n ∧
      ∃ s t, (r.stypes.types.has s = true ∧ r.ttypes.types.has t = true) ∧ Covers p n.key s t := by
  rw [h.toNeverallow.check_iff]
  unfold Hits Tests
  simp only [if_neg h.ne_self]

/-! ## The count of failures -/

/-- The violations by one rule: a class-permission node of the neverallow, a source type
    and a target type each. -/
def ruleViolations (r : Avrule) (n : AvtabNode) : Nat :=
  if n.key.specified = avtabAllowed then
    (matching r n).length * ((common r.stypes.types (p.attrTypes n.key.sourceType)).length *
      (common r.ttypes.types (p.attrTypes n.key.targetType)).length)
  else 0

/-- Their number, as an `int`: the way `report_assertion_failures` returns it. -/
def failureCount (r : Avrule) : Int :=
  (BitVec.ofNat 32 ((rules p).map (ruleViolations p r)).sum).toInt

theorem PlainNeverallow.ruleFailures_eq (h : PlainNeverallow r) (p : Policydb) (avtab : Avtab) :
    ruleFailures p r avtab = ruleViolations p r := by
  funext n
  unfold ruleFailures ruleViolations reportedTargets pairFailures
  rw [if_neg h.ne_self, if_neg h.ne_xperms, Nat.mul_one]

theorem PlainNeverallow.report_eq (h : PlainNeverallow r) (u : Unset) (p : Policydb) :
    reportAssertionFailures u p r = failureCount p r := by
  rw [reportAssertionFailures_eq, reported, h.ruleFailures_eq]
  rfl

/-- Nothing is counted for a neverallow that passes. -/
theorem PlainNeverallow.failureCount_eq_zero (h : PlainNeverallow r) {p : Policydb} (hc : checkAssertion p r = 0) :
    failureCount p r = 0 := by
  have hzero : violations p r = 0 := Nat.eq_zero_of_not_pos fun hpos => (violations_pos_iff p r).mp hpos hc
  unfold violations at hzero
  rw [h.ruleFailures_eq, h.ruleFailures_eq, ← sum_append, ← map_append] at hzero
  unfold failureCount rules
  rw [hzero]
  rfl

/-- The failures of the list count as none: no count is negative as an `int`, and their
    sum is 0 as an `unsigned long`. -/
def Vanishes (rs : List Avrule) : Prop :=
  (∀ r ∈ rs, 0 ≤ failureCount p r) ∧ (rs.map fun r => BitVec.ofInt 64 (failureCount p r)).sum = 0#64

/-- The loop adds up the counts, and stops at the first negative one. -/
theorem checkAssertionsLoop_eq (u : Unset) (p : Policydb) {rs : List Avrule} (h : ∀ r ∈ rs, PlainNeverallow r)
    (errors : BitVec 64) :
    checkAssertionsLoop u p rs errors =
      if ∀ r ∈ rs, 0 ≤ failureCount p r then
        some (errors + (rs.map fun r => BitVec.ofInt 64 (failureCount p r)).sum)
      else none := by
  induction rs generalizing errors with
  | nil => simp [checkAssertionsLoop]
  | cons a l ih =>
    obtain ⟨ha, hl⟩ := forall_mem_cons.mp h
    have hspec : a.specified &&& (avruleNeverallow ||| avruleXpermsNeverallow) ≠ 0#32 := by
      intro he
      obtain ⟨i, hi1, hi2⟩ := (Lib.Bits.and_ne_zero_iff _ _).mp ha.never
      refine (Lib.Bits.and_ne_zero_iff a.specified (avruleNeverallow ||| avruleXpermsNeverallow)).mpr ⟨i, hi1, ?_⟩ he
      rw [BitVec.getLsbD_or, hi2]; rfl
    unfold checkAssertionsLoop
    rw [if_neg hspec, ha.report_eq]
    simp only [forall_mem_cons, map_cons, sum_cons]
    by_cases hc : checkAssertion p a = 0
    · rw [if_pos hc, ih hl, ha.failureCount_eq_zero hc]
      simp
    · rw [if_neg hc]
      by_cases hneg : failureCount p a < 0
      · rw [if_pos hneg, if_neg (by omega)]
      · rw [if_neg hneg, ih hl]
        have hge : 0 ≤ failureCount p a := by omega
        simp only [hge, true_and, BitVec.add_assoc]

theorem checkAssertions_eq_zero_iff (u : Unset) (p : Policydb) {rs : List Avrule} (h : ∀ r ∈ rs, PlainNeverallow r) :
    checkAssertions u p rs = 0 ↔ Vanishes p rs := by
  unfold checkAssertions Vanishes
  rw [checkAssertionsLoop_eq u p h]
  by_cases hn : ∀ r ∈ rs, 0 ≤ failureCount p r
  · rw [if_pos hn]
    simp only [BitVec.zero_add]
    by_cases h0 : (rs.map fun r => BitVec.ofInt 64 (failureCount p r)).sum = 0#64
    · rw [if_neg (not_not_intro h0)]
      exact iff_of_true rfl ⟨hn, h0⟩
    · rw [if_pos h0]
      exact iff_of_false (by decide) fun hv => h0 hv.2
  · rw [if_neg hn]
    exact iff_of_false (by decide) fun hv => hn hv.1

/-- The checker is right about a list of plain neverallows exactly when every violation is
    also one by a rule that carries no `AVTAB_ENABLED`, and the count of failures does not
    vanish on its way. -/
theorem check_assertions_iff (u : Unset) (p : Policydb) (rs : List Avrule) (h : ∀ r ∈ rs, PlainNeverallow r) :
    ((∀ r ∈ rs, checkAssertion p r ≠ 0 ↔ Violated p r) ∧
        (checkAssertions u p rs = 0 → ∀ r ∈ rs, ¬ Violated p r)) ↔
      (∀ r ∈ rs, Violated p r → ∃ n ∈ rules p, n.key.specified = avtabAllowed ∧ PermMatch r n ∧
          ∃ s t, (r.stypes.types.has s = true ∧ r.ttypes.types.has t = true) ∧ Covers p n.key s t) ∧
        ((∃ r ∈ rs, Violated p r) → ¬ Vanishes p rs) := by
  rw [checkAssertions_eq_zero_iff u p h]
  refine and_congr ?_ ⟨fun hv ⟨r, hr, hviol⟩ hz => hv hz r hr hviol, fun hv hz r hr hviol => hv ⟨r, hr, hviol⟩ hz⟩
  refine forall_congr' fun r => forall_congr' ?_
  intro hr
  rw [(h r hr).check_iff p]
  refine ⟨fun hiff => hiff.mpr, fun hviol => ⟨fun ⟨n, hn, hspec, hrest⟩ => ⟨n, hn, ?_, hrest⟩, hviol⟩⟩
  rw [hspec]
  decide

/-- One type, value 1; `if (b) { allow t t : c p; }` with `b` true when the policy is expanded. -/
def enabledPolicy : Policydb :=
  { teCondAvtab := (avtabAlloc 1).insertNode avtabAlloc_one
      ⟨1#16, 1#16, 1#16, avtabAllowed ||| avtabEnabled⟩ { data := 1#32 } none
    condList := [{ id := 0, expr := [.bool 1], curState := some true, trueList := [0] }]
    boolState := fun _ => true
    attrTypeMap := [Bitmap.word 1#64] }

/-- `neverallow t t : c p;` -/
def neverallowRule : Avrule :=
  { specified := avruleNeverallow, stypes := { types := Bitmap.word 1#64 }, ttypes := { types := Bitmap.word 1#64 },
    perms := [⟨1, 1#32⟩] }

theorem neverallowRule_plain : PlainNeverallow neverallowRule := ⟨⟨by decide, by decide⟩, by decide⟩

theorem enabled_rule_missed : PlainNeverallow neverallowRule ∧ Violated enabledPolicy neverallowRule ∧
    checkAssertion enabledPolicy neverallowRule = 0 ∧
    checkAssertions ⟨{}, {}⟩ enabledPolicy [neverallowRule] = 0 := by
  refine ⟨neverallowRule_plain, ?_, by decide, by decide⟩
  refine ⟨⟨0, ⟨1#16, 1#16, 1#16, avtabAllowed ||| avtabEnabled⟩, { data := 1#32 }, none⟩, by decide, by decide, ?_, ?_⟩
  · exact ⟨⟨1, 1#32⟩, mem_singleton_self _, by decide, by decide⟩
  · exact ⟨0, 0, ⟨by decide, by decide⟩, by decide, by decide⟩

/-- The same rule disabled is a violation the checker sees. -/
def disabledPolicy : Policydb :=
  { teCondAvtab := (avtabAlloc 1).insertNode avtabAlloc_one ⟨1#16, 1#16, 1#16, avtabAllowed⟩ { data := 1#32 } none
    condList := [{ id := 0, expr := [.bool 1], curState := some false, trueList := [0] }]
    attrTypeMap := [Bitmap.word 1#64] }

theorem check_assertions_iff_disabled :
    (∀ r ∈ [neverallowRule], checkAssertion disabledPolicy r ≠ 0 ↔ Violated disabledPolicy r) ∧
      (checkAssertions ⟨{}, {}⟩ disabledPolicy [neverallowRule] = 0 →
        ∀ r ∈ [neverallowRule], ¬ Violated disabledPolicy r) := by
  have hplain : ∀ r ∈ [neverallowRule], PlainNeverallow r := by
    intro r hr
    rw [mem_singleton.mp hr]
    exact neverallowRule_plain
  refine (check_assertions_iff ⟨{}, {}⟩ disabledPolicy [neverallowRule] hplain).mpr ⟨?_, ?_⟩
  · intro r hr _
    rw [mem_singleton.mp hr]
    refine ⟨⟨0, ⟨1#16, 1#16, 1#16, avtabAllowed⟩, { data := 1#32 }, none⟩, by decide, by decide, ?_, ?_⟩
    · exact ⟨⟨1, 1#32⟩, mem_singleton_self _, by decide, by decide⟩
    · exact ⟨0, 0, ⟨by decide, by decide⟩, by decide, by decide⟩
  · intro _
    rw [← checkAssertions_eq_zero_iff ⟨{}, {}⟩ _ hplain]
    decide

/-! ## Neverallows with `RULE_SELF` -/

/-- An unconditional allow rule grants what a neverallow on `self` and on its target types forbids. -/
def SelfViolated (r : Avrule) : Prop :=
  ∃ n ∈ p.teAvtab.nodes, n.key.specified = avtabAllowed ∧ PermMatch r n ∧
    ∃ s t, (r.stypes.types.has s = true ∧ (t = s ∨ r.ttypes.types.has t = true)) ∧ Covers p n.key s t

/-- A failed check is a violation by a rule of either table, and a rule of either table
    that covers a source type on both sides fails the check. -/
theorem self_check (p : Policydb) (r : Avrule) (h : Neverallow r) (_hself : r.flags &&& ruleSelf ≠ 0#32) :
    (checkAssertion p r ≠ 0 →
        ∃ n ∈ rules p, n.key.specified = avtabAllowed ∧ PermMatch r n ∧
          ∃ s t, (r.stypes.types.has s = true ∧ (t = s ∨ r.ttypes.types.has t = true)) ∧ Covers p n.key s t) ∧
      (r.flags = ruleSelf →
        (∃ n ∈ rules p, n.key.specified = avtabAllowed ∧ PermMatch r n ∧
          ∃ s, r.stypes.types.has s = true ∧ Covers p n.key s s) →
        checkAssertion p r ≠ 0) := by
  rw [h.check_iff p]
  refine ⟨fun ⟨n, hn, hspec, hperm, s, t, ⟨hs, ht⟩, hcov⟩ => ⟨n, hn, hspec, hperm, s, t, ⟨hs, ?_⟩, hcov⟩,
    fun hflags ⟨n, hn, hspec, hperm, s, hs, hcov⟩ => ⟨n, hn, hspec, hperm, s, s, ⟨hs, ?_⟩, hcov⟩⟩
  · by_cases hflags : r.flags = ruleSelf
    · rw [if_pos hflags] at ht
      exact Or.inl ht
    · rw [if_neg hflags] at ht
      exact Or.inr ht
  · rw [if_pos hflags]

/-- `neverallow t self : c p;` -/
def selfRule : Avrule :=
  { specified := avruleNeverallow, flags := ruleSelf, stypes := { types := Bitmap.word 1#64 }, perms := [⟨1, 1#32⟩] }

/-- `neverallow t { self u } : c p;` with `u` of value 2. -/
def selfTargetRule : Avrule := { selfRule with ttypes := { types := Bitmap.word 2#64 } }

/-- `allow t u : c p;` -/
def targetPolicy : Policydb :=
  { teAvtab := (avtabAlloc 1).insertNode avtabAlloc_one ⟨1#16, 2#16, 1#16, avtabAllowed⟩ { data := 1#32 } none
    attrTypeMap := [Bitmap.word 1#64, Bitmap.word 2#64] }

/-- The conditional table is consulted too, and the target types beside `self` are not. -/
theorem self_check_differs :
    (Neverallow selfRule ∧ selfRule.flags &&& ruleSelf ≠ 0#32 ∧
      checkAssertion disabledPolicy selfRule ≠ 0 ∧ ¬ SelfViolated disabledPolicy selfRule) ∧
    (Neverallow selfTargetRule ∧ selfTargetRule.flags &&& ruleSelf ≠ 0#32 ∧
      checkAssertion targetPolicy selfTargetRule = 0 ∧ SelfViolated targetPolicy selfTargetRule) := by
  refine ⟨⟨⟨by decide, by decide⟩, by decide, by decide, ?_⟩, ⟨by decide, by decide⟩, by decide, by decide, ?_⟩
  · intro h
    obtain ⟨n, hn, -⟩ := h
    exact absurd hn (by simp [disabledPolicy, Avtab.nodes])
  · refine ⟨⟨0, ⟨1#16, 2#16, 1#16, avtabAllowed⟩, { data := 1#32 }, none⟩, by decide, by decide, ?_, ?_⟩
    · exact ⟨⟨1, 1#32⟩, mem_singleton_self _, by decide, by decide⟩
    · exact ⟨0, 1, ⟨by decide, Or.inr (by decide)⟩, by decide, by decide⟩

theorem self_check_disabled : checkAssertion disabledPolicy selfRule ≠ 0 := by
  refine (self_check disabledPolicy selfRule ⟨by decide, by decide⟩ (by decide)).2 (by decide) ?_
  refine ⟨⟨0, ⟨1#16, 1#16, 1#16, avtabAllowed⟩, { data := 1#32 }, none⟩, by decide, by decide, ?_, ?_⟩
  · exact ⟨⟨1, 1#32⟩, mem_singleton_self _, by decide, by decide⟩
  · exact ⟨0, by decide, by decide, by decide⟩

end SELinux.Check
