/-
  SELinux.Cil.Reset — the values of permissions over several resolutions
  (`libsepol/cil/src/cil_resolve_ast.c`: `cil_resolve_classcommon`; `cil_reset_ast.c`:
  `cil_reset_class`).

  A `classcommon` statement moves the class's own permissions past those of the common. A reset
  takes that back from the permissions of the common, once for each class that has it, and the
  class's own are moved again by the next resolution.

  `permValues_kept_iff`: the values are kept when no statement names a common with permissions.
-/
import Mathlib

namespace SELinux.Cil

open List

/-! ## Resolution and reset -/

/-- The classes in the order of the tree, and the `classcommon` statements. A second statement for a
    class is an error of the first resolution. -/
structure ClassAst where
  classes : List Nat
  nodup : classes.Nodup
  /-- `num_perms` of a class when it is built, and of a common. -/
  numOwn : Nat → Nat
  numCommon : Nat → Nat
  classcommons : List (Nat × Nat)
  once : (classcommons.map Prod.fst).Nodup
  declared : ∀ e ∈ classcommons, e.1 ∈ classes

/-- `value` of the i-th permission of a class or a common, and what a resolution sets. -/
structure PermValues where
  own : Nat → Nat → BitVec 32
  shared : Nat → Nat → BitVec 32
  numPerms : Nat → BitVec 32
  common : Nat → Option Nat

namespace ClassAst

variable (A : ClassAst)

def size (d : Nat) : BitVec 32 := A.numCommon d

/-- As `cil_gen_perm` numbers them. -/
def built : PermValues where
  own _ i := i
  shared _ i := i
  numPerms c := A.numOwn c
  common _ := none

def linked (s : PermValues) (c d : Nat) : PermValues :=
  { s with
    own := fun c' i => if c' = c then s.own c' i + A.size d else s.own c' i
    numPerms := fun c' => if c' = c then s.numPerms c' + A.size d else s.numPerms c'
    common := Function.update s.common c (some d) }

/-- `cil_resolve_classcommon` -/
def cilResolveClasscommon (s : PermValues) (e : Nat × Nat) : Option PermValues :=
  if (s.common e.1).isSome then none else some (A.linked s e.1 e.2)

/-- `cil_reset_class` -/
def cilResetClass (s : PermValues) (c : Nat) : PermValues :=
  match s.common c with
  | none => s
  | some d => { s with
    shared := fun d' i => if d' = d then s.shared d' i - A.size d else s.shared d' i
    numPerms := fun c' => if c' = c then s.numPerms c' - A.size d else s.numPerms c'
    common := Function.update s.common c none }

def cilResolve (s : PermValues) : Option PermValues := A.classcommons.foldlM A.cilResolveClasscommon s

/-- `cil_reset_ast`, as far as it is about classes. -/
def cilResetAst (s : PermValues) : PermValues := A.classes.foldl A.cilResetClass s

/-- The first resolution, and `n` times a reset and another one. -/
def resolved : Nat → Option PermValues
  | 0 => A.cilResolve A.built
  | n + 1 => (resolved n).bind fun s => A.cilResolve (A.cilResetAst s)

/-- The common of a class. -/
def commonOf (c : Nat) : Option Nat := A.classcommons.lookup c

def shift (c : Nat) : BitVec 32 := (A.commonOf c).elim 0 A.size

/-- How many classes have the common. -/
def users (d : Nat) : Nat := A.classes.countP (A.commonOf · = some d)

/-! ## What becomes of the values -/

theorem resolve_spec (l : List (Nat × Nat)) (hl : (l.map Prod.fst).Nodup) (s : PermValues)
    (hs : ∀ e ∈ l, s.common e.1 = none) : ∃ s', l.foldlM A.cilResolveClasscommon s = some s' ∧ s'.shared = s.shared ∧
      (∀ c i, s'.own c i = s.own c i + (l.lookup c).elim 0 A.size) ∧ ∀ c, s'.common c = (l.lookup c).or (s.common c) := by
  induction l generalizing s with
  | nil => exact ⟨s, rfl, rfl, by simp, by simp⟩
  | cons e l ih =>
    obtain ⟨c, d⟩ := e
    obtain ⟨hnew, hl⟩ := nodup_cons.mp hl
    obtain ⟨he, hs⟩ := forall_mem_cons.mp hs
    have hne : ∀ x ∈ l, x.1 ≠ c := fun x hx heq => hnew (mem_map.mpr ⟨x, hx, heq⟩)
    have hlookup : l.lookup c = none := lookup_eq_none_iff.mpr fun x hx => bne_iff_ne.mpr (hne x hx).symm
    obtain ⟨s', hs', hshared, hown, hcommon⟩ :=
      ih hl (A.linked s c d) fun x hx => (Function.update_of_ne (hne x hx) _ _).trans (hs x hx)
    refine ⟨s', ?_, hshared, fun c' i => ?_, fun c' => ?_⟩
    · rw [foldlM_cons, cilResolveClasscommon, if_neg (by simp [he])]
      exact hs'
    · rw [hown, lookup_cons]
      by_cases hc : c' = c
      · simp [linked, hc, hlookup]
      · simp [linked, hc, beq_false_of_ne hc]
    · rw [hcommon, lookup_cons]
      by_cases hc : c' = c
      · simp [linked, hc, hlookup]
      · simp [linked, hc, beq_false_of_ne hc]

theorem resetClass_spec (s : PermValues) (c : Nat) : (A.cilResetClass s c).own = s.own ∧
    (∀ d i, (A.cilResetClass s c).shared d i = s.shared d i - if s.common c = some d then A.size d else 0) ∧
      (A.cilResetClass s c).common = Function.update s.common c none := by
  unfold cilResetClass
  split
  next hnone =>
    exact ⟨rfl, by simp [hnone], by rw [← hnone, Function.update_eq_self]⟩
  next d hd =>
    refine ⟨rfl, fun d' i => ?_, rfl⟩
    by_cases hdd : d' = d
    · simp [hdd, hd]
    · simp [hdd, hd, Ne.symm hdd]

theorem reset_spec (l : List Nat) (hl : l.Nodup) (s : PermValues) : (l.foldl A.cilResetClass s).own = s.own ∧
    (∀ d i, (l.foldl A.cilResetClass s).shared d i = s.shared d i - (l.countP (s.common · = some d) : Nat) * A.size d) ∧
      ∀ c, (l.foldl A.cilResetClass s).common c = if c ∈ l then none else s.common c := by
  induction l generalizing s with
  | nil => simp
  | cons c l ih =>
    obtain ⟨hnew, hl⟩ := nodup_cons.mp hl
    obtain ⟨hown, hshared, hcommon⟩ := ih hl (A.cilResetClass s c)
    obtain ⟨hown', hshared', hcommon'⟩ := A.resetClass_spec s c
    have hcount : ∀ d, l.countP ((A.cilResetClass s c).common · = some d) = l.countP (s.common · = some d) := by
      intro d
      refine countP_congr fun x hx => ?_
      rw [hcommon', Function.update_of_ne (ne_of_mem_of_not_mem hx hnew)]
    refine ⟨hown.trans hown', fun d i => ?_, fun x => ?_⟩
    · rw [foldl_cons, hshared, hshared', hcount, countP_cons]
      by_cases hd : s.common c = some d
      · simp only [hd, if_true, decide_true, Nat.cast_add, Nat.cast_one]
        ring
      · simp [hd]
    · rw [foldl_cons, hcommon, hcommon']
      by_cases hx : x = c
      · simp [hx]
      · simp [hx]

/-- After each resolution, with all resets before it. -/
theorem resolved_spec (n : Nat) : ∃ s, A.resolved n = some s ∧ (∀ c i, s.own c i = i + (n + 1 : Nat) * A.shift c) ∧
    (∀ d i, s.shared d i = i - (n * A.users d : Nat) * A.size d) ∧ s.common = A.commonOf := by
  induction n with
  | zero =>
    obtain ⟨s, hs, hshared, hown, hcommon⟩ := A.resolve_spec A.classcommons A.once A.built fun _ _ => rfl
    refine ⟨s, hs, fun c i => ?_, fun d i => ?_, funext fun c => ?_⟩
    · rw [hown]
      simp [built, shift, commonOf]
    · rw [hshared]
      simp [built]
    · rw [hcommon]
      simp [built, commonOf]
  | succ n ih =>
    obtain ⟨s, hs, hown, hshared, hcommon⟩ := ih
    obtain ⟨hown', hshared', hcommon'⟩ := A.reset_spec A.classes A.nodup s
    obtain ⟨t, ht, hshared'', hown'', hcommon''⟩ := A.resolve_spec A.classcommons A.once (A.cilResetAst s)
      fun e he => (hcommon' e.1).trans (if_pos (A.declared e he))
    refine ⟨t, by rw [resolved, hs]; exact ht, fun c i => ?_, fun d i => ?_, funext fun c => ?_⟩
    · rw [hown'', cilResetAst, hown', hown, shift, commonOf, Nat.cast_succ (n + 1)]
      ring
    · rw [hshared'', cilResetAst, hshared', hshared, hcommon, ← users, Nat.cast_mul, Nat.cast_mul, Nat.cast_succ]
      ring
    · rw [hcommon'', cilResetAst, hcommon', hcommon]
      unfold commonOf
      cases hc : A.classcommons.lookup c <;> simp

/-- The permissions of the commons have their places, and those of a class follow on its common's,
    after every number of resets, exactly if a class that has permissions has no common with
    permissions, and no common's are taken back (which takes a multiple of 2^32 otherwise). -/
theorem permValues_kept_iff :
    (∀ n, ∃ s, A.resolved n = some s ∧ (∀ c ∈ A.classes, ∀ i < A.numOwn c, s.own c i = i + A.shift c) ∧
      ∀ d, ∀ i < A.numCommon d, s.shared d i = i) ↔
    (∀ c ∈ A.classes, 0 < A.numOwn c → A.shift c = 0) ∧ ∀ d, 0 < A.numCommon d → (A.users d : BitVec 32) * A.size d = 0 := by
  constructor
  · intro h
    obtain ⟨s, hs, hown, hshared⟩ := h 1
    obtain ⟨t, ht, hown', hshared', -⟩ := A.resolved_spec 1
    cases hs.symm.trans ht
    refine ⟨fun c hc hpos => ?_, fun d hpos => ?_⟩
    · have hvalue := (hown' c 0).symm.trans (hown c hc 0 hpos)
      linear_combination hvalue
    · have hvalue := (hshared' d 0).symm.trans (hshared d 0 hpos)
      rw [one_mul] at hvalue
      linear_combination -hvalue
  · intro h n
    obtain ⟨s, hs, hown, hshared, -⟩ := A.resolved_spec n
    refine ⟨s, hs, fun c hc i hi => ?_, fun d i hi => ?_⟩
    · rw [hown, h.1 c hc (by omega), mul_zero]
    · rw [hshared, Nat.cast_mul, mul_assoc, h.2 d (by omega), mul_zero, sub_zero]

end ClassAst

/-- Class 0 has one permission, and the common 0 with one. -/
def oneCommon : ClassAst := ⟨[0], by decide, fun _ => 1, fun _ => 1, [(0, 0)], by decide, by decide⟩

/-- After a reset the permission of the common has the value -1, and that of the class 2. -/
theorem oneCommon_moved : ∃ s, oneCommon.resolved 1 = some s ∧ s.shared 0 0 = -1 ∧ s.own 0 0 = 2 :=
  ⟨_, rfl, by decide, by decide⟩

end SELinux.Cil
