/-
  SELinux.Expand.Transitions — role, file name and range transitions of an expanded policy
  (`libsepol/src/expand.c`: `copy_role_trans`, `expand_filename_trans`, `exp_rangetr_helper`,
  `expand_range_trans`).

  Each rule is written out for the roles, types and classes of its sets; an entry that is there is left
  out, and one with another result is an error. `transitions_spec`: the functions fail exactly if a set or
  a range does not expand or two entries of one key differ.
-/
import SELinux.Expand.RoleSets
import SELinux.Lib.Once

namespace SELinux.Expand

open Db List Lib Option

/-- What the functions read of the state: the new policy with its types, the maps, the base policy's roles. -/
structure TransEnv where
  out : Policydb
  typemap : List Nat
  base : List (Option RoleDatum)
  rolemap : List Nat

structure RoleTransRule where
  roles : RoleSet
  types : TypeSet
  classes : Bitmap
  newRole : Nat

structure FilenameTransRule where
  stypes : TypeSet
  ttypes : TypeSet
  tclass : Nat
  name : Name
  otype : Nat

structure RangeTransRule where
  stypes : TypeSet
  ttypes : TypeSet
  tclasses : Bitmap
  trange : File.SemanticRange

variable (env : TransEnv)

/-- `expand_convert_type_set` with `alwaysexpand`. -/
def TransEnv.types (set : TypeSet) : Option Bitmap := expandConvertTypeSet env.out env.typemap set true

/-- The values of three sets in the order of the loops. -/
def triples (a b c : List Nat) : List (Nat × Nat × Nat) :=
  a.flatMap fun i => b.flatMap fun j => c.map fun k => (i + 1, j + 1, k + 1)

/-! ## Role transitions -/

abbrev RoleTr := List ((Nat × Nat × Nat) × Nat)

/-- The entries of a rule, and `p_roles.nprim`, which expanding a role set may change. -/
def RoleTransRule.entries (nprim : BitVec 32) (rule : RoleTransRule) : Option (RoleTr × BitVec 32) := do
  let (roles, nprim) ← roleSetExpand rule.roles nprim env.base (some env.rolemap)
  let types ← env.types rule.types
  return ((triples (ebitmapBits roles) types.bits rule.classes.bits).map fun t => (t,
    env.rolemap.getD (rule.newRole - 1) 0), nprim)

/-- `copy_role_trans`: new entries go to the end. -/
def copyRoleTrans : BitVec 32 → RoleTr → List RoleTransRule → Option (RoleTr × BitVec 32)
  | nprim, tr, [] => some (tr, nprim)
  | nprim, tr, rule :: rules => do
    let (entries, nprim) ← rule.entries env nprim
    let tr ← entries.foldlM (Once.add (· == ·) false) tr
    copyRoleTrans nprim tr rules

/-- The expansion of all rules. -/
def roleTransEntries : BitVec 32 → List RoleTransRule → Option (RoleTr × BitVec 32)
  | nprim, [] => some ([], nprim)
  | nprim, rule :: rules => do
    let (entries, nprim) ← rule.entries env nprim
    let (rest, nprim) ← roleTransEntries nprim rules
    return (entries ++ rest, nprim)

/-! ## File name transitions -/

abbrev FilenameTr := List ((Nat × Nat × Nat × Name) × Nat)

def FilenameTransRule.entries (rule : FilenameTransRule) : Option FilenameTr := do
  let stypes ← env.types rule.stypes
  let ttypes ← env.types rule.ttypes
  return stypes.bits.flatMap fun i => ttypes.bits.map fun j =>
    ((i + 1, j + 1, rule.tclass, rule.name), env.typemap.getD (rule.otype - 1) 0)

/-- `expand_filename_trans`: new entries go to the front. -/
def expandFilenameTrans (tr : FilenameTr) (rules : List FilenameTransRule) : Option FilenameTr :=
  rules.foldlM (fun tr rule => (rule.entries env).bind fun entries => entries.foldlM (Once.add (· == ·) true) tr) tr

/-! ## Range transitions -/

def mlsLevelEq (l1 l2 : File.MlsLevel) : Bool := l1.sens == l2.sens && ebitmapCmp l1.cat.1 l2.cat.1

def mlsRangeEq (r1 r2 : File.MlsRange) : Bool := mlsLevelEq r1.low r2.low && mlsLevelEq r1.high r2.high

abbrev RangeTr := List ((Nat × Nat × Nat) × File.MlsRange)

section Ranges

variable (expandRange : File.SemanticRange → Option File.MlsRange)

/-- `exp_rangetr_helper`; `expandRange` is `mls_semantic_range_expand` with the new policy. -/
def expRangetrHelper (tr : RangeTr) (key : Nat × Nat × Nat) (trange : File.SemanticRange) : Option RangeTr :=
  (expandRange trange).bind fun range => Once.add mlsRangeEq true tr (key, range)

def RangeTransRule.keys (rule : RangeTransRule) : Option (List (Nat × Nat × Nat)) := do
  let stypes ← env.types rule.stypes
  let ttypes ← env.types rule.ttypes
  return triples stypes.bits ttypes.bits rule.tclasses.bits

def expandRangeTrans (tr : RangeTr) (rules : List RangeTransRule) : Option RangeTr :=
  rules.foldlM (fun tr rule => (rule.keys env).bind fun keys => keys.foldlM
    (fun tr key => expRangetrHelper expandRange tr key rule.trange) tr) tr

/-- The entries of a rule: a rule without any does not need its range. -/
def RangeTransRule.entries (rule : RangeTransRule) : Option RangeTr :=
  (rule.keys env).bind fun keys => keys.mapM fun key => (expandRange rule.trange).map fun range => (key, range)

end Ranges

/-! ## The lists -/

variable {env}

theorem mlsRangeEq_iff (r1 r2 : File.MlsRange) : mlsRangeEq r1 r2 = true ↔ r1 = r2 := by
  have hcmp : ∀ e1 e2 : Ebitmap, ebitmapCmp e1 e2 = true ↔ e1 = e2 := by
    intro e1 e2
    rw [ebitmapCmp, Bool.and_eq_true, and_comm]
    cases e1
    cases e2
    simp
  have hlevel : ∀ l1 l2 : File.MlsLevel, mlsLevelEq l1 l2 = true ↔ l1 = l2 := by
    intro l1 l2
    rw [mlsLevelEq, Bool.and_eq_true, hcmp, ← Subtype.ext_iff]
    cases l1
    cases l2
    simp
  rw [mlsRangeEq, Bool.and_eq_true, hlevel, hlevel]
  cases r1
  cases r2
  simp

theorem copyRoleTrans_eq (nprim : BitVec 32) (tr : RoleTr) (rules : List RoleTransRule) :
    (copyRoleTrans env nprim tr rules).map (·.1) =
      ((roleTransEntries env nprim rules).map (·.1)).bind fun l => l.foldlM (Once.add (· == ·) false) tr := by
  induction rules generalizing nprim tr with
  | nil => rfl
  | cons rule rules ih =>
    rw [copyRoleTrans, roleTransEntries]
    cases hr : rule.entries env nprim with
    | none => rfl
    | some r =>
      simp only [bind_eq_bind, bind_some, map_bind, Function.comp_def, ih]
      cases roleTransEntries env r.2 rules with
      | none => simp
      | some rest => simp [foldlM_append]

theorem foldlM_flatten {κ ν : Type} [DecidableEq κ] (same : ν → ν → Bool) (ls : List (List (κ × ν))) (tr : List (κ × ν)) :
    ls.foldlM (fun tr l => l.foldlM (Once.add same true) tr) tr = ls.flatten.foldlM (Once.add same true) tr := by
  rw [← flatMap_id, Run.foldlM_flatMap]
  rfl

/-- The lists have one entry for each key, which are those of the expanded rules and those that were there; there is no
    list exactly if a rule does not expand or two entries of one key differ. -/
theorem transitions_spec (expandRange : File.SemanticRange → Option File.MlsRange) (nprim : BitVec 32)
    {roleTr : RoleTr} (hrole : Once.Unique roleTr) (roleRules : List RoleTransRule)
    {filenameTr : FilenameTr} (hfilename : Once.Unique filenameTr) (filenameRules : List FilenameTransRule)
    {rangeTr : RangeTr} (hrange : Once.Unique rangeTr) (rangeRules : List RangeTransRule) :
    Once.Entered roleTr ((roleTransEntries env nprim roleRules).map (·.1))
    ((copyRoleTrans env nprim roleTr roleRules).map (·.1)) ∧
    Once.Entered filenameTr ((filenameRules.mapM (FilenameTransRule.entries env)).map flatten)
    (expandFilenameTrans env filenameTr filenameRules) ∧
    Once.Entered rangeTr ((rangeRules.mapM (RangeTransRule.entries env expandRange)).map flatten)
    (expandRangeTrans env expandRange rangeTr rangeRules) := by
  refine ⟨?_, ?_, ?_⟩
  · rw [copyRoleTrans_eq]
    exact Once.entered (fun _ _ => beq_iff_eq) hrole false _
  · have h := Once.entered (fun _ _ => beq_iff_eq) hfilename true
      ((filenameRules.mapM (FilenameTransRule.entries env)).map flatten)
    rw [bind_map] at h
    rw [expandFilenameTrans, Run.foldlM_bind]
    simp only [foldlM_flatten]
    exact h
  · have h := Once.entered mlsRangeEq_iff hrange true
      ((rangeRules.mapM (RangeTransRule.entries env expandRange)).map flatten)
    rw [bind_map] at h
    have hstep : ∀ (tr : RangeTr) (rule : RangeTransRule), ((rule.keys env).bind fun keys =>
        keys.foldlM (fun tr key => expRangetrHelper expandRange tr key rule.trange) tr) =
          (rule.entries env expandRange).bind fun l => l.foldlM (Once.add mlsRangeEq true) tr := by
      intro tr rule
      rw [RangeTransRule.entries, bind_assoc]
      congr 1
      funext keys
      rw [← Run.foldlM_bind]
      simp only [expRangetrHelper, bind_map]
      rfl
    rw [expandRangeTrans]
    simp only [hstep]
    rw [Run.foldlM_bind]
    simp only [foldlM_flatten]
    exact h

/-- One type, which is kept. -/
def oneTypeEnv : TransEnv := { out := singleType, typemap := [1], base := [], rolemap := [] }

def firstType : TypeSet := { types := Bitmap.word 1#64 }

/-- A policy with one level, that has no categories. -/
def oneLevel : File.Symtab (File.symtabSizes 6) File.LevelDatum :=
  { nprim := 1#32, table := { entries := [(File.objectRKey, { level := { sens := 1#32 } })] } }

def expandOneLevel (range : File.SemanticRange) : Option File.MlsRange :=
  (File.mlsSemanticRangeExpand File.nothingPast oneLevel true range).run.map (·.1)

def nameRule : FilenameTransRule := ⟨firstType, firstType, 1, [], 1⟩

def rangeRule : RangeTransRule := ⟨firstType, firstType, Bitmap.word 1#64, { low := ⟨1#32, []⟩, high := ⟨1#32, []⟩ }⟩

/-- Two rules for one file name, and two for one range. -/
theorem transitions_spec_twice :
    (∃ tr, expandFilenameTrans oneTypeEnv [] [nameRule, nameRule] = some tr ∧ Once.Unique tr) ∧
      ∃ tr, expandRangeTrans oneTypeEnv expandOneLevel [] [rangeRule, rangeRule] = some tr ∧ Once.Unique tr := by
  obtain ⟨-, hname, hrange⟩ := @transitions_spec oneTypeEnv expandOneLevel 0#32 [] nodup_nil [] [] nodup_nil
    [nameRule, nameRule] [] nodup_nil [rangeRule, rangeRule]
  have hnames : ([nameRule, nameRule].mapM (FilenameTransRule.entries oneTypeEnv)).map flatten =
      some [((1, 1, 1, []), 1), ((1, 1, 1, []), 1)] := rfl
  have hranges : ([rangeRule, rangeRule].mapM (RangeTransRule.entries oneTypeEnv expandOneLevel)).map flatten =
      some [((1, 1, 1), { low := { sens := 1#32 }, high := { sens := 1#32 } }),
        ((1, 1, 1), { low := { sens := 1#32 }, high := { sens := 1#32 } })] := rfl
  have hagree : ∀ {κ ν : Type} (e : κ × ν), Once.Agree [e, e] := fun e => by simp [Once.Agree]
  obtain ⟨tr, htr⟩ := hname.succeeds.mpr ⟨_, hnames, hagree _⟩
  obtain ⟨tr', htr'⟩ := hrange.succeeds.mpr ⟨_, hranges, hagree _⟩
  obtain ⟨-, -, hunique, -⟩ := hname.result tr htr
  obtain ⟨-, -, hunique', -⟩ := hrange.result tr' htr'
  exact ⟨⟨tr, htr, hunique⟩, tr', htr', hunique'⟩

/-- One rule whose range has a category. -/
theorem badRange_refused :
    ([⟨firstType, firstType, Bitmap.word 1#64, { low := ⟨1#32, [⟨1#32, 1#32⟩]⟩, high := ⟨1#32, [⟨1#32, 1#32⟩]⟩ }⟩].map
      (RangeTransRule.keys oneTypeEnv) = [some [(1, 1, 1)]]) ∧
    (expandRangeTrans oneTypeEnv expandOneLevel []
      [⟨firstType, firstType, Bitmap.word 1#64,
        { low := ⟨1#32, [⟨1#32, 1#32⟩]⟩, high := ⟨1#32, [⟨1#32, 1#32⟩]⟩ }⟩]).isNone = true := by
  decide +kernel

end SELinux.Expand
