/-
  SELinux.Cil.Binary — the checks at the end of the CIL compiler
  (`libsepol/cil/src/cil_binary.c`: `cil_check_neverallows`, `cil_check_type_bounds`,
  `cil_binary_create_allocated_pdb`).

  When the policydb is built, every neverallow rule of the source is expanded and given to
  `check_assertion`, and every bounded type to `bounds_check_type`. A violation is reported
  with the rules of the source that cause it. The result of the report, not the violation,
  is what the loop goes on with: `checks_reject_iff` says that a policy with a violation is
  accepted unless a check stops for another reason.

  The walks that build the policydb before the checks are a parameter. Allocations of the
  compiler do not fail (it exits when they do).
-/
import SELinux.Cil.Ast
import SELinux.Check.Hierarchy
import SELinux.Lib.Run

namespace SELinux.Cil

open Db Lib Check

/-! ## Results -/

/-- Why a function ends early: SEPOL_ERR, a bitmap that cannot be built, a failed insertion
    of the bounds check, or a NULL that is read. -/
inductive Stop
  | err
  | einval
  | avtab (e : AvtabError)
  | crash
  deriving DecidableEq, Repr

/-- The value returned; nothing is after a crash. -/
def Stop.rc : Stop → Option Int
  | .err => some (-1)
  | .einval => some (-22)
  | .avtab .enomem => some (-12)
  | .avtab .eexist => some (-17)
  | .crash => none

theorem Stop.rc_ne_zero (s : Stop) : s.rc ≠ some 0 := by
  rcases s with _ | _ | ⟨_ | _⟩ | _ <;> decide

def cilTrue : Int := 1

/-! ## From the source to the policydb -/

/-- `bounds` is the name of the parent. -/
structure CilType where
  fqn : Name
  value : Nat
  bounds : Option Name := none

/-- `ast` is what is below the root of the tree. -/
structure CilDb where
  ast : List Tree
  valToType : List CilType
  disableNeverallow : Bool := false

def cilGetSepolTypeDatum (pdb : Policydb) (fqn : Name) : Except Stop TypeDatum :=
  match pdb.pTypes.search fqn with
  | some sepolType => .ok sepolType
  | none => .error .err

def cilGetSepolClassDatum (pdb : Policydb) (fqn : Name) : Except Stop ClassDatum :=
  match pdb.pClasses.search fqn with
  | some sepolClass => .ok sepolClass
  | none => .error .err

/-- A permission of the class, or of its common; a class that has none is not expected. -/
def permValue (sepolClass : ClassDatum) (key : Name) : Except Stop Nat :=
  match sepolClass.permissions.lookup key, sepolClass.comdatum with
  | some value, _ => .ok value
  | none, none => .error .crash
  | none, some permissions =>
    match permissions.lookup key with
    | some value => .ok value
    | none => .error .err

def cilPermsToDatum (perms : List CilPerm) (sepolClass : ClassDatum) : Except Stop (BitVec 32) :=
  perms.foldlM (fun data p => (permValue sepolClass p.fqn).map fun value => data ||| 1#32 <<< (value - 1)) 0#32

mutual

/-- `__cil_rule_to_sepol_class_perms`, the nodes found so far at the end. An entry for a
    class that stands for no permission ends its list. -/
def cilRuleToSepolClassPerms (pdb : Policydb) : List Classperms → List ClassPermNode → Except Stop (List ClassPermNode)
  | [], nodes => .ok nodes
  | .perms cls perms :: l, nodes => do
    let sepolClass ← cilGetSepolClassDatum pdb cls.fqn
    let data ← cilPermsToDatum perms sepolClass
    if data = 0#32 then .ok nodes
    else cilRuleToSepolClassPerms pdb l ({ tclass := sepolClass.value, data } :: nodes)
  | .map lists :: l, nodes => do
    let nodes ← mapToSepolClassPerms pdb lists nodes
    cilRuleToSepolClassPerms pdb l nodes
  | .set cps :: l, nodes => do
    let nodes ← cilRuleToSepolClassPerms pdb cps nodes
    cilRuleToSepolClassPerms pdb l nodes

def mapToSepolClassPerms (pdb : Policydb) : List (List Classperms) → List ClassPermNode → Except Stop (List ClassPermNode)
  | [], nodes => .ok nodes
  | cps :: lists, nodes => do
    let nodes ← cilRuleToSepolClassPerms pdb cps nodes
    mapToSepolClassPerms pdb lists nodes

end

/-- `__cil_add_sepol_type`; the result of `ebitmap_set_bit` is not looked at. -/
def addSepolValue (pdb : Policydb) (map : Bitmap) (fqn : Name) : Except Stop Bitmap :=
  (cilGetSepolTypeDatum pdb fqn).map fun d => (map.setBit (d.value - 1) true).getD map

def cilAddSepolType (db : CilDb) (pdb : Policydb) (datum : CilTypeDatum) (map : Bitmap) : Except Stop Bitmap :=
  match datum with
  | .type fqn _ => addSepolValue pdb map fqn
  | .attr _ types => types.bits.foldlM
      (fun map i =>
        match db.valToType[i]? with
        | some t => addSepolValue pdb map t.fqn
        | none => .error .crash) map

def RuleKind.avrule : RuleKind → BitVec 32
  | .auditallow => avruleAuditallow
  | .dontaudit => avruleAuditdeny
  | .neverallow => avruleNeverallow
  | .allowed => avruleAllowed

def cilRuleToExpandedSepolAvrule (db : CilDb) (pdb : Policydb) (rule : CilAvrule) : Except Stop Avrule := do
  let perms ← cilRuleToSepolClassPerms pdb rule.classperms []
  let stypes ← cilAddSepolType db pdb rule.src Bitmap.empty
  match rule.tgt with
  | none => .ok { specified := rule.ruleKind.avrule, flags := ruleSelf, stypes := { types := stypes }, perms }
  | some tgt => do
    let ttypes ← cilAddSepolType db pdb tgt Bitmap.empty
    .ok { specified := rule.ruleKind.avrule, stypes := { types := stypes }, ttypes := { types := ttypes }, perms }

/-! ## Neverallow rules -/

/-- One rule: the value of `rc` at the end of the round. The search for the allow rules to
    report sets it again after a violation. -/
def checkNeverallow (db : CilDb) (pdb : Policydb) (rule : CilAvrule) : Except Stop Int :=
  (cilRuleToExpandedSepolAvrule db pdb rule).bind fun avrule =>
    if checkAssertion pdb avrule = cilTrue then
      match findMatching { rule with ruleKind := .allowed } db.ast with
      | none => .error .einval
      | some _ => .ok 0
    else .ok (checkAssertion pdb avrule)

def cilCheckNeverallows (db : CilDb) (pdb : Policydb) (neverallows : List CilAvrule) : Option Int :=
  match neverallows.foldlM (fun _ rule => checkNeverallow db pdb rule) 0 with
  | .ok rc => some rc
  | .error s => s.rc

/-! ## Type bounds -/

/-- The ways back from values of the policydb. -/
structure ValueMaps where
  typeValueToCil : Nat → Option CilTypeDatum
  classValueToCil : Nat → Option CilClass
  permValueToCil : Nat → Nat → Option CilPerm

/-- The permissions of an access vector, by their bits. -/
def cilPermsFromSepol (maps : ValueMaps) (cls nprim : Nat) (data : BitVec 32) : Option (List CilPerm) :=
  ((List.range nprim).filter data.getLsbD).mapM fun i => maps.permValueToCil cls (i + 1)

def cilAvruleFromSepol (pdb : Policydb) (maps : ValueMaps) (rule : BadRule) : Except Stop CilAvrule :=
  match maps.typeValueToCil rule.sourceType.toNat, maps.typeValueToCil rule.targetType.toNat,
    maps.classValueToCil rule.targetClass.toNat with
  | some src, some tgt, some cls =>
    match datumAt pdb.classValToStruct rule.targetClass.toNat with
    | none => .error .crash
    | some sepolClass =>
      match cilPermsFromSepol maps rule.targetClass.toNat sepolClass.permNprim rule.data with
      | none => .error .err
      | some perms => .ok { ruleKind := .allowed, src, tgt := some tgt, classperms := [.perms cls perms] }
  | _, _, _ => .error .err

/-- The report of a bad rule ends with the last rule of the source that was found for it. -/
def reportBad (db : CilDb) (pdb : Policydb) (maps : ValueMaps) (bad : BadRule) : Except Stop Unit :=
  (cilAvruleFromSepol pdb maps bad).bind fun target =>
    match findMatching target db.ast with
    | none => .error .einval
    | some [] => .error .crash
    | some (_ :: _) => .ok ()

def sepolBoundsCheckType (pdb : Policydb) (child parent : Nat) : Except Stop (List BadRule) :=
  match boundsCheckType pdb child parent 0 with
  | .ok (bad, _) => .ok bad
  | .error e => .error (.avtab e)

def checkTypeBound (db : CilDb) (pdb : Policydb) (maps : ValueMaps) (t : CilType) : Except Stop Unit :=
  match t.bounds with
  | none => .ok ()
  | some bounds => do
    let child ← cilGetSepolTypeDatum pdb t.fqn
    let parent ← cilGetSepolTypeDatum pdb bounds
    let bad ← sepolBoundsCheckType pdb child.value parent.value
    bad.foldlM (fun _ rule => reportBad db pdb maps rule) ()

def cilCheckTypeBounds (db : CilDb) (pdb : Policydb) (maps : ValueMaps) : Option Int :=
  match db.valToType.foldlM (fun _ t => checkTypeBound db pdb maps t) () with
  | .ok () => some 0
  | .error s => s.rc

/-! ## The binary policy -/

/-- What the walks over the source leave for the checks. -/
structure Built where
  pdb : Policydb
  neverallows : List CilAvrule
  maps : ValueMaps

variable {db : CilDb} {b : Built} {pdb : Policydb}

def cilBinaryCreateAllocatedPdb (build : CilDb → Except Stop Built) (db : CilDb) : Option Int :=
  match build db with
  | .error s => s.rc
  | .ok b =>
    if db.disableNeverallow then some 0
    else
      match cilCheckNeverallows db b.pdb b.neverallows with
      | some 0 => cilCheckTypeBounds db b.pdb b.maps
      | r => r

/-! ## What is rejected -/

/-- No expanded neverallow rule is violated. -/
def NeverallowsHold (db : CilDb) (b : Built) : Prop :=
  ∀ rule ∈ b.neverallows, ∀ avrule, cilRuleToExpandedSepolAvrule db b.pdb rule = .ok avrule → checkAssertion b.pdb avrule = 0

/-- No bounded type has a rule that its parent does not have. -/
def TypeBoundsHold (db : CilDb) (b : Built) : Prop :=
  ∀ t ∈ db.valToType, ∀ bounds, t.bounds = some bounds →
    ∀ child, b.pdb.pTypes.search t.fqn = some child → ∀ parent, b.pdb.pTypes.search bounds = some parent →
      ∀ bad numbad, boundsCheckType b.pdb child.value parent.value 0 = .ok (bad, numbad) → bad = []

/-- A neverallow rule ends the loop: it cannot be expanded, or the search after a violation fails. -/
def RuleStops (db : CilDb) (pdb : Policydb) (rule : CilAvrule) : Prop :=
  (∃ s, cilRuleToExpandedSepolAvrule db pdb rule = .error s) ∨
    ∃ avrule, cilRuleToExpandedSepolAvrule db pdb rule = .ok avrule ∧ checkAssertion pdb avrule = cilTrue ∧
      findMatching { rule with ruleKind := .allowed } db.ast = none

/-- The neverallow check does not end well for a reason of its own: a rule ends the loop, or
    `check_assertion` fails, not for a violation, on the last one. -/
def NeverallowsStop (db : CilDb) (b : Built) : Prop :=
  (∃ rule ∈ b.neverallows, RuleStops db b.pdb rule) ∨
    ∃ rule avrule, b.neverallows.getLast? = some rule ∧ cilRuleToExpandedSepolAvrule db b.pdb rule = .ok avrule ∧
      checkAssertion b.pdb avrule ≠ 0 ∧ checkAssertion b.pdb avrule ≠ cilTrue

/-- A bad rule cannot be written in CIL, or no rule of the source is found for it. -/
def BadRuleStops (db : CilDb) (pdb : Policydb) (maps : ValueMaps) (bad : BadRule) : Prop :=
  (∃ s, cilAvruleFromSepol pdb maps bad = .error s) ∨
    ∃ target, cilAvruleFromSepol pdb maps bad = .ok target ∧
      (findMatching target db.ast = none ∨ findMatching target db.ast = some [])

/-- The bounds check ends early at a type: a name is not in the policydb, the check fails,
    or the report of a bad rule does. -/
def TypeStops (db : CilDb) (b : Built) (t : CilType) : Prop :=
  ∃ bounds, t.bounds = some bounds ∧
    (b.pdb.pTypes.search t.fqn = none ∨ b.pdb.pTypes.search bounds = none ∨
      ∃ child parent, b.pdb.pTypes.search t.fqn = some child ∧ b.pdb.pTypes.search bounds = some parent ∧
        ((∃ e, boundsCheckType b.pdb child.value parent.value 0 = .error e) ∨
          ∃ bad numbad, boundsCheckType b.pdb child.value parent.value 0 = .ok (bad, numbad) ∧
            ∃ rule ∈ bad, BadRuleStops db b.pdb b.maps rule))

theorem checkNeverallow_stops {rule : CilAvrule} :
    (∃ rc, checkNeverallow db pdb rule = .ok rc) ↔ ¬ RuleStops db pdb rule := by
  unfold checkNeverallow RuleStops
  cases cilRuleToExpandedSepolAvrule db pdb rule with
  | error s => simp [Except.bind]
  | ok avrule =>
    simp only [Except.bind]
    by_cases hv : checkAssertion pdb avrule = cilTrue
    · rw [if_pos hv]
      cases findMatching { rule with ruleKind := .allowed } db.ast <;> simp [hv]
    · simp [hv]

theorem checkNeverallow_ok {rule : CilAvrule} {rc : Int} (h : checkNeverallow db pdb rule = .ok rc) :
    ∃ avrule, cilRuleToExpandedSepolAvrule db pdb rule = .ok avrule ∧
      (rc ≠ 0 ↔ checkAssertion pdb avrule ≠ 0 ∧ checkAssertion pdb avrule ≠ cilTrue) := by
  unfold checkNeverallow at h
  cases hexp : cilRuleToExpandedSepolAvrule db pdb rule with
  | error s => rw [hexp] at h; cases h
  | ok avrule =>
    rw [hexp] at h
    simp only [Except.bind] at h
    split at h
    next hv =>
      split at h
      · cases h
      · cases h
        simp [hv]
    next hv =>
      cases h
      simp [hv]

theorem neverallows_run_iff :
    (∀ rule ∈ b.neverallows, ∃ rc, checkNeverallow db b.pdb rule = .ok rc) ↔
      ¬ ∃ rule ∈ b.neverallows, RuleStops db b.pdb rule := by
  simp only [checkNeverallow_stops, not_exists, not_and]

/-- The neverallow check accepts exactly what does not make it stop, violated or not. -/
theorem cilCheckNeverallows_eq_zero_iff :
    cilCheckNeverallows db b.pdb b.neverallows = some 0 ↔ ¬ NeverallowsStop db b := by
  have hloop := Run.foldlM_last (l := b.neverallows) (f := checkNeverallow db b.pdb) (s := 0) (t := 0)
  have hresult : cilCheckNeverallows db b.pdb b.neverallows = some 0 ↔
      b.neverallows.foldlM (fun _ rule => checkNeverallow db b.pdb rule) 0 = .ok 0 := by
    unfold cilCheckNeverallows
    cases b.neverallows.foldlM (fun _ rule => checkNeverallow db b.pdb rule) 0 with
    | error s => simp [Stop.rc_ne_zero]
    | ok rc => simp
  rw [hresult, hloop]
  unfold NeverallowsStop
  rw [not_or, ← neverallows_run_iff]
  refine and_congr_right ?_
  intro hrun
  -- every round ends with a value, and the last round's is the result
  cases hlast : b.neverallows.getLast? with
  | none => simp [List.getLast?_eq_none_iff.mp hlast]
  | some rule =>
    obtain ⟨rc, hrc⟩ := hrun rule (List.mem_of_getLast? hlast)
    obtain ⟨avrule, hexp, hne⟩ := checkNeverallow_ok hrc
    have hnil : b.neverallows ≠ [] := by
      intro h
      rw [h] at hlast
      cases hlast
    constructor
    · intro hzero hstop
      obtain ⟨r, avrule', hr, hexp', hbad⟩ := hstop
      rcases hzero with ⟨h, -⟩ | ⟨a, ha, h0⟩
      · exact hnil h
      · cases ha
        cases hr
        rw [hexp] at hexp'
        cases hexp'
        rw [hrc] at h0
        cases h0
        exact hne.mpr hbad rfl
    · intro h
      refine Or.inr ⟨rule, rfl, ?_⟩
      have h0 : rc = 0 := Decidable.byContradiction fun hrc0 => h ⟨rule, avrule, rfl, hexp, hne.mp hrc0⟩
      rw [hrc, h0]

/-! ## Bounds -/

theorem reportBad_ok_iff {maps : ValueMaps} {bad : BadRule} :
    (∃ u, reportBad db pdb maps bad = .ok u) ↔ ¬ BadRuleStops db pdb maps bad := by
  unfold reportBad BadRuleStops
  cases cilAvruleFromSepol pdb maps bad with
  | error s => simp [Except.bind]
  | ok target =>
    simp only [Except.bind]
    rcases hf : findMatching target db.ast with _ | ⟨_ | ⟨r, l⟩⟩ <;> simp [hf]

theorem checkTypeBound_ok_iff {t : CilType} : (∃ u, checkTypeBound db b.pdb b.maps t = .ok u) ↔ ¬ TypeStops db b t := by
  unfold checkTypeBound TypeStops cilGetSepolTypeDatum sepolBoundsCheckType
  cases t.bounds with
  | none => simp
  | some bounds =>
    cases b.pdb.pTypes.search t.fqn with
    | none => simp [bind, Except.bind]
    | some child =>
      cases hparent : b.pdb.pTypes.search bounds with
      | none => simp [bind, Except.bind, hparent]
      | some parent =>
        rcases hcheck : boundsCheckType b.pdb child.value parent.value 0 with e | ⟨bad, numbad⟩
        · simp [bind, Except.bind, hparent, hcheck]
        · have hbad := Run.foldlM_unit (l := bad) (f := reportBad db b.pdb b.maps)
          simp only [reportBad_ok_iff] at hbad
          simp [bind, Except.bind, hparent, hcheck, hbad]

/-- The bounds check accepts exactly what does not make it stop, bad rules or not. -/
theorem cilCheckTypeBounds_eq_zero_iff :
    cilCheckTypeBounds db b.pdb b.maps = some 0 ↔ ¬ ∃ t ∈ db.valToType, TypeStops db b t := by
  have hloop := Run.foldlM_unit (l := db.valToType) (f := checkTypeBound db b.pdb b.maps)
  simp only [checkTypeBound_ok_iff] at hloop
  simp only [not_exists, not_and]
  rw [← hloop]
  unfold cilCheckTypeBounds
  cases db.valToType.foldlM (fun _ t => checkTypeBound db b.pdb b.maps t) () with
  | error s => simp [Stop.rc_ne_zero]
  | ok u => simp

/-! ## Acceptance -/

/-- A policy with a violation is not accepted: not by the compiler, and not by the check
    the violation is for. -/
structure ChecksReject (build : CilDb → Except Stop Built) (db : CilDb) : Prop where
  create : cilBinaryCreateAllocatedPdb build db = some 0 →
    ∀ b, build db = .ok b → NeverallowsHold db b ∧ TypeBoundsHold db b
  neverallows : ∀ b, build db = .ok b → ¬ NeverallowsHold db b → cilCheckNeverallows db b.pdb b.neverallows ≠ some 0
  bounds : ∀ b, build db = .ok b → ¬ TypeBoundsHold db b → cilCheckTypeBounds db b.pdb b.maps ≠ some 0

/-- The compiler's result is the checks' result. -/
theorem cilBinaryCreate_eq_zero_iff {build : CilDb → Except Stop Built}
    (hcheck : db.disableNeverallow = false) (hb : build db = .ok b) :
    cilBinaryCreateAllocatedPdb build db = some 0 ↔
      cilCheckNeverallows db b.pdb b.neverallows = some 0 ∧ cilCheckTypeBounds db b.pdb b.maps = some 0 := by
  unfold cilBinaryCreateAllocatedPdb
  rw [hb, hcheck]
  simp only [Bool.false_eq_true, if_false]
  split
  next h0 =>
    simp [h0]
  next r hr =>
    exact iff_of_false hr fun h => hr h.1

/-- With the checks on, violations are rejected exactly if there are none or the check of
    the violation stops for another reason. -/
theorem checks_reject_iff (build : CilDb → Except Stop Built) (db : CilDb) (hcheck : db.disableNeverallow = false) :
    ChecksReject build db ↔ ∀ b, build db = .ok b →
      (NeverallowsHold db b ∨ NeverallowsStop db b) ∧ (TypeBoundsHold db b ∨ ∃ t ∈ db.valToType, TypeStops db b t) := by
  have hnever : ∀ b, (¬ NeverallowsHold db b → cilCheckNeverallows db b.pdb b.neverallows ≠ some 0) ↔
      NeverallowsHold db b ∨ NeverallowsStop db b := by
    intro b
    rw [ne_eq, cilCheckNeverallows_eq_zero_iff, not_not, ← or_iff_not_imp_left]
  have hbounds : ∀ b, (¬ TypeBoundsHold db b → cilCheckTypeBounds db b.pdb b.maps ≠ some 0) ↔
      TypeBoundsHold db b ∨ ∃ t ∈ db.valToType, TypeStops db b t := by
    intro b
    rw [ne_eq, cilCheckTypeBounds_eq_zero_iff, not_not, ← or_iff_not_imp_left]
  constructor
  · intro h b hb
    exact ⟨(hnever b).mp (h.neverallows b hb), (hbounds b).mp (h.bounds b hb)⟩
  · intro h
    refine ⟨?_, fun b hb => (hnever b).mpr (h b hb).1, fun b hb => (hbounds b).mpr (h b hb).2⟩
    intro h0 b hb
    obtain ⟨hn, hbd⟩ := (cilBinaryCreate_eq_zero_iff hcheck hb).mp h0
    exact ⟨(h b hb).1.resolve_right (cilCheckNeverallows_eq_zero_iff.mp hn),
      (h b hb).2.resolve_right (cilCheckTypeBounds_eq_zero_iff.mp hbd)⟩

/-- The policydb of the types `parent` (1) and `child` (2), bounded by it, with no rule. -/
def boundedPdb : Policydb :=
  { typeValToStruct := [some { value := 1 }, some { value := 2, bounds := 1 }]
    attrTypeMap := [Bitmap.word 1#64, Bitmap.word 2#64]
    pTypes :=
      { table := [("parent".toList, { value := 1 }), ("child".toList, { value := 2, bounds := 1 })]
        valToName := [some "parent".toList, some "child".toList]
        indexed := Symtab.indexed_of_indexes (by decide) }
    pClasses :=
      { table := [("c".toList, { value := 1, permissions := [("p".toList, 1)], permNprim := 1 })]
        valToName := [some "c".toList]
        indexed := Symtab.indexed_of_indexes (by decide) }
    classValToStruct := [some { value := 1, permissions := [("p".toList, 1)], permNprim := 1 }] }

/-- A rule of `child` on itself, for `p` of the class `c`. -/
def childRule (ruleKind : RuleKind) : CilAvrule :=
  { ruleKind, src := .type "child".toList 1, tgt := some (.type "child".toList 1)
    classperms := [.perms ⟨0, "c".toList⟩ [⟨0, "p".toList⟩]] }

def boundedMaps : ValueMaps where
  typeValueToCil v := [none, some (.type "parent".toList 0), some (.type "child".toList 1)].getD v none
  classValueToCil v := [none, some ⟨0, "c".toList⟩].getD v none
  permValueToCil _ v := [none, some ⟨0, "p".toList⟩].getD v none

/-- `(neverallow child child (c (p)))`, with or without the allow rule. -/
def boundedDb (rules : List Tree) : CilDb :=
  { ast := .node (.avrule (childRule .neverallow)) [] :: rules
    valToType := [⟨"parent".toList, 0, none⟩, ⟨"child".toList, 1, some "parent".toList⟩] }

/-- The policydb with these unconditional rules, and what the walks leave with it. -/
def boundedBuilt (teAvtab : Avtab) : Built :=
  { pdb := { boundedPdb with teAvtab }, neverallows := [childRule .neverallow], maps := boundedMaps }

/-- `allow child child : c p;` -/
def childAllowed : Avtab :=
  (avtabAlloc 1).insertNode avtabAlloc_one ⟨2#16, 2#16, 1#16, avtabAllowed⟩ { data := 1#32 } none

/-- `(allow child child (c (p)))` besides the neverallow rule. -/
def violatingDb : CilDb := boundedDb [.node (.avrule (childRule .allowed)) []]

/-- The neverallow rule as `check_assertion` gets it. -/
def childNeverallow : Avrule :=
  { specified := avruleNeverallow
    stypes := { types := Bitmap.word 2#64 }
    ttypes := { types := Bitmap.word 2#64 }
    perms := [{ tclass := 1, data := 1#32 }] }

/-- `allow parent parent : c p; allow child parent : c p;` -/
def parentAllowed : Avtab :=
  ((avtabAlloc 1).insertNode avtabAlloc_one ⟨1#16, 1#16, 1#16, avtabAllowed⟩ { data := 1#32 } none).insertNode
    (by decide) ⟨2#16, 1#16, 1#16, avtabAllowed⟩ { data := 1#32 } none

/-- The two rules in the source. -/
def keepingDb : CilDb :=
  let parent : CilTypeDatum := .type "parent".toList 0
  boundedDb [.node (.avrule { childRule .allowed with src := parent, tgt := some parent }) [],
    .node (.avrule { childRule .allowed with tgt := some parent }) []]

/-- Rules that violate nothing are accepted, as they should be. -/
theorem checks_reject_parent_rules :
    keepingDb.disableNeverallow = false ∧
      cilBinaryCreateAllocatedPdb (fun _ => .ok (boundedBuilt parentAllowed)) keepingDb = some 0 ∧
      ChecksReject (fun _ => .ok (boundedBuilt parentAllowed)) keepingDb := by
  refine ⟨rfl, by decide +kernel, (checks_reject_iff _ keepingDb rfl).mpr ?_⟩
  intro b hb
  cases hb
  refine ⟨Or.inl ?_, Or.inl ?_⟩
  · intro rule hrule avrule hexp
    have hchild : cilRuleToExpandedSepolAvrule keepingDb (boundedBuilt parentAllowed).pdb (childRule .neverallow) =
        .ok childNeverallow := by decide +kernel
    rw [List.mem_singleton.mp hrule, hchild] at hexp
    cases hexp
    decide +kernel
  · intro t ht bounds hbounds child hchild parent hparent bad numbad hbad
    rcases List.mem_pair.mp ht with rfl | rfl
    · cases hbounds
    · cases hbounds
      cases hchild
      cases hparent
      have hnone : (boundsCheckType (boundedBuilt parentAllowed).pdb 2 1 0).toOption = some ([], 0) := by decide +kernel
      rw [show boundsCheckType (boundedBuilt parentAllowed).pdb 2 1 0 = .ok (bad, numbad) from hbad] at hnone
      cases hnone
      rfl

/-- The rule violates the neverallow rule and the bound of `child`, and is accepted. -/
theorem violations_accepted :
    violatingDb.disableNeverallow = false ∧
      cilBinaryCreateAllocatedPdb (fun _ => .ok (boundedBuilt childAllowed)) violatingDb = some 0 ∧
      cilRuleToExpandedSepolAvrule violatingDb (boundedBuilt childAllowed).pdb (childRule .neverallow) =
        .ok childNeverallow ∧
      checkAssertion (boundedBuilt childAllowed).pdb childNeverallow = 1 ∧
      (boundsCheckType (boundedBuilt childAllowed).pdb 2 1 0).toOption = some ([⟨2#16, 2#16, 1#16, 1#32⟩], 1) ∧
      ¬ ChecksReject (fun _ => .ok (boundedBuilt childAllowed)) violatingDb := by
  have hzero : cilBinaryCreateAllocatedPdb (fun _ => .ok (boundedBuilt childAllowed)) violatingDb = some 0 := by
    decide +kernel
  have hexp : cilRuleToExpandedSepolAvrule violatingDb (boundedBuilt childAllowed).pdb (childRule .neverallow) =
      .ok childNeverallow := by decide +kernel
  have hone : checkAssertion (boundedBuilt childAllowed).pdb childNeverallow = 1 := by decide +kernel
  refine ⟨rfl, hzero, hexp, hone, by decide +kernel, ?_⟩
  intro h
  have hheld := (h.create hzero _ rfl).1 _ List.mem_cons_self childNeverallow hexp
  rw [hone] at hheld
  cases hheld

end SELinux.Cil
