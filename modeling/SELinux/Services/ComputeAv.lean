/-
  SELinux.Services.ComputeAv — access decisions (`libsepol/src/services.c`:
  `constraint_expr_eval_reason`, `context_struct_compute_av`; `conditional.c`:
  `cond_compute_av`).

  A decision is built in three stages: the rules of both tables for every pair of
  attributes of the two types, then the constraints of the class, then the role change of a
  process transition. Each stage takes permissions away from what the one before gave, and
  notes in `reason` that it took a requested one.

  `compute_av_spec` states the result without the stages: a union of rule data, less the
  permissions of the false constraints, less the transition permissions of a role change
  that is not allowed; in any order of the constraints.

  The text that explains a denied constraint, and the sequence number, are left out.
-/
import SELinux.Db.Context

namespace SELinux.Services

open Db Lib List

variable (p : Policydb) (s t : Context) (tclass : BitVec 16)

/-! ## Constraints -/

def cexprUser : BitVec 32 := 1#32
def cexprRole : BitVec 32 := 2#32
def cexprType : BitVec 32 := 4#32
def cexprTarget : BitVec 32 := 8#32
def cexprXtarget : BitVec 32 := 16#32
def cexprL1L2 : BitVec 32 := 32#32
def cexprL1H2 : BitVec 32 := 64#32
def cexprH1L2 : BitVec 32 := 128#32
def cexprH1H2 : BitVec 32 := 256#32
def cexprL1H1 : BitVec 32 := 512#32
def cexprL2H2 : BitVec 32 := 1024#32

def cexprEq : BitVec 32 := 1#32
def cexprNeq : BitVec 32 := 2#32
def cexprDom : BitVec 32 := 3#32
def cexprDomby : BitVec 32 := 4#32
def cexprIncomp : BitVec 32 := 5#32

/-- Users, types, and roles that are not compared by dominance; `none` is `BUG`. -/
def valueOp (op : BitVec 32) (val1 val2 : Nat) : Option Bool :=
  if op = cexprEq then some (val1 == val2) else if op = cexprNeq then some (val1 != val2) else none

def roleDominates (role val : Nat) : Bool :=
  match datumAt p.roleValToStruct role with
  | some r => r.dominates.has (val - 1)
  | none => false

def roleOp (op : BitVec 32) (val1 val2 : Nat) : Option Bool :=
  if op = cexprDom then some (roleDominates p val1 val2)
  else if op = cexprDomby then some (roleDominates p val2 val1)
  else if op = cexprIncomp then some (!roleDominates p val1 val2 && !roleDominates p val2 val1)
  else valueOp op val1 val2

def levelOp (op : BitVec 32) (l1 l2 : MlsLevel) : Option Bool :=
  if op = cexprEq then some (mlsLevelEq l1 l2)
  else if op = cexprNeq then some (!mlsLevelEq l1 l2)
  else if op = cexprDom then some (mlsLevelDom l1 l2)
  else if op = cexprDomby then some (mlsLevelDom l2 l1)
  else if op = cexprIncomp then some (mlsLevelIncomp l2 l1)
  else none

def evalAttr (attr op : BitVec 32) : Option Bool :=
  if attr = cexprUser then valueOp op s.user t.user
  else if attr = cexprType then valueOp op s.type t.type
  else if attr = cexprRole then roleOp p op s.role t.role
  else if attr = cexprL1L2 then levelOp op s.range.low t.range.low
  else if attr = cexprL1H2 then levelOp op s.range.low t.range.high
  else if attr = cexprH1L2 then levelOp op s.range.high t.range.low
  else if attr = cexprH1H2 then levelOp op s.range.high t.range.high
  else if attr = cexprL1H1 then levelOp op s.range.low s.range.high
  else if attr = cexprL2H2 then levelOp op t.range.low t.range.high
  else none

/-- `x` is the third context of a validatetrans rule. -/
def evalNames (x : Option Context) (attr op : BitVec 32) (names : Bitmap) : Option Bool := do
  let c ← if attr &&& cexprTarget ≠ 0#32 then some t else if attr &&& cexprXtarget ≠ 0#32 then x else some s
  let val ←
    if attr &&& cexprUser ≠ 0#32 then some c.user
    else if attr &&& cexprRole ≠ 0#32 then some c.role
    else if attr &&& cexprType ≠ 0#32 then some c.type
    else none
  if op = cexprEq then some (names.has (val - 1)) else if op = cexprNeq then some (!names.has (val - 1)) else none

def constraintOp (x : Option Context) : ConstraintExpr → Option (Rpn.Op Bool)
  | .not => some (.un (! ·))
  | .and => some (.bin (· && ·))
  | .or => some (.bin (· || ·))
  | .attr attr op => (evalAttr p s t attr op).map .push
  | .names attr op names => (evalNames s t x attr op names).map .push

/-- The value at the bottom of the stack. An element that cannot be evaluated ends the
    loop with 0, wherever it stands. -/
def constraintExprEval (x : Option Context) (expr : List ConstraintExpr) : Bool :=
  match expr.mapM (constraintOp p s t x) with
  | none => false
  | some ops => ((Rpn.run cexprMaxdepth ops []).bind List.getLast?).getD false

/-! ## Decisions -/

def secclassProcess : BitVec 16 := 2#16
def processTransition : BitVec 32 := 0x00000002#32
def processDyntransition : BitVec 32 := 0x00800000#32

def computeavTe : BitVec 32 := 1#32
def computeavCons : BitVec 32 := 2#32
def computeavRbac : BitVec 32 := 4#32

structure AvDecision where
  allowed : BitVec 32 := 0#32
  decided : BitVec 32 := 0xffffffff#32
  auditallow : BitVec 32 := 0#32
  auditdeny : BitVec 32 := 0xffffffff#32
  deriving DecidableEq

def avKey (i j : Nat) : AvtabKey :=
  { sourceType := BitVec.ofNat 16 (i + 1), targetType := BitVec.ofNat 16 (j + 1), targetClass := tclass,
    specified := avtabAv }

def addRuleData (avd : AvDecision) (n : AvtabNode) : AvDecision :=
  if n.key.specified = avtabAllowed then { avd with allowed := avd.allowed ||| n.datum.data }
  else if n.key.specified = avtabAuditallow then { avd with auditallow := avd.auditallow ||| n.datum.data }
  else if n.key.specified = avtabAuditdeny then { avd with auditdeny := avd.auditdeny &&& n.datum.data }
  else avd

/-- The rule is an enabled one of this kind. -/
def enabledKind (kind : BitVec 16) (n : AvtabNode) : Bool :=
  kind ||| avtabEnabled == n.key.specified &&& (kind ||| avtabEnabled)

/-- `cond_compute_av` of one rule. A 0 in an auditdeny mask is a permission not to audit. -/
def addCondData (avd : AvDecision) (n : AvtabNode) : AvDecision :=
  let avd := if enabledKind avtabAllowed n then { avd with allowed := avd.allowed ||| n.datum.data } else avd
  let avd := if enabledKind avtabAuditdeny n then { avd with auditdeny := avd.auditdeny &&& n.datum.data } else avd
  if enabledKind avtabAuditallow n then { avd with auditallow := avd.auditallow ||| n.datum.data } else avd

def computePair (avd : AvDecision) (ij : Nat × Nat) : AvDecision :=
  let avd := (avtabSearchNodes p.teAvtab (avKey tclass ij.1 ij.2)).foldl addRuleData avd
  (avtabSearchNodes p.teCondAvtab (avKey tclass ij.1 ij.2)).foldl addCondData avd

/-- The pairs of attributes of the two types. -/
def attrPairs : List (Nat × Nat) :=
  (bitmapAt p.typeAttrMap s.type).bits.flatMap fun i => (bitmapAt p.typeAttrMap t.type).bits.map fun j => (i, j)

def computeTe : AvDecision :=
  (attrPairs p s t).foldl (computePair p tclass) {}

/-- One constraint; it is evaluated only if it can take a permission away. -/
def applyConstraint (allowed : BitVec 32) (c : ConstraintNode) : BitVec 32 :=
  if c.permissions &&& allowed ≠ 0#32 && !constraintExprEval p s t none c.expr then allowed &&& ~~~c.permissions
  else allowed

def applyRoleAllow (allowed : BitVec 32) : BitVec 32 :=
  if tclass = secclassProcess ∧ allowed &&& (processTransition ||| processDyntransition) ≠ 0#32 ∧ s.role ≠ t.role then
    if p.roleAllow.any fun ra => s.role == ra.role && t.role == ra.newRole then allowed
    else allowed &&& ~~~(processTransition ||| processDyntransition)
  else allowed

/-- The requested permissions that are left, and the stages that took some. -/
def noteReason (bit allowed : BitVec 32) (r : BitVec 32 × BitVec 32) : BitVec 32 × BitVec 32 :=
  if r.1 &&& ~~~allowed ≠ 0#32 then (r.1 &&& allowed, r.2 ||| bit) else r

/-- The three stages for a class with these constraints: the decision and the reason. -/
def computeStages (constraints : List ConstraintNode) (requested : BitVec 32) : AvDecision × BitVec 32 :=
  let avd := computeTe p s t tclass
  let r := noteReason computeavTe avd.allowed (requested, 0#32)
  let avd := { avd with allowed := constraints.foldl (applyConstraint p s t) avd.allowed }
  let r := noteReason computeavCons avd.allowed r
  let avd := { avd with allowed := applyRoleAllow p s t tclass avd.allowed }
  let r := noteReason computeavRbac avd.allowed r
  (avd, r.2)

/-- `none` is -EINVAL, for an unknown class. -/
def contextStructComputeAv (requested : BitVec 32) : Option (AvDecision × BitVec 32) :=
  if tclass = 0#16 ∨ p.pClasses.nprim < tclass.toNat then none
  else (datumAt p.classValToStruct tclass.toNat).map fun tclassDatum =>
    computeStages p s t tclass tclassDatum.constraints requested

/-! ## What is granted -/

/-- The allow rules for a pair of types: the unconditional ones and the enabled conditional ones. -/
def allowRules (ij : Nat × Nat) : List AvtabNode :=
  (p.teAvtab.nodes.filter fun n => sameKey (avKey tclass ij.1 ij.2) n.key && n.key.specified == avtabAllowed) ++
    p.teCondAvtab.nodes.filter fun n => sameKey (avKey tclass ij.1 ij.2) n.key && enabledKind avtabAllowed n

def grantedPerms : BitVec 32 :=
  Bits.orAll ((attrPairs p s t).flatMap fun ij => (allowRules p tclass ij).map fun n => n.datum.data)

/-- The permissions of the constraints that are false. -/
def constrainedPerms (constraints : List ConstraintNode) : BitVec 32 :=
  Bits.orAll ((constraints.filter fun c => !constraintExprEval p s t none c.expr).map fun c => c.permissions)

/-- The transition permissions, when the role of a process changes without a role allow. -/
def roleMask : BitVec 32 :=
  if tclass = secclassProcess ∧ s.role ≠ t.role ∧ ∀ ra ∈ p.roleAllow, ¬ (ra.role = s.role ∧ ra.newRole = t.role) then
    processTransition ||| processDyntransition
  else 0#32

theorem foldl_addRuleData (l : List AvtabNode) (avd : AvDecision) :
    (l.foldl addRuleData avd).allowed =
      avd.allowed ||| Bits.orAll ((l.filter fun n => n.key.specified == avtabAllowed).map fun n => n.datum.data) := by
  induction l generalizing avd with
  | nil => simp [Bits.orAll]
  | cons n l ih =>
    rw [foldl_cons, ih, filter_cons]
    by_cases h : n.key.specified = avtabAllowed
    · simp only [addRuleData, if_pos h, beq_iff_eq.mpr h, if_true, map_cons, Bits.orAll_cons, BitVec.or_assoc]
    · have hkeep : (addRuleData avd n).allowed = avd.allowed := by
        unfold addRuleData
        rw [if_neg h]
        split
        · rfl
        split
        · rfl
        · rfl
      rw [hkeep, if_neg (by simpa using h)]

theorem foldl_addCondData (l : List AvtabNode) (avd : AvDecision) :
    (l.foldl addCondData avd).allowed =
      avd.allowed ||| Bits.orAll ((l.filter (enabledKind avtabAllowed)).map fun n => n.datum.data) := by
  induction l generalizing avd with
  | nil => simp [Bits.orAll]
  | cons n l ih =>
    have hstep : (addCondData avd n).allowed =
        if enabledKind avtabAllowed n then avd.allowed ||| n.datum.data else avd.allowed := by
      unfold addCondData
      cases enabledKind avtabAllowed n <;> cases enabledKind avtabAuditdeny n <;>
        cases enabledKind avtabAuditallow n <;> rfl
    rw [foldl_cons, ih, filter_cons, hstep]
    by_cases h : enabledKind avtabAllowed n = true
    · rw [if_pos h, if_pos h, map_cons, Bits.orAll_cons, BitVec.or_assoc]
    · rw [if_neg h, if_neg h]

/-- A search with `AVTAB_AV` meets every allow rule of the key. -/
theorem mem_search_av {tab : Avtab} {tclass : BitVec 16} {i j : Nat} {n : AvtabNode}
    (h : n.key.specified &&& avtabAllowed ≠ 0#16) :
    n ∈ avtabSearchNodes tab (avKey tclass i j) ↔ n ∈ tab.nodes ∧ sameKey (avKey tclass i j) n.key = true := by
  have hmeet : specifiedMeets avtabAv n.key.specified = true := by
    obtain ⟨b, hb1, hb2⟩ := (Bits.and_ne_zero_iff _ _).mp h
    refine bne_iff_ne.mpr ((Bits.and_ne_zero_iff _ _).mpr ⟨b, ?_, hb1⟩)
    have hsub : ∀ b, avtabAllowed.getLsbD b = true → (avtabAv &&& ~~~avtabEnabled).getLsbD b = true :=
      (Bits.and_not_eq_zero_iff _ _).mp (by decide)
    exact hsub b hb2
  rw [mem_avtabSearchNodes, hitKey, Bool.and_eq_true]
  simp only [avKey] at hmeet ⊢
  rw [and_iff_left hmeet]

theorem allowed_of_enabledKind {n : AvtabNode} (h : enabledKind avtabAllowed n = true) :
    n.key.specified &&& avtabAllowed ≠ 0#16 := by
  intro h0
  have hbit : (n.key.specified &&& (avtabAllowed ||| avtabEnabled)).getLsbD 0 = true := by
    rw [← beq_iff_eq.mp h]
    decide
  have hbit0 : (n.key.specified &&& avtabAllowed).getLsbD 0 = false := by
    rw [h0]
    decide
  rw [BitVec.getLsbD_and] at hbit hbit0
  simp only [Bool.and_eq_true] at hbit
  rw [hbit.1] at hbit0
  exact absurd hbit0 (by decide)

theorem computePair_allowed (avd : AvDecision) (ij : Nat × Nat) :
    (computePair p tclass avd ij).allowed =
      avd.allowed ||| Bits.orAll ((allowRules p tclass ij).map fun n => n.datum.data) := by
  unfold computePair
  rw [foldl_addCondData, foldl_addRuleData, BitVec.or_assoc, ← Bits.orAll_append, ← map_append]
  congr 1
  refine Bits.orAll_congr ?_
  intro d
  unfold allowRules
  simp only [mem_map, mem_append, mem_filter, Bool.and_eq_true, beq_iff_eq]
  refine exists_congr fun n => and_congr_left fun _ => or_congr ?_ ?_
  · rw [← and_assoc]
    refine and_congr_left fun hspec => mem_search_av ?_
    rw [hspec]
    decide
  · rw [← and_assoc]
    exact and_congr_left fun hen => mem_search_av (allowed_of_enabledKind hen)

theorem computeTe_allowed :
    (computeTe p s t tclass).allowed = grantedPerms p s t tclass := by
  have hfold : ∀ (l : List (Nat × Nat)) (avd : AvDecision), (l.foldl (computePair p tclass) avd).allowed =
      avd.allowed ||| Bits.orAll (l.flatMap fun ij => (allowRules p tclass ij).map fun n => n.datum.data) := by
    intro l
    induction l with
    | nil => intro avd; simp [Bits.orAll]
    | cons ij l ih =>
      intro avd
      rw [foldl_cons, ih, computePair_allowed, flatMap_cons, Bits.orAll_append, BitVec.or_assoc]
  unfold computeTe grantedPerms
  rw [hfold, BitVec.zero_or]

/-! ## What is taken away -/

/-- A constraint that is passed over takes nothing away. -/
theorem applyConstraint_eq (allowed : BitVec 32) (c : ConstraintNode) :
    applyConstraint p s t allowed c =
      if constraintExprEval p s t none c.expr then allowed else allowed &&& ~~~c.permissions := by
  unfold applyConstraint
  cases constraintExprEval p s t none c.expr
  · by_cases h : c.permissions &&& allowed = 0#32
    · simp [h, Bits.and_not_of_disjoint h]
    · simp [h]
  · simp

theorem foldl_applyConstraint (l : List ConstraintNode) (allowed : BitVec 32) :
    l.foldl (applyConstraint p s t) allowed = allowed &&& ~~~constrainedPerms p s t l := by
  unfold constrainedPerms
  induction l generalizing allowed with
  | nil => exact (Bits.and_not_zero allowed).symm
  | cons c l ih =>
    rw [foldl_cons, ih, applyConstraint_eq, filter_cons]
    cases constraintExprEval p s t none c.expr
    · simp only [Bool.false_eq_true, if_false, Bool.not_false, if_true, map_cons, Bits.orAll_cons, Bits.and_not_or]
    · simp only [if_true, Bool.not_true, Bool.false_eq_true, if_false]

theorem any_roleAllow :
    (p.roleAllow.any fun ra => s.role == ra.role && t.role == ra.newRole) = true ↔
      ¬ ∀ ra ∈ p.roleAllow, ¬ (ra.role = s.role ∧ ra.newRole = t.role) := by
  rw [any_eq_true]
  push Not
  refine exists_congr fun ra => and_congr_right ?_
  intro _
  rw [Bool.and_eq_true, beq_iff_eq, beq_iff_eq, eq_comm, @eq_comm _ t.role]

theorem applyRoleAllow_eq (allowed : BitVec 32) :
    applyRoleAllow p s t tclass allowed = allowed &&& ~~~roleMask p s t tclass := by
  have hany := any_roleAllow p s t
  unfold applyRoleAllow roleMask
  split
  next h =>
    by_cases hra : ∀ ra ∈ p.roleAllow, ¬ (ra.role = s.role ∧ ra.newRole = t.role)
    · rw [if_neg fun hc => hany.mp hc hra, if_pos ⟨h.1, h.2.2, hra⟩]
    · rw [if_pos (hany.mpr hra), if_neg fun hc => hra hc.2.2, Bits.and_not_zero]
  next h =>
    split
    next hmask =>
      have h0 : allowed &&& (processTransition ||| processDyntransition) = 0#32 :=
        Decidable.byContradiction fun hne => h ⟨hmask.1, hne, hmask.2.1⟩
      rw [BitVec.and_comm] at h0
      exact (Bits.and_not_of_disjoint h0).symm
    · exact (Bits.and_not_zero allowed).symm

/-! ## The reason -/

theorem noteReason_of_subset {bit allowed : BitVec 32} {r : BitVec 32 × BitVec 32} (h : r.1 &&& ~~~allowed = 0#32) :
    noteReason bit allowed r = r := by
  unfold noteReason
  rw [if_neg (not_not_intro h)]

theorem noteReason_ne_zero {bit allowed : BitVec 32} {r : BitVec 32 × BitVec 32} (hbit : bit ≠ 0#32)
    (h : r.2 ≠ 0#32 ∨ r.1 &&& ~~~allowed ≠ 0#32) : (noteReason bit allowed r).2 ≠ 0#32 := by
  unfold noteReason
  split
  · intro h0
    exact hbit (BitVec.or_eq_zero_iff.mp h0).2
  next hsub =>
    exact h.resolve_right hsub

/-- The reason of three stages that only take permissions away. -/
theorem reason_eq_zero_iff {requested a0 a1 a2 : BitVec 32} (h01 : a1 &&& ~~~a0 = 0#32) (h12 : a2 &&& ~~~a1 = 0#32) :
    (noteReason computeavRbac a2 (noteReason computeavCons a1 (noteReason computeavTe a0 (requested, 0#32)))).2 = 0#32 ↔
      requested &&& ~~~a2 = 0#32 := by
  rw [Bits.and_not_eq_zero_iff] at h01 h12
  have hnote {bit allowed r} := @noteReason_ne_zero bit allowed r
  constructor
  · intro h
    refine Decidable.byContradiction ?_
    intro hne
    -- the first stage that misses a requested permission leaves its mark
    by_cases hs0 : requested &&& ~~~a0 = 0#32
    · rw [@noteReason_of_subset computeavTe a0 (requested, 0#32) hs0] at h
      by_cases hs1 : requested &&& ~~~a1 = 0#32
      · rw [@noteReason_of_subset computeavCons a1 (requested, 0#32) hs1] at h
        exact hnote (by decide) (Or.inr hne) h
      · have h1 : (noteReason computeavCons a1 (requested, 0#32)).2 ≠ 0#32 := hnote (by decide) (Or.inr hs1)
        exact hnote (by decide) (Or.inl h1) h
    · have h0 : (noteReason computeavTe a0 (requested, 0#32)).2 ≠ 0#32 := hnote (by decide) (Or.inr hs0)
      have h1 : (noteReason computeavCons a1 (noteReason computeavTe a0 (requested, 0#32))).2 ≠ 0#32 :=
        hnote (by decide) (Or.inl h0)
      exact hnote (by decide) (Or.inl h1) h
  · intro h
    have h2 := (Bits.and_not_eq_zero_iff _ _).mp h
    have hs1 : requested &&& ~~~a1 = 0#32 := (Bits.and_not_eq_zero_iff _ _).mpr fun i hi => h12 i (h2 i hi)
    have hs0 : requested &&& ~~~a0 = 0#32 := (Bits.and_not_eq_zero_iff _ _).mpr fun i hi => h01 i (h12 i (h2 i hi))
    rw [@noteReason_of_subset computeavTe a0 (requested, 0#32) hs0,
      @noteReason_of_subset computeavCons a1 (requested, 0#32) hs1,
      @noteReason_of_subset computeavRbac a2 (requested, 0#32) h]

/-- The stages of a decision, in closed form. -/
theorem computeStages_spec (constraints : List ConstraintNode) (requested : BitVec 32) :
    (computeStages p s t tclass constraints requested).1.allowed =
        grantedPerms p s t tclass &&& ~~~constrainedPerms p s t constraints &&& ~~~roleMask p s t tclass ∧
      ((computeStages p s t tclass constraints requested).2 = 0#32 ↔
        requested &&& ~~~(computeStages p s t tclass constraints requested).1.allowed = 0#32) := by
  unfold computeStages
  simp only
  rw [foldl_applyConstraint, applyRoleAllow_eq, computeTe_allowed]
  exact ⟨rfl, reason_eq_zero_iff (Bits.and_and_not _ _) (Bits.and_and_not _ _)⟩

theorem constrainedPerms_perm {l l' : List ConstraintNode} (h : l'.Perm l) :
    constrainedPerms p s t l' = constrainedPerms p s t l :=
  Bits.orAll_congr fun _ => ((h.filter _).map _).mem_iff

theorem computeStages_perm {l l' : List ConstraintNode} (h : l'.Perm l)
    (requested : BitVec 32) : computeStages p s t tclass l' requested = computeStages p s t tclass l requested := by
  unfold computeStages
  simp only
  rw [foldl_applyConstraint, foldl_applyConstraint, constrainedPerms_perm p s t h]

/-- The policy with another constraint list for a class. -/
def setConstraints (cd : ClassDatum) (l : List ConstraintNode) : Policydb :=
  { p with classValToStruct := p.classValToStruct.set (tclass.toNat - 1) (some { cd with constraints := l }) }

/-- A decision allows what the rules of the types' attributes grant, but no permission of a
    false constraint of the class and no transition of a role change without a role allow;
    the order of the constraints does not matter, and the reason is 0 exactly when all that
    was requested is allowed. -/
theorem compute_av_spec (p : Policydb) (s t : Context) (tclass : BitVec 16) (requested : BitVec 32) (cd : ClassDatum)
    (hclass : tclass ≠ 0#16 ∧ tclass.toNat ≤ p.pClasses.nprim) (hcd : datumAt p.classValToStruct tclass.toNat = some cd) :
    ∃ avd reason, contextStructComputeAv p s t tclass requested = some (avd, reason) ∧
      avd.allowed =
        grantedPerms p s t tclass &&& ~~~constrainedPerms p s t cd.constraints &&& ~~~roleMask p s t tclass ∧
      (∀ l, l.Perm cd.constraints →
        contextStructComputeAv (setConstraints p tclass cd l) s t tclass requested = some (avd, reason)) ∧
      (reason = 0#32 ↔ requested &&& ~~~avd.allowed = 0#32) := by
  have hvalid : ¬ (tclass = 0#16 ∨ p.pClasses.nprim < tclass.toNat) := by
    intro h
    rcases h with h | h
    · exact hclass.1 h
    · omega
  obtain ⟨hallowed, hreason⟩ := computeStages_spec p s t tclass cd.constraints requested
  refine ⟨_, _, ?_, hallowed, ?_, hreason⟩
  · unfold contextStructComputeAv
    rw [if_neg hvalid, hcd]
    rfl
  · intro l hl
    have hset : datumAt (setConstraints p tclass cd l).classValToStruct tclass.toNat =
        some { cd with constraints := l } := by
      unfold datumAt at hcd ⊢
      split_ifs at hcd with h0
      rw [if_neg h0]
      have hlt : tclass.toNat - 1 < p.classValToStruct.length := by
        refine Decidable.byContradiction ?_
        intro hge
        rw [getD_eq_getElem?_getD, List.getElem?_eq_none (by omega)] at hcd
        cases hcd
      simp [setConstraints, hlt]
    unfold contextStructComputeAv
    rw [if_neg (show ¬ (tclass = 0#16 ∨ (setConstraints p tclass cd l).pClasses.nprim < tclass.toNat) from hvalid), hset]
    exact congrArg some (computeStages_perm p s t tclass hl requested)

/-- `constrain process fork (u1 != u2);` -/
def processClass : ClassDatum :=
  { value := 2
    constraints := [{ permissions := 1#32, expr := [.attr cexprUser cexprNeq], depth := rfl }] }

/-- `allow t t : process { fork transition };` with the classes 1 and 2. -/
def processPolicy : Policydb :=
  { teAvtab := (avtabAlloc 1).insertNode avtabAlloc_one ⟨1#16, 1#16, 2#16, avtabAllowed⟩ { data := 3#32 } none
    typeAttrMap := [Bitmap.word 1#64]
    pClasses :=
      { table := [("file".toList, { value := 1 }), ("process".toList, processClass)]
        valToName := [some "file".toList, some "process".toList]
        indexed := Symtab.indexed_of_indexes (by decide) }
    classValToStruct := [some { value := 1 }, some processClass] }

/-- The constraint takes fork, the change of role takes the transition. -/
theorem compute_av_spec_process :
    ((2#16 : BitVec 16) ≠ 0#16 ∧ (2#16 : BitVec 16).toNat ≤ processPolicy.pClasses.nprim) ∧
      datumAt processPolicy.classValToStruct (2#16 : BitVec 16).toNat = some processClass ∧
      grantedPerms processPolicy ⟨1, 1, 1, {}⟩ ⟨1, 2, 1, {}⟩ 2#16 = 3#32 ∧
      ∃ avd reason, contextStructComputeAv processPolicy ⟨1, 1, 1, {}⟩ ⟨1, 2, 1, {}⟩ 2#16 2#32 = some (avd, reason) ∧
        avd.allowed = 0#32 ∧ reason ≠ 0#32 := by
  obtain ⟨avd, reason, hav, hallowed, -, hreason⟩ :=
    compute_av_spec processPolicy ⟨1, 1, 1, {}⟩ ⟨1, 2, 1, {}⟩ 2#16 2#32 processClass ⟨by decide, by decide⟩ rfl
  have h0 : avd.allowed = 0#32 := hallowed.trans (by decide +kernel)
  refine ⟨⟨by decide, by decide⟩, rfl, by decide +kernel, avd, reason, hav, h0, ?_⟩
  intro hr
  rw [hreason, h0] at hr
  exact absurd hr (by decide)

end SELinux.Services
