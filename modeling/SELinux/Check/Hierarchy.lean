/-
  SELinux.Check.Hierarchy — type bounds (`libsepol/src/hierarchy.c`, `bounds_check_type`).

  A child type may be granted nothing its parent is not. The parent's allow rules are
  expanded into tables of pairs of types: one for the unconditional rules, and one for each
  branch of each conditional; a permission in both branches of one conditional goes to the
  unconditional table too. Then every allow rule that covers the child is looked up with
  the parent in the child's place, and again with the other type replaced by its bound.

  `bounds_check_type_sound`: what passes is bounded under every setting of the booleans.
  The pair of the child with itself is checked as a target only ("Checked above"), and the
  conditional rules of the parent are taken for allow rules, whatever they are
  (`bounds_check_differs`).

  `uint16_t` keys hold type values that fit; `type_copy_callback` of `expand.c` refuses a
  larger type space. Allocation succeeds, and `numbad` counts without overflow.
-/
import SELinux.Check.Assertion
import SELinux.Db.Conditional
import SELinux.Lib.Run

namespace SELinux.Check

open Db List BitVec

variable {p : Policydb} {parent : Nat} {k : AvtabKey} {n : AvtabNode} {data : BitVec 32} {rules : List AvtabNode}
  {global : Option Avtab} {m : CondNode} {tab : Avtab} {cur : Avtab} {perm : Nat} {s t : Nat}

def boundsAvtabSize : Nat := 1024

/-- `td->bounds` of the type with this value. -/
def boundOf (p : Policydb) (value : Nat) : Option Nat :=
  match p.typeValToStruct.getD (value - 1) none with
  | some td => if td.bounds = 0 then none else some td.bounds
  | none => none

def boundsKey (source target : Nat) (tclass : BitVec 16) : AvtabKey :=
  { sourceType := BitVec.ofNat 16 source, targetType := BitVec.ofNat 16 target, targetClass := tclass,
    specified := avtabAllowed }

/-- The rules a conditional list points to. -/
def listRules (tab : Avtab) (ids : List Nat) : List AvtabNode :=
  ids.filterMap fun id => tab.nodes.find? fun n => n.id == id

/-! ## The parent's rules -/

/-- The tables of an expansion: the one that is filled and, for a false list, the
    unconditional one and the one of the true list. -/
structure BoundsTabs where
  avtab : Avtab
  global : Avtab := .empty
  other : Option Avtab := none

/-- Search, then insert, or add to what was found. -/
def addRule (tab : Avtab) (k : AvtabKey) (data : BitVec 32) : Except AvtabError Avtab :=
  match avtabSearchNode tab k with
  | none => avtabInsert tab k { data }
  | some dup => .ok (tab.update dup.id fun s d => (s, { d with data := d.data ||| data }))

def boundsInsertRule (k : AvtabKey) (data : BitVec 32) (t : BoundsTabs) : Except AvtabError BoundsTabs := do
  let avtab ← addRule t.avtab k data
  match t.other.bind (avtabSearchNode · k) with
  | none => return { t with avtab }
  | some dup =>
    let data := dup.datum.data &&& data
    if data = 0#32 then return { t with avtab }
    else
      let global ← addRule t.global k data
      return { t with avtab, global }

/-- The pairs with the parent that a rule covers: as the source, then as the target. -/
def parentKeys (p : Policydb) (parent : Nat) (src tgt tclass : BitVec 16) : List AvtabKey :=
  (if (p.attrTypes src).has (parent - 1) then (p.attrTypes tgt).bits.map fun i => boundsKey parent (i + 1) tclass else []) ++
    (if (p.attrTypes tgt).has (parent - 1) then (p.attrTypes src).bits.map fun i => boundsKey (i + 1) parent tclass else [])

def boundsExpandRule (p : Policydb) (parent : Nat) (n : AvtabNode) (t : BoundsTabs) : Except AvtabError BoundsTabs :=
  (parentKeys p parent n.key.sourceType n.key.targetType n.key.targetClass).foldlM
    (fun t k => boundsInsertRule k n.datum.data t) t

/-- `bounds_expand_cond_rules`: no rule of the list is passed over. -/
def boundsExpandCondRules (p : Policydb) (parent : Nat) (rules : List AvtabNode) (t : BoundsTabs) :
    Except AvtabError BoundsTabs :=
  rules.foldlM (fun t n => boundsExpandRule p parent n t) t

def boundsExpandRuleCallback (p : Policydb) (parent : Nat) (global : Avtab) (n : AvtabNode) : Except AvtabError Avtab :=
  if n.key.specified &&& avtabAllowed = 0#16 then .ok global
  else (boundsExpandRule p parent n { avtab := global }).map (·.avtab)

structure BoundsCondInfo where
  trueAvtab : Avtab
  falseAvtab : Avtab
  node : CondNode

/-- The table of a true list; an empty list gets none. -/
def boundsExpandTrue (p : Policydb) (parent : Nat) (cur : CondNode) : Except AvtabError Avtab :=
  if cur.trueList = [] then .ok .empty
  else (boundsExpandCondRules p parent (listRules p.teCondAvtab cur.trueList)
    { avtab := avtabAlloc boundsAvtabSize }).map (·.avtab)

def boundsExpandCond (p : Policydb) (parent : Nat) (global : Avtab) (cur : CondNode) :
    Except AvtabError (Avtab × BoundsCondInfo) := do
  let trueAvtab ← boundsExpandTrue p parent cur
  if cur.falseList = [] then return (global, { trueAvtab, falseAvtab := .empty, node := cur })
  else
    let t ← boundsExpandCondRules p parent (listRules p.teCondAvtab cur.falseList)
      { avtab := avtabAlloc boundsAvtabSize, global, other := some trueAvtab }
    return (t.global, { trueAvtab, falseAvtab := t.avtab, node := cur })

/-- Each conditional's tables are put in front of those before. -/
def boundsExpandConds (p : Policydb) (parent : Nat) :
    Avtab → List CondNode → Except AvtabError (Avtab × List BoundsCondInfo)
  | global, [] => return (global, [])
  | global, cur :: l => do
    let (global, info) ← boundsExpandCond p parent global cur
    let (global, infos) ← boundsExpandConds p parent global l
    return (global, infos ++ [info])

def boundsExpandParentRules (p : Policydb) (parent : Nat) : Except AvtabError (Avtab × List BoundsCondInfo) := do
  let global ← p.teAvtab.nodes.foldlM (boundsExpandRuleCallback p parent) (avtabAlloc boundsAvtabSize)
  boundsExpandConds p parent global p.condList

/-! ## The child's rules -/

/-- The permissions the table's rule for a key leaves. -/
def uncovered (tab : Avtab) (k : AvtabKey) (data : BitVec 32) : BitVec 32 :=
  match avtabSearchNode tab k with
  | some n => data &&& ~~~n.datum.data
  | none => data

def boundsNotCovered (global : Option Avtab) (cur : Avtab) (k : AvtabKey) (data : BitVec 32) : BitVec 32 :=
  let data := uncovered cur k data
  match global with
  | some g => if data = 0#32 then data else uncovered g k data
  | none => data

/-- The lookup of one pair: the type of bit `i` itself, then its bound. What is left is bad. -/
def boundsCheckPair (p : Policydb) (global : Option Avtab) (cur : Avtab) (key : Nat → AvtabKey) (data : BitVec 32)
    (i : Nat) : Option (BitVec 32) :=
  let d := boundsNotCovered global cur (key (i + 1)) data
  if d = 0#32 then none
  else
    match boundOf p (i + 1) with
    | none => some d
    | some bound =>
      let d := boundsNotCovered global cur (key bound) data
      if d = 0#32 then none else some d

/-- A rule the parent does not have, `bounds_add_bad`. -/
structure BadRule where
  sourceType : BitVec 16
  targetType : BitVec 16
  targetClass : BitVec 16
  data : BitVec 32
  deriving DecidableEq, Repr

def boundsCheckRule (p : Policydb) (global : Option Avtab) (cur : Avtab) (child parent : Nat) (n : AvtabNode) :
    List BadRule :=
  let tclass := n.key.targetClass
  let src := p.attrTypes n.key.sourceType
  let tgt := p.attrTypes n.key.targetType
  (if src.has (child - 1) then
    tgt.bits.filterMap fun i =>
      (boundsCheckPair p global cur (fun t => boundsKey parent t tclass) n.datum.data i).map
        (⟨BitVec.ofNat 16 child, BitVec.ofNat 16 (i + 1), tclass, ·⟩)
  else []) ++
  (if tgt.has (child - 1) then
    src.bits.filterMap fun i =>
      -- checked above
      if (BitVec.ofNat 16 (i + 1)).toNat = child then none
      else
        (boundsCheckPair p global cur (fun s => boundsKey s parent tclass) n.datum.data i).map
          (⟨BitVec.ofNat 16 (i + 1), BitVec.ofNat 16 child, tclass, ·⟩)
  else [])

def boundsCheckRules (p : Policydb) (global : Option Avtab) (cur : Avtab) (child parent : Nat) (rules : List AvtabNode) :
    List BadRule :=
  (rules.filter fun n => n.key.specified &&& avtabAllowed != 0#16).flatMap (boundsCheckRule p global cur child parent)

def boundsCheckChildRules (p : Policydb) (global : Avtab) (infos : List BoundsCondInfo) (child parent : Nat) :
    List BadRule :=
  boundsCheckRules p none global child parent p.teAvtab.nodes ++
    infos.flatMap fun ci =>
      boundsCheckRules p (some global) ci.trueAvtab child parent (listRules p.teCondAvtab ci.node.trueList) ++
        boundsCheckRules p (some global) ci.falseAvtab child parent (listRules p.teCondAvtab ci.node.falseList)

/-- The bad rules, the last one found first, and their number added to `numbad`. -/
def boundsCheckType (p : Policydb) (child parent : Nat) (numbad : Nat) : Except AvtabError (List BadRule × Nat) :=
  (boundsExpandParentRules p parent).map fun (global, infos) =>
    let bad := boundsCheckChildRules p global infos child parent
    (bad.reverse, numbad + bad.length)

/-! ## What the rules grant -/

/-- One of the rules is an allow rule that grants type `s` the permission on `t`. -/
def Allows (p : Policydb) (rules : List AvtabNode) (s t : Nat) (tclass : BitVec 16) (perm : Nat) : Prop :=
  ∃ n ∈ rules, n.key.specified &&& avtabAllowed ≠ 0#16 ∧ Covers p n.key (s - 1) (t - 1) ∧ n.key.targetClass = tclass ∧
    n.datum.data.getLsbD perm = true

/-- The rules of the branch a conditional selects. -/
def selectedRules (p : Policydb) (state : Nat → Bool) (n : CondNode) : List AvtabNode :=
  match condEvaluateExpr state n.expr with
  | some true => listRules p.teCondAvtab n.trueList
  | some false => listRules p.teCondAvtab n.falseList
  | none => []

/-- The rules in force under a setting of the booleans. -/
def enabledRules (p : Policydb) (state : Nat → Bool) : List AvtabNode :=
  p.teAvtab.nodes ++ p.condList.flatMap (selectedRules p state)

def AllDefined (p : Policydb) (state : Nat → Bool) : Prop := ∀ n ∈ p.condList, condEvaluateExpr state n.expr ≠ none

/-- Granted under every setting on which all conditionals are defined. -/
def AlwaysAllows (p : Policydb) (s t : Nat) (tclass : BitVec 16) (perm : Nat) : Prop :=
  ∀ state, AllDefined p state → Allows p (enabledRules p state) s t tclass perm

theorem Allows.mono {rules rules' : List AvtabNode} {tclass : BitVec 16}
    (h : Allows p rules s t tclass perm) (hsub : ∀ n ∈ rules, n ∈ rules') : Allows p rules' s t tclass perm := by
  obtain ⟨n, hn, hrest⟩ := h
  exact ⟨n, hsub n hn, hrest⟩

theorem selectedRules_subset (state : Nat → Bool) (hm : m ∈ p.condList) :
    ∀ n ∈ selectedRules p state m, n ∈ enabledRules p state := by
  intro n hn
  exact mem_append_right _ (mem_flatMap.mpr ⟨m, hm, hn⟩)

/-- What both branches of a conditional grant is always granted. -/
theorem alwaysAllows_of_both (hm : m ∈ p.condList) {tclass : BitVec 16}
    (ht : Allows p (listRules p.teCondAvtab m.trueList) s t tclass perm)
    (hf : Allows p (listRules p.teCondAvtab m.falseList) s t tclass perm) : AlwaysAllows p s t tclass perm := by
  intro state hdef
  refine Allows.mono ?_ (selectedRules_subset _ hm)
  unfold selectedRules
  cases hv : condEvaluateExpr state m.expr with
  | none => exact absurd hv (hdef m hm)
  | some b =>
    cases b
    · exact hf
    · exact ht

/-! ## The tables hold only what is granted -/

def AtKey (P : Nat → Nat → BitVec 16 → Nat → Prop) (k : AvtabKey) (perm : Nat) : Prop :=
  P k.sourceType.toNat k.targetType.toNat k.targetClass perm

/-- The permissions of a set satisfy `P` at a key. -/
def DataOk (P : Nat → Nat → BitVec 16 → Nat → Prop) (k : AvtabKey) (data : BitVec 32) : Prop :=
  ∀ perm, data.getLsbD perm = true → AtKey P k perm

def TabSound (P : Nat → Nat → BitVec 16 → Nat → Prop) (tab : Avtab) : Prop :=
  ∀ n ∈ tab.nodes, DataOk P n.key n.datum.data

/-- An allocated table all of whose permissions satisfy `P`. -/
structure TabOk (P : Nat → Nat → BitVec 16 → Nat → Prop) (tab : Avtab) : Prop where
  alloc : tab.nslot ≠ 0
  sound : TabSound P tab

variable {P Q R : Nat → Nat → BitVec 16 → Nat → Prop}

theorem atKey_congr {k c : AvtabKey} (h : sameKey k c = true) (perm : Nat) : AtKey P k perm ↔ AtKey P c perm := by
  obtain ⟨h1, h2, h3⟩ := (sameKey_iff k c).mp h
  unfold AtKey
  rw [h1, h2, h3]

theorem tabSound_unallocated : TabSound P {} := by
  intro n hn
  cases hn

theorem tabOk_alloc : TabOk P (avtabAlloc boundsAvtabSize) := by
  refine ⟨by decide, ?_⟩
  intro n hn
  obtain ⟨i, hi⟩ := Avtab.mem_nodes.mp hn
  cases hi

/-- What a search finds satisfies `P` at the key searched. -/
theorem TabSound.search (h : TabSound P tab) (hs : avtabSearchNode tab k = some n) : DataOk P k n.datum.data := by
  obtain ⟨hn, hhit⟩ := avtabSearchNode_some hs
  simp only [hitKey, Bool.and_eq_true] at hhit
  intro perm hperm
  exact (atKey_congr hhit.1 perm).mpr (h n hn perm hperm)

theorem addRule_ok (h : TabOk P tab) (hd : DataOk P k data) : ∃ tab', addRule tab k data = .ok tab' ∧ TabOk P tab' := by
  unfold addRule
  cases hs : avtabSearchNode tab k with
  | none =>
    refine ⟨tab.insertNode h.alloc k { data } none, ?_, ?_⟩
    · unfold avtabInsert
      simp [h.alloc, hs]
    · refine ⟨h.alloc, ?_⟩
      intro n hn perm hperm
      rcases mem_nodes_insertNode.mp hn with rfl | hn
      · refine hd perm ?_
        simp only [Avtab.newNode, storedDatum] at hperm
        split at hperm
        · simp at hperm
        · exact hperm
      · exact h.sound n hn perm hperm
  | some dup =>
    refine ⟨_, rfl, h.alloc, ?_⟩
    intro n hn perm hperm
    obtain ⟨m, hm, rfl⟩ := mem_nodes_update.mp hn
    unfold writeId at hperm ⊢
    split at hperm
    next hid =>
      rw [if_pos hid]
      simp only [AvtabNode.write, getLsbD_or, Bool.or_eq_true] at hperm ⊢
      rcases hperm with hperm | hperm
      · exact h.sound m hm perm hperm
      · -- the node written is the one found, so its key is `k`
        obtain ⟨hdup, hhit⟩ := avtabSearchNode_some hs
        obtain rfl := Avtab.eq_of_id hm hdup hid
        simp only [hitKey, Bool.and_eq_true] at hhit
        exact (atKey_congr hhit.1 perm).mp (hd perm hperm)
    next hid =>
      rw [if_neg hid]
      exact h.sound m hm perm hperm

/-- The tables of an expansion: `P` for the one filled; with the other branch's table `o`,
    which satisfies `R`, also `Q` for the unconditional one. -/
structure TabsOk (P Q R : Nat → Nat → BitVec 16 → Nat → Prop) (o : Option Avtab) (t : BoundsTabs) : Prop where
  avtab : TabOk P t.avtab
  global : o.isSome = true → TabOk Q t.global
  same : t.other = o
  other : ∀ tab ∈ o, TabSound R tab

theorem tabsOk_alone (h : TabOk P tab) : TabsOk P (fun _ _ _ _ => True) (fun _ _ _ _ => True) none { avtab := tab } :=
  ⟨h, nofun, rfl, nofun⟩

section Promote

variable (hpromote : ∀ s t c perm, P s t c perm → R s t c perm → Q s t c perm) {o : Option Avtab} {t : BoundsTabs}
  (h : TabsOk P Q R o t)

include hpromote h

theorem boundsInsertRule_ok (hd : DataOk P k data) : ∃ t', boundsInsertRule k data t = .ok t' ∧ TabsOk P Q R o t' := by
  obtain ⟨avtab, hadd, hok⟩ := addRule_ok h.avtab hd
  unfold boundsInsertRule
  rw [hadd]
  cases hdup : t.other.bind (avtabSearchNode · k) with
  | none => exact ⟨{ t with avtab }, rfl, hok, h.global, h.same, h.other⟩
  | some dup =>
    obtain ⟨tab, ho, hs⟩ := Option.bind_eq_some_iff.mp hdup
    rw [h.same] at ho
    by_cases h0 : dup.datum.data &&& data = 0#32
    · refine ⟨{ t with avtab }, ?_, hok, h.global, h.same, h.other⟩
      simp only [bind, Except.bind, h0, if_true]
      rfl
    · -- a permission of both branches is promoted
      have hcommon : DataOk Q k (dup.datum.data &&& data) := by
        intro perm hperm
        rw [getLsbD_and, Bool.and_eq_true] at hperm
        exact hpromote _ _ _ _ (hd perm hperm.2) ((h.other tab ho).search hs perm hperm.1)
      obtain ⟨global, hadd', hok'⟩ := addRule_ok (h.global (by rw [ho]; rfl)) hcommon
      refine ⟨{ t with avtab, global }, ?_, hok, fun _ => hok', h.same, h.other⟩
      simp only [bind, Except.bind, h0, if_false, hadd']
      rfl

theorem boundsExpandRule_ok
    (hd : ∀ k ∈ parentKeys p parent n.key.sourceType n.key.targetType n.key.targetClass, DataOk P k n.datum.data) :
    ∃ t', boundsExpandRule p parent n t = .ok t' ∧ TabsOk P Q R o t' :=
  Lib.Run.foldlM_exists (fun _ k hk ht => boundsInsertRule_ok hpromote ht (hd k hk)) h

theorem boundsExpandCondRules_ok
    (hd : ∀ n ∈ rules, ∀ k ∈ parentKeys p parent n.key.sourceType n.key.targetType n.key.targetClass,
      DataOk P k n.datum.data) :
    ∃ t', boundsExpandCondRules p parent rules t = .ok t' ∧ TabsOk P Q R o t' :=
  Lib.Run.foldlM_exists (fun _ n hn ht => boundsExpandRule_ok hpromote ht (hd n hn)) h

end Promote

/-! ## Expanding the parent -/

/-- Type values fit in the key of a rule. -/
structure TypesFit (p : Policydb) : Prop where
  types : ∀ k i, (p.attrTypes k).has i = true → i + 1 < 2 ^ 16
  bounds : ∀ value b, boundOf p value = some b → b < 2 ^ 16

/-- Among the conditional rules with the parent as a source or a target, those that have
    permissions are allow rules. -/
def CondRulesAllowed (p : Policydb) (parent : Nat) : Prop :=
  ∀ m ∈ p.condList, ∀ n ∈ listRules p.teCondAvtab m.trueList ++ listRules p.teCondAvtab m.falseList,
    n.key.specified &&& avtabAllowed ≠ 0#16 ∨ n.datum.data = 0#32 ∨
      ((p.attrTypes n.key.sourceType).has (parent - 1) = false ∧ (p.attrTypes n.key.targetType).has (parent - 1) = false)

theorem toNat_value {v : Nat} (h : v < 2 ^ 16) : (BitVec.ofNat 16 v).toNat = v := by
  exact Nat.mod_eq_of_lt h

theorem atKey_boundsKey (hs : s < 2 ^ 16) (ht : t < 2 ^ 16) (c : BitVec 16) (perm : Nat) :
    AtKey P (boundsKey s t c) perm ↔ P s t c perm := by
  unfold AtKey boundsKey
  rw [toNat_value hs, toNat_value ht]

section Parent

variable (hfit : TypesFit p) (hp : parent < 2 ^ 16)

include hfit hp

/-- A key of the parent names a pair the rule covers. -/
theorem mem_parentKeys (hk : k ∈ parentKeys p parent n.key.sourceType n.key.targetType n.key.targetClass) :
    Covers p n.key (k.sourceType.toNat - 1) (k.targetType.toNat - 1) ∧ k.targetClass = n.key.targetClass ∧
      ((p.attrTypes n.key.sourceType).has (parent - 1) = true ∨ (p.attrTypes n.key.targetType).has (parent - 1) = true) := by
  rcases mem_append.mp hk with hk | hk
  · split at hk
    next hsrc =>
      obtain ⟨i, hi, rfl⟩ := mem_map.mp hk
      have hi := Bitmap.mem_bits.mp hi
      simp only [boundsKey, toNat_value hp, toNat_value (hfit.types _ i hi), Nat.add_sub_cancel]
      exact ⟨⟨hsrc, hi⟩, trivial, Or.inl hsrc⟩
    · cases hk
  · split at hk
    next htgt =>
      obtain ⟨i, hi, rfl⟩ := mem_map.mp hk
      have hi := Bitmap.mem_bits.mp hi
      simp only [boundsKey, toNat_value hp, toNat_value (hfit.types _ i hi), Nat.add_sub_cancel]
      exact ⟨⟨hi, htgt⟩, trivial, Or.inr htgt⟩
    · cases hk

/-- The expansion of an allow rule is granted by any rules it is among. -/
theorem dataOk_of_allowed (hn : n ∈ rules) (hspec : n.key.specified &&& avtabAllowed ≠ 0#16)
    (hk : k ∈ parentKeys p parent n.key.sourceType n.key.targetType n.key.targetClass) :
    DataOk (Allows p rules) k n.datum.data := by
  obtain ⟨hcov, hclass, -⟩ := mem_parentKeys hfit hp hk
  intro perm hperm
  exact ⟨n, hn, hspec, hcov, hclass.symm, hperm⟩

theorem dataOk_of_cond (hcond : CondRulesAllowed p parent) (hm : m ∈ p.condList) (hn : n ∈ rules)
    (hlist : n ∈ listRules p.teCondAvtab m.trueList ++ listRules p.teCondAvtab m.falseList)
    (hk : k ∈ parentKeys p parent n.key.sourceType n.key.targetType n.key.targetClass) :
    DataOk (Allows p rules) k n.datum.data := by
  rcases hcond m hm n hlist with hspec | hzero | ⟨hsrc, htgt⟩
  · exact dataOk_of_allowed hfit hp hn hspec hk
  · intro perm hperm
    rw [hzero] at hperm
    simp at hperm
  · obtain ⟨-, -, h⟩ := mem_parentKeys hfit hp hk
    rw [hsrc, htgt] at h
    simp at h

/-- The tables of a conditional hold what its branches grant. -/
structure InfoOk (p : Policydb) (ci : BoundsCondInfo) : Prop where
  mem : ci.node ∈ p.condList
  onTrue : TabSound (Allows p (listRules p.teCondAvtab ci.node.trueList)) ci.trueAvtab
  onFalse : TabSound (Allows p (listRules p.teCondAvtab ci.node.falseList)) ci.falseAvtab

theorem boundsExpandTrue_ok (hcond : CondRulesAllowed p parent) (hm : m ∈ p.condList) :
    ∃ trueAvtab, boundsExpandTrue p parent m = .ok trueAvtab ∧
      TabSound (Allows p (listRules p.teCondAvtab m.trueList)) trueAvtab := by
  unfold boundsExpandTrue
  by_cases hnil : m.trueList = []
  · rw [if_pos hnil]
    exact ⟨{}, rfl, tabSound_unallocated⟩
  · rw [if_neg hnil]
    obtain ⟨t, ht, hok⟩ := boundsExpandCondRules_ok (fun _ _ _ _ _ _ => trivial) (tabsOk_alone tabOk_alloc)
      fun n hn k hk => dataOk_of_cond hfit hp hcond hm hn (mem_append_left _ hn) hk
    rw [ht]
    exact ⟨t.avtab, rfl, hok.avtab.sound⟩

theorem boundsExpandCond_ok (hcond : CondRulesAllowed p parent) {global : Avtab} (hg : TabOk (AlwaysAllows p) global)
    (hm : m ∈ p.condList) :
    ∃ global' ci, boundsExpandCond p parent global m = .ok (global', ci) ∧ ci.node = m ∧ InfoOk p ci ∧
      TabOk (AlwaysAllows p) global' := by
  obtain ⟨trueAvtab, hte, htsound⟩ := boundsExpandTrue_ok hfit hp hcond hm
  unfold boundsExpandCond
  rw [hte]
  by_cases hnil : m.falseList = []
  · refine ⟨global, ⟨trueAvtab, {}, m⟩, ?_, rfl, ⟨hm, htsound, tabSound_unallocated⟩, hg⟩
    simp only [bind, Except.bind, hnil, if_true]
    rfl
  · -- what the false list has in common with that table is promoted
    obtain ⟨t, ht, hok⟩ := boundsExpandCondRules_ok
      (t := { avtab := avtabAlloc boundsAvtabSize, global, other := some trueAvtab })
      (fun _ _ _ _ hf ht => alwaysAllows_of_both hm ht hf)
        ⟨tabOk_alloc, fun _ => hg, rfl, fun o ho => by cases ho; exact htsound⟩
      fun n hn k hk => dataOk_of_cond hfit hp hcond hm hn (mem_append_right _ hn) hk
    refine ⟨t.global, ⟨trueAvtab, t.avtab, m⟩, ?_, rfl, ⟨hm, htsound, hok.avtab.sound⟩, hok.global rfl⟩
    simp only [bind, Except.bind, hnil, if_false, ht]
    rfl

theorem boundsExpandConds_ok (hcond : CondRulesAllowed p parent) {l : List CondNode} (hl : ∀ m ∈ l, m ∈ p.condList)
    {global : Avtab} (hg : TabOk (AlwaysAllows p) global) :
    ∃ global' infos, boundsExpandConds p parent global l = .ok (global', infos) ∧ TabOk (AlwaysAllows p) global' ∧
      (∀ ci ∈ infos, InfoOk p ci) ∧ ∀ m ∈ l, ∃ ci ∈ infos, ci.node = m := by
  induction l generalizing global with
  | nil => exact ⟨global, [], rfl, hg, by simp, by simp⟩
  | cons m l ih =>
    obtain ⟨hm, hl⟩ := forall_mem_cons.mp hl
    obtain ⟨g1, ci, he1, hnode, hci, hg1⟩ := boundsExpandCond_ok hfit hp hcond hg hm
    obtain ⟨g2, infos, he2, hg2, hinfos, hall⟩ := ih hl hg1
    refine ⟨g2, infos ++ [ci], ?_, hg2, ?_, ?_⟩
    · unfold boundsExpandConds
      rw [he1]
      simp only [bind, Except.bind, he2]
      rfl
    · exact forall_mem_append.mpr ⟨hinfos, forall_mem_singleton.mpr hci⟩
    · refine forall_mem_cons.mpr ⟨⟨ci, mem_append_right _ (mem_singleton_self ci), hnode⟩, ?_⟩
      intro m' hm'
      obtain ⟨c, hc, hcn⟩ := hall m' hm'
      exact ⟨c, mem_append_left _ hc, hcn⟩

/-- The expansion never fails; its tables hold only what is granted. -/
theorem boundsExpandParentRules_ok (hcond : CondRulesAllowed p parent) :
    ∃ global infos, boundsExpandParentRules p parent = .ok (global, infos) ∧ TabSound (AlwaysAllows p) global ∧
      (∀ ci ∈ infos, InfoOk p ci) ∧ ∀ m ∈ p.condList, ∃ ci ∈ infos, ci.node = m := by
  have hte : ∃ g, p.teAvtab.nodes.foldlM (boundsExpandRuleCallback p parent) (avtabAlloc boundsAvtabSize) = .ok g ∧
      TabOk (AlwaysAllows p) g := by
    refine Lib.Run.foldlM_exists (P := TabOk (AlwaysAllows p)) ?_ tabOk_alloc
    intro g n hn hg
    unfold boundsExpandRuleCallback
    by_cases hspec : n.key.specified &&& avtabAllowed = 0#16
    · rw [if_pos hspec]
      exact ⟨g, rfl, hg⟩
    · rw [if_neg hspec]
      obtain ⟨t, ht, hok⟩ := boundsExpandRule_ok (fun _ _ _ _ _ _ => trivial) (tabsOk_alone hg)
        fun k hk perm hperm state _ => dataOk_of_allowed hfit hp (mem_append_left _ hn) hspec hk perm hperm
      rw [ht]
      exact ⟨t.avtab, rfl, hok.avtab⟩
  obtain ⟨g, hfold, hg⟩ := hte
  obtain ⟨global, infos, hconds, hglobal, hinfos, hall⟩ := boundsExpandConds_ok hfit hp hcond (fun _ hm => hm) hg
  refine ⟨global, infos, ?_, hglobal.sound, hinfos, hall⟩
  unfold boundsExpandParentRules
  rw [hfold]
  exact hconds

end Parent

/-! ## Checking the child -/

theorem TabSound.mono (h : TabSound P tab) (hPQ : ∀ s t c perm, P s t c perm → Q s t c perm) : TabSound Q tab :=
  fun n hn perm hperm => hPQ _ _ _ _ (h n hn perm hperm)

/-- A permission is in the table at the key, or is left. -/
theorem TabSound.uncovered (h : TabSound P tab) (k : AvtabKey)
    (hperm : data.getLsbD perm = true) : AtKey P k perm ∨ (uncovered tab k data).getLsbD perm = true := by
  unfold Check.uncovered
  cases hs : avtabSearchNode tab k with
  | none => exact Or.inr hperm
  | some n =>
    by_cases hn : n.datum.data.getLsbD perm = true
    · exact Or.inl (h.search hs perm hn)
    · refine Or.inr ?_
      rw [getLsbD_and, getLsbD_not, hperm, Bool.eq_false_iff.mpr hn]
      simp [lt_of_getLsbD hperm]

/-- The child is bounded on the pairs the rules cover, by what `P` grants. -/
def BoundedBy (p : Policydb) (P : Nat → Nat → BitVec 16 → Nat → Prop) (rules : List AvtabNode) (child parent : Nat) : Prop :=
  (∀ t c perm, 0 < t → Allows p rules child t c perm →
      P parent t c perm ∨ ∃ b, boundOf p t = some b ∧ P parent b c perm) ∧
    ∀ s c perm, 0 < s → s ≠ child → Allows p rules s child c perm →
      P s parent c perm ∨ ∃ b, boundOf p s = some b ∧ P b parent c perm

theorem boundedBy_of_forall {child : Nat}
    (h : ∀ n ∈ rules, n.key.specified &&& avtabAllowed ≠ 0#16 → BoundedBy p P [n] child parent) :
    BoundedBy p P rules child parent := by
  refine ⟨?_, ?_⟩
  · rintro t c perm ht ⟨n, hn, hal⟩
    exact (h n hn hal.1).1 t c perm ht ⟨n, mem_singleton_self n, hal⟩
  · rintro s c perm hs hne ⟨n, hn, hal⟩
    exact (h n hn hal.1).2 s c perm hs hne ⟨n, mem_singleton_self n, hal⟩

theorem BoundedBy.rule {child : Nat} (h : BoundedBy p P rules child parent) (hn : n ∈ rules) :
    BoundedBy p P [n] child parent :=
  ⟨fun t c perm ht hal => h.1 t c perm ht (hal.mono (by simpa using hn)),
    fun s c perm hs hne hal => h.2 s c perm hs hne (hal.mono (by simpa using hn))⟩

theorem allows_singleton {c : BitVec 16} (h : Allows p [n] s t c perm) :
    Covers p n.key (s - 1) (t - 1) ∧ n.key.targetClass = c ∧ n.datum.data.getLsbD perm = true := by
  obtain ⟨n', hn, -, hrest⟩ := h
  rwa [mem_singleton.mp hn] at hrest

theorem boundsNotCovered_eq_zero (hg : ∀ g, global = some g → TabSound P g) (hc : TabSound P cur)
    (h : boundsNotCovered global cur k data = 0#32) : DataOk P k data := by
  intro perm hperm
  unfold boundsNotCovered at h
  refine (hc.uncovered k hperm).elim id ?_
  intro hleft
  have hne : uncovered cur k data ≠ 0#32 := fun h0 => by
    rw [h0] at hleft
    simp at hleft
  cases global with
  | none => exact absurd h hne
  | some g =>
    simp only [if_neg hne] at h
    refine ((hg g rfl).uncovered k hleft).resolve_right ?_
    intro h1
    rw [h] at h1
    simp at h1

/-- Nothing is left of a pair: it is granted to the type itself, or to its bound. -/
theorem boundsCheckPair_eq_none (hg : ∀ g, global = some g → TabSound P g) (hc : TabSound P cur) {key : Nat → AvtabKey}
    {i : Nat} (h : boundsCheckPair p global cur key data i = none) (hperm : data.getLsbD perm = true) :
    AtKey P (key (i + 1)) perm ∨ ∃ b, boundOf p (i + 1) = some b ∧ AtKey P (key b) perm := by
  unfold boundsCheckPair at h
  simp only at h
  split at h
  next h0 =>
    exact Or.inl (boundsNotCovered_eq_zero hg hc h0 perm hperm)
  · split at h
    · cases h
    next b hb =>
      split_ifs at h with h0
      exact Or.inr ⟨b, hb, boundsNotCovered_eq_zero hg hc h0 perm hperm⟩

section Child

variable (hfit : TypesFit p) (hp : parent < 2 ^ 16) {child : Nat} (hg : ∀ g, global = some g → TabSound P g)
  (hc : TabSound P cur)

include hfit hp hg hc

/-- A rule with nothing bad in it is bounded, as a source and as a target. -/
theorem boundsCheckRule_eq_nil (h : boundsCheckRule p global cur child parent n = []) : BoundedBy p P [n] child parent := by
  unfold boundsCheckRule at h
  simp only [append_eq_nil_iff] at h
  obtain ⟨hsrc, htgt⟩ := h
  refine ⟨?_, ?_⟩
  · intro t c perm ht hal
    obtain ⟨hcov, rfl, hperm⟩ := allows_singleton hal
    rw [if_pos hcov.1, filterMap_eq_nil_iff] at hsrc
    have hpair := Option.map_eq_none_iff.mp (hsrc (t - 1) (Bitmap.mem_bits.mpr hcov.2))
    have hfitt := hfit.types _ _ hcov.2
    have hd := boundsCheckPair_eq_none hg hc hpair hperm
    rw [Nat.sub_add_cancel ht] at hd hfitt
    refine hd.imp (atKey_boundsKey hp hfitt _ _).mp ?_
    rintro ⟨b, hb, hd⟩
    exact ⟨b, hb, (atKey_boundsKey hp (hfit.bounds _ _ hb) _ _).mp hd⟩
  · intro s c perm hs hne hal
    obtain ⟨hcov, rfl, hperm⟩ := allows_singleton hal
    rw [if_pos hcov.2, filterMap_eq_nil_iff] at htgt
    have hfits := hfit.types _ _ hcov.1
    have hpair := htgt (s - 1) (Bitmap.mem_bits.mpr hcov.1)
    rw [toNat_value hfits, Nat.sub_add_cancel hs, if_neg hne, Option.map_eq_none_iff] at hpair
    have hd := boundsCheckPair_eq_none hg hc hpair hperm
    rw [Nat.sub_add_cancel hs] at hd hfits
    refine hd.imp (atKey_boundsKey hfits hp _ _).mp ?_
    rintro ⟨b, hb, hd⟩
    exact ⟨b, hb, (atKey_boundsKey (hfit.bounds _ _ hb) hp _ _).mp hd⟩

theorem boundsCheckRules_eq_nil (h : boundsCheckRules p global cur child parent rules = []) :
    BoundedBy p P rules child parent := by
  unfold boundsCheckRules at h
  rw [flatMap_eq_nil_iff] at h
  refine boundedBy_of_forall fun n hn hspec => ?_
  exact boundsCheckRule_eq_nil hfit hp hg hc (h n (mem_filter.mpr ⟨hn, bne_iff_ne.mpr hspec⟩))

end Child

/-- With no bad rule, the child is bounded by the rules in force, under every setting. -/
theorem boundsCheckChildRules_eq_nil (hfit : TypesFit p) (hp : parent < 2 ^ 16) {global : Avtab}
    {infos : List BoundsCondInfo} (hglobal : TabSound (AlwaysAllows p) global) (hinfos : ∀ ci ∈ infos, InfoOk p ci)
    (hall : ∀ m ∈ p.condList, ∃ ci ∈ infos, ci.node = m) {child : Nat}
    (h : boundsCheckChildRules p global infos child parent = []) {state : Nat → Bool} (hdef : AllDefined p state) :
    BoundedBy p (Allows p (enabledRules p state)) (enabledRules p state) child parent := by
  unfold boundsCheckChildRules at h
  rw [append_eq_nil_iff, flatMap_eq_nil_iff] at h
  obtain ⟨hte, hcond⟩ := h
  have hg : TabSound (Allows p (enabledRules p state)) global := hglobal.mono fun _ _ _ _ hal => hal state hdef
  have hbranch : ∀ m ∈ p.condList,
      BoundedBy p (Allows p (enabledRules p state)) (selectedRules p state m) child parent := by
    intro m hm
    obtain ⟨ci, hci, rfl⟩ := hall m hm
    obtain ⟨htrue, hfalse⟩ := append_eq_nil_iff.mp (hcond ci hci)
    have hsub := selectedRules_subset state hm
    revert hsub
    unfold selectedRules
    cases hv : condEvaluateExpr state ci.node.expr with
    | none => exact absurd hv (hdef _ hm)
    | some b =>
      intro hsub
      cases b
      · exact boundsCheckRules_eq_nil hfit hp (by rintro g ⟨⟩; exact hg)
          ((hinfos ci hci).onFalse.mono fun _ _ _ _ hal => hal.mono hsub) hfalse
      · exact boundsCheckRules_eq_nil hfit hp (by rintro g ⟨⟩; exact hg)
          ((hinfos ci hci).onTrue.mono fun _ _ _ _ hal => hal.mono hsub) htrue
  have hte' : BoundedBy p (Allows p (enabledRules p state)) p.teAvtab.nodes child parent :=
    boundsCheckRules_eq_nil hfit hp (by rintro g ⟨⟩) hg hte
  refine boundedBy_of_forall fun n hn hspec => ?_
  rcases mem_append.mp hn with hn | hn
  · exact hte'.rule hn
  · obtain ⟨m, hm, hn⟩ := mem_flatMap.mp hn
    exact (hbranch m hm).rule hn

/-- A child with no bad rule is granted, under every setting of the booleans, nothing on a
    type that its parent is not granted on it or on its bound, and no other type is granted
    anything on the child that it, or its bound, is not granted on the parent. -/
theorem bounds_check_type_sound (p : Policydb) (child parent : Nat) (hbound : boundOf p child = some parent)
    (hfit : TypesFit p) (hcond : CondRulesAllowed p parent) :
    ∃ bad numbad, boundsCheckType p child parent 0 = .ok (bad, numbad) ∧
      (numbad = 0 → ∀ state, AllDefined p state →
        (∀ t c perm, 0 < t → Allows p (enabledRules p state) child t c perm →
            Allows p (enabledRules p state) parent t c perm ∨
              ∃ b, boundOf p t = some b ∧ Allows p (enabledRules p state) parent b c perm) ∧
          ∀ s c perm, 0 < s → s ≠ child → Allows p (enabledRules p state) s child c perm →
            Allows p (enabledRules p state) s parent c perm ∨
              ∃ b, boundOf p s = some b ∧ Allows p (enabledRules p state) b parent c perm) := by
  have hp := hfit.bounds child parent hbound
  obtain ⟨global, infos, hexp, hglobal, hinfos, hall⟩ := boundsExpandParentRules_ok hfit hp hcond
  refine ⟨_, _, by unfold boundsCheckType; rw [hexp]; rfl, ?_⟩
  intro h0 state hdef
  rw [Nat.zero_add, length_eq_zero_iff] at h0
  exact boundsCheckChildRules_eq_nil hfit hp hglobal hinfos hall h0 hdef

/-- What the check would mean with the child in every place and allow rules only. -/
def BoundsHold (p : Policydb) (child parent : Nat) : Prop :=
  ∀ state, AllDefined p state →
    (∀ t c perm, 0 < t → Allows p (enabledRules p state) child t c perm →
        Allows p (enabledRules p state) parent t c perm ∨
          ∃ b, boundOf p t = some b ∧ Allows p (enabledRules p state) parent b c perm) ∧
      ∀ s c perm, 0 < s → Allows p (enabledRules p state) s child c perm →
        Allows p (enabledRules p state) s parent c perm ∨
          ∃ b, boundOf p s = some b ∧ Allows p (enabledRules p state) b parent c perm

/-- Types 1, bounded by 2, and 2, bounded by 3. -/
def boundedTypes : Policydb :=
  { typeValToStruct := [some { bounds := 2 }, some { bounds := 3 }, some {}]
    attrTypeMap := [Bitmap.word 1#64, Bitmap.word 2#64, Bitmap.word 4#64] }

/-- `allow child child : c p; allow parent child : c p; allow grandparent parent : c p;` -/
def selfBoundPolicy : Policydb :=
  { boundedTypes with
    teAvtab := (((avtabAlloc 2).insertNode avtabAlloc_two ⟨1#16, 1#16, 1#16, avtabAllowed⟩ { data := 1#32 } none).insertNode
      (by decide) ⟨2#16, 1#16, 1#16, avtabAllowed⟩ { data := 1#32 } none).insertNode
      (by decide) ⟨3#16, 2#16, 1#16, avtabAllowed⟩ { data := 1#32 } none }

/-- `if (b) { allow child parent : c p; auditallow parent parent : c p; }` -/
def auditPolicy : Policydb :=
  { boundedTypes with
    teCondAvtab :=
      ((avtabAlloc 2).insertNode avtabAlloc_two ⟨1#16, 2#16, 1#16, avtabAllowed⟩ { data := 1#32 } none).insertNode
      (by decide) ⟨2#16, 2#16, 1#16, avtabAuditallow⟩ { data := 1#32 } none
    condList := [{ id := 0, expr := [.bool 1], trueList := [0, 1] }] }

/-- What no rule grants. -/
theorem not_allows
    (h : ∀ n ∈ rules, n.key.specified &&& avtabAllowed = 0#16 ∨ (p.attrTypes n.key.sourceType).has (s - 1) = false ∨
      (p.attrTypes n.key.targetType).has (t - 1) = false) (tclass : BitVec 16) (perm : Nat) :
    ¬ Allows p rules s t tclass perm := by
  intro h
  obtain ⟨n, hn, hspec, hcov, -⟩ := h
  rcases h n hn with h | h | h
  · exact hspec h
  · exact absurd hcov.1 (by rw [h]; decide)
  · exact absurd hcov.2 (by rw [h]; decide)

/-- The child on itself is not looked up as a target; and a conditional auditallow rule of
    the parent passes for an allow rule. -/
theorem bounds_check_differs :
    (boundOf selfBoundPolicy 1 = some 2 ∧ (boundsCheckType selfBoundPolicy 1 2 0).toOption = some ([], 0) ∧
        ¬ BoundsHold selfBoundPolicy 1 2) ∧
      boundOf auditPolicy 1 = some 2 ∧ (boundsCheckType auditPolicy 1 2 0).toOption = some ([], 0) ∧
        ¬ BoundsHold auditPolicy 1 2 := by
  refine ⟨⟨rfl, by decide +kernel, ?_⟩, rfl, by decide +kernel, ?_⟩
  · intro h
    have hdef : AllDefined selfBoundPolicy fun _ => false := by
      intro n hn
      cases hn
    have hgrant : Allows selfBoundPolicy (enabledRules selfBoundPolicy fun _ => false) 1 1 1#16 0 :=
      ⟨⟨0, ⟨1#16, 1#16, 1#16, avtabAllowed⟩, { data := 1#32 }, none⟩,
        by decide, by decide, ⟨by decide, by decide⟩, by decide, by decide⟩
    rcases (h _ hdef).2 1 _ _ (by decide) hgrant with hal | ⟨b, hb, hal⟩
    · exact not_allows (by decide) _ _ hal
    · cases hb
      exact not_allows (by decide) _ _ hal
  · intro h
    have hdef : AllDefined auditPolicy fun _ => true := by
      intro n hn
      rw [mem_singleton.mp hn]
      decide
    have hgrant : Allows auditPolicy (enabledRules auditPolicy fun _ => true) 1 2 1#16 0 :=
      ⟨⟨0, ⟨1#16, 2#16, 1#16, avtabAllowed⟩, { data := 1#32 }, none⟩,
        by decide, by decide, ⟨by decide, by decide⟩, by decide, by decide⟩
    rcases (h _ hdef).1 2 _ _ (by decide) hgrant with hal | ⟨b, hb, hal⟩
    · exact not_allows (by decide) _ _ hal
    · cases hb
      exact not_allows (by decide) _ _ hal

/-- With `if (b) { allow child grandparent : c p; allow parent grandparent : c p; }` -/
def condBoundPolicy : Policydb :=
  { selfBoundPolicy with
    teCondAvtab :=
      ((avtabAlloc 2).insertNode avtabAlloc_two ⟨1#16, 3#16, 1#16, avtabAllowed⟩ { data := 1#32 } none).insertNode
      (by decide) ⟨2#16, 3#16, 1#16, avtabAllowed⟩ { data := 1#32 } none
    condList := [{ id := 0, expr := [.bool 1], trueList := [0, 1] }] }

theorem condBoundPolicy_fit : TypesFit condBoundPolicy := by
  refine ⟨fun k i hi => ?_, fun value b hb => ?_⟩
  · -- three words and no more
    have hword : (condBoundPolicy.attrTypes k).1.highbit ≤ 64 := by
      unfold Policydb.attrTypes
      rcases k.toNat with _ | _ | _ | _ | _
      case succ.succ.succ.succ => exact Nat.zero_le 64
      all_goals decide
    have hlt := ((condBoundPolicy.attrTypes k).2.getBit_lt hi).1
    omega
  · rcases value with _ | _ | _ | _ | _ <;> cases hb <;> decide

/-- The check passes this policy, and its bounds hold but for the child on itself. -/
theorem bounds_check_type_sound_cond :
    Allows condBoundPolicy (enabledRules condBoundPolicy fun _ => true) 1 3 1#16 0 ∧
      BoundedBy condBoundPolicy (Allows condBoundPolicy (enabledRules condBoundPolicy fun _ => true))
        (enabledRules condBoundPolicy fun _ => true) 1 2 := by
  have hgrant : Allows condBoundPolicy (enabledRules condBoundPolicy fun _ => true) 1 3 1#16 0 :=
    ⟨⟨0, ⟨1#16, 3#16, 1#16, avtabAllowed⟩, { data := 1#32 }, none⟩, by decide, by decide, ⟨by decide, by decide⟩, by decide,
      by decide⟩
  have hdef : AllDefined condBoundPolicy (fun _ => true) := by
    intro n hn
    rw [mem_singleton.mp hn]
    decide
  have hcond : CondRulesAllowed condBoundPolicy 2 := by
    unfold CondRulesAllowed
    decide
  obtain ⟨bad, numbad, hok, h⟩ := bounds_check_type_sound condBoundPolicy 1 2 rfl condBoundPolicy_fit hcond
  have hnone : (boundsCheckType condBoundPolicy 1 2 0).toOption = some ([], 0) := by decide +kernel
  rw [hok] at hnone
  cases hnone
  exact ⟨hgrant, h rfl _ hdef⟩

end SELinux.Check
