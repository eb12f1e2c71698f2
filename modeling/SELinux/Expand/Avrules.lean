/-
  SELinux.Expand.Avrules — expanding rules into the access vector tables
  (`libsepol/src/expand.c`: `map_ebitmap`, `type_set_expand`, `find_avtab_node`,
  `expand_avrule_helper`, `expand_terule_helper`, `expand_rule_helper`,
  `convert_and_expand_rule`, `cond_avrule_list_copy`, `copy_neverallow`).

  A rule is expanded into the unconditional table, or into the conditional table and one
  list of a conditional node. `ctx` names that list, the `cond` pointer of the code, and
  marks the nodes it owns; a node is shared only within its own list.

  `Grows` is what any expansion into a conditional list does: rules of other lists stay as
  they are, and the list's own rules all have the flag the expansion was given.
-/
import SELinux.Db.Conditional
import SELinux.Lib.Run

namespace SELinux.Expand

open Db Option

/-- What the expansion functions read of the state and of the handle. -/
structure Env where
  typemap : List Nat
  disableDontaudit : Bool := false

variable (env : Env) (p : Policydb)

def maxAvtabSize : Nat := 2 ^ 21

/-! ## Type sets -/

/-- `map_ebitmap`: the bits renumbered by `map`, where 0 is no type of the new policy. -/
def mapEbitmap (src : Bitmap) (map : List Nat) : Option Bitmap :=
  src.bits.foldlM (fun dst i => if map.getD i 0 = 0 then some dst else dst.setBit (map.getD i 0 - 1) true) Bitmap.empty

theorem has_mapEbitmap {src dst : Bitmap} {map : List Nat} (h : mapEbitmap src map = some dst) (j : Nat) :
    dst.has j = true ↔ ∃ i, src.has i = true ∧ map.getD i 0 = j + 1 := by
  have hloop : dst.has j = true ↔ ∃ i ∈ src.bits, map.getD i 0 = j + 1 := by
    refine Lib.Run.foldlM_history (P := fun done e => e.has j = true ↔ ∃ i ∈ done, map.getD i 0 = j + 1) ?_ ?_ h
    · intro done i e e' _ he hstep
      simp only [List.mem_append, List.mem_singleton, or_and_right, exists_or, exists_eq_left]
      rw [← he]
      split at hstep
      next hzero =>
        cases hstep
        rw [hzero]
        exact (or_iff_left (Nat.succ_ne_zero j).symm).symm
      · rw [Bitmap.has_setBit hstep]
        split
        · simp only [true_iff]
          exact Or.inr (by omega)
        · exact (or_iff_left (by omega)).symm
    · simp [Bitmap.has_empty]
  simp only [hloop, Bitmap.mem_bits]

def isAttrib (i : Nat) : Bool :=
  match p.typeValToStruct.getD i none with
  | some t => t.flavor == .attrib
  | none => false

def attribTypes (i : Nat) : Bitmap :=
  match p.typeValToStruct.getD i none with
  | some t => t.types
  | none => Bitmap.empty

/-- The loop that replaces attributes by their types. -/
def expandAttribs (set : Bitmap) : Option Bitmap :=
  set.bits.foldlM (fun acc i => if isAttrib p i then some (acc.union (attribTypes p i)) else acc.setBit i true) Bitmap.empty

def typeSetExpand (set : TypeSet) (p : Policydb) (alwaysexpand : Bool) : Option Bitmap := do
  let types ←
    if alwaysexpand || ebitmapLength set.negset.1 != 0 || set.flags != 0#32 then expandAttribs p set.types
    else some set.types
  let negTypes ← expandAttribs p set.negset
  let nprim := p.typeValToStruct.length
  if set.flags &&& typeStar ≠ 0#32 then
    (List.range nprim).foldlM
      (fun t i => if negTypes.has i || isAttrib p i then some t else t.setBit i true) Bitmap.empty
  else
    let t ← types.bits.foldlM (fun t i => if negTypes.has i then some t else t.setBit i true) Bitmap.empty
    if set.flags &&& typeComp ≠ 0#32 then
      -- an attribute still in `t` fails the code's assertion
      (List.range nprim).foldlM
        (fun t i =>
          if isAttrib p i then (if t.has i then none else some t)
          else t.setBit i (!t.has i)) t
    else some t

def expandConvertTypeSet (typemap : List Nat) (set : TypeSet) (alwaysexpand : Bool) : Option Bitmap := do
  let types ← mapEbitmap set.types typemap
  let negset ← mapEbitmap set.negset typemap
  typeSetExpand { types, negset, flags := set.flags } p alwaysexpand

/-! ## Rules -/

/-- Where a rule goes: the two tables of the new policy, and the conditional list `*cond`. -/
structure Dest where
  te : Avtab
  cond : Avtab
  list : List Nat

/-- `EXPAND_RULE_CONFLICT` and `EXPAND_RULE_ERROR`. -/
inductive ExpandError
  | conflict
  | error
  deriving DecidableEq, Repr

/-- The list a rule is expanded into: a conditional node and which of its lists. -/
abbrev Ctx := Option (Nat × Bool)

def Dest.avtab (d : Dest) (ctx : Ctx) : Avtab := if ctx.isSome then d.cond else d.te

def Dest.setAvtab (d : Dest) (ctx : Ctx) (tab : Avtab) : Dest :=
  if ctx.isSome then { d with cond := tab } else { d with te := tab }

/-- The node `find_avtab_node` finds: for extended permissions one of the same form and
    driver, and for a conditional rule the first from there on that its list owns. -/
def findNode (tab : Avtab) (key : AvtabKey) (ctx : Ctx) (xperms : ExtendedPerms) : Option AvtabNode :=
  let nodes := avtabSearchNodes tab key
  let nodes :=
    if key.specified &&& avtabXperms ≠ 0#16 then
      nodes.dropWhile fun n => !(n.datum.xperms.specified == xperms.specified && n.datum.xperms.driver == xperms.driver)
    else nodes
  let nodes := if ctx.isSome then nodes.dropWhile fun n => n.parseContext != ctx else nodes
  nodes.head?

/-- `find_avtab_node`: a new node is entered into the conditional list too. -/
def findAvtabNode (d : Dest) (key : AvtabKey) (ctx : Ctx) (xperms : ExtendedPerms) : Option (Dest × AvtabNode) :=
  match findNode (d.avtab ctx) key ctx xperms with
  | some n => some (d, n)
  | none =>
    (avtabInsertNonunique (d.avtab ctx) key {} ctx).map fun (tab, n) =>
      ({ d.setAvtab ctx tab with list := if ctx.isSome then n.id :: d.list else d.list }, n)

/-- The node found or made, written through its pointer: flag and datum. -/
def findAndWrite (d : Dest) (key : AvtabKey) (ctx : Ctx) (enabled : Bool) (xperms : ExtendedPerms)
    (f : AvtabDatum → AvtabDatum) : Option Dest :=
  (findAvtabNode d key ctx xperms).map fun (d, n) =>
    d.setAvtab ctx ((d.avtab ctx).update n.id fun s datum => (withEnabled s enabled, f datum))

def hasBit (specified bit : BitVec 32) : Bool := specified &&& bit != 0#32

/-- The `specified` bit of the entries of an access vector rule; `none` for a dontaudit rule that is left out. -/
def avruleSpec (disableDontaudit : Bool) (specified : BitVec 32) : Except ExpandError (Option (BitVec 16)) :=
  if hasBit specified avruleAllowed then .ok (some avtabAllowed)
  else if hasBit specified avruleAuditallow then .ok (some avtabAuditallow)
  else if hasBit specified avruleAuditdeny then .ok (some avtabAuditdeny)
  else if hasBit specified avruleDontaudit then .ok (if disableDontaudit then none else some avtabAuditdeny)
  else if hasBit specified avruleNeverallow then .ok (some avtabNeverallow)
  else if hasBit specified avruleXpermsAllowed then .ok (some avtabXpermsAllowed)
  else if hasBit specified avruleXpermsAuditallow then .ok (some avtabXpermsAuditallow)
  else if hasBit specified avruleXpermsDontaudit then .ok (if disableDontaudit then none else some avtabXpermsDontaudit)
  else .error .error

/-- What an access vector rule does to the datum of its entry. A zero in an auditdeny
    mask is a permission not to audit, hence the conjunction. -/
def avruleDatum (specified : BitVec 32) (perm : BitVec 32) (ext : ExtendedPerms) (d : AvtabDatum) : AvtabDatum :=
  if hasBit specified avruleAllowed then { d with data := d.data ||| perm }
  else if hasBit specified avruleAuditallow then { d with data := d.data ||| perm }
  else if hasBit specified avruleNeverallow then { d with data := d.data ||| perm }
  else if hasBit specified avruleAuditdeny then { d with data := d.data &&& perm }
  else if hasBit specified avruleDontaudit then
    { d with data := if d.data ≠ 0#32 then d.data &&& ~~~perm else ~~~perm }
  else
    { d with
      xperms :=
        { specified := ext.specified, driver := ext.driver, perms := d.xperms.perms.zipWith (· ||| ·) ext.perms } }

/-- `avkey.source_type = stype + 1` and so on, cut to 16 bits. -/
def ruleKey (stype ttype tclass : Nat) (specified : BitVec 16) : AvtabKey :=
  { sourceType := BitVec.ofNat 16 (stype + 1)
    targetType := BitVec.ofNat 16 (ttype + 1)
    targetClass := BitVec.ofNat 16 tclass
    specified }

def expandAvrulePerms (specified : BitVec 32) (spec : BitVec 16) (ctx : Ctx) (stype ttype : Nat) (enabled : Bool)
    (ext : ExtendedPerms) : List ClassPermNode → Dest → Except ExpandError Dest
  | [], d => .ok d
  | cur :: perms, d =>
    match findAndWrite d (ruleKey stype ttype cur.tclass spec) ctx enabled ext (avruleDatum specified cur.data ext) with
    | none => .error .error
    | some d => expandAvrulePerms specified spec ctx stype ttype enabled ext perms d

def expandAvruleHelper (specified : BitVec 32) (ctx : Ctx) (stype ttype : Nat) (perms : List ClassPermNode)
    (enabled : Bool) (ext : ExtendedPerms) (d : Dest) : Except ExpandError Dest := do
  match ← avruleSpec env.disableDontaudit specified with
  | none => return d
  | some spec => expandAvrulePerms specified spec ctx stype ttype enabled ext perms d

def teruleSpec (specified : BitVec 32) : Except ExpandError (BitVec 16) :=
  if hasBit specified avruleTransition then .ok avtabTransition
  else if hasBit specified avruleMember then .ok avtabMember
  else if hasBit specified avruleChange then .ok avtabChange
  else .error .error

/-- The loop of `expand_terule_helper`. A rule of the same key with the same new type in
    the same scope ends it early; any other one is a conflict. -/
def expandTerulePerms (env : Env) (spec : BitVec 16) (ctx other : Ctx) (stype ttype : Nat) (enabled : Bool) :
    List ClassPermNode → Dest → Except ExpandError Dest
  | [], d => .ok d
  | cur :: perms, d =>
    let remapped := BitVec.ofNat 32 (env.typemap.getD (cur.data.toNat - 1) 0)
    let key := ruleKey stype ttype cur.tclass spec
    let old : Option (AvtabNode × Bool) :=
      match avtabSearchNode d.te key with
      | some n => some (n, ctx.isNone)
      | none =>
        match avtabSearchNode d.cond key with
        | some n => if n.parseContext ≠ other then some (n, false) else none
        | none => none
    match old with
    | some (n, sameScope) =>
      if n.datum.data = remapped ∧ (sameScope ∨ n.parseContext = ctx) then .ok d else .error .conflict
    | none =>
      match findAndWrite d key ctx enabled {} fun datum => { datum with data := remapped } with
      | none => .error .error
      | some d => expandTerulePerms env spec ctx other stype ttype enabled perms d

def expandTeruleHelper (specified : BitVec 32) (ctx other : Ctx) (stype ttype : Nat)
    (perms : List ClassPermNode) (enabled : Bool) (d : Dest) : Except ExpandError Dest := do
  let spec ← teruleSpec specified
  expandTerulePerms env spec ctx other stype ttype enabled perms d

/-- One pair of types. -/
def expandPair (rule : Avrule) (ctx other : Ctx) (enabled : Bool) (i j : Nat) (d : Dest) : Except ExpandError Dest :=
  if hasBit rule.specified (avruleAv ||| avruleXperms) then
    expandAvruleHelper env rule.specified ctx i j rule.perms enabled rule.xperms d
  else expandTeruleHelper env rule.specified ctx other i j rule.perms enabled d

/-- For each source type: the pair with itself under `RULE_SELF`, then every target type. -/
def expandRuleHelper (rule : Avrule) (ctx other : Ctx) (enabled : Bool) (stypes ttypes : Bitmap) (d : Dest) :
    Except ExpandError Dest :=
  stypes.bits.foldlM
    (fun d i => ((if hasBit rule.flags ruleSelf then [i] else []) ++ ttypes.bits).foldlM
      (fun d j => expandPair env rule ctx other enabled i j d) d) d

def convertAndExpandRule (rule : Avrule) (ctx other : Ctx) (enabled doNeverallow : Bool) (d : Dest) :
    Except ExpandError Dest :=
  if !doNeverallow && hasBit rule.specified avruleNeverallow then .ok d
  else if hasBit rule.specified avruleXpermsNeverallow then .ok d
  else
    let alwaysexpand := hasBit rule.specified avruleType || hasBit rule.flags ruleSelf
    match expandConvertTypeSet p env.typemap rule.stypes alwaysexpand,
      expandConvertTypeSet p env.typemap rule.ttypes alwaysexpand with
    | some stypes, some ttypes => expandRuleHelper env rule ctx other enabled stypes ttypes d
    | _, _ => .error .error

def condAvruleListCopy (rules : List Avrule) (ctx other : Ctx) (enabled : Bool) (d : Dest) : Except ExpandError Dest :=
  rules.foldlM (fun d rule => convertAndExpandRule env p rule ctx other enabled false d) d

/-- `copy_neverallow`: the neverallow with its types expanded, kept for the checker. -/
def copyNeverallow (typemap : List Nat) (rule : Avrule) : Option Avrule := do
  let stypes ← expandConvertTypeSet p typemap rule.stypes true
  let ttypes ← expandConvertTypeSet p typemap rule.ttypes true
  return { rule with stypes := { types := stypes }, ttypes := { types := ttypes } }

/-! ## What an expansion into a conditional list does -/

/-- Every rule of the list is a node of the table the list owns, with this flag. -/
def ListOk (tab : Avtab) (ctx : Nat × Bool) (on : Bool) (list : List Nat) : Prop :=
  ∀ id ∈ list, ∃ n ∈ tab.nodes, n.id = id ∧ n.parseContext = some ctx ∧ n.enabled = on

structure Grows (ctx : Nat × Bool) (on : Bool) (d d' : Dest) : Prop where
  te : d'.te = d.te
  frame : ∀ n ∈ d.cond.nodes, n.parseContext ≠ some ctx → n ∈ d'.cond.nodes
  keep : ListOk d.cond ctx on d.list → ListOk d'.cond ctx on d'.list

variable {ctx : Nat × Bool} {on : Bool} {d d' : Dest}

theorem Grows.refl (ctx : Nat × Bool) (on : Bool) (d : Dest) : Grows ctx on d d := ⟨rfl, fun _ hn _ => hn, id⟩

theorem Grows.trans {d'' : Dest} (h1 : Grows ctx on d d') (h2 : Grows ctx on d' d'') : Grows ctx on d d'' where
  te := h2.te.trans h1.te
  frame n hn hne := h2.frame n (h1.frame n hn hne) hne
  keep hok := h2.keep (h1.keep hok)

/-- Setting the flag of a node the list owns. -/
theorem ListOk.write {tab : Avtab} {list : List Nat} (hok : ListOk tab ctx on list) {n : AvtabNode} (hn : n ∈ tab.nodes)
    (hctx : n.parseContext = some ctx) (f : AvtabDatum → AvtabDatum) :
    ListOk (tab.update n.id fun s datum => (withEnabled s on, f datum)) ctx on list := by
  intro id hid
  obtain ⟨m, hm, rfl, hmctx, hmon⟩ := hok id hid
  by_cases hmn : m.id = n.id
  · obtain ⟨k, hk, hkid, hkctx, hkon⟩ := exists_mem_update hn on f
    exact ⟨k, hk, hkid.trans hmn.symm, hkctx.trans hctx, hkon⟩
  · exact ⟨m, mem_update_of_ne hm hmn _, rfl, hmctx, hmon⟩

theorem findNode_owned {tab : Avtab} {key : AvtabKey} {xperms : ExtendedPerms} {n : AvtabNode}
    (h : findNode tab key (some ctx) xperms = some n) : n ∈ avtabSearchNodes tab key ∧ n.parseContext = some ctx := by
  unfold findNode at h
  simp only [isSome_some, if_true] at h
  have hmem := (List.dropWhile_sublist _).mem (List.mem_of_mem_head? h)
  refine ⟨?_, ?_⟩
  · split at hmem
    · exact (List.dropWhile_sublist _).mem hmem
    · exact hmem
  · have hpc := List.head?_dropWhile_not (fun n : AvtabNode => n.parseContext != some ctx)
      (if key.specified &&& avtabXperms ≠ 0#16 then
        (avtabSearchNodes tab key).dropWhile fun n =>
          !(n.datum.xperms.specified == xperms.specified && n.datum.xperms.driver == xperms.driver)
      else avtabSearchNodes tab key)
    rw [h] at hpc
    simpa using hpc

theorem findAndWrite_grows {key : AvtabKey} {ext : ExtendedPerms} {f : AvtabDatum → AvtabDatum}
    (h : findAndWrite d key (some ctx) on ext f = some d') : Grows ctx on d d' := by
  unfold findAndWrite findAvtabNode at h
  simp only [Dest.avtab, Dest.setAvtab, isSome_some, if_true] at h
  cases hf : findNode d.cond key (some ctx) ext with
  | some n =>
    obtain ⟨hmem, hctx⟩ := findNode_owned hf
    have hn := (mem_avtabSearchNodes.mp hmem).1
    simp only [hf, map_some, Option.some.injEq] at h
    subst h
    refine ⟨rfl, fun m hm hne => mem_update_of_ne hm ?_ _, fun hok => hok.write hn hctx f⟩
    intro hid
    rw [Avtab.eq_of_id hm hn hid] at hne
    exact hne hctx
  | none =>
    simp only [hf, map_map, map_eq_some_iff] at h
    obtain ⟨⟨tab, n⟩, hins, rfl⟩ := h
    obtain ⟨hn, -, hmem⟩ := avtabInsertNonunique_some hins
    have hctx : n.parseContext = some ctx := by rw [hn]; rfl
    have hntab : n ∈ tab.nodes := (hmem n).mpr (Or.inl rfl)
    refine ⟨rfl, fun m hm hne => mem_update_of_ne ((hmem m).mpr (Or.inr hm)) ?_ _, ?_⟩
    · intro hid
      rw [Avtab.eq_of_id ((hmem m).mpr (Or.inr hm)) hntab hid] at hne
      exact hne hctx
    · intro hok id hid
      rcases List.mem_cons.mp hid with rfl | hid
      · obtain ⟨k, hk, hkid, hkctx, hkon⟩ := exists_mem_update hntab on f
        exact ⟨k, hk, hkid, hkctx.trans hctx, hkon⟩
      · have hok' : ListOk tab ctx on d.list := fun id hid => by
          obtain ⟨m, hm, hrest⟩ := hok id hid
          exact ⟨m, (hmem m).mpr (Or.inr hm), hrest⟩
        exact hok'.write hntab hctx f id hid

theorem expandAvrulePerms_grows {specified : BitVec 32} {spec : BitVec 16} {stype ttype : Nat} {ext : ExtendedPerms}
    {perms : List ClassPermNode}
    (h : expandAvrulePerms specified spec (some ctx) stype ttype on ext perms d = .ok d') : Grows ctx on d d' := by
  induction perms generalizing d with
  | nil => cases h; exact Grows.refl _ _ _
  | cons cur perms ih =>
    unfold expandAvrulePerms at h
    split at h
    · cases h
    next d1 hw =>
      exact (findAndWrite_grows hw).trans (ih h)

variable {other : Ctx}

theorem expandTerulePerms_grows {env : Env} {spec : BitVec 16} {stype ttype : Nat} {perms : List ClassPermNode}
    (h : expandTerulePerms env spec (some ctx) other stype ttype on perms d = .ok d') : Grows ctx on d d' := by
  induction perms generalizing d with
  | nil => cases h; exact Grows.refl _ _ _
  | cons cur perms ih =>
    unfold expandTerulePerms at h
    simp only at h
    split at h
    · -- a rule already there: the same one, or a conflict
      split_ifs at h
      cases h
      exact Grows.refl _ _ _
    · split at h
      · cases h
      next d1 hw => exact (findAndWrite_grows hw).trans (ih h)

theorem expandPair_grows {env : Env} {rule : Avrule} {i j : Nat}
    (h : expandPair env rule (some ctx) other on i j d = .ok d') : Grows ctx on d d' := by
  unfold expandPair at h
  split at h
  · unfold expandAvruleHelper at h
    obtain ⟨o, -, h⟩ := Lib.Run.bind_ok_iff.mp h
    cases o with
    | none => cases h; exact Grows.refl _ _ _
    | some spec => exact expandAvrulePerms_grows h
  · unfold expandTeruleHelper at h
    obtain ⟨spec, -, h⟩ := Lib.Run.bind_ok_iff.mp h
    exact expandTerulePerms_grows h

theorem convertAndExpandRule_grows {env : Env} {p : Policydb} {rule : Avrule} {never : Bool}
    (h : convertAndExpandRule env p rule (some ctx) other on never d = .ok d') : Grows ctx on d d' := by
  unfold convertAndExpandRule at h
  split at h
  · cases h; exact Grows.refl _ _ _
  split at h
  · cases h; exact Grows.refl _ _ _
  simp only at h
  split at h
  · exact Lib.Run.foldlM_rel (Grows.refl _ _) Grows.trans (fun _ i _ _ hrow =>
      Lib.Run.foldlM_rel (Grows.refl _ _) Grows.trans (fun _ j _ _ hj => expandPair_grows hj) hrow) h
  · cases h

/-- Expanding a branch of a conditional touches nothing but the list it goes to. -/
theorem condAvruleListCopy_grows {env : Env} {p : Policydb} {rules : List Avrule}
    (h : condAvruleListCopy env p rules (some ctx) other on d = .ok d') : Grows ctx on d d' :=
  Lib.Run.foldlM_rel (Grows.refl _ _) Grows.trans (fun _ _ _ _ hr => convertAndExpandRule_grows hr) h

end SELinux.Expand
