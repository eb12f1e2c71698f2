/-
  SELinux.File.Policydb — reading a policy file (`libsepol/src/policydb.c`: `policydb_read`,
  `ocontext_read`, `genfs_read`, `range_read`).

  One reader for the three kinds of policy. What the versions do not have is not in the file.
  A kernel policy has its rules in tables and conditionals and the attribute maps of its types;
  a module has blocks and scopes. The symbols are indexed before the contexts are read, each of
  which must be valid.

  The file is in memory; what follows the policy is left unread. `policydbRead` returns the
  policy and notes the indices it used on the way.

  Proved: `policydbRead_typeRules`, of the type rules of a kernel policy at most one is in force
  for a key and kind, whatever the booleans are.
-/
import SELinux.File.Index

namespace SELinux.File

open Lib Lib.Wire Lib.Trace Traced

variable {p q : Policydb} {s s' : Bytes} {w : List Access} {past : Past}

/-! ## The head of the file -/

def policydbMagic : U32 := 0xf97cff8c#32
def policydbModMagic : U32 := 0xf97cff8d#32

/-- "SE Linux" -/
def policydbString : Bytes := [83#8, 69#8, 32#8, 76#8, 105#8, 110#8, 117#8, 120#8]

/-- "XenFlask" -/
def policydbXenString : Bytes := [88#8, 101#8, 110#8, 70#8, 108#8, 97#8, 115#8, 107#8]

/-- "SE Linux Module" -/
def policydbModString : Bytes := policydbString ++ [32#8, 77#8, 111#8, 100#8, 117#8, 108#8, 101#8]

def policydbStringMaxLength : Nat := 32

def targetString : Target → Bytes
  | .selinux => policydbString
  | .xen => policydbXenString

def policydbVersionMin : Nat := 15
def policydbVersionMax : Nat := 30
def policydbVersionXenDevicetree : Nat := 30
def modVersionMin : Nat := 4
def modVersionMax : Nat := 17

def policydbConfigMls : U32 := 1#32
def policydbConfigUnknownMask : U32 := 6#32

/-- `policydb_lookup_compat`: the numbers of symbol tables and of kinds of object contexts. -/
def policydbLookupCompat (vers : Nat) (type : PolicyType) (target : Target) : Option (Nat × Nat) :=
  match type, target with
  | .kern, .xen => if vers = 24 then some (8, 5) else if vers = 30 then some (8, 6) else none
  | .kern, .selinux =>
    if vers < policydbVersionMin ∨ policydbVersionMax < vers then none
    else if vers = 15 then some (5, 6)
    else if vers = 16 then some (6, 6)
    else if vers < policydbVersionMls then some (6, 7)
    else some (8, 7)
  | .base, .selinux => if vers < modVersionMin ∨ modVersionMax < vers then none else some (8, 7)
  | .mod, .selinux => if vers < modVersionMin ∨ modVersionMax < vers then none else some (8, 0)
  | _, .xen => none

/-- The target platform that a string names. -/
def targetOf (s : Bytes) : Option Target :=
  if s = targetString .selinux then some .selinux else if s = targetString .xen then some .xen else none

/-- `policy_type` of a module file. -/
def moduleType (w : U32) : Option PolicyType := if w = 2#32 then some .mod else if w = 1#32 then some .base else none

/-- The string behind the magic number. -/
def readString : Reader Bytes := do
  let len ← u32
  check (decide (len.toNat ≤ policydbStringMaxLength))
  let s ← take len.toNat
  return cString s

/-- What the magic number, the string and, in a module, the first word behind it say. -/
def readKind : Reader (PolicyType × Target) := do
  let magic ← u32
  if magic = policydbMagic then do
    let s ← readString
    let target ← ofOption (targetOf s)
    return (.kern, target)
  else do
    check (magic == policydbModMagic)
    let s ← readString
    check (decide (s = policydbModString))
    let w ← u32
    let type ← ofOption (moduleType w)
    return (type, .selinux)

/-- The versions that are read. -/
def versionOk (type : PolicyType) (vers : Nat) : Bool :=
  match type with
  | .kern => decide (policydbVersionMin ≤ vers ∧ vers ≤ policydbVersionMax)
  | _ => decide (modVersionMin ≤ vers ∧ vers ≤ modVersionMax)

/-- The header, `handle_unknown`, and the numbers of tables and of kinds of contexts. -/
def readHeader : Reader (Header × U32 × Nat × Nat) := do
  let (policyType, target) ← readKind
  let vers ← u32
  check (versionOk policyType vers.toNat)
  let config ← u32
  let info ← ofOption (policydbLookupCompat vers.toNat policyType target)
  let symNum ← u32
  let oconNum ← u32
  check (decide (symNum.toNat = info.1 ∧ oconNum.toNat = info.2))
  let h : Header := { policyType, policyvers := vers.toNat, target, mls := config &&& policydbConfigMls != 0#32 }
  return (h, config &&& policydbConfigUnknownMask, info)

/-- The name or the version of a module. -/
def readModuleString (h : Header) : Reader (Option Key) :=
  readIf (h.policyType == .mod) (do
    let len ← u32
    let s ← readKey len
    return some s) none

/-! ## Rules of a kernel policy -/

def seclassProcess : U32 := 2#32

def readRoleTrans (h : Header) : Reader RoleTrans := do
  let role ← u32
  let type ← u32
  let newRole ← u32
  let tclass ← readIf (h.kernAt policydbVersionRoletrans) u32 seclassProcess
  return { role, type, newRole, tclass }

def readRoleAllow : Reader RoleAllow := do
  let role ← u32
  let newRole ← u32
  return { role, newRole }

def readFilenameTrans : Reader FilenameTrans := do
  let len ← u32
  let name ← readKey len
  let stype ← u32
  let ttype ← u32
  let tclass ← u32
  let otype ← u32
  return { name, stype, ttype, tclass, otype }

/-! ## What the policy has before it is indexed -/

/-- `object_r`, which `roles_init` puts in the tables. -/
def objectRKey : Key := ⟨objectR, by decide, by decide⟩

def startRoles : SymTable (symtabSizes 2) RoleDatum := { entries := [(objectRKey, { value := objectRVal })] }

def scopeDecl : U32 := 2#32

def startRoleScopes : ScopeTable (symtabSizes 2) := { entries := [(objectRKey, ⟨scopeDecl, [1#32], by decide⟩)] }

/-- `avrule_decl_create(1)` in the first block. -/
def startGlobal : List AvruleBlock := [{ branchList := [{ declId := 1#32, enabled := 0#32 }] }]

/-- The rules of a kernel policy. -/
def readKernRules (p : Policydb) : Reader Policydb := do
  let teAvtab ← avtabRead p.header.policyvers
  let (teCondAvtab, condList) ← readIf (decide (policydbVersionBool ≤ p.header.policyvers))
    (condReadListKern p.header p.symtab.bools.nprim teAvtab) (Db.avtabAlloc 0, [])
  let roleTr ← readList (readRoleTrans p.header)
  let roleAllow ← readList readRoleAllow
  let filenameTrans ← readIf (decide (policydbVersionFilenameTrans ≤ p.header.policyvers)) (readList readFilenameTrans) []
  return { p with teAvtab, teCondAvtab, condList, roleTr, roleAllow, filenameTrans, global := startGlobal }

/-- The blocks and scopes of a module. -/
def readModuleRules (past : Db.PastMap) (p : Policydb) (symNum : Nat) : Reader Policydb := do
  let global ← avruleBlockRead past p.header p.symtab.bools.nprim p.symtab.commons.has symNum
  let scope ← readAllScopes p.symtab startRoleScopes
  return { p with global, scope }

def readRules (past : Db.PastMap) (p : Policydb) (symNum : Nat) : Reader Policydb :=
  if isKern p.header then readKernRules p else readModuleRules past p symNum

/-- Everything before the arrays are built, and the number of kinds of contexts. -/
def readTables (past : Db.PastMap) : Reader (Policydb × Nat) := do
  let (header, handleUnknown, symNum, oconNum) ← readHeader
  let name ← readModuleString header
  let version ← readModuleString header
  let policycaps ← readIf (header.kernAt policydbVersionPolcap || header.moduleAt modVersionPolcap) FileBitmap.read
    FileBitmap.empty
  let permissiveMap ← readIf (header.kernAt policydbVersionPermissive) FileBitmap.read FileBitmap.empty
  let symtab ← readSymtabs past header symNum Symtab.has startRoles
  let p : Policydb :=
    { header, handleUnknown, name, version, policycaps, permissiveMap, symtab, roleSlots := symtab.roles.nprim,
      teAvtab := Db.avtabAlloc 0, teCondAvtab := Db.avtabAlloc 0 }
  let p ← readRules past p symNum
  return (p, oconNum)

/-- The arrays of a policy. -/
def indexPolicydb (past : Past) (p : Policydb) : Noted Access Policydb := do
  policydbIndexDecls p.global
  policydbIndexClasses p.symtab
  let symtab ← policydbIndexOthers past p.header p.symtab
  return { p with symtab }

/-! ## Contexts of objects -/

section Ocontexts

variable (past : Past) (p : Policydb)

/-- An object with one context. -/
def readOcontext (key : Reader OcontextKey) : Traced Access Ocontext := do
  let key ← Traced.read key
  let context0 ← contextReadAndValidate past p
  return { key, context0 }

/-- An object with two contexts. -/
def readOcontext2 (key : Reader OcontextKey) : Traced Access Ocontext := do
  let key ← Traced.read key
  let context0 ← contextReadAndValidate past p
  let context1 ← contextReadAndValidate past p
  return { key, context0, context1 := some context1 }

def readName : Reader Key := do
  let len ← u32
  readKey len

def readPort : Reader OcontextKey := do
  let protocol ← u32
  let low ← u32
  let high ← u32
  return .port (protocol.setWidth 8) (low.setWidth 16) (high.setWidth 16)

def readNode : Reader OcontextKey := do
  let addr ← u32
  let mask ← u32
  return .node addr mask

def readFsuse : Reader OcontextKey := do
  let behavior ← u32
  let name ← readName
  return .fsuse behavior name

def readNode6 : Reader OcontextKey := do
  let addr ← times u32 4
  let mask ← times u32 4
  return .node6 addr mask

def readIoport : Reader OcontextKey := do
  let low ← u32
  let high ← u32
  return .ioport low high

def readIomem (h : Header) : Reader OcontextKey :=
  if policydbVersionXenDevicetree ≤ h.policyvers then do
    let low ← word 64
    let high ← word 64
    return .iomem low high
  else do
    let low ← u32
    let high ← u32
    return .iomem (low.setWidth 64) (high.setWidth 64)

/-- An entry of `ocontexts[i]` in `ocontext_read_selinux`. -/
def ocontextReadSelinux (i : Nat) : Traced Access Ocontext :=
  match i with
  | 0 => readOcontext past p (OcontextKey.sid <$> u32)
  | 1 => readOcontext2 past p (OcontextKey.name <$> readName)
  | 2 => readOcontext past p readPort
  | 3 => readOcontext2 past p (OcontextKey.name <$> readName)
  | 4 => readOcontext past p readNode
  | 5 => readOcontext past p readFsuse
  | 6 => readOcontext past p readNode6
  | _ => Traced.read reject

/-- An entry of `ocontexts[i]` in `ocontext_read_xen`. -/
def ocontextReadXen (i : Nat) : Traced Access Ocontext :=
  match i with
  | 0 => readOcontext past p (OcontextKey.sid <$> u32)
  | 1 => readOcontext past p ((fun w => .pirq (w.setWidth 16)) <$> u32)
  | 2 => readOcontext past p readIoport
  | 3 => readOcontext past p (readIomem p.header)
  | 4 => readOcontext past p (OcontextKey.device <$> u32)
  | 5 => readOcontext past p (OcontextKey.name <$> readName)
  | _ => Traced.read reject

def ocontextReadEntry (i : Nat) : Traced Access Ocontext :=
  match p.header.target with
  | .selinux => ocontextReadSelinux past p i
  | .xen => ocontextReadXen past p i

/-- The kinds of contexts from `i` on. -/
def ocontextRead (i : Nat) : Nat → Traced Access (List (List Ocontext))
  | 0 => pure []
  | n + 1 => do
    let nel ← Traced.read u32
    let l ← Traced.times (ocontextReadEntry past p i) nel.toNat
    let rest ← ocontextRead (i + 1) n
    return l :: rest

/-! ## File systems -/

/-- The walk to the place of a path: a path is before the shorter ones. -/
def insertGenfsEntry (new : GenfsEntry) : List GenfsEntry → Option (List GenfsEntry)
  | [] => some [new]
  | c :: l =>
    if new.name = c.name ∧ (c.sclass = 0#32 ∨ new.sclass = 0#32 ∨ new.sclass = c.sclass) then none
    else if c.name.1.length < new.name.1.length then some (new :: c :: l)
    else (insertGenfsEntry new l).map (c :: ·)

/-- The walk to the place of a file system type. -/
def insertGenfs (new : Genfs) : List Genfs → Option (List Genfs)
  | [] => some [new]
  | g :: l =>
    if new.fstype = g.fstype then none
    else if bytesLt new.fstype.1 g.fstype.1 then some (new :: g :: l)
    else (insertGenfs new l).map (g :: ·)

def readGenfsEntry (head : List GenfsEntry) : Traced Access (List GenfsEntry) := do
  let name ← Traced.read readName
  let sclass ← Traced.read u32
  let context ← contextReadAndValidate past p
  Traced.run (Noted.give (insertGenfsEntry { name, sclass, context } head))

def readGenfs (genfs : List Genfs) : Traced Access (List Genfs) := do
  let fstype ← Traced.read readName
  let nel2 ← Traced.read u32
  let head ← Traced.loop (readGenfsEntry past p) nel2.toNat []
  Traced.run (Noted.give (insertGenfs { fstype, head } genfs))

def genfsRead : Traced Access (List Genfs) := do
  let nel ← Traced.read u32
  Traced.loop (readGenfs past p) nel.toNat []

end Ocontexts

/-! ## Range transitions -/

def readRangeTrans (h : Header) : Reader RangeTrans := do
  let sourceType ← u32
  let targetType ← u32
  let targetClass ← readIf (h.kernAt policydbVersionRangetrans) u32 seclassProcess
  let targetRange ← mlsReadRangeHelper
  return { sourceType, targetType, targetClass, targetRange }

/-- A bitmap of one value. -/
def oneBit (v : U32) : Option FileBitmap := (Db.Bitmap.empty.setBit (v - 1#32).toNat true).map FileBitmap.ofBitmap

/-- The rule for a range transition of an older base module. -/
def rangeTransRule (past : Db.PastMap) (rt : RangeTrans) : Option RangeTransRule := do
  let stypes ← oneBit rt.sourceType
  let ttypes ← oneBit rt.targetType
  let tclasses ← oneBit rt.targetClass
  let trange ← mlsRangeToSemantic past rt.targetRange
  return { stypes := { types := stypes }, ttypes := { types := ttypes }, tclasses, trange }

def AvruleDecl.withRules (rules : List RangeTransRule) (d : AvruleDecl) : AvruleDecl :=
  if d.isEnabled then { d with rangeTrRules := rules } else d

/-- The enabled branch of a block, with other range transitions. -/
def AvruleBlock.withRules (b : AvruleBlock) (rules : List RangeTransRule) : AvruleBlock where
  branchList := b.branchList.map (AvruleDecl.withRules rules)
  oneEnabled := by
    have hsame : AvruleDecl.isEnabled ∘ AvruleDecl.withRules rules = AvruleDecl.isEnabled := by
      funext d
      show (d.withRules rules).isEnabled = d.isEnabled
      unfold AvruleDecl.withRules
      split <;> rfl
    rw [List.countP_map, hsame]
    exact b.oneEnabled

/-- `p->global->enabled->range_tr_rules`, which is only touched for a rule. -/
def setRangeRules (rules : List RangeTransRule) (global : List AvruleBlock) : Option (List AvruleBlock) :=
  if rules = [] then some global
  else
    match global with
    | b :: l => if b.enabled.isSome then some (b.withRules rules :: l) else none
    | [] => none

def hasRangeTr (h : Header) : Bool :=
  h.kernAt policydbVersionMls || (h.baseAt modVersionMls && decide (h.policyvers < modVersionRangetrans))

def rangeRead (past : Db.PastMap) (p : Policydb) : Reader Policydb := do
  let l ← readList (readRangeTrans p.header)
  if isKern p.header then return { p with rangeTr := l }
  else do
    let rules ← ofOption (l.mapM (rangeTransRule past))
    let global ← ofOption (setRangeRules rules p.global)
    return { p with global }

/-! ## Attribute maps -/

/-- The maps while they are read: those of the types so far, as they stand in the file and with
    their own type, and those of the attributes. -/
structure AttrMaps where
  typeAttrsRead : List FileBitmap := []
  typeAttrMap : List Db.Ebitmap := []
  attrTypeMap : List Db.Bitmap

/-- `ebitmap_set_bit(&p->attr_type_map[j], i, 1)` -/
def setAttrType (nprim i : Nat) (m : List Db.Bitmap) (j : Nat) : Noted Access (List Db.Bitmap) := do
  Noted.note ⟨.attrTypeMap, j, nprim⟩
  match m[j]? with
  | some e => Noted.give ((e.setBit i true).map (m.set j))
  | none => pure m

section Maps

variable (past : Past) (p : Policydb)

/-- A type is one of its own, unless it is an attribute. -/
def setOwnType (nprim i : Nat) (m : List Db.Bitmap) (d : Option TypeDatum) : Noted Access (List Db.Bitmap) :=
  if d.any fun d => !d.isAttrib then setAttrType nprim i m i else pure m

/-- What is done with the map that was read for a type. -/
def addTypeAttrs (st : AttrMaps) (e : FileBitmap) : Noted Access AttrMaps := do
  let i := st.typeAttrMap.length
  let nprim := p.symtab.types.nprim.toNat
  Noted.note ⟨.typeAttrMap, i, nprim⟩
  let bits ← Noted.give (Db.ebitmapWalkBits past.bit e.1)
  let m ← (bits.filter (· ≠ i)).foldlM (setAttrType nprim i) st.attrTypeMap
  let own ← Noted.give (Db.ebitmapSetBit e.1 i true)
  let d ← typeStruct past p.symtab.types i
  let m ← setOwnType nprim i m d
  return { typeAttrsRead := st.typeAttrsRead ++ [e], typeAttrMap := st.typeAttrMap ++ [own], attrTypeMap := m }

def readTypeAttrs (st : AttrMaps) : Traced Access AttrMaps := do
  let e ← Traced.read (readIf (decide (policydbVersionAvtab ≤ p.header.policyvers)) FileBitmap.read FileBitmap.empty)
  Traced.run (addTypeAttrs past p st e)

def readAttrMaps : Traced Access Policydb := do
  let nprim := p.symtab.types.nprim.toNat
  let st ← Traced.loop (readTypeAttrs past p) nprim { attrTypeMap := List.replicate nprim Db.Bitmap.empty }
  return { p with typeAttrsRead := st.typeAttrsRead, typeAttrMap := st.typeAttrMap, attrTypeMap := st.attrTypeMap }

end Maps

/-! ## The reader -/

/-- `policydb_read` -/
def policydbRead (past : Past) : Traced Access Policydb := do
  let (p, oconNum) ← Traced.read (readTables past.bit)
  let p ← Traced.run (indexPolicydb past p)
  let ocontexts ← ocontextRead past p 0 oconNum
  let genfs ← genfsRead past p
  let p : Policydb := { p with ocontexts, genfs }
  let p ← Traced.read (if hasRangeTr p.header then rangeRead past.bit p else pure p)
  if isKern p.header then readAttrMaps past p else pure p

/-! ## Type rules -/

/-- The rules of a kernel policy are as the readers of its tables left them. -/
structure RulesRead (p : Policydb) : Prop where
  te : Apart p.teAvtab.nodes
  cond : CondRead p.teAvtab p.teCondAvtab (p.condList.map CondNode.sides)

theorem readKernRules_read (p : Policydb) : Ensures (readKernRules p) RulesRead := by
  refine (avtabRead_apart _).bind fun te hte =>
    Ensures.bind (P := fun st => CondRead te st.1 (st.2.map CondNode.sides)) ?_ ?_
  · unfold readIf
    split
    · exact condReadListKern_spec _ _ te
    · exact Ensures.pure (condRead_alloc te 0)
  · exact fun _ hcond => Ensures.andThen fun _ => Ensures.andThen fun _ => Ensures.andThen fun _ => Ensures.pure ⟨hte, hcond⟩

theorem readTables_read (past : Db.PastMap) :
    Ensures (readTables past) fun st => isKern st.1.header = true → RulesRead st.1 := by
  refine Ensures.andThen fun ⟨header, _⟩ => Ensures.andThen fun _ => Ensures.andThen fun _ => Ensures.andThen fun _ => ?_
  refine Ensures.andThen fun _ => Ensures.andThen fun symtab =>
    Ensures.bind (P := fun q => isKern q.header = true → RulesRead q) ?_ ?_
  · unfold readRules
    split
    · exact fun _ _ _ h _ => readKernRules_read _ _ _ _ h
    · next hmodule => exact Ensures.andThen fun _ => Ensures.andThen fun _ => Ensures.pure fun hkern => absurd hkern hmodule
  · exact fun _ hq => Ensures.pure hq

/-- What follows the tables leaves the rules alone. -/
structure KeepsRules (p q : Policydb) : Prop where
  header : q.header = p.header
  te : q.teAvtab = p.teAvtab
  cond : q.teCondAvtab = p.teCondAvtab
  condList : q.condList = p.condList

theorem KeepsRules.trans {p q r : Policydb} (h : KeepsRules p q) (h' : KeepsRules q r) : KeepsRules p r :=
  ⟨h'.header.trans h.header, h'.te.trans h.te, h'.cond.trans h.cond, h'.condList.trans h.condList⟩

theorem KeepsRules.read (h : KeepsRules p q) (hp : RulesRead p) : RulesRead q := by
  refine ⟨?_, ?_⟩
  · rw [h.te]
    exact hp.te
  · rw [h.te, h.cond, h.condList]
    exact hp.cond

theorem indexPolicydb_keeps (h : Noted.Gives (indexPolicydb past p) q w) : KeepsRules p q := by
  obtain ⟨-, w1, w2, -, h, -⟩ := Noted.bind_iff.mp h
  obtain ⟨-, w3, w4, -, h, -⟩ := Noted.bind_iff.mp h
  obtain ⟨symtab, w5, w6, -, h, -⟩ := Noted.bind_iff.mp h
  obtain ⟨rfl, -⟩ := Noted.pure_iff.mp h
  exact ⟨rfl, rfl, rfl, rfl⟩

theorem rangeRead_keeps (past : Db.PastMap) (p : Policydb) : Ensures (rangeRead past p) (KeepsRules p) := by
  refine Ensures.andThen fun l => ?_
  split
  · exact Ensures.pure ⟨rfl, rfl, rfl, rfl⟩
  · exact Ensures.andThen fun _ => Ensures.andThen fun _ => Ensures.pure ⟨rfl, rfl, rfl, rfl⟩

theorem readAttrMaps_keeps (h : Traced.Gives (readAttrMaps past p) s q s' w) : KeepsRules p q := by
  obtain ⟨st, s1, w1, w2, -, h, -⟩ := bind_iff.mp h
  obtain ⟨rfl, -, -⟩ := pure_iff.mp h
  exact ⟨rfl, rfl, rfl, rfl⟩

/-- The policy of the tables, and what the rest of the reader makes of it. -/
theorem policydbRead_tables {p : Policydb} (h : (policydbRead past).Gives s p s' w) :
    ∃ q oconNum t, readTables past.bit s = some ((q, oconNum), t) ∧ KeepsRules q p := by
  obtain ⟨⟨q, oconNum⟩, s1, w1, w2, hq, h, -⟩ := bind_iff.mp h
  obtain ⟨p1, s2, w3, w4, hindex, h, -⟩ := bind_iff.mp h
  obtain ⟨ocontexts, s3, w5, w6, -, h, -⟩ := bind_iff.mp h
  obtain ⟨genfs, s4, w7, w8, -, h, -⟩ := bind_iff.mp h
  obtain ⟨p2, s5, w9, w10, hrange, h, -⟩ := bind_iff.mp h
  refine ⟨q, oconNum, s1, (read_iff.mp hq).1, ?_⟩
  have h1 : KeepsRules q p1 := indexPolicydb_keeps (run_iff.mp hindex).1
  have h2 : KeepsRules p1 p2 := by
    have hread := (read_iff.mp hrange).1
    split at hread
    · have hp2 := rangeRead_keeps _ _ _ _ _ hread
      exact ⟨hp2.header, hp2.te, hp2.cond, hp2.condList⟩
    · obtain ⟨rfl, -⟩ := pure_some.mp hread
      exact ⟨rfl, rfl, rfl, rfl⟩
  have h3 : KeepsRules p2 p := by
    split at h
    · exact readAttrMaps_keeps h
    · obtain ⟨rfl, -, -⟩ := pure_iff.mp h
      exact ⟨rfl, rfl, rfl, rfl⟩
  exact (h1.trans h2).trans h3

/-- A type rule of a kind for a key. -/
def isTypeRule (key : Db.AvtabKey) (kind : BitVec 16) (n : Db.AvtabNode) : Bool :=
  Db.sameKey key n.key && n.key.specified &&& kind != 0#16

theorem apart_typeRules {l : List Db.AvtabNode} (h : Apart l) (key : Db.AvtabKey) {kind : BitVec 16}
    (hkind : kind ∈ [Db.avtabTransition, Db.avtabMember, Db.avtabChange]) : (l.filter (isTypeRule key kind)).length ≤ 1 := by
  have happart : (l.filter (isTypeRule key kind)).Pairwise fun a b => ¬Share a.key b.key := h.filter _
  have hrule : ∀ n ∈ l.filter (isTypeRule key kind), Db.sameKey key n.key = true ∧ n.key.specified &&& kind ≠ 0#16 := by
    intro n hn
    have hn := (List.mem_filter.mp hn).2
    rw [isTypeRule, Bool.and_eq_true, bne_iff_ne] at hn
    exact hn
  match hl : l.filter (isTypeRule key kind) with
  | [] => exact Nat.zero_le 1
  | [_] => exact Nat.le_refl 1
  | a :: b :: rest =>
    rw [hl] at happart hrule
    obtain ⟨hka, ha⟩ := hrule a List.mem_cons_self
    obtain ⟨hkb, hb⟩ := hrule b (List.mem_cons_of_mem a List.mem_cons_self)
    have hsame : Db.sameKey a.key b.key = true := by
      rw [Db.sameKey_iff_rank] at hka hkb ⊢
      exact hka.symm.trans hkb
    exact absurd (share_of_kind hkind hsame ha hb) ((List.pairwise_cons.mp happart).1 b List.mem_cons_self)

/-- Whatever the booleans are, at most one type rule of each kind is in force for a key. -/
theorem policydbRead_typeRules {past : Past} {p : Policydb} {s s' : Bytes} {w : List Access}
    (h : (policydbRead past).Gives s p s' w) (hkern : p.header.policyType = .kern) (state : Nat → Bool) (key : Db.AvtabKey)
    (kind : BitVec 16) (hkind : kind ∈ [Db.avtabTransition, Db.avtabMember, Db.avtabChange]) :
    ((selectedRules p.teAvtab p.teCondAvtab p.condList state).filter (isTypeRule key kind)).length ≤ 1 := by
  obtain ⟨q, oconNum, t, hq, hkeeps⟩ := policydbRead_tables h
  have hkern' : isKern q.header = true := by
    rw [isKern, ← hkeeps.header, hkern]
    rfl
  have hrules := hkeeps.read (readTables_read _ _ _ _ hq hkern')
  exact apart_typeRules (selectedRules_apart hrules.te hrules.cond state) key hkind

/-- Words of a file. -/
def putWords (l : List Nat) : Bytes := l.flatMap (toBytes 4)

/-- A rule of the new format: source, target, class and kind, and its datum. -/
def putRule (source target tclass specified data : Nat) : Bytes :=
  [source, target, tclass, specified].flatMap (toBytes 2) ++ toBytes 4 data

/-- A kernel policy without symbols: one rule, and a conditional with a type transition on both
    sides. -/
def switchPolicy : Bytes :=
  putWords [0xf97cff8c, 8] ++ policydbString ++ putWords [20, 0, 8, 7] ++ putWords (List.replicate 16 0) ++
    putWords [1] ++ putRule 1 1 1 0x01 1 ++
    putWords [1, 0, 1, 1, 0, 1] ++ putRule 1 2 3 0x10 4 ++ putWords [1] ++ putRule 1 2 3 0x10 5 ++
    putWords [0, 0] ++ putWords (List.replicate 7 0) ++ putWords [0, 0]

/-- Nothing past the arrays and the maps. -/
def nothingPast : Past := ⟨fun _ => none, fun _ => none, fun _ _ => false⟩

theorem switchPolicy_typeRules :
    ∃ p s' w, (policydbRead nothingPast).Gives switchPolicy p s' w ∧ p.header.policyType = .kern ∧
    p.teCondAvtab.nel = 2 ∧ ∀ state, ((selectedRules p.teAvtab p.teCondAvtab p.condList state).filter
      (isTypeRule ⟨1#16, 2#16, 3#16, 0#16⟩ Db.avtabTransition)).length ≤ 1 := by
  have hread : ((policydbRead nothingPast switchPolicy).run.map fun e => (e.1.1.header.policyType, e.1.1.teCondAvtab.nel)) =
      some (.kern, 2) := by decide +kernel
  obtain ⟨⟨⟨p, s'⟩, w⟩, hp, heq⟩ := Option.map_eq_some_iff.mp hread
  obtain ⟨hkern, hnel⟩ := Prod.mk.inj heq
  have hgives : (policydbRead nothingPast).Gives switchPolicy p s' w := hp
  exact ⟨p, s', w, hgives, hkern, hnel, fun state => policydbRead_typeRules hgives hkern state _ _ (by decide)⟩

end SELinux.File
