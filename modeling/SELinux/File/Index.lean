/-
  SELinux.File.Index — the arrays of a policy that is being read (`libsepol/src/policydb.c`:
  `policydb_index_decls`, `policydb_index_classes`, `policydb_index_others`,
  `policydb_role_cache`, `policydb_user_cache`; `expand.c`: `type_set_expand`,
  `role_set_expand`, `mls_semantic_level_expand`; `context.c`, `mls.c`: the validity of a
  context).

  The arrays lead from values to names and data. The functions here note every index they use
  with the length of its array (`Access`). What an array holds is looked up in the tables: the
  last symbol of the value in the order of `hashtab_map`, which overwrites. A slot that was
  never written is NULL, and a NULL that is followed ends the program, which is not acceptance.
  What is found past the end of an array, and by a shift past the 64 bits of a bitmap's last map,
  is not known: it is a parameter (`Past`). A write past the end changes nothing that is modelled. An
  allocation of no elements is not NULL.

  A role's cache and a user's cache are not stored: they are what the expansion gives again.
-/
import SELinux.File.Decls
import SELinux.Lib.Trace

namespace SELinux.File

open Lib Lib.Wire Lib.Trace

/-! ## The policy -/

structure RoleTrans where
  role : U32
  type : U32
  newRole : U32
  tclass : U32
  deriving DecidableEq, Repr

structure RoleAllow where
  role : U32
  newRole : U32
  deriving DecidableEq, Repr

structure FilenameTrans where
  name : Key
  stype : U32
  ttype : U32
  tclass : U32
  otype : U32

structure Context where
  user : U32 := 0#32
  role : U32 := 0#32
  type : U32 := 0#32
  range : MlsRange := {}

/-- What an object context is for: the unions of `ocontext_t`, and the SID. -/
inductive OcontextKey
  | sid (sid : U32)
  | name (name : Key)
  | port (protocol : BitVec 8) (low high : BitVec 16)
  | node (addr mask : U32)
  | fsuse (behavior : U32) (name : Key)
  | node6 (addr mask : List U32)
  | pirq (pirq : BitVec 16)
  | ioport (low high : U32)
  | iomem (low high : BitVec 64)
  | device (device : U32)

/-- `context1` is for file systems and network interfaces only. -/
structure Ocontext where
  key : OcontextKey
  context0 : Context
  context1 : Option Context := none

structure GenfsEntry where
  name : Key
  sclass : U32
  context : Context

structure Genfs where
  fstype : Key
  head : List GenfsEntry := []

structure RangeTrans where
  sourceType : U32
  targetType : U32
  targetClass : U32
  targetRange : MlsRange

/-- `roleSlots` is the length of `role_val_to_struct`, which `p_roles.nprim` is not once a user
    has all roles (`roleSetExpand`). `typeAttrsRead` has the maps of the types as they stand in the
    file; in `typeAttrMap` each has its own type besides. -/
structure Policydb where
  header : Header
  handleUnknown : U32 := 0#32
  name : Option Key := none
  version : Option Key := none
  policycaps : FileBitmap := FileBitmap.empty
  permissiveMap : FileBitmap := FileBitmap.empty
  symtab : Symtabs symtabSizes := {}
  roleSlots : U32 := 0#32
  teAvtab : Db.Avtab
  teCondAvtab : Db.Avtab
  condList : List CondNode := []
  roleTr : List RoleTrans := []
  roleAllow : List RoleAllow := []
  filenameTrans : List FilenameTrans := []
  global : List AvruleBlock := []
  scope : Scopes := {}
  ocontexts : List (List Ocontext) := []
  genfs : List Genfs := []
  rangeTr : List RangeTrans := []
  typeAttrsRead : List FileBitmap := []
  typeAttrMap : List Db.Ebitmap := []
  attrTypeMap : List Db.Bitmap := []

/-! ## Arrays -/

inductive Arr
  | declValToStruct
  | commonValToName
  | classValToName
  | classValToStruct
  | roleValToName
  | roleValToStruct
  | typeValToName
  | typeValToStruct
  | userValToName
  | userValToStruct
  | boolValToName
  | boolValToStruct
  | sensValToName
  | catValToName
  | typeAttrMap
  | attrTypeMap
  deriving DecidableEq, Repr

/-- An index into an array of `size` elements. -/
structure Access where
  arr : Arr
  index : Nat
  size : Nat
  deriving DecidableEq, Repr

def Access.InRange (a : Access) : Prop := a.index < a.size

instance (a : Access) : Decidable a.InRange := inferInstanceAs (Decidable (_ < _))

/-- What is found past the end of the arrays that are read without a check, and past the maps. -/
structure Past where
  type : Nat → Option TypeDatum
  sensName : Nat → Option Key
  bit : Db.PastMap

section Slots

variable {size : Nat} {α : Type}

/-- The symbol that the slot of a value points to. -/
def slot (keep : α → Bool) (value : α → U32) (t : SymTable size α) (v : U32) : Option (Key × α) :=
  t.entries.reverse.find? fun e => keep e.2 && value e.2 == v

/-- An index function: a symbol that is kept must have a value up to `nprim`, the length of the
    arrays. -/
def indexEntry (arrs : List Arr) (nprim : U32) (keep : α → Bool) (value : α → U32) (d : α) : Noted Access Unit :=
  if keep d then do
    Noted.check (value d != 0#32 && decide (value d ≤ nprim))
    arrs.foldlM (fun _ arr => Noted.note ⟨arr, (value d - 1#32).toNat, nprim.toNat⟩) ()
  else pure ()

/-- `hashtab_map` -/
def mapTable (t : SymTable size α) (f : α → Noted Access Unit) : Noted Access Unit := t.entries.foldlM (fun _ e => f e.2) ()

/-- A table of `policydb_index_others`, skipped without values. -/
def mapSymtab (s : Symtab size α) (f : α → Noted Access Unit) : Noted Access Unit :=
  if s.nprim = 0#32 then pure () else mapTable s.table f

end Slots

def isPrimary (d : TypeDatum) : Bool := d.primary != 0#32
def isLevel (d : LevelDatum) : Bool := d.isalias == 0#8
def isCat (d : CatDatum) : Bool := d.isalias == 0#8

def commonIndex (nprim : U32) : CommonDatum → Noted Access Unit :=
  indexEntry [.commonValToName] nprim (fun _ => true) (·.value)
def classIndex (nprim : U32) : ClassDatum → Noted Access Unit :=
  indexEntry [.classValToName, .classValToStruct] nprim (fun _ => true) (·.value)
def roleIndex (nprim : U32) : RoleDatum → Noted Access Unit :=
  indexEntry [.roleValToName, .roleValToStruct] nprim (fun _ => true) (·.value)
def typeIndex (nprim : U32) : TypeDatum → Noted Access Unit :=
  indexEntry [.typeValToName, .typeValToStruct] nprim isPrimary (·.value)
def userIndex (nprim : U32) : UserDatum → Noted Access Unit :=
  indexEntry [.userValToName, .userValToStruct] nprim (fun _ => true) (·.value)
def condIndexBool (nprim : U32) : BoolDatum → Noted Access Unit :=
  indexEntry [.boolValToName, .boolValToStruct] nprim (fun _ => true) (·.value)
def sensIndex (nprim : U32) : LevelDatum → Noted Access Unit := indexEntry [.sensValToName] nprim isLevel (·.level.sens)
def catIndex (nprim : U32) : CatDatum → Noted Access Unit := indexEntry [.catValToName] nprim isCat (·.value)

def policydbIndexDecls (global : List AvruleBlock) : Noted Access Unit :=
  (declsOf global).foldlM (fun _ d => Noted.note ⟨.declValToStruct, (d.declId - 1#32).toNat, (declsOf global).length⟩) ()

def policydbIndexClasses (syms : Symtabs symtabSizes) : Noted Access Unit := do
  mapTable syms.commons.table (commonIndex syms.commons.nprim)
  mapTable syms.classes.table (classIndex syms.classes.nprim)

/-! ## Type sets -/

section Types

variable (past : Past) (types : Symtab (symtabSizes 3) TypeDatum)

/-- `type_val_to_struct[i]` -/
def typeStruct (i : Nat) : Noted Access (Option TypeDatum) := do
  Noted.note ⟨.typeValToStruct, i, types.nprim.toNat⟩
  if i < types.nprim.toNat then pure ((slot isPrimary (·.value) types.table (BitVec.ofNat 32 (i + 1))).map (·.2))
  else pure (past.type i)

def TypeDatum.isAttrib (d : TypeDatum) : Bool := d.flavor == typeAttrib

/-- The types of a set, those of its attributes in their place. -/
def expandTypes (t : Db.Ebitmap) (i : Nat) : Noted Access Db.Ebitmap := do
  let d ← typeStruct past types i
  let d ← Noted.give d
  if d.isAttrib then pure (Db.ebitmapOr t d.types.1) else Noted.give (Db.ebitmapSetBit t i true)

/-- The types that a set excludes: here a NULL is no attribute. -/
def expandNegset (t : Db.Ebitmap) (i : Nat) : Noted Access Db.Ebitmap := do
  let d ← typeStruct past types i
  match d with
  | some d => if d.isAttrib then pure (Db.ebitmapOr t d.types.1) else Noted.give (Db.ebitmapSetBit t i true)
  | none => Noted.give (Db.ebitmapSetBit t i true)

/-- One round for `TYPE_STAR`. -/
def starType (neg t : Db.Ebitmap) (i : Nat) : Noted Access Db.Ebitmap :=
  if Db.ebitmapGetBit neg i then pure t
  else do
    let d ← typeStruct past types i
    if d.any TypeDatum.isAttrib then pure t else Noted.give (Db.ebitmapSetBit t i true)

/-- One round for `TYPE_COMP`, with its assertion on attributes. -/
def compType (t : Db.Ebitmap) (i : Nat) : Noted Access Db.Ebitmap := do
  let d ← typeStruct past types i
  if d.any TypeDatum.isAttrib then do
    Noted.check (!Db.ebitmapGetBit t i)
    pure t
  else Noted.give (Db.ebitmapSetBit t i (!Db.ebitmapGetBit t i))

/-- `type_set_expand` with `alwaysexpand`. -/
def typeSetExpand (set : TypeSet) : Noted Access Db.Ebitmap := do
  let bits ← Noted.give (Db.ebitmapWalkBits past.bit set.types.1)
  let ts ← bits.foldlM (expandTypes past types) {}
  let negbits ← Noted.give (Db.ebitmapWalkBits past.bit set.negset.1)
  let neg ← negbits.foldlM (expandNegset past types) {}
  if set.flags &&& Db.typeStar ≠ 0#32 then (List.range types.nprim.toNat).foldlM (starType past types neg) {}
  else do
    let bits ← Noted.give (Db.ebitmapWalkBits past.bit ts)
    let t ← Noted.give (bits.foldlM (fun t i => if Db.ebitmapGetBit neg i then some t else Db.ebitmapSetBit t i true) {})
    if set.flags &&& Db.typeComp ≠ 0#32 then (List.range types.nprim.toNat).foldlM (compType past types) t else pure t

/-- What `policydb_role_cache` stores in the role. -/
def roleCache (role : RoleDatum) : Db.Ebitmap := ((typeSetExpand past types role.types).run.map (·.1)).getD {}

end Types

/-! ## Role sets -/

/-- `for (i = 0; i < p->p_roles.nprim++; i++)`: the bound grows with the counter, until it
    wraps. -/
def starRoles : Nat → U32 → U32 → Db.Ebitmap → Option (Db.Ebitmap × U32)
  | 0, _, _, _ => none
  | fuel + 1, i, nprim, r =>
    if i < nprim then (Db.ebitmapSetBit r i.toNat true).bind (starRoles fuel (i + 1#32) (nprim + 1#32))
      else some (r, nprim + 1#32)

/-- The loop for `ROLE_COMP` up to the length, which changes with the bits. -/
def compRoles : Nat → Nat → Db.Ebitmap → Option Db.Ebitmap
  | 0, _, _ => none
  | fuel + 1, i, r =>
    if i < Db.ebitmapLength r then (Db.ebitmapSetBit r i (!Db.ebitmapGetBit r i)).bind (compRoles fuel (i + 1)) else some r

/-- Enough rounds for a counter of 32 bits. -/
def allRounds : Nat := 2 ^ 32 + 1

/-- The roles of a set before and after `ROLE_COMP`. -/
def compRolesIf (flags : U32) (r : Db.Ebitmap) : Option Db.Ebitmap :=
  if flags &&& roleComp ≠ 0#32 then compRoles allRounds 0 r else some r

/-- `role_set_expand` without a map of the roles: the roles, and `p_roles.nprim` afterwards. -/
def roleSetExpand (past : Db.PastMap) (nprim : U32) (x : RoleSet) : Option (Db.Ebitmap × U32) :=
  if x.flags &&& roleStar ≠ 0#32 then starRoles allRounds 0#32 nprim {}
  else do
    let bits ← Db.ebitmapWalkBits past x.roles.1
    let r ← bits.foldlM (fun r i => Db.ebitmapSetBit r i true) {}
    let r ← compRolesIf x.flags r
    return (r, nprim)

/-- What `policydb_user_cache` stores in the user; at most one user is expanded with another
    `nprim` than the first. -/
def userCache (past : Db.PastMap) (nprim : U32) (user : UserDatum) : Db.Ebitmap :=
  ((roleSetExpand past nprim user.roles).map (·.1)).getD {}

/-! ## Levels -/

def mlsLevelDom (l1 l2 : MlsLevel) : Bool := decide (l2.sens.toNat ≤ l1.sens.toNat) && Db.ebitmapContains l1.cat.1 l2.cat.1

def mlsRangeContains (r1 r2 : MlsRange) : Bool := mlsLevelDom r2.low r1.low && mlsLevelDom r1.high r2.high

section Levels

variable (past : Past) (levels : Symtab (symtabSizes 6) LevelDatum)

/-- `p_sens_val_to_name[sens - 1]` -/
def sensName (sens : U32) : Noted Access Key := do
  Noted.note ⟨.sensValToName, (sens - 1#32).toNat, levels.nprim.toNat⟩
  if (sens - 1#32).toNat < levels.nprim.toNat then Noted.give ((slot isLevel (·.level.sens) levels.table sens).map (·.1))
  else Noted.give (past.sensName (sens - 1#32).toNat)

/-- The level of a sensitivity, found by its name. -/
def levelOf (sens : U32) : Noted Access LevelDatum := do
  let name ← sensName past levels sens
  Noted.give (levels.table.search name)

/-- `for (i = cat->low - 1; i < cat->high; i++)` -/
def SemanticCat.bits (c : SemanticCat) : List Nat :=
  List.range' (c.low - 1#32).toNat (c.high.toNat - (c.low - 1#32).toNat)

/-- A category of an expanded level, which the sensitivity must have. -/
def addCat (lev : LevelDatum) (cat : Db.Bitmap) (i : Nat) : Option Db.Bitmap :=
  if Db.ebitmapGetBit lev.level.cat.1 i then cat.setBit i true else none

def addCats (lev : LevelDatum) (cat : Db.Bitmap) (c : SemanticCat) : Option Db.Bitmap :=
  if c.high < c.low then none else c.bits.foldlM (addCat lev) cat

def mlsSemanticLevelExpand (mls : Bool) (sl : SemanticLevel) : Noted Access MlsLevel :=
  if !mls then pure {}
  else if sl.sens = 0#32 then pure {}
  else do
    let lev ← levelOf past levels sl.sens
    let cat ← Noted.give (sl.cat.foldlM (addCats lev) Db.Bitmap.empty)
    return { sens := sl.sens, cat := FileBitmap.ofBitmap cat }

def mlsSemanticRangeExpand (mls : Bool) (sr : SemanticRange) : Noted Access MlsRange := do
  let low ← mlsSemanticLevelExpand past levels mls sr.low
  let high ← mlsSemanticLevelExpand past levels mls sr.high
  Noted.check (mlsLevelDom high low)
  return { low, high }

/-- The levels of a user of a base module. -/
def expandUser (mls : Bool) (user : UserDatum) : Noted Access UserDatum := do
  let expRange ← mlsSemanticRangeExpand past levels mls user.range
  let expDfltlevel ← mlsSemanticLevelExpand past levels mls user.dfltlevel
  return { user with expRange, expDfltlevel }

end Levels

/-! ## The other arrays -/

section Others

variable (past : Past) (h : Header) (syms : Symtabs symtabSizes)

def policydbRoleCache (role : RoleDatum) : Noted Access Unit := do
  let _ ← typeSetExpand past syms.types role.types
  return ()

/-- The user as `policydb_user_cache` leaves it. -/
def cachedUser (user : UserDatum) : Noted Access UserDatum :=
  if h.policyType = .base then expandUser past syms.levels h.mls user else pure user

/-- `policydb_user_cache`, from one `p_roles.nprim` to the next. -/
def policydbUserCache (nprim : U32) (user : UserDatum) : Noted Access U32 := do
  let r ← Noted.give (roleSetExpand past.bit nprim user.roles)
  let _ ← cachedUser past h syms user
  return r.2

/-- `policydb_index_others`: the symbol tables afterwards. -/
def policydbIndexOthers : Noted Access (Symtabs symtabSizes) := do
  mapSymtab syms.roles (roleIndex syms.roles.nprim)
  mapSymtab syms.types (typeIndex syms.types.nprim)
  mapSymtab syms.users (userIndex syms.users.nprim)
  mapSymtab syms.bools (condIndexBool syms.bools.nprim)
  mapSymtab syms.levels (sensIndex syms.levels.nprim)
  mapSymtab syms.cats (catIndex syms.cats.nprim)
  mapTable syms.roles.table (policydbRoleCache past syms)
  let nprim ← syms.users.table.entries.foldlM (fun n e => policydbUserCache past h syms n e.2) syms.roles.nprim
  return { syms with
    roles := { syms.roles with nprim }
    users := { syms.users with
      table := syms.users.table.map fun u => ((cachedUser past h syms u).run.map (·.1)).getD u } }

end Others

/-! ## Contexts -/

section Contexts

variable (past : Past) (p : Policydb)

/-- `role_val_to_struct[role - 1]` -/
def roleStruct (role : U32) : Noted Access RoleDatum := do
  Noted.note ⟨.roleValToStruct, (role - 1#32).toNat, p.roleSlots.toNat⟩
  Noted.give ((slot (fun _ => true) (·.value) p.symtab.roles.table role).map (·.2))

/-- `user_val_to_struct[user - 1]` -/
def userStruct (user : U32) : Noted Access UserDatum := do
  Noted.note ⟨.userValToStruct, (user - 1#32).toNat, p.symtab.users.nprim.toNat⟩
  Noted.give ((slot (fun _ => true) (·.value) p.symtab.users.table user).map (·.2))

/-- A value that has a slot. -/
def valueOk (v nprim : U32) : Bool := v != 0#32 && decide (v ≤ nprim)

/-- A level of a context: the sensitivity must have all its categories. -/
def mlsLevelIsvalid (l : MlsLevel) : Noted Access Unit := do
  Noted.check (valueOk l.sens p.symtab.levels.nprim)
  let lev ← levelOf past p.symtab.levels l.sens
  let bits ← Noted.give (Db.ebitmapWalkBits past.bit l.cat.1)
  Noted.check (bits.all fun i => decide (i ≤ p.symtab.cats.nprim.toNat) && Db.ebitmapGetBit lev.level.cat.1 i)

/-- `mls_context_isvalid`, which fails where the code returns 0. -/
def mlsContextIsvalid (c : Context) : Noted Access Unit :=
  if !p.header.mls then pure ()
  else do
    Noted.check (mlsLevelDom c.range.high c.range.low)
    mlsLevelIsvalid past p c.range.low
    mlsLevelIsvalid past p c.range.high
    if c.role = objectRVal then pure ()
    else do
      Noted.check (valueOk c.user p.symtab.users.nprim)
      let user ← userStruct p c.user
      Noted.check (mlsRangeContains user.expRange c.range)

/-- The role of a context has its type, and its user the role. -/
def rolesAuthorized (c : Context) : Noted Access Unit :=
  if c.role = objectRVal then pure ()
  else do
    let role ← roleStruct p c.role
    Noted.check (Db.ebitmapGetBit (roleCache past p.symtab.types role) (c.type - 1#32).toNat)
    let user ← userStruct p c.user
    Noted.check (Db.ebitmapGetBit (userCache past.bit p.roleSlots user) (c.role - 1#32).toNat)

/-- `context_is_valid`, which fails where the code returns 0. -/
def contextIsValid (c : Context) : Noted Access Unit := do
  Noted.check (valueOk c.role p.symtab.roles.nprim)
  Noted.check (valueOk c.user p.symtab.users.nprim)
  Noted.check (valueOk c.type p.symtab.types.nprim)
  rolesAuthorized past p c
  mlsContextIsvalid past p c

/-- The range of a context is in the file if the version has ranges. -/
def contextRead (h : Header) : Reader Context := do
  let user ← u32
  let role ← u32
  let type ← u32
  let range ← readIf (h.kernAt policydbVersionMls || h.baseAt modVersionMls) mlsReadRangeHelper {}
  return { user, role, type, range }

def contextReadAndValidate : Traced Access Context := do
  let c ← Traced.read (contextRead p.header)
  Traced.run (contextIsValid past p c)
  return c

end Contexts

end SELinux.File
