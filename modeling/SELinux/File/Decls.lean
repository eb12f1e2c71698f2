/-
  SELinux.File.Decls — the blocks and the scopes of a module (`libsepol/src/policydb.c`:
  `avrule_block_read`, `avrule_decl_read` and what they call, `scope_read`).

  A module, base or not, has its rules in the branches of blocks, each with an id and symbol
  tables of its own. At most one branch of a block is enabled. Then come the scopes: for each
  name of the policy's symbol tables the ids of the branches that declare or require it. The
  reader compares these ids with nothing.
-/
import SELinux.File.Conditional

namespace SELinux.File

open Lib Lib.Wire

/-! ## Rules -/

structure RoleTransRule where
  roles : RoleSet := {}
  types : TypeSet := {}
  classes : FileBitmap := FileBitmap.empty
  newRole : U32 := 0#32

structure RoleAllowRule where
  roles : RoleSet := {}
  newRoles : RoleSet := {}

structure FilenameTransRule where
  name : Key
  stypes : TypeSet := {}
  ttypes : TypeSet := {}
  tclass : U32 := 0#32
  otype : U32 := 0#32

structure RangeTransRule where
  stypes : TypeSet := {}
  ttypes : TypeSet := {}
  tclasses : FileBitmap := FileBitmap.empty
  trange : SemanticRange := {}

/-- The bitmap of `SECCLASS_PROCESS`, whose value is 2. -/
def processClasses : FileBitmap := FileBitmap.ofBitmap (Db.Bitmap.word 2#64)

/-- A number of entries and the entries. -/
def readList {α : Type} (r : Reader α) : Reader (List α) := do
  let nel ← u32
  times r nel.toNat

/-- One round of `role_trans_rule_read`. -/
def readRoleTransRule (h : Header) : Reader RoleTransRule := do
  let roles ← roleSetRead
  let types ← typeSetRead
  let classes ← readIf (decide (modVersionRoletrans ≤ h.policyvers)) FileBitmap.read processClasses
  let newRole ← u32
  return { roles, types, classes, newRole }

/-- One round of `role_allow_rule_read`. -/
def readRoleAllowRule : Reader RoleAllowRule := do
  let roles ← roleSetRead
  let newRoles ← roleSetRead
  return { roles, newRoles }

/-- One round of `filename_trans_rule_read`. -/
def readFilenameTransRule : Reader FilenameTransRule := do
  let len ← u32
  let name ← readKey len
  let stypes ← typeSetRead
  let ttypes ← typeSetRead
  let tclass ← u32
  let otype ← u32
  return { name, stypes, ttypes, tclass, otype }

/-- One round of `range_trans_rule_read`. -/
def readRangeTransRule : Reader RangeTransRule := do
  let stypes ← typeSetRead
  let ttypes ← typeSetRead
  let tclasses ← FileBitmap.read
  let trange ← mlsReadSemanticRangeHelper
  return { stypes, ttypes, tclasses, trange }

/-! ## Branches -/

/-- A bitmap per symbol table, and one per class for its permissions. -/
structure ScopeIndex where
  scope : List FileBitmap := []
  classPermsMap : List FileBitmap := []

def scopeIndexRead (numScopeSyms : Nat) : Reader ScopeIndex := do
  let scope ← times FileBitmap.readOrEmpty numScopeSyms
  let classPermsLen ← u32
  let classPermsMap ← times FileBitmap.readOrEmpty classPermsLen.toNat
  return { scope, classPermsMap }

structure AvruleDecl where
  declId : U32
  enabled : U32
  condList : List CondNode := []
  avrules : List Avrule := []
  roleTrRules : List RoleTransRule := []
  roleAllowRules : List RoleAllowRule := []
  filenameTransRules : List FilenameTransRule := []
  rangeTrRules : List RangeTransRule := []
  required : ScopeIndex := {}
  declared : ScopeIndex := {}
  symtab : Symtabs declSymtabSizes := {}

def AvruleDecl.isEnabled (d : AvruleDecl) : Bool := d.enabled != 0#32

/-- `avrule_decl_read`; `nprim` is the number of booleans of the policy, and `hasCommon` looks
    in its table of commons. -/
def avruleDeclRead (past : Db.PastMap) (h : Header) (nprim : U32) (hasCommon : Key → Bool) (numScopeSyms : Nat) :
    Reader AvruleDecl := do
  let declId ← u32
  let enabled ← u32
  let condList ← condReadListModule h nprim
  let avrules ← avruleReadList
  let roleTrRules ← readList (readRoleTransRule h)
  let roleAllowRules ← readList readRoleAllowRule
  let filenameTransRules ← readIf (decide (modVersionFilenameTrans ≤ h.policyvers)) (readList readFilenameTransRule) []
  let rangeTrRules ← readIf (decide (modVersionRangetrans ≤ h.policyvers)) (readList readRangeTransRule) []
  let required ← scopeIndexRead numScopeSyms
  let declared ← scopeIndexRead numScopeSyms
  let symtab ← readSymtabs past h numScopeSyms (fun _ => hasCommon) Table.empty
  return { declId, enabled, condList, avrules, roleTrRules, roleAllowRules, filenameTransRules, rangeTrRules, required,
           declared, symtab }

/-! ## Blocks -/

/-- The branches of a block, of which at most one is enabled. -/
structure AvruleBlock where
  branchList : List AvruleDecl := []
  oneEnabled : branchList.countP AvruleDecl.isEnabled ≤ 1 := by decide

/-- A further branch. -/
def AvruleBlock.add (b : AvruleBlock) (decl : AvruleDecl) : Option AvruleBlock :=
  if h : (b.branchList ++ [decl]).countP AvruleDecl.isEnabled ≤ 1 then some ⟨b.branchList ++ [decl], h⟩ else none

/-- `curblock->enabled` -/
def AvruleBlock.enabled (b : AvruleBlock) : Option AvruleDecl := b.branchList.find? AvruleDecl.isEnabled

section

variable (past : Db.PastMap) (h : Header) (nprim : U32) (hasCommon : Key → Bool) (numScopeSyms : Nat)

def readBranch (b : AvruleBlock) : Reader AvruleBlock := do
  let decl ← avruleDeclRead past h nprim hasCommon numScopeSyms
  ofOption (b.add decl)

def readBlock : Reader AvruleBlock := do
  let numDecls ← u32
  loop (readBranch past h nprim hasCommon numScopeSyms) numDecls.toNat {}

def avruleBlockRead : Reader (List AvruleBlock) := readList (readBlock past h nprim hasCommon numScopeSyms)

end

/-- The branches of all blocks in order. -/
def declsOf (global : List AvruleBlock) : List AvruleDecl := global.flatMap AvruleBlock.branchList

/-! ## Scopes -/

structure ScopeDatum where
  scope : U32
  declIds : List U32
  nonempty : declIds ≠ []

abbrev ScopeTable (size : Nat) := SymTable size ScopeDatum

/-- What stands before a scope's ids: `hasSymbol` looks for the name in the symbol table. -/
def readScopeDatum (hasSymbol : Key → Bool) : Reader (Key × ScopeDatum) := do
  let keyLen ← u32
  let key ← readKey keyLen
  check (hasSymbol key)
  let scope ← u32
  let declIdsLen ← u32
  let declIds ← times u32 declIdsLen.toNat
  if hne : declIds ≠ [] then return (key, ⟨scope, declIds, hne⟩) else reject

/-- `scope_read`; `object_r` is in the table of the roles' scopes from the start. -/
def scopeRead {size : Nat} (isRoles : Bool) (hasSymbol : Key → Bool) (t : ScopeTable size) : Reader (ScopeTable size) := do
  let (key, datum) ← readScopeDatum hasSymbol
  if isRoles ∧ key.1 = objectR then pure t else ofOption (t.insert key datum)

/-- The loop over the scopes of one symbol table. -/
def readScopes {size : Nat} (isRoles : Bool) (hasSymbol : Key → Bool) (t : ScopeTable size) : Reader (ScopeTable size) := do
  let nel ← u32
  loop (scopeRead isRoles hasSymbol) nel.toNat t

/-- `scope[SYM_NUM]` -/
structure Scopes where
  commons : ScopeTable (symtabSizes 0) := Table.empty
  classes : ScopeTable (symtabSizes 1) := Table.empty
  roles : ScopeTable (symtabSizes 2) := Table.empty
  types : ScopeTable (symtabSizes 3) := Table.empty
  users : ScopeTable (symtabSizes 4) := Table.empty
  bools : ScopeTable (symtabSizes 5) := Table.empty
  levels : ScopeTable (symtabSizes 6) := Table.empty
  cats : ScopeTable (symtabSizes 7) := Table.empty

def Symtab.has {size : Nat} {α : Type} (s : Symtab size α) (key : Key) : Bool := (s.table.search key).isSome

/-- The loop over the tables of scopes, all eight in a module. -/
def readAllScopes (syms : Symtabs symtabSizes) (roles : ScopeTable (symtabSizes 2)) : Reader Scopes := do
  let commons ← readScopes false syms.commons.has Table.empty
  let classes ← readScopes false syms.classes.has Table.empty
  let roles ← readScopes true syms.roles.has roles
  let types ← readScopes false syms.types.has Table.empty
  let users ← readScopes false syms.users.has Table.empty
  let bools ← readScopes false syms.bools.has Table.empty
  let levels ← readScopes false syms.levels.has Table.empty
  let cats ← readScopes false syms.cats.has Table.empty
  return { commons, classes, roles, types, users, bools, levels, cats }

end SELinux.File
