/-
  SELinux.File.Symbols — the symbols of a policy file (`libsepol/src/policydb.c`: the `*_read`
  functions of `read_f`; `conditional.c`: `cond_read_bool`; `symtab.c`, `hashtab.c`).

  Every symbol is its name and a datum: the value, and what the kind of symbol has. The names
  of a table are unique: a second symbol of a name is refused. The role `object_r` is in the
  table before anything is read; one in the file must have its value, and is dropped.

  A name is what stands before the first NUL of the bytes that its length announces.
-/
import SELinux.Db.Positions
import SELinux.File.Constraint
import SELinux.Lib.Table

namespace SELinux.File

open Lib Lib.Wire

variable (h : Header)

/-- One of two ways to read, as the version of the policy says. -/
def readIf {α : Type} (c : Bool) (r : Reader α) (default : α) : Reader α := if c then r else pure default

/-! ## Names -/

/-- A C string. -/
abbrev Key := { k : Bytes // 0#8 ∉ k ∧ k.length < 2 ^ 32 }

def cString (b : Bytes) : Bytes := b.takeWhile (· != 0#8)

theorem cString_key {b : Bytes} (hlen : b.length < 2 ^ 32) : 0#8 ∉ cString b ∧ (cString b).length < 2 ^ 32 := by
  constructor
  · intro hmem
    have hall : (cString b).all (· != 0#8) = true := List.all_takeWhile
    exact absurd (List.all_eq_true.mp hall _ hmem) (by decide)
  · exact Nat.lt_of_le_of_lt (List.takeWhile_prefix _).length_le hlen

def readKey (len : U32) : Reader Key := fun s =>
  match h : take len.toNat s with
  | some (b, s') => some (⟨cString b, cString_key ((take_some.mp h).1 ▸ len.isLt)⟩, s')
  | none => none

/-- `strcmp(a, b) < 0` -/
def bytesLt : Bytes → Bytes → Bool
  | _, [] => false
  | [], _ :: _ => true
  | a :: as, b :: bs => decide (a < b) || (a == b && bytesLt as bs)

theorem bytesLt_irrefl (a : Bytes) : bytesLt a a = false := by
  induction a with
  | nil => rfl
  | cons x a ih => simp [bytesLt, ih]

theorem bytesLt_cons {x y : BitVec 8} {a b : Bytes} :
    bytesLt (x :: a) (y :: b) = true ↔ x < y ∨ x = y ∧ bytesLt a b = true := by
  rw [bytesLt, Bool.or_eq_true, decide_eq_true_iff, Bool.and_eq_true, beq_iff_eq]

theorem bytesLt_trans (a b c : Bytes) (hab : bytesLt a b = true) (hbc : bytesLt b c = true) : bytesLt a c = true := by
  induction a generalizing b c with
  | nil =>
    cases c with
    | nil => cases b <;> cases hbc
    | cons z c => rfl
  | cons x a ih =>
    cases b with
    | nil => cases hab
    | cons y b =>
      cases c with
      | nil => cases hbc
      | cons z c =>
        rw [bytesLt_cons] at hab hbc ⊢
        rcases hab with hab | ⟨rfl, hab⟩
        · rcases hbc with hbc | ⟨rfl, -⟩
          · exact Or.inl (BitVec.lt_trans hab hbc)
          · exact Or.inl hab
        · rcases hbc with hbc | ⟨rfl, hbc⟩
          · exact Or.inl hbc
          · exact Or.inr ⟨rfl, ih b c hab hbc⟩

theorem bytesLt_total (a b : Bytes) (h : a ≠ b) : bytesLt a b = true ∨ bytesLt b a = true := by
  induction a generalizing b with
  | nil =>
    cases b with
    | nil => exact absurd rfl h
    | cons y b => exact Or.inl rfl
  | cons x a ih =>
    cases b with
    | nil => exact Or.inr rfl
    | cons y b =>
      rw [bytesLt_cons, bytesLt_cons]
      by_cases hxy : x = y
      · subst hxy
        have hne : a ≠ b := fun heq => h (by rw [heq])
        exact (ih b hne).imp (fun h => Or.inr ⟨rfl, h⟩) (fun h => Or.inr ⟨rfl, h⟩)
      · rcases Nat.lt_or_gt_of_ne (BitVec.toNat_ne.mp hxy) with hlt | hgt
        · exact Or.inl (Or.inl hlt)
        · exact Or.inr (Or.inl hgt)

/-- The characters are signed. -/
def symhash (size : Nat) (key : Bytes) : Nat :=
  (key.foldl (fun (val : U32) c => (val <<< 4 ||| val >>> 28) ^^^ c.signExtend 32) 0#32).toNat &&& (size - 1)

/-- The order in which `hashtab_map` goes through a table of this size. -/
def symOrder (size : Nat) : KeyOrder Key where
  lt a b := decide (symhash size a.1 < symhash size b.1) || (symhash size a.1 == symhash size b.1 && bytesLt a.1 b.1)
  irrefl a := by simp [bytesLt_irrefl]
  trans a b c hab hbc := by
    simp only [Bool.or_eq_true, decide_eq_true_iff, Bool.and_eq_true, beq_iff_eq] at hab hbc ⊢
    rcases hab with hab | ⟨hab, hlt⟩
    · rcases hbc with hbc | ⟨hbc, -⟩
      · exact Or.inl (Nat.lt_trans hab hbc)
      · exact Or.inl (hbc ▸ hab)
    · rcases hbc with hbc | ⟨hbc, hlt'⟩
      · exact Or.inl (hab ▸ hbc)
      · exact Or.inr ⟨hab.trans hbc, bytesLt_trans _ _ _ hlt hlt'⟩
  total a b hne := by
    simp only [Bool.or_eq_true, decide_eq_true_iff, Bool.and_eq_true, beq_iff_eq]
    have hbytes : a.1 ≠ b.1 := fun h => hne (Subtype.ext h)
    rcases Nat.lt_trichotomy (symhash size a.1) (symhash size b.1) with h | h | h
    · exact Or.inl (Or.inl h)
    · exact (bytesLt_total a.1 b.1 hbytes).imp (fun hlt => Or.inr ⟨h, hlt⟩) (fun hlt => Or.inr ⟨h.symm, hlt⟩)
    · exact Or.inr (Or.inl h)

abbrev SymTable (size : Nat) (α : Type) := Table (symOrder size) α

/-- `symtab_t` -/
structure Symtab (size : Nat) (α : Type) where
  table : SymTable size α := Table.empty
  nprim : U32 := 0#32

section

variable {size : Nat} {α : Type}

/-- One round of the loop over the symbols of a table; nothing is inserted for `object_r`. -/
def readEntry (rd : Reader (Option (Key × α))) (t : SymTable size α) : Reader (SymTable size α) := do
  let e ← rd
  match e with
  | none => pure t
  | some (key, datum) => ofOption (t.insert key datum)

/-- The loop of `policydb_read` over one table, which starts from `t`. -/
def readSymtab (rd : Reader (Option (Key × α))) (t : SymTable size α) : Reader (Symtab size α) := do
  let nprim ← u32
  let nel ← u32
  let table ← loop (readEntry rd) nel.toNat t
  return { table, nprim }

end

/-! ## Sets and levels -/

structure RoleSet where
  roles : FileBitmap := FileBitmap.empty
  flags : U32 := 0#32

def roleStar : U32 := 1#32
def roleComp : U32 := 2#32

def roleSetRead : Reader RoleSet := do
  let roles ← FileBitmap.read
  let flags ← u32
  return { roles, flags }

structure MlsLevel where
  sens : U32 := 0#32
  cat : FileBitmap := FileBitmap.empty

structure MlsRange where
  low : MlsLevel := {}
  high : MlsLevel := {}

structure SemanticCat where
  low : U32
  high : U32
  deriving DecidableEq, Repr

structure SemanticLevel where
  sens : U32 := 0#32
  cat : List SemanticCat := []

structure SemanticRange where
  low : SemanticLevel := {}
  high : SemanticLevel := {}

/-- Without a sensitivity in the file, `buf` still holds the number of them, 0. -/
def mlsReadRangeHelper : Reader MlsRange := do
  let items ← u32
  check (decide (items.toNat ≤ 2))
  let buf ← times u32 items.toNat
  let low := buf.getD 0 0#32
  let lowCat ← FileBitmap.read
  let highCat ← readIf (decide (1 < items.toNat)) FileBitmap.read lowCat
  return { low := ⟨low, lowCat⟩, high := ⟨buf.getD 1 low, highCat⟩ }

def mlsReadLevel : Reader MlsLevel := do
  let sens ← u32
  let cat ← FileBitmap.read
  return { sens, cat }

def readSemanticCat : Reader SemanticCat := do
  let low ← u32
  let high ← u32
  return { low, high }

/-- Each category range goes before those read so far. -/
def mlsReadSemanticLevelHelper : Reader SemanticLevel := do
  let sens ← u32
  let ncat ← u32
  let cats ← times readSemanticCat ncat.toNat
  return { sens, cat := cats.reverse }

def mlsReadSemanticRangeHelper : Reader SemanticRange := do
  let low ← mlsReadSemanticLevelHelper
  let high ← mlsReadSemanticLevelHelper
  return { low, high }

/-- The ranges so far, the newest first, and whether that one is still open. -/
structure OpenCats where
  cats : List SemanticCat := []
  isOpen : Bool := false

def OpenCats.close (st : OpenCats) (high : Nat) : OpenCats :=
  match st.cats with
  | c :: cats => if st.isOpen then { cats := { c with high := BitVec.ofNat 32 high } :: cats } else st
  | [] => st

/-- One position of the loop of `mls_level_to_semantic`. -/
def OpenCats.visit (st : OpenCats) (pos : Nat × Bool) : OpenCats :=
  if pos.2 then
    if st.isOpen then st else { cats := ⟨BitVec.ofNat 32 (pos.1 + 1), 0#32⟩ :: st.cats, isOpen := true }
  else st.close pos.1

/-- `mls_level_to_semantic` of a level whose bitmap ends with its last map. -/
def mlsLevelToSemantic (l : MlsLevel) : SemanticLevel :=
  { sens := l.sens
    cat := (((Db.ebitmapPositions l.cat.1).foldl OpenCats.visit {}).close l.cat.1.highbit).cats }

/-- `mls_level_to_semantic` of any level of a file. -/
def mlsLevelToSemanticPast (past : Db.PastMap) (l : MlsLevel) : Option SemanticLevel :=
  (Db.ebitmapWalk past l.cat.1).map fun walk =>
    { sens := l.sens, cat := ((walk.foldl OpenCats.visit {}).close l.cat.1.highbit).cats }

def mlsRangeToSemantic (past : Db.PastMap) (r : MlsRange) : Option SemanticRange := do
  let low ← mlsLevelToSemanticPast past r.low
  let high ← mlsLevelToSemanticPast past r.high
  return { low, high }

/-! ## Versions -/

def policydbVersionBool : Nat := 16
def policydbVersionValidatetrans : Nat := 19
def policydbVersionMls : Nat := 19
def policydbVersionRangetrans : Nat := 21
def policydbVersionPolcap : Nat := 22
def policydbVersionPermissive : Nat := 23
def policydbVersionBoundary : Nat := 24
def policydbVersionFilenameTrans : Nat := 25
def policydbVersionRoletrans : Nat := 26
def policydbVersionNewObjectDefaults : Nat := 27
def policydbVersionDefaultType : Nat := 28

def modVersionValidatetrans : Nat := 5
def modVersionMls : Nat := 5
def modVersionRangetrans : Nat := 6
def modVersionMlsUsers : Nat := 6
def modVersionPolcap : Nat := 7
def modVersionPermissive : Nat := 8
def modVersionBoundary : Nat := 9
def modVersionBoundaryAlias : Nat := 10
def modVersionFilenameTrans : Nat := 11
def modVersionRoletrans : Nat := 12
def modVersionRoleattrib : Nat := 13
def modVersionTunableSep : Nat := 14
def modVersionNewObjectDefaults : Nat := 15
def modVersionDefaultType : Nat := 16

/-- `policydb_has_boundary_feature` -/
def hasBoundary : Bool := h.kernAt policydbVersionBoundary || h.moduleAt modVersionBoundary

def isKern : Bool := h.policyType == .kern

/-! ## Data -/

def permSymtabSize : Nat := 32

structure CommonDatum where
  value : U32
  permissions : Symtab permSymtabSize U32 := {}

/-- The four defaults are characters. -/
structure ClassDatum where
  value : U32
  comkey : Option Key := none
  permissions : Symtab permSymtabSize U32 := {}
  constraints : List ConstraintNode := []
  validatetrans : List ConstraintNode := []
  defaultUser : BitVec 8 := 0#8
  defaultRole : BitVec 8 := 0#8
  defaultRange : BitVec 8 := 0#8
  defaultType : BitVec 8 := 0#8

def roleAttrib : U32 := 1#32

structure RoleDatum where
  value : U32
  bounds : U32 := 0#32
  dominates : FileBitmap := FileBitmap.empty
  types : TypeSet := {}
  flavor : U32 := 0#32
  roles : FileBitmap := FileBitmap.empty

def typeAttrib : U32 := 1#32
def typeAlias : U32 := 2#32

structure TypeDatum where
  value : U32
  primary : U32 := 0#32
  flavor : U32 := 0#32
  flags : U32 := 0#32
  bounds : U32 := 0#32
  types : FileBitmap := FileBitmap.empty

/-- `expRange` and `expDfltlevel` are the expanded forms of `range` and `dfltlevel`. -/
structure UserDatum where
  value : U32
  bounds : U32 := 0#32
  roles : RoleSet := {}
  expRange : MlsRange := {}
  expDfltlevel : MlsLevel := {}
  range : SemanticRange := {}
  dfltlevel : SemanticLevel := {}

structure BoolDatum where
  value : U32
  state : U32 := 0#32
  flags : U32 := 0#32

structure LevelDatum where
  level : MlsLevel
  isalias : BitVec 8 := 0#8

structure CatDatum where
  value : U32
  isalias : BitVec 8 := 0#8

/-! ## Reading the symbols -/

def permRead : Reader (Option (Key × U32)) := do
  let len ← u32
  let value ← u32
  let key ← readKey len
  return some (key, value)

def commonRead : Reader (Option (Key × CommonDatum)) := do
  let len ← u32
  let value ← u32
  let nprim ← u32
  let nel ← u32
  let key ← readKey len
  let table ← loop (readEntry permRead) nel.toNat Table.empty
  return some (key, { value, permissions := { table, nprim } })

/-- The common of a class, which must be in the policy's table. -/
def readComkey (hasCommon : Key → Bool) (len : U32) : Reader (Option Key) :=
  readIf (len != 0#32) (do
    let comkey ← readKey len
    check (hasCommon comkey)
    return some comkey) none

def readValidatetrans : Reader (List ConstraintNode) :=
  readIf (h.kernAt policydbVersionValidatetrans || h.baseAt modVersionValidatetrans) (do
    let ncons ← u32
    readConsHelper h true ncons.toNat) []

/-- What a `char` keeps of a word. -/
def readChar : Reader (BitVec 8) := (·.setWidth 8) <$> u32

def readObjectDefaults : Reader (BitVec 8 × BitVec 8 × BitVec 8) :=
  readIf (h.kernAt policydbVersionNewObjectDefaults || h.baseAt modVersionNewObjectDefaults) (do
    let user ← readChar
    let role ← readChar
    let range ← readChar
    return (user, role, range)) (0#8, 0#8, 0#8)

def readDefaultType : Reader (BitVec 8) :=
  readIf (h.kernAt policydbVersionDefaultType || h.baseAt modVersionDefaultType) readChar 0#8

def classRead (hasCommon : Key → Bool) : Reader (Option (Key × ClassDatum)) := do
  let len ← u32
  let len2 ← u32
  let value ← u32
  let nprim ← u32
  let nel ← u32
  let ncons ← u32
  let key ← readKey len
  let comkey ← readComkey hasCommon len2
  let table ← loop (readEntry permRead) nel.toNat Table.empty
  let constraints ← readConsHelper h false ncons.toNat
  let validatetrans ← readValidatetrans h
  let defaults ← readObjectDefaults h
  let defaultType ← readDefaultType h
  let datum : ClassDatum :=
    { value, comkey, permissions := { table, nprim }, constraints, validatetrans, defaultUser := defaults.1,
      defaultRole := defaults.2.1, defaultRange := defaults.2.2, defaultType }
  return some (key, datum)

def objectR : Bytes := [111#8, 98#8, 106#8, 101#8, 99#8, 116#8, 95#8, 114#8]
def objectRVal : U32 := 1#32

/-- The types of a role: kernel policies have the expanded set. -/
def readRoleTypes : Reader TypeSet :=
  if isKern h then (fun types => { types }) <$> FileBitmap.read else typeSetRead

/-- What a role attribute has. -/
def readRoleFlavor : Reader (U32 × FileBitmap) :=
  readIf (h.moduleAt modVersionRoleattrib) (do
    let flavor ← u32
    let roles ← FileBitmap.read
    return (flavor, roles)) (0#32, FileBitmap.empty)

def roleRead : Reader (Option (Key × RoleDatum)) := do
  let len ← u32
  let value ← u32
  let bounds ← readIf (hasBoundary h) u32 0#32
  let key ← readKey len
  let dominates ← FileBitmap.read
  let types ← readRoleTypes h
  let flavor ← readRoleFlavor h
  if key.1 = objectR then do
    check (value == objectRVal)
    return none
  else
    let datum : RoleDatum := { value, bounds, dominates, types, flavor := flavor.1, roles := flavor.2 }
    return some (key, datum)

def propertyPrimary : U32 := 1#32
def propertyAttribute : U32 := 2#32
def propertyAlias : U32 := 4#32
def propertyPermissive : U32 := 8#32
def typeFlagsPermissive : U32 := 1#32

def propertiesFlavor (properties : U32) : U32 :=
  if properties &&& propertyAlias ≠ 0#32 ∧ !isKern h then typeAlias
  else if properties &&& propertyAttribute ≠ 0#32 then typeAttrib
  else 0#32

def propertiesFlags (properties : U32) : U32 :=
  if properties &&& propertyPermissive ≠ 0#32 ∧ !isKern h then typeFlagsPermissive else 0#32

/-- The words of a type behind its value, as a datum. -/
def readTypeWords (value : U32) : Reader TypeDatum :=
  if hasBoundary h then
    if h.moduleAt modVersionBoundaryAlias then do
      let primary ← u32
      let properties ← u32
      let bounds ← u32
      return { value, primary, flavor := propertiesFlavor h properties, flags := propertiesFlags h properties, bounds }
    else do
      let properties ← u32
      let bounds ← u32
      let primary := if properties &&& propertyPrimary ≠ 0#32 then 1#32 else 0#32
      return { value, primary, flavor := propertiesFlavor h properties, flags := propertiesFlags h properties, bounds }
  else do
    let primary ← u32
    let flavor ← readIf (!isKern h) u32 0#32
    let flags ← readIf (h.moduleAt modVersionPermissive) u32 0#32
    return { value, primary, flavor, flags }

def typeRead : Reader (Option (Key × TypeDatum)) := do
  let len ← u32
  let value ← u32
  let words ← readTypeWords h value
  let types ← readIf (!isKern h) FileBitmap.read FileBitmap.empty
  let key ← readKey len
  let datum : TypeDatum := { words with types }
  return some (key, datum)

def readUserRoles : Reader RoleSet :=
  if isKern h then (fun roles => { roles }) <$> FileBitmap.read else roleSetRead

/-- The levels of a user: expanded in kernel policies, and in old modules, which get the other
    form from them. -/
def readUserLevels (past : Db.PastMap) (user : UserDatum) : Reader UserDatum :=
  if h.kernAt policydbVersionMls then do
    let expRange ← mlsReadRangeHelper
    let expDfltlevel ← mlsReadLevel
    return { user with expRange, expDfltlevel }
  else if h.moduleAt modVersionMlsUsers then do
    let range ← mlsReadSemanticRangeHelper
    let dfltlevel ← mlsReadSemanticLevelHelper
    return { user with range, dfltlevel }
  else if h.moduleAt modVersionMls then do
    let expRange ← mlsReadRangeHelper
    let expDfltlevel ← mlsReadLevel
    let range ← ofOption (mlsRangeToSemantic past expRange)
    let dfltlevel ← ofOption (mlsLevelToSemanticPast past expDfltlevel)
    return { user with expRange, expDfltlevel, range, dfltlevel }
  else pure user

def userRead (past : Db.PastMap) : Reader (Option (Key × UserDatum)) := do
  let len ← u32
  let value ← u32
  let bounds ← readIf (hasBoundary h) u32 0#32
  let key ← readKey len
  let roles ← readUserRoles h
  let datum ← readUserLevels h past { value, bounds, roles }
  return some (key, datum)

def condReadBool : Reader (Option (Key × BoolDatum)) := do
  let value ← u32
  let state ← u32
  check (state == 0#32 || state == 1#32)
  let len ← u32
  let key ← readKey len
  let flags ← readIf (h.moduleAt modVersionTunableSep) u32 0#32
  let datum : BoolDatum := { value, state, flags }
  return some (key, datum)

def sensRead : Reader (Option (Key × LevelDatum)) := do
  let len ← u32
  let isalias ← readChar
  let key ← readKey len
  let level ← mlsReadLevel
  let datum : LevelDatum := { level, isalias }
  return some (key, datum)

def catRead : Reader (Option (Key × CatDatum)) := do
  let len ← u32
  let value ← u32
  let isalias ← readChar
  let key ← readKey len
  let datum : CatDatum := { value, isalias }
  return some (key, datum)

/-! ## The tables -/

/-- `symtab_sizes` -/
def symtabSizes (sym : Nat) : Nat := [2, 32, 16, 512, 128, 16, 16, 16].getD sym 0

/-- The sizes of the tables of a declaration. -/
def declSymtabSizes (sym : Nat) : Nat := [2, 4, 8, 32, 16, 4, 2, 2].getD sym 0

/-- `symtab[SYM_NUM]` -/
structure Symtabs (sizes : Nat → Nat) where
  commons : Symtab (sizes 0) CommonDatum := {}
  classes : Symtab (sizes 1) ClassDatum := {}
  roles : Symtab (sizes 2) RoleDatum := {}
  types : Symtab (sizes 3) TypeDatum := {}
  users : Symtab (sizes 4) UserDatum := {}
  bools : Symtab (sizes 5) BoolDatum := {}
  levels : Symtab (sizes 6) LevelDatum := {}
  cats : Symtab (sizes 7) CatDatum := {}

/-- The loop over the tables, of which old kernel policies have five or six. `hasCommon` looks
    for the common of a class in the policy's table, which is read by then. -/
def readSymtabs {sizes : Nat → Nat} (past : Db.PastMap) (h : Header) (symNum : Nat)
    (hasCommon : Symtab (sizes 0) CommonDatum → Key → Bool) (roles : SymTable (sizes 2) RoleDatum) :
    Reader (Symtabs sizes) := do
  let commons ← readSymtab commonRead Table.empty
  let classes ← readSymtab (classRead h (hasCommon commons)) Table.empty
  let roles ← readSymtab (roleRead h) roles
  let types ← readSymtab (typeRead h) Table.empty
  let users ← readSymtab (userRead h past) Table.empty
  let bools ← readIf (decide (5 < symNum)) (readSymtab (condReadBool h) Table.empty) {}
  let levels ← readIf (decide (6 < symNum)) (readSymtab sensRead Table.empty) {}
  let cats ← readIf (decide (7 < symNum)) (readSymtab catRead Table.empty) {}
  return { commons, classes, roles, types, users, bools, levels, cats }

end SELinux.File
