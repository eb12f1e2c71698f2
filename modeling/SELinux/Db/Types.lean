/-
  SELinux.Db.Types — the policy database (`libsepol/include/sepol/policydb/policydb.h`,
  `conditional.h`).

  Values of types, classes and booleans are `uint32_t` numbered from 1; arrays indexed by
  `value - 1` are lists here, and a read outside one (undefined in C) gives the empty
  bitmap. A bitmap of a policy is a well-formed one (`Bitmap`), and an expression's state is
  a function from boolean values, since the code never reads a boolean any other way.
  Conditional lists hold pointers into `te_cond_avtab`; here they hold node ids.
-/
import SELinux.Db.Avtab
import SELinux.Db.Ebitmap
import SELinux.Lib.Rpn

namespace SELinux.Db

open List

abbrev Bitmap := { e : Ebitmap // e.WF }

variable {e : Bitmap} {i : Nat}

namespace Bitmap

def empty : Bitmap := ⟨{}, Ebitmap.WF.empty⟩

def has (e : Bitmap) (i : Nat) : Bool := ebitmapGetBit e.1 i

def bits (e : Bitmap) : List Nat := ebitmapBits e.1

theorem mem_bits : i ∈ e.bits ↔ e.has i = true := mem_ebitmapBits e.2

/-- `ebitmap_set_bit` -/
def setBit (e : Bitmap) (bit : Nat) (value : Bool) : Option Bitmap :=
  match h : ebitmapSetBit e.1 bit value with
  | some e' => some ⟨e', (ebitmapSetBit_spec e.2 h).1⟩
  | none => none

/-- `ebitmap_union` -/
def union (e f : Bitmap) : Bitmap := ⟨ebitmapOr e.1 f.1, (ebitmapOr_spec e.2 f.2).1⟩

theorem has_empty (i : Nat) : empty.has i = false := not_getBit_empty i

theorem has_union {f : Bitmap} : (e.union f).has i = true ↔ e.has i = true ∨ f.has i = true :=
  (ebitmapOr_spec e.2 f.2).2 i

theorem has_setBit {e' : Bitmap} {bit : Nat} {value : Bool} (h : e.setBit bit value = some e') (i : Nat) :
    e'.has i = if i = bit then value else e.has i := by
  unfold setBit at h
  split at h
  next hs =>
    cases h
    exact (ebitmapSetBit_spec e.2 hs).2 i
  · cases h

theorem setBit_isSome (e : Bitmap) {bit : Nat} (hb : bit - bit % mapsize + mapsize < 2 ^ 32) (value : Bool) :
    ∃ e', e.setBit bit value = some e' := by
  obtain ⟨e', he'⟩ := ebitmapSetBit_isSome e.1 hb value
  unfold setBit
  split
  · exact ⟨_, rfl⟩
  next hs =>
    rw [he'] at hs
    cases hs

/-- Bits set one after the other. -/
theorem has_setBits {l : List Nat} {r : Bitmap} (h : l.foldlM (fun e i => e.setBit i true) e = some r) (i : Nat) :
    r.has i = (e.has i || decide (i ∈ l)) := by
  induction l generalizing e with
  | nil =>
    cases h
    simp
  | cons a l ih =>
    obtain ⟨e1, h1, hrest⟩ := Option.bind_eq_some_iff.mp h
    rw [ih hrest, has_setBit h1]
    by_cases hi : i = a <;> simp [hi]

theorem setBits_isSome {l : List Nat} (h : ∀ i ∈ l, i - i % mapsize + mapsize < 2 ^ 32) (e : Bitmap) :
    ∃ r, l.foldlM (fun e i => e.setBit i true) e = some r := by
  induction l generalizing e with
  | nil => exact ⟨e, rfl⟩
  | cons a l ih =>
    obtain ⟨ha, hl⟩ := forall_mem_cons.mp h
    obtain ⟨e1, h1⟩ := e.setBit_isSome ha true
    obtain ⟨r, hr⟩ := ih hl e1
    exact ⟨r, by rw [foldlM_cons, h1]; exact hr⟩

/-- Bitmaps with the same bits are the same. -/
theorem ext {f : Bitmap} (h : ∀ i, e.has i = f.has i) : e = f := Subtype.ext (e.2.ext f.2 h)

/-- `ebitmap_and` -/
def and (e f : Bitmap) : Option Bitmap :=
  match h : ebitmapAnd e.1 f.1 with
  | some r =>
    some ⟨r, by
      obtain ⟨r', hr', hwf, -⟩ := ebitmapAnd_spec e.2 f.2
      rw [hr'] at h
      cases h
      exact hwf⟩
  | none => none

theorem and_spec (e f : Bitmap) : ∃ r, e.and f = some r ∧ ∀ i, r.has i = (e.has i && f.has i) := by
  obtain ⟨r, hr, hwf, hbits⟩ := ebitmapAnd_spec e.2 f.2
  refine ⟨⟨r, hwf⟩, ?_, ?_⟩
  · unfold and
    split
    next hs =>
      rw [hr] at hs
      cases hs
      rfl
    next hs =>
      rw [hr] at hs
      cases hs
  · intro i
    rw [Bool.eq_iff_iff, Bool.and_eq_true]
    exact hbits i

/-- The loop of `ebitmap_xor` and `ebitmap_not`. -/
def fill (f : Nat → Bool) (length : Nat) : Option Bitmap :=
  (List.range length).foldlM (fun dst i => dst.setBit i (f i)) empty

/-- `ebitmap_xor` -/
def xor (e f : Bitmap) : Option Bitmap := fill (fun i => e.has i ^^ f.has i) (max (ebitmapLength e.1) (ebitmapLength f.1))

/-- `ebitmap_not` -/
def not (e : Bitmap) (maxbit : Nat) : Option Bitmap := fill (fun i => !e.has i) maxbit

theorem fill_spec (f : Nat → Bool) {length : Nat} (hlength : ∀ i < length, i - i % mapsize + mapsize < 2 ^ 32) :
    ∃ r, fill f length = some r ∧ ∀ i, r.has i = (decide (i < length) && f i) := by
  unfold fill
  induction length with
  | zero => exact ⟨empty, rfl, fun i => by simp [has_empty]⟩
  | succ k ih =>
    obtain ⟨e, he, hbits⟩ := ih fun i hi => hlength i (by omega)
    obtain ⟨e', he'⟩ := setBit_isSome e (hlength k (by omega)) (f k)
    refine ⟨e', ?_, ?_⟩
    · rw [range_succ, foldlM_append, he]
      simp [he']
    · intro i
      rw [has_setBit he', hbits]
      by_cases hi : i = k
      · simp [hi]
      · have hlt : i < k + 1 ↔ i < k := by omega
        simp [hi, hlt]

theorem lt_length (h : e.has i = true) : i < ebitmapLength e.1 := (e.2.getBit_lt h).1

theorem xor_spec (e f : Bitmap) : ∃ r, e.xor f = some r ∧ ∀ i, r.has i = (e.has i ^^ f.has i) := by
  have hlength : ∀ i < max (ebitmapLength e.1) (ebitmapLength f.1), i - i % mapsize + mapsize < 2 ^ 32 := by
    intro i hi
    rcases Nat.lt_or_ge i (ebitmapLength e.1) with h | h
    · exact e.2.lt_highbit h
    · exact f.2.lt_highbit (show i < ebitmapLength f.1 by omega)
  obtain ⟨r, hr, hbits⟩ := fill_spec (fun i => e.has i ^^ f.has i) hlength
  refine ⟨r, hr, ?_⟩
  intro i
  rw [hbits]
  rw [Bool.and_eq_right_iff_imp, decide_eq_true_iff]
  intro h
  -- one of the two has the bit
  cases he : e.has i with
  | true => exact Nat.lt_of_lt_of_le (lt_length he) (Nat.le_max_left _ _)
  | false =>
    rw [he, Bool.false_xor] at h
    exact Nat.lt_of_lt_of_le (lt_length h) (Nat.le_max_right _ _)

theorem not_spec (e : Bitmap) {maxbit : Nat} (hmax : maxbit < 2 ^ 31) :
    ∃ r, e.not maxbit = some r ∧ ∀ i, r.has i = (decide (i < maxbit) && !e.has i) := by
  refine fill_spec (fun i => !e.has i) ?_
  simp only [mapsize]
  omega

/-- One map of 64 bits. -/
def word (m : BitVec 64) : Bitmap :=
  if h : m = 0#64 then empty
  else ⟨{ node := [⟨0, m⟩], highbit := mapsize }, ⟨⟨by simp, by simp, by simpa using h, by simp [mapsize]⟩, rfl⟩⟩

end Bitmap

structure TypeSet where
  types : Bitmap := Bitmap.empty
  negset : Bitmap := Bitmap.empty
  flags : BitVec 32 := 0#32
  deriving DecidableEq

def typeStar : BitVec 32 := 1#32
def typeComp : BitVec 32 := 2#32

/-- `data` is a permission set, or the new type of a type rule. -/
structure ClassPermNode where
  tclass : Nat
  data : BitVec 32
  deriving DecidableEq, Repr

def avruleAllowed : BitVec 32 := 0x0001#32
def avruleAuditallow : BitVec 32 := 0x0002#32
def avruleAuditdeny : BitVec 32 := 0x0004#32
def avruleDontaudit : BitVec 32 := 0x0008#32
def avruleNeverallow : BitVec 32 := 0x0080#32
def avruleAv : BitVec 32 := avruleAllowed ||| avruleAuditallow ||| avruleAuditdeny ||| avruleDontaudit ||| avruleNeverallow
def avruleTransition : BitVec 32 := 0x0010#32
def avruleMember : BitVec 32 := 0x0020#32
def avruleChange : BitVec 32 := 0x0040#32
def avruleType : BitVec 32 := avruleTransition ||| avruleMember ||| avruleChange
def avruleXpermsAllowed : BitVec 32 := 0x0100#32
def avruleXpermsAuditallow : BitVec 32 := 0x0200#32
def avruleXpermsDontaudit : BitVec 32 := 0x0400#32
def avruleXpermsNeverallow : BitVec 32 := 0x0800#32
def avruleXperms : BitVec 32 :=
  avruleXpermsAllowed ||| avruleXpermsAuditallow ||| avruleXpermsDontaudit ||| avruleXpermsNeverallow
def ruleSelf : BitVec 32 := 1#32

/-- `xperms` is read only when `specified` has an `AVRULE_XPERMS` bit. -/
structure Avrule where
  specified : BitVec 32
  flags : BitVec 32 := 0#32
  stypes : TypeSet := {}
  ttypes : TypeSet := {}
  perms : List ClassPermNode := []
  xperms : ExtendedPerms := {}
  deriving DecidableEq

/-- One element of a conditional expression in reverse Polish notation. -/
inductive CondExprNode
  | bool (b : Nat)
  | not
  | or
  | and
  | xor
  | eq
  | neq
  deriving DecidableEq, Repr

abbrev CondExpr := List CondExprNode

def condNodeFlagsTunable : BitVec 32 := 0x01#32

/-- A conditional: `avtrueList`/`avfalseList` are the rules of the source policy,
    `trueList`/`falseList` the expanded ones. `curState` is 1, 0 or (`none`) -1. -/
structure CondNode where
  id : Nat
  expr : CondExpr
  curState : Option Bool := some false
  trueList : List Nat := []
  falseList : List Nat := []
  avtrueList : List Avrule := []
  avfalseList : List Avrule := []
  nbools : Nat := 0
  boolIds : List Nat := []
  exprPreComp : BitVec 32 := 0#32
  flags : BitVec 32 := 0#32

inductive TypeFlavor
  | type
  | attrib
  | alias
  deriving DecidableEq, Repr

/-! ## Symbols -/

/-- A C string. -/
abbrev Name := List Char

/-- A symbol table: names, and the array of the primary name of each value. `value` is the
    value of a datum; an array entry is a name of the table with that value. -/
structure Symtab (α : Type) (value : α → Nat) where
  table : List (Name × α) := []
  /-- As long as `nprim`; `none` is NULL. -/
  valToName : List (Option Name) := []
  indexed : ∀ i name, valToName[i]? = some (some name) → ∃ d, table.lookup name = some d ∧ value d = i + 1 := by simp

variable {name : Name} {v : Nat}

namespace Symtab

variable {α : Type} {value : α → Nat} {s : Symtab α value} {d : α}

abbrev empty : Symtab α value := {}

/-- `hashtab_search` -/
def search (s : Symtab α value) (name : Name) : Option α := s.table.lookup name

def nprim (s : Symtab α value) : Nat := s.valToName.length

/-- `val_to_name[v - 1]`; no name for NULL and outside the array. -/
def name? (s : Symtab α value) (v : Nat) : Option Name := if v = 0 then none else s.valToName.getD (v - 1) none

theorem mem_of_search (h : s.search name = some d) : (name, d) ∈ s.table := by
  obtain ⟨l₁, l₂, heq, -⟩ := lookup_eq_some_iff.mp h
  rw [heq]
  exact mem_append_right _ mem_cons_self

theorem getElem?_of_name? (h : s.name? v = some name) :
    v ≠ 0 ∧ s.valToName[v - 1]? = some (some name) := by
  rw [name?, Option.ite_none_left_eq_some, getD_eq_getElem?_getD, Option.getD_eq_iff] at h
  rcases h with ⟨h0, h | ⟨-, h⟩⟩
  · exact ⟨h0, h⟩
  · cases h

theorem exists_of_name? (h : s.name? v = some name) : ∃ d, s.search name = some d ∧ value d = v := by
  obtain ⟨h0, hget⟩ := getElem?_of_name? h
  obtain ⟨d, hd, hv⟩ := s.indexed (v - 1) name hget
  exact ⟨d, hd, by omega⟩

/-- The array names only values that the table has under that name. -/
def indexes (value : α → Nat) (table : List (Name × α)) (valToName : List (Option Name)) : Bool :=
  valToName.zipIdx.all fun e =>
    match e.1 with
    | none => true
    | some name => (table.lookup name).any fun d => value d == e.2 + 1

theorem indexed_of_indexes {table : List (Name × α)} {valToName : List (Option Name)}
    (h : indexes value table valToName = true) (i : Nat) (name : Name) (hi : valToName[i]? = some (some name)) :
    ∃ d, table.lookup name = some d ∧ value d = i + 1 := by
  have hmem : (some name, i) ∈ valToName.zipIdx := mk_mem_zipIdx_iff_getElem?.mpr hi
  have hany := all_eq_true.mp h _ hmem
  obtain ⟨d, hd, hv⟩ := (Option.any_eq_true _ _).mp hany
  exact ⟨d, hd, beq_iff_eq.mp hv⟩

/-- A primary name is found with the value it is the name of. -/
theorem value_of_search (hn : s.name? v = some name) (hs : s.search name = some d) :
    value d = v := by
  obtain ⟨d', hd', hv⟩ := exists_of_name? hn
  rw [hd'] at hs
  cases hs
  exact hv

/-- What `s'` finds under a primary name of `s` has it as its primary name. -/
def KeepsNames (s s' : Symtab α value) : Prop :=
  ∀ v name d, s.name? v = some name → s'.search name = some d → s'.name? (value d) = some name

theorem KeepsNames.refl (s : Symtab α value) : s.KeepsNames s := by
  intro v name d hn hs
  rw [value_of_search hn hs]
  exact hn

/-- A table of one symbol. -/
def single (name : String) (d : α) (h : value d = 1) : Symtab α value where
  table := [(name.toList, d)]
  valToName := [some name.toList]
  indexed := by
    intro i n hi
    cases i with
    | zero =>
      cases hi
      exact ⟨d, by simp [List.lookup], h⟩
    | succ i => cases hi

/-- Values with the same name are the same. -/
theorem name?_inj {w : Nat} (hv : s.name? v = some name) (hw : s.name? w = some name) : v = w := by
  obtain ⟨d, hd, hdv⟩ := exists_of_name? hv
  rw [← hdv]
  exact value_of_search hw hd

end Symtab

structure MlsLevel where
  sens : Nat := 0
  cat : Bitmap := Bitmap.empty
  deriving DecidableEq

structure MlsRange where
  low : MlsLevel := {}
  high : MlsLevel := {}
  deriving DecidableEq

/-- `context_struct_t` -/
structure Context where
  user : Nat
  role : Nat
  type : Nat
  range : MlsRange := {}
  deriving DecidableEq

/-- One element of a constraint in reverse Polish notation. `attr` and `op` are as the
    policy has them: nothing checks them before they are evaluated. -/
inductive ConstraintExpr
  | not
  | and
  | or
  | attr (attr op : BitVec 32)
  | names (attr op : BitVec 32) (names : Bitmap)

def ConstraintExpr.shape : ConstraintExpr → Lib.Rpn.Shape
  | .not => .un
  | .and => .bin
  | .or => .bin
  | .attr .. => .push
  | .names .. => .push

def cexprMaxdepth : Nat := 5

/-- A constraint. `read_cons_helper` accepts an expression only if it leaves one value. -/
structure ConstraintNode where
  permissions : BitVec 32
  expr : List ConstraintExpr
  depth : Lib.Rpn.depth cexprMaxdepth (expr.map ConstraintExpr.shape) 0 = some 1

/-- A permission's value is its number in the access vector; `permNprim` counts those of the
    common too. -/
structure ClassDatum where
  value : Nat
  comdatum : Option (List (Name × Nat)) := none
  permissions : List (Name × Nat) := []
  permNprim : Nat := 0
  constraints : List ConstraintNode := []

/-- `ROLE_ROLE` and `ROLE_ATTRIB` -/
inductive RoleFlavor
  | role
  | attrib
  deriving DecidableEq, Repr

/-- `cache` holds the types of a role, or the roles of a user. `roles` are the members of a
    role attribute. -/
structure RoleDatum where
  value : Nat
  dominates : Bitmap := Bitmap.empty
  cache : Bitmap := Bitmap.empty
  flavor : RoleFlavor := .role
  types : TypeSet := {}
  roles : Bitmap := Bitmap.empty

structure UserDatum where
  value : Nat
  cache : Bitmap := Bitmap.empty
  expRange : MlsRange := {}

structure LevelDatum where
  level : MlsLevel

structure CatDatum where
  value : Nat

structure CondBoolDatum where
  value : Nat
  state : Bool := false
  flags : BitVec 32 := 0#32

structure RoleAllow where
  role : Nat
  newRole : Nat
  deriving DecidableEq, Repr

/-- `types` are the types of an attribute, `bounds` the value of the parent type or 0. -/
structure TypeDatum where
  value : Nat := 0
  flavor : TypeFlavor := .type
  types : Bitmap := Bitmap.empty
  bounds : Nat := 0

/-- The enabled branch of a block of a base policy. -/
structure AvruleDecl where
  enabled : Bool := true
  condList : List CondNode := []
  avrules : List Avrule := []

structure Policydb where
  teAvtab : Avtab := .empty
  teCondAvtab : Avtab := .empty
  condList : List CondNode := []
  /-- `bool_val_to_struct[b - 1]->state` -/
  boolState : Nat → Bool := fun _ => false
  /-- `COND_BOOL_FLAGS_TUNABLE` of `bool_val_to_struct[b - 1]` -/
  boolTunable : Nat → Bool := fun _ => false
  /-- `type_val_to_struct`, as long as `p_types.nprim`; `none` is NULL -/
  typeValToStruct : List (Option TypeDatum) := []
  attrTypeMap : List Bitmap := []
  typeAttrMap : List Bitmap := []
  pClasses : Symtab ClassDatum (·.value) := .empty
  pRoles : Symtab RoleDatum (·.value) := .empty
  pTypes : Symtab TypeDatum (·.value) := .empty
  pUsers : Symtab UserDatum (·.value) := .empty
  pBools : Symtab CondBoolDatum (·.value) := .empty
  pLevels : Symtab LevelDatum (·.level.sens) := .empty
  pCats : Symtab CatDatum (·.value) := .empty
  classValToStruct : List (Option ClassDatum) := []
  roleValToStruct : List (Option RoleDatum) := []
  userValToStruct : List (Option UserDatum) := []
  roleAllow : List RoleAllow := []
  mls : Bool := false
  /-- Base policies: the enabled branch of each block, if there is one. -/
  global : List (Option AvruleDecl) := []
  /-- Kernel policies: the neverallows kept for the checker, `global->branch_list->avrules`. -/
  neverallows : List Avrule := []

/-- An array of bitmaps at a type's value. -/
def bitmapAt (maps : List Bitmap) (value : Nat) : Bitmap :=
  if value = 0 then Bitmap.empty else maps.getD (value - 1) Bitmap.empty

/-- `p->attr_type_map[type - 1]`: the types a rule's source or target covers. -/
def Policydb.attrTypes (p : Policydb) (type : BitVec 16) : Bitmap := bitmapAt p.attrTypeMap type.toNat

/-- An array of data at a value; NULL and the outside of the array give no datum. -/
def datumAt {α : Type} (l : List (Option α)) (value : Nat) : Option α := if value = 0 then none else l.getD (value - 1) none

end SELinux.Db
