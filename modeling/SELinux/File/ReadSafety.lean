/-
  SELinux.File.ReadSafety — the indices that `policydb_read` uses.

  The reader compares the values of the symbols and of the contexts with the sizes of the
  tables before it uses them. It compares with nothing:
  - the ids of the branches, by which `policydb_index_decls` fills its array, and the ids in
    the scopes;
  - the types in the sets of the roles, which `type_set_expand` looks up;
  - the types in the attribute maps of a kernel policy, by which the other map is filled;
  - the sensitivities and categories of the levels themselves, of range transitions, of the
    users of kernel policies and modules, of everything inside the branches, and of contexts in
    policies without MLS;
  - the announced ends of bitmaps with their last maps: a loop over the bits goes on past the last
    map, and takes what it finds there for types (`walked`).

  Proved: `policydbRead_inRange_iff`, of what is accepted all indices are in range and all
  values have slots exactly if these data are consistent (`Consistent`). For the contexts of an
  MLS policy and the levels of a base module's users nothing is needed beyond that but slots for
  the users' sensitivities: they are checked against the levels.
-/
import SELinux.File.Policydb
import SELinux.Lib.Run

namespace SELinux.File

open Lib Lib.Wire Lib.Trace List Option Noted Traced

variable {w : List Access} {s s' : Bytes} {u : Unit} {l : MlsLevel} {i : Nat} {lev : LevelDatum} {c : Ocontext}
  {t t' : Db.Ebitmap} {past : Past} {v n : U32}

/-! ## Levels and ids of a policy -/

def Symtab.data {size : Nat} {α : Type} (s : Symtab size α) : List α := s.table.entries.map (·.2)

def UserDatum.levels (u : UserDatum) : List MlsLevel := [u.expRange.low, u.expRange.high, u.expDfltlevel]

def UserDatum.semanticLevels (u : UserDatum) : List SemanticLevel := [u.range.low, u.range.high, u.dfltlevel]

def Context.levels (c : Context) : List MlsLevel := [c.range.low, c.range.high]

def levelData {sizes : Nat → Nat} (syms : Symtabs sizes) : List MlsLevel := syms.levels.data.map (·.level)

def userLevels {sizes : Nat → Nat} (syms : Symtabs sizes) : List MlsLevel := syms.users.data.flatMap UserDatum.levels

def semanticLevels {sizes : Nat → Nat} (syms : Symtabs sizes) : List SemanticLevel :=
  syms.users.data.flatMap UserDatum.semanticLevels

def declIds (global : List AvruleBlock) : List U32 := (declsOf global).map (·.declId)

def scopeIds {size : Nat} (t : ScopeTable size) : List U32 := t.entries.flatMap (·.2.declIds)

def Scopes.declIds (s : Scopes) : List U32 :=
  scopeIds s.commons ++ scopeIds s.classes ++ scopeIds s.roles ++ scopeIds s.types ++ scopeIds s.users ++ scopeIds s.bools ++
    scopeIds s.levels ++ scopeIds s.cats

namespace Policydb

variable (p : Policydb)

def contexts : List Context :=
  p.ocontexts.flatten.flatMap (fun c => c.context0 :: c.context1.toList) ++ p.genfs.flatMap fun g => g.head.map (·.context)

def contextLevels : List MlsLevel := p.contexts.flatMap Context.levels

def rangeLevels : List MlsLevel := p.rangeTr.flatMap fun t => [t.targetRange.low, t.targetRange.high]

def declLevels : List MlsLevel := (declsOf p.global).flatMap fun d => levelData d.symtab ++ userLevels d.symtab

/-- All levels in expanded form. -/
def levels : List MlsLevel := levelData p.symtab ++ p.rangeLevels ++ p.declLevels ++ userLevels p.symtab ++ p.contextLevels

/-- The levels that the reader does not check against those of the table. -/
def uncheckedLevels : List MlsLevel :=
  levelData p.symtab ++ p.rangeLevels ++ p.declLevels ++ (if p.header.policyType = .base then [] else userLevels p.symtab) ++
    (if p.header.mls then [] else p.contextLevels)

def declSemanticLevels : List SemanticLevel :=
  (declsOf p.global).flatMap fun d => File.semanticLevels d.symtab ++ d.rangeTrRules.flatMap fun r =>
    [r.trange.low, r.trange.high]

def semanticLevels : List SemanticLevel := File.semanticLevels p.symtab ++ p.declSemanticLevels

/-- The semantic levels whose categories the reader does not check; it expands those of an MLS base
    module's users that have a sensitivity. -/
def uncheckedSemanticLevels : List SemanticLevel :=
  (if p.header.policyType = .base ∧ p.header.mls = true then (File.semanticLevels p.symtab).filter (·.sens = 0#32)
    else File.semanticLevels p.symtab) ++ p.declSemanticLevels

end Policydb

/-- The array of the sensitivities has a slot. A sensitivity of 0 is none, which is not for the
    levels of an MLS kernel policy. -/
def SensSlot (h : Header) (syms : Symtabs symtabSizes) (sens : U32) : Prop :=
  sens ≤ syms.levels.nprim ∧ (isKern h = true ∧ h.mls = true → sens ≠ 0#32)

def MlsLevel.HasSlots (h : Header) (syms : Symtabs symtabSizes) (l : MlsLevel) : Prop :=
  SensSlot h syms l.sens ∧ ∀ i ∈ Db.ebitmapBits l.cat.1, i < syms.cats.nprim.toNat

def SemanticLevel.CatSlots (syms : Symtabs symtabSizes) (l : SemanticLevel) : Prop :=
  ∀ i ∈ l.cat.flatMap SemanticCat.bits, i < syms.cats.nprim.toNat

/-- The bits that a loop over a bitmap of the file meets. -/
def walked (past : Past) (e : FileBitmap) : List Nat := (Db.ebitmapWalkBits past.bit e.1).getD []

/-- The types of a set are below the number of types. -/
def TypeSet.Below (past : Past) (set : TypeSet) (nprim : Nat) : Prop :=
  (∀ i ∈ walked past set.types, i < nprim) ∧ ∀ i ∈ walked past set.negset, i < nprim

/-- A policy that was read with the indices `w`: all are in range, and the values in the tables
    have slots. -/
structure ReadInRange (p : Policydb) (w : List Access) : Prop where
  accesses : All Access.InRange w
  attributes : ∀ e ∈ p.typeAttrMap, ∀ i ∈ Db.ebitmapBits e, i < p.symtab.types.nprim.toNat
  scopes : ∀ id ∈ p.scope.declIds, id ∈ declIds p.global
  levels : ∀ l ∈ p.levels, l.HasSlots p.header p.symtab
  semantic : ∀ l ∈ p.semanticLevels, l.sens ≤ p.symtab.levels.nprim ∧ l.CatSlots p.symtab

/-- What the reader takes from the file without a check, in range. -/
@[mk_iff]
structure Consistent (past : Past) (p : Policydb) : Prop where
  decls : ∀ id ∈ declIds p.global, (id - 1#32).toNat < (declIds p.global).length
  roles : ∀ r ∈ p.symtab.roles.data, r.types.Below past p.symtab.types.nprim.toNat
  attributes : ∀ e ∈ p.typeAttrsRead, ∀ i ∈ walked past e, i < p.symtab.types.nprim.toNat
  scopes : ∀ id ∈ p.scope.declIds, id ∈ declIds p.global
  levels : ∀ l ∈ p.uncheckedLevels, l.HasSlots p.header p.symtab
  sens : ∀ l ∈ p.semanticLevels, l.sens ≤ p.symtab.levels.nprim
  cats : ∀ l ∈ p.uncheckedSemanticLevels, l.CatSlots p.symtab

instance (h : Header) (syms : Symtabs symtabSizes) (l : MlsLevel) : Decidable (l.HasSlots h syms) :=
  inferInstanceAs (Decidable ((_ ∧ _) ∧ _))

instance (syms : Symtabs symtabSizes) (l : SemanticLevel) : Decidable (l.CatSlots syms) :=
  inferInstanceAs (Decidable (∀ i ∈ _, _))

instance (past : Past) (set : TypeSet) (nprim : Nat) : Decidable (set.Below past nprim) :=
  inferInstanceAs (Decidable (_ ∧ _))

instance (past : Past) (p : Policydb) : Decidable (Consistent past p) :=
  -- over the lists, not over all numbers
  have := decidableBAll (fun id => (id - 1#32).toNat < (declIds p.global).length) (declIds p.global)
  have := decidableBAll (· ∈ declIds p.global) p.scope.declIds
  decidable_of_iff' _ (consistent_iff past p)

/-- All indices are in range exactly if `C`. -/
abbrev InRangeIf {α : Type} (m : Noted Access α) (C : Prop) : Prop := Meets Access.InRange m C fun _ => True

theorem inRangeIf_note (arr : Arr) (i size : Nat) : InRangeIf (Noted.note ⟨arr, i, size⟩) (i < size) := meets_note _

theorem inRangeIf_give {α : Type} (o : Option α) : InRangeIf (Noted.give o) True :=
  (meets_give o).imp Iff.rfl fun _ _ => trivial

/-! ## Slots of values -/

theorem index_lt_iff (hv : v ≠ 0#32) : (v - 1#32).toNat < n.toNat ↔ v ≤ n := by
  bv_omega

theorem valueOk_iff : valueOk v n = true ↔ v ≠ 0#32 ∧ v ≤ n := by
  rw [valueOk, Bool.and_eq_true, bne_iff_ne, decide_eq_true_iff]

theorem valueOk_lt (h : valueOk v n = true) : (v - 1#32).toNat < n.toNat := by
  obtain ⟨hv, hle⟩ := valueOk_iff.mp h
  exact (index_lt_iff hv).mpr hle

theorem indexEntry_inRange {α : Type} (arrs : List Arr) (nprim : U32) (keep : α → Bool) (value : α → U32) (d : α) :
    InRangeIf (indexEntry arrs nprim keep value d) True := by
  refine meets_ite (fun _ => (meets_check _).andThen fun _ hok => ?_) fun _ => meets_pure trivial
  have hlt : (value d - 1#32).toNat < nprim.toNat := valueOk_lt hok
  exact meets_foldlM_good (fun _ arr _ => (inRangeIf_note arr _ _).good hlt) ()

section Tables

variable {size : Nat} {α : Type}

theorem mapTable_inRange {t : SymTable size α} {f : α → Noted Access Unit} (step : ∀ d, InRangeIf (f d) True) :
    InRangeIf (mapTable t f) True :=
  meets_foldlM_good (fun _ e _ => step e.2) ()

theorem mapSymtab_inRange {s : Symtab size α} {f : α → Noted Access Unit} (step : ∀ d, InRangeIf (f d) True) :
    InRangeIf (mapSymtab s f) True :=
  meets_ite (fun _ => meets_pure trivial) fun _ => mapTable_inRange step

theorem forall_data {s : Symtab size α} {C : α → Prop} : (∀ a ∈ s.data, C a) ↔ ∀ e ∈ s.table.entries, C e.2 :=
  List.forall_mem_map

end Tables

theorem policydbIndexDecls_inRange (global : List AvruleBlock) :
    InRangeIf (policydbIndexDecls global) (∀ id ∈ declIds global, (id - 1#32).toNat < (declIds global).length) := by
  have hlen : (declIds global).length = (declsOf global).length := length_map _
  rw [hlen, declIds, List.forall_mem_map]
  refine meets_foldlM (fun _ _ d _ => ?_) trivial
  exact inRangeIf_note _ _ _

theorem policydbIndexClasses_inRange (syms : Symtabs symtabSizes) : InRangeIf (policydbIndexClasses syms) True :=
  (mapTable_inRange fun _ => indexEntry_inRange _ _ _ _ _).andThen fun _ _ => mapTable_inRange fun _ =>
    indexEntry_inRange _ _ _ _ _

/-! ## Type sets of roles -/

section Types

variable (past : Past) (types : Symtab (symtabSizes 3) TypeDatum)

theorem typeStruct_inRange (i : Nat) : InRangeIf (typeStruct past types i) (i < types.nprim.toNat) :=
  (inRangeIf_note _ i _).before fun _ _ => meets_ite (fun _ => meets_pure trivial) fun _ => meets_pure trivial

theorem expandTypes_inRange (t : Db.Ebitmap) (i : Nat) : InRangeIf (expandTypes past types t i) (i < types.nprim.toNat) :=
  (typeStruct_inRange past types i).before fun _ _ => (meets_give _).andThen fun _ _ =>
    meets_ite (fun _ => meets_pure trivial) fun _ => inRangeIf_give _

theorem expandNegset_inRange (t : Db.Ebitmap) (i : Nat) :
    InRangeIf (expandNegset past types t i) (i < types.nprim.toNat) := by
  refine (typeStruct_inRange past types i).before fun d _ => ?_
  cases d with
  | none => exact inRangeIf_give _
  | some d => exact meets_ite (fun _ => meets_pure trivial) fun _ => inRangeIf_give _

theorem starType_inRange (neg t : Db.Ebitmap) {i : Nat} (hi : i < types.nprim.toNat) :
    InRangeIf (starType past types neg t i) True :=
  meets_ite (fun _ => meets_pure trivial) fun _ => ((typeStruct_inRange past types i).good hi).andThen fun _ _ =>
    meets_ite (fun _ => meets_pure trivial) fun _ => inRangeIf_give _

theorem compType_inRange (t : Db.Ebitmap) {i : Nat} (hi : i < types.nprim.toNat) :
    InRangeIf (compType past types t i) True :=
  ((typeStruct_inRange past types i).good hi).andThen fun _ _ =>
    meets_ite (fun _ => (meets_check _).andThen fun _ _ => meets_pure trivial) fun _ => inRangeIf_give _

theorem walked_of_walk {e : FileBitmap} {bits : List Nat} (h : Db.ebitmapWalkBits past.bit e.1 = some bits) :
    bits = walked past e := by
  rw [walked, h, getD_some]

/-- Of an expansion only the types in the set and in its complement may be out of range. -/
theorem typeSetExpand_inRange (set : TypeSet) :
    InRangeIf (typeSetExpand past types set) (set.Below past types.nprim.toNat) := by
  refine (meets_give _).andThen fun bits hbits => ?_
  obtain rfl := walked_of_walk past hbits
  refine (meets_foldlM (fun t _ i _ => expandTypes_inRange past types t i) trivial).bind fun ts _ => ?_
  refine (meets_give _).andThen fun negbits hnegbits => ?_
  obtain rfl := walked_of_walk past hnegbits
  refine (meets_foldlM (fun t _ i _ => expandNegset_inRange past types t i) trivial).before fun neg _ => ?_
  refine meets_ite (fun _ => ?_) fun _ => (meets_give _).andThen fun _ _ => (meets_give _).andThen fun t _ =>
    meets_ite (fun _ => ?_) fun _ => meets_pure trivial
  · exact meets_foldlM_good (fun t i hi => starType_inRange past types neg t (mem_range.mp hi)) _
  · exact meets_foldlM_good (fun t i hi => compType_inRange past types t (mem_range.mp hi)) t

end Types

theorem policydbRoleCache_inRange (past : Past) (syms : Symtabs symtabSizes) (role : RoleDatum) :
    InRangeIf (policydbRoleCache past syms role) (role.types.Below past syms.types.nprim.toNat) :=
  (typeSetExpand_inRange past syms.types role.types).before fun _ _ => meets_pure trivial

/-! ## Levels of users -/

theorem MlsLevel.hasSlots_empty {h : Header} (hh : isKern h = false) (syms : Symtabs symtabSizes) :
    MlsLevel.HasSlots h syms {} :=
  ⟨⟨Nat.zero_le _, fun hkern => absurd hkern.1 (by simp [hh])⟩, forall_mem_nil _⟩

theorem levelOf_spec (past : Past) (levels : Symtab (symtabSizes 6) LevelDatum) {sens : U32} (hsens : sens ≠ 0#32) :
    Meets Access.InRange (levelOf past levels sens) (sens ≤ levels.nprim) (· ∈ levels.data) := by
  have hname : InRangeIf (sensName past levels sens) (sens ≤ levels.nprim) :=
    ((inRangeIf_note _ _ _).imp (index_lt_iff hsens) fun _ => id).before fun _ _ =>
      meets_ite (fun _ => inRangeIf_give _) fun _ => inRangeIf_give _
  refine hname.before fun name _ => (meets_give _).imp Iff.rfl fun lev hlev => ?_
  exact mem_map.mpr ⟨_, Table.mem_of_search hlev, rfl⟩

theorem addCat_mem {cat cat' : Db.Bitmap} (h : addCat lev cat i = some cat') : i ∈ Db.ebitmapBits lev.level.cat.1 := by
  unfold addCat at h
  split_ifs at h with hget
  exact lev.level.cat.2.mem_bits_of_getBit hget

theorem mem_of_addCats {cat cat' : Db.Bitmap} {c : SemanticCat} (h : addCats lev cat c = some cat') :
    (∀ j ∈ c.bits, j ∈ Db.ebitmapBits lev.level.cat.1) ∧ ∀ j ∈ cat'.bits, j ∈ c.bits ∨ j ∈ cat.bits := by
  unfold addCats at h
  split at h
  · cases h
  refine Run.foldlM_history (P := fun done (cat' : Db.Bitmap) =>
    (∀ j ∈ done, j ∈ Db.ebitmapBits lev.level.cat.1) ∧ ∀ j ∈ cat'.bits, j ∈ done ∨ j ∈ cat.bits) ?_
    ⟨forall_mem_nil _, fun _ => Or.inr⟩ h
  intro done a s s' _ hs hstep
  refine ⟨forall_mem_append.mpr ⟨hs.1, forall_mem_singleton.mpr (addCat_mem hstep)⟩, ?_⟩
  unfold addCat at hstep
  split_ifs at hstep
  intro j hj
  rw [Db.Bitmap.mem_bits, Db.Bitmap.has_setBit hstep] at hj
  split at hj
  next heq => exact Or.inl (by simp [heq])
  · exact (hs.2 j (Db.Bitmap.mem_bits.mpr hj)).imp_left (mem_append_left _)

theorem mem_of_foldlM_addCats {cats : List SemanticCat} {cat : Db.Bitmap}
    (h : cats.foldlM (addCats lev) Db.Bitmap.empty = some cat) :
    (∀ j ∈ cats.flatMap SemanticCat.bits, j ∈ Db.ebitmapBits lev.level.cat.1) ∧
      ∀ j ∈ cat.bits, j ∈ cats.flatMap SemanticCat.bits := by
  refine Run.foldlM_history (P := fun done (cat : Db.Bitmap) =>
    (∀ j ∈ done.flatMap SemanticCat.bits, j ∈ Db.ebitmapBits lev.level.cat.1) ∧
      ∀ j ∈ cat.bits, j ∈ done.flatMap SemanticCat.bits) ?_ ⟨forall_mem_nil _, forall_mem_nil _⟩ h
  intro done a s s' _ hs hstep
  obtain ⟨hmem, hback⟩ := mem_of_addCats hstep
  simp only [flatMap_append, flatMap_singleton]
  refine ⟨forall_mem_append.mpr ⟨hs.1, hmem⟩, ?_⟩
  intro j hj
  rcases hback j hj with hj | hj
  · exact mem_append_right _ hj
  · exact mem_append_left _ (hs.2 j hj)

/-- A level is expanded by its sensitivity, which has all its categories. -/
theorem mlsSemanticLevelExpand_spec (past : Past) (levels : Symtab (symtabSizes 6) LevelDatum) (mls : Bool)
    (sl : SemanticLevel) :
    Meets Access.InRange (mlsSemanticLevelExpand past levels mls sl) (mls = true → sl.sens ≤ levels.nprim) fun l =>
      l = {} ∧ (mls = true → sl.sens = 0#32) ∨ l.sens = sl.sens ∧ ∃ lev ∈ levels.data,
        (∀ i ∈ sl.cat.flatMap SemanticCat.bits, i ∈ Db.ebitmapBits lev.level.cat.1) ∧
          ∀ i ∈ Db.ebitmapBits l.cat.1, i ∈ sl.cat.flatMap SemanticCat.bits := by
  refine meets_ite (fun hmls => ?_) fun hmls => meets_ite (fun hsens => ?_) fun hsens => ?_
  · have hno : ¬mls = true := by simpa using hmls
    exact meets_pure_of (fun hm => absurd hm hno) (Or.inl ⟨rfl, fun hm => absurd hm hno⟩)
  · refine meets_pure_of (fun _ => ?_) (Or.inl ⟨rfl, fun _ => hsens⟩)
    rw [hsens]
    exact Nat.zero_le _
  · have hiff : sl.sens ≤ levels.nprim ↔ (mls = true → sl.sens ≤ levels.nprim) :=
      ⟨fun h _ => h, fun h => h (by simpa using hmls)⟩
    refine ((levelOf_spec past levels hsens).imp hiff fun _ => id).before fun lev hlev =>
      (meets_give _).andThen fun cat hcat => ?_
    exact meets_pure (Or.inr ⟨rfl, lev, hlev, mem_of_foldlM_addCats hcat⟩)

section Users

variable {past : Past} {h : Header} {syms : Symtabs symtabSizes}

/-- The levels of the table have slots. -/
def LevelsHaveSlots (h : Header) (syms : Symtabs symtabSizes) : Prop := ∀ l ∈ levelData syms, l.HasSlots h syms

theorem LevelsHaveSlots.cats (hslots : LevelsHaveSlots h syms) (hlev : lev ∈ syms.levels.data) :
    ∀ i ∈ Db.ebitmapBits lev.level.cat.1, i < syms.cats.nprim.toNat := (hslots lev.level (mem_map_of_mem hlev)).2

/-- What the expansion of a semantic level shows: if its sensitivity has a slot, the level has slots,
    and so have its categories unless it has no sensitivity. -/
structure Expanded (h : Header) (syms : Symtabs symtabSizes) (sl : SemanticLevel) (l : MlsLevel) : Prop where
  level : LevelsHaveSlots h syms → sl.sens ≤ syms.levels.nprim → l.HasSlots h syms
  cats : LevelsHaveSlots h syms → h.mls = true → sl.sens ≠ 0#32 → sl.CatSlots syms

theorem expanded_spec (past : Past) (syms : Symtabs symtabSizes) (hbase : isKern h = false) (sl : SemanticLevel) :
    Meets Access.InRange (mlsSemanticLevelExpand past syms.levels h.mls sl) (h.mls = true → sl.sens ≤ syms.levels.nprim)
      (Expanded h syms sl) := by
  refine (mlsSemanticLevelExpand_spec past syms.levels h.mls sl).imp Iff.rfl ?_
  intro l hl
  rcases hl with ⟨rfl, hzero⟩ | ⟨heq, lev, hlev, hmem, hback⟩
  · exact ⟨fun _ _ => MlsLevel.hasSlots_empty hbase syms, fun _ hmls hsens => absurd (hzero hmls) hsens⟩
  · refine ⟨fun hslots hsens => ⟨⟨heq ▸ hsens, fun hkern => absurd hkern.1 (by simp [hbase])⟩, ?_⟩, ?_⟩
    · exact fun i hi => hslots.cats hlev i (hmem i (hback i hi))
    · exact fun hslots _ _ i hi => hslots.cats hlev i (hmem i hi)

/-- The semantic levels of a user and those they were expanded to. -/
def UserExpanded (h : Header) (syms : Symtabs symtabSizes) (user : UserDatum) : Prop :=
  Expanded h syms user.range.low user.expRange.low ∧ Expanded h syms user.range.high user.expRange.high ∧
    Expanded h syms user.dfltlevel user.expDfltlevel

theorem isKern_of_base (hbase : h.policyType = .base) : isKern h = false := by
  rw [isKern, hbase]
  rfl

/-- The sensitivities of a user of a base module are looked up as they stand in the file. -/
theorem cachedUser_spec (past : Past) (h : Header) (syms : Symtabs symtabSizes) (user : UserDatum) :
    Meets Access.InRange (cachedUser past h syms user)
      (h.policyType = .base → h.mls = true → ∀ sl ∈ user.semanticLevels, sl.sens ≤ syms.levels.nprim) fun user' =>
      user'.semanticLevels = user.semanticLevels ∧ (h.policyType = .base → UserExpanded h syms user') := by
  refine meets_ite (fun hbase => ?_) fun hbase => meets_pure_of (fun hb => absurd hb hbase) ⟨rfl, fun hb => absurd hb hbase⟩
  have hexpand := expanded_spec past syms (isKern_of_base hbase)
  have hrange : Meets Access.InRange (mlsSemanticRangeExpand past syms.levels h.mls user.range)
      ((h.mls = true → user.range.low.sens ≤ syms.levels.nprim) ∧
        (h.mls = true → user.range.high.sens ≤ syms.levels.nprim)) fun r =>
        Expanded h syms user.range.low r.low ∧ Expanded h syms user.range.high r.high :=
    (hexpand _).bind fun low hlow => (hexpand _).before fun high hhigh => (meets_check _).andThen fun _ _ =>
      meets_pure ⟨hlow, hhigh⟩
  refine (hrange.bind fun range hr => (hexpand user.dfltlevel).before fun dflt hd => meets_pure ?_).imp ?_ fun _ => id
  · exact ⟨rfl, fun _ => ⟨hr.1, hr.2, hd⟩⟩
  · simp only [UserDatum.semanticLevels, forall_mem_cons]
    grind

end Users

/-! ## The number of roles

A user with all roles sets `p_roles.nprim` to 1, whatever it was: the bound of the loop grows
until it wraps. -/

variable {nprim : U32}

theorem starRoles_nprim {fuel : Nat} {i n : U32} {r r' : Db.Ebitmap} (hlt : i < nprim)
    (h : starRoles fuel i nprim r = some (r', n)) : n = 1#32 := by
  induction fuel generalizing i nprim r with
  | zero => cases h
  | succ fuel ih =>
    rw [starRoles, if_pos hlt] at h
    obtain ⟨r1, -, h⟩ := bind_eq_some_iff.mp h
    by_cases hnext : i + 1#32 < nprim + 1#32
    · exact ih hnext h
    · -- the bound has wrapped
      have hzero : nprim + 1#32 = 0#32 := by bv_omega
      cases fuel with
      | zero => cases h
      | succ fuel =>
        rw [starRoles, if_neg hnext] at h
        cases h
        rw [hzero]
        rfl

theorem roleSetExpand_nprim {past : Db.PastMap} {n : U32} {x : RoleSet} {r : Db.Ebitmap}
    (h : roleSetExpand past nprim x = some (r, n)) : n = nprim ∨ n = 1#32 := by
  unfold roleSetExpand at h
  split at h
  · by_cases hlt : 0#32 < nprim
    · exact Or.inr (starRoles_nprim hlt h)
    · have hzero : nprim = 0#32 := by bv_omega
      rw [allRounds, starRoles, if_neg hlt] at h
      cases h
      exact Or.inr (by rw [hzero]; rfl)
  · obtain ⟨bits, -, h⟩ := bind_eq_some_iff.mp h
    obtain ⟨r1, -, h⟩ := bind_eq_some_iff.mp h
    obtain ⟨r2, -, h⟩ := bind_eq_some_iff.mp h
    cases h
    exact Or.inl rfl

/-! ## The arrays -/

section Index

variable {past : Past} {h : Header} {syms : Symtabs symtabSizes}

theorem policydbUserCache_spec (past : Past) (h : Header) (syms : Symtabs symtabSizes) (nprim : U32) (user : UserDatum) :
    Meets Access.InRange (policydbUserCache past h syms nprim user)
      (h.policyType = .base → h.mls = true → ∀ sl ∈ user.semanticLevels, sl.sens ≤ syms.levels.nprim) fun n =>
        n = nprim ∨ n = 1#32 :=
  (meets_give _).andThen fun _ hr => (cachedUser_spec past h syms user).before fun _ _ => meets_pure (roleSetExpand_nprim hr)

theorem policydbUserCache_cached {n : U32} {user : UserDatum}
    (hu : Noted.Gives (policydbUserCache past h syms nprim user) n w) :
    ∃ user' w', Noted.Gives (cachedUser past h syms user) user' w' := by
  obtain ⟨r, w1, w2, -, hu, -⟩ := bind_iff.mp hu
  obtain ⟨user', w3, w4, huser, -, -⟩ := bind_iff.mp hu
  exact ⟨user', w3, huser⟩

/-- What the arrays need of the users. -/
def SensLooked (h : Header) (syms : Symtabs symtabSizes) : Prop :=
  h.policyType = .base → h.mls = true → ∀ sl ∈ semanticLevels syms, sl.sens ≤ syms.levels.nprim

/-- The tables afterwards: another number of roles, and the users with their caches. -/
structure Indexed (past : Past) (h : Header) (syms syms' : Symtabs symtabSizes) : Prop where
  nprim : syms'.roles.nprim = syms.roles.nprim ∨ syms'.roles.nprim = 1#32
  roles : syms'.roles.table = syms.roles.table
  types : syms'.types = syms.types
  levels : syms'.levels = syms.levels
  cats : syms'.cats = syms.cats
  users : ∃ cached : UserDatum → UserDatum, syms'.users.data = syms.users.data.map cached ∧
    ∀ u ∈ syms.users.data, ∃ w, Noted.Gives (cachedUser past h syms u) (cached u) w

theorem policydbIndexOthers_spec (past : Past) (h : Header) (syms : Symtabs symtabSizes) :
    Meets Access.InRange (policydbIndexOthers past h syms)
      ((∀ r ∈ syms.roles.data, r.types.Below past syms.types.nprim.toNat) ∧ SensLooked h syms) (Indexed past h syms) := by
  have hindex {α : Type} {size : Nat} (s : Symtab size α) (arrs : List Arr) (keep : α → Bool) (value : α → U32) :
      InRangeIf (mapSymtab s (indexEntry arrs s.nprim keep value)) True :=
    mapSymtab_inRange fun d => indexEntry_inRange arrs s.nprim keep value d
  have husers : Meets Access.InRange
    (syms.users.table.entries.foldlM (fun n e => policydbUserCache past h syms n e.2) syms.roles.nprim) _
      fun n => n = syms.roles.nprim ∨ n = 1#32 := meets_foldlM (fun n hn (e : Key × UserDatum) _ =>
    (policydbUserCache_spec past h syms n e.2).imp Iff.rfl fun n' hn' => hn'.elim (· ▸ hn) Or.inr) (Or.inl rfl)
  refine (hindex _ _ _ _).andThen fun _ _ => (hindex _ _ _ _).andThen fun _ _ => (hindex _ _ _ _).andThen fun _ _ =>
    (hindex _ _ _ _).andThen fun _ _ => (hindex _ _ _ _).andThen fun _ _ => (hindex _ _ _ _).andThen fun _ _ => ?_
  refine ((meets_foldlM (fun _ _ (e : Key × RoleDatum) _ => policydbRoleCache_inRange past syms e.2) trivial).bind fun _ _ =>
    husers.gives.before fun nprim hnprim => meets_pure ?_).imp ?_ fun _ => id
  · obtain ⟨hcount, w, hgives⟩ := hnprim
    refine ⟨hcount, rfl, rfl, rfl, rfl, fun u => ((cachedUser past h syms u).run.map (·.1)).getD u, ?_, ?_⟩
    · simp only [Symtab.data, Table.map, List.map_map]
      rfl
    · rw [forall_data]
      intro e he
      obtain ⟨n, n', w, hw⟩ := foldlM_gives hgives e he
      obtain ⟨user', w', huser⟩ := policydbUserCache_cached hw
      refine ⟨w', ?_⟩
      beta_reduce
      rw [huser.result]
      exact huser
  · rw [SensLooked, semanticLevels, forall_mem_flatMap, forall_data, forall_data]
    exact and_congr_right fun _ => ⟨fun hu hb hm e he => hu e he hb hm, fun hu e he hb hm => hu hb hm e he⟩

end Index

theorem indexPolicydb_spec (past : Past) (p : Policydb) : Meets Access.InRange (indexPolicydb past p)
    ((∀ id ∈ declIds p.global, (id - 1#32).toNat < (declIds p.global).length) ∧
      (∀ r ∈ p.symtab.roles.data, r.types.Below past p.symtab.types.nprim.toNat) ∧ SensLooked p.header p.symtab)
    fun q => ∃ symtab, q = { p with symtab } ∧ Indexed past p.header p.symtab symtab := by
  refine (policydbIndexDecls_inRange p.global).bind fun _ _ => (policydbIndexClasses_inRange p.symtab).andThen fun _ _ => ?_
  exact (policydbIndexOthers_spec past p.header p.symtab).before fun symtab hindexed => meets_pure ⟨symtab, rfl, hindexed⟩

/-! ## Contexts -/

section Contexts

variable {past : Past} {p : Policydb}

/-- A level of a context is checked against the level of its sensitivity. -/
theorem mlsLevelIsvalid_spec (past : Past) (p : Policydb) (l : MlsLevel) :
    Meets Access.InRange (mlsLevelIsvalid past p l) True fun _ =>
      LevelsHaveSlots p.header p.symtab → l.HasSlots p.header p.symtab := by
  refine (meets_check _).andThen fun _ hok => ?_
  obtain ⟨hsens, hle⟩ := valueOk_iff.mp hok
  refine ((levelOf_spec past p.symtab.levels hsens).good hle).andThen fun lev hlev =>
    (meets_give _).andThen fun bits hbits => ?_
  refine (meets_check _).imp Iff.rfl fun _ hcats hslots => ⟨⟨hle, fun _ => hsens⟩, fun i hi => ?_⟩
  have hbit := all_eq_true.mp hcats i (Db.mem_walkBits l.cat.2.apart l.cat.2.nodesEnd_le hbits hi)
  exact hslots.cats hlev i (lev.level.cat.2.mem_bits_of_getBit (Bool.and_eq_true _ _ ▸ hbit).2)

theorem userStruct_inRange (p : Policydb) {user : U32} (hok : valueOk user p.symtab.users.nprim = true) :
    InRangeIf (userStruct p user) True :=
  ((inRangeIf_note _ _ _).good (valueOk_lt hok)).andThen fun _ _ => inRangeIf_give _

/-- The levels of a valid context have slots, if those of the table have. -/
def ContextChecked (p : Policydb) (c : Context) : Prop :=
  p.header.mls = true → LevelsHaveSlots p.header p.symtab → ∀ l ∈ c.levels, l.HasSlots p.header p.symtab

theorem mlsContextIsvalid_spec (past : Past) (p : Policydb) (c : Context) :
    Meets Access.InRange (mlsContextIsvalid past p c) True fun _ => ContextChecked p c := by
  refine meets_ite (fun hmls => meets_pure fun hm => absurd hm (by simpa using hmls)) fun _ =>
    (meets_check _).andThen fun _ _ => ?_
  refine (mlsLevelIsvalid_spec past p c.range.low).andThen fun _ hlow =>
    (mlsLevelIsvalid_spec past p c.range.high).andThen fun _ hhigh => ?_
  have hchecked : ContextChecked p c := fun _ hslots =>
    forall_mem_cons.mpr ⟨hlow hslots, forall_mem_singleton.mpr (hhigh hslots)⟩
  exact meets_ite (fun _ => meets_pure hchecked) fun _ => (meets_check _).andThen fun _ hok =>
    (userStruct_inRange p hok).andThen fun _ _ => (meets_check _).imp Iff.rfl fun _ _ => hchecked

/-- The array of the roles is as long as `p_roles.nprim` was before the users were cached. -/
def RolesCounted (p : Policydb) : Prop := p.symtab.roles.nprim = p.roleSlots ∨ p.symtab.roles.nprim = 1#32

/-- Roles but `object_r` are looked up, and with a count of 1 there is none. -/
theorem rolesAuthorized_inRange (hcount : RolesCounted p) {c : Context} (hrole : valueOk c.role p.symtab.roles.nprim = true)
    (huser : valueOk c.user p.symtab.users.nprim = true) : InRangeIf (rolesAuthorized past p c) True := by
  refine meets_ite (fun _ => meets_pure trivial) fun hobject => ?_
  have hslot : (c.role - 1#32).toNat < p.roleSlots.toNat := by
    rcases hcount with heq | hone
    · exact heq ▸ valueOk_lt hrole
    · obtain ⟨hne, hle⟩ := valueOk_iff.mp hrole
      have : c.role = objectRVal := by rw [objectRVal]; bv_omega
      exact absurd this hobject
  have hstruct : InRangeIf (roleStruct p c.role) True :=
    ((inRangeIf_note _ _ _).good hslot).andThen fun _ _ => inRangeIf_give _
  exact hstruct.andThen fun _ _ => (meets_check _).andThen fun _ _ => (userStruct_inRange p huser).andThen fun _ _ =>
    (meets_check _).imp Iff.rfl fun _ _ => trivial

theorem contextIsValid_spec (hcount : RolesCounted p) (c : Context) :
    Meets Access.InRange (contextIsValid past p c) True fun _ => ContextChecked p c :=
  (meets_check _).andThen fun _ hrole => (meets_check _).andThen fun _ huser => (meets_check _).andThen fun _ _ =>
    (rolesAuthorized_inRange hcount hrole huser).andThen fun _ _ => mlsContextIsvalid_spec past p c

theorem contextReadAndValidate_spec (hcount : RolesCounted p) :
    Good Access.InRange (contextReadAndValidate past p) (ContextChecked p) :=
  (good_read _).bind fun c _ => (good_run (contextIsValid_spec hcount c)).bind fun _ hc => good_pure hc

def OcontextChecked (p : Policydb) (c : Ocontext) : Prop := ∀ d ∈ c.context0 :: c.context1.toList, ContextChecked p d

theorem readOcontext_spec (hcount : RolesCounted p) (key : Reader OcontextKey) :
    Good Access.InRange (readOcontext past p key) (OcontextChecked p) :=
  (good_read key).bind fun _ _ => (contextReadAndValidate_spec hcount).bind fun _ hc =>
    good_pure (forall_mem_singleton.mpr hc)

theorem readOcontext2_spec (hcount : RolesCounted p) (key : Reader OcontextKey) :
    Good Access.InRange (readOcontext2 past p key) (OcontextChecked p) :=
  (good_read key).bind fun _ _ => (contextReadAndValidate_spec hcount).bind fun _ h0 =>
    (contextReadAndValidate_spec hcount).bind fun _ h1 => good_pure (forall_mem_cons.mpr ⟨h0, forall_mem_singleton.mpr h1⟩)

theorem good_reject : Good Access.InRange (Traced.read reject) (OcontextChecked p) :=
  fun _ _ _ _ h => nomatch (read_iff.mp h).1

theorem ocontextReadEntry_spec (hcount : RolesCounted p) (i : Nat) :
    Good Access.InRange (ocontextReadEntry past p i) (OcontextChecked p) := by
  unfold ocontextReadEntry
  split
  · unfold ocontextReadSelinux
    split
    all_goals first | exact readOcontext_spec hcount _ | exact readOcontext2_spec hcount _ | exact good_reject
  · unfold ocontextReadXen
    split
    all_goals first | exact readOcontext_spec hcount _ | exact good_reject

theorem ocontextRead_spec (hcount : RolesCounted p) (n i : Nat) :
    Good Access.InRange (ocontextRead past p i n) fun l => ∀ c ∈ l.flatten, OcontextChecked p c := by
  induction n generalizing i with
  | zero => exact good_pure (forall_mem_nil _)
  | succ n ih =>
    refine (good_read _).bind fun nel _ => (good_times (ocontextReadEntry_spec hcount i) nel.toNat).bind fun l hl => ?_
    exact (ih (i + 1)).bind fun rest hrest => good_pure (forall_mem_append.mpr ⟨hl, hrest⟩)

end Contexts

/-! ## File systems -/

section Genfs

variable {past : Past} {p : Policydb}

theorem mem_insertGenfsEntry {new : GenfsEntry} {l l' : List GenfsEntry} (h : insertGenfsEntry new l = some l') :
    ∀ c ∈ l', c = new ∨ c ∈ l := by
  fun_induction insertGenfsEntry new l generalizing l' with
  | case1 | case3 =>
    cases h
    simp
  | case2 => cases h
  | case4 c l _ _ ih =>
    obtain ⟨r, hr, rfl⟩ := map_eq_some_iff.mp h
    refine forall_mem_cons.mpr ⟨Or.inr mem_cons_self, ?_⟩
    intro x hx
    exact (ih hr x hx).imp_right (mem_cons_of_mem _)

theorem mem_insertGenfs {new : Genfs} {l l' : List Genfs} (h : insertGenfs new l = some l') : ∀ g ∈ l', g = new ∨ g ∈ l := by
  fun_induction insertGenfs new l generalizing l' with
  | case1 | case3 =>
    cases h
    simp
  | case2 => cases h
  | case4 g l _ _ ih =>
    obtain ⟨r, hr, rfl⟩ := map_eq_some_iff.mp h
    refine forall_mem_cons.mpr ⟨Or.inr mem_cons_self, ?_⟩
    intro x hx
    exact (ih hr x hx).imp_right (mem_cons_of_mem _)

theorem readGenfsEntry_spec (hcount : RolesCounted p) {head : List GenfsEntry}
    (hhead : ∀ c ∈ head, ContextChecked p c.context) :
    Good Access.InRange (readGenfsEntry past p head) fun head' => ∀ c ∈ head', ContextChecked p c.context := by
  refine (good_read _).bind fun name _ => (good_read _).bind fun sclass _ =>
    (contextReadAndValidate_spec hcount).bind fun c hc => ?_
  refine good_run ((meets_give _).imp Iff.rfl fun head' hinsert e he => ?_)
  rcases mem_insertGenfsEntry hinsert e he with rfl | he
  · exact hc
  · exact hhead e he

theorem readGenfs_spec (hcount : RolesCounted p) {genfs : List Genfs}
    (hgenfs : ∀ g ∈ genfs, ∀ c ∈ g.head, ContextChecked p c.context) :
    Good Access.InRange (readGenfs past p genfs) fun genfs' => ∀ g ∈ genfs', ∀ c ∈ g.head, ContextChecked p c.context := by
  refine (good_read _).bind fun fstype _ => (good_read _).bind fun nel _ => ?_
  refine (good_loop (fun _ hI => readGenfsEntry_spec hcount hI) nel.toNat (forall_mem_nil _)).bind fun head hhead => ?_
  refine good_run ((meets_give _).imp Iff.rfl fun genfs' hinsert g hg => ?_)
  rcases mem_insertGenfs hinsert g hg with rfl | hg
  · exact hhead
  · exact hgenfs g hg

theorem genfsRead_spec (hcount : RolesCounted p) :
    Good Access.InRange (genfsRead past p) fun genfs => ∀ g ∈ genfs, ∀ c ∈ g.head, ContextChecked p c.context :=
  (good_read _).bind fun nel _ => good_loop (fun _ hI => readGenfs_spec hcount hI) nel.toNat (forall_mem_nil _)

end Genfs

/-! ## Range transitions -/

theorem declIds_withRules (b : AvruleBlock) (rules : List RangeTransRule) (l : List AvruleBlock) :
    declIds (b.withRules rules :: l) = declIds (b :: l) := by
  have hsame : ∀ d : AvruleDecl, (d.withRules rules).declId = d.declId := by
    intro d
    unfold AvruleDecl.withRules
    split <;> rfl
  simp only [declIds, declsOf, flatMap_cons, List.map_append, AvruleBlock.withRules, List.map_map]
  congr 1
  exact map_congr_left fun d _ => hsame d

theorem rangeRead_frame (past : Db.PastMap) (p : Policydb) :
    Ensures (rangeRead past p) fun q => ∃ rangeTr global, q = { p with rangeTr, global } ∧
      declIds global = declIds p.global := by
  refine Ensures.andThen fun l => ?_
  split
  · exact Ensures.pure ⟨l, p.global, rfl, rfl⟩
  refine Ensures.andThen fun rules => (ensures_ofOption _).bind fun global hset => Ensures.pure ⟨p.rangeTr, global, rfl, ?_⟩
  unfold setRangeRules at hset
  split at hset
  · cases hset
    rfl
  split at hset
  next b l hb =>
    split_ifs at hset
    cases hset
    rw [hb, declIds_withRules]
  · cases hset

/-! ## Attribute maps -/

section Maps

variable {past : Past} {p : Policydb}

theorem setAttrType_inRange (nprim i : Nat) (m : List Db.Bitmap) (j : Nat) :
    InRangeIf (setAttrType nprim i m j) (j < nprim) := by
  refine (inRangeIf_note _ j nprim).before fun _ _ => ?_
  split
  · exact inRangeIf_give _
  · exact meets_pure trivial

theorem setOwnType_inRange {nprim i : Nat} (hi : i < nprim) (m : List Db.Bitmap) (d : Option TypeDatum) :
    InRangeIf (setOwnType nprim i m d) True :=
  meets_ite (fun _ => (setAttrType_inRange nprim i m i).good hi) fun _ => meets_pure trivial

/-- The maps of types as they stand in the file and as they are kept, with the indices used: every
    type that the loop over a map meets is an index into the other map. -/
structure MapsRead (past : Past) (nprim : Nat) (read : List FileBitmap) (kept : List Db.Ebitmap) (w : List Access) :
    Prop where
  accesses : All Access.InRange w ↔ ∀ e ∈ read, ∀ i ∈ walked past e, i < nprim
  kept : (∀ e ∈ read, ∀ i ∈ walked past e, i < nprim) → ∀ e ∈ kept, ∀ i ∈ Db.ebitmapBits e, i < nprim

theorem addTypeAttrs_spec {st st' : AttrMaps} (hlt : st.typeAttrMap.length < p.symtab.types.nprim.toNat) {e : FileBitmap}
    (h : Noted.Gives (addTypeAttrs past p st e) st' w) :
    ∃ own, st'.typeAttrsRead = st.typeAttrsRead ++ [e] ∧ st'.typeAttrMap = st.typeAttrMap ++ [own] ∧
      MapsRead past p.symtab.types.nprim.toNat [e] [own] w := by
  have hmeets : Meets Access.InRange (addTypeAttrs past p st e)
      (∀ i ∈ (walked past e).filter (· ≠ st.typeAttrMap.length), i < p.symtab.types.nprim.toNat) fun st' =>
        ∃ own, Db.ebitmapSetBit e.1 st.typeAttrMap.length true = some own ∧ (Db.ebitmapWalkBits past.bit e.1).isSome = true ∧
          st'.typeAttrsRead = st.typeAttrsRead ++ [e] ∧ st'.typeAttrMap = st.typeAttrMap ++ [own] := by
    refine ((inRangeIf_note _ _ _).good hlt).andThen fun _ _ => (meets_give _).andThen fun bits hbits => ?_
    rw [walked_of_walk past hbits]
    refine (meets_foldlM (fun m _ j _ => setAttrType_inRange _ _ m j) trivial).before fun m _ =>
      (meets_give _).andThen fun own hown => ?_
    refine ((typeStruct_inRange past p.symtab.types _).good hlt).andThen fun d _ =>
      (setOwnType_inRange hlt m d).andThen fun m' _ => ?_
    exact meets_pure ⟨own, hown, by rw [hbits]; rfl, rfl, rfl⟩
  obtain ⟨hrange, own, hown, hwalk, hread, hkept⟩ := hmeets st' w h
  obtain ⟨bits, hbits⟩ := Option.isSome_iff_exists.mp hwalk
  refine ⟨own, hread, hkept, ?_, ?_⟩
  · rw [hrange, forall_mem_singleton]
    constructor
    · intro hbelow i hi
      by_cases heq : i = st.typeAttrMap.length
      · exact heq ▸ hlt
      · exact hbelow i (mem_filter.mpr ⟨hi, decide_eq_true heq⟩)
    · exact fun hbelow i hi => hbelow i (mem_filter.mp hi).1
  · rw [forall_mem_singleton, forall_mem_singleton]
    intro hbelow i hi
    rcases (e.2.mem_bits_setBit hown).mp hi with rfl | hi
    · exact hlt
    · exact hbelow i (walked_of_walk past hbits ▸ Db.mem_walkBits e.2.apart e.2.nodesEnd_le hbits hi)

theorem loopTypeAttrs_spec {n : Nat} {st st' : AttrMaps} (hn : st.typeAttrMap.length + n = p.symtab.types.nprim.toNat)
    (h : Traced.Gives (Traced.loop (readTypeAttrs past p) n st) s st' s' w) :
    ∃ read kept, st'.typeAttrsRead = st.typeAttrsRead ++ read ∧ st'.typeAttrMap = st.typeAttrMap ++ kept ∧
      MapsRead past p.symtab.types.nprim.toNat read kept w := by
  induction n generalizing st s w with
  | zero =>
    obtain ⟨rfl, -, rfl⟩ := Traced.pure_iff.mp h
    refine ⟨[], [], (append_nil _).symm, (append_nil _).symm, iff_of_true (all_nil _) (forall_mem_nil _),
      fun _ => forall_mem_nil _⟩
  | succ n ih =>
    obtain ⟨st1, s1, w1, w2, hround, hrest, rfl⟩ := Traced.bind_iff.mp h
    obtain ⟨e, s2, v1, v2, hread, hadd, rfl⟩ := Traced.bind_iff.mp hround
    obtain ⟨-, rfl⟩ := Traced.read_iff.mp hread
    obtain ⟨own, hread1, hkept1, hm1⟩ := addTypeAttrs_spec (by omega) (Traced.run_iff.mp hadd).1
    have hn1 : st1.typeAttrMap.length + n = p.symtab.types.nprim.toNat := by
      rw [hkept1, length_append, length_singleton]
      omega
    obtain ⟨read, kept, hread', hkept', hm⟩ := ih hn1 hrest
    refine ⟨e :: read, own :: kept,
      by rw [hread', hread1, append_assoc]; rfl, by rw [hkept', hkept1, append_assoc]; rfl, ?_, ?_⟩
    · rw [nil_append, Trace.all_append, hm1.accesses, hm.accesses, forall_mem_singleton, forall_mem_cons]
    · intro hbelow
      obtain ⟨hfirst, hothers⟩ := forall_mem_cons.mp hbelow
      exact forall_mem_cons.mpr ⟨hm1.kept (forall_mem_singleton.mpr hfirst) own mem_cons_self, hm.kept hothers⟩

theorem readAttrMaps_spec {q : Policydb} (h : Traced.Gives (readAttrMaps past p) s q s' w) :
    ∃ typeAttrsRead typeAttrMap attrTypeMap, q = { p with typeAttrsRead, typeAttrMap, attrTypeMap } ∧
      MapsRead past p.symtab.types.nprim.toNat typeAttrsRead typeAttrMap w := by
  obtain ⟨st, s1, w1, w2, hloop, hpure, rfl⟩ := Traced.bind_iff.mp h
  obtain ⟨rfl, -, rfl⟩ := Traced.pure_iff.mp hpure
  obtain ⟨read, kept, hread, hkept, hm⟩ := loopTypeAttrs_spec (Nat.zero_add _) hloop
  refine ⟨st.typeAttrsRead, st.typeAttrMap, st.attrTypeMap, rfl, ?_⟩
  rw [append_nil, hread, hkept]
  exact hm

end Maps

/-! ## The reader -/

/-- A policy before its attribute maps are read and its users cached. -/
structure TablesRead (p : Policydb) : Prop where
  roleSlots : p.roleSlots = p.symtab.roles.nprim
  typeAttrsRead : p.typeAttrsRead = []
  typeAttrMap : p.typeAttrMap = []

theorem readTables_spec (past : Db.PastMap) : Ensures (readTables past) fun st => TablesRead st.1 := by
  refine Ensures.andThen fun ⟨header, _⟩ => Ensures.andThen fun _ => Ensures.andThen fun _ => Ensures.andThen fun _ => ?_
  refine Ensures.andThen fun _ => Ensures.andThen fun symtab => Ensures.bind (P := TablesRead) ?_ ?_
  · unfold readRules
    split
    · exact Ensures.andThen fun _ => Ensures.andThen fun _ => Ensures.andThen fun _ => Ensures.andThen fun _ =>
        Ensures.andThen fun _ => Ensures.pure ⟨rfl, rfl, rfl⟩
    · exact Ensures.andThen fun _ => Ensures.andThen fun _ => Ensures.pure ⟨rfl, rfl, rfl⟩
  · exact fun _ hq => Ensures.pure hq

section Indexed

variable {past : Past} {h : Header} {syms syms' : Symtabs symtabSizes}

theorem Indexed.hasSlots (hi : Indexed past h syms syms') : l.HasSlots h syms' ↔ l.HasSlots h syms := by
  unfold MlsLevel.HasSlots SensSlot
  rw [hi.levels, hi.cats]

theorem Indexed.levelsHaveSlots (hi : Indexed past h syms syms') : LevelsHaveSlots h syms' ↔ LevelsHaveSlots h syms := by
  unfold LevelsHaveSlots levelData
  rw [hi.levels]
  exact forall₂_congr fun _ _ => hi.hasSlots

theorem Indexed.semanticLevels (hi : Indexed past h syms syms') : File.semanticLevels syms' = File.semanticLevels syms := by
  obtain ⟨cached, hdata, hcached⟩ := hi.users
  rw [File.semanticLevels, hdata, flatMap_map]
  refine flatMap_congr ?_
  intro u hu
  obtain ⟨w, hw⟩ := hcached u hu
  exact (cachedUser_spec past h syms u _ w hw).2.1

theorem Indexed.sensLooked (hi : Indexed past h syms syms') : SensLooked h syms' ↔ SensLooked h syms := by
  unfold SensLooked
  rw [hi.semanticLevels, hi.levels]

theorem Indexed.expanded (hi : Indexed past h syms syms') {sl : SemanticLevel} (he : Expanded h syms sl l) :
    Expanded h syms' sl l := by
  refine ⟨fun hslots hsens => ?_, fun hslots hmls hsens => ?_⟩
  · rw [hi.levels] at hsens
    exact hi.hasSlots.mpr (he.level (hi.levelsHaveSlots.mp hslots) hsens)
  · unfold SemanticLevel.CatSlots
    rw [hi.cats]
    exact he.cats (hi.levelsHaveSlots.mp hslots) hmls hsens

/-- The levels of a base module's users are those of its table. -/
theorem Indexed.userExpanded (hi : Indexed past h syms syms') (hbase : h.policyType = .base) :
    ∀ u ∈ syms'.users.data, UserExpanded h syms' u := by
  obtain ⟨cached, hdata, hcached⟩ := hi.users
  rw [hdata, List.forall_mem_map]
  intro u hu
  obtain ⟨w, hw⟩ := hcached u hu
  obtain ⟨hlow, hhigh, hdflt⟩ := (cachedUser_spec past h syms u _ w hw).2.2 hbase
  exact ⟨hi.expanded hlow, hi.expanded hhigh, hi.expanded hdflt⟩

end Indexed

section Users

variable {h : Header} {syms : Symtabs symtabSizes} (husers : ∀ u ∈ syms.users.data, UserExpanded h syms u)

include husers

theorem UserExpanded.levels (hslots : LevelsHaveSlots h syms)
    (hsens : ∀ sl ∈ semanticLevels syms, sl.sens ≤ syms.levels.nprim) : ∀ l ∈ userLevels syms, l.HasSlots h syms := by
  rw [semanticLevels, forall_mem_flatMap] at hsens
  rw [userLevels, forall_mem_flatMap]
  intro u hu
  obtain ⟨hlow, hhigh, hdflt⟩ := husers u hu
  have hu := hsens u hu
  simp only [UserDatum.semanticLevels, forall_mem_cons] at hu
  simp only [UserDatum.levels, forall_mem_cons]
  exact ⟨hlow.level hslots hu.1, hhigh.level hslots hu.2.1, hdflt.level hslots hu.2.2.1, forall_mem_nil _⟩

theorem UserExpanded.cats (hslots : LevelsHaveSlots h syms) (hmls : h.mls = true) :
    ∀ sl ∈ semanticLevels syms, sl.sens ≠ 0#32 → sl.CatSlots syms := by
  rw [semanticLevels, forall_mem_flatMap]
  intro u hu
  obtain ⟨hlow, hhigh, hdflt⟩ := husers u hu
  simp only [UserDatum.semanticLevels, forall_mem_cons]
  exact ⟨hlow.cats hslots hmls, hhigh.cats hslots hmls, hdflt.cats hslots hmls, forall_mem_nil _⟩

end Users

/-- What the indices of an accepted file depend on, and what was checked. -/
structure ReadSpec (past : Past) (p : Policydb) (w : List Access) : Prop where
  accesses : All Access.InRange w ↔
    (∀ id ∈ declIds p.global, (id - 1#32).toNat < (declIds p.global).length) ∧
      (∀ r ∈ p.symtab.roles.data, r.types.Below past p.symtab.types.nprim.toNat) ∧ SensLooked p.header p.symtab ∧
      ∀ e ∈ p.typeAttrsRead, ∀ i ∈ walked past e, i < p.symtab.types.nprim.toNat
  maps : (∀ e ∈ p.typeAttrsRead, ∀ i ∈ walked past e, i < p.symtab.types.nprim.toNat) →
    ∀ e ∈ p.typeAttrMap, ∀ i ∈ Db.ebitmapBits e, i < p.symtab.types.nprim.toNat
  contexts : ∀ c ∈ p.contexts, ContextChecked p c
  users : p.header.policyType = .base → ∀ u ∈ p.symtab.users.data, UserExpanded p.header p.symtab u

theorem policydbRead_spec {p : Policydb} (h : (policydbRead past).Gives s p s' w) : ReadSpec past p w := by
  obtain ⟨⟨q, oconNum⟩, s1, w1, v1, hread, h1, rfl⟩ := Traced.bind_iff.mp h
  obtain ⟨htables, rfl⟩ := Traced.read_iff.mp hread
  obtain ⟨p1, s2, w2, v2, hindex, h2, rfl⟩ := Traced.bind_iff.mp h1
  obtain ⟨hrange, symtab, rfl, hi⟩ := indexPolicydb_spec past q _ _ (Traced.run_iff.mp hindex).1
  obtain ⟨ocontexts, s3, w3, v3, hocon, h3, rfl⟩ := Traced.bind_iff.mp h2
  obtain ⟨genfs, s4, w4, v4, hgenfs, h4, rfl⟩ := Traced.bind_iff.mp h3
  obtain ⟨p3, s5, w5, v5, hranges, h5, rfl⟩ := Traced.bind_iff.mp h4
  obtain ⟨hread, rfl⟩ := Traced.read_iff.mp hranges
  have hq := readTables_spec _ _ _ _ htables
  have hcount : RolesCounted { q with symtab } := by
    rw [hq.roleSlots]
    exact hi.nprim
  obtain ⟨hoconRange, hoconChecked⟩ := ocontextRead_spec hcount oconNum 0 _ _ _ _ hocon
  obtain ⟨hgenfsRange, hgenfsChecked⟩ := genfsRead_spec hcount _ _ _ _ hgenfs
  obtain ⟨rangeTr, global, rfl, hids⟩ : ∃ rangeTr global, p3 = { q with symtab, ocontexts, genfs, rangeTr, global } ∧
      declIds global = declIds q.global := by
    split at hread
    · exact rangeRead_frame _ _ _ _ _ hread
    · obtain ⟨rfl, -⟩ := pure_some.mp hread
      exact ⟨q.rangeTr, q.global, rfl, rfl⟩
  have hroles : symtab.roles.data = q.symtab.roles.data := by rw [Symtab.data, hi.roles, Symtab.data]
  obtain ⟨typeAttrsRead, typeAttrMap, attrTypeMap, rfl, hmaps⟩ : ∃ typeAttrsRead typeAttrMap attrTypeMap,
      p = { q with symtab, ocontexts, genfs, rangeTr, global, typeAttrsRead, typeAttrMap, attrTypeMap } ∧
      MapsRead past symtab.types.nprim.toNat typeAttrsRead typeAttrMap v5 := by
    split at h5
    · exact readAttrMaps_spec h5
    · obtain ⟨rfl, -, rfl⟩ := Traced.pure_iff.mp h5
      refine ⟨q.typeAttrsRead, q.typeAttrMap, q.attrTypeMap, rfl, ?_⟩
      rw [hq.typeAttrsRead, hq.typeAttrMap]
      exact ⟨iff_of_true (all_nil _) (forall_mem_nil _), fun _ => forall_mem_nil _⟩
  refine ⟨?_, hmaps.kept, ?_, hi.userExpanded⟩
  · show _ ↔ (∀ id ∈ declIds global, _ < (declIds global).length) ∧
      (∀ r ∈ symtab.roles.data, r.types.Below past symtab.types.nprim.toNat) ∧ SensLooked q.header symtab ∧ _
    rw [nil_append, nil_append, Trace.all_append, Trace.all_append, Trace.all_append, and_iff_right hoconRange,
      and_iff_right hgenfsRange, hrange, hmaps.accesses, hids, hroles, hi.types, hi.sensLooked, and_assoc, and_assoc]
  · refine forall_mem_append.mpr ⟨?_, ?_⟩
    · rw [forall_mem_flatMap]
      exact hoconChecked
    · rw [forall_mem_flatMap]
      intro g hg
      rw [List.forall_mem_map]
      exact hgenfsChecked g hg

/-- A kernel policy with one type, whose attribute map is given with its announced end. -/
def mapPolicy (highbit map : Nat) : Bytes :=
  putWords [0xf97cff8c, 8] ++ policydbString ++ putWords [20, 0, 8, 7] ++
    putWords [0, 0, 0, 0, 1, 0] ++ putWords [1, 1, 1, 1, 1] ++ [0x74#8] ++ putWords (List.replicate 8 0) ++
    putWords [1] ++ putRule 1 1 1 0x01 1 ++ putWords [0, 0, 0] ++ putWords (List.replicate 9 0) ++
    putWords [64, highbit, 1, 0, map, 0]

/-- A shift that takes its count modulo 64. -/
def wrappedPast : Past := { nothingPast with bit := fun n i => n.map.getLsbD ((i - n.startbit) % Db.mapsize) }

end SELinux.File
