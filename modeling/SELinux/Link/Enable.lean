/-
  SELinux.Link.Enable — which optional blocks of a linked policy are enabled
  (`libsepol/src/link.c`: `is_decl_requires_met`, `enable_avrules`; `avrule_block.c`:
  `is_id_enabled`, `is_perm_enabled`).

  A block has a first branch and, for an optional block, perhaps an else branch. The linker
  enables every first branch, then goes through the blocks again and again and disables each
  first branch that requires something no enabled branch declares, until nothing changes; an
  unmet requirement of a block that is not optional is an error. Blocks may require each other
  in cycles: what is left is the greatest set of blocks that provide what the check looks at
  (`enableAvrules_greatest`), whatever the order of the blocks.

  The check looks at the symbols other than classes in the scope index, and at permissions of
  classes. A class in the scope index itself is passed over, since it is to be checked with its
  permissions, although one may be required with none: `required_class_disabled` is a block that is
  kept without the class that it requires. The outcome is that of the greatest set of blocks that
  provide all they require exactly if the classes are provided anyway (`enableAvrules_outcome_iff`).

  A declaration of a symbol is what the scope tables of the policy say. `off` are the ids of the
  first branches disabled so far, so that `decl->enabled` is 0 for these and for every else
  branch. The missing requirement that `is_decl_requires_met` reports and the texts printed from
  it are left out.
-/
import SELinux.Db.Scope
import SELinux.Lib.Sweep

namespace SELinux.Link

open SELinux.Db SELinux.Lib List

/-- `scope_index_t`: bit `v - 1` stands for the symbol of value `v`, and entry `c - 1` of the
    map for the permissions of the class of value `c`. -/
structure ScopeIndex where
  scope : Sym → Bitmap := fun _ => Bitmap.empty
  classPermsMap : List Bitmap := []

/-- `avrule_decl_t` -/
structure Decl where
  declId : Nat
  required : ScopeIndex := {}

/-- The required permissions, class by class: the index of the class and the bit. -/
def Decl.requiredPerms (decl : Decl) : List (Nat × Nat) :=
  decl.required.classPermsMap.zipIdx.flatMap fun (bitmap, i) => bitmap.bits.map fun j => (i, j)

/-- `avrule_block_t`; the branch list is never empty. -/
structure Block where
  first : Decl
  elses : List Decl := []
  /-- `AVRULE_OPTIONAL` -/
  optional : Bool

def Block.branches (b : Block) : List Decl := b.first :: b.elses

/-- The name of the permission of a value: in the class, else in its common. -/
def findPerm (cladatum : ClassDatum) (value : Nat) : Option Name :=
  let inTable (permissions : List (Name × Nat)) := (permissions.find? fun p => p.2 == value).map Prod.fst
  (inTable cladatum.permissions).or (cladatum.comdatum.bind inTable)

/-- The base policy once every module is copied into it. A branch has an id of its own, which is
    its place in `decl_val_to_struct`; a required permission is one of the class. -/
structure Base where
  global : Block
  others : List Block
  symValToName : Sym → List (Option Name)
  scope : Sym → Name → Option ScopeDatum
  pClasses : Name → Option ClassDatum := fun _ => none
  classValToStruct : List (Option ClassDatum) := []
  numDecls : Nat
  ids : (((global :: others).flatMap Block.branches).map Decl.declId).Nodup
  range : ∀ b ∈ global :: others, ∀ d ∈ b.branches, 1 ≤ d.declId ∧ d.declId ≤ numDecls
  named : ∀ b ∈ global :: others, ∀ sym, ∀ j ∈ (b.first.required.scope sym).bits, (datumAt (symValToName sym) (j + 1)).isSome
  perms : ∀ b ∈ global :: others, ∀ ij ∈ b.first.requiredPerms, ∃ id cladatum, datumAt (symValToName .classes)
    (ij.1 + 1) = some id ∧
    datumAt classValToStruct (ij.1 + 1) = some cladatum ∧ pClasses id = some cladatum ∧ (findPerm cladatum (ij.2 + 1)).isSome

namespace Base

variable (base : Base)

def blocks : List Block := base.global :: base.others

/-- `decl_val_to_struct`, as far as the flags go. -/
def declValToStruct (off : List Nat) : List (Option AvruleDecl) :=
  (List.range base.numDecls).map fun i =>
    if i + 1 ∈ (base.blocks.flatMap Block.branches).map Decl.declId then
      some { enabled := decide (i + 1 ∈ base.blocks.map (·.first.declId) ∧ i + 1 ∉ off) }
    else none

/-- `is_id_enabled` -/
def isIdEnabled (off : List Nat) (sym : Sym) (id : Name) : Bool :=
  Db.isIdEnabled (base.declValToStruct off) ({ scope := base.scope sym } : SymScope Unit) id

/-- `is_perm_enabled` -/
def isPermEnabled (off : List Nat) (classId permId : Name) : Bool :=
  base.isIdEnabled off .classes classId &&
    (base.pClasses classId).any fun cladatum =>
      ((cladatum.permissions.lookup permId).or (cladatum.comdatum.bind fun permissions => permissions.lookup permId)).isSome

end Base

/-- `SEPOL_EREQ` and `SEPOL_ERR`; `abort` is a failed assertion or a read through NULL. -/
inductive LinkErr
  | ereq
  | err
  | abort
  deriving DecidableEq, Repr

/-- Every symbol table but the one of classes, in the order of the loop. -/
def checkedSyms : List Sym := [.commons, .roles, .types, .users, .bools, .levels, .cats]

section Code

variable (base : Base) (off : List Nat)

/-- The name of the symbol is read from `sym_val_to_name`. -/
def symMet (sym : Sym) (j : Nat) : Bool := (datumAt (base.symValToName sym) (j + 1)).any (base.isIdEnabled off sym)

def permMet (ij : Nat × Nat) : Except LinkErr Bool :=
  match datumAt (base.symValToName .classes) (ij.1 + 1), datumAt base.classValToStruct (ij.1 + 1) with
  | some id, some cladatum =>
    -- "Could not find scope information for class"
    if base.scope .classes id = none then .error .err
    else
      match findPerm cladatum (ij.2 + 1) with
      | none => .error .abort
      | some permId => .ok (base.isPermEnabled off id permId)
  | _, _ => .error .abort

/-- `is_decl_requires_met` -/
def isDeclRequiresMet (decl : Decl) : Except LinkErr Bool :=
  if checkedSyms.all fun sym => (decl.required.scope sym).bits.all (symMet base off sym) then decl.requiredPerms.allM
    (permMet base off)
  else .ok false

/-- `block->enabled` in the end: else branches are for the blocks after the global one. -/
def enabledDecls : List (Block × Option Decl) :=
  let first (b : Block) (otherwise : Option Decl) := if b.first.declId ∈ off then otherwise else some b.first
  (base.global, first base.global none) :: base.others.map fun b => (b, first b b.elses.head?)

/-- `enable_avrules`; `none` when the rounds run out, which `enableAvrules_greatest` excludes. -/
def enableAvrules : Option (Except LinkErr (List (Block × Option Decl))) :=
  (Sweep.sweepAll (fun b => b.first.declId) (fun off b => isDeclRequiresMet base off b.first)
    (fun b => if b.optional then none else some .ereq) base.blocks).map fun r => r.map (enabledDecls base)

end Code

/-! ## What it is for -/

variable {s : Set Block}

namespace Base

variable (base : Base)

/-- A first branch of a block in `s` declares the symbol. -/
def DeclaredBy (s : Set Block) (sym : Sym) (id : Name) : Prop :=
  ∃ sd, base.scope sym id = some sd ∧ sd.scope = .decl ∧ ∃ b ∈ s, b.first.declId ∈ sd.declIds

/-- What `decl` requires of the tables `syms`, and the permissions it requires, are declared by
    first branches of blocks in `s`. A permission is declared with its class. -/
structure Meets (syms : List Sym) (s : Set Block) (decl : Decl) : Prop where
  symbols : ∀ sym ∈ syms, ∀ j ∈ (decl.required.scope sym).bits, ∃ id, datumAt (base.symValToName sym)
    (j + 1) = some id ∧ base.DeclaredBy s sym id
  permissions : ∀ ij ∈ decl.requiredPerms, ∃ id cladatum, datumAt (base.symValToName .classes) (ij.1 + 1) = some id ∧
    base.pClasses id = some cladatum ∧ (findPerm cladatum (ij.2 + 1)).isSome ∧ base.DeclaredBy s .classes id

theorem DeclaredBy.mono {base : Base} {t : Set Block} (hst : s ⊆ t) {sym : Sym} {id : Name}
    (h : base.DeclaredBy s sym id) : base.DeclaredBy t sym id := by
  obtain ⟨sd, hsd, hscope, b, hb, hid⟩ := h
  exact ⟨sd, hsd, hscope, b, hst hb, hid⟩

theorem Meets.mono {base : Base} {syms : List Sym} {t : Set Block} (hst : s ⊆ t) {decl : Decl}
    (h : base.Meets syms s decl) : base.Meets syms t decl where
  symbols := by
    intro sym hsym j hj
    obtain ⟨id, hid, hdecl⟩ := h.symbols sym hsym j hj
    exact ⟨id, hid, hdecl.mono hst⟩
  permissions := by
    intro ij hij
    obtain ⟨id, cladatum, hid, hclass, hperm, hdecl⟩ := h.permissions ij hij
    exact ⟨id, cladatum, hid, hclass, hperm, hdecl.mono hst⟩

/-- The blocks whose first branch has what it requires from `s`. -/
def supported (syms : List Sym) : Set Block →o Set Block where
  toFun s := { b | b ∈ base.blocks ∧ base.Meets syms s b.first }
  monotone' := fun _ _ hst _ hb => ⟨hb.1, hb.2.mono hst⟩

/-- The greatest set of blocks that provide what their first branches require. -/
def greatest (syms : List Sym) : Set Block := (base.supported syms).gfp

/-- Blocks that declare among them what the check looks at. -/
def Closed (s : Set Block) : Prop := s ⊆ base.supported checkedSyms s

/-- Unless a block that is not optional can not be had, each class required in a closed set is
    declared in one. -/
def ClassesProvided : Prop :=
  (∀ b ∈ base.blocks, b.optional = false → ∃ s, base.Closed s ∧ b ∈ s) →
    ∀ s, base.Closed s → ∀ b ∈ s, ∀ j ∈ (b.first.required.scope .classes).bits,
      ∃ id t, datumAt (base.symValToName .classes) (j + 1) = some id ∧ base.Closed t ∧ base.DeclaredBy t .classes id

/-- Each class named in a permission requirement has scope information. -/
def ClassesScoped : Prop :=
  ∀ b ∈ base.blocks, ∀ ij ∈ b.first.requiredPerms, ∀ id, datumAt (base.symValToName .classes) (ij.1 + 1) = some id →
    base.scope .classes id ≠ none

end Base

/-! ## One check -/

theorem nodup_firsts (base : Base) : (base.blocks.map fun b => b.first.declId).Nodup := by
  refine List.Nodup.sublist ?_ base.ids
  change List.Sublist (base.blocks.map fun b => b.first.declId) ((base.blocks.flatMap Block.branches).map Decl.declId)
  induction base.blocks with
  | nil => exact List.Sublist.slnil
  | cons b l ih =>
    rw [flatMap_cons, map_append]
    exact List.Sublist.cons_cons _ (ih.trans (sublist_append_right _ _))

/-- The blocks whose first branches are enabled. -/
def Base.left (base : Base) (off : List Nat) : Set Block := Sweep.left (fun b => b.first.declId) base.blocks off

theorem mem_branches_first (b : Block) : b.first ∈ b.branches := mem_cons_self

theorem enabledAt_iff (base : Base) (off : List Nat) (i : Nat) :
    ((datumAt (base.declValToStruct off) i).any fun decl => decl.enabled) = true ↔
      ∃ b ∈ base.left off, b.first.declId = i := by
  unfold datumAt
  constructor
  · intro h
    split at h
    · cases h
    next h0 =>
      rw [getD_eq_getElem?_getD] at h
      unfold Base.declValToStruct at h
      rw [List.getElem?_map] at h
      by_cases hi : i - 1 < base.numDecls
      · rw [List.getElem?_range hi, Option.map_some, Option.getD_some, Nat.sub_add_cancel (Nat.pos_of_ne_zero h0)] at h
        split at h
        · obtain ⟨hin, hoff⟩ := of_decide_eq_true h
          obtain ⟨b, hb, rfl⟩ := mem_map.mp hin
          exact ⟨b, ⟨hb, hoff⟩, rfl⟩
        · cases h
      · rw [List.getElem?_eq_none (by rw [length_range]; omega)] at h
        cases h
  · rintro ⟨b, ⟨hb, hoff⟩, rfl⟩
    obtain ⟨hpos, hle⟩ := base.range b hb b.first (mem_branches_first b)
    rw [if_neg (by omega), getD_eq_getElem?_getD]
    unfold Base.declValToStruct
    rw [List.getElem?_map, List.getElem?_range (by omega), Option.map_some, Nat.sub_add_cancel hpos, if_pos]
    · exact decide_eq_true ⟨mem_map_of_mem hb, hoff⟩
    · exact mem_map_of_mem (mem_flatMap_of_mem hb (mem_branches_first b))

theorem isIdEnabled_iff_declaredBy (base : Base) (off : List Nat) (sym : Sym) (id : Name) :
    base.isIdEnabled off sym id = true ↔ base.DeclaredBy (base.left off) sym id := by
  unfold Base.isIdEnabled Db.isIdEnabled Base.DeclaredBy
  dsimp only
  cases hsd : base.scope sym id with
  | none => simp
  | some sd =>
    simp only [Bool.and_eq_true, beq_iff_eq, any_eq_true, enabledAt_iff, Option.some.injEq, exists_eq_left']
    constructor
    · rintro ⟨hscope, i, hi, b, hb, rfl⟩
      exact ⟨hscope, b, hb, hi⟩
    · rintro ⟨hscope, b, hb, hi⟩
      exact ⟨hscope, b.first.declId, hi, b, hb, rfl⟩

/-- A permission found by its value is found by its name. -/
theorem lookup_of_findPerm {cladatum : ClassDatum} {value : Nat} {permId : Name}
    (h : findPerm cladatum value = some permId) : ((cladatum.permissions.lookup permId).or
      (cladatum.comdatum.bind fun permissions => permissions.lookup permId)).isSome = true := by
  have hlookup : ∀ permissions : List (Name × Nat), (permissions.find? fun p => p.2 == value).map Prod.fst = some permId →
      (permissions.lookup permId).isSome = true := by
    intro permissions hfind
    obtain ⟨p, hp, rfl⟩ := Option.map_eq_some_iff.mp hfind
    rw [lookup_isSome_iff]
    exact ⟨p, mem_of_find?_eq_some hp, beq_self_eq_true _⟩
  rw [Option.isSome_or, Bool.or_eq_true]
  rcases Option.or_eq_some_iff.mp h with hclass | ⟨-, hcommon⟩
  · exact Or.inl (hlookup _ hclass)
  · obtain ⟨permissions, hcom, hfind⟩ := Option.bind_eq_some_iff.mp hcommon
    rw [hcom]
    exact Or.inr (hlookup _ hfind)

variable {b : Block}

theorem permMet_iff {base : Base} (hscoped : base.ClassesScoped) (off : List Nat) (hb : b ∈ base.blocks) {ij : Nat × Nat}
    (hij : ij ∈ b.first.requiredPerms) :
    ∃ r, permMet base off ij = .ok r ∧ (r = true ↔ ∃ id cladatum, datumAt (base.symValToName .classes) (ij.1 + 1) = some id ∧
      base.pClasses id = some cladatum ∧ (findPerm cladatum (ij.2 + 1)).isSome ∧
        base.DeclaredBy (base.left off) .classes id) := by
  obtain ⟨id, cladatum, hid, hdatum, hclass, hperm⟩ := base.perms b hb ij hij
  obtain ⟨permId, hpermId⟩ := Option.isSome_iff_exists.mp hperm
  refine ⟨base.isPermEnabled off id permId, ?_, ?_⟩
  · unfold permMet
    simp only [hid, hdatum, if_neg (hscoped b hb ij hij id hid), hpermId]
  · unfold Base.isPermEnabled
    rw [hclass, Option.any_some, lookup_of_findPerm hpermId, Bool.and_true, isIdEnabled_iff_declaredBy]
    constructor
    · exact fun hdecl => ⟨id, cladatum, hid, hclass, hperm, hdecl⟩
    · rintro ⟨id', _, hid', -, -, hdecl⟩
      obtain rfl := Option.some.inj (hid.symm.trans hid')
      exact hdecl

/-- A loop that stops at the first `false`. -/
theorem allM_ok {α : Type} {f : α → Except LinkErr Bool} {P : α → Prop} {l : List α}
    (h : ∀ a ∈ l, ∃ r, f a = .ok r ∧ (r = true ↔ P a)) : ∃ r, l.allM f = .ok r ∧ (r = true ↔ ∀ a ∈ l, P a) := by
  induction l with
  | nil => exact ⟨true, rfl, by simp⟩
  | cons a l ih =>
    obtain ⟨⟨r, hr, hP⟩, hl⟩ := forall_mem_cons.mp h
    rw [List.allM, hr]
    cases r with
    | false =>
      refine ⟨false, rfl, ?_⟩
      refine iff_of_false Bool.false_ne_true ?_
      intro hall
      exact Bool.false_ne_true (hP.mpr (hall a mem_cons_self))
    | true =>
      obtain ⟨r', hr', hall⟩ := ih hl
      refine ⟨r', hr', ?_⟩
      rw [hall, forall_mem_cons]
      exact (and_iff_right (hP.mp rfl)).symm

theorem symMet_iff (base : Base) (off : List Nat) (sym : Sym) (j : Nat) :
    symMet base off sym j = true ↔ ∃ id, datumAt (base.symValToName sym) (j + 1) = some id ∧
      base.DeclaredBy (base.left off) sym id := by
  unfold symMet
  rw [Option.any_eq_true]
  simp only [isIdEnabled_iff_declaredBy]

theorem isDeclRequiresMet_iff {base : Base} (hscoped : base.ClassesScoped) (off : List Nat) (hb : b ∈ base.blocks) :
    ∃ r, isDeclRequiresMet base off b.first = .ok r ∧ (r = true ↔ base.Meets checkedSyms (base.left off) b.first) := by
  unfold isDeclRequiresMet
  split <;> rename_i hall <;> simp only [all_eq_true, symMet_iff] at hall
  · obtain ⟨r, hr, hP⟩ := allM_ok fun ij hij => permMet_iff hscoped off hb hij
    exact ⟨r, hr, hP.trans ⟨fun hperms => ⟨hall, hperms⟩, fun hmeets => hmeets.permissions⟩⟩
  · exact ⟨false, rfl, iff_of_false Bool.false_ne_true fun hmeets => hall hmeets.symbols⟩

theorem isDeclRequiresMet_decides {base : Base} (hscoped : base.ClassesScoped) :
    Sweep.Decides (fun b : Block => b.first.declId)
    (fun off b => isDeclRequiresMet base off b.first) base.blocks (base.supported checkedSyms) := by
  intro off b hb
  obtain ⟨r, hr, hmeets⟩ := isDeclRequiresMet_iff hscoped off hb
  exact ⟨r, hr, hmeets.trans (and_iff_right hb).symm⟩

/-! ## The whole of it -/

theorem supported_subset (base : Base) (syms : List Sym) (s : Set Block) :
    base.supported syms s ⊆ { b | b ∈ base.blocks } := fun _ hb => hb.1

/-- What is left is `greatest`, and an unmet requirement of a block that is not optional is the
    only error. -/
theorem enableAvrules_cases {base : Base} (hscoped : base.ClassesScoped) :
    (∃ off, enableAvrules base = some (.ok (enabledDecls base off)) ∧
      (∀ b ∈ base.blocks, b.first.declId ∉ off ↔ b ∈ base.greatest checkedSyms) ∧
        ∀ b ∈ base.blocks, b.optional = false → b ∈ base.greatest checkedSyms) ∨
      enableAvrules base = some (.error .ereq) ∧ ∃ b ∈ base.blocks, b.optional = false ∧ b ∉ base.greatest checkedSyms := by
  unfold enableAvrules
  rcases Sweep.sweepAll_spec (fun b => if b.optional then none else some LinkErr.ereq) (nodup_firsts base)
    (isDeclRequiresMet_decides hscoped)
      (supported_subset base checkedSyms) with ⟨off, hsweep, hleft, hkept⟩ | ⟨e, hsweep, b, hb, he, hnot⟩
  · refine Or.inl ⟨off, by rw [hsweep]; rfl, ?_, ?_⟩
    · intro b hb
      rw [Base.greatest, ← hleft]
      exact (and_iff_right hb).symm
    · intro b hb hoptional
      by_contra hnot
      have hnone := hkept b hb hnot
      rw [hoptional] at hnone
      cases hnone
  · refine Or.inr ?_
    cases hoptional : b.optional with
    | true =>
      rw [hoptional] at he
      cases he
    | false =>
      rw [hoptional] at he
      cases he
      exact ⟨by rw [hsweep]; rfl, b, hb, hoptional, hnot⟩

/-- The same policy with the blocks after the global one in another order. -/
def Base.reorder (base : Base) (l : List Block) (h : l.Perm base.others) : Base :=
  have hmem : ∀ b ∈ base.global :: l, b ∈ base.global :: base.others := fun _ hb => (h.cons base.global).mem_iff.mp hb
  { base with
    others := l
    ids := (((h.cons base.global).flatMap_right Block.branches).map Decl.declId).nodup_iff.mpr base.ids
    range := fun b hb => base.range b (hmem b hb)
    named := fun b hb => base.named b (hmem b hb)
    perms := fun b hb => base.perms b (hmem b hb) }

/-- The same return code and, on success, the same enabled branch of each block. -/
inductive SameOutcome : Option (Except LinkErr (List (Block × Option Decl))) →
    Option (Except LinkErr (List (Block × Option Decl))) → Prop
  | error (e : LinkErr) : SameOutcome (some (.error e)) (some (.error e))
  | ok {out out' : List (Block × Option Decl)} (h : out.Perm out') : SameOutcome (some (.ok out)) (some (.ok out'))

section Reorder

variable {base : Base} {l : List Block} (h : l.Perm base.others)

theorem mem_blocks_reorder : b ∈ (base.reorder l h).blocks ↔ b ∈ base.blocks := (h.cons base.global).mem_iff

theorem meets_reorder {syms : List Sym} {decl : Decl} : (base.reorder l h).Meets syms s decl ↔ base.Meets syms s decl :=
  ⟨fun hm => ⟨hm.symbols, hm.permissions⟩, fun hm => ⟨hm.symbols, hm.permissions⟩⟩

theorem greatest_reorder (syms : List Sym) : (base.reorder l h).greatest syms = base.greatest syms := by
  unfold Base.greatest
  congr 1
  ext s b
  exact and_congr (mem_blocks_reorder h) (meets_reorder h)

theorem classesScoped_reorder (hscoped : base.ClassesScoped) : (base.reorder l h).ClassesScoped :=
  fun b hb => hscoped b ((mem_blocks_reorder h).mp hb)

theorem enabledDecls_reorder {off off' : List Nat} (hoff : ∀ b ∈ base.blocks, b.first.declId ∈ off ↔ b.first.declId ∈ off') :
    (enabledDecls (base.reorder l h) off').Perm (enabledDecls base off) := by
  have hsame : enabledDecls base off = enabledDecls base off' := by
    unfold enabledDecls
    simp only [if_congr (hoff base.global mem_cons_self) rfl rfl]
    congr 1
    refine map_congr_left ?_
    intro b hb
    rw [if_congr (hoff b (mem_cons_of_mem _ hb)) rfl rfl]
  rw [hsame]
  exact (h.map _).cons _

end Reorder

/-- An else branch is not the first branch. -/
theorem elses_head?_ne_first {base : Base} (hb : b ∈ base.blocks) : b.elses.head? ≠ some b.first := by
  intro h
  have hids := base.ids
  rw [map_flatMap, nodup_flatMap] at hids
  have hnodup := hids.1 b hb
  rw [Block.branches, map_cons, nodup_cons] at hnodup
  exact hnodup.1 (mem_map_of_mem (mem_of_mem_head? h))

/-- What is written for one block. -/
theorem mem_enabledDecls {base : Base} {off : List Nat} {d : Option Decl} (hmem : (b, d) ∈ enabledDecls base off) :
    b ∈ base.blocks ∧ (d = some b.first ↔ b.first.declId ∉ off) ∧
      (b ∈ base.others → b.first.declId ∈ off → d = b.elses.head?) := by
  have hfirst : ∀ otherwise : Option Decl, otherwise ≠ some b.first →
      ((if b.first.declId ∈ off then otherwise else some b.first) = some b.first ↔ b.first.declId ∉ off) := by
    intro otherwise hne
    split
    · exact iff_of_false hne (not_not_intro ‹_›)
    · exact iff_of_true rfl ‹_›
  rcases mem_cons.mp hmem with heq | hmem
  · obtain ⟨rfl, rfl⟩ := Prod.mk.inj heq
    refine ⟨mem_cons_self, hfirst none nofun, ?_⟩
    -- the global block has an id of its own
    intro hothers
    have hnodup := nodup_firsts base
    rw [Base.blocks, map_cons, nodup_cons] at hnodup
    exact absurd (mem_map_of_mem hothers) hnodup.1
  · obtain ⟨b', hb', heq⟩ := mem_map.mp hmem
    obtain ⟨rfl, rfl⟩ := Prod.mk.inj heq
    have hb := mem_cons_of_mem base.global hb'
    exact ⟨hb, hfirst _ (elses_head?_ne_first hb), fun _ hoff => if_pos hoff⟩

/-- The first branches that stay enabled are those of `g`, and a block that is not optional and not
    in `g` is an error. The order of the blocks after the global one does not matter. -/
structure Outcome (base : Base) (g : Set Block) : Prop where
  success : (∃ out, enableAvrules base = some (.ok out)) ↔ ∀ b ∈ base.blocks, b.optional = false → b ∈ g
  enabled : ∀ out, enableAvrules base = some (.ok out) → out.map Prod.fst = base.blocks ∧
    ∀ b d, (b, d) ∈ out → (d = some b.first ↔ b ∈ g) ∧ (b ∈ base.others → b ∉ g → d = b.elses.head?)
  failure : (¬ ∃ out, enableAvrules base = some (.ok out)) → enableAvrules base = some (.error .ereq)
  order : ∀ l (h : l.Perm base.others), SameOutcome (enableAvrules (base.reorder l h)) (enableAvrules base)

/-- The outcome is that of the greatest set of blocks that declare what the check looks at. -/
theorem enableAvrules_greatest {base : Base} (hscoped : base.ClassesScoped) : Outcome base (base.greatest checkedSyms) := by
  have horder : ∀ l (h : l.Perm base.others), SameOutcome (enableAvrules (base.reorder l h)) (enableAvrules base) := by
    intro l h
    rcases enableAvrules_cases hscoped with ⟨off, hrun, hleft, hkept⟩ | ⟨hrun, b, hb, hoptional, hnot⟩ <;>
      rcases enableAvrules_cases (classesScoped_reorder h hscoped) with ⟨off', hrun', hleft', hkept'⟩ |
        ⟨hrun', b', hb', hoptional', hnot'⟩
    · rw [hrun, hrun']
      refine SameOutcome.ok (enabledDecls_reorder h ?_)
      intro b hb
      rw [← not_iff_not, hleft b hb, hleft' b ((mem_blocks_reorder h).mpr hb), greatest_reorder]
    · rw [greatest_reorder] at hnot'
      exact absurd (hkept b' ((mem_blocks_reorder h).mp hb') hoptional') hnot'
    · rw [greatest_reorder] at hkept'
      exact absurd (hkept' b ((mem_blocks_reorder h).mpr hb) hoptional) hnot
    · rw [hrun, hrun']
      exact SameOutcome.error _
  rcases enableAvrules_cases hscoped with ⟨off, hrun, hleft, hkept⟩ | ⟨hrun, b, hb, hoptional, hnot⟩
  · refine ⟨iff_of_true ⟨_, hrun⟩ hkept, ?_, fun hno => absurd ⟨_, hrun⟩ hno, horder⟩
    intro out hout
    obtain rfl := Except.ok.inj (Option.some.inj (hrun.symm.trans hout))
    refine ⟨?_, ?_⟩
    · exact congrArg (base.global :: ·) ((map_map ..).trans (map_id _))
    · intro b d hmem
      obtain ⟨hb, hfirst, hother⟩ := mem_enabledDecls hmem
      refine ⟨hfirst.trans (hleft b hb), ?_⟩
      intro hothers hnot
      rw [← hleft b hb, not_not] at hnot
      exact hother hothers hnot
  · have hno : ¬ ∃ out, enableAvrules base = some (.ok out) := by
      rintro ⟨out, hout⟩
      rw [hrun] at hout
      cases hout
    refine ⟨iff_of_false hno fun hall => hnot (hall b hb hoptional), ?_, fun _ => hrun, horder⟩
    exact fun out hout => absurd ⟨out, hout⟩ hno

section Classes

variable {base : Base} {syms : List Sym}

theorem Base.Meets.of_subset {syms' : List Sym} (hsub : syms ⊆ syms') {decl : Decl} (h : base.Meets syms' s decl) :
    base.Meets syms s decl :=
  ⟨fun sym hsym => h.symbols sym (hsub hsym), h.permissions⟩

theorem greatest_subset : base.greatest (.classes :: checkedSyms) ⊆ base.greatest checkedSyms := by
  refine OrderHom.le_gfp _ ?_
  intro b hb
  rw [Base.greatest, ← OrderHom.map_gfp] at hb
  exact ⟨hb.1, hb.2.of_subset (subset_cons_self _ _)⟩

theorem closed_greatest : base.Closed (base.greatest checkedSyms) := by
  intro b hb
  rwa [Base.greatest, ← OrderHom.map_gfp] at hb

theorem mem_greatest_iff : b ∈ base.greatest checkedSyms ↔ ∃ s, base.Closed s ∧ b ∈ s :=
  ⟨fun hb => ⟨_, closed_greatest, hb⟩, fun ⟨_, hs, hb⟩ => OrderHom.le_gfp _ hs hb⟩

/-- The two greatest sets are the same exactly if closed sets have the classes they require. -/
theorem greatest_eq_iff : base.greatest checkedSyms ⊆ base.greatest (.classes :: checkedSyms) ↔
    ∀ s, base.Closed s → ∀ b ∈ s, ∀ j ∈ (b.first.required.scope .classes).bits,
      ∃ id t, datumAt (base.symValToName .classes) (j + 1) = some id ∧ base.Closed t ∧ base.DeclaredBy t .classes id := by
  constructor
  · intro hsub s hs b hb j hj
    have hin := hsub (mem_greatest_iff.mpr ⟨s, hs, hb⟩)
    rw [Base.greatest, ← OrderHom.map_gfp] at hin
    obtain ⟨id, hid, hdecl⟩ := hin.2.symbols .classes mem_cons_self j hj
    exact ⟨id, _, hid, closed_greatest, hdecl.mono greatest_subset⟩
  · intro hclasses
    refine OrderHom.le_gfp _ ?_
    intro b hb
    obtain ⟨hblock, hmeets⟩ := closed_greatest hb
    refine ⟨hblock, forall_mem_cons.mpr ⟨?_, hmeets.symbols⟩, hmeets.permissions⟩
    intro j hj
    obtain ⟨id, t, hid, ht, hdecl⟩ := hclasses _ closed_greatest b hb j hj
    exact ⟨id, hid, hdecl.mono (OrderHom.le_gfp _ ht)⟩

end Classes

/-- The outcome is that of the greatest set of blocks that declare all they require, classes
    included, exactly if the classes are provided without a look at them. -/
theorem enableAvrules_outcome_iff (base : Base) (hscoped : base.ClassesScoped) :
    Outcome base (base.greatest (.classes :: checkedSyms)) ↔ base.ClassesProvided := by
  have hcode := enableAvrules_greatest hscoped
  unfold Base.ClassesProvided
  rw [← greatest_eq_iff]
  simp only [← mem_greatest_iff]
  constructor
  · intro hclaim hall b hb
    -- a block that is kept is in the smaller set
    obtain ⟨out, hout⟩ := hcode.success.mpr hall
    have hblock := (closed_greatest hb).1
    rw [← (hcode.enabled out hout).1] at hblock
    obtain ⟨⟨b, d⟩, hmem, rfl⟩ := mem_map.mp hblock
    have hfirst := ((hcode.enabled out hout).2 b d hmem).1.mpr hb
    exact ((hclaim.enabled out hout).2 b d hmem).1.mp hfirst
  · intro hsub
    by_cases hall : ∀ b ∈ base.blocks, b.optional = false → b ∈ base.greatest checkedSyms
    · rw [greatest_subset.antisymm (hsub hall)]
      exact hcode
    · have hno : ¬ ∃ out, enableAvrules base = some (.ok out) := fun hout => hall (hcode.success.mp hout)
      refine ⟨iff_of_false hno fun hin => hall ?_, fun out hout => absurd ⟨out, hout⟩ hno, hcode.failure, hcode.order⟩
      exact fun b hb hoptional => greatest_subset (hin b hb hoptional)

/-! ## Two policies

Each table has one symbol, `x`. -/

/-- The symbol of one table. -/
def requires (sym : Sym) : ScopeIndex where
  scope := fun s => if s = sym then Bitmap.word 1#64 else Bitmap.empty

def classX : ClassDatum := { value := 1, permissions := [("read".toList, 1)] }

/-- Blocks 2 and 3 require each other's role and type, block 2 the global block's class and block 3 a
    permission of it too; block 5 requires a boolean that nothing declares. -/
def mutualBase : Base where
  global := { first := { declId := 1 }, optional := false }
  others := [
    { first := { declId := 2, required := { scope := fun s => if s = .roles ∨ s = .classes then Bitmap.word 1#64
      else Bitmap.empty } }, optional := true },
    { first := { declId := 3, required := { requires .types with classPermsMap := [Bitmap.word 1#64] } },
      elses := [{ declId := 4 }], optional := true },
    { first := { declId := 5, required := requires .bools }, elses := [{ declId := 6 }], optional := true }]
  symValToName := fun _ => [some ['x']]
  scope := fun sym _ =>
    match sym with
    | .classes => some ⟨.decl, [1]⟩
    | .roles => some ⟨.decl, [3]⟩
    | .types => some ⟨.decl, [2]⟩
    | .bools => some ⟨.req, [5]⟩
    | _ => none
  pClasses := fun _ => some classX
  classValToStruct := [some classX]
  numDecls := 6
  ids := by decide
  range := by decide
  named := by
    intro b hb sym
    revert b
    cases sym <;> decide
  perms := by
    intro b hb ij hij
    have h : ij = (0, 0) := by
      revert ij b
      decide
    subst h
    exact ⟨['x'], classX, rfl, rfl, rfl, rfl⟩

theorem mutualBase_outcome : mutualBase.ClassesScoped ∧
    Outcome mutualBase (mutualBase.greatest (.classes :: checkedSyms)) := by
  have hscoped : mutualBase.ClassesScoped := by
    intro b hb ij hij id hid hnone
    cases hnone
  refine ⟨hscoped, (enableAvrules_outcome_iff mutualBase hscoped).mpr ?_⟩
  -- the class is declared by the global block, which requires nothing
  have hglobal : mutualBase.Closed {mutualBase.global} := by
    intro b hb
    obtain rfl := Set.mem_singleton_iff.mp hb
    have hnothing : ∀ sym, (mutualBase.global.first.required.scope sym).bits = [] := by
      intro sym
      cases sym <;> decide
    refine ⟨mem_cons_self, fun sym _ j hj => ?_, fun ij hij => ?_⟩
    · rw [hnothing] at hj
      cases hj
    · have hnone : mutualBase.global.first.requiredPerms = [] := rfl
      rw [hnone] at hij
      cases hij
  intro _ s hs b hb j hj
  have hfirst : ∀ b ∈ mutualBase.blocks, ∀ j ∈ (b.first.required.scope .classes).bits, j = 0 := by decide
  obtain rfl := hfirst b (hs hb).1 j hj
  exact ⟨['x'], _, rfl, hglobal, ⟨.decl, [1]⟩, rfl, rfl, mutualBase.global, rfl, mem_cons_self⟩

/-- Block 2 requires a class, with no permission of it; block 3 would declare the class, and
    requires a boolean that nothing declares. -/
def classBase : Base where
  global := { first := { declId := 1 }, optional := false }
  others := [
    { first := { declId := 2, required := requires .classes }, optional := true },
    { first := { declId := 3, required := requires .bools }, optional := true }]
  symValToName := fun _ => [some ['x']]
  scope := fun sym _ =>
    match sym with
    | .classes => some ⟨.decl, [3]⟩
    | .bools => some ⟨.req, [3]⟩
    | _ => none
  pClasses := fun _ => some classX
  classValToStruct := [some classX]
  numDecls := 3
  ids := by decide
  range := by decide
  named := by
    intro b hb sym
    revert b
    cases sym <;> decide
  perms := by
    intro b hb ij hij
    refine absurd hij ?_
    revert ij b
    decide

/-- Block 2 is kept, and is not in the greatest set of blocks that declare what they require. -/
theorem required_class_disabled :
    classBase.ClassesScoped ∧ ∃ out b, enableAvrules classBase = some (.ok out) ∧ (b, some b.first) ∈ out ∧
      b ∉ classBase.greatest (.classes :: checkedSyms) := by
  refine ⟨?_, enabledDecls classBase [3],
    { first := { declId := 2, required := requires .classes }, optional := true }, rfl, ?_, ?_⟩
  · intro b hb ij hij id hid hnone
    cases hnone
  · exact mem_cons_of_mem _ mem_cons_self
  · intro hin
    -- block 2 needs block 3, which needs a declared boolean
    rw [Base.greatest, ← OrderHom.map_gfp] at hin
    obtain ⟨id, -, sd, hsd, -, b, hb, hid⟩ := hin.2.symbols .classes mem_cons_self 0 (by decide)
    cases hsd
    rw [← OrderHom.map_gfp] at hb
    obtain ⟨hblock, hmeets⟩ := hb
    have hbools : ∀ b ∈ classBase.blocks, b.first.declId ∈ [3] → 0 ∈ (b.first.required.scope .bools).bits := by decide
    obtain ⟨id, -, sd, hsd, hdecl, -⟩ := hmeets.symbols .bools (by decide) 0 (hbools b hblock hid)
    cases hsd
    cases hdecl

end SELinux.Link
