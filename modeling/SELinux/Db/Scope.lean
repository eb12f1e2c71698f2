/-
  SELinux.Db.Scope — declared and required symbols (`libsepol/src/policydb.c`:
  `symtab_insert`; `avrule_block.c`: `is_id_enabled`; `include/sepol/policydb/policydb.h`:
  `scope_datum_t`).

  A module policy keeps with each name how it is known, required or declared, and the ids of
  the blocks' branches that do so. The comment of `scope_datum_t` says that of a declared name
  these are the declaring ones. `symtab_insert` changes a required name into a declared one and
  keeps the ids of those that required it.

  `is_id_enabled_iff`: when a name is then taken for enabled only through a branch that
  declares it. `required_id_enabled` is a name whose declaration is not enabled and which is
  taken for enabled.

  Allocation succeeds.
-/
import SELinux.Db.Types
import SELinux.Lib.Run

namespace SELinux.Db

open List

/-- `SYM_*` -/
inductive Sym
  | commons
  | classes
  | roles
  | types
  | users
  | bools
  | levels
  | cats
  deriving DecidableEq, Repr

/-- `SCOPE_REQ` and `SCOPE_DECL` -/
inductive Scope
  | req
  | decl
  deriving DecidableEq, Repr

variable {scope : Scope} {key : Name} {i : Nat}

structure ScopeDatum where
  scope : Scope
  declIds : List Nat
  deriving DecidableEq, Repr

variable {α : Type}

/-- A symbol table and the scope table beside it. -/
structure SymScope (α : Type) where
  table : Name → Option α := fun _ => none
  nprim : Nat := 0
  scope : Name → Option ScopeDatum := fun _ => none

def put {β : Type} (t : Name → Option β) (key : Name) (d : β) : Name → Option β := fun k => if k = key then some d else t k

theorem put_self {β : Type} (t : Name → Option β) (key : Name) (d : β) : put t key d key = some d := if_pos rfl

theorem put_ne {β : Type} (t : Name → Option β) {key k : Name} (d : β) (h : k ≠ key) : put t key d k = t k := if_neg h

/-! ## Inserting -/

/-- The symbol itself. `primary` is false for an alias, which has no value. -/
def SymScope.insert (t : SymScope α) (key : Name) (datum : α) (primary : Bool) : Int × SymScope α :=
  match t.table key with
  | none => (0, { t with table := put t.table key datum, nprim := if primary then t.nprim + 1 else t.nprim })
  | some _ => (1, t)

/-- Names known in one way that cannot be made known in the other. `regular` is `ROLE_ROLE`. -/
def scopeConflict (sym : Sym) (regular : α → Bool) (base : Option α) (datum : α) : Scope → Scope → Bool
  | .decl, .decl =>
    if sym = .roles then !(base.any regular && regular datum)
    else sym != .users
  | .decl, .req => true
  | .req, _ => false

def addDeclId (declIds : List Nat) (declId : Nat) : List Nat := if declId ∈ declIds then declIds else declIds ++ [declId]

def symtabInsert (sym : Sym) (regular : α → Bool) (t : SymScope α) (key : Name) (datum : α) (primary : Bool) (scope : Scope)
    (avruleDeclId : Nat) : Int × SymScope α :=
  let r := t.insert key datum primary
  match r.2.scope key with
  | none => (r.1, { r.2 with scope := put r.2.scope key ⟨scope, [avruleDeclId]⟩ })
  | some scopeDatum =>
    if scopeConflict sym regular (r.2.table key) datum scopeDatum.scope scope then (-2, r.2)
    else (r.1, { r.2 with scope := put r.2.scope key ⟨scope, addDeclId scopeDatum.declIds avruleDeclId⟩ })

/-- `declValToStruct` has the branches of the blocks by their ids. -/
def isIdEnabled (declValToStruct : List (Option AvruleDecl)) (t : SymScope α) (id : Name) : Bool :=
  match t.scope id with
  | none => false
  | some scope =>
    scope.scope == .decl && scope.declIds.any fun i => (datumAt declValToStruct i).any fun decl => decl.enabled

theorem insert_scope (t : SymScope α) (key : Name) (datum : α) (primary : Bool) :
    (t.insert key datum primary).2.scope = t.scope := by
  unfold SymScope.insert
  split <;> rfl

theorem mem_addDeclId {l : List Nat} {i j : Nat} : j ∈ addDeclId l i ↔ j ∈ l ∨ j = i := by
  unfold addDeclId
  split
  next h =>
    refine (or_iff_left_of_imp ?_).symm
    intro heq
    subst heq
    exact h
  · rw [mem_append, mem_singleton]

theorem nodup_addDeclId {l : List Nat} (h : l.Nodup) (i : Nat) : (addDeclId l i).Nodup := by
  unfold addDeclId
  split
  · exact h
  next hi =>
    rw [nodup_append]
    refine ⟨h, nodup_singleton i, ?_⟩
    intro a ha b hb heq
    rw [mem_singleton] at hb
    rw [← hb, ← heq] at hi
    exact hi ha

variable {regular : α → Bool} {sym : Sym}

/-- What a first insertion leaves in the table. -/
theorem symtabInsert_table {t : SymScope α} {datum : α} {primary : Bool}
    (h : (symtabInsert sym regular t key datum primary scope i).1 = 0) :
    t.table key = none ∧ (symtabInsert sym regular t key datum primary scope i).2.table = put t.table key datum := by
  cases ht : t.table key with
  | none =>
    refine ⟨rfl, ?_⟩
    unfold symtabInsert SymScope.insert
    simp only [ht]
    split
    · rfl
    · split <;> rfl
  | some d =>
    unfold symtabInsert SymScope.insert at h
    simp only [ht] at h
    split at h
    · cases h
    · split at h <;> cases h

/-- What an insertion that does not fail leaves in the scope table. -/
theorem symtabInsert_scope {t : SymScope α} {datum : α} {primary : Bool}
    (h : 0 ≤ (symtabInsert sym regular t key datum primary scope i).1) :
    (symtabInsert sym regular t key datum primary scope i).2.scope =
        put t.scope key ⟨scope, addDeclId ((t.scope key).elim [] ScopeDatum.declIds) i⟩ ∧
      ∀ sd, t.scope key = some sd → sd.scope = .decl → scope = .decl ∧ (sym = .roles ∨ sym = .users) := by
  unfold symtabInsert at h ⊢
  simp only [insert_scope] at h ⊢
  cases hsd : t.scope key with
  | none =>
    refine ⟨rfl, ?_⟩
    intro sd heq
    cases heq
  | some sd =>
    simp only [hsd] at h ⊢
    split at h
    · exact absurd h (show ¬(0 : Int) ≤ -2 by decide)
    next hconflict =>
      rw [if_neg hconflict]
      refine ⟨rfl, ?_⟩
      intro sd' heq hdecl
      cases heq
      rw [hdecl] at hconflict
      cases scope with
      | req => exact absurd rfl hconflict
      | decl =>
        refine ⟨rfl, ?_⟩
        unfold scopeConflict at hconflict
        by_cases hr : sym = .roles
        · exact Or.inl hr
        · rw [if_neg hr, bne_iff_ne, not_not] at hconflict
          exact Or.inr hconflict

/-! ## Sequences of insertions -/

structure InsertCall (α : Type) where
  sym : Sym
  key : Name
  datum : α
  primary : Bool := true
  scope : Scope
  declId : Nat

/-- One call on the tables of a policy; `none` when it fails. -/
def insertStep (regular : α → Bool) (p : Sym → SymScope α) (c : InsertCall α) : Option (Sym → SymScope α) :=
  let r := symtabInsert c.sym regular (p c.sym) c.key c.datum c.primary c.scope c.declId
  if r.1 = 0 ∨ r.1 = 1 then some fun sym => if sym = c.sym then r.2 else p sym else none

def insertAll (regular : α → Bool) (calls : List (InsertCall α)) (p : Sym → SymScope α) : Option (Sym → SymScope α) :=
  calls.foldlM (insertStep regular) p

def InsertCall.Names (c : InsertCall α) (sym : Sym) (key : Name) : Prop := c.sym = sym ∧ c.key = key

/-- The entry that a table has for a name, with this scope and this id. -/
def Entered (p : Sym → SymScope α) (scope : Scope) (sym : Sym) (key : Name) (i : Nat) : Prop :=
  ∃ sd, (p sym).scope key = some sd ∧ sd.scope = scope ∧ i ∈ sd.declIds

/-- The branch `i` declares the name (or requires it): in the tables one starts with, or by a
    call. -/
def NamedBy (p₀ : Sym → SymScope α) (calls : List (InsertCall α)) (scope : Scope) (sym : Sym) (key : Name) (i : Nat) :
    Prop :=
  Entered p₀ scope sym key i ∨ ∃ c ∈ calls, c.Names sym key ∧ c.scope = scope ∧ c.declId = i

abbrev Declared (p₀ : Sym → SymScope α) (calls : List (InsertCall α)) := NamedBy p₀ calls .decl

abbrev Required (p₀ : Sym → SymScope α) (calls : List (InsertCall α)) := NamedBy p₀ calls .req

/-- What holds of the tables one starts with, such as the empty ones of `policydb_init`. -/
structure WellScoped (p : Sym → SymScope α) : Prop where
  nonempty : ∀ sym key sd, (p sym).scope key = some sd → sd.declIds ≠ []
  nodup : ∀ sym key sd, (p sym).scope key = some sd → sd.declIds.Nodup
  once : ∀ sym key i j, sym = .types ∨ sym = .bools → Entered p .decl sym key i → Entered p .decl sym key j → i = j

/-- The scope tables say what the calls were: whether a name was declared, and by ids without
    repetition who named it. Types and booleans are not declared twice. -/
structure Records (p₀ : Sym → SymScope α) (calls : List (InsertCall α)) (p : Sym → SymScope α) : Prop where
  absent : ∀ sym key, (p sym).scope key = none → ∀ i scope, ¬NamedBy p₀ calls scope sym key i
  isDecl : ∀ sym key sd, (p sym).scope key = some sd → (sd.scope = .decl ↔ ∃ i, Declared p₀ calls sym key i)
  ids : ∀ sym key sd, (p sym).scope key = some sd → ∀ i, i ∈ sd.declIds ↔ ∃ scope, NamedBy p₀ calls scope sym key i
  nodup : ∀ sym key sd, (p sym).scope key = some sd → sd.declIds.Nodup
  once : ∀ sym key i j, sym = .types ∨ sym = .bools → Declared p₀ calls sym key i → Declared p₀ calls sym key j → i = j

variable {p₀ : Sym → SymScope α}

theorem namedBy_nil : NamedBy p₀ [] scope sym key i ↔ Entered p₀ scope sym key i := by
  unfold NamedBy
  simp only [not_mem_nil, false_and, exists_false, or_false]

variable {calls : List (InsertCall α)} {c : InsertCall α}

theorem namedBy_concat : NamedBy p₀ (calls ++ [c]) scope sym key i ↔
      NamedBy p₀ calls scope sym key i ∨ (c.Names sym key ∧ c.scope = scope ∧ c.declId = i) := by
  unfold NamedBy
  simp only [mem_append, mem_singleton, or_and_right, exists_or, exists_eq_left, or_assoc]

variable {p p' : Sym → SymScope α}

theorem insertStep_inv (h : insertStep regular p c = some p') :
    (p' c.sym).scope = put (p c.sym).scope c.key
      ⟨c.scope, addDeclId (((p c.sym).scope c.key).elim [] ScopeDatum.declIds) c.declId⟩ ∧
      (∀ sym, sym ≠ c.sym → p' sym = p sym) ∧
      ∀ sd, (p c.sym).scope c.key = some sd → sd.scope = .decl → c.scope = .decl ∧ (c.sym = .roles ∨ c.sym = .users) := by
  simp only [insertStep] at h
  split_ifs at h with hrc
  cases h
  have hok : 0 ≤ (symtabInsert c.sym regular (p c.sym) c.key c.datum c.primary c.scope c.declId).1 := by
    omega
  obtain ⟨hscope, hagain⟩ := symtabInsert_scope hok
  refine ⟨?_, ?_, hagain⟩
  · simp only [if_true]
    exact hscope
  · intro sym hne
    exact if_neg hne

/-- What the step leaves for a name. -/
theorem insertStep_scope (h : insertStep regular p c = some p') (sym : Sym) (key : Name) :
    (¬c.Names sym key ∧ (p' sym).scope key = (p sym).scope key) ∨
      (c.Names sym key ∧ (p' sym).scope key =
        some ⟨c.scope, addDeclId (((p sym).scope key).elim [] ScopeDatum.declIds) c.declId⟩) := by
  obtain ⟨hscope, hother, -⟩ := insertStep_inv h
  by_cases hsym : c.sym = sym
  · subst hsym
    rw [hscope]
    by_cases hkey : c.key = key
    · subst hkey
      exact Or.inr ⟨⟨rfl, rfl⟩, put_self _ _ _⟩
    · exact Or.inl ⟨fun hn => hkey hn.2, put_ne _ _ (Ne.symm hkey)⟩
  · exact Or.inl ⟨fun hn => hsym hn.1, by rw [hother sym (Ne.symm hsym)]⟩

theorem records_nil (hp : WellScoped p₀) : Records p₀ [] p₀ where
  absent := by
    intro sym key hnone i scope h
    obtain ⟨sd, hsd, -⟩ := namedBy_nil.mp h
    rw [hnone] at hsd
    cases hsd
  isDecl := by
    intro sym key sd hsd
    simp only [namedBy_nil]
    constructor
    · intro hdecl
      obtain ⟨i, hi⟩ := exists_mem_of_ne_nil _ (hp.nonempty sym key sd hsd)
      exact ⟨i, sd, hsd, hdecl, hi⟩
    · intro h
      obtain ⟨i, sd', hsd', hdecl, -⟩ := h
      cases hsd.symm.trans hsd'
      exact hdecl
  ids := by
    intro sym key sd hsd i
    simp only [namedBy_nil]
    constructor
    · intro hi
      exact ⟨sd.scope, sd, hsd, rfl, hi⟩
    · intro h
      obtain ⟨scope, sd', hsd', -, hi⟩ := h
      cases hsd.symm.trans hsd'
      exact hi
  nodup := hp.nodup
  once := by
    intro sym key i j hsym
    rw [Declared, namedBy_nil, namedBy_nil]
    exact hp.once sym key i j hsym

theorem records_step (hr : Records p₀ calls p) (h : insertStep regular p c = some p') : Records p₀ (calls ++ [c]) p' := by
  obtain ⟨-, -, hagain⟩ := insertStep_inv h
  -- a name the call is not about keeps its entry, and its history
  have hold : ∀ sym key, ¬c.Names sym key → ∀ i scope,
      NamedBy p₀ (calls ++ [c]) scope sym key i ↔ NamedBy p₀ calls scope sym key i := by
    intro sym key hn i scope
    rw [namedBy_concat]
    exact or_iff_left fun hc => hn hc.1
  -- a name that was declared can be named again only by a declaration of a role or a user
  have hdeclared : ∀ sym key i, Declared p₀ calls sym key i → c.Names sym key → c.scope = .decl ∧
      (sym = .roles ∨ sym = .users) := by
    intro sym key i hi hn
    cases hsd : (p sym).scope key with
    | none => exact absurd hi (hr.absent sym key hsd i .decl)
    | some sd =>
      have hdecl := (hr.isDecl sym key sd hsd).mpr ⟨i, hi⟩
      obtain ⟨rfl, rfl⟩ := hn
      exact hagain sd hsd hdecl
  constructor
  case absent =>
    intro sym key hnone i scope
    rcases insertStep_scope h sym key with ⟨hn, hsame⟩ | ⟨-, hnew⟩
    · rw [hold sym key hn i]
      exact hr.absent sym key (hsame ▸ hnone) i scope
    · rw [hnew] at hnone
      cases hnone
  case isDecl =>
    intro sym key sd hsd
    rcases insertStep_scope h sym key with ⟨hn, hsame⟩ | ⟨hn, hnew⟩
    · simp only [Declared, hold sym key hn]
      exact hr.isDecl sym key sd (hsame ▸ hsd)
    · rw [hnew] at hsd
      cases hsd
      constructor
      · intro hdecl
        exact ⟨c.declId, namedBy_concat.mpr (Or.inr ⟨hn, hdecl, rfl⟩)⟩
      · intro hd
        obtain ⟨i, hi⟩ := hd
        rcases namedBy_concat.mp hi with hi | ⟨-, hdecl, -⟩
        · exact (hdeclared sym key i hi hn).1
        · exact hdecl
  case ids =>
    intro sym key sd hsd i
    rcases insertStep_scope h sym key with ⟨hn, hsame⟩ | ⟨hn, hnew⟩
    · simp only [hold sym key hn]
      exact hr.ids sym key sd (hsame ▸ hsd) i
    · rw [hnew] at hsd
      cases hsd
      have hbefore : i ∈ ((p sym).scope key).elim [] ScopeDatum.declIds ↔ ∃ scope, NamedBy p₀ calls scope sym key i := by
        cases hsd : (p sym).scope key with
        | none => exact iff_of_false not_mem_nil (not_exists.mpr (hr.absent sym key hsd i))
        | some sd => exact hr.ids sym key sd hsd i
      rw [mem_addDeclId, hbefore]
      simp only [namedBy_concat, exists_or]
      refine or_congr_right ⟨?_, ?_⟩
      · intro hi
        exact ⟨c.scope, hn, rfl, hi.symm⟩
      · intro hc
        obtain ⟨scope, -, -, hi⟩ := hc
        exact hi.symm
  case nodup =>
    intro sym key sd hsd
    rcases insertStep_scope h sym key with ⟨-, hsame⟩ | ⟨-, hnew⟩
    · exact hr.nodup sym key sd (hsame ▸ hsd)
    · rw [hnew] at hsd
      cases hsd
      refine nodup_addDeclId ?_ _
      cases hsd : (p sym).scope key with
      | none => exact nodup_nil
      | some sd => exact hr.nodup sym key sd hsd
  case once =>
    intro sym key i j hsym hi hj
    have hfirst : ∀ {k}, Declared p₀ calls sym key k → ¬c.Names sym key := by
      intro k hk hn
      have hagain := (hdeclared sym key k hk hn).2
      rcases hsym with rfl | rfl <;> revert hagain <;> decide
    rcases namedBy_concat.mp hi with hi | ⟨hni, -, hi⟩
    · rcases namedBy_concat.mp hj with hj | ⟨hnj, -, -⟩
      · exact hr.once sym key i j hsym hi hj
      · exact absurd hnj (hfirst hi)
    · rcases namedBy_concat.mp hj with hj | ⟨-, -, hj⟩
      · exact absurd hni (hfirst hj)
      · exact hi.symm.trans hj

theorem records_insertAll (hp : WellScoped p₀) (h : insertAll regular calls p₀ = some p) : Records p₀ calls p := by
  refine Lib.Run.foldlM_history ?_ (records_nil hp) h
  intro done c q q' _ hr hstep
  exact records_step hr hstep

/-! ## Enabled symbols -/

def declEnabled (declValToStruct : List (Option AvruleDecl)) (i : Nat) : Bool :=
  (datumAt declValToStruct i).any fun decl => decl.enabled

/-- A name is enabled when an enabled branch declares it, and a declared type or boolean has
    exactly one id. -/
def ScopesRight (decls : List (Option AvruleDecl)) (p₀ : Sym → SymScope α) (calls : List (InsertCall α))
    (p : Sym → SymScope α) : Prop :=
  (∀ sym id, isIdEnabled decls (p sym) id = true ↔ ∃ i, Declared p₀ calls sym id i ∧ declEnabled decls i = true) ∧
    ∀ sym id sd, sym = .types ∨ sym = .bools → (p sym).scope id = some sd → sd.scope = .decl → sd.declIds.length = 1

/-- Whoever requires a declared name is not enabled, or some declaration of it is; a type or a
    boolean is required only where it is declared. -/
def RequiredSafely (decls : List (Option AvruleDecl)) (p₀ : Sym → SymScope α) (calls : List (InsertCall α)) : Prop :=
  ∀ sym id i j, Required p₀ calls sym id i → Declared p₀ calls sym id j →
    (declEnabled decls i = true → ∃ k, Declared p₀ calls sym id k ∧ declEnabled decls k = true) ∧
      (sym = .types ∨ sym = .bools → i = j)

theorem Records.isIdEnabled_iff (hr : Records p₀ calls p) (decls : List (Option AvruleDecl)) (sym : Sym) (id : Name) :
    isIdEnabled decls (p sym) id = true ↔ (∃ j, Declared p₀ calls sym id j) ∧
      ∃ i, (∃ scope, NamedBy p₀ calls scope sym id i) ∧ declEnabled decls i = true := by
  unfold isIdEnabled
  cases hsd : (p sym).scope id with
  | none =>
    refine iff_of_false Bool.false_ne_true ?_
    intro h
    obtain ⟨⟨j, hj⟩, -⟩ := h
    exact hr.absent sym id hsd j .decl hj
  | some sd =>
    simp only [Bool.and_eq_true, beq_iff_eq, any_eq_true]
    rw [hr.isDecl sym id sd hsd]
    simp only [hr.ids sym id sd hsd, declEnabled]

theorem Records.one_id_iff (hr : Records p₀ calls p) {id : Name} {sd : ScopeDatum} (hsym : sym = .types ∨ sym = .bools)
    (hsd : (p sym).scope id = some sd) {j : Nat} (hj : Declared p₀ calls sym id j) :
    sd.declIds.length = 1 ↔ ∀ i, Required p₀ calls sym id i → i = j := by
  have hmem := (hr.ids sym id sd hsd j).mpr ⟨.decl, hj⟩
  constructor
  · intro hlen i hi
    obtain ⟨k, hk⟩ := length_eq_one_iff.mp hlen
    have hi' := (hr.ids sym id sd hsd i).mpr ⟨.req, hi⟩
    rw [hk, mem_singleton] at hmem hi'
    exact hi'.trans hmem.symm
  · intro hall
    have hsub : sd.declIds ⊆ [j] := by
      intro i hi
      rw [mem_singleton]
      obtain ⟨scope, hnamed⟩ := (hr.ids sym id sd hsd i).mp hi
      cases scope with
      | decl => exact hr.once sym id i j hsym hnamed hj
      | req => exact hall i hnamed
    refine Nat.le_antisymm ?_ (length_pos_of_mem hmem)
    exact (hr.nodup sym id sd hsd).length_le_of_subset hsub

theorem is_id_enabled_iff (regular : α → Bool) (decls : List (Option AvruleDecl)) (p₀ : Sym → SymScope α)
    (hp : WellScoped p₀) (calls : List (InsertCall α)) (p : Sym → SymScope α) (h : insertAll regular calls p₀ = some p) :
    ScopesRight decls p₀ calls p ↔ RequiredSafely decls p₀ calls := by
  have hr := records_insertAll hp h
  constructor
  · intro hright sym id i j hi hj
    refine ⟨?_, ?_⟩
    · intro hen
      exact (hright.1 sym id).mp ((hr.isIdEnabled_iff decls sym id).mpr ⟨⟨j, hj⟩, i, ⟨.req, hi⟩, hen⟩)
    · intro hsym
      cases hsd : (p sym).scope id with
      | none => exact absurd hj (hr.absent sym id hsd j .decl)
      | some sd =>
        have hlen := hright.2 sym id sd hsym hsd ((hr.isDecl sym id sd hsd).mpr ⟨j, hj⟩)
        exact (hr.one_id_iff hsym hsd hj).mp hlen i hi
  · intro hsafe
    refine ⟨?_, ?_⟩
    · intro sym id
      rw [hr.isIdEnabled_iff decls sym id]
      constructor
      · intro hen
        obtain ⟨⟨j, hj⟩, i, ⟨scope, hi⟩, hen⟩ := hen
        cases scope with
        | decl => exact ⟨i, hi, hen⟩
        | req => exact (hsafe sym id i j hi hj).1 hen
      · intro hd
        obtain ⟨i, hi, hen⟩ := hd
        exact ⟨⟨i, hi⟩, i, ⟨.decl, hi⟩, hen⟩
    · intro sym id sd hsym hsd hdecl
      obtain ⟨j, hj⟩ := (hr.isDecl sym id sd hsd).mp hdecl
      refine (hr.one_id_iff hsym hsd hj).mpr ?_
      intro i hi
      exact (hsafe sym id i j hi hj).2 hsym

/-- A branch that requires the name and one that declares it, the first enabled. -/
def requiredThenDeclared (declaring : Bool) : List (Option AvruleDecl) :=
  [none, some { enabled := true }, some { enabled := declaring }]

theorem is_id_enabled_iff_role :
    ∃ p, insertAll (fun _ : Unit => true)
        [⟨.roles, ['r'], (), true, .req, 2⟩, ⟨.roles, ['r'], (), true, .decl, 3⟩] (fun _ => {}) = some p ∧
      (ScopesRight (requiredThenDeclared true)
        (fun _ => {}) [⟨.roles, ['r'], (), true, .req, 2⟩, ⟨.roles, ['r'], (), true, .decl, 3⟩] p ↔
        RequiredSafely (requiredThenDeclared true) (fun _ => {})
          [⟨.roles, ['r'], (), true, .req, 2⟩, ⟨.roles, ['r'], (), true, .decl, 3⟩]) :=
  ⟨_, rfl, is_id_enabled_iff (fun _ => true) (requiredThenDeclared true) (fun _ => {}) ⟨nofun, nofun, nofun⟩ _ _ rfl⟩

theorem required_id_enabled :
    ∃ p, insertAll (fun _ : Unit => true)
        [⟨.types, ['t'], (), true, .req, 2⟩, ⟨.types, ['t'], (), true, .decl, 3⟩] (fun _ => {}) = some p ∧
      isIdEnabled (requiredThenDeclared false) (p .types) ['t'] = true ∧
      (∀ i, Declared (fun _ => {}) [⟨.types, ['t'], (), true, .req, 2⟩, ⟨.types, ['t'], (), true, .decl, 3⟩] .types ['t'] i →
        declEnabled (requiredThenDeclared false) i = false) ∧
      (p .types).scope ['t'] = some ⟨.decl, [2, 3]⟩ := by
  refine ⟨_, rfl, by decide, ?_, by decide⟩
  intro i hi
  rcases hi with ⟨sd, hsd, -⟩ | ⟨c, hc, -, hscope, hi⟩
  · cases hsd
  · simp only [mem_cons, not_mem_nil, or_false] at hc
    rcases hc with rfl | rfl
    · cases hscope
    · subst hi
      decide

end SELinux.Db
