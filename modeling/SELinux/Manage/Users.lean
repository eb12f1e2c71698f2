/-
  SELinux.Manage.Users — user records of a kernel policy (`libsepol/src/users.c`:
  `sepol_user_modify`; `policydb.c`: `user_datum_init`, `user_datum_destroy`; `expand.c`:
  `role_set_expand`).

  A user is modified in place. An existing datum is emptied first and then filled from the
  record, role by role and level by level; a new datum is filled on the side and comes into the
  policy at the end. Two things follow. A record that turns out to be wrong leaves an existing
  user half filled. And the cache, from which contexts are checked, is built only where a new
  user is added, so that a user that was modified is left with an empty one.

  Proved:
  - `sepolUserModify_ok_iff`: a modification that succeeds does what it should exactly when the
    user is new or the record's roles dominate nothing; `modified_user_locked_out` is a user
    whose valid context is not valid any more.
  - `sepolUserModify_error_iff`: one that fails leaves the policy as it was exactly when the user
    does not exist or has nothing to lose; `failed_modify_empties_user` is one that has.

  In the code a slot of `user_val_to_struct` points to the datum that the table has under the
  slot's name; here it is looked up by that name. Of the datum the fields of modules are left
  out: kernel policies have no semantic levels, and no flags in role sets. Allocation succeeds.
-/
import SELinux.Db.Bitset
import SELinux.Db.MlsText

namespace SELinux.Manage

open Db List

/-! ## The policy -/

structure UserDatum extends Db.UserDatum where
  roles : Bitmap := Bitmap.empty
  expDfltlevel : MlsLevel := {}

/-- `sepol_user_t`, without the name, which the key has. -/
structure UserRecord where
  roles : List Name := []
  mlsLevel : Option Name := none
  mlsRange : Option Name := none

variable {d : UserDatum} {p : Policydb} {user : UserRecord} {old : UserDatum} {name : Name}

/-- A kernel policy with its users. `user_index` lets no value past `nprim` in. -/
structure UserPolicy where
  db : Policydb
  users : Symtab UserDatum (fun d => d.value)
  bounded : ∀ e ∈ users.table, e.2.value ≤ users.nprim

/-- `user_val_to_struct[v - 1]` -/
def UserPolicy.structAt (p : UserPolicy) (v : Nat) : Option UserDatum := (p.users.name? v).bind p.users.search

theorem lookup_map_snd {α β : Type} (f : α → β) (name : Name) (l : List (Name × α)) :
    (l.map fun e => (e.1, f e.2)).lookup name = (l.lookup name).map f := by
  induction l with
  | nil => rfl
  | cons e l ih =>
    rw [map_cons, lookup_cons, lookup_cons]
    cases name == e.1 with
    | true => rfl
    | false => exact ih

/-- The policy as `context_is_valid` sees it. -/
def UserPolicy.toDb (p : UserPolicy) : Policydb :=
  { p.db with
    pUsers := {
      table := p.users.table.map fun e => (e.1, e.2.toUserDatum)
      valToName := p.users.valToName
      indexed := by
        intro i name hi
        obtain ⟨d, hd, hv⟩ := p.users.indexed i name hi
        exact ⟨d.toUserDatum, by rw [lookup_map_snd, hd]; rfl, hv⟩ }
    userValToStruct := p.users.valToName.map fun name => (name.bind p.users.search).map fun d => d.toUserDatum }

theorem UserPolicy.datumAt_toDb (p : UserPolicy) (v : Nat) :
    datumAt p.toDb.userValToStruct v = (p.structAt v).map fun d => d.toUserDatum := by
  unfold datumAt structAt Symtab.name?
  by_cases h0 : v = 0
  · simp [h0]
  · simp only [if_neg h0, toDb, getD_eq_getElem?_getD, List.getElem?_map]
    cases p.users.valToName[v - 1]? <;> rfl

/-! ## Filling a datum -/

inductive UserError
  | undefinedRole (role : Name)
  | noMlsLevel
  | invalidMls (str : Name)
  | noMlsRange
  | mlsDisabled
  | outOfMemory
  deriving DecidableEq

/-- Each bit of a bitmap set in another one. -/
def setBits (dst src : Bitmap) : Option Bitmap := src.bits.foldlM (fun dst bit => dst.setBit bit true) dst

/-- `role_set_expand` of a set without flags, with no role map. -/
def roleSetExpand (roles : Bitmap) : Option Bitmap := setBits Bitmap.empty roles

/-- The loop over the roles of the record; what it has set so far stays. -/
def fillRoles (p : Policydb) (d : UserDatum) : List Name → Except UserError Unit × UserDatum
  | [] => (.ok (), d)
  | role :: l =>
    match p.pRoles.search role with
    | none => (.error (.undefinedRole role), d)
    | some roldatum =>
      match setBits d.roles roldatum.dominates with
      | none => (.error .outOfMemory, d)
      | some roles => fillRoles p { d with roles } l

def fillMls (p : Policydb) (user : UserRecord) (d : UserDatum) : Except UserError Unit × UserDatum :=
  if p.mls then
    match user.mlsLevel with
    | none => (.error .noMlsLevel, d)
    | some level =>
      match mlsFromString p level with
      | none => (.error (.invalidMls level), d)
      | some context =>
        let d := { d with expDfltlevel := context.low }
        match user.mlsRange with
        | none => (.error .noMlsRange, d)
        | some range =>
          match mlsFromString p range with
          | none => (.error (.invalidMls range), d)
          | some context => (.ok (), { d with expRange := context })
  else if user.mlsLevel.isSome || user.mlsRange.isSome then (.error .mlsDisabled, d)
  else (.ok (), d)

def fillUser (p : Policydb) (user : UserRecord) (d : UserDatum) : Except UserError Unit × UserDatum :=
  match fillRoles p d user.roles with
  | (.error e, d) => (.error e, d)
  | (.ok (), d) => fillMls p user d

/-- `user_datum_init`, with the value put back. -/
def emptyUser (value : Nat) : UserDatum := { value }

/-- What the bits of a bitmap are set to. -/
theorem setBits_spec (dst src : Bitmap) : ∃ r, setBits dst src = some r ∧ ∀ i, r.has i = (dst.has i || src.has i) := by
  obtain ⟨r, hr⟩ := Bitmap.setBits_isSome (fun i hi => (src.2.getBit_lt (Bitmap.mem_bits.mp hi)).2) dst
  refine ⟨r, hr, ?_⟩
  intro i
  rw [Bitmap.has_setBits hr]
  congr 1
  rw [Bool.eq_iff_iff, decide_eq_true_iff]
  exact Bitmap.mem_bits

theorem roleSetExpand_eq (roles : Bitmap) : roleSetExpand roles = some roles := by
  obtain ⟨r, hr, hbits⟩ := setBits_spec Bitmap.empty roles
  have heq : r = roles := Bitmap.ext fun i => by rw [hbits, Bitmap.has_empty, Bool.false_or]
  rw [roleSetExpand, hr, heq]

/-- The roles dominated by the roles of these names. -/
def dominated (p : Policydb) (roles : List Name) : Set Nat :=
  { i | ∃ role ∈ roles, ∃ roldatum, p.pRoles.search role = some roldatum ∧ roldatum.dominates.has i = true }

def roleDefined (p : Policydb) (role : Name) : Bool := (p.pRoles.search role).isSome

theorem dominated_cons {role : Name} {roles : List Name} {i : Nat} :
    i ∈ dominated p (role :: roles) ↔
      (∃ roldatum, p.pRoles.search role = some roldatum ∧ roldatum.dominates.has i = true) ∨ i ∈ dominated p roles := by
  show (∃ r ∈ role :: roles, ∃ roldatum, p.pRoles.search r = some roldatum ∧ roldatum.dominates.has i = true) ↔ _
  rw [exists_mem_cons_iff]
  rfl

/-- The loop over the roles: it ends at the first one that is not defined, and until then sets
    what the roles dominate. -/
theorem fillRoles_spec (p : Policydb) (l : List Name) (d : UserDatum) :
    ∃ roles, (fillRoles p d l).2 = { d with roles } ∧
      (∀ i, roles.has i = true ↔ d.roles.has i = true ∨ i ∈ dominated p (l.takeWhile (roleDefined p))) ∧
      ((fillRoles p d l).1 = .ok () ↔ ∀ role ∈ l, roleDefined p role = true) := by
  induction l generalizing d with
  | nil => exact ⟨d.roles, rfl, fun i => by simp [dominated], by simp [fillRoles]⟩
  | cons role l ih =>
    rw [fillRoles]
    cases hrole : p.pRoles.search role with
    | none =>
      have hundefined : roleDefined p role = false := by simp [roleDefined, hrole]
      exact ⟨d.roles, rfl, by simp [hundefined, dominated], by simp [hundefined]⟩
    | some roldatum =>
      have hdefined : roleDefined p role = true := by simp [roleDefined, hrole]
      obtain ⟨roles, hroles, hbits⟩ := setBits_spec d.roles roldatum.dominates
      obtain ⟨r, hr, hr', hok⟩ := ih { d with roles }
      simp only [hroles]
      refine ⟨r, hr, ?_, by simp [hok, hdefined]⟩
      intro i
      rw [hr', hbits, Bool.or_eq_true, takeWhile_cons, if_pos hdefined, dominated_cons, hrole, or_assoc]
      simp

/-- What the levels become, and when they do. -/
theorem fillMls_ok (h : (fillMls p user d).1 = .ok ()) :
    (p.mls = true → ∃ level range low full, user.mlsLevel = some level ∧ user.mlsRange = some range ∧
      mlsFromString p level = some low ∧ mlsFromString p range = some full ∧
      (fillMls p user d).2 = { d with expDfltlevel := low.low, expRange := full }) ∧
    (p.mls = false → (fillMls p user d).2 = d) := by
  revert h
  fun_cases fillMls p user d with
  | case5 hmls level hlevel low hlow _ range hrange full hfull =>
    intro _
    exact ⟨fun _ => ⟨level, range, low, full, hlevel, hrange, hlow, hfull, rfl⟩,
      fun hno => absurd (hmls.symm.trans hno) (by decide)⟩
  | case7 hmls _ =>
    intro _
    exact ⟨fun hyes => absurd hyes hmls, fun _ => rfl⟩
  | _ =>
    intro h
    cases h

/-- The default level that a record has set when it turns out to be wrong. -/
def levelSet (p : Policydb) (user : UserRecord) : MlsLevel :=
  if p.mls then ((user.mlsLevel.bind (mlsFromString p)).map fun context => context.low).getD {} else {}

theorem fillMls_error {e : UserError} (hd : d.expDfltlevel = {})
    (h : (fillMls p user d).1 = .error e) : (fillMls p user d).2 = { d with expDfltlevel := levelSet p user } := by
  have hsame : d = { d with expDfltlevel := {} } := by
    obtain ⟨d, roles, level⟩ := d
    cases hd
    rfl
  revert h
  fun_cases fillMls p user d with
  | case1 hmls hlevel =>
    intro _
    simpa [levelSet, hmls, hlevel] using hsame
  | case2 hmls level hlevel hlow =>
    intro _
    simpa [levelSet, hmls, hlevel, hlow] using hsame
  | case3 hmls level hlevel low hlow | case4 hmls level hlevel low hlow =>
    intro _
    rw [levelSet, if_pos hmls, hlevel, Option.bind_some, hlow]
    rfl
  | case6 hmls =>
    intro _
    simpa [levelSet, hmls] using hsame
  | case5 | case7 =>
    intro h
    cases h

/-- The whole of a datum that was filled. -/
theorem fillUser_ok {value : Nat} (h : (fillUser p user (emptyUser value)).1 = .ok ()) :
    ∃ roles level range, (fillUser p user (emptyUser value)).2 = { value, roles, expDfltlevel := level, expRange := range } ∧
      (∀ i, roles.has i = true ↔ i ∈ dominated p user.roles) ∧
      (p.mls = true → ∃ str context, user.mlsLevel = some str ∧ mlsFromString p str = some context ∧ level = context.low) ∧
      (p.mls = true → ∃ str, user.mlsRange = some str ∧ mlsFromString p str = some range) := by
  obtain ⟨roles, hroles, hbits, hdefined⟩ := fillRoles_spec p user.roles (emptyUser value)
  unfold fillUser at *
  rcases hfill : fillRoles p (emptyUser value) user.roles with ⟨e | u, d⟩
  · simp [hfill] at h
  simp only [hfill] at h hroles hdefined ⊢
  have hbits : ∀ i, roles.has i = true ↔ i ∈ dominated p user.roles := by
    intro i
    rw [hbits, takeWhile_eq_self_iff.mpr (hdefined.mp trivial)]
    simp [emptyUser, Bitmap.has_empty]
  obtain ⟨hmls, hnomls⟩ := fillMls_ok h
  cases hp : p.mls with
  | false => exact ⟨roles, {}, {}, by rw [hnomls hp, hroles]; rfl, hbits, nofun, nofun⟩
  | true =>
    obtain ⟨level, range, low, full, hlevel, hrange, hlow, hfull, heq⟩ := hmls hp
    exact ⟨roles, low.low, full, by rw [heq, hroles]; rfl, hbits, fun _ => ⟨level, low, hlevel, hlow, rfl⟩,
      fun _ => ⟨range, hrange, hfull⟩⟩

/-- The whole of a datum at which filling stopped. -/
theorem fillUser_error {value : Nat} {e : UserError} (h : (fillUser p user (emptyUser value)).1 = .error e) :
    ∃ roles, (fillUser p user (emptyUser value)).2 =
        { value, roles, expDfltlevel := if user.roles.all (roleDefined p) then levelSet p user else {} } ∧
      ∀ i, roles.has i = true ↔ i ∈ dominated p (user.roles.takeWhile (roleDefined p)) := by
  obtain ⟨roles, hroles, hbits, hdefined⟩ := fillRoles_spec p user.roles (emptyUser value)
  have hbits : ∀ i, roles.has i = true ↔ i ∈ dominated p (user.roles.takeWhile (roleDefined p)) := by
    intro i
    rw [hbits]
    simp [emptyUser, Bitmap.has_empty]
  refine ⟨roles, ?_, hbits⟩
  unfold fillUser at *
  rcases hfill : fillRoles p (emptyUser value) user.roles with ⟨e' | u, d⟩
  · rw [hfill] at hroles hdefined
    have hnot : ¬ user.roles.all (roleDefined p) = true := by
      rw [all_eq_true, ← hdefined]
      nofun
    rw [if_neg hnot]
    exact hroles
  · rw [hfill] at h hroles hdefined
    have hroles : d = { emptyUser value with roles } := hroles
    rw [if_pos (all_eq_true.mpr (hdefined.mp rfl))]
    have hlevel : d.expDfltlevel = {} := by rw [hroles]; rfl
    rw [fillMls_error hlevel h, hroles]
    rfl

theorem fillUser_value (p : Policydb) (user : UserRecord) (value : Nat) :
    (fillUser p user (emptyUser value)).2.value = value := by
  cases h : (fillUser p user (emptyUser value)).1 with
  | ok u =>
    obtain ⟨roles, level, range, heq, -⟩ := fillUser_ok h
    rw [heq]
  | error e =>
    obtain ⟨roles, heq, -⟩ := fillUser_error h
    rw [heq]

/-! ## Modifying a user -/

/-- The table with the datum of a name changed. -/
def setDatum (name : Name) (d : UserDatum) (table : List (Name × UserDatum)) : List (Name × UserDatum) :=
  table.map fun e => if e.1 = name then (e.1, d) else e

theorem lookup_setDatum (name : Name) (d : UserDatum) (table : List (Name × UserDatum)) (n : Name) :
    (setDatum name d table).lookup n = if n = name then (table.lookup n).map fun _ => d else table.lookup n := by
  unfold setDatum
  induction table with
  | nil => simp
  | cons e l ih =>
    have hkey : (if e.1 = name then (e.1, d) else e).1 = e.1 := by
      split
      · rfl
      · rfl
    rw [map_cons, lookup_cons, lookup_cons, hkey, ih]
    by_cases hne : n = e.1
    · subst hne
      by_cases hn : e.1 = name <;> simp [hn]
    · rw [beq_eq_false_iff_ne.mpr hne]

/-- The existing datum is changed where it is. -/
def UserPolicy.setUser (p : UserPolicy) (name : Name) {old : UserDatum} (hold : p.users.search name = some old)
    (d : UserDatum) (hvalue : d.value = old.value) : UserPolicy where
  db := p.db
  users := {
    table := setDatum name d p.users.table
    valToName := p.users.valToName
    indexed := by
      intro i n hi
      obtain ⟨e, he, hv⟩ := p.users.indexed i n hi
      rw [lookup_setDatum, he]
      by_cases hn : n = name
      · rw [if_pos hn]
        have hsame : old = e := by
          rw [hn] at he
          exact Option.some.inj (hold.symm.trans he)
        exact ⟨d, rfl, by rw [hvalue, hsame]; exact hv⟩
      · rw [if_neg hn]
        exact ⟨e, rfl, hv⟩ }
  bounded := by
    intro e he
    have hle : d.value ≤ p.users.nprim := hvalue ▸ p.bounded _ (Symtab.mem_of_search hold)
    obtain ⟨e', he', rfl⟩ := List.mem_map.mp he
    split
    · exact hle
    · exact p.bounded e' he'

/-- The new datum gets the next value and comes into the table and the arrays. -/
def UserPolicy.addUser (p : UserPolicy) (name : Name) (hnone : p.users.search name = none) (d : UserDatum)
    (hvalue : d.value = p.users.nprim + 1) : UserPolicy where
  db := p.db
  users := {
    table := p.users.table ++ [(name, d)]
    valToName := p.users.valToName ++ [some name]
    indexed := by
      intro i n hi
      rw [List.lookup_append]
      rcases Nat.lt_trichotomy i p.users.valToName.length with hlt | heq | hgt
      · rw [List.getElem?_append_left hlt] at hi
        obtain ⟨e, he, hv⟩ := p.users.indexed i n hi
        exact ⟨e, by rw [he]; rfl, hv⟩
      · rw [List.getElem?_append_right (by omega), heq, Nat.sub_self] at hi
        cases hi
        refine ⟨d, ?_, by rw [hvalue, heq]; rfl⟩
        rw [show p.users.table.lookup name = none from hnone]
        simp [List.lookup]
      · rw [List.getElem?_eq_none (by simp; omega)] at hi
        cases hi }
  bounded := by
    intro e he
    show e.2.value ≤ (p.users.valToName ++ [some name]).length
    rw [List.length_append, List.length_singleton]
    rcases List.mem_append.mp he with he | he
    · exact Nat.le_succ_of_le (p.bounded e he)
    · obtain rfl := List.mem_singleton.mp he
      exact Nat.le_of_eq hvalue

/-- `sepol_user_modify`. The value of a new user is set only once it is filled. -/
def sepolUserModify (p : UserPolicy) (cname : Name) (user : UserRecord) : Except UserError Unit × UserPolicy :=
  match h : p.users.search cname with
  | some old =>
    ((fillUser p.db user (emptyUser old.value)).1,
      p.setUser cname h (fillUser p.db user (emptyUser old.value)).2 (fillUser_value p.db user old.value))
  | none =>
    match (fillUser p.db user (emptyUser 0)).1 with
    | .error e => (.error e, p)
    | .ok () =>
      match roleSetExpand (fillUser p.db user (emptyUser 0)).2.roles with
      | some cache =>
        (.ok (), p.addUser cname h { (fillUser p.db user (emptyUser 0)).2 with value := p.users.nprim + 1, cache } rfl)
      | none =>
        (.error .outOfMemory, p.addUser cname h { (fillUser p.db user (emptyUser 0)).2 with value := p.users.nprim + 1 } rfl)

/-- What happens to an existing user. -/
theorem sepolUserModify_existing {p : UserPolicy} {cname : Name} (h : p.users.search cname = some old) (user : UserRecord) :
    sepolUserModify p cname user = ((fillUser p.db user (emptyUser old.value)).1,
      p.setUser cname h (fillUser p.db user (emptyUser old.value)).2 (fillUser_value p.db user old.value)) := by
  unfold sepolUserModify
  split
  next old' h' =>
    obtain rfl : old = old' := Option.some.inj (h.symm.trans h')
    rfl
  next h' =>
    rw [h] at h'
    cases h'

/-- What happens with a new one. -/
theorem sepolUserModify_new {p : UserPolicy} {cname : Name} (h : p.users.search cname = none) (user : UserRecord) :
    (∃ e, (fillUser p.db user (emptyUser 0)).1 = .error e ∧ sepolUserModify p cname user = (.error e, p)) ∨
      ((fillUser p.db user (emptyUser 0)).1 = .ok () ∧ sepolUserModify p cname user =
        (.ok (), p.addUser cname h { (fillUser p.db user (emptyUser 0)).2 with
          value := p.users.nprim + 1, cache := (fillUser p.db user (emptyUser 0)).2.roles } rfl)) := by
  unfold sepolUserModify
  split
  next h' =>
    rw [h] at h'
    cases h'
  · rw [roleSetExpand_eq]
    cases (fillUser p.db user (emptyUser 0)).1 with
    | error e => exact Or.inl ⟨e, rfl, rfl⟩
    | ok u => exact Or.inr ⟨rfl, rfl⟩

theorem search_setUser {p : UserPolicy} {hold : p.users.search name = some old} {hvalue : d.value = old.value} (n : Name) :
    (p.setUser name hold d hvalue).users.search n = if n = name then some d else p.users.search n := by
  refine (lookup_setDatum name d p.users.table n).trans ?_
  by_cases hn : n = name
  · simp [hn, show p.users.table.lookup name = some old from hold]
  · simp [hn, Symtab.search]

theorem search_addUser {p : UserPolicy} {hnone : p.users.search name = none} {hvalue : d.value = p.users.nprim + 1}
    (n : Name) : (p.addUser name hnone d hvalue).users.search n = if n = name then some d else p.users.search n := by
  show (p.users.table ++ [(name, d)]).lookup n = _
  rw [lookup_append]
  by_cases hn : n = name
  · rw [hn, if_pos rfl, show p.users.table.lookup name = none from hnone]
    simp [List.lookup]
  · have hne : (n == name) = false := beq_eq_false_iff_ne.mpr hn
    rw [if_neg hn, lookup_cons, hne]
    cases hl : p.users.table.lookup n with
    | none => exact hl.symm
    | some e => exact hl.symm

/-! ## A modification that succeeds -/

/-- Of a context of this user everything but the user's roles is in order. -/
def OtherwiseValid (p : Policydb) (c : Context) : Prop :=
  c.role ≠ 0 ∧ c.role ≤ p.pRoles.nprim ∧ c.user ≠ 0 ∧ c.user ≤ p.pUsers.nprim ∧ c.type ≠ 0 ∧ c.type ≤ p.pTypes.nprim ∧
    (∃ role, datumAt p.roleValToStruct c.role = some role ∧ role.cache.has (c.type - 1) = true) ∧
      mlsContextIsvalid p c = true

/-- The check of the user's role is what is left. -/
theorem contextIsValid_iff_cache {c : Context} {d : Db.UserDatum} (hd : datumAt p.userValToStruct c.user = some d)
    (hrole : c.role ≠ objectRVal) (h : OtherwiseValid p c) :
    contextIsValid p c = true ↔ d.cache.has (c.role - 1) = true := by
  obtain ⟨hr0, hrmax, hu0, humax, ht0, htmax, ⟨role, hrole', htype⟩, hmls⟩ := h
  unfold contextIsValid
  rw [if_neg (by omega), if_neg (by omega), if_neg (by omega)]
  have hauth : rolesAuthorized p c = d.cache.has (c.role - 1) := by
    unfold rolesAuthorized
    rw [hrole', hd]
    simp [htype]
  rw [hauth, hmls]
  cases d.cache.has (c.role - 1) <;> simp [hrole]

/-- What is asked of a modification of a user. -/
structure Modified (p p' : UserPolicy) (cname : Name) (user : UserRecord) (d : UserDatum) : Prop where
  found : p'.users.search cname = some d
  cache : ∀ i, d.cache.has i = true ↔ i ∈ dominated p.db user.roles
  expanded : roleSetExpand d.roles = some d.cache
  contexts : p'.structAt d.value = some d → ∀ c : Context, c.user = d.value → c.role ≠ objectRVal →
    OtherwiseValid p'.toDb c → (contextIsValid p'.toDb c = true ↔ c.role - 1 ∈ dominated p.db user.roles)
  level : p.db.mls = true → ∃ str context, user.mlsLevel = some str ∧ mlsFromString p.db str = some context ∧
    d.expDfltlevel = context.low
  range : p.db.mls = true → ∃ str, user.mlsRange = some str ∧ mlsFromString p.db str = some d.expRange
  value : ∀ old, p.users.search cname = some old → d.value = old.value
  fresh : p.users.search cname = none → p'.structAt d.value = some d ∧ ∀ e ∈ p.users.table, e.2.value ≠ d.value
  others : ∀ name, name ≠ cname → p'.users.search name = p.users.search name
  slots : ∀ v, v ≠ d.value → p'.structAt v = p.structAt v

/-- The cache decides which contexts are accepted. -/
theorem contexts_of_cache {p' : UserPolicy} {roles : Set Nat} (hcache : ∀ i, d.cache.has i = true ↔ i ∈ roles)
    (hslot : p'.structAt d.value = some d) (c : Context) (hc : c.user = d.value) (hrole : c.role ≠ objectRVal)
    (h : OtherwiseValid p'.toDb c) : contextIsValid p'.toDb c = true ↔ c.role - 1 ∈ roles := by
  have hd : datumAt p'.toDb.userValToStruct c.user = some d.toUserDatum := by rw [p'.datumAt_toDb, hc, hslot]; rfl
  rw [contextIsValid_iff_cache hd hrole h]
  exact hcache _

theorem structAt_setUser {p : UserPolicy} {hold : p.users.search name = some old} {hvalue : d.value = old.value} {v : Nat}
    (hv : v ≠ d.value) : (p.setUser name hold d hvalue).structAt v = p.structAt v := by
  show (p.users.name? v).bind (p.setUser name hold d hvalue).users.search = (p.users.name? v).bind p.users.search
  cases hname : p.users.name? v with
  | none => rfl
  | some n =>
    show (p.setUser name hold d hvalue).users.search n = p.users.search n
    rw [search_setUser, if_neg]
    rintro rfl
    -- a slot with the name of the user is the user's own
    have := Symtab.value_of_search hname hold
    omega

theorem structAt_addUser (p : UserPolicy) (name : Name) (hnone : p.users.search name = none) (d : UserDatum)
    (hvalue : d.value = p.users.nprim + 1) :
    (p.addUser name hnone d hvalue).structAt d.value = some d ∧
      ∀ v, v ≠ d.value → (p.addUser name hnone d hvalue).structAt v = p.structAt v := by
  have hname : ∀ v, (p.addUser name hnone d hvalue).users.name? v = if v = d.value then some name else p.users.name? v := by
    intro v
    have hlen : p.users.valToName.length + 1 = d.value := hvalue.symm
    show (if v = 0 then none else (p.users.valToName ++ [some name]).getD (v - 1) none) = _
    unfold Symtab.name?
    rw [getD_eq_getElem?_getD, getD_eq_getElem?_getD]
    by_cases hv : v = d.value
    · rw [if_pos hv, if_neg (by omega), List.getElem?_append_right (by omega)]
      rw [show v - 1 - p.users.valToName.length = 0 by omega]
      rfl
    · rw [if_neg hv]
      by_cases hlt : v - 1 < p.users.valToName.length
      · rw [List.getElem?_append_left hlt]
      · by_cases h0 : v = 0
        · rw [if_pos h0, if_pos h0]
        · rw [if_neg h0, if_neg h0, List.getElem?_eq_none (by simp; omega), List.getElem?_eq_none (by omega)]
  unfold UserPolicy.structAt
  refine ⟨?_, ?_⟩
  · rw [hname, if_pos rfl]
    show (p.addUser name hnone d hvalue).users.search name = some d
    rw [search_addUser, if_pos rfl]
  · intro v hv
    rw [hname, if_neg hv]
    cases hn : p.users.name? v with
    | none => rfl
    | some n =>
      show (p.addUser name hnone d hvalue).users.search n = p.users.search n
      rw [search_addUser, if_neg]
      rintro rfl
      obtain ⟨e, he, -⟩ := Symtab.exists_of_name? hn
      rw [hnone] at he
      cases he

/-- A modification that succeeds does what is asked of it when the user is new, and otherwise only
    when the user ends up with no roles. -/
theorem sepolUserModify_ok_iff {p p' : UserPolicy} {cname : Name} {user : UserRecord}
    (h : sepolUserModify p cname user = (.ok (), p')) :
    (∃ d, Modified p p' cname user d) ↔ p.users.search cname = none ∨ dominated p.db user.roles = ∅ := by
  cases hold : p.users.search cname with
  | none =>
    refine iff_of_true ?_ (Or.inl rfl)
    rcases sepolUserModify_new hold user with ⟨e, -, heq⟩ | ⟨hok, heq⟩
    · rw [heq] at h
      cases h
    rw [heq] at h
    cases h
    obtain ⟨roles, level, range, hfill, hroles, hlevel, hrange⟩ := fillUser_ok hok
    simp only [hfill]
    obtain ⟨hslot, hslots⟩ := structAt_addUser p cname hold
      { value := p.users.nprim + 1, cache := roles, roles := roles, expDfltlevel := level, expRange := range } rfl
    refine ⟨_, ?_, hroles, roleSetExpand_eq roles, contexts_of_cache hroles, hlevel, hrange, ?_, ?_, ?_, hslots⟩
    · rw [search_addUser, if_pos rfl]
    · intro old hsome
      rw [hold] at hsome
      cases hsome
    · refine fun _ => ⟨hslot, ?_⟩
      intro e he heq
      have := p.bounded e he
      simp only at heq
      omega
    · intro name hname
      rw [search_addUser, if_neg hname]
  | some old =>
    rw [sepolUserModify_existing hold] at h
    obtain ⟨hok, hp'⟩ := Prod.mk.inj h
    obtain ⟨roles, level, range, hfill, hroles, hlevel, hrange⟩ := fillUser_ok hok
    have hfound : p'.users.search cname = some { value := old.value, roles, expDfltlevel := level, expRange := range } := by
      rw [← hp', search_setUser, if_pos rfl, hfill]
    constructor
    · rintro ⟨d, hd⟩
      refine Or.inr (Set.eq_empty_iff_forall_notMem.mpr ?_)
      intro i hi
      -- the cache of the datum is still the empty one
      have hcache := (hd.cache i).mpr hi
      have heq := Option.some.inj (hd.found.symm.trans hfound)
      rw [heq] at hcache
      exact absurd hcache (by simp [Bitmap.has_empty])
    · rintro (hnone | hempty)
      · cases hnone
      have hcache : ∀ i, Bitmap.empty.has i = true ↔ i ∈ dominated p.db user.roles := by
        intro i
        rw [hempty, Bitmap.has_empty]
        simp
      have hno : roles = Bitmap.empty := Bitmap.ext fun i => by rw [Bool.eq_iff_iff, hroles, hcache]
      refine ⟨_, hfound, hcache, ?_, contexts_of_cache hcache, hlevel, hrange, ?_, ?_, ?_, ?_⟩
      · rw [hno]
        exact roleSetExpand_eq _
      · intro old' hsome
        rw [hold] at hsome
        cases hsome
        rfl
      · intro hnone
        rw [hold] at hnone
        cases hnone
      · intro name hname
        rw [← hp', search_setUser, if_neg hname]
      · intro v hv
        rw [← hp']
        refine structAt_setUser ?_
        rw [fillUser_value]
        exact hv

/-! ## A modification that fails -/

/-- The same users with the same data, and the same `nprim`. -/
def Unchanged (p p' : UserPolicy) : Prop :=
  p'.users.nprim = p.users.nprim ∧ ∀ name, p'.users.search name = p.users.search name

/-- A user that has nothing but what the record sets before it turns out to be wrong. -/
structure NothingToLose (p : Policydb) (user : UserRecord) (old : UserDatum) : Prop where
  cache : ∀ i, old.cache.has i = false
  range : old.expRange = {}
  roles : ∀ i, old.roles.has i = true ↔ i ∈ dominated p (user.roles.takeWhile (roleDefined p))
  level : old.expDfltlevel = if user.roles.all (roleDefined p) then levelSet p user else {}

/-- A modification that fails leaves the policy as it was when there is no such user, and otherwise
    only when the user has nothing to lose. -/
theorem sepolUserModify_error_iff {p p' : UserPolicy} {cname : Name} {user : UserRecord} {e : UserError}
    (h : sepolUserModify p cname user = (.error e, p')) :
    Unchanged p p' ↔ ∀ old, p.users.search cname = some old → NothingToLose p.db user old := by
  cases hold : p.users.search cname with
  | none =>
    refine iff_of_true ?_ nofun
    rcases sepolUserModify_new hold user with ⟨e', -, heq⟩ | ⟨-, heq⟩
    · rw [heq] at h
      cases h
      exact ⟨rfl, fun _ => rfl⟩
    · rw [heq] at h
      cases h
  | some old =>
    rw [sepolUserModify_existing hold] at h
    obtain ⟨herror, hp'⟩ := Prod.mk.inj h
    obtain ⟨roles, hfill, hroles⟩ := fillUser_error herror
    have hsearch : ∀ name, p'.users.search name = if name = cname then
        some { value := old.value, roles, expDfltlevel := if user.roles.all (roleDefined p.db) then levelSet p.db user
          else {} }
        else p.users.search name := by
      intro name
      rw [← hp', search_setUser, hfill]
    constructor
    · rintro ⟨-, hsame⟩ old' hsome
      have heq := hsame cname
      rw [hsearch, if_pos rfl, hold] at heq
      obtain rfl : old' = _ := Option.some.inj (hsome.symm.trans heq.symm)
      exact ⟨fun i => Bitmap.has_empty i, rfl, hroles, rfl⟩
    · intro hlose
      obtain ⟨hcache, hrange, hroles', hlevel⟩ := hlose old rfl
      refine ⟨by rw [← hp']; rfl, ?_⟩
      intro name
      rw [hsearch]
      by_cases hname : name = cname
      · rw [if_pos hname, hname, hold]
        obtain ⟨⟨value, cache, range⟩, oldRoles, oldLevel⟩ := old
        have hc : cache = Bitmap.empty := Bitmap.ext fun i => by rw [Bitmap.has_empty]; exact hcache i
        have hr : oldRoles = roles := Bitmap.ext fun i => by rw [Bool.eq_iff_iff, hroles]; exact hroles' i
        cases hc
        cases hr
        cases hrange
        cases hlevel
        rfl
      · rw [if_neg hname]

/-! ## A user with one role -/

/-- The role `staff_r` after `object_r`, with the types of its cache. -/
def staffRole : RoleDatum := { value := 2, dominates := Bitmap.word 2#64, cache := Bitmap.word 1#64 }

def staffUser : UserDatum := { value := 1, cache := Bitmap.word 2#64, roles := Bitmap.word 2#64 }

def staffType : TypeDatum := { value := 1 }

def staffPolicy : UserPolicy where
  db := {
    pRoles := {
      table := [("object_r".toList, { value := 1 }), ("staff_r".toList, staffRole)]
      valToName := [some "object_r".toList, some "staff_r".toList]
      indexed := Symtab.indexed_of_indexes (by decide) }
    pTypes := Symtab.single "staff_t" staffType rfl
    roleValToStruct := [some { value := 1 }, some staffRole] }
  users := Symtab.single "staff_u" staffUser rfl
  bounded := by
    intro e he
    obtain rfl := List.mem_singleton.mp he
    decide

/-- A new user with the role gets it. -/
theorem new_user_modified :
    ∃ p' d, sepolUserModify staffPolicy "admin_u".toList { roles := ["staff_r".toList] } = (.ok (), p') ∧
      Modified staffPolicy p' "admin_u".toList { roles := ["staff_r".toList] } d := by
  have hnone : staffPolicy.users.search "admin_u".toList = none := by decide
  rcases sepolUserModify_new hnone { roles := ["staff_r".toList] } with ⟨e, he, -⟩ | ⟨-, heq⟩
  · have hok : (fillUser staffPolicy.db { roles := ["staff_r".toList] } (emptyUser 0)).1 = .ok () := by decide +kernel
    rw [hok] at he
    cases he
  · obtain ⟨d, hd⟩ := (sepolUserModify_ok_iff heq).mpr (Or.inl hnone)
    exact ⟨_, d, heq, hd⟩

/-- The user's record is written again as it is. It succeeds, and the context the user had before
    is not valid any more. -/
theorem modified_user_locked_out :
    (sepolUserModify staffPolicy "staff_u".toList { roles := ["staff_r".toList] }).1 = .ok () ∧
      contextIsValid staffPolicy.toDb { user := 1, role := 2, type := 1 } = true ∧
      contextIsValid (sepolUserModify staffPolicy "staff_u".toList { roles := ["staff_r".toList] }).2.toDb
        { user := 1, role := 2, type := 1 } = false :=
  ⟨by decide +kernel, by decide +kernel, by decide +kernel⟩

/-- A new user with a role that is not defined: nothing changes. -/
theorem failed_new_user_unchanged :
    ∃ e p', sepolUserModify staffPolicy "admin_u".toList { roles := ["staff_r".toList, "sysadm_r".toList] } =
      (.error e, p') ∧ Unchanged staffPolicy p' := by
  have hnone : staffPolicy.users.search "admin_u".toList = none := by decide
  rcases sepolUserModify_new hnone { roles := ["staff_r".toList, "sysadm_r".toList] } with ⟨e, -, heq⟩ | ⟨hok, -⟩
  · refine ⟨e, _, heq, (sepolUserModify_error_iff heq).mpr ?_⟩
    intro old hsome
    rw [hnone] at hsome
    cases hsome
  · have herror : (fillUser staffPolicy.db { roles := ["staff_r".toList, "sysadm_r".toList] } (emptyUser 0)).1 =
        .error (.undefinedRole "sysadm_r".toList) := by decide +kernel
    rw [hok] at herror
    cases herror

/-- The role is not defined, the call fails, and the user has lost its role and its cache. -/
theorem failed_modify_empties_user :
    (sepolUserModify staffPolicy "staff_u".toList { roles := ["sysadm_r".toList] }).1 =
      .error (.undefinedRole "sysadm_r".toList) ∧
      (staffPolicy.users.search "staff_u".toList).map (fun d => (d.roles.bits, d.cache.bits)) = some ([1], [1]) ∧
      ((sepolUserModify staffPolicy "staff_u".toList { roles := ["sysadm_r".toList] }).2.users.search "staff_u".toList).map
        (fun d => (d.roles.bits, d.cache.bits)) = some ([], []) :=
  ⟨by decide +kernel, by decide +kernel, by decide +kernel⟩

end SELinux.Manage
