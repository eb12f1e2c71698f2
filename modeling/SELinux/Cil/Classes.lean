/-
  SELinux.Cil.Classes — classes and their permissions in the policydb
  (`libsepol/cil/src/cil_binary.c`: `cil_common_to_policydb`, `cil_classorder_to_policydb`;
  `cil_verify.c`: `__cil_verify_class`).

  A permission's value is its place in its class, those of the common first, and
  `perm_value_to_cil` has a row of `PERMS_PER_CLASS + 1` entries for each class. Nothing
  compares the number of permissions with either the row or the 32 bits of an access vector.

  `class_perms_right_iff`: permissions have values of their own in 1..32, and sets of them
  words of their own, when a class has at most 32 permissions and none in common with its
  common. The second is what `__cil_verify_class` checks before. `class_of_33_perms` is a
  class that is accepted and written past the end of its row.

  Names are as `cil_fqn_qualify` leaves them, so that one name stands for one common.
  Allocation succeeds.
-/
import SELinux.Cil.Binary
import SELinux.Db.Scope

namespace SELinux.Cil

open Db Lib List

/-! ## Classes of the source -/

/-- The permissions are those below the node. -/
structure CommonDecl where
  fqn : Name
  perms : List CilPerm
  deriving DecidableEq

/-- Each permission below a node is a datum of its own. -/
structure ClassDecl where
  fqn : Name
  perms : List CilPerm
  common : Option CommonDecl := none
  nodes : (common.elim [] CommonDecl.perms ++ perms).Nodup

def ClassDecl.commonPerms (c : ClassDecl) : List CilPerm := c.common.elim [] CommonDecl.perms

def ClassDecl.allPerms (c : ClassDecl) : List CilPerm := c.commonPerms ++ c.perms

structure ClassOrder where
  classorder : List ClassDecl
  sameCommon : ∀ c ∈ classorder, ∀ d ∈ classorder, ∀ a b, c.common = some a → d.common = some b → a.fqn = b.fqn → a = b

def permsPerClass : Nat := 32

/-- `__cil_verify_class`: no permission of the common is declared again. -/
def cilVerifyClass (c : ClassDecl) : Bool :=
  c.common.all fun common => common.perms.all fun comPerm => c.perms.all fun classPerm => comPerm.fqn != classPerm.fqn

/-! ## Conversion -/

structure CommonDatum where
  value : Nat
  permissions : List (Name × Nat) := []
  permNprim : Nat := 0

/-- The tables of the policydb, and the two arrays as the lists of what is written to them:
    the class at an index, the permission at a row and an index. -/
structure ClassTables where
  commons : SymScope CommonDatum := {}
  classes : SymScope ClassDatum := {}
  classValueToCil : List (Nat × ClassDecl) := []
  permValueToCil : List (Nat × Nat × CilPerm) := []

variable {c : ClassDecl} {t t' : ClassTables} {l : List CilPerm} {db : ClassOrder} {p : CilPerm}

/-- `hashtab_insert` for each permission, with the next value. -/
def insertPerms : List (Name × Nat) → Nat → List CilPerm → Option (List (Name × Nat) × Nat)
  | table, nprim, [] => some (table, nprim)
  | table, nprim, p :: l =>
    if (table.lookup p.fqn).isSome then none
    else insertPerms (table ++ [(p.fqn, nprim + 1)]) (nprim + 1) l

def cilCommonToPolicydb (t : ClassTables) (common : CommonDecl) : Option (CommonDatum × ClassTables) :=
  let r := symtabInsert .commons (fun _ => true) t.commons common.fqn { value := 0 } true .decl 0
  if r.1 ≠ 0 then none
  else do
    let (permissions, permNprim) ← insertPerms [] 0 common.perms
    let sepolCommon : CommonDatum := { value := r.2.nprim, permissions, permNprim }
    return (sepolCommon, { t with commons := { r.2 with table := put r.2.table common.fqn sepolCommon } })

/-- The common of a class, converted the first time it is met. -/
def sepolCommonOf (t : ClassTables) : Option CommonDecl → Option (Option CommonDatum × ClassTables)
  | none => some (none, t)
  | some common =>
    match t.commons.table common.fqn with
    | some sepolCommon => some (some sepolCommon, t)
    | none => (cilCommonToPolicydb t common).map fun r => (some r.1, r.2)

/-- One round of `cil_classorder_to_policydb`. -/
def cilClassToPolicydb (t : ClassTables) (c : ClassDecl) : Option ClassTables :=
  let r := symtabInsert .classes (fun _ => true) t.classes c.fqn { value := 0 } true .decl 0
  if r.1 ≠ 0 then none
  else do
    let value := r.2.nprim
    let t := { t with classes := r.2, classValueToCil := t.classValueToCil ++ [(value, c)] }
    let (sepolCommon, t) ← sepolCommonOf t c.common
    let commonNprim := sepolCommon.elim 0 CommonDatum.permNprim
    let (permissions, permNprim) ← insertPerms [] commonNprim c.perms
    let sepolClass : ClassDatum := { value, comdatum := sepolCommon.map CommonDatum.permissions, permissions, permNprim }
    -- the common's permissions are counted from 1, the class's own take their values
    let writes := c.commonPerms.zipIdx 1 ++ c.perms.zipIdx (commonNprim + 1)
    return { t with
      classes := { t.classes with table := put t.classes.table c.fqn sepolClass }
      permValueToCil := t.permValueToCil ++ writes.map fun w => (value, w.2, w.1) }

def cilClassorderToPolicydb (classorder : List ClassDecl) : Option ClassTables := classorder.foldlM cilClassToPolicydb {}

/-! ## Numbers of permissions -/

/-- A table as `insertPerms` fills it. -/
def numberedNames (nprim : Nat) (perms : List CilPerm) : List (Name × Nat) :=
  (perms.zipIdx (nprim + 1)).map fun e => (e.1.fqn, e.2)

theorem numberedNames_cons (nprim : Nat) (p : CilPerm) (l : List CilPerm) :
    numberedNames nprim (p :: l) = (p.fqn, nprim + 1) :: numberedNames (nprim + 1) l := rfl

theorem numberedNames_values (nprim : Nat) (l : List CilPerm) :
    (numberedNames nprim l).map Prod.snd = List.range' (nprim + 1) l.length := by
  unfold numberedNames
  rw [map_map]
  exact zipIdx_map_snd _ _

theorem lookup_append_eq_none {β : Type} {l m : List (Name × β)} {k : Name} :
    (l ++ m).lookup k = none ↔ l.lookup k = none ∧ m.lookup k = none := by
  rw [lookup_append, Option.or_eq_none_iff]

theorem insertPerms_spec {table : List (Name × Nat)} {nprim : Nat} {r : List (Name × Nat) × Nat}
    (h : insertPerms table nprim l = some r) :
    r = (table ++ numberedNames nprim l, nprim + l.length) ∧ (l.map CilPerm.fqn).Nodup ∧
      ∀ p ∈ l, table.lookup p.fqn = none := by
  induction l generalizing table nprim with
  | nil =>
    cases h
    exact ⟨by rw [numberedNames, zipIdx_nil, map_nil, append_nil]; rfl, nodup_nil, nofun⟩
  | cons p l ih =>
    unfold insertPerms at h
    split_ifs at h with hp
    obtain ⟨hr, hnodup, hnone⟩ := ih h
    refine ⟨?_, ?_, ?_⟩
    · rw [hr, numberedNames_cons, append_assoc, length_cons, Nat.add_assoc, Nat.add_comm 1]
      rfl
    · rw [map_cons, nodup_cons]
      refine ⟨?_, hnodup⟩
      intro hmem
      obtain ⟨q, hq, heq⟩ := mem_map.mp hmem
      have hlookup := (lookup_append_eq_none.mp (hnone q hq)).2
      rw [heq] at hlookup
      simp at hlookup
    · intro q hq
      rcases mem_cons.mp hq with rfl | hq
      · exact Option.not_isSome_iff_eq_none.mp hp
      · exact (lookup_append_eq_none.mp (hnone q hq)).1

theorem lookup_numberedNames (hl : (l.map CilPerm.fqn).Nodup) {i : Nat} (nprim : Nat)
    (hp : l[i]? = some p) : (numberedNames nprim l).lookup p.fqn = some (nprim + i + 1) := by
  induction l generalizing i nprim with
  | nil => cases hp
  | cons q l ih =>
    rw [map_cons, nodup_cons] at hl
    rw [numberedNames_cons]
    cases i with
    | zero =>
      cases hp
      exact lookup_cons_self
    | succ i =>
      have hne : (p.fqn == q.fqn) = false := by
        rw [beq_eq_false_iff_ne]
        intro heq
        exact hl.1 (heq ▸ mem_map_of_mem (mem_of_getElem? hp))
      rw [lookup_cons, hne]
      refine (ih hl.2 (nprim + 1) hp).trans ?_
      congr 1
      omega

theorem lookup_numberedNames_eq_none {name : Name} (nprim : Nat) (h : ∀ p ∈ l, p.fqn ≠ name) :
    (numberedNames nprim l).lookup name = none := by
  induction l generalizing nprim with
  | nil => rfl
  | cons p l ih =>
    rw [numberedNames_cons, lookup_cons, beq_eq_false_iff_ne.mpr (h p mem_cons_self).symm]
    exact ih (nprim + 1) fun q hq => h q (mem_cons_of_mem p hq)

/-! ## What the conversion leaves -/

/-- The datum of a class. -/
def sepolClassOf (value : Nat) (c : ClassDecl) : ClassDatum where
  value
  comdatum := c.common.map fun common => numberedNames 0 common.perms
  permissions := numberedNames c.commonPerms.length c.perms
  permNprim := c.allPerms.length

/-- The datum in the table of commons is that of this common. -/
def CommonDatum.IsOf (d : CommonDatum) (common : CommonDecl) : Prop :=
  d.permissions = numberedNames 0 common.perms ∧ d.permNprim = common.perms.length ∧ (common.perms.map CilPerm.fqn).Nodup

/-- The tables after the classes of `done`. -/
structure Converted (done : List ClassDecl) (t : ClassTables) : Prop where
  classes : ∀ c ∈ done, ∃ value, t.classes.table c.fqn = some (sepolClassOf value c)
  commons : ∀ k d, t.commons.table k = some d → ∃ c ∈ done, ∃ common, c.common = some common ∧ common.fqn = k ∧ d.IsOf common
  names : ∀ c ∈ done, (c.perms.map CilPerm.fqn).Nodup ∧ (c.commonPerms.map CilPerm.fqn).Nodup
  writes : ∀ i, (∃ w ∈ t.permValueToCil, w.2.1 = i) ↔ ∃ c ∈ done, 1 ≤ i ∧ i ≤ c.allPerms.length

/-- The common of a class is found in the table, or made and put there. -/
structure FindsCommon (commons commons' : SymScope CommonDatum) (common : Option CommonDecl)
    (d : Option CommonDatum) : Prop where
  without : common = none → d = none ∧ commons' = commons
  others : ∀ a, common = some a → ∀ k, k ≠ a.fqn → commons'.table k = commons.table k
  found : ∀ a, common = some a → ∃ sepolCommon, d = some sepolCommon ∧ commons'.table a.fqn = some sepolCommon ∧
    (commons.table a.fqn = some sepolCommon ∨ sepolCommon.IsOf a)

theorem sepolCommonOf_spec {common : Option CommonDecl} {d : Option CommonDatum}
    (h : sepolCommonOf t common = some (d, t')) :
    t'.classes = t.classes ∧ t'.permValueToCil = t.permValueToCil ∧ FindsCommon t.commons t'.commons common d := by
  unfold sepolCommonOf at h
  cases common with
  | none =>
    cases h
    exact ⟨rfl, rfl, fun _ => ⟨rfl, rfl⟩, nofun, nofun⟩
  | some common =>
    simp only at h
    cases hfound : t.commons.table common.fqn with
    | some sepolCommon =>
      rw [hfound] at h
      cases h
      refine ⟨rfl, rfl, nofun, fun _ _ _ _ => rfl, ?_⟩
      intro a ha
      cases ha
      exact ⟨sepolCommon, rfl, hfound, Or.inl hfound⟩
    | none =>
      rw [hfound] at h
      obtain ⟨r, hr, heq⟩ := Option.map_eq_some_iff.mp h
      cases heq
      simp only [cilCommonToPolicydb] at hr
      split_ifs at hr with hrc
      obtain ⟨-, htable⟩ := symtabInsert_table (not_not.mp hrc)
      obtain ⟨⟨permissions, permNprim⟩, hperms, heq⟩ := Option.bind_eq_some_iff.mp hr
      cases heq
      obtain ⟨hspec, hnodup, -⟩ := insertPerms_spec hperms
      cases hspec
      refine ⟨rfl, rfl, nofun, ?_, ?_⟩
      · intro a ha k hk
        cases ha
        simp only
        rw [put_ne _ _ hk, htable, put_ne _ _ hk]
      · intro a ha
        cases ha
        exact ⟨_, rfl, put_self _ _ _, Or.inr ⟨rfl, Nat.zero_add _, hnodup⟩⟩

/-- The datum of a class whose common has been found. -/
def sepolClassWith (value : Nat) (d : Option CommonDatum) (perms : List CilPerm) : ClassDatum where
  value
  comdatum := d.map CommonDatum.permissions
  permissions := numberedNames (d.elim 0 CommonDatum.permNprim) perms
  permNprim := d.elim 0 CommonDatum.permNprim + perms.length

theorem cilClassToPolicydb_spec (h : cilClassToPolicydb t c = some t') :
    t.classes.table c.fqn = none ∧ (c.perms.map CilPerm.fqn).Nodup ∧ ∃ value d,
      FindsCommon t.commons t'.commons c.common d ∧
      t'.classes.table c.fqn = some (sepolClassWith value d c.perms) ∧
      (∀ k, k ≠ c.fqn → t'.classes.table k = t.classes.table k) ∧
      t'.permValueToCil = t.permValueToCil ++
        (c.commonPerms.zipIdx 1 ++ c.perms.zipIdx (d.elim 0 CommonDatum.permNprim + 1)).map fun w => (value, w.2, w.1) := by
  simp only [cilClassToPolicydb] at h
  split_ifs at h with hrc
  obtain ⟨hnew, htable⟩ := symtabInsert_table (not_not.mp hrc)
  obtain ⟨⟨d, t₁⟩, hcommon, h⟩ := Option.bind_eq_some_iff.mp h
  obtain ⟨⟨permissions, permNprim⟩, hperms, h⟩ := Option.bind_eq_some_iff.mp h
  cases h
  obtain ⟨hclasses, hwrites, hfinds⟩ := sepolCommonOf_spec hcommon
  obtain ⟨hspec, hnodup, -⟩ := insertPerms_spec hperms
  cases hspec
  refine ⟨hnew, hnodup, _, d, hfinds, put_self _ _ _, ?_, ?_⟩
  · intro k hk
    simp only
    rw [put_ne _ _ hk, hclasses]
    rw [htable, put_ne _ _ hk]
  · simp only
    rw [hwrites]

/-- The indices that a class's row is written at. -/
theorem exists_write_iff (c : ClassDecl) (value i : Nat) :
    (∃ w ∈ (c.commonPerms.zipIdx 1 ++ c.perms.zipIdx (c.commonPerms.length + 1)).map fun w => (value, w.2, w.1), w.2.1 = i) ↔
      1 ≤ i ∧ i ≤ c.allPerms.length := by
  have hzip : c.commonPerms.zipIdx 1 ++ c.perms.zipIdx (c.commonPerms.length + 1) = c.allPerms.zipIdx 1 := by
    unfold ClassDecl.allPerms
    rw [zipIdx_append, Nat.add_comm 1]
  have hindex : i ∈ (c.allPerms.zipIdx 1).map Prod.snd ↔ 1 ≤ i ∧ i ≤ c.allPerms.length := by
    rw [zipIdx_map_snd, mem_range'_1]
    omega
  rw [hzip, ← hindex]
  simp only [mem_map, exists_exists_and_eq_and]

/-- The common found for a class is the class's own. -/
theorem Converted.isOf {done : List ClassDecl} {t : ClassTables} {commons' : SymScope CommonDatum}
    {d : Option CommonDatum} (hconv : Converted done t) (hdone : ∀ e ∈ done, e ∈ db.classorder) (hc : c ∈ db.classorder)
    (hfinds : FindsCommon t.commons commons' c.common d) (a : CommonDecl) (ha : c.common = some a) :
    ∃ sepolCommon, d = some sepolCommon ∧ commons'.table a.fqn = some sepolCommon ∧ sepolCommon.IsOf a := by
  obtain ⟨sepolCommon, hd, hself, hfound | hof⟩ := hfinds.found a ha
  · obtain ⟨e, he, b, hb, hfqn, hof⟩ := hconv.commons _ _ hfound
    have hsame := db.sameCommon e (hdone e he) c hc b a hb ha hfqn
    exact ⟨sepolCommon, hd, hself, hsame ▸ hof⟩
  · exact ⟨sepolCommon, hd, hself, hof⟩

theorem converted_step {done : List ClassDecl} (hdone : ∀ e ∈ done, e ∈ db.classorder) (hmem : c ∈ db.classorder)
    (hconv : Converted done t) (h : cilClassToPolicydb t c = some t') : Converted (done ++ [c]) t' := by
  obtain ⟨hnew, hnodup, value, d, hfinds, hself, hothers, hwrites⟩ := cilClassToPolicydb_spec h
  have hof := hconv.isOf hdone hmem hfinds
  have hdatum : sepolClassWith value d c.perms = sepolClassOf value c ∧
    d.elim 0 CommonDatum.permNprim = c.commonPerms.length ∧
      (c.commonPerms.map CilPerm.fqn).Nodup := by
    unfold sepolClassWith sepolClassOf ClassDecl.allPerms ClassDecl.commonPerms
    cases hc : c.common with
    | none =>
      rw [(hfinds.without hc).1]
      exact ⟨by simp, rfl, nodup_nil⟩
    | some a =>
      obtain ⟨sepolCommon, rfl, -, hperms, hnprim, hnames⟩ := hof a hc
      refine ⟨?_, hnprim, hnames⟩
      simp [hperms, hnprim]
  obtain ⟨hdatum, hnprim, hcommonNodup⟩ := hdatum
  constructor
  case classes =>
    intro e he
    rcases mem_append.mp he with he | he
    · obtain ⟨v, hv⟩ := hconv.classes e he
      have hne : e.fqn ≠ c.fqn := by
        intro heq
        rw [heq, hnew] at hv
        cases hv
      exact ⟨v, (hothers e.fqn hne).trans hv⟩
    · rw [mem_singleton.mp he]
      exact ⟨value, hdatum ▸ hself⟩
  case commons =>
    intro k sepolCommon hk
    have hbefore : t.commons.table k = some sepolCommon →
        ∃ e ∈ done ++ [c], ∃ a, e.common = some a ∧ a.fqn = k ∧ sepolCommon.IsOf a := by
      intro hk
      obtain ⟨e, he, rest⟩ := hconv.commons k sepolCommon hk
      exact ⟨e, mem_append_left _ he, rest⟩
    cases hc : c.common with
    | none =>
      rw [(hfinds.without hc).2] at hk
      exact hbefore hk
    | some a =>
      obtain ⟨sepolCommon', -, htable, hisOf⟩ := hof a hc
      by_cases hkey : k = a.fqn
      · subst hkey
        cases htable.symm.trans hk
        exact ⟨c, mem_append_right _ mem_cons_self, a, hc, rfl, hisOf⟩
      · exact hbefore ((hfinds.others a hc k hkey).symm.trans hk)
  case names =>
    intro e he
    rcases mem_append.mp he with he | he
    · exact hconv.names e he
    · rw [mem_singleton.mp he]
      exact ⟨hnodup, hcommonNodup⟩
  case writes =>
    intro i
    rw [hwrites, hnprim]
    simp only [mem_append, mem_singleton, or_and_right, exists_or, exists_eq_left, hconv.writes i]
    simp only [exists_write_iff]

theorem converted_classorder {t : ClassTables} (h : cilClassorderToPolicydb db.classorder = some t) :
    Converted db.classorder t := by
  have hempty : Converted [] {} := by
    refine ⟨?_, nofun, ?_, by simp⟩
    · intro c hc
      cases hc
    · intro c hc
      cases hc
  refine Run.foldlM_history ?_ hempty h
  intro done c t t' hmem hconv hstep
  have hdone : ∀ e ∈ done, e ∈ db.classorder := fun e he => hmem e (mem_append_left _ he)
  exact converted_step hdone (hmem c (mem_append_right _ mem_cons_self)) hconv hstep

/-! ## Words -/

/-- Below the names of the common and above, each permission of the class is found at its
    place. -/
theorem permValue_sepolClassOf (hown : (c.perms.map CilPerm.fqn).Nodup)
    (hcommon : (c.commonPerms.map CilPerm.fqn).Nodup) (hverify : cilVerifyClass c = true) (value : Nat) {i : Nat}
    (hp : c.allPerms[i]? = some p) : permValue (sepolClassOf value c) p.fqn = .ok (i + 1) := by
  unfold permValue sepolClassOf
  unfold ClassDecl.allPerms at hp
  by_cases hi : i < c.commonPerms.length
  · rw [List.getElem?_append_left hi] at hp
    have hmem := mem_of_getElem? hp
    unfold ClassDecl.commonPerms at hmem hp hcommon
    cases hc : c.common with
    | none =>
      rw [hc] at hmem
      cases hmem
    | some a =>
      rw [hc] at hmem hp hcommon
      have hnone : (numberedNames c.commonPerms.length c.perms).lookup p.fqn = none := by
        refine lookup_numberedNames_eq_none _ ?_
        intro q hq heq
        unfold cilVerifyClass at hverify
        rw [hc] at hverify
        have hne := all_eq_true.mp (all_eq_true.mp hverify p hmem) q hq
        rw [bne_iff_ne] at hne
        exact hne heq.symm
      rw [hnone]
      simp only [Option.map_some]
      have hlookup : (numberedNames 0 a.perms).lookup p.fqn = some (0 + i + 1) := lookup_numberedNames hcommon 0 hp
      rw [hlookup, Nat.zero_add]
  · rw [List.getElem?_append_right (by omega)] at hp
    rw [lookup_numberedNames hown _ hp]
    have heq : c.commonPerms.length + (i - c.commonPerms.length) + 1 = i + 1 := by
      omega
    simp only [heq]

theorem cilPermsToDatum_ok {d : ClassDatum} (value : CilPerm → Nat) {S : List CilPerm}
    (h : ∀ p ∈ S, permValue d p.fqn = .ok (value p)) :
    cilPermsToDatum S d = .ok (Bits.orAll (S.map fun p => 1#32 <<< (value p - 1))) := by
  have hfold : ∀ data, S.foldlM (fun data p => (permValue d p.fqn).map fun value => data ||| 1#32 <<< (value - 1)) data =
      .ok ((S.map fun p => 1#32 <<< (value p - 1)).foldl (· ||| ·) data) := by
    induction S with
    | nil =>
      intro data
      rfl
    | cons p S ih =>
      intro data
      rw [foldlM_cons, h p mem_cons_self]
      exact ih (fun q hq => h q (mem_cons_of_mem p hq)) _
  exact hfold 0#32

/-- Values of their own, up to 32, are bits of their own. -/
theorem getLsbD_orAll_bits {l S : List CilPerm} {value : CilPerm → Nat} (hrange : ∀ p ∈ l, 1 ≤ value p ∧ value p ≤ 32)
    (hinj : ∀ p ∈ l, ∀ q ∈ l, value p = value q → p = q) (hS : S ⊆ l) (hp : p ∈ l) :
    (Bits.orAll (S.map fun p => 1#32 <<< (value p - 1))).getLsbD (value p - 1) = true ↔ p ∈ S := by
  rw [Bits.getLsbD_orAll, any_map, any_eq_true]
  constructor
  · intro h
    obtain ⟨q, hq, hbit⟩ := h
    have hvalue : value p - 1 = value q - 1 := by
      simp at hbit
      omega
    have hp' := hrange p hp
    have hq' := hrange q (hS hq)
    have heq := hinj p hp q (hS hq) (by omega)
    exact heq ▸ hq
  · intro h
    have hp' := hrange p hp
    refine ⟨p, h, ?_⟩
    simp
    omega

/-! ## Classes with permissions of their own -/

def permValues (d : ClassDatum) : List Nat :=
  (d.comdatum.elim [] fun permissions => permissions.map Prod.snd) ++ d.permissions.map Prod.snd

/-- The values of the class's permissions are distinct and within 1..32, and different sets of
    permissions are different words. -/
structure PermsRight (c : ClassDecl) (d : ClassDatum) : Prop where
  distinct : (permValues d).Nodup
  range : ∀ v ∈ permValues d, 1 ≤ v ∧ v ≤ permsPerClass
  words : ∀ S T : List CilPerm, S ⊆ c.allPerms → T ⊆ c.allPerms → ∃ v w, cilPermsToDatum S d = .ok v ∧
    cilPermsToDatum T d = .ok w ∧ (v = w → ∀ p, p ∈ S ↔ p ∈ T)

theorem permValues_sepolClassOf (value : Nat) (c : ClassDecl) :
    permValues (sepolClassOf value c) = List.range' 1 c.allPerms.length := by
  unfold permValues sepolClassOf ClassDecl.allPerms ClassDecl.commonPerms
  cases c.common with
  | none => simp [numberedNames_values]
  | some a =>
    simp [numberedNames_values, Nat.add_comm _ 1]

theorem permsRight_iff (hown : (c.perms.map CilPerm.fqn).Nodup) (hcommon : (c.commonPerms.map CilPerm.fqn).Nodup)
    (value : Nat) : PermsRight c (sepolClassOf value c) ↔ c.allPerms.length ≤ permsPerClass ∧ cilVerifyClass c = true := by
  constructor
  · intro h
    refine ⟨?_, ?_⟩
    · by_cases hlen : c.allPerms.length = 0
      · omega
      · have hlast : c.allPerms.length ∈ permValues (sepolClassOf value c) := by
          rw [permValues_sepolClassOf, mem_range'_1]
          omega
        exact (h.range _ hlast).2
    · unfold cilVerifyClass
      rw [Option.all_eq_true]
      intro a ha
      rw [all_eq_true]
      intro p hp
      rw [all_eq_true]
      intro q hq
      rw [bne_iff_ne]
      -- two permissions of one name have one word
      intro heq
      have hpmem : p ∈ c.commonPerms := by
        unfold ClassDecl.commonPerms
        rw [ha]
        exact hp
      obtain ⟨v, w, hv, hw, hsame⟩ :=
        h.words [p] [q] (by simp [ClassDecl.allPerms, hpmem]) (by simp [ClassDecl.allPerms, hq])
      have hvw : v = w := by
        unfold cilPermsToDatum at hv hw
        rw [foldlM_cons, heq] at hv
        exact Except.ok.inj (hv.symm.trans hw)
      have hpq := mem_singleton.mp ((hsame hvw p).mp mem_cons_self)
      exact disjoint_of_nodup_append c.nodes hpmem (hpq ▸ hq)
  · intro h
    obtain ⟨hlen, hverify⟩ := h
    have hfind : ∀ p ∈ c.allPerms, permValue (sepolClassOf value c) p.fqn = .ok (c.allPerms.idxOf p + 1) := by
      intro p hp
      exact permValue_sepolClassOf hown hcommon hverify value (List.getElem?_idxOf hp)
    have hrange : ∀ p ∈ c.allPerms, 1 ≤ c.allPerms.idxOf p + 1 ∧ c.allPerms.idxOf p + 1 ≤ 32 := by
      intro p hp
      have hlt := idxOf_lt_length_of_mem hp
      unfold permsPerClass at hlen
      omega
    have hinj : ∀ p ∈ c.allPerms, ∀ q ∈ c.allPerms, c.allPerms.idxOf p + 1 = c.allPerms.idxOf q + 1 → p = q := by
      intro p hp q hq heq
      exact (idxOf_inj hp).mp (Nat.succ.inj heq)
    refine ⟨?_, ?_, ?_⟩
    · rw [permValues_sepolClassOf]
      exact nodup_range'
    · intro v hv
      rw [permValues_sepolClassOf, mem_range'_1] at hv
      omega
    · intro S T hS hT
      refine ⟨_, _, cilPermsToDatum_ok _ fun p hp => hfind p (hS hp), cilPermsToDatum_ok _ fun p hp => hfind p (hT hp), ?_⟩
      intro heq p
      by_cases hp : p ∈ c.allPerms
      · rw [← getLsbD_orAll_bits hrange hinj hS hp, ← getLsbD_orAll_bits hrange hinj hT hp, heq]
      · exact iff_of_false (fun h => hp (hS h)) fun h => hp (hT h)

/-- Each class has what `PermsRight` says, and no row is written outside its entries. -/
def ClassesRight (classorder : List ClassDecl) (t : ClassTables) : Prop :=
  (∀ c ∈ classorder, ∃ d, t.classes.table c.fqn = some d ∧ PermsRight c d) ∧ ∀ w ∈ t.permValueToCil, w.2.1 ≤ permsPerClass

theorem class_perms_right_iff (db : ClassOrder) (t : ClassTables) (h : cilClassorderToPolicydb db.classorder = some t) :
    ClassesRight db.classorder t ↔ ∀ c ∈ db.classorder, c.allPerms.length ≤ permsPerClass ∧ cilVerifyClass c = true := by
  have hconv := converted_classorder h
  have hclass : ∀ c ∈ db.classorder, (∃ d, t.classes.table c.fqn = some d ∧ PermsRight c d) ↔
      c.allPerms.length ≤ permsPerClass ∧ cilVerifyClass c = true := by
    intro c hc
    obtain ⟨value, hd⟩ := hconv.classes c hc
    rw [hd, ← permsRight_iff (hconv.names c hc).1 (hconv.names c hc).2 value]
    simp
  constructor
  · intro hright c hc
    exact (hclass c hc).mp (hright.1 c hc)
  · intro hsafe
    refine ⟨fun c hc => (hclass c hc).mpr (hsafe c hc), ?_⟩
    intro w hw
    obtain ⟨c, hc, -, hle⟩ := (hconv.writes w.2.1).mp ⟨w, hw, rfl⟩
    exact Nat.le_trans hle (hsafe c hc).1

/-- A file class with a common; its permissions are called a, aa, aaa, ... -/
def permsFrom (first count : Nat) : List CilPerm := (List.range' first count).map fun i => ⟨i, List.replicate i 'a'⟩

def classWithCommon : ClassOrder where
  classorder := [{ fqn := ['c'], perms := permsFrom 3 2, common := some ⟨['f'], permsFrom 1 2⟩, nodes := by decide }]
  sameCommon := by
    intro c hc d hd a b ha hb heq
    rw [List.mem_singleton] at hc hd
    subst hc hd
    exact Option.some.inj (ha.symm.trans hb)

theorem class_perms_right_iff_common :
    ∃ t, cilClassorderToPolicydb classWithCommon.classorder = some t ∧ (ClassesRight classWithCommon.classorder t ↔
      ∀ c ∈ classWithCommon.classorder, c.allPerms.length ≤ permsPerClass ∧ cilVerifyClass c = true) :=
  ⟨_, rfl, class_perms_right_iff classWithCommon _ rfl⟩

def classOf33 : ClassDecl := { fqn := ['c'], perms := permsFrom 1 33, nodes := by decide }

theorem class_of_33_perms :
    cilVerifyClass classOf33 = true ∧ ∃ t, cilClassorderToPolicydb [classOf33] = some t ∧
      (∃ d, t.classes.table ['c'] = some d ∧ 33 ∈ permValues d) ∧ ∃ w ∈ t.permValueToCil, w.2.1 = permsPerClass + 1 := by
  refine ⟨rfl, _, rfl, ⟨_, rfl, by decide⟩, ?_⟩
  refine ⟨(1, 33, ⟨33, List.replicate 33 'a'⟩), by decide, rfl⟩

end SELinux.Cil
