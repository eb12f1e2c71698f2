/-
  SELinux.Cil.ClassPerms — the classes and permissions that a neverallow rule is checked for
  (`libsepol/cil/src/cil_binary.c`: `__cil_rule_to_sepol_class_perms`).

  A list of class permissions has entries for classes, and members that stand for other lists:
  the permissions of a map class, and class permission sets. An entry whose permission
  expression comes to nothing ends its list, as if nothing stood behind it.

  Proved: `cilRuleToSepolClassPerms_covers_iff`, the nodes that are built cover what the list
  stands for exactly if what stands behind an empty entry of some list also stands somewhere
  else.

  A permission is its bit in the access vector of its class.
-/
import SELinux.Cil.Binary

namespace SELinux.Cil

open Db Lib Check

/-- The nodes have this permission of the class with this value. -/
def Covers (nodes : List ClassPermNode) (cls bit : Nat) : Prop := ∃ n ∈ nodes, n.tclass = cls ∧ n.data.getLsbD bit = true

section

variable (pdb : Policydb)

/-- What an entry for a class stands for. -/
def EntryPair (cls : CilClass) (perms : List CilPerm) (c bit : Nat) : Prop :=
  ∃ sepolClass, pdb.pClasses.search cls.fqn = some sepolClass ∧ sepolClass.value = c ∧ bit < 32 ∧
    ∃ p ∈ perms, ∃ value, permValue sepolClass p.fqn = .ok value ∧ bit = value - 1

/-- An entry that stands for nothing. -/
def EmptyEntry : Classperms → Prop
  | .perms cls perms => ∀ c bit, ¬EntryPair pdb cls perms c bit
  | .map _ => False
  | .set _ => False

/-- The entries of a list and of the lists in it; `behind` is true of those that stand behind an
    empty entry of their list, or in a member that does. -/
inductive Occurs : Bool → List Classperms → CilClass → List CilPerm → Prop
  | here {cls perms l} : Occurs false (.perms cls perms :: l) cls perms
  | inMap {behind cps lists l cls perms} :
      cps ∈ lists → Occurs behind cps cls perms → Occurs behind (.map lists :: l) cls perms
  | inSet {behind cps l cls perms} : Occurs behind cps cls perms → Occurs behind (.set cps :: l) cls perms
  | next {behind m l cls perms} : ¬EmptyEntry pdb m → Occurs behind l cls perms → Occurs behind (m :: l) cls perms
  | past {behind m l cls perms} : EmptyEntry pdb m → Occurs behind l cls perms → Occurs true (m :: l) cls perms

/-- The pairs that a list stands for: those of all its entries. -/
def Denotes (l : List Classperms) (c bit : Nat) : Prop :=
  ∃ behind cls perms, Occurs pdb behind l cls perms ∧ EntryPair pdb cls perms c bit

/-- The pairs of the entries that do not stand behind an empty one. -/
def Reached (l : List Classperms) (c bit : Nat) : Prop :=
  ∃ cls perms, Occurs pdb false l cls perms ∧ EntryPair pdb cls perms c bit

end

variable {pdb : Policydb}

/-! ## Entries -/

variable {bit c : Nat}

theorem covers_cons {n : ClassPermNode} {nodes : List ClassPermNode} :
    Covers (n :: nodes) c bit ↔ n.tclass = c ∧ n.data.getLsbD bit = true ∨ Covers nodes c bit := by simp [Covers]

theorem getLsbD_permBit {value : Nat} : (1#32 <<< (value - 1)).getLsbD bit = true ↔ bit < 32 ∧ bit = value - 1 := by
  rw [BitVec.getLsbD_shiftLeft, BitVec.getLsbD_one]
  simp only [Bool.and_eq_true, decide_eq_true_iff, Bool.not_eq_true', decide_eq_false_iff_not]
  omega

variable {perms : List CilPerm} {sepolClass : ClassDatum} {data : BitVec 32}

theorem cilPermsToDatum_bits {start : BitVec 32}
    (h : perms.foldlM (fun data p => (permValue sepolClass p.fqn).map fun value => data ||| 1#32 <<< (value - 1))
      start = .ok data) :
    data.getLsbD bit = true ↔ start.getLsbD bit = true ∨
      bit < 32 ∧ ∃ p ∈ perms, ∃ value, permValue sepolClass p.fqn = .ok value ∧ bit = value - 1 := by
  induction perms generalizing start with
  | nil =>
    cases h
    simp
  | cons p perms ih =>
    obtain ⟨data1, h1, hrest⟩ := Run.foldlM_ok_cons h
    cases hvalue : permValue sepolClass p.fqn with
    | error s =>
      rw [hvalue] at h1
      cases h1
    | ok value =>
      rw [hvalue] at h1
      cases h1
      rw [ih hrest, BitVec.getLsbD_or, Bool.or_eq_true, getLsbD_permBit]
      simp only [List.mem_cons, exists_eq_or_imp, hvalue, Except.ok.injEq, exists_eq_left', or_assoc, and_or_left]

variable {cls : CilClass}

/-- The node of an entry has what the entry stands for. -/
theorem entry_bits (hclass : pdb.pClasses.search cls.fqn = some sepolClass)
    (hdata : cilPermsToDatum perms sepolClass = .ok data) :
    sepolClass.value = c ∧ data.getLsbD bit = true ↔ EntryPair pdb cls perms c bit := by
  rw [cilPermsToDatum_bits hdata]
  unfold EntryPair
  rw [hclass]
  simp

theorem data_eq_zero_iff (hclass : pdb.pClasses.search cls.fqn = some sepolClass)
    (hdata : cilPermsToDatum perms sepolClass = .ok data) : data = 0#32 ↔ EmptyEntry pdb (.perms cls perms) := by
  constructor
  · intro hzero c bit hpair
    have hbit := ((entry_bits hclass hdata).mpr hpair).2
    rw [hzero, BitVec.getLsbD_zero] at hbit
    cases hbit
  · intro hempty
    refine BitVec.eq_of_getLsbD_eq ?_
    intro bit _
    rw [BitVec.getLsbD_zero, Bool.eq_false_iff]
    intro hbit
    exact hempty sepolClass.value bit ((entry_bits hclass hdata).mp ⟨rfl, hbit⟩)

/-! ## Lists -/

variable {l : List Classperms}

theorem reached_perms :
    Reached pdb (.perms cls perms :: l) c bit ↔ EntryPair pdb cls perms c bit ∨ ¬EmptyEntry pdb (.perms cls perms) ∧
      Reached pdb l c bit := by
  constructor
  · intro h
    obtain ⟨cls', perms', hoccurs, hpair⟩ := h
    cases hoccurs with
    | here => exact Or.inl hpair
    | next hno hoccurs => exact Or.inr ⟨hno, _, _, hoccurs, hpair⟩
  · intro h
    rcases h with hpair | ⟨hno, cls', perms', hoccurs, hpair⟩
    · exact ⟨_, _, .here, hpair⟩
    · exact ⟨_, _, .next hno hoccurs, hpair⟩

theorem reached_map {lists : List (List Classperms)} :
    Reached pdb (.map lists :: l) c bit ↔ (∃ cps ∈ lists, Reached pdb cps c bit) ∨ Reached pdb l c bit := by
  constructor
  · intro h
    obtain ⟨cls, perms, hoccurs, hpair⟩ := h
    cases hoccurs with
    | inMap hmem hoccurs => exact Or.inl ⟨_, hmem, _, _, hoccurs, hpair⟩
    | next _ hoccurs => exact Or.inr ⟨_, _, hoccurs, hpair⟩
  · intro h
    rcases h with ⟨cps, hmem, cls, perms, hoccurs, hpair⟩ | ⟨cls, perms, hoccurs, hpair⟩
    · exact ⟨_, _, .inMap hmem hoccurs, hpair⟩
    · exact ⟨_, _, .next (fun hempty => hempty) hoccurs, hpair⟩

theorem reached_set {cps : List Classperms} :
    Reached pdb (.set cps :: l) c bit ↔ Reached pdb cps c bit ∨ Reached pdb l c bit := by
  constructor
  · intro h
    obtain ⟨cls, perms, hoccurs, hpair⟩ := h
    cases hoccurs with
    | inSet hoccurs => exact Or.inl ⟨_, _, hoccurs, hpair⟩
    | next _ hoccurs => exact Or.inr ⟨_, _, hoccurs, hpair⟩
  · intro h
    rcases h with ⟨cls, perms, hoccurs, hpair⟩ | ⟨cls, perms, hoccurs, hpair⟩
    · exact ⟨_, _, .inSet hoccurs, hpair⟩
    · exact ⟨_, _, .next (fun hempty => hempty) hoccurs, hpair⟩

theorem not_reached_nil : ¬Reached pdb [] c bit := by
  intro h
  obtain ⟨cls, perms, hoccurs, -⟩ := h
  cases hoccurs

/-- An entry that is not empty gives a node. -/
theorem perms_reached {nodes nodes' : List ClassPermNode}
    (ih : ∀ (sepolClass : ClassDatum) (data : BitVec 32)
      (nodes' : List ClassPermNode),
        cilRuleToSepolClassPerms pdb l ({ tclass := sepolClass.value, data } :: nodes) = .ok nodes' →
          ∀ c bit, Covers nodes' c bit ↔ Covers ({ tclass := sepolClass.value, data } :: nodes) c bit ∨ Reached pdb l c bit)
    (h : cilRuleToSepolClassPerms pdb (.perms cls perms :: l) nodes = .ok nodes') :
    ∀ c bit, Covers nodes' c bit ↔ Covers nodes c bit ∨ Reached pdb (.perms cls perms :: l) c bit := by
  rw [cilRuleToSepolClassPerms] at h
  obtain ⟨sepolClass, hget, h⟩ := Run.bind_ok_iff.mp h
  obtain ⟨data, hdata, h⟩ := Run.bind_ok_iff.mp h
  have hclass : pdb.pClasses.search cls.fqn = some sepolClass := by
    unfold cilGetSepolClassDatum at hget
    split at hget
    next d hd =>
      cases hget
      exact hd
    · cases hget
  have hzero := data_eq_zero_iff hclass hdata
  intro c bit
  rw [reached_perms]
  split at h
  next hempty =>
    cases h
    have hno := hzero.mp hempty
    simp only [hno c bit, hno, not_true_eq_false, false_and, or_false]
  next hempty =>
    rw [ih sepolClass data nodes' h, covers_cons, entry_bits hclass hdata, and_iff_right (fun hno => hempty (hzero.mpr hno))]
    rw [or_comm (a := EntryPair pdb cls perms c bit), or_assoc]

/-- The nodes cover what the entries that do not stand behind an empty one stand for. -/
theorem cilRuleToSepolClassPerms_reached (l : List Classperms) (nodes : List ClassPermNode) : ∀ nodes',
    cilRuleToSepolClassPerms pdb l nodes = .ok nodes' → ∀ c bit, Covers nodes' c bit ↔ Covers nodes c bit ∨
      Reached pdb l c bit := by
  refine cilRuleToSepolClassPerms.induct
    (fun l nodes => ∀ nodes', cilRuleToSepolClassPerms pdb l nodes = .ok nodes' →
      ∀ c bit, Covers nodes' c bit ↔ Covers nodes c bit ∨ Reached pdb l c bit)
    (fun lists nodes => ∀ nodes', mapToSepolClassPerms pdb lists nodes = .ok nodes' →
      ∀ c bit, Covers nodes' c bit ↔ Covers nodes c bit ∨ ∃ cps ∈ lists, Reached pdb cps c bit) ?_ ?_ ?_ ?_ ?_ ?_ l nodes
  · intro nodes nodes' h c bit
    rw [cilRuleToSepolClassPerms] at h
    cases h
    exact (or_iff_left not_reached_nil).symm
  · intro cls perms l nodes ih nodes' h
    exact perms_reached ih h
  · intro lists l nodes ihmap ih nodes' h c bit
    rw [cilRuleToSepolClassPerms] at h
    obtain ⟨nodes1, hmap, h⟩ := Run.bind_ok_iff.mp h
    rw [ih nodes1 nodes' h, ihmap nodes1 hmap, reached_map, or_assoc]
  · intro cps l nodes ihset ih nodes' h c bit
    rw [cilRuleToSepolClassPerms] at h
    obtain ⟨nodes1, hset, h⟩ := Run.bind_ok_iff.mp h
    rw [ih nodes1 nodes' h, ihset nodes1 hset, reached_set, or_assoc]
  · intro nodes nodes' h c bit
    rw [mapToSepolClassPerms] at h
    cases h
    simp
  · intro cps lists nodes ih ihlists nodes' h c bit
    rw [mapToSepolClassPerms] at h
    obtain ⟨nodes1, hfirst, h⟩ := Run.bind_ok_iff.mp h
    rw [ihlists nodes1 nodes' h, ih nodes1 hfirst, or_assoc]
    simp only [List.mem_cons, exists_eq_or_imp]

/-- The nodes cover exactly what the list stands for if and only if each pair behind an empty entry
    is also one of an entry that does not stand behind one. -/
theorem cilRuleToSepolClassPerms_covers_iff {l : List Classperms} {nodes : List ClassPermNode}
    (h : cilRuleToSepolClassPerms pdb l [] = .ok nodes) :
    (∀ c bit, Covers nodes c bit ↔ Denotes pdb l c bit) ↔
      ∀ cls perms, Occurs pdb true l cls perms → ∀ c bit, EntryPair pdb cls perms c bit →
        ∃ cls' perms', Occurs pdb false l cls' perms' ∧ EntryPair pdb cls' perms' c bit := by
  have hcovers : ∀ c bit, Covers nodes c bit ↔ Reached pdb l c bit := by
    intro c bit
    rw [cilRuleToSepolClassPerms_reached l [] nodes h c bit]
    simp [Covers]
  constructor
  · intro hall cls perms hoccurs c bit hpair
    exact (hcovers c bit).mp ((hall c bit).mpr ⟨true, cls, perms, hoccurs, hpair⟩)
  · intro hbehind c bit
    rw [hcovers]
    constructor
    · intro hreached
      obtain ⟨cls, perms, hoccurs, hpair⟩ := hreached
      exact ⟨false, cls, perms, hoccurs, hpair⟩
    · intro hdenotes
      obtain ⟨behind, cls, perms, hoccurs, hpair⟩ := hdenotes
      cases behind with
      | false => exact ⟨cls, perms, hoccurs, hpair⟩
      | true => exact hbehind cls perms hoccurs c bit hpair

/-- A set with the permission `p`, and then an entry that comes to nothing. -/
theorem cilRuleToSepolClassPerms_covers_last : ∃ nodes, cilRuleToSepolClassPerms boundedPdb
      [.set [.perms ⟨0, "c".toList⟩ [⟨0, "p".toList⟩]], .perms ⟨0, "c".toList⟩ []] [] = .ok nodes ∧
    ∀ c bit, Covers nodes c bit ↔
      Denotes boundedPdb [.set [.perms ⟨0, "c".toList⟩ [⟨0, "p".toList⟩]], .perms ⟨0, "c".toList⟩ []] c bit := by
  refine ⟨[{ tclass := 1, data := 1#32 }],
    by decide +kernel, (cilRuleToSepolClassPerms_covers_iff (by decide +kernel)).mpr ?_⟩
  -- nothing stands behind the empty entry
  intro cls perms hoccurs
  cases hoccurs with
  | inSet h =>
    cases h with
    | next _ h => cases h
    | past _ h => cases h
  | next _ h =>
    cases h with
    | next _ h => cases h
    | past _ h => cases h
  | past hempty _ => exact hempty.elim

/-- `(neverallow child child (c (p)))`, with an entry before it that comes to nothing. -/
def emptyFirst : CilAvrule :=
  { childRule .neverallow with classperms := .perms ⟨0, "c".toList⟩ [] :: (childRule .neverallow).classperms }

/-- Behind the empty entry nothing is checked: the rule holds in a policy that violates it. -/
theorem emptyFirst_unchecked : cilRuleToSepolClassPerms boundedPdb emptyFirst.classperms [] = .ok [] ∧
    Denotes boundedPdb emptyFirst.classperms 1 0 ∧
    ∃ avrule, cilRuleToExpandedSepolAvrule violatingDb (boundedBuilt childAllowed).pdb emptyFirst = .ok avrule ∧
      avrule.perms = [] ∧
      checkAssertion (boundedBuilt childAllowed).pdb avrule = 0 ∧
        checkAssertion (boundedBuilt childAllowed).pdb childNeverallow = 1 := by
  have hempty : EmptyEntry boundedPdb (.perms ⟨0, "c".toList⟩ []) := by
    intro c bit hpair
    obtain ⟨d, -, -, -, p, hp, -⟩ := hpair
    cases hp
  refine ⟨by decide +kernel, ⟨true, _, _, .past hempty .here, ?_⟩, ?_⟩
  · exact ⟨_, rfl, rfl, by decide, _, List.mem_cons_self, 1, by decide +kernel, rfl⟩
  · exact ⟨{ childNeverallow with perms := [] }, by decide +kernel, rfl, by decide +kernel, by decide +kernel⟩

end SELinux.Cil
