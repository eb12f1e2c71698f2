/-
  SELinux.Services.Switching — access decisions while booleans are switched
  (`libsepol/src/conditional.c`: `evaluate_conds`, `cond_compute_av`; `services.c`:
  `context_struct_compute_av`; against `assertion.c`: `check_assertion`).

  A policy is checked when it is built; decisions are made from it as long as it is there, with
  booleans that change. In every state it gets into, a decision is that of the rules which the
  booleans select in the policy as it was built (`decision_iff`), and a neverallow that was
  checked is kept (`neverallow_kept`).
-/
import SELinux.Check.Neverallow
import SELinux.Expand.Module
import SELinux.Services.ComputeAv

namespace SELinux.Services

open Db Lib List Check Expand

variable {p : Policydb} {s t : Context} {tclass : BitVec 16} {perm : Nat} {n : AvtabNode} {tab : Avtab} {σ : Nat → Bool}

/-! ## What a switch keeps -/

/-- A rule without the flag that a switch changes. -/
def unflag (n : AvtabNode) : AvtabNode := { n with key.specified := n.key.specified &&& ~~~avtabEnabled }

/-- A conditional without its state. -/
def unstate (c : CondNode) : CondNode := { c with curState := none }

theorem unflag_writeId (id : Nat) (on : Bool) (n : AvtabNode) :
    unflag (writeId id (fun s d => (withEnabled s on, d)) n) = unflag n := by
  have hspec : withEnabled n.key.specified on &&& ~~~avtabEnabled = n.key.specified &&& ~~~avtabEnabled := by
    ext i
    cases on <;> simp [withEnabled, Bool.and_or_distrib_right]
  unfold writeId
  split
  · simp only [unflag, AvtabNode.write, hspec]
  · rfl

theorem nodes_setEnabled (ids : List Nat) (on : Bool) :
    (ids.foldl (fun t id => t.setEnabled id on) tab).nodes.map unflag = tab.nodes.map unflag := by
  induction ids generalizing tab with
  | nil => rfl
  | cons id ids ih =>
    rw [foldl_cons, ih, Avtab.setEnabled, nodes_update, map_map]
    exact map_congr_left fun n _ => unflag_writeId id on n

theorem evaluateCondList_kept (l : List CondNode) :
    (evaluateCondList σ tab l).1.nodes.map unflag = tab.nodes.map unflag ∧
      (evaluateCondList σ tab l).2.map unstate = l.map unstate := by
  induction l generalizing tab with
  | nil => exact ⟨rfl, rfl⟩
  | cons c l ih =>
    have hnode : (evaluateCondNode σ tab c).1.nodes.map unflag = tab.nodes.map unflag ∧
        unstate (evaluateCondNode σ tab c).2 = unstate c := by
      unfold evaluateCondNode
      dsimp only
      split
      · exact ⟨(nodes_setEnabled _ _).trans (nodes_setEnabled _ _), rfl⟩
      · exact ⟨rfl, rfl⟩
    exact ⟨ih.1.trans hnode.1, congrArg₂ cons hnode.2 ih.2⟩

theorem exists_mem_congr {α β : Type} {f : α → β} {l l' : List α} (h : l'.map f = l.map f) (P : β → Prop) :
    (∃ a ∈ l', P (f a)) ↔ ∃ a ∈ l, P (f a) := by
  have hmap : ∀ l : List α, (∃ a ∈ l, P (f a)) ↔ ∃ b ∈ l.map f, P b := by simp
  rw [hmap, h, ← hmap]

variable (changes : List (Nat → Bool))

/-- Changes leave the booleans of the last one, and everything else but flags and states. -/
theorem runBools_eq (p : Policydb) : ∃ tab conds,
    runBools p changes = { p with teCondAvtab := tab, condList := conds, boolState := changes.getLast?.getD p.boolState } ∧
      tab.nodes.map unflag = p.teCondAvtab.nodes.map unflag ∧ conds.map unstate = p.condList.map unstate := by
  induction changes using List.reverseRecOn with
  | nil => exact ⟨_, _, rfl, rfl, rfl⟩
  | append_singleton changes σ ih =>
    obtain ⟨tab, conds, hrun, hnodes, hconds⟩ := ih
    obtain ⟨hnodes', hconds'⟩ := @evaluateCondList_kept tab σ conds
    refine ⟨_, _, ?_, hnodes'.trans hnodes, hconds'.trans hconds⟩
    rw [show runBools p (changes ++ [σ]) = setBools (runBools p changes) σ from foldl_append, hrun, getLast?_concat]
    rfl

/-! ## What is granted -/

/-- The rule is an allow rule for a pair of types and a permission. -/
def Grants (p : Policydb) (s t : Nat) (tclass : BitVec 16) (perm : Nat) (n : AvtabNode) : Prop :=
  n.key.specified &&& avtabAllowed ≠ 0#16 ∧ Covers p n.key (s - 1) (t - 1) ∧ n.key.targetClass = tclass ∧
    n.datum.data.getLsbD perm = true

theorem grants_unflag {s t : Nat} : Grants p s t tclass perm (unflag n) ↔ Grants p s t tclass perm n := by
  have hspec : (unflag n).key.specified &&& avtabAllowed = n.key.specified &&& avtabAllowed :=
    (BitVec.and_assoc ..).trans rfl
  unfold Grants
  rw [hspec]
  rfl

/-- A rule has the type among those of its key exactly if the key is one of the attributes of the type. -/
def Mapped (p : Policydb) (type : Nat) : Prop :=
  ∀ key, (p.attrTypes key).has (type - 1) = true ↔ ∃ i ∈ (bitmapAt p.typeAttrMap type).bits, BitVec.ofNat 16 (i + 1) = key

theorem enabledKind_iff : enabledKind avtabAllowed n = true ↔ n.key.specified &&& avtabAllowed ≠ 0#16 ∧
    n.enabled = true := by
  have hallowed := BitVec.and_twoPow n.key.specified 0
  have henabled := BitVec.and_twoPow n.key.specified 15
  change n.key.specified &&& avtabAllowed = _ at hallowed
  change n.key.specified &&& avtabEnabled = _ at henabled
  rw [enabledKind, AvtabNode.enabled, BitVec.and_or_distrib_left, hallowed, henabled]
  cases n.key.specified.getLsbD 0 <;> cases n.key.specified.getLsbD 15 <;> decide

/-- The rule is in the branch that the conditional selects. -/
def Selects (σ : Nat → Bool) (id : Nat) (c : CondNode) : Prop :=
  condEvaluateExpr σ c.expr = some true ∧ id ∈ c.trueList ∨ condEvaluateExpr σ c.expr = some false ∧ id ∈ c.falseList

/-- The rule is unconditional, or in a branch that is selected. -/
def InForce (p : Policydb) (σ : Nat → Bool) (n : AvtabNode) : Prop :=
  n ∈ p.teAvtab.nodes ∨ n ∈ p.teCondAvtab.nodes ∧ ∃ c ∈ p.condList, Selects σ n.id c

/-- What is assumed of a policy: flags are as the booleans are, conditional rules are listed, other
    allow rules have no flag. -/
structure Settled (p : Policydb) : Prop extends RunInv p where
  current : CondFlags p
  listed : ∀ n ∈ p.teCondAvtab.nodes, ∃ c ∈ p.condList, n.id ∈ c.trueList ∨ n.id ∈ c.falseList
  plain : ∀ n ∈ p.teAvtab.nodes, n.key.specified &&& avtabAllowed ≠ 0#16 → n.key.specified = avtabAllowed

theorem Mapped.run {type : Nat} (h : Mapped p type) : Mapped (runBools p changes) type := by
  obtain ⟨tab, conds, hrun, -⟩ := runBools_eq changes p
  rw [hrun]
  exact h

variable {requested reason : BitVec 32} {avd : AvDecision}

theorem allowed_eq (hav : contextStructComputeAv p s t tclass requested = some (avd, reason)) :
    ∃ cd, datumAt p.classValToStruct tclass.toNat = some cd ∧ avd.allowed =
      grantedPerms p s t tclass &&& ~~~constrainedPerms p s t cd.constraints &&& ~~~roleMask p s t tclass := by
  unfold contextStructComputeAv at hav
  split at hav
  · cases hav
  · obtain ⟨cd, hcd, hstages⟩ := Option.map_eq_some_iff.mp hav
    refine ⟨cd, hcd, ?_⟩
    rw [← (computeStages_spec p s t tclass cd.constraints requested).1, hstages]

section Decisions

variable (hs : Mapped p s.type) (ht : Mapped p t.type)

include hs ht

theorem grantedPerms_iff : (grantedPerms p s t tclass).getLsbD perm = true ↔
    ∃ n, (n ∈ p.teAvtab.nodes ∧ n.key.specified = avtabAllowed ∨ n ∈ p.teCondAvtab.nodes ∧ n.enabled = true) ∧
      Grants p s.type t.type tclass perm n := by
  have hrules : ∀ ij n, n ∈ allowRules p tclass ij ↔ sameKey (avKey tclass ij.1 ij.2) n.key = true ∧
    n.key.specified &&& avtabAllowed ≠ 0#16 ∧
      (n ∈ p.teAvtab.nodes ∧ n.key.specified = avtabAllowed ∨ n ∈ p.teCondAvtab.nodes ∧ n.enabled = true) := by
    intro ij n
    have hallowed : n.key.specified = avtabAllowed → n.key.specified &&& avtabAllowed ≠ 0#16 := fun h => by rw [h]; decide
    simp only [allowRules, mem_append, mem_filter, Bool.and_eq_true, beq_iff_eq, enabledKind_iff]
    tauto
  simp only [Grants, Covers, hs _, ht _, grantedPerms, Bits.getLsbD_orAll, any_eq_true, mem_flatMap, mem_map,
    hrules, attrPairs, sameKey_iff, avKey]
  constructor
  · rintro ⟨_, ⟨_, ⟨i, hi, j, hj, rfl⟩, n, ⟨⟨hsrc, htgt, hclass⟩, hspec, hn⟩, rfl⟩, hbit⟩
    exact ⟨n, hn, hspec, ⟨⟨i, hi, hsrc⟩, j, hj, htgt⟩, hclass.symm, hbit⟩
  · rintro ⟨n, hn, hspec, ⟨⟨i, hi, hsrc⟩, j, hj, htgt⟩, hclass, hbit⟩
    exact ⟨_, ⟨_, ⟨i, hi, j, hj, rfl⟩, n, ⟨⟨hsrc, htgt, hclass.symm⟩, hspec, hn⟩, rfl⟩, hbit⟩

/-- What is granted after any changes: what the rules allow that the last booleans select. -/
theorem granted_run (h : Settled p) :
    (grantedPerms (runBools p changes) s t tclass).getLsbD perm = true ↔
      ∃ n, InForce p (changes.getLast?.getD p.boolState) n ∧ Grants p s.type t.type tclass perm n := by
  obtain ⟨tab, conds, hrun, hnodes, hconds⟩ := runBools_eq changes p
  have hflags := (runBools_spec h.toRunInv h.current changes).2
  rw [grantedPerms_iff (hs.run changes) (ht.run changes)]
  rw [hrun] at hflags ⊢
  generalize changes.getLast?.getD p.boolState = σ at hflags
  -- the rules are those of the first policy but for their flags, and likewise the conditionals
  have hrules (P : AvtabNode → Prop) := exists_mem_congr hnodes P
  have hstates (P : CondNode → Prop) := exists_mem_congr hconds P
  have hon : ∀ n ∈ tab.nodes, n.enabled = true ↔ ∃ c ∈ p.condList, Selects σ n.id c := by
    intro n hn
    refine Iff.trans ?_ (hstates (Selects σ n.id))
    constructor
    · intro hon
      obtain ⟨m, hm, hid⟩ := (hrules (·.id = n.id)).mp ⟨n, hn, rfl⟩
      obtain ⟨c, hc, hlist⟩ := (hstates fun c => n.id ∈ c.trueList ∨ n.id ∈ c.falseList).mpr (hid ▸ h.listed m hm)
      exact ⟨c, hc, (hflags c hc n hn hlist).mp hon⟩
    · rintro ⟨c, hc, hselects⟩
      exact (hflags c hc n hn (hselects.imp And.right And.right)).mpr hselects
  have hcond := hrules fun n => (∃ c ∈ p.condList, Selects σ n.id c) ∧ Grants p s.type t.type tclass perm n
  simp only [grants_unflag] at hcond
  simp only [InForce, or_and_right, exists_or, and_assoc]
  refine or_congr (exists_congr fun n => and_congr_right fun hn => ?_) (Iff.trans ?_ hcond)
  · exact ⟨And.right, fun hgrants => ⟨h.plain n hn hgrants.1, hgrants⟩⟩
  · exact exists_congr fun n => and_congr_right fun hn => and_congr_left' (hon n hn)

variable (hav : contextStructComputeAv (runBools p changes) s t tclass requested = some (avd, reason))

include hav

/-- A decision after any changes depends on the last booleans only: it allows what a rule in force grants,
    less the permissions of false constraints and those of a role change that is not allowed. -/
theorem decision_iff (h : Settled p) {cd : ClassDatum} (hcd : datumAt p.classValToStruct tclass.toNat = some cd) :
    avd.allowed.getLsbD perm = true ↔
      (∃ n, InForce p (changes.getLast?.getD p.boolState) n ∧ Grants p s.type t.type tclass perm n) ∧
        (constrainedPerms p s t cd.constraints).getLsbD perm = false ∧ (roleMask p s t tclass).getLsbD perm = false := by
  obtain ⟨cd', hcd', hallowed⟩ := allowed_eq hav
  rw [hallowed, BitVec.getLsbD_and, BitVec.getLsbD_and, Bool.and_eq_true, Bool.and_eq_true,
    granted_run changes hs ht h, and_assoc]
  refine and_congr_right ?_
  rintro ⟨n, -, -, -, -, hbit⟩
  obtain ⟨tab, conds, hrun, -⟩ := runBools_eq changes p
  rw [hrun] at hcd' ⊢
  cases hcd.symm.trans hcd'
  simp only [BitVec.getLsbD_not, BitVec.lt_of_getLsbD hbit, decide_true, Bool.true_and, Bool.not_eq_true']
  rfl

/-- A neverallow that was checked when no conditional allow rule was enabled is kept in every state. -/
theorem neverallow_kept {r : Avrule} (hr : PlainNeverallow r) (hcheck : checkAssertion p r = 0)
    (hoff : ∀ n ∈ p.teCondAvtab.nodes, n.key.specified &&& avtabAllowed ≠ 0#16 → n.key.specified = avtabAllowed)
    (hsrc : r.stypes.types.has (s.type - 1) = true) (htgt : r.ttypes.types.has (t.type - 1) = true) :
    ∀ c ∈ r.perms, c.tclass = tclass.toNat → avd.allowed &&& c.data = 0#32 := by
  intro c hc hclass
  by_contra hne
  obtain ⟨perm, hallowed, hdata⟩ := (Bits.and_ne_zero_iff _ _).mp hne
  obtain ⟨cd, -, heq⟩ := allowed_eq hav
  rw [heq, BitVec.getLsbD_and, BitVec.getLsbD_and, Bool.and_eq_true, Bool.and_eq_true,
    grantedPerms_iff (hs.run changes) (ht.run changes)] at hallowed
  obtain ⟨tab, conds, hrun, hnodes, -⟩ := runBools_eq changes p
  rw [hrun] at hallowed
  obtain ⟨⟨⟨n, hn, hgrants⟩, -⟩, -⟩ := hallowed
  have hrule : ∃ m ∈ rules p, m.key.specified = avtabAllowed ∧ Grants p s.type t.type tclass perm m := by
    rcases hn with ⟨hn, hspec⟩ | ⟨hn, -⟩
    · exact ⟨n, mem_append_left _ hn, hspec, hgrants⟩
    · obtain ⟨m, hm, hgrants⟩ := (exists_mem_congr hnodes (Grants p s.type t.type tclass perm)).mp
        ⟨n, hn, grants_unflag.mpr hgrants⟩
      rw [grants_unflag] at hgrants
      exact ⟨m, mem_append_right _ hm, hoff m hm hgrants.1, hgrants⟩
  obtain ⟨m, hm, hspec, -, hcovers, htclass, hbit⟩ := hrule
  refine (hr.check_iff p).mpr ⟨m, hm, hspec, ⟨c, hc, htclass ▸ hclass, ?_⟩, _, _, ⟨hsrc, htgt⟩, hcovers⟩ hcheck
  exact (Bits.and_ne_zero_iff _ _).mpr ⟨perm, hdata, hbit⟩

end Decisions

/-- `if (b) { allow t t : process { fork transition }; }` -/
def switchPolicy : Policydb :=
  { processPolicy with
    teAvtab := .empty
    teCondAvtab := (avtabAlloc 1).insertNode avtabAlloc_one ⟨1#16, 1#16, 2#16, avtabAllowed⟩ { data := 3#32 }
      (some (0, true))
    condList := [{ id := 0, expr := [.bool 1], trueList := [0] }]
    attrTypeMap := [Bitmap.word 1#64] }

theorem mapped_switchPolicy : Mapped switchPolicy 1 := by
  intro key
  rw [show (bitmapAt switchPolicy.typeAttrMap 1).bits = [0] by decide, Policydb.attrTypes]
  simp only [mem_singleton, exists_eq_left, BitVec.toNat_eq]
  rcases key.toNat with _ | _ | k
  · decide
  · decide
  · exact iff_of_false Bool.false_ne_true (by simp)

theorem settled_switchPolicy : Settled switchPolicy := by
  have hflags : ∀ c ∈ switchPolicy.condList, FlagsOk switchPolicy.teCondAvtab c := by
    intro c hc
    rw [mem_singleton.mp hc]
    exact ⟨by unfold ListOk; decide, ListOk.nil _ _ _⟩
  exact ⟨⟨hflags, by decide⟩, condFlags_of_flagsOk hflags (by decide), by decide, by decide⟩

/-- A process asks to fork one of another user, with the boolean set. -/
def switchDecision : Option (AvDecision × BitVec 32) :=
  contextStructComputeAv (runBools switchPolicy [fun _ => true]) ⟨1, 1, 1, {}⟩ ⟨2, 1, 1, {}⟩ 2#16 1#32

theorem exists_switchDecision : ∃ avd reason, switchDecision = some (avd, reason) ∧ avd.allowed.getLsbD 0 = true :=
  ⟨_, _, rfl, rfl⟩

theorem decision_iff_switched : ∃ n, InForce switchPolicy (fun _ => true) n ∧ Grants switchPolicy 1 1 2#16 0 n := by
  obtain ⟨avd, reason, hav, hbit⟩ := exists_switchDecision
  exact ((decision_iff _ mapped_switchPolicy mapped_switchPolicy hav settled_switchPolicy rfl).mp hbit).1

/-- `neverallow t t : process sigchld;` -/
theorem neverallow_kept_switched : ∃ avd reason, switchDecision = some (avd, reason) ∧ avd.allowed &&& 4#32 = 0#32 := by
  obtain ⟨avd, reason, hav, -⟩ := exists_switchDecision
  exact ⟨avd, reason, hav, neverallow_kept _ mapped_switchPolicy mapped_switchPolicy hav
    (r := { neverallowRule with perms := [⟨2, 4#32⟩] })
    ⟨⟨by decide, by decide⟩, by decide⟩ (by decide) (by decide) (by decide) (by decide) _ mem_cons_self rfl⟩

end SELinux.Services
