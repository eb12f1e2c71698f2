/-
  SELinux.Services.Transition — the two checks of a transition (`libsepol/src/services.c`:
  `sepol_validate_transition`, `sepol_validate_transition_reason_buffer`, `get_class_info`).

  Both evaluate the validatetrans rules of the class in turn until one fails. The evaluator begins
  each rule's text with the name of the class that it is given, whether or not anyone wants the
  text. The second check gives it the class. The first one gives it 0, and the name is taken from
  before the table.

  `validateTransition_iff`: the checks always agree, and both stay in the table of class names
  exactly when the class or a SID is not recognized or the class has no rules. In
  `validate_before_table` it has one.

  Rules are as `read_cons_helper` leaves them, so their value does not depend on what the
  evaluator's stack had before. Allocation succeeds, and each value up to `nprim` is a class's.
-/
import SELinux.Services.ConstraintStack

namespace SELinux.File

variable {db : Policydb} {o n t : Context} {rules : List ConstraintNode}

def eperm : Int := 1
def einval : Int := 22

/-- The slot of `class_val_to_struct`. -/
def Policydb.classAt (p : Policydb) (v : U32) : Option ClassDatum :=
  (slot (fun _ => true) (·.value) p.symtab.classes.table v).map (·.2)

/-- The policy of the services, with `sepol_sidtab_search`. Each rule was counted when it was read. -/
structure Transitions where
  db : Policydb
  search : Nat → Option Context
  counted : ∀ v d, db.classAt v = some d → ∀ c ∈ d.validatetrans, exprDepth c.expr = some 1

/-- The rules in turn: the result, and the places of `p_class_val_to_name` that are looked at.
    `mem` are the evaluator's stacks at first. -/
def evalRules (db : Policydb) (o n t : Context) (tclass : Int) (mem : Nat → Int → Bool) :
    List ConstraintNode → Int × List Int
  | [] => (0, [])
  | c :: rules =>
    if constraintExprEvalReason db o n (some t) (mem rules.length) c.expr then
      let (rc, names) := evalRules db o n t tclass mem rules
      (rc, (tclass - 1) :: names)
    else (-eperm, [tclass - 1])

/-- The contexts and the rules that a check is about. -/
def Transitions.lookup (p : Transitions) (oldsid newsid tasksid : Nat) (tclass : BitVec 16) :
    Option (Context × Context × Context × List ConstraintNode) :=
  if tclass = 0#16 ∨ tclass.toNat > p.db.symtab.classes.nprim.toNat then none
  else do
    let d ← p.db.classAt (tclass.setWidth 32)
    let o ← p.search oldsid
    let n ← p.search newsid
    let t ← p.search tasksid
    return (o, n, t, d.validatetrans)

/-- A check that gives the evaluator the class `given`. -/
def validate (p : Transitions) (given : BitVec 16) (mem : Nat → Int → Bool) (oldsid newsid tasksid : Nat)
    (tclass : BitVec 16) : Int × List Int :=
  match p.lookup oldsid newsid tasksid tclass with
  | none => (-einval, [])
  | some (o, n, t, rules) => evalRules p.db o n t given.toNat mem rules

def sepolValidateTransition (p : Transitions) : (Nat → Int → Bool) → Nat → Nat → Nat → BitVec 16 → Int × List Int :=
  validate p 0#16

def sepolValidateTransitionReasonBuffer (p : Transitions) (mem : Nat → Int → Bool) (oldsid newsid tasksid : Nat)
    (tclass : BitVec 16) : Int × List Int :=
  validate p tclass mem oldsid newsid tasksid tclass

def Transitions.InTable (p : Transitions) (i : Int) : Prop := 0 ≤ i ∧ i < p.db.symtab.classes.nprim.toNat

/-- What the stack had before is not in the value. -/
theorem evalReason_mem {expr : List ConstraintExpr} (hdepth : exprDepth expr = some 1) (mem mem' : Int → Bool) :
    constraintExprEvalReason db o n (some t) mem expr = constraintExprEvalReason db o n (some t) mem' expr := by
  obtain ⟨-, tree, hshaped, hlist, -, hknown, hunknown⟩ := evaluatesTree_of_depth db o n (some t) hdepth mem
  obtain ⟨-, tree', -, -, hunique, hknown', hunknown'⟩ := evaluatesTree_of_depth db o n (some t) hdepth mem'
  by_cases hall : ∀ e ∈ expr, e.Known (some t)
  · obtain ⟨-, -, -, -, hvalue⟩ := hknown hall
    obtain ⟨-, -, -, -, hvalue'⟩ := hknown' hall
    rw [hvalue, hvalue', hunique tree hshaped hlist]
  · have hsome : ∃ e ∈ expr, ¬e.Known (some t) := by simpa using hall
    rw [hunknown hsome, hunknown' hsome]

theorem evalRules_same (hcounted : ∀ c ∈ rules, exprDepth c.expr = some 1) (tclass tclass' : Int)
    (mem mem' : Nat → Int → Bool) : (evalRules db o n t tclass mem rules).1 = (evalRules db o n t tclass' mem' rules).1 := by
  induction rules with
  | nil => rfl
  | cons c rules ih =>
    obtain ⟨hc, hrules⟩ := List.forall_mem_cons.mp hcounted
    rw [evalRules, evalRules, evalReason_mem hc (mem _) (mem' rules.length)]
    split
    · exact ih hrules
    · rfl

/-- Each rule that is evaluated looks at one place. -/
theorem evalRules_names {tclass : Int} {mem : Nat → Int → Bool} :
    (∀ i ∈ (evalRules db o n t tclass mem rules).2, i = tclass - 1) ∧
      ((evalRules db o n t tclass mem rules).2 = [] ↔ rules = []) := by
  induction rules with
  | nil => simp [evalRules]
  | cons c rules ih =>
    rw [evalRules]
    split
    · simpa using ih.1
    · simp

theorem lookup_some {p : Transitions} {oldsid newsid tasksid : Nat} {tclass : BitVec 16}
    (h : p.lookup oldsid newsid tasksid tclass = some (o, n, t, rules)) :
    0 < tclass.toNat ∧ tclass.toNat ≤ p.db.symtab.classes.nprim.toNat ∧ ∀ c ∈ rules, exprDepth c.expr = some 1 := by
  unfold Transitions.lookup at h
  split_ifs at h with hclass
  simp only [Option.bind_eq_bind, Option.bind_eq_some_iff, Option.pure_def, Option.some.injEq, Prod.mk.injEq] at h
  obtain ⟨d, hd, _, -, _, -, _, -, -, -, -, rfl⟩ := h
  exact ⟨by bv_omega, by omega, p.counted _ d hd⟩

theorem validateTransition_iff (p : Transitions) (oldsid newsid tasksid : Nat) (tclass : BitVec 16)
    (mem mem' : Nat → Int → Bool) :
    (sepolValidateTransition p mem oldsid newsid tasksid tclass).1 =
      (sepolValidateTransitionReasonBuffer p mem' oldsid newsid tasksid tclass).1 ∧
      (∀ i ∈ (sepolValidateTransitionReasonBuffer p mem' oldsid newsid tasksid tclass).2, p.InTable i) ∧
      ((∀ i ∈ (sepolValidateTransition p mem oldsid newsid tasksid tclass).2, p.InTable i) ↔
        ∀ o n t rules, p.lookup oldsid newsid tasksid tclass = some (o, n, t, rules) → rules = []) := by
  unfold sepolValidateTransition sepolValidateTransitionReasonBuffer validate
  cases hlookup : p.lookup oldsid newsid tasksid tclass with
  | none => simp
  | some found =>
    obtain ⟨o, n, t, rules⟩ := found
    obtain ⟨hpos, hle, hcounted⟩ := lookup_some hlookup
    refine ⟨evalRules_same hcounted _ _ _ _, ?_, ?_⟩
    · intro i hi
      rw [evalRules_names.1 i hi]
      constructor <;> omega
    · have hnil : (evalRules p.db o n t (0#16).toNat mem rules).2 = [] ↔ rules = [] := evalRules_names.2
      constructor
      · intro h o' n' t' rules' heq
        cases heq
        refine hnil.mp (List.eq_nil_iff_forall_not_mem.mpr fun i hi => ?_)
        have hin := h i hi
        rw [evalRules_names.1 i hi] at hin
        exact absurd hin.1 (by decide)
      · intro h
        rw [hnil.mpr (h o n t rules rfl)]
        exact List.forall_mem_nil _

/-- A policy of one class with the rule `u1 == u2`. -/
def oneRule : Transitions where
  db :=
    { header := ⟨.kern, 26, .selinux, false⟩
      teAvtab := Db.avtabAlloc 0
      teCondAvtab := Db.avtabAlloc 0
      symtab :=
        { classes :=
            { table := ⟨[(⟨[], by decide⟩,
              { value := 1#32, validatetrans := [⟨0#32, [{ exprType := cexprAttr, attr := 1#32, op := 1#32 }]⟩] })], by simp⟩
              nprim := 1#32 } } }
  search _ := some {}
  counted v d hd := by
    obtain ⟨e, he, rfl⟩ := Option.map_eq_some_iff.mp hd
    cases List.mem_singleton.mp (List.mem_reverse.mp (List.mem_of_find?_eq_some he))
    decide

/-- The rule holds, and its text has the name before the table. -/
theorem validate_before_table : sepolValidateTransition oneRule (fun _ _ => false) 1 1 1 1#16 = (0, [-1]) := by
  decide +kernel

end SELinux.File
