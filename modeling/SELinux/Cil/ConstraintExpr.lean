/-
  SELinux.Cil.ConstraintExpr — constraint expressions of CIL (`libsepol/cil/src/cil_build_ast.c`:
  `cil_gen_constraint_expr`; `cil_verify.c`: `cil_verify_constraint_expr_syntax`,
  `cil_verify_constraint_leaf_expr_syntax`; `cil_binary.c`: `__cil_constrain_expr_to_sepol_expr`).

  A constraint compares parts of two contexts, or of three in a validatetrans rule, and joins
  the comparisons. In the policydb it is written operands first, for an evaluation with a stack
  of `CEXPR_MAXDEPTH` values; the reader of policy files refuses what takes more.

  The compiler counts the depth of an expression, but only a comparison adds to the count, and
  takes off again what it added; so the count is never above 0 when it is looked at. The check
  of a comparison's right operand leaves some operands out.

  - `text_of_gen`: the tree of an accepted expression is the one its text shows, unless a
    comparison has a list on its right.
  - `constraint_expr_faithful_iff`: the policydb's form is read back and has the value of the
    tree exactly when every comparison is one of the language's and the stack suffices.
  - `nested_and_refused`: six comparisons joined from the right are accepted, and their policy
    cannot be read.
-/
import SELinux.Cil.Expr
import SELinux.File.Constraint
import SELinux.Services.ComputeAv

namespace SELinux.Cil

open Db Lib Services List
open File (Header U32 cexprAnd cexprAttr cexprNames cexprNot cexprOr exprDepth exprShape hasTypeNames
  policydbVersionConstraintNames
  readConsHelper readConstraint readConstraint_iff writeConsHelper)

/-! ## Trees -/

/-- The rules with a constraint expression. -/
inductive ConsFlavor
  | constrain
  | mlsconstrain
  | validatetrans
  | mlsvalidatetrans
  deriving DecidableEq, Repr

/-- The rule goes into the validatetrans list of its class, and has a third context. -/
def ConsFlavor.transition : ConsFlavor → Bool
  | .constrain | .mlsconstrain => false
  | .validatetrans | .mlsvalidatetrans => true

inductive ConsOperand
  | u1 | u2 | u3
  | r1 | r2 | r3
  | t1 | t2 | t3
  | l1 | l2 | h1 | h2
  deriving DecidableEq, Repr

inductive LeafFlavor
  | user
  | role
  | type
  | level
  deriving DecidableEq, Repr

def ConsOperand.flavor : ConsOperand → LeafFlavor
  | .u1 | .u2 | .u3 => .user
  | .r1 | .r2 | .r3 => .role
  | .t1 | .t2 | .t3 => .type
  | .l1 | .l2 | .h1 | .h2 => .level

/-- A part of the third context. -/
def ConsOperand.third : ConsOperand → Bool
  | .u3 | .r3 | .t3 => true
  | _ => false

inductive LeafOp
  | eq
  | neq
  | dom
  | domby
  | incomp
  deriving DecidableEq, Repr

inductive JoinOp
  | and
  | or
  deriving DecidableEq, Repr

inductive ConsOperator
  | not
  | join (op : JoinOp)
  | leaf (op : LeafOp)
  deriving DecidableEq, Repr

/-- The right side of a comparison: an operand, a name, or a list of names. -/
inductive ConsRight (α β : Type)
  | operand (o : ConsOperand)
  | name (a : α)
  | list (b : β)

inductive ConsExpr (α β : Type)
  | leaf (op : LeafOp) (l : ConsOperand) (r : ConsRight α β)
  | not (e : ConsExpr α β)
  | join (op : JoinOp) (l r : ConsExpr α β)

namespace ConsExpr

variable {α β : Type}

/-- Every comparison has this property. -/
def All (P : LeafOp → ConsOperand → ConsRight α β → Prop) : ConsExpr α β → Prop
  | leaf op l r => P op l r
  | not e => e.All P
  | join _ l r => l.All P ∧ r.All P

/-- The number of values on the stack while the expression is evaluated. -/
def need : ConsExpr α β → Nat
  | leaf _ _ _ => 1
  | not e => e.need
  | join _ l r => max l.need (r.need + 1)

/-- The number of comparisons and operators. -/
def size : ConsExpr α β → Nat
  | leaf _ _ _ => 1
  | not e => e.size + 1
  | join _ l r => l.size + r.size + 1

end ConsExpr

/-! ## The tree of a text -/

/-- The keywords. -/
def ConsOperand.text : ConsOperand → Name
  | .u1 => "u1".toList
  | .u2 => "u2".toList
  | .u3 => "u3".toList
  | .r1 => "r1".toList
  | .r2 => "r2".toList
  | .r3 => "r3".toList
  | .t1 => "t1".toList
  | .t2 => "t2".toList
  | .t3 => "t3".toList
  | .l1 => "l1".toList
  | .l2 => "l2".toList
  | .h1 => "h1".toList
  | .h2 => "h2".toList

def ConsOperator.text : ConsOperator → Name
  | .not => "not".toList
  | .join .and => "and".toList
  | .join .or => "or".toList
  | .leaf .eq => "eq".toList
  | .leaf .neq => "neq".toList
  | .leaf .dom => "dom".toList
  | .leaf .domby => "domby".toList
  | .leaf .incomp => "incomp".toList

def ConsOperand.all : List ConsOperand := [.t1, .t2, .t3, .r1, .r2, .r3, .u1, .u2, .u3, .l1, .l2, .h1, .h2]

def ConsOperator.all : List ConsOperator :=
  [.join .and, .join .or, .not, .leaf .eq, .leaf .neq, .leaf .dom, .leaf .domby, .leaf .incomp]

/-- `__cil_get_constraint_operator_flavor`; `none` is CIL_NONE. -/
def cilGetConstraintOperatorFlavor (op : Name) : Option ConsOperator := ConsOperator.all.find? (·.text == op)

/-- What is kept of a list on the right: the address of `sub_list`, a variable of
    `__cil_fill_constraint_leaf_expr` that is gone when the address is used. -/
inductive LostList
  | lost

/-- `__cil_get_constraint_operand_flavor`, with what is kept of a name or a list. -/
def cilGetConstraintOperandFlavor : Sexp → ConsRight Name LostList
  | .list _ => .list .lost
  | .atom operand =>
    match ConsOperand.all.find? (·.text == operand) with
    | some o => .operand o
    | none => .name operand

def synList : Syn := { list := true }

def cilVerifyConstraintExprSyntax (current : List Sexp) : ConsOperator → Bool
  | .not => cilVerifySyntax 0 [synString, synList, synEnd] current
  | .join _ => cilVerifySyntax 0 [synString, synList, synList, synEnd] current
  | .leaf .eq | .leaf .neq => cilVerifySyntax 0 [synString, synString, synOperand, synEnd] current
  | .leaf _ => cilVerifySyntax 0 [synString, synString, synString, synEnd] current

/-- The right operands `u1`, `u3`, `r1`, `r3`, `t1`, `t3` and `l1` are not looked at. -/
def cilVerifyConstraintLeafExprSyntax (l : ConsOperand) (r : ConsRight Name LostList) (op : LeafOp) (flavor : ConsFlavor) :
    Bool :=
  match r with
  | .name _ | .list _ => l.flavor != .level && (!l.third || flavor == .mlsvalidatetrans)
  | .operand .u2 => (op == .eq || op == .neq) && l == .u1
  | .operand .r2 => l == .r1
  | .operand .t2 => (op == .eq || op == .neq) && l == .t1
  | .operand .l2 => l == .l1 || l == .h1
  | .operand .h2 => l == .l1 || l == .l2 || l == .h1
  | .operand .h1 => l == .l1
  | .operand _ => true

def cilFillConstraintLeafExpr (flavor : ConsFlavor) (op : LeafOp) (left right : Sexp) : Option (ConsExpr Name LostList) :=
  match cilGetConstraintOperandFlavor left with
  | .operand l =>
    let r := cilGetConstraintOperandFlavor right
    if cilVerifyConstraintLeafExprSyntax l r op flavor then some (.leaf op l r) else none
  | _ => none

/-- What `__cil_fill_constraint_expr` checks before it goes on. -/
def cilOpenConstraint (current : List Sexp) (depth : Int) : Option ConsOperator :=
  match current with
  | .atom data :: _ =>
    if (cexprMaxdepth : Int) < depth then none
    else
      match cilGetConstraintOperatorFlavor data with
      | some op => if cilVerifyConstraintExprSyntax current op then some op else none
      | none => none
  | _ => none

/-- `__cil_fill_constraint_expr`: the tree, and the depth after it. -/
def cilFillConstraintExpr (flavor : ConsFlavor) : Sexp → Int → Option (ConsExpr Name LostList × Int)
  | .list (x :: a :: b :: xs), depth =>
    match cilOpenConstraint (x :: a :: b :: xs) depth with
    | some (.leaf op) => (cilFillConstraintLeafExpr flavor op a b).map fun e => (e, depth + 1 - 1)
    | some (.join op) =>
      (cilFillConstraintExpr flavor a depth).bind fun l =>
        (cilFillConstraintExpr flavor b l.2).map fun r => (.join op l.1 r.1, r.2 - 1)
    | _ => none
  | .list [x, a], depth =>
    match cilOpenConstraint [x, a] depth with
    | some .not => (cilFillConstraintExpr flavor a depth).map fun e => (.not e.1, e.2 - 1)
    | _ => none
  | _, _ => none

def cilGenConstraintExpr (flavor : ConsFlavor) (current : Sexp) : Option (ConsExpr Name LostList) :=
  (cilFillConstraintExpr flavor current 0).map (·.1)

/-- An accepted comparison. -/
def Verified (flavor : ConsFlavor) (op : LeafOp) (l : ConsOperand) (r : ConsRight Name LostList) : Prop :=
  cilVerifyConstraintLeafExprSyntax l r op flavor = true

/-- The text of a right operand; of a list no item is left. -/
def ConsRight.text : ConsRight Name LostList → Sexp
  | .operand o => .atom o.text
  | .name n => .atom n
  | .list _ => .list []

def ConsExpr.text : ConsExpr Name LostList → Sexp
  | .leaf op l r => .list [.atom (ConsOperator.leaf op).text, .atom l.text, r.text]
  | .not e => .list [.atom ConsOperator.not.text, e.text]
  | .join op l r => .list [.atom (ConsOperator.join op).text, l.text, r.text]

/-- No comparison has a list on its right. -/
def ConsExpr.NoList (e : ConsExpr Name LostList) : Prop := e.All fun _ _ r => r ≠ .list .lost

theorem operand_text {x : Sexp} (hlist : cilGetConstraintOperandFlavor x ≠ .list .lost) :
    (cilGetConstraintOperandFlavor x).text = x := by
  cases x with
  | list items => exact absurd rfl hlist
  | atom operand =>
    rw [cilGetConstraintOperandFlavor]
    split
    next o ho =>
      have htext := List.find?_some ho
      exact congrArg Sexp.atom (beq_iff_eq.mp htext)
    · rfl

theorem operator_text {data : Name} {op : ConsOperator} (h : cilGetConstraintOperatorFlavor data = some op) :
    op.text = data := by
  have htext := List.find?_some h
  exact beq_iff_eq.mp htext

theorem cilOpenConstraint_inv {current : List Sexp} {depth : Int} {op : ConsOperator}
    (h : cilOpenConstraint current depth = some op) :
    ∃ xs, current = .atom op.text :: xs ∧ cilVerifyConstraintExprSyntax current op = true := by
  unfold cilOpenConstraint at h
  split at h
  next data xs =>
    split at h
    · cases h
    · split at h
      next hop =>
        split_ifs at h with hverify
        cases h
        exact ⟨xs, by rw [operator_text hop], hverify⟩
      · cases h
  · cases h

theorem fits_end (x : Sexp) : synEnd.fits x = false := by
  match x with
  | .atom _ => rfl
  | .list [] => rfl
  | .list (_ :: _) => rfl

variable {x a b : Sexp}

/-- Two operands and the end. -/
theorem nil_of_verify {s0 s1 s2 : Syn} {xs : List Sexp} (h0 : s0.nStrings = false ∧ s0.nLists = false)
    (h1 : s1.nStrings = false ∧ s1.nLists = false) (h2 : s2.nStrings = false ∧ s2.nLists = false)
    (h : cilVerifySyntax 0 [s0, s1, s2, synEnd] (x :: a :: b :: xs) = true) : xs = [] := by
  cases xs with
  | nil => rfl
  | cons y ys =>
    simp only [cilVerifySyntax_cons h0.1 h0.2, cilVerifySyntax_cons h1.1 h1.2, cilVerifySyntax_cons h2.1 h2.2,
      cilVerifySyntax_cons (show synEnd.nStrings = false from rfl) rfl, fits_end, Bool.false_and, Bool.and_false] at h
    cases h

theorem two_of_verify {xs : List Sexp} {op : ConsOperator}
    (h : cilVerifyConstraintExprSyntax (x :: a :: b :: xs) op = true) (hop : op ≠ .not) : xs = [] := by
  cases op with
  | not => exact absurd rfl hop
  | join op => exact nil_of_verify ⟨rfl, rfl⟩ ⟨rfl, rfl⟩ ⟨rfl, rfl⟩ h
  | leaf op => cases op <;> exact nil_of_verify ⟨rfl, rfl⟩ ⟨rfl, rfl⟩ ⟨rfl, rfl⟩ h

variable {e : ConsExpr Name LostList} {op : LeafOp}

theorem cilFillConstraintLeafExpr_inv {flavor : ConsFlavor} (h : cilFillConstraintLeafExpr flavor op a b = some e) :
    (e.NoList → e.text = .list [.atom (ConsOperator.leaf op).text, a, b]) ∧ e.All (Verified flavor) := by
  unfold cilFillConstraintLeafExpr at h
  split at h
  next l hl =>
    obtain ⟨hverified, heq⟩ := Option.ite_none_right_eq_some.mp h
    cases heq
    refine ⟨?_, hverified⟩
    intro hlist
    have hleft : cilGetConstraintOperandFlavor a ≠ .list .lost := by simp [hl]
    have hatom : a = .atom l.text := by
      rw [← operand_text hleft, hl]
      rfl
    rw [ConsExpr.text, operand_text hlist, hatom]
  · cases h

/-- An accepted expression: its tree has its text, up to lists, and only accepted comparisons. -/
theorem cilFillConstraintExpr_inv {flavor : ConsFlavor} {depth depth' : Int}
    (h : cilFillConstraintExpr flavor x depth = some (e, depth')) : (e.NoList → e.text = x) ∧ e.All (Verified flavor) := by
  fun_induction cilFillConstraintExpr flavor x depth generalizing e depth' with
  | case1 depth x a b xs op hopen =>
    obtain ⟨ys, hys, hverify⟩ := cilOpenConstraint_inv hopen
    obtain rfl := two_of_verify hverify nofun
    obtain ⟨e', hleaf, heq⟩ := Option.map_eq_some_iff.mp h
    cases heq
    cases hys
    exact cilFillConstraintLeafExpr_inv hleaf
  | case2 depth x a b xs op hopen ihl ihr =>
    obtain ⟨ys, hys, hverify⟩ := cilOpenConstraint_inv hopen
    obtain rfl := two_of_verify hverify nofun
    obtain ⟨⟨l, dl⟩, hl, h⟩ := Option.bind_eq_some_iff.mp h
    obtain ⟨⟨r, dr⟩, hr, heq⟩ := Option.map_eq_some_iff.mp h
    cases heq
    cases hys
    obtain ⟨htl, hal⟩ := ihl hl
    obtain ⟨htr, har⟩ := ihr _ hr
    refine ⟨?_, hal, har⟩
    intro hlist
    rw [ConsExpr.text, htl hlist.1, htr hlist.2]
  | case4 depth x a hopen ih =>
    obtain ⟨xs, hxs, -⟩ := cilOpenConstraint_inv hopen
    obtain ⟨⟨e', d⟩, hfill, heq⟩ := Option.map_eq_some_iff.mp h
    cases heq
    cases hxs
    obtain ⟨htext, hall⟩ := ih hfill
    refine ⟨?_, hall⟩
    intro hlist
    rw [ConsExpr.text, htext hlist]
  | case3 | case5 | case6 => cases h

theorem text_of_gen {flavor : ConsFlavor} (h : cilGenConstraintExpr flavor x = some e) (hlist : e.NoList) : e.text = x := by
  obtain ⟨⟨e', depth⟩, hfill, heq⟩ := Option.map_eq_some_iff.mp h
  cases heq
  exact (cilFillConstraintExpr_inv hfill).1 hlist

theorem verified_of_gen {flavor : ConsFlavor} (h : cilGenConstraintExpr flavor x = some e) : e.All (Verified flavor) := by
  obtain ⟨⟨e', depth⟩, hfill, heq⟩ := Option.map_eq_some_iff.mp h
  cases heq
  exact (cilFillConstraintExpr_inv hfill).2

/-! ## The policydb's form -/

/-- A user, role, type, or an attribute of one of these: `members` are the names of what it
    stands for. -/
structure ConsDatum where
  fqn : Name
  members : List Name

/-- The resolution of an expression. Nothing is found where the address of a list points. -/
def cilResolveConstraintExpr (resolve : LeafFlavor → Name → Option ConsDatum) :
    ConsExpr Name LostList → Option (ConsExpr ConsDatum (List ConsDatum))
  | .leaf op l (.operand o) => some (.leaf op l (.operand o))
  | .leaf op l (.name n) => (resolve l.flavor n).map fun d => .leaf op l (.name d)
  | .leaf _ _ (.list _) => none
  | .not e => (cilResolveConstraintExpr resolve e).map .not
  | .join op l r =>
    (cilResolveConstraintExpr resolve l).bind fun l => (cilResolveConstraintExpr resolve r).map fun r => .join op l r

/-- `__cil_get_sepol_user_datum` and its like: the value a name has in the policydb. -/
def sepolValue (pdb : Policydb) : LeafFlavor → Name → Option Nat
  | .user, fqn => (pdb.pUsers.search fqn).map (·.value)
  | .role, fqn => (pdb.pRoles.search fqn).map (·.value)
  | .type, fqn => (pdb.pTypes.search fqn).map (·.value)
  | .level, _ => none

/-- The bit `value - 1`; for 0 that is the last one, which a bitmap cannot hold. -/
def setValue (e : Bitmap) (value : Nat) : Option Bitmap := if value = 0 then none else e.setBit (value - 1) true

/-- An element of the policydb's form. -/
structure SepolExpr where
  elem : Db.ConstraintExpr
  typeNames : Bitmap := Bitmap.empty

def LeafOp.code : LeafOp → BitVec 32
  | .eq => cexprEq
  | .neq => cexprNeq
  | .dom => cexprDom
  | .domby => cexprDomby
  | .incomp => cexprIncomp

def JoinOp.elem : JoinOp → Db.ConstraintExpr
  | .and => .and
  | .or => .or

def leafAttr {α β : Type} (l : ConsOperand) (r : ConsRight α β) : Option (BitVec 32) :=
  match l with
  | .u1 => some cexprUser
  | .u2 => some (cexprUser ||| cexprTarget)
  | .u3 => some (cexprUser ||| Services.cexprXtarget)
  | .r1 => some cexprRole
  | .r2 => some (cexprRole ||| cexprTarget)
  | .r3 => some (cexprRole ||| Services.cexprXtarget)
  | .t1 => some cexprType
  | .t2 => some (cexprType ||| cexprTarget)
  | .t3 => some (cexprType ||| Services.cexprXtarget)
  | .l1 =>
    match r with
    | .operand .l2 => some cexprL1L2
    | .operand .h1 => some cexprL1H1
    | _ => some cexprL1H2
  | .l2 => some cexprL2H2
  | .h1 =>
    match r with
    | .operand .l2 => some cexprH1L2
    | _ => some cexprH1H2
  | .h2 => none

/-- `__cil_constrain_expr_datum_to_sepol_expr`: the values of the members go to `names`, and that
    of a type or an attribute itself to `type_names`. -/
def cilConstrainExprDatumToSepolExpr (pdb : Policydb) (policyvers : Nat) (flavor : LeafFlavor) (sets : Bitmap × Bitmap)
    (d : ConsDatum) : Option (Bitmap × Bitmap) :=
  if flavor = .level then none
  else
    (if flavor = .type ∧ policydbVersionConstraintNames ≤ policyvers then
        (sepolValue pdb .type d.fqn).bind (setValue sets.2)
      else some sets.2).bind fun typeNames =>
      (d.members.foldlM (fun names m => (sepolValue pdb flavor m).bind (setValue names)) sets.1).map fun names =>
        (names, typeNames)

def cilConstrainExprLeafToSepolExpr (pdb : Policydb) (policyvers : Nat) (op : LeafOp) (l : ConsOperand)
    (r : ConsRight ConsDatum (List ConsDatum)) : Option SepolExpr :=
  (leafAttr l r).bind fun attr =>
    let names := fun ds : List ConsDatum =>
      (ds.foldlM (cilConstrainExprDatumToSepolExpr pdb policyvers l.flavor) (Bitmap.empty, Bitmap.empty)).map fun sets =>
        ({ elem := .names attr op.code sets.1, typeNames := sets.2 } : SepolExpr)
    match r with
    | .operand _ => some { elem := .attr attr op.code }
    | .name d => names [d]
    | .list ds => names ds

/-- `__cil_constrain_expr_to_sepol_expr_helper` -/
def cilConstrainExprToSepolExpr (pdb : Policydb) (policyvers : Nat) :
    ConsExpr ConsDatum (List ConsDatum) → Option (List SepolExpr)
  | .leaf op l r => (cilConstrainExprLeafToSepolExpr pdb policyvers op l r).map fun e => [e]
  | .not e => (cilConstrainExprToSepolExpr pdb policyvers e).map fun h1 => h1 ++ [{ elem := .not }]
  | .join op l r =>
    (cilConstrainExprToSepolExpr pdb policyvers l).bind fun h1 =>
      (cilConstrainExprToSepolExpr pdb policyvers r).map fun h2 => h1 ++ h2 ++ [{ elem := op.elem }]

/-- The form of an accepted expression. -/
def sepolExprOf (pdb : Policydb) (policyvers : Nat) (resolve : LeafFlavor → Name → Option ConsDatum)
    (e : ConsExpr Name LostList) : Option (List SepolExpr) :=
  (cilResolveConstraintExpr resolve e).bind (cilConstrainExprToSepolExpr pdb policyvers)

/-- The element as the policy file has it. -/
def SepolExpr.file (e : SepolExpr) : File.ConstraintExpr :=
  match e.elem with
  | .not => { exprType := cexprNot }
  | .and => { exprType := cexprAnd }
  | .or => { exprType := cexprOr }
  | .attr attr op => { exprType := cexprAttr, attr, op }
  | .names attr op names =>
    { exprType := cexprNames, attr, op, names := File.FileBitmap.ofBitmap names,
      typeNames := { types := File.FileBitmap.ofBitmap e.typeNames } }

/-! ## The meaning of an expression -/

/-- What a rule is evaluated for: contexts with values of the policy. -/
structure ConsRequest (flavor : ConsFlavor) where
  s : Context
  t : Context
  x : Option Context
  third : x.isSome = flavor.transition
  valued : ∀ c ∈ s :: t :: x.toList, 0 < c.user ∧ 0 < c.role ∧ 0 < c.type

section

variable {flavor : ConsFlavor}

/-- The value of an operand that is a user, a role or a type. -/
def ConsRequest.ident (q : ConsRequest flavor) : ConsOperand → Option Nat
  | .u1 => some q.s.user
  | .u2 => some q.t.user
  | .u3 => q.x.map (·.user)
  | .r1 => some q.s.role
  | .r2 => some q.t.role
  | .r3 => q.x.map (·.role)
  | .t1 => some q.s.type
  | .t2 => some q.t.type
  | .t3 => q.x.map (·.type)
  | _ => none

/-- Only equality compares users and types, and members of a name. -/
def LeafOp.equal : LeafOp → Bool → Option Bool
  | .eq, b => some b
  | .neq, b => some !b
  | _, _ => none

/-- Equality, or what `dom` says of the two in both directions. -/
def LeafOp.ordered (op : LeafOp) (equal dom domby : Bool) : Bool :=
  match op with
  | .eq => equal
  | .neq => !equal
  | .dom => dom
  | .domby => domby
  | .incomp => !dom && !domby

def LeafOp.levels (op : LeafOp) (l1 l2 : MlsLevel) : Bool :=
  op.ordered (decide (l1 = l2)) (mlsLevelDom l1 l2) (mlsLevelDom l2 l1)

/-- The value is one of those that the name stands for. -/
def standsFor (pdb : Policydb) (resolve : LeafFlavor → Name → Option ConsDatum) (flavor : LeafFlavor) (name : Name)
    (value : Nat) : Bool :=
  (resolve flavor name).any fun d => d.members.any fun m => sepolValue pdb flavor m == some value

/-- The comparisons of the language reference, and their values. -/
def leafValue (pdb : Policydb) (resolve : LeafFlavor → Name → Option ConsDatum) (q : ConsRequest flavor) (op : LeafOp)
    (l : ConsOperand) (r : ConsRight Name LostList) : Option Bool :=
  match l, r with
  | .u1, .operand .u2 => op.equal (q.s.user == q.t.user)
  | .t1, .operand .t2 => op.equal (q.s.type == q.t.type)
  | .r1, .operand .r2 =>
    some (op.ordered (q.s.role == q.t.role) (roleDominates pdb q.s.role q.t.role) (roleDominates pdb q.t.role q.s.role))
  | .l1, .operand .l2 => some (op.levels q.s.range.low q.t.range.low)
  | .l1, .operand .h2 => some (op.levels q.s.range.low q.t.range.high)
  | .h1, .operand .l2 => some (op.levels q.s.range.high q.t.range.low)
  | .h1, .operand .h2 => some (op.levels q.s.range.high q.t.range.high)
  | .l1, .operand .h1 => some (op.levels q.s.range.low q.s.range.high)
  | .l2, .operand .h2 => some (op.levels q.t.range.low q.t.range.high)
  | l, .name name => (q.ident l).bind fun value => op.equal (standsFor pdb resolve l.flavor name value)
  | _, _ => none

def JoinOp.apply : JoinOp → Bool → Bool → Bool
  | .and => (· && ·)
  | .or => (· || ·)

/-- The value of a tree, which has one if all of its comparisons have. -/
def ConsExpr.value (pdb : Policydb) (resolve : LeafFlavor → Name → Option ConsDatum) (q : ConsRequest flavor) :
    ConsExpr Name LostList → Option Bool
  | .leaf op l r => leafValue pdb resolve q op l r
  | .not e => (e.value pdb resolve q).map (! ·)
  | .join op l r => (l.value pdb resolve q).bind fun a => (r.value pdb resolve q).map fun b => op.apply a b

end

/-- The comparisons of the language reference. -/
def documented (op : LeafOp) (l : ConsOperand) (r : ConsRight Name LostList) : Prop :=
  match l, r with
  | .u1, .operand .u2 | .t1, .operand .t2 => op = .eq ∨ op = .neq
  | .r1, .operand .r2 => True
  | .l1, .operand .l2 | .l1, .operand .h2 | .h1, .operand .l2 | .h1, .operand .h2 | .l1, .operand .h1
  | .l2, .operand .h2 => True
  | l, .name _ => l.flavor ≠ .level ∧ (op = .eq ∨ op = .neq)
  | _, _ => False

variable {expr : List SepolExpr} {l : ConsOperand} {h : Header} {names : Bitmap} {n : Name} {v : Bool}

section

variable {pdb : Policydb} {policyvers : Nat} {resolve : LeafFlavor → Name → Option ConsDatum}

/-- The form of each kind of tree. -/
inductive Form (pdb : Policydb) (policyvers : Nat) (resolve : LeafFlavor → Name → Option ConsDatum) :
    ConsExpr Name LostList → List SepolExpr → Prop
  | operand {op : LeafOp} {l o : ConsOperand} {attr : BitVec 32} :
      leafAttr l (.operand o : ConsRight Name LostList) = some attr →
      Form pdb policyvers resolve (.leaf op l (.operand o)) [{ elem := .attr attr op.code }]
  | name {op : LeafOp} {l : ConsOperand} {n : Name} {attr : BitVec 32} {d : ConsDatum} {names typeNames : Bitmap} :
      leafAttr l (.name n : ConsRight Name LostList) = some attr → resolve l.flavor n = some d →
      cilConstrainExprDatumToSepolExpr pdb policyvers l.flavor (Bitmap.empty, Bitmap.empty) d = some (names, typeNames) →
      Form pdb policyvers resolve (.leaf op l (.name n)) [{ elem := .names attr op.code names, typeNames }]
  | not {e : ConsExpr Name LostList} {h1 : List SepolExpr} :
      Form pdb policyvers resolve e h1 → Form pdb policyvers resolve (.not e) (h1 ++ [{ elem := .not }])
  | join {op : JoinOp} {l r : ConsExpr Name LostList} {h1 h2 : List SepolExpr} :
      Form pdb policyvers resolve l h1 → Form pdb policyvers resolve r h2 →
      Form pdb policyvers resolve (.join op l r) (h1 ++ h2 ++ [{ elem := op.elem }])

theorem leafAttr_operand (l o : ConsOperand) :
    leafAttr l (.operand o : ConsRight ConsDatum (List ConsDatum)) = leafAttr l (.operand o : ConsRight Name LostList) := by
  cases l <;> cases o <;> rfl

theorem leafAttr_name (l : ConsOperand) (d : ConsDatum) (n : Name) :
    leafAttr l (.name d : ConsRight ConsDatum (List ConsDatum)) = leafAttr l (.name n : ConsRight Name LostList) := by
  cases l <;> rfl

theorem form_of_sepolExprOf (h : sepolExprOf pdb policyvers resolve e = some expr) : Form pdb policyvers resolve e expr := by
  induction e generalizing expr with
  | leaf op l r =>
    obtain ⟨e', hres, hconv⟩ := Option.bind_eq_some_iff.mp h
    cases r with
    | operand o =>
      cases hres
      obtain ⟨el, hel, rfl⟩ := Option.map_eq_some_iff.mp hconv
      obtain ⟨attr, hattr, hel⟩ := Option.bind_eq_some_iff.mp hel
      cases hel
      exact .operand (by rw [← leafAttr_operand, hattr])
    | name n =>
      obtain ⟨d, hd, rfl⟩ := Option.map_eq_some_iff.mp hres
      simp only [cilConstrainExprToSepolExpr, cilConstrainExprLeafToSepolExpr, Option.map_eq_some_iff,
        Option.bind_eq_some_iff, foldlM_cons, foldlM_nil, bind_pure] at hconv
      obtain ⟨_, ⟨attr, hattr, ⟨names, typeNames⟩, hsets, rfl⟩, rfl⟩ := hconv
      exact .name (by rw [← leafAttr_name, hattr]) hd hsets
    | list items => cases hres
  | not e ih =>
    obtain ⟨e', hres, hconv⟩ := Option.bind_eq_some_iff.mp h
    obtain ⟨e1, he1, rfl⟩ := Option.map_eq_some_iff.mp hres
    obtain ⟨h1, hh1, rfl⟩ := Option.map_eq_some_iff.mp hconv
    exact .not (ih (Option.bind_eq_some_iff.mpr ⟨e1, he1, hh1⟩))
  | join op l r ihl ihr =>
    simp only [sepolExprOf, cilResolveConstraintExpr, Option.map_eq_some_iff, Option.bind_eq_some_iff] at h
    obtain ⟨_, ⟨l1, hl1, r1, hr1, rfl⟩, hconv⟩ := h
    obtain ⟨h1, hh1, hconv⟩ := Option.bind_eq_some_iff.mp hconv
    obtain ⟨h2, hh2, rfl⟩ := Option.map_eq_some_iff.mp hconv
    exact .join (ihl (Option.bind_eq_some_iff.mpr ⟨l1, hl1, hh1⟩)) (ihr (Option.bind_eq_some_iff.mpr ⟨r1, hr1, hh2⟩))

/-! ## The stack and the file -/

/-- The form is the program of a tree that takes a stack of this depth. -/
theorem Form.shapes (h : Form pdb policyvers resolve e expr) :
    ∃ t : Rpn.Tree Unit, expr.map (·.elem.shape) = t.program.map Rpn.Op.shape ∧ t.need = e.need := by
  induction h with
  | operand _ => exact ⟨.leaf (), rfl, rfl⟩
  | name _ _ _ => exact ⟨.leaf (), rfl, rfl⟩
  | not _ ih =>
    obtain ⟨t, hshape, hneed⟩ := ih
    refine ⟨.un id t, ?_, hneed⟩
    rw [map_append, hshape, Rpn.Tree.program, map_append]
    rfl
  | @join op _ _ _ _ _ _ ihl ihr =>
    obtain ⟨t1, hshape1, hneed1⟩ := ihl
    obtain ⟨t2, hshape2, hneed2⟩ := ihr
    refine ⟨.bin (fun _ _ => ()) t1 t2, ?_, by rw [Rpn.Tree.need, hneed1, hneed2, ConsExpr.need]⟩
    rw [map_append, map_append, hshape1, hshape2, Rpn.Tree.program, map_append, map_append]
    cases op <;> rfl

theorem Form.length (h : Form pdb policyvers resolve e expr) : expr.length = e.size := by
  induction h with
  | operand _ => rfl
  | name _ _ _ => rfl
  | not _ ih => rw [length_append, ih]; rfl
  | join _ _ ihl ihr => rw [length_append, length_append, ihl, ihr]; rfl

theorem Form.depth (h : Form pdb policyvers resolve e expr) :
    Rpn.depth cexprMaxdepth (expr.map (·.elem.shape)) 0 = if e.need ≤ cexprMaxdepth then some 1 else none := by
  obtain ⟨t, hshape, hneed⟩ := h.shapes
  rw [hshape, Rpn.Tree.depth_program, hneed]

theorem exprShape_file (e : SepolExpr) : exprShape e.file.exprType = some e.elem.shape := by
  obtain ⟨elem, typeNames⟩ := e
  cases elem <;> rfl

theorem exprDepth_file (expr : List SepolExpr) :
    exprDepth (expr.map SepolExpr.file) = Rpn.depth cexprMaxdepth (expr.map (·.elem.shape)) 0 := by
  have hshapes : ∀ l : List SepolExpr, (l.map SepolExpr.file).mapM (fun e => exprShape e.exprType) =
      some (l.map (·.elem.shape)) := by
    intro l
    induction l with
    | nil => rfl
    | cons e l ih =>
      rw [map_cons, mapM_cons, exprShape_file, ih]
      rfl
  rw [exprDepth, hshapes, Option.bind_some]

/-- An element that its file keeps: nothing is in the set of names that old versions leave out,
    and the third context is only in rules that have one. -/
structure SepolExpr.Fits (h : Header) (flavor : ConsFlavor) (e : SepolExpr) : Prop where
  typeNames : hasTypeNames h = false → e.typeNames = Bitmap.empty
  xtarget : flavor.transition = false → e.file.xtarget = false

theorem SepolExpr.Fits.kept {flavor : ConsFlavor} {e : SepolExpr} (he : e.Fits h flavor) : e.file.kept h = e.file := by
  obtain ⟨elem, typeNames⟩ := e
  cases elem with
  | names attr op names =>
    cases hnames : hasTypeNames h with
    | true => simp [SepolExpr.file, File.ConstraintExpr.kept, File.ConstraintExpr.sets, hnames]
    | false =>
      have hempty := he.typeNames hnames
      subst hempty
      simp [SepolExpr.file, File.ConstraintExpr.kept, File.ConstraintExpr.sets, hnames]
      rfl
  | _ => rfl

theorem hasTypeNames_of_version (hv : policydbVersionConstraintNames ≤ h.policyvers) : hasTypeNames h = true := by
  unfold hasTypeNames Header.kernAt
  cases h.policyType <;> simp [hv]

/-- Old versions of the policy have no set of type names. -/
theorem typeNames_of_datum {flavor : LeafFlavor} {d : ConsDatum} {sets names typeNames}
    (hd : cilConstrainExprDatumToSepolExpr pdb h.policyvers flavor sets d = some (names, typeNames))
    (hold : hasTypeNames h = false) : typeNames = sets.2 := by
  unfold cilConstrainExprDatumToSepolExpr at hd
  split at hd
  · cases hd
  · have hvers : ¬ (flavor = .type ∧ policydbVersionConstraintNames ≤ h.policyvers) := by
      intro hc
      rw [hasTypeNames_of_version hc.2] at hold
      cases hold
    rw [if_neg hvers] at hd
    obtain ⟨_, -, heq⟩ := Option.map_eq_some_iff.mp hd
    cases heq
    rfl

/-- `u3`, `r3` and `t3` stand next to a name only in mlsvalidatetrans rules. -/
theorem not_third_of_verified {flavor : ConsFlavor} (hv : Verified flavor op l (.name n))
    (hflavor : flavor.transition = false) : l.flavor ≠ .level ∧ l.third = false := by
  unfold Verified cilVerifyConstraintLeafExprSyntax at hv
  rw [Bool.and_eq_true, bne_iff_ne] at hv
  refine ⟨hv.1, ?_⟩
  cases flavor with
  | constrain | mlsconstrain => simpa using hv.2
  | validatetrans | mlsvalidatetrans => cases hflavor

theorem Form.fits {flavor : ConsFlavor} (hf : Form pdb h.policyvers resolve e expr) (hv : e.All (Verified flavor)) :
    ∀ el ∈ expr, el.Fits h flavor := by
  induction hf with
  | operand _ => exact forall_mem_singleton.mpr ⟨fun _ => rfl, fun _ => rfl⟩
  | @name op l n attr d names typeNames hattr _ hsets =>
    refine forall_mem_singleton.mpr ⟨typeNames_of_datum hsets, fun hflavor => ?_⟩
    obtain ⟨hlevel, hthird⟩ := not_third_of_verified hv hflavor
    have hbit : attr &&& File.cexprXtarget = 0#32 →
        File.ConstraintExpr.xtarget { exprType := cexprNames, attr, op := op.code } = false := by
      intro h0
      rw [File.ConstraintExpr.xtarget, h0]
      rfl
    cases l with
    | u1 | u2 | r1 | r2 | t1 | t2 =>
      cases hattr
      exact hbit (by decide)
    | u3 | r3 | t3 => cases hthird
    | l1 | l2 | h1 | h2 => exact absurd rfl hlevel
  | not _ ih => exact forall_mem_append.mpr ⟨ih hv, forall_mem_singleton.mpr ⟨fun _ => rfl, fun _ => rfl⟩⟩
  | @join op _ _ _ _ _ _ ihl ihr =>
    refine forall_mem_append.mpr ⟨forall_mem_append.mpr ⟨ihl hv.1, ihr hv.2⟩,
      forall_mem_singleton.mpr ⟨fun _ => rfl, fun _ => ?_⟩⟩
    cases op <;> rfl

/-! ## Evaluation -/

/-- The bits of the members' values. -/
theorem has_members {flavor : LeafFlavor} {ms : List Name} {names' : Bitmap}
    (h : ms.foldlM (fun names m => (sepolValue pdb flavor m).bind (setValue names)) names = some names') {v : Nat}
    (hv : 0 < v) : names'.has (v - 1) = (names.has (v - 1) || ms.any fun m => sepolValue pdb flavor m == some v) := by
  induction ms generalizing names with
  | nil =>
    cases h
    simp
  | cons m ms ih =>
    obtain ⟨next, hnext, h⟩ := Option.bind_eq_some_iff.mp h
    obtain ⟨w, hw, hset⟩ := Option.bind_eq_some_iff.mp hnext
    unfold setValue at hset
    split_ifs at hset with hw0
    rw [ih h, Bitmap.has_setBit hset, any_cons, hw]
    by_cases heq : v = w
    · simp [heq]
    · have hne : v - 1 ≠ w - 1 := by omega
      have hbeq : (some w == some v) = false := beq_false_of_ne fun h => heq (Option.some.inj h).symm
      rw [if_neg hne, hbeq, Bool.false_or]

theorem names_of_datum {flavor : LeafFlavor} {d : ConsDatum} {typeNames : Bitmap}
    (h : cilConstrainExprDatumToSepolExpr pdb policyvers flavor (Bitmap.empty, Bitmap.empty) d = some (names,
      typeNames)) {v : Nat} (hv : 0 < v) : names.has (v - 1) = d.members.any fun m => sepolValue pdb flavor m == some v := by
  unfold cilConstrainExprDatumToSepolExpr at h
  split at h
  · cases h
  · obtain ⟨_, -, h⟩ := Option.bind_eq_some_iff.mp h
    obtain ⟨names', hnames, heq⟩ := Option.map_eq_some_iff.mp h
    cases heq
    rw [has_members hnames hv, Bitmap.has_empty, Bool.false_or]

theorem valueOp_code (op : LeafOp) (a b : Nat) : valueOp op.code a b = op.equal (a == b) := by
  cases op <;> rfl

theorem roleOp_code (op : LeafOp) (a b : Nat) :
    roleOp pdb op.code a b = some (op.ordered (a == b) (roleDominates pdb a b) (roleDominates pdb b a)) := by
  cases op <;> rfl

theorem levelOp_code (op : LeafOp) (l1 l2 : MlsLevel) : levelOp op.code l1 l2 = some (op.levels l1 l2) := by
  have heq : mlsLevelEq l1 l2 = decide (l1 = l2) := by
    rw [Bool.eq_iff_iff, mlsLevelEq_iff, decide_eq_true_iff]
  cases op with
  | eq => exact congrArg some heq
  | neq => exact congrArg (fun b => some !b) heq
  | dom => rfl
  | domby => rfl
  | incomp => exact congrArg some (Bool.and_comm _ _)

variable {flavor : ConsFlavor}

theorem evalAttr_leaf {q : ConsRequest flavor} {o : ConsOperand} {attr : BitVec 32}
    (hattr : leafAttr l (.operand o : ConsRight Name LostList) = some attr)
    (hv : leafValue pdb resolve q op l (.operand o) = some v) : evalAttr pdb q.s q.t attr op.code = some v := by
  -- the operands of the reference's comparisons; the others have no value
  match l, o, hattr, hv with
  | .u1, .u2, rfl, hv => exact (valueOp_code op _ _).trans hv
  | .t1, .t2, rfl, hv => exact (valueOp_code op _ _).trans hv
  | .r1, .r2, rfl, hv => exact (roleOp_code op _ _).trans hv
  | .l1, .l2, rfl, hv => exact (levelOp_code op _ _).trans hv
  | .l1, .h2, rfl, hv => exact (levelOp_code op _ _).trans hv
  | .h1, .l2, rfl, hv => exact (levelOp_code op _ _).trans hv
  | .h1, .h2, rfl, hv => exact (levelOp_code op _ _).trans hv
  | .l1, .h1, rfl, hv => exact (levelOp_code op _ _).trans hv
  | .l2, .h2, rfl, hv => exact (levelOp_code op _ _).trans hv

theorem evalNames_leaf {q : ConsRequest flavor} {attr : BitVec 32}
    (hattr : leafAttr l (.name n : ConsRight Name LostList) = some attr) (hlevel : l.flavor ≠ .level) :
    evalNames q.s q.t q.x attr op.code names = (q.ident l).bind fun value => op.equal (names.has (value - 1)) := by
  cases l with
  | u1 | u2 | r1 | r2 | t1 | t2 =>
    cases hattr
    cases op <;> rfl
  | u3 | r3 | t3 =>
    cases hattr
    unfold ConsRequest.ident
    cases q.x with
    | none => rfl
    | some c => cases op <;> rfl
  | l1 | l2 | h1 | h2 => exact absurd rfl hlevel

theorem ConsRequest.ident_pos (q : ConsRequest flavor) {value : Nat} (h : q.ident l = some value) : 0 < value := by
  have hs := q.valued q.s (by simp)
  have ht := q.valued q.t (by simp)
  have hx : ∀ c, q.x = some c → 0 < c.user ∧ 0 < c.role ∧ 0 < c.type := fun c hc => q.valued c (by simp [hc])
  cases l with
  | u1 | r1 | t1 => cases h; simp [hs]
  | u2 | r2 | t2 => cases h; simp [ht]
  | u3 | r3 | t3 =>
    obtain ⟨c, hc, rfl⟩ := Option.map_eq_some_iff.mp h
    simp [hx c hc]
  | l1 | l2 | h1 | h2 => cases h

/-- The form of an expression that has a value is the program of a tree with that value. -/
theorem Form.tree (h : Form pdb policyvers resolve e expr) (q : ConsRequest flavor) (hv : e.value pdb resolve q = some v) :
    ∃ t : Rpn.Tree Bool, (expr.map (·.elem)).mapM (constraintOp pdb q.s q.t q.x) = some t.program ∧ t.eval = v ∧
      t.need = e.need := by
  induction h generalizing v with
  | operand hattr =>
    refine ⟨.leaf v, ?_, rfl, rfl⟩
    simp [constraintOp, evalAttr_leaf hattr hv, Rpn.Tree.program]
  | @name op l n attr d names typeNames hattr hd hsets =>
    refine ⟨.leaf v, ?_, rfl, rfl⟩
    have hlevel : l.flavor ≠ .level := by
      intro hl
      rw [cilConstrainExprDatumToSepolExpr, if_pos hl] at hsets
      cases hsets
    have heval : evalNames q.s q.t q.x attr op.code names = some v := by
      rw [evalNames_leaf hattr hlevel, ← hv]
      have hleaf : ConsExpr.value pdb resolve q (.leaf op l (.name n)) =
          (q.ident l).bind fun value => op.equal (standsFor pdb resolve l.flavor n value) := by
        cases l <;> rfl
      rw [hleaf]
      cases hident : q.ident l with
      | none => rfl
      | some value =>
        rw [Option.bind_some, Option.bind_some, names_of_datum hsets (q.ident_pos hident), standsFor, hd]
        rfl
    simp [constraintOp, heval, Rpn.Tree.program]
  | not _ ih =>
    obtain ⟨w, hw, rfl⟩ := Option.map_eq_some_iff.mp hv
    obtain ⟨t, hprogram, rfl, hneed⟩ := ih hw
    refine ⟨.un (! ·) t, ?_, rfl, hneed⟩
    rw [map_append, mapM_append, hprogram]
    rfl
  | @join op _ _ _ _ _ _ ihl ihr =>
    obtain ⟨a, ha, hv⟩ := Option.bind_eq_some_iff.mp hv
    obtain ⟨b, hb, rfl⟩ := Option.map_eq_some_iff.mp hv
    obtain ⟨t1, hprogram1, rfl, hneed1⟩ := ihl ha
    obtain ⟨t2, hprogram2, rfl, hneed2⟩ := ihr hb
    refine ⟨.bin op.apply t1 t2, ?_, rfl, by rw [Rpn.Tree.need, hneed1, hneed2, ConsExpr.need]⟩
    rw [map_append, map_append, mapM_append, mapM_append, hprogram1, hprogram2]
    cases op <;> rfl

theorem Form.evaluate (h : Form pdb policyvers resolve e expr) (q : ConsRequest flavor) (hv : e.value pdb resolve q = some v)
    (hneed : e.need ≤ cexprMaxdepth) : constraintExprEval pdb q.s q.t q.x (expr.map (·.elem)) = v := by
  obtain ⟨t, hprogram, rfl, htree⟩ := h.tree q hv
  rw [constraintExprEval, hprogram]
  simp only [Rpn.Tree.run_program_nil, htree, hneed, if_true, Option.getD_some]

theorem LeafOp.equal_some_iff (op : LeafOp) (b : Bool) : (∃ v, op.equal b = some v) ↔ op = .eq ∨ op = .neq := by
  cases op <;> simp [LeafOp.equal]

/-- The parts of contexts that an accepted comparison with a name is about are there. -/
theorem ident_isSome_iff (q : ConsRequest flavor) (hv : Verified flavor op l (.name n)) :
    (∃ value, q.ident l = some value) ↔ l.flavor ≠ .level := by
  have hthird : l.third = true → ∃ c, q.x = some c := by
    intro hl
    rw [Verified, cilVerifyConstraintLeafExprSyntax, hl, Bool.and_eq_true] at hv
    have hflavor : flavor = .mlsvalidatetrans := by simpa using hv.2
    refine Option.isSome_iff_exists.mp ?_
    rw [q.third, hflavor]
    rfl
  cases l with
  | u1 | u2 | r1 | r2 | t1 | t2 => exact iff_of_true ⟨_, rfl⟩ nofun
  | u3 | r3 | t3 =>
    obtain ⟨c, hc⟩ := hthird rfl
    refine iff_of_true ?_ nofun
    simp [ConsRequest.ident, hc]
  | l1 | l2 | h1 | h2 => exact iff_of_false nofun fun h => h rfl

/-- A comparison has a value exactly if it is one of the reference's. -/
theorem leafValue_some_iff (q : ConsRequest flavor) {r : ConsRight Name LostList} (hv : Verified flavor op l r) :
    (∃ v, leafValue pdb resolve q op l r = some v) ↔ documented op l r := by
  match l, r with
  | l, .list items => cases l <;> exact iff_of_false nofun id
  | l, .name n =>
    have hleaf : leafValue pdb resolve q op l (.name n) =
        (q.ident l).bind fun value => op.equal (standsFor pdb resolve l.flavor n value) := by
      cases l <;> rfl
    have hdoc : documented op l (.name n) ↔ l.flavor ≠ .level ∧ (op = .eq ∨ op = .neq) := by
      cases l <;> exact Iff.rfl
    rw [hleaf, hdoc, ← ident_isSome_iff q hv]
    constructor
    · rintro ⟨v, hv⟩
      obtain ⟨value, hvalue, hequal⟩ := Option.bind_eq_some_iff.mp hv
      exact ⟨⟨value, hvalue⟩, (op.equal_some_iff _).mp ⟨v, hequal⟩⟩
    · rintro ⟨⟨value, hvalue⟩, hop⟩
      rw [hvalue]
      exact (op.equal_some_iff _).mpr hop
  | l, .operand o =>
    -- each pair of operands is one of the reference's, or has no value
    cases l <;> cases o <;>
      first
      | exact op.equal_some_iff _
      | exact iff_of_true ⟨_, rfl⟩ trivial
      | exact iff_of_false nofun id

theorem value_some_iff (q : ConsRequest flavor) (hv : e.All (Verified flavor)) :
    (∃ v, e.value pdb resolve q = some v) ↔ e.All documented := by
  induction e with
  | leaf op l r => exact leafValue_some_iff q hv
  | not e ih =>
    simp only [ConsExpr.All, ← ih hv, ConsExpr.value, ← Option.isSome_iff_exists, Option.isSome_map]
  | join op l r ihl ihr =>
    simp only [ConsExpr.All, ← ihl hv.1, ← ihr hv.2, ConsExpr.value, ← Option.isSome_iff_exists]
    cases l.value pdb resolve q <;> simp

end

/-! ## Faithful expressions -/

/-- The constraint as the policy file has it. -/
def consNode (permissions : U32) (expr : List SepolExpr) : File.ConstraintNode :=
  { permissions, expr := expr.map SepolExpr.file }

/-- The form fits a stack of `CEXPR_MAXDEPTH`, its policy file is read back, and for all contexts
    its evaluation gives the value of the tree. -/
structure Faithful (pdb : Policydb) (h : Header) (resolve : LeafFlavor → Name → Option ConsDatum) (flavor : ConsFlavor)
    (e : ConsExpr Name LostList) (expr : List SepolExpr) : Prop where
  cells : Rpn.depth cexprMaxdepth (expr.map (·.elem.shape)) 0 = some 1
  reads : ∀ permissions rest, ∃ bytes, writeConsHelper h flavor.transition [consNode permissions expr] = some bytes ∧
    readConsHelper h flavor.transition 1 (bytes ++ rest) = some ([consNode permissions expr], rest)
  evaluates : ∀ q : ConsRequest flavor,
    some (constraintExprEval pdb q.s q.t q.x (expr.map (·.elem))) = e.value pdb resolve q

theorem writeConsHelper_single {flavor : ConsFlavor} (hfits : ∀ el ∈ expr, el.Fits h flavor) (permissions : U32) :
    writeConsHelper h flavor.transition [consNode permissions expr] = some ((consNode permissions expr).bytes h ++ []) := by
  unfold writeConsHelper
  rw [if_neg, flatMap_cons, flatMap_nil]
  intro hc
  rw [Bool.and_eq_true, Bool.not_eq_true', any_cons, any_nil, Bool.or_false, any_eq_true] at hc
  obtain ⟨hflavor, el, hel, hx⟩ := hc
  obtain ⟨e, he, rfl⟩ := mem_map.mp hel
  rw [(hfits e he).xtarget hflavor] at hx
  cases hx

/-- What is read back of a constraint whose elements its file keeps. -/
theorem readConsHelper_single_iff {flavor : ConsFlavor} (hfits : ∀ el ∈ expr, el.Fits h flavor) (permissions : U32)
    (rest : Wire.Bytes) : readConsHelper h flavor.transition 1 ((consNode permissions expr).bytes h ++ [] ++ rest) =
        some ([consNode permissions expr], rest) ↔
      Rpn.depth cexprMaxdepth (expr.map (·.elem.shape)) 0 = some 1 ∧ expr.length < 2 ^ 32 := by
  have hkept : (expr.map SepolExpr.file).map (File.ConstraintExpr.kept h) = expr.map SepolExpr.file := by
    rw [map_map]
    exact map_congr_left fun e he => (hfits e he).kept
  have hx : flavor.transition = false → ∀ el ∈ (consNode permissions expr).expr, el.xtarget = false := by
    intro hflavor el hel
    obtain ⟨e, he, rfl⟩ := mem_map.mp hel
    exact (hfits e he).xtarget hflavor
  have hone : readConsHelper h flavor.transition 1 ((consNode permissions expr).bytes h ++ [] ++ rest) =
      (readConstraint h flavor.transition ((consNode permissions expr).bytes h ++ rest)).map fun r => ([r.1], r.2) := by
    rw [append_nil]
    unfold readConsHelper Wire.times
    rw [Wire.bind_apply]
    cases readConstraint h flavor.transition ((consNode permissions expr).bytes h ++ rest) <;> rfl
  have hread := readConstraint_iff h hx rest (consNode permissions expr)
  rw [← exprDepth_file, hone]
  constructor
  · intro heq
    obtain ⟨⟨c, t⟩, hc, hpair⟩ := Option.map_eq_some_iff.mp heq
    cases hpair
    obtain ⟨hdepth, hlen, -⟩ := hread.mp hc
    exact ⟨hdepth, by rwa [consNode, length_map] at hlen⟩
  · rintro ⟨hdepth, hlen⟩
    rw [hread.mpr ⟨hdepth, by rwa [consNode, length_map], by simp [consNode, hkept]⟩]
    rfl

def someRequest (flavor : ConsFlavor) : ConsRequest flavor where
  s := ⟨1, 1, 1, {}⟩
  t := ⟨1, 1, 1, {}⟩
  x := if flavor.transition then some ⟨1, 1, 1, {}⟩ else none
  third := by cases flavor <;> rfl
  valued := by cases flavor <;> simp [ConsFlavor.transition]

theorem constraint_expr_faithful_iff (pdb : Policydb) (h : Header) (resolve : LeafFlavor → Name → Option ConsDatum)
    (flavor : ConsFlavor) (x : Sexp) (e : ConsExpr Name LostList) (expr : List SepolExpr)
    (hgen : cilGenConstraintExpr flavor x = some e) (hexpr : sepolExprOf pdb h.policyvers resolve e = some expr) :
    Faithful pdb h resolve flavor e expr ↔ e.All documented ∧ e.need ≤ cexprMaxdepth ∧ e.size < 2 ^ 32 := by
  have hform := form_of_sepolExprOf hexpr
  have hverified := verified_of_gen hgen
  have hfits := hform.fits hverified
  constructor
  · intro hf
    have hneed : e.need ≤ cexprMaxdepth := by
      have hcells := hf.cells
      rw [hform.depth] at hcells
      split_ifs at hcells
      assumption
    refine ⟨(value_some_iff (someRequest flavor) hverified).mp ⟨_, (hf.evaluates (someRequest flavor)).symm⟩, hneed, ?_⟩
    obtain ⟨bytes, hwrite, hread⟩ := hf.reads 0#32 []
    rw [writeConsHelper_single hfits] at hwrite
    cases hwrite
    rw [← hform.length]
    exact ((readConsHelper_single_iff hfits _ _).mp hread).2
  · rintro ⟨hdoc, hneed, hsize⟩
    have hcells : Rpn.depth cexprMaxdepth (expr.map (·.elem.shape)) 0 = some 1 := by rw [hform.depth, if_pos hneed]
    refine ⟨hcells, ?_, ?_⟩
    · intro permissions rest
      refine ⟨_, writeConsHelper_single hfits permissions, ?_⟩
      exact (readConsHelper_single_iff hfits permissions rest).mpr ⟨hcells, by rwa [hform.length]⟩
    · intro q
      obtain ⟨v, hv⟩ := (value_some_iff q hverified).mpr hdoc
      rw [hv, hform.evaluate q hv hneed]

/-- A policy with one type `a`. -/
def oneType : Policydb where
  pTypes :=
    { table := [("a".toList, { value := 1 })]
      valToName := [some "a".toList]
      indexed := Symtab.indexed_of_indexes (by decide) }

def resolveA (_ : LeafFlavor) (name : Name) : Option ConsDatum :=
  if name = "a".toList then some { fqn := name, members := [name] } else none

def kernelHeader : Header := { policyType := .kern, policyvers := 30 }

/-- `(or (not (eq u1 u2)) (eq t1 a))` -/
theorem constraint_expr_faithful_or :
    let e : ConsExpr Name LostList := .join .or (.not (.leaf .eq .u1 (.operand .u2))) (.leaf .eq .t1 (.name "a".toList))
    let a : SepolExpr := { elem := .names cexprType cexprEq (Bitmap.word 1#64), typeNames := Bitmap.word 1#64 }
    let expr : List SepolExpr := [⟨.attr cexprUser cexprEq, Bitmap.empty⟩, ⟨.not, Bitmap.empty⟩, a, ⟨.or, Bitmap.empty⟩]
    cilGenConstraintExpr .constrain e.text = some e ∧ sepolExprOf oneType kernelHeader.policyvers resolveA e = some expr ∧
      Faithful oneType kernelHeader resolveA .constrain e expr := by
  intro e a expr
  have hgen : cilGenConstraintExpr .constrain e.text = some e := rfl
  have hexpr : sepolExprOf oneType kernelHeader.policyvers resolveA e = some expr := rfl
  refine ⟨hgen, hexpr,
    (constraint_expr_faithful_iff oneType kernelHeader resolveA .constrain e.text e expr hgen hexpr).mpr ?_⟩
  exact ⟨⟨Or.inl rfl, nofun, Or.inl rfl⟩, by decide, by decide⟩

/-- `(and (eq u1 u2) (and (eq u1 u2) ...))` with this many operators. -/
def nestedCons : Nat → ConsExpr Name LostList
  | 0 => .leaf .eq .u1 (.operand .u2)
  | n + 1 => .join .and (.leaf .eq .u1 (.operand .u2)) (nestedCons n)

theorem text_of_gen_nested :
    ∃ x e, cilGenConstraintExpr .constrain x = some e ∧ e.NoList ∧ e.text = x := by
  have h : cilGenConstraintExpr .constrain (nestedCons 1).text = some (nestedCons 1) := rfl
  have hlist : (nestedCons 1).NoList := by simp [nestedCons, ConsExpr.NoList, ConsExpr.All]
  exact ⟨_, _, h, hlist, text_of_gen h hlist⟩

theorem nested_and_refused :
    let e := nestedCons 5
    let el : SepolExpr := { elem := .attr cexprUser cexprEq }
    let expr := List.replicate 6 el ++ List.replicate 5 { elem := .and }
    cilGenConstraintExpr .constrain e.text = some e ∧ sepolExprOf {} kernelHeader.policyvers resolveA e = some expr ∧
      Rpn.depth cexprMaxdepth (expr.map (·.elem.shape)) 0 = none ∧
      ((writeConsHelper kernelHeader false [consNode 1#32 expr]).map fun bytes =>
        (readConsHelper kernelHeader false 1 bytes).isNone) = some true ∧
      ¬ Faithful {} kernelHeader resolveA .constrain e expr := by
  refine ⟨rfl, rfl, by decide, by decide +kernel, ?_⟩
  intro hf
  exact absurd hf.cells (by decide)

end SELinux.Cil
