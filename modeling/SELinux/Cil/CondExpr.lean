/-
  SELinux.Cil.CondExpr — boolean expressions of CIL in the policydb
  (`libsepol/cil/src/cil_binary.c`: `__cil_cond_item_to_sepol_expr`,
  `__cil_cond_expr_to_sepol_expr_helper`, `__cil_cond_expr_to_sepol_expr`).

  An expression is written operands first for the evaluation of `conditional.c`, which has a
  stack of ten values. `boolNeed` is the depth of stack an expression takes. The compiler means
  to check it when it reads the expression, but an operator never adds to its count
  (`SELinux.Cil.Expr`), so expressions of any depth get through:

  - `cond_expr_value_iff`: the evaluation gives the value of the expression exactly when its
    need is at most ten.
  - `nested_and_undefined`: eleven booleans joined from the right are accepted, and undefined.
-/
import SELinux.Cil.Expr

namespace SELinux.Cil

open Db Lib List Option

variable {state : Nat → Bool} {expr : CondExpr} {value : Bool} {need : Nat}

/-! ## The meaning of an expression -/

mutual

/-- The truth value; a list without an operator is a disjunction. -/
def boolValue (v : Name → Bool) : Sexp → Bool
  | .atom name => v name
  | .list [] => false
  | .list (x :: xs) =>
    match cilGetExprOperatorFlavor x, xs with
    | none, xs => boolValue v x || anyValue v xs
    | some .not, [a] => !boolValue v a
    | some op, [a, b] => op.apply (boolValue v a) (boolValue v b)
    | some _, _ => false

def anyValue (v : Name → Bool) : List Sexp → Bool
  | [] => false
  | x :: xs => boolValue v x || anyValue v xs

end

mutual

/-- The number of values on the stack while the expression is evaluated. -/
def boolNeed : Sexp → Nat
  | .atom _ => 1
  | .list [] => 1
  | .list (x :: xs) =>
    match cilGetExprOperatorFlavor x, xs with
    | none, xs => max (boolNeed x) (anyNeed xs)
    | some .not, [a] => boolNeed a
    | some _, [a, b] => max (boolNeed a) (boolNeed b + 1)
    | some _, _ => 1

/-- The need of more disjuncts, above the value of those before them. -/
def anyNeed : List Sexp → Nat
  | [] => 0
  | x :: xs => max (boolNeed x + 1) (anyNeed xs)

end

section

variable {v : Name → Bool} {x a b : Sexp} {xs : List Sexp} {op : ExprOp}

theorem boolValue_plain (h : cilGetExprOperatorFlavor x = none) :
    boolValue v (.list (x :: xs)) = (boolValue v x || anyValue v xs) := by
  rw [boolValue.eq_def]
  simp only [h]

theorem boolValue_not (h : cilGetExprOperatorFlavor x = some .not) : boolValue v (.list [x, a]) = !boolValue v a := by
  rw [boolValue.eq_def]
  simp only [h]

theorem boolValue_bin (h : cilGetExprOperatorFlavor x = some op) (hop : op ≠ .not) :
    boolValue v (.list [x, a, b]) = op.apply (boolValue v a) (boolValue v b) := by
  rw [boolValue.eq_def]
  cases op with
  | not => exact absurd rfl hop
  | _ => simp only [h]

theorem boolNeed_plain (h : cilGetExprOperatorFlavor x = none) :
    boolNeed (.list (x :: xs)) = max (boolNeed x) (anyNeed xs) := by
  rw [boolNeed.eq_def]
  simp only [h]

theorem boolNeed_not (h : cilGetExprOperatorFlavor x = some .not) : boolNeed (.list [x, a]) = boolNeed a := by
  rw [boolNeed.eq_def]
  simp only [h]

theorem boolNeed_bin (h : cilGetExprOperatorFlavor x = some op) (hop : op ≠ .not) :
    boolNeed (.list [x, a, b]) = max (boolNeed a) (boolNeed b + 1) := by
  rw [boolNeed.eq_def]
  cases op with
  | not => exact absurd rfl hop
  | _ => simp only [h]

end

/-! ## The policydb's form -/

/-- What a boolean's name is resolved to. -/
structure CilBool where
  fqn : Name

def ExprOp.condOp : ExprOp → Option CondExprNode
  | .not => some .not
  | .or => some .or
  | .and => some .and
  | .xor => some .xor
  | .eq => some .eq
  | .neq => some .neq
  | .all => none
  | .range => none

mutual

def cilCondItemToSepolExpr (pdb : Policydb) : ExprItem CilBool → Option CondExpr
  | .op _ => none
  | .leaf d => (pdb.pBools.search d.fqn).map fun sepolBool => [.bool sepolBool.value]
  | .list [] => none
  | .list (.op .not :: x :: _) => (cilCondItemToSepolExpr pdb x).map (· ++ [.not])
  | .list (.op op :: x :: y :: _) => do
    let node ← op.condOp
    let h1 ← cilCondItemToSepolExpr pdb x
    let h2 ← cilCondItemToSepolExpr pdb y
    return h1 ++ h2 ++ [node]
  | .list (.op _ :: _) => none
  | .list (x :: xs) => (cilCondItemToSepolExpr pdb x).bind fun h1 => cilCondItemsToSepolExpr pdb h1 xs

/-- The loop over the rest of a plain list. -/
def cilCondItemsToSepolExpr (pdb : Policydb) (head : CondExpr) : List (ExprItem CilBool) → Option CondExpr
  | [] => some head
  | x :: xs =>
    (cilCondItemToSepolExpr pdb x).bind fun h2 => cilCondItemsToSepolExpr pdb (head ++ h2 ++ [.or]) xs

end

def cilCondExprToSepolExpr (pdb : Policydb) (cilExpr : List (ExprItem CilBool)) : Option CondExpr :=
  cilCondItemToSepolExpr pdb (.list cilExpr)

/-- A plain list. -/
theorem cilCondItem_plain (pdb : Policydb) {d : ExprItem CilBool} (hd : ∀ op, d ≠ .op op) (ds : List (ExprItem CilBool)) :
    cilCondItemToSepolExpr pdb (.list (d :: ds)) =
      (cilCondItemToSepolExpr pdb d).bind fun h1 => cilCondItemsToSepolExpr pdb h1 ds := by
  match d with
  | .op op => exact absurd rfl (hd op)
  | .leaf _ => rfl
  | .list _ => rfl

/-- An operator with two operands. -/
theorem cilCondItem_bin (pdb : Policydb) {op : ExprOp} (hop : op ≠ .not) (x y : ExprItem CilBool) :
    cilCondItemToSepolExpr pdb (.list [.op op, x, y]) =
      op.condOp.bind fun node => (cilCondItemToSepolExpr pdb x).bind fun h1 =>
        (cilCondItemToSepolExpr pdb y).bind fun h2 => some (h1 ++ h2 ++ [node]) := by
  cases op with
  | not => exact absurd rfl hop
  | _ => rfl

/-! ## The form is right -/

/-- In this form an expression is a tree with this value, written operands first, that takes
    a stack of this depth. -/
def Writes (state : Nat → Bool) (expr : CondExpr) (value : Bool) (need : Nat) : Prop :=
  ∃ t : Rpn.Tree Bool, expr.map (CondExprNode.op state) = t.program ∧ t.eval = value ∧ t.need = need

theorem Writes.evaluate (h : Writes state expr value need) :
    condEvaluateExpr state expr = if need ≤ condExprMaxdepth then some value else none := by
  obtain ⟨t, hprogram, rfl, rfl⟩ := h
  rw [condEvaluateExpr, hprogram, Rpn.Tree.run_program_nil]

theorem Writes.bool (state : Nat → Bool) (b : Nat) : Writes state [.bool b] (state b) 1 :=
  ⟨.leaf (state b), rfl, rfl, rfl⟩

theorem Writes.not (h : Writes state expr value need) : Writes state (expr ++ [.not]) (!value) need := by
  obtain ⟨t, hprogram, rfl, rfl⟩ := h
  refine ⟨.un (! ·) t, ?_, rfl, rfl⟩
  rw [map_append, hprogram]
  rfl

theorem Writes.bin {e1 e2 : CondExpr} {v1 v2 : Bool} {n1 n2 : Nat} (h1 : Writes state e1 v1 n1)
    (h2 : Writes state e2 v2 n2) {op : ExprOp} {node : CondExprNode} (hop : op ≠ .not) (hnode : op.condOp = some node) :
    Writes state (e1 ++ e2 ++ [node]) (op.apply v1 v2) (max n1 (n2 + 1)) := by
  obtain ⟨t1, hprogram1, rfl, rfl⟩ := h1
  obtain ⟨t2, hprogram2, rfl, rfl⟩ := h2
  have hbin : node.op state = .bin op.apply := by
    cases op <;> cases hnode <;> first | rfl | exact absurd rfl hop
  refine ⟨.bin op.apply t1 t2, ?_, rfl, rfl⟩
  rw [map_append, map_append, hprogram1, hprogram2, map_singleton, hbin]
  rfl

/-- The state of the boolean a name stands for. -/
def nameState (pdb : Policydb) (resolve : Name → Option CilBool) (state : Nat → Bool) (name : Name) : Bool :=
  match (resolve name).bind fun d => pdb.pBools.search d.fqn with
  | some sepolBool => state sepolBool.value
  | none => false

section

variable {pdb : Policydb} {resolve : Name → Option CilBool} {state : Nat → Bool}

/-- A node of the policy's text whose form is right wherever it is accepted. -/
def FormRight (pdb : Policydb) (resolve : Name → Option CilBool) (state : Nat → Bool) (x : Sexp) : Prop :=
  ∀ depth depth' item d expr, cilFillExpr .bool x depth = some (item, depth') → cilResolveItem resolve item = some d →
    cilCondItemToSepolExpr pdb d = some expr → Writes state expr (boolValue (nameState pdb resolve state) x) (boolNeed x)

theorem items_writes {xs : List Sexp} (hxs : ∀ x ∈ xs, FormRight pdb resolve state x) {depth depth' : Int}
    {items : List (ExprItem (Option Name))} {ds : List (ExprItem CilBool)} {head expr : CondExpr}
    (hfill : cilFillItems .bool xs depth = some (items, depth')) (hres : cilResolveExpr resolve items = some ds)
    (hhead : Writes state head value need) (hconv : cilCondItemsToSepolExpr pdb head ds = some expr) :
    Writes state expr (value || anyValue (nameState pdb resolve state) xs) (max need (anyNeed xs)) := by
  induction xs generalizing depth items ds head value need with
  | nil =>
    cases hfill
    cases hres
    cases hconv
    rw [anyValue, anyNeed, Bool.or_false, Nat.max_zero]
    exact hhead
  | cons x xs ih =>
    obtain ⟨item, rest, d, hx, hrest, rfl⟩ := cilFillItems_cons_inv hfill
    obtain ⟨r, rs, hr, hrs, rfl⟩ := cilResolveExpr_cons_inv hres
    obtain ⟨h2, hh2, hconv⟩ := bind_eq_some_iff.mp hconv
    have hw := hxs x mem_cons_self _ _ _ _ _ hx hr hh2
    have hnext := hhead.bin hw (show ExprOp.or ≠ .not by decide) rfl
    have hall := ih (fun y hy => hxs y (mem_cons_of_mem _ hy)) hrest hrs hnext hconv
    rw [anyValue, anyNeed, ← Bool.or_assoc, ← Nat.max_assoc]
    exact hall

theorem list_writes {xs : List Sexp} (hxs : ∀ x ∈ xs, FormRight pdb resolve state x) :
    FormRight pdb resolve state (.list xs) := by
  intro depth depth' item d expr hfill hres hconv
  match xs with
  | [] =>
    cases hfill
    cases hres
  | x :: xs =>
    rcases cilFillExpr_list_inv hfill with ⟨hop, items, _, _, hitems, rfl⟩ | ⟨op, hop, hverify, items, _, _, hitems, rfl⟩
    · rw [cilResolveItem] at hres
      obtain ⟨ds, hds, rfl⟩ := map_eq_some_iff.mp hres
      obtain ⟨item, rest, _, hx, hrest, rfl⟩ := cilFillItems_cons_inv hitems
      obtain ⟨r, rs, hr, hrs, rfl⟩ := cilResolveExpr_cons_inv hds
      rw [cilCondItem_plain pdb (resolved_ne_op (cilFillExpr_ne_op hx) hr)] at hconv
      obtain ⟨h1, hh1, hconv⟩ := bind_eq_some_iff.mp hconv
      have hw := hxs x mem_cons_self _ _ _ _ _ hx hr hh1
      have hall := items_writes (fun y hy => hxs y (mem_cons_of_mem _ hy)) hrest hrs hw hconv
      rw [boolValue_plain hop, boolNeed_plain hop]
      exact hall
    · rw [cilResolveItem] at hres
      obtain ⟨ds, hds, rfl⟩ := map_eq_some_iff.mp hres
      obtain ⟨r, rs, hr, hrs, rfl⟩ := cilResolveExpr_cons_inv hds
      cases hr
      rcases operands_of_verify hverify with ⟨rfl, a, rfl⟩ | ⟨hne, a, b, rfl⟩
      · obtain ⟨ia, rest, _, ha, hnil, rfl⟩ := cilFillItems_cons_inv hitems
        obtain ⟨ra, rs', hra, -, rfl⟩ := cilResolveExpr_cons_inv hrs
        obtain ⟨e, he, rfl⟩ := map_eq_some_iff.mp hconv
        have hw := hxs a (by simp) _ _ _ _ _ ha hra he
        rw [boolValue_not hop, boolNeed_not hop]
        exact hw.not
      · obtain ⟨ia, rest, _, ha, hrest, rfl⟩ := cilFillItems_cons_inv hitems
        obtain ⟨ib, rest', _, hb, hnil, rfl⟩ := cilFillItems_cons_inv hrest
        obtain ⟨ra, rs', hra, hrs', rfl⟩ := cilResolveExpr_cons_inv hrs
        obtain ⟨rb, rs'', hrb, hrs'', rfl⟩ := cilResolveExpr_cons_inv hrs'
        cases hnil
        cases hrs''
        rw [cilCondItem_bin pdb hne] at hconv
        obtain ⟨node, hnode, hconv⟩ := bind_eq_some_iff.mp hconv
        obtain ⟨e1, he1, hconv⟩ := bind_eq_some_iff.mp hconv
        obtain ⟨e2, he2, hconv⟩ := bind_eq_some_iff.mp hconv
        cases hconv
        rw [boolValue_bin hop hne, boolNeed_bin hop hne]
        exact (hxs a (by simp) _ _ _ _ _ ha hra he1).bin (hxs b (by simp) _ _ _ _ _ hb hrb he2) hne hnode

theorem formRight (x : Sexp) : FormRight pdb resolve state x := by
  refine Sexp.induct ?_ ?_ x
  · intro name depth depth' item d expr hfill hres hconv
    obtain ⟨b, hb, rfl⟩ := filled_atom hfill hres
    obtain ⟨sepolBool, hsearch, rfl⟩ := map_eq_some_iff.mp hconv
    rw [boolValue, nameState, hb, bind_some, hsearch]
    exact Writes.bool state sepolBool.value
  · intro items hitems
    exact list_writes hitems

end

/-- The expression of a conditional, from the text of the policy to the policydb. -/
def condExprOf (pdb : Policydb) (resolve : Name → Option CilBool) (x : Sexp) : Option CondExpr :=
  (cilGenExpr .bool x).bind fun strExpr => (cilResolveExpr resolve strExpr).bind (cilCondExprToSepolExpr pdb)

theorem condExprOf_writes {pdb : Policydb} {resolve : Name → Option CilBool} {x : Sexp}
    (h : condExprOf pdb resolve x = some expr) (state : Nat → Bool) :
    Writes state expr (boolValue (nameState pdb resolve state) x) (boolNeed x) := by
  obtain ⟨strExpr, hgen, h⟩ := bind_eq_some_iff.mp h
  obtain ⟨datumExpr, hres, hconv⟩ := bind_eq_some_iff.mp h
  refine generated (Q := fun d => ∀ expr, cilCondItemToSepolExpr pdb d = some expr → Writes state expr _ (boolNeed x)) ?_
    (fun _ _ _ _ hfill hres _ hconv => formRight x _ _ _ _ _ hfill hres hconv)
      (bind_eq_some_iff.mpr ⟨strExpr, hgen, hres⟩) expr hconv
  -- one string: the list around it changes nothing
  intro d hd expr hconv
  by_cases hop : ∃ op, d = .op op
  · obtain ⟨op, rfl⟩ := hop
    cases op <;> cases hconv
  · rw [cilCondItem_plain pdb (not_exists.mp hop)] at hconv
    obtain ⟨h1, hh1, hconv⟩ := bind_eq_some_iff.mp hconv
    cases hconv
    exact hd _ hh1

theorem cond_expr_value_iff (pdb : Policydb) (resolve : Name → Option CilBool) (x : Sexp) (expr : CondExpr)
    (h : condExprOf pdb resolve x = some expr) :
    (∀ state, condEvaluateExpr state expr = some (boolValue (nameState pdb resolve state) x)) ↔
      boolNeed x ≤ condExprMaxdepth := by
  constructor
  · intro hall
    have hdef := hall fun _ => false
    rw [(condExprOf_writes h _).evaluate] at hdef
    split at hdef
    · assumption
    · cases hdef
  · intro hneed state
    rw [(condExprOf_writes h state).evaluate, if_pos hneed]

/-- A policy with one boolean `b`. -/
def oneBool : Policydb where
  pBools :=
    { table := [("b".toList, { value := 1 })]
      valToName := [some "b".toList]
      indexed := Symtab.indexed_of_indexes (by decide) }

def resolveB (name : Name) : Option CilBool := if name = "b".toList then some ⟨name⟩ else none

/-- `(or (not b) (b b))` -/
theorem cond_expr_value_iff_or :
    let x := Sexp.list [.atom "or".toList, .list [.atom "not".toList, .atom "b".toList],
      .list [.atom "b".toList, .atom "b".toList]]
    let expr := [.bool 1, .not, .bool 1, .bool 1, .or, .or]
    condExprOf oneBool resolveB x = some expr ∧ boolNeed x = 3 ∧
      ∀ state, condEvaluateExpr state expr = some (boolValue (nameState oneBool resolveB state) x) :=
  ⟨rfl, rfl, (cond_expr_value_iff oneBool resolveB _ _ rfl).mpr (by decide)⟩

/-- `(and b (and b ... b))` with this many operators. -/
def nestedAnd : Nat → Sexp
  | 0 => .atom "b".toList
  | n + 1 => .list [.atom "and".toList, .atom "b".toList, nestedAnd n]

theorem nested_and_undefined :
    let expr := List.replicate 11 (.bool 1) ++ List.replicate 10 .and
    (cilGenExpr .bool (nestedAnd 10)).isSome = true ∧ condExprOf oneBool resolveB (nestedAnd 10) = some expr ∧
      ∀ state, condEvaluateExpr state expr = none ∧
        condEvaluateExpr state expr ≠ some (boolValue (nameState oneBool resolveB state) (nestedAnd 10)) := by
  refine ⟨by decide +kernel, by decide +kernel, ?_⟩
  intro state
  have hnone : condEvaluateExpr state (List.replicate 11 (.bool 1) ++ List.replicate 10 .and) = none :=
    (condEvaluateExpr_eq_none_iff state _).mpr (Or.inl (by decide))
  rw [hnone]
  exact ⟨rfl, nofun⟩

end SELinux.Cil
