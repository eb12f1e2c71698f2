/-
  SELinux.Services.ConstraintStack — the stack of `constraint_expr_eval_reason`
  (`libsepol/src/services.c`).

  The evaluator has an array of `CEXPR_MAXDEPTH` values and a stack pointer that starts at -1. It
  does not look whether the operands of an operator are there: `read_cons_helper` has counted
  the depth when the constraint was read. Codes that it does not know end it with 0.

  The stack is as the code has it, with what lies around the array (`EvalStack`). It stands for
  a list of values (`Represents`), on which `Lib.Rpn` says what the elements do.

  Proved: `readConsHelper_eval`, for every constraint of a file and all contexts, each element
  finds its operands on the stack and stays in the array, and the value at the end is that of
  the tree the elements make up, or 0 if some of their codes are unknown.

  The text that explains the result is left out. A role without a structure dominates nothing
  here, and is no context's.
-/
import SELinux.File.Ranges
import SELinux.Services.ComputeAv

namespace SELinux.Services

open Lib List Option

/-! ## The stack -/

/-- What an element does, once its codes have been looked up: a leaf whose codes are unknown has no
    value. -/
inductive Action
  | not
  | and
  | or
  | push (v : Option Bool)
  | unknown

/-- `s` and `sp`. -/
structure EvalStack where
  sp : Int := -1
  s : Int → Bool

variable {st : EvalStack} {ops : List (Rpn.Op Bool)} {vs vs' : List Bool}

/-- `out` is `goto out`, with which 0 is returned. -/
inductive Outcome
  | go (st : EvalStack)
  | out

namespace EvalStack

def put (st : EvalStack) (sp : Int) (v : Bool) : EvalStack := { sp, s := Function.update st.s sp v }

def act (st : EvalStack) : Action → Outcome
  | .not => .go (st.put st.sp (!st.s st.sp))
  | .and => .go (st.put (st.sp - 1) (st.s (st.sp - 1) && st.s (st.sp - 1 + 1)))
  | .or => .go (st.put (st.sp - 1) (st.s (st.sp - 1) || st.s (st.sp - 1 + 1)))
  | .push v =>
    if st.sp = Db.cexprMaxdepth - 1 then .out
    else
      match v with
      | none => .out
      | some v => .go (st.put (st.sp + 1) v)
  | .unknown => .out

/-- The places of the array from which an element takes its operands. -/
def reads (st : EvalStack) : Action → List Int
  | .not => [st.sp]
  | .and => [st.sp - 1, st.sp]
  | .or => [st.sp - 1, st.sp]
  | .push _ => []
  | .unknown => []

/-- The place where it puts its result. -/
def writes (st : EvalStack) (a : Action) : List Int :=
  match st.act a with
  | .go st' => [st'.sp]
  | .out => []

end EvalStack

def InArray (i : Int) : Prop := 0 ≤ i ∧ i ≤ Db.cexprMaxdepth - 1

/-- The operands of an element are on the stack, and the result is in the array, at the new top. -/
structure Safe (st : EvalStack) (a : Action) : Prop where
  operands : ∀ i ∈ st.reads a, 0 ≤ i ∧ i ≤ st.sp
  array : ∀ i ∈ st.reads a ++ st.writes a, InArray i
  pointer : ∀ st', st.act a = .go st' → InArray st'.sp

def evalFrom (st : EvalStack) : List Action → Outcome
  | [] => .go st
  | a :: l =>
    match st.act a with
    | .go st' => evalFrom st' l
    | .out => .out

/-- What is returned for these elements: the bottom of the stack, or 0. `s` has any values at
    first. -/
def evalResult (s : Int → Bool) (l : List Action) : Bool :=
  match evalFrom { s } l with
  | .go st => st.s 0
  | .out => false

/-! ## What it stands for -/

def Action.shape : Action → Option Rpn.Shape
  | .not => some .un
  | .and => some .bin
  | .or => some .bin
  | .push _ => some .push
  | .unknown => none

def Action.op : Action → Option (Rpn.Op Bool)
  | .not => some (.un (! ·))
  | .and => some (.bin (· && ·))
  | .or => some (.bin (· || ·))
  | .push v => v.map .push
  | .unknown => none

/-- The values on the stack, top first. -/
structure Represents (st : EvalStack) (vs : List Bool) : Prop where
  pointer : st.sp = vs.length - 1
  fits : vs.length ≤ Db.cexprMaxdepth
  values : ∀ (i : Nat) (v : Bool), vs.reverse[i]? = some v → st.s i = v

theorem Represents.nil (s : Int → Bool) : Represents { s } [] := ⟨rfl, Nat.zero_le _, nofun⟩

theorem Represents.top {v : Bool} {vs : List Bool} (h : Represents st (v :: vs)) : st.s st.sp = v := by
  have hsp : st.sp = (vs.length : Int) := by
    rw [h.pointer, length_cons]
    omega
  rw [hsp]
  exact h.values vs.length v (by simp)

theorem Represents.below {v v' : Bool} {vs : List Bool} (h : Represents st (v :: v' :: vs)) : st.s (st.sp - 1) = v' := by
  have hsp : st.sp - 1 = (vs.length : Int) := by
    rw [h.pointer, length_cons, length_cons]
    omega
  rw [hsp]
  exact h.values vs.length v' (by simp)

/-- A value is put on those that are left. -/
theorem Represents.put (h : Represents st (vs' ++ vs)) (hfits : vs.length < Db.cexprMaxdepth)
    {sp : Int} (hsp : sp = vs.length) (v : Bool) : Represents (st.put sp v) (v :: vs) := by
  subst hsp
  refine ⟨?_, hfits, ?_⟩
  · show (vs.length : Int) = _
    rw [length_cons]
    omega
  · intro i w hi
    rw [reverse_cons] at hi
    show Function.update st.s (vs.length : Int) v i = w
    by_cases hlast : i = vs.length
    · subst hlast
      simpa using hi
    · have hlt : i < vs.length := by
        have hlen := (List.getElem?_eq_some_iff.mp hi).1
        simp only [length_append, length_reverse, length_singleton] at hlen
        omega
      rw [Function.update_of_ne (by omega)]
      refine h.values i w ?_
      rw [List.getElem?_append_left (by simpa using hlt)] at hi
      rw [reverse_append, List.getElem?_append_left (by simpa using hlt)]
      exact hi

/-- A binary operator takes the two values at the top. -/
theorem Represents.binary {y x : Bool} {r : List Bool} (h : Represents st (y :: x :: r)) (f : Bool → Bool → Bool) :
    Represents (st.put (st.sp - 1) (f (st.s (st.sp - 1)) (st.s (st.sp - 1 + 1)))) (f x y :: r) := by
  have hfits := h.fits
  have hsp := h.pointer
  simp only [length_cons] at hfits hsp
  rw [Int.sub_add_cancel, h.top, h.below]
  exact Represents.put (show Represents st ([y, x] ++ r) from h) (by omega) (by omega) _

variable {a : Action}

/-- One element does to the stack what its operation does to the values. -/
theorem Represents.act (h : Represents st vs) {op : Rpn.Op Bool} (ha : a.op = some op)
    (hstep : Rpn.step Db.cexprMaxdepth vs op = some vs') : ∃ st', st.act a = .go st' ∧ Represents st' vs' := by
  have hsp := h.pointer
  have hfits := h.fits
  cases a with
  | not =>
    cases ha
    cases vs with
    | nil => cases hstep
    | cons x r =>
      cases hstep
      rw [length_cons] at hsp hfits
      refine ⟨_, rfl, ?_⟩
      rw [h.top]
      exact Represents.put (show Represents st ([x] ++ r) from h) (by omega) (by omega) _
  | and | or =>
    cases ha
    match vs with
    | [] => cases hstep
    | [_] => cases hstep
    | y :: x :: r =>
      cases hstep
      exact ⟨_, rfl, h.binary _⟩
  | push v =>
    obtain ⟨v, rfl, rfl⟩ := map_eq_some_iff.mp ha
    rw [Rpn.step] at hstep
    split at hstep
    · cases hstep
    next hroom =>
      cases hstep
      refine ⟨st.put (st.sp + 1) v, ?_, Represents.put (show Represents st ([] ++ vs) from h) (by omega) (by omega) v⟩
      show (if _ then _ else _) = _
      rw [if_neg (by omega)]
  | unknown => cases ha

variable {st' : EvalStack}

theorem act_push_go {st : EvalStack} {v : Option Bool} (h : st.act (.push v) = .go st') :
    st.sp ≠ Db.cexprMaxdepth - 1 ∧ ∃ b, v = some b ∧ st' = st.put (st.sp + 1) b := by
  cases v with
  | none =>
    simp only [EvalStack.act, ite_self] at h
    cases h
  | some b =>
    simp only [EvalStack.act] at h
    split at h
    · cases h
    next hroom =>
      cases h
      exact ⟨hroom, b, rfl, rfl⟩

/-- It is enough to look at the operands and at the new pointer. -/
theorem Safe.of (hsp : st.sp ≤ Db.cexprMaxdepth - 1) (hreads : ∀ i ∈ st.reads a, 0 ≤ i ∧ i ≤ st.sp)
    (hpointer : ∀ st', st.act a = .go st' → InArray st'.sp) : Safe st a := by
  refine ⟨hreads, ?_, hpointer⟩
  intro i hi
  rcases mem_append.mp hi with hi | hi
  · have hi := hreads i hi
    unfold InArray
    omega
  · unfold EvalStack.writes at hi
    split at hi
    next st' hst' =>
      rw [mem_singleton.mp hi]
      exact hpointer st' hst'
    · cases hi

/-- If the depth is right, the operands are there and there is room for the result. -/
theorem Represents.safe {vs : List Bool} (h : Represents st vs) {sh : Rpn.Shape} {d : Nat} (ha : a.shape = some sh)
    (hd : Rpn.depthStep Db.cexprMaxdepth vs.length sh = some d) : Safe st a := by
  have hsp := h.pointer
  have hfits := h.fits
  have htwo : sh = .bin → 1 ≤ st.sp := by
    intro hbin
    rw [hbin, Rpn.depthStep] at hd
    split at hd
    · cases hd
    · omega
  have hoperands : 1 ≤ st.sp → ∀ i ∈ [st.sp - 1, st.sp], 0 ≤ i ∧ i ≤ st.sp := by
    intro hone i hi
    simp only [mem_cons, not_mem_nil, or_false] at hi
    omega
  have harray : ∀ i, 0 ≤ i → i ≤ st.sp → InArray i := fun i h0 hi => ⟨h0, by omega⟩
  cases a with
  | not =>
    cases ha
    rw [Rpn.depthStep] at hd
    split at hd
    · cases hd
    refine Safe.of (by omega) (forall_mem_singleton.mpr (by omega)) ?_
    rintro st' ⟨⟩
    exact harray st.sp (by omega) (Int.le_refl _)
  | and | or =>
    cases ha
    refine Safe.of (by omega) (hoperands (htwo rfl)) ?_
    rintro st' ⟨⟩
    exact harray (st.sp - 1) (Int.sub_nonneg.mpr (htwo rfl)) (by omega)
  | push v =>
    refine Safe.of (by omega) (forall_mem_nil _) ?_
    intro st' hst'
    obtain ⟨hroom, b, -, rfl⟩ := act_push_go hst'
    show 0 ≤ st.sp + 1 ∧ st.sp + 1 ≤ _
    omega
  | unknown => cases ha

/-! ## Runs -/

/-- An element that does not end the run has an operation. -/
theorem op_of_act {st : EvalStack} (h : st.act a = .go st') : ∃ op, a.op = some op := by
  cases a with
  | not | and | or => exact ⟨_, rfl⟩
  | push v =>
    obtain ⟨-, b, rfl, -⟩ := act_push_go h
    exact ⟨_, rfl⟩
  | unknown => cases h

theorem ops_of_evalFrom {l : List Action} {st : EvalStack} (h : evalFrom st l = .go st') :
    ∃ ops, l.mapM Action.op = some ops := by
  induction l generalizing st with
  | nil => exact ⟨[], rfl⟩
  | cons a l ih =>
    rw [evalFrom] at h
    split at h
    next st1 hact =>
      obtain ⟨op, hop⟩ := op_of_act hact
      obtain ⟨ops, hops⟩ := ih h
      exact ⟨op :: ops, Run.mapM_cons_some.mpr ⟨op, hop, ops, hops, rfl⟩⟩
    · cases h

/-- The stack stands for the values of a run of the operations. -/
theorem evalFrom_run {l : List Action} (hops : l.mapM Action.op = some ops)
    (hrun : Rpn.run Db.cexprMaxdepth ops vs = some vs') (h : Represents st vs) :
    ∃ st', evalFrom st l = .go st' ∧ Represents st' vs' := by
  induction l generalizing ops vs st with
  | nil =>
    cases hops
    cases hrun
    exact ⟨st, rfl, h⟩
  | cons a l ih =>
    obtain ⟨op, hop, ops', hops', rfl⟩ := Run.mapM_cons_some.mp hops
    obtain ⟨vs1, hstep, hrun⟩ := bind_eq_some_iff.mp hrun
    obtain ⟨st1, hact, h1⟩ := h.act hop hstep
    obtain ⟨st', hrest, h'⟩ := ih hops' hrun h1
    refine ⟨st', ?_, h'⟩
    rw [evalFrom, hact]
    exact hrest

theorem shape_of_op {op : Rpn.Op Bool} (h : a.op = some op) : a.shape = some op.shape := by
  cases a with
  | not | and | or => cases h; rfl
  | push v =>
    obtain ⟨v, rfl, rfl⟩ := map_eq_some_iff.mp h
    rfl
  | unknown => cases h

theorem shapes_of_ops {l : List Action} (h : l.mapM Action.op = some ops) :
    l.mapM Action.shape = some (ops.map Rpn.Op.shape) := by
  induction l generalizing ops with
  | nil =>
    cases h
    rfl
  | cons a l ih =>
    obtain ⟨op, hop, ops', hops', rfl⟩ := Run.mapM_cons_some.mp h
    exact Run.mapM_cons_some.mpr ⟨_, shape_of_op hop, _, ih hops', rfl⟩

section Depth

variable {l : List Action} {shapes : List Rpn.Shape} (hl : l.mapM Action.shape = some shapes)
  (hdepth : Rpn.depth Db.cexprMaxdepth shapes 0 = some 1) (s : Int → Bool)

include hl hdepth

/-- Each element is safe where the run comes to it. -/
theorem safe_of_depth {pre post : List Action} (hsplit : l = pre ++ a :: post) (hst : evalFrom { s } pre = .go st) :
    Safe st a := by
  obtain ⟨ops, hops⟩ := ops_of_evalFrom hst
  subst hsplit
  rw [mapM_append, shapes_of_ops hops] at hl
  obtain ⟨first, ⟨⟩, hl⟩ := bind_eq_some_iff.mp hl
  obtain ⟨rest, hrest, ⟨⟩⟩ := bind_eq_some_iff.mp hl
  obtain ⟨sh, hsh, shs, -, rfl⟩ := Run.mapM_cons_some.mp hrest
  rw [Rpn.depth, foldlM_append] at hdepth
  obtain ⟨d, hd, hdepth⟩ := bind_eq_some_iff.mp hdepth
  obtain ⟨d', hd', -⟩ := bind_eq_some_iff.mp hdepth
  -- the depth of the elements so far is the length of the stack
  have hlength := Rpn.run_length Db.cexprMaxdepth ops []
  rw [length_nil, Rpn.depth, hd] at hlength
  obtain ⟨vs, hvs, rfl⟩ := map_eq_some_iff.mp hlength
  obtain ⟨st', hst', hrep⟩ := evalFrom_run hops hvs (Represents.nil s)
  rw [hst] at hst'
  cases hst'
  exact hrep.safe hsh hd'

/-- If all elements have operations, one value is left. -/
theorem evalFrom_value (hops : l.mapM Action.op = some ops) :
    ∃ st v, evalFrom { s } l = .go st ∧ Rpn.run Db.cexprMaxdepth ops [] = some [v] ∧ st.sp = 0 ∧ st.s 0 = v := by
  have hlength := Rpn.run_length Db.cexprMaxdepth ops []
  rw [shapes_of_ops hops] at hl
  cases hl
  rw [length_nil, hdepth] at hlength
  obtain ⟨vs, hvs, hone⟩ := map_eq_some_iff.mp hlength
  obtain ⟨v, rfl⟩ := length_eq_one_iff.mp hone
  obtain ⟨st, hst, hrep⟩ := evalFrom_run hops hvs (Represents.nil s)
  have hsp : st.sp = 0 := hrep.pointer
  exact ⟨st, v, hst, hvs, hsp, hsp ▸ hrep.top⟩

/-- What is returned is the bottom of the stack of values, or 0 where an operation is missing. -/
theorem evalResult_eq : evalResult s l =
    match l.mapM Action.op with
    | none => false
    | some ops => ((Rpn.run Db.cexprMaxdepth ops []).bind List.getLast?).getD false := by
  unfold evalResult
  cases hops : l.mapM Action.op with
  | none =>
    cases hrun : evalFrom { s } l with
    | out => rfl
    | go st =>
      obtain ⟨ops, hsome⟩ := ops_of_evalFrom hrun
      rw [hops] at hsome
      cases hsome
  | some ops =>
    obtain ⟨st, v, hst, hrun, -, hv⟩ := evalFrom_value hl hdepth s hops
    simp only [hst, hrun, hv]
    rfl

end Depth

/-! ## Constraints of the policy -/

/-- An element of a constraint on the stack. -/
def constraintAction (p : Db.Policydb) (s t : Db.Context) (x : Option Db.Context) : Db.ConstraintExpr → Action
  | .not => .not
  | .and => .and
  | .or => .or
  | .attr attr op => .push (evalAttr p s t attr op)
  | .names attr op names => .push (evalNames s t x attr op names)

/-- Decisions are made with what the stack gives. -/
theorem constraintExprEval_stack (p : Db.Policydb) (s t : Db.Context) (x : Option Db.Context) (c : Db.ConstraintNode)
    (mem : Int → Bool) : constraintExprEval p s t x c.expr = evalResult mem (c.expr.map (constraintAction p s t x)) := by
  have hshape : Action.shape ∘ constraintAction p s t x = fun e => pure (Db.ConstraintExpr.shape e) := by
    funext e
    cases e <;> rfl
  have hop : Action.op ∘ constraintAction p s t x = constraintOp p s t x := by
    funext e
    cases e <;> rfl
  have hshapes : (c.expr.map (constraintAction p s t x)).mapM Action.shape = some (c.expr.map Db.ConstraintExpr.shape) := by
    rw [mapM_map, hshape]
    exact mapM_pure
  rw [evalResult_eq hshapes c.depth mem, mapM_map, hop]
  rfl

end SELinux.Services

/-! ## Constraints of a file -/

namespace SELinux.File

open Lib Lib.Wire Services Option List

variable {sh : Rpn.Shape}

section Codes

variable (p : Policydb)

/-- `role_val_to_struct[role - 1]->dominates` -/
def roleDominates (role val : U32) : Bool :=
  match slot (fun _ => true) (·.value) p.symtab.roles.table role with
  | some e => Db.ebitmapGetBit e.2.dominates.1 (val - 1#32).toNat
  | none => false

def roleOp (op : U32) (val1 val2 : U32) : Option Bool :=
  if op = cexprDom then some (roleDominates p val1 val2)
  else if op = cexprDomby then some (roleDominates p val2 val1)
  else if op = cexprIncomp then some (!roleDominates p val1 val2 && !roleDominates p val2 val1)
  else valueOp op val1.toNat val2.toNat

/-- `mls_ops` -/
def levelOp (op : U32) (l1 l2 : MlsLevel) : Option Bool :=
  if op = cexprEq then some (mlsLevelEq l1 l2)
  else if op = cexprNeq then some (!mlsLevelEq l1 l2)
  else if op = cexprDom then some (mlsLevelDom l1 l2)
  else if op = cexprDomby then some (mlsLevelDom l2 l1)
  else if op = cexprIncomp then some (!mlsLevelDom l2 l1 && !mlsLevelDom l1 l2)
  else none

def evalAttr (s t : Context) (attr op : U32) : Option Bool :=
  if attr = cexprUser then valueOp op s.user.toNat t.user.toNat
  else if attr = cexprType then valueOp op s.type.toNat t.type.toNat
  else if attr = cexprRole then roleOp p op s.role t.role
  else if attr = cexprL1L2 then levelOp op s.range.low t.range.low
  else if attr = cexprL1H2 then levelOp op s.range.low t.range.high
  else if attr = cexprH1L2 then levelOp op s.range.high t.range.low
  else if attr = cexprH1H2 then levelOp op s.range.high t.range.high
  else if attr = cexprL1H1 then levelOp op s.range.low s.range.high
  else if attr = cexprL2H2 then levelOp op t.range.low t.range.high
  else none

/-- The context whose names are looked for. -/
def namesContext (s t : Context) (x : Option Context) (attr : U32) : Option Context :=
  if attr &&& cexprTarget ≠ 0#32 then some t else if attr &&& Services.cexprXtarget ≠ 0#32 then x else some s

def namesValue (c : Context) (attr : U32) : Option U32 :=
  if attr &&& cexprUser ≠ 0#32 then some c.user
  else if attr &&& cexprRole ≠ 0#32 then some c.role
  else if attr &&& cexprType ≠ 0#32 then some c.type
  else none

def evalNames (s t : Context) (x : Option Context) (attr op : U32) (names : FileBitmap) : Option Bool := do
  let c ← namesContext s t x attr
  let val ← namesValue c attr
  if op = cexprEq then some (Db.ebitmapGetBit names.1 (val - 1#32).toNat)
  else if op = cexprNeq then some (!Db.ebitmapGetBit names.1 (val - 1#32).toNat)
  else none

/-- The value of a leaf. -/
def ConstraintExpr.value (s t : Context) (x : Option Context) (e : ConstraintExpr) : Option Bool :=
  if e.exprType = cexprAttr then evalAttr p s t e.attr e.op else evalNames s t x e.attr e.op e.names

def ConstraintExpr.action (s t : Context) (x : Option Context) (e : ConstraintExpr) : Action :=
  if e.exprType = cexprNot then .not
  else if e.exprType = cexprAnd then .and
  else if e.exprType = cexprOr then .or
  else if e.exprType = cexprAttr ∨ e.exprType = cexprNames then .push (e.value p s t x)
  else .unknown

/-- `mem` is what the array has at first. -/
def constraintExprEvalReason (s t : Context) (x : Option Context) (mem : Int → Bool) (expr : List ConstraintExpr) : Bool :=
  evalResult mem (expr.map (·.action p s t x))

end Codes

/-! ### Known codes -/

def equalityOps : List U32 := [cexprEq, cexprNeq]

def dominanceOps : List U32 := [cexprEq, cexprNeq, cexprDom, cexprDomby, cexprIncomp]

def dominanceAttrs : List U32 := [cexprRole, cexprL1L2, cexprL1H2, cexprH1L2, cexprH1H2, cexprL1H1, cexprL2H2]

def attrKnown (attr op : U32) : Prop :=
  attr ∈ [cexprUser, cexprType] ∧ op ∈ equalityOps ∨ attr ∈ dominanceAttrs ∧ op ∈ dominanceOps

/-- A third context is asked for only if there is one. -/
def namesKnown (x : Option Context) (attr op : U32) : Prop :=
  (attr &&& cexprUser ≠ 0#32 ∨ attr &&& cexprRole ≠ 0#32 ∨ attr &&& cexprType ≠ 0#32) ∧ op ∈ equalityOps ∧
    (attr &&& cexprTarget = 0#32 → attr &&& Services.cexprXtarget ≠ 0#32 → x.isSome = true)

/-- The codes of an element are known. -/
def ConstraintExpr.Known (x : Option Context) (e : ConstraintExpr) : Prop :=
  (e.exprType = cexprAttr → attrKnown e.attr e.op) ∧ (e.exprType = cexprNames → namesKnown x e.attr e.op)

variable {op : U32}

theorem valueOp_isSome {v1 v2 : Nat} : (valueOp op v1 v2).isSome = true ↔ op ∈ equalityOps := by
  unfold valueOp
  simp only [equalityOps, mem_cons, not_mem_nil, or_false]
  split
  · simp [*]
  split
  · simp [*]
  · simp [*]

theorem levelOp_isSome {l1 l2 : MlsLevel} : (levelOp op l1 l2).isSome = true ↔ op ∈ dominanceOps := by
  unfold levelOp
  simp only [dominanceOps, mem_cons, not_mem_nil, or_false]
  repeat' split
  all_goals simp [*]

theorem roleOp_isSome {p : Policydb} {v1 v2 : U32} : (roleOp p op v1 v2).isSome = true ↔ op ∈ dominanceOps := by
  unfold roleOp
  simp only [dominanceOps, mem_cons, not_mem_nil, or_false]
  repeat' split
  all_goals simp [*, valueOp_isSome, equalityOps]

theorem evalAttr_isSome {p : Policydb} {s t : Context} {attr : U32} :
    (evalAttr p s t attr op).isSome = true ↔ attrKnown attr op := by
  unfold evalAttr attrKnown
  simp only [dominanceAttrs, mem_cons, not_mem_nil, or_false]
  repeat' split
  all_goals simp only [*, valueOp_isSome, roleOp_isSome, levelOp_isSome]
  -- What is left compares one code with the others.
  all_goals simp [cexprUser, cexprType, cexprRole, cexprL1L2, cexprL1H2, cexprH1L2, cexprH1H2, cexprL1H1, cexprL2H2]

theorem evalNames_isSome {s t : Context} {x : Option Context} {attr : U32} {names : FileBitmap} :
    (evalNames s t x attr op names).isSome = true ↔ namesKnown x attr op := by
  have hop : ∀ val : U32, (if op = cexprEq then some (Db.ebitmapGetBit names.1 (val - 1#32).toNat)
      else if op = cexprNeq then some (!Db.ebitmapGetBit names.1 (val - 1#32).toNat) else none).isSome = true ↔
        op ∈ equalityOps := by
    simp only [equalityOps, mem_cons, not_mem_nil, or_false]
    split
    · simp [*]
    split
    · simp [*]
    · simp [*]
  have hvalue : ∀ c, (namesValue c attr).isSome = true ↔
      (attr &&& cexprUser ≠ 0#32 ∨ attr &&& cexprRole ≠ 0#32 ∨ attr &&& cexprType ≠ 0#32) := by
    unfold namesValue
    repeat' split
    all_goals simp [*]
  have hcontext : (namesContext s t x attr).isSome = true ↔
      (attr &&& cexprTarget = 0#32 → attr &&& Services.cexprXtarget ≠ 0#32 → x.isSome = true) := by
    unfold namesContext
    repeat' split
    all_goals simp_all
  unfold evalNames namesKnown
  rw [← hcontext]
  cases hc : namesContext s t x attr with
  | none => simp
  | some c =>
    rw [← hvalue c, ← hop (((namesValue c attr)).getD 0#32)]
    cases hv : namesValue c attr with
    | none => simp [hv]
    | some val => simp [hv]

section Action

variable (p : Policydb) (s t : Context) (x : Option Context) {e : ConstraintExpr}

/-- The value of a leaf as far as its codes are known, and what the operators do. -/
def leafValue (e : ConstraintExpr) : Bool := (e.value p s t x).getD false

def unaryOp (_ : ConstraintExpr) (v : Bool) : Bool := !v

def binaryOp (e : ConstraintExpr) (v w : Bool) : Bool := if e.exprType = cexprAnd then v && w else v || w

/-- The value of a tree of elements. -/
def treeValue (tree : Rpn.Form ConstraintExpr) : Bool := tree.eval (leafValue p s t x) unaryOp binaryOp

/-- The codes of an operator are known, and those of a leaf when it has a value. -/
theorem action_cases (h : exprShape e.exprType = some sh) :
    sh = .un ∧ e.Known x ∧ e.action p s t x = .not ∨
    sh = .bin ∧ e.Known x ∧ (e.exprType = cexprAnd ∧ e.action p s t x = .and ∨ e.exprType ≠ cexprAnd ∧
      e.action p s t x = .or) ∨
    sh = .push ∧ ((e.value p s t x).isSome = true ↔ e.Known x) ∧ e.action p s t x = .push (e.value p s t x) := by
  unfold exprShape at h
  unfold ConstraintExpr.Known ConstraintExpr.action
  split_ifs at h with hnot hbin hleaf
  · cases h
    simp [hnot, cexprNot, cexprAttr, cexprNames]
  · cases h
    rcases hbin with hv | hv
    · simp [hv, cexprNot, cexprAnd, cexprAttr, cexprNames]
    · simp [hv, cexprNot, cexprAnd, cexprOr, cexprAttr, cexprNames]
  · cases h
    unfold ConstraintExpr.value
    rcases hleaf with hv | hv
    · simp [hv, evalAttr_isSome, cexprNot, cexprAnd, cexprOr, cexprAttr, cexprNames]
    · simp [hv, evalNames_isSome, cexprNot, cexprAnd, cexprOr, cexprAttr, cexprNames]

theorem action_shape (h : exprShape e.exprType = some sh) : (e.action p s t x).shape = some sh := by
  rcases action_cases p s t x h with ⟨rfl, -, ha⟩ | ⟨rfl, -, ⟨-, ha⟩ | ⟨-, ha⟩⟩ | ⟨rfl, -, ha⟩
  all_goals rw [ha]; rfl

/-- The operation of an element whose codes are known. -/
theorem action_op (h : exprShape e.exprType = some sh) (hknown : e.Known x) :
    (e.action p s t x).op = some (Rpn.Form.opOf (leafValue p s t x) unaryOp binaryOp e sh) := by
  rcases action_cases p s t x h with ⟨rfl, -, ha⟩ | ⟨rfl, -, ⟨hand, ha⟩ | ⟨hor, ha⟩⟩ | ⟨rfl, hv, ha⟩
  · rw [ha]
    rfl
  · have hop : binaryOp e = (· && ·) := funext fun v => funext fun w => if_pos hand
    rw [ha, Rpn.Form.opOf, hop]
    rfl
  · have hop : binaryOp e = (· || ·) := funext fun v => funext fun w => if_neg hor
    rw [ha, Rpn.Form.opOf, hop]
    rfl
  · obtain ⟨v, hv⟩ := isSome_iff_exists.mp (hv.mpr hknown)
    rw [ha, Rpn.Form.opOf, leafValue, hv]
    rfl

/-- Without known codes there is no operation. -/
theorem action_op_none (h : exprShape e.exprType = some sh) (hno : ¬e.Known x) : (e.action p s t x).op = none := by
  rcases action_cases p s t x h with ⟨-, hknown, -⟩ | ⟨-, hknown, -⟩ | ⟨-, hv, ha⟩
  · exact absurd hknown hno
  · exact absurd hknown hno
  · rw [← hv, Bool.not_eq_true, isSome_eq_false_iff, isNone_iff_eq_none] at hno
    rw [ha, hno]
    rfl

/-- The run of the elements of an expression over a stack that has these values at first. -/
structure EvaluatesTree (expr : List ConstraintExpr) (mem : Int → Bool) : Prop where
  safe : ∀ pre e post, expr = pre ++ e :: post → ∀ st, evalFrom { s := mem } (pre.map (·.action p s t x)) = .go st →
    Safe st (e.action p s t x)
  tree : ∃ tree : Rpn.Form ConstraintExpr, tree.Shaped (fun e => exprShape e.exprType) ∧ tree.list = expr ∧
    (∀ tree' : Rpn.Form ConstraintExpr, tree'.Shaped (fun e => exprShape e.exprType) → tree'.list = expr → tree' = tree) ∧
    ((∀ e ∈ expr, e.Known x) → ∃ st, evalFrom { s := mem } (expr.map (·.action p s t x)) = .go st ∧ st.sp = 0 ∧
      st.s 0 = treeValue p s t x tree ∧ constraintExprEvalReason p s t x mem expr = treeValue p s t x tree) ∧
    ((∃ e ∈ expr, ¬e.Known x) → constraintExprEvalReason p s t x mem expr = false)

/-- The depth that the reader counts is all that the run needs. -/
theorem evaluatesTree_of_depth {expr : List ConstraintExpr} (hdepth : exprDepth expr = some 1) (mem : Int → Bool) :
    EvaluatesTree p s t x expr mem := by
  obtain ⟨shapes, hshapes, hdepth⟩ := bind_eq_some_iff.mp hdepth
  have hall : ∀ e ∈ expr, ∃ sh, exprShape e.exprType = some sh := Run.exists_mapM_iff.mp ⟨shapes, hshapes⟩
  have hactions : (expr.map (·.action p s t x)).mapM Action.shape = some shapes := by
    rw [mapM_map]
    exact Run.mapM_mono (fun e sh hsh => action_shape p s t x hsh) hshapes
  obtain ⟨tree, hshaped, hlist, hunique, heval⟩ := Rpn.Form.exists_form (leafValue p s t x) unaryOp binaryOp hshapes hdepth
  refine ⟨?_, tree, hshaped, hlist, hunique, ?_, ?_⟩
  · intro pre e post hsplit st hst
    have hmap : expr.map (·.action p s t x) = pre.map (·.action p s t x) ++
        e.action p s t x :: post.map (·.action p s t x) := by
      rw [hsplit, map_append, map_cons]
    exact safe_of_depth hactions hdepth mem hmap hst
  · intro hknown
    have hop : ∀ e ∈ expr, (e.action p s t x).op =
        (exprShape e.exprType).map (Rpn.Form.opOf (leafValue p s t x) unaryOp binaryOp e) := by
      intro e he
      obtain ⟨sh, hsh⟩ := hall e he
      rw [action_op p s t x hsh (hknown e he), hsh]
      rfl
    obtain ⟨ops, hops⟩ : ∃ ops, expr.mapM (fun e => (e.action p s t x).op) = some ops := by
      refine Run.exists_mapM_iff.mpr ?_
      intro e he
      obtain ⟨sh, hsh⟩ := hall e he
      exact ⟨_, action_op p s t x hsh (hknown e he)⟩
    have hops' : (expr.map (·.action p s t x)).mapM Action.op = some ops := by
      rw [mapM_map]
      exact hops
    obtain ⟨st, v, hst, hrun, hsp, hv⟩ := evalFrom_value hactions hdepth mem hops'
    -- the operations leave the value of the tree
    have heval := heval hop hops
    rw [hrun] at heval
    have hvalue : v = treeValue p s t x tree := by
      cases heval
      rfl
    refine ⟨st, hst, hsp, hv.trans hvalue, ?_⟩
    unfold constraintExprEvalReason evalResult
    rw [hst]
    exact hv.trans hvalue
  · intro hunknown
    obtain ⟨e, he, hno⟩ := hunknown
    obtain ⟨sh, hsh⟩ := hall e he
    unfold constraintExprEvalReason evalResult
    cases hst : evalFrom { s := mem } (expr.map (·.action p s t x)) with
    | out => rfl
    | go st =>
      obtain ⟨ops, hops⟩ := ops_of_evalFrom hst
      rw [mapM_map] at hops
      obtain ⟨op, hop⟩ := Run.exists_mapM_iff.mp ⟨ops, hops⟩ e he
      have hnone := action_op_none p s t x hsh hno
      cases hnone.symm.trans hop

theorem exprDepth_append (l : List ConstraintExpr) (e : ConstraintExpr) :
    exprDepth (l ++ [e]) = (exprDepth l).bind fun d => (exprShape e.exprType).bind (Rpn.depthStep Db.cexprMaxdepth d) := by
  unfold exprDepth Rpn.depth
  rw [mapM_append]
  cases l.mapM fun e => exprShape e.exprType with
  | none => rfl
  | some shapes =>
    cases hshape : exprShape e.exprType with
    | none =>
      simp only [mapM_cons, hshape, Option.bind_eq_bind, Option.bind_some, Option.bind_none]
      cases shapes.foldlM (Rpn.depthStep Db.cexprMaxdepth) 0 <;> rfl
    | some shape =>
      simp [hshape, foldlM_append]

/-- The depth that is counted is that of the elements read. -/
theorem ensures_constraintExpr (h : Header) (allowxtarget : Bool) {st : List ConstraintExpr × Nat}
    (hst : exprDepth st.1 = some st.2) :
    Ensures (readConstraintExpr h allowxtarget st) fun st' => exprDepth st'.1 = some st'.2 := by
  refine Ensures.andThen fun exprType => Ensures.andThen fun attr => Ensures.andThen fun op => ?_
  refine (ensures_ofOption _).bind fun shape hshape => Ensures.andThen fun _ => ?_
  refine (ensures_ofOption _).bind fun depth hdepth => Ensures.andThen fun sets => Ensures.pure ?_
  rw [exprDepth_append, hst, hshape]
  exact hdepth

theorem ensures_constraint (h : Header) (allowxtarget : Bool) :
    Ensures (readConstraint h allowxtarget) fun c => exprDepth c.expr = some 1 := by
  refine Ensures.andThen fun permissions => Ensures.andThen fun nexpr => ?_
  have hloop : Ensures (loop (readConstraintExpr h allowxtarget) nexpr.toNat ([], 0)) fun st => exprDepth st.1 = some st.2 :=
    Ensures.loop (fun _ => ensures_constraintExpr h allowxtarget) _ rfl
  refine hloop.bind fun st hst => (ensures_check _).bind fun _ hone => Ensures.pure ?_
  rw [hst, of_decide_eq_true hone]

/-- Every constraint that was read is evaluated as the tree it makes up. -/
theorem readConsHelper_eval {h : Header} {allowxtarget : Bool} {ncons : Nat} {b rest : Bytes} {l : List ConstraintNode}
    (hread : readConsHelper h allowxtarget ncons b = some (l, rest)) {c : ConstraintNode} (hc : c ∈ l) (mem : Int → Bool) :
    EvaluatesTree p s t x c.expr mem := by
  have hcounted := (((ensures_constraint h allowxtarget).times ncons) _ _ _ hread).2 c hc
  exact evaluatesTree_of_depth p s t x hcounted mem

end Action

/-- `u1 == u2 and t1 == t2` -/
theorem readConsHelper_eval_and :
    ∃ l b c, readConsHelper ⟨.kern, 26, .selinux, false⟩ false 1 b = some (l, []) ∧ c ∈ l ∧ c.expr.length = 3 ∧
    ∀ p s t, EvaluatesTree p s t none c.expr fun _ => false := by
  have hread : ((readConsHelper ⟨.kern, 26, .selinux, false⟩ false 1 (putWords [1, 3, 4, 1, 1, 4, 4, 1, 2, 0, 0])).map
      fun e => (e.1.map (·.expr.length), e.2)) = some ([3], []) := by decide +kernel
  obtain ⟨⟨l, rest⟩, hl, heq⟩ := map_eq_some_iff.mp hread
  simp only [Prod.mk.injEq] at heq
  obtain ⟨hlength, rfl⟩ := heq
  obtain ⟨c, hc, hthree⟩ := mem_map.mp (hlength ▸ mem_cons_self : 3 ∈ l.map (·.expr.length))
  exact ⟨l, _, c, hl, hc, hthree, fun p s t => readConsHelper_eval p s t none hl hc _⟩

end SELinux.File
