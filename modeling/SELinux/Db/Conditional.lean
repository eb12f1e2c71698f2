/-
  SELinux.Db.Conditional — conditional expressions and nodes (`libsepol/src/conditional.c`).

  An expression is evaluated on a stack of ten values; the result is the value at the
  bottom, and `none` is the code's -1, undefined. `condNormalizeExpr` takes one final
  negation off, exchanging the lists, and tabulates an expression of at most five
  booleans in `exprPreComp`; `condExprEqual` then compares the tables. On an error it
  leaves the booleans as the last test set them; its callers give the policy up.

  `evaluateConds` turns rules on and off through the node ids of the lists.
-/
import SELinux.Db.Types
import SELinux.Lib.Rpn

namespace SELinux.Db

open Lib List

variable (state : Nat → Bool)

def condExprMaxdepth : Nat := 10
def condMaxBools : Nat := 5

/-! ## Evaluation -/

def CondExprNode.op : CondExprNode → Rpn.Op Bool
  | .bool b => .push (state b)
  | .not => .un (! ·)
  | .or => .bin (· || ·)
  | .and => .bin (· && ·)
  | .xor => .bin (· ^^ ·)
  | .eq => .bin (· == ·)
  | .neq => .bin (· != ·)

def CondExprNode.shape : CondExprNode → Rpn.Shape
  | .bool _ => .push
  | .not => .un
  | _ => .bin

/-- `s[0]` when the loop ends. -/
def condEvaluateExpr (expr : CondExpr) : Option Bool :=
  (Rpn.run condExprMaxdepth (expr.map (CondExprNode.op state)) []).bind List.getLast?

/-- The number of values an expression leaves on the stack. -/
def condDepth (expr : CondExpr) : Option Nat := Rpn.depth condExprMaxdepth (expr.map CondExprNode.shape) 0

theorem CondExprNode.op_shape (e : CondExprNode) : (e.op state).shape = e.shape := by
  cases e <;> rfl

theorem run_length_eq_condDepth (e : CondExpr) :
    (Rpn.run condExprMaxdepth (e.map (CondExprNode.op state)) []).map List.length = condDepth e := by
  rw [Rpn.run_length, map_map]
  congr 2
  funext n
  exact n.op_shape state

theorem condEvaluateExpr_eq_none_iff (e : CondExpr) :
    condEvaluateExpr state e = none ↔ condDepth e = none ∨ condDepth e = some 0 := by
  rw [← run_length_eq_condDepth state e, condEvaluateExpr]
  cases Rpn.run condExprMaxdepth (e.map (CondExprNode.op state)) [] with
  | none => simp
  | some s => simp

/-- Whether an expression is defined does not depend on the booleans. -/
theorem condEvaluateExpr_none_congr (s s' : Nat → Bool) (e : CondExpr) :
    condEvaluateExpr s e = none ↔ condEvaluateExpr s' e = none := by
  rw [condEvaluateExpr_eq_none_iff, condEvaluateExpr_eq_none_iff]

variable {e : CondExpr}

theorem condEvaluateExpr_congr {s s' : Nat → Bool} (h : ∀ b, CondExprNode.bool b ∈ e → s b = s' b) :
    condEvaluateExpr s e = condEvaluateExpr s' e := by
  unfold condEvaluateExpr
  rw [map_congr_left fun n hn => ?_]
  cases n with
  | bool b => exact congrArg _ (h b hn)
  | _ => rfl

/-- A final negation flips the result when it is all that is left on the stack, and is lost otherwise. -/
theorem condEvaluateExpr_not (e : CondExpr) :
    condEvaluateExpr state (e ++ [.not]) =
      if condDepth e = some 1 then (condEvaluateExpr state e).map (! ·) else condEvaluateExpr state e := by
  have hd := run_length_eq_condDepth state e
  unfold condEvaluateExpr
  rw [map_append, map_singleton, show CondExprNode.op state .not = .un (! ·) from rfl, Rpn.run_concat_un, ← hd]
  cases Rpn.run condExprMaxdepth (e.map (CondExprNode.op state)) [] with
  | none => rfl
  | some s =>
    simp only [Option.bind_some, Option.map_some, Option.some.injEq]

theorem condDepth_not (e : CondExpr) : condDepth (e ++ [.not]) = some 1 ↔ condDepth e = some 1 := by
  unfold condDepth Rpn.depth
  rw [map_append, foldlM_append]
  cases (e.map CondExprNode.shape).foldlM (Rpn.depthStep condExprMaxdepth) 0 with
  | none => exact Iff.rfl
  | some d =>
    by_cases h0 : d = 0
    · subst h0
      exact iff_of_false (by decide) (by decide)
    · have hstep : Rpn.depthStep condExprMaxdepth d .un = some d := by
        unfold Rpn.depthStep
        rw [if_neg h0]
      simp [CondExprNode.shape, hstep]

/-! ## Normalising -/

def boolPresent (target : Nat) (bools : List Nat) (numBools : Nat) : Bool :=
  if condMaxBools < numBools then false else (bools.take numBools).contains target

/-- One element of the loop that collects the booleans: all are counted, five are kept. -/
def findBool (acc : Nat × List Nat) : CondExprNode → Nat × List Nat
  | .bool b =>
    if boolPresent b acc.2 acc.1 then acc
    else if acc.1 < condMaxBools then (acc.1 + 1, acc.2 ++ [b])
    else (acc.1 + 1, acc.2)
  | _ => acc

def findBools (e : CondExpr) : Nat × List Nat := e.foldl findBool (0, [])

/-- The booleans set to the bits of `test`. -/
def testState (ids : List Nat) (test : Nat) : Nat → Bool :=
  ids.zipIdx.foldl (fun st bj b => if b = bj.1 then test.testBit bj.2 else st b) state

/-- The loop over all combinations; `none` when the expression is undefined. -/
def preCompute (e : CondExpr) (ids : List Nat) : Option (BitVec 32) :=
  (List.range (2 ^ ids.length)).foldlM
    (fun acc test => (condEvaluateExpr (testState state ids test) e).map fun k =>
      if k then acc ||| 1#32 <<< test else acc) 0#32

/-- The part of `cond_normalize_expr` behind the final negation. -/
def condTabulate (cn : CondNode) : Option CondNode :=
  let bools := findBools cn.expr
  if bools.1 ≤ condMaxBools then
    (preCompute state cn.expr bools.2).map fun pre =>
      { cn with nbools := bools.1, boolIds := bools.2, exprPreComp := pre }
  else some { cn with nbools := bools.1, boolIds := bools.2, exprPreComp := 0#32 }

def CondNode.swapLists (cn : CondNode) : CondNode :=
  { cn with
    trueList := cn.falseList
    falseList := cn.trueList
    avtrueList := cn.avfalseList
    avfalseList := cn.avtrueList }

def condNormalizeExpr (cn : CondNode) : Option CondNode :=
  if cn.expr.getLast? = some .not then
    if cn.expr.length = 1 then none
    else condTabulate state { cn.swapLists with expr := cn.expr.dropLast }
  else condTabulate state cn

theorem findBool_length {acc : Nat × List Nat} (h : acc.2.length = min acc.1 condMaxBools) (e : CondExprNode) :
    (findBool acc e).2.length = min (findBool acc e).1 condMaxBools ∧ acc.1 ≤ (findBool acc e).1 ∧
      ∀ b ∈ acc.2, b ∈ (findBool acc e).2 := by
  cases e with
  | bool b =>
    simp only [findBool]
    split
    · exact ⟨h, Nat.le_refl _, fun _ hb => hb⟩
    split
    next hlt =>
      simp only [length_append, length_singleton, h]
      exact ⟨by omega, by omega, fun _ hb => mem_append_left _ hb⟩
    next hge =>
      simp only [h]
      exact ⟨by omega, by omega, fun _ hb => hb⟩
  | _ => exact ⟨h, Nat.le_refl _, fun _ hb => hb⟩

/-- Up to five booleans are all kept. -/
theorem foldl_findBool_spec (e : CondExpr) {acc : Nat × List Nat} (h : acc.2.length = min acc.1 condMaxBools) :
    (e.foldl findBool acc).2.length = min (e.foldl findBool acc).1 condMaxBools ∧ acc.1 ≤ (e.foldl findBool acc).1 ∧
      (∀ b ∈ acc.2, b ∈ (e.foldl findBool acc).2) ∧
      ((e.foldl findBool acc).1 ≤ condMaxBools → ∀ b, CondExprNode.bool b ∈ e → b ∈ (e.foldl findBool acc).2) := by
  induction e generalizing acc with
  | nil => exact ⟨h, Nat.le_refl _, fun _ hb => hb, by simp⟩
  | cons x e ih =>
    obtain ⟨hlen, hle, hsub⟩ := findBool_length h x
    obtain ⟨hlen', hle', hsub', hmem⟩ := ih hlen
    refine ⟨hlen', Nat.le_trans hle hle', fun b hb => hsub' b (hsub b hb), ?_⟩
    intro hmax b hb
    rcases mem_cons.mp hb with rfl | hb
    · -- the boolean was there, or it is entered now: the final count leaves room for it
      refine hsub' b ?_
      simp only [foldl_cons] at hmax
      simp only [findBool]
      split
      next hpres =>
        unfold boolPresent at hpres
        split at hpres
        · cases hpres
        · exact mem_of_mem_take (contains_iff_mem.mp hpres)
      next hpres =>
        split
        · exact mem_append_right _ (mem_singleton_self b)
        next hge =>
          have hcount : (findBool acc (.bool b)).1 = acc.1 + 1 := by
            simp only [findBool]
            rw [if_neg hpres, if_neg hge]
          omega
    · exact hmem hmax b hb

theorem length_findBools (e : CondExpr) : (findBools e).2.length = min (findBools e).1 condMaxBools :=
  (foldl_findBool_spec e rfl).1

theorem mem_findBools (h : (findBools e).1 ≤ condMaxBools) {b : Nat} (hb : CondExprNode.bool b ∈ e) : b ∈ (findBools e).2 :=
  (@foldl_findBool_spec e (0, []) rfl).2.2.2 h b hb

theorem testState_zero {state : Nat → Bool} {ids : List Nat} {b : Nat} (h : b ∈ ids) : testState state ids 0 b = false := by
  have hfold : ∀ (l : List (Nat × Nat)) (st : Nat → Bool), (st b = false ∨ ∃ j, (b, j) ∈ l) →
      l.foldl (fun st bj b => if b = bj.1 then (0 : Nat).testBit bj.2 else st b) st b = false := by
    intro l
    induction l with
    | nil => intro st hst; simpa using hst
    | cons x l ih =>
      intro st hst
      refine ih _ ?_
      by_cases hx : b = x.1
      · exact Or.inl (by simp [hx])
      · refine hst.imp (fun hf => by simp [hx, hf]) fun ⟨j, hj⟩ => ⟨j, ?_⟩
        exact (mem_cons.mp hj).resolve_left fun he => hx (by rw [← he])
  refine hfold _ _ (Or.inr ?_)
  obtain ⟨j, hj, rfl⟩ := getElem_of_mem h
  exact ⟨j, by simpa using mk_mem_zipIdx_iff_getElem?.mpr (List.getElem?_eq_getElem hj)⟩

/-- The table's bit for a test is the expression's value there. -/
theorem preCompute_spec {state : Nat → Bool} {ids : List Nat} {pre : BitVec 32} (hlen : ids.length ≤ condMaxBools)
    (h : preCompute state e ids = some pre) {test : Nat} (ht : test < 2 ^ ids.length) :
    condEvaluateExpr (testState state ids test) e = some (pre.getLsbD test) := by
  -- after `m` rounds the bits below `m` are the values and the others are clear
  have loop : ∀ m ≤ 32, ∀ pre, (List.range m).foldlM
      (fun acc test => (condEvaluateExpr (testState state ids test) e).map fun k =>
        if k then acc ||| 1#32 <<< test else acc) 0#32 = some pre →
      (∀ t < m, condEvaluateExpr (testState state ids t) e = some (pre.getLsbD t)) ∧ ∀ t, m ≤ t → pre.getLsbD t = false := by
    intro m hm
    induction m with
    | zero => intro pre h; cases h; simp
    | succ m ih =>
      intro pre h
      rw [range_succ, foldlM_append, Option.bind_eq_bind, Option.bind_eq_some_iff] at h
      obtain ⟨acc, hacc, hlast⟩ := h
      obtain ⟨hval, hclear⟩ := ih (by omega) acc hacc
      simp only [foldlM_cons, foldlM_nil, Option.bind_eq_bind, Option.pure_def, Option.bind_fun_some,
        Option.map_eq_some_iff] at hlast
      obtain ⟨k, hk, rfl⟩ := hlast
      have hbit : ∀ t, (if k then acc ||| 1#32 <<< m else acc).getLsbD t = (acc.getLsbD t || (k && decide (t = m))) := by
        cases k
        · simp
        · simp only [if_true, BitVec.getLsbD_or, BitVec.getLsbD_shiftLeft, BitVec.getLsbD_one, Bool.true_and]
          grind
      refine ⟨?_, ?_⟩
      · intro t ht
        rw [hbit]
        by_cases htm : t = m
        · rw [htm, hk, hclear m (Nat.le_refl _)]
          simp
        · rw [hval t (by omega)]
          simp [htm]
      · intro t ht
        rw [hbit, hclear t (by omega)]
        simp [show t ≠ m by omega]
  have h32 : 2 ^ ids.length ≤ 32 := Nat.pow_le_pow_right (by decide : 0 < 2) hlen
  exact (loop _ h32 pre h).1 test ht

/-- What `cond_normalize_expr` leaves: the booleans counted and the expression tabulated. -/
structure Normalized (n : CondNode) : Prop where
  nbools : n.nbools = (findBools n.expr).1
  boolIds : n.boolIds = (findBools n.expr).2
  table : n.nbools ≤ condMaxBools → ∃ state, preCompute state n.expr n.boolIds = some n.exprPreComp

theorem condTabulate_some {state : Nat → Bool} {cn cn' : CondNode} (h : condTabulate state cn = some cn') :
    Normalized cn' ∧ ∃ nbools boolIds pre,
      cn' = { cn with nbools := nbools, boolIds := boolIds, exprPreComp := pre } := by
  unfold condTabulate at h
  simp only at h
  split at h
  · obtain ⟨pre, hpre, rfl⟩ := Option.map_eq_some_iff.mp h
    exact ⟨⟨rfl, rfl, fun _ => ⟨state, hpre⟩⟩, _, _, _, rfl⟩
  next hmax =>
    cases h
    exact ⟨⟨rfl, rfl, fun hle => absurd hle hmax⟩, _, _, _, rfl⟩

/-- With all booleans false a tabulated expression is defined, and its value the table's first bit. -/
theorem Normalized.eval_false {n : CondNode} (h : Normalized n) (hmax : n.nbools ≤ condMaxBools) :
    condEvaluateExpr (fun _ => false) n.expr = some (n.exprPreComp.getLsbD 0) := by
  obtain ⟨state, hpre⟩ := h.table hmax
  have hlen : n.boolIds.length ≤ condMaxBools := by
    rw [h.boolIds, length_findBools]
    exact Nat.min_le_right _ _
  rw [← preCompute_spec hlen hpre (Nat.two_pow_pos _)]
  refine condEvaluateExpr_congr fun b hb => (testState_zero ?_).symm
  rw [h.boolIds]
  exact mem_findBools (by rw [← h.nbools]; exact hmax) hb

/-! ## Nodes -/

def sameBools (a b : CondNode) : Bool :=
  a.nbools == b.nbools && (a.boolIds.take a.nbools).all fun i => boolPresent i b.boolIds a.nbools

def condExprEqual (a b : CondNode) : Bool :=
  if a.nbools ≠ b.nbools then false
  else if a.nbools ≤ condMaxBools then sameBools a b && a.exprPreComp == b.exprPreComp
  else a.expr == b.expr

/-- `cond_node_create` of a copy, evaluated under `state`. -/
def condNodeCreate (id : Nat) (node : CondNode) : CondNode :=
  { id
    expr := node.expr
    curState := condEvaluateExpr state node.expr
    nbools := node.nbools
    boolIds := node.boolIds.take condMaxBools
    exprPreComp := node.exprPreComp
    flags := node.flags }

/-- `cond_node_search`: the node of the list with an equal expression, or a new one in
    front; the list and the node. A new node's id is the number of nodes before it. -/
def condNodeSearch (list : List CondNode) (cn : CondNode) : List CondNode × CondNode :=
  match list.find? (condExprEqual cn) with
  | some n => (list, n)
  | none => (condNodeCreate state list.length cn :: list, condNodeCreate state list.length cn)

/-- Nodes that compare equal are defined together and agree when every boolean is false. -/
theorem eval_of_condExprEqual {a b : CondNode} (ha : Normalized a) (hb : Normalized b) (h : condExprEqual a b = true) :
    condEvaluateExpr (fun _ => false) a.expr = condEvaluateExpr (fun _ => false) b.expr := by
  unfold condExprEqual at h
  split at h
  · cases h
  rename_i hn
  have hnb : a.nbools = b.nbools := Decidable.not_not.mp hn
  split at h
  next hmax =>
    simp only [Bool.and_eq_true, beq_iff_eq] at h
    rw [ha.eval_false hmax, hb.eval_false (hnb ▸ hmax), h.2]
  · rw [beq_iff_eq.mp h]

theorem Normalized.create {n : CondNode} (h : Normalized n) (state : Nat → Bool) (id : Nat) :
    Normalized (condNodeCreate state id n) := by
  have hlen : n.boolIds.take condMaxBools = n.boolIds := by
    refine take_of_length_le ?_
    rw [h.boolIds, length_findBools]
    exact Nat.min_le_right _ _
  exact ⟨h.nbools, by simp only [condNodeCreate, hlen]; exact h.boolIds,
    fun hmax => by simpa only [condNodeCreate, hlen] using h.table hmax⟩

/-- The node a temporary is matched with: one that was there and compares equal, or its copy. -/
theorem condNodeSearch_cases (list : List CondNode) (tmp : CondNode) :
    (∃ n ∈ list, list.find? (condExprEqual tmp) = some n ∧ condExprEqual tmp n = true ∧
        condNodeSearch state list tmp = (list, n)) ∨
      (list.find? (condExprEqual tmp) = none ∧
        condNodeSearch state list tmp =
          (condNodeCreate state list.length tmp :: list, condNodeCreate state list.length tmp)) := by
  unfold condNodeSearch
  cases hf : list.find? (condExprEqual tmp) with
  | some n => exact Or.inl ⟨n, mem_of_find?_eq_some hf, rfl, List.find?_some hf, rfl⟩
  | none => exact Or.inr ⟨rfl, rfl⟩

/-- Move to the front the rules of types met after the first element, one by one. -/
def condOptimize (isType : Nat → Bool) : List Nat → List Nat
  | [] => []
  | x :: l => (l.filter isType).reverse ++ x :: l.filter fun i => !isType i

/-! ## Turning rules on and off -/

def withEnabled (specified : BitVec 16) (on : Bool) : BitVec 16 :=
  if on then specified ||| avtabEnabled else specified &&& ~~~avtabEnabled

def AvtabNode.enabled (n : AvtabNode) : Bool := n.key.specified &&& avtabEnabled != 0#16

theorem withEnabled_meets (s : BitVec 16) (on : Bool) : (withEnabled s on &&& avtabEnabled != 0#16) = on := by
  cases on
  · have h : (s &&& ~~~avtabEnabled) &&& avtabEnabled = 0#16 := by
      rw [BitVec.and_assoc, show ~~~avtabEnabled &&& avtabEnabled = 0#16 from rfl, BitVec.and_zero]
    simp [withEnabled, h]
  · have h : (s ||| avtabEnabled) &&& avtabEnabled ≠ 0#16 :=
      (Lib.Bits.and_ne_zero_iff _ _).mpr ⟨15, by rw [BitVec.getLsbD_or]; simp [avtabEnabled], by decide⟩
    simp [withEnabled, h]

/-- A write that sets the flag leaves a node of the same id and owner with that flag. -/
theorem exists_mem_update {h : Avtab} {n : AvtabNode} (hn : n ∈ h.nodes) (on : Bool) (f : AvtabDatum → AvtabDatum) :
    ∃ m ∈ (h.update n.id fun s d => (withEnabled s on, f d)).nodes,
      m.id = n.id ∧ m.parseContext = n.parseContext ∧ m.enabled = on := by
  refine ⟨_, mem_nodes_update.mpr ⟨n, hn, rfl⟩, writeId_id _ _ _, writeId_parseContext _ _ _, ?_⟩
  unfold writeId AvtabNode.enabled
  rw [if_pos rfl]
  exact withEnabled_meets n.key.specified on

/-- A write leaves every node of another id as it is. -/
theorem mem_update_of_ne {h : Avtab} {m : AvtabNode} (hm : m ∈ h.nodes) {id : Nat} (hne : m.id ≠ id) (f) :
    m ∈ (h.update id f).nodes :=
  mem_nodes_update.mpr ⟨m, hm, by rw [writeId, if_neg hne]⟩

def Avtab.setEnabled (h : Avtab) (id : Nat) (on : Bool) : Avtab := h.update id fun s d => (withEnabled s on, d)

def evaluateCondNode (tab : Avtab) (node : CondNode) : Avtab × CondNode :=
  let newState := condEvaluateExpr state node.expr
  if newState ≠ node.curState then
    let tab := node.trueList.foldl (fun t id => t.setEnabled id (newState == some true)) tab
    let tab := node.falseList.foldl (fun t id => t.setEnabled id (newState == some false)) tab
    (tab, { node with curState := newState })
  else (tab, node)

def evaluateCondList (state : Nat → Bool) (tab : Avtab) : List CondNode → Avtab × List CondNode
  | [] => (tab, [])
  | n :: l =>
    let r := evaluateCondNode state tab n
    let rest := evaluateCondList state r.1 l
    (rest.1, r.2 :: rest.2)

def evaluateConds (p : Policydb) : Policydb :=
  let r := evaluateCondList p.boolState p.teCondAvtab p.condList
  { p with teCondAvtab := r.1, condList := r.2 }

end SELinux.Db
