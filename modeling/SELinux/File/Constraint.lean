/-
  SELinux.File.Constraint — the constraints of a class in a policy file
  (`libsepol/src/policydb.c`: `type_set_read`, `read_cons_helper`; `write.c`: `type_set_write`,
  `write_cons_helper`).

  An expression is its elements in reverse Polish notation. The reader follows the depth of the
  stack that its evaluation takes, and refuses an expression that takes more than
  `CEXPR_MAXDEPTH` values, or does not leave one.

  Values of the file are `uint32_t` words. `Header` has what the readers and the writers ask the
  policy for: its type, version and target, and whether it is an MLS policy.

  Proved: `readConstraint_iff`, a constraint that was written is read back exactly when the
  depth of its stack is right and its elements can be counted in 32 bits.
-/
import SELinux.Db.Types
import SELinux.File.Ebitmap

namespace SELinux.File

open Lib Lib.Wire List

abbrev U32 := BitVec 32

def u32 : Reader U32 := word 32

theorem reads_u32 (x : U32) : Reads u32 (putWord x) x := reads_word (by decide) x

/-- `SEPOL_POLICY_KERN`, `SEPOL_POLICY_BASE` and `SEPOL_POLICY_MOD`. -/
inductive PolicyType
  | kern
  | base
  | mod
  deriving DecidableEq, Repr

inductive Target
  | selinux
  | xen
  deriving DecidableEq, Repr

structure Header where
  policyType : PolicyType
  policyvers : Nat
  target : Target := .selinux
  mls : Bool := false
  deriving DecidableEq, Repr

variable (h : Header)

/-- A kernel policy of this version or a later one. -/
def Header.kernAt (vers : Nat) : Bool := h.policyType == .kern && decide (vers ≤ h.policyvers)

/-- A base policy of this version or a later one. -/
def Header.baseAt (vers : Nat) : Bool := h.policyType == .base && decide (vers ≤ h.policyvers)

/-- A base policy or a module of this version or a later one. -/
def Header.moduleAt (vers : Nat) : Bool := h.policyType != .kern && decide (vers ≤ h.policyvers)

def policydbVersionConstraintNames : Nat := 29

/-! ## Type sets -/

structure TypeSet where
  types : FileBitmap := FileBitmap.empty
  negset : FileBitmap := FileBitmap.empty
  flags : U32 := 0#32

def typeSetRead : Reader TypeSet := do
  let types ← FileBitmap.read
  let negset ← FileBitmap.read
  let flags ← u32
  return { types, negset, flags }

def typeSetWrite (t : TypeSet) : Bytes := t.types.write ++ (t.negset.write ++ putWord t.flags)

theorem reads_typeSet (t : TypeSet) : Reads typeSetRead (typeSetWrite t) t := by
  unfold typeSetRead typeSetWrite
  exact t.types.reads.bind (t.negset.reads.bind ((reads_u32 t.flags).bind (Reads.pure t)))

/-! ## Expressions -/

def cexprNot : U32 := 1#32
def cexprAnd : U32 := 2#32
def cexprOr : U32 := 3#32
def cexprAttr : U32 := 4#32
def cexprNames : U32 := 5#32
def cexprXtarget : U32 := 16#32

/-- What an element does to the depth of the stack. -/
def exprShape (exprType : U32) : Option Rpn.Shape :=
  if exprType = cexprNot then some .un
  else if exprType = cexprAnd ∨ exprType = cexprOr then some .bin
  else if exprType = cexprAttr ∨ exprType = cexprNames then some .push
  else none

/-- `constraint_expr_t`; only `CEXPR_NAMES` has the sets. -/
structure ConstraintExpr where
  exprType : U32
  attr : U32 := 0#32
  op : U32 := 0#32
  names : FileBitmap := FileBitmap.empty
  typeNames : TypeSet := {}

structure ConstraintNode where
  permissions : U32
  expr : List ConstraintExpr

/-- The version has the names of the types next to their values. -/
def hasTypeNames : Bool := h.policyType != .kern || h.kernAt policydbVersionConstraintNames

def readTypeNames : Reader TypeSet := if hasTypeNames h then typeSetRead else pure {}

/-- The sets of an element, which only `CEXPR_NAMES` has. -/
def readNameSets (exprType : U32) : Reader (FileBitmap × TypeSet) :=
  if exprType = cexprNames then do
    let names ← FileBitmap.read
    let typeNames ← readTypeNames h
    return (names, typeNames)
  else pure (FileBitmap.empty, {})

/-- One round of the loop over an expression; `depth` is the code's `depth + 1`. -/
def readConstraintExpr (allowxtarget : Bool) (st : List ConstraintExpr × Nat) : Reader (List ConstraintExpr × Nat) := do
  let exprType ← u32
  let attr ← u32
  let op ← u32
  let shape ← ofOption (exprShape exprType)
  check (exprType != cexprNames || allowxtarget || attr &&& cexprXtarget == 0#32)
  let depth ← ofOption (Rpn.depthStep Db.cexprMaxdepth st.2 shape)
  let sets ← readNameSets h exprType
  let e : ConstraintExpr := { exprType, attr, op, names := sets.1, typeNames := sets.2 }
  return (st.1 ++ [e], depth)

/-- One constraint of `read_cons_helper`. -/
def readConstraint (allowxtarget : Bool) : Reader ConstraintNode := do
  let permissions ← u32
  let nexpr ← u32
  let (expr, depth) ← loop (readConstraintExpr h allowxtarget) nexpr.toNat ([], 0)
  check (decide (depth = 1))
  return { permissions, expr }

def readConsHelper (allowxtarget : Bool) (ncons : Nat) : Reader (List ConstraintNode) :=
  times (readConstraint h allowxtarget) ncons

def writeNameSets (e : ConstraintExpr) : Bytes :=
  if e.exprType = cexprNames then e.names.write ++ (if hasTypeNames h then typeSetWrite e.typeNames else []) else []

def ConstraintExpr.bytes (e : ConstraintExpr) : Bytes :=
  putWord e.exprType ++ (putWord e.attr ++ (putWord e.op ++ writeNameSets h e))

def ConstraintNode.bytes (c : ConstraintNode) : Bytes :=
  putWord c.permissions ++ (putNum 32 c.expr.length ++ c.expr.flatMap (ConstraintExpr.bytes h))

/-- The third context, outside a rule that has one. -/
def ConstraintExpr.xtarget (e : ConstraintExpr) : Bool := e.exprType == cexprNames && e.attr &&& cexprXtarget != 0#32

def writeConsHelper (allowxtarget : Bool) (l : List ConstraintNode) : Option Bytes :=
  if !allowxtarget && l.any (·.expr.any ConstraintExpr.xtarget) then none else some (l.flatMap (ConstraintNode.bytes h))

/-! ## Reading back -/

/-- What a version keeps of the sets of an element. -/
def ConstraintExpr.sets (e : ConstraintExpr) : FileBitmap × TypeSet :=
  if e.exprType = cexprNames then (e.names, if hasTypeNames h then e.typeNames else {}) else (FileBitmap.empty, {})

def ConstraintExpr.kept (e : ConstraintExpr) : ConstraintExpr :=
  { e with names := (e.sets h).1, typeNames := (e.sets h).2 }

/-- One element of what was written: the elements read so far, and the depth. -/
def keepExpr (st : List ConstraintExpr × Nat) (e : ConstraintExpr) : Option (List ConstraintExpr × Nat) :=
  (exprShape e.exprType).bind fun shape => (Rpn.depthStep Db.cexprMaxdepth st.2 shape).map fun d => (st.1 ++ [e.kept h], d)

theorem reads_nameSets (e : ConstraintExpr) : Reads (readNameSets h e.exprType) (writeNameSets h e) (e.sets h) := by
  unfold readNameSets writeNameSets ConstraintExpr.sets readTypeNames
  split
  · refine e.names.reads.bind ?_
    split
    · rw [← append_nil (typeSetWrite e.typeNames)]
      exact (reads_typeSet e.typeNames).bind (Reads.pure _)
    · exact (Reads.pure _).andThen (Reads.pure _)
  · exact Reads.pure _

variable {allowxtarget : Bool}

/-- An element that was written is read back when its depth is right. -/
theorem readConstraintExpr_eq (st : List ConstraintExpr × Nat) {e : ConstraintExpr}
    (hx : allowxtarget = false → e.xtarget = false) (rest : Bytes) :
    readConstraintExpr h allowxtarget st (e.bytes h ++ rest) = (keepExpr h st e).map (·, rest) := by
  have hcheck : (e.exprType != cexprNames || allowxtarget || e.attr &&& cexprXtarget == 0#32) = true := by
    unfold ConstraintExpr.xtarget at hx
    cases allowxtarget with
    | true => simp
    | false =>
      have hx := hx rfl
      rw [Bool.and_eq_false_iff] at hx
      rcases hx with hx | hx
      · simp [bne, hx]
      · rw [bne_eq_false_iff_eq] at hx
        simp [hx]
  unfold readConstraintExpr ConstraintExpr.bytes keepExpr
  simp only [append_assoc]
  rw [(reads_u32 e.exprType).bind_eq, (reads_u32 e.attr).bind_eq, (reads_u32 e.op).bind_eq, ofOption_bind_eq]
  cases exprShape e.exprType with
  | none => rfl
  | some shape =>
    rw [Option.bind_some, Option.bind_some, check_bind_eq hcheck, ofOption_bind_eq]
    cases Rpn.depthStep Db.cexprMaxdepth st.2 shape with
    | none => rfl
    | some depth =>
      rw [Option.bind_some, (reads_nameSets h e).bind_eq]
      rfl

/-- The depth of the stack that an expression takes. -/
def exprDepth (expr : List ConstraintExpr) : Option Nat :=
  (expr.mapM fun e => exprShape e.exprType).bind fun shapes => Rpn.depth Db.cexprMaxdepth shapes 0

theorem foldlM_keepExpr (l : List ConstraintExpr) (st : List ConstraintExpr × Nat) :
    l.foldlM (keepExpr h) st =
      (l.mapM fun e => exprShape e.exprType).bind fun shapes =>
        (Rpn.depth Db.cexprMaxdepth shapes st.2).map fun d => (st.1 ++ l.map (ConstraintExpr.kept h), d) := by
  induction l generalizing st with
  | nil => simp [Rpn.depth]
  | cons e l ih =>
    rw [foldlM_cons, mapM_cons, keepExpr]
    cases exprShape e.exprType with
    | none => rfl
    | some shape =>
      cases hd : Rpn.depthStep Db.cexprMaxdepth st.2 shape with
      | none =>
        cases hm : l.mapM fun e => exprShape e.exprType with
        | none => simp [hd]
        | some shapes => simp [hd, Rpn.depth]
      | some d =>
        simp only [Option.bind_eq_bind, Option.bind_some, hd, Option.map_some]
        rw [ih]
        cases hm : l.mapM fun e => exprShape e.exprType with
        | none => rfl
        | some shapes => simp [Rpn.depth, hd]

/-- What is read of a constraint that was written: as many elements as its count says, if they
    leave one value on a stack of `CEXPR_MAXDEPTH`. -/
theorem readConstraint_eq {c : ConstraintNode} (hx : allowxtarget = false → ∀ e ∈ c.expr, e.xtarget = false) (rest : Bytes) :
    readConstraint h allowxtarget (c.bytes h ++ rest) =
      if exprDepth (c.expr.take (c.expr.length % 2 ^ 32)) = some 1 then
        some ({ c with expr := (c.expr.take (c.expr.length % 2 ^ 32)).map (ConstraintExpr.kept h) },
          (c.expr.drop (c.expr.length % 2 ^ 32)).flatMap (ConstraintExpr.bytes h) ++ rest)
      else none := by
  have hn : c.expr.length % 2 ^ 32 ≤ c.expr.length := Nat.mod_le _ _
  generalize hcount : c.expr.length % 2 ^ 32 = n at hn
  have hsplit : c.expr.flatMap (ConstraintExpr.bytes h) ++ rest =
      (c.expr.take n).flatMap (ConstraintExpr.bytes h) ++ ((c.expr.drop n).flatMap (ConstraintExpr.bytes h) ++ rest) := by
    rw [← append_assoc, ← flatMap_append, take_append_drop]
  have hloop := loop_eq (fun st e he rest => readConstraintExpr_eq h st (fun hno => hx hno e (mem_of_mem_take he)) rest)
    (l := c.expr.take n) ([], 0) ((c.expr.drop n).flatMap (ConstraintExpr.bytes h) ++ rest)
  rw [foldlM_keepExpr, length_take_of_le hn] at hloop
  unfold readConstraint ConstraintNode.bytes exprDepth
  simp only [append_assoc]
  rw [(reads_u32 c.permissions).bind_eq, putNum, (reads_u32 _).bind_eq, BitVec.toNat_ofNat, hcount, hsplit]
  rw [bind_apply, hloop]
  cases hm : (c.expr.take n).mapM fun e => exprShape e.exprType with
  | none => rfl
  | some shapes =>
    rw [Option.bind_some, Option.bind_some]
    cases hd : Rpn.depth Db.cexprMaxdepth shapes 0 with
    | none => rfl
    | some d =>
      by_cases h1 : d = 1
      · rw [if_pos (congrArg some h1)]
        show (check (decide (d = 1)) >>= _) _ = _
        rw [check_bind_eq (decide_eq_true h1)]
        rfl
      · rw [if_neg (fun h => h1 (Option.some.inj h))]
        show (check (decide (d = 1)) >>= _) _ = none
        rw [decide_eq_false h1]
        rfl

theorem ConstraintExpr.bytes_ne_nil (e : ConstraintExpr) : e.bytes h ≠ [] := by
  have hlen : (putWord e.exprType).length = 4 := rfl
  intro hnil
  have := congrArg List.length hnil
  rw [ConstraintExpr.bytes, length_append, length_nil] at this
  omega

/-- A constraint that was written is read back exactly when its expression leaves one value, on a
    stack of `CEXPR_MAXDEPTH`, and its elements can be counted. -/
theorem readConstraint_iff {c : ConstraintNode} (hx : allowxtarget = false → ∀ e ∈ c.expr, e.xtarget = false)
    (rest : Bytes) (c' : ConstraintNode) : readConstraint h allowxtarget (c.bytes h ++ rest) = some (c', rest) ↔
      exprDepth c.expr = some 1 ∧ c.expr.length < 2 ^ 32 ∧ c' = { c with expr := c.expr.map (ConstraintExpr.kept h) } := by
  rw [readConstraint_eq h hx]
  by_cases hlen : c.expr.length < 2 ^ 32
  · rw [Nat.mod_eq_of_lt hlen, take_length, drop_length]
    constructor
    · intro heq
      split_ifs at heq with hdepth
      cases heq
      exact ⟨hdepth, hlen, rfl⟩
    · rintro ⟨hdepth, -, rfl⟩
      rw [if_pos hdepth]
      rfl
  · constructor
    · intro heq
      -- the count wrapped, so elements are left unread
      split_ifs at heq
      have hrest := (Prod.mk.inj (Option.some.inj heq)).2
      have hnil := append_left_eq_self.mp hrest
      have hlt : c.expr.length % 2 ^ 32 < c.expr.length :=
        Nat.lt_of_lt_of_le (Nat.mod_lt _ (by decide)) (Nat.le_of_not_lt hlen)
      rw [drop_eq_getElem_cons hlt] at hnil
      exact absurd (append_eq_nil_iff.mp hnil).1 (ConstraintExpr.bytes_ne_nil h _)
    · rintro ⟨-, h', -⟩
      exact absurd h' hlen

end SELinux.File
