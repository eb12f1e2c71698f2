/-
  SELinux.Cil.Expr — expressions of the CIL compiler (`libsepol/cil/src/cil_build_ast.c`:
  `__cil_fill_expr_helper`, `__cil_fill_expr`, `cil_gen_expr`; `cil_verify.c`:
  `__cil_verify_syntax`, `cil_verify_expr_syntax`; `cil_resolve_ast.c`: `cil_resolve_expr`).

  The parser leaves a tree of strings and lists. `cilGenExpr` checks it and makes an
  expression of it: a list whose first item may be an operator. `cilResolveExpr` replaces the
  names by what they are declared as.

  The depth of a boolean expression is counted on the way. A plain list adds one when it is
  entered and takes one off when it is left; an operator only takes one off.
-/
import SELinux.Db.Conditional

namespace SELinux.Cil

open Db List Option

/-- A node of the parser: a string, or the list between two parentheses. -/
inductive Sexp
  | atom (data : Name)
  | list (items : List Sexp)

/-- What holds of strings, and of a list when it holds of its items, holds of every node. -/
theorem Sexp.induct {P : Sexp → Prop} (atom : ∀ data, P (.atom data)) (list : ∀ items, (∀ x ∈ items, P x) → P (.list items))
    (s : Sexp) : P s :=
  @Sexp.rec P (fun l => ∀ x ∈ l, P x) atom list (forall_mem_nil _)
    (fun _ _ hx hl => forall_mem_cons.mpr ⟨hx, hl⟩) s

/-! ## Syntax -/

/-- `enum cil_syntax`: a set of flags. -/
structure Syn where
  string : Bool := false
  list : Bool := false
  emptyList : Bool := false
  nStrings : Bool := false
  nLists : Bool := false
  stop : Bool := false

/-- A node that a repeated element takes. -/
def Syn.takes (s : Syn) : Sexp → Bool
  | .atom _ => s.nStrings
  | .list (_ :: _) => s.nLists
  | .list [] => false

def Syn.fits (s : Syn) : Sexp → Bool
  | .atom _ => s.string
  | .list (_ :: _) => s.list
  | .list [] => s.emptyList

/-- `__cil_verify_syntax`. `numExtras` counts what the repeated elements took, over all of them. -/
def cilVerifySyntax (numExtras : Nat) : List Syn → List Sexp → Bool
  | [], _ => true
  | s :: ss, c =>
    let extras := numExtras + (c.takeWhile s.takes).length
    match c.dropWhile s.takes with
    | [] =>
      if s.stop then true
      else if s.nLists || s.nStrings then decide (0 < extras) && cilVerifySyntax extras ss []
      else false
    | x :: cs => s.fits x && cilVerifySyntax extras ss cs

/-- An element that is not repeated. -/
theorem cilVerifySyntax_cons {s : Syn} (hs : s.nStrings = false) (hl : s.nLists = false) (n : Nat) (ss : List Syn)
    (c : List Sexp) :
    cilVerifySyntax n (s :: ss) c =
      match c with
      | [] => s.stop
      | x :: cs => s.fits x && cilVerifySyntax n ss cs := by
  have htakes : ∀ x, s.takes x = false := by
    intro x
    match x with
    | .atom _ => exact hs
    | .list [] => rfl
    | .list (_ :: _) => exact hl
  rw [cilVerifySyntax]
  cases c with
  | nil => simp [hs, hl]
  | cons x cs => simp [htakes]

inductive ExprOp
  | and
  | or
  | not
  | eq
  | neq
  | xor
  | all
  | range
  deriving DecidableEq, Repr

def ExprOp.apply : ExprOp → Bool → Bool → Bool
  | .and, a, b => a && b
  | .or, a, b => a || b
  | .xor, a, b => a ^^ b
  | .eq, a, b => a == b
  | .neq, a, b => a != b
  | _, _, _ => false

/-- What an expression is about. -/
inductive ExprFlavor
  | bool
  | tunable
  | type
  | role
  | user
  | cat
  | permissionx
  deriving DecidableEq, Repr

variable {x : Sexp} {depth depth' : Int} {xs : List Sexp} {flavor : ExprFlavor} {c : List Sexp}

/-- `__cil_get_expr_operator_flavor` of a node's string; `none` is CIL_NONE. -/
def cilGetExprOperatorFlavor : Sexp → Option ExprOp
  | .list _ => none
  | .atom op =>
    if op = "and".toList then some .and
    else if op = "or".toList then some .or
    else if op = "not".toList then some .not
    else if op = "eq".toList then some .eq
    else if op = "neq".toList then some .neq
    else if op = "xor".toList then some .xor
    else if op = "all".toList then some .all
    else if op = "range".toList then some .range
    else none

def synString : Syn := { string := true }
def synOperand : Syn := { string := true, list := true }
def synEnd : Syn := { stop := true }
def synItems : Syn := { nStrings := true, nLists := true }

def cilVerifyExprSyntax (current : List Sexp) (flavor : ExprFlavor) : Option ExprOp → Bool
  | some .not => cilVerifySyntax 0 [synString, synOperand, synEnd] current
  | some .and | some .or | some .xor => cilVerifySyntax 0 [synString, synOperand, synOperand, synEnd] current
  | some .eq | some .neq =>
    (flavor == .bool || flavor == .tunable) && cilVerifySyntax 0 [synString, synOperand, synOperand, synEnd] current
  | some .all => flavor != .bool && flavor != .tunable && cilVerifySyntax 0 [synString, synEnd] current
  | some .range =>
    (flavor == .cat || flavor == .permissionx) && cilVerifySyntax 0 [synString, synString, synString, synEnd] current
  | none => cilVerifySyntax 0 [synItems, synEnd] current

theorem one_operand (hc : cilVerifySyntax 0 [synString, synOperand, synEnd] (x :: c) = true) : ∃ a, c = [a] := by
  match c with
  | [] => simp [cilVerifySyntax_cons, synString, synOperand, synEnd] at hc
  | [a] => exact ⟨a, rfl⟩
  | a :: b :: c =>
    cases b with
    | atom _ => simp [cilVerifySyntax_cons, synString, synOperand, synEnd, Syn.fits] at hc
    | list l => cases l <;> simp [cilVerifySyntax_cons, synString, synOperand, synEnd, Syn.fits] at hc

theorem two_operands (hc : cilVerifySyntax 0 [synString, synOperand, synOperand, synEnd] (x :: c) = true) :
    ∃ a b, c = [a, b] := by
  match c with
  | [] => simp [cilVerifySyntax_cons, synString, synOperand, synEnd] at hc
  | [a] => simp [cilVerifySyntax_cons, synString, synOperand, synEnd] at hc
  | [a, b] => exact ⟨a, b, rfl⟩
  | a :: b :: d :: c =>
    cases d with
    | atom _ => simp [cilVerifySyntax_cons, synString, synOperand, synEnd, Syn.fits] at hc
    | list l => cases l <;> simp [cilVerifySyntax_cons, synString, synOperand, synEnd, Syn.fits] at hc

theorem no_operand (hc : cilVerifySyntax 0 [synString, synEnd] (x :: c) = true) : c = [] := by
  match c with
  | [] => rfl
  | b :: c =>
    cases b with
    | atom _ => simp [cilVerifySyntax_cons, synString, synEnd, Syn.fits] at hc
    | list l => cases l <;> simp [cilVerifySyntax_cons, synString, synEnd, Syn.fits] at hc

/-- The operands of an operator of a boolean expression. -/
theorem operands_of_verify {op : ExprOp} (h : cilVerifyExprSyntax (x :: xs) .bool (some op) = true) :
    (op = .not ∧ ∃ a, xs = [a]) ∨ (op ≠ .not ∧ ∃ a b, xs = [a, b]) := by
  cases op with
  | not => exact Or.inl ⟨rfl, one_operand h⟩
  | and | or | xor | eq | neq => exact Or.inr ⟨by decide, two_operands h⟩
  | all | range => cases h

/-! ## Expressions -/

/-- An item of an expression: `leaf` is a string, and after the resolution a datum. -/
inductive ExprItem (α : Type)
  | op (op : ExprOp)
  | leaf (a : α)
  | list (items : List (ExprItem α))

theorem ExprItem.induct {α : Type} {P : ExprItem α → Prop} (op : ∀ o, P (.op o)) (leaf : ∀ a, P (.leaf a))
    (list : ∀ items, (∀ x ∈ items, P x) → P (.list items)) (x : ExprItem α) : P x :=
  @ExprItem.rec α P (fun l => ∀ x ∈ l, P x) op leaf list (forall_mem_nil _)
    (fun _ _ hx hl => forall_mem_cons.mpr ⟨hx, hl⟩) x

/-- The part of `__cil_fill_expr_helper` in front of its loop: the operator, and the depth. -/
def cilOpenExpr (flavor : ExprFlavor) (current : List Sexp) (depth : Int) : Option (Option ExprOp × Int) :=
  if flavor = .bool ∧ (condExprMaxdepth : Int) < depth then none
  else
    let op := current.head?.bind cilGetExprOperatorFlavor
    if cilVerifyExprSyntax current flavor op then
      some (op, if op = none ∨ op = some .all then depth + 1 else depth)
    else none

mutual

/-- `__cil_fill_expr`, with `__cil_fill_expr_helper` for a list. `()` is taken for a string
    that is NULL. -/
def cilFillExpr (flavor : ExprFlavor) : Sexp → Int → Option (ExprItem (Option Name) × Int)
  | .atom data, depth =>
    if (cilGetExprOperatorFlavor (.atom data)).isSome then none else some (.leaf (some data), depth)
  | .list [], depth => some (.leaf none, depth)
  | .list (x :: xs), depth =>
    match cilOpenExpr flavor (x :: xs) depth with
    | none => none
    | some (none, depth) => (cilFillItems flavor (x :: xs) depth).map fun r => (.list r.1, r.2 - 1)
    | some (some op, depth) => (cilFillItems flavor xs depth).map fun r => (.list (.op op :: r.1), r.2 - 1)

/-- The loop of `__cil_fill_expr_helper`. -/
def cilFillItems (flavor : ExprFlavor) : List Sexp → Int → Option (List (ExprItem (Option Name)) × Int)
  | [], depth => some ([], depth)
  | x :: xs, depth =>
    match cilFillExpr flavor x depth with
    | none => none
    | some (item, depth) => (cilFillItems flavor xs depth).map fun r => (item :: r.1, r.2)

end

theorem cilOpenExpr_inv {depth d : Int} {op : Option ExprOp} (h : cilOpenExpr flavor (x :: xs) depth = some (op, d)) :
    cilGetExprOperatorFlavor x = op ∧ cilVerifyExprSyntax (x :: xs) flavor op = true := by
  unfold cilOpenExpr at h
  split at h
  · cases h
  · by_cases hverify : cilVerifyExprSyntax (x :: xs) flavor (cilGetExprOperatorFlavor x) = true
    · rw [List.head?_cons, bind_some, if_pos hverify] at h
      cases h
      exact ⟨rfl, hverify⟩
    · rw [List.head?_cons, bind_some, if_neg hverify] at h
      cases h

variable {item : ExprItem (Option Name)}

/-- What an accepted list is: items without an operator, or an operator and its operands. -/
theorem cilFillExpr_list_inv (h : cilFillExpr flavor (.list (x :: xs)) depth = some (item, depth')) :
    (cilGetExprOperatorFlavor x = none ∧ ∃ items d d', cilFillItems flavor (x :: xs) d = some (items, d') ∧
      item = .list items) ∨
      ∃ op, cilGetExprOperatorFlavor x = some op ∧ cilVerifyExprSyntax (x :: xs) flavor (some op) = true ∧
        ∃ items d d', cilFillItems flavor xs d = some (items, d') ∧ item = .list (.op op :: items) := by
  rw [cilFillExpr] at h
  split at h
  · cases h
  next d hopen =>
    obtain ⟨⟨items, d'⟩, hitems, heq⟩ := map_eq_some_iff.mp h
    cases heq
    exact Or.inl ⟨(cilOpenExpr_inv hopen).1, items, _, d', hitems, rfl⟩
  next op d hopen =>
    obtain ⟨⟨items, d'⟩, hitems, heq⟩ := map_eq_some_iff.mp h
    cases heq
    obtain ⟨hop, hverify⟩ := cilOpenExpr_inv hopen
    exact Or.inr ⟨op, hop, hverify, items, _, d', hitems, rfl⟩

/-- A filled item is a string or a list. -/
theorem cilFillExpr_ne_op (h : cilFillExpr flavor x depth = some (item, depth')) (op : ExprOp) : item ≠ .op op := by
  intro heq
  subst heq
  match x with
  | .atom data =>
    rw [cilFillExpr] at h
    split at h <;> cases h
  | .list [] =>
    cases h
  | .list (y :: ys) =>
    rcases cilFillExpr_list_inv h with ⟨-, _, _, _, -, hitem⟩ | ⟨_, -, -, _, _, _, -, hitem⟩ <;> cases hitem

variable {items : List (ExprItem (Option Name))}

theorem cilFillItems_cons_inv (h : cilFillItems flavor (x :: xs) depth = some (items, depth')) :
    ∃ item rest d, cilFillExpr flavor x depth = some (item, d) ∧ cilFillItems flavor xs d = some (rest, depth') ∧
      items = item :: rest := by
  rw [cilFillItems] at h
  split at h
  · cases h
  next item d hx =>
    obtain ⟨⟨rest, d'⟩, hrest, heq⟩ := map_eq_some_iff.mp h
    cases heq
    exact ⟨item, rest, d, hx, hrest, rfl⟩

/-- `cil_gen_expr`: a string is a list of one item. -/
def cilGenExpr (flavor : ExprFlavor) (current : Sexp) : Option (List (ExprItem (Option Name))) :=
  match cilFillExpr flavor current 0 with
  | some (.list items, _) => some items
  | some (item, _) => some [item]
  | none => none

variable {δ : Type}

mutual

/-- One item of `cil_resolve_expr`; `resolve` is `cil_resolve_name` where the expression stands. -/
def cilResolveItem (resolve : Name → Option δ) : ExprItem (Option Name) → Option (ExprItem δ)
  | .op op => some (.op op)
  | .leaf none => none
  | .leaf (some name) => (resolve name).map .leaf
  | .list items => (cilResolveExpr resolve items).map .list

def cilResolveExpr (resolve : Name → Option δ) : List (ExprItem (Option Name)) → Option (List (ExprItem δ))
  | [] => some []
  | item :: items =>
    match cilResolveItem resolve item with
    | none => none
    | some d => (cilResolveExpr resolve items).map (d :: ·)

end

theorem resolved_ne_op {resolve : Name → Option δ} {d : ExprItem δ} (hitem : ∀ op, item ≠ .op op)
    (h : cilResolveItem resolve item = some d) (op : ExprOp) : d ≠ .op op := by
  intro heq
  subst heq
  match item with
  | .op op' => exact hitem op' rfl
  | .leaf none => rw [cilResolveItem] at h; cases h
  | .leaf (some name) =>
    obtain ⟨_, -, hd⟩ := map_eq_some_iff.mp h
    cases hd
  | .list items =>
    obtain ⟨_, -, hd⟩ := map_eq_some_iff.mp h
    cases hd

theorem cilResolveExpr_cons_inv {resolve : Name → Option δ} {r : List (ExprItem δ)}
    (h : cilResolveExpr resolve (item :: items) = some r) :
    ∃ d ds, cilResolveItem resolve item = some d ∧ cilResolveExpr resolve items = some ds ∧ r = d :: ds := by
  rw [cilResolveExpr] at h
  split at h
  · cases h
  next d hi =>
    obtain ⟨ds, hds, rfl⟩ := map_eq_some_iff.mp h
    exact ⟨d, ds, hi, hds, rfl⟩

/-! ## What a statement becomes -/

section

variable {flavor : ExprFlavor} {resolve : Name → Option δ} {Q : ExprItem δ → Prop}

/-- A string becomes what it is resolved to. -/
theorem filled_atom {name : Name} {d : ExprItem δ} (hfill : cilFillExpr flavor (.atom name) depth = some (item, depth'))
    (hres : cilResolveItem resolve item = some d) : ∃ e, resolve name = some e ∧ d = .leaf e := by
  rw [cilFillExpr] at hfill
  split at hfill
  · cases hfill
  · cases hfill
    obtain ⟨e, he, rfl⟩ := map_eq_some_iff.mp hres
    exact ⟨e, he, rfl⟩

/-- The node is only accepted for an item of `Q`. -/
def FillsTo (flavor : ExprFlavor) (resolve : Name → Option δ) (Q : ExprItem δ → Prop) (x : Sexp) : Prop :=
  ∀ depth depth' item d, cilFillExpr flavor x depth = some (item, depth') → cilResolveItem resolve item = some d → Q d

theorem filled_items (hxs : ∀ x ∈ xs, FillsTo flavor resolve Q x) {ds : List (ExprItem δ)}
    (hfill : cilFillItems flavor xs depth = some (items, depth')) (hres : cilResolveExpr resolve items = some ds) :
    (∀ d ∈ ds, Q d) ∧ List.Forall₂ (fun x d => ∀ name, x = .atom name → ∃ e, d = .leaf e) xs ds := by
  induction xs generalizing depth items ds with
  | nil =>
    cases hfill
    cases hres
    exact ⟨forall_mem_nil _, .nil⟩
  | cons x xs ih =>
    obtain ⟨item, rest, _, hx, hrest, rfl⟩ := cilFillItems_cons_inv hfill
    obtain ⟨d, rs, hd, hrs, rfl⟩ := cilResolveExpr_cons_inv hres
    obtain ⟨hall, hnames⟩ := ih (fun y hy => hxs y (mem_cons_of_mem x hy)) hrest hrs
    refine ⟨forall_mem_cons.mpr ⟨hxs x mem_cons_self _ _ _ _ hx hd, hall⟩, .cons ?_ hnames⟩
    intro name hname
    subst hname
    obtain ⟨e, -, he⟩ := filled_atom hx hd
    exact ⟨e, he⟩

/-- What holds of resolved names, and of a list when it holds of its items, holds of all that a
    statement may become. -/
theorem filled_induct (leaf : ∀ name d, resolve name = some d → Q (.leaf d))
    (plain : ∀ d ds, Q d → (∀ e ∈ ds, Q e) → Q (.list (d :: ds)))
    (op : ∀ op x xs ds, cilVerifyExprSyntax (x :: xs) flavor (some op) = true →
      (∀ d ∈ ds, Q d) → List.Forall₂ (fun x d => ∀ name, x = .atom name → ∃ e, d = .leaf e) xs ds → Q (.list (.op op :: ds)))
    (x : Sexp) : FillsTo flavor resolve Q x := by
  refine Sexp.induct ?_ ?_ x
  · intro name depth depth' item d hfill hres
    obtain ⟨e, he, rfl⟩ := filled_atom hfill hres
    exact leaf name e he
  · intro xs hxs depth depth' item d hfill hres
    cases xs with
    | nil =>
      cases hfill
      cases hres
    | cons x xs =>
      rcases cilFillExpr_list_inv hfill with ⟨-, items, _, _, hitems, rfl⟩ | ⟨o, -, hverify, items, _, _, hitems, rfl⟩
      · rw [cilResolveItem] at hres
        obtain ⟨ds, hds, rfl⟩ := map_eq_some_iff.mp hres
        obtain ⟨hall, hnames⟩ := filled_items hxs hitems hds
        cases hnames with
        | cons _ _ =>
          obtain ⟨hd, hds⟩ := forall_mem_cons.mp hall
          exact plain _ _ hd hds
      · rw [cilResolveItem] at hres
        obtain ⟨ds, hds, rfl⟩ := map_eq_some_iff.mp hres
        obtain ⟨r, rs, hr, hrs, rfl⟩ := cilResolveExpr_cons_inv hds
        cases hr
        obtain ⟨hall, hnames⟩ := filled_items (fun y hy => hxs y (mem_cons_of_mem x hy)) hitems hrs
        exact op o x xs rs hverify hall hnames

/-- The expression of a statement. -/
theorem generated (plain : ∀ d, Q d → Q (.list [d])) (hx : FillsTo flavor resolve Q x) {e : List (ExprItem δ)}
    (h : (cilGenExpr flavor x).bind (cilResolveExpr resolve) = some e) : Q (.list e) := by
  obtain ⟨strExpr, hgen, hres⟩ := bind_eq_some_iff.mp h
  unfold cilGenExpr at hgen
  cases hfill : cilFillExpr flavor x 0 with
  | none => rw [hfill] at hgen; cases hgen
  | some r =>
    obtain ⟨item, depth'⟩ := r
    rw [hfill] at hgen
    cases item with
    | list items =>
      cases hgen
      refine hx _ _ _ _ hfill ?_
      rw [cilResolveItem, hres]
      rfl
    | op op => exact absurd rfl (cilFillExpr_ne_op hfill op)
    | leaf a =>
      -- a string is a list of one item
      cases hgen
      obtain ⟨d, ds, hd, hds, rfl⟩ := cilResolveExpr_cons_inv hres
      cases hds
      exact plain d (hx _ _ _ _ hfill hd)

end

end SELinux.Cil
