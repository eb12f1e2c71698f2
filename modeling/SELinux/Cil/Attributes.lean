/-
  SELinux.Cil.Attributes — the bitmaps of type, role and user attributes
  (`libsepol/cil/src/cil_post.c`: `__cil_type_to_bitmap`, `__cil_expr_to_bitmap`,
  `__cil_expr_list_to_bitmap`, `__cil_post_db_attr_helper`; `cil_verify.c`:
  `cil_verify_no_self_reference`).

  An attribute has a list of expressions over types and attributes, and its bitmap is meant to
  be the union of their values. It is evaluated when it is first needed: by the visit of its
  own node, or by an expression of another attribute. `attr->types` is allocated before the
  expressions are evaluated, so an attribute that is needed again on the way is taken with the
  bits it has by then. A reference from an attribute to itself is refused; one over other
  attributes is not:

  - `bitmaps_right_iff`: the bitmaps are right, whatever the expressions that refer to the same
    attributes and whatever the order of the visits, exactly when no attribute leads back to
    itself.
  - `mutual_attributes_wrong`: two attributes that contain each other.
-/
import SELinux.Cil.Expr
import SELinux.Lib.Demand

namespace SELinux.Cil

open Db Lib.Demand List Bitmap

/-! ## Evaluation -/

/-- What a name in an attribute's expression is resolved to. Attributes are numbered; only
    types have aliases. -/
inductive SetDatum
  | attr (a : Nat)
  | typealias (actual : Nat)
  | item (value : Nat)
  deriving DecidableEq, Repr

/-- A computation of a bitmap that may need the bitmaps of attributes. -/
abbrev SetProg := Prog Nat Bitmap Bitmap

/-- `__cil_type_to_bitmap`, `__cil_role_to_bitmap`, `__cil_user_to_bitmap` -/
def cilDatumToBitmap : SetDatum → SetProg
  | .attr a => .ask a fun types => pure (Bitmap.empty.union types)
  | .typealias actual => .ofOption (Bitmap.empty.setBit actual true)
  | .item value => .ofOption (Bitmap.empty.setBit value true)

/-- The operators of two bitmaps. -/
def ExprOp.combine : ExprOp → Bitmap → Bitmap → Option Bitmap
  | .or, b1, b2 => some (b1.union b2)
  | .and, b1, b2 => b1.and b2
  | .xor, b1, b2 => b1.xor b2
  | _, _, _ => none

mutual

/-- `__cil_expr_to_bitmap_helper` -/
def cilExprToBitmapHelper (max : Nat) : ExprItem SetDatum → SetProg
  | .op _ => .fail
  | .leaf d => cilDatumToBitmap d
  | .list items => cilExprToBitmap max items

/-- `__cil_expr_to_bitmap`; `out` is empty wherever it is called. Operands that the syntax
    check demands are missing in none of its inputs. -/
def cilExprToBitmap (max : Nat) : List (ExprItem SetDatum) → SetProg
  | [] => pure Bitmap.empty
  | .op .all :: _ => do
    let tmp ← .ofOption (Bitmap.empty.not max)
    return Bitmap.empty.union tmp
  | .op .range :: _ => .fail
  | .op .not :: x :: _ => do
    let b1 ← cilExprToBitmapHelper max x
    let tmp ← .ofOption (b1.not max)
    return Bitmap.empty.union tmp
  | .op op :: x :: y :: _ => do
    let b1 ← cilExprToBitmapHelper max x
    let b2 ← cilExprToBitmapHelper max y
    let tmp ← .ofOption (op.combine b1 b2)
    return Bitmap.empty.union tmp
  | .op _ :: _ => .fail
  | x :: xs => do
    let b2 ← cilExprToBitmapHelper max x
    let tmp ← cilOrItems max (Bitmap.empty.union b2) xs
    return Bitmap.empty.union tmp

/-- The loop over the rest of a plain list. -/
def cilOrItems (max : Nat) (tmp : Bitmap) : List (ExprItem SetDatum) → SetProg
  | [] => pure tmp
  | x :: xs => do
    let b2 ← cilExprToBitmapHelper max x
    cilOrItems max (tmp.union b2) xs

end

mutual

def itemLeaves {δ : Type} : ExprItem δ → List δ
  | .op _ => []
  | .leaf d => [d]
  | .list items => leaves items

/-- The data an expression names. -/
def leaves {δ : Type} : List (ExprItem δ) → List δ
  | [] => []
  | x :: xs => itemLeaves x ++ leaves xs

end

mutual

def noSelfItem (datum : SetDatum) : ExprItem SetDatum → Bool
  | .op _ => true
  | .leaf d => d != datum
  | .list items => cilVerifyNoSelfReference datum items

/-- `cil_verify_no_self_reference` -/
def cilVerifyNoSelfReference (datum : SetDatum) : List (ExprItem SetDatum) → Bool
  | [] => true
  | x :: xs => noSelfItem datum x && cilVerifyNoSelfReference datum xs

end

inductive AttrFlavor
  | type
  | role
  | user
  deriving DecidableEq, Repr

def AttrFlavor.expr : AttrFlavor → ExprFlavor
  | .type => .type
  | .role => .role
  | .user => .user

/-- A datum of a family of `count` attributes over `num` types, roles or users. -/
def SetDatum.Valid (count num : Nat) : SetDatum → Prop
  | .attr a => a < count
  | .typealias actual => actual < num
  | .item value => value < num

/-- An expression that `cil_gen_expr` and `cil_resolve_expr` make of a statement. -/
def Accepted (flavor : AttrFlavor) (count num : Nat) (e : List (ExprItem SetDatum)) : Prop :=
  ∃ (x : Sexp) (resolve : Name → Option SetDatum), (∀ name d, resolve name = some d → d.Valid count num) ∧
    (cilGenExpr flavor.expr x).bind (cilResolveExpr resolve) = some e

/-- The attributes of one flavor whose statements passed the resolution. `num` is
    `db->num_types`, `num_roles` or `num_users`, an int. -/
structure AttrFamily where
  flavor : AttrFlavor
  num : Nat
  /-- The `expr_list` of each attribute. -/
  exprLists : List (List (List (ExprItem SetDatum)))
  narrow : num < 2 ^ 31
  accepted : ∀ l ∈ exprLists, ∀ e ∈ l, Accepted flavor exprLists.length num e
  noSelf : ∀ a, ∀ e ∈ exprLists.getD a [], cilVerifyNoSelfReference (.attr a) e = true

variable {x : ExprItem SetDatum} {e : List (ExprItem SetDatum)} {P : SetDatum → Prop} {F : AttrFamily}
  {flavor : AttrFlavor} {a : Nat}

namespace AttrFamily

variable (F : AttrFamily)

def count : Nat := F.exprLists.length

def exprs (a : Nat) : List (List (ExprItem SetDatum)) := F.exprLists.getD a []

/-- `__evaluate_type_expression`, `__evaluate_role_expression`, `__evaluate_user_expression`:
    `attr->types` is there, and empty, when `__cil_expr_list_to_bitmap` starts. -/
def system : System Nat Bitmap where
  defs a := (F.exprs a).map (cilExprToBitmap F.num)
  start := Bitmap.empty
  join := Bitmap.union

/-- `__cil_post_db_attr_helper` at the attributes in the order of the tree. -/
def cilPostDbAttrs (order : List Nat) : Option (System.St Nat Bitmap) := F.system.visitAll (F.count + 1) order

end AttrFamily

/-! ## The equations -/

mutual

/-- The value of an item as a set, when `env` gives the attributes'. -/
def itemHas (max : Nat) (env : Nat → Nat → Bool) : ExprItem SetDatum → Nat → Bool
  | .op _, _ => false
  | .leaf (.attr a), i => env a i
  | .leaf (.typealias actual), i => decide (i = actual)
  | .leaf (.item value), i => decide (i = value)
  | .list items, i => exprHas max env items i

/-- The value of an expression; a list without an operator is a union. -/
def exprHas (max : Nat) (env : Nat → Nat → Bool) : List (ExprItem SetDatum) → Nat → Bool
  | [], _ => false
  | .op .all :: _, i => decide (i < max)
  | .op .not :: x :: _, i => decide (i < max) && !itemHas max env x i
  | .op op :: x :: y :: _, i => op.apply (itemHas max env x i) (itemHas max env y i)
  | .op _ :: _, _ => false
  | x :: xs, i => itemHas max env x i || anyHas max env xs i

def anyHas (max : Nat) (env : Nat → Nat → Bool) : List (ExprItem SetDatum) → Nat → Bool
  | [], _ => false
  | x :: xs, i => itemHas max env x i || anyHas max env xs i

end

/-- The bits of the attributes. -/
def bitsOf (st : System.St Nat Bitmap) (a i : Nat) : Bool := (st a).any (·.has i)

/-- A visit of every attribute, in any order, leaves each with the union of its expressions'
    values, and another order leaves the same. -/
structure BitmapsRight (F : AttrFamily) : Prop where
  solves : ∀ order : List Nat, (∀ a, a ∈ order ↔ a < F.count) →
    ∃ st, F.cilPostDbAttrs order = some st ∧
      ∀ a < F.count, ∃ b, st a = some b ∧ ∀ i, b.has i = (F.exprs a).any fun e => exprHas F.num (bitsOf st) e i
  sameForAll : ∀ order order' : List Nat, (∀ a, a ∈ order ↔ a < F.count) → (∀ a, a ∈ order' ↔ a < F.count) →
    ∀ st st', F.cilPostDbAttrs order = some st → F.cilPostDbAttrs order' = some st' → ∀ a < F.count, st a = st' a

/-- An expression of `a` names `b`. -/
def AttrFamily.Refers (F : AttrFamily) (a b : Nat) : Prop := ∃ e ∈ F.exprs a, .attr b ∈ leaves e

/-- No attribute leads back to itself. -/
def AttrFamily.Acyclic (F : AttrFamily) : Prop := ∀ a, ¬Relation.TransGen F.Refers a a

/-- Attributes of the same flavor that refer to the same ones. -/
structure SameReferences (F G : AttrFamily) : Prop where
  flavor : G.flavor = F.flavor
  count : G.count = F.count
  refers : ∀ a b, G.Refers a b ↔ F.Refers a b

/-! ## Accepted expressions -/

/-- The form of an accepted expression whose data satisfy `P`. -/
inductive Formed (P : SetDatum → Prop) : ExprItem SetDatum → Prop
  | leaf (d : SetDatum) : P d → Formed P (.leaf d)
  | all : Formed P (.list [.op .all])
  | not (x : ExprItem SetDatum) : Formed P x → Formed P (.list [.op .not, x])
  | bin (op : ExprOp) (x y : ExprItem SetDatum) : op = .and ∨ op = .or ∨ op = .xor → Formed P x → Formed P y →
      Formed P (.list [.op op, x, y])
  | plain (x : ExprItem SetDatum) (xs : List (ExprItem SetDatum)) :
      Formed P x → (∀ y ∈ xs, Formed P y) → Formed P (.list (x :: xs))

theorem Formed.ne_op (h : Formed P x) (op : ExprOp) : x ≠ .op op := by
  cases h <;> exact nofun

/-- The operands of an operator over types, roles or users. -/
theorem set_operands_of_verify {x : Sexp} {xs : List Sexp} {op : ExprOp}
    (h : cilVerifyExprSyntax (x :: xs) flavor.expr (some op) = true) :
    (op = .all ∧ xs = []) ∨ (op = .not ∧ ∃ a, xs = [a]) ∨ ((op = .and ∨ op = .or ∨ op = .xor) ∧ ∃ a b, xs = [a, b]) := by
  cases op with
  | not => exact Or.inr (Or.inl ⟨rfl, one_operand h⟩)
  | and => exact Or.inr (Or.inr ⟨Or.inl rfl, two_operands h⟩)
  | or => exact Or.inr (Or.inr ⟨Or.inr (Or.inl rfl), two_operands h⟩)
  | xor => exact Or.inr (Or.inr ⟨Or.inr (Or.inr rfl), two_operands h⟩)
  | all =>
    refine Or.inl ⟨rfl, no_operand (x := x) ?_⟩
    cases flavor <;> exact h
  | eq | neq | range => cases flavor <;> cases h

/-- A node of the policy's text that is well-formed wherever it is accepted. -/
def FillsFormed (flavor : AttrFlavor) (resolve : Name → Option SetDatum) (P : SetDatum → Prop) (x : Sexp) : Prop :=
  ∀ depth depth' item d, cilFillExpr flavor.expr x depth = some (item, depth') →
    cilResolveItem resolve item = some d → Formed P d

theorem fillsFormed {resolve : Name → Option SetDatum}
    (hresolve : ∀ name d, resolve name = some d → P d) (x : Sexp) : FillsFormed flavor resolve P x := by
  refine filled_induct (fun name d hd => .leaf d (hresolve name d hd)) (fun d ds hd hds => .plain d ds hd hds) ?_ x
  intro op x xs ds hverify hformed hnames
  have hlength : ds.length = xs.length := hnames.length_eq.symm
  rcases set_operands_of_verify hverify with ⟨rfl, rfl⟩ | ⟨rfl, a, rfl⟩ | ⟨hop, a, b, rfl⟩
  · rw [length_eq_zero_iff.mp hlength]
    exact .all
  · obtain ⟨y, rfl⟩ := length_eq_one_iff.mp hlength
    exact .not y (hformed y mem_cons_self)
  · obtain ⟨y, z, rfl⟩ := length_eq_two.mp hlength
    exact .bin op y z hop (hformed y (by simp)) (hformed z (by simp))

variable {count num : Nat}

theorem Accepted.formed (h : Accepted flavor count num e) : Formed (SetDatum.Valid count num) (.list e) := by
  obtain ⟨x, resolve, hresolve, h⟩ := h
  exact generated (fun d hd => .plain d [] hd (forall_mem_nil _)) (fillsFormed hresolve x) h

/-! ## The evaluation of one expression -/

/-- A computation that never fails and needs only the attributes in `A`, and what it computes. -/
structure Computes (A : Nat → Prop) (p : SetProg) (value : (Nat → Nat → Bool) → Nat → Bool) : Prop where
  noFail : p.NoFail
  asks : ∀ j, p.Asks j → A j
  bits : ∀ (env : Nat → Bitmap) b, p.eval env = some b → ∀ i, b.has i = value (fun a => (env a).has) i

theorem empty_union_has (b : Bitmap) (i : Nat) : (Bitmap.empty.union b).has i = b.has i := by
  rw [Bool.eq_iff_iff, has_union, has_empty]
  simp

theorem union_has (b c : Bitmap) (i : Nat) : (b.union c).has i = (b.has i || c.has i) := by
  rw [Bool.eq_iff_iff, has_union, Bool.or_eq_true]

theorem setBit_empty {value : Nat} (h : value < 2 ^ 31) :
    ∃ r, Bitmap.empty.setBit value true = some r ∧ ∀ i, r.has i = decide (i = value) := by
  have hbit : value - value % mapsize + mapsize < 2 ^ 32 := by
    simp only [mapsize]
    omega
  obtain ⟨r, hr⟩ := setBit_isSome Bitmap.empty hbit true
  refine ⟨r, hr, ?_⟩
  intro i
  rw [has_setBit hr, has_empty]
  split <;> simp [*]

variable {A : Nat → Prop}

/-- A bitmap that is there. -/
theorem Computes.ofOption {o : Option Bitmap} {value : Nat → Bool} (h : ∃ r, o = some r ∧ ∀ i, r.has i = value i) :
    Computes A (.ofOption o) fun _ => value := by
  obtain ⟨r, rfl, hr⟩ := h
  refine ⟨trivial, fun _ hj => absurd hj Prog.asks_ofOption, ?_⟩
  intro env b hb
  cases hb
  exact hr

/-- What is computed of a computed bitmap. -/
theorem Computes.bind {p : SetProg} {f : Bitmap → SetProg} {u : (Nat → Nat → Bool) → Nat → Bool}
    {value : (Nat → Nat → Bool) → Nat → Bool} (hp : Computes A p u)
    (hf : ∀ b, ∃ v, Computes A (f b) v ∧ ∀ env i, (∀ i, b.has i = u env i) → v env i = value env i) :
    Computes A (p >>= f) value := by
  have hnext := fun b => (hf b).choose_spec.1
  refine ⟨hp.noFail.bind fun b => (hnext b).noFail, fun j hj => (Prog.asks_bind hj).elim (hp.asks j) ?_, ?_⟩
  · rintro ⟨b, hj⟩
    exact (hnext b).asks j hj
  intro env c hc i
  rw [Prog.eval_bind] at hc
  obtain ⟨b, hb, hc⟩ := Option.bind_eq_some_iff.mp hc
  obtain ⟨v, hv, hvalue⟩ := hf b
  rw [hv.bits env c hc i, hvalue _ i (hp.bits env b hb)]

/-- The result goes to `out`. -/
theorem Computes.out {p : SetProg} {u : (Nat → Nat → Bool) → Nat → Bool} (hp : Computes A p u) :
    Computes A (p >>= fun tmp => pure (Bitmap.empty.union tmp)) u := by
  refine hp.bind ?_
  intro b
  refine ⟨fun _ => b.has, ⟨trivial, fun _ hj => absurd hj Prog.asks_pure, ?_⟩, fun env i hb => hb i⟩
  intro env c hc i
  cases hc
  exact empty_union_has b i

section

variable {max : Nat}

theorem ExprOp.combine_spec {op : ExprOp} (hop : op = .and ∨ op = .or ∨ op = .xor) (b c : Bitmap) :
    ∃ r, op.combine b c = some r ∧ ∀ i, r.has i = op.apply (b.has i) (c.has i) := by
  rcases hop with rfl | rfl | rfl
  · exact b.and_spec c
  · exact ⟨_, rfl, union_has b c⟩
  · exact b.xor_spec c

theorem mem_leaves {δ : Type} {d : δ} {xs : List (ExprItem δ)} : d ∈ leaves xs ↔ ∃ x ∈ xs, d ∈ itemLeaves x := by
  induction xs with
  | nil => simp [leaves]
  | cons x xs ih => simp [leaves, ih]

theorem cilDatumToBitmap_computes (hnum : num < 2 ^ 31) {d : SetDatum} (h : d.Valid count num)
    (hA : ∀ a, d = .attr a → A a) : Computes A (cilDatumToBitmap d) fun env i => itemHas max env (.leaf d) i := by
  cases d with
  | attr a =>
    refine ⟨fun _ => trivial, fun j hj => hA j ?_, ?_⟩
    · rcases hj with rfl | ⟨b, hj⟩
      · rfl
      · exact absurd hj Prog.asks_pure
    intro env b hb i
    cases hb
    exact empty_union_has (env a) i
  | typealias actual =>
    exact Computes.ofOption (setBit_empty (Nat.lt_trans h hnum))
  | item value =>
    exact Computes.ofOption (setBit_empty (Nat.lt_trans h hnum))

theorem cilOrItems_computes {xs : List (ExprItem SetDatum)}
    (hxs : ∀ x ∈ xs, Computes A (cilExprToBitmapHelper max x) fun env i => itemHas max env x i) (tmp : Bitmap) :
    Computes A (cilOrItems max tmp xs) fun env i => tmp.has i || anyHas max env xs i := by
  induction xs generalizing tmp with
  | nil =>
    refine ⟨trivial, fun _ hj => absurd hj Prog.asks_pure, ?_⟩
    intro env b hb i
    cases hb
    rw [anyHas, Bool.or_false]
  | cons x xs ih =>
    refine (hxs x mem_cons_self).bind ?_
    intro b
    refine ⟨_, ih (fun y hy => hxs y (mem_cons_of_mem x hy)) (tmp.union b), ?_⟩
    intro env i hb
    rw [union_has, hb, anyHas, Bool.or_assoc]

theorem cilExprToBitmap_plain (hx : ∀ op, x ≠ .op op) (xs : List (ExprItem SetDatum)) :
    cilExprToBitmap max (x :: xs) =
      (cilExprToBitmapHelper max x >>= fun b2 => cilOrItems max (Bitmap.empty.union b2) xs >>= fun tmp =>
        pure (Bitmap.empty.union tmp)) := by
  match x with
  | .op op => exact absurd rfl (hx op)
  | .leaf _ => rfl
  | .list _ => rfl

theorem exprHas_plain (hx : ∀ op, x ≠ .op op) (xs : List (ExprItem SetDatum)) (env : Nat → Nat → Bool)
    (i : Nat) : exprHas max env (x :: xs) i = (itemHas max env x i || anyHas max env xs i) := by
  match x with
  | .op op => exact absurd rfl (hx op)
  | .leaf _ => rfl
  | .list _ => rfl

theorem Formed.computes (hnum : num < 2 ^ 31) (h : Formed (SetDatum.Valid count num) x)
    (hA : ∀ b, .attr b ∈ itemLeaves x → A b) :
    Computes A (cilExprToBitmapHelper num x) fun env i => itemHas num env x i := by
  induction h with
  | leaf d hd => exact cilDatumToBitmap_computes hnum hd fun a ha => hA a (by simp [itemLeaves, ha])
  | all =>
    have hall : ∃ r, Bitmap.empty.not num = some r ∧ ∀ i, r.has i = decide (i < num) := by
      obtain ⟨r, hr, hbits⟩ := not_spec Bitmap.empty hnum
      refine ⟨r, hr, fun i => ?_⟩
      rw [hbits, has_empty, Bool.not_false, Bool.and_true]
    exact (Computes.ofOption hall).out
  | not x _ ih =>
    refine (ih fun b hb => hA b (by simpa [itemLeaves, leaves] using hb)).bind ?_
    intro b
    refine ⟨_, (Computes.ofOption (b.not_spec hnum)).out, ?_⟩
    intro env i hb
    rw [hb]
    rfl
  | bin op x y hop _ _ ihx ihy =>
    have heq : cilExprToBitmapHelper num (.list [.op op, x, y]) =
        (cilExprToBitmapHelper num x >>= fun b1 => cilExprToBitmapHelper num y >>= fun b2 =>
          Prog.ofOption (op.combine b1 b2) >>= fun tmp => pure (Bitmap.empty.union tmp)) := by
      rcases hop with rfl | rfl | rfl <;> rfl
    have hvalue : ∀ env i, itemHas num env (.list [.op op, x, y]) i = op.apply (itemHas num env x i)
        (itemHas num env y i) := by
      intro env i
      rcases hop with rfl | rfl | rfl <;> rfl
    rw [heq]
    refine (ihx fun b hb => hA b (by simp [itemLeaves, leaves, hb])).bind ?_
    intro b
    refine ⟨fun env i => op.apply (b.has i) (itemHas num env y i),
      (ihy fun b hb => hA b (by simp [itemLeaves, leaves, hb])).bind ?_, ?_⟩
    · intro c
      refine ⟨_, (Computes.ofOption (ExprOp.combine_spec hop b c)).out, ?_⟩
      intro env i hc
      rw [hc]
    · intro env i hb
      simp only [hvalue, hb]
  | plain x xs hx _ ihx ihxs =>
    rw [cilExprToBitmapHelper, cilExprToBitmap_plain hx.ne_op]
    have hitem : ∀ y ∈ x :: xs, ∀ b, .attr b ∈ itemLeaves y → A b := by
      intro y hy b hb
      refine hA b ?_
      exact mem_leaves.mpr ⟨y, hy, hb⟩
    refine (ihx (hitem x mem_cons_self)).bind ?_
    intro b
    refine ⟨_, (cilOrItems_computes (fun y hy => ihxs y hy (hitem y (mem_cons_of_mem x hy))) (Bitmap.empty.union b)).out, ?_⟩
    intro env i hb
    rw [empty_union_has, hb, itemHas, exprHas_plain hx.ne_op]

end

/-! ## References -/

theorem noSelfItem_iff (datum : SetDatum) (x : ExprItem SetDatum) : noSelfItem datum x = true ↔ datum ∉ itemLeaves x := by
  refine ExprItem.induct (P := fun x => noSelfItem datum x = true ↔ datum ∉ itemLeaves x) ?_ ?_ ?_ x
  · intro op
    simp [noSelfItem, itemLeaves]
  · intro d
    simp only [noSelfItem, itemLeaves, mem_singleton, bne_iff_ne]
    exact ne_comm
  · intro items ih
    rw [noSelfItem, itemLeaves]
    induction items with
    | nil => simp [cilVerifyNoSelfReference, leaves]
    | cons x xs ihxs =>
      rw [cilVerifyNoSelfReference, leaves, Bool.and_eq_true, ih x mem_cons_self,
        ihxs fun y hy => ih y (mem_cons_of_mem x hy), mem_append, not_or]

theorem noSelf_iff (datum : SetDatum) (e : List (ExprItem SetDatum)) :
    cilVerifyNoSelfReference datum e = true ↔ datum ∉ leaves e := by
  have h := noSelfItem_iff datum (.list e)
  rwa [noSelfItem, itemLeaves] at h

theorem Formed.leaves (h : Formed P x) : ∀ d ∈ itemLeaves x, P d := by
  induction h with
  | leaf d hd => simpa [itemLeaves] using hd
  | all => simp [itemLeaves, Cil.leaves]
  | not x _ ih => simpa [itemLeaves, Cil.leaves] using ih
  | bin op x y _ _ _ ihx ihy =>
    intro d hd
    simp only [itemLeaves, Cil.leaves, nil_append, append_nil, mem_append] at hd
    exact hd.elim (ihx d) (ihy d)
  | plain x xs _ _ ihx ihxs =>
    intro d hd
    obtain ⟨y, hy, hdy⟩ := mem_leaves.mp hd
    rcases mem_cons.mp hy with rfl | hy
    · exact ihx d hdy
    · exact ihxs y hy d hdy

/-! ## The evaluation of a family -/

variable {b : Nat}

namespace AttrFamily

variable {F : AttrFamily}

theorem exprs_of_ge (h : F.count ≤ a) : F.exprs a = [] := by
  rw [exprs, getD_eq_getElem?_getD, List.getElem?_eq_none h]
  rfl

theorem exprs_mem (h : a < F.count) : F.exprs a ∈ F.exprLists := by
  rw [exprs, getD_eq_getElem?_getD, List.getElem?_eq_getElem h]
  exact getElem_mem h

theorem lt_count_of_mem (h : e ∈ F.exprs a) : a < F.count := by
  by_contra hge
  rw [exprs_of_ge (Nat.le_of_not_lt hge)] at h
  cases h

theorem formed (h : e ∈ F.exprs a) : Formed (SetDatum.Valid F.count F.num) (.list e) :=
  (F.accepted _ (exprs_mem (lt_count_of_mem h)) e h).formed

theorem computes (h : e ∈ F.exprs a) :
    Computes (fun b => .attr b ∈ leaves e) (cilExprToBitmap F.num e) fun env i => exprHas F.num env e i := by
  have hall := (formed h).computes (A := fun b => .attr b ∈ leaves e) F.narrow
  exact hall fun _ hb => hb

theorem Refers.lt {a : Nat} (h : F.Refers a b) : a < F.count ∧ b < F.count := by
  obtain ⟨e, he, hb⟩ := h
  refine ⟨lt_count_of_mem he, ?_⟩
  have hleaf : SetDatum.attr b ∈ itemLeaves (.list e) := by rwa [itemLeaves]
  exact (formed he).leaves _ hleaf

theorem Refers.ne {a : Nat} (h : F.Refers a b) : b ≠ a := by
  rintro rfl
  obtain ⟨e, he, hb⟩ := h
  exact (noSelf_iff _ e).mp (F.noSelf b e he) hb

theorem refers_of_system {a : Nat} (h : F.system.Refers a b) : F.Refers a b := by
  obtain ⟨p, hp, hb⟩ := h
  obtain ⟨e, he, rfl⟩ := mem_map.mp hp
  exact ⟨e, he, (computes he).asks b hb⟩

theorem system_noFail (a : Nat) : ∀ p ∈ F.system.defs a, p.NoFail := by
  intro p hp
  obtain ⟨e, he, rfl⟩ := mem_map.mp hp
  exact (computes he).noFail

theorem value_has {env : Nat → Bitmap} {b : Bitmap} (h : F.system.value env a = some b) (i : Nat) :
    b.has i = (F.exprs a).any fun e => exprHas F.num (fun c => (env c).has) e i := by
  have hloop : ∀ (l : List (List (ExprItem SetDatum))) (c : Bitmap), (∀ e ∈ l, e ∈ F.exprs a) →
      (l.map (cilExprToBitmap F.num)).foldlM (fun b p => (p.eval env).map (Bitmap.union b)) c = some b →
      b.has i = (c.has i || l.any fun e => exprHas F.num (fun c => (env c).has) e i) := by
    intro l
    induction l with
    | nil =>
      intro c _ h
      cases h
      simp
    | cons e l ih =>
      intro c hl h
      obtain ⟨c', hc', h⟩ := Option.bind_eq_some_iff.mp h
      obtain ⟨v, hv, rfl⟩ := Option.map_eq_some_iff.mp hc'
      have hbits := (computes (hl e mem_cons_self)).bits env v hv i
      rw [ih _ (fun e' he' => hl e' (mem_cons_of_mem e he')) h, union_has, hbits, any_cons, Bool.or_assoc]
  have h := hloop (F.exprs a) Bitmap.empty (fun _ he => he) h
  rwa [has_empty, Bool.false_or] at h

/-- The visits return, references back or not. -/
theorem cilPostDbAttrs_returns (F : AttrFamily) {order : List Nat} (horder : ∀ a ∈ order, a < F.count) :
    ∃ st, F.cilPostDbAttrs order = some st :=
  System.visitAll_total (fun _ _ h => (refers_of_system h).lt.2) system_noFail (Nat.le_succ F.count) horder

/-- Without references back, every order leaves the solution of the equations. -/
theorem Acyclic.solution (h : F.Acyclic) :
    ∃ env : Nat → Bitmap, F.system.Solves env ∧ ∀ order st, F.cilPostDbAttrs order = some st →
    (∀ a ∈ order, st a = some (env a)) ∧ ∀ a, st a = none ∨ st a = some (env a) := by
  have hacyclic : ∀ a, ¬Relation.TransGen F.system.Refers a a :=
    fun a ha => h a (Relation.TransGen.mono (p := F.Refers) (fun _ _ hr => refers_of_system hr) a a ha)
  obtain ⟨rank, hrank, hbound⟩ := System.exists_rank (fun _ _ hr => (refers_of_system hr).lt.2) hacyclic
  obtain ⟨env, henv⟩ := System.exists_solution hrank hbound system_noFail
  exact ⟨env, henv, fun _ _ hst => System.visitAll_right henv hacyclic hst⟩

theorem Acyclic.bitmapsRight (h : F.Acyclic) : BitmapsRight F := by
  obtain ⟨env, henv, hvisit⟩ := h.solution
  refine ⟨?_, ?_⟩
  · intro order horder
    obtain ⟨st, hst⟩ := F.cilPostDbAttrs_returns fun a ha => (horder a).mp ha
    obtain ⟨hvisited, hall⟩ := hvisit order st hst
    have hbits : bitsOf st = fun c => (env c).has := by
      funext c i
      rcases Nat.lt_or_ge c F.count with hc | hc
      · rw [bitsOf, hvisited c ((horder c).mpr hc)]
        rfl
      · -- what is not an attribute has no bits
        have hnone := value_has (henv c) i
        rw [exprs_of_ge hc] at hnone
        rcases hall c with hst | hst
        · rw [bitsOf, hst, hnone]
          rfl
        · rw [bitsOf, hst]
          rfl
    refine ⟨st, hst, ?_⟩
    intro a ha
    refine ⟨env a, hvisited a ((horder a).mpr ha), ?_⟩
    intro i
    rw [hbits]
    exact value_has (henv a) i
  · intro order order' horder horder' st st' hst hst' a ha
    rw [(hvisit order st hst).1 a ((horder a).mpr ha), (hvisit order' st' hst').1 a ((horder' a).mpr ha)]

end AttrFamily

/-! ## References back -/

theorem accepted_leaf {d : SetDatum} (h : d.Valid count num) : Accepted flavor count num [.leaf d] := by
  refine ⟨.atom "t".toList, fun _ => some d, ?_, ?_⟩
  · intro name d' hd'
    cases hd'
    exact h
  · rfl

def SetDatum.toAttr : SetDatum → Option Nat
  | .attr a => some a
  | _ => none

variable {y : Nat}

namespace AttrFamily

/-- The attributes that the expressions of `a` name. -/
def refs (F : AttrFamily) (a : Nat) : List Nat := (F.exprs a).flatMap fun e => (leaves e).filterMap SetDatum.toAttr

theorem mem_refs {a : Nat} : b ∈ F.refs a ↔ F.Refers a b := by
  have htoAttr : ∀ d : SetDatum, d.toAttr = some b ↔ d = .attr b := by
    intro d
    cases d <;> simp [SetDatum.toAttr]
  simp only [refs, mem_flatMap, mem_filterMap, htoAttr, exists_eq_right, Refers]

/-- The type of its own that `markers` gives an attribute. -/
def marker (x y a : Nat) : Nat := if a = x then 0 else if a = y then 1 else 2

theorem marker_lt (x y a : Nat) : marker x y a < 3 := by
  unfold marker
  split
  · decide
  · split <;> decide

/-- The expressions of `a` in `markers`. -/
def markerExprs (F : AttrFamily) (x y a : Nat) : List (List (ExprItem SetDatum)) :=
  (F.refs a).map (fun b => [.leaf (.attr b)]) ++ [[.leaf (.item (marker x y a))]]

theorem mem_markerExprs {x a : Nat} :
    e ∈ F.markerExprs x y a ↔ (∃ b, F.Refers a b ∧ e = [.leaf (.attr b)]) ∨ e = [.leaf (.item (marker x y a))] := by
  simp only [markerExprs, mem_append, mem_map, mem_refs, mem_singleton, eq_comm]

theorem getD_map_range {α : Type} (f : Nat → List α) (n a : Nat) :
    ((List.range n).map f).getD a [] = if a < n then f a else [] := by
  rw [getD_eq_getElem?_getD, List.getElem?_map]
  split
  next h =>
    rw [List.getElem?_range h]
    rfl
  next h =>
    rw [List.getElem?_eq_none (by simpa using h)]
    rfl

/-- Attributes that refer to the same ones, each as a whole, and then to a type: `x` and `y`
    have one of their own. -/
def markers (F : AttrFamily) (x y : Nat) : AttrFamily where
  flavor := F.flavor
  num := 3
  exprLists := (List.range F.count).map (F.markerExprs x y)
  narrow := by decide
  accepted := by
    intro l hl e he
    obtain ⟨a, -, rfl⟩ := List.mem_map.mp hl
    rw [List.length_map, List.length_range]
    rcases mem_markerExprs.mp he with ⟨b, hb, rfl⟩ | rfl
    · exact accepted_leaf hb.lt.2
    · exact accepted_leaf (marker_lt x y a)
  noSelf := by
    intro a e he
    rw [getD_map_range] at he
    split at he
    · rcases mem_markerExprs.mp he with ⟨b, hb, rfl⟩ | rfl
      · rw [noSelf_iff]
        simp only [leaves, itemLeaves, List.append_nil, List.mem_singleton, SetDatum.attr.injEq]
        exact hb.ne.symm
      · simp [noSelf_iff, leaves, itemLeaves]
    · cases he

theorem markers_count (F : AttrFamily) (x y : Nat) : (F.markers x y).count = F.count := by
  simp [count, markers]

theorem markers_exprs (F : AttrFamily) (x y a : Nat) :
    (F.markers x y).exprs a = if a < F.count then F.markerExprs x y a else [] := getD_map_range _ _ _

theorem markers_same (F : AttrFamily) (x y : Nat) : SameReferences F (F.markers x y) where
  flavor := rfl
  count := F.markers_count x y
  refers a b := by
    rw [Refers, markers_exprs]
    constructor
    · rintro ⟨e, he, hb⟩
      split at he
      · rcases mem_markerExprs.mp he with ⟨c, hc, rfl⟩ | rfl
        · simp only [leaves, itemLeaves, append_nil, mem_singleton, SetDatum.attr.injEq] at hb
          exact hb ▸ hc
        · simp [leaves, itemLeaves] at hb
      · cases he
    · intro h
      rw [if_pos h.lt.1]
      exact ⟨[.leaf (.attr b)], mem_markerExprs.mpr (Or.inl ⟨b, h, rfl⟩), by simp [leaves, itemLeaves]⟩

/-- A bitmap has what is `z`'s own. -/
def Own (x y : Nat) (b : Bitmap) (z : Nat) : Prop := (z = x ∧ b.has 0 = true) ∨ (z = y ∧ b.has 1 = true)

theorem own_congr {x : Nat} {b c : Bitmap} (h : ∀ i, b.has i = c.has i) (z : Nat) : Own x y b z ↔ Own x y c z := by
  rw [Own, Own, h, h]

theorem markers_ownLast (F : AttrFamily) {x : Nat} (hxy : y ≠ x) : (F.markers x y).system.OwnLast (Own x y) where
  start z hz := by
    have hempty : ∀ i, (F.markers x y).system.start.has i = false := has_empty
    simp [Own, hempty] at hz
  join b c z hz := by
    rcases hz with ⟨hzx, hz⟩ | ⟨hzy, hz⟩
    · exact (has_union.mp hz).imp (fun h => Or.inl ⟨hzx, h⟩) fun h => Or.inl ⟨hzx, h⟩
    · exact (has_union.mp hz).imp (fun h => Or.inr ⟨hzy, h⟩) fun h => Or.inr ⟨hzy, h⟩
  last a := by
    have hdefs : (F.markers x y).system.defs a = ((F.markers x y).exprs a).map (cilExprToBitmap 3) := rfl
    rw [hdefs, markers_exprs]
    split
    · refine Or.inr ?_
      have hlt := marker_lt x y a
      obtain ⟨r, hr, hbits⟩ := setBit_empty (show marker x y a < 2 ^ 31 by omega)
      refine ⟨((F.refs a).map fun b => [.leaf (.attr b)]).map (cilExprToBitmap 3),
        Bitmap.empty.union (Bitmap.empty.union r), ?_, ?_, ?_⟩
      · rw [markerExprs, map_append]
        congr 1
        show [Prog.ofOption (Bitmap.empty.setBit (marker x y a) true) >>= fun b2 =>
          (pure (Bitmap.empty.union b2) : SetProg) >>= fun tmp => pure (Bitmap.empty.union tmp)] = _
        rw [hr]
        rfl
      · intro p hp
        obtain ⟨e, he, rfl⟩ := mem_map.mp hp
        obtain ⟨b, -, rfl⟩ := mem_map.mp he
        intro c z hz
        exact Or.inr ((own_congr (fun i => by simp only [empty_union_has]) z).mp hz)
      · intro z hz
        rw [own_congr (fun i => (empty_union_has _ i).trans (empty_union_has r i)), Own, hbits, hbits, decide_eq_true_iff,
          decide_eq_true_iff] at hz
        unfold marker at hz
        grind
    · exact Or.inl rfl

/-- In `markers` an attribute has what those it leads to have. -/
theorem markers_leads {x : Nat} {st : System.St Nat Bitmap}
    (hst : ∀ a < (F.markers x y).count, ∃ b, st a = some b ∧
      ∀ i, b.has i = ((F.markers x y).exprs a).any fun e => exprHas (F.markers x y).num (bitsOf st) e i)
    {a c : Nat} (h : Relation.ReflTransGen F.Refers a c) {i : Nat} (hc : bitsOf st c i = true) : bitsOf st a i = true := by
  induction h using Relation.ReflTransGen.head_induction_on with
  | refl => exact hc
  | @head a b hab _ ih =>
    obtain ⟨v, hv, hbits⟩ := hst a (by rw [markers_count]; exact hab.lt.1)
    rw [bitsOf, hv, Option.any_some, hbits, markers_exprs, if_pos hab.lt.1, any_eq_true]
    refine ⟨[.leaf (.attr b)], mem_markerExprs.mpr (Or.inl ⟨b, hab, rfl⟩), ?_⟩
    simp [exprHas, itemHas, anyHas, ih]

/-- In `markers` an attribute has its own type. -/
theorem markers_own {x : Nat} {st : System.St Nat Bitmap}
    (hst : ∀ a < (F.markers x y).count, ∃ b, st a = some b ∧
      ∀ i, b.has i = ((F.markers x y).exprs a).any fun e => exprHas (F.markers x y).num (bitsOf st) e i)
    (ha : a < F.count) : bitsOf st a (marker x y a) = true := by
  obtain ⟨v, hv, hbits⟩ := hst a (by rw [markers_count]; exact ha)
  rw [bitsOf, hv, Option.any_some, hbits, markers_exprs, if_pos ha, any_eq_true]
  refine ⟨[.leaf (.item (marker x y a))], mem_markerExprs.mpr (Or.inr rfl), ?_⟩
  simp [exprHas, itemHas, anyHas]

/-- Two attributes that lead to each other cannot have each other's own type: each would have
    been finished before the other. -/
theorem markers_wrong {x : Nat} (hxy : F.Refers x y) (hyx : Relation.ReflTransGen F.Refers y x) :
    ¬BitmapsRight (F.markers x y) := by
  intro hright
  obtain ⟨st, hst, hsolves⟩ := hright.solves (List.range (F.markers x y).count) fun a => mem_range
  have hmarkx : marker x y x = 0 := if_pos rfl
  have hmarky : marker x y y = 1 := by rw [marker, if_neg hxy.ne, if_pos rfl]
  have hx := markers_own hsolves hxy.lt.1
  have hy := markers_own hsolves hxy.lt.2
  rw [hmarkx] at hx
  rw [hmarky] at hy
  have hyHas := markers_leads hsolves hyx hx
  have hxHas := markers_leads hsolves (Relation.ReflTransGen.single hxy) hy
  obtain ⟨u, hu, -⟩ := hsolves x (by rw [markers_count]; exact hxy.lt.1)
  obtain ⟨v, hv, -⟩ := hsolves y (by rw [markers_count]; exact hxy.lt.2)
  rw [bitsOf, hu] at hxHas
  rw [bitsOf, hv] at hyHas
  exact System.visitAll_apart (F.markers_ownLast hxy.ne) hxy.ne.symm hst hu hv (Or.inr ⟨rfl, hxHas⟩) (Or.inl ⟨rfl, hyHas⟩)

/-- The bitmaps of attributes are right, for all expressions with the same references and in all
    orders of the visits, exactly when no attribute leads back to itself. -/
theorem bitmaps_right_iff (F : AttrFamily) : (∀ G, SameReferences F G → BitmapsRight G) ↔ F.Acyclic := by
  constructor
  · intro hright a ha
    obtain ⟨b, hab, hba⟩ := Relation.TransGen.head'_iff.mp ha
    exact markers_wrong hab hba (hright _ (F.markers_same a b))
  · intro hacyclic G hG
    have hrefers : G.Refers = F.Refers := by
      funext a b
      exact propext (hG.refers a b)
    have hG' : G.Acyclic := by
      rw [Acyclic, hrefers]
      exact hacyclic
    exact hG'.bitmapsRight

/-- `(typeattributeset a b) (typeattributeset a t) (typeattributeset b a) (typeattributeset b u)` -/
def mutualAttributes : AttrFamily where
  flavor := .type
  num := 2
  exprLists := [[[.leaf (.attr 1)], [.leaf (.item 0)]], [[.leaf (.attr 0)], [.leaf (.item 1)]]]
  narrow := by decide
  accepted := by
    intro l hl e he
    simp only [List.mem_cons, List.not_mem_nil, or_false] at hl
    rcases hl with rfl | rfl
    · simp only [List.mem_cons, List.not_mem_nil, or_false] at he
      rcases he with rfl | rfl <;> exact accepted_leaf (show _ < 2 by decide)
    · simp only [List.mem_cons, List.not_mem_nil, or_false] at he
      rcases he with rfl | rfl <;> exact accepted_leaf (show _ < 2 by decide)
  noSelf := by
    intro a e he
    match a with
    | 0 => revert e; decide
    | 1 => revert e; decide
    | a + 2 => cases he

/-- The attribute visited first needs the other, which takes it while it is still empty: the
    second lacks type 0, and with the visits the other way round it has it. -/
theorem mutual_attributes_wrong : ¬BitmapsRight mutualAttributes ∧
    ∃ st st', mutualAttributes.cilPostDbAttrs [0, 1] = some st ∧ mutualAttributes.cilPostDbAttrs [1, 0] = some st' ∧
      bitsOf st 0 0 = true ∧ bitsOf st 1 0 = false ∧ bitsOf st' 1 0 = true := by
  have h1 : (mutualAttributes.cilPostDbAttrs [0, 1]).any (fun st => bitsOf st 0 0 && !bitsOf st 1 0) = true := by
    decide +kernel
  have h2 : (mutualAttributes.cilPostDbAttrs [1, 0]).any (fun st => bitsOf st 1 0) = true := by decide +kernel
  obtain ⟨st, hst, hbits⟩ := (Option.any_eq_true _ _).mp h1
  obtain ⟨st', hst', hbits'⟩ := (Option.any_eq_true _ _).mp h2
  rw [Bool.and_eq_true, Bool.not_eq_true'] at hbits
  refine ⟨?_, st, st', hst, hst', hbits.1, hbits.2, hbits'⟩
  intro hright
  have hvisits : ∀ a, a ∈ [0, 1] ↔ a < mutualAttributes.count := by
    intro a
    rw [show mutualAttributes.count = 2 from rfl]
    simp only [mem_cons, not_mem_nil, or_false]
    omega
  have hvisits' : ∀ a, a ∈ [1, 0] ↔ a < mutualAttributes.count := by
    intro a
    rw [← hvisits]
    simp only [mem_cons, not_mem_nil, or_false]
    omega
  have heq := hright.sameForAll [0, 1] [1, 0] hvisits hvisits' st st' hst hst' 1 (by decide)
  have hsame : bitsOf st 1 0 = bitsOf st' 1 0 := by rw [bitsOf, bitsOf, heq]
  rw [hbits.2, hbits'] at hsame
  cases hsame

end AttrFamily

end SELinux.Cil
