/-
  SELinux.Lib.Rpn — programs in reverse Polish notation on a stack of bounded depth.

  A program pushes values and combines the top one or two. A push on a full stack and
  an operator with too few operands stop it. The values of an expression never decide
  whether it stops, only its shape does:

  - `run_length`: the depth after a run is computed from the shapes alone.
  - `run_concat_un`: what one more unary operator does to the bottom of the stack.

  A tree is written as a program operands first. `Tree.need` is the depth that takes:

  - `Tree.run_program`: the program of a tree leaves its value when the stack has that depth,
    and stops otherwise.

  The other way round, a list of elements with shapes is a tree of them (`Form`):

  - `Form.exists_form`: a list that leaves one value is the list of exactly one tree, and the
    operations of the elements leave the value of that tree.
-/
import SELinux.Lib.Run

namespace SELinux.Lib.Rpn

open List Option

variable {β : Type}

inductive Op (β : Type)
  | push (v : β)
  | un (f : β → β)
  | bin (f : β → β → β)

inductive Shape
  | push
  | un
  | bin
  deriving DecidableEq, Repr

def Op.shape : Op β → Shape
  | .push _ => .push
  | .un _ => .un
  | .bin _ => .bin

/-- One operation on a stack, top first. -/
def step (max : Nat) (s : List β) : Op β → Option (List β)
  | .push v => if s.length = max then none else some (v :: s)
  | .un f =>
    match s with
    | x :: r => some (f x :: r)
    | [] => none
  | .bin f =>
    match s with
    | y :: x :: r => some (f x y :: r)
    | _ => none

def run (max : Nat) (ops : List (Op β)) (s : List β) : Option (List β) := ops.foldlM (step max) s

def depthStep (max d : Nat) : Shape → Option Nat
  | .push => if d = max then none else some (d + 1)
  | .un => if d = 0 then none else some d
  | .bin => if d < 2 then none else some (d - 1)

def depth (max : Nat) (shapes : List Shape) (d : Nat) : Option Nat := shapes.foldlM (depthStep max) d

theorem step_length (max : Nat) (s : List β) (op : Op β) :
    (step max s op).map List.length = depthStep max s.length op.shape := by
  unfold step depthStep
  cases op with
  | push v =>
    simp only [Op.shape]
    split <;> rfl
  | un f => cases s <;> rfl
  | bin f =>
    match s with
    | [] => rfl
    | [_] => rfl
    | _ :: _ :: _ => rfl

theorem run_length (max : Nat) (ops : List (Op β)) (s : List β) :
    (run max ops s).map List.length = depth max (ops.map Op.shape) s.length := by
  induction ops generalizing s with
  | nil => rfl
  | cons op ops ih =>
    have hstep := step_length max s op
    unfold run depth at ih ⊢
    simp only [foldlM_cons, map_cons, ← hstep]
    cases step max s op with
    | none => rfl
    | some s' => exact ih s'

/-- A unary operator at the end changes the top; that is the bottom when nothing else is left. -/
theorem run_concat_un (max : Nat) (ops : List (Op β)) (f : β → β) (s : List β) :
    (run max (ops ++ [.un f]) s).bind List.getLast? =
      (run max ops s).bind fun r => if r.length = 1 then r.getLast?.map f else r.getLast? := by
  unfold run
  rw [foldlM_append]
  cases h : ops.foldlM (step max) s with
  | none => rfl
  | some r =>
    match r with
    | [] => rfl
    | [x] => rfl
    | x :: y :: r => simp [step]

/-! ## Trees -/

inductive Tree (β : Type)
  | leaf (v : β)
  | un (f : β → β) (t : Tree β)
  | bin (f : β → β → β) (l r : Tree β)

namespace Tree

def eval : Tree β → β
  | leaf v => v
  | un f t => f t.eval
  | bin f l r => f l.eval r.eval

def program : Tree β → List (Op β)
  | leaf v => [.push v]
  | un f t => t.program ++ [.un f]
  | bin f l r => l.program ++ r.program ++ [.bin f]

/-- The second operand is computed above the first one's value. -/
def need : Tree β → Nat
  | leaf _ => 1
  | un _ t => t.need
  | bin _ l r => max l.need (r.need + 1)

theorem need_pos (t : Tree β) : 0 < t.need := by
  induction t with
  | leaf v => exact Nat.one_pos
  | un f t ih => exact ih
  | bin f l r ihl _ => exact Nat.lt_of_lt_of_le ihl (Nat.le_max_left _ _)

theorem run_append (max : Nat) (ops ops' : List (Op β)) (s : List β) :
    run max (ops ++ ops') s = (run max ops s).bind (run max ops') := foldlM_append

theorem run_program {max : Nat} (t : Tree β) {s : List β} (hs : s.length ≤ max) :
    run max t.program s = if s.length + t.need ≤ max then some (t.eval :: s) else none := by
  induction t generalizing s with
  | leaf v =>
    rw [need]
    show (if _ then _ else _ : Option _).bind _ = _
    by_cases hfull : s.length = max
    · rw [if_pos hfull, if_neg (by omega)]
      rfl
    · rw [if_neg hfull, if_pos (by omega)]
      rfl
  | un f t ih =>
    rw [program, run_append, ih hs, need]
    split <;> rfl
  | bin f l r ihl ihr =>
    rw [program, run_append, run_append, ihl hs, need]
    -- the first operand does not fit, or the second one above its value, or both do
    by_cases hl : s.length + l.need ≤ max
    · have hpos := l.need_pos
      rw [if_pos hl, bind_some, ihr (by rw [length_cons]; omega), length_cons]
      by_cases hr : s.length + 1 + r.need ≤ max
      · rw [if_pos hr, if_pos (by omega)]
        rfl
      · rw [if_neg hr, if_neg (by omega)]
        rfl
    · rw [if_neg hl, if_neg (by omega)]
      rfl

/-- What is left at the bottom when the stack starts empty. -/
theorem run_program_nil (max : Nat) (t : Tree β) :
    (run max t.program []).bind List.getLast? = if t.need ≤ max then some t.eval else none := by
  rw [run_program t (Nat.zero_le _), length_nil, Nat.zero_add]
  split <;> rfl

/-- Its shapes alone leave one value, or do not fit. -/
theorem depth_program (max : Nat) (t : Tree β) :
    depth max (t.program.map Op.shape) 0 = if t.need ≤ max then some 1 else none := by
  have hlength := run_length max t.program []
  rw [length_nil, run_program t (Nat.zero_le _), length_nil, Nat.zero_add] at hlength
  rw [← hlength]
  split <;> rfl

end Tree

/-! ## Lists as trees -/

variable {shapes : List Shape} {d : Nat}

section Forms

variable {α β : Type}

/-- A tree whose nodes are the elements of a list. -/
inductive Form (α : Type)
  | leaf (a : α)
  | un (a : α) (t : Form α)
  | bin (a : α) (l r : Form α)

namespace Form

/-- The list that a tree is written as, operands first. -/
def list : Form α → List α
  | leaf a => [a]
  | un a t => t.list ++ [a]
  | bin a l r => l.list ++ r.list ++ [a]

/-- The value of a tree, whose nodes are operations. -/
def eval (value : α → β) (f : α → β → β) (g : α → β → β → β) : Form α → β
  | leaf a => value a
  | un a t => f a (t.eval value f g)
  | bin a l r => g a (l.eval value f g) (r.eval value f g)

variable (shape : α → Option Shape)

/-- The nodes have as many operands as their shapes say. -/
def Shaped : Form α → Prop
  | leaf a => shape a = some .push
  | un a t => shape a = some .un ∧ t.Shaped
  | bin a l r => shape a = some .bin ∧ l.Shaped ∧ r.Shaped

/-- One element on a stack of trees. -/
def parseStep (s : List (Form α)) (a : α) : Option (List (Form α)) :=
  match shape a, s with
  | some .push, s => some (leaf a :: s)
  | some .un, t :: s => some (un a t :: s)
  | some .bin, r :: l :: s => some (bin a l r :: s)
  | _, _ => none

def parse (l : List α) (s : List (Form α)) : Option (List (Form α)) := l.foldlM (parseStep shape) s

variable {shape} {l : List α} {s : List (Form α)}

theorem parse_append (l l' : List α) (s : List (Form α)) :
    parse shape (l ++ l') s = (parse shape l s).bind (parse shape l') :=
  foldlM_append

theorem parse_singleton (a : α) (s : List (Form α)) : parse shape [a] s = parseStep shape s a := by
  exact bind_fun_some _

/-- A tree is what is read from its own list. -/
theorem parse_list {t : Form α} (h : t.Shaped shape) (s : List (Form α)) : parse shape t.list s = some (t :: s) := by
  induction t generalizing s with
  | leaf a =>
    have hshape : shape a = some .push := h
    simp only [list, parse_singleton, parseStep, hshape]
  | un a t ih =>
    rw [list, parse_append, ih h.2, bind_some, parse_singleton]
    simp only [parseStep, h.1]
  | bin a l r ihl ihr =>
    rw [list, parse_append, parse_append, ihl h.2.1, bind_some, ihr h.2.2, bind_some, parse_singleton]
    simp only [parseStep, h.1]

/-- The lists of a stack of trees, the bottom first. -/
def lists (s : List (Form α)) : List α := s.reverse.flatMap list

theorem lists_cons (t : Form α) (s : List (Form α)) : lists (t :: s) = lists s ++ t.list := by simp [lists]

theorem parseStep_spec {s s' : List (Form α)} {a : α} (h : parseStep shape s a = some s') (hs : ∀ t ∈ s, t.Shaped shape) :
    (∀ t ∈ s', t.Shaped shape) ∧ lists s' = lists s ++ [a] := by
  unfold parseStep at h
  split at h
  next hshape =>
    cases h
    exact ⟨forall_mem_cons.mpr ⟨hshape, hs⟩, lists_cons _ _⟩
  next t s hshape =>
    cases h
    obtain ⟨ht, hs⟩ := forall_mem_cons.mp hs
    refine ⟨forall_mem_cons.mpr ⟨⟨hshape, ht⟩, hs⟩, ?_⟩
    rw [lists_cons, lists_cons, list, append_assoc]
  next r l s hshape =>
    cases h
    obtain ⟨hr, hs⟩ := forall_mem_cons.mp hs
    obtain ⟨hl, hs⟩ := forall_mem_cons.mp hs
    refine ⟨forall_mem_cons.mpr ⟨⟨hshape, hl, hr⟩, hs⟩, ?_⟩
    simp only [lists_cons, list, append_assoc]
  · cases h

theorem parse_spec {s' : List (Form α)} (h : parse shape l s = some s') (hs : ∀ t ∈ s, t.Shaped shape) :
    (∀ t ∈ s', t.Shaped shape) ∧ lists s' = lists s ++ l := by
  induction l generalizing s with
  | nil =>
    cases h
    exact ⟨hs, (append_nil _).symm⟩
  | cons a l ih =>
    obtain ⟨s1, h1, hrest⟩ := bind_eq_some_iff.mp h
    obtain ⟨hs1, hlists⟩ := parseStep_spec h1 hs
    obtain ⟨hs', hlists'⟩ := ih hrest hs1
    refine ⟨hs', ?_⟩
    rw [hlists', hlists, append_assoc]
    rfl

section Eval

variable (value : α → β) (f : α → β → β) (g : α → β → β → β)

/-- The operation of an element. -/
def opOf (a : α) : Shape → Op β
  | .push => .push (value a)
  | .un => .un (f a)
  | .bin => .bin (g a)

/-- An element whose shape fits is read, and values are computed as trees are read. -/
theorem step_parseStep {max : Nat} {a : α} {sh : Shape} (hshape : shape a = some sh)
    (h : depthStep max s.length sh = some d) : ∃ s', parseStep shape s a = some s' ∧ s'.length = d ∧
      step max (s.map (eval value f g)) (opOf value f g a sh) = some (s'.map (eval value f g)) := by
  unfold parseStep
  rw [hshape]
  cases sh with
  | push =>
    rw [depthStep] at h
    split at h
    · cases h
    next hroom =>
      cases h
      refine ⟨_, rfl, rfl, ?_⟩
      rw [opOf, step, length_map, if_neg hroom]
      rfl
  | un =>
    cases s with
    | nil => cases h
    | cons t s =>
      cases h
      exact ⟨_, rfl, rfl, rfl⟩
  | bin =>
    match s with
    | [] => cases h
    | [_] => cases h
    | r :: l :: s =>
      cases h
      exact ⟨_, rfl, rfl, rfl⟩

/-- A run of the operations of a list leaves the values of its trees, if the stack is deep enough. -/
theorem run_parse {max : Nat} (hl : l.mapM shape = some shapes)
    (h : depth max shapes s.length = some d) : ∃ s', parse shape l s = some s' ∧ s'.length = d ∧
      ∀ {op : α → Option (Op β)} {ops : List (Op β)}, (∀ a ∈ l, op a = (shape a).map (opOf value f g a)) →
        l.mapM op = some ops → run max ops (s.map (eval value f g)) = some (s'.map (eval value f g)) := by
  induction l generalizing shapes s with
  | nil =>
    cases hl
    cases h
    refine ⟨s, rfl, rfl, ?_⟩
    intro op ops _ hops
    cases hops
    rfl
  | cons a l ih =>
    obtain ⟨sh, hsh, shs, hshs, rfl⟩ := Run.mapM_cons_some.mp hl
    obtain ⟨d1, hd1, hd⟩ := bind_eq_some_iff.mp h
    obtain ⟨s1, hs1, rfl, hstep⟩ := step_parseStep value f g hsh hd1
    obtain ⟨s', hs', hlen, hrun⟩ := ih hshs hd
    refine ⟨s', bind_eq_some_iff.mpr ⟨s1, hs1, hs'⟩, hlen, ?_⟩
    intro op ops hop hops
    obtain ⟨hopa, hop⟩ := forall_mem_cons.mp hop
    obtain ⟨o, ho, os, hos, rfl⟩ := Run.mapM_cons_some.mp hops
    rw [hopa, hsh] at ho
    cases ho
    exact bind_eq_some_iff.mpr ⟨_, hstep, hrun hop hos⟩

/-- A list that leaves one value is the list of exactly one tree, whose value its operations leave. -/
theorem exists_form {max : Nat} (hl : l.mapM shape = some shapes) (h : depth max shapes 0 = some 1) :
    ∃ t : Form α, t.Shaped shape ∧ t.list = l ∧ (∀ t' : Form α, t'.Shaped shape → t'.list = l → t' = t) ∧
      ∀ {op : α → Option (Op β)} {ops : List (Op β)}, (∀ a ∈ l, op a = (shape a).map (opOf value f g a)) →
        l.mapM op = some ops → run max ops [] = some [t.eval value f g] := by
  obtain ⟨s, hs, hlen, hrun⟩ := run_parse (s := []) value f g hl h
  obtain ⟨t, rfl⟩ := length_eq_one_iff.mp hlen
  obtain ⟨hshaped, hlists⟩ := parse_spec hs (forall_mem_nil _)
  refine ⟨t, hshaped t mem_cons_self, by simpa [lists] using hlists, ?_, hrun⟩
  intro t' ht' heq
  have hparse := parse_list ht' []
  rw [heq, hs] at hparse
  cases hparse
  rfl

end Eval

end Form

end Forms

end SELinux.Lib.Rpn
