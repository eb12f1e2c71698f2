/-
  SELinux.Lib.Demand — values defined in terms of one another, evaluated on demand.

  A definition is a list of programs that may ask for other values; what they return is
  joined. An index is evaluated when its value is first asked for. It is marked before that,
  with the value joined so far, and a program that asks for a marked index is given what is
  there.

  - `visitAll_total`: with as much fuel as there are indices the evaluation returns.
  - `visitAll_right`: when no definition refers back to itself, every index gets the value of
    the equations, in whatever order the indices are visited.
  - `visitAll_apart`: of two indices the one that is finished first does not have what is the
    other one's own.
-/
import SELinux.Lib.Run

namespace SELinux.Lib.Demand

open List Option

/-! ## Programs -/

/-- A program that returns a value, fails, or asks for the value of an index. -/
inductive Prog (ι β α : Type)
  | ret (a : α)
  | fail
  | ask (i : ι) (k : β → Prog ι β α)

variable {ι β α γ : Type}

variable {p : Prog ι β α} {j : ι} {a : α}

namespace Prog

def bind : Prog ι β α → (α → Prog ι β γ) → Prog ι β γ
  | ret a, f => f a
  | fail, _ => fail
  | ask i k, f => ask i fun b => (k b).bind f

instance : Monad (Prog ι β) where
  pure := ret
  bind := bind

/-- What cannot be computed. -/
def ofOption : Option α → Prog ι β α
  | some a => ret a
  | none => fail

/-- The result when `env` gives the values. -/
def eval (env : ι → β) : Prog ι β α → Option α
  | ret a => some a
  | fail => none
  | ask i k => (k (env i)).eval env

def Asks : Prog ι β α → ι → Prop
  | ret _, _ => False
  | fail, _ => False
  | ask i k, j => j = i ∨ ∃ b, (k b).Asks j

@[simp] theorem eval_bind (env : ι → β) (p : Prog ι β α) (f : α → Prog ι β γ) :
    (p >>= f).eval env = (p.eval env).bind fun a => (f a).eval env := by
  induction p with
  | ret a => rfl
  | fail => rfl
  | ask i k ih => exact ih (env i)

@[simp] theorem asks_pure : ¬(pure a : Prog ι β α).Asks j := nofun

@[simp] theorem asks_ofOption {o : Option α} : ¬(ofOption o : Prog ι β α).Asks j := by
  cases o <;> exact nofun

theorem asks_bind {f : α → Prog ι β γ} (h : (p >>= f).Asks j) : p.Asks j ∨ ∃ a, (f a).Asks j := by
  induction p with
  | ret a => exact Or.inr ⟨a, h⟩
  | fail => cases h
  | ask i k ih =>
    rcases h with h | ⟨b, h⟩
    · exact Or.inl (Or.inl h)
    · rcases ih b h with h | h
      · exact Or.inl (Or.inr ⟨b, h⟩)
      · exact Or.inr h

/-- No answers make the program fail. -/
def NoFail : Prog ι β α → Prop
  | ret _ => True
  | fail => False
  | ask _ k => ∀ b, (k b).NoFail

theorem NoFail.bind {f : α → Prog ι β γ} (hp : p.NoFail) (hf : ∀ a, (f a).NoFail) : (p >>= f).NoFail := by
  induction p with
  | ret a => exact hf a
  | fail => cases hp
  | ask i k ih => exact fun b => ih b (hp b)

theorem NoFail.eval (hp : p.NoFail) (env : ι → β) : ∃ a, p.eval env = some a := by
  induction p with
  | ret a => exact ⟨a, rfl⟩
  | fail => cases hp
  | ask i k ih => exact ih (env i) (hp (env i))

/-- What is returned has nothing but what is in `T` and what the answers have. -/
def Passes (has : α → ι → Prop) (T : ι → Prop) : Prog ι α α → Prop
  | ret b => ∀ x, has b x → T x
  | fail => True
  | ask _ k => ∀ b, (k b).Passes has fun x => T x ∨ has b x

/-- The result depends on what is asked for. -/
theorem eval_congr {env env' : ι → β} (h : ∀ j, p.Asks j → env j = env' j) : p.eval env = p.eval env' := by
  induction p with
  | ret a => rfl
  | fail => rfl
  | ask i k ih =>
    rw [eval, eval, ← h i (Or.inl rfl)]
    exact ih (env i) fun j hj => h j (Or.inr ⟨env i, hj⟩)

/-- A program run on a state, where `demand` answers it. -/
def run {σ : Type} (demand : ι → σ → Option (β × σ)) : Prog ι β α → σ → Option (α × σ)
  | ret a, s => some (a, s)
  | fail, _ => none
  | ask i k, s =>
    match demand i s with
    | none => none
    | some (b, s) => (k b).run demand s

/-- What holds of the program and the state, and of what is left of the program after each
    answer, holds at its end. -/
theorem run_inv {σ : Type} {demand : ι → σ → Option (β × σ)} {P : Prog ι β α → σ → Prop}
    (hask : ∀ i k s b s', P (.ask i k) s → demand i s = some (b, s') → P (k b) s') {s s' : σ} (hp : P p s)
    (h : p.run demand s = some (a, s')) : P (.ret a) s' := by
  induction p generalizing s with
  | ret a' =>
    cases h
    exact hp
  | fail => cases h
  | ask i k ih =>
    rw [run] at h
    split at h
    · cases h
    next b s' hi => exact ih b (hask i k s b s' hp hi) h

end Prog

/-! ## Evaluation on demand -/

/-- The definition of each index: `start` joined with what each program returns. -/
structure System (ι β : Type) where
  defs : ι → List (Prog ι β β)
  start : β
  join : β → β → β

variable {b : β}

namespace System

/-- The values so far; `none` is not asked for yet. -/
abbrev St (ι β : Type) := ι → Option β

variable (S : System ι β)

/-! ## Equations -/

/-- The value of `i` when `env` gives the others. -/
def value (env : ι → β) (i : ι) : Option β := (S.defs i).foldlM (fun b p => (p.eval env).map (S.join b)) S.start

def Solves (env : ι → β) : Prop := ∀ i, S.value env i = some (env i)

/-- The definition of `i` may ask for `j`. -/
def Refers (i j : ι) : Prop := ∃ p ∈ S.defs i, p.Asks j

theorem value_congr {env env' : ι → β} {i : ι} (h : ∀ j, S.Refers i j → env j = env' j) :
    S.value env i = S.value env' i := by
  have hprog : ∀ p ∈ S.defs i, p.eval env = p.eval env' := by
    intro p hp
    exact Prog.eval_congr fun j hj => h j ⟨p, hp, hj⟩
  unfold value
  generalize S.start = b
  generalize S.defs i = l at hprog
  induction l generalizing b with
  | nil => rfl
  | cons p l ih =>
    rw [foldlM_cons, hprog p mem_cons_self]
    congr 1
    funext b
    exact ih b fun q hq => hprog q (mem_cons_of_mem p hq)

theorem exists_value {i : ι} (htotal : ∀ p ∈ S.defs i, p.NoFail) (env : ι → β) : ∃ b, S.value env i = some b := by
  unfold value
  generalize S.start = b
  generalize S.defs i = l at htotal
  induction l generalizing b with
  | nil => exact ⟨b, rfl⟩
  | cons p l ih =>
    obtain ⟨v, hv⟩ := (htotal p mem_cons_self).eval env
    rw [foldlM_cons, hv]
    exact ih (S.join b v) fun q hq => htotal q (mem_cons_of_mem p hq)

/-- Approximations of the solution: definitions unfolded `n` times. -/
def approx : Nat → ι → β
  | 0, _ => S.start
  | n + 1, i => (S.value (approx n) i).getD S.start

variable {S} in
theorem approx_eq {rank : ι → Nat} (hrank : ∀ i j, S.Refers i j → rank j < rank i) {n m : Nat} {i : ι} (hn : rank i < n)
    (hm : rank i < m) : S.approx n i = S.approx m i := by
  induction n generalizing m i with
  | zero => omega
  | succ n ih =>
    cases m with
    | zero => omega
    | succ m =>
      have hvalue : S.value (S.approx n) i = S.value (S.approx m) i := by
        refine S.value_congr ?_
        intro j hj
        have hlt := hrank i j hj
        exact ih (by omega) (by omega)
      rw [approx, approx, hvalue]

variable {S} in
/-- Definitions that do not refer back have a solution, when no program fails. -/
theorem exists_solution {rank : ι → Nat} (hrank : ∀ i j, S.Refers i j → rank j < rank i) {bound : Nat}
    (hbound : ∀ i, rank i ≤ bound) (htotal : ∀ i, ∀ p ∈ S.defs i, p.NoFail) : ∃ env, S.Solves env := by
  refine ⟨S.approx (bound + 1), ?_⟩
  intro i
  have hvalue : S.value (S.approx (bound + 1)) i = S.value (S.approx bound) i := by
    refine S.value_congr ?_
    intro j hj
    have hlt := hrank i j hj
    have hle := hbound i
    exact approx_eq hrank (by omega) (by omega)
  obtain ⟨b, hb⟩ := S.exists_value (htotal i) (S.approx bound)
  rw [hvalue, approx, hb]
  rfl

open Classical in
/-- Among finitely many indices a relation without cycles goes down in some rank. -/
theorem exists_rank {R : Nat → Nat → Prop} {n : Nat} (hR : ∀ a b, R a b → b < n) (hacyclic : ∀ a, ¬Relation.TransGen R a a) :
    ∃ rank : Nat → Nat, (∀ a b, R a b → rank b < rank a) ∧ ∀ a, rank a ≤ n := by
  refine ⟨fun a => ((Finset.range n).filter (Relation.TransGen R a)).card, ?_, ?_⟩
  · intro a b hab
    refine Finset.card_lt_card ⟨?_, ?_⟩
    · intro c hc
      simp only [Finset.mem_filter] at hc ⊢
      exact ⟨hc.1, Relation.TransGen.head hab hc.2⟩
    · intro h
      have hb := h (Finset.mem_filter.mpr ⟨Finset.mem_range.mpr (hR a b hab), Relation.TransGen.single hab⟩)
      exact hacyclic b (Finset.mem_filter.mp hb).2
  · intro a
    exact (Finset.card_filter_le _ _).trans (Finset.card_range n).le

/-! ## Evaluation -/

/-- The value of an index, evaluated by `evalDef` if it is not there. -/
def demand (evalDef : ι → St ι β → Option (St ι β)) (i : ι) (st : St ι β) : Option (β × St ι β) := do
  let st ← match st i with
    | some _ => some st
    | none => evalDef i st
  return ((st i).getD S.start, st)

variable {S} in
theorem demand_cases {evalDef : ι → St ι β → Option (St ι β)} {i : ι} {st st' : St ι β}
    (h : S.demand evalDef i st = some (b, st')) :
    (st i = some b ∧ st' = st) ∨ (st i = none ∧ evalDef i st = some st' ∧ b = (st' i).getD S.start) := by
  simp only [demand] at h
  cases hi : st i with
  | some v =>
    rw [hi] at h
    cases h
    exact Or.inl ⟨by rw [hi]; rfl, rfl⟩
  | none =>
    rw [hi] at h
    obtain ⟨st₁, hst₁, heq⟩ := bind_eq_some_iff.mp h
    cases heq
    exact Or.inr ⟨rfl, hst₁, rfl⟩

/-- The indices that `i` leads to. -/
abbrev Below (i : ι) : ι → Prop := Relation.TransGen S.Refers i

/-- What is there stays as it is. -/
def Keeps (st st' : St ι β) : Prop := ∀ j b, st j = some b → st' j = some b

theorem Keeps.trans {st₁ st₂ st₃ : St ι β} (h₁ : Keeps st₁ st₂) (h₂ : Keeps st₂ st₃) : Keeps st₁ st₃ :=
  fun j b h => h₂ j b (h₁ j b h)

theorem Keeps.eq_none {st st' : St ι β} (h : Keeps st st') (hj : st' j = none) : st j = none := by
  cases hst : st j with
  | none => rfl
  | some b =>
    rw [h j b hst] at hj
    cases hj

theorem run_keeps {demand : ι → St ι β → Option (β × St ι β)}
    (hdemand : ∀ j st b st', demand j st = some (b, st') → Keeps st st') {st st' : St ι β}
    (h : p.run demand st = some (a, st')) : Keeps st st' := by
  refine Prog.run_inv (P := fun _ s => Keeps st s) ?_ (fun _ _ h => h) h
  intro i k s b s' hs hi
  exact hs.trans (hdemand i s b s' hi)

/-! ## Own elements -/

/-- What is an index's own comes from its definition's last program; `has b x` is that `b` has
    what is `x`'s own. -/
structure OwnLast (has : β → ι → Prop) : Prop where
  start : ∀ x, ¬has S.start x
  join : ∀ b c x, has (S.join b c) x → has b x ∨ has c x
  last : ∀ i, S.defs i = [] ∨
    ∃ l b, S.defs i = l ++ [.ret b] ∧ (∀ p ∈ l, p.Passes has fun _ => False) ∧ ∀ x, has b x → x = i

section Own

variable (has : β → ι → Prop) (x y : ι)

def Lacks (b : β) : Prop := ¬has b x ∧ ¬has b y

/-- Nothing has what is `x`'s own or `y`'s. -/
def Fresh (st : St ι β) : Prop := ∀ z v, st z = some v → Lacks has x y v

/-- `x` was evaluated on the way from `st` to `st'` and does not have what is `y`'s own, or the
    other way round. -/
def Settled (st st' : St ι β) : Prop :=
  (st x = none ∧ ∃ v, st' x = some v ∧ ¬has v y) ∨ (st y = none ∧ ∃ v, st' y = some v ∧ ¬has v x)

variable {has x y} {st st₁ st₂ : St ι β}

theorem Settled.keeps (h : Settled has x y st st₁) (hk : Keeps st₁ st₂) : Settled has x y st st₂ := by
  rcases h with ⟨hx, v, hv, hno⟩ | ⟨hy, v, hv, hno⟩
  · exact Or.inl ⟨hx, v, hk x v hv, hno⟩
  · exact Or.inr ⟨hy, v, hk y v hv, hno⟩

theorem Settled.before (h : Settled has x y st₁ st₂) (hmarked : ∀ j, st₁ j = none → st j = none) : Settled has x y st st₂ :=
  h.imp (And.imp_left (hmarked x)) (And.imp_left (hmarked y))

theorem Fresh.getD (h : Fresh has x y st) (hb : Lacks has x y b) (i : ι) : Lacks has x y ((st i).getD b) := by
  cases hi : st i with
  | none => exact hb
  | some v => exact h i v hi

theorem OwnLast.lacks_start {S : System ι β} (h : S.OwnLast has) : Lacks has x y S.start := ⟨h.start x, h.start y⟩

theorem OwnLast.lacks_join {S : System ι β} (h : S.OwnLast has) {c : β} (hb : Lacks has x y b)
    (hc : Lacks has x y c) : Lacks has x y (S.join b c) :=
  ⟨fun hx => (h.join b c x hx).elim hb.1 hc.1, fun hy => (h.join b c y hy).elim hb.2 hc.2⟩

end Own

variable [DecidableEq ι]

def mark (st : St ι β) (i : ι) (b : β) : St ι β := fun j => if j = i then some b else st j

theorem mark_self (st : St ι β) (i : ι) (b : β) : mark st i b i = some b := if_pos rfl

theorem mark_ne (st : St ι β) {i : ι} (b : β) (h : j ≠ i) : mark st i b j = st j := if_neg h

theorem Keeps.mark {st st' : St ι β} (h : Keeps st st') {i : ι} (hi : st i = none) (b : β) : Keeps st (mark st' i b) := by
  intro j c hj
  have hji : j ≠ i := by
    rintro rfl
    rw [hi] at hj
    cases hj
  rw [mark_ne _ _ hji]
  exact h j c hj

/-- One program of the definition of `i`. -/
def evalProg (evalDef : ι → St ι β → Option (St ι β)) (i : ι) (st : St ι β) (p : Prog ι β β) : Option (St ι β) := do
  let (b, st) ← p.run (S.demand evalDef) st
  return mark st i (S.join ((st i).getD S.start) b)

/-- `fuel` bounds how deep definitions ask for one another. -/
def evalDef : Nat → ι → St ι β → Option (St ι β)
  | 0, _, _ => none
  | fuel + 1, i, st => (S.defs i).foldlM (S.evalProg (evalDef fuel) i) (mark st i S.start)

def visit (fuel : Nat) (st : St ι β) (i : ι) : Option (St ι β) :=
  match st i with
  | some _ => some st
  | none => S.evalDef fuel i st

def visitAll (fuel : Nat) (order : List ι) : Option (St ι β) := order.foldlM (S.visit fuel) fun _ => none

variable {S} {fuel : Nat} {i : ι} {st st' : St ι β}

theorem evalProg_some {evalDef : ι → St ι β → Option (St ι β)} {p : Prog ι β β} (h : S.evalProg evalDef i st p = some st') :
    ∃ b st₁, p.run (S.demand evalDef) st = some (b, st₁) ∧ st' = mark st₁ i (S.join ((st₁ i).getD S.start) b) := by
  obtain ⟨⟨b, st₁⟩, hrun, heq⟩ := bind_eq_some_iff.mp h
  cases heq
  exact ⟨b, st₁, hrun, rfl⟩

theorem visit_some (h : S.visit fuel st i = some st') :
    (st i ≠ none ∧ st' = st) ∨ (st i = none ∧ S.evalDef fuel i st = some st') := by
  unfold visit at h
  cases hi : st i with
  | some v =>
    rw [hi] at h
    cases h
    exact Or.inl ⟨nofun, rfl⟩
  | none =>
    rw [hi] at h
    exact Or.inr ⟨rfl, h⟩

theorem demand_keeps (heval : ∀ {i st st'}, st i = none → S.evalDef fuel i st = some st' → Keeps st st') (j : ι)
    (st : St ι β) (b : β) (st' : St ι β) (h : S.demand (S.evalDef fuel) j st = some (b, st')) : Keeps st st' := by
  rcases demand_cases h with ⟨-, rfl⟩ | ⟨hj, hst', -⟩
  · exact fun _ _ h => h
  · exact heval hj hst'

theorem evalDef_keeps (hi : st i = none) (h : S.evalDef fuel i st = some st') : Keeps st st' := by
  induction fuel generalizing i st st' with
  | zero => cases h
  | succ fuel ih =>
    refine Run.foldlM_history (P := fun _ s => Keeps st s) ?_ (Keeps.mark (fun _ _ h => h) hi S.start) h
    intro _ p s s' _ hs hprog
    obtain ⟨b, s₁, hrun, rfl⟩ := evalProg_some hprog
    exact (hs.trans (run_keeps (demand_keeps ih) hrun)).mark hi _

theorem run_evalDef_keeps (h : p.run (S.demand (S.evalDef fuel)) st = some (a, st')) : Keeps st st' :=
  run_keeps (demand_keeps evalDef_keeps) h

/-! ## Without references back -/

/-- What is there of the indices in `J` is the solution's. -/
def Right (env : ι → β) (J : ι → Prop) (st : St ι β) : Prop := ∀ j, J j → st j = none ∨ st j = some (env j)

section Solution

variable {env : ι → β}

/-- A program of `i` that is answered from the solution returns what it returns there. -/
theorem run_right {J : ι → Prop} (hJ : ∀ j, S.Below i j → J j)
    (heval : ∀ {j st st'}, S.Below i j → st j = none → Right env J st → S.evalDef fuel j st = some st' →
      st' j = some (env j) ∧ Right env J st')
    {p : Prog ι β β} (hp : p ∈ S.defs i) (hst : Right env J st) (h : p.run (S.demand (S.evalDef fuel)) st = some (b, st')) :
    p.eval env = some b ∧ Right env J st' := by
  have hend := Prog.run_inv (P := fun q s => (∀ j, q.Asks j → S.Below i j) ∧ p.eval env = q.eval env ∧ Right env J s) ?_
    ⟨fun j hj => .single ⟨p, hp, hj⟩, rfl, hst⟩ h
  · exact hend.2
  · rintro j k s c s' ⟨hasks, hvalue, hs⟩ hj
    have hij := hasks j (Or.inl rfl)
    have hanswer : c = env j ∧ Right env J s' := by
      rcases demand_cases hj with ⟨hsj, rfl⟩ | ⟨hsj, hs', rfl⟩
      · rcases hs j (hJ j hij) with hnone | hright
        · rw [hsj] at hnone
          cases hnone
        · rw [hsj] at hright
          exact ⟨some.inj hright, hs⟩
      · obtain ⟨hc, hs'⟩ := heval hij hsj hs hs'
        rw [hc]
        exact ⟨rfl, hs'⟩
    obtain ⟨rfl, hs'⟩ := hanswer
    exact ⟨fun m hm => hasks m (Or.inr ⟨env j, hm⟩), hvalue, hs'⟩

variable (henv : S.Solves env) (hacyclic : ∀ i, ¬S.Below i i)

include henv hacyclic

/-- `J` has the indices that `i` leads to, and none that is being evaluated. -/
theorem evalDef_right {J : ι → Prop} (hJ : ∀ j, S.Below i j → J j) (hi : st i = none) (hst : Right env J st)
    (h : S.evalDef fuel i st = some st') : st' i = some (env i) ∧ Right env J st' := by
  induction fuel generalizing i st st' J with
  | zero => cases h
  | succ fuel ih =>
    have hbelow : ∀ j, S.Below i j → J j ∧ j ≠ i := fun j hj => ⟨hJ j hj, fun heq => hacyclic i (heq ▸ hj)⟩
    have hmark : ∀ s b, Right env (fun j => J j ∧ j ≠ i) s → Right env (fun j => J j ∧ j ≠ i) (mark s i b) := by
      intro s b hs j hj
      rw [mark_ne _ _ hj.2]
      exact hs j hj
    -- the value joined so far is at `i`
    have hloop := Run.foldlM_history (P := fun done s => Right env (fun j => J j ∧ j ≠ i) s ∧
      ∃ c, s i = some c ∧ done.foldlM (fun b p => (p.eval env).map (S.join b)) S.start = some c)
      ?_ ⟨hmark st S.start fun j hj => hst j hj.1, S.start, mark_self _ _ _, rfl⟩ h
    · obtain ⟨hright, c, hc, hvalue⟩ := hloop
      cases hvalue.symm.trans (henv i)
      refine ⟨hc, ?_⟩
      intro j hj
      by_cases hji : j = i
      · exact Or.inr (hji ▸ hc)
      · exact hright j ⟨hj, hji⟩
    · rintro done p s s' hmem ⟨hs, c, hc, hvalue⟩ hprog
      obtain ⟨b, s₁, hp, rfl⟩ := evalProg_some hprog
      obtain ⟨hb, hs₁⟩ := run_right hbelow (fun hij => ih fun m hm => hbelow m (hij.trans hm)) (hmem p (by simp)) hs hp
      refine ⟨hmark s₁ _ hs₁, S.join c b, ?_, ?_⟩
      · rw [mark_self, run_evalDef_keeps hp i c hc, getD_some]
      · simp [foldlM_append, hvalue, hb]

/-- Every visited index has the value of the equations, whatever the order. -/
theorem visitAll_right {order : List ι} (h : S.visitAll fuel order = some st) :
    (∀ i ∈ order, st i = some (env i)) ∧ ∀ i, st i = none ∨ st i = some (env i) := by
  have hloop := Run.foldlM_history (P := fun done s => Right env (fun _ => True) s ∧ ∀ i ∈ done, s i ≠ none) ?_
    ⟨fun _ _ => Or.inl rfl, nofun⟩ h
  · exact ⟨fun i hi => (hloop.1 i trivial).resolve_left (hloop.2 i hi), fun i => hloop.1 i trivial⟩
  · rintro done i s s' - ⟨hs, hdone⟩ hvisit
    rcases visit_some hvisit with ⟨hi, rfl⟩ | ⟨hi, heval⟩
    · exact ⟨hs, fun j hj => (mem_append.mp hj).elim (hdone j) fun hj => mem_singleton.mp hj ▸ hi⟩
    · obtain ⟨hvalue, hs'⟩ := evalDef_right henv hacyclic (fun _ _ => trivial) hi hs heval
      refine ⟨hs', ?_⟩
      intro j hj hnone
      rcases mem_append.mp hj with hj | hj
      · exact hdone j hj ((evalDef_keeps hi heval).eq_none hnone)
      · rw [mem_singleton.mp hj, hvalue] at hnone
        cases hnone

end Solution

/-! ## Termination -/

/-- The indices below `n` that are not asked for yet. -/
def unmarked (n : Nat) (st : St Nat β) : Finset Nat := (Finset.range n).filter fun i => (st i).isNone

@[simp] theorem mem_unmarked {n i : Nat} {st : St Nat β} : i ∈ unmarked n st ↔ i < n ∧ st i = none := by
  simp [unmarked]

theorem Keeps.unmarked {n : Nat} {st st' : St Nat β} (h : Keeps st st') : (unmarked n st').card ≤ (unmarked n st).card := by
  refine Finset.card_le_card ?_
  intro j hj
  rw [mem_unmarked] at hj ⊢
  exact ⟨hj.1, h.eq_none hj.2⟩

theorem unmarked_mark (n i : Nat) (st : St Nat β) (b : β) : unmarked n (mark st i b) = (unmarked n st).erase i := by
  ext j
  by_cases hji : j = i
  · simp [hji, mark_self]
  · simp [hji, mark_ne]

theorem run_total {demand : Nat → St Nat β → Option (β × St Nat β)} {n m : Nat}
    (hdemand : ∀ j st, j < n → (unmarked n st).card ≤ m → ∃ b st', demand j st = some (b, st') ∧ Keeps st st')
    {p : Prog Nat β α} (hp : p.NoFail) (hasks : ∀ j, p.Asks j → j < n) {st : St Nat β} (hst : (unmarked n st).card ≤ m) :
    ∃ a st', p.run demand st = some (a, st') := by
  induction p generalizing st with
  | ret a => exact ⟨a, st, rfl⟩
  | fail => cases hp
  | ask i k ih =>
    obtain ⟨b, st₁, hst₁, hkeeps⟩ := hdemand i st (hasks i (Or.inl rfl)) hst
    obtain ⟨a, st₂, hst₂⟩ := ih b (hp b) (fun j hj => hasks j (Or.inr ⟨b, hj⟩)) (hkeeps.unmarked.trans hst)
    refine ⟨a, st₂, ?_⟩
    rw [Prog.run, hst₁]
    exact hst₂

section Total

variable {S : System Nat β} {n : Nat} (hclosed : ∀ i j, S.Refers i j → j < n) (htotal : ∀ i, ∀ p ∈ S.defs i, p.NoFail)

include hclosed htotal

/-- An evaluation nests at most as deep as there are indices left, references back or not. -/
theorem evalDef_total {fuel i : Nat} (hi : i < n) {st : St Nat β} (hst : st i = none) (hfuel : (unmarked n st).card ≤ fuel) :
    ∃ st', S.evalDef fuel i st = some st' := by
  induction fuel generalizing i st with
  | zero =>
    have hpos := Finset.card_pos.mpr ⟨i, mem_unmarked.mpr ⟨hi, hst⟩⟩
    omega
  | succ fuel ih =>
    have hdemand : ∀ j s, j < n → (unmarked n s).card ≤ fuel →
        ∃ b s', S.demand (S.evalDef fuel) j s = some (b, s') ∧ Keeps s s' := by
      intro j s hj hs
      unfold demand
      cases hsj : s j with
      | some b => exact ⟨_, s, rfl, fun _ _ h => h⟩
      | none =>
        obtain ⟨s', hs'⟩ := ih hj hsj hs
        simp only [hs', bind_eq_bind, bind_some]
        exact ⟨_, s', rfl, evalDef_keeps hsj hs'⟩
    refine Run.foldlM_some (P := fun s => (unmarked n s).card ≤ fuel) ?_ ?_
    · intro s p hp hs
      obtain ⟨b, s₁, hs₁⟩ := run_total hdemand (htotal i p hp) (fun j hj => hclosed i j ⟨p, hp, hj⟩) hs
      refine ⟨mark s₁ i (S.join ((s₁ i).getD S.start) b), ?_, ?_⟩
      · rw [evalProg, hs₁]
        rfl
      · rw [unmarked_mark]
        exact (Finset.card_erase_le).trans ((run_evalDef_keeps hs₁).unmarked.trans hs)
    · have hlt := Finset.card_erase_lt_of_mem (mem_unmarked.mpr ⟨hi, hst⟩)
      rw [unmarked_mark]
      omega

theorem visitAll_total {fuel : Nat} (hfuel : n ≤ fuel) {order : List Nat} (horder : ∀ i ∈ order, i < n) :
    ∃ st, S.visitAll fuel order = some st := by
  refine Run.foldlM_some (P := fun _ => True) ?_ trivial
  intro s i hi _
  unfold visit
  cases hsi : s i with
  | some b => exact ⟨s, rfl, trivial⟩
  | none =>
    have hle : (unmarked n s).card ≤ n := (Finset.card_filter_le _ _).trans (Finset.card_range n).le
    obtain ⟨s', hs'⟩ := evalDef_total hclosed htotal (horder i hi) hsi (hle.trans hfuel)
    exact ⟨s', hs', trivial⟩

end Total

/-! ## Two indices -/

section Apart

variable {has : β → ι → Prop} {x y : ι}

theorem Settled.mark {st₁ : St ι β} (h : Settled has x y st st₁) (hi : st i ≠ none) (b : β) :
    Settled has x y st (mark st₁ i b) := by
  have hne : ∀ j, st j = none → j ≠ i := fun j hj heq => hi (heq ▸ hj)
  rcases h with ⟨hx, v, hv, hno⟩ | ⟨hy, v, hv, hno⟩
  · exact Or.inl ⟨hx, v, (mark_ne _ _ (hne x hx)).trans hv, hno⟩
  · exact Or.inr ⟨hy, v, (mark_ne _ _ (hne y hy)).trans hv, hno⟩

theorem Fresh.mark (h : Fresh has x y st) (hb : Lacks has x y b) (i : ι) : Fresh has x y (mark st i b) := by
  intro z v hz
  by_cases hzi : z = i
  · rw [hzi, mark_self] at hz
    cases hz
    exact hb
  · rw [mark_ne _ _ hzi] at hz
    exact h z v hz

variable (hown : S.OwnLast has)

include hown

/-- A program that is answered with nothing of `x`'s and `y`'s own returns nothing of it. -/
theorem run_apart (heval : ∀ {i st st'}, st i = none → Fresh has x y st → S.evalDef fuel i st = some st' →
    Fresh has x y st' ∨ Settled has x y st st')
    {p : Prog ι β β} (hp : p.Passes has fun _ => False) (hst : Fresh has x y st)
    (h : p.run (S.demand (S.evalDef fuel)) st = some (b, st')) :
    (Fresh has x y st' ∧ Lacks has x y b) ∨ Settled has x y st st' := by
  have hend := Prog.run_inv (P := fun q s => Keeps st s ∧
    ((Fresh has x y s ∧ ∃ T : ι → Prop, q.Passes has T ∧ ¬T x ∧ ¬T y) ∨ Settled has x y st s)) ?_
    ⟨fun _ _ h => h, Or.inl ⟨hst, _, hp, id, id⟩⟩ h
  · rcases hend.2 with ⟨hst', T, hT, hx, hy⟩ | hsettled
    · exact Or.inl ⟨hst', fun hb => hx (hT x hb), fun hb => hy (hT y hb)⟩
    · exact Or.inr hsettled
  · rintro j k s a s' ⟨hkeeps, hs⟩ hj
    have hk := demand_keeps evalDef_keeps j s a s' hj
    refine ⟨hkeeps.trans hk, ?_⟩
    rcases hs with ⟨hs, T, hT, hx, hy⟩ | hsettled
    · rcases demand_cases hj with ⟨hsj, rfl⟩ | ⟨hsj, hs', rfl⟩
      · have ha := hs j a hsj
        exact Or.inl ⟨hs, _, hT a, not_or.mpr ⟨hx, ha.1⟩, not_or.mpr ⟨hy, ha.2⟩⟩
      · rcases heval hsj hs hs' with hs' | hsettled
        · have ha := hs'.getD hown.lacks_start j
          exact Or.inl ⟨hs', _, hT _, not_or.mpr ⟨hx, ha.1⟩, not_or.mpr ⟨hy, ha.2⟩⟩
        · exact Or.inr (hsettled.before fun _ => hkeeps.eq_none)
    · exact Or.inr (hsettled.keeps hk)

theorem evalDef_apart (hxy : x ≠ y) (hi : st i = none) (hst : Fresh has x y st) (h : S.evalDef fuel i st = some st') :
    Fresh has x y st' ∨ Settled has x y st st' := by
  induction fuel generalizing i st st' with
  | zero => cases h
  | succ fuel ih =>
    have hopen : Fresh has x y (mark st i S.start) := hst.mark hown.lacks_start i
    have hmarked : mark st i S.start i ≠ none := by
      rw [mark_self]
      exact nofun
    rw [evalDef] at h
    rcases hown.last i with hdefs | ⟨l, b, hdefs, hl, hb⟩
    · rw [hdefs] at h
      cases h
      exact Or.inl hopen
    rw [hdefs, foldlM_append] at h
    obtain ⟨st₁, hloop, hlast⟩ := bind_eq_some_iff.mp h
    cases hlast
    have hst₁ := Run.foldlM_history (P := fun _ s => (∀ j, s j = none → mark st i S.start j = none) ∧
      (Fresh has x y s ∨ Settled has x y (mark st i S.start) s)) ?_ ⟨fun _ h => h, Or.inl hopen⟩ hloop
    · rcases hst₁.2 with hst₁ | hsettled
      · have hold := hst₁.getD hown.lacks_start i
        -- the last program adds what is its own
        rcases eq_or_ne i x with rfl | hix
        · refine Or.inr (Or.inl ⟨hi, _, mark_self _ _ _, ?_⟩)
          exact fun h => (hown.join _ _ _ h).elim hold.2 fun h => hxy (hb y h).symm
        rcases eq_or_ne i y with rfl | hiy
        · refine Or.inr (Or.inr ⟨hi, _, mark_self _ _ _, ?_⟩)
          exact fun h => (hown.join _ _ _ h).elim hold.1 fun h => hxy (hb x h)
        exact Or.inl (hst₁.mark (hown.lacks_join hold ⟨fun h => hix (hb x h).symm, fun h => hiy (hb y h).symm⟩) i)
      · exact Or.inr ((hsettled.mark hmarked _).before fun _ => (Keeps.mark (fun _ _ h => h) hi S.start).eq_none)
    · rintro _ p s s' hmem ⟨hgrows, hs⟩ hprog
      obtain ⟨c, s₁, hp, rfl⟩ := evalProg_some hprog
      refine ⟨?_, ?_⟩
      · intro j hj
        have hji : j ≠ i := by
          rintro rfl
          rw [mark_self] at hj
          cases hj
        rw [mark_ne _ _ hji] at hj
        exact hgrows j ((run_evalDef_keeps hp).eq_none hj)
      · rcases hs with hs | hsettled
        · rcases run_apart hown ih (hl p (hmem p (by simp))) hs hp with ⟨hs₁, hc⟩ | hsettled
          · exact Or.inl (hs₁.mark (hown.lacks_join (hs₁.getD hown.lacks_start i) hc) i)
          · exact Or.inr ((hsettled.before hgrows).mark hmarked _)
        · exact Or.inr ((hsettled.keeps (run_evalDef_keeps hp)).mark hmarked _)

/-- Two indices do not have each other's own: the one finished first cannot have the other's. -/
theorem visitAll_apart (hxy : x ≠ y) {order : List ι} (h : S.visitAll fuel order = some st) {u v : β} (hx : st x = some u)
    (hy : st y = some v) (hu : has u y) : ¬has v x := by
  have hstart : Fresh has x y (fun _ => none) := by
    intro z w hz
    cases hz
  have hend := Run.foldlM_history (P := fun _ s => Fresh has x y s ∨ Settled has x y (fun _ => none) s) ?_ (Or.inl hstart) h
  · rcases hend with hfresh | ⟨-, u', hu', hno⟩ | ⟨-, v', hv', hno⟩
    · exact absurd hu (hfresh x u hx).2
    · cases hx.symm.trans hu'
      exact absurd hu hno
    · cases hy.symm.trans hv'
      exact hno
  · intro _ i s s' _ hs hvisit
    rcases visit_some hvisit with ⟨-, rfl⟩ | ⟨hi, heval⟩
    · exact hs
    · rcases hs with hs | hsettled
      · exact (evalDef_apart hown hxy hi hs heval).imp_right fun h => h.before fun _ _ => rfl
      · exact Or.inr (hsettled.keeps (evalDef_keeps hi heval))

end Apart


end System

end SELinux.Lib.Demand
