/-
  SELinux.Expand.Tunables — deciding the tunables of a base policy (`libsepol/src/expand.c`:
  `discard_tunables`).

  Each conditional has its tunables put into an array of `COND_EXPR_MAXDEPTH` pointers, one for each
  time an expression names one. `discardTunables_iff`: the array suffices exactly if no expression
  names more than that; which rules are kept is right for all expressions.
-/
import SELinux.Expand.Module

namespace SELinux.Expand

open Db List Option

/-! ## The array -/

/-- The indices of `tmp` that are written for an expression, with `n` tunables before. -/
def tmpWrites (tunable : Nat → Bool) : CondExpr → Nat → List Nat
  | .bool b :: e, n => if tunable b then n :: tmpWrites tunable e (n + 1) else tmpWrites tunable e n
  | _ :: e, n => tmpWrites tunable e n
  | [], _ => []

def tunables (tunable : Nat → Bool) (e : CondExpr) : List Nat := (exprBools e).filter tunable

theorem tmpWrites_eq (tunable : Nat → Bool) (e : CondExpr) (n : Nat) :
    tmpWrites tunable e n = List.range' n (tunables tunable e).length := by
  induction e generalizing n with
  | nil => rfl
  | cons x e ih =>
    cases x with
    | bool b =>
      rw [tmpWrites, ih, ih]
      cases ht : tunable b <;> simp [tunables, exprBools, ht, range'_succ]
    | _ => exact ih n

/-- The flags of the booleans after a conditional: where tunables are preserved, its own are cleared. -/
def flagsAfter (preserve : Bool) (tunable : Nat → Bool) (cn : CondNode) : Nat → Bool :=
  if preserve then fun b => if b ∈ tunables tunable cn.expr then false else tunable b else tunable

/-- The conditionals in turn, each with the flags it is looked at with. -/
def visited (preserve : Bool) : (Nat → Bool) → List CondNode → List ((Nat → Bool) × CondNode)
  | _, [] => []
  | tunable, cn :: cns => (tunable, cn) :: visited preserve (flagsAfter preserve tunable cn) cns

/-- The conditionals of the enabled blocks. -/
def enabledConds (blocks : List (Option AvruleDecl)) : List CondNode :=
  (blocks.filterMap fun b => b.filter (·.enabled)).flatMap (·.condList)

/-! ## What is kept -/

section Kept

variable (preserve : Bool) (state tunable : Nat → Bool)

/-- The conditional has tunables only, which are to be decided. -/
def decides (cn : CondNode) : Bool := !preserve && (exprBools cn.expr).all tunable

/-- The rules of the branch that the tunables select; none if the expression is undefined. -/
def selected (cn : CondNode) : List Avrule :=
  if decides preserve tunable cn then select (condEvaluateExpr state cn.expr) cn.avtrueList cn.avfalseList else []

/-- A decided conditional is marked, and its rules that were kept are no longer in it; another one is
    as it was, without the mark. -/
def decideNode (cn : CondNode) : CondNode :=
  if decides preserve tunable cn then
    { cn with
      flags := cn.flags ||| condNodeFlagsTunable
      avtrueList := if condEvaluateExpr state cn.expr = some true then [] else cn.avtrueList
      avfalseList := if condEvaluateExpr state cn.expr = some false then [] else cn.avfalseList }
  else { cn with flags := cn.flags &&& ~~~condNodeFlagsTunable }

def decideDecl (decl : AvruleDecl) : AvruleDecl :=
  if decl.enabled then
    { decl with
      avrules := decl.avrules ++ decl.condList.flatMap (selected preserve state tunable)
      condList := decl.condList.map (decideNode preserve state tunable) }
  else decl

variable {preserve state tunable}

theorem discardNode_eq {t t' : Nat → Bool} {avrules avrules' : List Avrule} {cn cn' : CondNode}
    (ht : preserve = false → t = tunable)
    (h : discardNode preserve state t avrules cn = some (t', avrules', cn')) : (preserve = false → t' = tunable) ∧
      avrules' = avrules ++ selected preserve state tunable cn ∧ cn' = decideNode preserve state tunable cn := by
  cases preserve with
  | true =>
    simp only [discardNode, Bool.not_true, Bool.false_and, Bool.or_true, if_true] at h
    cases h
    exact ⟨nofun, by simp [selected, decides], by simp [decideNode, decides]⟩
  | false =>
    cases ht rfl
    have hall : decides false tunable cn = ((exprBools cn.expr).filter fun b => !tunable b).isEmpty := by
      rw [Bool.eq_iff_iff]
      simp [decides]
    simp only [discardNode, Bool.not_false, Bool.true_and, Bool.or_false, ← hall] at h
    cases hd : decides false tunable cn with
    | false =>
      rw [hd] at h
      split at h
      · cases h
      next hmix =>
        have hempty : (exprBools cn.expr).filter tunable = [] := by simpa using hmix
        cases h
        rw [hempty]
        exact ⟨by simp, by simp [selected, hd], by simp [decideNode, hd]⟩
    | true =>
      rw [hd] at h
      simp only [Bool.not_true, Bool.false_and, Bool.false_eq_true, if_false] at h
      unfold selected decideNode
      rw [hd]
      split at h
      all_goals
        rename_i hvalue
        cases h
        simp [hvalue, select]

theorem discardNodes_eq {t t' : Nat → Bool} {avrules avrules' : List Avrule} {cns cns' : List CondNode}
    (ht : preserve = false → t = tunable)
    (h : discardNodes preserve state t avrules cns = some (t', avrules', cns')) : (preserve = false → t' = tunable) ∧
      avrules' = avrules ++ cns.flatMap (selected preserve state tunable) ∧
        cns' = cns.map (decideNode preserve state tunable) := by
  induction cns generalizing t avrules cns' with
  | nil =>
    cases h
    exact ⟨ht, by simp, rfl⟩
  | cons cn cns ih =>
    simp only [discardNodes, bind_eq_bind, bind_eq_some_iff, Prod.exists] at h
    obtain ⟨t1, a1, c1, h1, t2, a2, c2, h2, heq⟩ := h
    cases heq
    obtain ⟨ht1, rfl, rfl⟩ := discardNode_eq ht h1
    obtain ⟨ht2, rfl, rfl⟩ := ih ht1 h2
    exact ⟨ht2, by simp, rfl⟩

theorem discardBlocks_eq {t : Nat → Bool} {blocks blocks' : List (Option AvruleDecl)} (ht : preserve = false → t = tunable)
    (h : discardBlocks preserve state t blocks = some blocks') :
    blocks' = blocks.map (Option.map (decideDecl preserve state tunable)) := by
  fun_induction discardBlocks preserve state t blocks generalizing blocks' with
  | case1 =>
    cases h
    rfl
  | case2 t l ih =>
    obtain ⟨rest, hrest, heq⟩ := bind_eq_some_iff.mp h
    cases heq
    rw [ih ht hrest]
    rfl
  | case3 t decl l hen ih =>
    simp only [bind_eq_bind, bind_eq_some_iff, Prod.exists] at h
    obtain ⟨t1, a1, c1, h1, rest, hrest, heq⟩ := h
    cases heq
    obtain ⟨ht1, rfl, rfl⟩ := discardNodes_eq ht h1
    rw [ih t1 ht1 hrest, map_cons, map_some, decideDecl, if_pos hen]
  | case4 t decl l hen ih =>
    obtain ⟨rest, hrest, heq⟩ := bind_eq_some_iff.mp h
    cases heq
    rw [ih ht hrest, map_cons, map_some, decideDecl, if_neg hen]

end Kept

/-- The array suffices and the right rules are kept, exactly if no conditional names more tunables
    than the array has places. -/
theorem discardTunables_iff (preserve : Bool) (base : Policydb) {blocks : List (Option AvruleDecl)}
    (h : discardTunables preserve base = some blocks) :
    ((∀ v ∈ visited preserve base.boolTunable (enabledConds base.global), ∀ i ∈ tmpWrites v.1 v.2.expr 0, i <
      condExprMaxdepth) ∧ blocks = base.global.map (Option.map (decideDecl preserve base.boolState base.boolTunable))) ↔
    ∀ v ∈ visited preserve base.boolTunable (enabledConds base.global), (tunables v.1 v.2.expr).length ≤
      condExprMaxdepth := by
  have hwrites : ∀ t e, (∀ i ∈ tmpWrites t e 0, i < condExprMaxdepth) ↔ (tunables t e).length ≤ condExprMaxdepth := by
    intro t e
    simp only [tmpWrites_eq, mem_range'_1, Nat.zero_add, Nat.zero_le, true_and]
    exact ⟨fun hall => Nat.le_of_not_lt fun hlt => Nat.lt_irrefl _ (hall _ hlt), fun hle i hi => Nat.lt_of_lt_of_le hi hle⟩
  rw [and_iff_left (discardBlocks_eq (fun _ => rfl) h)]
  exact forall₂_congr fun v _ => hwrites v.1 v.2.expr

/-- A tunable eleven times, with a stack of two values. -/
def elevenTimes : CondExpr := .bool 1 :: (List.replicate 10 [.bool 1, .and]).flatten

theorem elevenTimes_overflow : (∃ b, condEvaluateExpr (fun _ => true) elevenTimes = some b) ∧
    condExprMaxdepth ∈ tmpWrites (fun _ => true) elevenTimes 0 := by
  decide

def oneTunable : Policydb := { conditionalBase [.bool 1] with boolTunable := fun _ => true }

theorem discardTunables_iff_one : ∃ blocks, discardTunables false oneTunable = some blocks ∧
    blocks = oneTunable.global.map (Option.map (decideDecl false oneTunable.boolState oneTunable.boolTunable)) := by
  refine ⟨_, rfl, ((discardTunables_iff false oneTunable rfl).mpr ?_).2⟩
  exact forall_mem_singleton.mpr (by decide)

end SELinux.Expand
