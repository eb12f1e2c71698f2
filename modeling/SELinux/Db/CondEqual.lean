/-
  SELinux.Db.CondEqual — what conditionals that compare equal have in common
  (`libsepol/src/conditional.c`: `cond_expr_equal`, `cond_node_search`).

  For up to five booleans `cond_expr_equal` compares the tables of two expressions. A bit of a
  table stands for an assignment by position: its first binary digit is the value of the boolean
  that the expression mentions first. The booleans themselves are compared as sets. So equal
  tables say that the second expression is the first one with its booleans exchanged, each by the
  one that the second expression mentions in its place.

  Proved: `condExprEqual_iff`. Conditionals that compare equal mean the same exactly if the first
  one's value stays when its booleans are so exchanged; likewise the node that
  `cond_node_search` finds. Mentioning the booleans in the same order is enough
  (`Exchangeable.of_same_order`).
-/
import SELinux.Db.Conditional

namespace SELinux.Db

open List

/-! ## The booleans of an expression -/

/-- The booleans that are kept are different ones. -/
theorem nodup_foldl_findBool (e : CondExpr) {acc : Nat × List Nat} (hlen : acc.2.length = min acc.1 condMaxBools)
    (hacc : acc.2.Nodup) : (e.foldl findBool acc).2.Nodup := by
  induction e generalizing acc with
  | nil => exact hacc
  | cons x e ih =>
    refine ih (findBool_length hlen x).1 ?_
    cases x with
    | bool b =>
      simp only [findBool]
      split
      · exact hacc
      next hpres =>
        split
        next hlt =>
          -- all booleans so far were looked at
          have hall : acc.2.take acc.1 = acc.2 := take_of_length_le (by omega)
          rw [boolPresent, if_neg (by omega)] at hpres
          exact nodup_append.mpr ⟨hacc, nodup_singleton b, fun x hx y hy heq => by simp_all⟩
        · exact hacc
    | _ => exact hacc

theorem nodup_findBools (e : CondExpr) : (findBools e).2.Nodup := nodup_foldl_findBool e rfl nodup_nil

/-! ## Tables by assignment -/

/-- The bit of a table that stands for an assignment. -/
def tableIndex (ids : List Nat) (st : Nat → Bool) : Nat := Nat.ofBits fun j : Fin ids.length => st (ids.get j)

theorem tableIndex_lt (ids : List Nat) (st : Nat → Bool) : tableIndex ids st < 2 ^ ids.length := Nat.ofBits_lt_two_pow _

variable {state : Nat → Bool} {b : Nat}

theorem testState_of_not_mem {test : Nat} {l : List (Nat × Nat)} (h : ∀ e ∈ l, e.1 ≠ b) :
    l.foldl (fun st bj b => if b = bj.1 then test.testBit bj.2 else st b) state b = state b := by
  induction l generalizing state with
  | nil => rfl
  | cons e l ih =>
    obtain ⟨he, hl⟩ := forall_mem_cons.mp h
    rw [foldl_cons, ih hl]
    exact if_neg fun heq => he heq.symm

theorem testState_of_mem {test j : Nat} {l : List (Nat × Nat)} (hl : (l.map (·.1)).Nodup) (h : (b, j) ∈ l) :
    l.foldl (fun st bj b => if b = bj.1 then test.testBit bj.2 else st b) state b = test.testBit j := by
  induction l generalizing state with
  | nil => cases h
  | cons e l ih =>
    rw [map_cons, nodup_cons] at hl
    rw [foldl_cons]
    rcases mem_cons.mp h with rfl | h
    · have hnot : ∀ e ∈ l, e.1 ≠ b := by
        intro e he heq
        exact hl.1 (mem_map.mpr ⟨e, he, heq⟩)
      rw [testState_of_not_mem hnot]
      exact if_pos rfl
    · exact ih hl.2 h

variable {ids : List Nat}

/-- In the test of its bit each boolean has the value that the assignment gives it. -/
theorem testState_tableIndex (hids : ids.Nodup) (st : Nat → Bool) (hb : b ∈ ids) :
    testState state ids (tableIndex ids st) b = st b := by
  obtain ⟨j, hj, rfl⟩ := getElem_of_mem hb
  have hmem : (ids[j], j) ∈ ids.zipIdx := mk_mem_zipIdx_iff_getElem?.mpr (List.getElem?_eq_getElem hj)
  have hfst : (ids.zipIdx.map (·.1)).Nodup := by
    rw [zipIdx_map_fst]
    exact hids
  rw [testState, testState_of_mem hfst hmem, tableIndex, Nat.testBit_ofBits_lt _ _ hj]
  rfl

section

variable {n : CondNode} (hn : Normalized n) (hmax : n.nbools ≤ condMaxBools)
include hn hmax

theorem Normalized.length_boolIds : n.boolIds.length = n.nbools := by
  rw [hn.boolIds, length_findBools, ← hn.nbools]
  exact Nat.min_eq_left hmax

/-- The table has the value of the expression under every assignment. -/
theorem Normalized.eval_eq (st : Nat → Bool) :
    condEvaluateExpr st n.expr = some (n.exprPreComp.getLsbD (tableIndex n.boolIds st)) := by
  obtain ⟨state, hpre⟩ := hn.table hmax
  have hlen : n.boolIds.length ≤ condMaxBools := by
    rw [hn.length_boolIds hmax]
    exact hmax
  rw [← preCompute_spec hlen hpre (tableIndex_lt _ st)]
  refine condEvaluateExpr_congr ?_
  intro b hb
  have hnodup : n.boolIds.Nodup := by
    rw [hn.boolIds]
    exact nodup_findBools _
  have hmem : b ∈ n.boolIds := by
    rw [hn.boolIds]
    refine mem_findBools ?_ hb
    rw [← hn.nbools]
    exact hmax
  exact (testState_tableIndex hnodup st hmem).symm

end

/-! ## Exchanging booleans -/

/-- Each boolean by the one at its place in the other list. -/
def counterpart (ids ids' : List Nat) (b : Nat) : Nat := (ids'[ids.idxOf b]?).getD b

theorem counterpart_get {ids' : List Nat} (hids : ids.Nodup) {j : Nat} (hj : j < ids.length) (hj' : j < ids'.length) :
    counterpart ids ids' ids[j] = ids'[j] := by
  rw [counterpart, hids.idxOf_getElem j hj, List.getElem?_eq_getElem hj']
  rfl

theorem counterpart_self (ids : List Nat) (b : Nat) : counterpart ids ids b = b := by
  unfold counterpart
  by_cases hb : b ∈ ids
  · rw [List.getElem?_eq_getElem (idxOf_lt_length_of_mem hb), getElem_idxOf]
    rfl
  · rw [idxOf_eq_length hb, List.getElem?_eq_none (Nat.le_refl _)]
    rfl

theorem tableIndex_counterpart {ids' : List Nat} (hids : ids.Nodup) (hlen : ids.length = ids'.length) (st : Nat → Bool) :
    tableIndex ids (fun b => st (counterpart ids ids' b)) = tableIndex ids' st := by
  refine Nat.eq_of_testBit_eq fun j => ?_
  unfold tableIndex
  by_cases hj : j < ids.length
  · have hj' : j < ids'.length := hlen ▸ hj
    rw [Nat.testBit_ofBits_lt _ _ hj, Nat.testBit_ofBits_lt _ _ hj']
    exact congrArg st (counterpart_get hids hj hj')
  · rw [Nat.testBit_ofBits_ge _ _ (by omega), Nat.testBit_ofBits_ge _ _ (by omega)]

/-- The expressions have the same value under every assignment. -/
def SameMeaning (e e' : CondExpr) : Prop := ∀ st, condEvaluateExpr st e = condEvaluateExpr st e'

/-- The value of `e` stays when its booleans, in the order it mentions them first, are exchanged by
    those of `e'` in their order; asked of expressions with at most five booleans. -/
def Exchangeable (e e' : CondExpr) : Prop :=
  (findBools e).1 ≤ condMaxBools →
    ∀ st, condEvaluateExpr (fun b => st (counterpart (findBools e).2 (findBools e').2 b)) e = condEvaluateExpr st e

theorem Exchangeable.of_same_order {e e' : CondExpr} (h : (findBools e).2 = (findBools e').2) : Exchangeable e e' := by
  intro _ st
  rw [← h]
  simp only [counterpart_self]

/-- Equal tables: the second expression is the first one with its booleans exchanged. -/
theorem eval_counterpart {a b : CondNode} (ha : Normalized a) (hb : Normalized b) (h : condExprEqual a b = true)
    (hmax : a.nbools ≤ condMaxBools) (st : Nat → Bool) :
    condEvaluateExpr (fun i => st (counterpart (findBools a.expr).2 (findBools b.expr).2 i)) a.expr =
      condEvaluateExpr st b.expr := by
  rw [condExprEqual] at h
  split_ifs at h with hne
  have hnb : a.nbools = b.nbools := Decidable.not_not.mp hne
  rw [Bool.and_eq_true, beq_iff_eq] at h
  have hmaxb : b.nbools ≤ condMaxBools := hnb ▸ hmax
  have hlen : a.boolIds.length = b.boolIds.length := by rw [ha.length_boolIds hmax, hb.length_boolIds hmaxb, hnb]
  have hnodup : a.boolIds.Nodup := by
    rw [ha.boolIds]
    exact nodup_findBools _
  rw [ha.eval_eq hmax, hb.eval_eq hmaxb, ← ha.boolIds, ← hb.boolIds, tableIndex_counterpart hnodup hlen, h.2]

theorem sameMeaning_iff {a b : CondNode} (ha : Normalized a) (hb : Normalized b) (h : condExprEqual a b = true) :
    SameMeaning a.expr b.expr ↔ Exchangeable a.expr b.expr := by
  unfold Exchangeable
  rw [← ha.nbools]
  by_cases hmax : a.nbools ≤ condMaxBools
  · have heval := eval_counterpart ha hb h hmax
    constructor
    · intro hsame _ st
      rw [heval, hsame]
    · intro hex st
      rw [← heval, hex hmax]
  · -- long expressions are compared element by element
    have hexpr : a.expr = b.expr := by
      rw [condExprEqual] at h
      split at h
      · cases h
      · exact beq_iff_eq.mp h
    exact iff_of_true (fun st => by rw [hexpr]) fun hle => absurd hle hmax

theorem normalized_of_condNormalizeExpr {cn n : CondNode} (h : condNormalizeExpr state cn = some n) : Normalized n := by
  unfold condNormalizeExpr at h
  split at h
  · split at h
    · cases h
    · exact (condTabulate_some h).1
  · exact (condTabulate_some h).1

/-- Conditionals that compare equal mean the same exactly if the booleans can be exchanged; so does
    what a search among normalised conditionals finds. -/
theorem condExprEqual_iff (state : Nat → Bool) (cn : CondNode) {a : CondNode} (ha : condNormalizeExpr state cn = some a) :
    (∀ cn' b, condNormalizeExpr state cn' = some b → condExprEqual a b = true →
        (SameMeaning a.expr b.expr ↔ Exchangeable a.expr b.expr)) ∧
      ∀ list : List CondNode, (∀ n ∈ list, Normalized n) →
        (SameMeaning a.expr (condNodeSearch state list a).2.expr ↔
          Exchangeable a.expr (condNodeSearch state list a).2.expr) := by
  have hna := normalized_of_condNormalizeExpr ha
  refine ⟨?_, ?_⟩
  · intro cn' b hb h
    exact sameMeaning_iff hna (normalized_of_condNormalizeExpr hb) h
  · intro list hlist
    rcases condNodeSearch_cases state list a with ⟨n, hn, -, heq, hs⟩ | ⟨-, hs⟩
    · rw [hs]
      exact sameMeaning_iff hna (hlist n hn) heq
    · rw [hs]
      exact iff_of_true (fun _ => rfl) (Exchangeable.of_same_order rfl)

/-- A conditional of two booleans, normalised. -/
def twoBools (expr : CondExpr) (ids : List Nat) (table : BitVec 32) : CondNode :=
  { id := 0, expr, nbools := 2, boolIds := ids, exprPreComp := table }

/-- `b1 || b2` and `b2 || b1` -/
theorem sameMeaning_or : condExprEqual (twoBools [.bool 1, .bool 2, .or] [1, 2] 14#32)
    (twoBools [.bool 2, .bool 1, .or] [2, 1] 14#32) = true ∧
    SameMeaning [.bool 1, .bool 2, .or] [.bool 2, .bool 1, .or] := by
  have hequal : condExprEqual (twoBools [.bool 1, .bool 2, .or] [1, 2] 14#32)
      (twoBools [.bool 2, .bool 1, .or] [2, 1] 14#32) = true := by
    decide +kernel
  refine ⟨hequal, ((condExprEqual_iff (fun _ => false) (twoBools [.bool 1, .bool 2, .or] [] 0#32) rfl).1
    (twoBools [.bool 2, .bool 1, .or] [] 0#32) _ rfl hequal).mpr ?_⟩
  intro _ st
  exact congrArg some (Bool.or_comm (st 2) (st 1))

/-- `b1 && !b2` and `b2 && !b1` have the same table. -/
theorem not_sameMeaning_and_not :
    condNormalizeExpr (fun _ => false) (twoBools [.bool 1, .bool 2, .not, .and] [] 0#32) =
      some (twoBools [.bool 1, .bool 2, .not, .and] [1, 2] 2#32) ∧
    condNormalizeExpr (fun _ => false) (twoBools [.bool 2, .bool 1, .not, .and] [] 0#32) =
      some (twoBools [.bool 2, .bool 1, .not, .and] [2, 1] 2#32) ∧
    condExprEqual (twoBools [.bool 1, .bool 2, .not, .and] [1, 2] 2#32)
    (twoBools [.bool 2, .bool 1, .not, .and] [2, 1] 2#32) = true ∧
    condEvaluateExpr (fun b => b == 1) [.bool 1, .bool 2, .not, .and] = some true ∧
    condEvaluateExpr (fun b => b == 1) [.bool 2, .bool 1, .not, .and] = some false :=
  ⟨rfl, rfl, by decide +kernel, by decide +kernel, by decide +kernel⟩

end SELinux.Db
