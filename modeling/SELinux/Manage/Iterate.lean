/-
  SELinux.Manage.Iterate — iteration over a database with a handler that may stop it
  (`libsemanage/src/database_llist.c`: `dbase_llist_iterate`; `libsepol/src/nodes.c`:
  `sepol_node_iterate`).

  `database.h` lets a handler answer 0 to go on, 1 to stop with success and -1 to stop with an
  error. The cache list takes only answers past 1 for a stop, so a handler that answers 1 is
  called again. The nodes are two lists, and a stop in the first one only leaves that list.

  `iterate_documented_iff`: the cache list is iterated as documented exactly when no answer of 1
  comes before the last record, and the nodes exactly when a stop among the IPv4 nodes meets no
  IPv6 nodes and every node up to the stop has a record. `iterate_past_exit` has both failures.

  A handler has a state, which its argument points to. Records come oldest first in the cache
  list, whose head is the newest one.
-/
import SELinux.Manage.Nodes

namespace SELinux.Manage

open Db List

variable {ρ σ : Type} {fn : ρ → σ → Int × σ} {l : List (Option ρ)} {s : σ}

/-- The records the handler was called on, whether an error is returned, and the handler's state. -/
structure Visit (ρ σ : Type) where
  calls : List ρ
  failed : Bool
  state : σ

/-- A call before the others. -/
def Visit.cons (r : ρ) (v : Visit ρ σ) : Visit ρ σ := { v with calls := r :: v.calls }

/-- A loop over records, some of which cannot be made; `exits` are the answers that leave it. -/
def iterate (exits : Int → Bool) (fn : ρ → σ → Int × σ) : List (Option ρ) → σ → Visit ρ σ
  | [], s => ⟨[], false, s⟩
  | none :: _, s => ⟨[], true, s⟩
  | some r :: l, s =>
    let (rc, s) := fn r s
    if rc < 0 then ⟨[r], true, s⟩
    else if exits rc then ⟨[r], false, s⟩
    else (iterate exits fn l s).cons r

def dbaseLlistIterate (fn : ρ → σ → Int × σ) (cache : List ρ) (s : σ) : Visit ρ σ :=
  iterate (fun rc => 1 < rc) fn (cache.reverse.map some) s

/-- The two loops of `sepol_node_iterate`. -/
def iterateBoth (fn : ρ → σ → Int × σ) (node node6 : List (Option ρ)) (s : σ) : Visit ρ σ :=
  let v := iterate (fun status => 0 < status) fn node s
  if v.failed then v
  else
    let v6 := iterate (fun status => 0 < status) fn node6 v.state
    { v6 with calls := v.calls ++ v6.calls }

def NodePolicy.records (p : NodePolicy) : List (Option NodeRecord) :=
  p.node.map fun c => nodeToRecord p.db c sepolProtoIp4

def NodePolicy.records6 (p : NodePolicy) : List (Option NodeRecord) :=
  p.node6.map fun c => nodeToRecord p.db c sepolProtoIp6

def sepolNodeIterate (fn : NodeRecord → σ → Int × σ) (p : NodePolicy) (s : σ) : Visit NodeRecord σ :=
  iterateBoth fn p.records p.records6 s

/-- Calls up to the first answer that is not 0, and an error when that is negative. No result is
    right where there is no record to call the handler on. -/
def Documented (fn : ρ → σ → Int × σ) : List (Option ρ) → σ → Visit ρ σ → Prop
  | [], s, v => v = ⟨[], false, s⟩
  | none :: _, _, _ => False
  | some r :: l, s, v =>
    if (fn r s).1 = 0 then ∃ w, Documented fn l (fn r s).2 w ∧ v = w.cons r
    else v = ⟨[r], (fn r s).1 < 0, (fn r s).2⟩

/-- The first answer that is not 0, and the records behind. -/
def firstStop (fn : ρ → σ → Int × σ) : List (Option ρ) → σ → Option (Int × List (Option ρ))
  | [], _ => none
  | none :: _, _ => none
  | some r :: l, s => if (fn r s).1 = 0 then firstStop fn l (fn r s).2 else some ((fn r s).1, l)

/-- Every record up to the first answer that is not 0 can be made. -/
def Converts (fn : ρ → σ → Int × σ) : List (Option ρ) → σ → Prop
  | [], _ => True
  | none :: _, _ => False
  | some r :: l, s => (fn r s).1 = 0 → Converts fn l (fn r s).2

theorem Visit.cons_injective (r : ρ) : Function.Injective (Visit.cons (σ := σ) r) := by
  intro v w h
  cases v
  cases w
  simpa [Visit.cons] using h

/-- An answer of 0 moves on to the next record. -/
theorem documented_cons {r : ρ} {v : Visit ρ σ} (h0 : (fn r s).1 = 0) :
    Documented fn (some r :: l) s (v.cons r) ↔ Documented fn l (fn r s).2 v := by
  rw [Documented, if_pos h0]
  refine ⟨fun h => ?_, fun h => ⟨v, h, rfl⟩⟩
  obtain ⟨w, hw, heq⟩ := h
  rwa [Visit.cons_injective r heq]

theorem documented_stop {r : ρ} {v : Visit ρ σ} (h0 : (fn r s).1 ≠ 0) :
    Documented fn (some r :: l) s v ↔ v = ⟨[r], (fn r s).1 < 0, (fn r s).2⟩ := by
  rw [Documented, if_neg h0]

theorem llist_documented_iff (l : List ρ) :
    Documented fn (l.map some) s (iterate (fun rc => 1 < rc) fn (l.map some) s) ↔
      ∀ rest, firstStop fn (l.map some) s = some (1, rest) → rest = [] := by
  induction l generalizing s with
  | nil => simp [Documented, iterate, firstStop]
  | cons r l ih =>
    rw [map_cons, iterate, firstStop]
    by_cases h0 : (fn r s).1 = 0
    · simp only [h0, Int.lt_irrefl, if_false, if_true]
      rw [if_neg (by decide), documented_cons h0]
      exact ih
    · rw [documented_stop h0]
      simp only [h0, if_false, Option.some.injEq, Prod.mk.injEq, and_imp, decide_eq_true_eq]
      split
      · rename_i hneg
        simp only [hneg, decide_true, true_iff]
        omega
      · rename_i hneg
        split
        · rename_i hexit
          simp only [hneg, decide_false, true_iff]
          omega
        · -- the answer is 1, and the loop goes on
          have h1 : (fn r s).1 = 1 := by omega
          cases l with
          | nil => simp [h1, iterate, Visit.cons]
          | cons q l =>
            simp only [h1, map_cons, iterate, Visit.cons]
            split_ifs <;> simp

/-- Where 1 stops the loop, only a record that cannot be made is in the way. -/
theorem list_documented_iff :
    Documented fn l s (iterate (fun status => 0 < status) fn l s) ↔ Converts fn l s := by
  induction l generalizing s with
  | nil => simp [Documented, iterate, Converts]
  | cons o l ih =>
    cases o with
    | none => rfl
    | some r =>
      rw [iterate, Converts]
      by_cases h0 : (fn r s).1 = 0
      · simp only [h0, Int.lt_irrefl, if_false, decide_false, Bool.false_eq_true, true_imp_iff]
        rw [documented_cons h0]
        exact ih
      · rw [documented_stop h0]
        simp only [h0, false_imp_iff, iff_true, decide_eq_true_eq]
        split
        · simp [*]
        · rw [if_pos (by omega)]
          simp [*]

theorem iterateBoth_cons {r : ρ} {node node6 : List (Option ρ)} (h0 : (fn r s).1 = 0) :
    iterateBoth fn (some r :: node) node6 s = (iterateBoth fn node node6 (fn r s).2).cons r := by
  by_cases hfail : (iterate (fun status => 0 < status) fn node (fn r s).2).failed = true <;>
    simp [iterateBoth, iterate, Visit.cons, h0, hfail]

theorem both_documented_iff {node node6 : List (Option ρ)} :
    Documented fn (node ++ node6) s (iterateBoth fn node node6 s) ↔
      Converts fn (node ++ node6) s ∧
        ∀ rc rest, firstStop fn node s = some (rc, rest) → 0 < rc → node6 = [] := by
  induction node generalizing s with
  | nil => simpa [iterateBoth, iterate, firstStop] using list_documented_iff
  | cons o node ih =>
    cases o with
    | none => simp [Documented, Converts]
    | some r =>
      rw [cons_append, firstStop, Converts]
      by_cases h0 : (fn r s).1 = 0
      · rw [iterateBoth_cons h0, documented_cons h0, if_pos h0, imp_iff_right h0]
        exact ih
      · rw [documented_stop h0, iterateBoth, iterate]
        simp only [h0, false_imp_iff, true_and, if_false, Option.some.injEq, Prod.mk.injEq, and_imp,
          decide_eq_true_eq]
        split
        · rename_i hneg
          simp only [if_true, hneg, decide_true, true_iff]
          omega
        · rename_i hneg
          have hpos : 0 < (fn r s).1 := by omega
          simp only [if_pos hpos, Bool.false_eq_true, if_false, hneg, decide_false]
          -- any IPv6 node is a further call or a further error
          rcases node6 with _ | ⟨_ | q, node6⟩
          · simp [iterate]
          · simp [iterate, hpos]
          · simp only [iterate]
            split_ifs <;> simp [Visit.cons, hpos]

theorem iterate_documented_iff {ρ σ : Type} :
    (∀ (fn : ρ → σ → Int × σ) (cache : List ρ) (s : σ),
      Documented fn (cache.reverse.map some) s (dbaseLlistIterate fn cache s) ↔
        ∀ rest, firstStop fn (cache.reverse.map some) s = some (1, rest) → rest = []) ∧
    ∀ (fn : NodeRecord → σ → Int × σ) (p : NodePolicy) (s : σ),
      Documented fn (p.records ++ p.records6) s (sepolNodeIterate fn p s) ↔
        Converts fn (p.records ++ p.records6) s ∧
          ∀ rc rest, firstStop fn p.records s = some (rc, rest) → 0 < rc → p.records6 = [] :=
  ⟨fun _ _ _ => llist_documented_iff _, fun _ _ _ => both_documented_iff⟩

/-- A handler that answers 1 at once is called twice. -/
theorem iterate_past_exit :
    (dbaseLlistIterate (fun _ s => (1, s)) [2, 1] ()).calls = [1, 2] ∧
      (sepolNodeIterate (fun _ s => (1, s)) smallPolicy ()).calls.length = 2 := by
  decide

end SELinux.Manage
