/-
  SELinux.Manage.LocalPorts — the check of the local port records
  (`libsemanage/src/ports_local.c`: `semanage_port_validate_local`; `libsepol/src/port_record.c`:
  `sepol_port_compare2`).

  The records are sorted by low port, then high port, then protocol. Each one is compared with the
  next record of its protocol and with no other: when that one starts past its end, so do all
  records of the protocol behind it, since none of them starts earlier.

  `semanagePortValidateLocal_iff`: the check passes exactly when no two records of one protocol
  overlap.

  `qsort` is any function that sorts the records; their contexts play no part.
-/
import Mathlib.Data.List.Perm.Basic
import Mathlib.Order.Basic

namespace SELinux.Manage

open List

/-- What `qsort` leaves of an array. -/
structure Qsorted {α : Type} (cmp : α → α → Int) (l sorted : List α) : Prop where
  perm : sorted.Perm l
  ordered : sorted.Pairwise fun a b => cmp a b ≤ 0

/-- `sepol_port_t`, without its context. -/
structure PortRecord where
  low : Int
  high : Int
  proto : Int
  deriving DecidableEq, Repr

def sepolPortCompare2 (port port2 : PortRecord) : Int :=
  if port.low = port2.low ∧ port.high = port2.high ∧ port.proto = port2.proto then 0
  else if port.low < port2.low then -1
  else if port2.low < port.low then 1
  else if port.high < port2.high then -1
  else if port2.high < port.high then 1
  else if port.proto < port2.proto then -1
  else 1

/-- The inner loop: the first record behind with the protocol. -/
def nextOfProto (proto : Int) : List PortRecord → Option PortRecord
  | [] => none
  | port :: l => if proto ≠ port.proto then nextOfProto proto l else some port

/-- The outer loop over the sorted records. -/
def testPorts : List PortRecord → Bool
  | [] => true
  | port :: l =>
    match nextOfProto port.proto l with
    | none => testPorts l
    | some port2 => if port2.low ≤ port.high then false else testPorts l

/-- `semanage_port_validate_local`; `false` is an overlap. -/
def semanagePortValidateLocal (qsort : List PortRecord → List PortRecord) (ports : List PortRecord) : Bool :=
  testPorts (qsort ports)

/-- The ranges have no port in common. -/
def PortRecord.Apart (a b : PortRecord) : Prop := a.proto = b.proto → a.high < b.low ∨ b.high < a.low

/-- The comparison is lexicographic. -/
theorem sepolPortCompare2_nonpos {a b : PortRecord} :
    sepolPortCompare2 a b ≤ 0 ↔ a.low < b.low ∨ a.low = b.low ∧ (a.high < b.high ∨ a.high = b.high ∧ a.proto ≤ b.proto) := by
  unfold sepolPortCompare2
  split_ifs <;> omega

variable {l : List PortRecord}

theorem nextOfProto_some {proto : Int} {port : PortRecord} (h : nextOfProto proto l = some port) :
    ∃ before after, l = before ++ port :: after ∧ port.proto = proto ∧ ∀ q ∈ before, q.proto ≠ proto := by
  fun_induction nextOfProto proto l with
  | case1 => cases h
  | case2 p l hne ih =>
    obtain ⟨before, after, rfl, hport, hbefore⟩ := ih h
    exact ⟨p :: before, after, rfl, hport, forall_mem_cons.mpr ⟨Ne.symm hne, hbefore⟩⟩
  | case3 p l heq =>
    cases h
    exact ⟨[], l, rfl, (not_not.mp heq).symm, forall_mem_nil _⟩

theorem nextOfProto_none {proto : Int} (h : nextOfProto proto l = none) : ∀ q ∈ l, q.proto ≠ proto := by
  fun_induction nextOfProto proto l with
  | case1 => exact forall_mem_nil _
  | case2 p l hne ih => exact forall_mem_cons.mpr ⟨Ne.symm hne, ih h⟩
  | case3 => cases h

/-- Of sorted records the next one of the protocol tells about all that follow. -/
theorem testPorts_iff (hrange : ∀ p ∈ l, p.low ≤ p.high) (hsort : l.Pairwise fun a b => a.low ≤ b.low) :
    testPorts l = true ↔ l.Pairwise PortRecord.Apart := by
  induction l with
  | nil => simp [testPorts]
  | cons port l ih =>
    obtain ⟨hfirst, hrest⟩ := pairwise_cons.mp hsort
    obtain ⟨hport, hranges⟩ := forall_mem_cons.mp hrange
    have ih := ih hranges hrest
    rw [testPorts, pairwise_cons]
    split
    next hnone =>
      rw [ih, and_iff_right]
      intro q hq hproto
      exact absurd hproto.symm (nextOfProto_none hnone q hq)
    next port2 hsome =>
      obtain ⟨before, after, rfl, hproto, hbefore⟩ := nextOfProto_some hsome
      have hmem : port2 ∈ before ++ port2 :: after := mem_append_right before mem_cons_self
      split
      · -- the two overlap
        refine iff_of_false Bool.false_ne_true ?_
        intro h
        have hlow := hfirst port2 hmem
        have hrange2 := hranges port2 hmem
        rcases h.1 port2 hmem hproto.symm with h | h <;> omega
      next hgt =>
        rw [ih, and_iff_right]
        intro q hq hq'
        rcases mem_append.mp hq with hq | hq
        · exact absurd hq'.symm (hbefore q hq)
        · -- `port2` or a record that does not start before it
          have hlow : port2.low ≤ q.low := by
            rcases mem_cons.mp hq with rfl | hq
            · exact Int.le_refl _
            · exact (pairwise_cons.mp (pairwise_append.mp hrest).2.1).1 q hq
          omega

theorem semanagePortValidateLocal_iff {qsort : List PortRecord → List PortRecord} {ports : List PortRecord}
    (hqsort : Qsorted sepolPortCompare2 ports (qsort ports)) (hrange : ∀ p ∈ ports, p.low ≤ p.high) :
    semanagePortValidateLocal qsort ports = true ↔ ports.Pairwise PortRecord.Apart := by
  have hsymm : ∀ {a b : PortRecord}, a.Apart b → b.Apart a := fun h hproto => (h hproto.symm).symm
  have hlow : (qsort ports).Pairwise fun a b => a.low ≤ b.low := by
    refine hqsort.ordered.imp fun h => ?_
    rw [sepolPortCompare2_nonpos] at h
    omega
  rw [semanagePortValidateLocal, testPorts_iff (fun p hp => hrange p (hqsort.perm.mem_iff.mp hp)) hlow]
  exact hqsort.perm.pairwise_iff hsymm

/-- Two protocols share port 53; of one protocol the ranges touch. -/
theorem semanagePortValidateLocal_touching :
    semanagePortValidateLocal reverse [⟨80, 80, 6⟩, ⟨53, 79, 6⟩, ⟨53, 53, 17⟩] = true :=
  (semanagePortValidateLocal_iff ⟨reverse_perm _, by decide⟩ (by decide)).mpr (by simp [PortRecord.Apart])

end SELinux.Manage
