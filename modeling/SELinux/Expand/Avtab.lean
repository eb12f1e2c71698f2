/-
  SELinux.Expand.Avtab — rules on attributes written out for types (`libsepol/src/expand.c`:
  `expand_avtab`, `expand_avtab_node`, `expand_avtab_insert`).

  Policies older than the attributes of the kernel have rules on types only. Rules of one key
  and kind that the expansion brings together are joined in one rule, type rules apart, which
  conflict.

  - `expandAvtab_kept`: the expanded table counts its rules, and their kinds are those of the
    table.
-/
import SELinux.Expand.Avrules

namespace SELinux.Expand

open Db

/-! ## The expansion -/

def orPerms (a b : ExtendedPerms) : ExtendedPerms := { a with perms := Vector.zipWith (· ||| ·) a.perms b.perms }

/-- The rule `expand_avtab_insert` joins the new one with. -/
def expandFind (a : Avtab) (k : AvtabKey) (d : AvtabDatum) : Option AvtabNode :=
  if k.specified &&& avtabXperms ≠ 0#16 then
    (avtabSearchNodes a k).find? fun n =>
      n.datum.xperms.specified == d.xperms.specified && n.datum.xperms.driver == d.xperms.driver
  else avtabSearchNode a k

/-- What joining does to the datum; type rules conflict. -/
def expandJoin (specified : BitVec 16) (d : AvtabDatum) : Option (AvtabDatum → AvtabDatum) :=
  let spec := specified &&& ~~~avtabEnabled
  if spec = avtabAllowed ∨ spec = avtabAuditallow then some fun avd => { avd with data := avd.data ||| d.data }
  else if spec = avtabAuditdeny then some fun avd => { avd with data := avd.data &&& d.data }
  else if spec = avtabXpermsAllowed ∨ spec = avtabXpermsAuditallow ∨ spec = avtabXpermsDontaudit then
    some fun avd => { avd with xperms := orPerms avd.xperms d.xperms }
  else none

def expandAvtabInsert (a : Avtab) (k : AvtabKey) (d : AvtabDatum) : Option Avtab :=
  match (expandFind a k d).filter fun n => k.specified &&& avtabEnabled == n.key.specified &&& avtabEnabled with
  | none => (avtabInsertNonunique a k d none).map (·.1)
  | some n => (expandJoin k.specified d).map fun join => a.update n.id fun specified avd => (specified, join avd)

/-- `type_val_to_struct[type - 1]` is there and not an attribute. -/
def isPlainType (p : Policydb) (type : BitVec 16) : Bool := (datumAt p.typeValToStruct type.toNat).any (·.flavor != .attrib)

/-- The types that one side of a rule is written out for. -/
def sideTypes (p : Policydb) (type : BitVec 16) : List (BitVec 16) :=
  if isPlainType p type then [type] else (p.attrTypes type).bits.map fun i => BitVec.ofNat 16 (i + 1)

def expandAvtabNode (p : Policydb) (expa : Avtab) (n : AvtabNode) : Option Avtab :=
  ((sideTypes p n.key.sourceType).product (sideTypes p n.key.targetType)).foldlM
    (fun expa e => expandAvtabInsert expa { n.key with sourceType := e.1, targetType := e.2 } n.datum) expa

/-- `expand_avtab`; `avtab_map` stops at the first rule that fails. -/
def expandAvtab (p : Policydb) (a : Avtab) : Option Avtab := a.nodes.foldlM (expandAvtabNode p) (avtabAlloc maxAvtabSize)

/-! ## What the expansion keeps -/

/-- A table that counts its rules, all of them of kinds in `Q`. -/
structure Kept (Q : BitVec 16 → Prop) (a : Avtab) : Prop where
  counted : a.Counted
  specified : ∀ n ∈ a.nodes, Q n.key.specified

variable {Q : BitVec 16 → Prop} {a : Avtab}

theorem Kept.insert {a' : Avtab} {k : AvtabKey} {d : AvtabDatum} (h : Kept Q a) (hk : Q k.specified)
    (hi : expandAvtabInsert a k d = some a') : Kept Q a' := by
  unfold expandAvtabInsert at hi
  split at hi
  · -- a new rule
    obtain ⟨⟨a₁, n⟩, hn, rfl⟩ := Option.map_eq_some_iff.mp hi
    unfold avtabInsertNonunique at hn
    split_ifs at hn with h0
    cases hn
    refine ⟨counted_insertNode h.counted h0 k d none, ?_⟩
    intro m (hm : m ∈ (a.insertNode h0 k d none).nodes)
    rcases mem_nodes_insertNode.mp hm with rfl | hm
    · exact hk
    · exact h.specified m hm
  · -- the datum of a rule
    obtain ⟨join, -, rfl⟩ := Option.map_eq_some_iff.mp hi
    refine ⟨counted_update h.counted _ _, ?_⟩
    intro m hm
    obtain ⟨n, hn, rfl⟩ := mem_nodes_update.mp hm
    have hspec : ∀ id, (writeId id (fun specified avd => (specified, join avd)) n).key.specified = n.key.specified := by
      intro id
      unfold writeId
      split <;> rfl
    rw [hspec]
    exact h.specified n hn

theorem Kept.node {p : Policydb} {a' : Avtab} {n : AvtabNode} (h : Kept Q a) (hn : Q n.key.specified)
    (hi : expandAvtabNode p a n = some a') : Kept Q a' := by
  refine Lib.Run.foldlM_history (P := fun _ a => Kept Q a) ?_ h hi
  intro done e s s' _ hs hstep
  refine hs.insert ?_ hstep
  exact hn

/-- The expanded table counts its rules, which are of the kinds of the table. -/
theorem expandAvtab_kept {p : Policydb} {expa : Avtab} (ha : ∀ n ∈ a.nodes, Q n.key.specified)
    (h : expandAvtab p a = some expa) : Kept Q expa := by
  refine Lib.Run.foldlM_history (P := fun _ a => Kept Q a) ?_ ⟨counted_avtabAlloc _, ?_⟩ h
  · intro done n s s' hmem hs hstep
    exact hs.node (ha n (hmem n (by simp))) hstep
  · intro n hn
    rw [nodes_avtabAlloc] at hn
    cases hn

end SELinux.Expand
