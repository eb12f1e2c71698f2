/-
  SELinux.Manage.Nodes — node records of a policy (`libsepol/src/nodes.c`, `node_record.c`;
  `context.c`: `context_to_record`).

  A policy has two lists of node contexts, one for each address family. A key asks for an
  address and a mask of one family, compared as bytes. `sepol_node_exists` and
  `sepol_node_query` each search the list of the key's family by hand; the query turns the
  entry it finds into a record. The search of the query in the IPv6 list goes on after the
  entry it has found, and ends like one that found nothing.

  `sepolNodeQuery_agrees_iff`: the query answers as the test does for every IPv4 key, and for
  an IPv6 key exactly when there is no entry for it (`sepolNodeQuery_ip6_lost`).

  A name that a policy does not have makes `context_to_record` read NULL; here the context
  does not convert. Allocation succeeds.
-/
import SELinux.Db.Context

namespace SELinux.Manage

open Db

variable (p : Policydb)

abbrev Byte := BitVec 8

/-! ## Records -/

/-- `sepol_context_t` -/
structure ContextRecord where
  user : Name
  role : Name
  type : Name
  mls : Option Name := none
  deriving DecidableEq

/-- `mls_to_string`: the text without its leading colon. -/
def mlsToString (c : Context) : Name := (mlsSidToContext p c).drop 1

def contextToRecord (c : Context) : Option ContextRecord := do
  let user ← p.pUsers.name? c.user
  let role ← p.pRoles.name? c.role
  let type ← p.pTypes.name? c.type
  return { user, role, type, mls := if p.mls then some (mlsToString p c) else none }

def sepolProtoIp4 : Int := 0
def sepolProtoIp6 : Int := 1

/-- `sepol_node_t` -/
structure NodeRecord where
  proto : Int
  addr : List Byte
  mask : List Byte
  con : ContextRecord
  deriving DecidableEq

/-- A key of one of the families, or of a protocol there is none for. -/
inductive NodeKey
  | ip4 (addr mask : Vector Byte 4)
  | ip6 (addr mask : Vector Byte 16)
  | unsupported (proto : Int)

/-- An entry of `ocontexts[OCON_NODE]` or `ocontexts[OCON_NODE6]`. -/
structure NodeCon (n : Nat) where
  addr : Vector Byte n
  mask : Vector Byte n
  context : Context

structure NodePolicy where
  db : Policydb
  node : List (NodeCon 4) := []
  node6 : List (NodeCon 16) := []

/-- Both `memcmp` find no difference. -/
def NodeCon.matches {n : Nat} (addr mask : Vector Byte n) (c : NodeCon n) : Bool := addr == c.addr && mask == c.mask

variable {n : Nat}

theorem NodeCon.matches_iff {addr mask : Vector Byte n} {c : NodeCon n} :
    c.matches addr mask = true ↔ c.addr = addr ∧ c.mask = mask := by
  rw [NodeCon.matches, Bool.and_eq_true, beq_iff_eq, beq_iff_eq, eq_comm, eq_comm (a := mask)]

def nodeToRecord {n : Nat} (node : NodeCon n) (proto : Int) : Option NodeRecord := do
  let con ← contextToRecord p node.context
  return { proto, addr := node.addr.toList, mask := node.mask.toList, con }

/-- The answers: an error, or success with a response. -/
inductive NodeError
  | unsupportedProtocol (proto : Int)
  | couldNotConvert
  deriving DecidableEq

/-! ## Searching -/

def sepolNodeExists (p : NodePolicy) : NodeKey → Except NodeError Bool
  | .ip4 addr mask => .ok (p.node.any (NodeCon.matches addr mask))
  | .ip6 addr mask => .ok (p.node6.any (NodeCon.matches addr mask))
  | .unsupported proto => .error (.unsupportedProtocol proto)

/-- The search for an IPv4 node ends at the first entry that matches. -/
def queryNode (p : Policydb) (addr mask : Vector Byte 4) : List (NodeCon 4) → Except NodeError (Option NodeRecord)
  | [] => .ok none
  | c :: l =>
    if c.matches addr mask then
      match nodeToRecord p c sepolProtoIp4 with
      | some record => .ok (some record)
      | none => .error .couldNotConvert
    else queryNode p addr mask l

/-- The search for an IPv6 node: the record stands in `*response` until the end of the list,
    where NULL is written over it. -/
def queryNode6 (p : Policydb) (addr mask : Vector Byte 16) : List (NodeCon 16) → Except NodeError (Option NodeRecord)
  | [] => .ok none
  | c :: l =>
    if c.matches addr mask then
      match nodeToRecord p c sepolProtoIp6 with
      | some _ => queryNode6 p addr mask l
      | none => .error .couldNotConvert
    else queryNode6 p addr mask l

def sepolNodeQuery (p : NodePolicy) : NodeKey → Except NodeError (Option NodeRecord)
  | .ip4 addr mask => queryNode p.db addr mask p.node
  | .ip6 addr mask => queryNode6 p.db addr mask p.node6
  | .unsupported proto => .error (.unsupportedProtocol proto)

/-! ## What is asked of a query -/

/-- The record holds the address, the mask and the context of the entry. -/
def NodeRecord.IsOf (r : NodeRecord) (p : Policydb) {n : Nat} (c : NodeCon n) : Prop :=
  r.addr = c.addr.toList ∧ r.mask = c.mask.toList ∧ contextToRecord p c.context = some r.con

/-- The first entry that matches, if there is one, has a context that converts. -/
def FirstConverts {n : Nat} (addr mask : Vector Byte n) (l : List (NodeCon n)) : Prop :=
  ∀ c, l.find? (NodeCon.matches addr mask) = some c → (contextToRecord p c.context).isSome = true

/-- The entry the key names has a context that converts. -/
def NodePolicy.Converts (p : NodePolicy) : NodeKey → Prop
  | .ip4 addr mask => FirstConverts p.db addr mask p.node
  | .ip6 addr mask => FirstConverts p.db addr mask p.node6
  | .unsupported _ => True

/-- A response with the first entry that matches when there is one, and NULL otherwise. -/
def Answered {n : Nat} (addr mask : Vector Byte n) (l : List (NodeCon n)) (found : Bool)
    (answer : Except NodeError (Option NodeRecord)) : Prop :=
  if found then ∃ c r, l.find? (NodeCon.matches addr mask) = some c ∧ answer = .ok (some r) ∧ r.IsOf p c
    else answer = .ok none

/-- `sepol_node_query` says of the key what `sepol_node_exists` says. -/
def QueryAgrees (p : NodePolicy) (key : NodeKey) : Prop :=
  match key with
  | .ip4 addr mask =>
    ∃ found, sepolNodeExists p key = .ok found ∧ Answered p.db addr mask p.node found (sepolNodeQuery p key)
  | .ip6 addr mask =>
    ∃ found, sepolNodeExists p key = .ok found ∧ Answered p.db addr mask p.node6 found (sepolNodeQuery p key)
  | .unsupported _ => False

/-! ## The two searches -/

theorem nodeToRecord_isOf {p : Policydb} {c : NodeCon n} {proto : Int} {r : NodeRecord}
    (h : nodeToRecord p c proto = some r) : r.IsOf p c := by
  obtain ⟨con, hcon, hr⟩ := Option.bind_eq_some_iff.mp h
  cases hr
  exact ⟨rfl, rfl, hcon⟩

theorem nodeToRecord_of_converts {p : Policydb} {c : NodeCon n} (h : (contextToRecord p c.context).isSome = true)
    (proto : Int) : ∃ r, nodeToRecord p c proto = some r := by
  obtain ⟨con, hcon⟩ := Option.isSome_iff_exists.mp h
  exact ⟨_, Option.bind_eq_some_iff.mpr ⟨con, hcon, rfl⟩⟩

theorem queryNode_answered {p : Policydb} {addr mask : Vector Byte 4} {l : List (NodeCon 4)}
    (h : FirstConverts p addr mask l) :
    Answered p addr mask l (l.any (NodeCon.matches addr mask)) (queryNode p addr mask l) := by
  unfold Answered
  induction l with
  | nil => rfl
  | cons c l ih =>
    rw [queryNode, List.any_cons, List.find?_cons]
    by_cases hc : c.matches addr mask = true
    · have hfind : (c :: l).find? (NodeCon.matches addr mask) = some c := List.find?_cons_of_pos hc
      obtain ⟨r, hr⟩ := nodeToRecord_of_converts (h c hfind) sepolProtoIp4
      rw [hc, hr]
      exact ⟨c, r, rfl, rfl, nodeToRecord_isOf hr⟩
    · have hrest : FirstConverts p addr mask l := by
        intro d hd
        exact h d (by rw [List.find?_cons_of_neg hc]; exact hd)
      rw [Bool.not_eq_true] at *
      rw [hc]
      exact ih hrest

/-- Whatever the IPv6 list has, no record comes back. -/
theorem queryNode6_none {p : Policydb} {addr mask : Vector Byte 16} {l : List (NodeCon 16)} {o : Option NodeRecord}
    (h : queryNode6 p addr mask l = .ok o) : o = none := by
  fun_induction queryNode6 p addr mask l with
  | case1 =>
    cases h
    rfl
  | case3 => cases h
  | case2 _ _ _ _ _ ih | case4 _ _ _ ih => exact ih h

theorem queryNode6_of_absent {p : Policydb} {addr mask : Vector Byte 16} {l : List (NodeCon 16)}
    (h : l.any (NodeCon.matches addr mask) = false) : queryNode6 p addr mask l = .ok none := by
  induction l with
  | nil => rfl
  | cons c l ih =>
    rw [List.any_cons, Bool.or_eq_false_iff] at h
    rw [queryNode6, if_neg (by rw [h.1]; exact Bool.false_ne_true)]
    exact ih h.2

/-- The query agrees with the test except for IPv6 keys that have an entry. -/
theorem sepolNodeQuery_agrees_iff {p : NodePolicy} {key : NodeKey} (hkey : ∀ proto, key ≠ .unsupported proto)
    (hconv : p.Converts key) :
    QueryAgrees p key ↔ ∀ addr mask, key = .ip6 addr mask → ∀ c ∈ p.node6, ¬ (c.addr = addr ∧ c.mask = mask) := by
  cases key with
  | unsupported proto => exact absurd rfl (hkey proto)
  | ip4 addr mask =>
    refine iff_of_true ⟨_, rfl, queryNode_answered hconv⟩ ?_
    intro addr' mask' h
    cases h
  | ip6 addr mask =>
    constructor
    · rintro ⟨found, hfound, hanswer⟩ addr' mask' heq c hc hmatch
      cases heq
      have htrue : p.node6.any (NodeCon.matches addr mask) = true :=
        List.any_eq_true.mpr ⟨c, hc, NodeCon.matches_iff.mpr hmatch⟩
      obtain rfl : found = true := by
        cases hfound
        exact htrue
      obtain ⟨d, r, -, hquery, -⟩ := hanswer
      cases queryNode6_none hquery
    · intro habsent
      have hfalse : p.node6.any (NodeCon.matches addr mask) = false := by
        rw [List.any_eq_false]
        intro c hc hmatch
        exact habsent addr mask rfl c hc (NodeCon.matches_iff.mp hmatch)
      exact ⟨false, congrArg Except.ok hfalse, queryNode6_of_absent hfalse⟩

/-! ## A policy with one node of each family -/

/-- One user, one role and one type. -/
def smallDb : Policydb where
  pUsers := Symtab.single "system_u" { value := 1 } rfl
  pRoles := Symtab.single "object_r" { value := 1 } rfl
  pTypes := Symtab.single "node_t" { value := 1 } rfl

def smallPolicy : NodePolicy where
  db := smallDb
  node := [⟨Vector.replicate 4 10#8, Vector.replicate 4 255#8, { user := 1, role := 1, type := 1 }⟩]
  node6 := [⟨Vector.replicate 16 10#8, Vector.replicate 16 255#8, { user := 1, role := 1, type := 1 }⟩]

/-- The IPv4 node is found, and so is that there is no other IPv6 node. -/
theorem smallPolicy_agrees :
    QueryAgrees smallPolicy (.ip4 (Vector.replicate 4 10#8) (Vector.replicate 4 255#8)) ∧
      QueryAgrees smallPolicy (.ip6 (Vector.replicate 16 11#8) (Vector.replicate 16 255#8)) := by
  refine ⟨(sepolNodeQuery_agrees_iff (by simp) ?_).mpr (by simp), (sepolNodeQuery_agrees_iff (by simp) ?_).mpr ?_⟩
  · intro c hc
    have heq : smallPolicy.node.find? (NodeCon.matches (Vector.replicate 4 10#8) (Vector.replicate 4 255#8)) =
        smallPolicy.node.head? := by
      rfl
    rw [heq] at hc
    cases hc
    decide
  · intro c hc
    have hnone : smallPolicy.node6.find? (NodeCon.matches (Vector.replicate 16 11#8) (Vector.replicate 16 255#8)) =
        none := by
      rfl
    rw [hnone] at hc
    cases hc
  · intro addr mask heq c hc hmatch
    cases heq
    obtain rfl := List.mem_singleton.mp hc
    exact absurd hmatch.1 (by decide)

/-- The IPv6 node exists, converts, and is not returned. -/
theorem sepolNodeQuery_ip6_lost :
    sepolNodeExists smallPolicy (.ip6 (Vector.replicate 16 10#8) (Vector.replicate 16 255#8)) = .ok true ∧
      (contextToRecord smallPolicy.db { user := 1, role := 1, type := 1 }).isSome = true ∧
      sepolNodeQuery smallPolicy (.ip6 (Vector.replicate 16 10#8) (Vector.replicate 16 255#8)) = .ok none :=
  ⟨by decide, by decide, by decide⟩

end SELinux.Manage
