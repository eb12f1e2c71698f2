/-
  SELinux.Db.Avtab — the access vector table (`libsepol/src/avtab.c`).

  A hash table of rules. The key's types, class and `specified` bits are `uint16_t`;
  the bucket is chosen by the types and the class alone, and a bucket's chain is kept
  in their order, so rules of one (source, target, class) stand together whatever
  their `specified` bits. `AVTAB_ENABLED` in a key never takes part in a search.

  Nodes are reached by pointer from the conditional lists, so a node has an identity:
  `id`, the number of nodes allocated before it in its table. `Avtab` carries what
  every table built by `avtab_insert` and `avtab_insert_nonunique` keeps: a node is in
  the bucket of its key, chains are in key order, and ids are unique.

  Proved:
  - `avtabSearchNodes_eq_filter`: the `avtab_search_node` / `avtab_search_node_next` loop
    meets exactly the nodes of the table with that key and a common `specified` bit.
  - `avtabSearchNode_eq_none_iff`: the search fails only when there is none.
  - `mem_nodes_insertNode`: an insertion adds its node and nothing else.
  - `mem_nodes_update`: writing through a node pointer changes that node only.
  - `avtabSearchNodes_insertNode`: it comes before the other rules of its key.
  - `nodes_insertNode_perm`: `nel` stays the number of the rules.
-/
import SELinux.Lib.Chain

namespace SELinux.Db

/-! ## Constants of `avtab.h` -/

def avtabAllowed : BitVec 16 := 0x0001#16
def avtabAuditallow : BitVec 16 := 0x0002#16
def avtabAuditdeny : BitVec 16 := 0x0004#16
def avtabNeverallow : BitVec 16 := 0x0080#16
def avtabTransition : BitVec 16 := 0x0010#16
def avtabMember : BitVec 16 := 0x0020#16
def avtabChange : BitVec 16 := 0x0040#16
def avtabXpermsAllowed : BitVec 16 := 0x0100#16
def avtabXpermsAuditallow : BitVec 16 := 0x0200#16
def avtabXpermsDontaudit : BitVec 16 := 0x0400#16
def avtabAv : BitVec 16 := avtabAllowed ||| avtabAuditallow ||| avtabAuditdeny
def avtabType : BitVec 16 := avtabTransition ||| avtabMember ||| avtabChange
def avtabXperms : BitVec 16 := avtabXpermsAllowed ||| avtabXpermsAuditallow ||| avtabXpermsDontaudit
def avtabEnabled : BitVec 16 := 0x8000#16

def xpermsIoctlfunction : BitVec 8 := 0x01#8
def xpermsIoctldriver : BitVec 8 := 0x02#8

/-! ## Keys, data, nodes -/

structure AvtabKey where
  sourceType : BitVec 16
  targetType : BitVec 16
  targetClass : BitVec 16
  specified : BitVec 16
  deriving DecidableEq, Repr

/-- `avtab_extended_perms_t`, and `av_extended_perms_t` of a rule. -/
structure ExtendedPerms where
  specified : BitVec 8 := 0#8
  driver : BitVec 8 := 0#8
  perms : Vector (BitVec 32) 8 := Vector.replicate 8 0#32
  deriving DecidableEq, Repr

/-- A datum. `xperms` is read only on nodes with an `AVTAB_XPERMS` bit, where the pointer
    is never NULL. -/
structure AvtabDatum where
  data : BitVec 32 := 0#32
  xperms : ExtendedPerms := {}
  deriving DecidableEq, Repr

/-- `parseContext` stands for the address of the conditional list a rule was expanded
    into: the conditional node's id and which of its two lists. -/
structure AvtabNode where
  id : Nat
  key : AvtabKey
  datum : AvtabDatum := {}
  parseContext : Option (Nat × Bool) := none
  deriving DecidableEq, Repr

/-- The key as a number: the order of the chains. -/
def AvtabKey.rank (k : AvtabKey) : Nat :=
  (k.sourceType.toNat * 65536 + k.targetType.toNat) * 65536 + k.targetClass.toNat

/-- `key->source_type == cur->key.source_type && ...` -/
def sameKey (k c : AvtabKey) : Bool :=
  k.sourceType == c.sourceType && k.targetType == c.targetType && k.targetClass == c.targetClass

/-- The three tests that end a walk of a chain. -/
def keyBefore (k c : AvtabKey) : Bool :=
  decide (k.sourceType < c.sourceType)
    || (k.sourceType == c.sourceType && decide (k.targetType < c.targetType))
    || (k.sourceType == c.sourceType && k.targetType == c.targetType && decide (k.targetClass < c.targetClass))

theorem sameKey_iff (k c : AvtabKey) : sameKey k c = true ↔
    k.sourceType = c.sourceType ∧ k.targetType = c.targetType ∧ k.targetClass = c.targetClass := by
  simp [sameKey, and_assoc]

theorem sameKey_iff_rank (k c : AvtabKey) : sameKey k c = true ↔ k.rank = c.rank := by
  rw [sameKey_iff, AvtabKey.rank, AvtabKey.rank, ← BitVec.toNat_inj, ← BitVec.toNat_inj, ← BitVec.toNat_inj]
  omega

theorem keyBefore_iff_rank (k c : AvtabKey) : keyBefore k c = true ↔ k.rank < c.rank := by
  simp only [keyBefore, Bool.or_eq_true, Bool.and_eq_true, decide_eq_true_eq, beq_iff_eq, BitVec.lt_def,
    ← BitVec.toNat_inj, AvtabKey.rank]
  omega

/-- `specified & cur->key.specified`, with `AVTAB_ENABLED` taken out of `specified`. -/
def specifiedMeets (specified c : BitVec 16) : Bool := (specified &&& ~~~avtabEnabled) &&& c != 0#16

/-- The test for a rule of the key in a chain. -/
def hitKey (k : AvtabKey) (n : AvtabNode) : Bool := sameKey k n.key && specifiedMeets k.specified n.key.specified

def stopKey (k : AvtabKey) (n : AvtabNode) : Bool := keyBefore k n.key

/-! ## The table -/

def hashMix (hash input : BitVec 32) : BitVec 32 :=
  let v := input * 0xcc9e2d51#32
  let v := (v <<< 15) ||| (v >>> 17)
  let v := v * 0x1b873593#32
  let hash := hash ^^^ v
  let hash := (hash <<< 13) ||| (hash >>> 19)
  hash * 5#32 + 0xe6546b64#32

def avtabHash (k : AvtabKey) (mask : Nat) : Nat :=
  let hash := hashMix 0#32 (k.targetClass.setWidth 32)
  let hash := hashMix hash (k.targetType.setWidth 32)
  let hash := hashMix hash (k.sourceType.setWidth 32)
  let hash := hash ^^^ (hash >>> 16)
  let hash := hash * 0x85ebca6b#32
  let hash := hash ^^^ (hash >>> 13)
  let hash := hash * 0xc2b2ae35#32
  let hash := hash ^^^ (hash >>> 16)
  hash.toNat &&& mask

/-- `htable` is NULL when `nslot` is 0, and `mask` is `nslot - 1`. `nel` is a `uint32_t` that wraps;
    `allocated` is how many nodes there have been, which names the next. -/
structure Avtab where
  htable : Nat → List AvtabNode := fun _ => []
  nslot : Nat := 0
  nel : BitVec 32 := 0#32
  allocated : Nat := 0
  hashed : ∀ i, ∀ n ∈ htable i, i < nslot ∧ avtabHash n.key (nslot - 1) = i := by simp
  sorted : ∀ i, (htable i).Pairwise fun a b => a.key.rank ≤ b.key.rank := by simp
  fresh : ∀ i, ∀ n ∈ htable i, n.id < allocated := by simp
  distinct : ∀ i, ((htable i).map (·.id)).Nodup := by simp
  apart : ∀ i j, ∀ a ∈ htable i, ∀ b ∈ htable j, a.id = b.id → i = j := by simp

variable {h : Avtab} {n : AvtabNode} {k : AvtabKey} {ctx : Option (Nat × Bool)} {d : AvtabDatum}

/-- `avtab_init` -/
abbrev Avtab.empty : Avtab := {}

/-- The number of rounds of `while (work) { work = work >> 1; shift++; }`; `work` is a `uint32_t`. -/
def shiftRounds : Nat → Nat → Nat
  | 0, _ => 0
  | fuel + 1, work => if work = 0 then 0 else shiftRounds fuel (work / 2) + 1

def maxAvtabHashBuckets : Nat := 2 ^ 20

/-- `avtab_alloc`: one bucket for two to four rules. -/
def avtabAlloc (nrules : Nat) : Avtab :=
  if nrules = 0 then {}
  else
    let shift := shiftRounds 32 nrules
    { nslot := min (2 ^ (if 2 < shift then shift - 2 else shift)) maxAvtabHashBuckets }

theorem avtabAlloc_one : (avtabAlloc 1).nslot ≠ 0 := by decide

theorem avtabAlloc_two : (avtabAlloc 2).nslot ≠ 0 := by decide

namespace Avtab

def mask (h : Avtab) : Nat := h.nslot - 1

def bucket (h : Avtab) (k : AvtabKey) : Nat := avtabHash k h.mask

/-- The rules of the table, bucket by bucket, in the order `avtab_map` visits them. -/
def nodes (h : Avtab) : List AvtabNode := (List.range h.nslot).flatMap h.htable

theorem mem_nodes : n ∈ h.nodes ↔ ∃ i, n ∈ h.htable i := by
  simp only [nodes, List.mem_flatMap, List.mem_range]
  exact exists_congr fun i => and_iff_right_of_imp fun hn => (h.hashed i n hn).1

theorem eq_of_id {a b : AvtabNode} (ha : a ∈ h.nodes) (hb : b ∈ h.nodes) (hid : a.id = b.id) : a = b := by
  obtain ⟨i, ha⟩ := mem_nodes.mp ha
  obtain ⟨j, hb⟩ := mem_nodes.mp hb
  obtain rfl := h.apart i j a ha b hb hid
  exact List.inj_on_of_nodup_map (h.distinct i) ha hb hid

end Avtab

theorem avtabHash_congr {k c : AvtabKey} (h : sameKey k c = true) (mask : Nat) : avtabHash k mask = avtabHash c mask := by
  obtain ⟨hs, ht, hc⟩ := (sameKey_iff k c).mp h
  simp only [avtabHash, hs, ht, hc]

/-- A node with the key of a search is in the bucket searched. -/
theorem Avtab.mem_bucket (hs : sameKey k n.key = true) : n ∈ h.htable (h.bucket k) ↔ n ∈ h.nodes := by
  rw [Avtab.mem_nodes]
  refine ⟨fun hn => ⟨_, hn⟩, fun ⟨i, hn⟩ => ?_⟩
  rw [bucket, avtabHash_congr hs, mask, (h.hashed i n hn).2]
  exact hn

/-! ## Searching -/

/-- `avtab_search_node`, and `avtab_search` for its datum. -/
def avtabSearchNode (h : Avtab) (k : AvtabKey) : Option AvtabNode :=
  if h.nslot = 0 then none else (Lib.Chain.search (hitKey k) (stopKey k) (h.htable (h.bucket k))).head?

/-- The nodes of `for (node = avtab_search_node(h, k); node; node = avtab_search_node_next(node, k->specified))`:
    each continues from the one before, whose types and class are those of `k`. -/
def avtabSearchNodes (h : Avtab) (k : AvtabKey) : List AvtabNode :=
  if h.nslot = 0 then [] else Lib.Chain.visits (hitKey k) (stopKey k) (h.htable (h.bucket k))

/-- Past a larger key there is no rule of the key. -/
theorem ordered_of_sorted {l : List AvtabNode} (hl : l.Pairwise fun a b => a.key.rank ≤ b.key.rank) (k : AvtabKey) :
    Lib.Chain.Ordered (hitKey k) (stopKey k) l := by
  refine hl.imp fun {a b} hab hstop => ?_
  have hlt := (keyBefore_iff_rank k a.key).mp hstop
  have hne : sameKey k b.key = false := by
    rw [Bool.eq_false_iff, Ne, sameKey_iff_rank]
    omega
  simp [hitKey, hne]

theorem ordered_chain (h : Avtab) (k : AvtabKey) (i : Nat) : Lib.Chain.Ordered (hitKey k) (stopKey k) (h.htable i) :=
  ordered_of_sorted (h.sorted i) k

theorem htable_of_nslot_zero (h0 : h.nslot = 0) (i : Nat) : h.htable i = [] := by
  refine List.eq_nil_iff_forall_not_mem.mpr ?_
  intro n hn
  have := (h.hashed i n hn).1
  omega

theorem avtabSearchNodes_eq_filter (h : Avtab) (k : AvtabKey) :
    avtabSearchNodes h k = (h.htable (h.bucket k)).filter (hitKey k) := by
  rw [avtabSearchNodes]
  split
  · rw [htable_of_nslot_zero ‹_›]; rfl
  · exact Lib.Chain.visits_eq_filter (ordered_chain h k _)

theorem mem_avtabSearchNodes :
    n ∈ avtabSearchNodes h k ↔ n ∈ h.nodes ∧ hitKey k n = true := by
  rw [avtabSearchNodes_eq_filter, List.mem_filter]
  refine and_congr_left fun hhit => h.mem_bucket ?_
  simp only [hitKey, Bool.and_eq_true] at hhit
  exact hhit.1

theorem avtabSearchNode_eq_head (h : Avtab) (k : AvtabKey) : avtabSearchNode h k = (avtabSearchNodes h k).head? := by
  rw [avtabSearchNode, avtabSearchNodes]
  split
  · rfl
  · exact (Lib.Chain.head?_visits _).symm

theorem avtabSearchNode_eq_none_iff :
    avtabSearchNode h k = none ↔ ∀ n ∈ h.nodes, hitKey k n = false := by
  rw [avtabSearchNode_eq_head, List.head?_eq_none_iff, List.eq_nil_iff_forall_not_mem]
  simp only [mem_avtabSearchNodes, not_and, Bool.not_eq_true]

theorem avtabSearchNode_some (hn : avtabSearchNode h k = some n) : n ∈ h.nodes ∧ hitKey k n = true := by
  rw [avtabSearchNode_eq_head] at hn
  exact mem_avtabSearchNodes.mp (List.mem_of_mem_head? hn)

/-! ## Inserting -/

/-- What the node stores: a copy of the extended permissions for an `AVTAB_XPERMS` key,
    the datum itself otherwise. -/
def storedDatum (k : AvtabKey) (d : AvtabDatum) : AvtabDatum :=
  if k.specified &&& avtabXperms ≠ 0#16 then { xperms := d.xperms } else d

/-- The node `avtab_insert_node` allocates. -/
def Avtab.newNode (h : Avtab) (k : AvtabKey) (d : AvtabDatum) (ctx : Option (Nat × Bool)) : AvtabNode :=
  { id := h.allocated, key := k, datum := storedDatum k d, parseContext := ctx }

/-- The insertion walk stops at a rule of the key or past it. -/
def insertStop (k : AvtabKey) (n : AvtabNode) : Bool := hitKey k n || stopKey k n

def insertInto (h : Avtab) (x : AvtabNode) (i : Nat) : List AvtabNode :=
  if i = h.bucket x.key then Lib.Chain.insertBefore (insertStop x.key) x (h.htable i) else h.htable i

theorem mem_insertInto {x n : AvtabNode} {i : Nat} :
    n ∈ insertInto h x i ↔ (n = x ∧ i = h.bucket x.key) ∨ n ∈ h.htable i := by
  rw [insertInto]
  split
  next hi => simp [hi]
  next hi => simp [hi]

theorem bucket_lt (h0 : h.nslot ≠ 0) (k : AvtabKey) : h.bucket k < h.nslot := by
  have : h.bucket k ≤ h.mask := Nat.and_le_right
  rw [Avtab.mask] at this
  omega

theorem sorted_insertInto (h : Avtab) (x : AvtabNode) (i : Nat) :
    (insertInto h x i).Pairwise fun a b => a.key.rank ≤ b.key.rank := by
  rw [insertInto]
  split
  · refine Lib.Chain.pairwise_insertBefore (R := fun (a b : AvtabNode) => a.key.rank ≤ b.key.rank) Nat.le_trans
      (h.sorted i) ?_ ?_
    · intro a _ hstop
      have hb : keyBefore x.key a.key = false := by
        simp only [insertStop, stopKey, Bool.or_eq_false_iff] at hstop
        exact hstop.2
      have := (keyBefore_iff_rank x.key a.key).not.mp (Bool.eq_false_iff.mp hb)
      omega
    · intro a _ hstop
      simp only [insertStop, hitKey, stopKey, Bool.or_eq_true, Bool.and_eq_true] at hstop
      rcases hstop with ⟨hs, -⟩ | hb
      · exact Nat.le_of_eq ((sameKey_iff_rank _ _).mp hs)
      · exact Nat.le_of_lt ((keyBefore_iff_rank _ _).mp hb)
  · exact h.sorted i

theorem distinct_insertInto (h : Avtab) {x : AvtabNode} (hx : x.id = h.allocated) (i : Nat) :
    ((insertInto h x i).map (·.id)).Nodup := by
  rw [insertInto]
  split
  · rw [((Lib.Chain.insertBefore_perm x (h.htable i)).map (·.id)).nodup_iff, List.map_cons, List.nodup_cons]
    refine ⟨?_, h.distinct i⟩
    intro hm
    obtain ⟨n, hn, hid⟩ := List.mem_map.mp hm
    have := h.fresh i n hn
    omega
  · exact h.distinct i

/-- `avtab_insert_node` into an allocated table. -/
def Avtab.insertNode (h : Avtab) (h0 : h.nslot ≠ 0) (k : AvtabKey) (d : AvtabDatum) (ctx : Option (Nat × Bool)) : Avtab where
  htable := insertInto h (h.newNode k d ctx)
  nslot := h.nslot
  nel := h.nel + 1#32
  allocated := h.allocated + 1
  hashed i n hn := by
    rcases mem_insertInto.mp hn with ⟨rfl, rfl⟩ | hn
    · exact ⟨bucket_lt h0 _, rfl⟩
    · exact h.hashed i n hn
  sorted := sorted_insertInto h _
  fresh i n hn := by
    rcases mem_insertInto.mp hn with ⟨rfl, -⟩ | hn
    · exact Nat.lt_succ_self _
    · exact Nat.lt_succ_of_lt (h.fresh i n hn)
  distinct := distinct_insertInto h rfl
  apart i j a ha b hb hab := by
    rcases mem_insertInto.mp ha with ⟨rfl, hi⟩ | ha <;> rcases mem_insertInto.mp hb with ⟨rfl, hj⟩ | hb
    · rw [hi, hj]
    · have := h.fresh j b hb; simp only [newNode] at hab; omega
    · have := h.fresh i a ha; simp only [newNode] at hab; omega
    · exact h.apart i j a ha b hb hab

theorem mem_nodes_insertNode {h0 : h.nslot ≠ 0} :
    n ∈ (h.insertNode h0 k d ctx).nodes ↔ n = h.newNode k d ctx ∨ n ∈ h.nodes := by
  simp only [Avtab.mem_nodes]
  show (∃ i, n ∈ insertInto h (h.newNode k d ctx) i) ↔ _
  simp only [mem_insertInto]
  constructor
  · intro h
    rcases h with ⟨i, ⟨rfl, -⟩ | hn⟩
    · exact Or.inl rfl
    · exact Or.inr ⟨i, hn⟩
  · intro h
    rcases h with rfl | ⟨i, hn⟩
    · exact ⟨_, Or.inl ⟨rfl, rfl⟩⟩
    · exact ⟨i, Or.inr hn⟩

/-- A new node comes before the other ones that a search meets with it. -/
theorem avtabSearchNodes_insertNode (h0 : h.nslot ≠ 0) {key k : AvtabKey}
    (hspec : specifiedMeets k.specified key.specified = true → k.specified = key.specified) (d : AvtabDatum)
    (ctx : Option (Nat × Bool)) :
    avtabSearchNodes (h.insertNode h0 key d ctx) k =
      if hitKey k (h.newNode key d ctx) then h.newNode key d ctx :: avtabSearchNodes h k else avtabSearchNodes h k := by
  rw [avtabSearchNodes_eq_filter, avtabSearchNodes_eq_filter]
  show (insertInto h (h.newNode key d ctx) (h.bucket k)).filter (hitKey k) = _
  unfold insertInto
  by_cases hnew : hitKey k (h.newNode key d ctx) = true
  · have hboth : sameKey k key = true ∧ specifiedMeets k.specified key.specified = true := by
      rwa [hitKey, Bool.and_eq_true] at hnew
    have hbucket : h.bucket k = h.bucket (h.newNode key d ctx).key := avtabHash_congr hboth.1 _
    rw [if_pos hbucket, if_pos hnew]
    refine Lib.Chain.filter_insertBefore hnew ?_
    -- a rule of the one key is a rule of the other
    intro n _ hhit
    have hk : hitKey key n = true := by
      unfold hitKey at hhit ⊢
      rw [Bool.and_eq_true] at hhit ⊢
      rw [← hspec hboth.2]
      refine ⟨?_, hhit.2⟩
      rw [sameKey_iff_rank] at hhit ⊢
      rw [← (sameKey_iff_rank k key).mp hboth.1]
      exact hhit.1
    show (hitKey key n || stopKey key n) = true
    rw [hk, Bool.true_or]
  · rw [if_neg hnew]
    split
    · exact Lib.Chain.filter_insertBefore_of_not hnew _
    · rfl

inductive AvtabError
  | enomem
  | eexist
  deriving DecidableEq, Repr

/-- `avtab_insert`: extended permission rules are not unique, all others are. -/
def avtabInsert (h : Avtab) (k : AvtabKey) (d : AvtabDatum) : Except AvtabError Avtab :=
  if h0 : h.nslot = 0 then .error .enomem
  else if (avtabSearchNode h k).isSome && k.specified &&& ~~~avtabEnabled &&& avtabXperms == 0#16 then .error .eexist
  else .ok (h.insertNode h0 k d none)

/-- `avtab_insert_nonunique`: the table and the new node, `none` without a table. -/
def avtabInsertNonunique (h : Avtab) (k : AvtabKey) (d : AvtabDatum) (ctx : Option (Nat × Bool)) :
    Option (Avtab × AvtabNode) :=
  if h0 : h.nslot = 0 then none else some (h.insertNode h0 k d ctx, h.newNode k d ctx)

theorem avtabInsertNonunique_some {h h' : Avtab} (hi : avtabInsertNonunique h k d ctx = some (h', n)) :
    n = h.newNode k d ctx ∧ h'.nslot = h.nslot ∧ ∀ m, m ∈ h'.nodes ↔ m = n ∨ m ∈ h.nodes := by
  rw [avtabInsertNonunique] at hi
  split at hi
  · cases hi
  · cases hi
    exact ⟨rfl, rfl, fun m => mem_nodes_insertNode⟩

/-! ## Writing through a node pointer -/

/-- `node->key.specified`, `node->datum`: what a holder of a node pointer may change. -/
def AvtabNode.write (n : AvtabNode) (f : BitVec 16 → AvtabDatum → BitVec 16 × AvtabDatum) : AvtabNode :=
  { n with key.specified := (f n.key.specified n.datum).1, datum := (f n.key.specified n.datum).2 }

def writeId (id : Nat) (f : BitVec 16 → AvtabDatum → BitVec 16 × AvtabDatum) (n : AvtabNode) : AvtabNode :=
  if n.id = id then n.write f else n

@[simp] theorem writeId_id (id : Nat) (f) (n : AvtabNode) : (writeId id f n).id = n.id := by
  rw [writeId]; split <;> rfl

@[simp] theorem writeId_rank (id : Nat) (f) (n : AvtabNode) : (writeId id f n).key.rank = n.key.rank := by
  rw [writeId]; split <;> rfl

@[simp] theorem writeId_parseContext (id : Nat) (f) (n : AvtabNode) : (writeId id f n).parseContext = n.parseContext := by
  rw [writeId]; split <;> rfl

def Avtab.update (h : Avtab) (id : Nat) (f : BitVec 16 → AvtabDatum → BitVec 16 × AvtabDatum) : Avtab where
  htable i := (h.htable i).map (writeId id f)
  nslot := h.nslot
  nel := h.nel
  allocated := h.allocated
  hashed i n hn := by
    obtain ⟨m, hm, rfl⟩ := List.mem_map.mp hn
    refine ⟨(h.hashed i m hm).1, Eq.trans (avtabHash_congr ?_ _) (h.hashed i m hm).2⟩
    rw [sameKey_iff_rank, writeId_rank]
  sorted i := by
    rw [List.pairwise_map]
    simpa using h.sorted i
  fresh i n hn := by
    obtain ⟨m, hm, rfl⟩ := List.mem_map.mp hn
    simpa using h.fresh i m hm
  distinct i := by
    simpa [Function.comp_def] using h.distinct i
  apart i j a ha b hb hab := by
    obtain ⟨a', ha', rfl⟩ := List.mem_map.mp ha
    obtain ⟨b', hb', rfl⟩ := List.mem_map.mp hb
    simp only [writeId_id] at hab
    exact h.apart i j a' ha' b' hb' hab

theorem mem_nodes_update {id : Nat} {f} : n ∈ (h.update id f).nodes ↔ ∃ m ∈ h.nodes, writeId id f m = n := by
  simp only [Avtab.mem_nodes]
  show (∃ i, n ∈ (h.htable i).map (writeId id f)) ↔ _
  simp only [List.mem_map]
  constructor
  · intro h
    obtain ⟨i, m, hm, rfl⟩ := h
    exact ⟨m, ⟨i, hm⟩, rfl⟩
  · intro h
    obtain ⟨m, ⟨i, hm⟩, rfl⟩ := h
    exact ⟨i, m, hm, rfl⟩

/-! ## Counting -/

/-- `nel` is the number of rules, as far as a `uint32_t` can tell. -/
structure Avtab.Counted (h : Avtab) : Prop where
  allocated : h.nodes.length = h.allocated
  nel : h.nel = BitVec.ofNat 32 h.nodes.length

theorem flatMap_set_perm {α : Type} {f : Nat → List α} {g : List α} {x : α} {j : Nat} (hg : g.Perm (x :: f j)) {l : List Nat}
    (hl : l.Nodup) (hj : j ∈ l) : (l.flatMap fun i => if i = j then g else f i).Perm (x :: l.flatMap f) := by
  induction l with
  | nil => cases hj
  | cons i l ih =>
    obtain ⟨hi, hl⟩ := List.nodup_cons.mp hl
    rw [List.flatMap_cons]
    by_cases hij : i = j
    · -- the others are as they were
      have hrest : (l.flatMap fun i => if i = j then g else f i) = l.flatMap f := by
        refine List.flatMap_congr ?_
        intro k hk
        rw [if_neg]
        rintro rfl
        exact hi (hij ▸ hk)
      rw [if_pos hij, hrest, hij]
      exact hg.append_right (l.flatMap f)
    · rw [if_neg hij]
      have hmem : j ∈ l := (List.mem_cons.mp hj).resolve_left (Ne.symm hij)
      exact ((ih hl hmem).append_left (f i)).trans List.perm_middle

theorem nodes_insertNode_perm {h0 : h.nslot ≠ 0} : (h.insertNode h0 k d ctx).nodes.Perm (h.newNode k d ctx :: h.nodes) := by
  have hchain : (Lib.Chain.insertBefore (insertStop k) (h.newNode k d ctx) (h.htable (h.bucket k))).Perm
      (h.newNode k d ctx :: h.htable (h.bucket k)) := Lib.Chain.insertBefore_perm _ _
  have hins := flatMap_set_perm (f := h.htable) hchain List.nodup_range (List.mem_range.mpr (bucket_lt h0 k))
  refine List.Perm.trans (List.Perm.of_eq ?_) hins
  refine List.flatMap_congr ?_
  intro i _
  show (if i = h.bucket k then Lib.Chain.insertBefore (insertStop k) (h.newNode k d ctx) (h.htable i) else h.htable i) = _
  by_cases hi : i = h.bucket k
  · rw [if_pos hi, if_pos hi, hi]
  · rw [if_neg hi, if_neg hi]

theorem counted_insertNode (hc : h.Counted) (h0 : h.nslot ≠ 0) (k : AvtabKey) (d : AvtabDatum)
    (ctx : Option (Nat × Bool)) : (h.insertNode h0 k d ctx).Counted := by
  have hlength : (h.insertNode h0 k d ctx).nodes.length = h.nodes.length + 1 := nodes_insertNode_perm.length_eq
  refine ⟨?_, ?_⟩
  · rw [hlength, hc.allocated]
    rfl
  · rw [hlength, BitVec.ofNat_add, ← hc.nel]
    rfl

theorem nodes_update (h : Avtab) (id : Nat) (f) : (h.update id f).nodes = h.nodes.map (writeId id f) :=
  (List.map_flatMap).symm

theorem counted_update (hc : h.Counted) (id : Nat) (f) : (h.update id f).Counted := by
  have hlength : (h.update id f).nodes.length = h.nodes.length := by rw [nodes_update, List.length_map]
  exact ⟨hlength.trans hc.allocated, hlength ▸ hc.nel⟩

theorem nodes_avtabAlloc (n : Nat) : (avtabAlloc n).nodes = [] := by
  refine List.eq_nil_iff_forall_not_mem.mpr ?_
  intro m hm
  obtain ⟨i, hi⟩ := Avtab.mem_nodes.mp hm
  unfold avtabAlloc at hi
  split at hi <;> cases hi

theorem counted_avtabAlloc (n : Nat) : (avtabAlloc n).Counted := by
  refine ⟨?_, ?_⟩
  · rw [nodes_avtabAlloc]
    unfold avtabAlloc
    split <;> rfl
  · rw [nodes_avtabAlloc]
    unfold avtabAlloc
    split <;> rfl

/-! ## Visiting every rule -/

/-- `avtab_map` over a list of nodes: the walk ends at the first non-zero result. -/
def mapNodes {σ : Type} (apply : AvtabNode → σ → Int × σ) : List AvtabNode → σ → Int × σ
  | [], s => (0, s)
  | n :: l, s => if (apply n s).1 ≠ 0 then apply n s else mapNodes apply l (apply n s).2

def avtabMap {σ : Type} (h : Avtab) (apply : AvtabNode → σ → Int × σ) (s : σ) : Int × σ := mapNodes apply h.nodes s

theorem avtabMap_eq_zero_iff {f : AvtabNode → Int} :
    (avtabMap h (fun n (_ : Unit) => (f n, ())) ()).1 = 0 ↔ ∀ n ∈ h.nodes, f n = 0 := by
  rw [avtabMap]
  induction h.nodes with
  | nil => simp [mapNodes]
  | cons n l ih =>
    simp only [mapNodes, List.forall_mem_cons]
    split
    next hf => simp [hf]
    next hf => rw [ih]; exact (and_iff_right (Decidable.not_not.mp hf)).symm

end SELinux.Db
