/-
  SELinux.File.Avtab — the access vector table in a policy file (`libsepol/src/write.c`:
  `avtab_write_item`, `avtab_write`; `avtab.c`: `avtab_read_item`, `avtab_read`).

  A table is its element count and its rules one after the other. Policies older than version
  20 have rules on types only, and hold the access vectors of one key in one item, and its
  type rules in another: the writer expands the table's attributes first, merges the rules of
  a key and counts the items in a pass of its own, before the one that writes them. The
  reader takes an item apart again, and inserts each rule as a new one.

  Only kernel policies have the table. The file is in memory (`PF_USE_MEMORY`), and the
  element counts, `uint32_t` in the code, are those of tables that fit in memory.
-/
import SELinux.Expand.Avtab
import SELinux.Lib.Wire

namespace SELinux.File

open Db Lib Lib.Wire

def policydbVersionAvtab : Nat := 20
def policydbVersionXpermsIoctl : Nat := 30

def avtabEnabledOld : BitVec 32 := 0x80000000#32

/-- `spec_order` of the writer: the order of the data in an item. -/
def specOrder : List (BitVec 16) :=
  [avtabAllowed, avtabAuditdeny, avtabAuditallow, avtabTransition, avtabChange, avtabMember]

/-- `spec_order` of the reader. -/
def specOrderRead : List (BitVec 16) := specOrder ++ [avtabXpermsAllowed, avtabXpermsAuditallow, avtabXpermsDontaudit]

/-- `val & spec` -/
def valMeets (val : BitVec 32) (spec : BitVec 16) : Bool := val &&& spec.setWidth 32 != 0#32

/-! ## Reading -/

section Read

variable {σ : Type}

/-- The words of an item of the old format, past the item count. -/
def readOldItem (insertf : σ → AvtabKey → AvtabDatum → Option σ) (a : σ) (buf32 : List (BitVec 32)) : Reader σ := do
  let source := buf32.getD 0 0#32
  let target := buf32.getD 1 0#32
  let tclass := buf32.getD 2 0#32
  let val := buf32.getD 3 0#32
  check (decide (source.toNat < 2 ^ 16))
  check (decide (target.toNat < 2 ^ 16))
  check (decide (tclass.toNat < 2 ^ 16))
  let enabled := if val &&& avtabEnabledOld ≠ 0#32 then avtabEnabled else 0#16
  check (valMeets val (avtabAv ||| avtabType))
  check (!(valMeets val avtabAv && valMeets val avtabType))
  let specs := specOrderRead.filter (valMeets val)
  -- data past the end of the item are not initialised: the test below refuses it then
  let a ← ofOption ((specs.zip (buf32.drop 4)).foldlM
    (fun a e => insertf a ⟨source.setWidth 16, target.setWidth 16, tclass.setWidth 16, e.1 ||| enabled⟩ { data := e.2 }) a)
  check (decide (4 + specs.length = buf32.length))
  return a

/-- `avtab_read_item`; `insertf` takes each rule that is read. -/
def avtabReadItem (vers : Nat) (insertf : σ → AvtabKey → AvtabDatum → Option σ) (a : σ) : Reader σ :=
  if vers < policydbVersionAvtab then do
    let items2 ← num 4
    check (decide (5 ≤ items2 ∧ items2 ≤ 8))
    let buf32 ← times (word 32) items2
    readOldItem insertf a buf32
  else do
    let source ← word 16
    let target ← word 16
    let tclass ← word 16
    let specified ← word 16
    let key : AvtabKey := ⟨source, target, tclass, specified⟩
    check (decide ((specOrderRead.filter (specified &&& · != 0#16)).length = 1))
    if specified &&& avtabXperms ≠ 0#16 then do
      check (decide (policydbVersionXpermsIoctl ≤ vers))
      let xspecified ← word 8
      let driver ← word 8
      let perms ← times (word 32) 8
      let xperms : ExtendedPerms := { specified := xspecified, driver, perms := Vector.ofFn fun i => perms.getD i 0#32 }
      ofOption (insertf a key { xperms })
    else do
      let data ← word 32
      ofOption (insertf a key { data })

end Read

def avtabInsertf (a : Avtab) (k : AvtabKey) (d : AvtabDatum) : Option Avtab := (avtabInsert a k d).toOption

def avtabRead (vers : Nat) : Reader Avtab := do
  let nel ← num 4
  check (decide (nel ≠ 0))
  loop (avtabReadItem vers avtabInsertf) nel (avtabAlloc nel)

/-! ## Writing -/

/-- The nodes with the flag `merged`, and the element count of the old format. -/
structure WriteState where
  merged : List Nat := []
  nel : BitVec 32

/-- `avtab_search_node_next` from `cur`, whose bucket goes on with `rest`, and on from there. -/
def nextNodes (cur : AvtabNode) (rest : List AvtabNode) (specified : BitVec 16) : List AvtabNode :=
  Chain.visits (hitKey { cur.key with specified }) (stopKey cur.key) rest

/-- `key.specified` in the old format. -/
def oldVal (n : AvtabNode) : BitVec 32 :=
  (n.key.specified &&& ~~~avtabEnabled).setWidth 32 |||
    (if n.key.specified &&& avtabEnabled ≠ 0#16 then avtabEnabledOld else 0#32)

/-- An item of the old format. -/
structure OldItem where
  source : BitVec 16
  target : BitVec 16
  tclass : BitVec 16
  val : BitVec 32
  data : List (BitVec 32)

def OldItem.words (item : OldItem) : List (BitVec 32) :=
  item.source.setWidth 32 :: item.target.setWidth 32 :: item.tclass.setWidth 32 :: item.val :: item.data

def OldItem.bytes (item : OldItem) : Bytes := toBytes 4 item.words.length ++ item.words.flatMap putWord

/-- The rules whose data an item with `val` has, in order. -/
def pickNodes (cur : AvtabNode) (rest : List AvtabNode) (val : BitVec 32) : Option (List AvtabNode) :=
  (specOrder.filter (valMeets val)).mapM fun spec =>
    if cur.key.specified &&& spec ≠ 0#16 then some cur else (nextNodes cur rest spec).head?

/-- An item and its rules. -/
def itemOf (cur : AvtabNode) (val : BitVec 32) (nodes : List AvtabNode) : OldItem :=
  ⟨cur.key.sourceType, cur.key.targetType, cur.key.targetClass, val, nodes.map (·.datum.data)⟩

/-- `lookup`: what the rules to merge with `cur` have. -/
def lookupOf (cur : AvtabNode) : Option (BitVec 16) :=
  if valMeets (oldVal cur) avtabAv then some avtabAv
  else if valMeets (oldVal cur) avtabType then some avtabType
  else none

/-- An item of the old format, merged with the rules of the same key: the item, its rules, and
    by how many the element count goes down. -/
def mergedItem (cur : AvtabNode) (rest : List AvtabNode) : Option (OldItem × List AvtabNode × Nat) := do
  let lookup ← lookupOf cur
  let partners := nextNodes cur rest lookup
  let val := partners.foldl (fun val n => val ||| oldVal n) (oldVal cur)
  if valMeets val avtabAv && valMeets val avtabType then none
  else
    let nodes ← pickNodes cur rest val
    -- the code's `set`
    if nodes.length ≠ partners.length + 1 then none
    else
      let others := (specOrder.filter (valMeets val)).countP (cur.key.specified &&& · == 0#16)
      return (itemOf cur val nodes, nodes, others)

/-- An item of the old format for one rule. -/
def singleItem (cur : AvtabNode) : Option (OldItem × List AvtabNode × Nat) :=
  let val := oldVal cur
  if !valMeets val (avtabAv ||| avtabType) || (valMeets val avtabAv && valMeets val avtabType) then none
  else some (itemOf cur val [cur], [cur], 0)

/-- A rule of the new format. -/
def newItem (vers : Nat) (selinux : Bool) (cur : AvtabNode) : Option Bytes :=
  let key := putWord cur.key.sourceType ++
    (putWord cur.key.targetType ++ (putWord cur.key.targetClass ++ putWord cur.key.specified))
  if cur.key.specified &&& avtabXperms ≠ 0#16 then
    if vers < policydbVersionXpermsIoctl ∨ !selinux then none
    else
      let xperms := cur.datum.xperms
      some (key ++ (putWord xperms.specified ++ (putWord xperms.driver ++ xperms.perms.toList.flatMap putWord)))
  else some (key ++ putWord cur.datum.data)

/-- `avtab_write_item`: what it puts in the file, an item or nothing. -/
def avtabWriteItem (vers : Nat) (selinux merge commit : Bool) (cur : AvtabNode) (rest : List AvtabNode) (st : WriteState) :
    Option (List Bytes × WriteState) :=
  if vers < policydbVersionAvtab then
    if merge && st.merged.contains cur.id then some ([], st)
    else do
      let (item, nodes, others) ← if merge then mergedItem cur rest else singleItem cur
      return (if commit then [item.bytes] else [],
        { merged := nodes.map (·.id) ++ st.merged, nel := st.nel - BitVec.ofNat 32 others })
  else (newItem vers selinux cur).map fun bytes => ([bytes], st)

/-- The loop over a bucket. -/
def writeChain (vers : Nat) (selinux commit : Bool) : List AvtabNode → WriteState → Option (List Bytes × WriteState)
  | [], st => some ([], st)
  | cur :: rest, st => do
    let (item, st) ← avtabWriteItem vers selinux true commit cur rest st
    let (items, st) ← writeChain vers selinux commit rest st
    return (item ++ items, st)

/-- The loop over the buckets. -/
def writeBuckets (vers : Nat) (selinux commit : Bool) : List (List AvtabNode) → WriteState → Option (List Bytes × WriteState)
  | [], st => some ([], st)
  | chain :: chains, st => do
    let (items, st) ← writeChain vers selinux commit chain st
    let (more, st) ← writeBuckets vers selinux commit chains st
    return (items ++ more, st)

def bucketsOf (a : Avtab) : List (List AvtabNode) := (List.range a.nslot).map a.htable

/-- The table that is written: old policies have its rules on types. -/
def writtenTable (vers : Nat) (p : Policydb) (a : Avtab) : Option Avtab :=
  if vers < policydbVersionAvtab then Expand.expandAvtab p a else some a

/-- `avtab_write`: the element count and the items. -/
def avtabWriteItems (vers : Nat) (selinux : Bool) (p : Policydb) (a : Avtab) : Option (Nat × List Bytes) := do
  let a ← writtenTable vers p a
  if vers < policydbVersionAvtab then
    let (_, st) ← writeBuckets vers selinux false (bucketsOf a) { nel := a.nel }
    let (items, _) ← writeBuckets vers selinux true (bucketsOf a) { nel := st.nel }
    return (st.nel.toNat, items)
  else
    let (items, _) ← writeBuckets vers selinux true (bucketsOf a) { nel := a.nel }
    return (a.nel.toNat, items)

def avtabWrite (vers : Nat) (selinux : Bool) (p : Policydb) (a : Avtab) : Option Bytes :=
  (avtabWriteItems vers selinux p a).map fun r => toBytes 4 r.1 ++ r.2.flatten

/-! ## Kinds -/

/-- `specified` without `AVTAB_ENABLED`. -/
def kindOf (specified : BitVec 16) : BitVec 16 := specified &&& ~~~avtabEnabled

/-- One kind of rule, enabled or not. -/
def OneKind (specified : BitVec 16) : Prop := kindOf specified ∈ specOrderRead

instance (specified : BitVec 16) : Decidable (OneKind specified) := inferInstanceAs (Decidable (_ ∈ _))

def enabledBit (specified : BitVec 16) : BitVec 16 := specified &&& avtabEnabled

theorem enabledBit_cases (specified : BitVec 16) : enabledBit specified = 0#16 ∨ enabledBit specified = avtabEnabled := by
  have hbit : avtabEnabled = BitVec.twoPow 16 15 := by decide
  rw [enabledBit, hbit, BitVec.and_twoPow]
  split
  · exact Or.inr rfl
  · exact Or.inl rfl

theorem kindOf_or_enabledBit (specified : BitVec 16) : kindOf specified ||| enabledBit specified = specified := by
  unfold kindOf enabledBit
  refine BitVec.eq_of_getLsbD_eq ?_
  intro i hi
  simp only [BitVec.getLsbD_or, BitVec.getLsbD_and, BitVec.getLsbD_not, hi, decide_true, Bool.true_and]
  cases specified.getLsbD i <;> cases avtabEnabled.getLsbD i <;> rfl

variable {specified : BitVec 16}

/-- A rule's `specified` is a kind and a flag. -/
theorem OneKind.eq (h : OneKind specified) :
    ∃ kind ∈ specOrderRead, ∃ e ∈ [0#16, avtabEnabled], kindOf specified = kind ∧ enabledBit specified = e ∧
      specified = kind ||| e := by
  refine ⟨_, h, enabledBit specified, ?_, rfl, rfl, (kindOf_or_enabledBit specified).symm⟩
  rcases enabledBit_cases specified with he | he <;> simp [he]

/-- What is checked for all kinds, with and without the flag, and all kinds to compare with. -/
def forKinds (P : BitVec 16 → BitVec 16 → BitVec 16 → Bool) : Bool :=
  specOrderRead.all fun kind => specOrderRead.all fun spec => [0#16, avtabEnabled].all fun e => P kind spec e

variable {spec : BitVec 16}

theorem OneKind.check {P : BitVec 16 → BitVec 16 → BitVec 16 → Bool} (h : forKinds P = true) (hs : OneKind specified)
    (hspec : spec ∈ specOrderRead) : P (kindOf specified) spec (enabledBit specified) = true := by
  obtain ⟨kind, hkind, e, he, hk, henabled, -⟩ := hs.eq
  rw [hk, henabled]
  exact List.all_eq_true.mp (List.all_eq_true.mp (List.all_eq_true.mp h kind hkind) spec hspec) e he

theorem specifiedMeets_kind (h : OneKind specified) (hspec : spec ∈ specOrderRead) :
    specifiedMeets spec specified = decide (kindOf specified = spec) := by
  have hcheck : forKinds (fun kind spec e => specifiedMeets spec (kind ||| e) == decide (kind = spec)) = true := by decide
  have h' := h.check hcheck hspec
  rwa [kindOf_or_enabledBit, beq_iff_eq] at h'

theorem specified_and_kind (h : OneKind specified) (hspec : spec ∈ specOrderRead) :
    (specified &&& spec != 0#16) = decide (kindOf specified = spec) := by
  have hcheck : forKinds (fun kind spec e => ((kind ||| e) &&& spec != 0#16) == decide (kind = spec)) = true := by decide
  have h' := h.check hcheck hspec
  rwa [kindOf_or_enabledBit, beq_iff_eq] at h'

/-! ## Inserting what was read -/

/-- The part of a datum that a rule of this kind has. -/
def usedDatum (specified : BitVec 16) (d : AvtabDatum) : AvtabDatum :=
  if specified &&& avtabXperms ≠ 0#16 then { xperms := d.xperms } else { data := d.data }

def entryOf (n : AvtabNode) : AvtabKey × AvtabDatum := (n.key, usedDatum n.key.specified n.datum)

/-- The rules of a table. -/
def entries (a : Avtab) : List (AvtabKey × AvtabDatum) := a.nodes.map entryOf

/-- Two rules that are the same but for their data; extended permissions may be several. -/
structure Clash (k c : AvtabKey) : Prop where
  key : sameKey k c = true
  kind : kindOf k.specified = kindOf c.specified
  single : k.specified &&& avtabXperms = 0#16

theorem kindOf_and_xperms (specified : BitVec 16) : kindOf specified &&& avtabXperms = specified &&& avtabXperms := by
  have hnot : ~~~avtabEnabled &&& avtabXperms = avtabXperms := by decide
  rw [kindOf, BitVec.and_assoc, hnot]

variable {k : AvtabKey}

theorem Clash.symm {c : AvtabKey} (h : Clash k c) : Clash c k := by
  refine ⟨?_, h.kind.symm, ?_⟩
  · obtain ⟨h1, h2, h3⟩ := (sameKey_iff k c).mp h.key
    exact (sameKey_iff c k).mpr ⟨h1.symm, h2.symm, h3.symm⟩
  · rw [← kindOf_and_xperms, ← h.kind, kindOf_and_xperms]
    exact h.single

theorem usedDatum_stored (k : AvtabKey) (d : AvtabDatum) :
    usedDatum k.specified (storedDatum k d) = usedDatum k.specified d := by
  unfold usedDatum storedDatum
  split <;> rfl

theorem usedDatum_used (specified : BitVec 16) (d : AvtabDatum) :
    usedDatum specified (usedDatum specified d) = usedDatum specified d := by
  unfold usedDatum
  split <;> rfl

theorem hitKey_oneKind {n : AvtabNode} (hk : OneKind k.specified) (hn : OneKind n.key.specified) :
    hitKey k n = (sameKey k n.key && decide (kindOf n.key.specified = kindOf k.specified)) := by
  have hmeets : specifiedMeets k.specified n.key.specified = specifiedMeets (kindOf k.specified) n.key.specified := by
    have hidem : kindOf k.specified &&& ~~~avtabEnabled = k.specified &&& ~~~avtabEnabled := by
      rw [kindOf, BitVec.and_assoc, BitVec.and_self]
    rw [specifiedMeets, specifiedMeets, hidem]
  rw [hitKey, hmeets, specifiedMeets_kind hn hk]

/-- A rule without its like in the table is inserted. -/
theorem avtabInsertf_eq {a : Avtab} (h0 : a.nslot ≠ 0) (hk : OneKind k.specified)
    (ha : ∀ n ∈ a.nodes, OneKind n.key.specified ∧ ¬Clash k n.key)
    (d : AvtabDatum) : avtabInsertf a k d = some (a.insertNode h0 k d none) := by
  unfold avtabInsertf avtabInsert
  rw [dif_neg h0, if_neg]
  · rfl
  · intro h
    rw [Bool.and_eq_true, beq_iff_eq] at h
    obtain ⟨n, hn⟩ := Option.isSome_iff_exists.mp h.1
    obtain ⟨hmem, hhit⟩ := avtabSearchNode_some hn
    obtain ⟨hone, hclash⟩ := ha n hmem
    rw [hitKey_oneKind hk hone, Bool.and_eq_true, decide_eq_true_iff] at hhit
    refine hclash ⟨hhit.1, hhit.2.symm, ?_⟩
    rw [← kindOf_and_xperms]
    exact h.2

theorem entries_insertNode (a : Avtab) (h0 : a.nslot ≠ 0) (k : AvtabKey) (d : AvtabDatum) :
    (entries (a.insertNode h0 k d none)).Perm ((k, usedDatum k.specified d) :: entries a) := by
  have hnodes : (a.insertNode h0 k d none).nodes.Perm (a.newNode k d none :: a.nodes) := nodes_insertNode_perm
  have hperm := hnodes.map entryOf
  rw [List.map_cons] at hperm
  have hnew : entryOf (a.newNode k d none) = (k, usedDatum k.specified d) := by
    rw [← usedDatum_stored k d]
    rfl
  rwa [hnew] at hperm

/-- The loop over rules of which no two clash. -/
theorem insertAll {es : List (AvtabKey × AvtabDatum)} (hone : ∀ e ∈ es, OneKind e.1.specified)
    (hclash : es.Pairwise fun e f => ¬Clash f.1 e.1) {a : Avtab} (h0 : a.nslot ≠ 0)
    (ha : ∀ n ∈ a.nodes, OneKind n.key.specified ∧ ∀ e ∈ es, ¬Clash e.1 n.key) :
    ∃ a', es.foldlM (fun a e => avtabInsertf a e.1 e.2) a = some a' ∧
      (entries a').Perm (es.map (fun e => (e.1, usedDatum e.1.specified e.2)) ++ entries a) := by
  induction es generalizing a with
  | nil => exact ⟨a, rfl, List.Perm.refl _⟩
  | cons e es ih =>
    obtain ⟨hfirst, hrest⟩ := List.pairwise_cons.mp hclash
    have hinsert := avtabInsertf_eq h0 (hone e List.mem_cons_self)
      (fun n hn => ⟨(ha n hn).1, (ha n hn).2 e List.mem_cons_self⟩) e.2
    have hnodes : ∀ n ∈ (a.insertNode h0 e.1 e.2 none).nodes, OneKind n.key.specified ∧ ∀ f ∈ es, ¬Clash f.1 n.key := by
      intro n hn
      rcases mem_nodes_insertNode.mp hn with rfl | hn
      · exact ⟨hone e List.mem_cons_self, fun f hf => hfirst f hf⟩
      · exact ⟨(ha n hn).1, fun f hf => (ha n hn).2 f (List.mem_cons_of_mem e hf)⟩
    have h0' : (a.insertNode h0 e.1 e.2 none).nslot ≠ 0 := h0
    obtain ⟨a', ha', hperm⟩ := ih (fun f hf => hone f (List.mem_cons_of_mem e hf)) hrest h0' hnodes
    refine ⟨a', ?_, ?_⟩
    · rw [List.foldlM_cons, hinsert]
      exact ha'
    · refine hperm.trans (((entries_insertNode a h0 e.1 e.2).append_left _).trans ?_)
      exact List.perm_middle

/-! ## Items -/

theorem ofFn_perms (v : Vector (BitVec 32) 8) : (Vector.ofFn fun i : Fin 8 => v.toList.getD i 0#32) = v := by
  refine Vector.ext ?_
  intro i hi
  rw [Vector.getElem_ofFn, List.getD_eq_getElem?_getD, Vector.getElem?_toList, Vector.getElem?_eq_getElem hi]
  rfl

/-- An item of the new format is read as the rule it was written for. -/
theorem reads_newItem {σ : Type} {vers : Nat} (hvers : policydbVersionAvtab ≤ vers) {selinux : Bool} {n : AvtabNode}
    (hone : OneKind n.key.specified) {bytes : Bytes} (hw : newItem vers selinux n = some bytes)
    {insertf : σ → AvtabKey → AvtabDatum → Option σ} {a a' : σ} (hi : insertf a (entryOf n).1 (entryOf n).2 = some a') :
    Reads (avtabReadItem vers insertf a) bytes a' := by
  have hkinds : (specOrderRead.filter (n.key.specified &&& · != 0#16)).length = 1 := by
    have hfilter : specOrderRead.filter (n.key.specified &&& · != 0#16) =
        specOrderRead.filter (fun spec => decide (kindOf n.key.specified = spec)) :=
      List.filter_congr fun spec hspec => specified_and_kind hone hspec
    rw [hfilter]
    have hall : (specOrderRead.all fun kind => (specOrderRead.filter fun spec => decide (kind = spec)).length == 1) =
      true := by decide
    exact beq_iff_eq.mp (List.all_eq_true.mp hall _ hone)
  unfold avtabReadItem
  rw [if_neg (Nat.not_lt.mpr hvers)]
  unfold newItem at hw
  simp only [entryOf, usedDatum] at hi
  split at hw
  next hx =>
    split_ifs at hw with hguard
    cases hw
    rw [not_or, Nat.not_lt] at hguard
    rw [if_pos hx] at hi
    refine (reads_word (by decide) n.key.sourceType).bind ?_
    refine (reads_word (by decide) n.key.targetType).bind ?_
    refine (reads_word (by decide) n.key.targetClass).bind ?_
    refine (reads_word (by decide) n.key.specified).bind ?_
    refine (reads_check (decide_eq_true hkinds)).andThen ?_
    rw [if_pos hx]
    refine (reads_check (decide_eq_true hguard.1)).andThen ?_
    refine (reads_word (by decide) n.datum.xperms.specified).bind ?_
    refine (reads_word (by decide) n.datum.xperms.driver).bind ?_
    have hperms : Reads (times (word 32) n.datum.xperms.perms.toList.length)
        (n.datum.xperms.perms.toList.flatMap putWord) _ :=
      reads_times fun w _ => reads_word (by decide) w
    rw [Vector.length_toList] at hperms
    rw [← List.append_nil (n.datum.xperms.perms.toList.flatMap putWord)]
    refine hperms.bind ?_
    rw [ofFn_perms]
    exact reads_ofOption hi
  next hx =>
    cases hw
    rw [if_neg hx] at hi
    refine (reads_word (by decide) n.key.sourceType).bind ?_
    refine (reads_word (by decide) n.key.targetType).bind ?_
    refine (reads_word (by decide) n.key.targetClass).bind ?_
    refine (reads_word (by decide) n.key.specified).bind ?_
    refine (reads_check (decide_eq_true hkinds)).andThen ?_
    rw [if_neg hx]
    exact (reads_word (by decide) n.datum.data).bind (reads_ofOption hi)

/-- The rules an item of the old format stands for. -/
def OldItem.entries (item : OldItem) : List (AvtabKey × AvtabDatum) :=
  ((specOrderRead.filter (valMeets item.val)).zip item.data).map fun e =>
    (⟨item.source, item.target, item.tclass, e.1 ||| if item.val &&& avtabEnabledOld ≠ 0#32 then avtabEnabled else 0#16⟩,
      { data := e.2 })

/-- An item with rules, of one sort, and as many data as kinds. -/
structure OldItem.Good (item : OldItem) : Prop where
  any : valMeets item.val (avtabAv ||| avtabType) = true
  one : (valMeets item.val avtabAv && valMeets item.val avtabType) = false
  length : item.data.length = (specOrderRead.filter (valMeets item.val)).length
  pos : item.data ≠ []
  short : item.data.length ≤ 4

theorem reads_oldItem {σ : Type} {vers : Nat} (hvers : vers < policydbVersionAvtab) {item : OldItem} (hgood : item.Good)
    {insertf : σ → AvtabKey → AvtabDatum → Option σ} {a a' : σ}
    (hi : item.entries.foldlM (fun a e => insertf a e.1 e.2) a = some a') :
    Reads (avtabReadItem vers insertf a) item.bytes a' := by
  have hpos := List.length_pos_iff.mpr hgood.pos
  have hshort := hgood.short
  have hlength : item.words.length = item.data.length + 4 := rfl
  have hnarrow : ∀ w : BitVec 16, (w.setWidth 32).toNat < 2 ^ 16 := by
    intro w
    rw [BitVec.toNat_setWidth]
    exact Nat.lt_of_le_of_lt (Nat.mod_le _ _) w.isLt
  have hback : ∀ w : BitVec 16, (w.setWidth 32).setWidth 16 = w := by
    intro w
    rw [BitVec.setWidth_setWidth_of_le w (by decide), BitVec.setWidth_eq]
  unfold avtabReadItem OldItem.bytes
  rw [if_pos hvers]
  refine (reads_num (show item.words.length < 256 ^ 4 by omega)).bind ?_
  refine (reads_check (decide_eq_true (by omega))).andThen ?_
  have hwords : Reads (times (word 32) item.words.length) (item.words.flatMap putWord) item.words :=
    reads_times fun w _ => reads_word (by decide) w
  rw [← List.append_nil (item.words.flatMap putWord)]
  refine hwords.bind ?_
  refine (reads_check (decide_eq_true (hnarrow item.source))).andThen ?_
  refine (reads_check (decide_eq_true (hnarrow item.target))).andThen ?_
  refine (reads_check (decide_eq_true (hnarrow item.tclass))).andThen ?_
  refine (reads_check hgood.any).andThen ?_
  have hone : (!(valMeets item.val avtabAv && valMeets item.val avtabType)) = true := by
    rw [hgood.one]
    rfl
  refine (reads_check hone).andThen ?_
  refine (reads_ofOption (a := a') ?_).andThen ?_
  · rw [OldItem.entries, List.foldlM_map] at hi
    rw [← hi]
    simp only [OldItem.words, List.getD_cons_zero, List.getD_cons_succ, List.drop_succ_cons, List.drop_zero, hback]
  · refine (reads_check (decide_eq_true ?_)).andThen (Reads.pure a')
    rw [hlength, hgood.length]
    exact Nat.add_comm _ _

end SELinux.File
