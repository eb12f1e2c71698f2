/-
  SELinux.Expand.AvtabTypes — what `expand_avtab` makes of rules on attributes
  (`libsepol/src/expand.c`: `expand_avtab_insert`, `expand_avtab_node`, `expand_avtab`).

  Every rule is inserted once for each pair of types it covers; a rule that is there is joined with it.
  So the datum of a pair is the combination of the rules that cover the pair, in whatever order they are
  visited. Two type rules that cover one pair make the function fail, also if their results are equal.
-/
import SELinux.Expand.Avtab
import SELinux.Expand.Rules
import SELinux.Db.AvtabRuns

namespace SELinux.Expand

open Db List BitVec

/-- The kinds of a rule whose datum is `data`. -/
def dataKinds : List (BitVec 16) :=
  [avtabAllowed, avtabAuditallow, avtabAuditdeny, avtabTransition, avtabMember, avtabChange]

/-- The kinds of an unconditional table: a rule has one of them. -/
def ruleKinds : List (BitVec 16) := dataKinds ++ [avtabXpermsAllowed, avtabXpermsAuditallow, avtabXpermsDontaudit]

def isTypeKind (specified : BitVec 16) : Bool := specified &&& avtabType != 0#16

/-- Union, or the intersection for auditdeny. -/
def joinData (specified : BitVec 16) (a b : BitVec 32) : BitVec 32 := if specified = avtabAuditdeny then a &&& b else a ||| b

/-- The combination of the data of some rules. -/
def combineData (specified : BitVec 16) : List (BitVec 32) → Option (BitVec 32)
  | [] => none
  | d :: l => some (l.foldl (joinData specified) d)

/-- The type of a rule, or a type of its attribute. -/
def coversType (p : Policydb) (type s : BitVec 16) : Bool :=
  if isPlainType p type then s == type else decide (s ≠ 0#16) && (p.attrTypes type).has (s.toNat - 1)

/-- A rule of the kind and class that covers the pair of types. -/
def coversKey (p : Policydb) (k : AvtabKey) (n : AvtabNode) : Bool :=
  n.key.specified == k.specified && n.key.targetClass == k.targetClass && coversType p n.key.sourceType k.sourceType &&
    coversType p n.key.targetType k.targetType

/-- The data of the rules that cover a key. -/
def coveringData (p : Policydb) (a : Avtab) (k : AvtabKey) : List (BitVec 32) :=
  (a.nodes.filter (coversKey p k)).map (·.datum.data)

/-! ## One insertion -/

def dataOf (e : Avtab) (k : AvtabKey) : List (BitVec 32) := (avtabSearchNodes e k).map (·.datum.data)

variable {s : BitVec 16}

theorem meets_iff {s' : BitVec 16} (hs : s ∈ ruleKinds) (hs' : s' ∈ ruleKinds) : specifiedMeets s s' = true ↔ s = s' := by
  have hall : (ruleKinds.all fun s => ruleKinds.all fun s' => specifiedMeets s s' == (s == s')) = true := by decide +kernel
  have h := beq_iff_eq.mp (all_eq_true.mp (all_eq_true.mp hall s hs) s' hs')
  rw [h, beq_iff_eq]

theorem no_flag (hs : s ∈ ruleKinds) : s &&& avtabEnabled = 0#16 := by
  have hall : (ruleKinds.all fun s => s &&& avtabEnabled == 0#16) = true := by decide +kernel
  exact beq_iff_eq.mp (all_eq_true.mp hall s hs)

theorem no_xperms (hs : s ∈ dataKinds) : s &&& avtabXperms = 0#16 := by
  have hall : (dataKinds.all fun s => s &&& avtabXperms == 0#16) = true := by decide +kernel
  exact beq_iff_eq.mp (all_eq_true.mp hall s hs)

/-- What joining does to `data`; a type rule is not joined. -/
theorem expandJoin_data : ∀ s ∈ dataKinds, (isTypeKind s = true → ∀ d, expandJoin s d = none) ∧
    (isTypeKind s = false → ∀ d, ∃ join, expandJoin s d = some join ∧
      ∀ avd, (join avd).data = joinData s avd.data d.data) := by
  unfold dataKinds
  simp only [forall_mem_cons]
  refine ⟨?_, ?_, ?_, ?_, ?_, ?_, forall_mem_nil _⟩
  all_goals first
    | exact ⟨fun h => absurd h (by decide), fun _ d => ⟨_, rfl, fun avd => rfl⟩⟩
    | exact ⟨fun _ d => rfl, fun h => absurd h (by decide)⟩

/-- A table of rules of one kind each. -/
def SingleKinds (a : Avtab) : Prop := ∀ n ∈ a.nodes, n.key.specified ∈ ruleKinds

section Step

variable {e e' : Avtab} {k k' : AvtabKey} {d : AvtabDatum}

theorem hitKey_iff (hk : k.specified ∈ ruleKinds) {n : AvtabNode} (hn : n.key.specified ∈ ruleKinds) :
    hitKey k n = true ↔ n.key = k := by
  rw [hitKey, Bool.and_eq_true, meets_iff hk hn, sameKey_iff]
  cases k
  cases n.key
  simp only [AvtabKey.mk.injEq]
  tauto

theorem mem_searchNodes_of_expandFind {n : AvtabNode} (h : expandFind e k d = some n) : n ∈ avtabSearchNodes e k := by
  unfold expandFind at h
  split at h
  · exact mem_of_find?_eq_some h
  · rw [avtabSearchNode_eq_head] at h
    exact mem_of_head? h

/-- Rules of one kind have no flag that keeps them apart. -/
theorem expandAvtabInsert_eq (he : SingleKinds e) (hk : k.specified ∈ ruleKinds) : expandAvtabInsert e k d =
    match expandFind e k d with
    | none => (avtabInsertNonunique e k d none).map (·.1)
    | some n => (expandJoin k.specified d).map fun join => e.update n.id fun specified avd => (specified, join avd) := by
  unfold expandAvtabInsert
  cases hfind : expandFind e k d with
  | none => rfl
  | some n =>
    have hn := he n (mem_avtabSearchNodes.mp (mem_searchNodes_of_expandFind hfind)).1
    rw [Option.filter_some]
    rw [no_flag hk, no_flag hn]
    rfl

theorem searchNodes_updateDatum (id : Nat) (f : AvtabDatum → AvtabDatum) :
    avtabSearchNodes (e.update id fun s avd => (s, f avd)) k =
    (avtabSearchNodes e k).map (writeId id fun s avd => (s, f avd)) := by
  have hhit : ∀ n, hitKey k (writeId id (fun s avd => (s, f avd)) n) = hitKey k n := by
    intro n
    unfold writeId
    split <;> rfl
  rw [avtabSearchNodes_eq_filter, avtabSearchNodes_eq_filter]
  show ((e.htable (e.bucket k)).map (writeId id fun s avd => (s, f avd))).filter (hitKey k) = _
  rw [filter_map]
  exact congrArg (map _) (filter_congr fun n _ => hhit n)

/-- Other keys keep their data. -/
theorem insert_frame (he : SingleKinds e) (hk : k.specified ∈ ruleKinds) (hi : expandAvtabInsert e k d = some e')
    (hk' : k'.specified ∈ ruleKinds) (hne : k ≠ k') : dataOf e' k' = dataOf e k' := by
  rw [expandAvtabInsert_eq he hk] at hi
  split at hi
  · obtain ⟨⟨e1, n⟩, hn, rfl⟩ := Option.map_eq_some_iff.mp hi
    unfold avtabInsertNonunique at hn
    split_ifs at hn with h0
    cases hn
    have hmiss : ¬hitKey k' (e.newNode k d none) = true := fun hhit => hne ((hitKey_iff hk' hk).mp hhit)
    show (avtabSearchNodes (e.insertNode h0 k d none) k').map _ = _
    rw [avtabSearchNodes_insertNode h0 (fun hm => (meets_iff hk' hk).mp hm), if_neg hmiss]
    rfl
  next n hfind =>
    obtain ⟨join, -, rfl⟩ := Option.map_eq_some_iff.mp hi
    unfold dataOf
    rw [searchNodes_updateDatum, map_writeId_of_ne (fun x hx hid => ?_)]
    obtain ⟨hxmem, hxhit⟩ := mem_avtabSearchNodes.mp hx
    obtain ⟨hnmem, hnhit⟩ := mem_avtabSearchNodes.mp (mem_searchNodes_of_expandFind hfind)
    cases Avtab.eq_of_id hxmem hnmem hid
    exact hne (((hitKey_iff hk (he _ hnmem)).mp hnhit).symm.trans ((hitKey_iff hk' (he _ hnmem)).mp hxhit))

/-- A new rule, or the first one joined; a type rule must be new. -/
theorem insert_own (he : SingleKinds e) (hk : k.specified ∈ dataKinds) (h0 : e.nslot ≠ 0) :
    (isTypeKind k.specified = true ∧ dataOf e k ≠ [] ∧ expandAvtabInsert e k d = none) ∨
      ((isTypeKind k.specified = true → dataOf e k = []) ∧ ∃ e', expandAvtabInsert e k d = some e' ∧
        dataOf e' k = ((dataOf e k).head?.elim d.data fun x => joinData k.specified x d.data) :: (dataOf e k).tail) := by
  have hkind : k.specified ∈ ruleKinds := mem_append_left _ hk
  have hx := no_xperms hk
  rw [expandAvtabInsert_eq he hkind]
  have hfind : expandFind e k d = (avtabSearchNodes e k).head? := by
    rw [expandFind, if_neg (not_not.mpr hx), avtabSearchNode_eq_head]
  rw [hfind]
  unfold dataOf
  cases hnodes : avtabSearchNodes e k with
  | nil =>
    refine Or.inr ⟨fun _ => rfl, e.insertNode h0 k d none, by simp [avtabInsertNonunique, h0], ?_⟩
    have hhit : hitKey k (e.newNode k d none) = true := (hitKey_iff hkind hkind).mpr rfl
    rw [avtabSearchNodes_insertNode h0 (fun _ => rfl), if_pos hhit, hnodes]
    simp [Avtab.newNode, storedDatum, hx]
  | cons n l =>
    have hids := nodup_searchNodes e k
    rw [hnodes, map_cons, nodup_cons] at hids
    cases htype : isTypeKind k.specified with
    | true =>
      simp [(expandJoin_data _ hk).1 htype d]
    | false =>
      obtain ⟨join, hjoin, hdata⟩ := (expandJoin_data _ hk).2 htype d
      refine Or.inr ⟨fun h => absurd h Bool.false_ne_true, e.update n.id fun s avd => (s, join avd), by simp [hjoin], ?_⟩
      rw [searchNodes_updateDatum, hnodes, map_cons,
        map_writeId_of_ne fun m hm hid => hids.1 (mem_map.mpr ⟨m, hm, hid⟩), writeId, if_pos rfl]
      simp only [AvtabNode.write, map_cons, hdata, head?_cons, Option.elim_some, tail_cons]

/-- Extended permissions always go in. -/
theorem insert_xperms (he : SingleKinds e) (hk : k.specified ∈ ruleKinds) (hx : k.specified ∉ dataKinds) (h0 : e.nslot ≠ 0) :
    ∃ e', expandAvtabInsert e k d = some e' := by
  have hjoin : ∃ join, expandJoin k.specified d = some join := by
    have hxp := (mem_append.mp hk).resolve_left hx
    simp only [mem_cons, not_mem_nil, or_false] at hxp
    rcases hxp with h | h | h
    all_goals
      rw [h]
      exact ⟨_, rfl⟩
  rw [expandAvtabInsert_eq he hk]
  split
  · exact ⟨_, by rw [avtabInsertNonunique, dif_neg h0]; rfl⟩
  · obtain ⟨join, hjoin⟩ := hjoin
    exact ⟨_, by rw [hjoin]; rfl⟩

theorem insert_nslot (hi : expandAvtabInsert e k d = some e') : e'.nslot = e.nslot := by
  unfold expandAvtabInsert at hi
  split at hi
  · obtain ⟨⟨e1, n⟩, hn, rfl⟩ := Option.map_eq_some_iff.mp hi
    exact (avtabInsertNonunique_some hn).2.1
  · obtain ⟨join, -, rfl⟩ := Option.map_eq_some_iff.mp hi
    rfl

end Step

/-! ## All insertions -/

/-- The data inserted for a key. -/
def insertedData (l : List (AvtabKey × AvtabDatum)) (k : AvtabKey) : List (BitVec 32) := (l.filter (·.1 == k)).map (·.2.data)

/-- No key has two type rules. -/
def NoClash (l : List (AvtabKey × AvtabDatum)) : Prop :=
  ∀ k : AvtabKey, k.specified ∈ dataKinds → isTypeKind k.specified = true → (insertedData l k).length ≤ 1

/-- The table after some insertions. -/
structure Holding (l : List (AvtabKey × AvtabDatum)) (e : Avtab) : Prop where
  kept : Kept (· ∈ ruleKinds) e
  slots : e.nslot ≠ 0
  data : ∀ k : AvtabKey, k.specified ∈ dataKinds → dataOf e k = (combineData k.specified (insertedData l k)).toList
  clash : NoClash l

theorem combineData_concat (s : BitVec 16) (l : List (BitVec 32)) (d : BitVec 32) :
    combineData s (l ++ [d]) = some ((combineData s l).elim d fun x => joinData s x d) := by
  cases l with
  | nil => rfl
  | cons a l => simp [combineData]

theorem insertedData_append (l l' : List (AvtabKey × AvtabDatum)) (k : AvtabKey) :
    insertedData (l ++ l') k = insertedData l k ++ insertedData l' k := by
  unfold insertedData
  rw [filter_append, map_append]

theorem insertedData_concat (l : List (AvtabKey × AvtabDatum)) (x : AvtabKey × AvtabDatum) (k : AvtabKey) :
    insertedData (l ++ [x]) k = if x.1 = k then insertedData l k ++ [x.2.data] else insertedData l k := by
  by_cases h : x.1 = k
  · simp [insertedData, h]
  · simp [insertedData, h]

theorem toList_eq_nil_iff (s : BitVec 16) (l : List (BitVec 32)) : (combineData s l).toList = [] ↔ l = [] := by
  cases l <;> simp [combineData]

/-- One insertion: it fails exactly if it brings a second type rule. -/
theorem Holding.insert {l : List (AvtabKey × AvtabDatum)} {e : Avtab} (h : Holding l e) {x : AvtabKey × AvtabDatum}
    (hx : x.1.specified ∈ ruleKinds) : (expandAvtabInsert e x.1 x.2 = none ∧ ¬NoClash (l ++ [x])) ∨
      ∃ e', expandAvtabInsert e x.1 x.2 = some e' ∧ Holding (l ++ [x]) e' := by
  have hclash : ∀ k : AvtabKey, k.specified ∈ dataKinds → isTypeKind k.specified = true → x.1 ≠ k →
      (insertedData (l ++ [x]) k).length ≤ 1 := by
    intro k hk htype hne
    rw [insertedData_concat, if_neg hne]
    exact h.clash k hk htype
  have hframe : ∀ e', expandAvtabInsert e x.1 x.2 = some e' → ∀ k : AvtabKey, k.specified ∈ dataKinds → x.1 ≠ k →
      dataOf e' k = (combineData k.specified (insertedData (l ++ [x]) k)).toList := by
    intro e' he' k hk hne
    rw [insert_frame h.kept.specified hx he' (mem_append_left _ hk) hne, insertedData_concat, if_neg hne]
    exact h.data k hk
  by_cases hdata : x.1.specified ∈ dataKinds
  · have hown := h.data x.1 hdata
    rcases insert_own (d := x.2) h.kept.specified hdata h.slots with ⟨htype, hne, hnone⟩ | ⟨htype, e', he', hnew⟩
    · refine Or.inl ⟨hnone, fun hno => ?_⟩
      have hlen := hno x.1 hdata htype
      rw [hown, ne_eq, toList_eq_nil_iff] at hne
      rw [insertedData_concat, if_pos rfl, length_append, length_singleton] at hlen
      exact hne (length_eq_zero_iff.mp (by omega))
    · refine Or.inr ⟨e', he', h.kept.insert hx he', by rw [insert_nslot he']; exact h.slots, ?_, ?_⟩
      · intro k hk
        by_cases hkx : x.1 = k
        · subst hkx
          rw [hnew, hown, insertedData_concat, if_pos rfl, combineData_concat]
          cases combineData x.1.specified (insertedData l x.1) <;> rfl
        · exact hframe e' he' k hk hkx
      · intro k hk hkt
        by_cases hkx : x.1 = k
        · subst hkx
          have hempty := htype hkt
          rw [hown, toList_eq_nil_iff] at hempty
          rw [insertedData_concat, if_pos rfl, hempty]
          exact Nat.le_refl 1
        · exact hclash k hk hkt hkx
  · obtain ⟨e', he'⟩ := insert_xperms (d := x.2) h.kept.specified hx hdata h.slots
    have hne : ∀ k : AvtabKey, k.specified ∈ dataKinds → x.1 ≠ k := fun k hk heq => hdata (heq ▸ hk)
    exact Or.inr ⟨e', he', h.kept.insert hx he', by rw [insert_nslot he']; exact h.slots,
      fun k hk => hframe e' he' k hk (hne k hk), fun k hk hkt => hclash k hk hkt (hne k hk)⟩

/-- All of them. -/
theorem Holding.run {l : List (AvtabKey × AvtabDatum)} {e : Avtab} (h : Holding l e) {todo : List (AvtabKey × AvtabDatum)}
    (ht : ∀ x ∈ todo, x.1.specified ∈ ruleKinds) :
    (todo.foldlM (fun e x => expandAvtabInsert e x.1 x.2) e = none ∧ ¬NoClash (l ++ todo)) ∨
      ∃ e', todo.foldlM (fun e x => expandAvtabInsert e x.1 x.2) e = some e' ∧ Holding (l ++ todo) e' := by
  induction todo generalizing l e with
  | nil => exact Or.inr ⟨e, rfl, by rwa [append_nil]⟩
  | cons x todo ih =>
    obtain ⟨hx, ht⟩ := forall_mem_cons.mp ht
    rw [foldlM_cons, append_cons]
    rcases h.insert hx with ⟨hnone, hclash⟩ | ⟨e', he', h'⟩
    · refine Or.inl ⟨by rw [hnone]; rfl, fun hno => hclash fun k hk hkt => Nat.le_trans ?_ (hno k hk hkt)⟩
      -- the rules that follow take none away
      rw [insertedData_append _ todo, length_append]
      exact Nat.le_add_right _ _
    · rw [he']
      exact ih h' ht

/-! ## The pairs of a rule -/

/-- The types of an attribute have values of 16 bits, as the keys of the rules. -/
def MembersFit (p : Policydb) : Prop := ∀ type i, (p.attrTypes type).has i = true → i + 1 < 2 ^ 16

/-- The rules that are inserted for one rule. -/
def writtenOut (p : Policydb) (n : AvtabNode) : List (AvtabKey × AvtabDatum) :=
  ((sideTypes p n.key.sourceType).product (sideTypes p n.key.targetType)).map fun e =>
    ({ n.key with sourceType := e.1, targetType := e.2 }, n.datum)

section Pairs

variable {p : Policydb} (hp : MembersFit p)
include hp

theorem mem_sideTypes (type s : BitVec 16) : s ∈ sideTypes p type ↔ coversType p type s = true := by
  unfold sideTypes coversType
  split
  · simp
  · simp only [mem_map, Bitmap.mem_bits, Bool.and_eq_true, decide_eq_true_iff]
    constructor
    · intro h
      obtain ⟨i, hi, hs⟩ := h
      have hfit := hp type i hi
      have hval : s.toNat = i + 1 := by
        rw [← hs, toNat_ofNat, Nat.mod_eq_of_lt hfit]
      refine ⟨fun h0 => ?_, by rw [hval]; exact hi⟩
      rw [h0] at hval
      exact absurd hval (by simp)
    · intro h
      obtain ⟨hne, hi⟩ := h
      refine ⟨_, hi, eq_of_toNat_eq ?_⟩
      have : s.toNat ≠ 0 := fun h0 => hne (eq_of_toNat_eq h0)
      rw [toNat_ofNat]
      omega

theorem nodup_sideTypes (type : BitVec 16) : (sideTypes p type).Nodup := by
  unfold sideTypes
  split
  · exact nodup_singleton type
  · refine (ebitmapBits_nodup (p.attrTypes type).2).map_on ?_
    intro i hi j hj h
    have hi := hp type i (Bitmap.mem_bits.mp hi)
    have hj := hp type j (Bitmap.mem_bits.mp hj)
    have := congrArg BitVec.toNat h
    rw [toNat_ofNat, toNat_ofNat] at this
    omega

/-- A rule is inserted once for a key that it covers. -/
theorem insertedData_writtenOut (n : AvtabNode) (k : AvtabKey) :
    insertedData (writtenOut p n) k = if coversKey p k n = true then [n.datum.data] else [] := by
  unfold insertedData writtenOut
  rw [filter_map]
  have hmem : (k.sourceType, k.targetType) ∈ (sideTypes p n.key.sourceType).product (sideTypes p n.key.targetType) ↔
      coversType p n.key.sourceType k.sourceType = true ∧ coversType p n.key.targetType k.targetType = true := by
    rw [pair_mem_product, mem_sideTypes hp, mem_sideTypes hp]
  have hnodup : ((sideTypes p n.key.sourceType).product (sideTypes p n.key.targetType)).Nodup :=
    (nodup_sideTypes hp _).product (nodup_sideTypes hp _)
  generalize (sideTypes p n.key.sourceType).product (sideTypes p n.key.targetType) = pairs at hmem hnodup
  by_cases hk : n.key.specified = k.specified ∧ n.key.targetClass = k.targetClass
  · have hfilter : pairs.filter
      ((fun x => x.1 == k) ∘ fun e => ({ n.key with sourceType := e.1, targetType := e.2 }, n.datum)) =
        pairs.filter (· == (k.sourceType, k.targetType)) := by
      refine filter_congr fun e _ => ?_
      rw [Bool.eq_iff_iff, Function.comp_apply, beq_iff_eq, beq_iff_eq]
      cases k
      cases e
      simp only [AvtabKey.mk.injEq, Prod.mk.injEq]
      tauto
    rw [hfilter, filter_beq, hnodup.count]
    simp only [coversKey, hk.1, hk.2, beq_self_eq_true, Bool.true_and, Bool.and_eq_true, hmem]
    split <;> rfl
  · have hnone : coversKey p k n = false := by
      rw [coversKey, Bool.and_assoc, Bool.and_eq_false_iff]
      refine Or.inl (Bool.eq_false_iff.mpr fun h => hk ?_)
      simpa using h
    have hfilter : pairs.filter
        ((fun x => x.1 == k) ∘ fun e => ({ n.key with sourceType := e.1, targetType := e.2 }, n.datum)) = [] := by
      refine filter_eq_nil_iff.mpr fun e _ heq => hk ?_
      rw [Function.comp_apply, beq_iff_eq] at heq
      rw [← heq]
      exact ⟨rfl, rfl⟩
    rw [hfilter, hnone]
    rfl

theorem insertedData_flatMap (l : List AvtabNode) (k : AvtabKey) :
    insertedData (l.flatMap (writtenOut p)) k = (l.filter (coversKey p k)).map (·.datum.data) := by
  induction l with
  | nil => rfl
  | cons n l ih =>
    rw [flatMap_cons, insertedData_append, ih, insertedData_writtenOut hp]
    by_cases h : coversKey p k n = true
    · simp [h]
    · simp [h]

end Pairs

theorem expandAvtab_eq (p : Policydb) (a : Avtab) :
    expandAvtab p a = (a.nodes.flatMap (writtenOut p)).foldlM (fun e x => expandAvtabInsert e x.1 x.2)
    (avtabAlloc maxAvtabSize) := by
  rw [Lib.Run.foldlM_flatMap]
  unfold expandAvtab
  congr 1
  funext e n
  rw [expandAvtabNode, writtenOut, foldlM_map]

/-- The expansion fails exactly if two type rules cover one pair of types. Otherwise the datum of a key is the
    combination of the data of the rules that cover it. -/
theorem expandAvtab_spec {p : Policydb} {a : Avtab} (ha : SingleKinds a) (hp : MembersFit p) :
    ((∃ expa, expandAvtab p a = some expa) ↔
      ∀ k : AvtabKey, k.specified ∈ dataKinds → isTypeKind k.specified = true → (coveringData p a k).length ≤ 1) ∧
    ∀ expa, expandAvtab p a = some expa → ∀ k : AvtabKey, k.specified ∈ dataKinds →
      (avtabSearchNode expa k).map (·.datum.data) = combineData k.specified (coveringData p a k) := by
  have hstart : Holding [] (avtabAlloc maxAvtabSize) := by
    have hnone : ∀ k, avtabSearchNodes (avtabAlloc maxAvtabSize) k = [] := by
      intro k
      refine eq_nil_iff_forall_not_mem.mpr fun n hn => ?_
      have := (mem_avtabSearchNodes.mp hn).1
      rw [nodes_avtabAlloc] at this
      cases this
    refine ⟨⟨counted_avtabAlloc _, by rw [nodes_avtabAlloc]; exact forall_mem_nil _⟩,
      by decide, ?_, fun k _ _ => Nat.zero_le 1⟩
    intro k _
    rfl
  have hkinds : ∀ x ∈ a.nodes.flatMap (writtenOut p), x.1.specified ∈ ruleKinds := by
    intro x hx
    obtain ⟨n, hn, hx⟩ := mem_flatMap.mp hx
    obtain ⟨e, -, rfl⟩ := mem_map.mp hx
    exact ha n hn
  have hclash : NoClash (a.nodes.flatMap (writtenOut p)) ↔
      ∀ k : AvtabKey, k.specified ∈ dataKinds → isTypeKind k.specified = true → (coveringData p a k).length ≤ 1 := by
    unfold NoClash coveringData
    simp only [insertedData_flatMap hp]
  rw [← hclash, expandAvtab_eq]
  rcases hstart.run hkinds with ⟨hnone, hno⟩ | ⟨e, he, hh⟩
  · rw [hnone]
    exact ⟨iff_of_false nofun hno, nofun⟩
  · rw [he]
    refine ⟨iff_of_true ⟨e, rfl⟩ hh.clash, fun expa h k hk => ?_⟩
    cases h
    have hdata := hh.data k hk
    rw [nil_append, insertedData_flatMap hp] at hdata
    rw [avtabSearchNode_eq_head, ← head?_map]
    show (dataOf e k).head? = _
    rw [hdata]
    exact Option.head?_toList

/-- Two types, and an attribute with the first of them. -/
def attribPolicy : Policydb :=
  { typeValToStruct := [some { value := 1 }, some { value := 2 }, some { value := 3, flavor := .attrib }]
    attrTypeMap := [Bitmap.word 1#64, Bitmap.word 2#64, Bitmap.word 1#64] }

theorem membersFit_attribPolicy : MembersFit attribPolicy := by
  intro type i hi
  have hlen : ebitmapLength (attribPolicy.attrTypes type).1 ≤ 64 := by
    unfold Policydb.attrTypes bitmapAt
    rcases type.toNat with _ | _ | _ | _ | n <;> simp [attribPolicy] <;> decide
  have := Bitmap.lt_length hi
  omega

def onAttrib (specified : BitVec 16) : AvtabKey := ⟨3#16, 2#16, 1#16, specified⟩

theorem expandAvtab_spec_allow :
    ∃ expa, expandAvtab attribPolicy (avtabRun 1 [.insert (onAttrib avtabAllowed) { data := 5#32 }]) = some expa ∧
    (avtabSearchNode expa ⟨1#16, 2#16, 1#16, avtabAllowed⟩).map (·.datum.data) = some 5#32 := by
  have hkinds : SingleKinds (avtabRun 1 [.insert (onAttrib avtabAllowed) { data := 5#32 }]) := by
    have hall : ((avtabRun 1 [.insert (onAttrib avtabAllowed) { data := 5#32 }]).nodes.all fun n => n.key.specified ∈
      ruleKinds) = true := by decide +kernel
    exact fun n hn => of_decide_eq_true (all_eq_true.mp hall n hn)
  have hsome : (expandAvtab attribPolicy (avtabRun 1 [.insert (onAttrib avtabAllowed) { data := 5#32 }])).isSome := by
    decide +kernel
  obtain ⟨expa, he⟩ := Option.isSome_iff_exists.mp hsome
  refine ⟨expa, he, ((expandAvtab_spec hkinds membersFit_attribPolicy).2 expa he _ (by decide)).trans ?_⟩
  decide +kernel

/-- A transition of the type and the same one of its attribute. -/
theorem equal_transitions_refused :
    (expandAvtab attribPolicy (avtabRun 2 [.insert ⟨1#16, 2#16, 1#16, avtabTransition⟩ { data := 2#32 },
    .insert (onAttrib avtabTransition) { data := 2#32 }])).isNone := by
  decide +kernel

end SELinux.Expand
