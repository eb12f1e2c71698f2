/-
  SELinux.File.AvtabRoundTrip — a table that was written is read back
  (`libsepol/src/write.c`: `avtab_write`; `avtab.c`: `avtab_read`).

  In the old format the rules of a chain fall into groups: one key, and access vectors or
  type rules. The item of a rule that is not yet marked takes its whole group, which the
  chain holds from there on, and marks it. So each pass over the table makes the same items,
  one for each group, and the element count, which goes down by the other rules of each
  group, ends as their number. An item has one flag for all its rules.

  Proved:
  - `mergedItem_packs`: an item holds the rules of its group, each kind once.
  - `writeChain_merged`, `writeBuckets_merged`: what a pass writes, and what it counts.
  - `avtabRead_avtabWrite`: the rules come back, and the element count is the number of items.
-/
import SELinux.File.Avtab

namespace SELinux.File

open Db Lib Lib.Wire List

variable {e : BitVec 16} {cur : AvtabNode} {r : List Bytes × WriteState} {rest : List AvtabNode} {vers : Nat}
  {st : WriteState} {selinux : Bool} {nodes : List AvtabNode} {n : AvtabNode} {M : List Nat} {l : List AvtabNode}
  {item : OldItem} {others : Nat} {nel : BitVec 32}

/-! ## Sorts of rules -/

/-- `AVTAB_AV`, `AVTAB_TYPE` or `AVTAB_XPERMS`, the bits a rule has one of. -/
def sortOf (specified : BitVec 16) : BitVec 16 :=
  if kindOf specified &&& avtabAv ≠ 0#16 then avtabAv
  else if kindOf specified &&& avtabType ≠ 0#16 then avtabType
  else avtabXperms

/-- What the rules of one item have in common. -/
def groupOf (n : AvtabNode) : Nat × BitVec 16 := (n.key.rank, sortOf n.key.specified)

theorem Clash.groupOf {n m : AvtabNode} (h : Clash n.key m.key) : groupOf n = groupOf m := by
  rw [File.groupOf, File.groupOf, (sameKey_iff_rank _ _).mp h.key, sortOf, sortOf, h.kind]

section Kinds

variable {n : AvtabNode} (h : OneKind n.key.specified)

include h

theorem valMeets_oldVal {spec : BitVec 16} (hspec : spec ∈ specOrderRead) :
    valMeets (oldVal n) spec = decide (kindOf n.key.specified = spec) := by
  have hcheck : forKinds (fun kind spec e =>
      valMeets (kind.setWidth 32 ||| (if e ≠ 0#16 then avtabEnabledOld else 0#32)) spec == decide (kind = spec)) =
        true := by decide
  exact beq_iff_eq.mp (h.check hcheck hspec)

/-- What `AVTAB_AV` and `AVTAB_TYPE` meet, in an item and in a search. -/
theorem sort_meets {lookup : BitVec 16} (hl : lookup ∈ [avtabAv, avtabType]) :
    valMeets (oldVal n) lookup = decide (sortOf n.key.specified = lookup) ∧
      specifiedMeets lookup n.key.specified = decide (sortOf n.key.specified = lookup) := by
  have hcheck : forKinds (fun kind _ e => [avtabAv, avtabType].all fun lookup =>
      (valMeets (kind.setWidth 32 ||| (if e ≠ 0#16 then avtabEnabledOld else 0#32)) lookup == decide
        (sortOf (kind ||| e) = lookup)) &&
        (specifiedMeets lookup (kind ||| e) == decide (sortOf (kind ||| e) = lookup))) = true := by
    decide
  have h' := all_eq_true.mp (h.check hcheck h) lookup hl
  rw [Bool.and_eq_true, beq_iff_eq, beq_iff_eq, kindOf_or_enabledBit] at h'
  exact h'

theorem oldVal_enabled : (oldVal n &&& avtabEnabledOld != 0#32) = (enabledBit n.key.specified != 0#16) := by
  have hcheck : forKinds (fun kind _ e =>
      ((kind.setWidth 32 ||| (if e ≠ 0#16 then avtabEnabledOld else 0#32)) &&& avtabEnabledOld != 0#32) ==
        (e != 0#16)) = true := by
    decide
  exact beq_iff_eq.mp (h.check hcheck h)

/-- Access vectors and type rules are of kinds the writer knows, and have no extended permissions. -/
theorem kind_of_sort (hl : sortOf n.key.specified ∈ [avtabAv, avtabType]) :
    kindOf n.key.specified ∈ specOrder.filter (sortOf · = sortOf n.key.specified) ∧ n.key.specified &&& avtabXperms = 0#16 ∧
      valMeets (oldVal n) (avtabAv ||| avtabType) = true := by
  have hcheck : forKinds (fun kind _ e => !decide (sortOf (kind ||| e) ∈ [avtabAv, avtabType]) ||
      decide (kind ∈ specOrder.filter (sortOf · = sortOf (kind ||| e)) ∧ (kind ||| e) &&& avtabXperms = 0#16 ∧
        valMeets (kind.setWidth 32 ||| (if e ≠ 0#16 then avtabEnabledOld else 0#32))
          (avtabAv ||| avtabType) = true)) = true := by
    decide
  have h' := h.check hcheck h
  rw [kindOf_or_enabledBit, decide_eq_true hl, Bool.not_true, Bool.false_or, decide_eq_true_iff] at h'
  exact h'

end Kinds

/-! ## Merging -/

/-- A chain whose rules have one kind each, and all the flag `e`. -/
structure OldChain (e : BitVec 16) (l : List AvtabNode) : Prop where
  sorted : l.Pairwise fun a b => a.key.rank ≤ b.key.rank
  one : ∀ n ∈ l, OneKind n.key.specified
  flag : ∀ n ∈ l, enabledBit n.key.specified = e
  distinct : (l.map (·.id)).Nodup

theorem OldChain.tail (h : OldChain e (cur :: rest)) : OldChain e rest :=
  ⟨(pairwise_cons.mp h.sorted).2, fun n hn => h.one n (mem_cons_of_mem cur hn),
    fun n hn => h.flag n (mem_cons_of_mem cur hn), (nodup_cons.mp h.distinct).2⟩

/-- The other rules of an item. -/
def partners (cur : AvtabNode) (rest : List AvtabNode) : List AvtabNode := rest.filter fun n => groupOf n = groupOf cur

/-- The value of an item. -/
def mergedVal (cur : AvtabNode) (rest : List AvtabNode) : BitVec 32 :=
  (partners cur rest).foldl (fun val n => val ||| oldVal n) (oldVal cur)

theorem or_meets (v w m : BitVec 32) : ((v ||| w) &&& m != 0#32) = ((v &&& m != 0#32) || (w &&& m != 0#32)) := by
  rw [BitVec.and_or_distrib_right, Bool.eq_iff_iff, Bool.or_eq_true]
  simp only [bne_iff_ne, ne_eq, BitVec.or_eq_zero_iff, Decidable.not_and_iff_not_or_not]

/-- An item has the bits its rules have. -/
theorem mergedVal_meets (m : BitVec 32) (cur : AvtabNode) (rest : List AvtabNode) :
    (mergedVal cur rest &&& m != 0#32) = (cur :: partners cur rest).any fun n => oldVal n &&& m != 0#32 := by
  rw [mergedVal, any_cons]
  generalize oldVal cur = v
  induction partners cur rest generalizing v with
  | nil => simp
  | cons n l ih => rw [foldl_cons, ih, or_meets, any_cons, Bool.or_assoc]

theorem nextNodes_eq_filter (h : OldChain e (cur :: rest)) (specified : BitVec 16) :
    nextNodes cur rest specified = rest.filter (hitKey { cur.key with specified }) :=
  Chain.visits_eq_filter (ordered_of_sorted h.tail.sorted { cur.key with specified })

/-- The rules that are merged are those of the group in the rest of the chain. -/
theorem nextNodes_sort (h : OldChain e (cur :: rest)) (hl : sortOf cur.key.specified ∈ [avtabAv, avtabType]) :
    nextNodes cur rest (sortOf cur.key.specified) = partners cur rest := by
  rw [nextNodes_eq_filter h]
  refine filter_congr ?_
  intro n hn
  have hmeets := (sort_meets (h.tail.one n hn) hl).2
  have hsame : sameKey cur.key n.key = decide (n.key.rank = cur.key.rank) := by
    rw [Bool.eq_iff_iff, sameKey_iff_rank, decide_eq_true_iff]
    exact eq_comm
  show (sameKey cur.key n.key && specifiedMeets (sortOf cur.key.specified) n.key.specified) = _
  rw [hmeets, hsame, groupOf, groupOf, ← Bool.decide_and]
  simp only [Prod.mk.injEq]

/-- What an item holds: the rule it is made for and its partners, each kind once. -/
structure Packs (cur : AvtabNode) (rest : List AvtabNode) (item : OldItem) (nodes : List AvtabNode) (others : Nat) :
    Prop where
  good : item.Good
  entries : item.entries = nodes.map entryOf
  kinds : (nodes.map fun n => kindOf n.key.specified).Nodup
  count : others + 1 = nodes.length
  perm : nodes.Perm (cur :: partners cur rest)

theorem lookupOf_some (h : OneKind cur.key.specified) {lookup : BitVec 16} (hl : lookupOf cur = some lookup) :
    lookup = sortOf cur.key.specified ∧ sortOf cur.key.specified ∈ [avtabAv, avtabType] := by
  have hav := (sort_meets h (show avtabAv ∈ [avtabAv, avtabType] by decide)).1
  have htype := (sort_meets h (show avtabType ∈ [avtabAv, avtabType] by decide)).1
  unfold lookupOf at hl
  rw [hav, htype] at hl
  split at hl
  next hs =>
    cases hl
    rw [of_decide_eq_true hs]
    decide
  · split_ifs at hl with hs
    cases hl
    rw [of_decide_eq_true hs]
    decide

theorem mergedItem_some (hl : OldChain e (cur :: rest)) (h : mergedItem cur rest = some (item, nodes, others)) :
    ∃ val, val = mergedVal cur rest ∧ sortOf cur.key.specified ∈ [avtabAv, avtabType] ∧
      (valMeets val avtabAv && valMeets val avtabType) = false ∧ pickNodes cur rest val = some nodes ∧
      nodes.length = (cur :: partners cur rest).length ∧ item = itemOf cur val nodes ∧
      others = (specOrder.filter (valMeets val)).countP (cur.key.specified &&& · == 0#16) := by
  obtain ⟨lookup, hlookup, h⟩ := Option.bind_eq_some_iff.mp h
  obtain ⟨rfl, hsort⟩ := lookupOf_some (hl.one cur mem_cons_self) hlookup
  rw [nextNodes_sort hl hsort] at h
  refine ⟨_, rfl, hsort, ?_⟩
  simp only at h
  split_ifs at h with hone
  obtain ⟨picked, hpick, h⟩ := Option.bind_eq_some_iff.mp h
  split_ifs at h with hlen
  cases h
  exact ⟨Bool.eq_false_iff.mpr hone, hpick, not_not.mp hlen, rfl, rfl⟩

section Packing

variable {e : BitVec 16} {cur : AvtabNode} {rest : List AvtabNode} (hl : OldChain e (cur :: rest))
  (hsort : sortOf cur.key.specified ∈ [avtabAv, avtabType])

include hl

theorem mem_group (hn : n ∈ cur :: partners cur rest) : n ∈ cur :: rest ∧ groupOf n = groupOf cur := by
  rcases mem_cons.mp hn with rfl | hn
  · exact ⟨mem_cons_self, rfl⟩
  · obtain ⟨hmem, hgroup⟩ := mem_filter.mp hn
    exact ⟨mem_cons_of_mem cur hmem, of_decide_eq_true hgroup⟩

/-- An item has the kinds of its rules. -/
theorem mergedVal_kinds {spec : BitVec 16} (hspec : spec ∈ specOrderRead) :
    valMeets (mergedVal cur rest) spec = true ↔ ∃ n ∈ cur :: partners cur rest, kindOf n.key.specified = spec := by
  rw [valMeets, mergedVal_meets, any_eq_true]
  refine exists_congr fun n => and_congr_right fun hn => ?_
  have hkind := valMeets_oldVal (hl.one n (mem_group hl hn).1) hspec
  rw [valMeets] at hkind
  rw [hkind, decide_eq_true_iff]

theorem mergedVal_enabled :
    (if mergedVal cur rest &&& avtabEnabledOld ≠ 0#32 then avtabEnabled else 0#16) = e := by
  have hflag : (mergedVal cur rest &&& avtabEnabledOld ≠ 0#32) ↔ e ≠ 0#16 := by
    rw [← bne_iff_ne, mergedVal_meets, any_eq_true]
    constructor
    · rintro ⟨n, hn, hbit⟩
      obtain ⟨hmem, -⟩ := mem_group hl hn
      rwa [oldVal_enabled (hl.one n hmem), hl.flag n hmem, bne_iff_ne] at hbit
    · intro he
      refine ⟨cur, mem_cons_self, ?_⟩
      rwa [oldVal_enabled (hl.one cur mem_cons_self), hl.flag cur mem_cons_self, bne_iff_ne]
  have hcases := enabledBit_cases cur.key.specified
  rw [hl.flag cur mem_cons_self] at hcases
  rcases hcases with he | he
  · rw [if_neg (fun h => hflag.mp h he), he]
  · rw [if_pos (hflag.mpr (by rw [he]; decide)), he]

theorem group_sort (hn : n ∈ cur :: partners cur rest) : sortOf n.key.specified = sortOf cur.key.specified :=
  congrArg Prod.snd (mem_group hl hn).2

theorem pickNodes_spec (h : pickNodes cur rest (mergedVal cur rest) = some nodes) :
    (nodes.map fun n => kindOf n.key.specified) = specOrder.filter (valMeets (mergedVal cur rest)) ∧
      ∀ n ∈ nodes, n ∈ cur :: partners cur rest := by
  refine Run.mapM_inverse ?_ h
  intro spec hspec n hn
  obtain ⟨hmem, hmeets⟩ := mem_filter.mp hspec
  have hread : spec ∈ specOrderRead := mem_append_left _ hmem
  have hcur := specified_and_kind (hl.one cur mem_cons_self) hread
  split at hn
  next hbit =>
    cases hn
    rw [← bne_iff_ne, hcur, decide_eq_true_iff] at hbit
    exact ⟨hbit, mem_cons_self⟩
  · rw [nextNodes_eq_filter hl] at hn
    obtain ⟨hrest, hhit⟩ := mem_filter.mp (mem_of_mem_head? hn)
    have hone := hl.tail.one n hrest
    rw [hitKey, Bool.and_eq_true, specifiedMeets_kind hone hread, decide_eq_true_iff] at hhit
    refine ⟨hhit.2, mem_cons_of_mem cur (mem_filter.mpr ⟨hrest, decide_eq_true ?_⟩)⟩
    -- some rule of the group has this kind, so the kind is of its sort
    obtain ⟨m, hm, hkind⟩ := (mergedVal_kinds hl hread).mp hmeets
    have hsame : sortOf n.key.specified = sortOf m.key.specified := by rw [sortOf, sortOf, hhit.2, hkind]
    have hrank : cur.key.rank = n.key.rank := (sameKey_iff_rank _ n.key).mp hhit.1
    rw [groupOf, groupOf, hsame, group_sort hl hm, hrank]

include hsort

theorem group_kind (hn : n ∈ cur :: partners cur rest) :
    kindOf n.key.specified ∈ specOrder.filter (sortOf · = sortOf cur.key.specified) ∧
      n.key.specified &&& avtabXperms = 0#16 ∧ valMeets (oldVal n) (avtabAv ||| avtabType) = true := by
  have hone := hl.one n (mem_group hl hn).1
  have hsame := group_sort hl hn
  rw [← hsame] at hsort ⊢
  exact kind_of_sort hone hsort

/-- The reader and the writer take the data in the same order. -/
theorem mergedVal_specs :
    specOrderRead.filter (valMeets (mergedVal cur rest)) = specOrder.filter (valMeets (mergedVal cur rest)) := by
  have hx : [avtabXpermsAllowed, avtabXpermsAuditallow, avtabXpermsDontaudit].filter (valMeets (mergedVal cur rest)) =
      [] := by
    refine filter_eq_nil_iff.mpr ?_
    intro spec hspec hmeets
    obtain ⟨n, hn, rfl⟩ := (mergedVal_kinds hl (mem_append_right specOrder hspec)).mp hmeets
    have hkind := (group_kind hl hsort hn).1
    have hall : (specOrder.all fun k => decide
      (k ∉ [avtabXpermsAllowed, avtabXpermsAuditallow, avtabXpermsDontaudit])) = true := by decide
    exact of_decide_eq_true (all_eq_true.mp hall _ (mem_of_mem_filter hkind)) hspec
  rw [specOrderRead, filter_append, hx, append_nil]

variable {nodes : List AvtabNode}
  (hkinds : (nodes.map fun n => kindOf n.key.specified) = specOrder.filter (valMeets (mergedVal cur rest)))
  (hmem : ∀ n ∈ nodes, n ∈ cur :: partners cur rest)

include hkinds hmem

theorem length_nodes_le : nodes.length ≤ 4 := by
  -- the kinds of one sort are three
  have hthree : ([avtabAv, avtabType].all fun lookup => decide ((specOrder.filter (sortOf · = lookup)).length ≤ 4)) =
    true := by decide
  have hnodup : (nodes.map fun n => kindOf n.key.specified).Nodup := hkinds ▸ List.Nodup.filter _ (by decide)
  have hsub : (nodes.map fun n => kindOf n.key.specified) ⊆ specOrder.filter (sortOf · = sortOf cur.key.specified) := by
    intro kind hkind
    obtain ⟨n, hn, rfl⟩ := mem_map.mp hkind
    exact (group_kind hl hsort (hmem n hn)).1
  have hle := (subperm_of_subset hnodup hsub).length_le
  rw [length_map] at hle
  exact Nat.le_trans hle (of_decide_eq_true (all_eq_true.mp hthree _ hsort))

theorem itemOf_entries : (itemOf cur (mergedVal cur rest) nodes).entries = nodes.map entryOf := by
  show ((specOrderRead.filter (valMeets (mergedVal cur rest))).zip (nodes.map (·.datum.data))).map _ = _
  rw [mergedVal_specs hl hsort, ← hkinds, zip_map', map_map]
  refine map_congr_left ?_
  intro n hn
  obtain ⟨hin, hgroup⟩ := mem_group hl (hmem n hn)
  obtain ⟨hsource, htarget, hclass⟩ := (sameKey_iff n.key cur.key).mp ((sameKey_iff_rank _ _).mpr (congrArg Prod.fst hgroup))
  have hx := (group_kind hl hsort (hmem n hn)).2.1
  have hspecified : kindOf n.key.specified ||| e = n.key.specified := by
    rw [← hl.flag n hin]
    exact kindOf_or_enabledBit n.key.specified
  show (AvtabKey.mk cur.key.sourceType cur.key.targetType cur.key.targetClass
    (kindOf n.key.specified ||| if mergedVal cur rest &&& avtabEnabledOld ≠ 0#32 then avtabEnabled else 0#16), _) = _
  rw [mergedVal_enabled hl, hspecified, ← hsource, ← htarget, ← hclass, entryOf, usedDatum, if_neg (not_not.mpr hx)]

omit hsort hmem in
/-- The element count goes down by all kinds of the item but the one of `cur`. -/
theorem others_count (hcur : cur ∈ nodes) :
    (specOrder.filter (valMeets (mergedVal cur rest))).countP (cur.key.specified &&& · == 0#16) + 1 = nodes.length := by
  have hmine : ∀ spec ∈ specOrder.filter (valMeets (mergedVal cur rest)),
      decide (¬(cur.key.specified &&& spec == 0#16) = true) = true ↔ (spec == kindOf cur.key.specified) = true := by
    intro spec hspec
    have hbit := specified_and_kind (hl.one cur mem_cons_self) (mem_append_left _ (mem_of_mem_filter hspec))
    rw [decide_eq_true_iff, beq_iff_eq, ← Ne, ← bne_iff_ne, hbit, decide_eq_true_iff, beq_iff_eq]
    exact eq_comm
  have hone : (specOrder.filter (valMeets (mergedVal cur rest))).count (kindOf cur.key.specified) = 1 := by
    refine count_eq_one_of_mem (List.Nodup.filter _ (by decide)) ?_
    rw [← hkinds]
    exact mem_map.mpr ⟨cur, hcur, rfl⟩
  have hlength := congrArg List.length hkinds
  rw [length_map] at hlength
  rw [hlength, length_eq_countP_add_countP (cur.key.specified &&& · == 0#16), countP_congr hmine]
  exact congrArg _ hone.symm

end Packing

theorem mergedItem_packs (hl : OldChain e (cur :: rest)) (h : mergedItem cur rest = some (item, nodes, others)) :
    Packs cur rest item nodes others := by
  obtain ⟨val, rfl, hsort, hone, hpick, hlen, rfl, rfl⟩ := mergedItem_some hl h
  obtain ⟨hkinds, hmem⟩ := pickNodes_spec hl hpick
  have hnodup : (nodes.map fun n => kindOf n.key.specified).Nodup := hkinds ▸ List.Nodup.filter _ (by decide)
  have hperm : nodes.Perm (cur :: partners cur rest) :=
    (subperm_of_subset hnodup.of_map hmem).perm_of_length_le (Nat.le_of_eq hlen.symm)
  have hdata : (itemOf cur (mergedVal cur rest) nodes).data.length = nodes.length := length_map _
  refine ⟨⟨?_, hone, ?_, ?_, ?_⟩, itemOf_entries hl hsort hkinds hmem, hnodup,
    others_count hl hkinds (hperm.mem_iff.mpr mem_cons_self), hperm⟩
  · show valMeets (mergedVal cur rest) (avtabAv ||| avtabType) = true
    rw [valMeets, mergedVal_meets, any_eq_true]
    exact ⟨cur, mem_cons_self, (group_kind hl hsort mem_cons_self).2.2⟩
  · show _ = (specOrderRead.filter (valMeets (mergedVal cur rest))).length
    rw [mergedVal_specs hl hsort, hdata, ← hkinds, length_map]
  · intro hnil
    rw [hnil, hperm.length_eq] at hdata
    cases hdata
  · rw [hdata]
    exact length_nodes_le hl hsort hkinds hmem

/-! ## A pass over the table -/

/-- The rules not yet marked. -/
def todo (M : List Nat) (l : List AvtabNode) : List AvtabNode := l.filter fun n => n.id ∉ M

/-- Groups are marked as a whole. -/
def Whole (M : List Nat) (l : List AvtabNode) : Prop := ∀ a ∈ l, ∀ b ∈ l, groupOf a = groupOf b → a.id ∈ M → b.id ∈ M

/-- What a pass makes of the rules of `l` that are not in `M`: its items, by how many it lowers the
    element count, and which rules are marked at its end. -/
structure Merged (M : List Nat) (l : List AvtabNode) (items : List OldItem) (k : Nat) (M' : List Nat) : Prop where
  good : ∀ item ∈ items, item.Good
  rules : (items.flatMap OldItem.entries).Perm ((todo M l).map entryOf)
  single : (todo M l).Pairwise fun a b => ¬Clash a.key b.key
  count : k + items.length = (todo M l).length
  marked : ∀ id ∈ M', id ∈ M ∨ id ∈ l.map (·.id)

theorem Merged.nil : Merged M [] [] 0 M :=
  ⟨forall_mem_nil _, List.Perm.refl _, List.Pairwise.nil, rfl, fun _ hid => Or.inl hid⟩

theorem todo_disjoint (h : ∀ n ∈ l, n.id ∉ M) : todo M l = l :=
  filter_eq_self.mpr fun n hn => decide_eq_true (h n hn)

section Item

variable {e : BitVec 16} {cur : AvtabNode} {rest nodes : List AvtabNode} {M : List Nat} (hl : OldChain e (cur :: rest))
  (hperm : nodes.Perm (cur :: partners cur rest))

include hl hperm

/-- An item marks the rules of its group. -/
theorem marked_iff (hn : n ∈ rest) : n.id ∈ nodes.map (·.id) ++ M ↔ groupOf n = groupOf cur ∨ n.id ∈ M := by
  rw [mem_append]
  refine or_congr_left ?_
  constructor
  · intro hid
    obtain ⟨m, hm, hmid⟩ := mem_map.mp hid
    obtain ⟨hmem, hgroup⟩ := mem_group hl (hperm.mem_iff.mp hm)
    rwa [← inj_on_of_nodup_map hl.distinct hmem (mem_cons_of_mem cur hn) hmid]
  · intro hgroup
    refine mem_map.mpr ⟨n, hperm.mem_iff.mpr ?_, rfl⟩
    exact mem_cons_of_mem cur (mem_filter.mpr ⟨hn, decide_eq_true hgroup⟩)

variable (hM : Whole M (cur :: rest)) (hcur : cur.id ∉ M)

include hM

theorem Whole.step : Whole (nodes.map (·.id) ++ M) rest := by
  intro a ha b hb hab hid
  rw [marked_iff hl hperm hb]
  rcases (marked_iff hl hperm ha).mp hid with hgroup | hid
  · exact Or.inl (hab.symm.trans hgroup)
  · exact Or.inr (hM a (mem_cons_of_mem cur ha) b (mem_cons_of_mem cur hb) hab hid)

include hcur

/-- The rules to do are those of the item and those to do after it. -/
theorem todo_split : (todo M (cur :: rest)).Perm (nodes ++ todo (nodes.map (·.id) ++ M) rest) := by
  have hgroup : (todo M rest).filter (fun n => groupOf n = groupOf cur) = partners cur rest := by
    rw [todo, filter_filter]
    refine filter_congr ?_
    intro n hn
    by_cases hg : groupOf n = groupOf cur
    · have hid : n.id ∉ M := fun hid => hcur (hM n (mem_cons_of_mem cur hn) cur mem_cons_self hg hid)
      simp [hg, hid]
    · simp [hg]
  have hrest : (todo M rest).filter (fun n => !decide (groupOf n = groupOf cur)) = todo (nodes.map (·.id) ++ M) rest := by
    rw [todo, filter_filter]
    refine filter_congr ?_
    intro n hn
    rw [Bool.eq_iff_iff, decide_eq_true_iff, marked_iff hl hperm hn]
    simp
  have hsplit := filter_append_perm (fun n => decide (groupOf n = groupOf cur)) (todo M rest)
  rw [hgroup, hrest] at hsplit
  have hcons : todo M (cur :: rest) = cur :: todo M rest := filter_cons_of_pos (decide_eq_true hcur)
  rw [hcons]
  exact (hsplit.symm.cons cur).trans (hperm.symm.append_right _)

end Item

theorem not_clash_symm {n m : AvtabNode} (h : ¬Clash n.key m.key) : ¬Clash m.key n.key := fun hc => h hc.symm

/-- An item, and what is made of the rest. -/
theorem Merged.cons {rest nodes : List AvtabNode} (hl : OldChain e (cur :: rest)) (hM : Whole M (cur :: rest))
    (hcur : cur.id ∉ M) (hp : Packs cur rest item nodes others) {items : List OldItem} {k : Nat} {M' : List Nat}
    (h : Merged (nodes.map (·.id) ++ M) rest items k M') : Merged M (cur :: rest) (item :: items) (others + k) M' := by
  have hsplit := todo_split hl hp.perm hM hcur
  refine ⟨forall_mem_cons.mpr ⟨hp.good, h.good⟩, ?_, ?_, ?_, ?_⟩
  · rw [flatMap_cons, hp.entries]
    refine (h.rules.append_left _).trans ?_
    rw [← map_append]
    exact (hsplit.map entryOf).symm
  · refine (hsplit.pairwise_iff not_clash_symm).mpr (pairwise_append.mpr ⟨?_, h.single, ?_⟩)
    · exact (pairwise_map.mp hp.kinds).imp fun hne hc => hne hc.kind
    · -- a rule like one of the item is of its group
      intro a ha b hb hc
      obtain ⟨hbmem, hbid⟩ := mem_filter.mp hb
      refine of_decide_eq_true hbid ((marked_iff hl hp.perm hbmem).mpr (Or.inl ?_))
      rw [← hc.groupOf]
      exact (mem_group hl (hp.perm.mem_iff.mp ha)).2
  · rw [hsplit.length_eq, length_append, ← hp.count, ← h.count, length_cons]
    omega
  · intro id hid
    rcases h.marked id hid with hid | hid
    · rcases mem_append.mp hid with hid | hid
      · obtain ⟨n, hn, rfl⟩ := mem_map.mp hid
        exact Or.inr (mem_map.mpr ⟨n, (mem_group hl (hp.perm.mem_iff.mp hn)).1, rfl⟩)
      · exact Or.inl hid
    · exact Or.inr (mem_cons_of_mem cur.id hid)

theorem sub_ofNat_ofNat (nel : BitVec 32) (a b : Nat) :
    nel - BitVec.ofNat 32 a - BitVec.ofNat 32 b = nel - BitVec.ofNat 32 (a + b) := by
  rw [BitVec.ofNat_add, sub_sub]

theorem avtabWriteItem_old (hvers : vers < policydbVersionAvtab) (selinux commit : Bool) (cur : AvtabNode)
    (rest : List AvtabNode) (M : List Nat) (nel : BitVec 32) :
    avtabWriteItem vers selinux true commit cur rest ⟨M, nel⟩ =
      if cur.id ∈ M then some ([], ⟨M, nel⟩)
      else (mergedItem cur rest).map fun r =>
        (if commit then [r.1.bytes] else [], ⟨r.2.1.map (·.id) ++ M, nel - BitVec.ofNat 32 r.2.2⟩) := by
  unfold avtabWriteItem
  rw [if_pos hvers]
  by_cases hcur : cur.id ∈ M
  · rw [if_pos hcur, if_pos (by simpa using hcur)]
  · rw [if_neg hcur, if_neg (by simpa using hcur)]
    cases mergedItem cur rest <;> rfl

variable {commit : Bool}

/-- What a pass over a chain writes and counts. Both passes make the same items. -/
theorem writeChain_merged (hvers : vers < policydbVersionAvtab) (hl : OldChain e l) (hM : Whole M l)
    (h : writeChain vers selinux commit l ⟨M, nel⟩ = some r) :
    ∃ items k M', Merged M l items k M' ∧ ∀ commit nel, writeChain vers selinux commit l ⟨M, nel⟩ =
      some (if commit then items.map OldItem.bytes else [], ⟨M', nel - BitVec.ofNat 32 k⟩) := by
  induction l generalizing M nel r with
  | nil =>
    refine ⟨[], 0, M, .nil, ?_⟩
    intro commit nel
    simp [writeChain]
  | cons cur rest ih =>
    have hM' : Whole M rest := fun a ha b hb => hM a (mem_cons_of_mem cur ha) b (mem_cons_of_mem cur hb)
    rw [writeChain, avtabWriteItem_old hvers] at h
    by_cases hcur : cur.id ∈ M
    · -- taken by an item before
      rw [if_pos hcur] at h
      obtain ⟨_, ⟨⟩, h⟩ := Option.bind_eq_some_iff.mp h
      obtain ⟨r', hr', -⟩ := Option.bind_eq_some_iff.mp h
      obtain ⟨items, k, M', hm, hrun⟩ := ih hl.tail hM' hr'
      have htodo : todo M (cur :: rest) = todo M rest := filter_cons_of_neg (by simpa using hcur)
      refine ⟨items, k, M', ⟨hm.good, htodo ▸ hm.rules, htodo ▸ hm.single, htodo ▸ hm.count, ?_⟩, ?_⟩
      · exact fun id hid => (hm.marked id hid).imp_right (mem_cons_of_mem cur.id)
      · intro commit nel
        rw [writeChain, avtabWriteItem_old hvers, if_pos hcur]
        show (writeChain vers selinux commit rest ⟨M, nel⟩).bind _ = _
        rw [hrun]
        rfl
    · rw [if_neg hcur] at h
      obtain ⟨⟨_, st⟩, hitem, h⟩ := Option.bind_eq_some_iff.mp h
      obtain ⟨⟨item, nodes, others⟩, hmerged, hst⟩ := Option.map_eq_some_iff.mp hitem
      cases hst
      obtain ⟨r', hr', -⟩ := Option.bind_eq_some_iff.mp h
      have hp := mergedItem_packs hl hmerged
      obtain ⟨items, k, M', hm, hrun⟩ := ih hl.tail (Whole.step hl hp.perm hM) hr'
      refine ⟨item :: items, others + k, M', hm.cons hl hM hcur hp, ?_⟩
      intro commit nel
      rw [writeChain, avtabWriteItem_old hvers, if_neg hcur, hmerged]
      show (writeChain vers selinux commit rest ⟨nodes.map (·.id) ++ M, nel - BitVec.ofNat 32 others⟩).bind _ = _
      rw [hrun, sub_ofNat_ofNat]
      cases commit <;> rfl

/-- Chains of different keys, and rules of their own. -/
def Separate (c d : List AvtabNode) : Prop := ∀ a ∈ c, ∀ b ∈ d, a.id ≠ b.id ∧ ¬Clash a.key b.key

theorem Merged.append {c d : List AvtabNode} {M M₁ M₂ : List Nat} {items₁ items₂ : List OldItem} {k₁ k₂ : Nat}
    (hM : ∀ n ∈ c ++ d, n.id ∉ M) (hM₁ : ∀ n ∈ d, n.id ∉ M₁) (hsep : Separate c d) (h₁ : Merged M c items₁ k₁ M₁)
    (h₂ : Merged M₁ d items₂ k₂ M₂) : Merged M (c ++ d) (items₁ ++ items₂) (k₁ + k₂) M₂ := by
  have hc : todo M c = c := todo_disjoint fun n hn => hM n (mem_append_left d hn)
  have hd : todo M₁ d = d := todo_disjoint hM₁
  have hall : todo M (c ++ d) = c ++ d := todo_disjoint hM
  obtain ⟨hgood₁, hrules₁, hsingle₁, hcount₁, hmarked₁⟩ := h₁
  obtain ⟨hgood₂, hrules₂, hsingle₂, hcount₂, hmarked₂⟩ := h₂
  rw [hc] at hrules₁ hsingle₁ hcount₁
  rw [hd] at hrules₂ hsingle₂ hcount₂
  refine ⟨forall_mem_append.mpr ⟨hgood₁, hgood₂⟩, ?_, ?_, ?_, ?_⟩
  · rw [hall, flatMap_append, map_append]
    exact hrules₁.append hrules₂
  · rw [hall]
    exact pairwise_append.mpr ⟨hsingle₁, hsingle₂, fun a ha b hb => (hsep a ha b hb).2⟩
  · rw [hall, length_append, length_append, ← hcount₁, ← hcount₂]
    omega
  · intro id hid
    rw [map_append, mem_append]
    rcases hmarked₂ id hid with hid | hid
    · exact (hmarked₁ id hid).imp_right Or.inl
    · exact Or.inr (Or.inr hid)

variable {chains : List (List AvtabNode)}

theorem writeBuckets_merged (hvers : vers < policydbVersionAvtab) (hl : ∀ l ∈ chains, OldChain e l)
    (hsep : chains.Pairwise Separate) (hM : ∀ n ∈ chains.flatten, n.id ∉ M)
    (h : writeBuckets vers selinux commit chains ⟨M, nel⟩ = some r) :
    ∃ items k M', Merged M chains.flatten items k M' ∧ ∀ commit nel, writeBuckets vers selinux commit chains ⟨M, nel⟩ =
      some (if commit then items.map OldItem.bytes else [], ⟨M', nel - BitVec.ofNat 32 k⟩) := by
  induction chains generalizing M nel r with
  | nil =>
    refine ⟨[], 0, M, .nil, ?_⟩
    intro commit nel
    simp [writeBuckets]
  | cons chain chains ih =>
    obtain ⟨hfirst, hrest⟩ := pairwise_cons.mp hsep
    have hapart : Separate chain chains.flatten := by
      intro a ha b hb
      obtain ⟨d, hd, hbd⟩ := mem_flatten.mp hb
      exact hfirst d hd a ha b hbd
    have hwhole : Whole M chain := fun a ha _ _ _ hid => absurd hid (hM a (mem_append_left _ ha))
    obtain ⟨⟨_, st⟩, hchain, h⟩ := Option.bind_eq_some_iff.mp h
    obtain ⟨r', hr', -⟩ := Option.bind_eq_some_iff.mp h
    obtain ⟨items₁, k₁, M₁, hm₁, hrun₁⟩ := writeChain_merged hvers (hl chain mem_cons_self) hwhole hchain
    rw [hrun₁] at hchain
    cases hchain
    have hM₁ : ∀ n ∈ chains.flatten, n.id ∉ M₁ := by
      intro n hn hid
      rcases hm₁.marked n.id hid with hid | hid
      · exact hM n (mem_append_right chain hn) hid
      · obtain ⟨m, hm, hmid⟩ := mem_map.mp hid
        exact (hapart m hm n hn).1 hmid
    obtain ⟨items₂, k₂, M₂, hm₂, hrun₂⟩ := ih (fun l hmem => hl l (mem_cons_of_mem chain hmem)) hrest hM₁ hr'
    refine ⟨items₁ ++ items₂, k₁ + k₂, M₂, hm₁.append hM hM₁ hapart hm₂, ?_⟩
    intro commit nel
    rw [writeBuckets, hrun₁]
    show (writeBuckets vers selinux commit chains ⟨M₁, nel - BitVec.ofNat 32 k₁⟩).bind _ = _
    rw [hrun₂, sub_ofNat_ofNat]
    cases commit with
    | true => rw [if_pos rfl, if_pos rfl, if_pos rfl, map_append]; rfl
    | false => rfl

/-! ## The new format -/

/-- A rule as it is in the file. -/
def newBytes (vers : Nat) (selinux : Bool) (n : AvtabNode) : Bytes := (newItem vers selinux n).getD []

theorem avtabWriteItem_new (hvers : policydbVersionAvtab ≤ vers) {selinux : Bool}
    (h : avtabWriteItem vers selinux true commit cur rest st = some r) :
    r = ([newBytes vers selinux cur], st) ∧ newItem vers selinux cur = some (newBytes vers selinux cur) := by
  unfold avtabWriteItem at h
  rw [if_neg (Nat.not_lt.mpr hvers)] at h
  obtain ⟨bytes, hbytes, rfl⟩ := Option.map_eq_some_iff.mp h
  rw [newBytes, hbytes]
  exact ⟨rfl, rfl⟩

theorem writeChain_new (hvers : policydbVersionAvtab ≤ vers) {selinux : Bool}
    (h : writeChain vers selinux commit l st = some r) :
    r = (l.map (newBytes vers selinux), st) ∧ ∀ n ∈ l, newItem vers selinux n = some (newBytes vers selinux n) := by
  induction l generalizing r with
  | nil =>
    cases h
    exact ⟨rfl, forall_mem_nil _⟩
  | cons cur rest ih =>
    obtain ⟨_, hitem, h⟩ := Option.bind_eq_some_iff.mp h
    obtain ⟨rfl, hcur⟩ := avtabWriteItem_new hvers hitem
    obtain ⟨_, hrest, h⟩ := Option.bind_eq_some_iff.mp h
    obtain ⟨rfl, hall⟩ := ih hrest
    cases h
    exact ⟨rfl, forall_mem_cons.mpr ⟨hcur, hall⟩⟩

theorem writeBuckets_new (hvers : policydbVersionAvtab ≤ vers) {selinux : Bool}
    (h : writeBuckets vers selinux commit chains st = some r) : r = (chains.flatten.map (newBytes vers selinux), st) ∧
      ∀ n ∈ chains.flatten, newItem vers selinux n = some (newBytes vers selinux n) := by
  induction chains generalizing r with
  | nil =>
    cases h
    exact ⟨rfl, forall_mem_nil _⟩
  | cons chain chains ih =>
    obtain ⟨_, hchain, h⟩ := Option.bind_eq_some_iff.mp h
    obtain ⟨rfl, hfirst⟩ := writeChain_new hvers hchain
    obtain ⟨_, hrest, h⟩ := Option.bind_eq_some_iff.mp h
    obtain ⟨rfl, hall⟩ := ih hrest
    cases h
    rw [flatten_cons, map_append]
    exact ⟨rfl, forall_mem_append.mpr ⟨hfirst, hall⟩⟩

/-! ## Round trip -/

/-- Reading items that stand for rules of which no two clash. -/
theorem reads_items {α : Type} {items : List α} {put : α → Bytes} {rules : α → List (AvtabKey × AvtabDatum)}
    (hitem : ∀ a a', ∀ item ∈ items, (rules item).foldlM (fun a e => avtabInsertf a e.1 e.2) a = some a' →
      Reads (avtabReadItem vers avtabInsertf a) (put item) a')
    (hne : items ≠ []) (hlt : items.length < 2 ^ 32) {ns : List AvtabNode}
    (hperm : (items.flatMap rules).Perm (ns.map entryOf))
    (hone : ∀ n ∈ ns, OneKind n.key.specified) (hsingle : ns.Pairwise fun a b => ¬Clash a.key b.key) :
    ∃ a', Reads (avtabRead vers) (toBytes 4 items.length ++ items.flatMap put) a' ∧ (entries a').Perm (ns.map entryOf) := by
  have hpos : items.length ≠ 0 := fun h => hne (length_eq_zero_iff.mp h)
  have hslots : (avtabAlloc items.length).nslot ≠ 0 := by
    unfold avtabAlloc
    rw [if_neg hpos]
    exact Nat.pos_iff_ne_zero.mp (Nat.lt_min.mpr ⟨Nat.two_pow_pos _, by decide⟩)
  have hones : ∀ r ∈ items.flatMap rules, OneKind r.1.specified := by
    intro r hr
    obtain ⟨n, hn, rfl⟩ := mem_map.mp (hperm.mem_iff.mp hr)
    exact hone n hn
  have hclash : (items.flatMap rules).Pairwise fun r s => ¬Clash s.1 r.1 := by
    refine (hperm.pairwise_iff fun h hc => h hc.symm).mpr (pairwise_map.mpr ?_)
    exact hsingle.imp fun h => not_clash_symm h
  have hempty : ∀ n ∈ (avtabAlloc items.length).nodes, OneKind n.key.specified ∧
      ∀ r ∈ items.flatMap rules, ¬Clash r.1 n.key := by
    rw [nodes_avtabAlloc]
    exact forall_mem_nil _
  obtain ⟨a', hfold, hentries⟩ := insertAll hones hclash hslots hempty
  refine ⟨a', ?_, ?_⟩
  · rw [Run.foldlM_flatMap] at hfold
    refine (reads_num hlt).bind ((reads_check (decide_eq_true hpos)).andThen ?_)
    exact Reads.loop hitem hfold
  · have hused : ((items.flatMap rules).map fun r => (r.1, usedDatum r.1.specified r.2)).Perm (ns.map entryOf) := by
      refine (hperm.map _).trans (List.Perm.of_eq ?_)
      rw [map_map]
      refine map_congr_left ?_
      intro n _
      show (n.key, usedDatum n.key.specified (usedDatum n.key.specified n.datum)) = entryOf n
      rw [usedDatum_used]
      rfl
    have hnone : entries (avtabAlloc items.length) = [] := by rw [entries, nodes_avtabAlloc]; rfl
    rw [hnone, append_nil] at hentries
    exact hentries.trans hused

theorem separate_buckets (a : Avtab) : (bucketsOf a).Pairwise Separate := by
  refine pairwise_map.mpr (nodup_range.imp ?_)
  intro i j hij n hn m hm
  refine ⟨fun hid => hij (a.apart i j n hn m hm hid), fun hc => hij ?_⟩
  rw [← (a.hashed i n hn).2, ← (a.hashed j m hm).2, avtabHash_congr hc.key]

theorem flatten_bucketsOf (a : Avtab) : (bucketsOf a).flatten = a.nodes := rfl

theorem nodup_nodes (a : Avtab) : a.nodes.Nodup := by
  rw [← flatten_bucketsOf, nodup_flatten]
  refine ⟨?_, (separate_buckets a).imp ?_⟩
  · intro chain hchain
    obtain ⟨i, -, rfl⟩ := mem_map.mp hchain
    exact (a.distinct i).of_map
  · intro c d hsep n hn hn'
    exact (hsep n hn n hn').1 rfl

variable {a : Avtab}

theorem oldChain_bucket (hone : ∀ n ∈ a.nodes, OneKind n.key.specified)
    (hflag : ∀ n ∈ a.nodes, enabledBit n.key.specified = e) : ∀ l ∈ bucketsOf a, OldChain e l := by
  intro l hmem
  obtain ⟨i, -, rfl⟩ := mem_map.mp hmem
  exact ⟨a.sorted i, fun n hn => hone n (Avtab.mem_nodes.mpr ⟨i, hn⟩),
    fun n hn => hflag n (Avtab.mem_nodes.mpr ⟨i, hn⟩), a.distinct i⟩

variable {items : List Bytes} {t : Avtab}

/-- The old format: the items of both passes are the same, and as many as counted. -/
theorem roundTrip_old (hvers : vers < policydbVersionAvtab) {st st' : WriteState} {none₁ : List Bytes}
    (hfirst : writeBuckets vers selinux false (bucketsOf t) { nel := t.nel } = some (none₁, st))
    (hsecond : writeBuckets vers selinux true (bucketsOf t) { nel } = some (items, st')) (hcount : t.Counted)
    (hnel : t.nodes.length < 2 ^ 32) (hne : t.nodes ≠ []) (hone : ∀ n ∈ t.nodes, OneKind n.key.specified)
    (hflag : ∀ n ∈ t.nodes, enabledBit n.key.specified = e) : st.nel.toNat = items.length ∧
      ∃ a', Reads (avtabRead vers) (toBytes 4 items.length ++ items.flatten) a' ∧ (entries a').Perm (entries t) := by
  obtain ⟨its, k, M', hm, hrun⟩ := writeBuckets_merged hvers (oldChain_bucket hone hflag) (separate_buckets t)
    (fun _ _ => not_mem_nil) hfirst
  have hst := hrun false t.nel
  have hitems := hrun true nel
  rw [hfirst] at hst
  rw [hsecond] at hitems
  cases hst
  cases hitems
  obtain ⟨hgood, hrules, hsingle, hlength, -⟩ := hm
  have htodo : todo [] (bucketsOf t).flatten = t.nodes := todo_disjoint fun _ _ => not_mem_nil
  rw [htodo] at hrules hsingle hlength
  rw [if_pos rfl, length_map]
  refine ⟨?_, ?_⟩
  · show (t.nel - BitVec.ofNat 32 k).toNat = its.length
    rw [hcount.nel, ← hlength, BitVec.ofNat_add, add_sub_cancel_left, BitVec.toNat_ofNat, Nat.mod_eq_of_lt (by omega)]
  refine reads_items (fun a a' item hitem h => reads_oldItem hvers (hgood item hitem) h) ?_ (by omega) hrules hone hsingle
  rintro rfl
  have hnil := hrules.symm.eq_nil
  rw [map_eq_nil_iff] at hnil
  exact hne hnil

theorem roundTrip_new (hvers : policydbVersionAvtab ≤ vers)
    (h : writeBuckets vers selinux true (bucketsOf t) { nel := t.nel } = some (items, st)) (hcount : t.Counted)
    (hnel : t.nodes.length < 2 ^ 32) (hne : t.nodes ≠ []) (hone : ∀ n ∈ t.nodes, OneKind n.key.specified)
    (hsingle : ∀ n ∈ t.nodes, ∀ m ∈ t.nodes, Clash n.key m.key → n = m) : t.nel.toNat = items.length ∧
      ∃ a', Reads (avtabRead vers) (toBytes 4 items.length ++ items.flatten) a' ∧ (entries a').Perm (entries t) := by
  obtain ⟨heq, hitem⟩ := writeBuckets_new hvers h
  cases heq
  rw [length_map]
  refine ⟨by rw [hcount.nel, BitVec.toNat_ofNat, Nat.mod_eq_of_lt hnel]; rfl, ?_⟩
  have hrules : (t.nodes.flatMap fun n => [entryOf n]).Perm (t.nodes.map entryOf) := List.Perm.of_eq (map_eq_flatMap).symm
  refine reads_items ?_ hne hnel hrules hone ?_
  · intro a a' n hn hi
    obtain ⟨a₁, ha₁, hnil⟩ := Option.bind_eq_some_iff.mp hi
    cases hnil
    exact reads_newItem hvers (hone n hn) (hitem n hn) ha₁
  · refine (nodup_nodes t).imp_of_mem ?_
    intro n m hn hm hnm hc
    exact hnm (hsingle n hn m hm hc)

/-- Every table that is written is read back: the rules of the table written, each with the same
    key and datum, and as many items as the element count says. A table without rules is written
    and not read; `avtab_insert` refuses two rules that are the same but for their data, which
    only the old format's writer notices; and an item of the old format has one flag for all its
    rules. -/
theorem avtabRead_avtabWrite {vers : Nat} {selinux : Bool} {p : Policydb} {a t : Avtab} {bytes : Bytes}
    (hw : avtabWrite vers selinux p a = some bytes) (ht : writtenTable vers p a = some t) (hcount : a.Counted)
    (hnel : t.nodes.length < 2 ^ 32) (hne : t.nodes ≠ []) (hone : ∀ n ∈ a.nodes, OneKind n.key.specified)
    (hflag : vers < policydbVersionAvtab → ∃ e, ∀ n ∈ a.nodes, enabledBit n.key.specified = e)
    (hsingle : policydbVersionAvtab ≤ vers → ∀ n ∈ a.nodes, ∀ m ∈ a.nodes, Clash n.key m.key → n = m) :
    ∃ items, avtabWriteItems vers selinux p a = some (items.length, items) ∧
      bytes = toBytes 4 items.length ++ items.flatten ∧
      ∃ a', Reads (avtabRead vers) bytes a' ∧ (entries a').Perm (entries t) := by
  obtain ⟨⟨nel, items⟩, hitems, rfl⟩ := Option.map_eq_some_iff.mp hw
  have hrun := hitems
  unfold avtabWriteItems at hrun
  rw [ht] at hrun
  rcases Nat.lt_or_ge vers policydbVersionAvtab with hvers | hvers
  · obtain ⟨e, he⟩ := hflag hvers
    rw [writtenTable, if_pos hvers] at ht
    have hkept := Expand.expandAvtab_kept (Q := fun specified => OneKind specified ∧ enabledBit specified = e)
      (fun n hn => ⟨hone n hn, he n hn⟩) ht
    simp only [Option.bind_eq_bind, Option.bind_some, if_pos hvers] at hrun
    obtain ⟨⟨none₁, st⟩, hfirst, hrun⟩ := Option.bind_eq_some_iff.mp hrun
    obtain ⟨⟨items', st'⟩, hsecond, hrun⟩ := Option.bind_eq_some_iff.mp hrun
    cases hrun
    obtain ⟨hlen, hread⟩ := roundTrip_old hvers hfirst hsecond hkept.counted hnel hne (fun n hn => (hkept.specified n hn).1)
      (fun n hn => (hkept.specified n hn).2)
    rw [hlen] at hitems ⊢
    exact ⟨items', hitems, rfl, hread⟩
  · rw [writtenTable, if_neg (Nat.not_lt.mpr hvers)] at ht
    cases ht
    simp only [Option.bind_eq_bind, Option.bind_some, if_neg (Nat.not_lt.mpr hvers)] at hrun
    obtain ⟨⟨items', st⟩, hfirst, hrun⟩ := Option.bind_eq_some_iff.mp hrun
    cases hrun
    obtain ⟨hlen, hread⟩ := roundTrip_new hvers hfirst hcount hnel hne hone (hsingle hvers)
    rw [hlen] at hitems ⊢
    exact ⟨items', hitems, rfl, hread⟩

theorem writeBuckets_empty (h : ∀ c ∈ chains, c = []) : writeBuckets vers selinux commit chains st = some ([], st) := by
  induction chains with
  | nil => rfl
  | cons c chains ih =>
    obtain ⟨rfl, hrest⟩ := forall_mem_cons.mp h
    simp [writeBuckets, writeChain, ih hrest]

theorem writeBuckets_only {c : List AvtabNode} {before after : List (List AvtabNode)} (hbefore : ∀ c ∈ before, c = [])
    (hafter : ∀ c ∈ after, c = []) :
    writeBuckets vers selinux commit (before ++ c :: after) st = writeChain vers selinux commit c st := by
  induction before with
  | nil =>
    simp only [nil_append, writeBuckets, writeBuckets_empty hafter]
    cases writeChain vers selinux commit c st <;> simp
  | cons b before ih =>
    obtain ⟨rfl, hrest⟩ := forall_mem_cons.mp hbefore
    simp [writeBuckets, writeChain, ih hrest]

theorem writeBuckets_bucket {j : Nat} (hj : j < a.nslot) (hone : ∀ n ∈ a.nodes, a.bucket n.key = j) :
    writeBuckets vers selinux commit (bucketsOf a) st = writeChain vers selinux commit (a.htable j) st := by
  have hempty : ∀ i, i ≠ j → a.htable i = [] := by
    intro i hi
    refine eq_nil_iff_forall_not_mem.mpr ?_
    intro n hn
    exact hi ((a.hashed i n hn).2.symm.trans (hone n (Avtab.mem_nodes.mpr ⟨i, hn⟩)))
  obtain ⟨before, after, hsplit⟩ := append_of_mem (mem_range.mpr hj)
  have hnodup : (before ++ j :: after).Nodup := hsplit ▸ nodup_range
  rw [nodup_append, nodup_cons] at hnodup
  rw [bucketsOf, hsplit, map_append, map_cons]
  refine writeBuckets_only ?_ ?_
  · intro c hc
    obtain ⟨i, hi, rfl⟩ := mem_map.mp hc
    exact hempty i (hnodup.2.2 i hi j mem_cons_self)
  · intro c hc
    obtain ⟨i, hi, rfl⟩ := mem_map.mp hc
    exact hempty i fun h => hnodup.2.1.1 (h ▸ hi)

/-- A table with one bucket in use, in the old format. -/
theorem avtabWriteItems_bucket {p : Policydb} {j : Nat} {none₁ : List Bytes} {st' : WriteState}
    (hvers : vers < policydbVersionAvtab) (ht : writtenTable vers p a = some t) (hj : j < t.nslot)
    (hone : ∀ n ∈ t.nodes, t.bucket n.key = j)
    (hfirst : writeChain vers selinux false (t.htable j) { nel := t.nel } = some (none₁, st))
    (hsecond : writeChain vers selinux true (t.htable j) { nel := st.nel } = some (items, st')) :
    avtabWriteItems vers selinux p a = some (st.nel.toNat, items) := by
  unfold avtabWriteItems
  rw [ht]
  simp only [Option.bind_eq_bind, Option.bind_some, writeBuckets_bucket hj hone, hfirst, hsecond, if_pos hvers,
    Option.pure_def]

/-- An access vector and a type transition of one key. -/
def sampleTable : Avtab :=
  ((avtabAlloc 2).insertNode avtabAlloc_two ⟨1#16, 2#16, 3#16, avtabAllowed⟩ { data := 5#32 } none).insertNode (by decide)
    ⟨1#16, 2#16, 3#16, avtabTransition⟩ { data := 4#32 } none

/-- An allow rule and an auditallow rule of one key. -/
def auditTable : Avtab :=
  ((avtabAlloc 2).insertNode avtabAlloc_two ⟨1#16, 2#16, 3#16, avtabAllowed⟩ { data := 5#32 } none).insertNode (by decide)
    ⟨1#16, 2#16, 3#16, avtabAuditallow⟩ { data := 4#32 } none

/-- Two types. -/
def oldTypes : Policydb := { typeValToStruct := [some {}, some {}] }

theorem avtabAlloc_max : (avtabAlloc Expand.maxAvtabSize).nslot ≠ 0 := by decide +kernel

/-- `auditTable` written out. -/
def auditExpanded : Avtab :=
  ((avtabAlloc Expand.maxAvtabSize).insertNode avtabAlloc_max
    ⟨1#16, 2#16, 3#16, avtabAllowed⟩ { data := 5#32 } none).insertNode
    avtabAlloc_max ⟨1#16, 2#16, 3#16, avtabAuditallow⟩ { data := 4#32 } none

theorem writtenTable_auditTable : writtenTable 19 oldTypes auditTable = some auditExpanded := by rfl

def auditBucket : Nat := auditExpanded.bucket ⟨1#16, 2#16, 3#16, 0#16⟩

theorem bucket_auditExpanded : ∀ n ∈ auditExpanded.nodes, auditExpanded.bucket n.key = auditBucket := by
  intro n hn
  rcases mem_nodes_insertNode.mp hn with rfl | hn
  · decide +kernel
  · rcases mem_nodes_insertNode.mp hn with rfl | hn
    · decide +kernel
    · rw [nodes_avtabAlloc] at hn
      cases hn

/-- In the old format they are one item. -/
theorem auditTable_merged : ∃ item, avtabWriteItems 19 true oldTypes auditTable = some (1, [item]) := by
  have hchain : ((writeChain 19 true false (auditExpanded.htable auditBucket) { nel := auditExpanded.nel }).bind fun first =>
      (writeChain 19 true true (auditExpanded.htable auditBucket) { nel := first.2.nel }).map fun second =>
        (first.2.nel.toNat, second.1.length)) = some (1, 1) := by decide +kernel
  obtain ⟨⟨none₁, st⟩, hfirst, hchain⟩ := Option.bind_eq_some_iff.mp hchain
  obtain ⟨⟨items, st'⟩, hsecond, hcount⟩ := Option.map_eq_some_iff.mp hchain
  obtain ⟨hnel, hlength⟩ := Prod.mk.inj hcount
  obtain ⟨item, rfl⟩ := length_eq_one_iff.mp hlength
  have hwrite := avtabWriteItems_bucket (by decide) writtenTable_auditTable
    (by decide +kernel) bucket_auditExpanded hfirst hsecond
  exact ⟨item, hwrite.trans (by rw [hnel])⟩

theorem avtabRead_avtabWrite_sample :
    (∃ bytes, avtabWrite 30 true {} sampleTable = some bytes ∧
      ∃ a', Reads (avtabRead 30) bytes a' ∧ (entries a').Perm (entries sampleTable)) ∧
    ∃ bytes, avtabWrite 19 true oldTypes auditTable = some bytes ∧
      ∃ a', Reads (avtabRead 19) bytes a' ∧ (entries a').Perm (entries auditExpanded) := by
  refine ⟨?_, ?_⟩
  · have hsome : (avtabWrite 30 true {} sampleTable).isSome = true := by decide +kernel
    obtain ⟨bytes, hbytes⟩ := Option.isSome_iff_exists.mp hsome
    have hcount : sampleTable.Counted := counted_insertNode (counted_insertNode (counted_avtabAlloc 2) _ _ _ _) _ _ _ _
    have hkinds : ∀ n ∈ sampleTable.nodes, ∀ m ∈ sampleTable.nodes, kindOf n.key.specified = kindOf m.key.specified →
        n = m := by
      decide +kernel
    obtain ⟨-, -, -, hread⟩ := avtabRead_avtabWrite hbytes rfl hcount (by decide +kernel) (by decide +kernel)
      (by decide +kernel)
      (fun h => absurd h (by decide)) (fun _ n hn m hm hc => hkinds n hn m hm hc.kind)
    exact ⟨bytes, hbytes, hread⟩
  · obtain ⟨item, hitem⟩ := auditTable_merged
    have hbytes : avtabWrite 19 true oldTypes auditTable = some (toBytes 4 1 ++ [item].flatten) := by
      rw [avtabWrite, hitem]; rfl
    have hcount : auditTable.Counted := counted_insertNode (counted_insertNode (counted_avtabAlloc 2) _ _ _ _) _ _ _ _
    have hlength : auditExpanded.nodes.length = 2 := by
      have hexpanded : auditExpanded.Counted :=
        counted_insertNode (counted_insertNode (counted_avtabAlloc _) _ _ _ _) _ _ _ _
      exact hexpanded.allocated
    have hflag : ∀ n ∈ auditTable.nodes, enabledBit n.key.specified = 0#16 := by decide +kernel
    obtain ⟨-, -, -, hread⟩ := avtabRead_avtabWrite (t := auditExpanded) hbytes writtenTable_auditTable hcount (by omega)
      (by rw [ne_eq, ← length_eq_zero_iff]; omega) (by decide +kernel) (fun _ => ⟨_, hflag⟩) (fun h => absurd h (by decide))
    exact ⟨_, hbytes, hread⟩

/-- Two access vectors of one key, as `avtab_insert_nonunique` makes them. -/
def twiceTable : Avtab :=
  ((avtabAlloc 2).insertNode avtabAlloc_two ⟨1#16, 2#16, 3#16, avtabAllowed⟩ { data := 5#32 } none).insertNode (by decide)
    ⟨1#16, 2#16, 3#16, avtabAllowed⟩ { data := 4#32 } none

/-- A table without rules and one with a rule twice are written and not read. -/
theorem avtabRead_rejects : ((avtabWrite 30 true {} {}).any fun bytes => (avtabRead 30 bytes).isNone) = true ∧
    ((avtabWrite 30 true {} twiceTable).any fun bytes => (avtabRead 30 bytes).isNone) = true := by
  decide +kernel

end SELinux.File
