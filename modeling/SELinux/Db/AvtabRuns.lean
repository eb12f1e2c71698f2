/-
  SELinux.Db.AvtabRuns — access vector tables over any sequence of insertions (`libsepol/src/avtab.c`:
  `avtab_insert`, `avtab_insert_nonunique`, `avtab_search_node`, `avtab_search_node_next`).

  That chains are in key order is part of `Avtab`. `avtabRuns_spec` says the rest: what `nel` counts (modulo 2³²),
  when a rule is refused, and which nodes a search meets that is continued from node to node.
-/
import SELinux.Db.Avtab

namespace SELinux.Db

/-! ## Calls -/

inductive AvtabCall
  | insert (k : AvtabKey) (d : AvtabDatum)
  | insertNonunique (k : AvtabKey) (d : AvtabDatum)

/-- The table after a call; one that fails leaves it as it was. -/
def AvtabCall.apply (h : Avtab) : AvtabCall → Avtab
  | .insert k d => (avtabInsert h k d).toOption.getD h
  | .insertNonunique k d => ((avtabInsertNonunique h k d none).map (·.1)).getD h

/-- A table of `avtab_alloc` after the calls. -/
def avtabRun (nrules : Nat) (calls : List AvtabCall) : Avtab := calls.foldl AvtabCall.apply (avtabAlloc nrules)

theorem AvtabCall.counted {h : Avtab} (hc : h.Counted) (call : AvtabCall) : (call.apply h).Counted := by
  cases call with
  | insert k d =>
    simp only [apply, avtabInsert]
    split
    · exact hc
    next h0 =>
      split
      · exact hc
      · exact counted_insertNode hc h0 k d none
  | insertNonunique k d =>
    simp only [apply, avtabInsertNonunique]
    split
    · exact hc
    next h0 =>
      exact counted_insertNode hc h0 k d none

theorem avtabRun_counted (nrules : Nat) (calls : List AvtabCall) : (avtabRun nrules calls).Counted := by
  suffices hrun : ∀ h : Avtab, h.Counted → (calls.foldl AvtabCall.apply h).Counted from hrun _ (counted_avtabAlloc nrules)
  induction calls with
  | nil => exact fun h hc => hc
  | cons call calls ih => exact fun h hc => ih _ (call.counted hc)

/-! ## From node to node -/

/-- `avtab_search_node_next`, from the chain behind the node: the chain from the next node on. -/
def avtabSearchNodeNext (node : AvtabNode) (specified : BitVec 16) (behind : List AvtabNode) : List AvtabNode :=
  Lib.Chain.search (hitKey { node.key with specified }) (stopKey { node.key with specified }) behind

/-- The nodes from one on, as long as there is a next. -/
def followNodes (specified : BitVec 16) : Nat → List AvtabNode → List AvtabNode
  | fuel + 1, node :: behind => node :: followNodes specified fuel (avtabSearchNodeNext node specified behind)
  | _, _ => []

/-- `for (node = avtab_search_node(h, k); node; node = avtab_search_node_next(node, k->specified))` -/
def avtabWalk (h : Avtab) (k : AvtabKey) : List AvtabNode :=
  if h.nslot = 0 then []
  else followNodes k.specified h.allocated (Lib.Chain.search (hitKey k) (stopKey k) (h.htable (h.bucket k)))

/-- A node of the key is as good as the key. -/
theorem searchNodeNext_eq {k : AvtabKey} {node : AvtabNode} (h : sameKey k node.key = true) (behind : List AvtabNode) :
    avtabSearchNodeNext node k.specified behind = Lib.Chain.search (hitKey k) (stopKey k) behind := by
  obtain ⟨hs, ht, hc⟩ := (sameKey_iff _ _).mp h
  have hkey : { node.key with specified := k.specified } = k := by
    show AvtabKey.mk _ _ _ _ = k
    rw [← hs, ← ht, ← hc]
  rw [avtabSearchNodeNext, hkey]

theorem length_search_le {α : Type} (hit stop : α → Bool) (l : List α) :
    (Lib.Chain.search hit stop l).length ≤ l.length := by
  induction l with
  | nil => exact Nat.le_refl _
  | cons a l ih =>
    unfold Lib.Chain.search
    split
    · exact Nat.le_refl _
    split
    · exact Nat.zero_le _
    · exact Nat.le_succ_of_le ih

theorem followNodes_eq (k : AvtabKey) {fuel : Nat} {l : List AvtabNode} (hl : l.length ≤ fuel) :
    followNodes k.specified fuel (Lib.Chain.search (hitKey k) (stopKey k) l) = Lib.Chain.visits (hitKey k)
    (stopKey k) l := by
  induction fuel generalizing l with
  | zero =>
    obtain rfl := List.length_eq_zero_iff.mp (Nat.le_zero.mp hl)
    rfl
  | succ fuel ih =>
    have hlength := length_search_le (hitKey k) (stopKey k) l
    rw [Lib.Chain.visits_eq_search]
    cases hsearch : Lib.Chain.search (hitKey k) (stopKey k) l with
    | nil => rfl
    | cons node behind =>
      have hhit := (Lib.Chain.search_cons hsearch).1
      simp only [hitKey, Bool.and_eq_true] at hhit
      rw [hsearch, List.length_cons] at hlength
      rw [followNodes, searchNodeNext_eq hhit.1, ih (by omega)]

theorem avtabWalk_eq {h : Avtab} (hc : h.Counted) (k : AvtabKey) : avtabWalk h k = avtabSearchNodes h k := by
  unfold avtabWalk avtabSearchNodes
  split
  · rfl
  next h0 =>
    refine followNodes_eq k ?_
    rw [← hc.allocated]
    exact (List.sublist_flatten_of_mem (List.mem_map.mpr ⟨_, List.mem_range.mpr (bucket_lt h0 k), rfl⟩)).length_le

/-! ## What holds of every run -/

/-- For every table that calls have made of an allocated one. -/
theorem avtabRuns_spec (nrules : Nat) (calls : List AvtabCall) :
    (∀ i, ((avtabRun nrules calls).htable i).Pairwise fun a b => a.key.rank ≤ b.key.rank) ∧
    (avtabRun nrules calls).nel = BitVec.ofNat 32 (avtabRun nrules calls).nodes.length ∧
    (∀ k d, avtabInsert (avtabRun nrules calls) k d = .error .eexist ↔
      (∃ n ∈ (avtabRun nrules calls).nodes, sameKey k n.key = true ∧ specifiedMeets k.specified n.key.specified = true) ∧
        k.specified &&& ~~~avtabEnabled &&& avtabXperms = 0#16) ∧
    ∀ k, (avtabWalk (avtabRun nrules calls) k).Nodup ∧ ∀ n, n ∈ avtabWalk (avtabRun nrules calls) k ↔
      n ∈ (avtabRun nrules calls).nodes ∧ sameKey k n.key = true ∧ specifiedMeets k.specified n.key.specified = true := by
  have hc := avtabRun_counted nrules calls
  generalize avtabRun nrules calls = h at hc
  have hhit : ∀ k n, hitKey k n = true ↔ sameKey k n.key = true ∧ specifiedMeets k.specified n.key.specified = true :=
    fun k n => Bool.and_eq_true _ _ ▸ Iff.rfl
  refine ⟨h.sorted, hc.nel, fun k d => ?_, fun k => ⟨?_, fun n => ?_⟩⟩
  · have hfound : (avtabSearchNode h k).isSome = true ↔ ∃ n ∈ h.nodes, hitKey k n = true := by
      rw [← not_iff_not, Bool.not_eq_true, Option.isSome_eq_false_iff, Option.isNone_iff_eq_none,
        avtabSearchNode_eq_none_iff]
      simp
    simp only [← hhit, ← hfound]
    unfold avtabInsert
    split
    next h0 =>
      simp [avtabSearchNode, h0]
    · rw [← beq_iff_eq (b := 0#16), ← Bool.and_eq_true]
      split
      · simp [*]
      · simp [*]
  · rw [avtabWalk_eq hc, avtabSearchNodes_eq_filter]
    exact (h.distinct _).of_map.filter _
  · rw [avtabWalk_eq hc, mem_avtabSearchNodes, hhit]

end SELinux.Db
