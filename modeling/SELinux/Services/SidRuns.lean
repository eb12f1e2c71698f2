/-
  SELinux.Services.SidRuns — runs of the SID table (`libsepol/src/sidtab.c`; `policydb.c`:
  `policydb_load_isids`).

  A table is initialised, gets the initial SIDs of a policy, and from then on hands out SIDs
  for contexts; entries are also inserted and removed by their SID. SIDs are `uint32_t`, and
  the initial ones are whatever the policy file has: nothing checks them. An insertion moves
  `next_sid` past the SID with a plain `+ 1`, which wraps at the last SID, and a search for a
  context returns 0 for "none", which is also an answer when 0 is in the table.

  `sidtab_runs`: while no inserted SID is 0 or the last one, all SIDs lie below `next_sid`, the
  number of entries is right, a SID that was returned leads back to its context, and the same
  context gets the same SID until its entry is removed, the context is inserted again by hand
  or the table is initialised again. `isidPolicy_wraps` is a policy file that is accepted and
  whose initial SID is the last one: the same context then gets two SIDs.

  The array of the table itself is always allocated.
-/
import SELinux.File.Policydb
import SELinux.Services.Sidtab

namespace SELinux.Services

open Db Lib List

variable {context : Context} {t : Sidtab} {sid : Nat} {oom : Bool}

def enoent : Int := 2

/-! ## Removing -/

/-- The chain without the entry of a SID; the walk ends at the first SID that is not smaller. -/
def unlink (sid : Nat) : List SidtabNode → Option (List SidtabNode)
  | [] => none
  | n :: l => if n.sid < sid then (unlink sid l).map (n :: ·) else if n.sid = sid then some l else none

/-- In a sorted chain the walk finds the entry when there is one, and takes out that one only. -/
theorem unlink_eq_some {l l' : List SidtabNode} (hl : l.Pairwise fun a b => a.sid < b.sid) (h : unlink sid l = some l') :
    l' = l.filter (fun n => n.sid != sid) ∧ ∃ c, ⟨sid, c⟩ ∈ l := by
  fun_induction unlink sid l generalizing l' with
  | case1 => cases h
  | case2 n l hlt ih =>
    obtain ⟨r, hr, rfl⟩ := Option.map_eq_some_iff.mp h
    obtain ⟨rfl, c, hc⟩ := ih (pairwise_cons.mp hl).2 hr
    have hne : (n.sid != sid) = true := bne_iff_ne.mpr (by omega)
    rw [filter_cons, if_pos hne]
    exact ⟨rfl, c, mem_cons_of_mem n hc⟩
  | case3 n l _ heq =>
    have hself : ¬ (n.sid != sid) = true := by simp [heq]
    have hothers : ∀ m ∈ l, (m.sid != sid) = true := by
      intro m hm
      have := (pairwise_cons.mp hl).1 m hm
      exact bne_iff_ne.mpr (by omega)
    cases h
    rw [filter_cons, if_neg hself, filter_eq_self.mpr hothers]
    exact ⟨rfl, n.context, by rw [← heq]; exact mem_cons_self⟩
  | case4 => cases h

def sidtabRemove (t : Sidtab) (sid : Nat) : Except Int Sidtab :=
  match h : unlink sid (t.htable (sidtabHash sid)) with
  | none => .error (-enoent)
  | some l => .ok {
      htable := fun i => if i = sidtabHash sid then l else t.htable i
      nel := t.nel - 1
      nextSid := t.nextSid
      shutdown := t.shutdown
      hashed := by
        intro i m hm
        split at hm
        next hi =>
          rw [(unlink_eq_some (t.sorted _) h).1, ← hi] at hm
          exact t.hashed i m (List.mem_of_mem_filter hm)
        · exact t.hashed i m hm
      sorted := by
        intro i
        split
        · rw [(unlink_eq_some (t.sorted _) h).1]
          exact (t.sorted _).filter _
        · exact t.sorted i }

variable {t' : Sidtab}

/-- What a removal does. -/
theorem sidtabRemove_ok {t : Sidtab} (h : sidtabRemove t sid = .ok t') :
    t'.nodes = t.nodes.filter (fun n => n.sid != sid) ∧ (∃ c, ⟨sid, c⟩ ∈ t.nodes) ∧ t'.nel = t.nel - 1 ∧
      t'.nextSid = t.nextSid := by
  unfold sidtabRemove at h
  split at h
  · cases h
  rename_i l hl
  cases h
  obtain ⟨rfl, c, hc⟩ := unlink_eq_some (t.sorted _) hl
  refine ⟨?_, ⟨c, Sidtab.mem_nodes.mpr hc⟩, rfl, rfl⟩
  unfold Sidtab.nodes
  rw [filter_flatMap]
  refine flatMap_congr ?_
  intro i _
  show (if i = sidtabHash sid then _ else _) = _
  by_cases hi : i = sidtabHash sid
  · rw [if_pos hi, hi]
  · rw [if_neg hi, filter_eq_self.mpr]
    intro n hn
    refine bne_iff_ne.mpr ?_
    rintro rfl
    exact hi (t.hashed i n hn).symm

/-! ## Initial SIDs -/

structure Isid where
  sid : BitVec 32
  context : Context

/-- The loop of `policydb_load_isids`, which ends at the first SID it cannot insert. -/
def insertIsids (oom : Nat → Bool) : List Isid → Sidtab → Except Int Unit × Sidtab
  | [], t => (.ok (), t)
  | c :: l, t =>
    if c.context.user = 0 then (.error (-1), t)
    else
      match sidtabInsert t c.sid.toNat c.context (oom c.sid.toNat) with
      | .ok t' => insertIsids oom l t'
      | .error _ => (.error (-1), t)

/-- `policydb_load_isids`: the table is initialised again first. -/
def policydbLoadIsids (isids : List Isid) (oom : Nat → Bool) : Except Int Unit × Sidtab := insertIsids oom isids .empty

/-! ## Runs -/

inductive SidtabOp
  | insert (sid : BitVec 32) (context : Context) (oom : Bool)
  | remove (sid : BitVec 32)
  | contextToSid (context : Context) (oom : Bool)
  | loadIsids (isids : List Isid) (oom : Nat → Bool)

def SidtabOp.apply (t : Sidtab) : SidtabOp → Sidtab
  | .insert sid context oom => (sidtabInsert t sid.toNat context oom).toOption.getD t
  | .remove sid => (sidtabRemove t sid.toNat).toOption.getD t
  | .contextToSid context oom => (sidtabContextToSid t context oom).2
  | .loadIsids isids oom => (policydbLoadIsids isids oom).2

def runSidtab (t : Sidtab) (ops : List SidtabOp) : Sidtab := ops.foldl SidtabOp.apply t

/-- A SID whose successor is a `uint32_t`, and that is not the answer for "none". -/
def Assignable (sid : BitVec 32) : Prop := sid.toNat ≠ 0 ∧ sid.toNat ≠ uintMax

def SidtabOp.Assigns : SidtabOp → Prop
  | .insert sid _ _ => Assignable sid
  | .loadIsids isids _ => ∀ c ∈ isids, Assignable c.sid
  | .remove _ => True
  | .contextToSid _ _ => True

/-- What every operation keeps. The chains are sorted in any table. -/
structure Sidtab.Consistent (t : Sidtab) : Prop extends t.Below where
  count : t.nel = t.nodes.length
  nonzero : ∀ n ∈ t.nodes, n.sid ≠ 0

theorem Sidtab.consistent_init : Sidtab.Consistent {} where
  sids := by simp [Sidtab.mem_nodes]
  positive := by decide
  narrow := by decide
  count := by decide
  nonzero := by simp [Sidtab.mem_nodes]

theorem Sidtab.nodes_nodup (t : Sidtab) : t.nodes.Nodup := t.nodes_pairwise.imp fun h heq => h (congrArg _ heq)

theorem Sidtab.perm_addNode {n : SidtabNode} {h : t.find n.sid = none} : (t.addNode n h).nodes.Perm (n :: t.nodes) := by
  have hnew : n ∉ t.nodes := fun hn => find_eq_none_iff.mp h n hn rfl
  refine (perm_ext_iff_of_nodup (nodes_nodup _) (nodup_cons.mpr ⟨hnew, t.nodes_nodup⟩)).mpr ?_
  intro m
  rw [mem_addNode, mem_cons]

theorem Sidtab.Consistent.insert {t : Sidtab} {sid : BitVec 32} (ht : t.Consistent) (hsid : Assignable sid)
    (h : sidtabInsert t sid.toNat context oom = .ok t') : t'.Consistent := by
  obtain ⟨hnone, rfl, hmem, hnext⟩ := sidtabInsert_ok h
  have hlast : sid.toNat ≠ 2 ^ 32 - 1 := hsid.2
  have hnarrow := ht.narrow
  have hbound : t.nextSid ≤ t'.nextSid ∧ sid.toNat < t'.nextSid ∧ t'.nextSid < 2 ^ 32 := by
    rw [hnext]
    split <;> omega
  refine ⟨⟨?_, by omega, hbound.2.2⟩, ?_, ?_⟩
  · intro n hn
    rcases (hmem n).mp hn with rfl | hn
    · exact hbound.2.1
    · have := ht.sids n hn
      omega
  · rw [sidtabInsert_of_find hnone] at h
    cases h
    rw [Sidtab.perm_addNode.length_eq, length_cons, ← ht.count]
    rfl
  · intro n hn
    rcases (hmem n).mp hn with rfl | hn
    · exact hsid.1
    · exact ht.nonzero n hn

theorem Sidtab.Consistent.remove {t : Sidtab} (ht : t.Consistent) (h : sidtabRemove t sid = .ok t') : t'.Consistent := by
  obtain ⟨hnodes, ⟨c, hc⟩, hnel, hnext⟩ := sidtabRemove_ok h
  have hsub : ∀ n ∈ t'.nodes, n ∈ t.nodes := by
    intro n hn
    rw [hnodes] at hn
    exact mem_of_mem_filter hn
  refine ⟨⟨?_, by rw [hnext]; exact ht.positive, by rw [hnext]; exact ht.narrow⟩, ?_, fun n hn => ht.nonzero n (hsub n hn)⟩
  · intro n hn
    rw [hnext]
    exact ht.sids n (hsub n hn)
  · -- the entry that went and those that stayed are all there were
    have hperm : t.nodes.Perm (⟨sid, c⟩ :: t'.nodes) := by
      have hgone : (⟨sid, c⟩ : SidtabNode) ∉ t'.nodes := by
        rw [hnodes]
        simp
      refine (perm_ext_iff_of_nodup t.nodes_nodup (nodup_cons.mpr ⟨hgone, t'.nodes_nodup⟩)).mpr ?_
      intro m
      rw [hnodes, mem_cons, mem_filter]
      constructor
      · intro hm
        by_cases hsid : m.sid = sid
        · exact Or.inl (Sidtab.sid_inj hm hc hsid)
        · exact Or.inr ⟨hm, bne_iff_ne.mpr hsid⟩
      · rintro (rfl | hm)
        · exact hc
        · exact hm.1
    have hlength := hperm.length_eq
    rw [length_cons] at hlength
    rw [hnel, ht.count]
    omega

theorem Sidtab.Consistent.contextToSid {t : Sidtab} {r : Except Int Nat} (ht : t.Consistent)
    (h : sidtabContextToSid t context oom = (r, t')) : t'.Consistent := by
  unfold sidtabContextToSid at h
  split at h
  · cases h
    exact ht
  split at h
  · cases h
    exact ht
  rename_i hfree
  split at h
  next t'' hins =>
    cases h
    have hpos := ht.positive
    have hnarrow := ht.narrow
    have hmax : t.nextSid ≠ 2 ^ 32 - 1 := fun heq => hfree (Or.inl heq)
    -- the table the new SID is inserted in has only `next_sid` changed
    have hmoved : Sidtab.Consistent { t with nextSid := t.nextSid + 1 } := by
      refine ⟨⟨?_, Nat.succ_pos _, ?_⟩, ht.count, ht.nonzero⟩
      · intro n hn
        exact Nat.lt_succ_of_lt (ht.sids n hn)
      · show t.nextSid + 1 < 2 ^ 32
        omega
    have hsid : (BitVec.ofNat 32 t.nextSid).toNat = t.nextSid := by rw [BitVec.toNat_ofNat, Nat.mod_eq_of_lt hnarrow]
    have hassignable : Assignable (BitVec.ofNat 32 t.nextSid) := by
      unfold Assignable
      rw [hsid]
      exact ⟨by omega, hmax⟩
    exact hmoved.insert hassignable (by rw [hsid]; exact hins)
  · cases h
    exact ht

theorem Sidtab.Consistent.insertIsids {oom : Nat → Bool} {isids : List Isid} (ht : t.Consistent)
    (h : ∀ c ∈ isids, Assignable c.sid) : (insertIsids oom isids t).2.Consistent := by
  fun_induction Services.insertIsids oom isids t with
  | case3 c l t _ t' hins ih =>
    obtain ⟨hc, hl⟩ := forall_mem_cons.mp h
    exact ih (ht.insert hc hins) hl
  | _ => exact ht

theorem Sidtab.Consistent.apply {op : SidtabOp} (ht : t.Consistent) (h : op.Assigns) : (op.apply t).Consistent := by
  cases op with
  | insert sid context oom =>
    show ((sidtabInsert t sid.toNat context oom).toOption.getD t).Consistent
    cases hins : sidtabInsert t sid.toNat context oom with
    | error e => exact ht
    | ok t' => exact ht.insert h hins
  | remove sid =>
    show ((sidtabRemove t sid.toNat).toOption.getD t).Consistent
    cases hrem : sidtabRemove t sid.toNat with
    | error e => exact ht
    | ok t' => exact ht.remove hrem
  | contextToSid context oom => exact ht.contextToSid rfl
  | loadIsids isids oom => exact Sidtab.consistent_init.insertIsids h

theorem Sidtab.Consistent.run {ops : List SidtabOp} (ht : t.Consistent) (h : ∀ op ∈ ops, op.Assigns) :
    (runSidtab t ops).Consistent := by
  induction ops generalizing t with
  | nil => exact ht
  | cons op ops ih =>
    obtain ⟨hop, hops⟩ := forall_mem_cons.mp h
    exact ih (ht.apply hop) hops

/-! ## One context, one SID -/

/-- The first entry of the context, in the order of the search, is that of `sid`. -/
def Sidtab.Answers (t : Sidtab) (context : Context) (sid : Nat) : Prop :=
  t.nodes.find? (fun n => contextCmp n.context context) = some ⟨sid, context⟩

theorem Sidtab.Answers.search (h : t.Answers context sid) : sidtabSearch t sid = some context := by
  have hmem : (⟨sid, context⟩ : SidtabNode) ∈ t.nodes := mem_of_find?_eq_some h
  rw [sidtabSearch, Sidtab.find_eq_some_iff.mpr hmem]
  rfl

theorem Sidtab.Answers.contextToSid (h : t.Answers context sid) (hsid : sid ≠ 0)
    (oom : Bool) : sidtabContextToSid t context oom = (.ok sid, t) := by
  have hsearch : sidtabSearchContext t context = sid := by
    rw [sidtabSearchContext, h]
    rfl
  rw [sidtabContextToSid, hsearch, if_pos hsid]

/-- An entry of another context does not change which entry is found first. -/
theorem Sidtab.Answers.addNode (h : t.Answers context sid) {n : SidtabNode}
    (hnone : t.find n.sid = none) (hn : n.context ≠ context) : (t.addNode n hnone).Answers context sid := by
  have hmiss : ¬ contextCmp n.context context = true := fun hc => hn (contextCmp_iff.mp hc)
  have hchain : ∀ l, (Chain.insertBefore (atOrPast n.sid) n l).filter (fun n => contextCmp n.context context) =
      l.filter fun n => contextCmp n.context context := by
    intro l
    induction l with
    | nil => rw [Chain.insertBefore, filter_cons, if_neg hmiss]
    | cons m l ih =>
      rw [Chain.insertBefore]
      split
      · rw [filter_cons, if_neg hmiss]
      · rw [filter_cons, filter_cons, ih]
  unfold Answers at *
  rw [← List.head?_filter] at *
  rw [← h]
  refine congrArg List.head? ?_
  unfold nodes
  rw [filter_flatMap, filter_flatMap]
  refine flatMap_congr ?_
  intro i _
  show (if i = sidtabHash n.sid then _ else _ : List SidtabNode).filter _ = _
  by_cases hi : i = sidtabHash n.sid
  · rw [if_pos hi]
    exact hchain _
  · rw [if_neg hi]

/-- What is returned is what the table answers from then on. -/
theorem sidtabContextToSid_answers {t : Sidtab} (ht : t.Consistent)
    (h : sidtabContextToSid t context oom = (.ok sid, t')) : t'.Answers context sid ∧ sid ≠ 0 := by
  have hcons := ht.contextToSid h
  have hin : (⟨sid, context⟩ : SidtabNode) ∈ t'.nodes := by
    rcases sidtabContextToSid_ok ht.toBelow h with ⟨hin, rfl⟩ | ⟨-, -, -, hmem⟩
    · exact hin
    · exact (hmem _).mpr (Or.inl rfl)
  refine ⟨?_, hcons.nonzero _ hin⟩
  unfold Sidtab.Answers
  cases hf : t'.nodes.find? fun n => contextCmp n.context context with
  | none => exact absurd (contextCmp_iff.mpr rfl) (List.find?_eq_none.mp hf _ hin)
  | some n =>
    have hn := contextCmp_iff.mp (@List.find?_some _ (fun n : SidtabNode => contextCmp n.context context) _ _ hf)
    unfold sidtabContextToSid at h
    split at h
    · -- an entry was there, and it is the first one
      cases h
      rw [sidtabSearchContext, hf, ← hn]
      rfl
    next hnone =>
      split at h
      · cases h
      split at h
      · -- no entry was there, so that the new one is the only one
        cases h
        obtain ⟨-, -, hmem, -⟩ := sidtabInsert_ok ‹_›
        rcases (hmem n).mp (mem_of_find?_eq_some hf) with rfl | hold
        · rfl
        · have hsome : (t.nodes.find? fun n => contextCmp n.context context).isSome = true :=
            List.find?_isSome.mpr ⟨n, hold, contextCmp_iff.mpr hn⟩
          obtain ⟨m, hm⟩ := Option.isSome_iff_exists.mp hsome
          refine absurd ?_ hnone
          rw [sidtabSearchContext, hm]
          exact ht.nonzero m (mem_of_find?_eq_some hm)
      · cases h

/-- The operation leaves the entry of a context alone and adds no other one for it by hand. -/
def SidtabOp.Leaves (context : Context) (sid : Nat) : SidtabOp → Prop
  | .insert _ context' _ => context' ≠ context
  | .remove sid' => sid'.toNat ≠ sid
  | .contextToSid _ _ => True
  | .loadIsids _ _ => False

theorem Sidtab.Answers.apply (h : t.Answers context sid) (hsid : sid ≠ 0) {op : SidtabOp}
    (hop : op.Leaves context sid) : (op.apply t).Answers context sid := by
  cases op with
  | insert sid' context' oom =>
    show ((sidtabInsert t sid'.toNat context' oom).toOption.getD t).Answers context sid
    cases hins : sidtabInsert t sid'.toNat context' oom with
    | error e => exact h
    | ok t' =>
      obtain ⟨hnone, rfl, -⟩ := sidtabInsert_ok hins
      rw [sidtabInsert_of_find hnone] at hins
      cases hins
      exact h.addNode hnone hop
  | remove sid' =>
    show ((sidtabRemove t sid'.toNat).toOption.getD t).Answers context sid
    cases hrem : sidtabRemove t sid'.toNat with
    | error e => exact h
    | ok t' =>
      obtain ⟨hnodes, -⟩ := sidtabRemove_ok hrem
      have hstays : (sid != sid'.toNat) = true := bne_iff_ne.mpr (Ne.symm hop)
      unfold Sidtab.Answers at *
      show t'.nodes.find? _ = _
      rw [← List.head?_filter] at h ⊢
      obtain ⟨rest, hrest⟩ := List.head?_eq_some_iff.mp h
      rw [hnodes, filter_filter, filter_congr fun n _ => Bool.and_comm _ _, ← filter_filter, hrest,
        filter_cons, if_pos hstays]
      rfl
  | contextToSid context' oom =>
    by_cases heq : context' = context
    · subst heq
      show (sidtabContextToSid t context' oom).2.Answers context' sid
      rw [h.contextToSid hsid]
      exact h
    · show (sidtabContextToSid t context' oom).2.Answers context sid
      unfold sidtabContextToSid
      split
      · exact h
      split
      · exact h
      split
      next t' hins =>
        obtain ⟨hnone, rfl, -⟩ := sidtabInsert_ok hins
        rw [sidtabInsert_of_find hnone] at hins
        cases hins
        have hmoved : Sidtab.Answers { t with nextSid := t.nextSid + 1 } context sid := h
        exact hmoved.addNode hnone heq
      · exact h
  | loadIsids isids oom => exact hop.elim

theorem Sidtab.Answers.run (h : t.Answers context sid) (hsid : sid ≠ 0)
    {ops : List SidtabOp} (hops : ∀ op ∈ ops, op.Leaves context sid) : (runSidtab t ops).Answers context sid := by
  induction ops generalizing t with
  | nil => exact h
  | cons op ops ih =>
    obtain ⟨hop, hops⟩ := forall_mem_cons.mp hops
    exact ih (h.apply hsid hop) hops

/-- Runs in which no SID is inserted that is 0 or the last one. -/
theorem sidtab_runs {ops : List SidtabOp} (h : ∀ op ∈ ops, op.Assigns) :
    (∀ n ∈ (runSidtab {} ops).nodes, n.sid < (runSidtab {} ops).nextSid) ∧
      (∀ i, ((runSidtab {} ops).htable i).Pairwise fun a b => a.sid < b.sid) ∧
      (runSidtab {} ops).nel = (runSidtab {} ops).nodes.length ∧
      ∀ context oom sid t, sidtabContextToSid (runSidtab {} ops) context oom = (.ok sid, t) →
        sidtabSearch t sid = some context ∧
          ∀ later, (∀ op ∈ later, op.Leaves context sid) →
            sidtabSearch (runSidtab t later) sid = some context ∧
              ∀ oom', sidtabContextToSid (runSidtab t later) context oom' = (.ok sid, runSidtab t later) := by
  have hcons := Sidtab.consistent_init.run h
  refine ⟨hcons.sids, (runSidtab {} ops).sorted, hcons.count, ?_⟩
  intro context oom sid t hto
  obtain ⟨hanswers, hsid⟩ := sidtabContextToSid_answers hcons hto
  refine ⟨hanswers.search, ?_⟩
  intro later hlater
  have hlast := hanswers.run hsid hlater
  exact ⟨hlast.search, hlast.contextToSid hsid⟩

def contextOf (user role type : Nat) : Context := { user, role, type }

/-- A table with three initial SIDs, of which one is removed: a new context gets SID 4, and again
    after another one has come. -/
theorem sidtab_runs_three :
    sidtabContextToSid
        (runSidtab {} [.loadIsids [⟨1#32, contextOf 1 1 1⟩, ⟨2#32, contextOf 1 1 2⟩, ⟨3#32, contextOf 1 1 3⟩] fun _ => false,
          .remove 2#32, .contextToSid (contextOf 1 1 4) false, .contextToSid (contextOf 1 1 5) false])
        (contextOf 1 1 4) false =
      (.ok 4, runSidtab {} [.loadIsids [⟨1#32, contextOf 1 1 1⟩, ⟨2#32, contextOf 1 1 2⟩, ⟨3#32, contextOf 1 1 3⟩]
        fun _ => false,
          .remove 2#32, .contextToSid (contextOf 1 1 4) false, .contextToSid (contextOf 1 1 5) false]) := by
  have hassigns : ∀ op ∈
    ([.loadIsids [⟨1#32, contextOf 1 1 1⟩, ⟨2#32, contextOf 1 1 2⟩, ⟨3#32, contextOf 1 1 3⟩] fun _ => false,
      .remove 2#32] : List SidtabOp), op.Assigns := by
    simp [SidtabOp.Assigns, Assignable, uintMax]
  have hfirst : (sidtabContextToSid (runSidtab {} [.loadIsids [⟨1#32, contextOf 1 1 1⟩, ⟨2#32, contextOf 1 1 2⟩,
      ⟨3#32, contextOf 1 1 3⟩] fun _ => false, .remove 2#32]) (contextOf 1 1 4) false).1.toOption = some 4 := by
    decide +kernel
  obtain ⟨-, -, -, hsame⟩ := sidtab_runs hassigns
  rcases hto : sidtabContextToSid (runSidtab {} [.loadIsids [⟨1#32, contextOf 1 1 1⟩, ⟨2#32, contextOf 1 1 2⟩,
      ⟨3#32, contextOf 1 1 3⟩] fun _ => false, .remove 2#32]) (contextOf 1 1 4) false with ⟨r, t⟩
  rw [hto] at hfirst
  cases r with
  | error e => cases hfirst
  | ok sid =>
    obtain rfl : sid = 4 := Option.some.inj hfirst
    have hlater := (hsame _ _ _ _ hto).2 [.contextToSid (contextOf 1 1 5) false] (by simp [SidtabOp.Leaves])
    have ht : t = (sidtabContextToSid (runSidtab {} [.loadIsids [⟨1#32, contextOf 1 1 1⟩, ⟨2#32, contextOf 1 1 2⟩,
      ⟨3#32, contextOf 1 1 3⟩] fun _ => false, .remove 2#32]) (contextOf 1 1 4) false).2 := by rw [hto]
    rw [ht] at hlater
    exact hlater.2 false

/-! ## An initial SID from a file -/

instance (l : List EbitmapNode) : Decidable (NodesWF l) :=
  decidable_of_iff ((∀ n ∈ l, mapsize ∣ n.startbit) ∧ (l.Pairwise fun a b => a.startbit < b.startbit) ∧
    (∀ n ∈ l, n.map ≠ 0#64) ∧
      ∀ n ∈ l, n.startbit + mapsize < 2 ^ 32)
    ⟨fun ⟨h1, h2, h3, h4⟩ => ⟨h1, h2, h3, h4⟩, fun h => ⟨h.aligned, h.sorted, h.nonempty, h.narrow⟩⟩

instance (e : Ebitmap) : Decidable e.WF :=
  decidable_of_iff (NodesWF e.node ∧ e.highbit = nodesEnd e.node) ⟨fun ⟨h1, h2⟩ => ⟨h1, h2⟩, fun h => ⟨h.toNodesWF, h.high⟩⟩

def levelOfFile (l : File.MlsLevel) : Option MlsLevel :=
  if h : l.cat.1.WF then some { sens := l.sens.toNat, cat := ⟨l.cat.1, h⟩ } else none

def contextOfFile (c : File.Context) : Option Context := do
  let low ← levelOfFile c.range.low
  let high ← levelOfFile c.range.high
  return { user := c.user.toNat, role := c.role.toNat, type := c.type.toNat, range := { low, high } }

/-- The entries of `ocontexts[OCON_ISID]`, where their bitmaps are well-formed. -/
def isidsOf (p : File.Policydb) : Option (List Isid) :=
  (p.ocontexts.headD []).mapM fun c =>
    match c.key with
    | .sid sid => (contextOfFile c.context0).map (Isid.mk sid)
    | _ => none

/-- A kernel policy with one type and one user whose initial SID is the last `uint32_t`. -/
def isidPolicy : Wire.Bytes :=
  File.putWords [0xf97cff8c, 8] ++ File.policydbString ++ File.putWords [20, 0, 8, 7] ++
    File.putWords [0, 0, 0, 0, 1, 0] ++ File.putWords [1, 1, 1, 1, 1] ++ [0x74#8] ++
    File.putWords [1, 1, 1, 1] ++ [0x75#8] ++ File.putWords [64, 0, 0, 1, 0, 64, 0, 0, 0, 64, 0, 0] ++
    File.putWords (List.replicate 6 0) ++
    File.putWords [1] ++ File.putRule 1 1 1 0x01 1 ++ File.putWords [0, 0, 0] ++
    File.putWords [1, 0xffffffff, 1, 1, 1, 1, 0, 64, 0, 0] ++ File.putWords (List.replicate 8 0) ++ File.putWords [64, 0, 0]

/-- The policy is accepted; with its initial SID loaded `next_sid` is 0, below the SID in the
    table, and a context is given the SID 0 and then the SID 1. -/
theorem isidPolicy_wraps :
    (∃ p s' w isids, (File.policydbRead File.nothingPast).Gives isidPolicy p s' w ∧ isidsOf p = some isids ∧
        isids.map (fun c => (c.sid, c.context)) = [(0xffffffff#32, contextOf 1 1 1)]) ∧
      (runSidtab {} [.loadIsids [⟨0xffffffff#32, contextOf 1 1 1⟩] fun _ => false]).nextSid = 0 ∧
      (runSidtab {} [.loadIsids [⟨0xffffffff#32, contextOf 1 1 1⟩] fun _ => false]).nodes.map (fun n => n.sid) =
        [2 ^ 32 - 1] ∧
      (sidtabContextToSid (runSidtab {} [.loadIsids [⟨0xffffffff#32, contextOf 1 1 1⟩] fun _ => false])
        (contextOf 1 1 2) false).1.toOption = some 0 ∧
      (sidtabContextToSid (runSidtab {} [.loadIsids [⟨0xffffffff#32, contextOf 1 1 1⟩] fun _ => false,
        .contextToSid (contextOf 1 1 2) false]) (contextOf 1 1 2) false).1.toOption = some 1 := by
  refine ⟨?_, by decide +kernel, by decide +kernel, by decide +kernel, by decide +kernel⟩
  have hread : ((File.policydbRead File.nothingPast isidPolicy).run.map fun e => (isidsOf e.1.1).map fun l =>
      l.map fun c => (c.sid, c.context)) = some (some [(0xffffffff#32, contextOf 1 1 1)]) := by decide +kernel
  obtain ⟨⟨⟨p, s'⟩, w⟩, hp, heq⟩ := Option.map_eq_some_iff.mp hread
  obtain ⟨isids, hisids, hmap⟩ := Option.map_eq_some_iff.mp heq
  exact ⟨p, s', w, isids, hp, hisids, hmap⟩

end SELinux.Services
