/-
  SELinux.Services.Sidtab — the SID table (`libsepol/src/sidtab.c`,
  `include/sepol/policydb/sidtab.h`).

  A table of 128 chains, each kept in the order of its SIDs. A search for a SID that is not
  there falls back to the unlabeled SID, so `Sidtab.find` is the search without the
  fallback. A new SID is always `next_sid`; the copy of a table computes `next_sid` again
  from the SIDs it holds, which is why `cloneSids_nextSid` asks for the newest one.

  A failed allocation is an argument, given by the SID it is for.
-/
import SELinux.Lib.Chain
import SELinux.Lib.Run
import SELinux.Db.Context

namespace SELinux.Services

open Db Lib List

def enomem : Int := 12
def eexist : Int := 17
def einval : Int := 22

def sidtabSize : Nat := 128

def sidtabHash (sid : Nat) : Nat := sid % sidtabSize

def uintMax : Nat := 2 ^ 32 - 1

def secinitsidUnlabeled : Nat := 3

structure SidtabNode where
  sid : Nat
  context : Context
  deriving DecidableEq

/-- `htable i` is chain `i`; its SIDs hash to `i` and increase. -/
structure Sidtab where
  htable : Nat → List SidtabNode := fun _ => []
  nel : Nat := 0
  nextSid : Nat := 1
  shutdown : Bool := false
  hashed : ∀ i, ∀ n ∈ htable i, sidtabHash n.sid = i := by simp
  sorted : ∀ i, (htable i).Pairwise fun a b => a.sid < b.sid := by simp

variable {t : Sidtab} {context : Context} {oom : Nat → Bool} {sid : Nat}

/-- `sepol_sidtab_init` -/
abbrev Sidtab.empty : Sidtab := {}

/-! ## Searching -/

def isSid (sid : Nat) (n : SidtabNode) : Bool := n.sid == sid

/-- `sid > cur->sid` fails. -/
def atOrPast (sid : Nat) (n : SidtabNode) : Bool := decide (sid ≤ n.sid)

/-- The entry of a SID, without the fallback. -/
def Sidtab.find (t : Sidtab) (sid : Nat) : Option Context :=
  (Chain.search (isSid sid) (atOrPast sid) (t.htable (sidtabHash sid))).head?.map fun n => n.context

def sidtabSearch (t : Sidtab) (sid : Nat) : Option Context := (t.find sid).or (t.find secinitsidUnlabeled)

/-- All entries, in the order of `sepol_sidtab_map`. -/
def Sidtab.nodes (t : Sidtab) : List SidtabNode := (List.range sidtabSize).flatMap t.htable

variable {n : SidtabNode}

theorem Sidtab.mem_nodes : n ∈ t.nodes ↔ n ∈ t.htable (sidtabHash n.sid) := by
  unfold Sidtab.nodes
  rw [mem_flatMap]
  constructor
  · intro h
    obtain ⟨i, -, hn⟩ := h
    rw [t.hashed i n hn]
    exact hn
  · intro hn
    exact ⟨_, mem_range.mpr (Nat.mod_lt _ (by decide)), hn⟩

theorem chain_ordered {l : List SidtabNode} (h : l.Pairwise fun a b => a.sid < b.sid) (sid : Nat) :
    Chain.Ordered (isSid sid) (atOrPast sid) l := by
  refine h.imp fun {a b} hab hstop => ?_
  have hle : sid ≤ a.sid := of_decide_eq_true hstop
  exact beq_eq_false_iff_ne.mpr (by omega)

theorem Sidtab.find_eq_none_iff : t.find sid = none ↔ ∀ n ∈ t.nodes, n.sid ≠ sid := by
  unfold Sidtab.find
  rw [Option.map_eq_none_iff, List.head?_eq_none_iff, Chain.search_eq_nil_iff (chain_ordered (t.sorted _) sid)]
  constructor
  · intro h n hn heq
    subst heq
    exact absurd (h n (mem_nodes.mp hn)) (by simp [isSid])
  · intro h n hn
    refine beq_eq_false_iff_ne.mpr (h n ?_)
    rw [mem_nodes, t.hashed _ n hn]
    exact hn

variable {m : SidtabNode}

/-- The SIDs of a table are different. -/
theorem Sidtab.sid_inj (hm : m ∈ t.nodes) (hn : n ∈ t.nodes) (h : m.sid = n.sid) : m = n := by
  rw [mem_nodes] at hm hn
  rw [h] at hm
  have hnodup : ((t.htable (sidtabHash n.sid)).map fun n => n.sid).Nodup :=
    pairwise_map.mpr ((t.sorted _).imp fun hlt => Nat.ne_of_lt hlt)
  exact inj_on_of_nodup_map hnodup hm hn h

theorem Sidtab.find_eq_some_iff {c : Context} : t.find sid = some c ↔ ⟨sid, c⟩ ∈ t.nodes := by
  have hmem : ∀ c, t.find sid = some c → ⟨sid, c⟩ ∈ t.nodes := by
    intro c h
    obtain ⟨n, hn, rfl⟩ := Option.map_eq_some_iff.mp h
    obtain ⟨rest, hrest⟩ := List.head?_eq_some_iff.mp hn
    obtain ⟨hsid, hn⟩ := Chain.search_cons hrest
    obtain rfl : n.sid = sid := beq_iff_eq.mp hsid
    exact mem_nodes.mpr hn
  refine ⟨hmem c, ?_⟩
  intro h
  cases hf : t.find sid with
  | none => exact absurd rfl (find_eq_none_iff.mp hf _ h)
  | some d =>
    have heq := sid_inj h (hmem d hf) rfl
    cases heq
    rfl

/-! ## Inserting -/

/-- `sepol_sidtab_insert` past its checks: the entry at its place, and `next_sid` past it. -/
def Sidtab.addNode (t : Sidtab) (n : SidtabNode) (h : t.find n.sid = none) : Sidtab where
  htable i := if i = sidtabHash n.sid then Chain.insertBefore (atOrPast n.sid) n (t.htable i) else t.htable i
  nel := t.nel + 1
  nextSid := if t.nextSid ≤ n.sid then (n.sid + 1) % 2 ^ 32 else t.nextSid
  shutdown := t.shutdown
  hashed := by
    intro i m hm
    split at hm
    next hi =>
      rcases Chain.mem_insertBefore.mp hm with rfl | hm
      · exact hi.symm
      · exact t.hashed i m hm
    · exact t.hashed i m hm
  sorted := by
    intro i
    split
    next hi =>
      have hne : ∀ m ∈ t.htable i, m.sid ≠ n.sid := by
        intro m hm
        refine Sidtab.find_eq_none_iff.mp h m (Sidtab.mem_nodes.mpr ?_)
        rw [t.hashed i m hm]
        exact hm
      refine Chain.pairwise_insertBefore (R := fun a b : SidtabNode => a.sid < b.sid) Nat.lt_trans (t.sorted i)
        (fun m _ hs => ?_)
        fun m hm hs => ?_
      · exact Nat.lt_of_not_le (of_decide_eq_false hs)
      · exact Nat.lt_of_le_of_ne (of_decide_eq_true hs) (hne m hm).symm
    · exact t.sorted i

def sidtabInsert (t : Sidtab) (sid : Nat) (context : Context) (oom : Bool) : Except Int Sidtab :=
  match h : t.find sid with
  | some _ => .error (-eexist)
  | none => if oom then .error (-enomem) else .ok (t.addNode ⟨sid, context⟩ h)

theorem Sidtab.mem_addNode {h : t.find n.sid = none} : m ∈ (t.addNode n h).nodes ↔ m = n ∨ m ∈ t.nodes := by
  rw [mem_nodes, mem_nodes]
  show m ∈ (if sidtabHash m.sid = sidtabHash n.sid then _ else _) ↔ _
  by_cases hi : sidtabHash m.sid = sidtabHash n.sid
  · rw [if_pos hi, Chain.mem_insertBefore]
  · rw [if_neg hi]
    refine (or_iff_right fun heq => hi ?_).symm
    rw [heq]

variable {t' : Sidtab}

/-- What an insertion does. -/
theorem sidtabInsert_ok {t : Sidtab} {oom : Bool} (h : sidtabInsert t sid context oom = .ok t') :
    t.find sid = none ∧ oom = false ∧ (∀ m, m ∈ t'.nodes ↔ m = ⟨sid, context⟩ ∨ m ∈ t.nodes) ∧
      t'.nextSid = (if t.nextSid ≤ sid then (sid + 1) % 2 ^ 32 else t.nextSid) := by
  unfold sidtabInsert at h
  split at h
  · cases h
  next hnone =>
    split_ifs at h with hoom
    cases h
    exact ⟨hnone, by simpa using hoom, fun m => Sidtab.mem_addNode, rfl⟩

theorem sidtabInsert_of_find (h : t.find sid = none) (context : Context) (oom : Bool) :
    sidtabInsert t sid context oom = if oom then .error (-enomem) else .ok (t.addNode ⟨sid, context⟩ h) := by
  unfold sidtabInsert
  split
  next c hc =>
    rw [h] at hc
    cases hc
  · rfl

/-- Every SID of the table was given out before `next_sid`. -/
structure Sidtab.Below (t : Sidtab) : Prop where
  sids : ∀ n ∈ t.nodes, n.sid < t.nextSid
  positive : 0 < t.nextSid
  narrow : t.nextSid < 2 ^ 32

/-! ## Copying -/

/-- `sepol_sidtab_map` with `clone_sid`. -/
def cloneSids (t : Sidtab) (oom : Nat → Bool) : Except Int Sidtab :=
  t.nodes.foldlM (fun s n => sidtabInsert s n.sid n.context (oom n.sid)) .empty

variable {r : Sidtab}

/-- Insertions one after the other: the entries, and how far `next_sid` goes. -/
theorem foldlM_insert {l : List SidtabNode} {s : Sidtab} {bound : Nat} (hbound : bound < 2 ^ 32)
    (hl : ∀ n ∈ l, n.sid < bound)
    (hs : s.nextSid ≤ bound) (h : l.foldlM (fun s n => sidtabInsert s n.sid n.context (oom n.sid)) s = .ok r) :
    (∀ m, m ∈ r.nodes ↔ m ∈ s.nodes ∨ m ∈ l) ∧ (∀ n ∈ l, n.sid < r.nextSid) ∧ s.nextSid ≤ r.nextSid ∧ r.nextSid ≤ bound := by
  induction l generalizing s with
  | nil => cases h; simp [hs]
  | cons n l ih =>
    obtain ⟨t, ht, hr⟩ := Run.foldlM_ok_cons h
    obtain ⟨-, -, hmem, hnext⟩ := sidtabInsert_ok ht
    have hn := hl n mem_cons_self
    have hle : s.nextSid ≤ t.nextSid ∧ n.sid < t.nextSid ∧ t.nextSid ≤ bound := by
      rw [hnext]
      split <;> omega
    obtain ⟨ihmem, ihlt, ihle, ihbound⟩ := ih (fun m hm => hl m (mem_cons_of_mem _ hm)) hle.2.2 hr
    refine ⟨?_, ?_, by omega, ihbound⟩
    · intro m
      rw [ihmem, hmem, mem_cons, or_comm (a := m = _), or_assoc]
    · intro m hm
      rcases mem_cons.mp hm with rfl | hm
      · omega
      · exact ihlt m hm

theorem cloneSids_ok {t : Sidtab} (ht : t.Below) (h : cloneSids t oom = .ok r) :
    (∀ m, m ∈ r.nodes ↔ m ∈ t.nodes) ∧ r.Below ∧ r.nextSid ≤ t.nextSid := by
  obtain ⟨hmem, hlt, hge, hle⟩ := foldlM_insert (s := {}) ht.narrow ht.sids ht.positive h
  have hnodes : ∀ m, m ∈ r.nodes ↔ m ∈ t.nodes := by
    intro m
    rw [hmem]
    simp [Sidtab.mem_nodes]
  have hpos : 0 < r.nextSid := Nat.lt_of_lt_of_le Nat.one_pos hge
  exact ⟨hnodes, ⟨fun n hn => hlt n ((hnodes n).mp hn), hpos, Nat.lt_of_le_of_lt hle ht.narrow⟩, hle⟩

/-- The copy has the same `next_sid` when the newest SID is still there. -/
theorem cloneSids_nextSid {t : Sidtab} (ht : t.Below) (h : cloneSids t oom = .ok r)
    (hlast : t.nextSid = 1 ∨ (t.find (t.nextSid - 1)).isSome = true) : r.nextSid = t.nextSid := by
  obtain ⟨hnodes, hbelow, hle⟩ := cloneSids_ok ht h
  rcases hlast with h1 | hlast
  · have := hbelow.positive
    omega
  · obtain ⟨c, hc⟩ := Option.isSome_iff_exists.mp hlast
    have hlt : t.nextSid - 1 < r.nextSid := hbelow.sids _ ((hnodes _).mpr (Sidtab.find_eq_some_iff.mp hc))
    omega

theorem Sidtab.nodes_pairwise (t : Sidtab) : t.nodes.Pairwise fun a b => a.sid ≠ b.sid := by
  refine pairwise_flatMap.mpr ⟨fun i _ => (t.sorted i).imp fun h => Nat.ne_of_lt h, ?_⟩
  refine (nodup_range (n := sidtabSize)).imp fun {i j} hij a ha b hb heq => hij ?_
  rw [← t.hashed i a ha, ← t.hashed j b hb, heq]

/-- A copy fails only for memory. -/
theorem cloneSids_isOk_iff :
    (∃ r, cloneSids t oom = .ok r) ↔ ∀ n ∈ t.nodes, oom n.sid = false := by
  suffices ∀ (l : List SidtabNode) (s : Sidtab), l.Pairwise (fun a b => a.sid ≠ b.sid) →
      (∀ n ∈ l, s.find n.sid = none) →
      ((∃ r, l.foldlM (fun s n => sidtabInsert s n.sid n.context (oom n.sid)) s = .ok r) ↔ ∀ n ∈ l, oom n.sid = false) from
    this t.nodes {} t.nodes_pairwise fun n _ => Sidtab.find_eq_none_iff.mpr (by simp [Sidtab.mem_nodes])
  intro l
  induction l with
  | nil => intro s _ _; simp [pure, Except.pure]
  | cons n l ih =>
    intro s hl hs
    obtain ⟨hn, hl⟩ := pairwise_cons.mp hl
    rw [foldlM_cons, sidtabInsert_of_find (hs n mem_cons_self), forall_mem_cons]
    cases oom n.sid
    · refine (ih _ hl ?_).trans (by simp)
      intro m hm
      refine Sidtab.find_eq_none_iff.mpr ?_
      intro k hk heq
      rcases Sidtab.mem_addNode.mp hk with rfl | hk
      · exact hn m hm heq
      · exact Sidtab.find_eq_none_iff.mp (hs m (mem_cons_of_mem _ hm)) k hk heq
    · refine iff_of_false ?_ (fun h => nomatch h.1)
      intro h
      obtain ⟨r, hr⟩ := h
      cases hr

/-! ## Converting -/

/-- `sepol_sidtab_map_remove_on_error`: an entry is converted in place or removed. -/
def mapRemoveOnError (t : Sidtab) (apply : SidtabNode → Option Context) : Sidtab where
  htable i := (t.htable i).filterMap fun n => (apply n).map fun c => { n with context := c }
  nel := t.nel - t.nodes.countP fun n => (apply n).isNone
  nextSid := t.nextSid
  shutdown := t.shutdown
  hashed := by
    intro i m hm
    obtain ⟨n, hn, hm⟩ := List.mem_filterMap.mp hm
    obtain ⟨c, -, rfl⟩ := Option.map_eq_some_iff.mp hm
    exact t.hashed i n hn
  sorted := by
    intro i
    refine List.pairwise_filterMap.mpr ((t.sorted i).imp fun {a b} hab a' ha b' hb => ?_)
    obtain ⟨_, -, rfl⟩ := Option.map_eq_some_iff.mp ha
    obtain ⟨_, -, rfl⟩ := Option.map_eq_some_iff.mp hb
    exact hab

theorem mem_mapRemoveOnError {apply : SidtabNode → Option Context} :
    m ∈ (mapRemoveOnError t apply).nodes ↔ ∃ n ∈ t.nodes, n.sid = m.sid ∧ apply n = some m.context := by
  rw [Sidtab.mem_nodes]
  show m ∈ List.filterMap _ _ ↔ _
  rw [mem_filterMap]
  constructor
  · intro h
    obtain ⟨n, hn, hm⟩ := h
    obtain ⟨c, hc, rfl⟩ := Option.map_eq_some_iff.mp hm
    exact ⟨n, Sidtab.mem_nodes.mpr hn, rfl, hc⟩
  · intro h
    obtain ⟨n, hn, hsid, hc⟩ := h
    refine ⟨n, ?_, ?_⟩
    · rw [← hsid]
      exact Sidtab.mem_nodes.mp hn
    · rw [hc, Option.map_some, hsid]

/-! ## New SIDs -/

/-- `sepol_sidtab_search_context`; 0 when there is none. -/
def sidtabSearchContext (t : Sidtab) (context : Context) : Nat :=
  ((t.nodes.find? fun n => contextCmp n.context context).map fun n => n.sid).getD 0

/-- A failed insertion takes the increment of `next_sid` back. -/
def sidtabContextToSid (t : Sidtab) (context : Context) (oom : Bool) : Except Int Nat × Sidtab :=
  if sidtabSearchContext t context ≠ 0 then (.ok (sidtabSearchContext t context), t)
  else if t.nextSid = uintMax ∨ t.shutdown = true then (.error (-enomem), t)
  else
    match sidtabInsert { t with nextSid := t.nextSid + 1 } t.nextSid context oom with
    | .ok t' => (.ok t.nextSid, t')
    | .error e => (.error e, t)

theorem sidtabSearchContext_mem (h : sidtabSearchContext t context ≠ 0) :
    ⟨sidtabSearchContext t context, context⟩ ∈ t.nodes := by
  unfold sidtabSearchContext at h ⊢
  cases hf : t.nodes.find? fun n => contextCmp n.context context with
  | none => rw [hf] at h; exact absurd rfl h
  | some n =>
    have hcmp : contextCmp n.context context = true :=
      @List.find?_some _ (fun n : SidtabNode => contextCmp n.context context) _ _ hf
    obtain rfl := contextCmp_iff.mp hcmp
    exact mem_of_find?_eq_some hf

/-- A SID that is returned is an old one of this context, or the next one. -/
theorem sidtabContextToSid_ok {t : Sidtab} {oom : Bool} (ht : t.Below)
    (h : sidtabContextToSid t context oom = (.ok sid, t')) : (⟨sid, context⟩ ∈ t.nodes ∧ t' = t) ∨
      (sid = t.nextSid ∧ t'.nextSid = t.nextSid + 1 ∧ t'.nextSid < 2 ^ 32 ∧
        ∀ m, m ∈ t'.nodes ↔ m = ⟨sid, context⟩ ∨ m ∈ t.nodes) := by
  unfold sidtabContextToSid at h
  split at h
  next hold =>
    cases h
    exact Or.inl ⟨sidtabSearchContext_mem hold, rfl⟩
  · split at h
    · cases h
    next hfree =>
      split at h
      next t'' hins =>
        cases h
        obtain ⟨-, -, hmem, hnext⟩ := sidtabInsert_ok hins
        have hn : t'.nextSid = t.nextSid + 1 := by
          rw [hnext, if_neg]
          exact Nat.not_succ_le_self _
        have hmax : t.nextSid ≠ 2 ^ 32 - 1 := fun heq => hfree (Or.inl heq)
        have := ht.narrow
        exact Or.inr ⟨rfl, hn, by omega, hmem⟩
      · cases h

theorem sidtabContextToSid_error {t : Sidtab} {oom : Bool} {e : Int}
    (h : sidtabContextToSid t context oom = (.error e, t')) : t' = t := by
  unfold sidtabContextToSid at h
  split at h
  · cases h
  · split at h
    · cases h; rfl
    · split at h
      · cases h
      · cases h; rfl

/-- A request for a SID keeps the table below `next_sid`. -/
theorem sidtabContextToSid_below {t : Sidtab} {oom : Bool} {r : Except Int Nat} (ht : t.Below)
    (h : sidtabContextToSid t context oom = (r, t')) : t'.Below := by
  cases r with
  | error e => rw [sidtabContextToSid_error h]; exact ht
  | ok sid =>
    rcases sidtabContextToSid_ok ht h with ⟨-, rfl⟩ | ⟨rfl, hnext, hnarrow, hmem⟩
    · exact ht
    · refine ⟨?_, by omega, hnarrow⟩
      intro n hn
      rcases (hmem n).mp hn with rfl | hn
      · show t.nextSid < t'.nextSid
        omega
      · have := ht.sids n hn
        omega

end SELinux.Services
