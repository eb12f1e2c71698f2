/-
  SELinux.Userland.AvcNodes — the nodes of the access vector cache over whole runs
  (`libselinux/src/avc.c`: `avc_reclaim_node`, `avc_claim_node`, `avc_reset`).

  Every node is in one chain or in the free list, and `active_nodes` counts those in the chains:
  all steps keep that, by what `Process.step_cases` says that they can do.

  A reclaim goes round the slots twice. The first round may only clear the usage marks, and then
  the second one takes a node from the first chain that is not empty (`avcReclaimNode_found`).
-/
import SELinux.Userland.AvcRuns

namespace SELinux.Userland.Avc

open Cache List

variable {s : Cache} {l : List Node} {fuel nodes d : Nat} {p : Process} {hvalue slot : Fin 512} {n : Node}

/-! ## The invariant -/

/-- The nodes are those that `avc_init` allocated. -/
structure Balanced (nodes : Nat) (s : Cache) : Prop where
  wf : s.WF
  all : ∀ n, s.Cached n ∨ n ∈ s.freelist ↔ n < nodes
  total : s.total = BitVec.ofNat 32 nodes

theorem balanced_avcInit (nodes : Nat) (enforcing : Bool) : Balanced nodes (avcInit nodes enforcing) where
  wf := wf_avcInit nodes enforcing
  all := by simp [avcInit, Cached]
  total := by simp [avcInit, Cache.total]

theorem Balanced.step (h : Balanced nodes p.cache) (a : Action) : Balanced nodes (p.step a).cache := by
  have hwf := (p.step_state h.wf a).1
  rcases p.step_cases h.wf a with ⟨-, hkept⟩ | hflush | ⟨m, k, avd, -, -, -, -, hplaced⟩
  · refine ⟨hwf, fun n => ?_, hkept.total.trans h.total⟩
    rw [← h.all n, hkept.cached, show (p.step a).cache.freelist = p.cache.freelist from hkept.freelist]
  · refine ⟨hwf, fun n => ?_, ?_⟩
    · rw [← h.all n, hflush, or_iff_right not_cached_flush, ← mem_nodes]
      simp [flush]
    · rw [← h.total, hflush]
      simp only [Cache.total, flush, length_append, length_reverse, BitVec.ofNat_add, ← BitVec.add_assoc,
        BitVec.sub_add_cancel]
  · refine ⟨hwf, fun n => ?_, hplaced.total.trans h.total⟩
    rw [← h.all n, hplaced.cached_iff h.wf, hplaced.freelist, h.wf.freeNodup.mem_erase_iff]
    by_cases hn : n = m
    · simpa [hn] using hplaced.taken
    · simp [hn]

theorem Balanced.run (h : Balanced nodes p.cache) (actions : List Action) :
    Balanced nodes (actions.foldl Process.step p).cache := by
  induction actions generalizing p with
  | nil => exact h
  | cons a actions ih => exact ih (h.step a)

theorem Balanced.perm (h : Balanced nodes s) : (s.nodes ++ s.freelist).Perm (range nodes) := by
  have hnodup : (s.nodes ++ s.freelist).Nodup := by
    refine nodup_append'.mpr ⟨h.wf.nodup_nodes, h.wf.freeNodup, fun n hn hfree => ?_⟩
    obtain ⟨hv, hmem⟩ := mem_nodes.mp hn
    exact h.wf.free hv n hmem hfree
  refine (perm_ext_iff_of_nodup hnodup nodup_range).mpr fun n => ?_
  rw [mem_append, mem_nodes, h.all n, mem_range]

theorem Balanced.activeNodes (h : Balanced nodes s) (hnodes : nodes < 2 ^ 32) : s.activeNodes.toNat = s.nodes.length := by
  have hlength := h.perm.length_eq
  rw [length_append, length_range] at hlength
  have htotal := h.total
  rw [Cache.total, ← hlength, BitVec.ofNat_add, BitVec.add_left_inj] at htotal
  rw [htotal, BitVec.toNat_ofNat, Nat.mod_eq_of_lt (by omega)]

/-! ## Reclaiming -/

/-- No node is taken from a chain whose nodes all have their mark, and then they have lost it. -/
theorem scanChain_none {entries : Node → Entry} (h : (scanChain entries l).2 = none) :
    (∀ n ∈ l, (entries n).used = true) ∧
      ∀ n, ((scanChain entries l).1 n).used = (decide (n ∉ l) && (entries n).used) := by
  fun_induction scanChain entries l with
  | case1 => simp
  | case2 => cases h
  | case3 => cases h
  | case4 entries cur next hused entries' hscan ih =>
    rw [hscan] at ih
    obtain ⟨hmarked, hclear⟩ := ih rfl
    have hne : ∀ n ∈ next, n ≠ cur := by
      intro n hn heq
      have hcur := hmarked n hn
      rw [heq, Function.update_self] at hcur
      cases hcur
    refine ⟨forall_mem_cons.mpr ⟨by simpa using hused, fun n hn => ?_⟩, fun n => ?_⟩
    · simpa [hne n hn] using hmarked n hn
    · rw [hclear n]
      by_cases hn : n = cur
      · simp [hn, setUsed]
      · simp [hn]

theorem val_next (hvalue : Fin 512) : (hvalue + 1).val = (hvalue.val + 1) % 512 := rfl

/-- A node without a mark is taken when the loop comes to its slot, if none is before. -/
theorem reclaimLoop_unused (hd : d < fuel) (hslot : (hvalue.val + d) % 512 = slot.val) (hn : n ∈ s.slots slot)
    (hunused : (s.entries n).used = false) : (reclaimLoop fuel hvalue s).1 ≠ none := by
  induction fuel generalizing d hvalue s with
  | zero => omega
  | succ fuel ih =>
    have hnone := @scanChain_none (s.slots hvalue) s.entries
    rw [reclaimLoop]
    generalize scanChain s.entries (s.slots hvalue) = r at hnone
    obtain ⟨entries, _ | ⟨node, rest⟩⟩ := r
    · obtain ⟨hmarked, hclear⟩ := hnone rfl
      cases d with
      | zero =>
        obtain rfl : hvalue = slot := Fin.ext (by omega)
        simp [hmarked n hn] at hunused
      | succ d =>
        refine ih (s := { s with entries }) (d := d) (by omega) ?_ hn (by simpa [hunused] using hclear n)
        rw [val_next]
        omega
    · exact Option.some_ne_none node

/-- A node is taken in the first round, or the marks of its chain are gone when the second one begins. -/
theorem reclaimLoop_found (hd : d < fuel) (hslot : (hvalue.val + d) % 512 = slot.val) (hn : n ∈ s.slots slot) :
    (reclaimLoop (512 + fuel) hvalue s).1 ≠ none := by
  induction fuel generalizing d hvalue s with
  | zero => omega
  | succ fuel ih =>
    have hnone := @scanChain_none (s.slots hvalue) s.entries
    rw [← Nat.add_assoc, reclaimLoop]
    generalize scanChain s.entries (s.slots hvalue) = r at hnone
    obtain ⟨entries, _ | ⟨node, rest⟩⟩ := r
    · obtain ⟨-, hclear⟩ := hnone rfl
      cases d with
      | zero =>
        obtain rfl : hvalue = slot := Fin.ext (by omega)
        refine reclaimLoop_unused (s := { s with entries }) (d := 511) (by omega) ?_ hn
          (by simpa [hn] using hclear n)
        rw [val_next]
        omega
      | succ d =>
        refine ih (s := { s with entries }) (d := d) (by omega) ?_ hn
        rw [val_next]
        omega
    · exact Option.some_ne_none node

theorem avcReclaimNode_found (hn : n ∈ s.slots slot) : (avcReclaimNode s).1 ≠ none :=
  show (reclaimLoop (512 + 512) s.lruHint s).1 ≠ none from
    reclaimLoop_found (d := (slot.val + 512 - s.lruHint.val) % 512) (by omega) (by omega) hn

theorem reclaimLoop_freelist (fuel : Nat) (hvalue : Fin 512) (s : Cache) :
    (reclaimLoop fuel hvalue s).2.freelist = s.freelist := by
  fun_induction reclaimLoop with
  | case1 => rfl
  | case2 => rfl
  | case3 hvalue s fuel entries hscan ih => exact ih

/-- `AVC_CACHE_MAXNODES` -/
def avcCacheMaxnodes : Nat := 410

/-- After `avc_init` and any actions: keys hash to their slots, the count is right, every node that was
    allocated is in one place, and a reclaim takes a node out of a chain if there is one. -/
theorem avc_nodes_kept (nodes : Nat) (hnodes : nodes ≤ avcCacheMaxnodes) (enforcing : Bool) (actions : List Action)
    (s : Cache) (hs : s = (actions.foldl Process.step { cache := avcInit nodes enforcing }).cache) :
    (∀ h, ∀ n ∈ s.slots h, avcHash (s.entries n).toKey = h) ∧ s.activeNodes.toNat = s.nodes.length ∧
      (s.nodes ++ s.freelist).Perm (range nodes) ∧
      ((∃ h, s.slots h ≠ []) → ∃ n s', avcReclaimNode s = (some n, s') ∧ s.Cached n ∧
        (∀ h, s'.slots h = (s.slots h).erase n) ∧ s'.freelist = s.freelist) := by
  have hbalanced : Balanced nodes s := hs ▸ (balanced_avcInit nodes enforcing).run actions
  rw [avcCacheMaxnodes] at hnodes
  refine ⟨hbalanced.wf.hashed, hbalanced.activeNodes (by omega), hbalanced.perm, ?_⟩
  intro hchain
  obtain ⟨h, hne⟩ := hchain
  obtain ⟨m, hm⟩ := exists_mem_of_ne_nil _ hne
  obtain ⟨n, hn⟩ := Option.ne_none_iff_exists'.mp (avcReclaimNode_found hm)
  have hfree := reclaimLoop_freelist (2 * 512) s.lruHint s
  have hmoved := moved_reclaimLoop (G := fun _ _ => False) (2 * 512) s.lruHint hbalanced.wf
  rw [show (reclaimLoop (2 * 512) s.lruHint s).1 = some n from hn] at hmoved
  refine ⟨n, _, Prod.ext hn rfl, (hmoved.taken n rfl).resolve_right ?_, hmoved.slots, hfree⟩
  exact erase_eq_self_iff.mp (hmoved.freelist.symm.trans hfree)

/-- The one node is claimed for a key, and can be reclaimed. -/
theorem avc_nodes_kept_claimed :
    ∃ s n s', s = (Process.step { cache := avcInit 1 true } (.hasPerm someKey 1#32 none (wholeAnswer 0#32))).cache ∧
      s.activeNodes.toNat = s.nodes.length ∧ avcReclaimNode s = (some n, s') ∧ s.Cached n := by
  obtain ⟨-, hactive, -, hreclaim⟩ :=
    avc_nodes_kept 1 (by decide) true [.hasPerm someKey 1#32 none (wholeAnswer 0#32)] _ rfl
  obtain ⟨n, s', hget, hcached, -⟩ := hreclaim ⟨avcHash someKey, by decide⟩
  exact ⟨_, n, s', rfl, hactive, hget, hcached⟩

end SELinux.Userland.Avc
