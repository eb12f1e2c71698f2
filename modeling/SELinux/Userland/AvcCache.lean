/-
  SELinux.Userland.AvcCache — what the operations of the access vector cache can do to it.

  In a well-formed cache (`Cache.WF`) every node is in one place, the chain of its key or the
  free list, and a node outside the chains is blank. An operation keeps the nodes where they are
  (`Kept`), or takes one node and puts it at the front of the chain of a new key (`Placed`), or
  empties the chains (`flush`); all three keep the cache well-formed. `G` says which permissions
  of a node may become allowed.
-/
import SELinux.Userland.Avc

namespace SELinux.Userland.Avc

open List Function

variable {s s' s₁ s₂ : Cache} {G : Node → Nat → Prop} {n : Node} {o : Option Node} {avd : AvDecision} {k : Key}
  {requested : Av}

/-! ## Well-formed caches -/

/-- The same key and the same answer, but for the access vectors that events change. -/
structure Entry.Alike (e e' : Entry) : Prop where
  key : e'.toKey = e.toKey
  decided : e'.avd.decided = e.avd.decided
  seqno : e'.avd.seqno = e.avd.seqno
  flags : e'.avd.flags = e.avd.flags

theorem Entry.Alike.refl (e : Entry) : e.Alike e := ⟨rfl, rfl, rfl, rfl⟩

theorem Entry.Alike.trans {a b c : Entry} (h : a.Alike b) (h' : b.Alike c) : a.Alike c :=
  ⟨h'.key.trans h.key, h'.decided.trans h.decided, h'.seqno.trans h.seqno, h'.flags.trans h.flags⟩

/-- Only permissions of `P` have become allowed. -/
structure Entry.Changed (P : Nat → Prop) (e e' : Entry) : Prop extends e.Alike e' where
  allowed : ∀ i, e'.avd.allowed.getLsbD i = true → e.avd.allowed.getLsbD i = true ∨ P i

variable {P : Nat → Prop}

theorem Entry.Changed.of_avd {e e' : Entry} (hkey : e'.toKey = e.toKey) (havd : e'.avd = e.avd) : e.Changed P e' := by
  refine ⟨⟨hkey, ?_, ?_, ?_⟩, ?_⟩
  all_goals rw [havd]
  exact fun _ => Or.inl

theorem Entry.Changed.refl (e : Entry) : e.Changed P e := Changed.of_avd rfl rfl

theorem Entry.Changed.trans {a b c : Entry} (h : a.Changed P b) (h' : b.Changed P c) : a.Changed P c where
  toAlike := h.toAlike.trans h'.toAlike
  allowed := fun i hi => (h'.allowed i hi).elim (h.allowed i) Or.inr

variable {f : Entry → Entry}

namespace Cache

def Cached (s : Cache) (n : Node) : Prop := ∃ h, n ∈ s.slots h

theorem mem_nodes : n ∈ s.nodes ↔ s.Cached n := by
  simp [nodes, Cached]

structure WF (s : Cache) : Prop where
  hashed : ∀ h, ∀ n ∈ s.slots h, avcHash (s.entries n).toKey = h
  nodup : ∀ h, (s.slots h).Nodup
  free : ∀ h, ∀ n ∈ s.slots h, n ∉ s.freelist
  freeNodup : s.freelist.Nodup
  blank : ∀ n, ¬ s.Cached n → Entry.Alike {} (s.entries n)

theorem wf_avcInit (nodes : Nat) (enforcing : Bool) : (avcInit nodes enforcing).WF where
  hashed := nofun
  nodup := fun _ => nodup_nil
  free := nofun
  freeNodup := nodup_reverse.mpr nodup_range
  blank := fun _ _ => Entry.Alike.refl _

/-- The free nodes and those that are counted as active, together. -/
def total (s : Cache) : BitVec 32 := s.activeNodes + BitVec.ofNat 32 s.freelist.length

/-- The nodes stay where they are, but for one that is taken out. -/
structure Moved (o : Option Node) (G : Node → Nat → Prop) (s s' : Cache) : Prop where
  slots : ∀ h, s'.slots h = o.elim (s.slots h) (s.slots h).erase
  freelist : s'.freelist = o.elim s.freelist s.freelist.erase
  taken : ∀ n ∈ o, s.Cached n ∨ n ∈ s.freelist
  total : s'.total = s.total
  entries : ∀ n, (s.entries n).Changed (G n) (s'.entries n)
  latestNotif : s.latestNotif ≤ s'.latestNotif
  enforcing : s'.enforcing = s.enforcing

abbrev Kept (G : Node → Nat → Prop) (s s' : Cache) : Prop := Moved none G s s'

theorem Kept.refl (s : Cache) : Kept G s s :=
  ⟨fun _ => rfl, rfl, nofun, rfl, fun _ => Entry.Changed.refl _, BitVec.le_refl _, rfl⟩

theorem Kept.cached (h : Kept G s s') : s'.Cached n ↔ s.Cached n := by
  unfold Cached
  simp only [h.slots, Option.elim_none]

theorem Kept.trans (h : Kept G s s₁) (h' : Moved o G s₁ s') : Moved o G s s' where
  slots := by
    intro hv
    rw [h'.slots, h.slots]
    rfl
  freelist := by
    rw [h'.freelist, h.freelist]
    rfl
  taken := by
    intro n hn
    rw [← h.cached, ← show s₁.freelist = s.freelist from h.freelist]
    exact h'.taken n hn
  total := h'.total.trans h.total
  entries := fun n => (h.entries n).trans (h'.entries n)
  latestNotif := BitVec.le_trans h.latestNotif h'.latestNotif
  enforcing := h'.enforcing.trans h.enforcing

theorem Kept.wf (h : Kept G s s') (hwf : s.WF) : s'.WF where
  hashed := by
    intro hv n hn
    rw [h.slots] at hn
    rw [(h.entries n).key]
    exact hwf.hashed hv n hn
  nodup := by
    intro hv
    rw [h.slots]
    exact hwf.nodup hv
  free := by
    intro hv
    rw [h.slots, h.freelist]
    exact hwf.free hv
  freeNodup := by
    rw [h.freelist]
    exact hwf.freeNodup
  blank := by
    intro n hn
    exact (hwf.blank n fun hc => hn (h.cached.mpr hc)).trans (h.entries n).toAlike

/-- Node `n` is moved from where it was to the front of the chain of `k`, with an answer. -/
structure Placed (s : Cache) (n : Node) (k : Key) (avd : AvDecision) (s' : Cache) : Prop where
  slots : ∀ h, s'.slots h = if h = avcHash k then n :: (s.slots h).erase n else (s.slots h).erase n
  freelist : s'.freelist = s.freelist.erase n
  taken : s.Cached n ∨ n ∈ s.freelist
  total : s'.total = s.total
  entry : Entry.Alike { k with avd } (s'.entries n)
  others : ∀ m, m ≠ n → (s.entries m).Changed (fun _ => False) (s'.entries m)
  latestNotif : s.latestNotif ≤ s'.latestNotif
  enforcing : s'.enforcing = s.enforcing

/-- Changes before the move, and afterwards to the node. -/
theorem Placed.between (h : Placed s₁ n k avd s₂) (h₁ : Kept (fun _ _ => False) s s₁) (h₂ : Kept (fun m _ => m = n) s₂ s') :
    Placed s n k avd s' where
  slots := by
    intro hv
    rw [h₂.slots, h.slots, h₁.slots]
    rfl
  freelist := by
    rw [h₂.freelist, h.freelist, h₁.freelist]
    rfl
  taken := by
    rw [← h₁.cached, ← show s₁.freelist = s.freelist from h₁.freelist]
    exact h.taken
  total := h₂.total.trans (h.total.trans h₁.total)
  entry := h.entry.trans (h₂.entries n).toAlike
  others := by
    intro m hm
    have hlast := h₂.entries m
    simp only [hm] at hlast
    exact (h₁.entries m).trans ((h.others m hm).trans hlast)
  latestNotif := BitVec.le_trans h₁.latestNotif (BitVec.le_trans h.latestNotif h₂.latestNotif)
  enforcing := h₂.enforcing.trans (h.enforcing.trans h₁.enforcing)

theorem Placed.mem_slots (h : Placed s n k avd s') (hwf : s.WF) {m : Node} {hv : Fin 512} :
    m ∈ s'.slots hv ↔ m = n ∧ hv = avcHash k ∨ m ≠ n ∧ m ∈ s.slots hv := by
  rw [h.slots, ← (hwf.nodup hv).mem_erase_iff]
  split
  · rw [mem_cons, and_iff_left ‹_›]
  next hne =>
    rw [or_iff_right fun hm => hne hm.2]

theorem Placed.cached_iff (h : Placed s n k avd s') (hwf : s.WF) {m : Node} : s'.Cached m ↔ m = n ∨ s.Cached m := by
  unfold Cached
  simp only [h.mem_slots hwf]
  by_cases he : m = n
  · simp [he]
  · simp [he]

theorem Placed.wf (h : Placed s n k avd s') (hwf : s.WF) : s'.WF where
  hashed := by
    intro hv m hm
    rcases (h.mem_slots hwf).mp hm with ⟨rfl, hk⟩ | ⟨he, hm⟩
    · rw [h.entry.key]
      exact hk.symm
    · rw [(h.others m he).key]
      exact hwf.hashed hv m hm
  nodup := by
    intro hv
    rw [h.slots]
    split
    · exact nodup_cons.mpr ⟨(hwf.nodup hv).not_mem_erase, (hwf.nodup hv).erase n⟩
    · exact (hwf.nodup hv).erase n
  free := by
    intro hv m hm
    rw [h.freelist, hwf.freeNodup.mem_erase_iff, not_and]
    rcases (h.mem_slots hwf).mp hm with ⟨he, -⟩ | ⟨-, hm⟩
    · exact fun hne => absurd he hne
    · exact fun _ => hwf.free hv m hm
  freeNodup := by
    rw [h.freelist]
    exact hwf.freeNodup.erase n
  blank := by
    intro m hm
    rw [h.cached_iff hwf, not_or] at hm
    exact (hwf.blank m hm.2).trans (h.others m hm.1).toAlike

theorem not_cached_flush : ¬ (flush s).Cached n := by
  intro ⟨_, hn⟩
  exact absurd hn (by simp [flush])

theorem WF.nodup_nodes (hwf : s.WF) : s.nodes.Nodup := by
  unfold nodes
  rw [nodup_flatMap]
  refine ⟨fun h _ => hwf.nodup h, (nodup_finRange 512).imp ?_⟩
  intro h h' hne n hn hn'
  exact hne ((hwf.hashed h n hn).symm.trans (hwf.hashed h' n hn'))

theorem WF.flush (hwf : s.WF) : (flush s).WF where
  hashed := nofun
  nodup := fun _ => nodup_nil
  free := nofun
  freeNodup := by
    simp only [Avc.flush]
    rw [nodup_append', nodup_reverse]
    refine ⟨hwf.nodup_nodes, hwf.freeNodup, ?_⟩
    intro n hn hfree
    rw [mem_reverse, mem_nodes] at hn
    obtain ⟨h, hmem⟩ := hn
    exact hwf.free h n hmem hfree
  blank := by
    intro n _
    simp only [Avc.flush]
    by_cases hn : n ∈ s.nodes
    · rw [if_pos hn]
      exact Entry.Alike.refl _
    · rw [if_neg hn]
      exact hwf.blank n fun hc => hn (mem_nodes.mpr hc)

theorem kept_modify (hf : (s.entries n).Changed (G n) (f (s.entries n))) : Kept G s (s.modify n f) where
  slots := fun _ => rfl
  freelist := rfl
  taken := nofun
  total := rfl
  entries := by
    intro m
    show (s.entries m).Changed (G m) (Function.update s.entries n (f (s.entries n)) m)
    by_cases hm : m = n
    · subst hm
      rw [update_self]
      exact hf
    · rw [update_of_ne hm]
      exact Entry.Changed.refl _
  latestNotif := BitVec.le_refl _
  enforcing := rfl

theorem kept_setUsed (s : Cache) (n : Node) (used : Bool) : Kept G s (s.modify n (setUsed used)) :=
  kept_modify (Entry.Changed.of_avd rfl rfl)

end Cache

open Cache

/-! ## Taking a node -/

variable {l : List Node}

theorem scanChain_spec {s : Cache} (hl : l.Nodup) : Kept G s { s with entries := (scanChain s.entries l).1 } ∧
      ∀ node rest, (scanChain s.entries l).2 = some (node, rest) → node ∈ l ∧ rest = l.erase node := by
  induction l generalizing s with
  | nil => exact ⟨Kept.refl s, nofun⟩
  | cons cur next ih =>
    obtain ⟨hcur, hnext⟩ := nodup_cons.mp hl
    unfold scanChain
    by_cases hused : (s.entries cur).used = true
    · rw [if_neg (by rw [hused]; decide)]
      obtain ⟨hkept, hfound⟩ := ih (s := s.modify cur (setUsed false)) hnext
      have hall := (kept_setUsed s cur false).trans hkept
      simp only [Cache.modify] at hall hfound
      generalize scanChain (Function.update s.entries cur (setUsed false (s.entries cur))) next = r at hall hfound
      obtain ⟨entries', _ | ⟨node, rest⟩⟩ := r
      · exact ⟨hall, nofun⟩
      · refine ⟨hall, ?_⟩
        intro node' rest' heq
        cases heq
        obtain ⟨hmem, rfl⟩ := hfound node rest rfl
        refine ⟨mem_cons_of_mem _ hmem, ?_⟩
        rw [erase_cons_tail]
        exact fun he => hcur (beq_iff_eq.mp he ▸ hmem)
    · rw [if_pos (by simpa using hused)]
      refine ⟨Kept.refl s, ?_⟩
      intro node rest heq
      cases heq
      exact ⟨mem_cons_self, (erase_cons_head cur next).symm⟩

/-- A reclaimed node is unlinked from its chain, and everything else stays. -/
theorem moved_reclaimLoop (fuel : Nat) (hvalue : Fin 512) (hwf : s.WF) :
    Moved (reclaimLoop fuel hvalue s).1 G s (reclaimLoop fuel hvalue s).2 := by
  induction fuel generalizing hvalue s with
  | zero => exact Kept.refl s
  | succ fuel ih =>
    obtain ⟨hkept, hfound⟩ := scanChain_spec (G := G) (hwf.nodup hvalue)
    unfold reclaimLoop
    generalize scanChain s.entries (s.slots hvalue) = r at hkept hfound
    obtain ⟨entries, _ | ⟨node, rest⟩⟩ := r
    · exact hkept.trans (ih (hvalue + 1) (hkept.wf hwf))
    · obtain ⟨hmem, rfl⟩ := hfound node rest rfl
      have hcached : ∀ n ∈ some node, s.Cached n ∨ n ∈ s.freelist := by
        rintro n ⟨⟩
        exact Or.inl ⟨hvalue, hmem⟩
      refine ⟨?_, (erase_of_not_mem (hwf.free hvalue node hmem)).symm, hcached, rfl, hkept.entries, BitVec.le_refl _, rfl⟩
      intro hv
      show Function.update s.slots hvalue _ hv = (s.slots hv).erase node
      by_cases he : hv = hvalue
      · subst he
        rw [update_self]
      · rw [update_of_ne he, erase_of_not_mem]
        exact fun hn => he ((hwf.hashed hv node hn).symm.trans (hwf.hashed hvalue node hmem))

theorem moved_takeNode (hwf : s.WF) : Moved (takeNode s).1 G s (takeNode s).2 := by
  unfold takeNode
  cases hfree : s.freelist with
  | nil => exact moved_reclaimLoop _ _ hwf
  | cons n l =>
    refine ⟨?_, ?_, ?_, ?_, fun _ => Entry.Changed.refl _, BitVec.le_refl _, rfl⟩
    · intro hv
      refine (erase_of_not_mem fun hn => hwf.free hv n hn ?_).symm
      rw [hfree]
      exact mem_cons_self
    · rw [hfree]
      exact (erase_cons_head n l).symm
    · rintro m ⟨⟩
      rw [hfree]
      exact Or.inr mem_cons_self
    · simp only [total, hfree, length_cons, BitVec.ofNat_add]
      exact (BitVec.add_assoc ..).trans (congrArg _ (BitVec.add_comm ..))

/-! ## Queries -/

theorem kept_avcSearchNode (s : Cache) (k : Key) : Kept G s (avcSearchNode s k).2 := by
  unfold avcSearchNode
  cases (s.slots (avcHash k)).find? fun n => (s.entries n).toKey = k with
  | none => exact Kept.refl s
  | some n => exact kept_setUsed s n true

theorem kept_avcLookup (s : Cache) (k : Key) (requested : Av) : Kept G s (avcLookup s k requested).2 := by
  have hsearch := kept_avcSearchNode (G := G) s k
  unfold avcLookup
  generalize avcSearchNode s k = r at hsearch
  obtain ⟨_ | n, s'⟩ := r
  · exact hsearch
  · show Kept G s (if decides (s'.entries n) requested then (some n, s') else (none, s')).2
    split <;> exact hsearch

/-- An answer that is kept is not older than the latest notification, and has a node of its own. -/
theorem avcInsert_cases (hwf : s.WF) (k : Key) (avd : AvDecision) :
    (∃ s', avcInsert s k avd = (none, s') ∧ Kept G s s') ∨
      ∃ n s', avcInsert s k avd = (some n, s') ∧ s.latestNotif ≤ avd.seqno ∧ Placed s n k avd s' := by
  unfold avcInsert
  by_cases hold : avd.seqno < s.latestNotif
  · rw [if_pos hold]
    exact Or.inl ⟨s, rfl, Kept.refl s⟩
  · rw [if_neg hold]
    unfold avcClaimNode
    have htake := fun G => moved_takeNode (G := G) hwf
    generalize takeNode s = r at htake
    obtain ⟨_ | n, s'⟩ := r
    · exact Or.inl ⟨s', rfl, htake G⟩
    · have htake := htake fun _ _ => False
      refine Or.inr ⟨n, _, rfl, BitVec.not_lt.mp hold, ?_, htake.freelist, htake.taken n rfl, htake.total, ?_, ?_,
        htake.latestNotif, htake.enforcing⟩
      · intro hv
        show Function.update s'.slots (avcHash k) (n :: s'.slots (avcHash k)) hv = _
        by_cases he : hv = avcHash k
        · subst he
          rw [update_self, if_pos rfl, htake.slots]
          rfl
        · rw [update_of_ne he, if_neg he, htake.slots]
          rfl
      · simp only [Cache.modify, update_self]
        exact ⟨rfl, rfl, rfl, rfl⟩
      · intro m hm
        simp only [Cache.modify, update_of_ne hm]
        exact htake.entries m

/-- What is found is for the key and decides what is asked. -/
theorem avcLookup_some (h : (avcLookup s k requested).1 = some n) :
    ((avcLookup s k requested).2.entries n).toKey = k ∧
      decides ((avcLookup s k requested).2.entries n) requested = true := by
  unfold avcLookup avcSearchNode at h ⊢
  cases hfind : (s.slots (avcHash k)).find? fun n => (s.entries n).toKey = k with
  | none =>
    rw [hfind] at h
    cases h
  | some m =>
    rw [hfind] at h
    have hkey : (s.entries m).toKey = k := by simpa using List.find?_some hfind
    by_cases hd : decides ((s.modify m (setUsed true)).entries m) requested = true
    · simp only [if_pos hd] at h ⊢
      cases h
      refine ⟨?_, hd⟩
      rw [((kept_setUsed (G := fun _ _ => False) s n true).entries n).key, hkey]
    · simp only [if_neg hd] at h
      cases h

/-- A miss with entries that decide everything is a key without an entry. -/
theorem avcLookup_none (hwf : s.WF) (h : (avcLookup s k requested).1 = none)
    (hfull : ∀ n, s.Cached n → (s.entries n).toKey = k → (s.entries n).avd.decided = BitVec.allOnes 32) :
    ∀ n, s.Cached n → (s.entries n).toKey ≠ k := by
  intro n hn hkey
  unfold avcLookup avcSearchNode at h
  cases hfind : (s.slots (avcHash k)).find? fun n => (s.entries n).toKey = k with
  | none =>
    obtain ⟨hv, hmem⟩ := hn
    have hslot : avcHash k = hv := hkey ▸ hwf.hashed hv n hmem
    subst hslot
    exact absurd hkey (by simpa using List.find?_eq_none.mp hfind n hmem)
  | some m =>
    rw [hfind] at h
    have hmkey : (s.entries m).toKey = k := by simpa using List.find?_some hfind
    have hdec : decides ((s.modify m (setUsed true)).entries m) requested = true := by
      unfold decides
      rw [((kept_setUsed (G := fun _ _ => False) s m true).entries m).decided,
        hfull m ⟨_, mem_of_find?_eq_some hfind⟩ hmkey, BitVec.allOnes_and]
      exact decide_eq_true rfl
    simp only [if_pos hdec] at h
    cases h

/-- In enforcing mode an entry that is not permissive is not changed. -/
theorem kept_decideFrom {ae : Node} (hG : s.enforcing = false ∨ (s.entries ae).avd.permissive = true → ∀ i, G ae i)
    (requested : Av) (claimed : Option Node) : Kept G s (decideFrom s requested ae claimed).cache := by
  unfold decideFrom
  dsimp only
  split
  · split
    next hlax =>
      have hchange : (s.entries ae).Changed (G ae) (allow requested (s.entries ae)) :=
        ⟨⟨rfl, rfl, rfl, rfl⟩, fun i _ => Or.inr (hG (by simpa using hlax) i)⟩
      exact kept_modify hchange
    · exact Kept.refl s
  · exact Kept.refl s

theorem decideFrom_ae (s : Cache) (requested : Av) (ae : Node) (claimed : Option Node) :
    (decideFrom s requested ae claimed).ae = some ae ∧ (decideFrom s requested ae claimed).claimed = claimed := by
  unfold decideFrom
  dsimp only
  split
  · split <;> exact ⟨rfl, rfl⟩
  · exact ⟨rfl, rfl⟩

/-- In enforcing mode what is granted is allowed, and was asked for or is from a permissive entry. -/
theorem decideFrom_ok {ae : Node} {claimed : Option Node} (henf : s.enforcing = true)
    (h : (decideFrom s requested ae claimed).rc = 0) :
    (requested ≠ 0#32 ∨ (s.entries ae).avd.permissive = true) ∧
      requested &&& ~~~((decideFrom s requested ae claimed).cache.entries ae).avd.allowed = 0#32 := by
  unfold decideFrom at h ⊢
  by_cases hd : requested = 0#32 ∨ requested &&& ~~~(s.entries ae).avd.allowed ≠ 0#32
  · rw [if_pos hd] at h ⊢
    by_cases hperm : (s.entries ae).avd.permissive = true
    · rw [if_pos (by rw [hperm, Bool.or_true])]
      refine ⟨Or.inr hperm, ?_⟩
      simp only [Cache.modify, update_self, allow]
      refine BitVec.eq_of_getLsbD_eq fun i _ => ?_
      simp only [BitVec.getLsbD_and, BitVec.getLsbD_not, BitVec.getLsbD_or, BitVec.getLsbD_zero]
      cases requested.getLsbD i <;> simp
    · rw [if_neg (by simpa [henf] using hperm)] at h
      cases h
  · rw [if_neg hd] at h ⊢
    rw [not_or, not_not] at hd
    exact ⟨Or.inl hd.1, hd.2⟩

/-- The three ways through a permission check: with an entry that is there, without an entry, and
    with an answer that is put into the cache. -/
theorem avcHasPermNoaudit_cases (hwf : s.WF) (k : Key) (requested : Av) (aeref : Option Node) (answer : Answer) :
    (∃ s₁ ae, Kept G s s₁ ∧ (s₁.entries ae).toKey = k ∧ decides (s₁.entries ae) requested = true ∧
        avcHasPermNoaudit s k requested aeref answer = decideFrom s₁ requested ae none) ∨
      (∃ s₁ rc, Kept G s s₁ ∧ (s.enforcing = true → rc = -1) ∧
        avcHasPermNoaudit s k requested aeref answer = noEntry s₁ (avdInit s) aeref rc) ∨
      ∃ s₁ n avd, answer = .decision avd ∧ s.latestNotif ≤ avd.seqno ∧ (avcLookup s k requested).1 = none ∧
        Placed s n k avd s₁ ∧ avcHasPermNoaudit s k requested aeref answer = decideFrom s₁ requested n (some n) := by
  unfold avcHasPermNoaudit
  cases hheld : heldEntry s k requested aeref with
  | some ae =>
    obtain ⟨-, hmatch⟩ := Option.filter_eq_some_iff.mp hheld
    simp only [Bool.and_eq_true, decide_eq_true_eq] at hmatch
    have hkept := kept_setUsed (G := G) s ae true
    refine Or.inl ⟨_, ae, hkept, (hkept.entries ae).key.trans hmatch.1, ?_, rfl⟩
    unfold decides
    rw [(hkept.entries ae).decided]
    exact hmatch.2
  | none =>
    have hkept := fun G => kept_avcLookup (G := G) s k requested
    have hsome : ∀ n, (avcLookup s k requested).1 = some n → _ := fun n => avcLookup_some
    generalize avcLookup s k requested = r at hkept hsome
    obtain ⟨_ | ae, s₁⟩ := r
    · cases answer with
      | error einval =>
        refine Or.inr (Or.inl ⟨s₁, _, hkept G, ?_, rfl⟩)
        intro henf
        simp [henf]
      | decision avd =>
        dsimp only
        rcases avcInsert_cases (G := G) ((hkept G).wf hwf) k avd with ⟨s₂, heq, hins⟩ | ⟨n, s₂, heq, hnew, hplaced⟩
        · rw [heq]
          exact Or.inr (Or.inl ⟨s₂, -1, (hkept G).trans hins, fun _ => rfl, rfl⟩)
        · rw [heq]
          exact Or.inr (Or.inr ⟨s₂, n, avd, rfl, BitVec.le_trans (hkept G).latestNotif hnew, rfl,
            hplaced.between (hkept _) (Kept.refl s₂), rfl⟩)
    · obtain ⟨hkey, hdec⟩ := hsome ae rfl
      exact Or.inl ⟨s₁, ae, hkept G, hkey, hdec, rfl⟩

theorem kept_saveCreate (s : Cache) (ae : Node) (create : Option Sid) : Kept G s (saveCreate s ae create) := by
  unfold saveCreate
  split
  · cases create with
    | none => exact Kept.refl s
    | some sid => exact kept_modify (Entry.Changed.of_avd rfl rfl)
  · exact Kept.refl s

theorem avcComputeCreate_cases (hwf : s.WF) (k : Key) (answer : Answer) (create : Option Sid) :
    (∃ s₁, Kept G s s₁ ∧ avcComputeCreate s k answer create = (none, s₁)) ∨
      ∃ s₁ n avd, answer = .decision avd ∧ s.latestNotif ≤ avd.seqno ∧ (avcLookup s k 0#32).1 = none ∧
        Placed s n k avd s₁ ∧ avcComputeCreate s k answer create = (some n, s₁) := by
  unfold avcComputeCreate
  have hkept := fun G => kept_avcLookup (G := G) s k 0#32
  generalize avcLookup s k 0#32 = r at hkept
  obtain ⟨_ | ae, s₁⟩ := r
  · cases answer with
    | error einval => exact Or.inl ⟨s₁, hkept G, rfl⟩
    | decision avd =>
      dsimp only
      rcases avcInsert_cases (G := G) ((hkept G).wf hwf) k avd with ⟨s₂, heq, hins⟩ | ⟨n, s₂, heq, hnew, hplaced⟩
      · rw [heq]
        exact Or.inl ⟨s₂, (hkept G).trans hins, rfl⟩
      · rw [heq]
        exact Or.inr ⟨_, n, avd, rfl, BitVec.le_trans (hkept G).latestNotif hnew, rfl, hplaced.between (hkept _)
          (kept_saveCreate s₂ n create), rfl⟩
  · exact Or.inl ⟨_, (hkept G).trans (kept_saveCreate s₁ ae create), rfl⟩

/-! ## Events -/

/-- Only a grant allows more. -/
theorem changed_avcUpdateNode (event : Event) (perms : Av) (e : Entry) :
    e.Changed (fun i => event = .grant ∧ perms.getLsbD i = true) (avcUpdateNode event perms e) := by
  refine ⟨by cases event <;> exact ⟨rfl, rfl, rfl, rfl⟩, ?_⟩
  intro i hi
  cases event with
  | grant =>
    rw [avcUpdateNode, allow, BitVec.getLsbD_or, Bool.or_eq_true] at hi
    exact hi.imp_right fun hp => ⟨rfl, hp⟩
  | tryRevoke | revoke =>
    rw [avcUpdateNode, disallow, BitVec.getLsbD_and, Bool.and_eq_true] at hi
    exact Or.inl hi.1
  | auditallowEnable | auditallowDisable | auditdenyEnable | auditdenyDisable => exact Or.inl hi

theorem kept_foldl (hf : ∀ n ∈ l, ∀ e : Entry, e.Changed (G n) (f e)) (s : Cache) :
    Kept G s (l.foldl (fun s n => s.modify n f) s) := by
  induction l generalizing s with
  | nil => exact Kept.refl s
  | cons n l ih =>
    obtain ⟨hn, hl⟩ := forall_mem_cons.mp hf
    exact (kept_modify (hn _)).trans (ih hl (s.modify n f))

/-- The last change of a node makes `P` true. -/
theorem foldl_modify {P : Entry → Prop} (hf : ∀ e, P (f e)) (hn : n ∈ l) (s : Cache) :
    P ((l.foldl (fun s n => s.modify n f) s).entries n) := by
  induction l using reverseRecOn with
  | nil => cases hn
  | append_singleton l m ih =>
    rw [foldl_append]
    show P (Function.update (foldl _ s l).entries m _ n)
    by_cases he : n = m
    · rw [he, update_self]
      exact hf _
    · rw [update_of_ne he]
      exact ih ((mem_append.mp hn).resolve_right fun h => he (mem_singleton.mp h))

theorem kept_avcUpdateCache {event : Event} {perms : Av}
    (hG : event = .grant → ∀ n ∈ targets s k, ∀ i, perms.getLsbD i = true → G n i) :
    Kept G s (avcUpdateCache event k perms s) := by
  have hstart : Kept G s (if k.ssid = wild ∨ k.tsid = wild then s else (avcSearchNode s k).2) := by
    split
    · exact Kept.refl s
    · exact kept_avcSearchNode s k
  refine hstart.trans (kept_foldl ?_ _)
  intro n hn e
  have hchange := changed_avcUpdateNode event perms e
  exact ⟨hchange.toAlike, fun i hi => (hchange.allowed i hi).imp_right fun hp => hG hp.1 n hn i hp.2⟩

/-- A notification changes no entry. -/
theorem kept_raiseNotif (seqno : BitVec 32) (s : Cache) : Kept G s (raiseNotif seqno s) := by
  unfold raiseNotif
  split
  next h =>
    exact ⟨fun _ => rfl, rfl, nofun, rfl, fun _ => Entry.Changed.refl _, BitVec.le_of_lt h, rfl⟩
  · exact Kept.refl s

theorem le_raiseNotif (seqno : BitVec 32) (s : Cache) : seqno ≤ (raiseNotif seqno s).latestNotif := by
  unfold raiseNotif
  split
  · exact BitVec.le_refl _
  · exact BitVec.not_lt.mp ‹_›

end SELinux.Userland.Avc
