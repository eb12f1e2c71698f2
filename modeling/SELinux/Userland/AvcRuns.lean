/-
  SELinux.Userland.AvcRuns — what a permission check of the access vector cache decides from,
  over whole runs.

  A `History` is a process with what has happened to it: the answers it has put into the cache,
  the resets that have returned, and when each permission of a node was last decided or granted.

  After `avc_ss_reset` a check decides from an answer that is not older than the reset
  (`reset_current`), unless a callback of the reset itself put an older one into the cache: the
  latest notification is raised only after the callbacks (`reset_outrun`). After `avc_ss_revoke`
  it does not grant a revoked permission by an older decision (`revoke_effective`), unless a
  partial answer has left two nodes for the key: only the first one is changed
  (`revoke_misses`).
-/
import SELinux.Userland.AvcCache

namespace SELinux.Userland.Avc

open Cache List

variable {a : Action} {p : Process} {k : Key} {q : Key × AvDecision} {n : Node} {perms : Av} {i : Nat}

/-! ## Steps -/

/-- The key an action asks for, and the answer it gets if it has to ask the security server. -/
def Action.query : Action → Option (Key × AvDecision)
  | .hasPerm key _ _ (.decision avd) => some (key, avd)
  | .computeCreate key (.decision avd) _ => some (key, avd)
  | _ => none

/-- The node an answer is put into. -/
def Process.claimed (p : Process) : Action → Option Node
  | .hasPerm key requested ref answer => (p.hasPerm key requested ref answer).claimed
  | .computeCreate key answer create => (avcComputeCreate p.cache key answer create).1
  | _ => none

def Action.flushes : Action → Bool
  | .call .reset => true
  | .call (.ssReset _) => true
  | _ => false

/-- No answer of the action is permissive. -/
def Action.Unpermissive (a : Action) : Prop := ∀ q ∈ a.query, q.2.permissive = false

instance (a : Action) : Decidable a.Unpermissive := inferInstanceAs (Decidable (∀ q ∈ a.query, q.2.permissive = false))

theorem Entry.Alike.permissive {e e' : Entry} (h : e.Alike e') : e'.avd.permissive = e.avd.permissive := by
  unfold AvDecision.permissive
  rw [h.flags]

structure Strict (p : Process) : Prop where
  wf : p.cache.WF
  enforcing : p.cache.enforcing = true
  unpermissive : ∀ n, (p.cache.entries n).avd.permissive = false

/-- The action grants permission `i` of the node. -/
def Process.grants (p : Process) (a : Action) (n : Node) (i : Nat) : Bool :=
  match a with
  | .call (.control .grant key perms _) => n ∈ targets p.cache key && perms.getLsbD i
  | _ => false

/-- What a step does to the cache. In enforcing mode only an answer or a grant allows more. -/
theorem Process.step_cases (hwf : p.cache.WF) (a : Action) :
    (a.flushes = false ∧ Kept (fun n i => Strict p → p.grants a n i = true) p.cache (p.step a).cache) ∨
      (p.step a).cache = flush p.cache ∨
      ∃ n k avd, p.claimed a = some n ∧ a.query = some (k, avd) ∧ p.cache.latestNotif ≤ avd.seqno ∧
        (∃ requested, (avcLookup p.cache k requested).1 = none) ∧ Placed p.cache n k avd (p.step a).cache := by
  cases a with
  | refInit ref => exact Or.inl ⟨rfl, Kept.refl _⟩
  | hasPerm key requested ref answer =>
    have hclaimed : p.claimed (.hasPerm key requested ref answer) =
      (avcHasPermNoaudit p.cache key requested (ref.bind p.refs) answer).claimed := rfl
    have hcache : (p.step (.hasPerm key requested ref answer)).cache =
      (avcHasPermNoaudit p.cache key requested (ref.bind p.refs) answer).cache := rfl
    rw [hclaimed, hcache]
    rcases avcHasPermNoaudit_cases hwf key requested (ref.bind p.refs) answer with
      ⟨s₁, ae, hkept, -, -, hv⟩ | ⟨s₁, rc, hkept, -, hv⟩ | ⟨s₁, n, avd, hans, hnew, hmiss, hplaced, hv⟩
    · rw [hv]
      refine Or.inl ⟨rfl, hkept.trans (kept_decideFrom ?_ requested none)⟩
      intro hlax i hs
      rw [hkept.enforcing, hs.enforcing, (hkept.entries ae).permissive, hs.unpermissive ae] at hlax
      simp at hlax
    · rw [hv]
      exact Or.inl ⟨rfl, hkept⟩
    · subst hans
      rw [hv]
      exact Or.inr (Or.inr ⟨n, key, avd, (decideFrom_ae s₁ requested n (some n)).2, rfl, hnew, ⟨requested, hmiss⟩,
        hplaced.between (Kept.refl _) (kept_decideFrom (fun _ _ => rfl) requested (some n))⟩)
  | computeCreate key answer create =>
    have hclaimed : p.claimed (.computeCreate key answer create) = (avcComputeCreate p.cache key answer create).1 := rfl
    have hcache : (p.step (.computeCreate key answer create)).cache = (avcComputeCreate p.cache key answer create).2 := rfl
    rw [hclaimed, hcache]
    rcases avcComputeCreate_cases hwf key answer create with ⟨s₁, hkept, hv⟩ | ⟨s₁, n, avd, hans, hnew, hmiss, hplaced, hv⟩
    · rw [hv]
      exact Or.inl ⟨rfl, hkept⟩
    · subst hans
      rw [hv]
      exact Or.inr (Or.inr ⟨n, key, avd, rfl, rfl, hnew, ⟨0#32, hmiss⟩, hplaced⟩)
  | call c =>
    cases c with
    | reset => exact Or.inr (Or.inl rfl)
    | ssReset seqno => exact Or.inr (Or.inl rfl)
    | control event key perms seqno =>
      refine Or.inl ⟨rfl, ?_⟩
      unfold Process.step Call.start
      dsimp only
      split
      · exact Kept.refl p.cache
      · refine kept_avcUpdateCache ?_
        rintro rfl n hn i hi -
        simp [Process.grants, hn, hi]
  | ret retained =>
    refine Or.inl ⟨rfl, ?_⟩
    unfold Process.step
    cases p.calls with
    | nil => exact Kept.refl _
    | cons c calls =>
      cases c with
      | reset => exact Kept.refl _
      | ssReset seqno => exact kept_raiseNotif seqno p.cache
      | control event key perms seqno =>
        refine Kept.trans ?_ (kept_raiseNotif seqno _)
        split
        next htry =>
          refine kept_avcUpdateCache fun hgrant => ?_
          cases htry.symm.trans hgrant
        · exact Kept.refl _

theorem Process.step_state (hwf : p.cache.WF) (a : Action) :
    (p.step a).cache.WF ∧ (p.step a).cache.enforcing = p.cache.enforcing ∧
      p.cache.latestNotif ≤ (p.step a).cache.latestNotif := by
  rcases p.step_cases hwf a with ⟨-, hkept⟩ | hflush | ⟨n, k, avd, -, -, -, -, hplaced⟩
  · exact ⟨hkept.wf hwf, hkept.enforcing, hkept.latestNotif⟩
  · rw [hflush]
    refine ⟨hwf.flush, ?_⟩
    rw [flush]
    exact ⟨rfl, BitVec.le_refl _⟩
  · exact ⟨hplaced.wf hwf, hplaced.enforcing, hplaced.latestNotif⟩

/-! ## Histories -/

structure History where
  process : Process
  clock : Nat := 0
  /-- The answers put into the cache. -/
  answers : List (Key × AvDecision) := []
  /-- The numbers of the `avc_ss_reset` calls that have returned. -/
  returned : List (BitVec 32) := []
  /-- When each permission of a node was last decided or granted. -/
  since : Node → Nat → Nat := fun _ _ => 0

variable {h : History}

namespace History

def start (nodes : Nat) : History := { process := { cache := avcInit nodes true } }

def step (h : History) (a : Action) : History where
  process := h.process.step a
  clock := h.clock + 1
  answers := if (h.process.claimed a).isSome then a.query.toList ++ h.answers else h.answers
  returned :=
    match a, h.process.calls with
    | .ret _, .ssReset seqno :: _ => seqno :: h.returned
    | _, _ => h.returned
  since := fun n i => if h.process.claimed a = some n ∨ h.process.grants a n i = true then h.clock + 1 else h.since n i

def run (h : History) (actions : List Action) : History := actions.foldl step h

/-- Each action of a run is as `Q` asks, at its time. -/
def Along (Q : History → Action → Prop) : History → List Action → Prop
  | _, [] => True
  | h, a :: actions => Q h a ∧ Along Q (h.step a) actions

instance decidableAlong {Q : History → Action → Prop} [∀ h a, Decidable (Q h a)] : ∀ h actions, Decidable (Along Q h actions)
  | _, [] => inferInstanceAs (Decidable True)
  | h, a :: actions => @instDecidableAnd (Q h a)
    (Along Q (h.step a) actions) inferInstance (decidableAlong (h.step a) actions)

/-- What holds at the start and is kept by each step that `Q` allows, holds after a run of such steps. -/
theorem Along.run {P : History → Prop} {Q : History → Action → Prop} (hstep : ∀ h a, P h → Q h a → P (h.step a))
    {actions : List Action} (hQ : Along Q h actions) (hP : P h) : P (h.run actions) := by
  induction actions generalizing h with
  | nil => exact hP
  | cons a l ih => exact ih hQ.2 (hstep h a hP hQ.1)

theorem along_append {Q : History → Action → Prop} {l l' : List Action} :
    Along Q h (l ++ l') ↔ Along Q h l ∧ Along Q (h.run l) l' := by
  induction l generalizing h with
  | nil => exact (iff_of_eq (true_and _)).symm
  | cons a l ih =>
    rw [cons_append, Along, Along, ih, and_assoc]
    exact Iff.rfl

theorem along_of_forall {Q : Action → Prop} {actions : List Action} (hQ : ∀ a ∈ actions, Q a) :
    Along (fun _ a => Q a) h actions := by
  induction actions generalizing h with
  | nil => trivial
  | cons a l ih =>
    obtain ⟨ha, hl⟩ := forall_mem_cons.mp hQ
    exact ⟨ha, ih hl⟩

end History

/-! ## Resets -/

/-- The numbers of the `avc_ss_reset` calls whose callbacks are running. -/
def resets (calls : List Call) : List (BitVec 32) :=
  calls.filterMap fun
    | .ssReset seqno => some seqno
    | _ => none

/-- No callback of a reset puts an older answer into the cache. -/
def Prompt (h : History) (a : Action) : Prop :=
  (h.process.claimed a).isSome = true → ∀ q ∈ a.query, ∀ n ∈ resets h.process.calls, n ≤ q.2.seqno

instance (h : History) (a : Action) : Decidable (Prompt h a) :=
  -- not over all numbers, which are finitely many too
  have (q : Key × AvDecision) : Decidable (∀ n ∈ resets h.process.calls, n ≤ q.2.seqno) := List.decidableBAll _ _
  inferInstanceAs
    (Decidable ((h.process.claimed a).isSome = true → ∀ q ∈ a.query, ∀ n ∈ resets h.process.calls, n ≤ q.2.seqno))

/-- Every cached entry is from an answer that no reset, done or under way, makes old. -/
structure Current (h : History) : Prop where
  wf : h.process.cache.WF
  enforcing : h.process.cache.enforcing = true
  raised : ∀ n ∈ h.returned, n ≤ h.process.cache.latestNotif
  answered : ∀ node, h.process.cache.Cached node → ∃ k avd, (k, avd) ∈ h.answers ∧
    Entry.Alike { k with avd } (h.process.cache.entries node) ∧ ∀ n ∈ h.returned ++ resets h.process.calls, n ≤ avd.seqno

theorem current_start (nodes : Nat) : Current (History.start nodes) where
  wf := wf_avcInit nodes true
  enforcing := rfl
  raised := nofun
  answered := by
    intro node hcached
    obtain ⟨_, hn⟩ := hcached
    cases hn

/-- A reset is done only after it was under way, and has then raised the latest notification. -/
theorem History.step_resets (h : History) (a : Action) :
    ((h.step a).returned = h.returned ∧
      (a.flushes = false → ∀ n ∈ resets (h.step a).process.calls, n ∈ resets h.process.calls)) ∨
      ∃ seqno, (h.step a).returned = seqno :: h.returned ∧
        resets h.process.calls = seqno :: resets (h.step a).process.calls ∧
        seqno ≤ (h.step a).process.cache.latestNotif := by
  cases a with
  | refInit ref => exact Or.inl ⟨rfl, fun _ _ hn => hn⟩
  | hasPerm key requested ref answer => exact Or.inl ⟨rfl, fun _ _ hn => hn⟩
  | computeCreate key answer create => exact Or.inl ⟨rfl, fun _ _ hn => hn⟩
  | call c =>
    refine Or.inl ⟨rfl, fun hno n hn => ?_⟩
    cases c with
    | reset => cases hno
    | ssReset seqno => cases hno
    | control event key perms seqno => exact hn
  | ret retained =>
    unfold History.step Process.step
    cases hcalls : h.process.calls with
    | nil => exact Or.inl ⟨by simp only, fun _ n hn => by simpa only [hcalls] using hn⟩
    | cons c calls =>
      cases c with
      | reset => exact Or.inl ⟨by simp only, fun _ n hn => hn⟩
      | control event key perms seqno => exact Or.inl ⟨by simp only, fun _ n hn => hn⟩
      | ssReset seqno => exact Or.inr ⟨seqno, by simp only, rfl, (le_raiseNotif seqno h.process.cache)⟩

theorem mem_resets_step (hno : a.flushes = false) {n : BitVec 32}
    (hn : n ∈ (h.step a).returned ++ resets (h.step a).process.calls) : n ∈ h.returned ++ resets h.process.calls := by
  rcases h.step_resets a with ⟨hreturned, hcalls⟩ | ⟨seqno, hreturned, hcalls, -⟩
  · rw [hreturned] at hn
    exact mem_append.mpr ((mem_append.mp hn).imp_right (hcalls hno n))
  · rw [hreturned, cons_append] at hn
    rw [hcalls]
    exact perm_middle.mem_iff.mpr hn

theorem Action.not_flushes (h : a.query = some q) : a.flushes = false := by
  cases a <;> first | rfl | cases h

theorem mem_returned_step {n : BitVec 32} (hn : n ∈ (h.step a).returned) :
    n ∈ h.returned ∨ n ≤ (h.process.step a).cache.latestNotif := by
  rcases h.step_resets a with ⟨hreturned, -⟩ | ⟨seqno, hreturned, -, hle⟩
  · exact Or.inl (hreturned ▸ hn)
  · rw [hreturned] at hn
    rcases mem_cons.mp hn with rfl | hn
    · exact Or.inr hle
    · exact Or.inl hn

theorem mem_answers_step (hq : q ∈ h.answers) : q ∈ (h.step a).answers := by
  unfold History.step
  split
  · exact mem_append_right _ hq
  · exact hq

/-- The answer that was put into a node is one of the history. -/
theorem query_mem_answers (hn : h.process.claimed a = some n) (hq : a.query = some q) : q ∈ (h.step a).answers := by
  unfold History.step
  rw [if_pos (by rw [hn]; rfl), hq]
  exact mem_append_left _ mem_cons_self

theorem Current.step (hc : Current h) (hp : Prompt h a) : Current (h.step a) where
  wf := (h.process.step_state hc.wf a).1
  enforcing := (h.process.step_state hc.wf a).2.1.trans hc.enforcing
  raised := by
    intro n hn
    rcases mem_returned_step hn with hn | hn
    · exact BitVec.le_trans (hc.raised n hn) (h.process.step_state hc.wf a).2.2
    · exact hn
  answered := by
    intro node hcached
    rcases h.process.step_cases hc.wf a with ⟨hno, hkept⟩ | hflush | ⟨n, k, avd, hclaimed, hquery, hnew, -, hplaced⟩
    · obtain ⟨k, avd, hmem, halike, hold⟩ := hc.answered node (hkept.cached.mp hcached)
      exact ⟨k, avd, mem_answers_step hmem, halike.trans (hkept.entries node).toAlike,
        fun n hn => hold n (mem_resets_step hno hn)⟩
    · have hcached : (flush h.process.cache).Cached node := hflush ▸ hcached
      exact absurd hcached not_cached_flush
    · have hno := Action.not_flushes hquery
      by_cases he : node = n
      · subst he
        refine ⟨k, avd, query_mem_answers hclaimed hquery, hplaced.entry, ?_⟩
        -- the answer passed the test of `avc_insert`, and the callbacks of a reset are prompt
        intro m hm
        rcases mem_append.mp (mem_resets_step hno hm) with hm | hm
        · exact BitVec.le_trans (hc.raised m hm) hnew
        · exact hp (by rw [hclaimed]; rfl) (k, avd) hquery m hm
      · obtain ⟨k', avd', hmem, halike, hold⟩ := hc.answered node (((hplaced.cached_iff hc.wf).mp hcached).resolve_left he)
        exact ⟨k', avd', mem_answers_step hmem, halike.trans (hplaced.others node he).toAlike,
          fun n hn => hold n (mem_resets_step hno hn)⟩

/-- In enforcing mode a check that succeeds has decided from a cached entry for the key. A
    reference to a blank node does not help: it decides nothing, and nothing is not granted. -/
theorem hasPerm_ok (hwf : p.cache.WF) (henf : p.cache.enforcing = true) {requested : Av} {ref : Option Nat}
    {answer : Answer} (hok : (p.hasPerm k requested ref answer).rc = 0) :
    ∃ ae, (p.hasPerm k requested ref answer).ae = some ae ∧ (p.hasPerm k requested ref answer).cache.Cached ae ∧
      ((p.hasPerm k requested ref answer).cache.entries ae).toKey = k ∧
      requested &&& ~~~((p.hasPerm k requested ref answer).cache.entries ae).avd.allowed = 0#32 := by
  unfold Process.hasPerm at hok ⊢
  rcases avcHasPermNoaudit_cases (G := fun _ _ => True) hwf k requested (ref.bind p.refs) answer with
    ⟨s₁, ae, hkept, hkey, hdec, hv⟩ | ⟨s₁, rc, hkept, hrc, hv⟩ | ⟨s₁, n, avd, -, -, -, hplaced, hv⟩
  · rw [hv] at hok ⊢
    obtain ⟨hask, hallowed⟩ := decideFrom_ok (hkept.enforcing.trans henf) hok
    have hdecide : Kept (fun _ _ => True) s₁ (decideFrom s₁ requested ae none).cache :=
      kept_decideFrom (fun _ _ => trivial) requested none
    refine ⟨ae, (decideFrom_ae s₁ requested ae none).1, ?_, (hdecide.entries ae).key.trans hkey, hallowed⟩
    refine hdecide.cached.mpr (hkept.cached.mpr (Classical.byContradiction fun hno => ?_))
    have hblank := (hwf.blank ae hno).trans (hkept.entries ae).toAlike
    rcases hask with hne | hperm
    · unfold decides at hdec
      rw [hblank.decided, decide_eq_true_eq, BitVec.zero_and] at hdec
      exact hne hdec.symm
    · unfold AvDecision.permissive at hperm
      rw [hblank.flags] at hperm
      exact absurd hperm (by decide)
  · rw [hv] at hok
    rw [hrc henf] at hok
    cases hok
  · rw [hv] at hok ⊢
    obtain ⟨-, hallowed⟩ := decideFrom_ok (hplaced.enforcing.trans henf) hok
    have hdecide : Kept (fun _ _ => True) s₁ (decideFrom s₁ requested n (some n)).cache :=
      kept_decideFrom (fun _ _ => trivial) requested (some n)
    refine ⟨n, (decideFrom_ae s₁ requested n (some n)).1, ?_, (hdecide.entries n).key.trans hplaced.entry.key, hallowed⟩
    exact hdecide.cached.mpr ((hplaced.cached_iff hwf).mpr (Or.inl rfl))

/-- After an `avc_ss_reset` has returned, a check that succeeds decides from an answer of the
    security server for its key that is not older than the reset. -/
theorem reset_current (nodes : Nat) (actions : List Action) (k : Key) (requested : Av) (ref : Option Nat) (answer : Answer)
    (hprompt : History.Along Prompt (History.start nodes) (actions ++ [.hasPerm k requested ref answer]))
    (n : BitVec 32) (hn : n ∈ ((History.start nodes).run actions).returned)
    (hok : (((History.start nodes).run actions).process.hasPerm k requested ref answer).rc = 0) :
    ∃ ae avd, (((History.start nodes).run actions).process.hasPerm k requested ref answer).ae = some ae ∧
      (k, avd) ∈ (((History.start nodes).run actions).step (.hasPerm k requested ref answer)).answers ∧
      Entry.Alike { k with avd }
        ((((History.start nodes).run actions).process.hasPerm k requested ref answer).cache.entries ae) ∧
      n ≤ avd.seqno := by
  obtain ⟨hprompt, hlast, -⟩ := History.along_append.mp hprompt
  have hc : Current ((History.start nodes).run actions) := hprompt.run (fun h a hc hp => hc.step hp) (current_start nodes)
  obtain ⟨ae, hae, hcached, hkey, -⟩ := hasPerm_ok hc.wf hc.enforcing hok
  obtain ⟨k', avd, hmem, halike, hold⟩ := (hc.step hlast).answered ae hcached
  have hk : k' = k := halike.key.symm.trans hkey
  subst hk
  exact ⟨ae, avd, hae, hmem, halike, hold n (mem_append_left _ hn)⟩

def someKey : Key := { ssid := 8#64, tsid := 16#64, tclass := 1#16 }

/-- An answer that decides everything and allows the first permission. -/
def wholeAnswer (seqno : BitVec 32) : Answer := .decision { allowed := 1#32, decided := BitVec.allOnes 32, seqno }

/-- The node of the caller's reference is cleared by a reset and used again by its callback. -/
def reusedRun : List Action :=
  [.hasPerm someKey 1#32 (some 0) (wholeAnswer 1#32), .call (.ssReset 5#32),
    .hasPerm someKey 1#32 none (wholeAnswer 6#32), .ret 0#32]

theorem reset_current_reused :
    ∃ ae avd, (((History.start 2).run reusedRun).process.hasPerm someKey 1#32 (some 0) (.error false)).ae = some ae ∧
      (someKey, avd) ∈ (((History.start 2).run reusedRun).step (.hasPerm someKey 1#32 (some 0) (.error false))).answers ∧
      Entry.Alike { someKey with avd }
        ((((History.start 2).run reusedRun).process.hasPerm someKey 1#32 (some 0) (.error false)).cache.entries ae) ∧
      5#32 ≤ avd.seqno :=
  reset_current 2 reusedRun someKey 1#32 (some 0) (.error false) (by decide +kernel) 5#32 (by decide +kernel)
    (by decide +kernel)

/-- A callback of the reset asks and gets an older answer. -/
def outrunRun : List Action := [.call (.ssReset 5#32), .hasPerm someKey 1#32 none (wholeAnswer 3#32), .ret 0#32]

/-- It is decided from after the reset, too. -/
theorem reset_outrun :
    5#32 ∈ ((History.start 2).run outrunRun).returned ∧
      (((History.start 2).run outrunRun).process.hasPerm someKey 1#32 none (.error false)).rc = 0 ∧
      (((History.start 2).run outrunRun).process.hasPerm someKey 1#32 none (.error false)).ae = some 1 ∧
      ((((History.start 2).run outrunRun).process.hasPerm someKey 1#32 none (.error false)).avd {}).seqno = 3#32 :=
  ⟨by decide +kernel, by decide +kernel, by decide +kernel, by decide +kernel⟩

/-! ## Revocations -/

theorem strict_start (nodes : Nat) : Strict (History.start nodes).process where
  wf := wf_avcInit nodes true
  enforcing := rfl
  unpermissive := by
    intro n
    show ({} : Entry).avd.permissive = false
    decide

theorem Strict.step (hs : Strict p) (ha : a.Unpermissive) : Strict (p.step a) where
  wf := (p.step_state hs.wf a).1
  enforcing := (p.step_state hs.wf a).2.1.trans hs.enforcing
  unpermissive := by
    intro n
    rcases p.step_cases hs.wf a with ⟨-, hkept⟩ | hflush | ⟨m, k, avd, -, hquery, -, -, hplaced⟩
    · rw [(hkept.entries n).permissive]
      exact hs.unpermissive n
    · rw [hflush, flush]
      dsimp only
      split
      · rfl
      · exact hs.unpermissive n
    · by_cases he : n = m
      · subst he
        rw [hplaced.entry.permissive]
        exact ha (k, avd) hquery
      · rw [(hplaced.others n he).permissive]
        exact hs.unpermissive n

/-- A step allows a permission only by an answer or by a grant. -/
theorem Strict.step_allowed (hs : Strict p) (h : ((p.step a).cache.entries n).avd.allowed.getLsbD i = true) :
    (p.cache.entries n).avd.allowed.getLsbD i = true ∨ p.claimed a = some n ∨ p.grants a n i = true := by
  rcases p.step_cases hs.wf a with ⟨-, hkept⟩ | hflush | ⟨m, k, avd, hclaimed, -, -, -, hplaced⟩
  · exact ((hkept.entries n).allowed i h).imp_right fun hgrant => Or.inr (hgrant hs)
  · rw [hflush, flush] at h
    dsimp only at h
    split at h
    · simp at h
    · exact Or.inl h
  · by_cases hn : n = m
    · exact Or.inr (Or.inl (hn ▸ hclaimed))
    · exact Or.inl (((hplaced.others n hn).allowed i h).resolve_right id)

/-- The key has one node at most, and it decides everything. -/
structure Sole (k : Key) (s : Cache) : Prop where
  full : ∀ n, s.Cached n → (s.entries n).toKey = k → (s.entries n).avd.decided = BitVec.allOnes 32
  sole : ∀ n m, s.Cached n → s.Cached m → (s.entries n).toKey = k → (s.entries m).toKey = k → n = m

theorem sole_start (k : Key) (nodes : Nat) : Sole k (History.start nodes).process.cache where
  full := by
    intro n hn
    obtain ⟨_, hn⟩ := hn
    cases hn
  sole := by
    intro n m hn
    obtain ⟨_, hn⟩ := hn
    cases hn

theorem Sole.step (hs : Sole k p.cache) (hwf : p.cache.WF)
    (ha : ∀ q ∈ a.query, q.1 = k → q.2.decided = BitVec.allOnes 32) : Sole k (p.step a).cache := by
  rcases p.step_cases hwf a with ⟨-, hkept⟩ | hflush | ⟨n, k', avd, -, hquery, -, ⟨requested, hmiss⟩, hplaced⟩
  · refine ⟨fun n hn hk => ?_, fun n m hn hm hkn hkm => ?_⟩
    · rw [(hkept.entries n).key] at hk
      rw [(hkept.entries n).decided]
      exact hs.full n (hkept.cached.mp hn) hk
    · rw [(hkept.entries n).key] at hkn
      rw [(hkept.entries m).key] at hkm
      exact hs.sole n m (hkept.cached.mp hn) (hkept.cached.mp hm) hkn hkm
  · rw [hflush]
    exact ⟨fun n hn => absurd hn not_cached_flush, fun n m hn => absurd hn not_cached_flush⟩
  · have hold : ∀ m, m ≠ n → (p.step a).cache.Cached m → p.cache.Cached m := fun m hm hc =>
      ((hplaced.cached_iff hwf).mp hc).resolve_left hm
    -- the lookup missed, so a node placed for `k` is the first one
    have hfirst : k' = k → ∀ m, p.cache.Cached m → (p.cache.entries m).toKey ≠ k := by
      intro hk
      subst hk
      exact avcLookup_none hwf hmiss hs.full
    refine ⟨fun m hm hk => ?_, fun m₁ m₂ h₁ h₂ hk₁ hk₂ => ?_⟩
    · by_cases he : m = n
      · subst he
        rw [hplaced.entry.key] at hk
        subst hk
        rw [hplaced.entry.decided]
        exact ha (k', avd) hquery rfl
      · rw [(hplaced.others m he).key] at hk
        rw [(hplaced.others m he).decided]
        exact hs.full m (hold m he hm) hk
    · by_cases he₁ : m₁ = n
      · by_cases he₂ : m₂ = n
        · rw [he₁, he₂]
        · rw [he₁, hplaced.entry.key] at hk₁
          rw [(hplaced.others m₂ he₂).key] at hk₂
          exact absurd hk₂ (hfirst hk₁ m₂ (hold m₂ he₂ h₂))
      · rw [(hplaced.others m₁ he₁).key] at hk₁
        by_cases he₂ : m₂ = n
        · rw [he₂, hplaced.entry.key] at hk₂
          exact absurd hk₁ (hfirst hk₂ m₁ (hold m₁ he₁ h₁))
        · rw [(hplaced.others m₂ he₂).key] at hk₂
          exact hs.sole m₁ m₂ (hold m₁ he₁ h₁) (hold m₂ he₂ h₂) hk₁ hk₂

/-- The keys an event is about. -/
def Names (k key : Key) : Prop :=
  (k.ssid = wild ∨ key.ssid = k.ssid) ∧ (k.tsid = wild ∨ key.tsid = k.tsid) ∧ key.tclass = k.tclass

instance (k key : Key) : Decidable (Names k key) := inferInstanceAs (Decidable (_ ∧ _))

/-- An event reaches every cached node it is about, if it names no particular source or target or
    the key has one node at most. -/
theorem mem_targets {s : Cache} (hwf : s.WF) (hsole : k.ssid = wild ∨ k.tsid = wild ∨ Sole k s) (hn : s.Cached n)
    (hk : Names k (s.entries n).toKey) : n ∈ targets s k := by
  unfold targets
  by_cases hw : k.ssid = wild ∨ k.tsid = wild
  · rw [if_pos hw, mem_filter, mem_nodes]
    refine ⟨hn, ?_⟩
    have hcmp : ∀ {x y : Sid}, x = wild ∨ y = x → avcSidcmp x y = true := by
      intro x y h
      unfold avcSidcmp
      rcases h with h | h <;> simp [h]
    rw [hcmp hk.1, hcmp hk.2.1, Bool.true_and, Bool.true_and, decide_eq_true_eq]
    exact hk.2.2.symm
  · rw [if_neg hw]
    rw [not_or] at hw
    have hkey : (s.entries n).toKey = k := by
      have h1 := hk.1.resolve_left hw.1
      have h2 := hk.2.1.resolve_left hw.2
      have h3 := hk.2.2
      generalize (s.entries n).toKey = key at h1 h2 h3
      obtain ⟨ssid, tsid, tclass⟩ := key
      simp_all
    obtain ⟨hv, hmem⟩ := id hn
    have hslot : avcHash k = hv := hkey ▸ hwf.hashed hv n hmem
    subst hslot
    unfold avcSearchNode
    cases hfind : (s.slots (avcHash k)).find? fun n => (s.entries n).toKey = k with
    | none => exact absurd hkey (by simpa using List.find?_eq_none.mp hfind n hmem)
    | some m =>
      have hmkey : (s.entries m).toKey = k := by simpa using List.find?_some hfind
      have hs := (hsole.resolve_left hw.1).resolve_left hw.2
      have he : n = m := hs.sole n m hn ⟨_, mem_of_find?_eq_some hfind⟩ hkey hmkey
      rw [he]
      exact mem_singleton_self m

/-- What is still allowed of the revoked permissions was decided or granted after time `t`. -/
def Revoked (k : Key) (perms : Av) (t : Nat) (h : History) : Prop :=
  ∀ n, h.process.cache.Cached n → Names k (h.process.cache.entries n).toKey → ∀ i, perms.getLsbD i = true →
    (h.process.cache.entries n).avd.allowed.getLsbD i = true → t < h.since n i

theorem revoked_revoke (hwf : h.process.cache.WF) (perms : Av) (seqno : BitVec 32)
    (hsole : k.ssid = wild ∨ k.tsid = wild ∨ Sole k h.process.cache) :
    Revoked k perms h.clock (h.step (.call (.control .revoke k perms seqno))) := by
  intro n hn hk i hi hallowed
  have hkept : Kept (fun _ _ => True) h.process.cache (avcUpdateCache .revoke k perms h.process.cache) :=
    kept_avcUpdateCache (by simp)
  have heq : (h.step (.call (.control .revoke k perms seqno))).process.cache =
    avcUpdateCache .revoke k perms h.process.cache := rfl
  rw [heq] at hn hk hallowed
  rw [(hkept.entries n).key] at hk
  have hmem := mem_targets hwf hsole (hkept.cached.mp hn) hk
  have hoff : ∀ e, ¬(avcUpdateNode .revoke perms e).avd.allowed.getLsbD i = true := by
    intro e
    rw [avcUpdateNode, disallow, BitVec.getLsbD_and, BitVec.getLsbD_not, hi]
    simp
  exact absurd hallowed (foldl_modify (P := fun e => ¬e.avd.allowed.getLsbD i = true) hoff hmem _)

theorem Revoked.step {t : Nat} (hr : Revoked k perms t h) (hs : Strict h.process) (ht : t ≤ h.clock) :
    Revoked k perms t (h.step a) := by
  intro n hn hk i hi hallowed
  show t < (if h.process.claimed a = some n ∨ h.process.grants a n i = true then h.clock + 1 else h.since n i)
  by_cases hnew : h.process.claimed a = some n ∨ h.process.grants a n i = true
  · rw [if_pos hnew]
    omega
  · rw [if_neg hnew]
    have hold := (hs.step_allowed hallowed).resolve_right hnew
    have hclaimed : h.process.claimed a ≠ some n := fun hc => hnew (Or.inl hc)
    rcases h.process.step_cases hs.wf a with ⟨-, hkept⟩ | hflush | ⟨m, k', avd, hm, -, -, -, hplaced⟩
    · have hk : Names k ((h.process.step a).cache.entries n).toKey := hk
      rw [(hkept.entries n).key] at hk
      exact hr n (hkept.cached.mp hn) hk i hi hold
    · have hn : (flush h.process.cache).Cached n := hflush ▸ hn
      exact absurd hn not_cached_flush
    · have hne : n ≠ m := fun he => hclaimed (he ▸ hm)
      have hk : Names k ((h.process.step a).cache.entries n).toKey := hk
      rw [(hplaced.others n hne).key] at hk
      exact hr n (((hplaced.cached_iff hs.wf).mp hn).resolve_left hne) hk i hi hold

/-- The history of a revocation. -/
def revocation (nodes : Nat) (before : List Action) (k : Key) (perms : Av) (seqno : BitVec 32) (after : List Action) :
    History :=
  (((History.start nodes).run before).step (.call (.control .revoke k perms seqno))).run after

/-- After a revocation no check grants a revoked permission by a decision from before, if the
    revocation names no particular source or target, or every earlier answer for its key has
    decided all permissions. -/
theorem revoke_effective (nodes : Nat) (before after : List Action) (k : Key) (perms : Av) (seqno : BitVec 32) (key : Key)
    (requested : Av) (ref : Option Nat) (answer : Answer)
    (hstrict : ∀ a ∈ before ++ after ++ [.hasPerm key requested ref answer], a.Unpermissive)
    (hwhole : k.ssid = wild ∨ k.tsid = wild ∨ ∀ a ∈ before, ∀ q ∈ a.query, q.1 = k → q.2.decided = BitVec.allOnes 32)
    (hkey : Names k key)
    (hok : ((revocation nodes before k perms seqno after).process.hasPerm key requested ref answer).rc = 0)
    (i : Nat) (hi : (requested &&& perms).getLsbD i = true) :
    ∃ ae, ((revocation nodes before k perms seqno after).process.hasPerm key requested ref answer).ae = some ae ∧
      ((History.start nodes).run before).clock <
        ((revocation nodes before k perms seqno after).step (.hasPerm key requested ref answer)).since ae i := by
  have hbefore : ∀ a ∈ before, a.Unpermissive := fun a ha => hstrict a (by simp [ha])
  have hafter : ∀ a ∈ after, a.Unpermissive := fun a ha => hstrict a (by simp [ha])
  have hs₁ : Strict ((History.start nodes).run before).process :=
    (History.along_of_forall hbefore).run (P := fun h => Strict h.process) (fun h a hs ha => hs.step ha) (strict_start nodes)
  have hsole : k.ssid = wild ∨ k.tsid = wild ∨ Sole k ((History.start nodes).run before).process.cache := by
    rcases hwhole with hw | hw | hw
    · exact Or.inl hw
    · exact Or.inr (Or.inl hw)
    · refine Or.inr (Or.inr ?_)
      have hQ : ∀ a ∈ before, a.Unpermissive ∧ ∀ q ∈ a.query, q.1 = k → q.2.decided = BitVec.allOnes 32 :=
        fun a ha => ⟨hbefore a ha, hw a ha⟩
      refine ((History.along_of_forall hQ).run (P := fun h => Strict h.process ∧ Sole k h.process.cache) ?_
        ⟨strict_start nodes, sole_start k nodes⟩).2
      intro h a hP hQ
      exact ⟨hP.1.step hQ.1, hP.2.step hP.1.wf hQ.2⟩
  have hrevoke : (Action.call (.control .revoke k perms seqno)).Unpermissive := fun _ hq => nomatch hq
  -- from the revocation on, every step keeps the older decisions out
  obtain ⟨hs₂, hr₂, ht₂⟩ : Strict (revocation nodes before k perms seqno after).process ∧
      Revoked k perms ((History.start nodes).run before).clock (revocation nodes before k perms seqno after) ∧
      ((History.start nodes).run before).clock ≤ (revocation nodes before k perms seqno after).clock := by
    refine (History.along_of_forall hafter).run (P := fun h => Strict h.process ∧
      Revoked k perms ((History.start nodes).run before).clock h ∧ ((History.start nodes).run before).clock ≤ h.clock) ?_ ?_
    · intro h a hP ha
      exact ⟨hP.1.step ha, hP.2.1.step hP.1 hP.2.2, Nat.le_succ_of_le hP.2.2⟩
    · exact ⟨hs₁.step hrevoke, revoked_revoke hs₁.wf perms seqno hsole, Nat.le_succ _⟩
  obtain ⟨ae, hae, hcached, hkey', hallowed⟩ := hasPerm_ok hs₂.wf hs₂.enforcing hok
  rw [BitVec.getLsbD_and, Bool.and_eq_true] at hi
  refine ⟨ae, hae, (hr₂.step (a := .hasPerm key requested ref answer) hs₂ ht₂) ae hcached (hkey'.symm ▸ hkey) i hi.2 ?_⟩
  have hbit := congrArg (·.getLsbD i) hallowed
  simp only [BitVec.getLsbD_and, BitVec.getLsbD_not, hi.1, Bool.true_and, BitVec.getLsbD_zero] at hbit
  have hlt : i < 32 := BitVec.lt_of_getLsbD hi.1
  simp only [hlt, decide_true, Bool.true_and, Bool.not_eq_false'] at hbit
  exact hbit

/-- What is revoked is granted again. -/
theorem revoke_effective_grant :
    ∃ ae, ((revocation 2 [.hasPerm someKey 1#32 (some 0) (wholeAnswer 1#32)] someKey 1#32 0#32
        [.ret 0#32, .call (.control .grant someKey 1#32 0#32), .ret 0#32]).process.hasPerm someKey 1#32 (some 0)
          (.error false)).ae = some ae ∧
      ((History.start 2).run [.hasPerm someKey 1#32 (some 0) (wholeAnswer 1#32)]).clock <
        ((revocation 2 [.hasPerm someKey 1#32 (some 0) (wholeAnswer 1#32)] someKey 1#32 0#32
          [.ret 0#32, .call (.control .grant someKey 1#32 0#32), .ret 0#32]).step
            (.hasPerm someKey 1#32 (some 0) (.error false))).since ae 0 :=
  revoke_effective 2 [.hasPerm someKey 1#32 (some 0) (wholeAnswer 1#32)] [.ret 0#32,
    .call (.control .grant someKey 1#32 0#32), .ret 0#32]
    someKey 1#32 0#32 someKey 1#32 (some 0) (.error false) (by decide) (Or.inr (Or.inr (by decide))) (by decide)
      (by decide +kernel) 0
    (by decide)

/-- An answer that decides and allows some permissions only. -/
def partialAnswer (perms : Av) : Answer := .decision { allowed := perms, decided := perms }

/-- Two permissions, asked for one after the other, have two nodes. The caller keeps a reference
    to the first, which the second now stands before. -/
def twoNodes : List Action :=
  [.hasPerm someKey 1#32 (some 0) (partialAnswer 1#32), .hasPerm someKey 2#32 none (partialAnswer 2#32)]

/-- The revocation of the first permission changes the second node, and the reference still grants it. -/
theorem revoke_misses :
    (∀ a ∈ twoNodes, a.Unpermissive) ∧
      ((revocation 2 twoNodes someKey 1#32 0#32 [.ret 0#32]).process.hasPerm someKey 1#32 (some 0) (.error false)).rc = 0 ∧
      ((revocation 2 twoNodes someKey 1#32 0#32 [.ret 0#32]).process.hasPerm someKey 1#32 (some 0)
        (.error false)).ae = some 1 ∧
      ((History.start 2).run twoNodes).clock = 2 ∧
      ((revocation 2 twoNodes someKey 1#32 0#32 [.ret 0#32]).step
        (.hasPerm someKey 1#32 (some 0) (.error false))).since 1 0 = 1 :=
  ⟨by decide, by decide +kernel, by decide +kernel, by decide +kernel, by decide +kernel⟩

end SELinux.Userland.Avc
