/-
  SELinux.Services.Sids — what a SID stands for while policies come and go
  (`libsepol/src/services.c`: `sepol_context_to_sid`, `sepol_sid_to_context`,
  `sepol_load_policy`).

  A load keeps the SIDs whose contexts exist in the new policy and drops the others, which
  are then read as the unlabeled context. A dropped SID must not be given out again, but
  `next_sid` is computed anew from the entries copied, so a SID at the top of the table that
  one load drops is free after the next one (`sid_given_out_twice`).

  `sid_denotes_same_context`: along any run whose loads find the newest SID in the table,
  keep the names that contexts are written with and keep the unlabeled context, a SID stands
  for the context it was given out for, or for the unlabeled one, and is not given out for
  another.

  A request is made for a context as `context_from_string` builds it: one that is valid
  under the active policy.
-/
import SELinux.Services.Load

namespace SELinux.Services

open Db Lib Option

variable {sv sv' : Server} {context : Context} {sid : Nat} {oom : Bool} {body : BodyReader} {str : Name} {r : Option Nat}

/-- `none` is STATUS_ERR. -/
def sepolContextToSid (sv : Server) (context : Context) (oom : Bool) : Option Nat × Server :=
  match sv.active with
  | none => (none, sv)
  | some p =>
    if contextIsValid p context then
      ((sidtabContextToSid sv.sidtab context oom).1.toOption,
        { sv with sidtab := (sidtabContextToSid sv.sidtab context oom).2 })
    else (none, sv)

def sepolSidToContext (sv : Server) (sid : Nat) : Option Name := do
  let p ← sv.active
  let context ← sidtabSearch sv.sidtab sid
  return contextToString p context

/-- Runs of requests and of loads that succeed, where every load meets a condition. -/
inductive Reaches (body : BodyReader) (ok : Server → LoadCall → Prop) (start : Server) : Server → Prop
  | refl : Reaches body ok start start
  | request {sv sv' : Server} {context : Context} {oom : Bool} {r : Option Nat} :
      Reaches body ok start sv → sepolContextToSid sv context oom = (r, sv') → Reaches body ok start sv'
  | load {sv sv' : Server} {call : LoadCall} :
      Reaches body ok start sv → ok sv call → sepolLoadPolicy body sv call = some (0, sv') → Reaches body ok start sv'

/-! ## Names -/

/-- The new policy has the names of contexts of the old one as its own names, not as
    aliases, and writes ranges in the same way. -/
structure KeepsContexts (oldp newp : Policydb) : Prop where
  users : oldp.pUsers.KeepsNames newp.pUsers
  roles : oldp.pRoles.KeepsNames newp.pRoles
  types : oldp.pTypes.KeepsNames newp.pTypes
  mls : newp.mls = oldp.mls
  ranges : oldp.mls = true → KeepsMls oldp newp

theorem KeepsContexts.refl (p : Policydb) : KeepsContexts p p where
  users := Symtab.KeepsNames.refl _
  roles := Symtab.KeepsNames.refl _
  types := Symtab.KeepsNames.refl _
  mls := rfl
  ranges _ := { cats := fun _ => rfl, levels := Symtab.KeepsNames.refl _ }

theorem mlsConvertContext_values {oldp newp : Policydb} {c c' : Context} (h : mlsConvertContext oldp newp c = some c') :
    c'.user = c.user ∧ c'.role = c.role ∧ c'.type = c.type := by
  unfold mlsConvertContext at h
  split at h
  · cases h
    exact ⟨rfl, rfl, rfl⟩
  · simp only [bind_eq_bind, bind_eq_some_iff, pure_def, Option.some.injEq] at h
    obtain ⟨low, -, high, -, rfl⟩ := h
    exact ⟨rfl, rfl, rfl⟩

/-- A converted context is written as before. -/
theorem contextToString_convert {oldp newp : Policydb} (hk : KeepsContexts oldp newp) {c c' : Context}
    (h : convertContext oldp newp c = some c') : contextToString newp c' = contextToString oldp c := by
  unfold convertContext at h
  simp only [bind_eq_bind, bind_eq_some_iff] at h
  obtain ⟨ud, ⟨uname, hun, hud⟩, rd, ⟨rname, hrn, hrd⟩, td, ⟨tname, htn, htd⟩, d, hmls, hd⟩ := h
  obtain rfl : d = c' := by
    split_ifs at hd
    exact Option.some.inj hd
  obtain ⟨hu, hr, ht⟩ := mlsConvertContext_values hmls
  have hrange := mlsSidToContext_convert hk.mls hk.ranges hmls
  unfold contextToString
  rw [hrange, hu, hr, ht, hun, hrn, htn, hk.users _ _ ud hun hud, hk.roles _ _ rd hrn hrd, hk.types _ _ td htn htd]
  rfl

/-! ## One load -/

/-- A load that no SID is lost or given out again by: the newest SID is in the table, names
    stay, and the unlabeled context stays, or all do. -/
structure LoadKeeps (body : BodyReader) (sv : Server) (call : LoadCall) : Prop where
  newest : sv.sidtab.nextSid = 1 ∨ (sv.sidtab.find (sv.sidtab.nextSid - 1)).isSome = true
  contexts : ∀ p newp, sv.active = some p → call.read body = some newp → KeepsContexts p newp
  unlabeled : ∀ p newp, sv.active = some p → call.read body = some newp → ∀ n ∈ sv.sidtab.nodes,
    n.sid = secinitsidUnlabeled ∨ sv.sidtab.find secinitsidUnlabeled = none →
      (convertNode call.convertOom p newp n).isSome = true

variable {t : Sidtab}

/-- What the table has after a load: the entries that converted. -/
theorem find_load {tab : Sidtab} {oom : Nat → Bool} (ht : t.Below) (htab : cloneSids t oom = .ok tab)
    (apply : SidtabNode → Option Context)
    (sid : Nat) (c : Context) : (mapRemoveOnError tab apply).find sid = some c ↔ ∃ c0, t.find sid = some c0 ∧
      apply ⟨sid, c0⟩ = some c := by
  rw [Sidtab.find_eq_some_iff, mem_mapRemoveOnError]
  constructor
  · intro h
    obtain ⟨n, hn, hsid, hc⟩ := h
    obtain ⟨nsid, c0⟩ := n
    obtain rfl : nsid = sid := hsid
    exact ⟨c0, Sidtab.find_eq_some_iff.mpr (((cloneSids_ok ht htab).1 _).mp hn), hc⟩
  · intro h
    obtain ⟨c0, hf, hc⟩ := h
    exact ⟨⟨sid, c0⟩, ((cloneSids_ok ht htab).1 _).mpr (Sidtab.find_eq_some_iff.mp hf), rfl, hc⟩

theorem below_load {tab : Sidtab} {oom : Nat → Bool} (ht : t.Below) (htab : cloneSids t oom = .ok tab)
    (apply : SidtabNode → Option Context) : (mapRemoveOnError tab apply).Below := by
  obtain ⟨-, hbelow, -⟩ := cloneSids_ok ht htab
  refine ⟨?_, hbelow.positive, hbelow.narrow⟩
  intro m hm
  obtain ⟨n, hn, hsid, -⟩ := mem_mapRemoveOnError.mp hm
  rw [← hsid]
  exact hbelow.sids n hn

/-! ## Runs -/

/-- The server, as a SID given out for a context written `str` sees it. -/
structure Denotes (sv : Server) (sid : Nat) (str : Name) : Prop where
  below : sv.sidtab.Below
  running : sv.active.isSome = true
  given : sid < sv.sidtab.nextSid
  same : ∀ p c, sv.active = some p → sv.sidtab.find sid = some c → contextToString p c = str
  gone : sv.sidtab.find sid = none → (sv.sidtab.find secinitsidUnlabeled).isSome = true

/-- What a request does to the server. -/
theorem sepolContextToSid_cases (h : sepolContextToSid sv context oom = (r, sv')) :
    (sv' = sv ∧ r = none) ∨
      ∃ tab e, sidtabContextToSid sv.sidtab context oom = (e, tab) ∧ r = e.toOption ∧ sv' = { sv with sidtab := tab } := by
  unfold sepolContextToSid at h
  split at h
  · cases h
    exact Or.inl ⟨rfl, rfl⟩
  · split at h
    · cases h
      exact Or.inr ⟨_, _, rfl, rfl, rfl⟩
    · cases h
      exact Or.inl ⟨rfl, rfl⟩

theorem sepolContextToSid_some (h : sepolContextToSid sv context oom = (some sid, sv')) :
    ∃ tab, sidtabContextToSid sv.sidtab context oom = (.ok sid, tab) ∧ sv' = { sv with sidtab := tab } := by
  rcases sepolContextToSid_cases h with ⟨-, hnone⟩ | ⟨tab, e, htab, hr, hsv⟩
  · cases hnone
  · cases e with
    | error e => cases hr
    | ok s => cases hr; exact ⟨tab, htab, hsv⟩

theorem below_request (hb : sv.sidtab.Below) (h : sepolContextToSid sv context oom = (r, sv')) : sv'.sidtab.Below := by
  rcases sepolContextToSid_cases h with ⟨rfl, -⟩ | ⟨tab, e, htab, -, rfl⟩
  · exact hb
  · exact sidtabContextToSid_below hb htab

theorem below_loadPolicy {call : LoadCall} (hb : sv.sidtab.Below)
    (h : sepolLoadPolicy body sv call = some (0, sv')) : sv'.sidtab.Below := by
  obtain ⟨p, newp, tab, -, -, htab, -, hsidtab⟩ := sepolLoadPolicy_zero h
  rw [hsidtab]
  have hload := below_load hb htab (convertNode call.convertOom p newp)
  exact ⟨hload.sids, hload.positive, hload.narrow⟩

theorem below_of_reaches {ok : Server → LoadCall → Prop} {start sv : Server}
    (hstart : start.sidtab.Below) (h : Reaches body ok start sv) : sv.sidtab.Below := by
  induction h with
  | refl => exact hstart
  | request _ hreq ih => exact below_request ih hreq
  | load _ _ hload ih => exact below_loadPolicy ih hload

/-- Entries stay through a request, and a new one is past all of them. -/
theorem find_request {t' : Sidtab} {e : Except Int Nat} (ht : t.Below) (h : sidtabContextToSid t context oom = (e, t'))
    (hsid : sid < t.nextSid) : t'.find sid = t.find sid ∧ sid < t'.nextSid := by
  cases e with
  | error e => rw [sidtabContextToSid_error h]; exact ⟨rfl, hsid⟩
  | ok new =>
    rcases sidtabContextToSid_ok ht h with ⟨-, rfl⟩ | ⟨hnew, hnext, -, hmem⟩
    · exact ⟨rfl, hsid⟩
    · refine ⟨Option.ext ?_, by omega⟩
      intro c
      rw [Sidtab.find_eq_some_iff, Sidtab.find_eq_some_iff, hmem]
      refine or_iff_right ?_
      intro heq
      cases heq
      omega

/-- A SID stands for the context it was just given out for. -/
theorem find_returned {t' : Sidtab} (ht : t.Below) (h : sidtabContextToSid t context oom = (.ok sid, t')) :
    t'.find sid = some context ∧ sid < t'.nextSid := by
  rw [Sidtab.find_eq_some_iff]
  rcases sidtabContextToSid_ok ht h with ⟨hold, rfl⟩ | ⟨hnew, hnext, -, hmem⟩
  · exact ⟨hold, ht.sids _ hold⟩
  · exact ⟨(hmem _).mpr (Or.inl rfl), by omega⟩

theorem denotes_returned {p : Policydb} (hb : sv.sidtab.Below) (hp : sv.active = some p)
    (h : sepolContextToSid sv context oom = (some sid, sv')) : Denotes sv' sid (contextToString p context) := by
  have hbelow := below_request hb h
  obtain ⟨tab, htab, rfl⟩ := sepolContextToSid_some h
  obtain ⟨hfind, hlt⟩ := find_returned hb htab
  have hactive : (Server.mk sv.mypolicydb sv.external tab).active = some p := hp
  refine ⟨hbelow, by rw [hactive]; rfl, hlt, ?_, ?_⟩
  · intro q c hq hc
    rw [hactive] at hq
    cases hq
    rw [show tab.find sid = some c from hc] at hfind
    cases hfind
    rfl
  · intro hnone
    rw [show tab.find sid = none from hnone] at hfind
    cases hfind

/-- A request leaves every SID given out before it alone. -/
theorem Denotes.request (h : Denotes sv sid str) (hreq : sepolContextToSid sv context oom = (r, sv')) :
    Denotes sv' sid str := by
  have hbelow := below_request h.below hreq
  rcases sepolContextToSid_cases hreq with ⟨rfl, -⟩ | ⟨tab, e, htab, -, rfl⟩
  · exact h
  · obtain ⟨hfind, hlt⟩ := find_request h.below htab h.given
    refine ⟨hbelow, h.running, hlt, fun p c hp hc => h.same p c hp (hfind ▸ hc), ?_⟩
    intro hnone
    -- the unlabeled entry is there before the request, so it was given out
    obtain ⟨c, hc⟩ := isSome_iff_exists.mp (h.gone (hfind ▸ hnone))
    have hgiven : secinitsidUnlabeled < sv.sidtab.nextSid := h.below.sids _ (Sidtab.find_eq_some_iff.mp hc)
    rw [show tab.find secinitsidUnlabeled = _ from (find_request h.below htab hgiven).1, hc]
    rfl

/-- A load that meets the condition leaves the SID with its context or drops it. -/
theorem Denotes.load {call : LoadCall} (h : Denotes sv sid str) (hok : LoadKeeps body sv call)
    (hload : sepolLoadPolicy body sv call = some (0, sv')) : Denotes sv' sid str := by
  have hbelow := below_loadPolicy h.below hload
  obtain ⟨p, newp, tab, hp, hread, htab, hactive, hsidtab⟩ := sepolLoadPolicy_zero hload
  have hfind : ∀ s c, sv'.sidtab.find s = some c ↔
      ∃ c0, sv.sidtab.find s = some c0 ∧ convertNode call.convertOom p newp ⟨s, c0⟩ = some c := by
    intro s c
    rw [hsidtab]
    exact find_load h.below htab _ s c
  have hnext : sv'.sidtab.nextSid = sv.sidtab.nextSid := by
    rw [hsidtab]
    show tab.nextSid = _
    exact cloneSids_nextSid h.below htab hok.newest
  have hkeep : ∀ s c, sv.sidtab.find s = some c →
      s = secinitsidUnlabeled ∨ sv.sidtab.find secinitsidUnlabeled = none → (sv'.sidtab.find s).isSome = true := by
    intro s c hc hs
    obtain ⟨c', hc'⟩ := isSome_iff_exists.mp
      (hok.unlabeled p newp hp hread _ (Sidtab.find_eq_some_iff.mp hc) hs)
    rw [(hfind s c').mpr ⟨c, hc, hc'⟩]
    rfl
  refine ⟨hbelow, by rw [hactive]; rfl, by rw [hnext]; exact h.given, ?_, ?_⟩
  · intro q c hq hc
    rw [hactive] at hq
    cases hq
    obtain ⟨c0, hc0, hconv⟩ := (hfind sid c).mp hc
    unfold convertNode at hconv
    split at hconv
    · cases hconv
    · rw [contextToString_convert (hok.contexts p newp hp hread) hconv]
      exact h.same p c0 hp hc0
  · intro hnone
    cases hu : sv.sidtab.find secinitsidUnlabeled with
    | some u => exact hkeep _ u hu (Or.inl rfl)
    | none =>
      -- without an unlabeled entry nothing is dropped
      cases hs : sv.sidtab.find sid with
      | none => exact absurd (h.gone hs) (by rw [hu]; decide)
      | some c =>
        have hsome := hkeep sid c hs (Or.inr hu)
        rw [hnone] at hsome
        cases hsome

theorem Denotes.reaches (h : Denotes sv sid str) (hrun : Reaches body (LoadKeeps body) sv sv') : Denotes sv' sid str := by
  induction hrun with
  | refl => exact h
  | request _ hreq ih => exact ih.request hreq
  | load _ hok hload ih => exact ih.load hok hload

theorem Denotes.sidToContext {sv : Server} (h : Denotes sv sid str) :
    sepolSidToContext sv sid = some str ∨
      ∃ unlabeled, sepolSidToContext sv sid = some unlabeled ∧
        sepolSidToContext sv secinitsidUnlabeled = some unlabeled := by
  obtain ⟨p, hp⟩ := isSome_iff_exists.mp h.running
  unfold sepolSidToContext sidtabSearch
  rw [hp]
  cases hs : sv.sidtab.find sid with
  | some c =>
    left
    rw [← h.same p c hp hs]
    rfl
  | none =>
    right
    obtain ⟨u, hu⟩ := isSome_iff_exists.mp (h.gone hs)
    rw [hu]
    exact ⟨_, rfl, rfl⟩

/-- Who asks for a context and gets the SID asks for the context it stands for. -/
theorem Denotes.not_reused {p : Policydb} (h : Denotes sv sid str) (hp : sv.active = some p)
    (hreq : sepolContextToSid sv context oom = (some sid, sv')) : contextToString p context = str := by
  obtain ⟨tab, htab, -⟩ := sepolContextToSid_some hreq
  rcases sidtabContextToSid_ok h.below htab with ⟨hold, -⟩ | ⟨hnew, -⟩
  · exact h.same p context hp (Sidtab.find_eq_some_iff.mpr hold)
  · exact absurd hnew (Nat.ne_of_lt h.given)

/-- A SID given out for a context stands for it, or for the unlabeled context, in every
    later state, and is given out for no other. -/
theorem sid_denotes_same_context (body : BodyReader) {start sv sv1 sv2 : Server} (hstart : start.sidtab.Below)
    (hbefore : Reaches body (LoadKeeps body) start sv) {p : Policydb} (hp : sv.active = some p) {context : Context}
    {oom : Bool} {sid : Nat} (hsid : sepolContextToSid sv context oom = (some sid, sv1))
    (hafter : Reaches body (LoadKeeps body) sv1 sv2) :
    (sepolSidToContext sv2 sid = some (contextToString p context) ∨
        ∃ unlabeled, sepolSidToContext sv2 sid = some unlabeled ∧
          sepolSidToContext sv2 secinitsidUnlabeled = some unlabeled) ∧
      ∀ p2 context2 oom2 sv3, sv2.active = some p2 → sepolContextToSid sv2 context2 oom2 = (some sid, sv3) →
        contextToString p2 context2 = contextToString p context := by
  have hdenotes := (denotes_returned (below_of_reaches hstart hbefore) hp hsid).reaches hafter
  exact ⟨hdenotes.sidToContext, fun p2 context2 oom2 sv3 hp2 hreq => hdenotes.not_reused hp2 hreq⟩

/-- A policy with the user `u`, the role `object_r` and these types. -/
def policyOfTypes (names : List Name)
    (h : Symtab.indexes (fun d : TypeDatum => d.value) (names.zipIdx.map fun e => (e.1, { value := e.2 + 1 }))
      (names.map some) = true) : Policydb where
  pUsers :=
    { table := [("u".toList, { value := 1 })]
      valToName := [some "u".toList]
      indexed := Symtab.indexed_of_indexes (by decide) }
  pRoles :=
    { table := [("object_r".toList, { value := 1 })]
      valToName := [some "object_r".toList]
      indexed := Symtab.indexed_of_indexes (by decide) }
  pTypes :=
    { table := names.zipIdx.map fun e => (e.1, { value := e.2 + 1 })
      valToName := names.map some
      indexed := Symtab.indexed_of_indexes h }

def policyAB : Policydb := policyOfTypes ["a".toList, "b".toList] (by decide)

/-- The initial SIDs 1, 2 and 3, all `u:object_r:a`. -/
def initialSids : Sidtab :=
  ((Sidtab.empty.addNode ⟨1, ⟨1, 1, 1, {}⟩⟩ rfl).addNode ⟨2, ⟨1, 1, 1, {}⟩⟩ rfl).addNode ⟨3, ⟨1, 1, 1, {}⟩⟩ rfl

def serverAB : Server := { mypolicydb := .live policyAB, sidtab := initialSids }

theorem initialSids_below : initialSids.Below where
  sids := by decide +kernel
  positive := by decide
  narrow := by decide

/-- The header of a kernel policy of version 30. -/
def kernelHeader : List (BitVec 8) :=
  [0x8c#8, 0xff#8, 0x7c#8, 0xf9#8, 8#8, 0#8, 0#8, 0#8, 0x53#8, 0x45#8, 0x20#8, 0x4c#8, 0x69#8, 0x6e#8, 0x75#8, 0x78#8,
    30#8, 0#8, 0#8, 0#8]

/-- The server after `u:object_r:b` was given SID 4. -/
def serverAB4 : Server := (sepolContextToSid serverAB ⟨1, 1, 2, {}⟩ false).2

theorem serverAB4_returned : sepolContextToSid serverAB ⟨1, 1, 2, {}⟩ false = (some 4, serverAB4) :=
  Prod.ext (by decide +kernel) rfl

/-- A reload of the same policy. -/
theorem sid_denotes_same_context_reload :
    serverAB.sidtab.Below ∧ serverAB.active = some policyAB ∧
      sepolContextToSid serverAB ⟨1, 1, 2, {}⟩ false = (some 4, serverAB4) ∧
      ∃ sv2, sepolLoadPolicy (fun _ _ _ => some policyAB) serverAB4 { data := kernelHeader } = some (0, sv2) ∧
        (sepolSidToContext sv2 4 = some "u:object_r:b".toList ∨
          ∃ unlabeled, sepolSidToContext sv2 4 = some unlabeled ∧
            sepolSidToContext sv2 secinitsidUnlabeled = some unlabeled) := by
  have hread : LoadCall.read (fun _ _ _ => some policyAB) { data := kernelHeader } = some policyAB := rfl
  have hkeeps : LoadKeeps (fun _ _ _ => some policyAB) serverAB4 { data := kernelHeader } := by
    refine ⟨Or.inr (by decide +kernel), ?_, ?_⟩
    · intro p newp hp hn
      rw [hread] at hn
      cases hn
      cases hp
      exact KeepsContexts.refl policyAB
    · intro p newp hp hn
      rw [hread] at hn
      cases hn
      cases hp
      have hall : ∀ n ∈ serverAB4.sidtab.nodes, (convertNode (fun _ => false) policyAB policyAB n).isSome = true := by
        decide +kernel
      exact fun n hmem _ => hall n hmem
  have hzero : (sepolLoadPolicy (fun _ _ _ => some policyAB) serverAB4 { data := kernelHeader }).map (fun r => r.1) =
      some 0 := by
    decide +kernel
  obtain ⟨⟨r, sv2⟩, hload, rfl⟩ := map_eq_some_iff.mp hzero
  have hrun : Reaches _ (LoadKeeps fun _ _ _ => some policyAB) serverAB4 sv2 := Reaches.load Reaches.refl hkeeps hload
  exact ⟨initialSids_below, rfl, serverAB4_returned, sv2, hload,
    (sid_denotes_same_context _ initialSids_below Reaches.refl (show serverAB.active = some policyAB from rfl)
      serverAB4_returned hrun).1⟩

/-- SID 4 is given out for `b`. A policy without `b` drops it; the load of a policy with
    `c` starts again from SID 3; and SID 4 is given out for `c`. -/
theorem sid_given_out_twice :
    sepolContextToSid serverAB ⟨1, 1, 2, {}⟩ false = (some 4, serverAB4) ∧
      sepolSidToContext serverAB4 4 = some "u:object_r:b".toList ∧
      ∀ (body : BodyReader) (data2 data3 : List (BitVec 8)),
        policydbRead body data2 = some (policyOfTypes ["a".toList] (by decide)) →
        policydbRead body data3 = some (policyOfTypes ["a".toList, "c".toList] (by decide)) →
        ∃ sv2 sv3 sv4, sepolLoadPolicy body serverAB4 { data := data2 } = some (0, sv2) ∧
          sepolLoadPolicy body sv2 { data := data3 } = some (0, sv3) ∧
          sepolContextToSid sv3 ⟨1, 1, 2, {}⟩ false = (some 4, sv4) ∧
          sepolSidToContext sv4 4 = some "u:object_r:c".toList := by
  refine ⟨serverAB4_returned, by decide +kernel, ?_⟩
  intro body data2 data3 hread2 hread3
  have hrun : ((loadNew serverAB4 (fun _ => false) (fun _ => false) (policyOfTypes ["a".toList] (by decide))).bind fun x =>
      (loadNew x.2 (fun _ => false) (fun _ => false) (policyOfTypes ["a".toList, "c".toList] (by decide))).map fun y =>
        (x.1, y.1, (sepolContextToSid y.2 ⟨1, 1, 2, {}⟩ false).1,
          sepolSidToContext (sepolContextToSid y.2 ⟨1, 1, 2, {}⟩ false).2 4)) =
      some (0, 0, some 4, some "u:object_r:c".toList) := by
    decide +kernel
  obtain ⟨⟨r2, sv2⟩, hload2, hrest⟩ := bind_eq_some_iff.mp hrun
  obtain ⟨⟨r3, sv3⟩, hload3, heq⟩ := map_eq_some_iff.mp hrest
  obtain ⟨rfl, h⟩ := Prod.mk.inj heq
  obtain ⟨rfl, h⟩ := Prod.mk.inj h
  obtain ⟨hsid, htext⟩ := Prod.mk.inj h
  refine ⟨sv2, sv3, _, ?_, ?_, Prod.ext hsid rfl, htext⟩
  · unfold sepolLoadPolicy LoadCall.read
    simp only [Bool.false_eq_true, if_false, hread2]
    exact hload2
  · unfold sepolLoadPolicy LoadCall.read
    simp only [Bool.false_eq_true, if_false, hread3]
    exact hload3

end SELinux.Services
