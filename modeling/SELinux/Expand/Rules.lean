/-
  SELinux.Expand.Rules — what an expansion does to the rules of a key
  (`libsepol/src/expand.c`: `find_avtab_node` and the write through the node it returns).

  The rules of a key, in the order in which `avtab_search_node` and `avtab_search_node_next`
  find them, are a list of scopes and data (`rulesOf`). Writing a rule changes the first one that
  the scope owns, or puts a new one in front (`putRule`); the rules of other keys stay
  (`findAndWrite_rules`). An unconditional rule takes the first one whatever its scope, since
  `find_avtab_node` looks at scopes for conditional rules only.
-/
import SELinux.Expand.Avrules

namespace SELinux.Expand

open Db List

variable {f : AvtabDatum → AvtabDatum} {g : BitVec 32 → BitVec 32} {ctx : Ctx} {on : Bool}

/-- The scope and the datum of each rule of a key. -/
def rulesOf (tab : Avtab) (key : AvtabKey) : List (Ctx × BitVec 32) :=
  (avtabSearchNodes tab key).map fun n => (n.parseContext, n.datum.data)

/-- A rule that an expansion into `ctx` takes for its own. -/
def owned (ctx scope : Ctx) : Bool := ctx.isNone || scope == ctx

/-- Change the first rule that is owned. -/
def writeFirst (ctx : Ctx) (g : BitVec 32 → BitVec 32) : List (Ctx × BitVec 32) → Option (List (Ctx × BitVec 32))
  | [] => none
  | r :: rules => if owned ctx r.1 then some ((r.1, g r.2) :: rules) else (writeFirst ctx g rules).map (r :: ·)

def putRule (ctx : Ctx) (g : BitVec 32 → BitVec 32) (rules : List (Ctx × BitVec 32)) : List (Ctx × BitVec 32) :=
  (writeFirst ctx g rules).getD ((ctx, g 0#32) :: rules)

/-! ## Searches after a write -/

theorem specifiedMeets_withEnabled (specified s : BitVec 16) (on : Bool) :
    specifiedMeets specified (withEnabled s on) = specifiedMeets specified s := by
  have hmask : (specified &&& ~~~avtabEnabled) &&& avtabEnabled = 0#16 := by
    rw [BitVec.and_assoc, show ~~~avtabEnabled &&& avtabEnabled = 0#16 from rfl, BitVec.and_zero]
  have hkeep : (specified &&& ~~~avtabEnabled) &&& ~~~avtabEnabled = specified &&& ~~~avtabEnabled := by
    rw [BitVec.and_assoc, BitVec.and_self]
  unfold specifiedMeets withEnabled
  cases on
  · rw [if_neg Bool.false_ne_true, BitVec.and_comm s, ← BitVec.and_assoc, hkeep]
  · have hor : (specified &&& ~~~avtabEnabled) &&& (s ||| avtabEnabled) = (specified &&& ~~~avtabEnabled) &&& s := by
      refine BitVec.eq_of_getLsbD_eq fun i _ => ?_
      have hbit := congrArg (BitVec.getLsbD · i) hmask
      simp only [BitVec.getLsbD_and, BitVec.getLsbD_or, BitVec.getLsbD_zero] at hbit ⊢
      rw [Bool.and_or_distrib_left, hbit, Bool.or_false]
    rw [if_pos rfl, hor]

/-- A flag and a datum are written through a pointer. -/
abbrev writing (on : Bool) (f : AvtabDatum → AvtabDatum) : BitVec 16 → AvtabDatum → BitVec 16 × AvtabDatum :=
  fun s datum => (withEnabled s on, f datum)

theorem hitKey_writeId (k : AvtabKey) (id : Nat) (on : Bool) (f : AvtabDatum → AvtabDatum) (n : AvtabNode) :
    hitKey k (writeId id (writing on f) n) = hitKey k n := by
  unfold writeId
  split
  · show (sameKey k n.key && specifiedMeets k.specified (withEnabled n.key.specified on)) = _
    rw [specifiedMeets_withEnabled]
    rfl
  · rfl

variable {l : List AvtabNode}

/-- No node of the list is the one that is written. -/
theorem map_writeId_of_ne {i : Nat} (h : ∀ n ∈ l, n.id ≠ i) (w : BitVec 16 → AvtabDatum → BitVec 16 × AvtabDatum) :
    l.map (writeId i w) = l :=
  (map_congr_left (g := id) fun n hn => if_neg (h n hn)).trans (map_id l)

theorem searchNodes_update (tab : Avtab) (id : Nat) (on : Bool) (f : AvtabDatum → AvtabDatum) (k : AvtabKey) :
    avtabSearchNodes (tab.update id (writing on f)) k = (avtabSearchNodes tab k).map (writeId id (writing on f)) := by
  rw [avtabSearchNodes_eq_filter, avtabSearchNodes_eq_filter]
  show ((tab.htable (tab.bucket k)).map (writeId id (writing on f))).filter (hitKey k) = _
  rw [filter_map]
  congr 1
  refine filter_congr ?_
  intro n _
  exact hitKey_writeId k id on f n

variable {key k : AvtabKey}

/-- A new node comes before the other ones of its key. -/
theorem searchNodes_insertNode {tab : Avtab} (h0 : tab.nslot ≠ 0) (hspec : k.specified = key.specified)
    (hmeets : specifiedMeets key.specified key.specified = true) (datum : AvtabDatum) (ctx : Ctx) :
    avtabSearchNodes (tab.insertNode h0 key datum ctx) k =
      if sameKey key k then tab.newNode key datum ctx :: avtabSearchNodes tab k else avtabSearchNodes tab k := by
  have hnew : hitKey k (tab.newNode key datum ctx) = sameKey key k := by
    show (sameKey k key && specifiedMeets k.specified key.specified) = _
    rw [hspec, hmeets, Bool.and_true, Bool.eq_iff_iff, sameKey_iff_rank, sameKey_iff_rank]
    exact eq_comm
  rw [avtabSearchNodes_insertNode h0 (fun _ => hspec), hnew]

/-! ## One rule written -/

theorem findNode_eq_find? (hkey : key.specified &&& avtabXperms = 0#16) (tab : Avtab) (ctx : Ctx) (ext : ExtendedPerms) :
    findNode tab key ctx ext = (avtabSearchNodes tab key).find? fun n => owned ctx n.parseContext := by
  unfold findNode owned
  simp only [hkey, ne_eq, not_true_eq_false, if_false]
  cases ctx with
  | none =>
    cases avtabSearchNodes tab key with
    | nil => rfl
    | cons n l => simp
  | some c =>
    rw [List.find?_eq_head?_dropWhile_not]
    rfl

theorem nodup_searchNodes (tab : Avtab) (key : AvtabKey) : ((avtabSearchNodes tab key).map (·.id)).Nodup := by
  rw [avtabSearchNodes_eq_filter]
  exact (tab.distinct _).sublist (filter_sublist.map _)

/-- The pointer write, on the rules of the key. -/
theorem map_writeId (hg : ∀ x, (f x).data = g x.data) (hl : (l.map (·.id)).Nodup) {n : AvtabNode}
    (hn : l.find? (fun n => owned ctx n.parseContext) = some n) :
    writeFirst ctx g (l.map fun n => (n.parseContext, n.datum.data)) =
      some ((l.map (writeId n.id (writing on f))).map fun n => (n.parseContext, n.datum.data)) := by
  induction l with
  | nil => cases hn
  | cons m l ih =>
    rw [map_cons, nodup_cons] at hl
    simp only [map_cons, writeFirst]
    by_cases hown : owned ctx m.parseContext = true
    · simp only [List.find?_cons, hown, Option.some.injEq] at hn
      subst hn
      -- the nodes behind have other ids
      have hrest : l.map (writeId m.id (writing on f)) = l :=
        map_writeId_of_ne (fun x hx hid => hl.1 (mem_map.mpr ⟨x, hx, hid⟩)) _
      rw [if_pos hown, hrest, writeId, if_pos rfl]
      show some ((m.parseContext, g m.datum.data) :: _) = some ((m.parseContext, (f m.datum).data) :: _)
      rw [hg]
    · simp only [List.find?_cons, hown] at hn
      have hne : m.id ≠ n.id := fun hid => hl.1 (hid ▸ mem_map_of_mem (mem_of_find?_eq_some hn))
      rw [if_neg hown, ih hl.2 hn, writeId, if_neg hne]
      rfl

theorem writeFirst_eq_none (hn : l.find? (fun n => owned ctx n.parseContext) = none) :
    writeFirst ctx g (l.map fun n => (n.parseContext, n.datum.data)) = none := by
  induction l with
  | nil => rfl
  | cons m l ih =>
    by_cases hown : owned ctx m.parseContext = true
    · simp [hown] at hn
    · simp only [List.find?_cons, hown] at hn
      rw [map_cons, writeFirst, if_neg hown, ih hn]
      rfl

theorem Dest.avtab_setAvtab (d : Dest) (ctx : Ctx) (tab : Avtab) : (d.setAvtab ctx tab).avtab ctx = tab := by
  unfold Dest.avtab Dest.setAvtab
  split
  · rfl
  · rfl

theorem rulesOf_congr (hspec : k.specified = key.specified) (hsame : sameKey key k = true) (tab : Avtab) :
    avtabSearchNodes tab k = avtabSearchNodes tab key := by
  obtain ⟨hs, ht, hc⟩ := (sameKey_iff key k).mp hsame
  cases key
  cases k
  simp_all

variable {d : Dest}

/-- What the write of one rule does to its table. -/
theorem findAndWrite_rules (key : AvtabKey) (hkey : key.specified &&& avtabXperms = 0#16)
    (hmeets : specifiedMeets key.specified key.specified = true) (hg : ∀ x, (f x).data = g x.data) {d' : Dest}
    {ext : ExtendedPerms} (h : findAndWrite d key ctx on ext f = some d') (hspec : k.specified = key.specified) :
    rulesOf (d'.avtab ctx) k = if sameKey key k then putRule ctx g (rulesOf (d.avtab ctx) k)
      else rulesOf (d.avtab ctx) k := by
  unfold findAndWrite findAvtabNode at h
  rw [findNode_eq_find? hkey] at h
  cases hfind : (avtabSearchNodes (d.avtab ctx) key).find? fun n => owned ctx n.parseContext with
  | some n =>
    rw [hfind] at h
    simp only [Option.map_some, Option.some.injEq] at h
    subst h
    rw [Dest.avtab_setAvtab, rulesOf, searchNodes_update]
    by_cases hsame : sameKey key k = true
    · rw [if_pos hsame, rulesOf, rulesOf_congr hspec hsame, putRule, map_writeId hg (nodup_searchNodes _ _) hfind]
      rfl
    · -- the node is one of the other key
      have hother : (avtabSearchNodes (d.avtab ctx) k).map (writeId n.id (writing on f)) =
          avtabSearchNodes (d.avtab ctx) k := by
        refine map_writeId_of_ne (fun x hx hid => hsame ?_) _
        obtain ⟨hxmem, hxhit⟩ := mem_avtabSearchNodes.mp hx
        obtain ⟨hnmem, hnhit⟩ := mem_avtabSearchNodes.mp (mem_of_find?_eq_some hfind)
        rw [Avtab.eq_of_id hxmem hnmem hid] at hxhit
        simp only [hitKey, Bool.and_eq_true, sameKey_iff_rank] at hxhit hnhit ⊢
        exact hnhit.1.trans hxhit.1.symm
      rw [if_neg hsame, hother, rulesOf]
  | none =>
    rw [hfind] at h
    simp only [Option.map_map, Option.map_eq_some_iff] at h
    obtain ⟨⟨tab, n⟩, hins, rfl⟩ := h
    unfold avtabInsertNonunique at hins
    split_ifs at hins with h0
    cases hins
    have hdatum : storedDatum key {} = {} := by
      unfold storedDatum
      split
      · rfl
      · rfl
    have htab : ∀ list, ({ d.setAvtab ctx ((d.avtab ctx).insertNode h0 key {} ctx) with list } : Dest).avtab ctx =
        (d.avtab ctx).insertNode h0 key {} ctx := fun list => Dest.avtab_setAvtab d ctx _
    simp only [Function.comp_apply, Dest.avtab_setAvtab, htab]
    rw [rulesOf, searchNodes_update, searchNodes_insertNode h0 hspec hmeets]
    -- ids in the table are below that of the new node
    have hold : (avtabSearchNodes (d.avtab ctx) k).map (writeId ((d.avtab ctx).newNode key {} ctx).id (writing on f)) =
        avtabSearchNodes (d.avtab ctx) k := by
      refine map_writeId_of_ne (fun x hx hid => ?_) _
      obtain ⟨i, hi⟩ := Avtab.mem_nodes.mp (mem_avtabSearchNodes.mp hx).1
      exact absurd hid (Nat.ne_of_lt ((d.avtab ctx).fresh i x hi))
    by_cases hsame : sameKey key k = true
    · rw [if_pos hsame, if_pos hsame, map_cons, hold, putRule, rulesOf, rulesOf_congr hspec hsame, writeFirst_eq_none hfind,
        writeId, if_pos rfl]
      show (ctx, (f (storedDatum key {})).data) :: _ = (ctx, g 0#32) :: _
      rw [hg, hdatum]
    · rw [if_neg hsame, if_neg hsame, hold, rulesOf]

/-- The other table stays, and the table keeps its slots. -/
theorem findAndWrite_frame {d' : Dest} {ext : ExtendedPerms} (h : findAndWrite d key ctx on ext f = some d') :
    (d'.avtab ctx).nslot = (d.avtab ctx).nslot ∧ (ctx = none → d'.cond = d.cond) ∧ (ctx ≠ none → d'.te = d.te) := by
  unfold findAndWrite findAvtabNode at h
  cases hfind : findNode (d.avtab ctx) key ctx ext with
  | some n =>
    rw [hfind] at h
    cases h
    cases ctx with
    | none => exact ⟨rfl, fun _ => rfl, fun hne => absurd rfl hne⟩
    | some c => exact ⟨rfl, nofun, fun _ => rfl⟩
  | none =>
    rw [hfind] at h
    simp only [Option.map_map, Option.map_eq_some_iff] at h
    obtain ⟨⟨tab, n⟩, hins, rfl⟩ := h
    have hslot := (avtabInsertNonunique_some hins).2.1
    cases ctx with
    | none => exact ⟨hslot, fun _ => rfl, fun hne => absurd rfl hne⟩
    | some c => exact ⟨hslot, nofun, fun _ => rfl⟩

theorem findAndWrite_isSome (h : (d.avtab ctx).nslot ≠ 0) (key : AvtabKey) (on : Bool) (ext : ExtendedPerms)
    (f : AvtabDatum → AvtabDatum) : ∃ d', findAndWrite d key ctx on ext f = some d' := by
  unfold findAndWrite findAvtabNode
  cases findNode (d.avtab ctx) key ctx ext with
  | some n => exact ⟨_, rfl⟩
  | none =>
    rw [avtabInsertNonunique, dif_neg h]
    exact ⟨_, rfl⟩

end SELinux.Expand
