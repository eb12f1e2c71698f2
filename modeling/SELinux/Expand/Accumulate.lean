/-
  SELinux.Expand.Accumulate — the data of access vector rules of one kind
  (`libsepol/src/expand.c`: `expand_avrule_helper`).

  A node is made with the datum 0 and each rule of its key is then worked into it. That is right
  for allow and auditallow, whose permissions are joined. An auditdeny mask is meant to be the
  conjunction of the rules' masks, but the conjunction begins at 0 and stays there. A dontaudit
  rule takes 0 for "not set yet": when the rules so far have named all permissions the datum is
  0, and the next rule begins afresh.

  Proved: `expandCalls_iff`, for every sequence of calls into an empty table. The datum of each
  key is the intended one for allow and auditallow; for auditdeny exactly if the masks have no
  permission in common; for dontaudit exactly if the rules do not name all permissions, or if
  they end just when they have named all of them once more (`InStretches`).
-/
import SELinux.Expand.Rules

namespace SELinux.Expand

open Db List

variable {ws : List (BitVec 32)}

/-! ## Words -/

def joinWords (ws : List (BitVec 32)) : BitVec 32 := ws.foldr (· ||| ·) 0#32

def meetWords (ws : List (BitVec 32)) : BitVec 32 := ws.foldr (· &&& ·) (BitVec.allOnes 32)

theorem joinWords_append (ws ws' : List (BitVec 32)) : joinWords (ws ++ ws') = joinWords ws ||| joinWords ws' := by
  induction ws with
  | nil => exact (BitVec.zero_or).symm
  | cons w ws ih =>
    show w ||| joinWords (ws ++ ws') = w ||| joinWords ws ||| joinWords ws'
    rw [ih, BitVec.or_assoc]

theorem joinWords_perm {ws ws' : List (BitVec 32)} (h : ws.Perm ws') : joinWords ws = joinWords ws' := by
  refine h.foldr_eq' ?_ 0#32
  intro x _ y _ z
  rw [← BitVec.or_assoc, ← BitVec.or_assoc, BitVec.or_comm y x]

theorem meetWords_perm {ws ws' : List (BitVec 32)} (h : ws.Perm ws') : meetWords ws = meetWords ws' := by
  refine h.foldr_eq' ?_ _
  intro x _ y _ z
  rw [← BitVec.and_assoc, ← BitVec.and_assoc, BitVec.and_comm y x]

theorem foldl_or (w : BitVec 32) (ws : List (BitVec 32)) : ws.foldl (fun w p => w ||| p) w = w ||| joinWords ws := by
  induction ws generalizing w with
  | nil => exact (BitVec.or_zero).symm
  | cons p ws ih =>
    rw [foldl_cons, ih, BitVec.or_assoc]
    rfl

theorem foldl_and_zero (ws : List (BitVec 32)) : ws.foldl (fun w p => w &&& p) 0#32 = 0#32 := by
  induction ws with
  | nil => rfl
  | cons p ws ih => rw [foldl_cons, BitVec.zero_and, ih]

/-! ## Dontaudit -/

/-- What a dontaudit rule does to the mask. -/
def maskOut (mask perm : BitVec 32) : BitVec 32 := if mask ≠ 0#32 then mask &&& ~~~perm else ~~~perm

/-- All permissions are named. -/
def Full (ws : List (BitVec 32)) : Prop := joinWords ws = BitVec.allOnes 32

/-- Words that name all permissions with the last one. -/
structure Stretch (ws : List (BitVec 32)) : Prop where
  full : Full ws
  least : ∀ init rest, ws = init ++ rest → rest ≠ [] → ¬Full init

/-- One stretch after the other. -/
def InStretches (ws : List (BitVec 32)) : Prop :=
  ∃ stretches : List (List (BitVec 32)), ws = stretches.flatten ∧ ∀ s ∈ stretches, Stretch s

theorem not_eq_zero_iff {w : BitVec 32} : ~~~w = 0#32 ↔ w = BitVec.allOnes 32 := by
  rw [← BitVec.not_allOnes, BitVec.not_inj]

theorem not_full_nil : ¬Full [] := show ¬joinWords [] = BitVec.allOnes 32 by decide

/-- As long as not all permissions are named the mask is what it is meant to be. -/
theorem foldl_maskOut (hne : ws ≠ []) (h : ∀ init rest, ws = init ++ rest → rest ≠ [] → ¬Full init) :
    ws.foldl maskOut 0#32 = ~~~joinWords ws := by
  induction ws using List.reverseRecOn with
  | nil => exact absurd rfl hne
  | append_singleton ws p ih =>
    rw [foldl_append, foldl_cons, foldl_nil, joinWords_append]
    have hlast : joinWords [p] = p := BitVec.or_zero
    rw [hlast]
    by_cases hempty : ws = []
    · rw [hempty, foldl_nil, maskOut, if_neg (not_not.mpr rfl)]
      exact congrArg (~~~ ·) BitVec.zero_or.symm
    · have hpart : ∀ init rest, ws = init ++ rest → rest ≠ [] → ¬Full init := by
        intro init rest heq _
        refine h init (rest ++ [p]) ?_ (append_ne_nil_of_right_ne_nil _ (cons_ne_nil _ _))
        rw [heq, append_assoc]
      have hset : ~~~joinWords ws ≠ 0#32 := fun hzero => h ws [p] rfl (cons_ne_nil _ _) (not_eq_zero_iff.mp hzero)
      rw [ih hempty hpart, maskOut, if_pos hset, BitVec.not_or]

theorem Stretch.ne_nil (h : Stretch ws) : ws ≠ [] := fun hnil => not_full_nil (hnil ▸ h.full)

theorem foldl_maskOut_stretches {stretches : List (List (BitVec 32))} (h : ∀ s ∈ stretches, Stretch s) :
    stretches.flatten.foldl maskOut 0#32 = 0#32 := by
  induction stretches with
  | nil => rfl
  | cons s stretches ih =>
    obtain ⟨hs, hrest⟩ := forall_mem_cons.mp h
    rw [flatten_cons, foldl_append, foldl_maskOut hs.ne_nil hs.least, not_eq_zero_iff.mpr hs.full]
    exact ih hrest

theorem full_of_mem {s : List (BitVec 32)} {stretches : List (List (BitVec 32))} (h : ∀ s ∈ stretches, Stretch s)
    (hs : s ∈ stretches) (rest : List (BitVec 32)) : Full (stretches.flatten ++ rest) := by
  obtain ⟨l₁, l₂, rfl⟩ := append_of_mem hs
  have hfull : joinWords s = BitVec.allOnes 32 := (h s hs).full
  rw [Full, flatten_append, flatten_cons, joinWords_append, joinWords_append, joinWords_append, hfull, BitVec.allOnes_or,
    BitVec.or_allOnes, BitVec.allOnes_or]

/-- Every list of words is stretches and a rest that never names all permissions. -/
theorem exists_stretches (ws : List (BitVec 32)) : ∃ (stretches : List (List (BitVec 32))) (rest : List (BitVec 32)),
    ws = stretches.flatten ++ rest ∧ (∀ s ∈ stretches, Stretch s) ∧ ∀ init tail, rest = init ++ tail → ¬Full init := by
  induction ws using List.reverseRecOn with
  | nil =>
    refine ⟨[], [], rfl, forall_mem_nil _, ?_⟩
    intro init tail heq
    rw [(append_eq_nil_iff.mp heq.symm).1]
    exact not_full_nil
  | append_singleton ws p ih =>
    obtain ⟨stretches, rest, rfl, hs, hrest⟩ := ih
    have hprefix : ∀ init tail, rest ++ [p] = init ++ tail → tail ≠ [] → ¬Full init := by
      intro init tail heq hne
      obtain ⟨tail, q, rfl⟩ := (eq_nil_or_concat tail).resolve_left hne
      rw [concat_eq_append, ← append_assoc] at heq
      exact hrest init tail (append_inj_left' heq rfl)
    by_cases hfull : Full (rest ++ [p])
    · refine ⟨stretches ++ [rest ++ [p]], [], by simp, ?_, ?_⟩
      · intro s hmem
        rcases mem_append.mp hmem with hmem | hmem
        · exact hs s hmem
        · obtain rfl := mem_singleton.mp hmem
          exact ⟨hfull, hprefix⟩
      · intro init tail heq
        rw [(append_eq_nil_iff.mp heq.symm).1]
        exact not_full_nil
    · refine ⟨stretches, rest ++ [p], by simp, hs, ?_⟩
      intro init tail heq
      by_cases hne : tail = []
      · rw [hne, append_nil] at heq
        rwa [← heq]
      · exact hprefix init tail heq hne

/-- The mask is the intended one unless rules follow after all permissions have been named. -/
theorem foldl_maskOut_iff (hne : ws ≠ []) : ws.foldl maskOut 0#32 = ~~~joinWords ws ↔ ¬Full ws ∨ InStretches ws := by
  obtain ⟨stretches, rest, rfl, hs, hrest⟩ := exists_stretches ws
  have hfold : (stretches.flatten ++ rest).foldl maskOut 0#32 = if rest = [] then 0#32 else ~~~joinWords rest := by
    rw [foldl_append, foldl_maskOut_stretches hs]
    split
    next hnil =>
      rw [hnil]
      rfl
    next hrne =>
      exact foldl_maskOut hrne fun init tail heq _ => hrest init tail heq
  constructor
  · intro heq
    by_cases hfull : Full (stretches.flatten ++ rest)
    · right
      by_cases hnil : rest = []
      · exact ⟨stretches, by rw [hnil, append_nil], hs⟩
      · rw [hfold, if_neg hnil, not_eq_zero_iff.mpr hfull] at heq
        exact absurd (not_eq_zero_iff.mp heq) (hrest rest [] (append_nil rest).symm)
    · exact Or.inl hfull
  · intro h
    rcases h with hfull | ⟨stretches', heq, hs'⟩
    · cases stretches with
      | nil =>
        have hrne : rest ≠ [] := fun hnil => hne (by rw [hnil]; rfl)
        rw [hfold, if_neg hrne]
        rfl
      | cons s l => exact absurd (full_of_mem hs mem_cons_self rest) hfull
    · rw [heq, foldl_maskOut_stretches hs']
      refine (not_eq_zero_iff.mpr ?_).symm
      cases stretches' with
      | nil => exact absurd heq hne
      | cons s l => simpa [Full] using full_of_mem hs' mem_cons_self []

/-! ## Rules of one kind -/

inductive AvKind
  | allowed
  | auditallow
  | auditdeny
  | dontaudit
  deriving DecidableEq, Repr

variable {kind : AvKind}

namespace AvKind

/-- `AVRULE_*` -/
def specified : AvKind → BitVec 32
  | allowed => avruleAllowed
  | auditallow => avruleAuditallow
  | auditdeny => avruleAuditdeny
  | dontaudit => avruleDontaudit

/-- The kind of the entries. -/
def spec : AvKind → BitVec 16
  | allowed => avtabAllowed
  | auditallow => avtabAuditallow
  | auditdeny => avtabAuditdeny
  | dontaudit => avtabAuditdeny

/-- What a rule does to the word of its entry. -/
def work (kind : AvKind) (perm word : BitVec 32) : BitVec 32 :=
  match kind with
  | allowed => word ||| perm
  | auditallow => word ||| perm
  | auditdeny => word &&& perm
  | dontaudit => maskOut word perm

/-- The datum that the rules of a key with these permissions are meant to have. -/
def intended (kind : AvKind) (ws : List (BitVec 32)) : Option (BitVec 32) :=
  if ws = [] then none
  else
    match kind with
    | allowed => some (joinWords ws)
    | auditallow => some (joinWords ws)
    | auditdeny => some (meetWords ws)
    | dontaudit => some (~~~joinWords ws)

theorem avruleDatum_data (kind : AvKind) (perm : BitVec 32) (ext : ExtendedPerms) (datum : AvtabDatum) :
    (avruleDatum kind.specified perm ext datum).data = kind.work perm datum.data := by
  cases kind with
  | allowed => rfl
  | auditallow => rfl
  | auditdeny => rfl
  | dontaudit => rfl

/-- Dontaudit rules can be left out. -/
def skipped (kind : AvKind) (env : Env) : Bool := kind == dontaudit && env.disableDontaudit

theorem avruleSpec_eq (kind : AvKind) (env : Env) :
    avruleSpec env.disableDontaudit kind.specified = .ok (if kind.skipped env then none else some kind.spec) := by
  cases kind with
  | allowed => rfl
  | auditallow => rfl
  | auditdeny => rfl
  | dontaudit => rfl

theorem spec_xperms (kind : AvKind) : kind.spec &&& avtabXperms = 0#16 := by cases kind <;> decide

theorem spec_meets (kind : AvKind) : specifiedMeets kind.spec kind.spec = true := by cases kind <;> decide

theorem intended_perm (kind : AvKind) {ws ws' : List (BitVec 32)} (h : ws.Perm ws') :
    kind.intended ws = kind.intended ws' := by
  have hnil : ws = [] ↔ ws' = [] := by rw [← length_eq_zero_iff, h.length_eq, length_eq_zero_iff]
  unfold intended
  simp only [hnil, joinWords_perm h, meetWords_perm h]

end AvKind

/-- One call of `expand_avrule_helper`. -/
structure AvCall where
  stype : Nat
  ttype : Nat
  perms : List ClassPermNode
  enabled : Bool := true

def expandCalls (env : Env) (kind : AvKind) (ctx : Ctx) (calls : List AvCall) (d : Dest) : Except ExpandError Dest :=
  calls.foldlM (fun d c => expandAvruleHelper env kind.specified ctx c.stype c.ttype c.perms c.enabled {} d) d

/-- The permissions that a call has for a key. -/
def AvCall.words (kind : AvKind) (k : AvtabKey) (c : AvCall) : List (BitVec 32) :=
  (c.perms.filter fun cur => sameKey (ruleKey c.stype c.ttype cur.tclass kind.spec) k).map (·.data)

theorem AvCall.words_cons {k : AvtabKey} (stype ttype : Nat) (on : Bool) (cur : ClassPermNode) (perms : List ClassPermNode) :
    AvCall.words kind k ⟨stype, ttype, cur :: perms, on⟩ =
      if sameKey (ruleKey stype ttype cur.tclass kind.spec) k then cur.data :: AvCall.words kind k ⟨stype, ttype, perms, on⟩
      else AvCall.words kind k ⟨stype, ttype, perms, on⟩ := by
  simp only [AvCall.words, filter_cons]
  split
  · rfl
  · rfl

def words (kind : AvKind) (calls : List AvCall) (k : AvtabKey) : List (BitVec 32) := calls.flatMap (AvCall.words kind k)

/-- Rules worked into the entries of a key, one after the other. -/
def accumulate (kind : AvKind) (ctx : Ctx) (rules : List (Ctx × BitVec 32)) (ws : List (BitVec 32)) :
    List (Ctx × BitVec 32) :=
  ws.foldl (fun rules perm => putRule ctx (kind.work perm) rules) rules

/-- One call. -/
theorem expandAvrulePerms_rules {ctx : Ctx} (stype ttype : Nat) (on : Bool) (perms : List ClassPermNode) {d : Dest}
    (hslot : (d.avtab ctx).nslot ≠ 0) :
    ∃ d', expandAvrulePerms kind.specified kind.spec ctx stype ttype on {} perms d = .ok d' ∧ (d'.avtab ctx).nslot ≠ 0 ∧
      ∀ k, k.specified = kind.spec →
        rulesOf (d'.avtab ctx) k = accumulate kind ctx (rulesOf (d.avtab ctx) k)
          (AvCall.words kind k ⟨stype, ttype, perms, on⟩) := by
  induction perms generalizing d with
  | nil => exact ⟨d, rfl, hslot, fun _ _ => rfl⟩
  | cons cur perms ih =>
    obtain ⟨d₁, hd₁⟩ := findAndWrite_isSome hslot (ruleKey stype ttype cur.tclass kind.spec) on {}
      (avruleDatum kind.specified cur.data {})
    have hslot₁ : (d₁.avtab ctx).nslot ≠ 0 := by rwa [(findAndWrite_frame hd₁).1]
    obtain ⟨d', hd', hslot', hrules⟩ := ih hslot₁
    refine ⟨d', ?_, hslot', ?_⟩
    · rw [expandAvrulePerms, hd₁]
      exact hd'
    · intro k hk
      rw [hrules k hk, findAndWrite_rules (ruleKey stype ttype cur.tclass kind.spec) kind.spec_xperms kind.spec_meets
        (kind.avruleDatum_data cur.data {}) hd₁ hk]
      rw [AvCall.words_cons]
      split
      · rfl
      · rfl

/-- All calls. -/
theorem expandCalls_rules (env : Env) {ctx : Ctx} (calls : List AvCall) {d : Dest} (hslot : (d.avtab ctx).nslot ≠ 0) :
    ∃ d', expandCalls env kind ctx calls d = .ok d' ∧ ∀ k, k.specified = kind.spec →
      rulesOf (d'.avtab ctx) k =
        accumulate kind ctx (rulesOf (d.avtab ctx) k) (if kind.skipped env then [] else words kind calls k) := by
  induction calls generalizing d with
  | nil => exact ⟨d, rfl, fun k _ => by simp [words, accumulate]⟩
  | cons c calls ih =>
    by_cases hskip : kind.skipped env = true
    · obtain ⟨d', hd', hrules⟩ := ih hslot
      refine ⟨d', ?_, ?_⟩
      · rw [expandCalls, foldlM_cons, expandAvruleHelper, kind.avruleSpec_eq, if_pos hskip]
        exact hd'
      · intro k hk
        rw [hrules k hk, if_pos hskip, if_pos hskip]
    · obtain ⟨d₁, hd₁, hslot₁, hrules₁⟩ := expandAvrulePerms_rules c.stype c.ttype c.enabled c.perms hslot
      obtain ⟨d', hd', hrules⟩ := ih hslot₁
      refine ⟨d', ?_, ?_⟩
      · rw [expandCalls, foldlM_cons, expandAvruleHelper, kind.avruleSpec_eq, if_neg hskip]
        show (expandAvrulePerms kind.specified kind.spec ctx c.stype c.ttype c.enabled {} c.perms d >>= _) = _
        rw [hd₁]
        exact hd'
      · intro k hk
        rw [hrules k hk, hrules₁ k hk, if_neg hskip, if_neg hskip, words, words, flatMap_cons]
        unfold accumulate
        rw [foldl_append]

/-! ## From an empty table -/

theorem owned_self (ctx : Ctx) : owned ctx ctx = true := by
  unfold owned
  simp

theorem accumulate_one (kind : AvKind) (ctx : Ctx) (word : BitVec 32) (ws : List (BitVec 32)) :
    accumulate kind ctx [(ctx, word)] ws = [(ctx, ws.foldl (fun word perm => kind.work perm word) word)] := by
  induction ws generalizing word with
  | nil => rfl
  | cons perm ws ih =>
    have hput : putRule ctx (kind.work perm) [(ctx, word)] = [(ctx, kind.work perm word)] := by
      rw [putRule, writeFirst, if_pos (owned_self ctx)]
      rfl
    show accumulate kind ctx (putRule ctx (kind.work perm) [(ctx, word)]) ws = _
    rw [hput, ih]
    rfl

/-- A key has one entry, which begins at 0. -/
theorem accumulate_nil (kind : AvKind) (ctx : Ctx) (ws : List (BitVec 32)) :
    accumulate kind ctx [] ws = if ws = [] then [] else [(ctx, ws.foldl (fun word perm => kind.work perm word) 0#32)] := by
  cases ws with
  | nil => rfl
  | cons perm ws =>
    exact accumulate_one kind ctx (kind.work perm 0#32) ws

/-- The datum that a search finds. -/
def datumOf (tab : Avtab) (k : AvtabKey) : Option (BitVec 32) := (avtabSearchNode tab k).map (·.datum.data)

theorem datumOf_eq (tab : Avtab) (k : AvtabKey) : datumOf tab k = (rulesOf tab k).head?.map (·.2) := by
  rw [datumOf, avtabSearchNode_eq_head, rulesOf, List.head?_map, Option.map_map]
  rfl

/-- When the words of a key come out as intended. -/
def Accumulates (env : Env) (kind : AvKind) (ws : List (BitVec 32)) : Prop :=
  match kind with
  | .allowed => True
  | .auditallow => True
  | .auditdeny => meetWords ws = 0#32
  | .dontaudit => env.disableDontaudit = false ∧ (¬Full ws ∨ InStretches ws)

theorem foldl_work_iff (kind : AvKind) (hne : ws ≠ []) :
    some (ws.foldl (fun word perm => kind.work perm word) 0#32) = kind.intended ws ↔
      Accumulates { typemap := [] } kind ws := by
  unfold AvKind.intended
  rw [if_neg hne]
  cases kind with
  | allowed | auditallow => exact iff_of_true (congrArg some ((foldl_or 0#32 ws).trans BitVec.zero_or)) trivial
  | auditdeny =>
    show some (ws.foldl (fun word perm => word &&& perm) 0#32) = some (meetWords ws) ↔ meetWords ws = 0#32
    rw [foldl_and_zero, Option.some.injEq]
    exact eq_comm
  | dontaudit =>
    show some (ws.foldl maskOut 0#32) = some (~~~joinWords ws) ↔ _
    rw [Option.some.injEq, foldl_maskOut_iff hne]
    exact (and_iff_right rfl).symm

/-- What is left out has no entry. -/
theorem accumulates_of_skipped {env : Env} (h : kind.skipped env = true) (ws : List (BitVec 32)) :
    ¬Accumulates env kind ws := by
  cases kind with
  | dontaudit =>
    intro hacc
    have hon : env.disableDontaudit = true := h
    rw [hacc.1] at hon
    cases hon
  | _ => cases h

theorem accumulates_of_not_skipped {env : Env} (h : ¬kind.skipped env = true) (ws : List (BitVec 32)) :
    Accumulates { typemap := [] } kind ws ↔ Accumulates env kind ws := by
  cases kind with
  | dontaudit =>
    have hoff : env.disableDontaudit = false := Bool.eq_false_iff.mpr h
    exact and_congr_left fun _ => iff_of_true rfl hoff
  | _ => exact Iff.rfl

/-- The datum of one key. -/
theorem datum_iff (env : Env) (kind : AvKind) (ctx : Ctx) (ws : List (BitVec 32)) :
    (accumulate kind ctx [] (if kind.skipped env then [] else ws)).head?.map (·.2) = kind.intended ws ↔
      (ws ≠ [] → Accumulates env kind ws) := by
  by_cases hnil : ws = []
  · rw [hnil, ite_self]
    exact iff_of_true rfl fun hne => absurd rfl hne
  · have hsome : kind.intended ws ≠ none := by
      unfold AvKind.intended
      rw [if_neg hnil]
      cases kind <;> exact Option.some_ne_none _
    by_cases hskip : kind.skipped env = true
    · rw [if_pos hskip]
      exact iff_of_false (fun heq => hsome heq.symm) fun hacc => accumulates_of_skipped hskip ws (hacc hnil)
    · rw [if_neg hskip, accumulate_nil, if_neg hnil]
      refine (foldl_work_iff kind hnil).trans ((accumulates_of_not_skipped hskip ws).trans ?_)
      exact ⟨fun hacc _ => hacc, fun hacc => hacc hnil⟩

/-- Rules of one kind into an empty table: no call fails, and the datum of each key is the intended one
    exactly under `Accumulates`. What is intended does not depend on the order of the rules. -/
theorem expandCalls_iff (env : Env) (kind : AvKind) (ctx : Ctx) (calls : List AvCall) {d : Dest}
    (hempty : (d.avtab ctx).nodes = []) (hslot : (d.avtab ctx).nslot ≠ 0) :
    (∃ d', expandCalls env kind ctx calls d = .ok d' ∧
      ((∀ k, k.specified = kind.spec → datumOf (d'.avtab ctx) k = kind.intended (words kind calls k)) ↔
        ∀ k, words kind calls k ≠ [] → Accumulates env kind (words kind calls k))) ∧
    ∀ calls', calls.Perm calls' → ∀ k, kind.intended (words kind calls k) = kind.intended (words kind calls' k) := by
  refine ⟨?_, fun calls' hperm k => kind.intended_perm (hperm.flatMap_right _)⟩
  obtain ⟨d', hd', hrules⟩ := expandCalls_rules env calls hslot
  refine ⟨d', hd', ?_⟩
  have hnone : ∀ k, rulesOf (d.avtab ctx) k = [] := by
    intro k
    refine map_eq_nil_iff.mpr (eq_nil_iff_forall_not_mem.mpr fun n hn => ?_)
    have hmem := (mem_avtabSearchNodes.mp hn).1
    rw [hempty] at hmem
    cases hmem
  have hkey : ∀ k, k.specified = kind.spec →
      (datumOf (d'.avtab ctx) k = kind.intended (words kind calls k) ↔
        (words kind calls k ≠ [] → Accumulates env kind (words kind calls k))) := by
    intro k hk
    rw [datumOf_eq, hrules k hk, hnone k]
    exact datum_iff env kind ctx (words kind calls k)
  constructor
  · intro h k
    exact (hkey { k with specified := kind.spec } rfl).mp (h { k with specified := kind.spec } rfl)
  · intro h k hk
    exact (hkey k hk).mpr (h k)

/-- An empty table. -/
def emptyDest : Dest := { te := avtabAlloc 1, cond := .empty, list := [] }

/-- Rules with these permissions for one pair of types and one class. -/
def callsOf (ws : List (BitVec 32)) : List AvCall := ws.map fun w => { stype := 0, ttype := 1, perms := [⟨1, w⟩] }

theorem words_callsOf (kind : AvKind) (ws : List (BitVec 32)) (k : AvtabKey) :
    words kind (callsOf ws) k = if sameKey (ruleKey 0 1 1 kind.spec) k then ws else [] := by
  induction ws with
  | nil => simp [callsOf, words]
  | cons w ws ih =>
    have hcons : words kind (callsOf (w :: ws)) k =
        AvCall.words kind k { stype := 0, ttype := 1, perms := [⟨1, w⟩] } ++ words kind (callsOf ws) k := by
      simp [words, callsOf]
    rw [hcons, ih, AvCall.words_cons]
    split
    · rfl
    · rfl

/-- Two dontaudit rules that do not name all permissions. -/
theorem expandCalls_dontaudit_two :
    ∃ d', expandCalls { typemap := [] } .dontaudit none (callsOf [3#32, 5#32]) emptyDest = .ok d' ∧
    datumOf d'.te (ruleKey 0 1 1 AvKind.dontaudit.spec) = some (~~~7#32) := by
  obtain ⟨⟨d', hd', hiff⟩, -⟩ := expandCalls_iff { typemap := [] } .dontaudit none (callsOf [3#32, 5#32])
    (show (emptyDest.avtab none).nodes = [] from nodes_avtabAlloc 1) avtabAlloc_one
  refine ⟨d', hd', (hiff.mpr ?_ (ruleKey 0 1 1 AvKind.dontaudit.spec) rfl).trans ?_⟩
  · intro k hne
    rw [words_callsOf] at hne ⊢
    split
    · exact ⟨rfl, Or.inl (show ¬joinWords [3#32, 5#32] = BitVec.allOnes 32 by decide)⟩
    next hother =>
      rw [if_neg hother] at hne
      exact absurd rfl hne
  · rw [words_callsOf]
    decide

/-- A single auditdeny rule that names all permissions, and a dontaudit rule after one that does. -/
theorem expandCalls_wildcards :
    ((expandCalls { typemap := [] } .auditdeny none (callsOf [BitVec.allOnes 32]) emptyDest).toOption.bind fun d' =>
        datumOf d'.te (ruleKey 0 1 1 AvKind.auditdeny.spec)) = some 0#32 ∧
      AvKind.auditdeny.intended [BitVec.allOnes 32] = some (BitVec.allOnes 32) ∧
    ((expandCalls { typemap := [] } .dontaudit none (callsOf [BitVec.allOnes 32, 1#32]) emptyDest).toOption.bind fun d' =>
        datumOf d'.te (ruleKey 0 1 1 AvKind.dontaudit.spec)) = some (~~~1#32) ∧
      AvKind.dontaudit.intended [BitVec.allOnes 32, 1#32] = some 0#32 ∧
    ((expandCalls { typemap := [] } .dontaudit none (callsOf [1#32, BitVec.allOnes 32]) emptyDest).toOption.bind fun d' =>
        datumOf d'.te (ruleKey 0 1 1 AvKind.dontaudit.spec)) = some 0#32 := by decide +kernel

end SELinux.Expand
