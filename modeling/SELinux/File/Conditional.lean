/-
  SELinux.File.Conditional — rules and conditionals of a policy file (`libsepol/src/policydb.c`:
  `avrule_read_list`; `conditional.c`: `cond_insertf`, `cond_read_av_list`, `cond_read_node`,
  `cond_read_list`).

  The rules of a conditional of a kernel policy are in the table `te_cond_avtab`; its two lists
  point to them. A type rule is refused if the unconditional table has one of its key and kind.
  If the conditional table has one, it must be the only one, and in the true list of the
  conditional whose false list is being read.

  Proved: `CondRead`, what this keeps over the whole list. A rule is in one list only, and two
  type rules of a key and kind are the true and the false side of one conditional. So no two of
  them are selected together (`selectedRules_apart`).
-/
import SELinux.Db.Conditional
import SELinux.File.Avtab
import SELinux.File.Symbols

namespace SELinux.File

open Lib Lib.Wire List BitVec

variable {k : Db.AvtabKey} {te cond : Db.Avtab} {s s' : Bytes} {d : Db.AvtabDatum} {n : Db.AvtabNode} {a b : Db.AvtabKey}
  {other : List Nat} {h : Header}

variable (nprim : U32)

/-! ## Rules -/

structure ClassPermNode where
  tclass : U32
  data : U32
  deriving DecidableEq, Repr

structure Avrule where
  specified : U32
  flags : U32 := 0#32
  stypes : TypeSet := {}
  ttypes : TypeSet := {}
  perms : List ClassPermNode := []

def readClassPerm : Reader ClassPermNode := do
  let tclass ← u32
  let data ← u32
  return { tclass, data }

def avruleRead : Reader Avrule := do
  let specified ← u32
  let flags ← u32
  let stypes ← typeSetRead
  let ttypes ← typeSetRead
  let len ← u32
  let perms ← times readClassPerm len.toNat
  return { specified, flags, stypes, ttypes, perms }

def avruleReadList : Reader (List Avrule) := do
  let len ← u32
  times avruleRead len.toNat

/-! ## Conditionals -/

structure CondExprElem where
  exprType : U32
  bool : U32
  deriving DecidableEq, Repr

def condLast : Nat := 7

/-- `expr_isvalid` -/
def CondExprElem.valid (e : CondExprElem) : Bool :=
  decide (0 < e.exprType.toNat) && decide (e.exprType.toNat ≤ condLast) && decide (e.bool.toNat ≤ nprim.toNat)

def CondExprElem.node (e : CondExprElem) : Db.CondExprNode :=
  match e.exprType.toNat with
  | 1 => .bool e.bool.toNat
  | 2 => .not
  | 3 => .or
  | 4 => .and
  | 5 => .xor
  | 6 => .eq
  | _ => .neq

/-- `trueList` and `falseList` are the ids of nodes of `te_cond_avtab`; modules have rules
    instead. -/
structure CondNode where
  curState : U32
  expr : List CondExprElem
  trueList : List Nat := []
  falseList : List Nat := []
  avtrueList : List Avrule := []
  avfalseList : List Avrule := []
  flags : U32 := 0#32

/-- The rounds of `for (i = 0; i < len; i++)` with an `int len`. -/
def intRounds (len : U32) : Nat := len.toInt.toNat

/-- The check of `cond_insertf` for a type rule; `other` is the true list, for a false list. -/
def typeRuleFits (te cond : Db.Avtab) (other : List Nat) (k : Db.AvtabKey) : Bool :=
  (Db.avtabSearchNode te k).isNone &&
    if other = [] then (Db.avtabSearchNode cond k).isNone
    else
      match Db.avtabSearchNodes cond k with
      | [] => true
      | [n] => other.contains n.id
      | _ => false

/-- `cond_insertf`: the table, and the list so far. The `parse_context` of the new node, always
    1, is left out. -/
def condInsertf (te : Db.Avtab) (other : List Nat) (st : Db.Avtab × List Nat) (k : Db.AvtabKey) (d : Db.AvtabDatum) :
    Option (Db.Avtab × List Nat) :=
  if k.specified &&& Db.avtabType ≠ 0#16 ∧ !typeRuleFits te st.1 other k then none
  else (Db.avtabInsertNonunique st.1 k d none).map fun r => (r.1, st.2 ++ [r.2.id])

def condReadAvList (h : Header) (te cond : Db.Avtab) (other : List Nat) : Reader (Db.Avtab × List Nat) := do
  let len ← u32
  loop (avtabReadItem h.policyvers (condInsertf te other)) len.toNat (cond, [])

def readCondExpr : Reader CondExprElem := do
  let exprType ← u32
  let bool ← u32
  let e : CondExprElem := { exprType, bool }
  check (e.valid nprim)
  return e

/-- The state and the expression of a conditional. -/
def readCondHead : Reader CondNode := do
  let curState ← u32
  let len ← u32
  let expr ← times (readCondExpr nprim) (intRounds len)
  return { curState, expr }

/-- `cond_read_node` of a kernel policy. -/
def condReadNodeKern (h : Header) (nprim : U32) (te : Db.Avtab) (st : Db.Avtab × List CondNode) :
    Reader (Db.Avtab × List CondNode) := do
  let node ← readCondHead nprim
  let (cond, trueList) ← condReadAvList h te st.1 []
  let (cond, falseList) ← condReadAvList h te cond trueList
  return (cond, st.2 ++ [{ node with trueList, falseList }])

/-- `cond_read_list` of a kernel policy: `te_cond_avtab` and the conditionals. -/
def condReadListKern (h : Header) (nprim : U32) (te : Db.Avtab) : Reader (Db.Avtab × List CondNode) := do
  let len ← u32
  loop (condReadNodeKern h nprim te) (intRounds len) (Db.avtabAlloc te.nel.toNat, [])

/-- `cond_read_node` of a module. -/
def condReadNodeModule (h : Header) (nprim : U32) : Reader CondNode := do
  let node ← readCondHead nprim
  let avtrueList ← avruleReadList
  let avfalseList ← avruleReadList
  let flags ← readIf (h.moduleAt modVersionTunableSep) u32 0#32
  return { node with avtrueList, avfalseList, flags }

def condReadListModule (h : Header) (nprim : U32) : Reader (List CondNode) := do
  let len ← u32
  times (condReadNodeModule h nprim) (intRounds len)

/-! ## Selected rules -/

/-- The list of a conditional that is in force. -/
def CondNode.chosen (state : Nat → Bool) (c : CondNode) : List Nat :=
  match Db.condEvaluateExpr state (c.expr.map CondExprElem.node) with
  | some true => c.trueList
  | some false => c.falseList
  | none => []

/-- The nodes of a table with these ids. -/
def nodesWith (a : Db.Avtab) (ids : List Nat) : List Db.AvtabNode := ids.filterMap fun id => a.nodes.find? (·.id == id)

/-- The rules in force: those of `te_avtab`, and those of the list each conditional selects. -/
def selectedRules (te cond : Db.Avtab) (condList : List CondNode) (state : Nat → Bool) : List Db.AvtabNode :=
  te.nodes ++ nodesWith cond (condList.flatMap (CondNode.chosen state))

/-- Type rules of one key and kind. -/
def Share (a b : Db.AvtabKey) : Prop := Db.sameKey a b = true ∧ a.specified &&& b.specified &&& Db.avtabType ≠ 0#16

theorem Share.symm (h : Share a b) : Share b a := by
  refine ⟨?_, by rw [and_comm b.specified]; exact h.2⟩
  obtain ⟨h1, h2, h3⟩ := (Db.sameKey_iff a b).mp h.1
  exact (Db.sameKey_iff b a).mpr ⟨h1.symm, h2.symm, h3.symm⟩

/-- The rules of one key and kind share them. -/
theorem share_of_kind {kind : BitVec 16} (hkind : kind ∈ [Db.avtabTransition, Db.avtabMember, Db.avtabChange])
    (hkey : Db.sameKey a b = true) (ha : a.specified &&& kind ≠ 0#16) (hb : b.specified &&& kind ≠ 0#16) : Share a b := by
  refine ⟨hkey, ?_⟩
  -- a kind is one bit, so both have it
  have hbit : ∀ i, kind = BitVec.twoPow 16 i → Db.avtabType.getLsbD i = true →
      a.specified &&& b.specified &&& Db.avtabType ≠ 0#16 := by
    intro i hi htype
    have hget : ∀ x : BitVec 16, x &&& kind ≠ 0#16 → x.getLsbD i = true := by
      intro x hx
      rw [hi, and_twoPow] at hx
      by_contra hoff
      exact hx (if_neg hoff)
    rw [Bits.and_ne_zero_iff]
    exact ⟨i, by rw [getLsbD_and, hget _ ha, hget _ hb]; rfl, htype⟩
  simp only [mem_cons, not_mem_nil, or_false] at hkind
  rcases hkind with rfl | rfl | rfl
  · exact hbit 4 (by decide) (by decide)
  · exact hbit 5 (by decide) (by decide)
  · exact hbit 6 (by decide) (by decide)

/-- A rule that shares its key and kind with another meets it in a search. -/
theorem Share.hit (h : Share k n.key) : Db.hitKey k n = true := by
  obtain ⟨i, hi, htype⟩ := (Bits.and_ne_zero_iff _ _).mp h.2
  rw [getLsbD_and, Bool.and_eq_true] at hi
  have hlt : i < 16 := lt_of_getLsbD htype
  have hoff : ∀ i < 16, Db.avtabType.getLsbD i = true → Db.avtabEnabled.getLsbD i = false := by decide
  rw [Db.hitKey, h.1, Bool.true_and, Db.specifiedMeets, bne_iff_ne, Bits.and_ne_zero_iff]
  refine ⟨i, ?_, hi.2⟩
  rw [getLsbD_and, hi.1, getLsbD_not, hoff i hlt htype, decide_eq_true hlt]
  rfl

theorem Share.type (h : Share a b) : a.specified &&& Db.avtabType ≠ 0#16 := by
  intro h0
  refine h.2 ?_
  rw [BitVec.and_assoc, BitVec.and_comm b.specified, ← BitVec.and_assoc, h0, BitVec.zero_and]

/-! ## The unconditional table -/

/-- What the reader lets through: one of the kinds it knows. -/
def OneSpec (specified : BitVec 16) : Prop := (specOrderRead.filter (specified &&& · != 0#16)).length = 1

instance (specified : BitVec 16) : Decidable (OneSpec specified) := inferInstanceAs (Decidable (_ = _))

theorem oneSpec_item {spec enabled : BitVec 16} (hspec : spec ∈ specOrderRead) (he : enabled ∈ [0#16, Db.avtabEnabled]) :
    OneSpec (spec ||| enabled) := by
  have hall : (specOrderRead.all fun spec => [0#16, Db.avtabEnabled].all fun e => decide (OneSpec (spec ||| e))) =
    true := by decide
  exact of_decide_eq_true (all_eq_true.mp (all_eq_true.mp hall spec hspec) enabled he)

/-- A type rule has no extended permissions. -/
theorem OneSpec.not_xperms {specified : BitVec 16} (h : OneSpec specified) (htype : specified &&& Db.avtabType ≠ 0#16) :
    specified &&& Db.avtabXperms = 0#16 := by
  obtain ⟨kind, hone⟩ := length_eq_one_iff.mp h
  have hkind : ∀ spec ∈ specOrderRead, specified &&& spec ≠ 0#16 → spec = kind := by
    intro spec hspec hmeets
    have hmem : spec ∈ specOrderRead.filter (specified &&& · != 0#16) := mem_filter.mpr ⟨hspec, bne_iff_ne.mpr hmeets⟩
    rw [hone] at hmem
    exact mem_singleton.mp hmem
  by_contra hxperms
  rw [Db.avtabType, Bits.and_or_ne_zero_iff, Bits.and_or_ne_zero_iff] at htype
  rw [Db.avtabXperms, ← Ne, Bits.and_or_ne_zero_iff, Bits.and_or_ne_zero_iff] at hxperms
  have hx : kind ∈ [Db.avtabXpermsAllowed, Db.avtabXpermsAuditallow, Db.avtabXpermsDontaudit] := by
    rcases hxperms with (h | h) | h <;> rw [← hkind _ (by decide) h] <;> decide
  rcases htype with (h | h) | h <;> rw [← hkind _ (by decide) h] at hx <;> exact absurd hx (by decide)

/-- No two type rules of one key and kind. -/
def Apart (l : List Db.AvtabNode) : Prop := l.Pairwise fun a b => ¬Share a.key b.key

section Items

variable {σ : Type} {vers : Nat} {insertf : σ → Db.AvtabKey → Db.AvtabDatum → Option σ} {P : σ → Prop}

theorem readOldItem_ensures (step : ∀ a a' k d, P a → OneSpec k.specified → insertf a k d = some a' → P a') {a : σ}
    (ha : P a) (buf32 : List (BitVec 32)) : Ensures (readOldItem insertf a buf32) P := by
  refine Ensures.andThen fun _ => Ensures.andThen fun _ => Ensures.andThen fun _ => Ensures.andThen fun _ =>
    Ensures.andThen fun _ => ?_
  refine (ensures_ofOption _).bind fun b hfold => Ensures.andThen fun _ => Ensures.pure ?_
  refine Run.foldlM_history (P := fun _ a => P a) ?_ ha hfold
  intro done e x x' hmem hx hins
  have hspec : e.1 ∈ specOrderRead := by
    have hzip := hmem e (mem_append_right done (mem_singleton_self e))
    exact (mem_filter.mp (of_mem_zip hzip).1).1
  refine step x x' _ _ hx (oneSpec_item hspec ?_) hins
  split <;> simp

/-- What the insertion of a rule keeps, an item keeps. -/
theorem avtabReadItem_ensures (step : ∀ a a' k d, P a → OneSpec k.specified → insertf a k d = some a' → P a') {a : σ}
    (ha : P a) : Ensures (avtabReadItem vers insertf a) P := by
  unfold avtabReadItem
  split
  · exact Ensures.andThen fun _ => Ensures.andThen fun _ => Ensures.andThen fun _ => readOldItem_ensures step ha _
  · refine Ensures.andThen fun _ => Ensures.andThen fun _ => Ensures.andThen fun _ => Ensures.andThen fun specified => ?_
    refine (ensures_check _).bind fun _ hone => ?_
    have hone : OneSpec specified := of_decide_eq_true hone
    split
    · refine Ensures.andThen fun _ => Ensures.andThen fun _ => Ensures.andThen fun _ => Ensures.andThen fun _ => ?_
      exact fun _ _ _ h => step a _ _ _ ha hone (ofOption_some.mp h).1
    · exact Ensures.andThen fun _ _ _ _ h => step a _ _ _ ha hone (ofOption_some.mp h).1

end Items

theorem apart_perm {l l' : List Db.AvtabNode} (h : l.Perm l') : Apart l ↔ Apart l' :=
  h.pairwise_iff fun {_ _} hab hba => hab hba.symm

theorem avtabInsertf_apart {a a' : Db.Avtab} (ha : Apart a.nodes) (hone : OneSpec k.specified)
    (h : avtabInsertf a k d = some a') : Apart a'.nodes := by
  unfold avtabInsertf Db.avtabInsert at h
  split at h
  · cases h
  next h0 =>
    split at h
    · cases h
    next hfree =>
      cases h
      rw [apart_perm Db.nodes_insertNode_perm]
      refine pairwise_cons.mpr ⟨?_, ha⟩
      intro n hn (hshare : Share k n.key)
      -- the rule met its like in the search, and is none that may be there twice
      refine hfree ?_
      have hfound : Db.avtabSearchNode a k ≠ none := by
        intro hnone
        have hmiss := Db.avtabSearchNode_eq_none_iff.mp hnone n hn
        rw [Share.hit hshare] at hmiss
        cases hmiss
      have hx : k.specified &&& ~~~Db.avtabEnabled &&& Db.avtabXperms = 0#16 := by
        rw [BitVec.and_assoc, BitVec.and_comm (~~~Db.avtabEnabled), ← BitVec.and_assoc, hone.not_xperms hshare.type,
          BitVec.zero_and]
      rw [hx, Option.isSome_iff_ne_none.mpr hfound]
      rfl

/-- The unconditional table has no two type rules of one key and kind. -/
theorem avtabRead_apart (vers : Nat) : Ensures (avtabRead vers) fun te => Apart te.nodes := by
  refine Ensures.andThen fun nel => Ensures.andThen fun _ => ?_
  refine Ensures.loop (fun _ => avtabReadItem_ensures fun a a' k d ha hone hins => avtabInsertf_apart ha hone hins) _ ?_
  rw [Db.nodes_avtabAlloc]
  exact List.Pairwise.nil

/-! ## The conditional table -/

/-- The true and the false list of a conditional. -/
abbrev Sides := List Nat × List Nat

/-- What the reader of the conditionals keeps; the lists of the conditional that is being read
    are the last ones. -/
structure CondRead (te cond : Db.Avtab) (lists : List Sides) : Prop where
  ids : lists.flatMap (fun c => c.1 ++ c.2) = List.range cond.allocated
  outside : ∀ a ∈ te.nodes, ∀ b ∈ cond.nodes, ¬Share a.key b.key
  sides : ∀ a ∈ cond.nodes, ∀ b ∈ cond.nodes, a.id ≠ b.id → Share a.key b.key →
    ∃ c ∈ lists, a.id ∈ c.1 ∧ b.id ∈ c.2 ∨ b.id ∈ c.1 ∧ a.id ∈ c.2

theorem condRead_alloc (te : Db.Avtab) (n : Nat) : CondRead te (Db.avtabAlloc n) [] := by
  have hnil := Db.nodes_avtabAlloc n
  refine ⟨?_, ?_, ?_⟩
  · rw [← (Db.counted_avtabAlloc n).allocated, hnil]; rfl
  · intro a _ b hb
    rw [hnil] at hb
    cases hb
  · intro a ha
    rw [hnil] at ha
    cases ha

/-- A conditional that has no rules yet. -/
theorem CondRead.open {lists : List Sides} (h : CondRead te cond lists) : CondRead te cond (lists ++ [([], [])]) := by
  refine ⟨?_, h.outside, ?_⟩
  · rw [flatMap_append, h.ids]
    exact append_nil _
  · intro a ha b hb hne hshare
    obtain ⟨c, hc, hside⟩ := h.sides a ha b hb hne hshare
    exact ⟨c, mem_append_left _ hc, hside⟩

theorem typeRuleFits_cond (h : typeRuleFits te cond other k = true)
    (hn : n ∈ cond.nodes) (hshare : Share k n.key) : n.id ∈ other := by
  have hmem : n ∈ Db.avtabSearchNodes cond k := Db.mem_avtabSearchNodes.mpr ⟨hn, hshare.hit⟩
  rw [typeRuleFits, Bool.and_eq_true] at h
  obtain ⟨-, h⟩ := h
  split at h
  · have hmiss := Db.avtabSearchNode_eq_none_iff.mp (Option.isNone_iff_eq_none.mp h) n hn
    rw [hshare.hit] at hmiss
    cases hmiss
  · split at h
    next hnil =>
      rw [hnil] at hmem
      cases hmem
    next m hone =>
      rw [hone] at hmem
      rw [mem_singleton.mp hmem]
      exact contains_iff_mem.mp h
    · cases h

theorem typeRuleFits_te (h : typeRuleFits te cond other k = true) (hn : n ∈ te.nodes) : ¬Share k n.key := by
  intro hshare
  rw [typeRuleFits, Bool.and_eq_true] at h
  have hmiss := Db.avtabSearchNode_eq_none_iff.mp (Option.isNone_iff_eq_none.mp h.1) n hn
  rw [hshare.hit] at hmiss
  cases hmiss

variable {st : Db.Avtab × List Nat}

/-- What `cond_insertf` does. -/
theorem condInsertf_some {te : Db.Avtab} {st' : Db.Avtab × List Nat} (h : condInsertf te other st k d = some st') :
    (k.specified &&& Db.avtabType ≠ 0#16 → typeRuleFits te st.1 other k = true) ∧
      ∃ h0, st' = (st.1.insertNode h0 k d none, st.2 ++ [st.1.allocated]) := by
  unfold condInsertf at h
  split_ifs at h with hfits
  constructor
  · intro htype
    by_contra hnot
    exact hfits ⟨htype, by rw [Bool.not_eq_true] at hnot; rw [hnot]; rfl⟩
  · obtain ⟨r, hr, rfl⟩ := Option.map_eq_some_iff.mp h
    unfold Db.avtabInsertNonunique at hr
    split_ifs at hr with h0
    cases hr
    exact ⟨h0, rfl⟩

/-- An insertion keeps the invariant, whatever list of the last conditional it is for; the
    false list is the one that goes with `other`. -/
theorem CondRead.insert {lists : List Sides} {c c' : Sides} (h : CondRead te cond (lists ++ [c]))
    (hids : c'.1 ++ c'.2 = c.1 ++ c.2 ++ [cond.allocated]) (htrue : c.1 ⊆ c'.1) (hfalse : c.2 ⊆ c'.2) (h0 : cond.nslot ≠ 0)
    (hte : ∀ n ∈ te.nodes, ¬Share k n.key) (hcond : ∀ n ∈ cond.nodes, Share k n.key → n.id ∈ c'.1 ∧ cond.allocated ∈ c'.2) :
    CondRead te (cond.insertNode h0 k d none) (lists ++ [c']) := by
  refine ⟨?_, ?_, ?_⟩
  · have hold := h.ids
    rw [flatMap_append, flatMap_singleton] at hold ⊢
    show _ = List.range (cond.allocated + 1)
    rw [range_succ, ← hold, hids, append_assoc (List.flatMap _ _)]
  · intro a ha b hb
    rcases Db.mem_nodes_insertNode.mp hb with rfl | hb
    · exact fun hshare => hte a ha hshare.symm
    · exact h.outside a ha b hb
  · intro a ha b hb hne hshare
    have hlast : c' ∈ lists ++ [c'] := mem_append_right lists (mem_singleton_self c')
    rcases Db.mem_nodes_insertNode.mp ha with rfl | ha
    · rcases Db.mem_nodes_insertNode.mp hb with rfl | hb
      · exact absurd rfl hne
      · exact ⟨c', hlast, Or.inr (hcond b hb hshare)⟩
    · rcases Db.mem_nodes_insertNode.mp hb with rfl | hb
      · exact ⟨c', hlast, Or.inl (hcond a ha hshare.symm)⟩
      · obtain ⟨x, hx, hside⟩ := h.sides a ha b hb hne hshare
        rcases mem_append.mp hx with hx | hx
        · exact ⟨x, mem_append_left _ hx, hside⟩
        · rw [mem_singleton.mp hx] at hside
          exact ⟨c', hlast, hside.imp (fun h => ⟨htrue h.1, hfalse h.2⟩) fun h => ⟨htrue h.1, hfalse h.2⟩⟩

section Lists

variable {te : Db.Avtab} {lists : List Sides} {other : List Nat}

/-- The lists of the last conditional while its true list is read, and then its false list. -/
def sidesOf (isTrue : Bool) (other list : List Nat) : Sides := if isTrue then (list, []) else (other, list)

theorem condInsertf_keeps {isTrue : Bool} (hother : isTrue = true → other = []) {st' : Db.Avtab × List Nat}
    (hst : CondRead te st.1 (lists ++ [sidesOf isTrue other st.2])) (h : condInsertf te other st k d = some st') :
    CondRead te st'.1 (lists ++ [sidesOf isTrue other st'.2]) := by
  obtain ⟨hfits, h0, rfl⟩ := condInsertf_some h
  have hte : ∀ n ∈ te.nodes, ¬Share k n.key := fun n hn hshare => typeRuleFits_te (hfits hshare.type) hn hshare
  have hcond : ∀ n ∈ st.1.nodes, Share k n.key → n.id ∈ other :=
    fun n hn hshare => typeRuleFits_cond (hfits hshare.type) hn hshare
  cases isTrue with
  | true =>
    refine hst.insert ?_ ?_ ?_ h0 hte ?_
    · exact (append_nil _).trans (congrArg (· ++ _) (append_nil st.2).symm)
    · exact fun x hx => mem_append_left _ hx
    · exact fun x hx => hx
    · intro n hn hshare
      rw [hother rfl] at hcond
      exact absurd (hcond n hn hshare) not_mem_nil
  | false =>
    refine hst.insert ?_ ?_ ?_ h0 hte ?_
    · exact (append_assoc _ _ _).symm
    · exact fun x hx => hx
    · exact fun x hx => mem_append_left _ hx
    · exact fun n hn hshare => ⟨hcond n hn hshare, mem_append_right _ (mem_singleton_self _)⟩

theorem condReadAvList_keeps (isTrue : Bool) (hother : isTrue = true → other = []) {cond : Db.Avtab}
    (hcond : CondRead te cond (lists ++ [sidesOf isTrue other []])) :
    Ensures (condReadAvList h te cond other) fun st => CondRead te st.1 (lists ++ [sidesOf isTrue other st.2]) := by
  refine Ensures.andThen fun len => Ensures.loop (fun _ => avtabReadItem_ensures ?_) _ hcond
  exact fun st st' k d hst _ hins => condInsertf_keeps hother hst hins

end Lists

def CondNode.sides (c : CondNode) : Sides := (c.trueList, c.falseList)

theorem condReadNodeKern_keeps (nprim : U32) {te : Db.Avtab} {st : Db.Avtab × List CondNode}
    (hst : CondRead te st.1 (st.2.map CondNode.sides)) :
    Ensures (condReadNodeKern h nprim te st) fun st' => CondRead te st'.1 (st'.2.map CondNode.sides) := by
  refine Ensures.andThen fun node => ?_
  refine (condReadAvList_keeps true (fun _ => rfl) hst.open).bind fun _ htrue => ?_
  refine (condReadAvList_keeps false nofun htrue).bind fun _ hfalse => Ensures.pure ?_
  rw [map_append]
  exact hfalse

/-- What holds of the conditionals of a policy. -/
theorem condReadListKern_spec (h : Header) (nprim : U32) (te : Db.Avtab) :
    Ensures (condReadListKern h nprim te) fun st => CondRead te st.1 (st.2.map CondNode.sides) := by
  refine Ensures.andThen fun len => Ensures.loop (fun _ => condReadNodeKern_keeps nprim) _ ?_
  exact condRead_alloc te te.nel.toNat

/-! ## At most one rule -/

theorem CondNode.chosen_sublist (state : Nat → Bool) (c : CondNode) :
    (c.chosen state).Sublist (c.trueList ++ c.falseList) := by
  unfold CondNode.chosen
  split
  · exact sublist_append_left _ _
  · exact sublist_append_right _ _
  · exact nil_sublist _

/-- A conditional selects one of its lists. -/
theorem CondNode.chosen_one {state : Nat → Bool} {c : CondNode} (hnodup : (c.trueList ++ c.falseList).Nodup) {i j : Nat}
    (hi : i ∈ c.trueList) (hj : j ∈ c.falseList) : ¬(i ∈ c.chosen state ∧ j ∈ c.chosen state) := by
  have hdisj := disjoint_of_nodup_append hnodup
  unfold CondNode.chosen
  split
  · exact fun h => hdisj h.2 hj
  · exact fun h => hdisj hi h.1
  · exact fun h => not_mem_nil h.1

section Selected

variable {te cond : Db.Avtab} {condList : List CondNode}

theorem CondRead.nodup (h : CondRead te cond (condList.map CondNode.sides)) :
    (condList.flatMap fun c => c.trueList ++ c.falseList).Nodup := by
  have hids := h.ids
  rw [flatMap_map] at hids
  exact hids ▸ nodup_range

theorem CondRead.nodup_chosen (h : CondRead te cond (condList.map CondNode.sides)) (state : Nat → Bool) :
    (condList.flatMap (CondNode.chosen state)).Nodup :=
  h.nodup.sublist (List.Sublist.flatMap_right condList fun c _ => c.chosen_sublist state)

/-- No two selected rules of the conditionals share key and kind. -/
theorem CondRead.chosen_apart (h : CondRead te cond (condList.map CondNode.sides)) {state : Nat → Bool} {a b : Db.AvtabNode}
    (ha : a ∈ cond.nodes) (hb : b ∈ cond.nodes) (hca : a.id ∈ condList.flatMap (CondNode.chosen state))
    (hcb : b.id ∈ condList.flatMap (CondNode.chosen state)) (hne : a.id ≠ b.id) : ¬Share a.key b.key := by
  intro hshare
  obtain ⟨hlocal, hdisj⟩ := nodup_flatMap.mp h.nodup
  -- the conditional of a rule is the only one that has it
  have howner : ∀ c ∈ condList, ∀ i, i ∈ c.trueList ++ c.falseList → i ∈ condList.flatMap (CondNode.chosen state) →
      i ∈ c.chosen state := by
    intro c hc i hi hsel
    obtain ⟨c', hc', hi'⟩ := mem_flatMap.mp hsel
    by_cases heq : c' = c
    · exact heq ▸ hi'
    · have hsymm : Std.Symm (Function.onFun List.Disjoint fun c : CondNode => c.trueList ++ c.falseList) :=
        ⟨fun _ _ hxy _ hy hx => hxy hx hy⟩
      exact absurd hi (hdisj.forall hc' hc heq ((c'.chosen_sublist state).subset hi'))
  obtain ⟨_, hmem, hside⟩ := h.sides a ha b hb hne hshare
  obtain ⟨c, hc, rfl⟩ := mem_map.mp hmem
  have hpick : ∀ i ∈ c.trueList, ∀ j ∈ c.falseList, ¬(i ∈ condList.flatMap (CondNode.chosen state) ∧
      j ∈ condList.flatMap (CondNode.chosen state)) := by
    rintro i hi j hj ⟨hsi, hsj⟩
    exact CondNode.chosen_one (hlocal c hc) hi hj
      ⟨howner c hc i (mem_append_left _ hi) hsi, howner c hc j (mem_append_right _ hj) hsj⟩
  rcases hside with ⟨hi, hj⟩ | ⟨hi, hj⟩
  · exact hpick a.id hi b.id hj ⟨hca, hcb⟩
  · exact hpick b.id hi a.id hj ⟨hcb, hca⟩

theorem mem_nodesWith {a : Db.Avtab} {ids : List Nat} (h : n ∈ nodesWith a ids) : n ∈ a.nodes ∧ n.id ∈ ids := by
  obtain ⟨id, hid, hfind⟩ := mem_filterMap.mp h
  have heq := List.find?_some hfind
  rw [beq_iff_eq] at heq
  exact ⟨mem_of_find?_eq_some hfind, heq ▸ hid⟩

/-- The rules in force are apart. -/
theorem selectedRules_apart (hte : Apart te.nodes) (h : CondRead te cond (condList.map CondNode.sides))
    (state : Nat → Bool) : Apart (selectedRules te cond condList state) := by
  refine pairwise_append.mpr ⟨hte, ?_, ?_⟩
  · refine pairwise_filterMap.mpr ((h.nodup_chosen state).imp_of_mem ?_)
    intro i j hi hj hne a ha b hb
    have hia := List.find?_some ha
    have hjb := List.find?_some hb
    rw [beq_iff_eq] at hia hjb
    subst hia hjb
    exact h.chosen_apart (mem_of_find?_eq_some ha) (mem_of_find?_eq_some hb) hi hj hne
  · intro a ha b hb
    exact h.outside a ha b (mem_nodesWith hb).1

end Selected

/-! ## Booleans -/

def condBool : U32 := 1#32

/-- The operator is known, and a boolean has its place in `bool_val_to_struct`, where
    `cond_evaluate_expr` reads at `bool - 1`. -/
def CondExprElem.Evaluable (e : CondExprElem) : Prop :=
  (1 ≤ e.exprType.toNat ∧ e.exprType.toNat ≤ condLast) ∧
    (e.exprType = condBool → (1 ≤ e.bool.toNat ∧ e.bool.toNat ≤ nprim.toNat) ∧ (e.bool - 1#32).toNat < nprim.toNat)

/-- All elements can be evaluated, which hangs on the booleans alone. -/
def EvaluableIff (expr : List CondExprElem) : Prop :=
  (∀ e ∈ expr, e.Evaluable nprim) ↔ ∀ e ∈ expr, e.exprType = condBool → e.bool ≠ 0#32

theorem CondExprElem.evaluable_iff {nprim : U32} {e : CondExprElem} (h : e.valid nprim = true) :
    e.Evaluable nprim ↔ (e.exprType = condBool → e.bool ≠ 0#32) := by
  simp only [CondExprElem.valid, Bool.and_eq_true, decide_eq_true_eq] at h
  obtain ⟨⟨hpos, hlast⟩, hbool⟩ := h
  constructor
  · intro he htype hzero
    have hone := (he.2 htype).1.1
    rw [hzero] at hone
    exact absurd hone (by decide)
  · intro hne
    refine ⟨⟨hpos, hlast⟩, fun htype => ?_⟩
    have hvalue : e.bool.toNat ≠ 0 := fun h0 => hne htype (eq_of_toNat_eq h0)
    bv_omega

theorem ensures_readCondHead : Ensures (readCondHead nprim) fun node => EvaluableIff nprim node.expr := by
  have hvalid : Ensures (readCondExpr nprim) fun e => e.valid nprim = true :=
    Ensures.andThen fun exprType => Ensures.andThen fun bool => (ensures_check _).bind fun _ hcheck => Ensures.pure hcheck
  refine Ensures.andThen fun curState => Ensures.andThen fun len => (hvalid.times _).bind fun expr hexpr => Ensures.pure ?_
  exact forall₂_congr fun e he => CondExprElem.evaluable_iff (hexpr.2 e he)

end SELinux.File
