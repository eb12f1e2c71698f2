/-
  SELinux.Cil.TypeRules — type rules in the tables of the compiled policy
  (`libsepol/cil/src/cil_binary.c`: `__cil_insert_type_rule`, `__cil_cond_insert_rule`,
  `cil_cond_av_list_search`).

  A type rule is refused if it gives another type than a rule of its key. Of the conditional
  rules only the one inserted last is compared, and none if the other branch of the same
  conditional has a rule of the key. So three rules may pass of which two conflict:

  - two in one branch of a conditional and one in the other,
  - one in each branch, and one in another conditional.

  `cilInsertTypeRule_agree`: with the unconditional rules first, the rules that are enabled agree
  under every assignment of the booleans, if a rule whose key the other branch has already is the
  last one with that key, and all before it are in that branch.
-/
import SELinux.Db.Conditional
import SELinux.Lib.Run

namespace SELinux.Cil

open Db Lib List Option

/-! ## The tables -/

/-- `kind`; `other` is everything else. -/
inductive TypeRuleKind
  | transition
  | change
  | member
  | other
  deriving DecidableEq, Repr

def TypeRuleKind.specified : TypeRuleKind → Option (BitVec 16)
  | .transition => some avtabTransition
  | .change => some avtabChange
  | .member => some avtabMember
  | .other => none

/-- The arguments of a call. -/
structure TypeRule where
  kind : TypeRuleKind
  src : BitVec 32
  tgt : BitVec 32
  obj : BitVec 32
  res : BitVec 32
  /-- The conditional node and whether the rule is in its true list; `none` is unconditional. -/
  place : Option (Nat × Bool)
  deriving DecidableEq, Repr

/-- The key of a rule. Its fields are `uint16_t`. -/
def TypeRule.key (r : TypeRule) : Option AvtabKey :=
  r.kind.specified.map fun specified => ⟨r.src.setWidth 16, r.tgt.setWidth 16, r.obj.setWidth 16, specified⟩

/-- The two tables of the policy, and the lists of each conditional node. -/
structure TypeTables where
  te : Avtab
  cond : Avtab
  lists : Nat → Bool → List AvtabNode

def maxAvtabSize : Nat := maxAvtabHashBuckets * 2

/-- As `avtab_alloc` leaves the tables. -/
def TypeTables.start : TypeTables := ⟨avtabAlloc maxAvtabSize, avtabAlloc maxAvtabSize, fun _ _ => []⟩

/-- `cil_cond_av_list_search` -/
def cilCondAvListSearch (key : AvtabKey) (list : List AvtabNode) : Option AvtabDatum :=
  (list.find? fun n => sameKey n.key key && (n.key.specified &&& key.specified) != 0#16).map (·.datum)

/-- `(void *)1`, which a conditional rule has for its context. -/
def cilParseContext : Option (Nat × Bool) := some (0, true)

/-- `__cil_cond_insert_rule` -/
def cilCondInsertRule (t : TypeTables) (key : AvtabKey) (datum : AvtabDatum) (node : Nat) (flavor : Bool) :
    Option TypeTables :=
  (avtabInsertNonunique t.cond key datum cilParseContext).map fun r =>
    { t with
      cond := r.1
      lists := Function.update t.lists node (Function.update (t.lists node) flavor (r.2 :: t.lists node flavor)) }

/-- `__cil_insert_type_rule`; `none` is an error. -/
def cilInsertTypeRule (t : TypeTables) (r : TypeRule) : Option TypeTables := do
  let key ← r.key
  let datum : AvtabDatum := { data := r.res }
  match avtabSearchNode t.te key with
  | some existing => if existing.datum.data ≠ r.res then none else some t
  | none =>
    match r.place with
    | none =>
      match avtabInsert t.te key datum with
      | .ok te => some { t with te }
      | .error _ => none
    | some (node, flavor) =>
      match avtabSearchNode t.cond key with
      | none => cilCondInsertRule t key datum node flavor
      | some existing =>
        match cilCondAvListSearch key (t.lists node !flavor) with
        | some _ => cilCondInsertRule t key datum node flavor
        | none =>
          if existing.datum.data ≠ r.res then none
          else
            match cilCondAvListSearch key (t.lists node flavor) with
            | some _ => some t
            | none => cilCondInsertRule t key datum node flavor

/-! ## Agreement -/

/-- An unconditional rule, or one in the branch that the booleans choose. `conds` is the
    expression of each conditional node. -/
def TypeRule.Enabled (conds : Nat → CondExpr) (state : Nat → Bool) (r : TypeRule) : Prop :=
  match r.place with
  | none => True
  | some (node, flavor) => condEvaluateExpr state (conds node) = some flavor

/-- All enabled rules of one key give the same type. -/
def Agree (conds : Nat → CondExpr) (rules : List TypeRule) : Prop :=
  ∀ state, ∀ r ∈ rules, ∀ q ∈ rules, r.key = q.key → r.Enabled conds state → q.Enabled conds state → r.res = q.res

/-- The pass order of the compiler. -/
def UnconditionalFirst (rules : List TypeRule) : Prop :=
  rules.Pairwise fun r q => r.place.isSome = true → q.place.isSome = true

/-- The rules stand in the two branches of one conditional. -/
def Opposite (q r : TypeRule) : Prop := ∃ node flavor, q.place = some (node, !flavor) ∧ r.place = some (node, flavor)

/-- Where no rule of the key is unconditional, a rule whose key the other branch has already is the
    last one with the key, and all before it are in that branch. -/
def Separate (rules : List TypeRule) : Prop :=
  ∀ before r after, rules = before ++ r :: after → (∀ q ∈ rules, q.key = r.key → q.place ≠ none) →
    (∃ q ∈ before, q.key = r.key ∧ Opposite q r) → (∀ q ∈ before, q.key = r.key → Opposite q r) ∧ ∀ q ∈ after, q.key ≠ r.key

/-! ## Keys of type rules -/

/-- One of the three kinds. -/
def TypeKey (key : AvtabKey) : Prop :=
  key.specified = avtabTransition ∨ key.specified = avtabChange ∨ key.specified = avtabMember

theorem TypeRule.typeKey {r : TypeRule} {key : AvtabKey} (h : r.key = some key) : TypeKey key := by
  obtain ⟨specified, hs, rfl⟩ := map_eq_some_iff.mp h
  cases hk : r.kind with
  | transition => rw [hk] at hs; cases hs; exact Or.inl rfl
  | change => rw [hk] at hs; cases hs; exact Or.inr (Or.inl rfl)
  | member => rw [hk] at hs; cases hs; exact Or.inr (Or.inr rfl)
  | other => rw [hk] at hs; cases hs

section

variable {k key : AvtabKey} (hk : TypeKey k) (hkey : TypeKey key)

include hk hkey in
theorem specifiedMeets_iff : specifiedMeets k.specified key.specified = true ↔ k.specified = key.specified := by
  rcases hk with h | h | h <;> rcases hkey with h' | h' | h' <;> rw [h, h'] <;> decide

include hk hkey in
theorem meets_iff : (k.specified &&& key.specified != 0#16) = true ↔ k.specified = key.specified := by
  rcases hk with h | h | h <;> rcases hkey with h' | h' | h' <;> rw [h, h'] <;> decide

theorem key_eq_iff : k = key ↔ sameKey k key = true ∧ k.specified = key.specified := by
  rw [sameKey_iff]
  obtain ⟨s, t, c, sp⟩ := k
  obtain ⟨s', t', c', sp'⟩ := key
  simp only [AvtabKey.mk.injEq, and_assoc]

include hk hkey in
theorem hitKey_newNode (tab : Avtab) (d : AvtabDatum) (ctx : Option (Nat × Bool)) :
    hitKey k (tab.newNode key d ctx) = true ↔ k = key := by
  rw [hitKey, Bool.and_eq_true, Avtab.newNode, specifiedMeets_iff hk hkey, key_eq_iff]

include hkey in
theorem storedDatum_type (d : AvtabDatum) : storedDatum key d = d := by
  refine if_neg ?_
  rcases hkey with h | h | h <;> rw [h] <;> decide

include hk hkey in
/-- A search after an insertion. -/
theorem search_insertNode {tab : Avtab} (h0 : tab.nslot ≠ 0) (d : AvtabDatum) (ctx : Option (Nat × Bool)) :
    avtabSearchNode (tab.insertNode h0 key d ctx) k = if k = key then some (tab.newNode key d ctx)
      else avtabSearchNode tab k := by
  rw [avtabSearchNode_eq_head, avtabSearchNodes_insertNode h0 (specifiedMeets_iff hk hkey).mp]
  have hhit := hitKey_newNode hk hkey tab d ctx
  by_cases heq : k = key
  · simp [heq, heq ▸ hhit]
  · simp [heq, hhit, avtabSearchNode_eq_head]

include hk hkey in
theorem listSearch_cons (tab : Avtab) (d : AvtabDatum) (ctx : Option (Nat × Bool)) (list : List AvtabNode) :
    (cilCondAvListSearch k (tab.newNode key d ctx :: list)).isSome = true ↔ k = key ∨
      (cilCondAvListSearch k list).isSome = true := by
  have hhit : (sameKey key k && (key.specified &&& k.specified) != 0#16) = true ↔ k = key := by
    rw [Bool.and_eq_true, meets_iff hkey hk, ← key_eq_iff]
    exact eq_comm
  unfold cilCondAvListSearch
  simp only [isSome_map, List.find?_isSome, mem_cons, exists_eq_or_imp]
  exact or_congr_left hhit

end

/-! ## One call -/

/-- The rule goes to the conditional table and in front of its list. -/
def TypeTables.condInsert (t : TypeTables) (h0 : t.cond.nslot ≠ 0) (key : AvtabKey) (res : BitVec 32) (node : Nat)
    (flavor : Bool) : TypeTables :=
  { t with
    cond := t.cond.insertNode h0 key { data := res } cilParseContext
    lists := Function.update t.lists node (Function.update (t.lists node) flavor
      (t.cond.newNode key { data := res } cilParseContext :: t.lists node flavor)) }

theorem condInsert_lists (t : TypeTables) (h0 : t.cond.nslot ≠ 0) (key : AvtabKey) (res : BitVec 32)
    (node node' : Nat) (flavor flavor' : Bool) : (t.condInsert h0 key res node flavor).lists node' flavor' =
      if node' = node ∧ flavor' = flavor then t.cond.newNode key { data := res } cilParseContext :: t.lists node flavor
      else t.lists node' flavor' := by
  unfold TypeTables.condInsert
  by_cases hnode : node' = node
  · by_cases hflavor : flavor' = flavor <;> simp [hnode, hflavor]
  · simp [hnode]

variable {flavor : Bool} {node : Nat}

theorem cilCondInsertRule_some {t t' : TypeTables} {key : AvtabKey} {res : BitVec 32}
    (h : cilCondInsertRule t key { data := res } node flavor = some t') :
    ∃ h0, t' = t.condInsert h0 key res node flavor := by
  unfold cilCondInsertRule avtabInsertNonunique at h
  split at h
  · cases h
  next h0 =>
    cases h
    exact ⟨h0, rfl⟩

/-- What was compared: nothing if the other branch has the key, else the rule inserted last. -/
def Checked (t : TypeTables) (key : AvtabKey) (res : BitVec 32) (node : Nat) (flavor : Bool) : Prop :=
  (cilCondAvListSearch key (t.lists node !flavor)).isSome = true ∨
    ∀ n, avtabSearchNode t.cond key = some n → n.datum.data = res

/-- A conditional rule that passed is inserted, or it is in its list already. -/
def Placed (t t' : TypeTables) (key : AvtabKey) (res : BitVec 32) (node : Nat) (flavor : Bool) : Prop :=
  (t' = t ∧ (cilCondAvListSearch key (t.lists node flavor)).isSome = true ∧ ∃ n, avtabSearchNode t.cond key = some n ∧
    n.datum.data = res) ∨
    ∃ h0, t' = t.condInsert h0 key res node flavor

theorem cilInsertTypeRule_cases {t t' : TypeTables} {r : TypeRule} (h : cilInsertTypeRule t r = some t') :
    ∃ key, r.key = some key ∧
      ((∃ n, avtabSearchNode t.te key = some n ∧ n.datum.data = r.res ∧ t' = t) ∨
        avtabSearchNode t.te key = none ∧
          ((r.place = none ∧ ∃ h0, t' = { t with te := t.te.insertNode h0 key { data := r.res } none }) ∨
            ∃ node flavor, r.place = some (node, flavor) ∧ Checked t key r.res node flavor ∧
              Placed t t' key r.res node flavor)) := by
  obtain ⟨key, hkey, h⟩ := bind_eq_some_iff.mp h
  refine ⟨key, hkey, ?_⟩
  split at h
  next n hte =>
    obtain ⟨hdata, h⟩ := ite_none_left_eq_some.mp h
    cases h
    exact Or.inl ⟨n, hte, not_not.mp hdata, rfl⟩
  next hte =>
    refine Or.inr ⟨hte, ?_⟩
    split at h
    next hplace =>
      unfold avtabInsert at h
      split_ifs at h with h0
      cases h
      exact Or.inl ⟨hplace, h0, rfl⟩
    next node flavor hplace =>
      refine Or.inr ⟨node, flavor, hplace, ?_⟩
      split at h
      next hcond => exact ⟨Or.inr (by simp [hcond]), Or.inr (cilCondInsertRule_some h)⟩
      next n hcond =>
        split at h
        next d hother => exact ⟨Or.inl (by rw [hother]; rfl), Or.inr (cilCondInsertRule_some h)⟩
        next hother =>
          obtain ⟨hdata, h⟩ := ite_none_left_eq_some.mp h
          have hdata : n.datum.data = r.res := not_not.mp hdata
          refine ⟨Or.inr (by simp [hcond, hdata]), ?_⟩
          split at h
          next d hthis =>
            cases h
            exact Or.inl ⟨rfl, by rw [hthis]; rfl, n, hcond, hdata⟩
          next => exact Or.inr (cilCondInsertRule_some h)

/-! ## The tables after some calls -/

def TypeRule.condOf (key : AvtabKey) (r : TypeRule) : Bool := decide (r.key = some key) && r.place.isSome

theorem TypeRule.condOf_iff {key : AvtabKey} {r : TypeRule} :
    r.condOf key = true ↔ r.key = some key ∧ r.place.isSome = true := by
  rw [TypeRule.condOf, Bool.and_eq_true, decide_eq_true_iff]

/-- The conditional rules of a key. -/
def condRules (key : AvtabKey) (rules : List TypeRule) : List TypeRule := rules.filter (TypeRule.condOf key)

theorem mem_condRules {key : AvtabKey} {rules : List TypeRule} {r : TypeRule} :
    r ∈ condRules key rules ↔ r ∈ rules ∧ r.key = some key ∧ r.place.isSome = true := by
  rw [condRules, mem_filter, TypeRule.condOf_iff]

theorem condRules_concat (key : AvtabKey) (rules : List TypeRule) (r : TypeRule) :
    condRules key (rules ++ [r]) = if r.key = some key ∧ r.place.isSome = true then condRules key rules ++ [r]
      else condRules key rules := by
  by_cases h : r.condOf key = true
  · simp [condRules, h, TypeRule.condOf_iff.mp h]
  · simp [condRules, h, mt TypeRule.condOf_iff.mpr h]

/-- The rule was compared with the last conditional one before it, unless the other branch had a
    rule. -/
def Linked (before : List TypeRule) (r : TypeRule) : Prop :=
  (∃ q ∈ before, Opposite q r) ∨ ∀ q, before.getLast? = some q → q.res = r.res

/-- What the tables tell about the rules that were inserted. `unconditional` and `te` are about the
    unconditional table; the others about the keys it does not have. -/
structure Recorded (rules : List TypeRule) (t : TypeTables) : Prop where
  unconditional : ∀ r ∈ rules, ∀ key, r.key = some key → r.place = none → avtabSearchNode t.te key ≠ none
  te : ∀ r ∈ rules, ∀ key, r.key = some key → ∀ n, avtabSearchNode t.te key = some n → n.datum.data = r.res
  lists : ∀ key, TypeKey key → avtabSearchNode t.te key = none → ∀ node flavor,
    (cilCondAvListSearch key (t.lists node flavor)).isSome = true ↔ ∃ r ∈ rules, r.key = some key ∧
      r.place = some (node, flavor)
  cond : ∀ key, TypeKey key → avtabSearchNode t.te key = none →
    (avtabSearchNode t.cond key).map (·.datum.data) = (condRules key rules).getLast?.map (·.res)
  linked : ∀ key, avtabSearchNode t.te key = none → ∀ before r after, rules = before ++ r :: after → r.key = some key →
    Linked (condRules key before) r

theorem recorded_start : Recorded [] TypeTables.start where
  unconditional := forall_mem_nil _
  te := forall_mem_nil _
  lists key _ _ node flavor := by simp [TypeTables.start, cilCondAvListSearch]
  cond key _ _ := rfl
  linked key _ before r after h := by simp at h

section

variable {rules : List TypeRule} {t t' : TypeTables} {r : TypeRule} {key : AvtabKey}

/-- What was linked stays so; the new rule has to be. -/
theorem linked_concat (hkeep : ∀ k, TypeKey k → avtabSearchNode t'.te k = none → avtabSearchNode t.te k = none)
    (h : Recorded rules t) (hnew : ∀ k, avtabSearchNode t'.te k = none → r.key = some k → Linked (condRules k rules) r) :
    ∀ k, avtabSearchNode t'.te k = none → ∀ before q after, rules ++ [r] = before ++ q :: after → q.key = some k →
      Linked (condRules k before) q := by
  intro k hk before q after heq hq
  rcases eq_nil_or_concat after with rfl | ⟨after, last, rfl⟩
  · obtain ⟨rfl, hsingle⟩ := append_inj' heq rfl
    cases hsingle
    exact hnew k hk hq
  · have hsplit : rules = before ++ q :: after := by
      have heq' : rules ++ [r] = (before ++ q :: after) ++ [last] := by rw [heq]; simp
      exact (append_inj' heq' rfl).1
    exact h.linked k (hkeep k (TypeRule.typeKey hq) hk) before q after hsplit hq

/-- A rule that the unconditional table has afterwards. -/
theorem Recorded.concat_te (h : Recorded rules t) (hkey : r.key = some key) {n : AvtabNode}
    (hn : avtabSearchNode t'.te key = some n)
    (hdata : n.datum.data = r.res) (hsame : ∀ q ∈ rules, q.key = some key → n.datum.data = q.res)
    (hsearch : ∀ k, TypeKey k → k ≠ key → avtabSearchNode t'.te k = avtabSearchNode t.te k)
    (hlists : t'.lists = t.lists) (hcond : t'.cond = t.cond) : Recorded (rules ++ [r]) t' := by
  have hother : ∀ k, TypeKey k → avtabSearchNode t'.te k = none → r.key ≠ some k ∧ avtabSearchNode t.te k = none := by
    intro k hk hnone
    have hne : k ≠ key := by
      rintro rfl
      cases hn.symm.trans hnone
    exact ⟨fun heq => hne (some_inj.mp (heq.symm.trans hkey)), (hsearch k hk hne).symm.trans hnone⟩
  constructor
  · refine forall_mem_append.mpr ⟨fun q hq k hqk hplace hnone => ?_, forall_mem_singleton.mpr fun k hrk _ hnone => ?_⟩
    · exact h.unconditional q hq k hqk hplace (hother k (TypeRule.typeKey hqk) hnone).2
    · exact (hother k (TypeRule.typeKey hrk) hnone).1 hrk
  · intro q hq k hqk m hm
    by_cases heq : k = key
    · subst heq
      cases hn.symm.trans hm
      rcases mem_append.mp hq with hq | hq
      · exact hsame q hq hqk
      · exact mem_singleton.mp hq ▸ hdata
    · rw [hsearch k (TypeRule.typeKey hqk) heq] at hm
      rcases mem_append.mp hq with hq | hq
      · exact h.te q hq k hqk m hm
      · cases mem_singleton.mp hq
        exact absurd (some_inj.mp (hqk.symm.trans hkey)) heq
  · intro k hk hnone node flavor
    obtain ⟨hr, hold⟩ := hother k hk hnone
    rw [hlists, h.lists k hk hold]
    simp [hr]
  · intro k hk hnone
    obtain ⟨hr, hold⟩ := hother k hk hnone
    rw [hcond, h.cond k hk hold, condRules_concat, if_neg fun h => hr h.1]
  · refine linked_concat (fun k hk hnone => (hother k hk hnone).2) h ?_
    intro k hnone hr
    exact absurd hr (hother k (TypeRule.typeKey hr) hnone).1

/-- A new unconditional rule; there are only unconditional ones before it. -/
theorem Recorded.insertTe (h : Recorded rules t) (hfirst : ∀ q ∈ rules, q.place = none) (hkey : r.key = some key)
    (hte : avtabSearchNode t.te key = none) (h0 : t.te.nslot ≠ 0) :
    Recorded (rules ++ [r]) { t with te := t.te.insertNode h0 key { data := r.res } none } := by
  have htype : TypeKey key := TypeRule.typeKey hkey
  refine h.concat_te hkey ((search_insertNode htype htype h0 _ _).trans (if_pos rfl)) ?_ ?_ ?_ rfl rfl
  · exact congrArg AvtabDatum.data (storedDatum_type htype _)
  · exact fun q hq hqk => absurd hte (h.unconditional q hq key hqk (hfirst q hq))
  · exact fun k hk hne => (search_insertNode hk htype h0 _ _).trans (if_neg hne)

/-- A conditional rule that was compared is linked. -/
theorem Recorded.linked_of_checked (h : Recorded rules t) (hkey : r.key = some key) (hte : avtabSearchNode t.te key = none)
    (hplace : r.place = some (node, flavor)) (hchecked : Checked t key r.res node flavor) :
    Linked (condRules key rules) r := by
  have htype : TypeKey key := TypeRule.typeKey hkey
  rcases hchecked with hother | hlast
  · obtain ⟨q, hq, hqk, hqp⟩ := (h.lists key htype hte node !flavor).mp hother
    refine Or.inl ⟨q, mem_condRules.mpr ⟨hq, hqk, by rw [hqp]; rfl⟩, node, flavor, hqp, hplace⟩
  · refine Or.inr ?_
    intro q hq
    have hcond := h.cond key htype hte
    rw [hq] at hcond
    obtain ⟨n, hn, hdata⟩ := map_eq_some_iff.mp hcond
    exact hdata.symm.trans (hlast n hn)

/-- A conditional rule that passed, with what the tables say about it afterwards. -/
theorem Recorded.concat_cond (h : Recorded rules t) (hkey : r.key = some key) (hte : avtabSearchNode t.te key = none)
    (hplace : r.place = some (node, flavor)) (hchecked : Checked t key r.res node flavor) (hsame : t'.te = t.te)
    (hlists : ∀ k, TypeKey k → ∀ node' flavor', (cilCondAvListSearch k (t'.lists node' flavor')).isSome = true ↔
      (k = key ∧ node' = node ∧ flavor' = flavor) ∨ (cilCondAvListSearch k (t.lists node' flavor')).isSome = true)
    (hcond : ∀ k, TypeKey k → (avtabSearchNode t'.cond k).map (·.datum.data) = if k = key then some r.res
      else (avtabSearchNode t.cond k).map (·.datum.data)) : Recorded (rules ++ [r]) t' := by
  have hr : ∀ k, r.key = some k ↔ k = key := by
    intro k
    rw [hkey, some_inj]
    exact eq_comm
  constructor
  · rw [hsame]
    refine forall_mem_append.mpr ⟨h.unconditional, forall_mem_singleton.mpr fun k _ hnone => ?_⟩
    cases hplace.symm.trans hnone
  · rw [hsame]
    refine forall_mem_append.mpr ⟨h.te, forall_mem_singleton.mpr fun k hrk n hn => ?_⟩
    rw [(hr k).mp hrk, hte] at hn
    cases hn
  · intro k hk hnone node' flavor'
    rw [hsame] at hnone
    rw [hlists k hk, h.lists k hk hnone]
    simp only [mem_append, mem_singleton, or_and_right, exists_or, exists_eq_left, hr, hplace, some_inj, Prod.mk.injEq]
    rw [or_comm, eq_comm (a := node), eq_comm (a := flavor)]
  · intro k hk hnone
    rw [hsame] at hnone
    rw [hcond k hk, condRules_concat]
    by_cases heq : k = key
    · rw [if_pos heq, if_pos ⟨(hr k).mpr heq, by rw [hplace]; rfl⟩, List.getLast?_concat]
      rfl
    · rw [if_neg heq, if_neg fun hrk => heq ((hr k).mp hrk.1), h.cond k hk hnone]
  · refine linked_concat (fun k _ hnone => by rwa [hsame] at hnone) h ?_
    intro k _ hrk
    rw [(hr k).mp hrk]
    exact h.linked_of_checked hkey hte hplace hchecked

theorem Recorded.placed (h : Recorded rules t) (hkey : r.key = some key) (hte : avtabSearchNode t.te key = none)
    (hplace : r.place = some (node, flavor)) (hchecked : Checked t key r.res node flavor)
    (hplaced : Placed t t' key r.res node flavor) : Recorded (rules ++ [r]) t' := by
  have htype : TypeKey key := TypeRule.typeKey hkey
  rcases hplaced with ⟨rfl, hthis, n, hn, hdata⟩ | ⟨h0, rfl⟩
  · refine h.concat_cond hkey hte hplace hchecked rfl ?_ ?_
    · refine fun k _ node' flavor' => ⟨Or.inr, fun hk => hk.elim ?_ id⟩
      rintro ⟨rfl, rfl, rfl⟩
      exact hthis
    · intro k _
      by_cases heq : k = key
      · rw [if_pos heq, heq, hn, ← hdata]
        rfl
      · rw [if_neg heq]
  · refine h.concat_cond hkey hte hplace hchecked rfl ?_ ?_
    · intro k hk node' flavor'
      rw [condInsert_lists]
      by_cases hlist : node' = node ∧ flavor' = flavor
      · rw [if_pos hlist, listSearch_cons hk htype, and_iff_left hlist, hlist.1, hlist.2]
      · rw [if_neg hlist]
        exact ⟨Or.inr, fun h => h.resolve_left fun h => hlist h.2⟩
    · intro k hk
      unfold TypeTables.condInsert
      simp only [search_insertNode hk htype]
      by_cases heq : k = key
      · rw [if_pos heq, if_pos heq]
        exact congrArg (fun d => some (AvtabDatum.data d)) (storedDatum_type htype _)
      · rw [if_neg heq, if_neg heq]

end

/-- What a run of calls leaves. -/
theorem recorded_run {rules : List TypeRule} {t : TypeTables}
    (hrun : rules.foldlM cilInsertTypeRule TypeTables.start = some t)
    (hfirst : UnconditionalFirst rules) : Recorded rules t := by
  refine Run.foldlM_split ?_ recorded_start hrun
  intro done r todo s s' hsplit hrec hstep
  obtain ⟨key, hkey, ⟨n, hn, hdata, rfl⟩ | ⟨hte, ⟨hplace, h0, rfl⟩ | ⟨node, flavor, hplace, hchecked, hplaced⟩⟩⟩ :=
    cilInsertTypeRule_cases hstep
  · exact hrec.concat_te hkey hn hdata (fun q hq hqk => hrec.te q hq key hqk n hn) (fun _ _ _ => rfl) rfl rfl
  · refine hrec.insertTe ?_ hkey hte h0
    intro q hq
    rw [← hsplit] at hfirst
    have hpair := (pairwise_append.mp hfirst).2.2 q hq r mem_cons_self
    simpa [hplace] using hpair
  · exact hrec.placed hkey hte hplace hchecked hplaced

theorem key_run {rules : List TypeRule} {s t : TypeTables} (hrun : rules.foldlM cilInsertTypeRule s = some t) :
    ∀ r ∈ rules, ∃ key, r.key = some key := by
  refine Run.foldlM_history (P := fun done _ => ∀ r ∈ done, ∃ key, r.key = some key) ?_ (forall_mem_nil _) hrun
  intro done r s s' _ hdone hstep
  obtain ⟨key, hkey, -⟩ := cilInsertTypeRule_cases hstep
  exact forall_mem_append.mpr ⟨hdone, forall_mem_singleton.mpr ⟨key, hkey⟩⟩

/-! ## Rules of one key -/

theorem not_both_enabled {conds : Nat → CondExpr} {state : Nat → Bool} {q r : TypeRule} (h : Opposite q r)
    (hq : q.Enabled conds state) (hr : r.Enabled conds state) : False := by
  obtain ⟨node, flavor, hqp, hrp⟩ := h
  simp only [TypeRule.Enabled, hqp] at hq
  simp only [TypeRule.Enabled, hrp] at hr
  rw [hq] at hr
  cases flavor <;> cases hr

/-- Rules that were all compared with the one before give the same type. -/
theorem same_of_linked {cs : List TypeRule}
    (hlinked : ∀ before r after, cs = before ++ r :: after → ∀ q, before.getLast? = some q → q.res = r.res) :
    ∀ q ∈ cs, ∀ r ∈ cs, q.res = r.res := by
  induction cs using List.reverseRecOn with
  | nil => exact forall_mem_nil _
  | append_singleton cs last ih =>
    have hcs : ∀ q ∈ cs, ∀ r ∈ cs, q.res = r.res :=
      ih fun before r after heq => hlinked before r (after ++ [last]) (by rw [heq, append_assoc, cons_append])
    have hlast : ∀ q ∈ cs, q.res = last.res := by
      intro q hq
      obtain ⟨p, hp⟩ := isSome_iff_exists.mp (List.getLast?_isSome.mpr (ne_nil_of_mem hq))
      exact (hcs q hq p (mem_of_getLast? hp)).trans (hlinked cs last [] rfl p hp)
    refine forall_mem_append.mpr ⟨fun q hq => ?_, forall_mem_singleton.mpr ?_⟩
    · exact forall_mem_append.mpr ⟨hcs q hq, forall_mem_singleton.mpr (hlast q hq)⟩
    · exact forall_mem_append.mpr ⟨fun r hr => (hlast r hr).symm, forall_mem_singleton.mpr rfl⟩

/-- An opposite rule is the last one, so before it all were compared. -/
theorem agree_of_linked {cs : List TypeRule} (hlinked : ∀ before r after, cs = before ++ r :: after → Linked before r)
    (hsep : ∀ before r after, cs = before ++ r :: after → (∃ q ∈ before, Opposite q r) →
      (∀ q ∈ before, Opposite q r) ∧ after = []) :
    ∀ q ∈ cs, ∀ r ∈ cs, q.res = r.res ∨ Opposite q r ∨ Opposite r q := by
  by_cases hall : ∀ before r after, cs = before ++ r :: after → ¬∃ q ∈ before, Opposite q r
  · have hsame := same_of_linked fun before r after heq =>
      (hlinked before r after heq).resolve_left (hall before r after heq)
    exact fun q hq r hr => Or.inl (hsame q hq r hr)
  · push Not at hall
    obtain ⟨cs, last, after, rfl, hopp⟩ := hall
    obtain ⟨hopp, rfl⟩ := hsep cs last after rfl hopp
    have hcs : ∀ q ∈ cs, ∀ r ∈ cs, q.res = r.res := by
      refine same_of_linked fun before r after heq => ?_
      have hsplit : cs ++ [last] = before ++ r :: (after ++ [last]) := by
        rw [heq, append_assoc, cons_append]
      exact (hlinked before r _ hsplit).resolve_left fun hopp => absurd (hsep before r _ hsplit hopp).2 (by simp)
    refine forall_mem_append.mpr ⟨fun q hq => ?_, forall_mem_singleton.mpr ?_⟩
    · exact forall_mem_append.mpr ⟨fun r hr => Or.inl (hcs q hq r hr),
        forall_mem_singleton.mpr (Or.inr (Or.inl (hopp q hq)))⟩
    · exact forall_mem_append.mpr ⟨fun r hr => Or.inr (Or.inr (hopp r hr)), forall_mem_singleton.mpr (Or.inl rfl)⟩

/-- A place among the conditional rules of a key is a place among all rules. -/
theorem condRules_split {key : AvtabKey} {rules before after : List TypeRule} {r : TypeRule}
    (h : condRules key rules = before ++ r :: after) :
    ∃ l₁ l₂, rules = l₁ ++ r :: l₂ ∧ condRules key l₁ = before ∧ condRules key l₂ = after ∧ r.key = some key := by
  obtain ⟨l₁, l₂, rfl, h₁, h₂⟩ := filter_eq_append_iff.mp h
  obtain ⟨m₁, m₂, rfl, hm₁, hr, hm₂⟩ := filter_eq_cons_iff.mp h₂
  refine ⟨l₁ ++ m₁, m₂, by simp, ?_, hm₂, (TypeRule.condOf_iff.mp hr).1⟩
  rw [condRules, filter_append, h₁, filter_eq_nil_iff.mpr hm₁, append_nil]

/-- With the unconditional rules first, and a rule whose key the other branch has already behind
    all others of its key, calls that all succeed insert rules that agree. -/
theorem cilInsertTypeRule_agree (conds : Nat → CondExpr) {rules : List TypeRule} {t : TypeTables}
    (hrun : rules.foldlM cilInsertTypeRule TypeTables.start = some t) (hfirst : UnconditionalFirst rules)
    (hsep : Separate rules) : Agree conds rules := by
  have hrec := recorded_run hrun hfirst
  intro state r hr q hq hsame hron hqon
  obtain ⟨key, hrk⟩ := key_run hrun r hr
  have hqk : q.key = some key := hsame ▸ hrk
  cases hte : avtabSearchNode t.te key with
  | some n => exact (hrec.te r hr key hrk n hte).symm.trans (hrec.te q hq key hqk n hte)
  | none =>
    have hplaced : ∀ p ∈ rules, p.key = some key → p.place ≠ none := by
      intro p hp hpk hplace
      exact hrec.unconditional p hp key hpk hplace hte
    have hcond : ∀ p ∈ rules, p.key = some key → p ∈ condRules key rules := by
      intro p hp hpk
      exact mem_condRules.mpr ⟨hp, hpk, isSome_iff_ne_none.mpr (hplaced p hp hpk)⟩
    have hlinked : ∀ before p after, condRules key rules = before ++ p :: after → Linked before p := by
      intro before p after heq
      obtain ⟨l₁, l₂, hsplit, rfl, -, hpk⟩ := condRules_split heq
      exact hrec.linked key hte l₁ p l₂ hsplit hpk
    have halone : ∀ before p after, condRules key rules = before ++ p :: after → (∃ o ∈ before, Opposite o p) →
        (∀ o ∈ before, Opposite o p) ∧ after = [] := by
      intro before p after heq hopp
      obtain ⟨l₁, l₂, hsplit, rfl, rfl, hpk⟩ := condRules_split heq
      obtain ⟨o, ho, hop⟩ := hopp
      obtain ⟨ho, hok, -⟩ := mem_condRules.mp ho
      obtain ⟨hbefore, hafter⟩ := hsep l₁ p l₂ hsplit (fun o ho hok => hplaced o ho (hok.trans hpk))
        ⟨o, ho, hok.trans hpk.symm, hop⟩
      refine ⟨?_, eq_nil_iff_forall_not_mem.mpr ?_⟩
      · intro o ho
        obtain ⟨ho, hok, -⟩ := mem_condRules.mp ho
        exact hbefore o ho (hok.trans hpk.symm)
      · intro o ho
        obtain ⟨ho, hok, -⟩ := mem_condRules.mp ho
        exact hafter o ho (hok.trans hpk.symm)
    rcases agree_of_linked hlinked halone r (hcond r hr hrk) q (hcond q hq hqk) with hres | hopp | hopp
    · exact hres
    · exact (not_both_enabled hopp hron hqon).elim
    · exact (not_both_enabled hopp hqon hron).elim

/-- A transition of type 1 to a type, in a branch of a conditional. -/
def branchRule (res : BitVec 32) (flavor : Bool) : TypeRule := ⟨.transition, 1#32, 2#32, 3#32, res, some (0, flavor)⟩

/-- An unconditional rule of another kind, and one rule in each branch of a conditional. -/
theorem cilInsertTypeRule_agree_branches : ∃ t,
    [⟨.member, 1#32, 2#32, 3#32, 4#32, none⟩, branchRule 4#32 true, branchRule 5#32 false].foldlM cilInsertTypeRule
      TypeTables.start =
        some t ∧
      Agree (fun _ => [.bool 1]) [⟨.member, 1#32, 2#32, 3#32, 4#32, none⟩, branchRule 4#32 true, branchRule 5#32 false] := by
  have hrun : ([⟨.member, 1#32, 2#32, 3#32, 4#32, none⟩, branchRule 4#32 true, branchRule 5#32 false].foldlM
    cilInsertTypeRule
      TypeTables.start).isSome = true := by decide +kernel
  obtain ⟨t, ht⟩ := isSome_iff_exists.mp hrun
  refine ⟨t, ht, cilInsertTypeRule_agree _ ht ?_ ?_⟩
  · unfold UnconditionalFirst
    decide
  · intro before r after h
    match before with
    | [] => simp
    | [a] =>
      simp only [cons_append, nil_append, List.cons.injEq] at h
      obtain ⟨rfl, rfl, rfl⟩ := h
      simp [Opposite]
    | [a, b] =>
      simp only [cons_append, nil_append, List.cons.injEq] at h
      obtain ⟨rfl, rfl, rfl, rfl⟩ := h
      intro _ _
      refine ⟨?_, forall_mem_nil _⟩
      intro q hq hkey
      simp only [mem_cons, not_mem_nil, or_false] at hq
      rcases hq with rfl | rfl
      · exact absurd hkey (by decide)
      · exact ⟨0, false, rfl, rfl⟩
    | _ :: _ :: _ :: _ => simp at h

/-- Two rules in the false branch, which are not compared since the true branch has their key. -/
theorem falseBranch_conflict : ∃ t,
    [branchRule 4#32 true, branchRule 5#32 false, branchRule 6#32 false].foldlM cilInsertTypeRule TypeTables.start = some t ∧
      UnconditionalFirst [branchRule 4#32 true, branchRule 5#32 false, branchRule 6#32 false] ∧
      ¬Agree (fun _ => [.bool 1]) [branchRule 4#32 true, branchRule 5#32 false, branchRule 6#32 false] := by
  have hrun : ([branchRule 4#32 true, branchRule 5#32 false, branchRule 6#32 false].foldlM cilInsertTypeRule
      TypeTables.start).isSome = true := by decide +kernel
  obtain ⟨t, ht⟩ := isSome_iff_exists.mp hrun
  refine ⟨t, ht, ?_, ?_⟩
  · unfold UnconditionalFirst
    decide
  · intro h
    have hsame := h (fun _ => false) (branchRule 5#32 false) (by simp) (branchRule 6#32 false) (by simp) rfl rfl rfl
    exact absurd hsame (by decide)

end SELinux.Cil
