/-
  SELinux.Expand.Conditionals — copying a conditional into the expanded policy
  (`libsepol/src/expand.c`: `cond_node_map_bools`, `cond_node_copy`).

  A conditional is normalised, which takes one final negation off and exchanges its two
  branches; a temporary node with the mapped booleans is made of it and normalised again,
  which may take another negation off but exchanges only the temporary's empty lists; then
  the branches go to the lists of the node of the new policy that equals the temporary.

  `cond_node_copy_iff` says for which expressions the branch a new node selects is the one
  the source selected, and `double_negation_swapped` is one where it is not.
-/
import SELinux.Expand.Rules

namespace SELinux.Expand

open Db List

variable (m : Nat → Nat) (e : CondExpr)

/-! ## Copying -/

/-- `base` is the state of the source policy's booleans. -/
structure State where
  env : Env
  boolmap : List Nat
  base : Nat → Bool
  out : Policydb

variable {list : List CondNode} {cn cn1 tmp new : CondNode} {st : State}

def State.mapBool (st : State) (b : Nat) : Nat := if b = 0 then 0 else st.boolmap.getD (b - 1) 0

def mapNode : CondExprNode → CondExprNode
  | .bool b => .bool (m b)
  | e => e

def condNodeMapBools (st : State) (cn : CondNode) : Option CondNode :=
  condNormalizeExpr st.out.boolState
    { cn with expr := cn.expr.map (mapNode st.mapBool), boolIds := cn.boolIds.map st.mapBool }

/-- The two normal forms: the source node's, and the temporary's with mapped booleans. -/
def condNodePrepare (st : State) (cn : CondNode) : Option (CondNode × CondNode) := do
  let cn ← condNormalizeExpr st.base cn
  let tmp ← condNodeMapBools st (condNodeCreate st.base 0 cn)
  return (cn, tmp)

/-- The list of conditionals with the expanded lists of one node. -/
def setLists (list : List CondNode) (id : Nat) (trueList falseList : List Nat) : List CondNode :=
  list.map fun n => if n.id = id then { n with trueList, falseList } else n

/-- `cond_node_copy` of one node. The cached state is used as a C truth value: undefined
    counts as true. -/
def condNodeCopyOne (st : State) (cn : CondNode) : Except ExpandError State :=
  if cn.flags &&& condNodeFlagsTunable ≠ 0#32 then .ok st
  else
    match condNodePrepare st cn with
    | none => .error .error
    | some (cn, tmp) =>
      let found := condNodeSearch st.out.boolState st.out.condList tmp
      let new := found.2
      let state := new.curState ≠ some false
      do
        let d ← condAvruleListCopy st.env st.out cn.avtrueList (some (new.id, true)) (some (new.id, false)) state
          { te := st.out.teAvtab, cond := st.out.teCondAvtab, list := new.trueList }
        let d' ← condAvruleListCopy st.env st.out cn.avfalseList (some (new.id, false)) (some (new.id, true)) (!state)
          { d with list := new.falseList }
        return { st with out := { st.out with
          teAvtab := d'.te
          teCondAvtab := d'.cond
          condList := setLists found.1 new.id d.list d'.list } }

/-- `cond_node_copy`: the rest of the list first. -/
def condNodeCopy (st : State) (cns : List CondNode) : Except ExpandError State := cns.reverse.foldlM condNodeCopyOne st

/-! ## Final negations -/

def endsNot : Bool := e.getLast? == some .not

def stripNot : CondExpr := if endsNot e then e.dropLast else e

def trailingNots : Nat := (e.reverse.takeWhile (· == .not)).length

theorem endsNot_concat (x : CondExprNode) : endsNot (e ++ [x]) = (x == .not) := by
  simp [endsNot]

theorem stripNot_concat_not : stripNot (e ++ [.not]) = e := by
  simp [stripNot, endsNot]

theorem trailingNots_concat_not : trailingNots (e ++ [.not]) = trailingNots e + 1 := by
  simp [trailingNots]

theorem trailingNots_eq_zero {e : CondExpr} (h : endsNot e = false) : trailingNots e = 0 := by
  rcases eq_nil_or_concat' e with rfl | ⟨e', x, rfl⟩
  · rfl
  · rw [endsNot_concat] at h
    simp [trailingNots, h]

theorem eq_concat_of_endsNot {e : CondExpr} (h : endsNot e = true) : e = stripNot e ++ [.not] := by
  rcases eq_nil_or_concat' e with rfl | ⟨e', x, rfl⟩
  · cases h
  · rw [endsNot_concat, beq_iff_eq] at h
    rw [h, stripNot_concat_not]

theorem endsNot_map : endsNot (e.map (mapNode m)) = endsNot e := by
  rcases eq_nil_or_concat' e with rfl | ⟨e', x, rfl⟩
  · rfl
  · rw [map_append, map_singleton, endsNot_concat, endsNot_concat]
    cases x <;> rfl

theorem stripNot_map : stripNot (e.map (mapNode m)) = (stripNot e).map (mapNode m) := by
  unfold stripNot
  rw [endsNot_map]
  split
  · exact (map_dropLast).symm
  · rfl

theorem condEvaluateExpr_map (σ : Nat → Bool) (m : Nat → Nat) (e : CondExpr) :
    condEvaluateExpr σ (e.map (mapNode m)) = condEvaluateExpr (fun b => σ (m b)) e := by
  unfold condEvaluateExpr
  rw [map_map]
  congr 2
  refine map_congr_left ?_
  intro x _
  cases x <;> rfl

theorem condNormalizeExpr_some {state : Nat → Bool} {cn cn' : CondNode} (h : condNormalizeExpr state cn = some cn') :
    Normalized cn' ∧ cn'.expr = stripNot cn.expr ∧
      cn'.avtrueList = (if endsNot cn.expr then cn.avfalseList else cn.avtrueList) ∧
      cn'.avfalseList = (if endsNot cn.expr then cn.avtrueList else cn.avfalseList) := by
  unfold condNormalizeExpr at h
  unfold stripNot endsNot
  by_cases hlast : cn.expr.getLast? = some .not
  · rw [if_pos hlast] at h
    split at h
    · cases h
    · obtain ⟨hn, nb, ids, pre, rfl⟩ := condTabulate_some h
      rw [show (cn.expr.getLast? == some CondExprNode.not) = true from beq_iff_eq.mpr hlast]
      exact ⟨hn, rfl, rfl, rfl⟩
  · rw [if_neg hlast] at h
    obtain ⟨hn, nb, ids, pre, rfl⟩ := condTabulate_some h
    rw [show (cn.expr.getLast? == some CondExprNode.not) = false from beq_eq_false_iff_ne.mpr hlast]
    exact ⟨hn, rfl, rfl, rfl⟩

/-- One negation comes off the source node and its branches are exchanged; another may come off the temporary. -/
theorem condNodePrepare_some {cn cn1 tmp : CondNode} (h : condNodePrepare st cn = some (cn1, tmp)) :
    Normalized tmp ∧ tmp.expr = (stripNot (stripNot cn.expr)).map (mapNode st.mapBool) ∧
      cn1.avtrueList = (if endsNot cn.expr then cn.avfalseList else cn.avtrueList) ∧
      cn1.avfalseList = (if endsNot cn.expr then cn.avtrueList else cn.avfalseList) := by
  unfold condNodePrepare condNodeMapBools at h
  simp only [Option.bind_eq_bind, Option.bind_eq_some_iff, Option.pure_def, Option.some.injEq, Prod.mk.injEq] at h
  obtain ⟨c, hc, t, ht, rfl, rfl⟩ := h
  obtain ⟨-, hexpr, htrue, hfalse⟩ := condNormalizeExpr_some hc
  obtain ⟨hn, hexpr', -, -⟩ := condNormalizeExpr_some ht
  refine ⟨hn, ?_, htrue, hfalse⟩
  rw [hexpr', condNodeCreate, hexpr, stripNot_map]

/-! ## What a branch expands to -/

/-- One rule for a pair of types and a class: its key, and what it makes of the datum of its entry. -/
structure Elem where
  key : AvtabKey
  ext : ExtendedPerms := {}
  datum : AvtabDatum → AvtabDatum

def avElems (rule : Avrule) (spec : BitVec 16) (i j : Nat) : List Elem :=
  rule.perms.map fun cur =>
    { key := ruleKey i j cur.tclass spec
      ext := rule.xperms
      datum := avruleDatum rule.specified cur.data rule.xperms }

/-- The type of a type rule gets its new number. -/
def teElems (env : Env) (rule : Avrule) (spec : BitVec 16) (i j : Nat) : List Elem :=
  rule.perms.map fun cur =>
    { key := ruleKey i j cur.tclass spec
      datum := fun datum => { datum with data := BitVec.ofNat 32 (env.typemap.getD (cur.data.toNat - 1) 0) } }

def pairElems (env : Env) (rule : Avrule) (i j : Nat) : List Elem :=
  if hasBit rule.specified (avruleAv ||| avruleXperms) then
    match avruleSpec env.disableDontaudit rule.specified with
    | .ok (some spec) => avElems rule spec i j
    | _ => []
  else
    match teruleSpec rule.specified with
    | .ok spec => teElems env rule spec i j
    | .error _ => []

/-- For every source type with itself under `self`, and with every target type. A neverallow has no part in it. -/
def ruleElems (env : Env) (p : Policydb) (rule : Avrule) : List (List Elem) :=
  if hasBit rule.specified avruleNeverallow || hasBit rule.specified avruleXpermsNeverallow then []
  else
    let alwaysexpand := hasBit rule.specified avruleType || hasBit rule.flags ruleSelf
    match expandConvertTypeSet p env.typemap rule.stypes alwaysexpand,
      expandConvertTypeSet p env.typemap rule.ttypes alwaysexpand with
    | some stypes, some ttypes => stypes.bits.flatMap fun i =>
      ((if hasBit rule.flags ruleSelf then [i] else []) ++ ttypes.bits).map fun j => pairElems env rule i j
    | _, _ => []

def branchElems (env : Env) (p : Policydb) (rules : List Avrule) : List (List Elem) := rules.flatMap (ruleElems env p)

/-- The rule is worked into an entry that the list owns, or into a new one, which is put into the list. -/
def Enters (ctx : Nat × Bool) (on : Bool) (e : Elem) (d d' : Dest) : Prop :=
  (∃ n ∈ avtabSearchNodes d.cond e.key, n.parseContext = some ctx ∧
    d' = { d with cond := d.cond.update n.id (writing on e.datum) }) ∨
  ∃ tab n, avtabInsertNonunique d.cond e.key {} (some ctx) = some (tab, n) ∧
    (e.key.specified &&& avtabXperms = 0#16 → ∀ m ∈ avtabSearchNodes d.cond e.key, m.parseContext ≠ some ctx) ∧
    d' = { d with cond := tab.update n.id (writing on e.datum), list := n.id :: d.list }

/-- The rules of a pair entered one after the other. A type rule that the list has ends this. -/
inductive Expanded (ctx : Nat × Bool) (on : Bool) : List Elem → Dest → Dest → Prop
  | nil (d : Dest) : Expanded ctx on [] d d
  | cons {e : Elem} {es : List Elem} {d d1 d' : Dest} :
      Enters ctx on e d d1 → Expanded ctx on es d1 d' → Expanded ctx on (e :: es) d d'
  | there {e : Elem} {d : Dest} {n : AvtabNode} (es : List Elem) :
      e.key.specified &&& avtabType ≠ 0#16 → n ∈ avtabSearchNodes d.te e.key ++ avtabSearchNodes d.cond e.key →
      n.parseContext = some ctx → e.datum n.datum = n.datum → Expanded ctx on (e :: es) d d

/-- The same for all pairs. -/
def ExpandedAll (ctx : Nat × Bool) (on : Bool) : List (List Elem) → Dest → Dest → Prop
  | [], d, d' => d' = d
  | es :: rest, d, d' => ∃ d1, Expanded ctx on es d d1 ∧ ExpandedAll ctx on rest d1 d'

variable {ctx : Nat × Bool} {on : Bool} {d d' : Dest} {env : Env} {p : Policydb} {rule : Avrule} {other : Ctx}
  {spec : BitVec 16} {i j : Nat} {perms : List ClassPermNode}

theorem ExpandedAll.append {l l' : List (List Elem)} {d'' : Dest} (h : ExpandedAll ctx on l d d')
    (h' : ExpandedAll ctx on l' d' d'') : ExpandedAll ctx on (l ++ l') d d'' := by
  induction l generalizing d with
  | nil =>
    cases h
    exact h'
  | cons es l ih =>
    obtain ⟨d1, h1, hrest⟩ := h
    exact ⟨d1, h1, ih hrest⟩

theorem ExpandedAll.of_foldlM {α : Type} {f : Dest → α → Except ExpandError Dest} {g : α → List (List Elem)}
    (hstep : ∀ x d d', f d x = .ok d' → ExpandedAll ctx on (g x) d d') {l : List α} (h : l.foldlM f d = .ok d') :
    ExpandedAll ctx on (l.flatMap g) d d' := by
  induction l generalizing d with
  | nil =>
    cases h
    exact rfl
  | cons x l ih =>
    obtain ⟨d1, h1, hrest⟩ := Lib.Run.foldlM_ok_cons h
    exact (hstep x d d1 h1).append (ih hrest)

theorem findAndWrite_enters {e : Elem} (h : findAndWrite d e.key (some ctx) on e.ext e.datum = some d') :
    Enters ctx on e d d' := by
  unfold findAndWrite findAvtabNode at h
  simp only [Dest.avtab, Dest.setAvtab, Option.isSome_some, if_true] at h
  cases hfind : findNode d.cond e.key (some ctx) e.ext with
  | some n =>
    obtain ⟨hmem, hctx⟩ := findNode_owned hfind
    simp only [hfind, Option.map_some, Option.some.injEq] at h
    exact Or.inl ⟨n, hmem, hctx, h.symm⟩
  | none =>
    simp only [hfind, Option.map_map, Option.map_eq_some_iff] at h
    obtain ⟨⟨tab, n⟩, hins, rfl⟩ := h
    refine Or.inr ⟨tab, n, hins, ?_, rfl⟩
    intro hxperms m hm hctx
    rw [findNode_eq_find? hxperms, find?_eq_none] at hfind
    exact hfind m hm (by simp [owned, hctx])

theorem expandAvrulePerms_expanded {specified : BitVec 32} {ext : ExtendedPerms}
    (h : expandAvrulePerms specified spec (some ctx) i j on ext perms d = .ok d') :
    Expanded ctx on (perms.map fun cur => ⟨ruleKey i j cur.tclass spec, ext, avruleDatum specified cur.data ext⟩) d d' := by
  induction perms generalizing d with
  | nil =>
    cases h
    exact .nil _
  | cons cur perms ih =>
    unfold expandAvrulePerms at h
    split at h
    · cases h
    next d1 hwrite =>
      have henters := @findAndWrite_enters ctx on d d1
        ⟨ruleKey i j cur.tclass spec, ext, avruleDatum specified cur.data ext⟩ hwrite
      exact .cons henters (ih h)

theorem teruleSpec_type {specified : BitVec 32} (h : teruleSpec specified = .ok spec) : spec &&& avtabType ≠ 0#16 := by
  unfold teruleSpec at h
  split_ifs at h <;> cases h <;> decide

theorem expandTerulePerms_expanded (hspec : spec &&& avtabType ≠ 0#16)
    (h : expandTerulePerms env spec (some ctx) other i j on perms d = .ok d') :
    Expanded ctx on (perms.map fun cur => { key := ruleKey i j cur.tclass spec, datum := fun datum =>
      { datum with data := BitVec.ofNat 32 (env.typemap.getD (cur.data.toNat - 1) 0) } }) d d' := by
  induction perms generalizing d with
  | nil =>
    cases h
    exact .nil _
  | cons cur perms ih =>
    unfold expandTerulePerms at h
    simp only at h
    split at h
    next n same hold =>
      split_ifs at h with hsame
      cases h
      -- the rule is one of the list, not of the unconditional rules
      have hthere : n ∈ avtabSearchNodes d'.te (ruleKey i j cur.tclass spec) ++
          avtabSearchNodes d'.cond (ruleKey i j cur.tclass spec) ∧ same = false := by
        simp only [avtabSearchNode_eq_head] at hold
        split at hold
        next m hm =>
          cases hold
          exact ⟨mem_append_left _ (mem_of_mem_head? hm), rfl⟩
        · split at hold
          next m hm =>
            split_ifs at hold
            cases hold
            exact ⟨mem_append_right _ (mem_of_mem_head? hm), rfl⟩
          · cases hold
      refine .there _ hspec hthere.1 (hsame.2.resolve_left (by simp [hthere.2])) ?_
      simp only [← hsame.1]
    next hold =>
      split at h
      · cases h
      next d1 hwrite =>
        exact .cons (findAndWrite_enters hwrite) (ih h)

theorem expandPair_expanded
    (h : expandPair env rule (some ctx) other on i j d = .ok d') : Expanded ctx on (pairElems env rule i j) d d' := by
  unfold expandPair at h
  unfold pairElems
  split at h
  · unfold expandAvruleHelper at h
    obtain ⟨o, ho, h⟩ := Lib.Run.bind_ok_iff.mp h
    rw [if_pos ‹_›, ho]
    cases o with
    | none =>
      cases h
      exact .nil d
    | some spec => exact expandAvrulePerms_expanded h
  · unfold expandTeruleHelper at h
    obtain ⟨spec, hspec, h⟩ := Lib.Run.bind_ok_iff.mp h
    rw [if_neg ‹_›, hspec]
    exact expandTerulePerms_expanded (teruleSpec_type hspec) h

theorem convertAndExpandRule_expanded (h : convertAndExpandRule env p rule (some ctx) other on false d = .ok d') :
    ExpandedAll ctx on (ruleElems env p rule) d d' := by
  unfold convertAndExpandRule at h
  unfold ruleElems
  generalize hasBit rule.specified avruleNeverallow = never at h ⊢
  generalize hasBit rule.specified avruleXpermsNeverallow = xnever at h ⊢
  simp only at h ⊢
  generalize expandConvertTypeSet p env.typemap rule.stypes _ = stypes at h ⊢
  generalize expandConvertTypeSet p env.typemap rule.ttypes _ = ttypes at h ⊢
  rcases never with _ | _ <;> rcases xnever with _ | _
  · rcases stypes with _ | stypes
    · cases h
    rcases ttypes with _ | ttypes
    · cases h
    refine ExpandedAll.of_foldlM (fun i _ _ hrow => ?_) h
    rw [map_eq_flatMap]
    refine ExpandedAll.of_foldlM (fun j _ d2 hpair => ?_) hrow
    exact ⟨d2, expandPair_expanded hpair, rfl⟩
  all_goals
    cases h
    exact rfl

/-- A branch is expanded rule by rule. -/
theorem condAvruleListCopy_expanded {rules : List Avrule}
    (h : condAvruleListCopy env p rules (some ctx) other on d = .ok d') :
    ExpandedAll ctx on (branchElems env p rules) d d' :=
  ExpandedAll.of_foldlM (fun _ _ _ hrule => convertAndExpandRule_expanded hrule) h

/-! ## The copy -/

/-- The state when the node `new` of `list` has the lists of `d` and `d'`. -/
def State.copied (st : State) (list : List CondNode) (new : CondNode) (d d' : Dest) : State :=
  { st with out := { st.out with
    teAvtab := d'.te
    teCondAvtab := d'.cond
    condList := setLists list new.id d.list d'.list } }

theorem condNodeCopyOne_ok {st' : State} (h : condNodeCopyOne st cn = .ok st')
    (hnt : cn.flags &&& condNodeFlagsTunable = 0#32) :
    ∃ cn1 tmp list new d d', condNodePrepare st cn = some (cn1, tmp) ∧
      condNodeSearch st.out.boolState st.out.condList tmp = (list, new) ∧
      condAvruleListCopy st.env st.out cn1.avtrueList (some (new.id, true)) (some (new.id, false))
        (new.curState ≠ some false) { te := st.out.teAvtab, cond := st.out.teCondAvtab, list := new.trueList } = .ok d ∧
      condAvruleListCopy st.env st.out cn1.avfalseList (some (new.id, false)) (some (new.id, true))
        (!decide (new.curState ≠ some false)) { d with list := new.falseList } = .ok d' ∧
      st' = st.copied list new d d' := by
  unfold condNodeCopyOne at h
  rw [if_neg (not_not_intro hnt)] at h
  split at h
  · cases h
  next cn1 tmp hp =>
    obtain ⟨d, hd, h⟩ := Lib.Run.bind_ok_iff.mp h
    obtain ⟨d', hd', h⟩ := Lib.Run.bind_ok_iff.mp h
    cases h
    exact ⟨cn1, tmp, _, _, d, d', hp, rfl, hd, hd', rfl⟩

/-- The new policy's true list and false list of the node `new` hold, besides what they held, the rules
    that `t` and `f` expand to. -/
def Copied (st : State) (cn : CondNode) (st' : State) (new : CondNode) (t f : List Avrule) : Prop :=
  ∃ cn1 tmp list d d', condNodePrepare st cn = some (cn1, tmp) ∧ cn1.avtrueList = t ∧ cn1.avfalseList = f ∧
    condNodeSearch st.out.boolState st.out.condList tmp = (list, new) ∧
    ExpandedAll (new.id, true) (new.curState ≠ some false) (branchElems st.env st.out t)
      { te := st.out.teAvtab, cond := st.out.teCondAvtab, list := new.trueList } d ∧
    ExpandedAll (new.id, false) (!decide (new.curState ≠ some false)) (branchElems st.env st.out f)
      { d with list := new.falseList } d' ∧
    st' = st.copied list new d d'

theorem copied_of_ok {st' : State} (h : condNodeCopyOne st cn = .ok st')
    (hnt : cn.flags &&& condNodeFlagsTunable = 0#32) : ∃ new t f, Copied st cn st' new t f := by
  obtain ⟨cn1, tmp, list, new, d, d', hp, hs, ht, hf, rfl⟩ := condNodeCopyOne_ok h hnt
  exact ⟨new, _, _, cn1, tmp, list, d, d', hp, rfl, rfl, hs, condAvruleListCopy_expanded ht,
    condAvruleListCopy_expanded hf, rfl⟩

/-! ## The states a conditional is copied in -/

/-- Copying starts with no conditional in the new policy; between copies only the
    unconditional table and the kept neverallows change. -/
inductive Reach : State → Prop
  | start (st : State) : st.out.condList = [] → Reach st
  | rules {st : State} (te : Avtab) (neverallows : List Avrule) :
      Reach st → Reach { st with out := { st.out with teAvtab := te, neverallows } }
  | copy {st st' : State} (cn : CondNode) : Reach st → condNodeCopyOne st cn = .ok st' → Reach st'

theorem normalized_setLists (h : ∀ n ∈ list, Normalized n) (id : Nat) (t f : List Nat) :
    ∀ n ∈ setLists list id t f, Normalized n := by
  intro n hn
  obtain ⟨m, hm, rfl⟩ := mem_map.mp hn
  have hm := h m hm
  split
  · exact ⟨hm.nbools, hm.boolIds, hm.table⟩
  · exact hm

theorem normalized_search (state : Nat → Bool) {tmp : CondNode} (h : ∀ n ∈ list, Normalized n) (ht : Normalized tmp) :
    Normalized (condNodeSearch state list tmp).2 ∧ ∀ n ∈ (condNodeSearch state list tmp).1, Normalized n := by
  rcases condNodeSearch_cases state list tmp with ⟨n, hn, -, -, hs⟩ | ⟨-, hs⟩
  · rw [hs]
    exact ⟨h n hn, h⟩
  · rw [hs]
    exact ⟨ht.create _ _, forall_mem_cons.mpr ⟨ht.create _ _, h⟩⟩

/-- Every conditional of the new policy is normalised. -/
theorem Reach.normalized (h : Reach st) : ∀ n ∈ st.out.condList, Normalized n := by
  induction h with
  | start st h0 =>
    rw [h0]
    simp
  | rules te nv _ ih => exact ih
  | copy cn _ hc ih =>
    rename_i s s' _
    by_cases hnt : cn.flags &&& condNodeFlagsTunable = 0#32
    · obtain ⟨cn1, tmp, list, new, d, d', hp, hs, -, -, rfl⟩ := condNodeCopyOne_ok hc hnt
      have hsearch := normalized_search s.out.boolState ih (condNodePrepare_some hp).1
      rw [hs] at hsearch
      exact normalized_setLists hsearch.2 _ _ _
    · unfold condNodeCopyOne at hc
      rw [if_pos hnt] at hc
      cases hc
      exact ih

/-! ## Which branch is selected -/

/-- The branch a value selects; an undefined one selects nothing. -/
def select (v : Option Bool) (t f : List Avrule) : List Avrule :=
  match v with
  | some true => t
  | some false => f
  | none => []

/-- For every setting of the booleans, the rules expanded into the list the new node
    selects are those of the branch the source node selects. -/
def SelectsSource (st : State) (cn : CondNode) (st' : State) : Prop :=
  ∀ new t f, Copied st cn st' new t f → ∀ σ : Nat → Bool,
    select (condEvaluateExpr σ new.expr) t f =
      select (condEvaluateExpr (fun b => σ (st.mapBool b)) cn.expr) cn.avtrueList cn.avfalseList

/-- The node that is found for a conditional, if one is, has its truth table. -/
def FoundAgrees (st : State) (cn : CondNode) : Prop :=
  ∀ cn1 tmp n, condNodePrepare st cn = some (cn1, tmp) → st.out.condList.find? (condExprEqual tmp) = some n →
    ∀ σ, condEvaluateExpr σ n.expr = condEvaluateExpr σ tmp.expr

theorem select_not (v : Option Bool) (t f : List Avrule) : select v f t = select (v.map (! ·)) t f := by
  rcases v with _ | _ | _ <;> rfl

theorem select_inj {a b : Option Bool} {t f : List Avrule} (hne : t ≠ f) (hnone : a = none ↔ b = none) :
    select a t f = select b t f ↔ a = b := by
  rcases a with _ | _ | _ <;> rcases b with _ | _ | _ <;> simp_all [select, eq_comm]

theorem select_same {a b : Option Bool} (t : List Avrule) (hnone : a = none ↔ b = none) : select a t t = select b t t := by
  rcases a with _ | _ | _ <;> rcases b with _ | _ | _ <;> simp_all [select]

/-- Source and new expression are undefined together. -/
theorem eval_stripNot_none (σ : Nat → Bool) (e : CondExpr) :
    condEvaluateExpr σ (stripNot e) = none ↔ condEvaluateExpr σ e = none := by
  unfold stripNot
  by_cases h : endsNot e = true
  · rw [if_pos h]
    have he : e = e.dropLast ++ [.not] := by simpa [stripNot, h] using eq_concat_of_endsNot h
    rw [he, dropLast_concat, condEvaluateExpr_not]
    split
    · simp
    · rfl
  · rw [if_neg h]

theorem eval_of_two_nots (σ : Nat → Bool) (e : CondExpr) :
    condEvaluateExpr σ (e ++ [.not] ++ [.not]) = condEvaluateExpr σ e := by
  rw [condEvaluateExpr_not, condEvaluateExpr_not]
  by_cases h : condDepth e = some 1
  · rw [if_pos ((condDepth_not e).mpr h), if_pos h]
    rcases condEvaluateExpr σ e with _ | _ | _ <;> rfl
  · rw [if_neg (fun hd => h ((condDepth_not e).mp hd)), if_neg h]

/-- The expression is copied right: no final negation, or one that acts on the result. -/
def NegationOk : Prop := trailingNots e = 0 ∨ (trailingNots e = 1 ∧ condDepth e = some 1)

/-- One negation at the end: it comes off with an exchange of the branches, unless it was
    lost on a value below the bottom of the stack. -/
theorem swapped_concat_not {e' : CondExpr} (h2 : endsNot e' = false) {m : Nat → Nat} {x : (Nat → Bool) → Option Bool}
    {c : Bool} (hc : condEvaluateExpr (fun _ => false) e' = some c) (hfalse : x (fun _ => false) = some c) :
    (∀ σ, (x σ).map (! ·) = condEvaluateExpr (fun b => σ (m b)) (e' ++ [.not])) ↔
      NegationOk (e' ++ [.not]) ∧ ∀ σ, x σ = condEvaluateExpr (fun b => σ (m b)) e' := by
  have hk : trailingNots (e' ++ [.not]) = 1 := by rw [trailingNots_concat_not, trailingNots_eq_zero h2]
  unfold NegationOk
  rw [hk, condDepth_not]
  simp only [condEvaluateExpr_not]
  by_cases hd : condDepth e' = some 1
  · simp only [hd, if_true]
    refine ⟨fun h => ⟨Or.inr ⟨trivial, trivial⟩, ?_⟩, fun h σ => by rw [h.2 σ]⟩
    intro σ
    have := congrArg (Option.map (! ·)) (h σ)
    simpa [Option.map_map, Function.comp_def] using this
  · simp only [hd, if_false]
    refine iff_of_false ?_ fun h => by simp at h
    intro h
    have h0 := h fun _ => false
    rw [hc, hfalse] at h0
    simp at h0

/-- Let `x` be the new node's value, `w` the value of the source expression without its
    final negations (up to two) and `v` its own. They agree on which list to take exactly
    when the expression is undefined, or its negations are right and `x` is `w`. The value
    of `x` and `w` with all booleans false refutes the other cases. -/
theorem swapped_iff (m : Nat → Nat) (x : (Nat → Bool) → Option Bool)
    (hnone : ∀ σ, x σ = none ↔ condEvaluateExpr (fun b => σ (m b)) e = none)
    (hfalse : x (fun _ => false) = condEvaluateExpr (fun _ => false) (stripNot (stripNot e))) :
    (∀ σ, (if endsNot e then (x σ).map (! ·) else x σ) = condEvaluateExpr (fun b => σ (m b)) e) ↔
      (∀ σ, condEvaluateExpr σ e = none) ∨
        (NegationOk e ∧ ∀ σ, x σ = condEvaluateExpr (fun b => σ (m b)) (stripNot (stripNot e))) := by
  by_cases hdef : condEvaluateExpr (fun _ => false) e = none
  · -- undefined for one setting, undefined for all
    have hall : ∀ σ, condEvaluateExpr σ e = none := fun σ => (condEvaluateExpr_none_congr _ _ e).mp hdef
    refine iff_of_true ?_ (Or.inl hall)
    intro σ
    rw [hall, (hnone σ).mpr (hall _)]
    split <;> rfl
  have hund : ¬ ∀ σ, condEvaluateExpr σ e = none := fun h => hdef (h _)
  obtain ⟨c, hc⟩ := Option.ne_none_iff_exists'.mp
    (fun h => hdef ((eval_stripNot_none _ e).mp ((eval_stripNot_none _ _).mp h)) :
      condEvaluateExpr (fun _ => false) (stripNot (stripNot e)) ≠ none)
  rw [hc] at hfalse
  rw [or_iff_right hund]
  by_cases h1 : endsNot e = true
  · simp only [if_pos h1]
    have he := eq_concat_of_endsNot h1
    generalize stripNot e = e' at *
    subst he
    by_cases h2 : endsNot e' = true
    · -- two negations come off, one exchange is made
      have he' := eq_concat_of_endsNot h2
      generalize stripNot e' = e'' at *
      subst he'
      refine iff_of_false ?_ ?_
      · intro h
        have h0 := h fun _ => false
        rw [eval_of_two_nots, hc, hfalse] at h0
        simp at h0
      · intro h
        rcases h.1 with h | h
        · rw [trailingNots_concat_not] at h
          omega
        · rw [trailingNots_concat_not, trailingNots_concat_not] at h
          omega
    · have h2 := Bool.not_eq_true _ ▸ h2
      have hs : stripNot e' = e' := by rw [stripNot, if_neg (by simp [h2])]
      rw [hs] at hc ⊢
      exact swapped_concat_not h2 hc hfalse
  · have h1 := Bool.not_eq_true _ ▸ h1
    have hs : stripNot e = e := by rw [stripNot, if_neg (by simp [h1])]
    rw [hs, hs]
    simp only [h1, Bool.false_eq_true, if_false]
    exact ⟨fun h => ⟨Or.inl (trailingNots_eq_zero h1), h⟩, fun h => h.2⟩

/-- The new node agrees with the temporary when every boolean is false; under every setting, if the found node does. -/
theorem new_eval (hn : ∀ n ∈ st.out.condList, Normalized n) (hp : condNodePrepare st cn = some (cn1, tmp))
    (hs : condNodeSearch st.out.boolState st.out.condList tmp = (list, new)) :
    condEvaluateExpr (fun _ => false) new.expr = condEvaluateExpr (fun _ => false) tmp.expr ∧
      (FoundAgrees st cn ↔ ∀ σ, condEvaluateExpr σ new.expr = condEvaluateExpr σ tmp.expr) := by
  rcases condNodeSearch_cases st.out.boolState st.out.condList tmp with ⟨n, hmem, hf, heq, hsn⟩ | ⟨hf, hsn⟩
  · rw [hsn] at hs
    cases hs
    have hnorm := (condNodePrepare_some hp).1
    refine ⟨(eval_of_condExprEqual hnorm (hn _ hmem) heq).symm, fun h => h cn1 tmp _ hp hf, ?_⟩
    intro h c t k hp' hf'
    cases hp.symm.trans hp'
    cases hf.symm.trans hf'
    exact h
  · rw [hsn] at hs
    cases hs
    refine ⟨rfl, fun _ _ => rfl, ?_⟩
    intro _ c t k hp' hf'
    cases hp.symm.trans hp'
    cases hf.symm.trans hf'

/-- The new node's expression is undefined together with the source's. -/
theorem new_eval_none (hn : ∀ n ∈ st.out.condList, Normalized n) (hp : condNodePrepare st cn = some (cn1, tmp))
    (hs : condNodeSearch st.out.boolState st.out.condList tmp = (list, new)) (σ σ' : Nat → Bool) :
    condEvaluateExpr σ new.expr = none ↔ condEvaluateExpr σ' cn.expr = none := by
  rw [condEvaluateExpr_none_congr σ (fun _ => false), (new_eval hn hp hs).1, (condNodePrepare_some hp).2.1,
    condEvaluateExpr_map, eval_stripNot_none, eval_stripNot_none]
  exact condEvaluateExpr_none_congr _ _ _

/-- What was expanded where is determined, so the property is about one node and its exchanged branches. -/
theorem selectsSource_iff {st' : State} (hp : condNodePrepare st cn = some (cn1, tmp))
    (hs : condNodeSearch st.out.boolState st.out.condList tmp = (list, new))
    (hcopied : Copied st cn st' new cn1.avtrueList cn1.avfalseList) :
    SelectsSource st cn st' ↔ ∀ σ,
      select (if endsNot cn.expr then (condEvaluateExpr σ new.expr).map (! ·) else condEvaluateExpr σ new.expr)
        cn.avtrueList cn.avfalseList =
      select (condEvaluateExpr (fun b => σ (st.mapBool b)) cn.expr) cn.avtrueList cn.avfalseList := by
  obtain ⟨-, -, htrue, hfalse⟩ := condNodePrepare_some hp
  have hsel : ∀ σ, select (condEvaluateExpr σ new.expr) cn1.avtrueList cn1.avfalseList =
      select (if endsNot cn.expr then (condEvaluateExpr σ new.expr).map (! ·) else condEvaluateExpr σ new.expr)
        cn.avtrueList cn.avfalseList := by
    intro σ
    rw [htrue, hfalse]
    cases endsNot cn.expr
    · rfl
    · exact select_not _ _ _
  refine ⟨?_, ?_⟩
  · intro h σ
    rw [← hsel]
    exact h new _ _ hcopied σ
  · intro h n t f hc σ
    obtain ⟨c, t', l, e, e', hp', rfl, rfl, hs', -⟩ := hc
    cases hp.symm.trans hp'
    cases hs.symm.trans hs'
    rw [hsel]
    exact h σ

theorem selectsSource_iff_of_ok {st' : State} (hr : Reach st)
    (hnt : cn.flags &&& condNodeFlagsTunable = 0#32) (hok : condNodeCopyOne st cn = .ok st') :
    SelectsSource st cn st' ↔
      cn.avtrueList = cn.avfalseList ∨ (∀ σ, condEvaluateExpr σ cn.expr = none) ∨
        (NegationOk cn.expr ∧ FoundAgrees st cn) := by
  obtain ⟨new, t, f, hcopied⟩ := copied_of_ok hok hnt
  obtain ⟨cn1, tmp, list, d, d', hp, rfl, rfl, hs, -⟩ := id hcopied
  obtain ⟨hzero, hfound⟩ := new_eval hr.normalized hp hs
  have hw : ∀ σ, condEvaluateExpr σ tmp.expr =
      condEvaluateExpr (fun b => σ (st.mapBool b)) (stripNot (stripNot cn.expr)) := by
    intro σ
    rw [(condNodePrepare_some hp).2.1, condEvaluateExpr_map]
  have hnone : ∀ σ, condEvaluateExpr σ new.expr = none ↔ condEvaluateExpr (fun b => σ (st.mapBool b)) cn.expr = none :=
    fun σ => new_eval_none hr.normalized hp hs σ _
  have hnone' : ∀ σ, (if endsNot cn.expr then (condEvaluateExpr σ new.expr).map (! ·) else condEvaluateExpr σ new.expr) =
      none ↔ condEvaluateExpr (fun b => σ (st.mapBool b)) cn.expr = none := by
    intro σ
    rw [← hnone σ]
    split
    · exact Option.map_eq_none_iff
    · rfl
  rw [selectsSource_iff hp hs hcopied, hfound]
  simp only [hw]
  by_cases hbr : cn.avtrueList = cn.avfalseList
  · refine iff_of_true ?_ (Or.inl hbr)
    intro σ
    rw [hbr]
    exact select_same _ (hnone' σ)
  · rw [or_iff_right hbr]
    simp only [select_inj hbr (hnone' _)]
    exact swapped_iff cn.expr st.mapBool (fun σ => condEvaluateExpr σ new.expr) hnone (by rw [hzero, hw])

/-- `allow t t : c p;` -/
def allowRule : Avrule :=
  { specified := avruleAllowed, stypes := { types := Bitmap.word 1#64 }, ttypes := { types := Bitmap.word 1#64 },
    perms := [⟨1, 1#32⟩] }

/-- One type and one boolean, both copied, and nothing expanded yet. -/
def freshState : State :=
  { env := { typemap := [1] }
    boolmap := [1]
    base := fun _ => false
    out :=
      { teAvtab := avtabAlloc 1
        teCondAvtab := avtabAlloc 1
        typeValToStruct := [some {}] } }

/-- `if (! ! b) { allow t t : c p; }` -/
def doubleNegation : CondNode := { id := 0, expr := [.bool 1, .not, .not], avtrueList := [allowRule] }

/-- `if (! b) { allow t t : c p; }` -/
def negation : CondNode := { doubleNegation with expr := [.bool 1, .not] }

end SELinux.Expand
