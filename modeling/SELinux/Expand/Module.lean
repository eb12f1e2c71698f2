/-
  SELinux.Expand.Module — expanding a base policy, and switching its conditionals
  (`libsepol/src/expand.c`: `discard_tunables`, `copy_and_expand_avrule_block`,
  `expand_module`; `conditional.c`: `cond_optimize_lists`, `evaluate_conds`).

  The symbol tables come first in `expand_module`; `Symbols` is what they leave for the
  rules. Roles, users, constraints and contexts touch no access vector table and are left
  out, and so are the checks made at the end, which only reject.

  A rule of a conditional must be enabled exactly when its branch is selected.
  `conditional_flags` proves it along every sequence of boolean changes for policies
  whose conditional expressions are defined; an undefined one counts as true when its
  rules are expanded, and is never corrected (`undefined_enabled`).
-/
import SELinux.Expand.Conditionals

namespace SELinux.Expand

open Db List

variable {p : Policydb} {tab : Avtab} {st st' : State} {ctx : Nat × Bool} {on : Bool} {preserve : Bool} {list : List Nat}
  {new : CondNode} {m : AvtabNode} {n : CondNode}

/-! ## Tunables -/

def exprBools (e : CondExpr) : List Nat :=
  e.filterMap fun
    | .bool b => some b
    | _ => none

/-- `discard_tunables` of one conditional of a block, with the flags of the booleans and
    the block's rules; `none` where the assertion against mixed expressions fails. -/
def discardNode (preserve : Bool) (state : Nat → Bool) (tunable : Nat → Bool) (avrules : List Avrule) (cn : CondNode) :
    Option ((Nat → Bool) × List Avrule × CondNode) :=
  let tunables := (exprBools cn.expr).filter tunable
  let booleans := (exprBools cn.expr).filter fun b => !tunable b
  if !preserve && !booleans.isEmpty && !tunables.isEmpty then none
  else if !booleans.isEmpty || preserve then
    some (fun b => if b ∈ tunables then false else tunable b, avrules,
      { cn with flags := cn.flags &&& ~~~condNodeFlagsTunable })
  else
    let cn := { cn with flags := cn.flags ||| condNodeFlagsTunable }
    match condEvaluateExpr state cn.expr with
    | none => some (tunable, avrules, cn)
    | some true => some (tunable, avrules ++ cn.avtrueList, { cn with avtrueList := [] })
    | some false => some (tunable, avrules ++ cn.avfalseList, { cn with avfalseList := [] })

def discardNodes (preserve : Bool) (state : Nat → Bool) :
    (Nat → Bool) → List Avrule → List CondNode → Option ((Nat → Bool) × List Avrule × List CondNode)
  | tunable, avrules, [] => some (tunable, avrules, [])
  | tunable, avrules, cn :: cns => do
    let (tunable, avrules, cn) ← discardNode preserve state tunable avrules cn
    let (tunable, avrules, cns) ← discardNodes preserve state tunable avrules cns
    return (tunable, avrules, cn :: cns)

def discardBlocks (preserve : Bool) (state : Nat → Bool) :
    (Nat → Bool) → List (Option AvruleDecl) → Option (List (Option AvruleDecl))
  | _, [] => some []
  | tunable, none :: l => do return none :: (← discardBlocks preserve state tunable l)
  | tunable, some decl :: l =>
    if decl.enabled then do
      let (tunable, avrules, condList) ← discardNodes preserve state tunable decl.avrules decl.condList
      return some { decl with avrules, condList } :: (← discardBlocks preserve state tunable l)
    else do return some decl :: (← discardBlocks preserve state tunable l)

/-- The blocks of a base policy once its tunables are decided. -/
def discardTunables (preserve : Bool) (base : Policydb) : Option (List (Option AvruleDecl)) :=
  discardBlocks preserve base.boolState base.boolTunable base.global

/-! ## Blocks -/

/-- One unconditional rule. A neverallow is kept for the checker; an error on the way is
    only logged. -/
def copyRule (st : State) (rule : Avrule) : Except ExpandError State :=
  if hasBit rule.specified (avruleNeverallow ||| avruleXpermsNeverallow) then
    .ok { st with out := { st.out with
      neverallows := (copyNeverallow st.out st.env.typemap rule).toList ++ st.out.neverallows } }
  else
    (convertAndExpandRule st.env st.out rule none none false false
      { te := st.out.teAvtab, cond := st.out.teCondAvtab, list := [] }).map
      fun d => { st with out := { st.out with teAvtab := d.te } }

def expandDecl (st : State) (decl : AvruleDecl) : Except ExpandError State := do
  let st ← decl.avrules.foldlM copyRule st
  condNodeCopy st decl.condList

def copyAndExpandAvruleBlock (st : State) (blocks : List (Option AvruleDecl)) : Except ExpandError State :=
  (blocks.filterMap id).foldlM expandDecl
    { st with out := { st.out with teAvtab := avtabAlloc maxAvtabSize, teCondAvtab := avtabAlloc maxAvtabSize } }

/-- `cur->node->key.specified & AVTAB_TYPE` of the node with this id. -/
def isTypeRule (tab : Avtab) (id : Nat) : Bool :=
  tab.nodes.any fun n => n.id == id && n.key.specified &&& avtabType != 0#16

def condOptimizeLists (tab : Avtab) (l : List CondNode) : List CondNode :=
  l.map fun n => { n with
    trueList := condOptimize (isTypeRule tab) n.trueList
    falseList := condOptimize (isTypeRule tab) n.falseList }

/-- What the symbol phases leave: the maps from the base policy's values, and the types
    and booleans of the new policy, which has no rules and no conditionals yet. -/
structure Symbols where
  typemap : List Nat
  boolmap : List Nat
  boolState : Nat → Bool
  typeValToStruct : List (Option TypeDatum)

def startState (disableDontaudit : Bool) (sym : Symbols) (base : Policydb) : State :=
  { env := { typemap := sym.typemap, disableDontaudit }
    boolmap := sym.boolmap
    base := base.boolState
    out := { boolState := sym.boolState, typeValToStruct := sym.typeValToStruct } }

def expandModule (preserve disableDontaudit : Bool) (sym : Symbols) (base : Policydb) : Except ExpandError Policydb :=
  match discardTunables preserve base with
  | none => .error .error
  | some blocks =>
    (copyAndExpandAvruleBlock (startState disableDontaudit sym base) blocks).map fun st =>
      evaluateConds { st.out with condList := condOptimizeLists st.out.teCondAvtab st.out.condList }

/-- The booleans set, and the conditionals evaluated again. -/
def setBools (p : Policydb) (state : Nat → Bool) : Policydb := evaluateConds { p with boolState := state }

/-- A sequence of boolean changes. -/
def runBools (p : Policydb) (changes : List (Nat → Bool)) : Policydb := changes.foldl setBools p

/-! ## The flags of a conditional's rules -/

/-- The rules of a node have the flags of its cached state. -/
structure FlagsOk (tab : Avtab) (n : CondNode) : Prop where
  onTrue : ListOk tab (n.id, true) (n.curState == some true) n.trueList
  onFalse : ListOk tab (n.id, false) (n.curState == some false) n.falseList

/-- Every rule of every conditional is enabled exactly when its branch is selected. -/
def CondFlags (p : Policydb) : Prop :=
  ∀ n ∈ p.condList, ∀ rule ∈ p.teCondAvtab.nodes, rule.id ∈ n.trueList ∨ rule.id ∈ n.falseList →
    (rule.enabled = true ↔
      (condEvaluateExpr p.boolState n.expr = some true ∧ rule.id ∈ n.trueList) ∨
        (condEvaluateExpr p.boolState n.expr = some false ∧ rule.id ∈ n.falseList))

/-- Between evaluations: each conditional's flags follow its cached state. -/
structure RunInv (p : Policydb) : Prop where
  flags : ∀ n ∈ p.condList, FlagsOk p.teCondAvtab n
  ids : (p.condList.map (·.id)).Nodup

theorem ListOk.frame {tab tab' : Avtab} (h : ListOk tab ctx on list)
    (hf : ∀ m ∈ tab.nodes, m.parseContext = some ctx → m ∈ tab'.nodes) : ListOk tab' ctx on list := by
  intro id hid
  obtain ⟨m, hm, hmid, hctx, hon⟩ := h id hid
  exact ⟨m, hf m hm hctx, hmid, hctx, hon⟩

theorem ListOk.subset {l l' : List Nat} (h : ListOk tab ctx on l) (hs : ∀ id ∈ l', id ∈ l) : ListOk tab ctx on l' :=
  fun id hid => h id (hs id hid)

theorem ListOk.nil (tab : Avtab) (ctx : Nat × Bool) (on : Bool) : ListOk tab ctx on [] := by
  intro id hid
  cases hid

/-- A rule of the table that is in the list is owned by the list, and has its flag. -/
theorem ListOk.rule (h : ListOk tab ctx on list)
    (hm : m ∈ tab.nodes) (hid : m.id ∈ list) : m.parseContext = some ctx ∧ m.enabled = on := by
  obtain ⟨k, hk, hkid, hctx, hon⟩ := h m.id hid
  rw [Avtab.eq_of_id hm hk hkid.symm]
  exact ⟨hctx, hon⟩

theorem FlagsOk.frame {tab tab' : Avtab} (h : FlagsOk tab n)
    (hf : ∀ m ∈ tab.nodes, ∀ b, m.parseContext = some (n.id, b) → m ∈ tab'.nodes) : FlagsOk tab' n :=
  ⟨h.onTrue.frame fun m hm => hf m hm true, h.onFalse.frame fun m hm => hf m hm false⟩

/-- Flags that follow the cached state are right when the cached state is. -/
theorem condFlags_of_flagsOk (hf : ∀ n ∈ p.condList, FlagsOk p.teCondAvtab n)
    (hc : ∀ n ∈ p.condList, n.curState = condEvaluateExpr p.boolState n.expr) : CondFlags p := by
  intro n hn rule hrule hid
  have hflags := hf n hn
  rw [← hc n hn]
  rcases hid with hid | hid
  · obtain ⟨hctx, hon⟩ := hflags.onTrue.rule hrule hid
    have hnot : rule.id ∉ n.falseList := fun h => by
      have := (hflags.onFalse.rule hrule h).1
      rw [hctx] at this
      cases this
    simp [hon, hid, hnot]
  · obtain ⟨hctx, hon⟩ := hflags.onFalse.rule hrule hid
    have hnot : rule.id ∉ n.trueList := fun h => by
      have := (hflags.onTrue.rule hrule h).1
      rw [hctx] at this
      cases this
    simp [hon, hid, hnot]

/-! ## Evaluating -/

/-- Switching a list of rules leaves the others. -/
theorem mem_setEnabled_of_not_mem {ids : List Nat} (hm : m ∈ tab.nodes)
    (hid : m.id ∉ ids) : m ∈ (ids.foldl (fun t id => t.setEnabled id on) tab).nodes := by
  induction ids generalizing tab with
  | nil => exact hm
  | cons i ids ih =>
    rw [mem_cons, not_or] at hid
    exact ih (mem_update_of_ne hm hid.1 _) hid.2

theorem exists_setEnabled_of_mem {ids : List Nat} (hm : m ∈ tab.nodes)
    (hid : m.id ∈ ids) : ∃ k ∈ (ids.foldl (fun t id => t.setEnabled id on) tab).nodes,
      k.id = m.id ∧ k.parseContext = m.parseContext ∧ k.enabled = on := by
  induction ids generalizing tab m with
  | nil => cases hid
  | cons i ids ih =>
    rw [foldl_cons]
    by_cases hi : m.id = i
    · subst hi
      obtain ⟨k, hk, hkid, hkctx, hkon⟩ := exists_mem_update hm on id
      by_cases hlater : m.id ∈ ids
      · obtain ⟨k', hk', hid', hctx', hon'⟩ := ih hk (hkid ▸ hlater)
        exact ⟨k', hk', hid'.trans hkid, hctx'.trans hkctx, hon'⟩
      · exact ⟨k, mem_setEnabled_of_not_mem hk (hkid ▸ hlater), hkid, hkctx, hkon⟩
    · exact ih (mem_update_of_ne hm hi _) ((mem_cons.mp hid).resolve_left hi)

/-- Switching a list that owns its rules. -/
theorem ListOk.setEnabled {old : Bool} (h : ListOk tab ctx old list) (on : Bool) :
    ListOk (list.foldl (fun t id => t.setEnabled id on) tab) ctx on list ∧
      ∀ m ∈ tab.nodes, m.parseContext ≠ some ctx → m ∈ (list.foldl (fun t id => t.setEnabled id on) tab).nodes := by
  refine ⟨?_, fun m hm hne => mem_setEnabled_of_not_mem hm fun hid => hne (h.rule hm hid).1⟩
  intro id hid
  obtain ⟨m, hm, rfl, hctx, -⟩ := h id hid
  obtain ⟨k, hk, hkid, hkctx, hkon⟩ := exists_setEnabled_of_mem hm hid
  exact ⟨k, hk, hkid, hkctx.trans hctx, hkon⟩

/-- Evaluating a node brings its flags and its state up to date, and touches no rule of another node. -/
theorem evaluateCondNode_spec (σ : Nat → Bool) (h : FlagsOk tab n) :
    FlagsOk (evaluateCondNode σ tab n).1 (evaluateCondNode σ tab n).2 ∧
      (evaluateCondNode σ tab n).2 = { n with curState := condEvaluateExpr σ n.expr } ∧
      ∀ m ∈ tab.nodes, (∀ b, m.parseContext ≠ some (n.id, b)) → m ∈ (evaluateCondNode σ tab n).1.nodes := by
  unfold evaluateCondNode
  by_cases hcur : condEvaluateExpr σ n.expr = n.curState
  · simp only [hcur, ne_eq, not_true_eq_false, if_false]
    exact ⟨h, trivial, fun m hm _ => hm⟩
  · simp only [ne_eq, hcur, not_false_eq_true, if_true]
    obtain ⟨htrue, hframe⟩ := h.onTrue.setEnabled (condEvaluateExpr σ n.expr == some true)
    have hfalse := h.onFalse.frame fun m hm hctx => hframe m hm (by rw [hctx]; simp)
    obtain ⟨hfalse', hframe'⟩ := hfalse.setEnabled (condEvaluateExpr σ n.expr == some false)
    refine ⟨⟨htrue.frame fun m hm hctx => hframe' m hm (by rw [hctx]; simp), hfalse'⟩, trivial, ?_⟩
    intro m hm hne
    exact hframe' m (hframe m hm (hne true)) (hne false)

theorem evaluateCondList_spec (σ : Nat → Bool) {l : List CondNode} (h : ∀ n ∈ l, FlagsOk tab n)
    (hids : (l.map (·.id)).Nodup) : (∀ n ∈ (evaluateCondList σ tab l).2, FlagsOk (evaluateCondList σ tab l).1 n) ∧
      (evaluateCondList σ tab l).2 = l.map (fun n => { n with curState := condEvaluateExpr σ n.expr }) ∧
      ∀ m ∈ tab.nodes, (∀ n ∈ l, ∀ b, m.parseContext ≠ some (n.id, b)) → m ∈ (evaluateCondList σ tab l).1.nodes := by
  induction l generalizing tab with
  | nil => exact ⟨by simp [evaluateCondList], rfl, fun m hm _ => hm⟩
  | cons n l ih =>
    rw [map_cons, nodup_cons] at hids
    obtain ⟨hnid, hids⟩ := hids
    have hne : ∀ n' ∈ l, n'.id ≠ n.id := fun n' hn' heq => hnid (heq ▸ mem_map_of_mem hn')
    obtain ⟨hn, heq, hframe⟩ := evaluateCondNode_spec σ (h n mem_cons_self)
    have hrest : ∀ n' ∈ l, FlagsOk (evaluateCondNode σ tab n).1 n' := fun n' hn' =>
      (h n' (mem_cons_of_mem _ hn')).frame fun m hm b hctx =>
        hframe m hm fun b' => by rw [hctx]; simp [hne n' hn']
    obtain ⟨hl, heql, hframel⟩ := ih hrest hids
    unfold evaluateCondList
    simp only
    refine ⟨forall_mem_cons.mpr ⟨hn.frame fun m hm b hctx => hframel m hm ?_, hl⟩, ?_, ?_⟩
    · intro n' hn' b'
      rw [hctx, heq]
      simpa using fun h1 _ => hne n' hn' h1.symm
    · rw [heql, heq]
      rfl
    · intro m hm hmne
      exact hframel m (hframe m hm (hmne n mem_cons_self)) fun n' hn' => hmne n' (mem_cons_of_mem _ hn')

/-- One evaluation: the flags are right for the booleans it saw. -/
theorem evaluateConds_spec (h : RunInv p) : RunInv (evaluateConds p) ∧ CondFlags (evaluateConds p) := by
  obtain ⟨hflags, hlist, -⟩ := evaluateCondList_spec p.boolState h.flags h.ids
  have hids : ((evaluateConds p).condList.map (·.id)).Nodup := by
    show ((evaluateCondList p.boolState p.teCondAvtab p.condList).2.map (·.id)).Nodup
    rw [hlist, map_map]
    exact h.ids
  refine ⟨⟨hflags, hids⟩, condFlags_of_flagsOk hflags ?_⟩
  intro n hn
  change n ∈ (evaluateCondList p.boolState p.teCondAvtab p.condList).2 at hn
  rw [hlist] at hn
  obtain ⟨m, -, rfl⟩ := mem_map.mp hn
  rfl

theorem runBools_spec (h : RunInv p) (hc : CondFlags p) (changes : List (Nat → Bool)) :
    RunInv (runBools p changes) ∧ CondFlags (runBools p changes) := by
  induction changes generalizing p with
  | nil => exact ⟨h, hc⟩
  | cons σ changes ih =>
    obtain ⟨hinv, hflags⟩ := evaluateConds_spec (p := { p with boolState := σ }) ⟨h.flags, h.ids⟩
    exact ih hinv hflags

/-! ## Expanding -/

/-- While conditionals are copied: the nodes are normalised and numbered, each holds the
    value of its expression, and its rules have the flags of that value. -/
structure CopyInv (p : Policydb) : Prop where
  normalized : ∀ n ∈ p.condList, Normalized n
  cached : ∀ n ∈ p.condList, n.curState = condEvaluateExpr p.boolState n.expr
  flags : ∀ n ∈ p.condList, FlagsOk p.teCondAvtab n
  ids : (p.condList.map (·.id)).Nodup
  numbered : ∀ n ∈ p.condList, n.id < p.condList.length

/-- The branch that is expanded into the true list. -/
def landing (cn : CondNode) : List Avrule := if endsNot cn.expr then cn.avfalseList else cn.avtrueList

/-- The expression has a value, or there is no rule for the true list. -/
def DefinedOrEmpty (cn : CondNode) : Prop := (∀ σ, condEvaluateExpr σ cn.expr ≠ none) ∨ landing cn = []

/-- The conditional may be copied, or will not be. -/
def Copyable (cn : CondNode) : Prop := cn.flags &&& condNodeFlagsTunable ≠ 0#32 ∨ DefinedOrEmpty cn

theorem length_setLists (l : List CondNode) (id : Nat) (t f : List Nat) : (setLists l id t f).length = l.length := by
  unfold setLists
  rw [length_map]

theorem map_id_setLists (l : List CondNode) (id : Nat) (t f : List Nat) : (setLists l id t f).map (·.id) = l.map (·.id) := by
  unfold setLists
  rw [map_map]
  refine map_congr_left ?_
  intro n _
  simp only [Function.comp_apply]
  split <;> rfl

/-- The search keeps the invariant and gives a node of the list it leaves. -/
theorem CopyInv.search (h : CopyInv p) {tmp : CondNode} (ht : Normalized tmp) {list : List CondNode}
    (hs : condNodeSearch p.boolState p.condList tmp = (list, new)) : new ∈ list ∧ CopyInv { p with condList := list } := by
  rcases condNodeSearch_cases p.boolState p.condList tmp with ⟨n, hn, -, -, hsn⟩ | ⟨-, hsn⟩
  · rw [hsn] at hs
    cases hs
    exact ⟨hn, h⟩
  · rw [hsn] at hs
    cases hs
    refine ⟨mem_cons_self, ⟨?_, ?_, ?_, ?_, ?_⟩⟩
    · exact forall_mem_cons.mpr ⟨ht.create _ _, h.normalized⟩
    · exact forall_mem_cons.mpr ⟨rfl, h.cached⟩
    · exact forall_mem_cons.mpr ⟨⟨ListOk.nil _ _ _, ListOk.nil _ _ _⟩, h.flags⟩
    · -- the new id is the number of nodes before, above every other id
      rw [map_cons, nodup_cons]
      refine ⟨?_, h.ids⟩
      intro hm
      obtain ⟨m, hm, hid⟩ := mem_map.mp hm
      exact absurd hid (Nat.ne_of_lt (h.numbered m hm))
    · refine forall_mem_cons.mpr ⟨Nat.lt_succ_self _, ?_⟩
      intro m hm
      exact Nat.lt_succ_of_lt (h.numbered m hm)

/-- Expanding the two branches of a node into its lists. -/
theorem CopyInv.setLists (h : CopyInv p) (hnew : new ∈ p.condList) {te cond : Avtab} {t f : List Nat}
    (hnode : FlagsOk cond { new with trueList := t, falseList := f })
    (hframe : ∀ m ∈ p.teCondAvtab.nodes, (∀ b, m.parseContext ≠ some (new.id, b)) → m ∈ cond.nodes) :
    CopyInv { p with teAvtab := te, teCondAvtab := cond, condList := setLists p.condList new.id t f } := by
  refine ⟨normalized_setLists h.normalized _ _ _, ?_, ?_, ?_, ?_⟩
  · intro n hn
    obtain ⟨m, hm, rfl⟩ := mem_map.mp hn
    have hc := h.cached m hm
    split
    · exact hc
    · exact hc
  · intro n hn
    obtain ⟨m, hm, rfl⟩ := mem_map.mp hn
    split
    next hid =>
      rw [inj_on_of_nodup_map h.ids hm hnew hid]
      exact hnode
    next hid =>
      exact (h.flags m hm).frame fun k hk b hctx => hframe k hk fun b' => by rw [hctx]; simp [hid]
  · show ((Expand.setLists p.condList new.id t f).map (·.id)).Nodup
    rw [map_id_setLists]
    exact h.ids
  · intro n hn
    rw [length_setLists]
    obtain ⟨m, hm, rfl⟩ := mem_map.mp hn
    have hlt := h.numbered m hm
    split
    · exact hlt
    · exact hlt

/-- The branches of a defined conditional get the flags of the node's state. With an
    undefined one the rules for the true list would be enabled: there are none. -/
theorem branches_flagsOk {env : Env} {tr fr : List Avrule} {te tab : Avtab} {d d' : Dest}
    (h : FlagsOk tab new) (hdef : new.curState ≠ none ∨ tr = [])
    (ht : condAvruleListCopy env p tr (some (new.id, true)) (some (new.id, false)) (new.curState ≠ some false)
      { te, cond := tab, list := new.trueList } = .ok d)
    (hf : condAvruleListCopy env p fr (some (new.id, false)) (some (new.id, true)) (!decide (new.curState ≠ some false))
      { d with list := new.falseList } = .ok d') :
    FlagsOk d'.cond { new with trueList := d.list, falseList := d'.list } ∧
      ∀ m ∈ tab.nodes, (∀ b, m.parseContext ≠ some (new.id, b)) → m ∈ d'.cond.nodes := by
  have hgt := condAvruleListCopy_grows ht
  have hgf := condAvruleListCopy_grows hf
  have hon : (!decide (new.curState ≠ some false)) = (new.curState == some false) := by
    rcases new.curState with _ | _ | _ <;> rfl
  rw [hon] at hgf
  have htrue : ListOk d.cond (new.id, true) (new.curState == some true) d.list := by
    rcases hdef with hdef | rfl
    · have hon : decide (new.curState ≠ some false) = (new.curState == some true) := by
        revert hdef
        rcases new.curState with _ | _ | _ <;> simp
      rw [hon] at hgt
      exact hgt.keep h.onTrue
    · cases ht
      exact h.onTrue
  have hfalse : ListOk d.cond (new.id, false) (new.curState == some false) new.falseList :=
    h.onFalse.frame fun m hm hctx => hgt.frame m hm (by rw [hctx]; simp)
  refine ⟨⟨htrue.frame fun m hm hctx => hgf.frame m hm (by rw [hctx]; simp), hgf.keep hfalse⟩, ?_⟩
  intro m hm hne
  exact hgf.frame m (hgt.frame m hm (hne true)) (hne false)

/-- Copying one conditional. -/
theorem condNodeCopyOne_inv {cn : CondNode} (h : CopyInv st.out)
    (hcn : Copyable cn) (hok : condNodeCopyOne st cn = .ok st') : CopyInv st'.out := by
  by_cases hnt : cn.flags &&& condNodeFlagsTunable = 0#32
  · obtain ⟨cn1, tmp, list, new, d, d', hp, hs, ht, hf, rfl⟩ := condNodeCopyOne_ok hok hnt
    obtain ⟨hnorm, -, htrue, -⟩ := condNodePrepare_some hp
    obtain ⟨hnew, hinv⟩ := h.search hnorm hs
    have hdef : new.curState ≠ none ∨ cn1.avtrueList = [] := by
      rw [htrue]
      refine (hcn.resolve_left (not_not_intro hnt)).imp_left ?_
      intro hdef hcur
      rw [hinv.cached new hnew] at hcur
      exact hdef _ ((new_eval_none h.normalized hp hs _ st.out.boolState).mp hcur)
    obtain ⟨hflags, hframe⟩ := branches_flagsOk (hinv.flags new hnew) hdef ht hf
    exact hinv.setLists hnew hflags hframe
  · unfold condNodeCopyOne at hok
    rw [if_pos hnt] at hok
    cases hok
    exact h

/-- A rule outside the conditionals changes only the unconditional table and the kept neverallows. -/
theorem copyRule_ok {rule : Avrule} (h : copyRule st rule = .ok st') :
    ∃ te neverallows, st' = { st with out := { st.out with teAvtab := te, neverallows } } := by
  unfold copyRule at h
  split at h
  · cases h
    exact ⟨_, _, rfl⟩
  · obtain ⟨d, -, h⟩ := Lib.Run.bind_ok_iff.mp h
    cases h
    exact ⟨_, _, rfl⟩

theorem copyRule_inv {rule : Avrule} (h : CopyInv st.out) (hok : copyRule st rule = .ok st') : CopyInv st'.out := by
  obtain ⟨te, nv, rfl⟩ := copyRule_ok hok
  exact ⟨h.normalized, h.cached, h.flags, h.ids, h.numbered⟩

theorem expandDecl_inv {decl : AvruleDecl} (h : CopyInv st.out)
    (hcn : ∀ cn ∈ decl.condList, Copyable cn) (hok : expandDecl st decl = .ok st') : CopyInv st'.out := by
  obtain ⟨st1, hr, hok⟩ := Lib.Run.bind_ok_iff.mp hok
  have h1 : CopyInv st1.out :=
    Lib.Run.foldlM_inv (P := fun s : State => CopyInv s.out) (fun _ _ _ _ hs hc => copyRule_inv hs hc) h hr
  exact Lib.Run.foldlM_inv (P := fun s : State => CopyInv s.out)
    (fun _ cn _ hmem hs hc => condNodeCopyOne_inv hs (hcn cn (mem_reverse.mp hmem)) hc) h1 hok

/-- Expanding all blocks, from a policy that has no conditional. -/
theorem copyAndExpandAvruleBlock_inv {blocks : List (Option AvruleDecl)} (h0 : st.out.condList = [])
    (hcn : ∀ decl, some decl ∈ blocks → ∀ cn ∈ decl.condList, Copyable cn)
    (hok : copyAndExpandAvruleBlock st blocks = .ok st') : CopyInv st'.out := by
  refine Lib.Run.foldlM_inv (P := fun s : State => CopyInv s.out) ?_ ?_ hok
  · intro s decl s' hmem hs hd
    refine expandDecl_inv hs (hcn decl ?_) hd
    simpa using hmem
  · constructor <;> simp [h0]

/-! ## Deciding tunables -/

/-- The conditional of a block is decided by tunables and is not copied. -/
def Discarded (preserve : Bool) (tunable : Nat → Bool) (decl : AvruleDecl) (cn : CondNode) : Prop :=
  if decl.enabled then preserve = false ∧ ∀ b ∈ exprBools cn.expr, tunable b = true
  else cn.flags &&& condNodeFlagsTunable ≠ 0#32

theorem tunable_set (flags : BitVec 32) : (flags ||| condNodeFlagsTunable) &&& condNodeFlagsTunable ≠ 0#32 :=
  (Lib.Bits.and_ne_zero_iff _ _).mpr ⟨0, by rw [BitVec.getLsbD_or]; simp [condNodeFlagsTunable], by decide⟩

variable {tunable state : Nat → Bool}

theorem discardNode_spec {tunable' : Nat → Bool} {avrules avrules' : List Avrule} {cn cn' : CondNode}
    (h : discardNode preserve state tunable avrules cn = some (tunable', avrules', cn')) :
    (preserve = false → tunable' = tunable) ∧
      ((preserve = false ∧ ∀ b ∈ exprBools cn.expr, tunable b = true) ∨ DefinedOrEmpty cn →
        Copyable cn') := by
  unfold discardNode at h
  simp only at h
  split at h
  · cases h
  rename_i hmix
  split at h
  next hbool =>
    cases h
    refine ⟨?_, fun hcn => Or.inr ?_⟩
    · intro hp
      -- the assertion leaves no tunable beside a boolean
      have hempty : (exprBools cn.expr).filter tunable = [] := by
        simp only [hp, Bool.or_false, Bool.not_false, Bool.true_and] at hbool hmix
        simpa [hbool] using hmix
      rw [hempty]
      simp
    · refine hcn.resolve_left fun ⟨hp, hall⟩ => ?_
      have hempty : (exprBools cn.expr).filter (fun b => !tunable b) = [] :=
        filter_eq_nil_iff.mpr fun b hb => by simp [hall b hb]
      simp [hempty, hp] at hbool
  · have hres : tunable' = tunable ∧ cn'.flags = cn.flags ||| condNodeFlagsTunable := by
      split at h <;> cases h <;> exact ⟨rfl, rfl⟩
    refine ⟨fun _ => hres.1, fun _ => Or.inl ?_⟩
    rw [hres.2]
    exact tunable_set _

theorem discardNodes_spec {tunable' : Nat → Bool} {avrules avrules' : List Avrule} {cns cns' : List CondNode}
    (h : discardNodes preserve state tunable avrules cns = some (tunable', avrules', cns')) :
    (preserve = false → tunable' = tunable) ∧
      ((∀ cn ∈ cns, (preserve = false ∧ ∀ b ∈ exprBools cn.expr, tunable b = true) ∨ DefinedOrEmpty cn) →
        ∀ cn' ∈ cns', Copyable cn') := by
  induction cns generalizing tunable avrules cns' with
  | nil =>
    cases h
    exact ⟨fun _ => rfl, fun _ _ hcn => nomatch hcn⟩
  | cons cn cns ih =>
    simp only [discardNodes, Option.bind_eq_bind, Option.bind_eq_some_iff, Prod.exists] at h
    obtain ⟨t1, a1, c1, h1, t2, a2, c2, h2, heq⟩ := h
    cases heq
    obtain ⟨ht1, hcn1⟩ := discardNode_spec h1
    obtain ⟨ht2, hcn2⟩ := ih h2
    refine ⟨fun hp => (ht2 hp).trans (ht1 hp), fun hall => forall_mem_cons.mpr ⟨?_, hcn2 ?_⟩⟩
    · exact hcn1 (hall cn mem_cons_self)
    · intro cn' hcn'
      refine (hall cn' (mem_cons_of_mem _ hcn')).imp_left fun ⟨hp, hb⟩ => ⟨hp, ?_⟩
      rw [ht1 hp]
      exact hb

theorem discardBlocks_spec {blocks blocks' : List (Option AvruleDecl)}
    (h : discardBlocks preserve state tunable blocks = some blocks')
    (hall : ∀ decl, some decl ∈ blocks → ∀ cn ∈ decl.condList, Discarded preserve tunable decl cn ∨ DefinedOrEmpty cn) :
    ∀ decl, some decl ∈ blocks' → ∀ cn ∈ decl.condList, Copyable cn := by
  fun_induction discardBlocks preserve state tunable blocks generalizing blocks' with
  | case1 =>
    cases h
    simp
  | case2 tunable l ih =>
    obtain ⟨rest, hrest, heq⟩ := Option.bind_eq_some_iff.mp h
    cases heq
    simpa using ih hrest fun d hd => hall d (mem_cons_of_mem _ hd)
  | case3 tunable first l hen ih =>
    simp only [Option.bind_eq_bind, Option.bind_eq_some_iff, Prod.exists] at h
    obtain ⟨t1, a1, c1, h1, rest, hrest, heq⟩ := h
    cases heq
    obtain ⟨ht1, hcn1⟩ := discardNodes_spec h1
    have hothers := ih t1 hrest fun d hd cn hcn => (hall d (mem_cons_of_mem _ hd) cn hcn).imp_left fun hdis => by
      -- without `preserve` the flags of the booleans are as before
      unfold Discarded at hdis ⊢
      split_ifs at hdis ⊢ with hden
      · rwa [ht1 hdis.1]
      · exact hdis
    intro decl hdecl
    rcases mem_cons.mp hdecl with heq | hdecl
    · cases heq
      exact hcn1 fun cn hcn => (hall first mem_cons_self cn hcn).imp_left fun hd => by simpa [Discarded, hen] using hd
    · exact hothers decl hdecl
  | case4 tunable first l hen ih =>
    obtain ⟨rest, hrest, heq⟩ := Option.bind_eq_some_iff.mp h
    cases heq
    intro decl hdecl
    rcases mem_cons.mp hdecl with heq | hdecl
    · cases heq
      exact fun cn hcn => (hall first mem_cons_self cn hcn).imp_left fun hd => by simpa [Discarded, hen] using hd
    · exact ih hrest (fun d hd => hall d (mem_cons_of_mem _ hd)) decl hdecl

/-! ## Whole policies -/

theorem mem_condOptimize {isType : Nat → Bool} {l : List Nat} {id : Nat} : id ∈ condOptimize isType l ↔ id ∈ l := by
  cases l with
  | nil => rfl
  | cons x l =>
    cases h : isType id <;> simp [condOptimize, h, or_comm]

/-- Reordering the lists keeps their rules. -/
theorem CopyInv.optimize (h : CopyInv p) : RunInv { p with condList := condOptimizeLists p.teCondAvtab p.condList } := by
  refine ⟨?_, ?_⟩
  · intro n hn
    obtain ⟨m, hm, rfl⟩ := mem_map.mp hn
    exact ⟨(h.flags m hm).onTrue.subset fun id => mem_condOptimize.mp,
      (h.flags m hm).onFalse.subset fun id => mem_condOptimize.mp⟩
  · show ((condOptimizeLists p.teCondAvtab p.condList).map (·.id)).Nodup
    unfold condOptimizeLists
    rw [map_map]
    exact h.ids

/-- An expanded policy whose conditionals were all defined, or had no rule for the true
    list, or were decided by tunables, keeps every conditional rule enabled exactly while
    its branch is selected, through any sequence of boolean changes. -/
theorem conditional_flags (preserve disableDontaudit : Bool) (sym : Symbols) (base p : Policydb)
    (hok : expandModule preserve disableDontaudit sym base = .ok p)
    (hsafe : ∀ decl, some decl ∈ base.global → ∀ cn ∈ decl.condList,
      Discarded preserve base.boolTunable decl cn ∨ DefinedOrEmpty cn)
    (changes : List (Nat → Bool)) : CondFlags (runBools p changes) := by
  unfold expandModule at hok
  cases hdis : discardTunables preserve base with
  | none => rw [hdis] at hok; cases hok
  | some blocks =>
    rw [hdis] at hok
    simp only at hok
    cases hexp : copyAndExpandAvruleBlock (startState disableDontaudit sym base) blocks with
    | error e => rw [hexp] at hok; cases hok
    | ok st =>
      rw [hexp] at hok
      cases hok
      have hinv := copyAndExpandAvruleBlock_inv rfl (discardBlocks_spec hdis hsafe) hexp
      obtain ⟨hrun, hflags⟩ := evaluateConds_spec hinv.optimize
      exact (runBools_spec hrun hflags changes).2

/-- A base policy of one block with one conditional. -/
def conditionalBase (e : CondExpr) : Policydb :=
  { global := [some { condList := [{ id := 0, expr := e, avtrueList := [allowRule] }] }] }

/-- One type, and eleven booleans. -/
def elevenBooleans : Symbols :=
  { typemap := [1]
    boolmap := List.range' 1 11
    boolState := fun _ => false
    typeValToStruct := [some {}] }

/-- `if (b) { allow t t : c p; }` switched on and off. -/
theorem conditional_flags_switched :
    ∃ p, expandModule false false elevenBooleans (conditionalBase [.bool 1]) = .ok p ∧
      CondFlags (runBools p [fun _ => true, fun _ => false]) := by
  have hisok : (expandModule false false elevenBooleans (conditionalBase [.bool 1])).isOk = true := by decide +kernel
  cases hok : expandModule false false elevenBooleans (conditionalBase [.bool 1]) with
  | error e => rw [hok] at hisok; cases hisok
  | ok p =>
    refine ⟨p, rfl, conditional_flags false false elevenBooleans _ p hok ?_ _⟩
    intro decl hdecl cn hcn
    simp only [conditionalBase, mem_singleton, Option.some.injEq] at hdecl
    subst hdecl
    rw [mem_singleton.mp hcn]
    exact Or.inr (Or.inl fun σ => by simp [condEvaluateExpr, Lib.Rpn.run, Lib.Rpn.step, CondExprNode.op, condExprMaxdepth])

/-- `b1 ... b11` on the stack before the first operator: one value too many. -/
def deepExpr : CondExpr := (List.range' 1 11).map .bool ++ List.replicate 10 .and

/-- A rule left enabled in the true list of an undefined conditional is never switched off. -/
theorem not_condFlags_of_undefined (hn : p.condList = [n]) (hcur : n.curState = none)
    (hdef : ∀ σ, condEvaluateExpr σ n.expr = none) {rule : AvtabNode} (hrule : rule ∈ p.teCondAvtab.nodes)
    (hid : rule.id ∈ n.trueList) (hon : rule.enabled = true) (changes : List (Nat → Bool)) :
    ¬ CondFlags (runBools p changes) := by
  induction changes generalizing p with
  | nil =>
    intro h
    have := (h n (hn ▸ mem_singleton_self n) rule hrule (Or.inl hid)).mp hon
    simp [hdef] at this
  | cons σ changes ih =>
    have hsame : setBools p σ = { p with boolState := σ } := by
      unfold setBools evaluateConds
      simp only [hn, evaluateCondList, evaluateCondNode, hdef, hcur, ne_eq, not_true_eq_false, if_false]
    unfold runBools
    rw [foldl_cons, hsame]
    exact ih hn hrule

/-- The undefined expression counts as true when its rules are expanded: its allow rule is
    enabled, and stays so. -/
theorem undefined_enabled :
    ∃ p, expandModule false false elevenBooleans (conditionalBase deepExpr) = .ok p ∧
      ∀ changes, ¬ CondFlags (runBools p changes) := by
  have hdis : discardTunables false (conditionalBase deepExpr) = some (conditionalBase deepExpr).global := by rfl
  have hnode : (copyAndExpandAvruleBlock (startState false elevenBooleans (conditionalBase deepExpr))
      (conditionalBase deepExpr).global).toOption.map (fun st =>
        st.out.condList.map fun n => (n.expr, n.curState, n.trueList)) = some [(deepExpr, none, [0])] := by decide +kernel
  have htab : (copyAndExpandAvruleBlock (startState false elevenBooleans (conditionalBase deepExpr))
      (conditionalBase deepExpr).global).toOption.map (fun st =>
        (st.out.teCondAvtab.htable (st.out.teCondAvtab.bucket (ruleKey 0 0 1 avtabAllowed))).map
          fun m => (m.id, m.enabled)) = some [(0, true)] := by decide +kernel
  cases hexp : copyAndExpandAvruleBlock (startState false elevenBooleans (conditionalBase deepExpr))
      (conditionalBase deepExpr).global with
  | error e => rw [hexp] at hnode; cases hnode
  | ok st =>
    rw [hexp] at hnode htab
    simp only [Except.toOption, Option.map_some, Option.some.injEq, Prod.mk.injEq, map_eq_singleton_iff] at hnode htab
    obtain ⟨n, hn, hexpr, hcur, htrue⟩ := hnode
    obtain ⟨rule, hrule, hid, hon⟩ := htab
    have hund : ∀ σ, condEvaluateExpr σ n.expr = none := fun σ => by
      rw [hexpr, condEvaluateExpr_eq_none_iff]
      decide
    have hmem : rule ∈ st.out.teCondAvtab.nodes := Avtab.mem_nodes.mpr ⟨_, hrule ▸ mem_singleton_self rule⟩
    have hopt : condOptimizeLists st.out.teCondAvtab st.out.condList =
        [{ n with falseList := condOptimize (isTypeRule st.out.teCondAvtab) n.falseList }] := by
      simp [condOptimizeLists, hn, htrue, condOptimize]
    refine ⟨_, ?_, not_condFlags_of_undefined
      (p := { st.out with condList := condOptimizeLists st.out.teCondAvtab st.out.condList }) hopt hcur hund hmem ?_ hon⟩
    · unfold expandModule
      rw [hdis]
      simp only
      rw [hexp]
      simp only [Except.map, evaluateConds, hopt, evaluateCondList, evaluateCondNode, hund, hcur, ne_eq,
        not_true_eq_false, if_false]
    · rw [hid, htrue]
      exact mem_singleton_self 0

end SELinux.Expand
