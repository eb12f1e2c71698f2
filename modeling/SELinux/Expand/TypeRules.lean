/-
  SELinux.Expand.TypeRules — type rules of a list of classes
  (`libsepol/src/expand.c`: `expand_terule_helper`).

  For each class the loop looks for a rule of the key: in the unconditional table, or else the
  first one in the conditional table, unless that one belongs to the other branch. If there is none
  it writes its own rule. If there is one that is the same and in the same scope it returns at
  once, whatever classes follow; any other one is a conflict. Behind a rule of the other branch it
  does not look.

  The rules of a key in the two tables are `KeyRules`; the nodes of the list are entries of a key
  and a type, and `after` is what writing entries one after the other makes of the rules of a key.

  Proved: `expandTeruleHelper_iff`, for every destination and every list. The rule of each node is
  there on success, and a conflict is reported exactly if some node collides with a rule, if and
  only if the first node for which a rule is found is the one that collides, or no node collides
  and the nodes behind the first one for which a rule is found all have theirs already.
-/
import SELinux.Expand.Rules

namespace SELinux.Expand

open Db List Option

/-- The rules of a key in the two tables: scopes and types. -/
structure KeyRules where
  te : List (Ctx × BitVec 32)
  cond : List (Ctx × BitVec 32)

def Dest.rules (d : Dest) (k : AvtabKey) : KeyRules := ⟨rulesOf d.te k, rulesOf d.cond k⟩

namespace KeyRules

variable (ctx other : Ctx)

/-- What the loop finds: the type, and whether the rule is in the same scope. -/
def found (rules : KeyRules) : Option (BitVec 32 × Bool) :=
  match rules.te.head? with
  | some r => some (r.2, ctx.isNone || r.1 == ctx)
  | none =>
    match rules.cond.head? with
    | some r => if r.1 ≠ other then some (r.2, r.1 == ctx) else none
    | none => none

/-- The rule of the scope written. -/
def put (type : BitVec 32) (rules : KeyRules) : KeyRules :=
  if ctx.isSome then { rules with cond := putRule ctx (fun _ => type) rules.cond }
  else { rules with te := putRule ctx (fun _ => type) rules.te }

/-- There is a rule of another scope or of another type. Rules of the other branch do not count. -/
def Collides (type : BitVec 32) (rules : KeyRules) : Prop :=
  (∃ r ∈ rules.te, ¬(r.2 = type ∧ (ctx = none ∨ r.1 = ctx))) ∨ ∃ r ∈ rules.cond, r.1 ≠ other ∧ ¬(r.2 = type ∧ r.1 = ctx)

def Has (type : BitVec 32) (rules : KeyRules) : Prop := (∃ r ∈ rules.te, r.2 = type) ∨ ∃ r ∈ rules.cond, r.2 = type

/-- Entries written one after the other. -/
def after (entries : List (AvtabKey × BitVec 32)) (k : AvtabKey) (rules : KeyRules) : KeyRules :=
  entries.foldl (fun rules e => if sameKey e.1 k then rules.put ctx e.2 else rules) rules

end KeyRules

/-! ## The loop on the rules of its keys -/

inductive TeKind
  | transition
  | member
  | change
  deriving DecidableEq, Repr

namespace TeKind

/-- `AVRULE_*` -/
def specified : TeKind → BitVec 32
  | transition => avruleTransition
  | member => avruleMember
  | change => avruleChange

def spec : TeKind → BitVec 16
  | transition => avtabTransition
  | member => avtabMember
  | change => avtabChange

theorem teruleSpec_eq (kind : TeKind) : teruleSpec kind.specified = .ok kind.spec := by cases kind <;> rfl

theorem spec_xperms (kind : TeKind) : kind.spec &&& avtabXperms = 0#16 := by cases kind <;> decide

theorem spec_meets (kind : TeKind) : specifiedMeets kind.spec kind.spec = true := by cases kind <;> decide

end TeKind

/-- The key and the type, renumbered, of a node. -/
def entryOf (env : Env) (spec : BitVec 16) (stype ttype : Nat) (cur : ClassPermNode) : AvtabKey × BitVec 32 :=
  (ruleKey stype ttype cur.tclass spec, BitVec.ofNat 32 (env.typemap.getD (cur.data.toNat - 1) 0))

theorem head?_rulesOf (tab : Avtab) (k : AvtabKey) :
    (rulesOf tab k).head? = (avtabSearchNode tab k).map fun n => (n.parseContext, n.datum.data) := by
  rw [rulesOf, List.head?_map, avtabSearchNode_eq_head]

variable {e : AvtabKey × BitVec 32}

section Loop

variable {env : Env} {kind : TeKind} {ctx other : Ctx} {stype ttype : Nat} {on : Bool}

/-- One round. -/
theorem expandTerulePerms_cons (cur : ClassPermNode) (perms : List ClassPermNode) (d : Dest) :
    expandTerulePerms env kind.spec ctx other stype ttype on (cur :: perms) d =
      match (d.rules (entryOf env kind.spec stype ttype cur).1).found ctx other with
      | some (type, same) => if type = (entryOf env kind.spec stype ttype cur).2 ∧ same then .ok d else .error .conflict
      | none =>
        match findAndWrite d (entryOf env kind.spec stype ttype cur).1 ctx on {}
          fun datum => { datum with data := (entryOf env kind.spec stype ttype cur).2 } with
        | none => .error .error
        | some d => expandTerulePerms env kind.spec ctx other stype ttype on perms d := by
  rw [expandTerulePerms]
  unfold KeyRules.found Dest.rules entryOf
  simp only [head?_rulesOf]
  cases avtabSearchNode d.te (ruleKey stype ttype cur.tclass kind.spec) with
  | some n => simp
  | none =>
    cases avtabSearchNode d.cond (ruleKey stype ttype cur.tclass kind.spec) with
    | some n =>
      by_cases hother : n.parseContext = other
      · -- a rule of the other branch is passed over
        cases findAndWrite d (ruleKey stype ttype cur.tclass kind.spec) ctx on {}
          (fun datum => { datum with data := BitVec.ofNat 32 (env.typemap.getD (cur.data.toNat - 1) 0) }) with
        | none => simp [hother]
        | some d₁ => simp [hother]
      · simp [hother]
    | none => rfl

/-- A round that finds no rule writes one. -/
theorem exists_write (kind : TeKind) (on : Bool) (he : e.1.specified = kind.spec) {d : Dest}
    (hslot : (d.avtab ctx).nslot ≠ 0) :
    ∃ d₁, findAndWrite d e.1 ctx on {} (fun datum => { datum with data := e.2 }) = some d₁ ∧ (d₁.avtab ctx).nslot ≠ 0 ∧
      ∀ k, k.specified = kind.spec → d₁.rules k = (d.rules k).after ctx [e] k := by
  obtain ⟨d₁, hd₁⟩ := findAndWrite_isSome hslot e.1 on {} fun datum => { datum with data := e.2 }
  obtain ⟨hslots, hcond, hte⟩ := findAndWrite_frame hd₁
  refine ⟨d₁, hd₁, by rwa [hslots], ?_⟩
  intro k hk
  have hrules := findAndWrite_rules e.1 (he ▸ kind.spec_xperms) (he ▸ kind.spec_meets) (g := fun _ => e.2) (fun _ => rfl) hd₁
    (hk.trans he.symm)
  show _ = if _ then _ else _
  unfold Dest.rules KeyRules.put
  cases ctx with
  | none =>
    have hte' : rulesOf d₁.te k = _ := hrules
    rw [hcond rfl, hte']
    split <;> rfl
  | some c =>
    have hcond' : rulesOf d₁.cond k = _ := hrules
    rw [hte (some_ne_none c), hcond']
    split <;> rfl

/-- The loop finds no rule for the entries. -/
def Unfound (ctx other : Ctx) (rules : AvtabKey → KeyRules) (entries : List (AvtabKey × BitVec 32)) : Prop :=
  ∀ pre e post, entries = pre ++ e :: post → ((rules e.1).after ctx pre e.1).found ctx other = none

/-- The first entry for which the loop finds a rule. -/
structure FirstFound (ctx other : Ctx) (rules : AvtabKey → KeyRules) (entries pre : List (AvtabKey × BitVec 32))
    (e : AvtabKey × BitVec 32) (post : List (AvtabKey × BitVec 32)) (type : BitVec 32) (same : Bool) : Prop where
  split : entries = pre ++ e :: post
  before : Unfound ctx other rules pre
  at_e : ((rules e.1).after ctx pre e.1).found ctx other = some (type, same)

theorem after_cons (ctx : Ctx) (e : AvtabKey × BitVec 32) (pre : List (AvtabKey × BitVec 32)) (k : AvtabKey)
    (rules : KeyRules) : rules.after ctx (e :: pre) k = (rules.after ctx [e] k).after ctx pre k := rfl

theorem Unfound.cons {rules rules₁ : AvtabKey → KeyRules} {entries : List (AvtabKey × BitVec 32)}
    (he : (rules e.1).found ctx other = none) (h : Unfound ctx other rules₁ entries)
    (hrules : ∀ x ∈ entries, rules₁ x.1 = (rules x.1).after ctx [e] x.1) : Unfound ctx other rules (e :: entries) := by
  intro pre x post heq
  cases pre with
  | nil =>
    cases heq
    exact he
  | cons y pre =>
    cases heq
    have hx := h pre x post rfl
    rwa [hrules x (mem_append_right _ mem_cons_self)] at hx

theorem unfound_nil (rules : AvtabKey → KeyRules) : Unfound ctx other rules [] := by
  intro pre e post heq
  exact absurd heq (append_ne_nil_of_right_ne_nil pre (cons_ne_nil e post)).symm

/-- How the loop ends. -/
theorem expandTerulePerms_outcome (env : Env) (kind : TeKind) (other : Ctx) (stype ttype : Nat) (on : Bool)
    (perms : List ClassPermNode) {d : Dest} (hslot : (d.avtab ctx).nslot ≠ 0) :
    (Unfound ctx other d.rules (perms.map (entryOf env kind.spec stype ttype)) ∧
      ∃ d', expandTerulePerms env kind.spec ctx other stype ttype on perms d = .ok d' ∧
        ∀ k, k.specified = kind.spec →
          d'.rules k = (d.rules k).after ctx (perms.map (entryOf env kind.spec stype ttype)) k) ∨
    ∃ pre e post type same, FirstFound ctx other d.rules
      (perms.map (entryOf env kind.spec stype ttype)) pre e post type same ∧
      ((type = e.2 ∧ same = true ∧ ∃ d', expandTerulePerms env kind.spec ctx other stype ttype on perms d = .ok d' ∧
          ∀ k, k.specified = kind.spec → d'.rules k = (d.rules k).after ctx pre k) ∨
        ¬(type = e.2 ∧ same = true) ∧ expandTerulePerms env kind.spec ctx other stype ttype on perms d =
          .error .conflict) := by
  induction perms generalizing d with
  | nil =>
    exact Or.inl ⟨unfound_nil _, d, rfl, fun _ _ => rfl⟩
  | cons cur perms ih =>
    rw [expandTerulePerms_cons, map_cons]
    set entry := entryOf env kind.spec stype ttype
    cases hfound : (d.rules (entry cur).1).found ctx other with
    | some found =>
      obtain ⟨type, same⟩ := found
      refine Or.inr ⟨[], entry cur, _, type, same, ⟨rfl, unfound_nil _, hfound⟩, ?_⟩
      by_cases hdup : type = (entry cur).2 ∧ same = true
      · exact Or.inl ⟨hdup.1, hdup.2, d, if_pos hdup, fun _ _ => rfl⟩
      · exact Or.inr ⟨hdup, if_neg hdup⟩
    | none =>
      obtain ⟨d₁, hd₁, hslot₁, hrules₁⟩ := exists_write kind on (e := entry cur) rfl hslot
      have hkeys : ∀ x ∈ perms.map entry, d₁.rules x.1 = (d.rules x.1).after ctx [entry cur] x.1 :=
        forall_mem_map.mpr fun _ _ => hrules₁ _ rfl
      simp only [hd₁]
      rcases ih hslot₁ with ⟨hun, d', hd', hrules⟩ | ⟨pre, e, post, type, same, hfirst, hend⟩
      · refine Or.inl ⟨hun.cons hfound hkeys, d', hd', ?_⟩
        intro k hk
        rw [hrules k hk, hrules₁ k hk]
        rfl
      · refine Or.inr ⟨entry cur :: pre, e, post, type, same, ⟨?_, ?_, ?_⟩, ?_⟩
        · rw [hfirst.split]
          rfl
        · exact hfirst.before.cons hfound fun x hx => hkeys x (hfirst.split ▸ mem_append_left _ hx)
        · rw [after_cons, ← hkeys e (hfirst.split ▸ mem_append_right _ mem_cons_self)]
          exact hfirst.at_e
        · rcases hend with ⟨htype, hsame, d', hd', hrules⟩ | hconflict
          · refine Or.inl ⟨htype, hsame, d', hd', ?_⟩
            intro k hk
            rw [hrules k hk, hrules₁ k hk]
            rfl
          · exact Or.inr hconflict

end Loop

/-! ## Collisions -/

/-- When the entries are written one after the other, one of them collides. -/
def Clashes (ctx other : Ctx) (rules : AvtabKey → KeyRules) (entries : List (AvtabKey × BitVec 32)) : Prop :=
  ∃ pre e post, entries = pre ++ e :: post ∧ ((rules e.1).after ctx pre e.1).Collides ctx other e.2

variable {type : BitVec 32} {pre : List (AvtabKey × BitVec 32)} {same : Bool}

variable {post : List (AvtabKey × BitVec 32)}

section Collisions

variable {ctx other : Ctx}

/-- The rule that is found. -/
theorem mem_of_found {rules : KeyRules} (h : rules.found ctx other = some (type, same)) :
    (∃ r ∈ rules.te, r.2 = type ∧ (same = true ↔ ctx = none ∨ r.1 = ctx)) ∨
      ∃ r ∈ rules.cond, r.1 ≠ other ∧ r.2 = type ∧ (same = true ↔ r.1 = ctx) := by
  obtain ⟨te, cond⟩ := rules
  unfold KeyRules.found at h
  cases te with
  | cons r te =>
    cases h
    exact Or.inl ⟨r, mem_cons_self, rfl, by simp⟩
  | nil =>
    cases cond with
    | nil => cases h
    | cons r cond =>
      simp only [List.head?_nil, List.head?_cons] at h
      split_ifs at h with hother
      cases h
      exact Or.inr ⟨r, mem_cons_self, hother, rfl, beq_iff_eq⟩

/-- A rule that is found and is not the same collides. -/
theorem collides_of_found {rules : KeyRules} {v : BitVec 32} (h : rules.found ctx other = some (type, same))
    (hv : ¬(type = v ∧ same = true)) : rules.Collides ctx other v := by
  rcases mem_of_found h with ⟨r, hr, rfl, hsame⟩ | ⟨r, hr, hother, rfl, hsame⟩
  · exact Or.inl ⟨r, hr, by rwa [← hsame]⟩
  · exact Or.inr ⟨r, hr, hother, by rwa [← hsame]⟩

theorem has_of_found {rules : KeyRules} (h : rules.found ctx other = some (type, same)) : rules.Has type := by
  rcases mem_of_found h with ⟨r, hr, htype, -⟩ | ⟨r, hr, -, htype, -⟩
  · exact Or.inl ⟨r, hr, htype⟩
  · exact Or.inr ⟨r, hr, htype⟩

/-- A rule of the scope itself, in its table. -/
def KeyRules.HasOwn (ctx : Ctx) (type : BitVec 32) (rules : KeyRules) : Prop :=
  if ctx.isSome then ∃ r ∈ rules.cond, r.1 = ctx ∧ r.2 = type else ∃ r ∈ rules.te, r.2 = type

theorem KeyRules.HasOwn.has {rules : KeyRules} (h : rules.HasOwn ctx type) : rules.Has type := by
  unfold HasOwn at h
  split at h
  · obtain ⟨r, hr, -, htype⟩ := h
    exact Or.inr ⟨r, hr, htype⟩
  · exact Or.inl h

theorem exists_putRule (ctx : Ctx) (type : BitVec 32) (rules : List (Ctx × BitVec 32)) :
    ∃ r ∈ putRule ctx (fun _ => type) rules, owned ctx r.1 = true ∧ r.2 = type := by
  unfold putRule
  cases hwrite : writeFirst ctx (fun _ => type) rules with
  | none => exact ⟨(ctx, type), mem_cons_self, by simp [owned], rfl⟩
  | some rules' =>
    induction rules generalizing rules' with
    | nil => cases hwrite
    | cons r rules ih =>
      rw [writeFirst] at hwrite
      split at hwrite
      next hown =>
        cases hwrite
        exact ⟨(r.1, type), mem_cons_self, hown, rfl⟩
      · obtain ⟨rest, hrest, rfl⟩ := map_eq_some_iff.mp hwrite
        obtain ⟨x, hx, hown, htype⟩ := ih rest hrest
        exact ⟨x, mem_cons_of_mem _ hx, hown, htype⟩

theorem hasOwn_put (type : BitVec 32) (rules : KeyRules) : (rules.put ctx type).HasOwn ctx type := by
  cases ctx with
  | none =>
    obtain ⟨r, hr, -, htype⟩ := exists_putRule none type rules.te
    exact ⟨r, hr, htype⟩
  | some c =>
    obtain ⟨r, hr, hown, htype⟩ := exists_putRule (some c) type rules.cond
    exact ⟨r, hr, by simpa [owned] using hown, htype⟩

/-- A rule of the scope with another type collides. -/
theorem type_of_not_collides (hscope : ctx ≠ none → ctx ≠ other) {v : BitVec 32} {rules : KeyRules}
    (h : rules.HasOwn ctx type) (hno : ¬rules.Collides ctx other v) : type = v := by
  by_contra hne
  cases ctx with
  | none =>
    obtain ⟨r, hr, rfl⟩ := h
    exact hno (Or.inl ⟨r, hr, fun hv => hne hv.1⟩)
  | some c =>
    obtain ⟨r, hr, hctx, rfl⟩ := h
    exact hno (Or.inr ⟨r, hr, hctx ▸ hscope (some_ne_none c), fun hv => hne hv.1⟩)

/-- Without a clash what is written stays. -/
theorem hasOwn_after (hscope : ctx ≠ none → ctx ≠ other) {k : AvtabKey} {entries : List (AvtabKey × BitVec 32)}
    {rules : KeyRules}
    (h : rules.HasOwn ctx type)
    (hno : ∀ pre e post, entries = pre ++ e :: post → sameKey e.1 k = true →
      ¬(rules.after ctx pre k).Collides ctx other e.2) :
    (rules.after ctx entries k).HasOwn ctx type := by
  induction entries generalizing rules with
  | nil => exact h
  | cons e entries ih =>
    refine ih ?_ fun pre x post heq hx => ?_
    · show (if _ then _ else _ : KeyRules).HasOwn ctx type
      split
      next hsame =>
        have htype := type_of_not_collides hscope h (hno [] e entries rfl hsame)
        rw [htype]
        exact hasOwn_put e.2 rules
      · exact h
    · exact hno (e :: pre) x post (by rw [heq]; rfl) hx

theorem eq_of_sameKey {k k' : AvtabKey} (hspec : k.specified = k'.specified) (h : sameKey k k' = true) : k = k' := by
  obtain ⟨hs, ht, hc⟩ := (sameKey_iff k k').mp h
  cases k
  simp_all

theorem sameKey_self (k : AvtabKey) : sameKey k k = true := (sameKey_iff_rank k k).mpr rfl

variable {rules : AvtabKey → KeyRules} {entries : List (AvtabKey × BitVec 32)}

/-- Without a clash all entries that were written have their rules. -/
theorem has_of_not_clashes (hscope : ctx ≠ none → ctx ≠ other) {spec : BitVec 16}
    (hspec : ∀ e ∈ entries, e.1.specified = spec)
    (hno : ¬Clashes ctx other rules entries) {tail : List (AvtabKey × BitVec 32)} (hsplit : entries = pre ++ tail) :
    ∀ e ∈ pre, ((rules e.1).after ctx pre e.1).Has e.2 := by
  intro e he
  obtain ⟨l₁, l₂, rfl⟩ := append_of_mem he
  have hafter : (rules e.1).after ctx (l₁ ++ e :: l₂) e.1 =
      (((rules e.1).after ctx l₁ e.1).put ctx e.2).after ctx l₂ e.1 := by
    unfold KeyRules.after
    rw [foldl_append, foldl_cons, if_pos (sameKey_self e.1)]
  rw [hafter]
  refine (hasOwn_after hscope (hasOwn_put e.2 _) ?_).has
  intro p x q hq hx hcoll
  -- the later entry of the key would clash
  have hmem : x ∈ entries := by
    rw [hsplit, hq]
    simp
  have hkey : x.1 = e.1 := eq_of_sameKey ((hspec x hmem).trans (hspec e (hsplit ▸ mem_append_left _ he)).symm) hx
  refine hno ⟨l₁ ++ e :: p, x, q ++ tail, by rw [hsplit, hq]; simp, ?_⟩
  rw [hkey]
  unfold KeyRules.after at hcoll ⊢
  rw [foldl_append, foldl_cons, if_pos (sameKey_self e.1)]
  exact hcoll

theorem FirstFound.not_unfound (h : FirstFound ctx other rules entries pre e post type same) :
    ¬Unfound ctx other rules entries := by
  intro hun
  have hnone := hun pre e post h.split
  rw [h.at_e] at hnone
  cases hnone

theorem FirstFound.eq_of_append {pre' post' l : List (AvtabKey × BitVec 32)} {e' : AvtabKey × BitVec 32}
    (h : FirstFound ctx other rules entries pre e post type same) (hl : pre' = pre ++ l)
    (htail : e :: post = l ++ e' :: post') (hbefore : Unfound ctx other rules pre') : pre = pre' := by
  cases l with
  | nil => rw [hl, append_nil]
  | cons x l =>
    obtain ⟨rfl, -⟩ := List.cons.inj htail
    have hnone := hbefore pre e l hl
    rw [h.at_e] at hnone
    cases hnone

/-- There is one first entry. -/
theorem FirstFound.unique {pre' post' : List (AvtabKey × BitVec 32)} {e' : AvtabKey × BitVec 32} {type' : BitVec 32}
    {same' : Bool} (h : FirstFound ctx other rules entries pre e post type same)
    (h' : FirstFound ctx other rules entries pre' e' post' type' same') :
    pre = pre' ∧ e = e' ∧ post = post' ∧ type = type' ∧ same = same' := by
  have hsplit : pre ++ e :: post = pre' ++ e' :: post' := h.split.symm.trans h'.split
  have hpre : pre = pre' := by
    rcases append_eq_append_iff.mp hsplit with ⟨l, hl, htail⟩ | ⟨l, hl, htail⟩
    · exact h.eq_of_append hl htail h'.before
    · exact (h'.eq_of_append hl htail h.before).symm
  subst hpre
  obtain ⟨rfl, rfl⟩ := List.cons.inj (append_cancel_left hsplit)
  have hat := h.at_e.symm.trans h'.at_e
  cases hat
  exact ⟨rfl, rfl, rfl, rfl, rfl⟩

end Collisions

/-- The first entry for which a rule is found collides with it. -/
def FoundClash (ctx other : Ctx) (rules : AvtabKey → KeyRules) (entries : List (AvtabKey × BitVec 32)) : Prop :=
  ∃ pre e post type same, FirstFound ctx other rules entries pre e post type same ∧ ¬(type = e.2 ∧ same = true)

/-- Behind the first entry for which a rule is found all entries have their rules. -/
def RestThere (ctx other : Ctx) (rules : AvtabKey → KeyRules) (entries : List (AvtabKey × BitVec 32)) : Prop :=
  ∀ pre e post type same, FirstFound ctx other rules entries pre e post type same →
    ∀ x ∈ post, ((rules x.1).after ctx pre x.1).Has x.2

/-- On success each node has its rule, and a conflict is reported exactly if one of them collides, if
    and only if the first rule that is found collides, or nothing does and the rest is there. -/
theorem expandTeruleHelper_iff (env : Env) (kind : TeKind) (ctx other : Ctx) (hscope : ctx ≠ none → ctx ≠ other)
    (stype ttype : Nat) (perms : List ClassPermNode) (on : Bool) {d : Dest} (hslot : (d.avtab ctx).nslot ≠ 0) :
    ((∀ d', expandTeruleHelper env kind.specified ctx other stype ttype perms on d = .ok d' →
        ∀ e ∈ perms.map (entryOf env kind.spec stype ttype), (d'.rules e.1).Has e.2) ∧
      (expandTeruleHelper env kind.specified ctx other stype ttype perms on d = .error .conflict ↔
        Clashes ctx other d.rules (perms.map (entryOf env kind.spec stype ttype)))) ↔
    FoundClash ctx other d.rules (perms.map (entryOf env kind.spec stype ttype)) ∨
      ¬Clashes ctx other d.rules (perms.map (entryOf env kind.spec stype ttype)) ∧
        RestThere ctx other d.rules (perms.map (entryOf env kind.spec stype ttype)) := by
  have hspec : ∀ e ∈ perms.map (entryOf env kind.spec stype ttype), e.1.specified = kind.spec :=
    forall_mem_map.mpr fun _ _ => rfl
  have houtcome := expandTerulePerms_outcome env kind other stype ttype on perms hslot
  rw [expandTeruleHelper, kind.teruleSpec_eq]
  generalize perms.map (entryOf env kind.spec stype ttype) = entries at *
  show ((∀ d', expandTerulePerms env kind.spec ctx other stype ttype on perms d = .ok d' → _) ∧
    (expandTerulePerms env kind.spec ctx other stype ttype on perms d = .error .conflict ↔ _)) ↔ _
  rcases houtcome with ⟨hun, d', hd', hrules⟩ |
    ⟨pre, e, post, type, same, hfirst, ⟨htype, hsame, d', hd', hrules⟩ | ⟨hbad, hconflict⟩⟩
  · -- no rule is found
    have hfirst : ∀ {pre e post type same}, ¬FirstFound ctx other d.rules entries pre e post type same :=
      fun hfirst => hfirst.not_unfound hun
    simp only [hd', Except.ok.injEq, forall_eq', reduceCtorEq, false_iff]
    constructor
    · exact fun h => Or.inr ⟨h.2, fun _ _ _ _ _ h => absurd h hfirst⟩
    · rintro (⟨pre, e, post, type, same, h, -⟩ | ⟨hno, -⟩)
      · exact absurd h hfirst
      · refine ⟨fun x hx => ?_, hno⟩
        rw [hrules x.1 (hspec x hx)]
        exact has_of_not_clashes hscope hspec hno (append_nil _).symm x hx
  · -- the loop returns at a rule that is the same
    simp only [hd', Except.ok.injEq, forall_eq', reduceCtorEq, false_iff]
    constructor
    · rintro ⟨hhas, hno⟩
      refine Or.inr ⟨hno, fun pre' e' post' type' same' hfirst' x hx => ?_⟩
      obtain ⟨rfl, rfl, rfl, -, -⟩ := hfirst.unique hfirst'
      have hx' : x ∈ entries := hfirst.split ▸ mem_append_right _ (mem_cons_of_mem _ hx)
      rw [← hrules x.1 (hspec x hx')]
      exact hhas x hx'
    · rintro (⟨pre', e', post', type', same', hfirst', hbad⟩ | ⟨hno, hrest⟩)
      · obtain ⟨rfl, rfl, rfl, rfl, rfl⟩ := hfirst.unique hfirst'
        exact absurd ⟨htype, hsame⟩ hbad
      refine ⟨fun x hx => ?_, hno⟩
      rw [hrules x.1 (hspec x hx)]
      rw [hfirst.split] at hx
      rcases mem_append.mp hx with hx | hx
      · exact has_of_not_clashes hscope hspec hno hfirst.split x hx
      · rcases mem_cons.mp hx with rfl | hx
        · exact htype ▸ has_of_found hfirst.at_e
        · exact hrest pre e post type same hfirst x hx
  · -- the first rule that is found collides
    rw [hconflict]
    refine iff_of_true ⟨fun _ hok => (nomatch hok), fun _ => ?_, fun _ => rfl⟩
      (Or.inl ⟨pre, e, post, type, same, hfirst, hbad⟩)
    exact ⟨pre, e, post, hfirst.split, collides_of_found hfirst.at_e hbad⟩

instance (ctx other : Ctx) (type : BitVec 32) (rules : KeyRules) : Decidable (rules.Collides ctx other type) :=
  inferInstanceAs (Decidable (_ ∨ _))

/-- Two empty tables. -/
def emptyTables : Dest := { te := avtabAlloc 1, cond := avtabAlloc 1, list := [] }

/-- Types keep their numbers. -/
def sameTypes : Env := { typemap := [1, 2, 3] }

theorem split_pair {α : Type} {a b x : α} {pre post : List α} (h : [a, b] = pre ++ x :: post) :
    pre = [] ∧ x = a ∧ post = [b] ∨ pre = [a] ∧ x = b ∧ post = [] := by
  match pre with
  | [] =>
    cases h
    exact Or.inl ⟨rfl, rfl, rfl⟩
  | [_] =>
    cases h
    exact Or.inr ⟨rfl, rfl, rfl⟩
  | _ :: _ :: pre =>
    have hlen := congrArg List.length h
    simp only [length_cons, length_nil, length_append] at hlen
    omega

/-- Two classes in a branch. -/
theorem expandTeruleHelper_two :
    ∃ d', expandTeruleHelper sameTypes TeKind.transition.specified (some (0, true)) (some (0, false)) 0 1
      [⟨1, 3#32⟩, ⟨2, 3#32⟩] true emptyTables = .ok d' ∧
    ∀ e ∈ [⟨1, 3#32⟩, ⟨2, 3#32⟩].map (entryOf sameTypes TeKind.transition.spec 0 1), (d'.rules e.1).Has e.2 := by
  have hsome : (expandTeruleHelper sameTypes TeKind.transition.specified (some (0, true)) (some (0, false)) 0 1
      [⟨1, 3#32⟩, ⟨2, 3#32⟩] true emptyTables).toOption.isSome = true := by decide +kernel
  cases hok : expandTeruleHelper sameTypes TeKind.transition.specified (some (0, true)) (some (0, false)) 0 1
      [⟨1, 3#32⟩, ⟨2, 3#32⟩] true emptyTables with
  | error e =>
    rw [hok] at hsome
    cases hsome
  | ok d' =>
    have hnone : ∀ pre e post, [⟨1, 3#32⟩, ⟨2, 3#32⟩].map (entryOf sameTypes TeKind.transition.spec 0 1) = pre ++ e :: post →
        ((emptyTables.rules e.1).after (some (0, true)) pre e.1).found (some (0, true)) (some (0, false)) = none ∧
          ¬((emptyTables.rules e.1).after (some (0, true)) pre e.1).Collides (some (0, true)) (some (0, false)) e.2 := by
      intro pre e post hsplit
      rcases split_pair hsplit with ⟨rfl, rfl, -⟩ | ⟨rfl, rfl, -⟩
      · decide +kernel
      · decide +kernel
    refine ⟨d', rfl,
      ((expandTeruleHelper_iff sameTypes .transition (some (0, true)) (some (0, false))
        (by decide) 0 1 [⟨1, 3#32⟩, ⟨2, 3#32⟩] true
      (d := emptyTables) avtabAlloc_one).mpr (Or.inr ⟨?_, ?_⟩)).1 d' hok⟩
    · rintro ⟨pre, e, post, hsplit, hcoll⟩
      exact (hnone pre e post hsplit).2 hcoll
    · intro pre e post type same hfirst
      exact absurd (fun pre e post hsplit => (hnone pre e post hsplit).1) hfirst.not_unfound

/-- A class whose rule is there hides the next one; a rule of the other branch hides one of the own branch. -/
theorem expandTeruleHelper_hides :
    ((expandTeruleHelper sameTypes TeKind.transition.specified none none 0 1 [⟨1, 3#32⟩] true
      emptyTables).toOption.bind fun d =>
        (expandTeruleHelper sameTypes TeKind.transition.specified none none 0 1 [⟨1, 3#32⟩, ⟨2, 3#32⟩] true
          d).toOption.map fun d =>
          (rulesOf d.te (ruleKey 0 1 2 avtabTransition)).length) = some 0 ∧
    ((expandTeruleHelper sameTypes TeKind.transition.specified (some (0, true)) (some (0, false)) 0 1 [⟨1, 1#32⟩] true
        emptyTables).toOption.bind fun d =>
      (expandTeruleHelper sameTypes TeKind.transition.specified (some (0, false))
        (some (0, true)) 0 1 [⟨1, 2#32⟩] true d).toOption.bind fun d =>
        (expandTeruleHelper sameTypes TeKind.transition.specified (some (0, true))
          (some (0, false)) 0 1 [⟨1, 3#32⟩] true d).toOption.map fun d =>
          rulesOf d.cond (ruleKey 0 1 1 avtabTransition)) = some [(some (0, false), 2#32), (some (0, true), 3#32)] :=
  ⟨by decide +kernel, by decide +kernel⟩

end SELinux.Expand
