/-
  SELinux.Db.Context — security contexts (`libsepol/src/context.c`, `mls.c`,
  `include/sepol/policydb/mls_types.h`, `context.h`).

  A context is a user, a role, a type and, in an MLS policy, a range of two levels, all by
  value. `contextToString` is its text under a policy; the loop over the categories of a
  level visits the positions `ebitmap_for_each_bit` does, which leave out what lies between
  two maps. `mlsConvertContext` takes the levels from one policy to another by name.

  Names NULL or out of an array are never written for valid contexts; here they are empty.
-/
import SELinux.Db.Types

namespace SELinux.Db

open Option

/-! ## Levels -/

def mlsLevelEq (l1 l2 : MlsLevel) : Bool := l1.sens == l2.sens && ebitmapCmp l1.cat.1 l2.cat.1

def mlsLevelDom (l1 l2 : MlsLevel) : Bool := decide (l2.sens ≤ l1.sens) && ebitmapContains l1.cat.1 l2.cat.1

def mlsLevelIncomp (l1 l2 : MlsLevel) : Bool := !mlsLevelDom l1 l2 && !mlsLevelDom l2 l1

def mlsRangeContains (r1 r2 : MlsRange) : Bool := mlsLevelDom r2.low r1.low && mlsLevelDom r1.high r2.high

def mlsContextCmp (c1 c2 : Context) : Bool := mlsLevelEq c1.range.low c2.range.low && mlsLevelEq c1.range.high c2.range.high

def contextCmp (c1 c2 : Context) : Bool :=
  c1.user == c2.user && c1.role == c2.role && c1.type == c2.type && mlsContextCmp c1 c2

theorem mlsLevelEq_iff {l1 l2 : MlsLevel} : mlsLevelEq l1 l2 = true ↔ l1 = l2 := by
  obtain ⟨s1, ⟨e1, h1⟩⟩ := l1
  obtain ⟨s2, ⟨e2, h2⟩⟩ := l2
  obtain ⟨n1, b1⟩ := e1
  obtain ⟨n2, b2⟩ := e2
  simp only [mlsLevelEq, ebitmapCmp, Bool.and_eq_true, beq_iff_eq, MlsLevel.mk.injEq, Subtype.mk.injEq, Ebitmap.mk.injEq]
  exact and_congr_right fun _ => and_comm

theorem contextCmp_iff {c1 c2 : Context} : contextCmp c1 c2 = true ↔ c1 = c2 := by
  obtain ⟨u1, r1, t1, l1, h1⟩ := c1
  obtain ⟨u2, r2, t2, l2, h2⟩ := c2
  simp only [contextCmp, mlsContextCmp, Bool.and_eq_true, beq_iff_eq, mlsLevelEq_iff, Context.mk.injEq, MlsRange.mk.injEq,
    and_assoc]

/-! ## Validity -/

def objectRVal : Nat := 1

/-- One level: a known sensitivity that has all of its categories. -/
def mlsLevelIsvalid (p : Policydb) (l : MlsLevel) : Bool :=
  if l.sens = 0 ∨ p.pLevels.nprim < l.sens then false
  else
    match (p.pLevels.name? l.sens).bind p.pLevels.search with
    | none => false
    | some levdatum => l.cat.bits.all fun i => !decide (p.pCats.nprim < i) && levdatum.level.cat.has i

def mlsContextIsvalid (p : Policydb) (c : Context) : Bool :=
  if !p.mls then true
  else if !mlsLevelDom c.range.high c.range.low then false
  else if !mlsLevelIsvalid p c.range.low || !mlsLevelIsvalid p c.range.high then false
  else if c.role = objectRVal then true
  else
    match datumAt p.userValToStruct c.user with
    | none => false
    | some usrdatum => mlsRangeContains usrdatum.expRange c.range

/-- The role may be associated with the type, and the user with the role. -/
def rolesAuthorized (p : Policydb) (c : Context) : Bool :=
  match datumAt p.roleValToStruct c.role, datumAt p.userValToStruct c.user with
  | some role, some usrdatum => role.cache.has (c.type - 1) && usrdatum.cache.has (c.role - 1)
  | _, _ => false

def contextIsValid (p : Policydb) (c : Context) : Bool :=
  if c.role = 0 ∨ p.pRoles.nprim < c.role then false
  else if c.user = 0 ∨ p.pUsers.nprim < c.user then false
  else if c.type = 0 ∨ p.pTypes.nprim < c.type then false
  else if c.role ≠ objectRVal ∧ rolesAuthorized p c = false then false
  else mlsContextIsvalid p c

/-! ## Text -/

/-- The positions `ebitmap_for_each_bit` visits, with their bits. -/
def positionsFrom (high : Nat) : Nat → List EbitmapNode → Nat → List (Nat × Bool)
  | 0, _, _ => []
  | fuel + 1, l, bit =>
    if bit < high then
      (bit, (l.head?.map (ebitmapNodeGetBit · bit)).getD false) ::
        positionsFrom high fuel (ebitmapNext l bit).1 (ebitmapNext l bit).2
    else []

def ebitmapPositions (e : Ebitmap) : List (Nat × Bool) := positionsFrom e.highbit e.highbit e.node (ebitmapStartbit e)

/-- `p_cat_val_to_name[i]` -/
def catName (p : Policydb) (i : Nat) : Name := (p.pCats.name? (i + 1)).getD []

/-- The loop over the categories: the length of the current run, whether a category was
    written, and the text. -/
structure CatText where
  range : Nat := 0
  wroteSep : Bool := false
  text : Name := []

/-- The end of a run of at least two categories, the last one before position `i`. -/
def CatText.close (p : Policydb) (t : CatText) (i : Nat) : CatText :=
  if 1 < t.range then
    { t with range := 0, text := t.text ++ (if 2 < t.range then '.' else ',') :: catName p (i - 1) }
  else { t with range := 0 }

def CatText.visit (p : Policydb) (t : CatText) (ib : Nat × Bool) : CatText :=
  if ib.2 then
    if t.range ≠ 0 then { t with range := t.range + 1 }
    else
      { range := 1, wroteSep := true, text := t.text ++ (if t.wroteSep then ',' else ':') :: catName p ib.1 }
  else t.close p ib.1

def mlsLevelText (p : Policydb) (l : MlsLevel) : Name :=
  (p.pLevels.name? l.sens).getD [] ++
    (((ebitmapPositions l.cat.1).foldl (CatText.visit p) {}).close p l.cat.1.highbit).text

/-- `mls_sid_to_context` -/
def mlsSidToContext (p : Policydb) (c : Context) : Name :=
  if !p.mls then []
  else
    ':' :: mlsLevelText p c.range.low ++
      (if mlsLevelEq c.range.low c.range.high then [] else '-' :: mlsLevelText p c.range.high)

def contextToString (p : Policydb) (c : Context) : Name :=
  (p.pUsers.name? c.user).getD [] ++ ':' :: (p.pRoles.name? c.role).getD [] ++ ':' :: (p.pTypes.name? c.type).getD [] ++
    mlsSidToContext p c

/-! ## Conversion -/

def mlsConvertLevel (oldp newp : Policydb) (l : MlsLevel) : Option MlsLevel := do
  let levdatum ← (oldp.pLevels.name? l.sens).bind newp.pLevels.search
  let cat ← l.cat.bits.foldlM
    (fun bitmap i => ((oldp.pCats.name? (i + 1)).bind newp.pCats.search).bind fun catdatum =>
      bitmap.setBit (catdatum.value - 1) true) Bitmap.empty
  return { sens := levdatum.level.sens, cat }

def mlsConvertContext (oldp newp : Policydb) (c : Context) : Option Context :=
  if !oldp.mls then some c
  else do
    let low ← mlsConvertLevel oldp newp c.range.low
    let high ← mlsConvertLevel oldp newp c.range.high
    return { c with range := { low, high } }

/-- The new policy keeps what contexts are written with: its category names, and the
    sensitivities of the old one under their own names. -/
structure KeepsMls (oldp newp : Policydb) : Prop where
  cats : ∀ v, newp.pCats.name? v = oldp.pCats.name? v
  levels : oldp.pLevels.KeepsNames newp.pLevels

/-- Setting bits one by one, each at its own position, copies a bitmap. -/
theorem foldlM_setBit_has {l : List Nat} {f : Nat → Option Nat} (hf : ∀ i ∈ l, ∀ j, f i = some j → j = i) {e g : Bitmap}
    (h : l.foldlM (fun bitmap i => (f i).bind fun j => bitmap.setBit j true) e = some g) (i : Nat) :
    g.has i = (e.has i || decide (i ∈ l)) := by
  induction l generalizing e with
  | nil => cases h; simp
  | cons a l ih =>
    simp only [List.foldlM_cons, bind_eq_bind, bind_eq_some_iff] at h
    obtain ⟨e', ⟨j, hj, hset⟩, hrest⟩ := h
    obtain rfl := hf a List.mem_cons_self j hj
    rw [ih (fun i hi => hf i (List.mem_cons_of_mem _ hi)) hrest, Bitmap.has_setBit hset]
    by_cases hi : i = j <;> simp [hi]

variable {oldp newp : Policydb}

theorem mlsConvertLevel_some (hk : KeepsMls oldp newp) {l l' : MlsLevel} (h : mlsConvertLevel oldp newp l = some l') :
    l'.cat = l.cat ∧ newp.pLevels.name? l'.sens = oldp.pLevels.name? l.sens ∧ (oldp.pLevels.name? l.sens).isSome = true := by
  unfold mlsConvertLevel at h
  simp only [bind_eq_bind, bind_eq_some_iff, pure_def, Option.some.injEq] at h
  obtain ⟨d, ⟨name, hname, hd⟩, cat, hcat, rfl⟩ := h
  refine ⟨?_, by rw [hname]; exact hk.levels _ _ d hname hd, by rw [hname]; rfl⟩
  refine Bitmap.ext ?_
  intro i
  have hself : ∀ i ∈ l.cat.bits, ∀ j,
      (((oldp.pCats.name? (i + 1)).bind newp.pCats.search).map fun d => d.value - 1) = some j → j = i := by
    intro i _ j hj
    obtain ⟨d, hd, rfl⟩ := map_eq_some_iff.mp hj
    obtain ⟨name, hname, hd⟩ := bind_eq_some_iff.mp hd
    rw [← hk.cats] at hname
    have := Symtab.value_of_search hname hd
    omega
  have hfold : l.cat.bits.foldlM (fun bitmap i =>
      ((((oldp.pCats.name? (i + 1)).bind newp.pCats.search).map fun d => d.value - 1)).bind fun j =>
        bitmap.setBit j true) Bitmap.empty = some cat := by
    rw [← hcat]
    congr 1
    funext bitmap i
    rw [bind_map]
    rfl
  rw [foldlM_setBit_has hself hfold i]
  have hempty : Bitmap.empty.has i = false := not_getBit_empty i
  rw [hempty, Bool.false_or, Bool.eq_iff_iff, decide_eq_true_eq]
  exact Bitmap.mem_bits

theorem mlsLevelText_convert (hk : KeepsMls oldp newp) {l l' : MlsLevel} (h : mlsConvertLevel oldp newp l = some l') :
    mlsLevelText newp l' = mlsLevelText oldp l := by
  obtain ⟨hcat, hsens, -⟩ := mlsConvertLevel_some hk h
  have hname : catName newp = catName oldp := by
    funext i
    unfold catName
    rw [hk.cats]
  have hclose : CatText.close newp = CatText.close oldp := by
    unfold CatText.close
    rw [hname]
  have hvisit : CatText.visit newp = CatText.visit oldp := by
    unfold CatText.visit
    rw [hname, hclose]
  unfold mlsLevelText
  rw [hcat, hsens, hvisit, hclose]

/-- Converted levels are equal only if the levels were. -/
theorem mlsLevelEq_convert (hk : KeepsMls oldp newp) {l1 l2 l1' l2' : MlsLevel}
    (h1 : mlsConvertLevel oldp newp l1 = some l1')
    (h2 : mlsConvertLevel oldp newp l2 = some l2') : mlsLevelEq l1' l2' = mlsLevelEq l1 l2 := by
  rw [Bool.eq_iff_iff, mlsLevelEq_iff, mlsLevelEq_iff]
  refine ⟨?_, ?_⟩
  · intro heq
    obtain ⟨hc1, hs1, hsome⟩ := mlsConvertLevel_some hk h1
    obtain ⟨hc2, hs2, -⟩ := mlsConvertLevel_some hk h2
    obtain ⟨name, hname⟩ := isSome_iff_exists.mp hsome
    have hsens : l1.sens = l2.sens := by
      refine Symtab.name?_inj hname ?_
      rw [← hs2, ← heq, hs1]
      exact hname
    cases l1
    cases l2
    simp_all
  · intro heq
    rw [heq, h2] at h1
    cases h1
    rfl

/-- A converted range is written as before. -/
theorem mlsSidToContext_convert (hmls : newp.mls = oldp.mls) (hk : oldp.mls = true → KeepsMls oldp newp) {c c' : Context}
    (h : mlsConvertContext oldp newp c = some c') : mlsSidToContext newp c' = mlsSidToContext oldp c := by
  unfold mlsSidToContext
  unfold mlsConvertContext at h
  rw [hmls]
  cases hm : oldp.mls
  · rfl
  · rw [hm] at h
    simp only [Bool.not_true, Bool.false_eq_true, if_false, bind_eq_bind, bind_eq_some_iff, pure_def,
      Option.some.injEq] at h ⊢
    obtain ⟨low, hlow, high, hhigh, rfl⟩ := h
    rw [mlsLevelText_convert (hk hm) hlow, mlsLevelText_convert (hk hm) hhigh, mlsLevelEq_convert (hk hm) hlow hhigh]

end SELinux.Db
