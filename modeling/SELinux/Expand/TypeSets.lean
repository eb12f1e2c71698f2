/-
  SELinux.Expand.TypeSets — the meaning of a type set (`libsepol/src/expand.c`: `type_set_expand`).

  `typeSetExpand_spec`: for types that there are and attributes of types only, the result is the set
  that the types, the excluded types and the flags stand for. The function fails only where a policy
  has so many types that a bitmap cannot hold them.
-/
import SELinux.Expand.Avrules
import SELinux.Db.Bitset

namespace SELinux.Expand

open Db List Bitmap

/-! ## Loops over bits -/

/-- A bit that `ebitmap_set_bit` takes. -/
def Fits (i : Nat) : Prop := i - i % mapsize + mapsize < 2 ^ 32

variable {i : Nat}

theorem fits_of_has {e : Bitmap} (h : e.has i = true) : Fits i := (e.2.getBit_lt h).2

/-- A loop whose round for `i` adds the bits `M i`. -/
theorem gather {f : Bitmap → Nat → Option Bitmap} {M : Nat → Nat → Prop} {l : List Nat}
    (step : ∀ i ∈ l, ∀ acc, ∃ acc', f acc i = some acc' ∧ ∀ j, acc'.has j = true ↔ acc.has j = true ∨ M i j) (acc : Bitmap) :
    ∃ r, l.foldlM f acc = some r ∧ ∀ j, r.has j = true ↔ acc.has j = true ∨ ∃ i ∈ l, M i j := by
  induction l generalizing acc with
  | nil => exact ⟨acc, rfl, by simp⟩
  | cons a l ih =>
    obtain ⟨acc', hacc, hbits⟩ := step a mem_cons_self acc
    obtain ⟨r, hr, hrbits⟩ := ih (fun i hi => step i (mem_cons_of_mem a hi)) acc'
    refine ⟨r, by rw [foldlM_cons, hacc]; exact hr, fun j => ?_⟩
    rw [hrbits, hbits, or_assoc]
    simp

theorem setBit_adds (h : Fits i) (acc : Bitmap) :
    ∃ acc', acc.setBit i true = some acc' ∧ ∀ j, acc'.has j = true ↔ acc.has j = true ∨ j = i := by
  obtain ⟨acc', hacc⟩ := acc.setBit_isSome h true
  refine ⟨acc', hacc, fun j => ?_⟩
  rw [has_setBit hacc]
  split
  next hj =>
    simp [hj]
  next hj =>
    simp [hj]

/-- A loop whose round for `i` writes the bit `i`, or skips it; what a round finds at its own bit is what
    was there at the start. -/
theorem rewrite_bits {f : Bitmap → Nat → Option Bitmap} (skip : Nat → Bool) {v : Bool → Bool} {l : List Nat}
    (hl : l.Nodup) {e : Bitmap}
    (hf : ∀ t : Bitmap, ∀ i ∈ l, t.has i = e.has i → f t i = if skip i then some t else t.setBit i (v (t.has i))) :
    (∀ r, l.foldlM f e = some r → ∀ j, r.has j = if j ∈ l ∧ skip j = false then v (e.has j) else e.has j) ∧
      ((∀ i ∈ l, Fits i) → ∃ r, l.foldlM f e = some r) := by
  induction l generalizing e with
  | nil =>
    refine ⟨fun r hr j => ?_, fun _ => ⟨e, rfl⟩⟩
    cases hr
    simp
  | cons a l ih =>
    obtain ⟨ha, hl⟩ := nodup_cons.mp hl
    -- the rounds that follow find their bits as before
    have hrest : ∀ e1 : Bitmap, (∀ j, j ≠ a → e1.has j = e.has j) →
        ∀ t : Bitmap, ∀ i ∈ l, t.has i = e1.has i → f t i = if skip i then some t else t.setBit i (v (t.has i)) := by
      intro e1 hsame t i hi ht
      exact hf t i (mem_cons_of_mem a hi) (ht.trans (hsame i (ne_of_mem_of_not_mem hi ha)))
    have hfirst := hf e a mem_cons_self rfl
    rw [foldlM_cons, hfirst]
    cases hskip : skip a with
    | true =>
      obtain ⟨hbits, hex⟩ := ih hl (hrest e fun _ _ => rfl)
      refine ⟨fun r hr j => ?_, fun hfit => hex fun i hi => hfit i (mem_cons_of_mem a hi)⟩
      rw [hbits r hr]
      by_cases hj : j = a
      · simp [hj, hskip, ha]
      · simp [hj]
    | false =>
      constructor
      · intro r hr j
        obtain ⟨e1, he1, hr⟩ := Option.bind_eq_some_iff.mp hr
        have hset := has_setBit he1
        rw [(ih hl (hrest e1 fun j hj => by rw [hset, if_neg hj])).1 r hr, hset]
        by_cases hj : j = a
        · simp [hj, hskip, ha]
        · simp [hj]
      · intro hfit
        obtain ⟨e1, he1⟩ := e.setBit_isSome (hfit a mem_cons_self) (v (e.has a))
        obtain ⟨r, hr⟩ := (ih hl (hrest e1 fun j hj => by rw [has_setBit he1, if_neg hj])).2 fun i hi =>
          hfit i (mem_cons_of_mem a hi)
        exact ⟨r, by simp only [Bool.false_eq_true, if_false, he1]; exact hr⟩

/-! ## The set -/

section Meaning

variable (set : TypeSet) (p : Policydb) (alwaysexpand : Bool)

/-- A set with each attribute replaced by its types. -/
def expansion (s : Bitmap) : Set Nat :=
  { i | ∃ a, s.has a = true ∧ if isAttrib p a then (attribTypes p a).has i = true else i = a }

open Classical in
/-- The types to start from: attributes stay where nothing is excluded and there is no flag. -/
noncomputable def baseTypes : Set Nat :=
  if alwaysexpand = true ∨ (∃ j, set.negset.has j = true) ∨ set.flags ≠ 0#32 then expansion p set.types
    else { i | set.types.has i = true }

def plainTypes : Set Nat := { i | i < p.typeValToStruct.length ∧ isAttrib p i = false }

noncomputable def typeSetMeaning : Set Nat :=
  if set.flags &&& typeStar ≠ 0#32 then plainTypes p \ expansion p set.negset
  else if set.flags &&& typeComp ≠ 0#32 then plainTypes p \ (baseTypes set p alwaysexpand \ expansion p set.negset)
  else baseTypes set p alwaysexpand \ expansion p set.negset

/-- The set is over types and attributes of the policy. -/
def TypeSet.Exists : Prop := ∀ i, set.types.has i = true ∨ set.negset.has i = true →
    ∃ t, p.typeValToStruct[i]? = some (some t)

/-- The attributes have types only. -/
def AttribsPlain : Prop := ∀ a, isAttrib p a = true → ∀ i, (attribTypes p a).has i = true → i ∈ plainTypes p

end Meaning

variable {set : TypeSet} {p : Policydb} {alwaysexpand : Bool}

theorem length_ne_zero_iff (e : Bitmap) : (ebitmapLength e.1 != 0) = true ↔ ∃ j, e.has j = true := by
  rw [bne_iff_ne, ← Nat.pos_iff_ne_zero, e.lt_length_iff]
  simp

theorem expandAttribs_spec (p : Policydb) (s : Bitmap) :
    ∃ r, expandAttribs p s = some r ∧ ∀ j, r.has j = true ↔ j ∈ expansion p s := by
  obtain ⟨r, hr, hbits⟩ := gather
    (f := fun acc i => if isAttrib p i then some (acc.union (attribTypes p i)) else acc.setBit i true)
    (M := fun a i => if isAttrib p a then (attribTypes p a).has i = true else i = a) (l := s.bits) (fun i hi acc => by
      cases isAttrib p i with
      | true => exact ⟨_, rfl, fun j => has_union⟩
      | false => simpa using setBit_adds (fits_of_has (mem_bits.mp hi)) acc) Bitmap.empty
  refine ⟨r, hr, fun j => ?_⟩
  rw [hbits]
  simp [has_empty, mem_bits, expansion]

theorem baseTypes_spec (set : TypeSet) (p : Policydb) (alwaysexpand : Bool) :
    ∃ r, (if alwaysexpand || ebitmapLength set.negset.1 != 0 || set.flags != 0#32 then expandAttribs p set.types
      else some set.types) = some r ∧ ∀ j, r.has j = true ↔ j ∈ baseTypes set p alwaysexpand := by
  have hcond : (alwaysexpand || ebitmapLength set.negset.1 != 0 || set.flags != 0#32) = true ↔
      alwaysexpand = true ∨ (∃ j, set.negset.has j = true) ∨ set.flags ≠ 0#32 := by
    rw [Bool.or_eq_true, Bool.or_eq_true, length_ne_zero_iff, bne_iff_ne, or_assoc]
  unfold baseTypes
  split
  next h =>
    obtain ⟨r, hr, hbits⟩ := expandAttribs_spec p set.types
    exact ⟨r, hr, fun j => by rw [hbits, if_pos (hcond.mp h)]⟩
  next h =>
    exact ⟨set.types, rfl, fun j => by rw [if_neg fun hc => h (hcond.mpr hc)]; rfl⟩

/-- The part of `type_set_expand` behind the two loops over attributes. -/
def combineTypes (set : TypeSet) (p : Policydb) (types negTypes : Bitmap) : Option Bitmap :=
  if set.flags &&& typeStar ≠ 0#32 then
    (List.range p.typeValToStruct.length).foldlM
      (fun t i => if negTypes.has i || isAttrib p i then some t else t.setBit i true) Bitmap.empty
  else (types.bits.foldlM (fun t i => if negTypes.has i then some t else t.setBit i true) Bitmap.empty).bind fun t =>
    if set.flags &&& typeComp ≠ 0#32 then
      (List.range p.typeValToStruct.length).foldlM
        (fun t i => if isAttrib p i then (if t.has i then none else some t) else t.setBit i (!t.has i)) t
    else some t

theorem typeSetExpand_eq {types negTypes : Bitmap} (hneg : expandAttribs p set.negset = some negTypes)
    (h : (if alwaysexpand || ebitmapLength set.negset.1 != 0 || set.flags != 0#32 then expandAttribs p set.types
      else some set.types) = some types) :
    typeSetExpand set p alwaysexpand = combineTypes set p types negTypes := by
  unfold typeSetExpand
  split at h
  next hc =>
    rw [if_pos hc, h]
    simp only [hneg, Option.bind_eq_bind, Option.bind_some]
    rfl
  next hc =>
    cases h
    rw [if_neg hc]
    simp only [hneg, Option.bind_eq_bind, Option.bind_some]
    rfl

/-- What is expanded are types. -/
theorem expansion_plain (hset : TypeSet.Exists set p) (hattr : AttribsPlain p) (h : i ∈ expansion p set.types) :
    i ∈ plainTypes p := by
  obtain ⟨a, ha, hi⟩ := h
  cases hattrib : isAttrib p a with
  | true =>
    rw [hattrib] at hi
    exact hattr a hattrib i hi
  | false =>
    rw [hattrib] at hi
    subst hi
    obtain ⟨t, ht⟩ := hset i (Or.inl ha)
    exact ⟨(List.getElem?_eq_some_iff.mp ht).1, hattrib⟩

/-- The result is what the set means, and there is one if the types fit into a bitmap. -/
theorem typeSetExpand_spec (hset : TypeSet.Exists set p) (hattr : AttribsPlain p) :
    (∀ t, typeSetExpand set p alwaysexpand = some t → ∀ i, t.has i = true ↔ i ∈ typeSetMeaning set p alwaysexpand) ∧
      (p.typeValToStruct.length ≤ 2 ^ 32 - 64 → ∃ t, typeSetExpand set p alwaysexpand = some t) := by
  obtain ⟨base, hbase, hbaseBits⟩ := baseTypes_spec set p alwaysexpand
  obtain ⟨neg, hneg, hnegBits⟩ := expandAttribs_spec p set.negset
  have hfit : p.typeValToStruct.length ≤ 2 ^ 32 - 64 → ∀ i ∈ List.range p.typeValToStruct.length, Fits i := by
    intro hlen i hi
    have := mem_range.mp hi
    simp only [Fits, mapsize]
    omega
  rw [typeSetExpand_eq hneg hbase]
  unfold combineTypes typeSetMeaning
  split
  · obtain ⟨hbits, hex⟩ := rewrite_bits (fun i => neg.has i || isAttrib p i) (v := fun _ => true)
      (f := fun t i => if neg.has i || isAttrib p i then some t else t.setBit i true)
        (nodup_range (n := p.typeValToStruct.length)) (e := Bitmap.empty) fun t i _ _ => rfl
    refine ⟨fun t ht i => ?_, fun hlen => hex (hfit hlen)⟩
    rw [hbits t ht, Set.mem_sdiff, ← hnegBits, plainTypes]
    simp [has_empty, mem_range]
    tauto
  · obtain ⟨hbits, hex⟩ := rewrite_bits neg.has (v := fun _ => true)
      (f := fun t i => if neg.has i then some t else t.setBit i true)
      (ebitmapBits_nodup base.2) (e := Bitmap.empty) fun t i _ _ => rfl
    obtain ⟨t, ht⟩ := hex fun i hi => fits_of_has (mem_bits.mp hi)
    have htBits : ∀ i, t.has i = true ↔ i ∈ baseTypes set p alwaysexpand \ expansion p set.negset := by
      intro i
      rw [hbits t ht, Set.mem_sdiff, ← hnegBits, ← hbaseBits, ← mem_bits]
      simp [has_empty, Bitmap.bits]
    rw [show base.bits.foldlM (fun t i => if neg.has i then some t else t.setBit i true) Bitmap.empty = some t from ht]
    split
    next hcomp =>
      have hflags : set.flags ≠ 0#32 := fun h0 => hcomp (by rw [h0]; rfl)
      have hplain : ∀ i, t.has i = true → i ∈ plainTypes p := by
        intro i hi
        have hbase := ((htBits i).mp hi).1
        rw [baseTypes, if_pos (Or.inr (Or.inr hflags))] at hbase
        exact expansion_plain hset hattr hbase
      obtain ⟨hbits, hex⟩ := rewrite_bits (isAttrib p) (v := fun b => !b)
        (f := fun t i => if isAttrib p i then (if t.has i then none else some t) else t.setBit i (!t.has i))
          (nodup_range (n := p.typeValToStruct.length)) (e := t) (by
          intro t' i _ hsame
          cases hi : isAttrib p i with
          | true =>
            -- an attribute is not in the set, as the assertion says
            have hnot : t.has i = false := by
              rw [← Bool.not_eq_true]
              intro hhas
              rw [(hplain i hhas).2] at hi
              cases hi
            simp [hsame, hnot]
          | false => rfl)
      refine ⟨fun r hr i => ?_, fun hlen => hex (hfit hlen)⟩
      rw [hbits r hr, Set.mem_sdiff, ← htBits, plainTypes]
      split
      next hi =>
        simp [mem_range.mp hi.1, hi.2]
      next hi =>
        refine iff_of_false (fun hhas => hi ?_) fun hi' => hi ⟨mem_range.mpr hi'.1.1, hi'.1.2⟩
        exact ⟨mem_range.mpr (hplain i hhas).1, (hplain i hhas).2⟩
    · refine ⟨fun r hr i => ?_, fun _ => ⟨t, rfl⟩⟩
      cases hr
      exact htBits i

/-- A policy with one type. -/
def singleType : Policydb := { typeValToStruct := [some { value := 1 }] }

/-- Two types, and an attribute that has both. -/
def bothPolicy : Policydb :=
  { typeValToStruct :=
      [some { value := 1 }, some { value := 2, flavor := .attrib, types := Bitmap.word 0b101#64 }, some { value := 3 }] }

/-- The attribute without the second type. -/
def attribSet : TypeSet := { types := Bitmap.word 0b010#64, negset := Bitmap.word 0b100#64 }

theorem typeSetExpand_spec_attrib :
    (typeSetExpand attribSet bothPolicy false).map (·.bits) = some [0] ∧
      typeSetMeaning attribSet bothPolicy false = {0} := by
  have hset : TypeSet.Exists attribSet bothPolicy := by
    intro i hi
    simp only [attribSet, ← mem_bits, show (Bitmap.word 0b010#64).bits = [1] by decide,
      show (Bitmap.word 0b100#64).bits = [2] by decide, mem_singleton] at hi
    rcases hi with rfl | rfl <;> exact ⟨_, rfl⟩
  have hattr : AttribsPlain bothPolicy := by
    intro a ha i hi
    rcases a with _ | _ | _ | a
    · cases ha
    · rw [← mem_bits, show (attribTypes bothPolicy 1).bits = [0, 2] by decide] at hi
      simp only [mem_cons, not_mem_nil, or_false] at hi
      rcases hi with rfl | rfl <;> exact ⟨by decide, by decide⟩
    · cases ha
    · cases ha
  have hbits : (typeSetExpand attribSet bothPolicy false).map (·.bits) = some [0] := by decide
  obtain ⟨t, ht, hzero⟩ := Option.map_eq_some_iff.mp hbits
  refine ⟨hbits, Set.ext fun i => ?_⟩
  rw [← (typeSetExpand_spec hset hattr).1 t ht, ← mem_bits, hzero]
  simp

end SELinux.Expand
