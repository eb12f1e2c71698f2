/-
  SELinux.Cil.LevelRanges — level ranges with evaluated categories
  (`libsepol/cil/src/cil_verify.c`: `__cil_verify_levelrange`; `cil_binary.c`:
  `__cil_levelrange_to_mls_range`).

  An empty category set has three forms: no `cats`, an empty list, and NULL for the list, which is
  what `__evaluate_cat_expression` leaves for an expression without categories.
  `cil_list_for_each` reads the head of the last one through the NULL pointer. The empty list is
  refused if the high level has no `cats` or the sensitivity no `cats_list`.

  `cilVerifyLevelrange_iff`: the verdict is right on every other range, and a range that passes has
  a high level that dominates its low level.
-/
import SELinux.Db.Bitset

namespace SELinux.Cil

open Db List Option

/-! ## The check -/

/-- An evaluated `cats->datum_expr`; `none` is NULL. -/
abbrev CatList := Option (List Nat)

/-- A level; `cats` may be NULL itself. -/
structure CilLevel where
  sens : Nat
  cats : Option CatList

structure CilLevelrange where
  low : CilLevel
  high : CilLevel

/-- What the check reads of the database. The merged order has a sensitivity once. -/
structure SensDb where
  sensitivityorder : List Nat
  nodup : sensitivityorder.Nodup
  /-- `sens->cats_list`, one element for each `sensitivitycategory` statement. -/
  catsList : Nat → Option (List CatList)

variable (db : SensDb)

/-- `__cil_is_cat_in_cats`. Here and below, `none` is a crash. -/
def cilIsCatInCats (cat : Nat) (cats : CatList) : Option Bool := cats.map (·.contains cat)

def isCatInList (cat : Nat) : List CatList → Option Bool
  | [] => some false
  | cats :: l => do if ← cilIsCatInCats cat cats then return true else isCatInList cat l

/-- The loop of `__cil_verify_cats_associated_with_sens`, which goes on after an error. -/
def catsAssociated (lists : List CatList) : List Nat → Option Bool
  | [] => some true
  | cat :: l => do
    let ok ← isCatInList cat lists
    return (← catsAssociated lists l) && ok

/-- `__cil_verify_cats_associated_with_sens` -/
def cilVerifyCatsAssociatedWithSens (catsList : Option (List CatList)) : Option CatList → Option Bool
  | none => some true
  | some cats =>
    match catsList with
    | none => some false
    | some lists => do catsAssociated lists (← cats)

/-- The loop of `__cil_verify_levelrange_sensitivity`: whether it stops before the end. -/
def cilVerifyLevelrangeSensitivity (low high : Nat) (found : Bool) : List Nat → Bool
  | [] => false
  | curr :: l =>
    let found := found || curr == low
    found && curr == high || cilVerifyLevelrangeSensitivity low high found l

def catsInCats (high : CatList) : List Nat → Option Bool
  | [] => some true
  | cat :: l => do if ← cilIsCatInCats cat high then catsInCats high l else return false

/-- `__cil_verify_levelrange_cats` -/
def cilVerifyLevelrangeCats : Option CatList → Option CatList → Option Bool
  | none, _ => some true
  | some _, none => some false
  | some low, some high => do catsInCats high (← low)

/-- `__cil_verify_levelrange`: `some true` is SEPOL_OK. -/
def cilVerifyLevelrange (lr : CilLevelrange) : Option Bool := do
  if !cilVerifyLevelrangeSensitivity lr.low.sens lr.high.sens false db.sensitivityorder then return false
  if !(← cilVerifyLevelrangeCats lr.low.cats lr.high.cats) then return false
  if !(← cilVerifyCatsAssociatedWithSens (db.catsList lr.low.sens) lr.low.cats) then return false
  cilVerifyCatsAssociatedWithSens (db.catsList lr.high.sens) lr.high.cats

/-- The loop of `__cil_cats_to_mls_level`; `catValue` is the bit of a category of the policy. -/
def cilCatsToMlsLevel (catValue : Nat → Option Nat) (cats : List Nat) (cat : Bitmap) : Option Bitmap :=
  cats.foldlM (fun cat c => do cat.setBit (← catValue c) true) cat

/-- `cil_level_to_mls_level`: the sensitivities have the values 1, 2, ... in their order. -/
def cilLevelToMlsLevel (catValue : Nat → Option Nat) (l : CilLevel) : Option MlsLevel := do
  guard (l.sens ∈ db.sensitivityorder)
  let cat ← cilCatsToMlsLevel catValue (← l.cats.getD (some [])) Bitmap.empty
  return { sens := db.sensitivityorder.idxOf l.sens + 1, cat }

/-- `__cil_levelrange_to_mls_range` -/
def cilLevelrangeToMlsRange (catValue : Nat → Option Nat) (lr : CilLevelrange) : Option MlsRange :=
  return { low := ← cilLevelToMlsLevel db catValue lr.low, high := ← cilLevelToMlsLevel db catValue lr.high }

/-! ## What is checked -/

def CilLevel.set (l : CilLevel) : List Nat := (l.cats.getD none).getD []

/-- Each category is in some statement of the sensitivity. -/
def CilLevel.Associated (l : CilLevel) : Prop :=
  ∀ c ∈ l.set, ∃ cats ∈ (db.catsList l.sens).getD [], c ∈ cats.getD []

/-- The ranges that are to pass. -/
structure CilLevelrange.Right (db : SensDb) (lr : CilLevelrange) : Prop where
  lowOrdered : lr.low.sens ∈ db.sensitivityorder
  highOrdered : lr.high.sens ∈ db.sensitivityorder
  notAfter : db.sensitivityorder.idxOf lr.low.sens ≤ db.sensitivityorder.idxOf lr.high.sens
  subset : lr.low.set ⊆ lr.high.set
  low : lr.low.Associated db
  high : lr.high.Associated db

/-- The list is not NULL, an empty one is of a sensitivity with statements, and no statement with
    NULL comes before the one that has a category. -/
structure CilLevel.Readable (db : SensDb) (l : CilLevel) : Prop where
  notNull : l.cats ≠ some none
  listed : l.cats = some (some []) → db.catsList l.sens ≠ none
  found : ∀ c ∈ l.set, ∀ pre post, db.catsList l.sens = some (pre ++ none :: post) → ∃ cats ∈ pre, c ∈ cats.getD []

/-- The same of both levels, and an empty list below a level that has `cats`. -/
structure CilLevelrange.Readable (db : SensDb) (lr : CilLevelrange) : Prop where
  low : lr.low.Readable db
  high : lr.high.Readable db
  paired : lr.low.cats = some (some []) → lr.high.cats ≠ none

/-! ## The parts of the check -/

theorem cilVerifyLevelrangeSensitivity_found (low high : Nat) (l : List Nat) :
    cilVerifyLevelrangeSensitivity low high true l = true ↔ high ∈ l := by
  induction l with
  | nil => simp [cilVerifyLevelrangeSensitivity]
  | cons curr l ih =>
    rw [cilVerifyLevelrangeSensitivity, Bool.true_or, Bool.true_and, Bool.or_eq_true, beq_iff_eq, ih, mem_cons,
      eq_comm (a := curr)]

theorem cilVerifyLevelrangeSensitivity_iff (low high : Nat) {l : List Nat} (hl : l.Nodup) :
    cilVerifyLevelrangeSensitivity low high false l = true ↔ low ∈ l ∧ high ∈ l ∧ l.idxOf low ≤ l.idxOf high := by
  induction l with
  | nil => simp [cilVerifyLevelrangeSensitivity]
  | cons curr l ih =>
    obtain ⟨hnew, hl⟩ := nodup_cons.mp hl
    rw [cilVerifyLevelrangeSensitivity]
    by_cases hlow : curr = low
    · subst hlow
      simp [cilVerifyLevelrangeSensitivity_found, eq_comm (a := high)]
    · have hfound : (curr == low) = false := beq_false_of_ne hlow
      by_cases hhigh : curr = high
      · subst hhigh
        simp [hfound, hlow, Ne.symm hlow, ih hl, hnew, idxOf_cons_ne]
      · simp [hfound, hlow, Ne.symm hlow, hhigh, Ne.symm hhigh, ih hl, idxOf_cons_ne]

theorem isCatInList_iff (c : Nat) (lists : List CatList) : isCatInList c lists = some true ↔
    (∃ cats ∈ lists, c ∈ cats.getD []) ∧ ∀ pre post, lists = pre ++ none :: post → ∃ cats ∈ pre, c ∈ cats.getD [] := by
  induction lists with
  | nil => simp [isCatInList]
  | cons cats lists ih =>
    cases cats with
    | none =>
      refine iff_of_false (by simp [isCatInList, cilIsCatInCats]) fun h => ?_
      obtain ⟨cats, hcats, -⟩ := h.2 [] lists rfl
      exact not_mem_nil hcats
    | some l =>
      by_cases hc : c ∈ l
      · refine iff_of_true (by simp [isCatInList, cilIsCatInCats, hc]) ⟨⟨some l, by simp, hc⟩, fun pre post h => ?_⟩
        cases pre with
        | nil => cases h
        | cons x pre =>
          cases h
          exact ⟨some l, by simp, hc⟩
      · have hrest : isCatInList c (some l :: lists) = isCatInList c lists := by simp [isCatInList, cilIsCatInCats, hc]
        rw [hrest, ih]
        refine and_congr (by simp [hc]) ⟨fun h pre post hpre => ?_, fun h pre post hpre => ?_⟩
        · cases pre with
          | nil => cases hpre
          | cons x pre =>
            cases hpre
            obtain ⟨cats, hcats, hmem⟩ := h pre post rfl
            exact ⟨cats, mem_cons_of_mem _ hcats, hmem⟩
        · obtain ⟨cats, hcats, hmem⟩ := h (some l :: pre) post (by rw [hpre]; rfl)
          rcases mem_cons.mp hcats with rfl | hcats
          · exact absurd hmem hc
          · exact ⟨cats, hcats, hmem⟩

theorem catsInCats_iff (high : CatList) (l : List Nat) : catsInCats high l = some true ↔ l ⊆ high.getD [] := by
  induction l with
  | nil => simp [catsInCats]
  | cons cat l ih =>
    cases high with
    | none => simp [catsInCats, cilIsCatInCats]
    | some h => by_cases hc : cat ∈ h <;> simp [catsInCats, cilIsCatInCats, hc, ih]

theorem cilVerifyLevelrangeCats_iff (lr : CilLevelrange) : cilVerifyLevelrangeCats lr.low.cats lr.high.cats = some true ↔
    lr.low.set ⊆ lr.high.set ∧ lr.low.cats ≠ some none ∧ (lr.low.cats = some (some []) → lr.high.cats ≠ none) := by
  unfold CilLevel.set
  rcases lr.low.cats with _ | _ | l <;> rcases lr.high.cats with _ | h <;> simp [cilVerifyLevelrangeCats, catsInCats_iff]

theorem catsAssociated_iff (lists : List CatList) (l : List Nat) :
    catsAssociated lists l = some true ↔ ∀ c ∈ l, isCatInList c lists = some true := by
  induction l with
  | nil => simp [catsAssociated]
  | cons c l ih =>
    rw [catsAssociated, forall_mem_cons, ← ih]
    rcases isCatInList c lists with _ | b
    · simp
    · rcases catsAssociated lists l with _ | r <;> simp [and_comm]

theorem cilVerifyCatsAssociatedWithSens_iff (l : CilLevel) :
    cilVerifyCatsAssociatedWithSens (db.catsList l.sens) l.cats = some true ↔ l.Associated db ∧ l.Readable db := by
  have hreadable : l.Readable db ↔ l.cats ≠ some none ∧ (l.cats = some (some []) → db.catsList l.sens ≠ none) ∧
      ∀ c ∈ l.set, ∀ pre post, db.catsList l.sens = some (pre ++ none :: post) → ∃ cats ∈ pre, c ∈ cats.getD [] :=
    ⟨fun h => ⟨h.1, h.2, h.3⟩, fun h => ⟨h.1, h.2.1, h.2.2⟩⟩
  rw [hreadable]
  unfold CilLevel.Associated CilLevel.set
  rcases l.cats with _ | _ | cats
  · simp [cilVerifyCatsAssociatedWithSens]
  · rcases db.catsList l.sens with _ | lists <;> simp [cilVerifyCatsAssociatedWithSens]
  · rcases db.catsList l.sens with _ | lists
    · cases cats with
      | nil => simp [cilVerifyCatsAssociatedWithSens]
      | cons c cats =>
        refine iff_of_false (by simp [cilVerifyCatsAssociatedWithSens]) fun h => ?_
        simpa using h.1 c mem_cons_self
    · simp [cilVerifyCatsAssociatedWithSens, catsAssociated_iff, isCatInList_iff, forall_and]

/-- A range passes if it is right and can be read. -/
theorem cilVerifyLevelrange_ok (lr : CilLevelrange) :
    cilVerifyLevelrange db lr = some true ↔ lr.Right db ∧ lr.Readable db := by
  have hbind : ∀ x y : Option Bool, (x >>= fun b => if (!b) = true then some false else y) = some true ↔
      x = some true ∧ y = some true := by
    intro x y
    rcases x with _ | _ | _ <;> simp
  have hok : cilVerifyLevelrange db lr = some true ↔
      cilVerifyLevelrangeSensitivity lr.low.sens lr.high.sens false db.sensitivityorder = true ∧
        cilVerifyLevelrangeCats lr.low.cats lr.high.cats = some true ∧
        cilVerifyCatsAssociatedWithSens (db.catsList lr.low.sens) lr.low.cats = some true ∧
        cilVerifyCatsAssociatedWithSens (db.catsList lr.high.sens) lr.high.cats = some true := by
    rw [← hbind, ← hbind]
    cases hs : cilVerifyLevelrangeSensitivity lr.low.sens lr.high.sens false db.sensitivityorder <;>
      simp [cilVerifyLevelrange, hs]
  rw [hok, cilVerifyLevelrangeSensitivity_iff _ _ db.nodup, cilVerifyLevelrangeCats_iff, cilVerifyCatsAssociatedWithSens_iff,
    cilVerifyCatsAssociatedWithSens_iff]
  constructor
  · intro h
    obtain ⟨⟨h1, h2, h3⟩, ⟨h4, -, h5⟩, ⟨h6, h7⟩, h8, h9⟩ := h
    exact ⟨⟨h1, h2, h3, h4, h6, h8⟩, h7, h9, h5⟩
  · intro h
    exact ⟨⟨h.1.lowOrdered, h.1.highOrdered, h.1.notAfter⟩, ⟨h.1.subset, h.2.low.notNull, h.2.paired⟩,
      ⟨h.1.low, h.2.low⟩, h.1.high, h.2.high⟩

/-! ## The range of the policy -/

variable {catValue : Nat → Option Nat}

theorem has_cilCatsToMlsLevel {cats : List Nat} {cat r : Bitmap} (h : cilCatsToMlsLevel catValue cats cat = some r)
    (i : Nat) : r.has i = true ↔ cat.has i = true ∨ ∃ c ∈ cats, catValue c = some i := by
  induction cats generalizing cat with
  | nil =>
    cases h
    simp
  | cons c cats ih =>
    obtain ⟨t, ht, hrest⟩ := bind_eq_some_iff.mp h
    obtain ⟨value, hvalue, hset⟩ := bind_eq_some_iff.mp ht
    rw [ih hrest, Bitmap.has_setBit hset]
    by_cases hi : i = value
    · simp [hi, hvalue]
    · simp [hi, hvalue, Ne.symm hi]

theorem cilLevelToMlsLevel_some {db : SensDb} {l : CilLevel} {m : MlsLevel} (h : cilLevelToMlsLevel db catValue l = some m) :
    m.sens = db.sensitivityorder.idxOf l.sens + 1 ∧ ∀ i, m.cat.has i = true ↔ ∃ c ∈ l.set, catValue c = some i := by
  simp only [cilLevelToMlsLevel, bind_eq_bind, bind_eq_some_iff] at h
  obtain ⟨-, -, cats, hcats, cat, hcat, hm⟩ := h
  cases hm
  refine ⟨rfl, fun i => ?_⟩
  have hset : l.set = cats := by
    unfold CilLevel.set
    rcases hl : l.cats with _ | x <;> rw [hl] at hcats <;> simp_all
  rw [has_cilCatsToMlsLevel hcat, Bitmap.has_empty, hset]
  simp

/-- The high level of a range that passes dominates its low level. -/
theorem cilLevelrangeToMlsRange_dom {db : SensDb} {lr : CilLevelrange} (hright : lr.Right db) {r : MlsRange}
    (h : cilLevelrangeToMlsRange db catValue lr = some r) : mlsLevelDom r.high r.low = true := by
  simp only [cilLevelrangeToMlsRange, bind_eq_bind, bind_eq_some_iff] at h
  obtain ⟨low, hlow, high, hhigh, hr⟩ := h
  cases hr
  obtain ⟨hls, hlc⟩ := cilLevelToMlsLevel_some hlow
  obtain ⟨hhs, hhc⟩ := cilLevelToMlsLevel_some hhigh
  refine mlsLevelDom_iff.mpr ⟨?_, fun i hi => ?_⟩
  · show low.sens ≤ high.sens
    rw [hls, hhs]
    exact Nat.succ_le_succ hright.notAfter
  · rw [← Ebitmap.WF.mem_toSet low.cat.2] at hi
    rw [← Ebitmap.WF.mem_toSet high.cat.2]
    obtain ⟨c, hc, hv⟩ := (hlc i).mp hi
    exact (hhc i).mpr ⟨c, hright.subset hc, hv⟩

/-- `__cil_verify_levelrange` accepts exactly the right ranges, and what is built from them is a
    range, unless a right range has an empty category set in one of the forms it stumbles over. -/
theorem cilVerifyLevelrange_iff (db : SensDb) (lr : CilLevelrange) :
    ((cilVerifyLevelrange db lr = some true ↔ lr.Right db) ∧
      (cilVerifyLevelrange db lr = some true → ∀ catValue r, cilLevelrangeToMlsRange db catValue lr = some r →
        mlsLevelDom r.high r.low = true)) ↔
    (lr.Right db → lr.Readable db) := by
  rw [cilVerifyLevelrange_ok]
  constructor
  · intro h hright
    exact (h.1.mpr hright).2
  · intro h
    exact ⟨⟨And.left, fun hright => ⟨hright, h hright⟩⟩, fun hok _ _ => cilLevelrangeToMlsRange_dom hok.1⟩

/-- The high level has categories the expression of which came out empty. -/
theorem cilVerifyLevelrange_empty :
    let db : SensDb := ⟨[0], by decide, fun _ => some [some [1]]⟩
    let lr : CilLevelrange := ⟨⟨0, none⟩, ⟨0, some none⟩⟩
    lr.Right db ∧ cilVerifyLevelrange db lr = none := by
  refine ⟨⟨by decide, by decide, by decide, by decide, ?_, ?_⟩, rfl⟩
  · exact fun c hc => absurd hc not_mem_nil
  · exact fun c hc => absurd hc not_mem_nil

end SELinux.Cil
