/-
  SELinux.Services.StringToClass — the value of a class by its name (`libsepol/src/services.c`:
  `sepol_string_to_security_class`).

  The loop goes through `p_class_val_to_name` until it meets the name or NULL; no bound is looked
  at. The array is as long as `p_classes.nprim` and nothing follows it. `id` has 16 bits, and
  after 65535 comes 0, for which the entry before the array is read.

  `stringToSecurityClass_iff`: the answer is right, without a read outside of the array, exactly
  when the array holds the name before any NULL, or else a NULL and the class does not exist.
  `stringToSecurityClass_beyond` asks a policy of one class for another.
-/
import SELinux.Db.Types

namespace SELinux.Services

open Db

/-- `STATUS_SUCCESS` with the id, and `STATUS_ERR`. -/
inductive ClassAnswer
  | success (tclass : BitVec 16)
  | err
  deriving DecidableEq, Repr

/-- The array, and what lies around it. -/
def classNameAt (p : Policydb) (around : Int → Option Name) (i : Int) : Option Name :=
  if 0 ≤ i ∧ i < p.pClasses.nprim then p.pClasses.valToName.getD i.toNat none else around i

/-- The loop from `id` on: the indexes it reads and its answer, `none` while it goes on. -/
def searchClass (mem : Int → Option Name) (className : Name) : Nat → BitVec 16 → List Int × Option ClassAnswer
  | 0, _ => ([], none)
  | rounds + 1, id =>
    match mem (id.toNat - 1) with
    | none => ([id.toNat - 1], some .err)
    | some c =>
      if c = className then ([id.toNat - 1], some (.success id))
      else
        let (reads, answer) := searchClass mem className rounds (id + 1#16)
        ((id.toNat - 1) :: reads, answer)

/-- It answers, from the array alone, with the value of the class or the error. -/
def AnswersRight (p : Policydb) (around : Int → Option Name) (className : Name) : Prop :=
  ∃ rounds reads r, searchClass (classNameAt p around) className rounds 1#16 = (reads, some r) ∧
    (∀ i ∈ reads, 0 ≤ i ∧ i < p.pClasses.nprim) ∧
    match p.pClasses.search className with
    | some d => ∃ id, r = .success id ∧ id.toNat = d.value
    | none => r = .err

variable {p : Policydb} {around : Int → Option Name} {className : Name} {k : Nat}

/-- From entry `k` on, the first that is NULL or the name is entry `i`. -/
structure StopsAt (p : Policydb) (className : Name) (k i : Nat) (r : ClassAnswer) : Prop where
  le : k ≤ i
  lt : i < p.pClasses.nprim
  narrow : i < 65535
  others : ∀ j, k ≤ j → j < i → ∃ c, c ≠ className ∧ p.pClasses.valToName[j]? = some (some c)
  at_i : (p.pClasses.valToName[i]? = some (some className) ∧ r = .success (BitVec.ofNat 16 (i + 1))) ∨
    (p.pClasses.valToName[i]? = some none ∧ r = .err)

theorem classNameAt_inside (around : Int → Option Name) (h : k < p.pClasses.nprim) :
    p.pClasses.valToName[k]? = some (classNameAt p around k) := by
  have hk : k < p.pClasses.valToName.length := h
  rw [classNameAt, if_pos (by omega), Int.toNat_natCast, List.getD_eq_getElem?_getD, List.getElem?_eq_getElem hk]
  rfl

theorem id_index (h : k < 65535) : ((BitVec.ofNat 16 (k + 1)).toNat : Int) - 1 = k := by
  rw [BitVec.toNat_ofNat]
  omega

theorem searchClass_stops {rounds : Nat} {reads : List Int} {r : ClassAnswer} (hk : k ≤ 65535)
    (h : searchClass (classNameAt p around) className rounds (BitVec.ofNat 16 (k + 1)) = (reads, some r))
    (hreads : ∀ i ∈ reads, 0 ≤ i ∧ i < p.pClasses.nprim) : ∃ i, StopsAt p className k i r := by
  induction rounds generalizing k reads with
  | zero => cases h
  | succ rounds ih =>
    have hread : (((BitVec.ofNat 16 (k + 1)).toNat : Int) - 1) ∈ reads := by
      simp only [searchClass] at h
      split at h
      · cases h; simp
      · split at h <;> obtain ⟨rfl, -⟩ := Prod.mk.inj h <;> simp
    have hin := hreads _ hread
    rw [BitVec.toNat_ofNat] at hin
    -- the round after the last id reads before the array
    have hlt : k < 65535 := by
      by_contra hge
      obtain rfl : k = 65535 := by omega
      omega
    have hk : k < p.pClasses.nprim := by omega
    have hget := classNameAt_inside around hk
    rw [searchClass, id_index hlt] at h
    split at h
    next hnone =>
      cases h
      exact ⟨k, Nat.le_refl k, hk, hlt, by omega, Or.inr ⟨hget.trans (by rw [hnone]), rfl⟩⟩
    next c hc =>
      rw [hc] at hget
      split at h
      next heq =>
        cases h
        exact ⟨k, Nat.le_refl k, hk, hlt, by omega, Or.inl ⟨heq ▸ hget, rfl⟩⟩
      next hne =>
        obtain ⟨rfl, hr⟩ := Prod.mk.inj h
        rw [← BitVec.ofNat_add] at hr hreads
        obtain ⟨i, hi⟩ := ih (by omega) (Prod.ext rfl hr) (List.forall_mem_cons.mp hreads).2
        refine ⟨i, by have := hi.le; omega, hi.lt, hi.narrow, fun j hj hji => ?_, hi.at_i⟩
        by_cases hjk : j = k
        · exact ⟨c, hne, hjk ▸ hget⟩
        · exact hi.others j (by omega) hji

theorem StopsAt.search {i : Nat} {r : ClassAnswer} (h : StopsAt p className k i r) (around : Int → Option Name) :
    ∃ reads, searchClass (classNameAt p around) className (i - k + 1) (BitVec.ofNat 16 (k + 1)) = (reads, some r) ∧
      ∀ j ∈ reads, 0 ≤ j ∧ j < p.pClasses.nprim := by
  have hle := h.le
  have hlt := h.lt
  have hnarrow := h.narrow
  induction hn : i - k generalizing k with
  | zero =>
    obtain rfl : k = i := by omega
    have hget := classNameAt_inside around hlt
    refine ⟨[(k : Int)], ?_, by simp; omega⟩
    rcases h.at_i with ⟨hname, rfl⟩ | ⟨hnull, rfl⟩
    · rw [searchClass, id_index hnarrow, ← Option.some.inj (hname.symm.trans hget)]
      simp
    · rw [searchClass, id_index hnarrow, ← Option.some.inj (hnull.symm.trans hget)]
  | succ n ih =>
    obtain ⟨c, hne, hc⟩ := h.others k (Nat.le_refl k) (by omega)
    have hget := classNameAt_inside around (show k < p.pClasses.nprim by omega)
    have hnext : StopsAt p className (k + 1) i r := ⟨by omega, hlt, hnarrow, fun j hj => h.others j (by omega), h.at_i⟩
    obtain ⟨reads, hrun, hreads⟩ := ih hnext hnext.le (by omega)
    rw [BitVec.ofNat_add] at hrun
    refine ⟨(k : Int) :: reads, ?_, List.forall_mem_cons.mpr ⟨by omega, hreads⟩⟩
    rw [searchClass, id_index (by omega), ← Option.some.inj (hc.symm.trans hget)]
    simp only [if_neg hne, hrun]

/-- The name stands in the array before any NULL, or a NULL before it and the class does not exist. -/
def ArrayAnswers (p : Policydb) (className : Name) : Prop :=
  ∃ i < 65535, (∀ j < i, ∃ c, c ≠ className ∧ p.pClasses.valToName[j]? = some (some c)) ∧
    (p.pClasses.valToName[i]? = some (some className) ∨
      p.pClasses.valToName[i]? = some none ∧ p.pClasses.search className = none)

theorem stringToSecurityClass_iff (p : Policydb) (around : Int → Option Name) (className : Name) :
    AnswersRight p around className ↔ ArrayAnswers p className := by
  constructor
  · rintro ⟨rounds, reads, r, hrun, hreads, hright⟩
    obtain ⟨i, hi⟩ := searchClass_stops (k := 0) (by omega) hrun hreads
    refine ⟨i, hi.narrow, fun j => hi.others j (Nat.zero_le j), ?_⟩
    rcases hi.at_i with ⟨hname, -⟩ | ⟨hnull, rfl⟩
    · exact Or.inl hname
    · split at hright
      next =>
        obtain ⟨id, hid, -⟩ := hright
        cases hid
      next hnone => exact Or.inr ⟨hnull, hnone⟩
  · rintro ⟨i, hnarrow, hothers, hname | ⟨hnull, hnone⟩⟩
    · have hstop : StopsAt p className 0 i _ :=
        ⟨Nat.zero_le i, (List.getElem?_eq_some_iff.mp hname).1, hnarrow, fun j _ => hothers j, Or.inl ⟨hname, rfl⟩⟩
      obtain ⟨reads, hrun, hreads⟩ := hstop.search around
      obtain ⟨d, hd, hvalue⟩ := p.pClasses.indexed i className hname
      refine ⟨_, reads, _, hrun, hreads, ?_⟩
      rw [Symtab.search, hd]
      exact ⟨_, rfl, by rw [hvalue, BitVec.toNat_ofNat]; omega⟩
    · have hstop : StopsAt p className 0 i _ :=
        ⟨Nat.zero_le i, (List.getElem?_eq_some_iff.mp hnull).1, hnarrow, fun j _ => hothers j, Or.inr ⟨hnull, rfl⟩⟩
      obtain ⟨reads, hrun, hreads⟩ := hstop.search around
      exact ⟨_, reads, _, hrun, hreads, by rw [hnone]⟩

/-- A policy whose only class is `c`. -/
def oneClass : Policydb where
  pClasses :=
    { table := [(['c'], { value := 1 })]
      valToName := [some ['c']]
      indexed := Symtab.indexed_of_indexes (by decide) }

theorem stringToSecurityClass_beyond : ¬∃ around, AnswersRight oneClass around ['d'] := by
  rintro ⟨around, h⟩
  obtain ⟨i, -, hothers, hat⟩ := (stringToSecurityClass_iff _ _ _).mp h
  cases i with
  | zero => simp [oneClass] at hat
  | succ i => simp [oneClass] at hat

end SELinux.Services
