/-
  SELinux.Lib.Once — lists of results, one for each key.

  A result is entered unless its key is there with an equal one; a different one is an error.
  `addAll_spec`: entering a list fails exactly if two results of one key differ, and otherwise leaves one
  result for each key, those of the list and those that were there.
-/
import Mathlib

namespace SELinux.Lib.Once

open List

variable {κ ν : Type} [DecidableEq κ] {out : List (κ × ν)}

/-- The list is searched, and extended at the front or at the end. -/
def add (same : ν → ν → Bool) (front : Bool) (out : List (κ × ν)) (e : κ × ν) : Option (List (κ × ν)) :=
  match out.find? fun o => o.1 == e.1 with
  | some old => if same old.2 e.2 then some out else none
  | none => some (if front then e :: out else out ++ [e])

/-- One result for each key. -/
def Unique (out : List (κ × ν)) : Prop := (out.map Prod.fst).Nodup

/-- Results of one key are equal. -/
def Agree (l : List (κ × ν)) : Prop := ∀ e ∈ l, ∀ e' ∈ l, e.1 = e'.1 → e = e'

omit [DecidableEq κ] in
theorem Unique.agree (h : Unique out) : Agree out :=
  fun _ he _ he' heq => inj_on_of_nodup_map h he he' heq

variable {same : ν → ν → Bool} (hsame : ∀ a b, same a b = true ↔ a = b)
include hsame

theorem add_spec (hu : Unique out) (front : Bool) (e : κ × ν) :
    (add same front out e = none ∧ ∃ x ∈ out, x.1 = e.1 ∧ x ≠ e) ∨
      ∃ out', add same front out e = some out' ∧ Unique out' ∧ ∀ x, x ∈ out' ↔ x ∈ out ∨ x = e := by
  unfold add
  split
  next old hold =>
    have hmem := mem_of_find?_eq_some hold
    have hkey : old.1 = e.1 := by simpa using find?_some hold
    split
    next heq =>
      have holde : old = e := Prod.ext hkey ((hsame _ _).mp heq)
      exact Or.inr ⟨out, rfl, hu, fun x => (or_iff_left_of_imp fun hx => hx ▸ holde ▸ hmem).symm⟩
    next hne =>
      exact Or.inl ⟨rfl, old, hmem, hkey, fun holde => hne ((hsame _ _).mpr (congrArg Prod.snd holde))⟩
  next hnone =>
    have hnew : e.1 ∉ out.map Prod.fst := by
      intro hmem
      obtain ⟨x, hx, hkey⟩ := mem_map.mp hmem
      exact find?_eq_none.mp hnone x hx (beq_iff_eq.mpr hkey)
    have hcons : Unique (e :: out) := nodup_cons.mpr ⟨hnew, hu⟩
    refine Or.inr ⟨_, rfl, ?_, ?_⟩
    · cases front with
      | true => exact hcons
      | false => exact ((perm_append_singleton e out).map Prod.fst).nodup_iff.mpr hcons
    · intro x
      cases front <;> simp [or_comm]

theorem addAll_spec {l out : List (κ × ν)} (hu : Unique out) (front : Bool) :
    ((∃ out', l.foldlM (add same front) out = some out') ↔ Agree (out ++ l)) ∧
      ∀ out', l.foldlM (add same front) out = some out' → Unique out' ∧ ∀ x, x ∈ out' ↔ x ∈ out ∨ x ∈ l := by
  induction l generalizing out with
  | nil =>
    refine ⟨iff_of_true ⟨out, rfl⟩ (by rw [append_nil]; exact hu.agree), fun out' h => ?_⟩
    cases h
    exact ⟨hu, by simp⟩
  | cons e l ih =>
    rw [foldlM_cons]
    rcases add_spec hsame hu front e with ⟨hnone, x, hx, hkey, hne⟩ | ⟨out1, hout1, hu1, hmem1⟩
    · rw [hnone]
      exact ⟨iff_of_false nofun fun ha => hne (ha x (mem_append_left _ hx) e (by simp) hkey), nofun⟩
    · obtain ⟨hiff, hout⟩ := ih hu1
      have hmem : ∀ x, x ∈ out1 ++ l ↔ x ∈ out ++ e :: l := fun x => by simp [hmem1, or_assoc]
      rw [hout1]
      refine ⟨hiff.trans ?_, fun out' h => ?_⟩
      · unfold Agree
        simp only [hmem]
      · obtain ⟨hu', hmem'⟩ := hout out' h
        exact ⟨hu', fun x => by rw [hmem', hmem1, mem_cons, or_assoc]⟩

/-- What entering a list, if there is one, gives. -/
structure Entered (out : List (κ × ν)) (l? res : Option (List (κ × ν))) : Prop where
  succeeds : (∃ out', res = some out') ↔ ∃ l, l? = some l ∧ Agree (out ++ l)
  result : ∀ out', res = some out' → ∃ l, l? = some l ∧ Unique out' ∧ ∀ x, x ∈ out' ↔ x ∈ out ∨ x ∈ l

theorem entered (hu : Unique out) (front : Bool) (l? : Option (List (κ × ν))) :
    Entered out l? (l?.bind fun l => l.foldlM (add same front) out) := by
  cases l? with
  | none => exact ⟨iff_of_false nofun nofun, nofun⟩
  | some l =>
    obtain ⟨hiff, hout⟩ := addAll_spec hsame hu front (l := l)
    refine ⟨hiff.trans ?_, fun out' h => ⟨l, rfl, hout out' h⟩⟩
    simp

end SELinux.Lib.Once
