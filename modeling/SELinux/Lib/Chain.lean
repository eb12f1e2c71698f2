/-
  SELinux.Lib.Chain — searching and extending an ordered chain.

  A chain is a list walked from its head. A search looks for a hit and gives up at
  the first element that stops it; a walk goes on from each hit to the next one; an
  insertion puts its element before the first one that stops it. Nothing is said of
  the elements: a hash bucket kept in key order and a list kept in id order are both
  chains.

  - `visits_eq_filter`: when no hit follows a stop, the walk meets every hit.
  - `search_eq_nil_iff`: the search then fails only when there is no hit.
  - `pairwise_insertBefore`: an insertion between smaller and larger elements keeps
    the order.
-/
import Mathlib

namespace SELinux.Lib.Chain

open List

variable {α : Type} (hit stop : α → Bool)

/-- The chain from its first hit on; `[]` when the search stops or runs out. -/
def search : List α → List α
  | [] => []
  | a :: l => if hit a then a :: l else if stop a then [] else search l

/-- The elements met by a search continued after each hit. -/
def visits : List α → List α
  | [] => []
  | a :: l => if hit a then a :: visits l else if stop a then [] else visits l

/-- Put `x` before the first element that stops the walk. -/
def insertBefore (x : α) : List α → List α
  | [] => [x]
  | a :: l => if stop a then x :: a :: l else a :: insertBefore x l

/-- No hit follows a stop. -/
def Ordered (l : List α) : Prop := l.Pairwise fun a b => stop a = true → hit b = false

variable {hit stop}

/-- One search, then the walk from behind its result: the loop `visits` stands for. -/
theorem visits_eq_search (l : List α) :
    visits hit stop l = match search hit stop l with
      | [] => []
      | a :: l' => a :: visits hit stop l' := by
  induction l with
  | nil => rfl
  | cons a l ih =>
    simp only [visits, search]
    split
    · rfl
    · split
      · rfl
      · exact ih

variable {l : List α}

theorem visits_eq_filter (h : Ordered hit stop l) : visits hit stop l = l.filter hit := by
  induction l with
  | nil => rfl
  | cons a l ih =>
    obtain ⟨ha, hl⟩ := pairwise_cons.mp h
    simp only [visits]
    by_cases hh : hit a = true
    · rw [if_pos hh, filter_cons_of_pos hh, ih hl]
    · rw [if_neg hh, filter_cons_of_neg hh]
      by_cases hs : stop a = true
      · rw [if_pos hs, filter_eq_nil_iff.mpr]
        intro b hb; simp [ha b hb hs]
      · rw [if_neg hs, ih hl]

/-- The first element of the walk is the first element of the search. -/
theorem head?_visits (l : List α) : (visits hit stop l).head? = (search hit stop l).head? := by
  rw [visits_eq_search]
  cases search hit stop l <;> rfl

theorem search_eq_nil_iff (h : Ordered hit stop l) : search hit stop l = [] ↔ ∀ a ∈ l, hit a = false := by
  have hv : (visits hit stop l).head? = (search hit stop l).head? := head?_visits l
  rw [visits_eq_filter h] at hv
  constructor
  · intro hn a ha
    rw [hn] at hv
    have : l.filter hit = [] := List.head?_eq_none_iff.mp hv
    simpa using filter_eq_nil_iff.mp this a ha
  · intro hn
    have : l.filter hit = [] := filter_eq_nil_iff.mpr fun a ha => by simp [hn a ha]
    rw [this] at hv
    exact List.head?_eq_none_iff.mp hv.symm

/-- What a search returns starts with a hit of the chain. -/
theorem search_cons {a : α} {l' : List α} (h : search hit stop l = a :: l') : hit a = true ∧ a ∈ l := by
  induction l with
  | nil => cases h
  | cons b l ih =>
    simp only [search] at h
    split at h
    · cases h; exact ⟨‹_›, mem_cons_self⟩
    · split at h
      · cases h
      · exact ⟨(ih h).1, mem_cons_of_mem _ (ih h).2⟩

theorem insertBefore_perm (x : α) (l : List α) : (insertBefore stop x l).Perm (x :: l) := by
  induction l with
  | nil => exact List.Perm.refl _
  | cons a l ih =>
    simp only [insertBefore]
    split
    · exact List.Perm.refl _
    · exact (ih.cons a).trans (List.Perm.swap x a l)

variable {x : α}

@[simp] theorem mem_insertBefore {b : α} : b ∈ insertBefore stop x l ↔ b = x ∨ b ∈ l := by
  rw [(insertBefore_perm x l).mem_iff, mem_cons]

theorem pairwise_insertBefore {R : α → α → Prop} (tr : ∀ {a b c}, R a b → R b c → R a c) (hl : l.Pairwise R)
    (before : ∀ a ∈ l, stop a = false → R a x) (after : ∀ a ∈ l, stop a = true → R x a) :
    (insertBefore stop x l).Pairwise R := by
  induction l with
  | nil => simp [insertBefore]
  | cons a l ih =>
    obtain ⟨ha, hl⟩ := pairwise_cons.mp hl
    simp only [insertBefore]
    by_cases hs : stop a = true
    · rw [if_pos hs]
      have hxa := after a mem_cons_self hs
      refine pairwise_cons.mpr ⟨?_, pairwise_cons.mpr ⟨ha, hl⟩⟩
      intro b hb
      rcases mem_cons.mp hb with rfl | hb
      · exact hxa
      · exact tr hxa (ha b hb)
    · rw [if_neg hs]
      refine pairwise_cons.mpr ⟨fun b hb => ?_, ih hl (fun b hb => before b (mem_cons_of_mem _ hb))
        (fun b hb => after b (mem_cons_of_mem _ hb))⟩
      rcases mem_insertBefore.mp hb with rfl | hb
      · exact before a mem_cons_self (by simpa using hs)
      · exact ha b hb

/-- What is put before the first hit is the first hit. -/
theorem filter_insertBefore (hx : hit x = true) (h : ∀ a ∈ l, hit a = true → stop a = true) :
    (insertBefore stop x l).filter hit = x :: l.filter hit := by
  induction l with
  | nil => simp [insertBefore, hx]
  | cons a l ih =>
    obtain ⟨ha, hl⟩ := forall_mem_cons.mp h
    rw [insertBefore]
    split
    · rw [filter_cons_of_pos hx]
    next hstop =>
      have hmiss : ¬hit a = true := fun hhit => hstop (ha hhit)
      rw [filter_cons_of_neg hmiss, filter_cons_of_neg hmiss, ih hl]

theorem filter_insertBefore_of_not (hx : ¬hit x = true) (l : List α) :
    (insertBefore stop x l).filter hit = l.filter hit := by
  induction l with
  | nil => simp [insertBefore, hx]
  | cons a l ih =>
    rw [insertBefore]
    split
    · rw [filter_cons_of_neg hx]
    · rw [filter_cons, filter_cons, ih]

end SELinux.Lib.Chain
