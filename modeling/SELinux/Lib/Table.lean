/-
  SELinux.Lib.Table — tables of unique keys, kept in an order of the keys.

  A table lists its entries in the order in which they are visited; an insertion walks to the
  place of its key and fails if the key is there. A hash table with ordered buckets is one of
  these: its order is the bucket first, the key next.

  A value a search finds is in the table (`mem_of_search`); an insertion adds its entry and
  nothing else (`mem_insertWalk`).
-/
import Mathlib

namespace SELinux.Lib

open List

/-- A strict total order that is decided. -/
structure KeyOrder (κ : Type) where
  lt : κ → κ → Bool
  irrefl : ∀ a, lt a a = false
  trans : ∀ a b c, lt a b = true → lt b c = true → lt a c = true
  total : ∀ a b, a ≠ b → lt a b = true ∨ lt b a = true

/-- Entries in the order of their keys. -/
structure Table {κ : Type} (o : KeyOrder κ) (α : Type) where
  entries : List (κ × α) := []
  sorted : entries.Pairwise fun a b => o.lt a.1 b.1 = true := by simp

namespace Table

variable {κ α : Type} {o : KeyOrder κ}

def empty : Table o α := {}

variable [DecidableEq κ]

/-- The walk to the place of a key. -/
def insertWalk (o : KeyOrder κ) (k : κ) (a : α) : List (κ × α) → Option (List (κ × α))
  | [] => some [(k, a)]
  | e :: l =>
    if o.lt e.1 k then (insertWalk o k a l).map (e :: ·)
    else if e.1 = k then none
    else some ((k, a) :: e :: l)

def searchWalk (o : KeyOrder κ) (k : κ) : List (κ × α) → Option α
  | [] => none
  | e :: l => if o.lt e.1 k then searchWalk o k l else if e.1 = k then some e.2 else none

def search (t : Table o α) (k : κ) : Option α := searchWalk o k t.entries

theorem mem_of_search {t : Table o α} {k : κ} {a : α} (h : t.search k = some a) : (k, a) ∈ t.entries := by
  rw [search] at h
  generalize t.entries = l at h
  fun_induction searchWalk o k l with
  | case1 | case4 => cases h
  | case2 e l _ ih => exact mem_cons_of_mem e (ih h)
  | case3 e l _ hk =>
    cases h
    cases hk
    exact mem_cons_self

theorem mem_insertWalk {k : κ} {a : α} {l l' : List (κ × α)} (h : insertWalk o k a l = some l') (x : κ × α) :
    x ∈ l' ↔ x = (k, a) ∨ x ∈ l := by
  fun_induction insertWalk o k a l generalizing l' with
  | case1 =>
    cases h
    simp
  | case2 e l _ ih =>
    obtain ⟨r, hr, rfl⟩ := Option.map_eq_some_iff.mp h
    rw [mem_cons, ih hr, mem_cons, or_left_comm]
  | case3 => cases h
  | case4 =>
    cases h
    rw [mem_cons]

theorem sorted_insertWalk {k : κ} {a : α} {l l' : List (κ × α)} (hl : l.Pairwise fun a b => o.lt a.1 b.1 = true)
    (h : insertWalk o k a l = some l') : l'.Pairwise fun a b => o.lt a.1 b.1 = true := by
  fun_induction insertWalk o k a l generalizing l' with
  | case1 =>
    cases h
    exact pairwise_singleton _ _
  | case2 e l hlt ih =>
    obtain ⟨hhead, htail⟩ := pairwise_cons.mp hl
    obtain ⟨r, hr, rfl⟩ := Option.map_eq_some_iff.mp h
    refine pairwise_cons.mpr ⟨?_, ih htail hr⟩
    intro x hx
    rcases (mem_insertWalk hr x).mp hx with rfl | hx
    · exact hlt
    · exact hhead x hx
  | case3 => cases h
  | case4 e l hge hne =>
    cases h
    have hk : o.lt k e.1 = true := (o.total e.1 k hne).resolve_left hge
    refine pairwise_cons.mpr ⟨?_, hl⟩
    intro x hx
    rcases mem_cons.mp hx with rfl | hx
    · exact hk
    · exact o.trans k e.1 x.1 hk ((pairwise_cons.mp hl).1 x hx)

def insert (t : Table o α) (k : κ) (a : α) : Option (Table o α) :=
  match h : insertWalk o k a t.entries with
  | some entries => some ⟨entries, sorted_insertWalk t.sorted h⟩
  | none => none

/-- Other values for the same keys. -/
def map {β : Type} (f : α → β) (t : Table o α) : Table o β where
  entries := t.entries.map fun e => (e.1, f e.2)
  sorted := List.pairwise_map.mpr t.sorted

end Table

end SELinux.Lib
