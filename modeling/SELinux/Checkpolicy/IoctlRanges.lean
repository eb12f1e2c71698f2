/-
  SELinux.Checkpolicy.IoctlRanges — the ioctl commands written in an extended permission rule
  (`checkpolicy/policy_define.c`: `avrule_ioctl_ranges` and what it calls).

  The ranges written in a rule are read from the queue of identifiers, sorted, merged and, if there
  is a `~`, flipped. Sorting and merging keep the set. `avrule_omit_ioctls` fills the gaps before,
  between and after the ranges, and expects one after the last: if the only range starts at 0, the
  new head keeps its upper bound 0; if the last range ends at 0xffff, its successor wraps to 0 and
  the new tail is everything.

  `avruleIoctlRanges_exact_iff`: in all other cases the ranges are sorted, disjoint and exact.
-/
import Mathlib

namespace SELinux.Checkpolicy

open List

/-! ## Ranges -/

/-- `av_ioctl_range_t` -/
structure IoctlRange where
  low : BitVec 16
  high : BitVec 16
  deriving DecidableEq, Repr

variable {l : List IoctlRange} {r : IoctlRange} {c : Nat}

namespace IoctlRange

def Formed (r : IoctlRange) : Prop := r.low.toNat ≤ r.high.toNat

def Has (r : IoctlRange) (c : Nat) : Prop := r.low.toNat ≤ c ∧ c ≤ r.high.toNat

end IoctlRange

/-- Some range has the command. -/
def Covers (l : List IoctlRange) (c : Nat) : Prop := ∃ r ∈ l, r.Has c

@[simp] theorem covers_nil (c : Nat) : ¬Covers [] c := by simp [Covers]

theorem covers_cons : Covers (r :: l) c ↔ r.Has c ∨ Covers l c := by simp [Covers]

/-- An element of `id_queue`; `value` has what `strtoul` makes of it, which is 0 for the other two. -/
inductive IoctlId
  | tilde
  | dash
  | value (n : Nat)
  deriving DecidableEq, Repr

def IoctlId.strtoul : IoctlId → Nat
  | value n => n
  | _ => 0

inductive IoctlError
  /-- "Ioctl ranges must be in ascending order." -/
  | order
  /-- A null pointer is followed: a `-` without bounds, or no range at all. -/
  | fault
  deriving DecidableEq, Repr

/-- The loop of `avrule_read_ioctls`; the range read last is the first of `l`. -/
def readIoctls : List IoctlId → Bool → List IoctlRange → Except IoctlError (Bool × List IoctlRange)
  | [], omitted, l => if l = [] then .error .fault else .ok (omitted, l.reverse)
  | .tilde :: ids, _, l => readIoctls ids true l
  | .dash :: id :: ids, omitted, r :: l =>
    let high := BitVec.ofNat 16 id.strtoul
    if high < r.low then .error .order else readIoctls ids omitted ({ r with high } :: l)
  | .dash :: _, _, _ => .error .fault
  | .value n :: ids, omitted, l => readIoctls ids omitted (⟨BitVec.ofNat 16 n, BitVec.ofNat 16 n⟩ :: l)

/-- `avrule_read_ioctls` -/
def avruleReadIoctls (ids : List IoctlId) : Except IoctlError (Bool × List IoctlRange) := readIoctls ids false []

/-- The walk of `r2` to the place of a range; `front` is what it has passed. -/
def sortWalk (x : IoctlRange) (front : List IoctlRange) : List IoctlRange → List IoctlRange
  | [] => front
  | [r2] => if x.low < r2.low then [x, r2] else front ++ [r2, x]
  | r2 :: r3 :: rest =>
    -- the range becomes the head, and what was passed is not in the list any more
    if x.low < r2.low then x :: r2 :: r3 :: rest
    else if x.low < r3.low then front ++ r2 :: x :: r3 :: rest
    else sortWalk x (front ++ [r2]) (r3 :: rest)

def sortInsert (sorted : List IoctlRange) (x : IoctlRange) : List IoctlRange :=
  if sorted = [] then [x] else sortWalk x [] sorted

/-- `avrule_sort_ioctls` -/
def avruleSortIoctls (l : List IoctlRange) : List IoctlRange := l.foldl sortInsert []

def mergeFrom (r : IoctlRange) : List IoctlRange → List IoctlRange
  | [] => [r]
  | next :: rest =>
    if next.low.toNat ≤ r.high.toNat + 1 then mergeFrom (if r.high < next.high then { r with high := next.high } else r) rest
    else r :: mergeFrom next rest

/-- `avrule_merge_ioctls` -/
def avruleMergeIoctls : List IoctlRange → List IoctlRange
  | [] => []
  | r :: rest => mergeFrom r rest

/-- The loop of `avrule_omit_ioctls`; `r2` is the node that is being filled. -/
def omitFrom (r2 : IoctlRange) : List IoctlRange → List IoctlRange
  | [] => [r2]
  | r :: rest => { r2 with high := r.low - 1 } :: omitFrom ⟨r.high + 1, if rest = [] then 0xffff else 0⟩ rest

/-- `avrule_omit_ioctls`; its argument is never empty. -/
def avruleOmitIoctls : List IoctlRange → List IoctlRange
  | [] => []
  | r :: rest => if r.low = 0 then omitFrom ⟨r.high + 1, 0⟩ rest else omitFrom ⟨0, 0⟩ (r :: rest)

/-- `avrule_ioctl_ranges` -/
def avruleIoctlRanges (ids : List IoctlId) : Except IoctlError (List IoctlRange) := do
  let (omitted, l) ← avruleReadIoctls ids
  let l := avruleMergeIoctls (avruleSortIoctls l)
  return if omitted then avruleOmitIoctls l else l

/-! ## What is written -/

/-- `nested_xperm_element` of the grammar -/
inductive XpermElement
  | one (n : Nat)
  | range (low high : Nat)

variable {es : List XpermElement}

namespace XpermElement

def ids : XpermElement → List IoctlId
  | one n => [.value n]
  | range low high => [.value low, .dash, .value high]

def low : XpermElement → Nat
  | one n => n
  | range low _ => low

def high : XpermElement → Nat
  | one n => n
  | range _ high => high

def Fits (e : XpermElement) : Prop := e.low ≤ e.high ∧ e.high ≤ 0xffff

def toRange (e : XpermElement) : IoctlRange := ⟨BitVec.ofNat 16 e.low, BitVec.ofNat 16 e.high⟩

end XpermElement

/-- The queue for `xperms`; the `~` comes after the elements. -/
def xpermQueue (omitted : Bool) (es : List XpermElement) : List IoctlId :=
  es.flatMap XpermElement.ids ++ if omitted then [.tilde] else []

/-- The command is written. -/
def Writes (es : List XpermElement) (c : Nat) : Prop := ∃ e ∈ es, e.low ≤ c ∧ c ≤ e.high

/-- Sorted and disjoint ranges for what is written, or for its complement. -/
structure Exact (omitted : Bool) (es : List XpermElement) (l : List IoctlRange) : Prop where
  formed : ∀ r ∈ l, r.Formed
  sorted : l.Pairwise fun a b => a.high.toNat < b.low.toNat
  denotes : ∀ c ≤ 0xffff, Covers l c ↔ (Writes es c ↔ omitted = false)

theorem XpermElement.toRange_has {e : XpermElement} (he : e.Fits) (c : Nat) : e.toRange.Has c ↔ e.low ≤ c ∧ c ≤ e.high := by
  obtain ⟨h1, h2⟩ := he
  unfold toRange IoctlRange.Has
  rw [BitVec.toNat_ofNat, BitVec.toNat_ofNat, Nat.mod_eq_of_lt (by omega), Nat.mod_eq_of_lt (by omega)]

theorem XpermElement.toRange_formed {e : XpermElement} (he : e.Fits) : e.toRange.Formed := by
  have := (toRange_has he e.high).mpr ⟨he.1, Nat.le_refl _⟩
  exact Nat.le_trans this.1 this.2

theorem readIoctls_elements (es : List XpermElement) (hes : ∀ e ∈ es, e.Fits) (tail : List IoctlId) (omitted : Bool)
    (l : List IoctlRange) :
    readIoctls (es.flatMap XpermElement.ids ++ tail) omitted l =
      readIoctls tail omitted ((es.map XpermElement.toRange).reverse ++ l) := by
  induction es generalizing l with
  | nil => rfl
  | cons e es ih =>
    obtain ⟨he, hes⟩ := forall_mem_cons.mp hes
    rw [map_cons, reverse_cons, append_assoc, singleton_append, ← ih hes (e.toRange :: l)]
    cases e with
    | one n => rfl
    | range low high =>
      have hnot : ¬BitVec.ofNat 16 high < BitVec.ofNat 16 low := by
        have := XpermElement.toRange_formed he
        exact Nat.not_lt.mpr this
      exact if_neg hnot

theorem avruleReadIoctls_queue (hne : es ≠ []) (hes : ∀ e ∈ es, e.Fits) (omitted : Bool) :
    avruleReadIoctls (xpermQueue omitted es) = .ok (omitted, es.map XpermElement.toRange) := by
  rw [avruleReadIoctls, xpermQueue, readIoctls_elements es hes]
  cases omitted <;> simp [readIoctls, hne]

theorem avruleIoctlRanges_queue (hne : es ≠ []) (hes : ∀ e ∈ es, e.Fits) (omitted : Bool) :
    avruleIoctlRanges (xpermQueue omitted es) =
      let l := avruleMergeIoctls (avruleSortIoctls (es.map XpermElement.toRange))
      .ok (if omitted then avruleOmitIoctls l else l) := by
  rw [avruleIoctlRanges, avruleReadIoctls_queue hne hes]
  rfl

theorem covers_toRange (hes : ∀ e ∈ es, e.Fits) (c : Nat) : Covers (es.map XpermElement.toRange) c ↔ Writes es c := by
  constructor
  · intro h
    obtain ⟨r, hr, hc⟩ := h
    obtain ⟨e, he, rfl⟩ := mem_map.mp hr
    exact ⟨e, he, (XpermElement.toRange_has (hes e he) c).mp hc⟩
  · intro h
    obtain ⟨e, he, hc⟩ := h
    exact ⟨_, mem_map_of_mem he, (XpermElement.toRange_has (hes e he) c).mpr hc⟩

/-! ## Sorting and merging -/

/-- The walk puts the range before the first one that starts later. -/
theorem sortWalk_eq (x : IoctlRange) (front : List IoctlRange) (r2 : IoctlRange) (rest : List IoctlRange)
    (h : front = [] ∨ ¬x.low < r2.low) :
    sortWalk x front (r2 :: rest) = front ++ (r2 :: rest).orderedInsert (fun a b => a.low < b.low) x := by
  have hhead : x.low < r2.low → front = [] := fun hlt => h.resolve_right (not_not_intro hlt)
  induction rest generalizing front r2 with
  | nil =>
    rw [sortWalk, orderedInsert_cons]
    split_ifs with hlt
    · rw [hhead hlt]
      rfl
    · rfl
  | cons r3 rest ih =>
    rw [sortWalk, orderedInsert_cons]
    split_ifs with hlt hlt3
    · rw [hhead hlt]
      rfl
    · rw [orderedInsert_cons, if_pos hlt3]
    · rw [ih _ _ (Or.inr hlt3) (absurd · hlt3), append_assoc]
      rfl

theorem sortInsert_eq (l : List IoctlRange) (x : IoctlRange) :
    sortInsert l x = l.orderedInsert (fun a b => a.low < b.low) x := by
  cases l with
  | nil => rfl
  | cons r2 rest => exact sortWalk_eq x [] r2 rest (Or.inl rfl)

def SortedByLow (l : List IoctlRange) : Prop := l.Pairwise fun a b => a.low.toNat ≤ b.low.toNat

theorem sortedByLow_insert (hl : SortedByLow l) (x : IoctlRange) : SortedByLow (sortInsert l x) := by
  rw [sortInsert_eq]
  induction l with
  | nil => exact pairwise_singleton _ _
  | cons r l ih =>
    obtain ⟨hr, hl'⟩ := pairwise_cons.mp hl
    rw [orderedInsert_cons]
    by_cases hlt : x.low < r.low
    · rw [if_pos hlt]
      have hlt' : x.low.toNat < r.low.toNat := hlt
      refine pairwise_cons.mpr ⟨?_, hl⟩
      intro b hb
      rcases mem_cons.mp hb with rfl | hb
      · omega
      · have := hr b hb
        omega
    · rw [if_neg hlt]
      refine pairwise_cons.mpr ⟨?_, ih hl'⟩
      intro b hb
      rcases mem_cons.mp ((perm_orderedInsert _ x l).mem_iff.mp hb) with rfl | hb
      · exact Nat.le_of_not_lt hlt
      · exact hr b hb

theorem avruleSortIoctls_spec (l : List IoctlRange) : (avruleSortIoctls l).Perm l ∧ SortedByLow (avruleSortIoctls l) := by
  have hloop : ∀ (l s : List IoctlRange), SortedByLow s → (l.foldl sortInsert s).Perm (s ++ l) ∧
      SortedByLow (l.foldl sortInsert s) := by
    intro l
    induction l with
    | nil =>
      intro s hs
      exact ⟨by rw [append_nil, foldl_nil], hs⟩
    | cons x l ih =>
      intro s hs
      obtain ⟨hperm, hsorted⟩ := ih _ (sortedByLow_insert hs x)
      refine ⟨hperm.trans ?_, hsorted⟩
      rw [sortInsert_eq]
      exact ((perm_orderedInsert _ x s).append_right l).trans perm_middle.symm
  exact hloop l [] List.Pairwise.nil

/-- Ranges with at least one command between any two. -/
structure Gapped (l : List IoctlRange) : Prop where
  formed : ∀ r ∈ l, r.Formed
  apart : l.Pairwise fun a b => a.high.toNat + 1 < b.low.toNat

theorem mergeFrom_spec (r : IoctlRange) (l : List IoctlRange) (hr : r.Formed) (hl : ∀ x ∈ l, x.Formed)
    (hsorted : SortedByLow (r :: l)) :
    Gapped (mergeFrom r l) ∧ (∀ x ∈ mergeFrom r l, r.low.toNat ≤ x.low.toNat) ∧
      ∀ c, Covers (mergeFrom r l) c ↔ Covers (r :: l) c := by
  induction l generalizing r with
  | nil =>
    refine ⟨⟨forall_mem_singleton.mpr hr, pairwise_singleton _ _⟩, forall_mem_singleton.mpr (Nat.le_refl _),
      fun c => Iff.rfl⟩
  | cons next l ih =>
    obtain ⟨hnext, hl'⟩ := forall_mem_cons.mp hl
    obtain ⟨hlow, hsorted'⟩ := pairwise_cons.mp hsorted
    obtain ⟨hlow', hsorted''⟩ := pairwise_cons.mp hsorted'
    have hrn := hlow next mem_cons_self
    unfold IoctlRange.Formed at hr hnext
    rw [mergeFrom]
    by_cases htouch : next.low.toNat ≤ r.high.toNat + 1
    · rw [if_pos htouch]
      generalize hm : (if r.high < next.high then { r with high := next.high } else r : IoctlRange) = m
      have hmlow : m.low = r.low := by
        rw [← hm]
        split <;> rfl
      have hmhigh : m.high.toNat = max r.high.toNat next.high.toNat := by
        rw [← hm]
        split
        next hlt =>
          exact (Nat.max_eq_right (Nat.le_of_lt hlt)).symm
        next hlt =>
          exact (Nat.max_eq_left (Nat.le_of_not_lt hlt)).symm
      have hmformed : m.Formed := by
        unfold IoctlRange.Formed
        rw [hmlow]
        omega
      have hmsorted : SortedByLow (m :: l) := by
        refine pairwise_cons.mpr ⟨?_, hsorted''⟩
        intro x hx
        rw [hmlow]
        exact hlow x (mem_cons_of_mem _ hx)
      obtain ⟨hgapped, hlows, hcovers⟩ := ih m hmformed hl' hmsorted
      refine ⟨hgapped, by rwa [hmlow] at hlows, ?_⟩
      intro c
      rw [hcovers, covers_cons, covers_cons, covers_cons, ← or_assoc]
      refine or_congr_left ?_
      unfold IoctlRange.Has
      rw [hmlow]
      omega
    · rw [if_neg htouch]
      obtain ⟨hgapped, hlows, hcovers⟩ := ih next hnext hl' hsorted'
      refine ⟨⟨forall_mem_cons.mpr ⟨hr, hgapped.formed⟩, pairwise_cons.mpr ⟨?_, hgapped.apart⟩⟩, ?_, ?_⟩
      · intro x hx
        have := hlows x hx
        omega
      · intro x hx
        rcases mem_cons.mp hx with rfl | hx
        · exact Nat.le_refl _
        · exact Nat.le_trans hrn (hlows x hx)
      · intro c
        rw [covers_cons, hcovers, covers_cons, covers_cons, covers_cons]

theorem merged_spec (hl : ∀ r ∈ l, r.Formed) :
    Gapped (avruleMergeIoctls (avruleSortIoctls l)) ∧
      ∀ c, Covers (avruleMergeIoctls (avruleSortIoctls l)) c ↔ Covers l c := by
  obtain ⟨hperm, hsorted⟩ := avruleSortIoctls_spec l
  have hcovers : ∀ c, Covers (avruleSortIoctls l) c ↔ Covers l c := by
    intro c
    simp only [Covers, hperm.mem_iff]
  have hformed : ∀ r ∈ avruleSortIoctls l, r.Formed := fun r hr => hl r (hperm.mem_iff.mp hr)
  cases hs : avruleSortIoctls l with
  | nil =>
    rw [hs] at hcovers
    exact ⟨⟨forall_mem_nil _, List.Pairwise.nil⟩, hcovers⟩
  | cons r rest =>
    rw [hs] at hformed hsorted hcovers
    obtain ⟨hr, hrest⟩ := forall_mem_cons.mp hformed
    obtain ⟨hgapped, -, hmerged⟩ := mergeFrom_spec r rest hr hrest hsorted
    exact ⟨hgapped, fun c => (hmerged c).trans (hcovers c)⟩

/-! ## Flipping -/

theorem Gapped.tail (h : Gapped (r :: l)) : Gapped l :=
  ⟨(forall_mem_cons.mp h.formed).2, (pairwise_cons.mp h.apart).2⟩

/-- The ranges behind the first one start past it. -/
theorem Gapped.low_of_covers (h : Gapped (r :: l)) (hc : Covers l c) : r.high.toNat + 1 < c := by
  obtain ⟨x, hx, hlow, -⟩ := hc
  have := (pairwise_cons.mp h.apart).1 x hx
  omega

theorem toNat_add_one {x : BitVec 16} (h : x.toNat < 0xffff) : (x + 1).toNat = x.toNat + 1 := by
  have hone : (1 : BitVec 16).toNat = 1 := rfl
  rw [BitVec.toNat_add]
  omega

/-- The ranges of `t` are what `l` leaves free from `low` on. -/
structure Fills (low : Nat) (l t : List IoctlRange) : Prop where
  formed : ∀ x ∈ t, x.Formed
  above : ∀ x ∈ t, low ≤ x.low.toNat
  sorted : t.Pairwise fun a b => a.high.toNat < b.low.toNat
  denotes : ∀ c ≤ 0xffff, Covers t c ↔ low ≤ c ∧ ¬Covers l c

/-- One more range, before those of `l`. -/
theorem Fills.cons {r2 r : IoctlRange} {l t : List IoctlRange} (h : Fills (r.high.toNat + 1) l t) (hl : Gapped (r :: l))
    (hlow : r2.low.toNat < r.low.toNat) : Fills r2.low.toNat (r :: l) ({ r2 with high := r.low - 1 } :: t) := by
  have hr : r.low.toNat ≤ r.high.toNat := hl.formed r mem_cons_self
  have hpred : (r.low - 1).toNat = r.low.toNat - 1 := BitVec.toNat_sub_of_le (Nat.one_le_of_lt hlow)
  refine ⟨forall_mem_cons.mpr ⟨?_, h.formed⟩, forall_mem_cons.mpr ⟨Nat.le_refl _, ?_⟩, pairwise_cons.mpr ⟨?_, h.sorted⟩, ?_⟩
  · show r2.low.toNat ≤ (r.low - 1).toNat
    omega
  · intro x hx
    have := h.above x hx
    omega
  · intro x hx
    have := h.above x hx
    show (r.low - 1).toNat < x.low.toNat
    omega
  · intro c hc
    have hpast : Covers l c → r.high.toNat + 1 < c := hl.low_of_covers
    rw [covers_cons, h.denotes c hc, covers_cons, IoctlRange.Has, IoctlRange.Has]
    by_cases hcl : Covers l c
    · have := hpast hcl
      simp only [hcl, not_true_eq_false, and_false, or_true, or_false, iff_false]
      omega
    · simp only [hcl, not_false_eq_true, and_true, or_false]
      omega

theorem high_lt_of_not_covers (hlast : ¬Covers (r :: l) 0xffff) : r.high.toNat < 0xffff := by
  simp only [covers_cons, IoctlRange.Has, not_or] at hlast
  omega

/-- Where the last range stops short of 0xffff, the gaps are filled from the start of `r2` on. -/
theorem fills_omitFrom (r2 r : IoctlRange) (l : List IoctlRange) (hl : Gapped (r :: l)) (hlow : r2.low.toNat < r.low.toNat)
    (hlast : ¬Covers (r :: l) 0xffff) : Fills r2.low.toNat (r :: l) (omitFrom r2 (r :: l)) := by
  induction l generalizing r2 r with
  | nil =>
    have hhigh := high_lt_of_not_covers hlast
    have hsucc := toNat_add_one hhigh
    refine Fills.cons (t := [⟨r.high + 1, 0xffff⟩]) ⟨?_, ?_, pairwise_singleton _ _, ?_⟩ hl hlow
    · refine forall_mem_singleton.mpr ?_
      show (r.high + 1).toNat ≤ 0xffff
      omega
    · exact forall_mem_singleton.mpr (Nat.le_of_eq hsucc.symm)
    · intro c hc
      rw [covers_cons, IoctlRange.Has, hsucc]
      simp only [covers_nil, or_false, not_false_eq_true, and_true]
      exact and_iff_left hc
  | cons r' l ih =>
    have hsucc := toNat_add_one (high_lt_of_not_covers hlast)
    have hgap := (pairwise_cons.mp hl.apart).1 r' mem_cons_self
    refine Fills.cons ?_ hl hlow
    rw [← hsucc]
    exact ih ⟨r.high + 1, _⟩ r' hl.tail (hsucc ▸ hgap) fun h => hlast (covers_cons.mpr (Or.inr h))

/-- Where it does not, the last one of the new ranges is everything. -/
theorem omitFrom_wraps (r2 r : IoctlRange) (l : List IoctlRange) (hl : Gapped (r :: l)) (hlast : Covers (r :: l) 0xffff)
    (hc : c ≤ 0xffff) : Covers (omitFrom r2 (r :: l)) c := by
  refine covers_cons.mpr (Or.inr ?_)
  induction l generalizing r with
  | nil =>
    simp only [covers_cons, covers_nil, or_false, IoctlRange.Has] at hlast
    have hhigh : r.high = 0xffff := by
      apply BitVec.eq_of_toNat_eq
      show r.high.toNat = 0xffff
      omega
    rw [hhigh]
    exact covers_cons.mpr (Or.inl ⟨Nat.zero_le c, hc⟩)
  | cons r' l ih =>
    have hgap := (pairwise_cons.mp hl.apart).1 r' mem_cons_self
    refine covers_cons.mpr (Or.inr (ih r' hl.tail ((covers_cons.mp hlast).resolve_left ?_)))
    unfold IoctlRange.Has
    omega

/-- Only a single range from 0 is an initial segment. -/
theorem Gapped.initial_iff (hl : Gapped (r :: l)) : (∃ x, ∀ c, Covers (r :: l) c ↔ c ≤ x) ↔ r.low = 0 ∧ l = [] := by
  have hr : r.low.toNat ≤ r.high.toNat := hl.formed r mem_cons_self
  constructor
  · intro h
    obtain ⟨x, hx⟩ := h
    constructor
    · apply BitVec.eq_of_toNat_eq
      rcases covers_cons.mp ((hx 0).mpr (Nat.zero_le x)) with h | h
      · exact Nat.le_zero.mp h.1
      · have := hl.low_of_covers h
        omega
    · by_contra hne
      obtain ⟨r', hr'⟩ := exists_mem_of_ne_nil l hne
      have hformed := hl.formed r' (mem_cons_of_mem r hr')
      have hgap := (pairwise_cons.mp hl.apart).1 r' hr'
      have hle : r'.low.toNat ≤ x := (hx _).mp (covers_cons.mpr (Or.inr ⟨r', hr', Nat.le_refl _, hformed⟩))
      -- the command right after the first range is in no range
      rcases covers_cons.mp ((hx (r.high.toNat + 1)).mpr (by omega)) with h | h
      · have := h.2
        omega
      · have := hl.low_of_covers h
        omega
  · intro h
    obtain ⟨hlow, rfl⟩ := h
    refine ⟨r.high.toNat, fun c => ?_⟩
    simp [covers_cons, IoctlRange.Has, hlow]

theorem fills_avruleOmitIoctls (hl : Gapped (r :: l)) (hlast : ¬Covers (r :: l) 0xffff)
    (hsingle : ¬(r.low = 0 ∧ l = [])) : Fills 0 (r :: l) (avruleOmitIoctls (r :: l)) := by
  rw [avruleOmitIoctls]
  by_cases hlow : r.low = 0
  · rw [if_pos hlow]
    cases l with
    | nil => exact absurd ⟨hlow, rfl⟩ hsingle
    | cons r' l =>
      have hsucc := toNat_add_one (high_lt_of_not_covers hlast)
      have hgap := (pairwise_cons.mp hl.apart).1 r' mem_cons_self
      have hf := fills_omitFrom ⟨r.high + 1, 0⟩ r' l hl.tail (hsucc ▸ hgap) fun h => hlast (covers_cons.mpr (Or.inr h))
      refine ⟨hf.formed, fun x _ => Nat.zero_le _, hf.sorted, ?_⟩
      intro c hc
      have hzero : r.low.toNat = 0 := by rw [hlow]; rfl
      rw [hf.denotes c hc, hsucc, covers_cons (r := r), IoctlRange.Has, not_or, ← and_assoc]
      refine and_congr_left fun _ => ?_
      omega
  · rw [if_neg hlow]
    have hpos : 0 < r.low.toNat := Nat.pos_of_ne_zero fun h => hlow (BitVec.eq_of_toNat_eq h)
    exact fills_omitFrom ⟨0, 0⟩ r l hl hpos hlast

/-- In the two other cases a new range is not formed, or has a command of an old one. -/
theorem avruleOmitIoctls_wrong (hl : Gapped (r :: l)) (h : Covers (r :: l) 0xffff ∨ r.low = 0 ∧ l = []) :
    (∃ x ∈ avruleOmitIoctls (r :: l), ¬x.Formed) ∨ ∃ c ≤ 0xffff, Covers (r :: l) c ∧
      Covers (avruleOmitIoctls (r :: l)) c := by
  have hr : r.low.toNat ≤ r.high.toNat := hl.formed r mem_cons_self
  have hown : Covers (r :: l) r.low.toNat := covers_cons.mpr (Or.inl ⟨Nat.le_refl _, hr⟩)
  have hle : r.low.toNat ≤ 0xffff := Nat.le_of_lt_succ r.low.isLt
  rw [avruleOmitIoctls]
  by_cases hlow : r.low = 0
  · rw [if_pos hlow]
    cases l with
    | nil =>
      by_cases hhigh : r.high.toNat < 0xffff
      · refine Or.inl ⟨_, mem_singleton_self _, ?_⟩
        have := toNat_add_one hhigh
        show ¬(r.high + 1).toNat ≤ 0
        omega
      · refine Or.inr ⟨0, Nat.zero_le _, by rwa [hlow] at hown, ?_⟩
        have hwrap : (r.high + 1).toNat = 0 := by
          have hone : (1 : BitVec 16).toNat = 1 := rfl
          rw [BitVec.toNat_add]
          omega
        exact ⟨_, mem_singleton_self _, Nat.le_of_eq hwrap, Nat.le_refl _⟩
    | cons r' l =>
      have hlast : Covers (r' :: l) 0xffff := by
        have hgap := (pairwise_cons.mp hl.apart).1 r' mem_cons_self
        refine (covers_cons.mp (h.resolve_right (by simp))).resolve_left ?_
        unfold IoctlRange.Has
        omega
      exact Or.inr ⟨_, hle, hown, omitFrom_wraps _ r' l hl.tail hlast hle⟩
  · rw [if_neg hlow]
    exact Or.inr ⟨_, hle, hown, omitFrom_wraps _ r l hl (h.resolve_right fun h => hlow h.1) hle⟩

/-- The ranges are exact, except for the complement of commands up to some bound or up to 0xffff. -/
theorem avruleIoctlRanges_exact_iff (es : List XpermElement) (hne : es ≠ []) (hes : ∀ e ∈ es, e.Fits) (omitted : Bool) :
    (∃ l, avruleIoctlRanges (xpermQueue omitted es) = .ok l ∧ Exact omitted es l) ↔
      omitted = false ∨ ¬Writes es 0xffff ∧ ¬∃ x, ∀ c, Writes es c ↔ c ≤ x := by
  have hformed : ∀ r ∈ es.map XpermElement.toRange, r.Formed := by
    intro r hr
    obtain ⟨e, he, rfl⟩ := mem_map.mp hr
    exact XpermElement.toRange_formed (hes e he)
  obtain ⟨hgapped, hcovers⟩ := merged_spec hformed
  rw [avruleIoctlRanges_queue hne hes]
  generalize avruleMergeIoctls (avruleSortIoctls (es.map XpermElement.toRange)) = m at hgapped hcovers
  have hwrites : ∀ c, Covers m c ↔ Writes es c := fun c => (hcovers c).trans (covers_toRange hes c)
  cases omitted with
  | false =>
    refine iff_of_true ⟨m, rfl, hgapped.formed, hgapped.apart.imp fun h => by omega, ?_⟩ (Or.inl rfl)
    simp [hwrites]
  | true =>
    simp only [if_true, Except.ok.injEq, exists_eq_left', Bool.true_eq_false, false_or, ← hwrites]
    cases m with
    | nil =>
      obtain ⟨e, he⟩ := exists_mem_of_ne_nil es hne
      exact absurd ((hwrites e.low).mpr ⟨e, he, Nat.le_refl _, (hes e he).1⟩) (covers_nil _)
    | cons r l =>
      rw [hgapped.initial_iff, ← not_or]
      constructor
      · intro h hwrong
        rcases avruleOmitIoctls_wrong hgapped hwrong with ⟨x, hx, hnot⟩ | ⟨c, hc, hold, hnew⟩
        · exact hnot (h.formed x hx)
        · have := (h.denotes c hc).mp hnew
          simp [← hwrites, hold] at this
      · intro h
        have hf := fills_avruleOmitIoctls hgapped (fun hl => h (Or.inl hl)) fun hs => h (Or.inr hs)
        refine ⟨hf.formed, hf.sorted, ?_⟩
        intro c hc
        rw [hf.denotes c hc, ← hwrites]
        simp

/-- `~{ 0x0-0x10 }` becomes a range that is not formed, and `~{ 0xff00-0xffff }` all commands. -/
theorem avruleIoctlRanges_ends :
    (avruleIoctlRanges (xpermQueue true [.range 0 0x10]) = .ok [⟨0x11, 0⟩] ∧ ¬Exact true [.range 0 0x10] [⟨0x11, 0⟩]) ∧
      avruleIoctlRanges (xpermQueue true [.range 0xff00 0xffff]) = .ok [⟨0, 0xfeff⟩, ⟨0, 0xffff⟩] ∧
      ¬Exact true [.range 0xff00 0xffff] [⟨0, 0xfeff⟩, ⟨0, 0xffff⟩] := by
  refine ⟨⟨by decide, ?_⟩, by decide, ?_⟩
  · intro h
    have : (0x11 : Nat) ≤ 0 := h.formed ⟨0x11, 0⟩ mem_cons_self
    omega
  · intro h
    have : (0xfeff : Nat) < 0 := (pairwise_cons.mp h.sorted).1 ⟨0, 0xffff⟩ mem_cons_self
    omega

/-- `~{ 0x5401-0x5403 0x5413 }` -/
theorem avruleIoctlRanges_exact_tty : ∃ l, avruleIoctlRanges (xpermQueue true [.range 0x5401 0x5403, .one 0x5413]) = .ok l ∧
    Exact true [.range 0x5401 0x5403, .one 0x5413] l := by
  refine (avruleIoctlRanges_exact_iff [.range 0x5401 0x5403, .one 0x5413] (cons_ne_nil _ _) ?_ true).mpr (Or.inr ⟨?_, ?_⟩)
  · simp [XpermElement.Fits, XpermElement.low, XpermElement.high]
  · simp [Writes, XpermElement.low, XpermElement.high]
  · intro h
    obtain ⟨x, hx⟩ := h
    have := (hx 0).mpr (Nat.zero_le x)
    simp [Writes, XpermElement.low, XpermElement.high] at this

end SELinux.Checkpolicy
