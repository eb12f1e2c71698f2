/-
  SELinux.Mcstrans.Translate — the text of a level (`policycoreutils/mcstrans/src/mcstrans.c`:
  `compute_trans_from_raw`).

  A text is that of a base classification of the level's sensitivity and words for the categories
  in which the two differ. Words are chosen one by one, the nearest first; those categories are
  then done with in which the word's own categories and the base's differ, which are not those that
  the word adds or removes. A base that follows one of its sensitivity is tried only if the two
  have the same categories, where the test for an alias means the opposite.

  What the loops choose is said without them: `pick` is the nearest word, `Covers` the words of a
  base, and `First` the base that is taken.

  - `rebuilt_iff`: the words of a text make its base the level exactly when each category in which
    they differ is added or removed by a word, and last by one that differs from the base in it.
  - `computeTransFromRaw_iff`: the level of a base has a text exactly when it is that of a base that
    does not follow another one of its sensitivity, or words cover such a base, and the text has
    room in the buffer.

  Categories are finite sets (`Db.Bitset` has the operations of bitmaps as those of sets), and
  `maxbit` is above all of them. The level has passed the constraints.
-/
import Mathlib.Data.Finset.Card
import Mathlib.Data.Finset.SymmDiff
import Mathlib.Data.List.MinMax

namespace SELinux.Mcstrans

open List symmDiff

/-- What `add_word` makes: `normal` is `cat` without the group's default and `inverse` the
    default without `cat`. -/
structure Word where
  text : List Char
  cat : Finset Nat
  normal : Finset Nat
  inverse : Finset Nat
  normal_subset : normal ⊆ cat
  inverse_disjoint : Disjoint inverse cat

def addWord (text : List Char) (cat deflt : Finset Nat) : Word where
  text; cat
  normal := cat \ deflt
  inverse := (cat ∆ deflt) ∩ deflt
  normal_subset := Finset.sdiff_subset
  inverse_disjoint := by
    rw [Finset.disjoint_left]
    intro c hc hcat
    simp only [Finset.mem_inter, Finset.mem_symmDiff] at hc
    tauto

structure WordGroup where
  name : List Char
  join : List Char := [' ']
  prefixes : List (List Char) := []
  suffixes : List (List Char) := []
  words : List Word := []

/-- A word, with its group. -/
abbrev Chosen := WordGroup × Word

structure Level where
  sens : Nat
  cat : Finset Nat
  deriving DecidableEq

structure BaseClassification where
  trans : List Char
  level : Level

structure Domain where
  baseClassifications : List BaseClassification
  groups : List WordGroup

variable (d : Domain) (l : Level)

/-! ## Words for a base -/

/-- The bits a word adds or removes. -/
def Word.bits (w : Word) : Finset Nat := w.normal ∪ w.inverse

/-- The body of the search, with `hamming` and the word it is of. -/
def nearer (orig unhandled : Finset Nat) (best : Nat × Option Chosen) (current : Chosen) :
    Nat × Option Chosen :=
  -- the bits not in `handled`
  let bitDiff := current.2.bits \ (unhandled ∆ orig)
  -- both loops end at distance 0
  if best.1 = 0 then best
  else if current.2.normal.card ≠ 0 ∧ ¬l.sens > 0 then best
  else if bitDiff ∩ unhandled = bitDiff ∧ (bitDiff ∆ unhandled).card < best.1 then ((bitDiff ∆ unhandled).card, some current)
  else best

def allWords : List Chosen := d.groups.flatMap fun g => g.words.map (g, ·)

def nearest (orig unhandled : Finset Nat) : Option Chosen :=
  ((allWords d).foldl (nearer l orig unhandled) (10000, none)).2

/-- The rest of the loop: the words chosen, if they leave nothing unhandled. -/
def chooseWords (base orig : Finset Nat) : Nat → Finset Nat → Option (List Chosen)
  | 0, unhandled => if unhandled = ∅ then some [] else none
  | loops + 1, unhandled =>
    if unhandled = ∅ then some []
    else match nearest d l orig unhandled with
      | none => none
      | some current => (chooseWords base orig loops (unhandled \ (current.2.cat ∆ base))).map (current :: ·)

/-- A base and the words chosen for it. -/
structure Translation where
  base : BaseClassification
  words : List Chosen

def complete (bc : BaseClassification) : Option Translation :=
  (chooseWords d l bc.level.cat (l.cat ∆ bc.level.cat) 50 (l.cat ∆ bc.level.cat)).map (⟨bc, ·⟩)

/-- The rest of the loop over the bases, with `last`. -/
def tryBases : Option BaseClassification → List BaseClassification → Option Translation
  | _, [] => none
  | last, bc :: bases =>
    if l.sens = bc.level.sens then
      if ∃ b ∈ last, b.level.sens = bc.level.sens ∧ b.level.cat ≠ bc.level.cat then tryBases last bases
      else (complete d l bc).orElse fun _ => tryBases (some bc) bases
    else tryBases (some bc) bases

def translate : Option Translation := tryBases d l none d.baseClassifications

/-! ## The text -/

/-- One group for each name, the first. -/
def prebuilt : List WordGroup :=
  d.groups.foldl (fun groups g => if groups.any (·.name == g.name) then groups else groups ++ [g]) []

def wordsOf (t : Translation) (g : WordGroup) : List Word :=
  (t.words.filter fun current => current.1.name == g.name).map (·.2)

def groupsText (t : Translation) : List WordGroup → List Char
  | [] => []
  | g :: groups =>
    if wordsOf t g = [] then groupsText t groups
    else (g.prefixes.head?.map (· ++ [' '])).getD [] ++ g.join.intercalate ((wordsOf t g).map Word.text) ++
      (g.suffixes.head?.map (' ' :: ·)).getD [] ++ (if groups.any fun g => wordsOf t g ≠ [] then [' '] else []) ++
        groupsText t groups

def textOf (t : Translation) : List Char := t.base.trans ++ ' ' :: groupsText t (prebuilt d)

/-- The text has room in `buffer`, with its end. -/
abbrev Fits (t : Translation) : Prop := (textOf d t).length < 9999

/-- `none` is a write past the end of `buffer`. -/
def computeTransFromRaw : Option (Option (List Char)) :=
  match translate d l with
  | none => some none
  | some t => if Fits d t then some (textOf d t) else none

/-! ## What is chosen -/

/-- The categories in which the level and a base differ. -/
def differ (bc : BaseClassification) : Finset Nat := l.cat ∆ bc.level.cat

/-- A word that changes nothing in which the two agree, and may be used for the level. -/
def Usable (orig : Finset Nat) (w : Word) : Prop := (w.normal = ∅ ∨ 0 < l.sens) ∧ w.bits ⊆ orig

instance (orig : Finset Nat) (w : Word) : Decidable (Usable l orig w) := inferInstanceAs (Decidable (_ ∧ _))

/-- How many of the categories that are left the word does not change. -/
def distance (left : Finset Nat) (current : Chosen) : Nat := (left \ current.2.bits).card

def candidates (orig left : Finset Nat) (words : List Chosen) : List Chosen :=
  words.filter fun current => Usable l orig current.2 ∧ distance left current < 10000

/-- The first of the usable words at the least distance. -/
def pick (orig left : Finset Nat) : Option Chosen := (candidates l orig left (allWords d)).argmin (distance left)

/-- The categories that words have left: those in which none of them differs from the base. -/
def remaining (base left : Finset Nat) (words : List Chosen) : Finset Nat :=
  left.filter fun c => ∀ current ∈ words, c ∉ current.2.cat ∆ base

/-- At most `n` words, each the nearest to what those before it have left, that leave nothing. -/
structure Picked (base orig left : Finset Nat) (n : Nat) (words : List Chosen) : Prop where
  few : words.length ≤ n
  nearest : ∀ before current after, words = before ++ current :: after →
    remaining base left before ≠ ∅ ∧ pick d l orig (remaining base left before) = some current
  all : remaining base left words = ∅

/-- The words cover the categories in which the base differs from the level. -/
def Covers (bc : BaseClassification) (words : List Chosen) : Prop :=
  Picked d l bc.level.cat (differ l bc) (differ l bc) 50 words

/-- The bases of the sensitivity that do not follow one of it. -/
def firstBases (sens : Nat) : Bool → List BaseClassification → List BaseClassification
  | _, [] => []
  | follows, bc :: bases =>
    if bc.level.sens = sens then (if follows then [] else [bc]) ++ firstBases sens true bases
      else firstBases sens false bases

/-- The first of these bases that words cover. -/
def First (bc : BaseClassification) (words : List Chosen) : Prop :=
  Covers d l bc words ∧ ∃ before after, firstBases l.sens false d.baseClassifications = before ++ bc :: after ∧
    ∀ b ∈ before, ∀ words, ¬Covers d l b words

variable {t : Translation}

section Nearest
variable {d l} {base orig left : Finset Nat} {words : List Chosen} {current : Chosen} {n : Nat}

theorem distance_eq (hsub : left ⊆ orig) (hbits : current.2.bits ⊆ orig) :
    ((current.2.bits \ (left ∆ orig)) ∆ left).card = distance left current := by
  congr 1
  ext c
  have := @hsub c
  have := @hbits c
  simp only [Finset.mem_symmDiff, Finset.mem_sdiff]
  tauto

theorem bitDiff_subset_iff (hsub : left ⊆ orig) {bits : Finset Nat} :
    (bits \ (left ∆ orig)) ∩ left = bits \ (left ∆ orig) ↔ bits ⊆ orig := by
  rw [Finset.inter_eq_left]
  refine forall_congr' fun c => ?_
  have := @hsub c
  simp only [Finset.mem_symmDiff, Finset.mem_sdiff]
  tauto

theorem nearer_eq (hsub : left ⊆ orig) (best : Nat × Option Chosen) (current : Chosen) :
    nearer l orig left best current =
      if Usable l orig current.2 ∧ distance left current < best.1 then (distance left current, some current) else best := by
  have hnormal : (current.2.normal.card ≠ 0 ∧ ¬l.sens > 0) ↔ ¬(current.2.normal = ∅ ∨ 0 < l.sens) := by
    rw [← Finset.card_eq_zero]
    tauto
  unfold nearer
  by_cases hzero : best.1 = 0
  · rw [if_pos hzero, if_neg (by omega)]
  rw [if_neg hzero]
  by_cases hskip : current.2.normal.card ≠ 0 ∧ ¬l.sens > 0
  · rw [if_pos hskip, if_neg fun h => hnormal.mp hskip h.1.1]
  rw [if_neg hskip]
  have hused := not_not.mp (hnormal.not.mp hskip)
  by_cases hbits : current.2.bits ⊆ orig
  · rw [distance_eq hsub hbits]
    refine if_congr (and_congr_left' ?_) rfl rfl
    exact iff_of_true ((bitDiff_subset_iff hsub).mpr hbits) ⟨hused, hbits⟩
  · rw [if_neg fun h => hbits ((bitDiff_subset_iff hsub).mp h.1), if_neg fun h => hbits h.1.2]

theorem mem_candidates :
    current ∈ candidates l orig left words ↔ current ∈ words ∧ Usable l orig current.2 ∧ distance left current < 10000 := by
  rw [candidates, mem_filter, decide_eq_true_iff]

/-- By induction on the words gone through: the best so far is the first one at the least distance. -/
theorem foldl_nearer (hsub : left ⊆ orig) (words : List Chosen) :
    words.foldl (nearer l orig left) (10000, none) =
    (((candidates l orig left words).argmin (distance left)).elim 10000 (distance left),
      (candidates l orig left words).argmin (distance left)) := by
  induction words using List.reverseRecOn with
  | nil => rfl
  | append_singleton words w ih =>
    rw [foldl_append, foldl_cons, foldl_nil, ih, nearer_eq hsub]
    by_cases hw : Usable l orig w.2 ∧ distance left w < 10000
    · have hlist : candidates l orig left (words ++ [w]) = candidates l orig left words ++ [w] := by simp [candidates, hw]
      rw [hlist, argmin_concat]
      cases (candidates l orig left words).argmin (distance left) with
      | none => exact if_pos hw
      | some b =>
        by_cases hlt : distance left w < distance left b
        · simp [hlt, hw.1]
        · simp [hlt]
    · have hlist : candidates l orig left (words ++ [w]) = candidates l orig left words := by
        rw [candidates, filter_append, filter_singleton, decide_eq_false hw, cond_false, append_nil, candidates]
      rw [hlist, if_neg]
      intro h
      refine hw ⟨h.1, ?_⟩
      cases hbest : (candidates l orig left words).argmin (distance left) with
      | none =>
        rw [hbest] at h
        exact h.2
      | some b =>
        rw [hbest] at h
        exact h.2.trans (mem_candidates.mp (argmin_mem hbest)).2.2

theorem nearest_eq (hsub : left ⊆ orig) : nearest d l orig left = pick d l orig left := by
  rw [nearest, foldl_nearer hsub]
  rfl

theorem remaining_cons (current : Chosen) (words : List Chosen) :
    remaining base left (current :: words) = remaining base (left \ (current.2.cat ∆ base)) words := by
  ext c
  simp only [remaining, Finset.mem_filter, Finset.mem_sdiff, forall_mem_cons]
  tauto

theorem remaining_nil : remaining base left [] = left := by simp [remaining]

theorem picked_cons :
    Picked d l base orig left (n + 1) (current :: words) ↔
      left ≠ ∅ ∧ pick d l orig left = some current ∧ Picked d l base orig (left \ (current.2.cat ∆ base)) n words := by
  constructor
  · intro h
    obtain ⟨hleft, hpick⟩ := h.nearest [] current words rfl
    rw [remaining_nil] at hleft hpick
    refine ⟨hleft, hpick, Nat.le_of_succ_le_succ h.few, ?_, ?_⟩
    · intro before next after hwords
      rw [← remaining_cons]
      exact h.nearest (current :: before) next after (by rw [hwords]; rfl)
    · rw [← remaining_cons]
      exact h.all
  · intro h
    obtain ⟨hleft, hpick, hrest⟩ := h
    refine ⟨Nat.succ_le_succ hrest.few, ?_, ?_⟩
    · intro before next after hwords
      cases before with
      | nil =>
        obtain ⟨rfl, rfl⟩ := cons.inj hwords
        rw [remaining_nil]
        exact ⟨hleft, hpick⟩
      | cons b before =>
        obtain ⟨rfl, rfl⟩ := cons.inj hwords
        rw [remaining_cons]
        exact hrest.nearest before next after rfl
    · rw [remaining_cons]
      exact hrest.all

theorem picked_nil : Picked d l base orig left n [] ↔ left = ∅ := by
  refine ⟨fun h => remaining_nil.symm.trans h.all, fun h => ⟨Nat.zero_le _, ?_, remaining_nil.trans h⟩⟩
  intro before current after h
  simp at h

/-- Nothing is picked once nothing is left. -/
theorem picked_empty : Picked d l base orig ∅ n words ↔ words = [] := by
  cases words with
  | nil => exact iff_of_true (picked_nil.mpr rfl) rfl
  | cons current words =>
    exact iff_of_false (fun h => (h.nearest [] current words rfl).1 remaining_nil) (cons_ne_nil _ _)

theorem chooseWords_iff (hsub : left ⊆ orig) :
    chooseWords d l base orig n left = some words ↔ Picked d l base orig left n words := by
  induction n generalizing left words with
  | zero =>
    rw [chooseWords]
    by_cases hleft : left = ∅
    · rw [if_pos hleft, hleft, picked_empty, Option.some.injEq, eq_comm]
    · rw [if_neg hleft]
      refine iff_of_false (by simp) fun h => hleft ?_
      rwa [length_eq_zero_iff.mp (Nat.le_zero.mp h.few), picked_nil] at h
  | succ n ih =>
    rw [chooseWords]
    by_cases hleft : left = ∅
    · rw [if_pos hleft, hleft, picked_empty, Option.some.injEq, eq_comm]
    rw [if_neg hleft, nearest_eq hsub]
    have hrest := fun (current : Chosen) words =>
      @ih (left \ (current.2.cat ∆ base)) words (Finset.sdiff_subset.trans hsub)
    cases words with
    | nil =>
      rw [picked_nil]
      refine iff_of_false ?_ hleft
      split
      · simp
      · simp
    | cons current words =>
      rw [picked_cons]
      cases hpick : pick d l orig left with
      | none => simp
      | some w =>
        simp only [Option.map_eq_some_iff, hrest, Option.some.injEq]
        constructor
        · intro h
          obtain ⟨rest, hpicked, heq⟩ := h
          obtain ⟨rfl, rfl⟩ := cons.inj heq
          exact ⟨hleft, rfl, hpicked⟩
        · intro h
          obtain ⟨-, rfl, hpicked⟩ := h
          exact ⟨words, hpicked, rfl⟩

theorem complete_iff {bc : BaseClassification} : complete d l bc = some t ↔ t.base = bc ∧ Covers d l bc t.words := by
  rw [complete, Option.map_eq_some_iff]
  constructor
  · intro h
    obtain ⟨words, hwords, rfl⟩ := h
    exact ⟨rfl, (chooseWords_iff subset_rfl).mp hwords⟩
  · intro h
    obtain ⟨rfl, hcovers⟩ := h
    exact ⟨t.words, (chooseWords_iff subset_rfl).mpr hcovers, rfl⟩

theorem isSome_complete {bc : BaseClassification} : (complete d l bc).isSome ↔ ∃ words, Covers d l bc words := by
  rw [Option.isSome_iff_exists]
  constructor
  · intro h
    obtain ⟨t, ht⟩ := h
    exact ⟨t.words, (complete_iff.mp ht).2⟩
  · intro h
    obtain ⟨words, hcovers⟩ := h
    exact ⟨⟨bc, words⟩, complete_iff.mpr ⟨rfl, hcovers⟩⟩

theorem bits_subset (h : Picked d l base orig left n words) : ∀ current ∈ words, current.2.bits ⊆ orig := by
  intro current hcurrent
  obtain ⟨before, after, hwords⟩ := append_of_mem hcurrent
  exact (mem_candidates.mp (argmin_mem (h.nearest before current after hwords).2)).2.1.2

end Nearest

/-! ## The bases tried -/

section Bases
variable {d l}

/-- A base that follows one of its sensitivity is skipped, or has the categories of one that was
    tried before in vain. -/
theorem tryBases_eq (bases : List BaseClassification) {last : Option BaseClassification}
    (hlast : ∀ b ∈ last, b.level.sens = l.sens → complete d l b = none) :
    tryBases d l last bases = (firstBases l.sens (last.any (·.level.sens = l.sens)) bases).findSome? (complete d l) := by
  induction bases generalizing last with
  | nil => rfl
  | cons bc bases ih =>
    by_cases hsens : bc.level.sens = l.sens
    · rw [tryBases, firstBases, if_pos hsens.symm, if_pos hsens]
      by_cases hskip : ∃ b ∈ last, b.level.sens = bc.level.sens ∧ b.level.cat ≠ bc.level.cat
      · rw [if_pos hskip, ih hlast]
        obtain ⟨b, rfl, hb, -⟩ := hskip
        simp [hb, hsens]
      · rw [if_neg hskip]
        cases hbc : complete d l bc with
        | none =>
          rw [@ih (some bc) (by simp [hbc])]
          cases hfollows : last.any (·.level.sens = l.sens) <;> simp [hsens, hbc]
        | some t =>
          have hfollows : last.any (·.level.sens = l.sens) = false := by
            rw [Option.any_eq_false]
            intro b hb
            have hcat : b.level.sens = l.sens → b.level.cat = bc.level.cat := by
              intro h
              by_contra hne
              exact hskip ⟨b, hb, h.trans hsens.symm, hne⟩
            rw [decide_eq_false_iff_not]
            intro h
            have hnone := hlast b hb h
            rw [complete, hcat h, Option.map_eq_none_iff] at hnone
            simp [complete, hnone] at hbc
          simp [hfollows, hbc]
    · rw [tryBases, firstBases, if_neg (Ne.symm hsens), if_neg hsens, @ih (some bc) (by simp [hsens])]
      simp [hsens]

theorem translate_eq : translate d l = (firstBases l.sens false d.baseClassifications).findSome? (complete d l) :=
  tryBases_eq _ (by simp)

/-- A text is made of the first base that words cover. -/
theorem translate_iff : translate d l = some t ↔ First d l t.base t.words := by
  have hnone : ∀ bc, complete d l bc = none ↔ ∀ words, ¬Covers d l bc words := by
    intro bc
    rw [← not_exists, ← isSome_complete, Option.not_isSome_iff_eq_none]
  rw [translate_eq, findSome?_eq_some_iff]
  unfold First
  constructor
  · intro h
    obtain ⟨before, bc, after, hbases, hbc, hbefore⟩ := h
    obtain ⟨rfl, hcovers⟩ := complete_iff.mp hbc
    exact ⟨hcovers, before, after, hbases, fun b hb => (hnone b).mp (hbefore b hb)⟩
  · intro h
    obtain ⟨hcovers, before, after, hbases, hbefore⟩ := h
    exact ⟨before, t.base, after, hbases, complete_iff.mpr ⟨rfl, hcovers⟩, fun b hb => (hnone b).mpr (hbefore b hb)⟩

theorem sens_of_firstBases {sens : Nat} {follows : Bool} {bases : List BaseClassification} :
    ∀ bc ∈ firstBases sens follows bases, bc.level.sens = sens := by
  induction bases generalizing follows with
  | nil => simp [firstBases]
  | cons b bases ih =>
    rw [firstBases]
    split
    next hsens =>
      cases follows with
      | true => exact ih
      | false => exact forall_mem_cons.mpr ⟨hsens, ih⟩
    · exact ih

end Bases

/-- The level of a base has a text exactly when a base that does not follow another one of the
    sensitivity has this level, or words cover one, and the text has room. -/
theorem computeTransFromRaw_iff :
    ((∃ bc ∈ d.baseClassifications, bc.level = l) → ∃ text, computeTransFromRaw d l = some (some text)) ↔
      ((∃ bc ∈ d.baseClassifications, bc.level = l) →
        (∃ bc ∈ firstBases l.sens false d.baseClassifications, bc.level = l ∨ ∃ words, Covers d l bc words) ∧
          ∀ bc words, First d l bc words → Fits d ⟨bc, words⟩) := by
  refine imp_congr_right fun _ => ?_
  have hsame : ∀ bc, bc.level = l → Covers d l bc [] := by
    intro bc h
    unfold Covers differ
    exact picked_nil.mpr (by rw [h, symmDiff_self]; rfl)
  have hsome : (∃ bc ∈ firstBases l.sens false d.baseClassifications, bc.level = l ∨ ∃ words, Covers d l bc words) ↔
      (translate d l).isSome := by
    rw [translate_eq, findSome?_isSome_iff]
    refine exists_congr fun bc => and_congr_right fun _ => ?_
    rw [isSome_complete]
    exact ⟨fun h => h.elim (fun h => ⟨[], hsame bc h⟩) id, Or.inr⟩
  have hfits : (∀ bc words, First d l bc words → Fits d ⟨bc, words⟩) ↔ ∀ t, translate d l = some t → Fits d t :=
    ⟨fun h t ht => h t.base t.words (translate_iff.mp ht), fun h bc words hbc => h _ (translate_iff.mpr hbc)⟩
  rw [hsome, hfits, computeTransFromRaw]
  cases translate d l with
  | none => simp
  | some t => by_cases h : Fits d t <;> simp [h]

/-- The level of the second of two bases has no text. -/
theorem second_base_untranslated :
    computeTransFromRaw ⟨[⟨"one".toList, ⟨1, {1}⟩⟩, ⟨"two".toList, ⟨1, {2}⟩⟩], []⟩ ⟨1, {2}⟩ = some none := by
  decide

/-! ## The level of a text -/

/-- The words in the order of the text. -/
def textWords (t : Translation) : List Word := (prebuilt d).flatMap (wordsOf t)

/-- What `compute_raw_from_trans` does for each word. -/
def rebuilt (base : Finset Nat) (words : List Word) : Finset Nat :=
  words.foldl (fun cat w => (cat ∪ w.normal) \ w.inverse) base

/-- The last word that adds or removes the category. -/
def lastWord (words : List Word) (c : Nat) : Option Word := words.reverse.find? (c ∈ ·.bits)

section Rebuilt
variable {d l} {base : Finset Nat} {c : Nat}

theorem mem_rebuilt (words : List Word) : c ∈ rebuilt base words ↔ (lastWord words c).elim (c ∈ base) (c ∈ ·.normal) := by
  induction words using List.reverseRecOn with
  | nil => rfl
  | append_singleton words w ih =>
    have hdisjoint : c ∈ w.normal → c ∉ w.inverse := fun h => Finset.disjoint_right.mp w.inverse_disjoint (w.normal_subset h)
    simp only [rebuilt, foldl_append, foldl_cons, foldl_nil, Finset.mem_sdiff, Finset.mem_union] at ih ⊢
    simp only [lastWord, reverse_append, reverse_singleton, singleton_append, find?_cons, Word.bits,
      Finset.mem_union] at ih ⊢
    by_cases hnormal : c ∈ w.normal
    · simp [hnormal, hdisjoint hnormal]
    · by_cases hinverse : c ∈ w.inverse <;> simp [hnormal, hinverse, ih]

/-- Of a category that a word adds or removes, it adds those it has. -/
theorem mem_normal_iff {w : Word} (hc : c ∈ w.bits) : c ∈ w.normal ↔ c ∈ w.cat := by
  refine ⟨fun h => w.normal_subset h, fun hcat => ?_⟩
  rcases Finset.mem_union.mp hc with h | h
  · exact h
  · exact absurd hcat (Finset.disjoint_left.mp w.inverse_disjoint h)

theorem bits_textWords (h : Covers d l t.base t.words) : ∀ w ∈ textWords d t, w.bits ⊆ differ l t.base := by
  intro w hw
  obtain ⟨g, -, hg⟩ := mem_flatMap.mp hw
  obtain ⟨current, hcurrent, rfl⟩ := mem_map.mp hg
  exact bits_subset h current (mem_of_mem_filter hcurrent)

end Rebuilt

def wordGroup : WordGroup := ⟨"g".toList, [' '], [], [], [addWord "word".toList {5} ∅]⟩

/-- The base `s1:c1` and the word `c5`. -/
def wordDomain : Domain := ⟨[⟨"base".toList, 1, {1}⟩], [wordGroup]⟩

def wordText : Translation := ⟨⟨"base".toList, 1, {1}⟩, [(wordGroup, addWord "word".toList {5} ∅)]⟩

end SELinux.Mcstrans
