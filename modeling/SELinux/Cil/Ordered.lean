/-
  SELinux.Cil.Ordered — merging ordered lists (`libsepol/cil/src/cil_resolve_ast.c`:
  `__cil_ordered_item_insert`, `__cil_ordered_list_insert`, `__cil_ordered_lists_merge`,
  `insert_unordered`, `__cil_ordered_lists_merge_all`; `cil_list.c`: `cil_list_insert`).

  The lists of sidorder, classorder, categoryorder and sensitivityorder statements are merged
  into one, round after round until none is waiting. A merge that fails may have inserted some
  items already, and they stay. Items of unordered lists are put behind, unless they are there.

  `cilOrderedListsMergeAll_right`: of whatever is returned, each ordered list is a subsequence,
  no item occurs twice, and the items that stand in unordered lists only come last. An item that
  stands in both kinds of lists has the place of the ordered one (`cilOrderedListsMergeAll_both`).

  A position in the list is the part up to it: `before` ends with the item that the source points
  to, and is empty for NULL.
-/
import SELinux.Lib.Exit

namespace SELinux.Cil

open Lib.Exit List

/-! ## The composite list -/

/-- The list, cut behind a position, and which items have `ordered` set. -/
structure Composite (α : Type) where
  before : List α
  after : List α
  ordered : α → Bool

variable {β : Type}

section

variable {α : Type}

def Composite.list (c : Composite α) : List α := c.before ++ c.after

/-- The position behind `n` items. -/
def Composite.moveTo (n : Nat) (c : Composite α) : Composite α := { c with before := c.list.take n, after := c.list.drop n }

/-- The position moved on by `n` items. -/
def Composite.advance (n : Nat) (c : Composite α) : Composite α :=
  { c with before := c.before ++ c.after.take n, after := c.after.drop n }

def current : Prog (Composite α) (Composite α) := fun c => .ok c c

/-! ## What is kept -/

/-- No item is there twice, and the flags say so. -/
def Composite.Inv (c : Composite α) : Prop := c.list.Nodup ∧ ∀ x ∈ c.list, c.ordered x = true

/-- Items of `S` are inserted. -/
structure Adds (S : α → Prop) (c c' : Composite α) : Prop where
  inv : c.Inv → c'.Inv
  sublist : c.list.Sublist c'.list
  added : ∀ x ∈ c'.list, x ∈ c.list ∨ S x

variable {S : α → Prop}

theorem adds_refl (c : Composite α) : Adds S c c := ⟨id, .refl _, fun _ => Or.inl⟩

theorem adds_trans (c₁ c₂ c₃ : Composite α) (h₁ : Adds S c₁ c₂) (h₂ : Adds S c₂ c₃) : Adds S c₁ c₃ where
  inv h := h₂.inv (h₁.inv h)
  sublist := h₁.sublist.trans h₂.sublist
  added x hx := (h₂.added x hx).elim (h₁.added x) Or.inr

/-- Another position in the same list. -/
theorem adds_of_list {c c' : Composite α} (hlist : c'.list = c.list) (hordered : c'.ordered = c.ordered) : Adds S c c' where
  inv h := by rwa [Composite.Inv, hlist, hordered]
  sublist := by rw [hlist]
  added x hx := Or.inl (hlist ▸ hx)

theorem Composite.moveTo_list (n : Nat) (c : Composite α) : (c.moveTo n).list = c.list := take_append_drop n c.list

theorem Composite.advance_list (n : Nat) (c : Composite α) : (c.advance n).list = c.list := by
  show c.before ++ c.after.take n ++ c.after.drop n = _
  rw [append_assoc, take_append_drop]
  rfl

theorem goes_moveTo (n : Nat) : Goes (Adds S) (update (Composite.moveTo n) : Prog (Composite α) Unit) :=
  goes_update fun c => adds_of_list (c.moveTo_list n) rfl

theorem goes_advance (n : Nat) : Goes (Adds S) (update (Composite.advance n) : Prog (Composite α) Unit) :=
  goes_update fun c => adds_of_list (c.advance_list n) rfl

theorem goes_current : Goes (Adds S) (current : Prog (Composite α) (Composite α)) where
  ok c _ _ h := by
    cases h
    exact adds_refl c
  error _ _ h := nomatch h

/-- Items are put behind. -/
structure Appends (c c' : Composite α) : Prop where
  inv : c.Inv → c'.Inv
  front : c.list <+: c'.list

theorem appends_refl (c : Composite α) : Appends c c := ⟨id, prefix_refl _⟩

theorem appends_trans (c₁ c₂ c₃ : Composite α) (h₁ : Appends c₁ c₂) (h₂ : Appends c₂ c₃) : Appends c₁ c₃ :=
  ⟨fun h => h₂.inv (h₁.inv h), h₁.front.trans h₂.front⟩

theorem appends_mem (x : α) (c c' : Composite α) (h : Appends c c') (hx : x ∈ c.list) : x ∈ c'.list := h.front.subset hx

theorem current_bind (f : Composite α → Prog (Composite α) β) (c : Composite α) : (current >>= f) c = f c c := rfl

theorem update_bind (f : Composite α → Composite α) (g : Unit → Prog (Composite α) β) (c : Composite α) :
    (update f >>= g) c = g () (f c) := rfl

/-! ## Insertions and merges -/

variable [DecidableEq α]

/-- `__cil_ordered_item_insert`, which gives the new item for the next position -/
def cilOrderedItemInsert (item : α) : Prog (Composite α) Unit := do
  let c ← current
  if c.ordered item then leave
  else update fun c => { c with before := c.before ++ [item], ordered := Function.update c.ordered item true }

/-- `__cil_ordered_list_insert` -/
def cilOrderedListInsert (items : List α) : Prog (Composite α) Unit := items.forM cilOrderedItemInsert

/-- The loop of `__cil_ordered_lists_merge` over the part where the lists overlap, from `ncurr`
    on, and what is left of the new list behind it. -/
def mergeOverlap : List α → Prog (Composite α) Unit
  | [] => pure ()
  | n :: ns => do
    let c ← current
    match c.after with
    | [] => cilOrderedListInsert (n :: ns)
    | o :: os =>
      if n = o then do
        update (.advance 1)
        mergeOverlap ns
      else if o ∈ ns then do
        -- gap in old
        cilOrderedListInsert (n :: ns.takeWhile (· ≠ o))
        update (.advance 1)
        mergeOverlap (ns.dropWhile (· ≠ o)).tail
      else if n ∈ os then do
        -- gap in new
        update (.advance ((os.takeWhile (· ≠ n)).length + 2))
        mergeOverlap ns
      else leave
termination_by new => new.length
decreasing_by
  all_goals simp only [List.length_cons, List.length_tail]
  · omega
  · have := List.length_dropWhile_le (fun x => decide (x ≠ o)) ns
    omega
  · omega

/-- `__cil_ordered_lists_merge` -/
def cilOrderedListsMerge (new : List α) : Prog (Composite α) Unit := do
  let c ← current
  if new = [] then pure ()
  else if c.list = [] then cilOrderedListInsert new
  else
    match new.dropWhile (· ∉ c.list) with
    | [] => leave
    | nmatch :: rest =>
      let nfirst := new.takeWhile (· ∉ c.list)
      let ofirst := c.list.takeWhile (· ≠ nmatch)
      if nfirst ≠ [] ∧ ofirst ≠ [] then leave
      else do
        update (.moveTo 0)
        cilOrderedListInsert nfirst
        update (.moveTo (nfirst.length + ofirst.length + 1))
        mergeOverlap rest

/-- `insert_unordered` -/
def insertUnordered (unordered : List (List α)) : Prog (Composite α) Unit :=
  unordered.forM fun list => list.forM fun item => do
    let c ← current
    if item ∈ c.list then pure ()
    else do
      update (.moveTo c.list.length)
      cilOrderedItemInsert item

/-- `struct cil_ordered_list` -/
structure OrderedList (α : Type) where
  list : List α
  merged : Bool := false

/-- What a round leaves. -/
structure Round (α : Type) where
  lists : List (OrderedList α)
  composite : Composite α
  changed : Bool
  waiting : Nat

/-- A round of `__cil_ordered_lists_merge_all` -/
def mergeRound : List (OrderedList α) → Composite α → Round α
  | [], c => ⟨[], c, false, 0⟩
  | l :: ls, c =>
    if l.merged then
      let r := mergeRound ls c
      { r with lists := l :: r.lists }
    else
      match cilOrderedListsMerge l.list c with
      | .ok _ c =>
        let r := mergeRound ls c
        { r with lists := { l with merged := true } :: r.lists, changed := true }
      | .error _ c =>
        let r := mergeRound ls c
        { r with lists := l :: r.lists, waiting := r.waiting + 1 }

/-- How many lists are still to be merged. -/
def unmerged (ls : List (OrderedList α)) : Nat := ls.countP (!·.merged)

theorem mergeRound_unmerged (ls : List (OrderedList α)) (c : Composite α) :
    unmerged (mergeRound ls c).lists ≤ unmerged ls ∧
      ((mergeRound ls c).changed = true → unmerged (mergeRound ls c).lists < unmerged ls) := by
  induction ls generalizing c with
  | nil => exact ⟨Nat.le_refl _, fun h => absurd h Bool.false_ne_true⟩
  | cons l ls ih =>
    rw [mergeRound]
    split
    next hmerged =>
      obtain ⟨hle, hlt⟩ := ih c
      simp only [unmerged, countP_cons, hmerged] at hle hlt ⊢
      exact ⟨by omega, fun h => by have := hlt h; omega⟩
    next hmerged =>
      split
      next c' _ =>
        obtain ⟨hle, -⟩ := ih c'
        simp only [unmerged, countP_cons, hmerged] at hle ⊢
        simp only [Bool.not_true, Bool.not_false, if_true, Bool.false_eq_true, if_false]
        exact ⟨by omega, fun _ => by omega⟩
      next c' _ =>
        obtain ⟨hle, hlt⟩ := ih c'
        simp only [unmerged, countP_cons, hmerged] at hle hlt ⊢
        exact ⟨by omega, fun h => by have := hlt h; omega⟩

/-- The rounds of `__cil_ordered_lists_merge_all`; `none` if a round changes nothing and lists are
    waiting. -/
def mergeRounds (ls : List (OrderedList α)) (c : Composite α) : Option (Composite α) :=
  if (mergeRound ls c).waiting = 0 then some (mergeRound ls c).composite
  else if (mergeRound ls c).changed then mergeRounds (mergeRound ls c).lists (mergeRound ls c).composite
  else none
termination_by unmerged ls
decreasing_by exact (mergeRound_unmerged ls c).2 ‹_›

/-- `__cil_ordered_lists_merge_all`; `ordered` are the flags of the items when it is called. -/
def cilOrderedListsMergeAll (ordered : α → Bool) (orderedLists : List (List α)) (unorderedLists : Option (List (List α))) :
    Option (List α) :=
  match mergeRounds (orderedLists.map fun list => { list }) ⟨[], [], ordered⟩ with
  | none => none
  | some c =>
    match unorderedLists with
    | none => some c.list
    | some unordered =>
      match insertUnordered unordered c with
      | .ok _ c => some c.list
      | .error _ _ => none

/-! ## What a merge keeps -/

variable {c c' : Composite α}

theorem adds_insert {item : α} (hS : S item) {c : Composite α} (hnew : c.ordered item = false) :
    Adds S c { c with before := c.before ++ [item], ordered := Function.update c.ordered item true } := by
  have hmem : ∀ x, x ∈ c.before ++ [item] ++ c.after ↔ x = item ∨ x ∈ c.list := by
    simp only [Composite.list, mem_append, mem_singleton]
    tauto
  refine ⟨?_, ?_, ?_⟩
  · intro h
    have hfresh : item ∉ c.list := fun hin => nomatch hnew.symm.trans (h.2 item hin)
    refine ⟨?_, ?_⟩
    · show (c.before ++ [item] ++ c.after).Nodup
      rw [append_assoc, singleton_append, nodup_middle, nodup_cons]
      exact ⟨hfresh, h.1⟩
    · intro x hx
      show Function.update c.ordered item true x = true
      rcases (hmem x).mp hx with rfl | hx
      · rw [Function.update_self]
      · rw [Function.update_of_ne (ne_of_mem_of_not_mem hx hfresh)]
        exact h.2 x hx
  · exact (sublist_append_left c.before [item]).append (.refl c.after)
  · intro x hx
    rcases (hmem x).mp hx with rfl | hx
    · exact Or.inr hS
    · exact Or.inl hx

theorem cilOrderedItemInsert_goes {item : α} (hS : S item) : Goes (Adds S) (cilOrderedItemInsert item) := by
  constructor
  · intro c _ c' h
    rw [cilOrderedItemInsert, current_bind] at h
    split at h
    · cases h
    next hnew =>
      rw [← update_ok.mp h]
      exact adds_insert hS (Bool.eq_false_iff.mpr hnew)
  · intro c c' h
    rw [cilOrderedItemInsert, current_bind] at h
    split at h
    · cases h
      exact adds_refl c
    · cases h

theorem cilOrderedListInsert_goes {items : List α} (hS : ∀ x ∈ items, S x) : Goes (Adds S) (cilOrderedListInsert items) :=
  goes_forM adds_refl adds_trans fun x hx => cilOrderedItemInsert_goes (hS x hx)

theorem mergeOverlap_goes {new : List α} (hS : ∀ x ∈ new, S x) : Goes (Adds S) (mergeOverlap new) := by
  fun_induction mergeOverlap new with
  | case1 => exact goes_pure adds_refl ()
  | case2 n ns ih ihgap =>
    obtain ⟨hn, hns⟩ := forall_mem_cons.mp hS
    refine goes_current.bind adds_trans ?_
    intro c
    cases c.after with
    | nil => exact cilOrderedListInsert_goes hS
    | cons o os =>
      simp only
      split
      · exact (goes_advance 1).bind adds_trans fun _ => ih hns
      split
      · refine (cilOrderedListInsert_goes ?_).bind adds_trans fun _ => (goes_advance 1).bind adds_trans fun _ => ?_
        · exact forall_mem_cons.mpr ⟨hn, fun x hx => hns x (takeWhile_subset _ hx)⟩
        · exact ihgap o fun x hx => hns x (dropWhile_subset _ (tail_subset _ hx))
      split
      · exact (goes_advance _).bind adds_trans fun _ => ih hns
      · exact goes_leave adds_refl

theorem cilOrderedListsMerge_goes {new : List α} (hS : ∀ x ∈ new, S x) : Goes (Adds S) (cilOrderedListsMerge new) := by
  refine goes_current.bind adds_trans ?_
  intro c
  split
  · exact goes_pure adds_refl ()
  split
  · exact cilOrderedListInsert_goes hS
  cases hdrop : new.dropWhile (fun x => decide (x ∉ c.list)) with
  | nil => exact goes_leave adds_refl
  | cons nmatch rest =>
    simp only
    split
    · exact goes_leave adds_refl
    · refine (goes_moveTo 0).bind adds_trans fun _ => ?_
      refine (cilOrderedListInsert_goes fun x hx => hS x (takeWhile_subset _ hx)).bind adds_trans fun _ => ?_
      refine (goes_moveTo _).bind adds_trans fun _ => ?_
      refine mergeOverlap_goes ?_
      intro x hx
      refine hS x (dropWhile_subset (fun x => decide (x ∉ c.list)) ?_)
      rw [hdrop]
      exact mem_cons_of_mem nmatch hx

/-! ## What a merge achieves -/

theorem cilOrderedItemInsert_ok {item : α} (h : cilOrderedItemInsert item c = .ok () c') :
    c'.before = c.before ++ [item] ∧ c'.after = c.after := by
  rw [cilOrderedItemInsert, current_bind] at h
  split at h
  · cases h
  · rw [← update_ok.mp h]
    exact ⟨rfl, rfl⟩

theorem cilOrderedListInsert_ok {items : List α} (h : cilOrderedListInsert items c = .ok () c') :
    c'.before = c.before ++ items ∧ c'.after = c.after := by
  induction items generalizing c with
  | nil =>
    obtain ⟨-, rfl⟩ := pure_ok.mp h
    exact ⟨(append_nil _).symm, rfl⟩
  | cons x items ih =>
    obtain ⟨_, c₁, hx, h⟩ := bind_ok.mp h
    obtain ⟨hbefore, hafter⟩ := cilOrderedItemInsert_ok hx
    obtain ⟨hbefore', hafter'⟩ := ih h
    rw [hbefore', hafter', hbefore, hafter, append_assoc]
    exact ⟨rfl, rfl⟩

/-- A list around its first `x`. -/
theorem takeWhile_ne_append {x : α} {l : List α} (h : x ∈ l) :
    l = l.takeWhile (fun y => decide (y ≠ x)) ++ x :: (l.dropWhile (fun y => decide (y ≠ x))).tail := by
  induction l with
  | nil => cases h
  | cons y l ih =>
    by_cases hy : y = x
    · simp [hy]
    · simpa [hy] using ih ((mem_cons.mp h).resolve_left (Ne.symm hy))

theorem take_takeWhile_ne {x : α} {l : List α} (h : x ∈ l) :
    l.take ((l.takeWhile (fun y => decide (y ≠ x))).length + 1) = l.takeWhile (fun y => decide (y ≠ x)) ++ [x] := by
  refine (congrArg (List.take _) (takeWhile_ne_append h)).trans ?_
  rw [take_append, take_of_length_le (Nat.le_succ _), Nat.add_sub_cancel_left]
  rfl

/-- What was merged of the new list is before the position, and in the end all of it is. -/
theorem mergeOverlap_ok {new done : List α} (h : mergeOverlap new c = .ok () c') (hdone : done.Sublist c.before) :
    (done ++ new).Sublist c'.list := by
  fun_induction mergeOverlap new generalizing done c with
  | case1 =>
    obtain ⟨-, rfl⟩ := pure_ok.mp h
    rw [append_nil]
    exact hdone.trans (sublist_append_left _ _)
  | case2 n ns ih ihgap =>
    rw [current_bind] at h
    cases hafter : c.after with
    | nil =>
      simp only [hafter] at h
      obtain ⟨hbefore, -⟩ := cilOrderedListInsert_ok h
      rw [Composite.list, hbefore]
      exact (hdone.append (.refl _)).trans (sublist_append_left _ _)
    | cons o os =>
      simp only [hafter] at h
      split at h
      next heq =>
        rw [update_bind] at h
        rw [append_cons]
        refine ih h ?_
        rw [Composite.advance, hafter, heq]
        exact hdone.append (.refl [o])
      split at h
      next hgap =>
        obtain ⟨_, c₁, hins, h⟩ := bind_ok.mp h
        obtain ⟨hbefore, hafter₁⟩ := cilOrderedListInsert_ok hins
        rw [update_bind] at h
        have hnew : done ++ n :: ns = done ++ (n :: ns.takeWhile (fun x => decide (x ≠ o)) ++ [o]) ++
            (ns.dropWhile (fun x => decide (x ≠ o))).tail := by
          conv_lhs => rw [takeWhile_ne_append hgap]
          simp
        rw [hnew]
        refine ihgap o h ?_
        rw [Composite.advance, hafter₁, hafter, hbefore, append_assoc]
        exact hdone.append (.refl _)
      split at h
      next hgap =>
        rw [update_bind] at h
        rw [append_cons]
        refine ih h ?_
        rw [Composite.advance, hafter, take_succ_cons, take_takeWhile_ne hgap]
        exact hdone.append (sublist_append_right (o :: _) [n])
      · cases h

theorem cilOrderedListsMerge_ok {new : List α} (h : cilOrderedListsMerge new c = .ok () c') : new.Sublist c'.list := by
  rw [cilOrderedListsMerge, current_bind] at h
  split at h
  next hnil =>
    rw [hnil]
    exact nil_sublist _
  split at h
  · obtain ⟨hbefore, -⟩ := cilOrderedListInsert_ok h
    rw [Composite.list, hbefore]
    exact (sublist_append_right _ new).trans (sublist_append_left _ _)
  cases hdrop : new.dropWhile (fun x => decide (x ∉ c.list)) with
  | nil =>
    simp only [hdrop] at h
    cases h
  | cons nmatch rest =>
    simp only [hdrop] at h
    split at h
    · cases h
    rw [update_bind] at h
    obtain ⟨_, c₂, hins, h⟩ := bind_ok.mp h
    rw [update_bind] at h
    obtain ⟨hbefore, hafter⟩ := cilOrderedListInsert_ok hins
    have hmatch : nmatch ∈ c.list := by
      have hhead := List.head?_dropWhile_not (fun x => decide (x ∉ c.list)) new
      rw [hdrop] at hhead
      simpa using hhead
    have hnew : new = new.takeWhile (fun x => decide (x ∉ c.list)) ++ [nmatch] ++ rest := by
      rw [append_assoc, singleton_append, ← hdrop, takeWhile_append_dropWhile]
    have hlist : c₂.list = new.takeWhile (fun x => decide (x ∉ c.list)) ++ c.list := by
      rw [Composite.list, hbefore, hafter]
      rfl
    rw [hnew]
    refine mergeOverlap_ok h ?_
    rw [Composite.moveTo, hlist, Nat.add_assoc, take_length_add_append, take_takeWhile_ne hmatch]
    exact (List.Sublist.refl _).append (sublist_append_right _ [nmatch])

/-! ## Rounds -/

/-- What a round of merges does; the lists come from `S`. -/
theorem mergeRound_spec {ls : List (OrderedList α)} (hS : ∀ l ∈ ls, ∀ x ∈ l.list, S x) (c : Composite α) :
    Adds S c (mergeRound ls c).composite ∧ (mergeRound ls c).lists.map (·.list) = ls.map (·.list) ∧
      ((∀ l ∈ ls, l.merged = true → l.list.Sublist c.list) →
        ∀ l ∈ (mergeRound ls c).lists, l.merged = true → l.list.Sublist (mergeRound ls c).composite.list) ∧
      ((mergeRound ls c).waiting = 0 → ∀ l ∈ (mergeRound ls c).lists, l.merged = true) := by
  induction ls generalizing c with
  | nil => exact ⟨adds_refl c, rfl, fun _ => forall_mem_nil _, fun _ => forall_mem_nil _⟩
  | cons l ls ih =>
    obtain ⟨hl, hls⟩ := forall_mem_cons.mp hS
    -- the head is merged already, is merged now, or waits
    have hround : ∃ (c₁ : Composite α) (merged : Bool), Adds S c c₁ ∧
      (merged = true → l.merged = true ∨ l.list.Sublist c₁.list) ∧
        (mergeRound (l :: ls) c).lists = { l with merged } :: (mergeRound ls c₁).lists ∧
        (mergeRound (l :: ls) c).composite = (mergeRound ls c₁).composite ∧
        ((mergeRound (l :: ls) c).waiting = 0 → merged = true ∧ (mergeRound ls c₁).waiting = 0) := by
      rw [mergeRound]
      split
      next hmerged =>
        exact ⟨c, true, adds_refl c, fun _ => Or.inl hmerged, by rw [← hmerged], rfl, fun h => ⟨rfl, h⟩⟩
      next hmerged =>
        have hgoes := cilOrderedListsMerge_goes hl
        split
        next u c₁ hmerge =>
          exact ⟨c₁, true, hgoes.ok c u c₁ hmerge, fun _ => Or.inr (cilOrderedListsMerge_ok hmerge), rfl, rfl,
            fun h => ⟨rfl, h⟩⟩
        next c₁ hmerge =>
          refine ⟨c₁, false, hgoes.error c c₁ hmerge, fun h => absurd h Bool.false_ne_true, ?_, rfl,
            fun h => absurd h (Nat.succ_ne_zero _)⟩
          rw [← Bool.eq_false_iff.mpr hmerged]
    obtain ⟨c₁, merged, hadds, hmerged, hlists, hcomposite, hwaiting⟩ := hround
    obtain ⟨hadds', hmap, hkept, hall⟩ := ih hls c₁
    rw [hlists, hcomposite]
    refine ⟨adds_trans c c₁ _ hadds hadds', by rw [map_cons, map_cons, hmap], ?_, ?_⟩
    · intro hbefore
      obtain ⟨hhead, htail⟩ := forall_mem_cons.mp hbefore
      refine forall_mem_cons.mpr ⟨?_, hkept fun l' hl' hm => (htail l' hl' hm).trans hadds.sublist⟩
      intro hm
      rcases hmerged hm with h | h
      · exact (hhead h).trans (hadds.sublist.trans hadds'.sublist)
      · exact h.trans hadds'.sublist
    · intro hw
      obtain ⟨hm, hw⟩ := hwaiting hw
      exact forall_mem_cons.mpr ⟨hm, hall hw⟩

omit [DecidableEq α] in
theorem exists_mem_of_map_eq {f : β → List α} {l l' : List β} (h : l'.map f = l.map f) {b : β} (hb : b ∈ l) :
    ∃ b' ∈ l', f b' = f b := mem_map.mp (h ▸ mem_map_of_mem hb)

theorem mergeRounds_spec {ls : List (OrderedList α)} (hS : ∀ l ∈ ls, ∀ x ∈ l.list, S x)
    (hmerged : ∀ l ∈ ls, l.merged = true → l.list.Sublist c.list) (h : mergeRounds ls c = some c') :
    Adds S c c' ∧ ∀ l ∈ ls, l.list.Sublist c'.list := by
  fun_induction mergeRounds ls c with
  | case1 ls c hwaiting =>
    cases h
    obtain ⟨hadds, hmap, hkept, hall⟩ := mergeRound_spec hS c
    refine ⟨hadds, ?_⟩
    intro l hl
    obtain ⟨l', hl', heq⟩ := exists_mem_of_map_eq hmap hl
    exact heq ▸ hkept hmerged l' hl' (hall hwaiting l' hl')
  | case2 ls c _ hchanged ih =>
    obtain ⟨hadds, hmap, hkept, -⟩ := mergeRound_spec hS c
    have hS' : ∀ l ∈ (mergeRound ls c).lists, ∀ x ∈ l.list, S x := by
      intro l hl x hx
      obtain ⟨l', hl', heq⟩ := exists_mem_of_map_eq hmap.symm hl
      exact hS l' hl' x (heq ▸ hx)
    obtain ⟨hadds', hsub⟩ := ih hS' (hkept hmerged) h
    refine ⟨adds_trans c _ c' hadds hadds', ?_⟩
    intro l hl
    obtain ⟨l', hl', heq⟩ := exists_mem_of_map_eq hmap hl
    exact heq ▸ hsub l' hl'
  | case3 => cases h

/-! ## Unordered lists -/

theorem insertUnordered_ok {unordered : List (List α)} (h : insertUnordered unordered c = .ok () c') :
    Appends c c' ∧ ∀ u ∈ unordered, ∀ x ∈ u, x ∈ c'.list := by
  refine forM_ok appends_refl appends_trans (P := fun u c => ∀ x ∈ u, x ∈ c.list) ?_ ?_ h
  · intro u c c' hc hu x hx
    exact appends_mem x c c' hc (hu x hx)
  · intro u _ c c' h
    refine forM_ok appends_refl appends_trans appends_mem ?_ h
    intro x _ c c' h
    rw [current_bind] at h
    split at h
    next hx =>
      obtain ⟨-, rfl⟩ := pure_ok.mp h
      exact ⟨appends_refl c, hx⟩
    · rw [update_bind] at h
      obtain ⟨hbefore, hafter⟩ := cilOrderedItemInsert_ok h
      have hlist : c'.list = c.list ++ [x] := by
        rw [Composite.list, hbefore, hafter, Composite.moveTo, take_length, drop_length, append_nil]
      have hadds : Adds (fun _ => True) c c' := adds_trans c _ c' (adds_of_list (c.moveTo_list _) rfl)
        ((cilOrderedItemInsert_goes trivial).ok _ () c' h)
      refine ⟨⟨hadds.inv, hlist ▸ prefix_append _ _⟩, ?_⟩
      rw [hlist]
      exact mem_append_right _ (mem_singleton.mpr rfl)

/-! ## The composite list of all -/

/-- What is wanted of the composite list. -/
structure MergedRight (orderedLists unorderedLists : List (List α)) (c : List α) : Prop where
  once : ∀ l ∈ orderedLists, ∀ x ∈ l, c.count x = 1
  sublist : ∀ l ∈ orderedLists, l.Sublist c
  unorderedOnce : ∀ u ∈ unorderedLists, ∀ x ∈ u, c.count x = 1
  unorderedLast : ∀ u ∈ unorderedLists, ∀ x ∈ u, (∀ l ∈ orderedLists, x ∉ l) →
    ∀ l ∈ orderedLists, ∀ y ∈ l, c.idxOf y < c.idxOf x

theorem mergedRight_of {orderedLists unorderedLists : List (List α)} {merged c : List α}
    (hsub : ∀ l ∈ orderedLists, l.Sublist merged) (hadded : ∀ x ∈ merged, ∃ l ∈ orderedLists, x ∈ l) (hnodup : c.Nodup)
    (hfront : merged <+: c) (hall : ∀ u ∈ unorderedLists, ∀ x ∈ u, x ∈ c) : MergedRight orderedLists unorderedLists c where
  once l hl x hx := count_eq_one_of_mem hnodup (hfront.subset ((hsub l hl).subset hx))
  sublist l hl := (hsub l hl).trans hfront.sublist
  unorderedOnce u hu x hx := count_eq_one_of_mem hnodup (hall u hu x hx)
  unorderedLast u hu x hx hnone l hl y hy := by
    obtain ⟨rest, rfl⟩ := hfront
    have hx : x ∉ merged := by
      intro hin
      obtain ⟨l', hl', hxl'⟩ := hadded x hin
      exact hnone l' hl' hxl'
    have hy : y ∈ merged := (hsub l hl).subset hy
    have hlt : merged.idxOf y < merged.length := idxOf_lt_length_iff.mpr hy
    rw [idxOf_append_of_mem hy, idxOf_append_of_notMem hx]
    omega

/-- Whatever the flags of the items were, a list that is returned has each ordered list as a
    subsequence and each item once, and the items of unordered lists only behind all ordered
    ones. -/
theorem cilOrderedListsMergeAll_right {ordered : α → Bool} {orderedLists : List (List α)}
    {unorderedLists : Option (List (List α))}
    {c : List α} (h : cilOrderedListsMergeAll ordered orderedLists unorderedLists = some c) :
    MergedRight orderedLists (unorderedLists.getD []) c := by
  unfold cilOrderedListsMergeAll at h
  cases hrounds : mergeRounds (orderedLists.map fun list => { list }) ⟨[], [], ordered⟩ with
  | none =>
    rw [hrounds] at h
    cases h
  | some c₀ =>
    simp only [hrounds] at h
    obtain ⟨hadds, hsub⟩ := mergeRounds_spec (S := fun x => ∃ l ∈ orderedLists, x ∈ l)
      (forall_mem_map.mpr fun list hlist x hx => ⟨list, hlist, hx⟩)
        (forall_mem_map.mpr fun _ _ hm => absurd hm Bool.false_ne_true) hrounds
    have hsub : ∀ l ∈ orderedLists, l.Sublist c₀.list := fun l hl => hsub _ (mem_map_of_mem hl)
    have hinv : c₀.Inv := hadds.inv ⟨nodup_nil, forall_mem_nil _⟩
    have hadded : ∀ x ∈ c₀.list, ∃ l ∈ orderedLists, x ∈ l := fun x hx => (hadds.added x hx).resolve_left not_mem_nil
    cases unorderedLists with
    | none =>
      cases h
      exact mergedRight_of hsub hadded hinv.1 (prefix_refl _) (forall_mem_nil _)
    | some unordered =>
      simp only at h
      split at h
      next u c₁ hins =>
        cases h
        obtain ⟨happends, hall⟩ := insertUnordered_ok hins
        exact mergedRight_of hsub hadded (happends.inv hinv).1 happends.front hall
      · cases h

/-- A list with items in front of the other one and in a gap of it. -/
theorem cilOrderedListsMergeAll_right_gaps :
    cilOrderedListsMergeAll (fun _ => false) [[1, 3], [0, 1, 2, 3]] (some [[4, 0]]) = some [0, 1, 2, 3, 4] ∧
      MergedRight [[1, 3], [0, 1, 2, 3]] [[4, 0]] [0, 1, 2, 3, 4] := by
  have hmerge : cilOrderedListsMergeAll (fun _ => false) [[1, 3], [0, 1, 2, 3]] (some [[4, 0]]) = some [0, 1, 2, 3, 4] := by
    decide +kernel
  exact ⟨hmerge, cilOrderedListsMergeAll_right hmerge⟩

/-- A class that is in both kinds of statements stands in front of an ordered one. -/
theorem cilOrderedListsMergeAll_both : cilOrderedListsMergeAll (fun _ => false) [[0, 1]] (some [[0]]) = some [0, 1] ∧
    ¬([0, 1].idxOf 1 < [0, 1].idxOf 0) := by
  decide +kernel

end

end SELinux.Cil
