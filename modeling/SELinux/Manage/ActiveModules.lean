/-
  SELinux.Manage.ActiveModules — the modules that a policy is built from
  (`libsemanage/src/semanage_store.c`: `semanage_get_active_modules`).

  All installed modules come with the highest priority first. An enabled one whose name is new is
  cloned into the array, which is sorted by name at the end. When a clone fails, the loop that
  releases the array goes `for (i = 0; i < j; j++)`: with a record in it, it releases the first one
  again and again, until `j` overflows.

  `getActiveModules_iff`: it does what it should exactly when the clones of the modules in use all
  succeed or the first one fails. `second_clone_fails` has two modules. Failures to allocate the
  arrays and the list of names are left out.
-/
import Mathlib

namespace SELinux.Manage

open List

/-- `semanage_module_info_t`, without the language. -/
structure ModuleInfo where
  priority : BitVec 16
  name : List Char
  enabled : Int := 1
  deriving DecidableEq, Repr

/-- The loop over all modules: whether it came to the end, and the array. `cloneFails j` is whether
    the clone into entry `j` fails. -/
def cloneActive (cloneFails : Nat → Bool) (list : List (List Char)) (modinfo : List ModuleInfo) :
    List ModuleInfo → Bool × List ModuleInfo
  | [] => (true, modinfo)
  | m :: all =>
    if m.enabled ≠ 1 then cloneActive cloneFails list modinfo all
    else if list.contains m.name then cloneActive cloneFails list modinfo all
    else if cloneFails modinfo.length then (false, modinfo)
    else cloneActive cloneFails (m.name :: list) (modinfo ++ [m]) all

/-- The indexes that the loop under `cleanup` releases; `none` is an overflow of `j`. -/
def cleanup (i j : Nat) : Option (List Nat) :=
  if i < j then
    if j + 1 < 2 ^ 31 then (cleanup i (j + 1)).map (i :: ·) else none
  else some []
  termination_by 2 ^ 31 - j

/-- 0 with the array, or -1 with what has been released of it. -/
inductive ActiveResult
  | success (modinfo : List ModuleInfo)
  | failure (released : List Nat)
  deriving DecidableEq, Repr

/-- `semanage_get_active_modules_cmp` -/
def byName (a b : ModuleInfo) : Bool := a.name ≤ b.name

def getActiveModules (cloneFails : Nat → Bool) (all : List ModuleInfo) : Option ActiveResult :=
  let (done, modinfo) := cloneActive cloneFails [] [] all
  if done then some (.success (modinfo.mergeSort byName))
  else (cleanup 0 modinfo.length).map .failure

/-! ## What it is for -/

/-- Enabled modules of different names. -/
structure Picks (all modinfo : List ModuleInfo) : Prop where
  distinct : modinfo.Pairwise fun a b => a.name ≠ b.name
  installed : ∀ m ∈ modinfo, m ∈ all ∧ m.enabled = 1

/-- One record for each name that has an enabled module, the one of highest priority. -/
structure Chosen (all modinfo : List ModuleInfo) : Prop extends Picks all modinfo where
  complete : ∀ m ∈ all, m.enabled = 1 → ∃ m' ∈ modinfo, m'.name = m.name ∧ m.priority ≤ m'.priority

/-- The names that have an enabled module. -/
def activeNames (all : List ModuleInfo) : Finset (List Char) :=
  ((all.filter (·.enabled = 1)).map (·.name)).toFinset

/-- Without a failure the active modules in the order of their names; with one, all clones before
    it released once. -/
def ActiveRight (cloneFails : Nat → Bool) (all : List ModuleInfo) : Prop :=
  match getActiveModules cloneFails all with
  | none => False
  | some (.success modinfo) =>
    (∀ j < (activeNames all).card, cloneFails j = false) ∧ Chosen all modinfo ∧
      modinfo.Pairwise fun a b => a.name < b.name
  | some (.failure released) =>
    ∃ k < (activeNames all).card, cloneFails k = true ∧ (∀ j < k, cloneFails j = false) ∧ released.Perm (range k)

variable {cloneFails : Nat → Bool} {list : List (List Char)} {modinfo l done all : List ModuleInfo}
  {m : ModuleInfo} {ok : Bool}

/-! ## The loops -/

theorem Picks.mono (h : Picks done modinfo) (hsub : done ⊆ all) : Picks all modinfo :=
  ⟨h.distinct, fun m hm => ⟨hsub (h.installed m hm).1, (h.installed m hm).2⟩⟩

theorem Picks.take (h : Picks done modinfo) (henabled : m.enabled = 1) (hnew : ∀ m' ∈ modinfo, m'.name ≠ m.name) :
    Picks (done ++ [m]) (modinfo ++ [m]) where
  distinct := by
    rw [pairwise_append]
    exact ⟨h.distinct, pairwise_singleton _ _, fun m' hm' => forall_mem_singleton.mpr (hnew m' hm')⟩
  installed := by
    rw [forall_mem_append, forall_mem_singleton]
    exact ⟨(h.mono (subset_append_left _ _)).installed, mem_concat_self, henabled⟩

theorem Chosen.skip (h : Chosen done modinfo)
    (hm : m.enabled = 1 → ∃ m' ∈ modinfo, m'.name = m.name ∧ m.priority ≤ m'.priority) :
    Chosen (done ++ [m]) modinfo where
  toPicks := h.toPicks.mono (subset_append_left _ _)
  complete := forall_mem_append.mpr ⟨h.complete, forall_mem_singleton.mpr hm⟩

theorem Chosen.take (h : Chosen done modinfo) (henabled : m.enabled = 1)
    (hnew : ∀ m' ∈ modinfo, m'.name ≠ m.name) : Chosen (done ++ [m]) (modinfo ++ [m]) where
  toPicks := h.toPicks.take henabled hnew
  complete := by
    rw [forall_mem_append, forall_mem_singleton]
    refine ⟨fun m' hm' hen => ?_, fun _ => ⟨m, mem_concat_self, rfl, BitVec.le_refl _⟩⟩
    obtain ⟨m1, hm1, hspec⟩ := h.complete m' hm' hen
    exact ⟨m1, mem_append_left _ hm1, hspec⟩

/-- The names in the list are those of the array, and what comes has no higher priority than what
    is in it. The loop makes all records or stops at the first clone that fails. -/
theorem cloneActive_spec (hrun : cloneActive cloneFails list modinfo all = (ok, l)) (h : Chosen done modinfo)
    (hlist : ∀ n, n ∈ list ↔ ∃ m ∈ modinfo, m.name = n) (hsorted : (done ++ all).Pairwise fun a b => b.priority ≤ a.priority)
    (hcloned : ∀ j < modinfo.length, cloneFails j = false) :
    (∀ j < l.length, cloneFails j = false) ∧ if ok then Chosen (done ++ all) l
      else cloneFails l.length = true ∧ ∃ m, Picks (done ++ all) (l ++ [m]) := by
  induction all generalizing done list modinfo with
  | nil =>
    cases hrun
    exact ⟨hcloned, by rwa [append_nil]⟩
  | cons m all ih =>
    have hdone := (pairwise_append.mp hsorted).2.2
    rw [append_cons] at hsorted ⊢
    simp only [cloneActive, contains_iff_mem] at hrun
    split_ifs at hrun with hdisabled hseen hfails
    · exact ih hrun (h.skip fun henabled => absurd henabled hdisabled) hlist hsorted hcloned
    · obtain ⟨m', hm', hname⟩ := (hlist m.name).mp hseen
      have hle := hdone m' (h.installed m' hm').1 m mem_cons_self
      exact ih hrun (h.skip fun _ => ⟨m', hm', hname, hle⟩) hlist hsorted hcloned
    all_goals
      have hnew : ∀ m' ∈ modinfo, m'.name ≠ m.name := fun m' hm' heq => hseen ((hlist _).mpr ⟨m', hm', heq⟩)
    · cases hrun
      exact ⟨hcloned, hfails, m, (h.toPicks.take (not_not.mp hdisabled) hnew).mono (subset_append_left _ _)⟩
    · refine ih hrun (h.take (not_not.mp hdisabled) hnew) (fun n => ?_) hsorted fun j hj => ?_
      · simp [hlist, or_comm, eq_comm, or_and_right, exists_or]
      · rw [length_append, length_singleton] at hj
        rcases Nat.lt_succ_iff_lt_or_eq.mp hj with hj | rfl
        · exact hcloned j hj
        · simpa using hfails

theorem Picks.length_le (h : Picks all l) : l.length ≤ (activeNames all).card := by
  have hnodup : (l.map (·.name)).Nodup := pairwise_map.mpr h.distinct
  rw [← length_map, ← toFinset_card_of_nodup hnodup]
  refine Finset.card_le_card fun n hn => ?_
  obtain ⟨m, hm, rfl⟩ := mem_map.mp (mem_toFinset.mp hn)
  simpa [activeNames] using ⟨m, h.installed m hm, rfl⟩

theorem Chosen.card_le (h : Chosen all l) : (activeNames all).card ≤ l.length := by
  have hsub : activeNames all ⊆ (l.map (·.name)).toFinset := by
    intro n hn
    simp only [activeNames, mem_toFinset, mem_map, mem_filter, decide_eq_true_eq] at hn ⊢
    obtain ⟨m, ⟨hm, hen⟩, rfl⟩ := hn
    obtain ⟨m', hm', hname, -⟩ := h.complete m hm hen
    exact ⟨m', hm', hname⟩
  exact (Finset.card_le_card hsub).trans ((toFinset_card_le _).trans_eq (length_map _))

theorem Chosen.sort (h : Chosen all modinfo) :
    Chosen all (modinfo.mergeSort byName) ∧ (modinfo.mergeSort byName).Pairwise fun a b => a.name < b.name := by
  have hperm := mergeSort_perm modinfo byName
  have hne := hperm.symm.pairwise h.distinct fun h => h.symm
  have hle : (modinfo.mergeSort byName).Pairwise fun a b => byName a b := by
    apply pairwise_mergeSort
    · simpa [byName] using fun a b c : ModuleInfo => le_trans
    · simpa [byName] using fun a b : ModuleInfo => le_total a.name b.name
  refine ⟨⟨⟨hne, ?_⟩, ?_⟩, hle.imp₂ (fun a b hab hne => lt_of_le_of_ne (of_decide_eq_true hab) hne) hne⟩
  · simpa only [hperm.mem_iff] using h.installed
  · simpa only [hperm.mem_iff] using h.complete

theorem cleanup_none {i j : Nat} (h : i < j) : cleanup i j = none := by
  fun_induction cleanup i j with
  | case1 j _ _ ih => rw [ih (by omega), Option.map_none]
  | case2 => rfl
  | case3 j hle => exact absurd h hle

/-- With a record in the array the clean-up has no end. -/
theorem not_activeRight (h : cloneActive cloneFails [] [] all = (false, m :: l)) : ¬ActiveRight cloneFails all := by
  have hget : getActiveModules cloneFails all = none := by simp [getActiveModules, h, cleanup_none]
  rw [ActiveRight, hget]
  exact not_false

/-! ## What decides -/

theorem getActiveModules_iff (cloneFails : Nat → Bool) (all : List ModuleInfo)
    (hsorted : all.Pairwise fun a b => b.priority ≤ a.priority) :
    ActiveRight cloneFails all ↔
      (∀ j < (activeNames all).card, cloneFails j = false) ∨ cloneFails 0 = true := by
  have hnone : Chosen [] [] := ⟨⟨.nil, by simp⟩, by simp⟩
  rcases hrun : cloneActive cloneFails [] [] all with ⟨ok, modinfo⟩
  obtain ⟨hcloned, hend⟩ := cloneActive_spec hrun hnone (by simp) hsorted (by simp)
  cases ok with
  | true =>
    have hchosen : Chosen all modinfo := hend
    have hall : ∀ j < (activeNames all).card, cloneFails j = false := fun j hj => hcloned j (hj.trans_le hchosen.card_le)
    refine iff_of_true ?_ (Or.inl hall)
    simpa [ActiveRight, getActiveModules, hrun] using And.intro hall hchosen.sort
  | false =>
    obtain ⟨hfails, m, hpicks⟩ := hend
    have hlt : modinfo.length < (activeNames all).card := by simpa using hpicks.length_le
    cases modinfo with
    | nil =>
      have hget : getActiveModules cloneFails all = some (.failure []) := by simp [getActiveModules, hrun, cleanup]
      rw [ActiveRight, hget]
      exact iff_of_true ⟨0, hlt, hfails, by simp, .refl _⟩ (Or.inr hfails)
    | cons m modinfo =>
      -- the array is not empty, and its length is the clone that failed
      refine iff_of_false (not_activeRight hrun) ?_
      rw [not_or, hcloned 0 (by simp)]
      refine ⟨fun hall => ?_, Bool.false_ne_true⟩
      rw [hall _ hlt] at hfails
      exact Bool.false_ne_true hfails

/-- `a` twice, `b` disabled and `c`. -/
def fourModules : List ModuleInfo :=
  [{ priority := 400, name := ['a'] }, { priority := 400, name := ['c'] },
    { priority := 100, name := ['b'], enabled := 0 }, { priority := 100, name := ['a'] }]

/-- The third clone would fail, and there are two. -/
theorem two_clones_of_four : ActiveRight (fun j => j == 2) fourModules :=
  (getActiveModules_iff _ _ (by decide)).mpr (by decide)

theorem second_clone_fails : ¬ActiveRight (fun j => j == 1) fourModules :=
  not_activeRight (show cloneActive _ [] [] fourModules = (false, [{ priority := 400, name := ['a'] }]) by decide)

end SELinux.Manage
