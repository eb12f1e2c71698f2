/-
  SELinux.Lib.Runs — runs of set bits on a walk.

  A walk visits positions one after the other and sees a bit at each. A run is a longest piece
  of the walk on which all bits are set; it ends at the position visited next, or at the end of
  the walk (`stop`). A walk may jump, so the positions of a run need not follow each other.

  - `flatMap_runs`: the positions of the runs are the set ones.
  - `chain_runs`: what holds from each visited position to the next holds along each run and
    at its end.
  - `cover_iff`: pieces of the runs make up the set positions exactly if each is the positions
    of its run.
  - `tight_iff`: a run fills the interval up to its end exactly if it makes steps of one.
-/
import Mathlib

namespace SELinux.Lib.Runs

open List

structure Run where
  first : Nat
  rest : List Nat
  stop : Nat

variable {ps : List (Nat × Bool)} {r : Run} {R : Nat → Nat → Prop} {i : Nat}

def Run.positions (r : Run) : List Nat := r.first :: r.rest

/-- The runs of a walk that has an open one. -/
def runsFrom (stop : Nat) : Option (Nat × List Nat) → List (Nat × Bool) → List Run
  | none, [] => []
  | some c, [] => [⟨c.1, c.2, stop⟩]
  | none, (p, true) :: ps => runsFrom stop (some (p, [])) ps
  | none, (_, false) :: ps => runsFrom stop none ps
  | some c, (p, true) :: ps => runsFrom stop (some (c.1, c.2 ++ [p])) ps
  | some c, (p, false) :: ps => ⟨c.1, c.2, p⟩ :: runsFrom stop none ps

def runs (stop : Nat) (ps : List (Nat × Bool)) : List Run := runsFrom stop none ps

/-- The positions of an open run. -/
def opened : Option (Nat × List Nat) → List Nat
  | none => []
  | some c => c.1 :: c.2

def setPositions (ps : List (Nat × Bool)) : List Nat := (ps.filter (·.2)).map (·.1)

variable {b a : Nat}

section

variable {stop : Nat}

theorem flatMap_runsFrom (cur : Option (Nat × List Nat)) (ps : List (Nat × Bool)) :
    (runsFrom stop cur ps).flatMap Run.positions = opened cur ++ setPositions ps := by
  fun_induction runsFrom stop cur ps with
  | case1 => rfl
  | case2 | case6 => simp_all [opened, setPositions, Run.positions]
  | _ => simp_all [opened, setPositions]

theorem flatMap_runs (stop : Nat) (ps : List (Nat × Bool)) : (runs stop ps).flatMap Run.positions = setPositions ps :=
  flatMap_runsFrom none ps

theorem chain_runsFrom (cur : Option (Nat × List Nat)) (h : (opened cur ++ (ps.map (·.1) ++ [stop])).IsChain R) :
    ∀ r ∈ runsFrom stop cur ps, (r.positions ++ [r.stop]).IsChain R := by
  fun_induction runsFrom stop cur ps with
  | case1 => exact forall_mem_nil _
  | case2 c => exact forall_mem_singleton.mpr h
  | case3 p ps ih => exact ih h
  | case4 p ps ih => exact ih h.tail
  | case5 c p ps ih => exact ih (by simpa [opened] using h)
  | case6 c p ps ih =>
    have hsplit : opened (some c) ++ (List.map (·.1) ((p, false) :: ps) ++ [stop]) =
        (opened (some c) ++ [p]) ++ (ps.map (·.1) ++ [stop]) := by simp
    rw [hsplit, isChain_append] at h
    exact forall_mem_cons.mpr ⟨h.1, ih h.2.1⟩

theorem chain_runs (h : (ps.map (·.1) ++ [stop]).IsChain R) :
    ∀ r ∈ runs stop ps, (r.positions ++ [r.stop]).IsChain R := chain_runsFrom none h

/-! ## Steps of a run -/

/-- The walk goes from `a`, a position of the run, to `b`. -/
def Run.Step (r : Run) (a b : Nat) : Prop := ∃ l₁ l₂, r.positions ++ [r.stop] = l₁ ++ a :: b :: l₂

theorem Run.isChain_iff : (r.positions ++ [r.stop]).IsChain R ↔ ∀ a b, r.Step a b → R a b := by
  rw [isChain_iff_forall_rel_of_append_cons_cons]
  constructor
  · intro h a b hab
    obtain ⟨l₁, l₂, heq⟩ := hab
    exact h heq
  · intro h a b l₁ l₂ heq
    exact h a b ⟨l₁, l₂, heq⟩

theorem Run.exists_step (ha : a ∈ r.positions) : ∃ b, r.Step a b := by
  obtain ⟨l₁, l₂, heq⟩ := append_of_mem ha
  cases l₂ with
  | nil => exact ⟨r.stop, l₁, [], by rw [heq]; simp⟩
  | cons b l₂ => exact ⟨b, l₁, l₂ ++ [r.stop], by rw [heq]; simp⟩

/-- A walk that has begun comes to what follows from a position of the run. -/
theorem Run.exists_before (first : Nat) (l₁ l₂ : List Nat) : ∃ a l, first :: l₁ ++ b :: l₂ = l ++ a :: b :: l₂ := by
  obtain ⟨l, a, heq⟩ := (eq_nil_or_concat (first :: l₁)).resolve_left (cons_ne_nil _ _)
  refine ⟨a, l, ?_⟩
  rw [heq]
  simp

theorem Run.exists_last (r : Run) : ∃ a, r.Step a r.stop := by
  obtain ⟨a, l, heq⟩ := exists_before r.first r.rest []
  exact ⟨a, l, [], heq⟩

theorem Run.exists_pred (hb : b ∈ r.rest) : ∃ a, r.Step a b := by
  obtain ⟨l₁, l₂, hrest⟩ := append_of_mem hb
  obtain ⟨a, l, heq⟩ := exists_before r.first l₁ (l₂ ++ [r.stop])
  refine ⟨a, l, l₂ ++ [r.stop], ?_⟩
  rw [← heq, Run.positions, hrest]
  simp

theorem Run.mem_of_step (h : r.Step a b) : a ∈ r.positions := by
  obtain ⟨l₁, l₂, heq⟩ := h
  have hlast : r.positions = (l₁ ++ a :: b :: l₂).dropLast := by rw [← heq, dropLast_concat]
  rw [hlast, dropLast_append_of_ne_nil (cons_ne_nil _ _)]
  exact mem_append_right _ mem_cons_self

/-! ## Increasing walks -/

/-- The walk goes up, to its end. -/
def Up (stop : Nat) (ps : List (Nat × Bool)) : Prop := (ps.map (·.1) ++ [stop]).IsChain (· < ·)

theorem le_first_of_mem {cur : Option (Nat × List Nat)} {bound : Nat}
    (hcur : ∀ p ∈ opened cur, bound ≤ p) (hps : ∀ e ∈ ps, bound ≤ e.1) : ∀ r ∈ runsFrom stop cur ps, bound ≤ r.first := by
  fun_induction runsFrom stop cur ps with
  | case1 => exact forall_mem_nil _
  | case2 c => exact forall_mem_singleton.mpr (hcur c.1 mem_cons_self)
  | case3 p ps ih =>
    obtain ⟨hp, htail⟩ := forall_mem_cons.mp hps
    exact ih (forall_mem_singleton.mpr hp) htail
  | case4 p ps ih => exact ih (forall_mem_nil _) (forall_mem_cons.mp hps).2
  | case5 c p ps ih =>
    obtain ⟨hp, htail⟩ := forall_mem_cons.mp hps
    refine ih ?_ htail
    intro q hq
    rw [opened, ← cons_append, mem_append, mem_singleton] at hq
    rcases hq with hq | rfl
    · exact hcur q hq
    · exact hp
  | case6 c p ps ih => exact forall_mem_cons.mpr ⟨hcur c.1 mem_cons_self, ih (forall_mem_nil _) (forall_mem_cons.mp hps).2⟩

/-- A run ends before the next one begins. -/
theorem apart_runsFrom (cur : Option (Nat × List Nat)) (hup : Up stop ps) :
    (runsFrom stop cur ps).Pairwise fun r r' => r.stop < r'.first := by
  fun_induction runsFrom stop cur ps with
  | case1 => exact List.Pairwise.nil
  | case2 => exact pairwise_singleton _ _
  | case3 p ps ih | case4 p ps ih | case5 c p ps ih => exact ih (List.IsChain.tail hup)
  | case6 c p ps ih =>
    refine pairwise_cons.mpr ⟨le_first_of_mem (forall_mem_nil _) ?_, ih (List.IsChain.tail hup)⟩
    intro e he
    have hsorted := isChain_iff_pairwise.mp hup
    have hmem : e.1 ∈ ps.map (·.1) ++ [stop] := mem_append_left _ (mem_map_of_mem he)
    exact (pairwise_cons.mp hsorted).1 e.1 hmem

theorem stop_le_runsFrom (cur : Option (Nat × List Nat)) (hup : Up stop ps) : ∀ r ∈ runsFrom stop cur ps, r.stop ≤ stop := by
  fun_induction runsFrom stop cur ps with
  | case1 => exact forall_mem_nil _
  | case2 => exact forall_mem_singleton.mpr (Nat.le_refl stop)
  | case3 p ps ih | case4 p ps ih | case5 c p ps ih => exact ih (List.IsChain.tail hup)
  | case6 c p ps ih =>
    have hp : p < stop :=
      (pairwise_cons.mp (isChain_iff_pairwise.mp hup)).1 stop (mem_append_right _ (mem_singleton_self stop))
    exact forall_mem_cons.mpr ⟨Nat.le_of_lt hp, ih (List.IsChain.tail hup)⟩

variable {ps : List (Nat × Bool)}

theorem eq_or_apart (hup : Up stop ps) {r r' : Run} (hr : r ∈ runs stop ps) (hr' : r' ∈ runs stop ps) :
    r = r' ∨ r.stop < r'.first ∨ r'.stop < r.first := by
  obtain ⟨i, hi, rfl⟩ := mem_iff_getElem.mp hr
  obtain ⟨j, hj, rfl⟩ := mem_iff_getElem.mp hr'
  have hapart := pairwise_iff_getElem.mp (apart_runsFrom none hup)
  rcases Nat.lt_trichotomy i j with hlt | rfl | hgt
  · exact Or.inr (Or.inl (hapart i j hi hj hlt))
  · exact Or.inl rfl
  · exact Or.inr (Or.inr (hapart j i hj hi hgt))

theorem Run.mem_bounds (h : (r.positions ++ [r.stop]).IsChain (· < ·)) (hi : i ∈ r.positions) :
    r.first ≤ i ∧ i < r.stop := by
  have hsorted := isChain_iff_pairwise.mp h
  obtain ⟨hpos, -, hstop⟩ := pairwise_append.mp hsorted
  refine ⟨?_, hstop i hi r.stop (mem_singleton_self _)⟩
  rcases mem_cons.mp hi with rfl | hi
  · exact Nat.le_refl _
  · exact Nat.le_of_lt ((pairwise_cons.mp hpos).1 i hi)

theorem mem_setPositions (stop : Nat) : i ∈ setPositions ps ↔ ∃ r ∈ runs stop ps, i ∈ r.positions := by
  rw [← flatMap_runs stop, mem_flatMap]

theorem Run.bounds (hup : Up stop ps) (hr : r ∈ runs stop ps) : r.first < r.stop ∧ r.stop ≤ stop :=
  ⟨(Run.mem_bounds (chain_runs hup r hr) mem_cons_self).2, stop_le_runsFrom none hup r hr⟩

/-- Of the set positions only those of a run are in its interval. -/
theorem mem_positions_of_bounds (hup : Up stop ps) (hr : r ∈ runs stop ps) (hi : i ∈ setPositions ps)
    (hlow : r.first ≤ i) (hhigh : i < r.stop) : i ∈ r.positions := by
  obtain ⟨r', hr', hi'⟩ := (mem_setPositions stop).mp hi
  obtain ⟨hlow', hhigh'⟩ := Run.mem_bounds (chain_runs hup r' hr') hi'
  rcases eq_or_apart hup hr hr' with rfl | h | h
  · exact hi'
  · omega
  · omega

/-- The end of a run is clear. -/
theorem stop_not_set (hup : Up stop ps) (hr : r ∈ runs stop ps) : r.stop ∉ setPositions ps := by
  intro hset
  obtain ⟨r', hr', hi'⟩ := (mem_setPositions stop).mp hset
  obtain ⟨hlow', hhigh'⟩ := Run.mem_bounds (chain_runs hup r' hr') hi'
  have hlt := (Run.bounds hup hr).1
  rcases eq_or_apart hup hr hr' with rfl | h | h
  · omega
  · omega
  · omega

/-- A step to a set position stays in the run. -/
theorem Run.step_mem (hup : Up stop ps) (hr : r ∈ runs stop ps) (h : r.Step a b) (hb : b ∈ setPositions ps) :
    b ∈ r.positions := by
  obtain ⟨l₁, l₂, heq⟩ := h
  have hmem : b ∈ r.positions ++ [r.stop] := by
    rw [heq]
    simp
  rcases mem_append.mp hmem with hmem | hmem
  · exact hmem
  · exact absurd (mem_singleton.mp hmem ▸ hb) (stop_not_set hup hr)

theorem Run.eq_of_mem (hup : Up stop ps) {r r' : Run} (hr : r ∈ runs stop ps) (hr' : r' ∈ runs stop ps)
    (hi : i ∈ r.positions) (hi' : i ∈ r'.positions) : r = r' := by
  obtain ⟨hlow, hhigh⟩ := Run.mem_bounds (chain_runs hup r hr) hi
  obtain ⟨hlow', hhigh'⟩ := Run.mem_bounds (chain_runs hup r' hr') hi'
  rcases eq_or_apart hup hr hr' with h | h | h
  · exact h
  · omega
  · omega

/-- Pieces of the intervals make up the set positions exactly if each is its run. -/
theorem cover_iff (hup : Up stop ps) {P : Run → Nat → Prop}
    (hP : ∀ r ∈ runs stop ps, ∀ i, P r i → r.first ≤ i ∧ i < r.stop) :
    (∀ i, (∃ r ∈ runs stop ps, P r i) ↔ i ∈ setPositions ps) ↔ ∀ r ∈ runs stop ps, ∀ i, P r i ↔ i ∈ r.positions := by
  constructor
  · intro h r hr i
    constructor
    · intro hi
      obtain ⟨hlow, hhigh⟩ := hP r hr i hi
      exact mem_positions_of_bounds hup hr ((h i).mp ⟨r, hr, hi⟩) hlow hhigh
    · intro hi
      -- the piece that has `i` is of the same run
      obtain ⟨r', hr', hi'⟩ := (h i).mpr ((mem_setPositions stop).mpr ⟨r, hr, hi⟩)
      obtain ⟨hlow, hhigh⟩ := Run.mem_bounds (chain_runs hup r hr) hi
      obtain ⟨hlow', hhigh'⟩ := hP r' hr' i hi'
      rcases eq_or_apart hup hr hr' with rfl | h | h
      · exact hi'
      · omega
      · omega
  · intro h i
    rw [mem_setPositions stop]
    exact exists_congr fun r => and_congr_right fun hr => h r hr i

theorem tight_positions {first stop : Nat} {rest : List Nat} (h : (first :: rest ++ [stop]).IsChain (· < ·)) :
    (∀ i, first ≤ i → i < stop → i ∈ first :: rest) ↔ (first :: rest ++ [stop]).IsChain fun a b => b = a + 1 := by
  induction rest generalizing first with
  | nil =>
    have hlt : first < stop := by simpa using h
    constructor
    · intro hfill
      have hstop : stop = first + 1 := by
        by_contra hne
        have := hfill (first + 1) (by omega) (by omega)
        simp at this
      simpa using hstop
    · intro hstep i hlow hhigh
      have hstop : stop = first + 1 := by simpa using hstep
      rw [mem_singleton]
      omega
  | cons next rest ih =>
    have hlt : first < next := (isChain_cons_cons.mp h).1
    have htail : (next :: rest ++ [stop]).IsChain (· < ·) := (isChain_cons_cons.mp h).2
    have hsorted := (pairwise_append.mp (isChain_iff_pairwise.mp htail)).1
    show _ ↔ (first :: next :: (rest ++ [stop])).IsChain _
    rw [isChain_cons_cons, ← cons_append, ← ih htail]
    have hstop : next < stop := by
      have := (pairwise_append.mp (isChain_iff_pairwise.mp htail)).2.2
      exact this next mem_cons_self stop (mem_singleton_self _)
    constructor
    · intro hfill
      refine ⟨?_, ?_⟩
      · by_contra hne
        rcases mem_cons.mp (hfill (first + 1) (by omega) (by omega)) with heq | hmem
        · omega
        · rcases mem_cons.mp hmem with heq | hmem
          · omega
          · have := (pairwise_cons.mp hsorted).1 _ hmem
            omega
      · intro i hlow hhigh
        rcases mem_cons.mp (hfill i (by omega) hhigh) with heq | hmem
        · omega
        · exact hmem
    · intro hstep i hlow hhigh
      obtain ⟨hnext, hfill⟩ := hstep
      by_cases heq : i = first
      · exact heq ▸ mem_cons_self
      · exact mem_cons_of_mem _ (hfill i (by omega) hhigh)

/-- A run is the interval up to its end exactly if it makes steps of one. -/
theorem Run.tight_iff (h : (r.positions ++ [r.stop]).IsChain (· < ·)) :
    (∀ i, r.first ≤ i ∧ i < r.stop ↔ i ∈ r.positions) ↔ ∀ a b, r.Step a b → b = a + 1 := by
  rw [← Run.isChain_iff (R := fun a b => b = a + 1)]
  refine Iff.trans ?_ (tight_positions h)
  constructor
  · intro hall i hlow hhigh
    exact (hall i).mp ⟨hlow, hhigh⟩
  · intro hfill i
    exact ⟨fun hi => hfill i hi.1 hi.2, Run.mem_bounds h⟩

end

end SELinux.Lib.Runs
