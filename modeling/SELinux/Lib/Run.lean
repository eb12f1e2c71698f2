/-
  SELinux.Lib.Run — loops that may fail, and runs of a system.

  A loop over a list threads a state and stops at the first failure. What one round does to
  the state, when it is a reflexive and transitive relation, the whole loop does
  (`foldlM_rel`); what one round keeps, the loop keeps (`foldlM_inv`, and `foldlM_exists` or
  `foldlM_some` when no round fails). A loop that does not look at its state is `foldlM_last`. What holds of
  the state and the elements gone through so far is `foldlM_split` and `foldlM_history`. `mapM_inverse` is for a
  loop that searches something for each element, and `exists_mapM_iff` says when it has a
  result. `bind_ok_iff` takes one step of a computation apart.
-/
import Mathlib

namespace SELinux.Lib.Run

open List Option

variable {ε σ α : Type}

variable {β : Type}

theorem bind_ok_iff {x : Except ε α} {f : α → Except ε β} {b : β} : (x >>= f) = .ok b ↔ ∃ a, x = .ok a ∧ f a = .ok b := by
  cases x with
  | error e => simp [bind, Except.bind]
  | ok a => simp [bind, Except.bind]

variable {l : List α} {f : σ → α → Except ε σ} {s s' : σ}

theorem foldlM_ok_cons {a : α} (h : (a :: l).foldlM f s = .ok s') : ∃ t, f s a = .ok t ∧ l.foldlM f t = .ok s' := by
  exact bind_ok_iff.mp h

theorem foldlM_rel {R : σ → σ → Prop} (refl : ∀ s, R s s) (trans : ∀ {a b c}, R a b → R b c → R a c)
    (step : ∀ s a s', a ∈ l → f s a = .ok s' → R s s') (h : l.foldlM f s = .ok s') : R s s' := by
  induction l generalizing s with
  | nil => cases h; exact refl _
  | cons a l ih =>
    obtain ⟨t, ht, hl⟩ := foldlM_ok_cons h
    exact trans (step s a t mem_cons_self ht)
      (ih (fun s b s' hb => step s b s' (mem_cons_of_mem _ hb)) hl)

variable {P : σ → Prop}

theorem foldlM_inv (step : ∀ s a s', a ∈ l → P s → f s a = .ok s' → P s') (hs : P s) (h : l.foldlM f s = .ok s') : P s' :=
  foldlM_rel (R := fun s s' => P s → P s') (fun _ => id) (fun h1 h2 hp => h2 (h1 hp))
    (fun s a s' ha hf hp => step s a s' ha hp hf) h hs

/-- A loop no round of which fails. -/
theorem foldlM_exists (step : ∀ s, ∀ a ∈ l, P s → ∃ s', f s a = .ok s' ∧ P s') (hs : P s) :
    ∃ s', l.foldlM f s = .ok s' ∧ P s' := by
  induction l generalizing s with
  | nil => exact ⟨s, rfl, hs⟩
  | cons a l ih =>
    obtain ⟨t, ht, hPt⟩ := step s a mem_cons_self hs
    obtain ⟨s', hs', hP⟩ := ih (fun s b hb => step s b (mem_cons_of_mem _ hb)) hPt
    refine ⟨s', ?_, hP⟩
    rw [foldlM_cons, ht]
    exact hs'

theorem foldlM_some {f : σ → α → Option σ} (step : ∀ s, ∀ a ∈ l, P s → ∃ s', f s a = some s' ∧ P s') (hs : P s) :
    ∃ s', l.foldlM f s = some s' := by
  induction l generalizing s with
  | nil => exact ⟨s, rfl⟩
  | cons a l ih =>
    obtain ⟨t, ht, hPt⟩ := step s a mem_cons_self hs
    obtain ⟨s', hs'⟩ := ih (fun s b hb => step s b (mem_cons_of_mem a hb)) hPt
    refine ⟨s', ?_⟩
    rw [foldlM_cons, ht]
    exact hs'

/-- A loop that keeps a relation between the elements gone through and the state, where a round
    knows what stands before its element and behind it. -/
theorem foldlM_split {P : List α → σ → Prop} {f : σ → α → Option σ}
    (step : ∀ done a todo s s', done ++ a :: todo = l → P done s → f s a = some s' → P (done ++ [a]) s') (hs : P [] s)
    (h : l.foldlM f s = some s') : P l s' := by
  have run : ∀ todo done, done ++ todo = l → ∀ s, P done s → todo.foldlM f s = some s' → P l s' := by
    intro todo
    induction todo with
    | nil =>
      intro done hl s hs h
      cases h
      rw [← hl, append_nil]
      exact hs
    | cons a todo ih =>
      intro done hl s hs h
      obtain ⟨t, ht, hrest⟩ := bind_eq_some_iff.mp h
      have hl' : done ++ [a] ++ todo = l := by
        rw [← append_cons]
        exact hl
      exact ih (done ++ [a]) hl' t (step done a todo s t hl hs ht) hrest
  exact run l [] rfl s hs h

theorem foldlM_history {P : List α → σ → Prop} {f : σ → α → Option σ}
    (step : ∀ done a s s', (∀ b ∈ done ++ [a], b ∈ l) → P done s → f s a = some s' → P (done ++ [a]) s') (hs : P [] s)
    (h : l.foldlM f s = some s') : P l s' := by
  refine foldlM_split ?_ hs h
  intro done a todo s s' hl
  refine step done a s s' ?_
  intro b hb
  rw [← hl, append_cons]
  exact mem_append_left todo hb

/-- A loop inside a loop goes through the lists one after the other. -/
theorem foldlM_flatMap (f : σ → β → Option σ) (g : α → List β) (l : List α) (s : σ) :
    (l.flatMap g).foldlM f s = l.foldlM (fun s a => (g a).foldlM f s) s := by
  induction l generalizing s with
  | nil => rfl
  | cons a l ih =>
    rw [flatMap_cons, foldlM_append]
    exact congrArg _ (funext ih)

theorem mapM_cons_some {f : α → Option β} {a : α} {bs : List β} :
    (a :: l).mapM f = some bs ↔ ∃ b, f a = some b ∧ ∃ bs', l.mapM f = some bs' ∧ b :: bs' = bs := by
  simp [mapM_cons, bind_eq_some_iff]

/-- A loop that finds for each element one that `g` leads back from. -/
theorem mapM_inverse {f : α → Option β} {g : β → α} {P : β → Prop} {l' : List β}
    (step : ∀ a ∈ l, ∀ b, f a = some b → g b = a ∧ P b) (h : l.mapM f = some l') : l'.map g = l ∧ ∀ b ∈ l', P b := by
  induction l generalizing l' with
  | nil =>
    cases h
    exact ⟨rfl, forall_mem_nil _⟩
  | cons a l ih =>
    obtain ⟨b, hb, bs, hbs, rfl⟩ := mapM_cons_some.mp h
    obtain ⟨hg, hP⟩ := step a mem_cons_self b hb
    obtain ⟨hmap, hall⟩ := ih (fun c hc => step c (mem_cons_of_mem a hc)) hbs
    exact ⟨by rw [map_cons, hg, hmap], forall_mem_cons.mpr ⟨hP, hall⟩⟩

/-- What the rounds work on can be computed before. -/
theorem foldlM_bind (g : α → Option β) (f : σ → β → Option σ) (l : List α) (s : σ) :
    l.foldlM (fun s a => (g a).bind (f s)) s = (l.mapM g).bind fun bs => bs.foldlM f s := by
  induction l generalizing s with
  | nil => rfl
  | cons a l ih =>
    rw [foldlM_cons, mapM_cons]
    cases g a with
    | none => rfl
    | some b =>
      simp only [Option.bind_eq_bind, Option.bind_some, Option.bind_assoc, ih, foldlM_cons, Option.pure_def]
      exact Option.bind_comm (f s b) (l.mapM g)

/-- A loop has a result if all its rounds have. -/
theorem exists_mapM_iff {f : α → Option β} : (∃ l', l.mapM f = some l') ↔ ∀ a ∈ l, ∃ b, f a = some b := by
  induction l with
  | nil => exact iff_of_true ⟨[], rfl⟩ (forall_mem_nil _)
  | cons a l ih =>
    simp only [mapM_cons_some, forall_mem_cons, ← ih]
    constructor
    · rintro ⟨_, b, hb, bs, hbs, -⟩
      exact ⟨⟨b, hb⟩, bs, hbs⟩
    · rintro ⟨⟨b, hb⟩, bs, hbs⟩
      exact ⟨_, b, hb, bs, hbs, rfl⟩

theorem mapM_mono {f g : α → Option β} (step : ∀ a b, f a = some b → g a = some b) {l' : List β}
    (h : l.mapM f = some l') : l.mapM g = some l' := by
  induction l generalizing l' with
  | nil => exact h
  | cons a l ih =>
    obtain ⟨b, hb, bs, hbs, rfl⟩ := mapM_cons_some.mp h
    exact mapM_cons_some.mpr ⟨b, step a b hb, bs, ih hbs, rfl⟩

/-- A loop whose rounds only leave their own result behind ends with the last one's. -/
theorem foldlM_last {f : α → Except ε σ} {t : σ} : l.foldlM (fun _ a => f a) s = .ok t ↔
      (∀ a ∈ l, ∃ x, f a = .ok x) ∧ (l = [] ∧ t = s ∨ ∃ a, l.getLast? = some a ∧ f a = .ok t) := by
  induction l generalizing s with
  | nil =>
    constructor
    · intro h
      cases h
      exact ⟨forall_mem_nil _, Or.inl ⟨rfl, rfl⟩⟩
    · intro h
      rcases h with ⟨-, ⟨-, rfl⟩ | ⟨a, ha, -⟩⟩
      · rfl
      · cases ha
  | cons a l ih =>
    rw [foldlM_cons]
    cases hf : f a with
    | error e =>
      refine iff_of_false (fun h => nomatch h) ?_
      intro h
      obtain ⟨x, hx⟩ := h.1 a mem_cons_self
      rw [hf] at hx
      cases hx
    | ok x =>
      refine (ih (s := x)).trans ?_
      rw [forall_mem_cons, and_iff_right (show ∃ y, f a = .ok y from ⟨x, hf⟩)]
      cases l with
      | nil => simp [hf, eq_comm]
      | cons b l => simp

/-- A loop of rounds without a value. -/
theorem foldlM_unit {f : α → Except ε Unit} : l.foldlM (fun _ a => f a) () = .ok () ↔ ∀ a ∈ l, ∃ u, f a = .ok u := by
  rw [foldlM_last]
  refine and_iff_left_of_imp ?_
  intro h
  cases hlast : l.getLast? with
  | none => exact Or.inl ⟨List.getLast?_eq_none_iff.mp hlast, rfl⟩
  | some a =>
    obtain ⟨_, hu⟩ := h a (mem_of_getLast? hlast)
    exact Or.inr ⟨a, rfl, hu⟩

end SELinux.Lib.Run
