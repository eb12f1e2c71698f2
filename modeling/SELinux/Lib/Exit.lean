/-
  SELinux.Lib.Exit — functions with one early exit.

  Such a function works on a state and, at any of its tests, may jump to its end. The state it
  has reached is kept, so a status variable in it has the value of the last assignment.
  `bind_ok` and `bind_error` take a run apart; `Leaves` says what holds at every early exit, and
  `Goes` what the function does to its state wherever it ends. `forM_ok` is for a loop without
  early exit.
-/
import Mathlib

namespace SELinux.Lib.Exit

abbrev Prog (σ α : Type) := EStateM Unit σ α

variable {ε σ α β : Type}

/-- Jumps to the end. -/
def leave : Prog σ α := fun s => .error () s

def update (f : σ → σ) : Prog σ Unit := fun s => .ok () (f s)

variable {s s' : σ}

theorem bind_ok {m : EStateM ε σ α} {f : α → EStateM ε σ β} {b : β} :
    (m >>= f) s = .ok b s' ↔ ∃ a s₁, m s = .ok a s₁ ∧ f a s₁ = .ok b s' := by
  show EStateM.bind m f s = _ ↔ _
  unfold EStateM.bind
  cases m s <;> simp

variable {m : Prog σ α} {f : α → Prog σ β}

theorem bind_error : (m >>= f) s = .error () s' ↔ m s = .error () s' ∨ ∃ a s₁, m s = .ok a s₁ ∧ f a s₁ = .error () s' := by
  show EStateM.bind m f s = _ ↔ _
  unfold EStateM.bind
  cases m s <;> simp

theorem bind_eq {m : EStateM ε σ α} {s₁ : σ} {a : α} (h : m s = .ok a s₁) (f : α → EStateM ε σ β) :
    (m >>= f) s = f a s₁ := by
  show EStateM.bind m f s = _
  unfold EStateM.bind
  rw [h]

theorem pure_ok {a b : α} : (pure a : EStateM ε σ α) s = .ok b s' ↔ a = b ∧ s = s' := by
  show EStateM.pure a s = _ ↔ _
  unfold EStateM.pure
  simp

theorem update_ok {f : σ → σ} {u : Unit} : update f s = .ok u s' ↔ f s = s' := by
  simp [update]

/-! ## Early exits -/

/-- Every early exit is in a state of `P`. -/
def Leaves (m : Prog σ α) (P : σ → Prop) : Prop := ∀ s s', m s = .error () s' → P s'

theorem Leaves.bind {P : σ → Prop} (hm : Leaves m P) (hf : ∀ a, Leaves (f a) P) : Leaves (m >>= f) P := by
  intro s s' h
  rcases bind_error.mp h with h | ⟨a, s₁, -, h⟩
  · exact hm s s' h
  · exact hf a s₁ s' h

theorem leaves_pure (a : α) (P : σ → Prop) : Leaves (pure a) P := fun _ _ h => nomatch h

theorem leaves_update (f : σ → σ) (P : σ → Prop) : Leaves (update f) P := fun _ _ h => nomatch h

/-! ## What a function does to its state -/

/-- Wherever the function ends, early or not, its state has gone this way. -/
structure Goes (R : σ → σ → Prop) (m : Prog σ α) : Prop where
  ok : ∀ s a s', m s = .ok a s' → R s s'
  error : ∀ s s', m s = .error () s' → R s s'

section

variable {R : σ → σ → Prop} (refl : ∀ s, R s s) (trans : ∀ s t u, R s t → R t u → R s u)

include refl in
theorem goes_pure (a : α) : Goes R (pure a) where
  ok s _ _ h := by
    obtain ⟨-, rfl⟩ := pure_ok.mp h
    exact refl s
  error _ _ h := nomatch h

include refl in
theorem goes_leave : Goes R (leave : Prog σ α) where
  ok _ _ _ h := nomatch h
  error s s' h := by
    cases h
    exact refl s

theorem goes_update {f : σ → σ} (hf : ∀ s, R s (f s)) : Goes R (update f) where
  ok s _ _ h := update_ok.mp h ▸ hf s
  error _ _ h := nomatch h

include trans in
theorem Goes.bind (hm : Goes R m) (hf : ∀ a, Goes R (f a)) : Goes R (m >>= f) where
  ok s b s' h := by
    obtain ⟨a, s₁, ha, hb⟩ := bind_ok.mp h
    exact trans s s₁ s' (hm.ok s a s₁ ha) ((hf a).ok s₁ b s' hb)
  error s s' h := by
    rcases bind_error.mp h with h | ⟨a, s₁, ha, hb⟩
    · exact hm.error s s' h
    · exact trans s s₁ s' (hm.ok s a s₁ ha) ((hf a).error s₁ s' hb)

include refl trans in
theorem goes_forM {f : α → Prog σ Unit} {l : List α} (hf : ∀ a ∈ l, Goes R (f a)) : Goes R (l.forM f) := by
  induction l with
  | nil => exact goes_pure refl ()
  | cons a l ih =>
    refine (hf a List.mem_cons_self).bind trans ?_
    intro _
    exact ih fun b hb => hf b (List.mem_cons_of_mem a hb)

include refl trans in
/-- What a loop that ends well has done for each of its elements. -/
theorem forM_ok {f : α → Prog σ Unit} {P : α → σ → Prop} (hP : ∀ a s t, R s t → P a s → P a t) {l : List α}
    (hf : ∀ a ∈ l, ∀ s s', f a s = .ok () s' → R s s' ∧ P a s') (h : l.forM f s = .ok () s') : R s s' ∧ ∀ a ∈ l, P a s' := by
  induction l generalizing s with
  | nil =>
    obtain ⟨-, rfl⟩ := pure_ok.mp h
    exact ⟨refl s, List.forall_mem_nil _⟩
  | cons a l ih =>
    obtain ⟨_, s₁, ha, hl⟩ := bind_ok.mp h
    obtain ⟨hR, hPa⟩ := hf a List.mem_cons_self s s₁ ha
    obtain ⟨hR', hall⟩ := ih (fun b hb => hf b (List.mem_cons_of_mem a hb)) hl
    exact ⟨trans s s₁ s' hR hR', List.forall_mem_cons.mpr ⟨hP a s₁ s' hR' hPa, hall⟩⟩

end

/-! ## Loops -/

/-- `m`, `n` times, with what it gives. -/
def times (m : Prog σ α) : Nat → Prog σ (List α)
  | 0 => pure []
  | n + 1 => do
    let a ← m
    let l ← times m n
    pure (a :: l)

theorem Leaves.times {P : σ → Prop} (hm : Leaves m P) (n : Nat) : Leaves (times m n) P := by
  induction n with
  | zero => exact leaves_pure [] P
  | succ n ih => exact hm.bind fun a => ih.bind fun l => leaves_pure (a :: l) P

end SELinux.Lib.Exit
