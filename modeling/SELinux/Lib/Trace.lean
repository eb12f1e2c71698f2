/-
  SELinux.Lib.Trace — computations that note what they do.

  A computation may fail, and notes events on its way (`Noted`: Mathlib's `WriterT` over
  `Option`); a traced reader takes bytes off its input besides (`Traced`). `Gives` says what
  such a computation returns and notes, step by step (`bind_iff`). `Meets` says on what it depends
  whether all events are good, and what is known of the result; `Good`, of a reader, that they
  are. Both go through the steps (`bind`) and through loops (`meets_foldlM`, `good_loop`,
  `good_times`).
-/
import SELinux.Lib.Wire

namespace SELinux.Lib.Trace

open Wire List

variable {ι α β σ : Type}

/-- A computation that may fail and notes events. -/
abbrev Noted (ι α : Type) := WriterT (List ι) Option α

/-- A reader that notes events. -/
abbrev Traced (ι α : Type) := StateT Bytes (WriterT (List ι) Option) α

/-- All events are good. -/
def All (P : ι → Prop) (w : List ι) : Prop := ∀ e ∈ w, P e

theorem all_nil (P : ι → Prop) : All P [] := nofun

theorem all_single {P : ι → Prop} {e : ι} : All P [e] ↔ P e := forall_mem_singleton

variable {w : List ι}

theorem all_append {P : ι → Prop} {w' : List ι} : All P (w ++ w') ↔ All P w ∧ All P w' := forall_mem_append

variable {a : α} {l : List α}

namespace Noted

def note (e : ι) : Noted ι Unit := tell [e]

/-- A result without events. -/
def give (o : Option α) : Noted ι α := WriterT.mk (o.map (·, []))

def check (c : Bool) : Noted ι Unit := give (if c then some () else none)

/-- The computation returns `a` and notes `w`. -/
def Gives (m : Noted ι α) (a : α) (w : List ι) : Prop := m.run = some (a, w)

theorem Gives.result {m : Noted ι α} (h : Gives m a w) (default : α) : (m.run.map (·.1)).getD default = a := by
  rw [show m.run = some (a, w) from h]
  rfl

theorem pure_iff {b : α} : Gives (pure a) b w ↔ a = b ∧ w = [] := by
  show some (a, []) = some (b, w) ↔ _
  rw [Option.some.injEq, Prod.mk.injEq, eq_comm (a := w)]

theorem bind_iff {m : Noted ι α} {f : α → Noted ι β} {b : β} :
    Gives (m >>= f) b w ↔ ∃ a w₁ w₂, Gives m a w₁ ∧ Gives (f a) b w₂ ∧ w = w₁ ++ w₂ := by
  show (m.run.bind fun e => (f e.1).run.map fun e' => (e'.1, e.2 ++ e'.2)) = some (b, w) ↔ _
  simp only [Option.bind_eq_some_iff, Option.map_eq_some_iff, Prod.exists, Prod.mk.injEq]
  constructor
  · rintro ⟨a, w₁, hm, b', w₂, hf, rfl, rfl⟩
    exact ⟨a, w₁, w₂, hm, hf, rfl⟩
  · rintro ⟨a, w₁, w₂, hm, hf, rfl⟩
    exact ⟨a, w₁, hm, b, w₂, hf, rfl, rfl⟩

theorem note_iff {e : ι} {u : Unit} : Gives (note e) u w ↔ w = [e] := by
  show some ((), [e]) = some (u, w) ↔ _
  rw [Option.some.injEq, Prod.mk.injEq, eq_comm (a := w)]
  exact and_iff_right rfl

theorem give_iff {o : Option α} : Gives (give o) a w ↔ o = some a ∧ w = [] := by
  show o.map (·, []) = some (a, w) ↔ _
  cases o with
  | none => simp
  | some b =>
    rw [Option.map_some, Option.some.injEq, Prod.mk.injEq, Option.some.injEq, eq_comm (a := w)]

theorem check_iff {c : Bool} {u : Unit} : Gives (check c) u w ↔ c = true ∧ w = [] := by
  rw [check, give_iff]
  cases c <;> simp

/-! ### Conditions -/

/-- Of what returns, all events are good exactly if `C`, and the result is as `Q` says. -/
def Meets (P : ι → Prop) (m : Noted ι α) (C : Prop) (Q : α → Prop) : Prop := ∀ a w, Gives m a w → (All P w ↔ C) ∧ Q a

section

variable {P : ι → Prop} {C C' : Prop} {Q : α → Prop} {Q' : β → Prop} {m m' : Noted ι α} {f : α → Noted ι β}

theorem meets_pure (h : Q a) : Meets P (pure a) True Q := by
  intro b w hb
  obtain ⟨rfl, rfl⟩ := pure_iff.mp hb
  exact ⟨iff_true_intro (all_nil P), h⟩

theorem meets_note (e : ι) : Meets P (note e) (P e) fun _ => True := by
  intro u w h
  obtain rfl := note_iff.mp h
  exact ⟨all_single, trivial⟩

theorem meets_give (o : Option α) : Meets P (give o) True (o = some ·) := by
  intro a w h
  obtain ⟨ho, rfl⟩ := give_iff.mp h
  exact ⟨iff_true_intro (all_nil P), ho⟩

theorem meets_check (c : Bool) : Meets P (check c) True fun _ => c = true := by
  intro u w h
  obtain ⟨hc, rfl⟩ := check_iff.mp h
  exact ⟨iff_true_intro (all_nil P), hc⟩

theorem meets_ite {c : Prop} [Decidable c] (h : c → Meets P m C Q) (h' : ¬c → Meets P m' C Q) :
    Meets P (if c then m else m') C Q := by
  split
  · exact h ‹c›
  · exact h' ‹¬c›

theorem Meets.imp {R : α → Prop} (h : Meets P m C Q) (hC : C ↔ C') (hR : ∀ a, Q a → R a) : Meets P m C' R := by
  intro a w ha
  obtain ⟨hw, hQ⟩ := h a w ha
  exact ⟨hw.trans hC, hR a hQ⟩

theorem Meets.bind (hm : Meets P m C Q) (hf : ∀ a, Q a → Meets P (f a) C' Q') : Meets P (m >>= f) (C ∧ C') Q' := by
  intro b w h
  obtain ⟨a, w₁, w₂, ha, hb, rfl⟩ := bind_iff.mp h
  obtain ⟨hw₁, hQ⟩ := hm a w₁ ha
  obtain ⟨hw₂, hQ'⟩ := hf a hQ b w₂ hb
  exact ⟨all_append.trans (and_congr hw₁ hw₂), hQ'⟩

theorem meets_pure_of (hC : C) (h : Q a) : Meets P (pure a) C Q := (meets_pure h).imp (iff_of_true trivial hC) fun _ => id

/-- The result is one that was returned. -/
theorem Meets.gives (h : Meets P m C Q) : Meets P m C fun a => Q a ∧ ∃ w, Gives m a w :=
  fun a w ha => ⟨(h a w ha).1, (h a w ha).2, w, ha⟩

theorem Meets.good (h : Meets P m C Q) (hC : C) : Meets P m True Q := h.imp (iff_true_intro hC) fun _ => id

/-- The first step's events are good. -/
theorem Meets.andThen (hm : Meets P m True Q) (hf : ∀ a, Q a → Meets P (f a) C Q') : Meets P (m >>= f) C Q' :=
  (hm.bind hf).imp (iff_of_eq (true_and C)) fun _ => id

/-- The events after the first step are good. -/
theorem Meets.before (hm : Meets P m C Q) (hf : ∀ a, Q a → Meets P (f a) True Q') : Meets P (m >>= f) C Q' :=
  (hm.bind hf).imp (iff_of_eq (and_true C)) fun _ => id

end

/-- A loop that keeps `I`; its events are good when those of its elements are. -/
theorem meets_foldlM {P : ι → Prop} {C : α → Prop} {I : σ → Prop} {f : σ → α → Noted ι σ}
    (step : ∀ s, I s → ∀ a ∈ l, Meets P (f s a) (C a) I) {s : σ} (hs : I s) : Meets P (l.foldlM f s) (∀ a ∈ l, C a) I := by
  induction l generalizing s with
  | nil => exact meets_pure_of (forall_mem_nil C) hs
  | cons a l ih =>
    rw [forall_mem_cons]
    exact (step s hs a mem_cons_self).bind fun t ht => ih (fun u hu b hb => step u hu b (mem_cons_of_mem a hb)) ht

/-- A loop all of whose rounds note good events. -/
theorem meets_foldlM_good {P : ι → Prop} {f : σ → α → Noted ι σ}
    (step : ∀ s, ∀ a ∈ l, Meets P (f s a) True fun _ => True) (s : σ) : Meets P (l.foldlM f s) True fun _ => True :=
  (meets_foldlM (fun s _ => step s) trivial).good fun _ _ => trivial

/-- Every round of a loop that returned has returned. -/
theorem foldlM_gives {f : σ → α → Noted ι σ} {s s' : σ} (h : Gives (l.foldlM f s) s' w) :
    ∀ a ∈ l, ∃ t t' w', Gives (f t a) t' w' := by
  induction l generalizing s w with
  | nil => exact forall_mem_nil _
  | cons a l ih =>
    obtain ⟨t, w₁, w₂, ht, hl, -⟩ := bind_iff.mp h
    exact forall_mem_cons.mpr ⟨⟨s, t, w₁, ht⟩, ih hl⟩

end Noted

variable {s' s : Bytes}

namespace Traced

/-- A reader without events. -/
def read (r : Reader α) : Traced ι α := fun s => Noted.give (r s)

/-- A computation that reads nothing. -/
def run (m : Noted ι α) : Traced ι α := StateT.lift m

/-- The reader returns `a`, leaves `s'` and notes `w`. -/
def Gives (m : Traced ι α) (s : Bytes) (a : α) (s' : Bytes) (w : List ι) : Prop := Noted.Gives (m s) (a, s') w

theorem pure_iff {b : α} : Gives (pure a) s b s' w ↔ a = b ∧ s = s' ∧ w = [] := by
  show Noted.Gives (pure (a, s)) (b, s') w ↔ _
  rw [Noted.pure_iff, Prod.mk.injEq, and_assoc]

theorem bind_iff {m : Traced ι α} {f : α → Traced ι β} {b : β} :
    Gives (m >>= f) s b s' w ↔ ∃ a t w₁ w₂, Gives m s a t w₁ ∧ Gives (f a) t b s' w₂ ∧ w = w₁ ++ w₂ := by
  show Noted.Gives (m s >>= fun e => f e.1 e.2) (b, s') w ↔ _
  rw [Noted.bind_iff]
  constructor
  · rintro ⟨⟨a, t⟩, w₁, w₂, hm, hf, hw⟩
    exact ⟨a, t, w₁, w₂, hm, hf, hw⟩
  · rintro ⟨a, t, w₁, w₂, hm, hf, hw⟩
    exact ⟨(a, t), w₁, w₂, hm, hf, hw⟩

theorem read_iff {r : Reader α} : Gives (read r) s a s' w ↔ r s = some (a, s') ∧ w = [] :=
  Noted.give_iff

theorem run_iff {m : Noted ι α} : Gives (run m) s a s' w ↔ Noted.Gives m a w ∧ s = s' := by
  show Noted.Gives (m >>= fun a => pure (a, s)) (a, s') w ↔ _
  rw [Noted.bind_iff]
  constructor
  · rintro ⟨b, w₁, w₂, hm, hp, rfl⟩
    obtain ⟨heq, rfl⟩ := Noted.pure_iff.mp hp
    cases heq
    rw [append_nil]
    exact ⟨hm, rfl⟩
  · rintro ⟨hm, rfl⟩
    exact ⟨a, w, [], hm, Noted.pure_iff.mpr ⟨rfl, rfl⟩, (append_nil w).symm⟩

/-- All events are good, and the result is as `Q` says. -/
def Good (P : ι → Prop) (m : Traced ι α) (Q : α → Prop) : Prop := ∀ s a s' w, Gives m s a s' w → All P w ∧ Q a

section

variable {P : ι → Prop} {Q : α → Prop} {Q' : β → Prop}

theorem good_pure (h : Q a) : Good P (pure a) Q := by
  intro s b s' w hb
  obtain ⟨rfl, -, rfl⟩ := pure_iff.mp hb
  exact ⟨all_nil P, h⟩

theorem good_read (r : Reader α) : Good P (read r) fun a => ∃ s s', r s = some (a, s') := by
  intro s a s' w h
  obtain ⟨hr, rfl⟩ := read_iff.mp h
  exact ⟨all_nil P, s, s', hr⟩

theorem good_run {m : Noted ι α} (h : Noted.Meets P m True Q) : Good P (run m) Q := by
  intro s a s' w ha
  obtain ⟨hw, hQ⟩ := h a w (run_iff.mp ha).1
  exact ⟨hw.mpr trivial, hQ⟩

theorem Good.bind {m : Traced ι α} {f : α → Traced ι β} (hm : Good P m Q) (hf : ∀ a, Q a → Good P (f a) Q') :
    Good P (m >>= f) Q' := by
  intro s b s' w h
  obtain ⟨a, t, w₁, w₂, ha, hb, rfl⟩ := bind_iff.mp h
  obtain ⟨hw₁, hQ⟩ := hm s a t w₁ ha
  obtain ⟨hw₂, hQ'⟩ := hf a hQ t b s' w₂ hb
  exact ⟨all_append.mpr ⟨hw₁, hw₂⟩, hQ'⟩

end

/-! ## Loops -/

/-- `for (i = 0; i < n; i++)` with a state. -/
def loop (f : σ → Traced ι σ) : Nat → σ → Traced ι σ
  | 0, s => pure s
  | n + 1, s => f s >>= loop f n

/-- `n` values one after the other. -/
def times (r : Traced ι α) : Nat → Traced ι (List α)
  | 0 => pure []
  | n + 1 => do
    let a ← r
    let l ← times r n
    return a :: l

/-- Rounds that keep an invariant. -/
theorem good_loop {P : ι → Prop} {I : σ → Prop} {f : σ → Traced ι σ} (step : ∀ x, I x → Good P (f x) I) (n : Nat)
    {x : σ} (hx : I x) : Good P (loop f n x) I := by
  induction n generalizing x with
  | zero => exact good_pure hx
  | succ n ih => exact (step x hx).bind fun y hy => ih hy

theorem good_times {P : ι → Prop} {Q : α → Prop} {r : Traced ι α} (h : Good P r Q) (n : Nat) :
    Good P (times r n) fun l => ∀ a ∈ l, Q a := by
  induction n with
  | zero => exact good_pure (forall_mem_nil Q)
  | succ n ih => exact h.bind fun a ha => ih.bind fun l hl => good_pure (forall_mem_cons.mpr ⟨ha, hl⟩)

end Traced

end SELinux.Lib.Trace
