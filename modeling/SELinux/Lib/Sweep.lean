/-
  SELinux.Lib.Sweep — removing until nothing changes.

  A list of elements is gone through again and again; an element whose check fails against what
  is left is removed at once, and an element that must not be removed ends the whole thing. The
  check of an element is a monotone function of the set of elements that are left, so that the
  order of the removals does not matter: what is left in the end is the greatest set that keeps
  itself, the sweep fails when an element that must stay is not in it, and it ends after as many
  passes as there are elements, and one more (`sweepAll_spec`).

  Elements are told apart by a key.
-/
import Mathlib

namespace SELinux.Lib.Sweep

open List

variable {α ι ε : Type} [DecidableEq ι]

section Algorithm

variable (key : α → ι) (check : List ι → α → Except ε Bool) (keep : α → Option ε)

/-- One pass, with the keys of what has been removed and whether this pass removed something.
    `keep` is the error for an element that must stay. -/
def pass : List α → List ι × Bool → Except ε (List ι × Bool)
  | [], st => .ok st
  | a :: l, st =>
    if key a ∈ st.1 then pass l st
    else
      match check st.1 a with
      | .error e => .error e
      | .ok true => pass l st
      | .ok false =>
        match keep a with
        | some e => .error e
        | none => pass l (key a :: st.1, true)

/-- Passes until one of them removes nothing; `none` when the rounds run out. -/
def sweep (l : List α) : Nat → List ι → Option (Except ε (List ι))
  | 0, _ => none
  | fuel + 1, off =>
    match pass key check keep l (off, false) with
    | .error e => some (.error e)
    | .ok (off', true) => sweep l fuel off'
    | .ok (off', false) => some (.ok off')

end Algorithm

variable {key : α → ι} {check : List ι → α → Except ε Bool} {keep : α → Option ε} {l : List α}

/-- What is left. -/
def left (key : α → ι) (l : List α) (off : List ι) : Set α := { a | a ∈ l ∧ key a ∉ off }

/-- The check decides whether an element belongs to `f` of what is left. -/
def Decides (key : α → ι) (check : List ι → α → Except ε Bool) (l : List α) (f : Set α →o Set α) : Prop :=
  ∀ off, ∀ a ∈ l, ∃ b, check off a = .ok b ∧ (b = true ↔ a ∈ f (left key l off))

omit [DecidableEq ι] in
theorem left_cons {off : List ι} (hkey : (l.map key).Nodup) {a : α} (ha : a ∈ l) :
    left key l (key a :: off) = left key l off \ {a} := by
  ext b
  constructor
  · rintro ⟨hb, hnot⟩
    rw [mem_cons, not_or] at hnot
    refine ⟨⟨hb, hnot.2⟩, ?_⟩
    rintro rfl
    exact hnot.1 rfl
  · rintro ⟨⟨hb, hnot⟩, hne⟩
    refine ⟨hb, ?_⟩
    rw [mem_cons, not_or]
    exact ⟨fun heq => hne (inj_on_of_nodup_map hkey hb ha heq), hnot⟩

variable {f : Set α →o Set α}

/-- Once set, the mark of a removal stays. -/
theorem pass_mark {todo : List α} {st st' : List ι × Bool} (hst : st.2 = true)
    (h : pass key check keep todo st = .ok st') : st'.2 = true := by
  induction todo generalizing st with
  | nil =>
    cases h
    exact hst
  | cons b todo ih =>
    rw [pass] at h
    split at h
    · exact ih hst h
    · split at h
      · cases h
      · exact ih hst h
      · split at h
        · cases h
        · exact ih rfl h

/-- What a pass does, from the elements still to come in it on. -/
structure Passed (key : α → ι) (keep : α → Option ε) (l : List α) (f : Set α →o Set α) (todo : List α)
    (st st' : List ι × Bool) : Prop where
  safe : f.gfp ⊆ left key l st'.1
  removed : ∃ new, st'.1 = new ++ st.1 ∧ (st.2 = false → (st'.2 = true ↔ new ≠ []))
  nodup : st'.1.Nodup
  keys : ∀ k ∈ st'.1, k ∈ l.map key
  stay : ∀ a ∈ l, key a ∈ st'.1 → key a ∈ st.1 ∨ keep a = none
  closed : st'.1 = st.1 → ∀ a ∈ todo, key a ∉ st.1 → a ∈ f (left key l st.1)

/-- One pass: nothing that keeps itself is removed. -/
theorem pass_spec (keep : α → Option ε) (hkey : (l.map key).Nodup) (hcheck : Decides key check l f) (todo : List α)
    (htodo : ∀ a ∈ todo, a ∈ l)
    (st : List ι × Bool) (hsafe : f.gfp ⊆ left key l st.1) (hnodup : st.1.Nodup) (hkeys : ∀ k ∈ st.1, k ∈ l.map key) :
    (∀ st', pass key check keep todo st = .ok st' → Passed key keep l f todo st st') ∧
      ∀ e, pass key check keep todo st = .error e → ∃ a ∈ l, keep a = some e ∧ a ∉ f.gfp := by
  induction todo generalizing st with
  | nil =>
    refine ⟨?_, nofun⟩
    intro st' h
    cases h
    exact ⟨hsafe, ⟨[], rfl, by simp⟩, hnodup, hkeys, fun a _ h => Or.inl h, fun _ => forall_mem_nil _⟩
  | cons a todo ih =>
    obtain ⟨ha, htodo⟩ := forall_mem_cons.mp htodo
    obtain ⟨hok, herror⟩ := ih htodo st hsafe hnodup hkeys
    have hskip (h : key a ∉ st.1 → a ∈ f (left key l st.1)) (st' : List ι × Bool)
        (hst : pass key check keep todo st = .ok st') : Passed key keep l f (a :: todo) st st' :=
      { hok st' hst with closed := fun hsame => forall_mem_cons.mpr ⟨h, (hok st' hst).closed hsame⟩ }
    rw [pass]
    by_cases hoff : key a ∈ st.1
    · rw [if_pos hoff]
      exact ⟨hskip fun hnot => absurd hoff hnot, herror⟩
    · rw [if_neg hoff]
      obtain ⟨b, hb, hdecides⟩ := hcheck st.1 a ha
      rw [hb]
      cases b with
      | true => exact ⟨hskip fun _ => hdecides.mp rfl, herror⟩
      | false =>
        have hnot : a ∉ f (left key l st.1) := fun hin => Bool.false_ne_true (hdecides.mpr hin)
        -- `f` is monotone, so that an element that fails now fails in the greatest set
        have hgfp : a ∉ f.gfp := fun hin => hnot (f.mono hsafe (f.map_gfp.symm ▸ hin))
        cases hkeep : keep a with
        | some e =>
          refine ⟨nofun, ?_⟩
          intro e' h
          cases h
          exact ⟨a, ha, hkeep, hgfp⟩
        | none =>
          have hsafe' : f.gfp ⊆ left key l (key a :: st.1) := by
            rw [left_cons hkey ha]
            exact fun b hb => ⟨hsafe hb, fun heq => hgfp (heq ▸ hb)⟩
          obtain ⟨hok, herror⟩ := ih htodo (key a :: st.1, true) hsafe' (nodup_cons.mpr ⟨hoff, hnodup⟩)
            (forall_mem_cons.mpr ⟨mem_map_of_mem ha, hkeys⟩)
          refine ⟨?_, herror⟩
          intro st' h
          have hst := hok st' h
          obtain ⟨new, hnew, -⟩ := hst.removed
          have hmore : st'.1 = (new ++ [key a]) ++ st.1 := by rw [hnew, append_assoc]; rfl
          have hchanged : st'.2 = true := pass_mark rfl h
          refine ⟨hst.safe, ⟨new ++ [key a], hmore, fun _ => by simp [hchanged]⟩, hst.nodup, hst.keys, ?_, ?_⟩
          · intro b hb hin
            rcases hst.stay b hb hin with hin | hnone
            · rcases mem_cons.mp hin with heq | hin
              · obtain rfl := inj_on_of_nodup_map hkey hb ha heq
                exact Or.inr hkeep
              · exact Or.inl hin
            · exact Or.inr hnone
          · intro hsame
            have hlength := congrArg List.length (hmore.symm.trans hsame)
            simp only [length_append, length_singleton] at hlength
            omega

/-- A sweep from any point it can reach. -/
theorem sweep_spec (keep : α → Option ε) (hkey : (l.map key).Nodup) (hcheck : Decides key check l f) (fuel : Nat)
    (off : List ι) (hsafe : f.gfp ⊆ left key l off) (hnodup : off.Nodup) (hkeys : ∀ k ∈ off, k ∈ l.map key)
    (hstay : ∀ a ∈ l, key a ∈ off → keep a = none) (hfuel : l.length < fuel + off.length) :
    (∃ off', sweep key check keep l fuel off = some (.ok off') ∧ f.gfp ⊆ left key l off' ∧
      left key l off' ⊆ f (left key l off') ∧
        ∀ a ∈ l, key a ∈ off' → keep a = none) ∨
      ∃ e, sweep key check keep l fuel off = some (.error e) ∧ ∃ a ∈ l, keep a = some e ∧ a ∉ f.gfp := by
  induction fuel generalizing off with
  | zero =>
    -- everything has been removed, which is one more than there is
    have hle : off.length ≤ (l.map key).length := hnodup.length_le_of_subset hkeys
    rw [length_map] at hle
    omega
  | succ fuel ih =>
    obtain ⟨hok, herror⟩ := pass_spec keep hkey hcheck l (fun _ h => h) (off, false) hsafe hnodup hkeys
    rw [sweep]
    rcases hpass : pass key check keep l (off, false) with e | ⟨off', changed⟩
    · exact Or.inr ⟨e, rfl, herror e hpass⟩
    · have hst := hok _ hpass
      obtain ⟨new, hnew, hchanged⟩ := hst.removed
      have hstay' : ∀ a ∈ l, key a ∈ off' → keep a = none := by
        intro a ha hin
        rcases hst.stay a ha hin with hin | hnone
        · exact hstay a ha hin
        · exact hnone
      cases changed with
      | true =>
        have hne : new ≠ [] := (hchanged rfl).mp rfl
        have hlength : off'.length = new.length + off.length := by
          rw [← length_append]
          exact congrArg List.length hnew
        have hpos := length_pos_of_ne_nil hne
        exact ih off' hst.safe hst.nodup hst.keys hstay' (by omega)
      | false =>
        have hnil : new = [] := Decidable.not_not.mp fun hne => Bool.false_ne_true ((hchanged rfl).mpr hne)
        have hsame : off' = off := by rw [hnil] at hnew; exact hnew
        refine Or.inl ⟨off', rfl, hst.safe, ?_, hstay'⟩
        rintro a ⟨ha, hnot⟩
        rw [hsame] at hnot ⊢
        exact hst.closed hsame a ha hnot

variable (key check keep l)

/-- The whole thing: enough rounds for every element to be removed. -/
def sweepAll : Option (Except ε (List ι)) := sweep key check keep l (l.length + 1) []

variable {key check keep l}

theorem sweepAll_spec (keep : α → Option ε) (hkey : (l.map key).Nodup) (hcheck : Decides key check l f)
    (hall : ∀ s, f s ⊆ { a | a ∈ l }) :
    (∃ off, sweepAll key check keep l = some (.ok off) ∧ left key l off = f.gfp ∧ ∀ a ∈ l, a ∉ f.gfp → keep a = none) ∨
      ∃ e, sweepAll key check keep l = some (.error e) ∧ ∃ a ∈ l, keep a = some e ∧ a ∉ f.gfp := by
  have hstart : f.gfp ⊆ left key l [] := by
    intro a ha
    rw [← f.map_gfp] at ha
    exact ⟨hall _ ha, not_mem_nil⟩
  rcases sweep_spec keep hkey hcheck (l.length + 1) [] hstart nodup_nil (forall_mem_nil _) (fun _ _ h => nomatch h)
    (Nat.lt_succ_self _) with ⟨off, hoff, hsafe, hclosed, hstay⟩ | herror
  · have heq : left key l off = f.gfp := Set.Subset.antisymm (f.le_gfp hclosed) hsafe
    refine Or.inl ⟨off, hoff, heq, ?_⟩
    intro a ha hnot
    refine hstay a ha ?_
    by_cases hin : key a ∈ off
    · exact hin
    · exact absurd (heq ▸ (⟨ha, hin⟩ : a ∈ left key l off)) hnot
  · exact Or.inr herror

end SELinux.Lib.Sweep
