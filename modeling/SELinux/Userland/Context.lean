/-
  SELinux.Userland.Context — contexts as libselinux hands them to programs
  (`libselinux/src/context.c`).

  `context_new` counts the colons of the whole text and then cuts it into a user, a role, a type
  and, past a third colon, a range; the cutting ends where the text ends. `context_str` joins the
  components that are there. The setters check the characters of a component, not how many colons
  a range has nor whether it is empty.

  Proved: `contextNew_str_iff`, for every text and every sequence of setters. A text that is
  accepted comes back as it was, with user, role and type, unless it ends at its second or third
  colon: the component behind that colon is then not there. What the setters made is read back
  as it is if the last component is not empty and a range has at most two colons.

  Allocation succeeds. The text is that of C strings; `current_str`, which only keeps the last
  text for its caller, is left out.
-/
import Mathlib

namespace SELinux.Userland

open List Option

abbrev Str := List Char

inductive Comp
  | user
  | role
  | type
  | range
  deriving DecidableEq, Repr

/-- `context_private_t`; `none` is NULL. -/
structure ContextPrivate where
  user : Option Str := none
  role : Option Str := none
  type : Option Str := none
  range : Option Str := none
  deriving DecidableEq, Repr

variable {s : Str} {n : ContextPrivate}

/-- The first loop of `context_new`: the number of colons, if the characters are allowed. -/
def countColons : Nat → Str → Option Nat
  | count, [] => some count
  | count, c :: p =>
    if c = ':' then countColons (count + 1) p
    else if c = '\n' ∨ c = '\t' ∨ c = '\r' then none
    else if c = ' ' ∧ count < 3 then none
    else countColons count p

/-- The second loop, with the number of components that still end at a colon. -/
def cutComponents : Nat → Str → List Str
  | _, [] => []
  | 0, tok => [tok]
  | left + 1, tok => tok.takeWhile (· != ':') :: cutComponents left ((tok.dropWhile (· != ':')).drop 1)

def contextNew (str : Str) : Option ContextPrivate := do
  let count ← countColons 0 str
  if count < 2 ∨ 5 < count then none
  else
    let component := cutComponents 3 str
    return { user := component[0]?, role := component[1]?, type := component[2]?, range := component[3]? }

/-- The text a component adds. -/
def joinComp : Option Str → Str
  | none => []
  | some component => ':' :: component

/-- There is no result without a user: `stpcpy` is called with it. -/
def contextStr (n : ContextPrivate) : Option Str :=
  n.user.map fun user => user ++ [n.role, n.type, n.range].flatMap joinComp

/-- What `set_comp` refuses. -/
def badChar (idx : Comp) (p : Char) : Bool :=
  p == '\t' || p == '\n' || p == '\r' || ((p == ':' || p == ' ') && idx != .range)

def putComp (n : ContextPrivate) (idx : Comp) (t : Option Str) : ContextPrivate :=
  match idx with
  | .user => { n with user := t }
  | .role => { n with role := t }
  | .type => { n with type := t }
  | .range => { n with range := t }

/-- `none` is a failure, which leaves the context as it was. -/
def setComp (n : ContextPrivate) (idx : Comp) (str : Option Str) : Option ContextPrivate :=
  match str with
  | none => some (putComp n idx none)
  | some str => if str.any (badChar idx) then none else some (putComp n idx (some str))

/-- Setters one after the other, all of which succeed. -/
def setComps (n : ContextPrivate) (sets : List (Comp × Option Str)) : Option ContextPrivate :=
  sets.foldlM (fun n set => setComp n set.1 set.2) n

/-! ## What the loops of `context_new` do -/

/-- A user, role or type. -/
def Plain (s : Str) : Prop := ∀ c ∈ s, c ≠ ':' ∧ c ≠ ' ' ∧ c ≠ '\t' ∧ c ≠ '\n' ∧ c ≠ '\r'

/-- A range. -/
def Printed (s : Str) : Prop := ∀ c ∈ s, c ≠ '\t' ∧ c ≠ '\n' ∧ c ≠ '\r'

theorem countColons_plain (hs : Plain s) (count : Nat) (rest : Str) :
    countColons count (s ++ rest) = countColons count rest := by
  induction s with
  | nil => rfl
  | cons c s ih =>
    obtain ⟨⟨hcolon, hspace, htab, hnl, hcr⟩, hs⟩ := forall_mem_cons.mp hs
    simp [countColons, hcolon, hspace, htab, hnl, hcr, ih hs]

@[simp] theorem countColons_colon (count : Nat) (rest : Str) :
    countColons count (':' :: rest) = countColons (count + 1) rest := by
  rw [countColons, if_pos rfl]

variable {count : Nat}

/-- In a range all printed characters are allowed. -/
theorem countColons_printed (hs : Printed s) (hcount : 3 ≤ count) : countColons count s = some (count + s.count ':') := by
  induction s generalizing count with
  | nil => simp [countColons]
  | cons c s ih =>
    obtain ⟨⟨htab, hnl, hcr⟩, hs⟩ := forall_mem_cons.mp hs
    by_cases hcolon : c = ':'
    · rw [hcolon, countColons_colon, ih hs (Nat.le_succ_of_le hcount), count_cons_self]
      congr 1
      omega
    · have hlate : ¬count < 3 := by omega
      simp [countColons, hcolon, htab, hnl, hcr, hlate, ih hs hcount]

theorem cutComponents_colon (hs : ':' ∉ s) (left : Nat) (rest : Str) :
    cutComponents (left + 1) (s ++ ':' :: rest) = s :: cutComponents left rest := by
  have hkeep : ∀ c ∈ s, (c != ':') = true := fun c hc => bne_iff_ne.mpr fun h => hs (h ▸ hc)
  obtain ⟨c, l, heq⟩ := exists_cons_of_ne_nil (append_ne_nil_of_right_ne_nil s (cons_ne_nil ':' rest))
  rw [heq, cutComponents, ← heq, takeWhile_append_of_pos hkeep, dropWhile_append_of_pos hkeep]
  · simp
  · exact cons_ne_nil c l

/-- The last component ends with the text. -/
theorem cutComponents_end {left : Nat} (hs : ':' ∉ s ∨ left = 0) : cutComponents left s = if s = [] then [] else [s] := by
  cases s with
  | nil => simp [cutComponents]
  | cons c s =>
    cases left with
    | zero => simp [cutComponents]
    | succ left =>
      have hkeep : ∀ x ∈ c :: s, (x != ':') = true := by
        intro x hx
        exact bne_iff_ne.mpr fun h => hs.resolve_right (Nat.succ_ne_zero left) (h ▸ hx)
      rw [cutComponents, takeWhile_eq_self_iff.mpr hkeep, dropWhile_eq_nil_iff.mpr hkeep]
      · simp [cutComponents]
      · exact cons_ne_nil c s

/-- Before the third colon an accepted text has plain components only. -/
theorem cut_of_countColons {k : Nat} (hcount : count < 3) (h : countColons count s = some k) :
    Plain s ∧ k = count ∨ ∃ a rest, s = a ++ ':' :: rest ∧ Plain a ∧ countColons (count + 1) rest = some k := by
  fun_induction countColons count s with
  | case1 => exact Or.inl ⟨forall_mem_nil _, (Option.some.inj h).symm⟩
  | case2 count s => exact Or.inr ⟨[], s, rfl, forall_mem_nil _, h⟩
  | case5 count c s hcolon hctl hspace ih =>
    have hc : c ≠ ':' ∧ c ≠ ' ' ∧ c ≠ '\t' ∧ c ≠ '\n' ∧ c ≠ '\r' := by tauto
    rcases ih hcount h with ⟨hs, hk⟩ | ⟨a, rest, hs, ha, hrest⟩
    · exact Or.inl ⟨forall_mem_cons.mpr ⟨hc, hs⟩, hk⟩
    · exact Or.inr ⟨c :: a, rest, by rw [hs]; rfl, forall_mem_cons.mpr ⟨hc, ha⟩, hrest⟩
  | case3 | case4 => cases h

/-- Behind it the text is printed. -/
theorem printed_of_countColons {k : Nat} (h : countColons count s = some k) : Printed s := by
  fun_induction countColons count s with
  | case1 => exact forall_mem_nil _
  | case2 count s ih => exact forall_mem_cons.mpr ⟨by decide, ih h⟩
  | case5 count c s hcolon hctl hspace ih => exact forall_mem_cons.mpr ⟨by tauto, ih h⟩
  | case3 | case4 => cases h

/-! ## Contexts from text -/

/-- What stands at the end of a text is a component only if it is not empty. -/
def lastComp (s : Str) : Option Str := if s = [] then none else some s

theorem Plain.no_colon (hs : Plain s) : ':' ∉ s := fun h => (hs _ h).1 rfl

section Text

variable {u r t : Str} (hu : Plain u) (hr : Plain r) (ht : Plain t)
include hu hr ht

theorem contextNew_three : contextNew (u ++ ':' :: (r ++ ':' :: t)) =
    some { user := some u, role := some r, type := lastComp t } := by
  have hcount : countColons 0 (u ++ ':' :: (r ++ ':' :: t)) = some 2 := by
    have htail := countColons_plain ht 2 []
    rw [append_nil] at htail
    rw [countColons_plain hu, countColons_colon, countColons_plain hr, countColons_colon, htail]
    rfl
  unfold contextNew
  rw [hcount, cutComponents_colon hu.no_colon, cutComponents_colon hr.no_colon, cutComponents_end (Or.inl ht.no_colon)]
  by_cases hempty : t = []
  · simp [lastComp, hempty]
  · simp [lastComp, hempty]

theorem contextNew_four {g : Str} (hg : Printed g) : contextNew (u ++ ':' :: (r ++ ':' :: (t ++ ':' :: g))) =
    if 2 < g.count ':' then none else some { user := some u, role := some r, type := some t, range := lastComp g } := by
  have hcount : countColons 0 (u ++ ':' :: (r ++ ':' :: (t ++ ':' :: g))) = some (3 + g.count ':') := by
    rw [countColons_plain hu, countColons_colon, countColons_plain hr, countColons_colon, countColons_plain ht,
      countColons_colon, countColons_printed hg (Nat.le_refl 3)]
  have hmany : (3 + g.count ':' < 2 ∨ 5 < 3 + g.count ':') ↔ 2 < g.count ':' := by omega
  unfold contextNew
  rw [hcount, cutComponents_colon hu.no_colon, cutComponents_colon hr.no_colon, cutComponents_colon ht.no_colon,
    cutComponents_end (Or.inr rfl)]
  simp only [bind_eq_bind, bind_some, hmany]
  by_cases hempty : g = []
  · simp [lastComp, hempty]
  · simp [lastComp, hempty]

end Text

/-- An accepted text has two colons, or more and then a range. -/
theorem text_of_contextNew (h : contextNew s = some n) :
    ∃ u r t, Plain u ∧ Plain r ∧ Plain t ∧ (s = u ++ ':' :: (r ++ ':' :: t) ∨
      ∃ g, Printed g ∧ g.count ':' ≤ 2 ∧ s = u ++ ':' :: (r ++ ':' :: (t ++ ':' :: g))) := by
  unfold contextNew at h
  simp only [bind_eq_bind, bind_eq_some_iff] at h
  obtain ⟨k, hk, hbound⟩ := h
  split_ifs at hbound with hrange
  rcases cut_of_countColons (by decide) hk with ⟨-, hk0⟩ | ⟨u, s₁, rfl, hu, hk₁⟩
  · omega
  · rcases cut_of_countColons (by decide) hk₁ with ⟨-, hk1⟩ | ⟨r, s₂, rfl, hr, hk₂⟩
    · omega
    · rcases cut_of_countColons (by decide) hk₂ with ⟨ht, -⟩ | ⟨t, g, rfl, ht, hk₃⟩
      · exact ⟨u, r, s₂, hu, hr, ht, Or.inl rfl⟩
      · have hg := printed_of_countColons hk₃
        rw [countColons_printed hg (Nat.le_refl 3)] at hk₃
        refine ⟨u, r, t, hu, hr, ht, Or.inr ⟨g, hg, ?_, rfl⟩⟩
        have := Option.some.inj hk₃
        omega

/-! ## There and back -/

/-- The user, the role and the type are there. -/
def Present (n : ContextPrivate) : Prop := n.user.isSome = true ∧ n.role.isSome = true ∧ n.type.isSome = true

/-- A colon at the end is one of a range. -/
def EndsInComponent (s : Str) : Prop := s.getLast? = some ':' → 3 < s.count ':'

theorem Plain.count_colon (hs : Plain s) : s.count ':' = 0 := count_eq_zero.mpr hs.no_colon

theorem getLast?_colon (x s : Str) : (x ++ ':' :: s).getLast? = some (s.getLast?.getD ':') := by
  rw [List.getLast?_append, List.getLast?_cons, some_or]

/-- A text that ends in a component without colons. -/
theorem getLast?_plain {x s : Str} (hs : ':' ∉ s) : (x ++ ':' :: s).getLast? = some ':' ↔ s = [] := by
  rw [getLast?_colon, Option.some.injEq]
  constructor
  · intro h
    by_contra hne
    rw [List.getLast?_eq_getLast_of_ne_nil hne] at h
    exact hs (h ▸ getLast_mem hne)
  · intro h
    rw [h]
    rfl

section

variable {u r t : Str} (hu : Plain u) (hr : Plain r) (ht : Plain t)
include hu hr ht

theorem endsInComponent_three : EndsInComponent (u ++ ':' :: (r ++ ':' :: t)) ↔ t ≠ [] := by
  have hcount : (u ++ ':' :: (r ++ ':' :: t)).count ':' = 2 := by
    simp [count_append, hu.count_colon, hr.count_colon, ht.count_colon]
  have hlast := getLast?_plain (x := u ++ ':' :: r) ht.no_colon
  rw [append_assoc, cons_append] at hlast
  rw [EndsInComponent, hcount, hlast]
  simp

theorem endsInComponent_four (g : Str) : EndsInComponent (u ++ ':' :: (r ++ ':' :: (t ++ ':' :: g))) ↔ g ≠ [] := by
  have hcount : (u ++ ':' :: (r ++ ':' :: (t ++ ':' :: g))).count ':' = 3 + g.count ':' := by
    simp [count_append, hu.count_colon, hr.count_colon, ht.count_colon]
    omega
  have hlast := getLast?_colon (u ++ ':' :: (r ++ ':' :: t)) g
  simp only [append_assoc, cons_append] at hlast
  rw [EndsInComponent, hcount, hlast, Option.some.injEq]
  constructor
  · intro h hempty
    rw [hempty] at h
    exact absurd (h rfl) (by decide)
  · intro hne hcolon
    rw [List.getLast?_eq_getLast_of_ne_nil hne] at hcolon
    have hmem : ':' ∈ g := hcolon ▸ getLast_mem hne
    have := count_pos_iff.mpr hmem
    omega

end

/-- The text comes back unless it ends at its second or third colon. -/
theorem contextStr_contextNew_iff (h : contextNew s = some n) : Present n ∧ contextStr n = some s ↔ EndsInComponent s := by
  obtain ⟨u, r, t, hu, hr, ht, rfl | ⟨g, hg, hcolons, rfl⟩⟩ := text_of_contextNew h
  · rw [contextNew_three hu hr ht] at h
    cases h
    rw [endsInComponent_three hu hr ht]
    by_cases hempty : t = []
    · simp [Present, lastComp, hempty]
    · simp [Present, contextStr, joinComp, lastComp, hempty]
  · rw [contextNew_four hu hr ht hg, if_neg (by omega)] at h
    cases h
    rw [endsInComponent_four hu hr ht]
    by_cases hempty : g = []
    · simp [Present, contextStr, joinComp, lastComp, hempty]
    · simp [Present, contextStr, joinComp, lastComp, hempty]

/-! ## Setters -/

/-- The characters of the components are those their place allows. -/
structure Sane (n : ContextPrivate) : Prop where
  user : ∀ s ∈ n.user, Plain s
  role : ∀ s ∈ n.role, Plain s
  type : ∀ s ∈ n.type, Plain s
  range : ∀ s ∈ n.range, Printed s

theorem lastComp_mem {P : Str → Prop} (hs : P s) : ∀ x ∈ lastComp s, P x := by
  intro x hx
  unfold lastComp at hx
  split at hx
  · cases hx
  · cases hx
    exact hs

theorem sane_contextNew (h : contextNew s = some n) : Sane n := by
  obtain ⟨u, r, t, hu, hr, ht, rfl | ⟨g, hg, hcolons, rfl⟩⟩ := text_of_contextNew h
  · rw [contextNew_three hu hr ht] at h
    cases h
    exact ⟨by simpa using hu, by simpa using hr, lastComp_mem ht, nofun⟩
  · rw [contextNew_four hu hr ht hg, if_neg (by omega)] at h
    cases h
    exact ⟨by simpa using hu, by simpa using hr, by simpa using ht, lastComp_mem hg⟩

theorem plain_of_badChar {idx : Comp} (hidx : idx ≠ .range) (h : s.any (badChar idx) = false) : Plain s := by
  intro c hc
  have hbad := any_eq_false.mp h c hc
  simp [badChar, hidx] at hbad
  tauto

theorem printed_of_badChar (h : s.any (badChar .range) = false) : Printed s := by
  intro c hc
  have hbad := any_eq_false.mp h c hc
  simp [badChar] at hbad
  tauto

/-- One setter. -/
theorem Sane.setComp {n n' : ContextPrivate} (hn : Sane n) {idx : Comp} {str : Option Str}
    (h : setComp n idx str = some n') : Sane n' := by
  unfold Userland.setComp at h
  cases str with
  | none =>
    cases h
    cases idx with
    | user => exact { hn with user := nofun }
    | role => exact { hn with role := nofun }
    | type => exact { hn with type := nofun }
    | range => exact { hn with range := nofun }
  | some str =>
    simp only at h
    split_ifs at h with hgood
    rw [Bool.not_eq_true] at hgood
    cases h
    cases idx with
    | user => exact { hn with user := by simpa [putComp] using plain_of_badChar (by decide) hgood }
    | role => exact { hn with role := by simpa [putComp] using plain_of_badChar (by decide) hgood }
    | type => exact { hn with type := by simpa [putComp] using plain_of_badChar (by decide) hgood }
    | range => exact { hn with range := by simpa [putComp] using printed_of_badChar hgood }

/-- All of them. -/
theorem Sane.setComps {n n' : ContextPrivate} (hn : Sane n) {sets : List (Comp × Option Str)}
    (h : setComps n sets = some n') : Sane n' := by
  induction sets generalizing n with
  | nil =>
    cases h
    exact hn
  | cons set sets ih =>
    obtain ⟨n₁, hset, hrest⟩ := bind_eq_some_iff.mp h
    exact ih (hn.setComp hset) hrest

/-- The last component is not empty, and a range has at most two colons. -/
def Rereadable (n : ContextPrivate) : Prop :=
  match n.range with
  | none => n.type ≠ some []
  | some range => range ≠ [] ∧ range.count ':' ≤ 2

theorem lastComp_eq_iff : lastComp s = some s ↔ s ≠ [] := by
  unfold lastComp
  split
  · simp_all
  · simp_all

theorem contextNew_contextStr_iff (hn : Sane n) (hp : Present n) :
    (contextStr n).bind contextNew = some n ↔ Rereadable n := by
  obtain ⟨user, role, type, range⟩ := n
  obtain ⟨huser, hrole, htype⟩ := hp
  obtain ⟨u, rfl⟩ := isSome_iff_exists.mp huser
  obtain ⟨r, rfl⟩ := isSome_iff_exists.mp hrole
  obtain ⟨t, rfl⟩ := isSome_iff_exists.mp htype
  have hu := hn.user u rfl
  have hr := hn.role r rfl
  have ht := hn.type t rfl
  cases range with
  | none =>
    have hnew := contextNew_three hu hr ht
    simp only [contextStr, joinComp, map_some, bind_some, flatMap_cons, flatMap_nil, append_nil,
      cons_append, hnew, Rereadable]
    simp [lastComp_eq_iff]
  | some g =>
    have hnew := contextNew_four hu hr ht (hn.range g rfl)
    simp only [contextStr, joinComp, map_some, bind_some, flatMap_cons, flatMap_nil, append_nil,
      cons_append, hnew, Rereadable]
    by_cases hmany : 2 < g.count ':'
    · simp [hmany]
    · simp [hmany, lastComp_eq_iff]
      omega

/-- Texts come back unless they end at their second or third colon; what setters made is read
    back unless its last component is empty or its range has more than two colons. -/
theorem contextNew_str_iff (s : Str) (n : ContextPrivate) (h : contextNew s = some n) :
    (Present n ∧ contextStr n = some s ↔ EndsInComponent s) ∧
      ∀ sets n', setComps n sets = some n' → Present n' → ((contextStr n').bind contextNew = some n' ↔ Rereadable n') := by
  refine ⟨contextStr_contextNew_iff h, ?_⟩
  intro sets n' hsets hp
  exact contextNew_contextStr_iff ((sane_contextNew h).setComps hsets) hp

/-- A text with a range, and the range replaced by one with spaces. -/
theorem contextNew_str_ranged :
    (contextStr { user := some ['u'], role := some ['r'], type := some ['t'], range := some "s0-s1:c0".toList } =
        some "u:r:t:s0-s1:c0".toList) ∧
      (contextStr { user := some ['u'], role := some ['r'], type := some ['t'], range := some "System Low".toList }).bind
          contextNew =
        some { user := some ['u'], role := some ['r'], type := some ['t'], range := some "System Low".toList } := by
  have h := contextNew_str_iff "u:r:t:s0-s1:c0".toList
    { user := some ['u'], role := some ['r'], type := some ['t'], range := some "s0-s1:c0".toList } (by decide +kernel)
  have hends : EndsInComponent "u:r:t:s0-s1:c0".toList := fun hlast => absurd hlast (by decide +kernel)
  refine ⟨(h.1.mpr hends).2, (h.2 [(.range, some "System Low".toList)] _ (by decide +kernel) ⟨rfl, rfl, rfl⟩).mpr ?_⟩
  exact ⟨by decide +kernel, by decide +kernel⟩

/-- A text that ends at its second colon has no type; a range that is empty or has three colons
    does not come back. -/
theorem contextNew_str_loses : contextNew "u:r:".toList = some { user := some ['u'], role := some ['r'] } ∧
    contextStr { user := some ['u'], role := some ['r'] } = some "u:r".toList ∧
    contextNew "u:r:t".toList = some { user := some ['u'], role := some ['r'], type := some ['t'] } ∧
    (setComp { user := some ['u'], role := some ['r'], type := some ['t'] } .range (some [])).bind contextStr =
      some "u:r:t:".toList ∧
    contextNew "u:r:t:".toList = some { user := some ['u'], role := some ['r'], type := some ['t'] } ∧
    (setComp { user := some ['u'], role := some ['r'], type := some ['t'] } .range (some "a:b:c:d".toList)).bind contextStr =
      some "u:r:t:a:b:c:d".toList ∧
    contextNew "u:r:t:a:b:c:d".toList = none := by decide +kernel

end SELinux.Userland
