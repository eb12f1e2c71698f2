/-
  SELinux.Label.Loaded — what a load of compiled file contexts that returns 0 has loaded.

  `Header`, `Body` and `Entry` are the parts of an image, and their `put` says how they stand
  in it. Each part of the loader succeeds exactly on what the corresponding `put` gives
  (`loadHeader_ok`, `loadBody_ok`, `loadContext_ok`), and leaves with -1 otherwise. What is left
  is the verdict on a context: `times_loadSpec_ok`, `times_loadSpec_error` and
  `times_loadSpec_rejects` follow the loop to its end, to a failure and to a rejection.
-/
import SELinux.Label.Compiled

namespace SELinux.Label.Compiled

open Lib.Wire Lib.Exit List

variable {u : Unit} {version : BitVec 32} {ctx rest : Bytes} {n : Nat} {b : Bytes}

variable {σ : Type}

/-! ## States -/

/-- After a successful read, with `rest` to come. -/
def Machine.at (s : Machine σ) (rest : Bytes) : Machine σ := { s with rc := 0, area := rest }

def Machine.fill (s : Machine σ) (f : Spec → Spec) : Machine σ := { s with data := { s.data with slot := f s.data.slot } }

section

variable (s : Machine σ) (r r' : Bytes) (f g : Spec → Spec)

@[simp] theorem area_at : (s.at r).area = r := rfl

@[simp] theorem data_at : (s.at r).data = s.data := rfl

@[simp] theorem at_at : (s.at r).at r' = s.at r' := rfl

@[simp] theorem slot_fill : (s.fill f).data.slot = f s.data.slot := rfl

@[simp] theorem fill_at : (s.at r).fill f = (s.fill f).at r := rfl

@[simp] theorem fill_fill : (s.fill f).fill g = s.fill fun slot => g (f slot) := rfl

end

/-- Every early exit reports a failure. -/
abbrev Fails {α : Type} (m : Load σ α) : Prop := Leaves m fun s => s.rc = -1

/-! ## The reads -/

variable {s s' : Machine σ}

theorem check_ok {c : Bool} : check c s = .ok u s' ↔ c = true ∧ s = s' := by
  unfold check
  cases c <;> simp

theorem fails_check (c : Bool) : Fails (check c : Load σ Unit) := by
  intro s s' h
  cases c
  · cases h
    rfl
  · cases h

theorem get_ok {t : Machine σ} : (get : Load σ (Machine σ)) s = .ok t s' ↔ t = s ∧ s' = s := by
  show EStateM.Result.ok s s = _ ↔ _
  simp [eq_comm]

theorem fails_get : Fails (get : Load σ (Machine σ)) := fun _ _ h => nomatch h

theorem setSlot_ok {f : Spec → Spec} : setSlot f s = .ok u s' ↔ s' = s.fill f := by
  rw [setSlot, update_ok, eq_comm]
  rfl

theorem fails_setSlot (f : Spec → Spec) : Fails (setSlot f : Load σ Unit) := leaves_update _ _

theorem nextEntry_ok : nextEntry n s = .ok b s' ↔ ∃ rest, b.length = n ∧ s.area = b ++ rest ∧ s' = s.at rest := by
  unfold nextEntry
  by_cases h : n > s.area.length
  · rw [if_pos h]
    refine iff_of_false (nomatch ·) ?_
    intro ⟨rest, hb, harea, _⟩
    rw [harea, length_append] at h
    omega
  · rw [if_neg h]
    constructor
    · intro he
      cases he
      exact ⟨s.area.drop n, length_take_of_le (by omega), (take_append_drop n _).symm, rfl⟩
    · intro ⟨rest, hb, harea, he⟩
      subst hb
      rw [he, harea, take_left, drop_left]
      rfl

theorem fails_nextEntry (n : Nat) : Fails (nextEntry n : Load σ Bytes) := by
  intro s s' h
  unfold nextEntry at h
  by_cases hn : n > s.area.length
  · rw [if_pos hn] at h
    cases h
    rfl
  · rw [if_neg hn] at h
    cases h

theorem ofBytes_putWord (x : BitVec 32) : BitVec.ofNat 32 (ofBytes (putWord x)) = x := by
  rw [putWord, ofBytes_toBytes (by have := x.isLt; omega)]
  simp

theorem putWord_ofBytes (hb : b.length = 4) : putWord (BitVec.ofNat 32 (ofBytes b)) = b := by
  rw [putWord, BitVec.toNat_ofNat, Nat.mod_eq_of_lt]
  · rw [show 32 / 8 = b.length by omega, toBytes_ofBytes]
  · have := ofBytes_lt b
    rw [hb] at this
    omega

theorem nextEntry_four_ok : nextEntry 4 s = .ok b s' ↔ ∃ x : BitVec 32, b = putWord x ∧
    ∃ rest, s.area = putWord x ++ rest ∧ s' = s.at rest := by
  rw [nextEntry_ok]
  constructor
  · intro ⟨rest, hb, harea, hs⟩
    exact ⟨_, (putWord_ofBytes hb).symm, rest, by rw [putWord_ofBytes hb, harea], hs⟩
  · intro ⟨x, hb, rest, harea, hs⟩
    subst hb
    exact ⟨rest, by simp [putWord, toBytes], harea, hs⟩

theorem nextWord_ok {x : BitVec 32} : nextWord s = .ok x s' ↔ ∃ rest, s.area = putWord x ++ rest ∧ s' = s.at rest := by
  simp only [nextWord, bind_ok, pure_ok, nextEntry_four_ok, existsAndEq, and_true, true_and, ofBytes_putWord]
  exact exists_congr fun rest => and_congr_right' eq_comm

theorem fails_nextWord : Fails (nextWord : Load σ (BitVec 32)) := (fails_nextEntry 4).bind fun _ => leaves_pure _ _

/-- A length is less than 2^32. -/
theorem eq_toNat_iff {x : BitVec 32} : n = x.toNat ↔ n < 2 ^ 32 ∧ x = BitVec.ofNat 32 n := by
  constructor
  · rintro rfl
    exact ⟨x.isLt, by simp⟩
  · rintro ⟨hlt, rfl⟩
    rw [BitVec.toNat_ofNat, Nat.mod_eq_of_lt hlt]

theorem ofNat_eq_zero (h : n < 2 ^ 32) : BitVec.ofNat 32 n = 0#32 ↔ n = 0 := by
  have hzero := eq_toNat_iff (n := n) (x := 0#32)
  rw [and_iff_right h, eq_comm (a := 0#32)] at hzero
  exact hzero.symm

/-- A length before its bytes. -/
def putSized (b : Bytes) : Bytes := putNum 32 b.length ++ b

/-- What has such a length, and is not empty. -/
def Sized (b : Bytes) : Prop := b ≠ [] ∧ b.length < 2 ^ 32

theorem nextSized_ok {point : Bytes → Spec → Spec} : nextSized point s = .ok b s' ↔
      ∃ rest, Sized b ∧ s.area = putSized b ++ rest ∧ s' = (s.fill (point (b ++ rest))).at rest := by
  simp only [nextSized, bind_ok, nextWord_ok, check_ok, get_ok, setSlot_ok, nextEntry_ok, existsAndEq, exists_const,
    and_true, true_and, area_at, at_at, fill_at, decide_eq_true_eq, eq_toNat_iff]
  constructor
  · rintro ⟨rest, harea, hne, hlt, hs⟩
    rw [Ne, ofNat_eq_zero hlt, length_eq_zero_iff] at hne
    exact ⟨rest, ⟨hne, hlt⟩, harea, hs⟩
  · rintro ⟨rest, ⟨hne, hlt⟩, harea, hs⟩
    exact ⟨rest, harea, fun h => hne (length_eq_zero_iff.mp ((ofNat_eq_zero hlt).mp h)), hlt, hs⟩

theorem fails_nextSized (point : Bytes → Spec → Spec) : Fails (nextSized point : Load σ Bytes) :=
  fails_nextWord.bind fun _ => (fails_check _).bind fun _ => fails_get.bind fun _ =>
    (fails_setSlot _).bind fun _ => fails_nextEntry _

/-! ## What follows a context -/

structure Body where
  regexStr : Bytes
  mode : BitVec 32
  stemId : BitVec 32
  metaChars : BitVec 32
  prefixLen : BitVec 32
  regex : Bytes
  study : Bytes

namespace Body

def putStudy (b : Body) (rest : Bytes) : Bytes := putSized b.study ++ rest

def putRegex (b : Body) (rest : Bytes) : Bytes := putSized b.regex ++ b.putStudy rest

def putPrefixLen (version : BitVec 32) (b : Body) : Bytes :=
  if version.toNat ≥ prefixLenVers then putWord b.prefixLen else []

def putFields (version : BitVec 32) (b : Body) (rest : Bytes) : Bytes :=
  putWord b.mode ++ (putWord b.stemId ++ (putWord b.metaChars ++ (b.putPrefixLen version ++ rest)))

def put (version : BitVec 32) (b : Body) (rest : Bytes) : Bytes :=
  putSized b.regexStr ++ b.putFields version (b.putRegex rest)

/-- The expression as text, with its nul, and the lengths `pcre_fullinfo` asks for. -/
structure WF (E : Env σ) (b : Body) (rest : Bytes) : Prop where
  regexStr : Sized b.regexStr ∧ b.regexStr.getLast? = some 0#8
  regex : Sized b.regex
  size : E.infoSize (b.regex ++ b.putStudy rest) = some b.regex.length
  study : Sized b.study
  studySize : E.infoStudySize (b.regex ++ b.putStudy rest) (b.study ++ rest) = some b.study.length

def fillFields (version : BitVec 32) (stemMap : List Nat) (b : Body) (slot : Spec) : Spec :=
  { slot with
    mode := b.mode
    stemId := stemIdOf stemMap b.stemId
    hasMetaChars := b.metaChars.setWidth 8
    prefixLen := if version.toNat ≥ prefixLenVers then b.prefixLen.toNat else slot.prefixLen }

def fill (version : BitVec 32) (stemMap : List Nat) (b : Body) (rest : Bytes) (slot : Spec) : Spec :=
  { b.fillFields version stemMap slot with
    regexStr := b.regexStr ++ b.putFields version (b.putRegex rest)
    regex := b.regex ++ b.putStudy rest
    studyData := b.study ++ rest
    studied := true }

end Body

theorem loadPrefixLen_ok {r : Bytes} : loadPrefixLen version (s.at r) = .ok u s' ↔
      ∃ (x : BitVec 32) (rest : Bytes), r = (if version.toNat ≥ prefixLenVers then putWord x else []) ++ rest ∧
        s' = (s.fill fun slot =>
          { slot with prefixLen := if version.toNat ≥ prefixLenVers then x.toNat else slot.prefixLen }).at rest := by
  unfold loadPrefixLen
  split
  · simp only [bind_ok, nextWord_ok, setSlot_ok, existsAndEq, and_true, area_at, at_at, fill_at]
  · simp only [pure_ok, true_and, nil_append, existsAndEq, exists_const]
    exact eq_comm

theorem loadFields_ok {stemMap : List Nat} : loadFields version stemMap s = .ok u s' ↔
      ∃ (b : Body) (rest : Bytes), s.area = b.putFields version rest ∧
        s' = (s.fill (b.fillFields version stemMap)).at rest := by
  have hfour : (if version.toNat ≥ modeVers then 4 else modeTSize) = 4 := by
    split <;> rfl
  simp only [loadFields, hfour, bind_ok, nextEntry_four_ok, nextWord_ok, setSlot_ok, loadPrefixLen_ok, existsAndEq,
    exists_const, and_true, true_and, area_at, at_at, fill_at, fill_fill, ofBytes_putWord]
  constructor
  · rintro ⟨mode, stemId, metaChars, prefixLen, rest, harea, hs⟩
    exact ⟨⟨[], mode, stemId, metaChars, prefixLen, [], []⟩, rest, harea, hs⟩
  · rintro ⟨b, rest, harea, hs⟩
    exact ⟨b.mode, b.stemId, b.metaChars, b.prefixLen, rest, harea, hs⟩

theorem loadRegex_ok {E : Env σ} : loadRegex E s = .ok u s' ↔ ∃ (regex study rest : Bytes), Sized regex ∧ Sized study ∧
      E.infoSize (regex ++ (putSized study ++ rest)) = some regex.length ∧
      E.infoStudySize (regex ++ (putSized study ++ rest)) (study ++ rest) = some study.length ∧
      s.area = putSized regex ++ (putSized study ++ rest) ∧
      s' = (s.fill fun slot =>
        { slot with regex := regex ++ (putSized study ++ rest), studyData := study ++ rest, studied := true }).at rest := by
  simp only [loadRegex, bind_ok, nextSized_ok, get_ok, check_ok, decide_eq_true_eq, existsAndEq, exists_const,
    and_true, true_and, area_at, data_at, slot_fill, at_at, fill_at, fill_fill]
  constructor
  · rintro ⟨regex, study, rest, ⟨hregex, harea⟩, hsize, hstudy, hstudySize, hs⟩
    exact ⟨regex, study, rest, hregex, hstudy, hsize, hstudySize, harea, hs.symm⟩
  · rintro ⟨regex, study, rest, hregex, hstudy, hsize, hstudySize, harea, hs⟩
    exact ⟨regex, study, rest, ⟨hregex, harea⟩, hsize, hstudy, hstudySize, hs.symm⟩

theorem loadBody_ok {E : Env σ} {stemMap : List Nat} : loadBody E version stemMap s = .ok u s' ↔
      ∃ (b : Body) (rest : Bytes), b.WF E rest ∧ s.area = b.put version rest ∧
        s' = (s.fill (b.fill version stemMap rest)).at rest := by
  simp only [loadBody, bind_ok, nextSized_ok, check_ok, decide_eq_true_eq, loadFields_ok, loadRegex_ok, existsAndEq,
    exists_const, and_true, true_and, area_at, at_at, fill_at, fill_fill]
  constructor
  · rintro ⟨regexStr, b, regex, study, rest, ⟨hsized, harea⟩, hnul, hregex, hstudy, hsize, hstudySize, hs⟩
    exact ⟨{ b with regexStr, regex, study }, rest, ⟨⟨hsized, hnul⟩, hregex, hsize, hstudy, hstudySize⟩, harea, hs⟩
  · rintro ⟨b, rest, hwf, harea, hs⟩
    exact ⟨b.regexStr, b, b.regex, b.study, rest, ⟨hwf.regexStr.1, harea⟩, hwf.regexStr.2, hwf.regex, hwf.study, hwf.size,
      hwf.studySize, hs⟩

theorem fails_loadPrefixLen (version : BitVec 32) : Fails (loadPrefixLen version : Load σ Unit) := by
  unfold loadPrefixLen
  split
  · exact fails_nextWord.bind fun _ => fails_setSlot _
  · exact leaves_pure _ _

theorem fails_loadBody (E : Env σ) (version : BitVec 32) (stemMap : List Nat) : Fails (loadBody E version stemMap) := by
  have hfields : Fails (loadFields version stemMap : Load σ Unit) :=
    (fails_nextEntry _).bind fun _ => (fails_setSlot _).bind fun _ => fails_nextWord.bind fun _ =>
      (fails_setSlot _).bind fun _ => fails_nextWord.bind fun _ => (fails_setSlot _).bind fun _ =>
        fails_loadPrefixLen version
  have hregex : Fails (loadRegex E) :=
    (fails_nextSized _).bind fun _ => fails_get.bind fun _ => (fails_check _).bind fun _ =>
      (fails_nextSized _).bind fun _ => fails_get.bind fun _ => fails_check _
  exact (fails_nextSized _).bind fun _ => (fails_check _).bind fun _ => hfields.bind fun _ => hregex

/-! ## The context -/

/-- A context as an image has it. -/
def IsContext (ctx : Bytes) : Prop := Sized ctx ∧ ctx.getLast? = some 0#8

/-- The slot with the context put in it. -/
def Spec.withContext (slot : Spec) (ctx : Bytes) : Spec := { slot with fromMmap := true, regcomp := true, ctxRaw := ctx }

/-- With a context in the slot, before the verdict on it. -/
def Machine.loaded (s : Machine σ) (ctx rest : Bytes) : Machine σ := (s.fill (·.withContext ctx)).at rest

theorem loadContext_ok : loadContext s = .ok u s' ↔
      ∃ ctx rest, IsContext ctx ∧ s.area = putSized ctx ++ rest ∧ s' = s.loaded ctx rest := by
  simp only [loadContext, bind_ok, update_ok, setSlot_ok, nextSized_ok, check_ok, decide_eq_true_eq, existsAndEq,
    exists_const, and_true, true_and, fill_at, fill_fill]
  refine exists_congr fun ctx => exists_congr fun rest => ?_
  rw [IsContext, and_assoc, and_assoc, and_left_comm (b := _ = some 0#8)]
  exact Iff.rfl

theorem fails_loadContext : Fails (loadContext : Load σ Unit) :=
  (leaves_update _ _).bind fun _ => (fails_setSlot _).bind fun _ => (fails_nextSized _).bind fun _ =>
    (fails_check _).bind fun _ => fails_setSlot _

/-- The verdict on a context: `none` is a rejection; else what the context is now, and whether the callback was asked. -/
def judge (E : Env σ) (validating validated : Bool) (callback : σ) (ctx : Bytes) : Option (Bytes × Bool × σ) :=
  if cString ctx ≠ ascii "<<none>>" ∧ validating = true ∧ validated = false then
    let (rc, ctx, callback) := E.validate callback ctx
    if rc < 0 then none else some (ctx, true, callback)
  else some (ctx, validated, callback)

/-- The state after a verdict. -/
def Machine.judged (s : Machine σ) (ctxRaw : Bytes) (validated : Bool) (callback : σ) : Machine σ :=
  { s with callback, data := { s.data with slot := { s.data.slot with ctxRaw, validated } } }

/-- A rejection leaves with the status as it was. -/
theorem checkContext_eq (E : Env σ) (validating : Bool) (s : Machine σ) :
    checkContext E validating s =
      match judge E validating s.data.slot.validated s.callback s.data.slot.ctxRaw with
      | some (ctxRaw, validated, callback) => .ok () (s.judged ctxRaw validated callback)
      | none => .error () (s.judged (E.validate s.callback s.data.slot.ctxRaw).2.1 s.data.slot.validated
          (E.validate s.callback s.data.slot.ctxRaw).2.2) := by
  unfold checkContext judge
  by_cases hask : cString s.data.slot.ctxRaw ≠ ascii "<<none>>" ∧ validating = true
  · rw [if_pos hask]
    unfold selabelValidate
    by_cases hval : s.data.slot.validated = true
    · rw [if_pos (by rw [hval, Bool.or_true]), if_neg fun h => absurd hval (by rw [h.2.2]; decide)]
      rfl
    · have hval' : s.data.slot.validated = false := by simpa using hval
      rw [if_neg (by rw [hask.2, hval']; decide), if_pos ⟨hask.1, hask.2, hval'⟩]
      by_cases hrc : (E.validate s.callback s.data.slot.ctxRaw).1 < 0
      · simp only [if_pos hrc]
        rfl
      · simp only [if_neg hrc]
        rfl
  · rw [if_neg hask, if_neg fun h => hask ⟨h.1, h.2.1⟩]
    rfl

/-! ## The specifications -/

structure Entry extends Body where
  ctx : Bytes

namespace Entry

def put (version : BitVec 32) (e : Entry) (rest : Bytes) : Bytes := putSized e.ctx ++ e.toBody.put version rest

structure WF (E : Env σ) (e : Entry) (rest : Bytes) : Prop where
  context : IsContext e.ctx
  body : e.toBody.WF E rest

/-- The specification of an entry, in a slot that is validated as given. -/
def spec (version : BitVec 32) (stemMap : List Nat) (e : Entry) (rest : Bytes) (slot : Spec) (ctxRaw : Bytes)
    (validated : Bool) : Spec :=
  e.fill version stemMap rest { slot.withContext ctxRaw with validated }

end Entry

def Machine.pushed (s : Machine σ) (rest : Bytes) (spec : Spec) (callback : σ) : Machine σ :=
  { rc := 0, area := rest, callback, data := { s.data with specArr := s.data.specArr ++ [spec], slot := {} } }

section
variable {E : Env σ} {validating : Bool} {version : BitVec 32} {stemMap : List Nat}

theorem judge_loaded (s : Machine σ) (ctx rest : Bytes) :
    judge E validating (s.loaded ctx rest).data.slot.validated (s.loaded ctx rest).callback
      (s.loaded ctx rest).data.slot.ctxRaw =
      judge E validating s.data.slot.validated s.callback ctx := rfl

theorem checkContext_ok : checkContext E validating (s.loaded ctx rest) = .ok u s' ↔
      ∃ ctxRaw validated callback, judge E validating s.data.slot.validated s.callback ctx =
        some (ctxRaw, validated, callback) ∧ s' = (s.loaded ctx rest).judged ctxRaw validated callback := by
  rw [checkContext_eq, judge_loaded]
  cases judge E validating s.data.slot.validated s.callback ctx with
  | none => simp
  | some verdict =>
    obtain ⟨ctxRaw, validated, callback⟩ := verdict
    constructor
    · intro h
      cases h
      exact ⟨ctxRaw, validated, callback, rfl, rfl⟩
    · intro ⟨_, _, _, hv, hs⟩
      cases hv
      rw [hs]

theorem checkContext_error : checkContext E validating (s.loaded ctx rest) = .error () s' ↔
      judge E validating s.data.slot.validated s.callback ctx = none ∧
        s' = (s.loaded ctx rest).judged (E.validate s.callback ctx).2.1 s.data.slot.validated
          (E.validate s.callback ctx).2.2 := by
  rw [checkContext_eq, judge_loaded]
  cases judge E validating s.data.slot.validated s.callback ctx with
  | none =>
    simp only [true_and, EStateM.Result.error.injEq]
    exact eq_comm
  | some verdict => simp

theorem loadSpec_ok : loadSpec E validating version stemMap s = .ok u s' ↔
      ∃ (e : Entry) (rest ctxRaw : Bytes) (validated : Bool) (callback : σ), e.WF E rest ∧ s.area = e.put version rest ∧
        judge E validating s.data.slot.validated s.callback e.ctx = some (ctxRaw, validated, callback) ∧
        s' = s.pushed rest (e.spec version stemMap rest s.data.slot ctxRaw validated) callback := by
  simp only [loadSpec, bind_ok, loadContext_ok, loadBody_ok, update_ok, existsAndEq, exists_const, and_true, checkContext_ok]
  constructor
  · rintro ⟨ctx, _, ⟨hctx, harea⟩, ctxRaw, validated, callback, hj, b, rest, ⟨hwf, rfl⟩, hs⟩
    exact ⟨{ b with ctx }, rest, ctxRaw, validated, callback, ⟨hctx, hwf⟩, harea, hj, hs.symm⟩
  · rintro ⟨e, rest, ctxRaw, validated, callback, hwf, harea, hj, hs⟩
    exact ⟨e.ctx, _, ⟨hwf.context, harea⟩, ctxRaw, validated, callback, hj, e.toBody, rest, ⟨hwf.body, rfl⟩, hs.symm⟩

/-- An early exit of a specification is a failure, or a rejected context. -/
theorem loadSpec_error (h : loadSpec E validating version stemMap s = .error () s') :
    s'.rc = -1 ∨ ∃ ctx rest, IsContext ctx ∧ s.area = putSized ctx ++ rest ∧
      judge E validating s.data.slot.validated s.callback ctx = none := by
  rcases bind_error.mp h with h | ⟨_, s₁, hload, h⟩
  · exact Or.inl (fails_loadContext _ _ h)
  rcases bind_error.mp h with hcheck | ⟨_, s₂, -, h⟩
  · obtain ⟨ctx, rest, hctx, harea, hs⟩ := loadContext_ok.mp hload
    subst hs
    exact Or.inr ⟨ctx, rest, hctx, harea, (checkContext_error.mp hcheck).1⟩
  · exact Or.inl (((fails_loadBody E version stemMap).bind fun _ => leaves_update _ _) _ _ h)

/-- A rejected context is an exit with 0, and nothing is appended. -/
theorem loadSpec_rejects (hctx : IsContext ctx) (harea : s.area = putSized ctx ++ rest)
    (hj : judge E validating s.data.slot.validated s.callback ctx = none) :
    ∃ s', loadSpec E validating version stemMap s = .error () s' ∧ s'.rc = 0 ∧ s'.data.specArr = s.data.specArr := by
  have hload : loadContext s = .ok () (s.loaded ctx rest) := loadContext_ok.mpr ⟨ctx, rest, hctx, harea, rfl⟩
  refine ⟨(s.loaded ctx rest).judged (E.validate s.callback ctx).2.1 s.data.slot.validated
    (E.validate s.callback ctx).2.2, ?_, rfl, rfl⟩
  unfold loadSpec
  rw [bind_eq hload]
  exact bind_error.mpr (Or.inl (checkContext_error.mpr ⟨hj, rfl⟩))

/-! ## All specifications -/

variable (E version) in
/-- `rest` follows these entries. -/
def Entries : List Entry → Bytes → Bytes → Prop
  | [], area, rest => area = rest
  | e :: es, area, rest => ∃ next, e.WF E next ∧ area = e.put version next ∧ Entries es next rest

variable (E validating) in
/-- `ctx` is rejected after the contexts of `es` were accepted. Only the first slot may be validated already. -/
def RejectsAfter : Bool → σ → List Entry → Bytes → Prop
  | validated, callback, [], ctx => judge E validating validated callback ctx = none
  | validated, callback, e :: es, ctx =>
    ∃ verdict, judge E validating validated callback e.ctx = some verdict ∧ RejectsAfter false verdict.2.2 es ctx

variable (E version stemMap) in
/-- The specification is the one of the entry; its context is the one the callback left. -/
structure Carries (e : Entry) (spec : Spec) : Prop where
  ctxRaw : spec.ctxRaw = e.ctx ∨ ∃ callback, spec.ctxRaw = (E.validate callback e.ctx).2.1
  regexStr : e.regexStr <+: spec.regexStr
  regex : e.regex <+: spec.regex
  studyData : e.study <+: spec.studyData
  mode : spec.mode = e.mode
  stemId : spec.stemId = stemIdOf stemMap e.stemId
  hasMetaChars : spec.hasMetaChars = e.metaChars.setWidth 8
  prefixLen : version.toNat ≥ prefixLenVers → spec.prefixLen = e.prefixLen.toNat

theorem judge_ctxRaw {validated validated' : Bool} {callback callback' : σ} {ctx ctxRaw : Bytes}
    (h : judge E validating validated callback ctx = some (ctxRaw, validated', callback')) :
    ctxRaw = ctx ∨ ∃ callback, ctxRaw = (E.validate callback ctx).2.1 := by
  unfold judge at h
  split at h
  · by_cases hrc : (E.validate callback ctx).1 < 0
    · simp only [if_pos hrc] at h
      cases h
    · simp only [if_neg hrc] at h
      cases h
      exact Or.inr ⟨callback, rfl⟩
  · cases h
    exact Or.inl rfl

theorem carries_spec {e : Entry} {rest ctxRaw : Bytes} {slot : Spec} {validated : Bool}
    (hctx : ctxRaw = e.ctx ∨ ∃ callback, ctxRaw = (E.validate callback e.ctx).2.1) :
    Carries E version stemMap e (e.spec version stemMap rest slot ctxRaw validated) where
  ctxRaw := hctx
  regexStr := prefix_append _ _
  regex := prefix_append _ _
  studyData := prefix_append _ _
  mode := rfl
  stemId := rfl
  hasMetaChars := rfl
  prefixLen := fun hv => if_pos hv

/-- The loop appends one specification for each entry. -/
theorem times_loadSpec_ok {l : List Unit} (h : times (loadSpec E validating version stemMap) n s = .ok l s') :
    ∃ es rest specs, es.length = n ∧ Entries E version es s.area rest ∧ s'.data.specArr = s.data.specArr ++ specs ∧
      List.Forall₂ (Carries E version stemMap) es specs := by
  induction n generalizing s l with
  | zero =>
    obtain ⟨-, hs⟩ := pure_ok.mp h
    subst hs
    exact ⟨[], _, [], rfl, rfl, (append_nil _).symm, .nil⟩
  | succ n ih =>
    obtain ⟨_, s₁, hspec, h⟩ := bind_ok.mp h
    obtain ⟨_, s₂, hrest, h⟩ := bind_ok.mp h
    obtain ⟨-, hs⟩ := pure_ok.mp h
    subst hs
    obtain ⟨e, next, ctxRaw, validated, callback, hwf, harea, hj, hs₁⟩ := loadSpec_ok.mp hspec
    subst hs₁
    obtain ⟨es, rest, specs, hlen, hes, harr, hcarry⟩ := ih hrest
    refine ⟨e :: es, rest, e.spec version stemMap next s.data.slot ctxRaw validated :: specs, by rw [length_cons, hlen],
      ⟨next, hwf, harea, hes⟩, ?_, .cons (carries_spec (judge_ctxRaw hj)) hcarry⟩
    rw [harr, Machine.pushed, append_assoc, singleton_append]

/-- An early exit of the loop is a failure, or a context rejected before the announced number is reached. -/
theorem times_loadSpec_error (h : times (loadSpec E validating version stemMap) n s = .error () s') :
    s'.rc = -1 ∨ ∃ es ctx rest, es.length < n ∧ IsContext ctx ∧ Entries E version es s.area (putSized ctx ++ rest) ∧
      RejectsAfter E validating s.data.slot.validated s.callback es ctx := by
  induction n generalizing s with
  | zero => cases h
  | succ n ih =>
    rcases bind_error.mp h with h | ⟨_, s₁, hspec, h⟩
    · rcases loadSpec_error h with hrc | ⟨ctx, rest, hctx, harea, hj⟩
      · exact Or.inl hrc
      · exact Or.inr ⟨[], ctx, rest, Nat.succ_pos n, hctx, harea, hj⟩
    · rcases bind_error.mp h with h | ⟨_, _, _, h⟩
      · obtain ⟨e, next, ctxRaw, validated, callback, hwf, harea, hj, hs₁⟩ := loadSpec_ok.mp hspec
        subst hs₁
        rcases ih h with hrc | ⟨es, ctx, rest, hlen, hctx, hes, hrej⟩
        · exact Or.inl hrc
        · exact Or.inr ⟨e :: es, ctx, rest, by simpa using hlen, hctx, ⟨next, hwf, harea, hes⟩, _, hj, hrej⟩
      · cases h

variable (stemMap) in
/-- A rejected context ends the loop with 0 after the entries before it. -/
theorem times_loadSpec_rejects {es : List Entry} (hlen : es.length < n) (hctx : IsContext ctx)
    (hes : Entries E version es s.area (putSized ctx ++ rest))
    (hrej : RejectsAfter E validating s.data.slot.validated s.callback es ctx) :
    ∃ s', times (loadSpec E validating version stemMap) n s = .error () s' ∧ s'.rc = 0 ∧
      s'.data.specArr.length = s.data.specArr.length + es.length := by
  obtain ⟨n, rfl⟩ : ∃ m, n = m + 1 := ⟨n - 1, by omega⟩
  induction es generalizing n s with
  | nil =>
    obtain ⟨s', herr, hrc, harr⟩ := loadSpec_rejects hctx hes hrej
    exact ⟨s', bind_error.mpr (Or.inl herr), hrc, by rw [harr]; rfl⟩
  | cons e es ih =>
    obtain ⟨next, hwf, harea, hnext⟩ := hes
    obtain ⟨⟨ctxRaw, validated, callback⟩, hj, hrej⟩ := hrej
    obtain ⟨n, rfl⟩ : ∃ m, n = m + 1 := ⟨n - 1, by simp at hlen; omega⟩
    have hspec : loadSpec E validating version stemMap s =
        .ok () (s.pushed next (e.spec version stemMap next s.data.slot ctxRaw validated) callback) :=
      loadSpec_ok.mpr ⟨e, next, ctxRaw, validated, callback, hwf, harea, hj, rfl⟩
    obtain ⟨s', herr, hrc, harr⟩ :=
      ih (s := s.pushed next (e.spec version stemMap next s.data.slot ctxRaw validated) callback)
      hnext hrej n (by simpa using hlen)
    refine ⟨s', bind_error.mpr (Or.inr ⟨(), _, hspec, bind_error.mpr (Or.inl herr)⟩), hrc, ?_⟩
    rw [harr, Machine.pushed, length_append, length_singleton, length_cons]
    omega

end

/-! ## The header -/

structure Header where
  version : BitVec 32
  stems : List Bytes
  count : BitVec 32

def putStem (stem rest : Bytes) : Bytes := putNum 32 stem.length ++ (stem ++ 0#8 :: rest)

def putStems (stems : List Bytes) (rest : Bytes) : Bytes := stems.foldr putStem rest

def IsStem (stem : Bytes) : Prop := stem ≠ [] ∧ stem.length + 1 < 2 ^ 32

/-- The numbers of the stems and the table with them. -/
def storeStems (stemArr : List Stem) : List Bytes → Bytes → List Nat × List Stem
  | [], _ => ([], stemArr)
  | stem :: stems, rest =>
    let (id, stemArr) := storeStem stemArr (stem ++ 0#8 :: putStems stems rest) (BitVec.ofNat 32 stem.length)
    let (ids, stemArr) := storeStems stemArr stems rest
    (id :: ids, stemArr)

namespace Header

def putVersion (E : Env σ) (version : BitVec 32) : Bytes := if version.toNat ≥ pcreVers then putSized E.pcreVersion else []

def put (E : Env σ) (h : Header) (rest : Bytes) : Bytes :=
  putWord magic ++ (putWord h.version ++ (putVersion E h.version ++
    (putNum 32 h.stems.length ++ putStems h.stems (putWord h.count ++ rest))))

structure WF (E : Env σ) (h : Header) : Prop where
  version : h.version.toNat ≤ maxVers
  pcre : h.version.toNat ≥ pcreVers → E.pcreVersion.length < 2 ^ 32
  someStems : h.stems ≠ [] ∧ h.stems.length < 2 ^ 32
  stems : ∀ stem ∈ h.stems, IsStem stem
  count : h.count ≠ 0#32

def stemMap (h : Header) (stemArr : List Stem) (rest : Bytes) : List Nat :=
  (storeStems stemArr h.stems (putWord h.count ++ rest)).1

end Header

def Machine.withStems (s : Machine σ) (stemArr : List Stem) : Machine σ := { s with data := { s.data with stemArr } }

theorem loadStem_ok {id : Nat} : loadStem s = .ok id s' ↔ ∃ stem rest, IsStem stem ∧ s.area = putStem stem rest ∧
      id = (storeStem s.data.stemArr (stem ++ 0#8 :: rest) (BitVec.ofNat 32 stem.length)).1 ∧
      s' = (s.withStems (storeStem s.data.stemArr (stem ++ 0#8 :: rest) (BitVec.ofNat 32 stem.length)).2).at rest := by
  simp only [loadStem, bind_ok, nextWord_ok, check_ok, get_ok, nextEntry_ok, update_ok, pure_ok, decide_eq_true_eq,
    existsAndEq, exists_const,
    and_true, true_and, area_at, data_at, at_at, getLast?_eq_some_iff, length_append, length_singleton,
      Nat.add_right_cancel_iff, eq_toNat_iff,
    append_assoc, singleton_append]
  have hlast : BitVec.allOnes 32 = BitVec.ofNat 32 (2 ^ 32 - 1) := by decide
  constructor
  · rintro ⟨rest, stem, harea, hne, hmax, hlt, hid, hs⟩
    rw [Ne, ofNat_eq_zero hlt, length_eq_zero_iff] at hne
    have hmax : stem.length ≠ 2 ^ 32 - 1 := fun h => hmax (by rw [h, hlast])
    exact ⟨stem, rest, ⟨hne, by omega⟩, harea, hid.symm, hs.symm⟩
  · rintro ⟨stem, rest, ⟨hne, hlt⟩, harea, hid, hs⟩
    refine ⟨rest, stem, harea, fun h => hne (length_eq_zero_iff.mp ((ofNat_eq_zero (by omega)).mp h)), fun h => ?_,
      by omega, hid.symm, hs.symm⟩
    rw [hlast] at h
    have := congrArg BitVec.toNat h
    simp only [BitVec.toNat_ofNat] at this
    omega

theorem fails_loadStem : Fails (loadStem : Load σ Nat) :=
  fails_nextWord.bind fun _ => (fails_check _).bind fun _ => (fails_check _).bind fun _ => fails_get.bind fun _ =>
    (fails_nextEntry _).bind fun _ => (fails_check _).bind fun _ => (leaves_update _ _).bind fun _ => leaves_pure _ _

theorem times_loadStem_ok {ids : List Nat} {r : Bytes} :
    times loadStem n (s.at r) = .ok ids s' ↔ ∃ stems rest, stems.length = n ∧ (∀ stem ∈ stems, IsStem stem) ∧
      r = putStems stems rest ∧
      ids = (storeStems s.data.stemArr stems rest).1 ∧
        s' = (s.withStems (storeStems s.data.stemArr stems rest).2).at rest := by
  induction n generalizing s ids r with
  | zero =>
    simp only [Lib.Exit.times, pure_ok, length_eq_zero_iff, existsAndEq, true_and]
    constructor
    · rintro ⟨rfl, rfl⟩
      exact ⟨r, nofun, rfl, rfl, rfl⟩
    · rintro ⟨rest, -, rfl, rfl, rfl⟩
      exact ⟨rfl, rfl⟩
  | succ n ih =>
    simp only [Lib.Exit.times, bind_ok, pure_ok, loadStem_ok, existsAndEq, and_true, true_and, area_at, data_at, ih]
    constructor
    · rintro ⟨stem, stems, rest, ⟨hstem, harea⟩, ⟨hlen, hall, rfl⟩, rfl⟩
      exact ⟨stem :: stems, rest, by rw [length_cons, hlen], forall_mem_cons.mpr ⟨hstem, hall⟩, harea, rfl, rfl⟩
    · rintro ⟨_ | ⟨stem, stems⟩, rest, hlen, hall, harea, rfl, rfl⟩
      · cases hlen
      · obtain ⟨hstem, hall⟩ := forall_mem_cons.mp hall
        exact ⟨stem, stems, rest, ⟨hstem, harea⟩, ⟨Nat.succ.inj hlen, hall, rfl⟩, rfl⟩

theorem checkPcreVersion_ok {E : Env σ} {r : Bytes} : checkPcreVersion E version (s.at r) = .ok u s' ↔
      ∃ rest, (version.toNat ≥ pcreVers → E.pcreVersion.length < 2 ^ 32) ∧ r = Header.putVersion E version ++ rest ∧
        s' = s.at rest := by
  unfold checkPcreVersion Header.putVersion
  split
  next hv =>
    have htext : cString E.pcreVersion = E.pcreVersion :=
      takeWhile_eq_self_iff.mpr fun b hb => by simpa using E.noNul b hb
    simp only [bind_ok, nextWord_ok, check_ok, nextEntry_ok, decide_eq_true_eq, existsAndEq, exists_const, and_true,
      area_at, at_at]
    constructor
    · rintro ⟨n, b, rest, harea, hn, hb, hversion, rfl⟩
      -- as long as the version and equal to it up to the first nul
      have hlen : (cString b).length = b.length := by rw [hversion, hn, hb]
      obtain rfl : E.pcreVersion = b := hversion.symm.trans ((takeWhile_sublist _).eq_of_length hlen)
      obtain ⟨hlt, rfl⟩ := eq_toNat_iff.mp hn
      exact ⟨rest, fun _ => hlt, by rw [harea, putSized, append_assoc]; rfl, rfl⟩
    · rintro ⟨rest, hlt, harea, rfl⟩
      have hn := eq_toNat_iff.mpr ⟨hlt hv, rfl⟩
      exact ⟨_, E.pcreVersion, rest, by rw [harea, putSized, append_assoc]; rfl, hn, hn, htext, rfl⟩
  next hv =>
    simp only [pure_ok, nil_append, existsAndEq, true_and, hv, false_imp_iff]
    exact eq_comm

theorem fails_checkPcreVersion (E : Env σ) (version : BitVec 32) : Fails (checkPcreVersion E version) := by
  unfold checkPcreVersion
  split
  · exact fails_nextWord.bind fun _ => (fails_check _).bind fun _ => (fails_nextEntry _).bind fun _ => fails_check _
  · exact leaves_pure _ _

theorem loadHeader_ok {E : Env σ} {version count : BitVec 32} {stemMap : List Nat} :
    loadHeader E s = .ok (version, stemMap, count) s' ↔ ∃ (h : Header) (rest : Bytes), h.WF E ∧ s.area = h.put E rest ∧
      version = h.version ∧ count = h.count ∧ stemMap = h.stemMap s.data.stemArr rest ∧
      s' = (s.withStems (storeStems s.data.stemArr h.stems (putWord h.count ++ rest)).2).at rest := by
  simp only [loadHeader, bind_ok, nextWord_ok, check_ok, pure_ok, decide_eq_true_eq, existsAndEq, exists_const,
    and_true, true_and, area_at, data_at, at_at, checkPcreVersion_ok, times_loadStem_ok, Prod.mk.injEq, eq_toNat_iff]
  constructor
  · rintro ⟨rest, stems, harea, hv, hpcre, hne, ⟨hlt, hall, hmap⟩, hc, hs⟩
    rw [Ne, ofNat_eq_zero hlt, length_eq_zero_iff] at hne
    exact ⟨⟨version, stems, count⟩, rest, ⟨hv, hpcre, ⟨hne, hlt⟩, hall, hc⟩, harea, rfl, rfl, hmap, hs.symm⟩
  · rintro ⟨h, rest, ⟨hv, hpcre, ⟨hne, hlt⟩, hall, hc⟩, harea, rfl, rfl, hmap, hs⟩
    exact ⟨rest, h.stems, harea, hv, hpcre, fun h0 => hne (length_eq_zero_iff.mp ((ofNat_eq_zero hlt).mp h0)),
      ⟨hlt, hall, hmap⟩, hc, hs.symm⟩

theorem fails_loadHeader (E : Env σ) : Fails (loadHeader E) :=
  fails_nextWord.bind fun _ => (fails_check _).bind fun _ => fails_nextWord.bind fun version => (fails_check _).bind fun _ =>
    (fails_checkPcreVersion E version).bind fun _ => fails_nextWord.bind fun _ => (fails_check _).bind fun _ =>
      (fails_loadStem.times _).bind fun _ => fails_nextWord.bind fun _ => (fails_check _).bind fun _ => leaves_pure _ _

/-! ## Loaded and rejected -/

/-- The image has a header and these entries, and all are appended to the specifications, in their order. -/
def Loaded (E : Env σ) (area : Bytes) (data data' : SavedData) : Prop :=
  ∃ (h : Header) (body : Bytes) (es : List Entry) (rest : Bytes), h.WF E ∧ area = h.put E body ∧
    Entries E h.version es body rest ∧ es.length = h.count.toNat ∧
    ∃ specs, data'.specArr = data.specArr ++ specs ∧
      List.Forall₂ (Carries E h.version (h.stemMap data.stemArr body)) es specs

/-- Entries whose contexts are accepted, fewer than announced, and then a context that is rejected. -/
def Rejected (E : Env σ) (validating : Bool) (area : Bytes) (data : SavedData) (callback : σ) : Prop :=
  ∃ (h : Header) (body : Bytes) (es : List Entry) (ctx rest : Bytes), h.WF E ∧ area = h.put E body ∧
    Entries E h.version es body (putSized ctx ++ rest) ∧ es.length < h.count.toNat ∧ IsContext ctx ∧
    RejectsAfter E validating data.slot.validated callback es ctx

section
variable {E : Env σ} {validating : Bool}

theorem loadAll_ok (h : loadAll E validating s = .ok u s') : Loaded E s.area s.data s'.data := by
  obtain ⟨⟨version, stemMap, count⟩, s₁, hheader, h⟩ := bind_ok.mp h
  obtain ⟨l, s₂, hspecs, h⟩ := bind_ok.mp h
  obtain ⟨-, hs⟩ := pure_ok.mp h
  subst hs
  obtain ⟨hd, body, hwf, harea, hv, hc, hmap, hs₁⟩ := loadHeader_ok.mp hheader
  subst hv hc hmap hs₁
  obtain ⟨es, rest, specs, hlen, hes, harr, hcarry⟩ := times_loadSpec_ok hspecs
  exact ⟨hd, body, es, rest, hwf, harea, hes, hlen, specs, harr, hcarry⟩

theorem loadAll_error (h : loadAll E validating s = .error () s') :
    s'.rc = -1 ∨ Rejected E validating s.area s.data s.callback := by
  rcases bind_error.mp h with h | ⟨⟨version, stemMap, count⟩, s₁, hheader, h⟩
  · exact Or.inl (fails_loadHeader E _ _ h)
  rcases bind_error.mp h with h | ⟨_, _, _, h⟩
  · obtain ⟨hd, body, hwf, harea, hv, hc, hmap, hs₁⟩ := loadHeader_ok.mp hheader
    subst hv hc hmap hs₁
    rcases times_loadSpec_error h with hrc | ⟨es, ctx, rest, hlen, hctx, hes, hrej⟩
    · exact Or.inl hrc
    · exact Or.inr ⟨hd, body, es, ctx, rest, hwf, harea, hes, hlen, hctx, hrej⟩
  · cases h

/-- A rejected image leaves with 0 and with fewer specifications than its header announces. -/
theorem loadAll_rejects (h : Rejected E validating s.area s.data s.callback) :
    ∃ s', loadAll E validating s = .error () s' ∧ s'.rc = 0 ∧ ¬ Loaded E s.area s.data s'.data := by
  obtain ⟨hd, body, es, ctx, rest, hwf, harea, hes, hlen, hctx, hrej⟩ := h
  have hheader : loadHeader E s = .ok (hd.version, hd.stemMap s.data.stemArr body, hd.count) _ :=
    loadHeader_ok.mpr ⟨hd, body, hwf, harea, rfl, rfl, rfl, rfl⟩
  obtain ⟨s', herr, hrc, harr⟩ := times_loadSpec_rejects (hd.stemMap s.data.stemArr body)
    (s := (s.withStems (storeStems s.data.stemArr hd.stems (putWord hd.count ++ body)).2).at body) hlen hctx hes hrej
  refine ⟨s', bind_error.mpr (Or.inr ⟨_, _, hheader, bind_error.mpr (Or.inl herr)⟩), hrc, ?_⟩
  intro ⟨hd', body', es', rest', hwf', harea', _, hlen', specs, harr', hcarry⟩
  -- the header read is the one announced, so the counts agree
  have hheader' : loadHeader E s = .ok (hd'.version, hd'.stemMap s.data.stemArr body', hd'.count) _ :=
    loadHeader_ok.mpr ⟨hd', body', hwf', harea', rfl, rfl, rfl, rfl⟩
  rw [hheader] at hheader'
  have hcount : hd.count = hd'.count := by
    injection hheader' with hres
    injection hres with _ hres
    injection hres
  have hspecs := hcarry.length_eq
  have harr : s'.data.specArr.length = s.data.specArr.length + es.length := harr
  rw [harr', length_append] at harr
  rw [← hcount] at hlen'
  omega

/-- An image that is reported as loaded is loaded, unless a context in it is rejected. -/
theorem loadMmap_iff (E : Env σ) (validating : Bool) (data : SavedData) (callback : σ) (digest : Option Digest)
    (path : Bytes) (mtime : Int) (isbinary : Bool) :
    ((loadMmap E validating data callback digest path mtime isbinary).rc = 0 →
        ∃ content, openImage E path mtime isbinary = some content ∧
          Loaded E (pages E.pageSize content) data (loadMmap E validating data callback digest path mtime isbinary).data) ↔
      ¬ ∃ content, openImage E path mtime isbinary = some content ∧
        Rejected E validating (pages E.pageSize content) data callback := by
  unfold loadMmap
  cases hopen : openImage E path mtime isbinary with
  | none => simp
  | some content =>
    simp only [Option.some.injEq, exists_eq_left']
    cases hload : loadAll E validating { area := pages E.pageSize content, data, callback } with
    | ok u s =>
      refine iff_of_true (fun _ => loadAll_ok hload) fun hrej => ?_
      obtain ⟨s', herr, -⟩ := loadAll_rejects (s := { area := pages E.pageSize content, data, callback }) hrej
      rw [hload] at herr
      cases herr
    | error e s =>
      constructor
      · intro himp hrej
        obtain ⟨s', herr, hrc, hnot⟩ := loadAll_rejects (s := { area := pages E.pageSize content, data, callback }) hrej
        rw [hload] at herr
        cases herr
        exact hnot (himp hrc)
      · intro hnot hrc
        rcases loadAll_error hload with h | h
        · have hrc : s.rc = 0 := hrc
          rw [h] at hrc
          cases hrc
        · exact absurd h hnot

end

/-- A header announces at least one specification. -/
theorem Loaded.specArr_ne {E : Env σ} {area : Bytes} {data data' : SavedData} (h : Loaded E area data data') :
    data'.specArr ≠ data.specArr := by
  obtain ⟨hd, body, es, rest, hwf, harea, hes, hlen, specs, harr, hcarry⟩ := h
  intro heq
  rw [heq, self_eq_append_right] at harr
  have hspecs := hcarry.length_eq
  rw [hlen, harr] at hspecs
  exact hwf.count (BitVec.eq_of_toNat_eq hspecs)

/-- One file, and a callback that rejects every context. -/
def rejecting (content : Bytes) : Env Unit where
  files := fun path => if path = ascii "f.bin" then some { mtime := 0, content } else none
  pcreVersion := ascii "8"
  noNul := by decide
  infoSize := fun _ => none
  infoStudySize := fun _ _ => none
  validate := fun callback ctx => (-1, ctx, callback)

/-- The stem `/a` and the start of one specification, of the context `x`. -/
def rejectedImage : Bytes :=
  putWord magic ++ putNum 32 1 ++ putNum 32 1 ++ putStem (ascii "/a") (putNum 32 1 ++ putSized (ascii "x" ++ [0#8]))

/-- The load returns 0, and nothing is loaded. -/
theorem loadMmap_rejected :
    (loadMmap (rejecting rejectedImage) true {} () none (ascii "f") 0 false).rc = 0 ∧
      ¬ ∃ content, openImage (rejecting rejectedImage) (ascii "f") 0 false = some content ∧
        Loaded (rejecting rejectedImage) (pages 4096 content) {}
          (loadMmap (rejecting rejectedImage) true {} () none (ascii "f") 0 false).data := by
  refine ⟨by decide +kernel, ?_⟩
  intro ⟨content, _, hloaded⟩
  exact hloaded.specArr_ne (by decide +kernel)

end SELinux.Label.Compiled
