/-
  SELinux.Db.MlsForm — which texts are accepted as ranges (`libsepol/src/mls.c`:
  `mls_context_to_sid`).

  A range is written as a level, or as two levels with a dash between them. The parser makes at
  most two rounds; what follows the categories of the second level is cut off at the next dash
  and never looked at, so that a text goes on behind the range that is read from it. Without MLS
  nothing is looked at.

  A text has the form of a range if names of the policy make it up (`RangeForm`). A token ends
  at the first separator behind it, so that it has none of those in it.

  Proved: `mlsFromString_form_iff`, an accepted text as a whole has a form that stands for what was
  read exactly if the policy has MLS and no dash follows the colon of the second level.
-/
import SELinux.Db.MlsRoundTrip

namespace SELinux.Db

open List

/-! ## Forms -/

/-- A category, or a range of them. -/
inductive CatForm
  | one (name : Name)
  | range (low high : Name)

namespace CatForm

def text : CatForm → Name
  | one name => name
  | range low high => low ++ '.' :: high

/-- The first name ends at the first dot; a comma or a dash ends the whole. -/
structure Token (q : CatForm) : Prop where
  noComma : ',' ∉ q.text
  noDash : '-' ∉ q.text
  noDot : match q with
    | one name => '.' ∉ name
    | range low _ => '.' ∉ low

variable (p : Policydb)

/-- The names are defined, and a range goes up. -/
def Defined : CatForm → Prop
  | one name => (p.pCats.search name).isSome = true
  | range low high => ∃ d d', p.pCats.search low = some d ∧ p.pCats.search high = some d' ∧ d.value < d'.value

/-- The categories that are meant. -/
def Names (i : Nat) : CatForm → Prop
  | one name => ∃ d, p.pCats.search name = some d ∧ i = catBit d
  | range low high => ∃ d d', p.pCats.search low = some d ∧ p.pCats.search high = some d' ∧
      (i = catBit d ∨ d.value ≤ i ∧ i < d'.value)

end CatForm

structure LevelForm where
  sens : Name
  cats : List CatForm := []

namespace LevelForm

def text (f : LevelForm) : Name := f.sens ++ withSeps false (f.cats.map CatForm.text)

/-- What the form of a level stands for. -/
structure Denotes (p : Policydb) (f : LevelForm) (l : MlsLevel) : Prop where
  sens : ∃ lev, p.pLevels.search f.sens = some lev ∧ l.sens = lev.level.sens
  defined : ∀ q ∈ f.cats, q.Defined p
  cats : ∀ i, l.cat.has i = true ↔ ∃ q ∈ f.cats, q.Names p i

end LevelForm

/-- `high` is there if the text has a second level. -/
structure RangeForm where
  low : LevelForm
  high : Option LevelForm := none

namespace RangeForm

def text (f : RangeForm) : Name := f.low.text ++ (f.high.map fun g => '-' :: g.text).getD []

/-- The low sensitivity ends at a colon or a dash, the high one at a colon. -/
structure Tokens (f : RangeForm) : Prop where
  low : ':' ∉ f.low.sens ∧ '-' ∉ f.low.sens
  lowCats : ∀ q ∈ f.low.cats, q.Token
  high : ∀ g ∈ f.high, ':' ∉ g.sens ∧ ∀ q ∈ g.cats, q.Token

/-- One level stands for both. -/
structure Denotes (p : Policydb) (f : RangeForm) (r : MlsRange) : Prop where
  low : f.low.Denotes p r.low
  high : (f.high.getD f.low).Denotes p r.high

end RangeForm

/-- The whole text is a form that stands for the range, in a policy that has ranges. -/
def Interpreted (p : Policydb) (s : Name) (r : MlsRange) : Prop :=
  p.mls = true ∧ ∃ f : RangeForm, f.Tokens ∧ f.text = s ∧ f.Denotes p r

/-- The text from the colon of the second level on. -/
def secondCats (s : Name) : Name := (cutAt (· == ':') ((s.dropWhile (· != '-')).drop 1)).2

/-! ## Cutting -/

theorem cutAt_spec (sep : Char → Bool) (s : Name) :
    (cutAt sep s).1 ++ (cutAt sep s).2 = s ∧ (∀ c ∈ (cutAt sep s).1, sep c = false) ∧
      ∀ c ∈ (cutAt sep s).2.head?, sep c = true := by
  refine ⟨takeWhile_append_dropWhile, ?_, ?_⟩
  · intro c hc
    simpa using mem_takeWhile_imp hc
  · intro c hc
    have hhead := head?_dropWhile_not (fun c => !sep c) s
    rw [show (s.dropWhile fun c => !sep c).head? = some c from hc] at hhead
    simpa using hhead

/-- The pieces with the rest behind them are the text. -/
theorem catPieces_spec (s : Name) : ∃ piece pieces rest, catPieces s = (piece :: pieces, rest) ∧
    piece ++ withSeps true pieces ++ rest = s ∧ (∀ q ∈ piece :: pieces, ',' ∉ q ∧ '-' ∉ q) ∧ ∀ c ∈ rest.head?, c = '-' := by
  induction s with
  | nil => exact ⟨[], [], [], rfl, rfl, by simp, nofun⟩
  | cons c s ih =>
    obtain ⟨piece, pieces, rest, heq, htext, hpieces, hrest⟩ := ih
    rw [catPieces]
    by_cases hdash : c = '-'
    · rw [if_pos hdash]
      refine ⟨[], [], c :: s, rfl, rfl, by simp, ?_⟩
      intro x hx
      exact (Option.some.inj hx).symm.trans hdash
    · rw [if_neg hdash, heq]
      obtain ⟨hpiece, htail⟩ := forall_mem_cons.mp hpieces
      by_cases hcomma : c = ','
      · refine ⟨[], piece :: pieces, rest, if_pos hcomma, ?_, ?_, hrest⟩
        · rw [← htext, hcomma]
          rfl
        · exact forall_mem_cons.mpr ⟨by simp, hpieces⟩
      · refine ⟨c :: piece, pieces, rest, if_neg hcomma, ?_, ?_, hrest⟩
        · rw [← htext]
          rfl
        · refine forall_mem_cons.mpr ⟨⟨?_, ?_⟩, htail⟩
          · exact not_mem_cons_of_ne_of_not_mem (Ne.symm hcomma) hpiece.1
          · exact not_mem_cons_of_ne_of_not_mem (Ne.symm hdash) hpiece.2

/-! ## Pieces -/

/-- The form of a piece. -/
def pieceForm (piece : Name) : CatForm :=
  match cutAt (· == '.') piece with
  | (name, []) => .one name
  | (name, _ :: range) => .range name range

variable {cat' cat : Bitmap}

theorem setRange_has {low high : Nat} (h : setRange cat low high = some cat') (i : Nat) :
    cat'.has i = true ↔ cat.has i = true ∨ low ≤ i ∧ i < high := by
  rw [Bitmap.has_setBits h, Bool.or_eq_true, decide_eq_true_iff, mem_range'_1]
  refine or_congr_right ?_
  omega

/-- A piece that is accepted has a form, and sets what the form names. -/
theorem pieceForm_spec {p : Policydb} {piece : Name} (h : setPiece p cat piece = some cat')
    (hpiece : ',' ∉ piece ∧ '-' ∉ piece) :
    (pieceForm piece).text = piece ∧ (pieceForm piece).Token ∧ (pieceForm piece).Defined p ∧
      ∀ i, cat'.has i = true ↔ cat.has i = true ∨ (pieceForm piece).Names p i := by
  obtain ⟨htext, hno, hdot⟩ := cutAt_spec (· == '.') piece
  unfold setPiece at h
  unfold pieceForm
  cases hcut : cutAt (· == '.') piece with
  | mk name range =>
    rw [hcut] at h htext hno hdot
    obtain ⟨d, hd, h⟩ := Option.bind_eq_some_iff.mp h
    obtain ⟨cat1, hcat1, h⟩ := Option.bind_eq_some_iff.mp h
    have hbit : ∀ i, cat1.has i = true ↔ cat.has i = true ∨ i = catBit d := by
      intro i
      rw [Bitmap.has_setBit hcat1]
      by_cases hi : i = catBit d
      · simp [hi]
      · simp [hi]
    have hname : '.' ∉ name := by
      intro hmem
      have := hno '.' hmem
      simp at this
    cases range with
    | nil =>
      have hpiecename : name = piece := by rw [← htext, append_nil]
      obtain rfl := hpiecename
      cases h
      refine ⟨rfl, ⟨hpiece.1, hpiece.2, hname⟩, Option.isSome_iff_exists.mpr ⟨d, hd⟩, ?_⟩
      intro i
      rw [hbit]
      simp [CatForm.Names, hd]
    | cons c range =>
      have hc : c = '.' := by simpa using hdot c rfl
      subst hc
      obtain ⟨d', hd', h⟩ := Option.bind_eq_some_iff.mp h
      split_ifs at h with hlt
      have hform : (CatForm.range name range).text = piece := htext
      refine ⟨hform, ⟨by rw [hform]; exact hpiece.1, by rw [hform]; exact hpiece.2, hname⟩, ⟨d, d', hd, hd', by omega⟩, ?_⟩
      intro i
      rw [setRange_has h, hbit, or_assoc]
      simp [CatForm.Names, hd, hd']

theorem foldlM_pieceForm {p : Policydb} {pieces : List Name} (hpieces : ∀ q ∈ pieces, ',' ∉ q ∧ '-' ∉ q)
    (h : pieces.foldlM (setPiece p) cat = some cat') :
    ((pieces.map pieceForm).map CatForm.text = pieces ∧ (∀ q ∈ pieces.map pieceForm, q.Token ∧ q.Defined p)) ∧
      ∀ i, cat'.has i = true ↔ cat.has i = true ∨ ∃ q ∈ pieces.map pieceForm, q.Names p i := by
  induction pieces generalizing cat with
  | nil =>
    cases h
    exact ⟨⟨rfl, forall_mem_nil _⟩, fun i => by simp⟩
  | cons piece pieces ih =>
    obtain ⟨hpiece, htail⟩ := forall_mem_cons.mp hpieces
    obtain ⟨cat1, h1, hrest⟩ := Option.bind_eq_some_iff.mp h
    obtain ⟨htext, htoken, hdefined, hnames⟩ := pieceForm_spec h1 hpiece
    obtain ⟨⟨htexts, hall⟩, hnames'⟩ := ih htail hrest
    refine ⟨⟨?_, forall_mem_cons.mpr ⟨⟨htoken, hdefined⟩, hall⟩⟩, ?_⟩
    · rw [map_cons, map_cons, htext, htexts]
    · intro i
      rw [hnames', hnames, or_assoc]
      simp

/-! ## Levels -/

/-- A level that is read, with the text behind it. -/
theorem readLevel_form {p : Policydb} {sens rest rest' : Name} {l : MlsLevel} (h : readLevel p sens rest = some (l, rest')) :
    ∃ cats : List CatForm, LevelForm.Denotes p ⟨sens, cats⟩ l ∧ withSeps false (cats.map CatForm.text) ++ rest' = rest ∧
      (∀ q ∈ cats, q.Token) ∧ ((∀ c ∈ rest.head?, c = ':') → ∀ c ∈ rest'.head?, c = '-') ∧
      ((∀ c ∈ rest.head?, c ≠ ':') → rest' = rest) := by
  obtain ⟨lev, hlev, hcats⟩ := Option.bind_eq_some_iff.mp h
  split at hcats
  next cats =>
    obtain ⟨piece, pieces, rest1, heq, htext, hpieces, hrest⟩ := catPieces_spec cats
    rw [heq] at hcats
    obtain ⟨cat, hcat, hpure⟩ := Option.bind_eq_some_iff.mp hcats
    cases hpure
    obtain ⟨⟨htexts, hall⟩, hnames⟩ := foldlM_pieceForm hpieces hcat
    refine ⟨(piece :: pieces).map pieceForm, ⟨⟨lev, hlev, rfl⟩, fun q hq => (hall q hq).2, ?_⟩, ?_,
      fun q hq => (hall q hq).1, fun _ => hrest, ?_⟩
    · intro i
      rw [hnames, Bitmap.has_empty, or_iff_right Bool.false_ne_true]
    · rw [htexts, ← htext]
      rfl
    · intro hno
      exact absurd rfl (hno ':' rfl)
  next hcolon =>
    cases hcats
    refine ⟨[], ⟨⟨lev, hlev, rfl⟩, forall_mem_nil _, ?_⟩, rfl, forall_mem_nil _, ?_, fun _ => rfl⟩
    · intro i
      have hempty : Bitmap.empty.has i = false := Bitmap.has_empty i
      simp only [not_mem_nil, false_and, exists_false, iff_false]
      exact Bool.eq_false_iff.mp hempty
    · intro hall c hc
      -- a colon would have been read
      cases rest with
      | nil => cases hc
      | cons x rest => exact absurd (congrArg (· :: rest) (hall x rfl)) (hcolon rest)

/-! ## Ranges -/

/-- What is accepted is a form with the text that was not looked at behind it. -/
theorem mlsContextToSid_form {p : Policydb} {s : Name} {r : MlsRange} (h : mlsContextToSid p s = some r) :
    ∃ (f : RangeForm) (rest : Name), f.Tokens ∧ f.text ++ rest = s ∧ f.Denotes p r ∧ (∀ c ∈ rest.head?, c = '-') ∧
      (rest ≠ [] → ∃ g ∈ f.high, g.cats ≠ []) := by
  obtain ⟨htext, hno, hhead⟩ := cutAt_spec (fun c => c == ':' || c == '-') s
  unfold mlsContextToSid at h
  cases hcut : cutAt (fun c => c == ':' || c == '-') s with
  | mk sens rest =>
    rw [hcut] at h htext hno hhead
    obtain ⟨⟨low, rest1⟩, hlow, h⟩ := Option.bind_eq_some_iff.mp h
    obtain ⟨cats, hdenotes, hcats, htokens, hcolon, hother⟩ := readLevel_form hlow
    have hsens : ':' ∉ sens ∧ '-' ∉ sens :=
      ⟨fun hmem => absurd (hno ':' hmem) (by decide), fun hmem => absurd (hno '-' hmem) (by decide)⟩
    -- behind the first level there is a dash or nothing
    have hrest1 : ∀ c ∈ rest1.head?, c = '-' := by
      cases rest with
      | nil => exact hcolon nofun
      | cons x rest =>
        rcases (by simpa using hhead x rfl : x = ':' ∨ x = '-') with rfl | rfl
        · exact hcolon (by simp)
        · rw [hother (by simp)]
          simp
    cases rest1 with
    | nil =>
      cases h
      refine ⟨⟨⟨sens, cats⟩, none⟩, [], ⟨hsens, htokens, nofun⟩, ?_, ⟨hdenotes, hdenotes⟩, nofun, fun hne => absurd rfl hne⟩
      rw [← htext, ← hcats]
      simp [RangeForm.text, LevelForm.text]
    | cons x rest1 =>
      obtain rfl := hrest1 x rfl
      obtain ⟨htext2, hno2, hhead2⟩ := cutAt_spec (· == ':') rest1
      cases hcut2 : cutAt (· == ':') rest1 with
      | mk sens2 rest2 =>
        simp only [hcut2] at h htext2 hno2 hhead2
        obtain ⟨⟨high, rest3⟩, hhigh, h⟩ := Option.bind_eq_some_iff.mp h
        cases h
        obtain ⟨cats2, hdenotes2, hcats2, htokens2, hcolon2, -⟩ := readLevel_form hhigh
        have hsens2 : ':' ∉ sens2 := fun hmem => absurd (hno2 ':' hmem) (by decide)
        have hrest2 : ∀ c ∈ rest2.head?, c = ':' := fun c hc => beq_iff_eq.mp (hhead2 c hc)
        have hdash := hcolon2 hrest2
        refine ⟨⟨⟨sens, cats⟩, some ⟨sens2, cats2⟩⟩, rest3, ⟨hsens, htokens, ?_⟩, ?_, ⟨hdenotes, hdenotes2⟩, hdash, ?_⟩
        · intro g hg
          cases hg
          exact ⟨hsens2, htokens2⟩
        · rw [← htext, ← hcats, ← htext2, ← hcats2]
          simp [RangeForm.text, LevelForm.text]
        · intro hne
          refine ⟨_, rfl, ?_⟩
          intro hnil
          -- the rest would begin with a colon
          obtain rfl : cats2 = [] := hnil
          rw [← hcats2] at hrest2
          cases rest3 with
          | nil => exact hne rfl
          | cons c rest3 =>
            have h1 := hrest2 c rfl
            have h2 := hdash c rfl
            rw [h1] at h2
            exact absurd h2 (by decide)

theorem not_mem_withSeps {x : Char} (hcolon : x ≠ ':') (hcomma : x ≠ ',') {l : List Name} (hl : ∀ q ∈ l, x ∉ q)
    (wrote : Bool) : x ∉ withSeps wrote l := by
  induction l generalizing wrote with
  | nil => exact not_mem_nil
  | cons q l ih =>
    obtain ⟨hq, hl⟩ := forall_mem_cons.mp hl
    rw [withSeps, mem_cons, mem_append, not_or, not_or]
    refine ⟨?_, hq, ih hl true⟩
    split
    · exact hcomma
    · exact hcolon

theorem not_dash_withSeps {cats : List CatForm} (h : ∀ q ∈ cats, q.Token) (wrote : Bool) :
    '-' ∉ withSeps wrote (cats.map CatForm.text) := by
  refine not_mem_withSeps (by decide) (by decide) ?_ wrote
  intro q hq
  obtain ⟨f, hf, rfl⟩ := mem_map.mp hq
  exact (h f hf).noDash

/-- The first dash of a form with two levels is the one between them. -/
theorem secondCats_text {f : RangeForm} (hf : f.Tokens) (rest : Name) :
    (f.high = none → rest = [] → secondCats (f.text ++ rest) = []) ∧
      ∀ g ∈ f.high, (∀ c ∈ (withSeps false (g.cats.map CatForm.text) ++ rest).head?, c = ':') →
        secondCats (f.text ++ rest) = withSeps false (g.cats.map CatForm.text) ++ rest := by
  have hlow : ∀ c ∈ f.low.text, (c != '-') = true := by
    intro c hc
    rw [bne_iff_ne]
    intro heq
    subst heq
    rcases mem_append.mp hc with hc | hc
    · exact hf.low.2 hc
    · exact not_dash_withSeps hf.lowCats false hc
  constructor
  · intro hhigh hrest
    unfold secondCats RangeForm.text
    rw [hhigh, hrest]
    simp only [Option.map_none, Option.getD_none, append_nil, dropWhile_eq_nil_iff.mpr hlow, drop_nil]
    rfl
  · intro g hg hhead
    obtain ⟨hsens, -⟩ := hf.high g hg
    unfold secondCats RangeForm.text
    rw [show f.high = some g from hg]
    simp only [Option.map_some, Option.getD_some, append_assoc, cons_append]
    rw [dropWhile_append_of_pos hlow]
    have hdash : ('-' :: (g.text ++ rest)).dropWhile (· != '-') = '-' :: (g.text ++ rest) :=
      dropWhile_cons_of_neg (by decide)
    rw [hdash, drop_succ_cons, drop_zero, LevelForm.text, append_assoc, cutAt_append]
    · intro c hc
      exact beq_eq_false_iff_ne.mpr fun heq => hsens (heq ▸ hc)
    · intro c hc
      exact beq_iff_eq.mpr (hhead c hc)

theorem head_withSeps {l : List Name} {c : Char} (h : c ∈ (withSeps false l).head?) : c = ':' := by
  cases l with
  | nil => cases h
  | cons q l => exact (Option.some.inj h).symm

/-- The categories of a form have no dash. -/
theorem Interpreted.not_dash {p : Policydb} {s : Name} {r : MlsRange} (h : Interpreted p s r) : '-' ∉ secondCats s := by
  obtain ⟨-, f, htokens, rfl, -⟩ := h
  have hsecond := secondCats_text htokens []
  rw [append_nil] at hsecond
  cases hhigh : f.high with
  | none =>
    rw [hsecond.1 hhigh rfl]
    exact not_mem_nil
  | some g =>
    have hcats := hsecond.2 g hhigh fun c hc => head_withSeps (by rwa [append_nil] at hc)
    rw [hcats, append_nil]
    exact not_dash_withSeps (htokens.high g hhigh).2 false

/-- An accepted text is interpreted as a whole exactly if the policy has MLS and no dash follows
    the colon of the second level. -/
theorem mlsFromString_form_iff {p : Policydb} {s : Name} {r : MlsRange} (h : mlsFromString p s = some r) :
    Interpreted p s r ↔ p.mls = true ∧ '-' ∉ secondCats s := by
  constructor
  · intro hform
    exact ⟨hform.1, hform.not_dash⟩
  · intro hs
    obtain ⟨hmls, hdash⟩ := hs
    rw [mlsFromString, if_pos hmls] at h
    obtain ⟨f, rest, htokens, rfl, hdenotes, hrest, hcats⟩ := mlsContextToSid_form h
    refine ⟨hmls, f, htokens, ?_, hdenotes⟩
    cases rest with
    | nil => exact (append_nil _).symm
    | cons c rest =>
      obtain ⟨g, hg, hne⟩ := hcats (cons_ne_nil c rest)
      refine absurd ?_ hdash
      rw [(secondCats_text htokens (c :: rest)).2 g hg ?_]
      · rw [hrest c rfl]
        exact mem_append_right _ mem_cons_self
      · intro x hx
        cases hlist : g.cats with
        | nil => exact absurd hlist hne
        | cons q l =>
          rw [hlist] at hx
          exact (Option.some.inj hx).symm

/-- Two levels with categories. -/
theorem mlsFromString_form_edgeCats : ∃ r, mlsFromString (oneSens edgeCats) "s0-s0:c63,c64.c65".toList = some r ∧
    Interpreted (oneSens edgeCats) "s0-s0:c63,c64.c65".toList r := by
  have hsome : (mlsFromString (oneSens edgeCats) "s0-s0:c63,c64.c65".toList).isSome = true := by decide +kernel
  obtain ⟨r, hr⟩ := Option.isSome_iff_exists.mp hsome
  exact ⟨r, hr, (mlsFromString_form_iff hr).mpr (by decide +kernel)⟩

/-- A second dash ends what is read; without MLS nothing is read at all. -/
theorem mlsFromString_rest : (∃ r, mlsFromString (oneSens edgeCats) "s0-s0:c63-anything:at.all".toList = some r ∧
      ¬Interpreted (oneSens edgeCats) "s0-s0:c63-anything:at.all".toList r) ∧
    mlsFromString {} "anything".toList = some {} ∧ ¬Interpreted {} "anything".toList {} := by
  have hsome : (mlsFromString (oneSens edgeCats) "s0-s0:c63-anything:at.all".toList).isSome = true := by decide +kernel
  obtain ⟨r, hr⟩ := Option.isSome_iff_exists.mp hsome
  refine ⟨⟨r, hr, ?_⟩, rfl, ?_⟩
  · intro hform
    exact absurd hform.not_dash (by decide +kernel)
  · intro hform
    obtain ⟨hmls, -⟩ := hform
    cases hmls

end SELinux.Db
