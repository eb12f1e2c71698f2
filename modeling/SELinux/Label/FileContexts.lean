/-
  SELinux.Label.FileContexts — the lookup of a path among the file contexts
  (`libselinux/src/label_file.h`: `process_line`, `get_stem_from_spec`, `find_stem_from_spec`,
  `spec_hasMetaChars`, `compile_regex`; `label_file.c`: `get_stem_from_file_name`,
  `find_stem_from_file`, `lookup_common`, `lookup_best_match`).

  An entry whose expression starts with a directory in plain text keeps that text, its stem, in a
  table, and only what follows the stem is compiled, between anchors. A path is cut the same way; an
  entry is tried on what follows if it has the stem of the path, and on all of it if it has none.

  The key and its aliases are looked up in turn. The first entry without meta characters is the
  answer; otherwise the one with the longest fixed prefix, found by a running maximum that the key's
  entry starts. Without such an entry it starts at 0, and no empty prefix exceeds it: that of `.*`
  and the like, and of every entry of a compiled file too old to hold prefix lengths.

  `lookupBestMatch_iff`: the answer is the best of the entries found, except that all of them are
  lost when the key has none and each begins with a meta character. `alias_entry_lost` is a file
  with one such entry.

  The library that compiles and matches expressions is a parameter. A line is given as its fields,
  which are not empty. Allocation succeeds; the validation of contexts, the sorting of the entries,
  the counting of matches and partial lookups are left out. `lookup_common` compiles an expression
  when it first needs it, here each time.
-/
import Mathlib.Algebra.Order.Group.Int

namespace SELinux.Label

open List

/-- The library of regular expressions. -/
structure Pcre where
  Regex : Type
  /-- `pcre_compile` with `PCRE_DOTALL`, and `pcre_study`; `none` is an error of one of them. -/
  compile : List Char → Option Regex
  /-- `pcre_exec`: whether the subject matches; `none` is any other error. -/
  exec : Regex → List Char → Option Bool

/-- `struct spec`; a `stem_id` of -1 is `none`. -/
structure Spec where
  regexStr : List Char
  mode : Nat
  ctxRaw : List Char
  stemId : Option Nat
  hasMetaChars : Bool
  prefixLen : Nat
  deriving DecidableEq, Repr

structure SavedData where
  specArr : List Spec := []
  stemArr : List (List Char) := []
  deriving DecidableEq, Repr

/-! ## Reading the entries -/

def metaChars : List Char := ['.', '^', '$', '?', '*', '+', '|', '[', '(', '{']

/-- `strchr(buf + 1, '/') - buf` -/
def secondSlash (buf : List Char) : Option Nat := ((buf.drop 1).idxOf? '/').map (· + 1)

/-- 0 if there is no stem. -/
def getStemFromSpec (buf : List Char) : Nat :=
  match secondSlash buf with
  | none => 0
  | some n => if (buf.take n).any (· ∈ metaChars) then 0 else n

def findStemFromSpec (data : SavedData) (buf : List Char) : Option Nat × SavedData :=
  let stemLen := getStemFromSpec buf
  if stemLen = 0 then (none, data)
  else
    match data.stemArr.idxOf? (buf.take stemLen) with
    | some stemid => (some stemid, data)
    | none => (some data.stemArr.length, { data with stemArr := data.stemArr ++ [buf.take stemLen] })

/-- `spec_hasMetaChars`: where the first meta character stands; a backslash hides the next one. -/
def firstMeta : List Char → Option Nat
  | [] => none
  | [c] => if c ∈ metaChars then some 0 else none
  | c :: d :: l =>
    if c ∈ metaChars then some 0
    else if c = '\\' then (firstMeta l).map (· + 2)
    else (firstMeta (d :: l)).map (· + 1)

/-- `string_to_mode` with the file types of `stat`; `none` is -1. -/
def stringToMode : Option (List Char) → Option Nat
  | none => some 0
  | some ['-', 'b'] => some 0o060000
  | some ['-', 'c'] => some 0o020000
  | some ['-', 'd'] => some 0o040000
  | some ['-', 'p'] => some 0o010000
  | some ['-', 'l'] => some 0o120000
  | some ['-', 's'] => some 0o140000
  | some ['-', '-'] => some 0o100000
  | some _ => none

/-- `compile_regex`: `^...$` around what follows the stem. -/
def compileRegex (P : Pcre) (data : SavedData) (spec : Spec) : Option P.Regex :=
  let stemLen := spec.stemId.elim 0 fun id => (data.stemArr.getD id []).length
  P.compile ('^' :: spec.regexStr.drop stemLen ++ ['$'])

inductive LoadErr
  | missingFields
  | invalidRegex
  | invalidFileType
  deriving DecidableEq, Repr

/-- The rest of `process_line`, once the fields are known. -/
def storeSpec (P : Pcre) (validating : Bool) (pfx : Option (List Char)) (data : SavedData) (regex : List Char)
    (type : Option (List Char)) (context : List Char) : Except LoadErr SavedData :=
  let len := getStemFromSpec regex
  if len ≠ 0 ∧ pfx.any fun p => p.take len ≠ regex.take len then .ok data
  else
    let (stemId, data) := findStemFromSpec data regex
    let spec : Spec :=
      { regexStr := regex, mode := 0, ctxRaw := context, stemId, hasMetaChars := (firstMeta regex).isSome,
        prefixLen := (firstMeta regex).getD regex.length }
    if validating ∧ (compileRegex P data spec).isNone then .error .invalidRegex
    else
      match stringToMode type with
      | none => .error .invalidFileType
      | some mode => .ok { data with specArr := data.specArr ++ [{ spec with mode }] }

def processLine (P : Pcre) (validating : Bool) (pfx : Option (List Char)) (data : SavedData) :
    List (List Char) → Except LoadErr SavedData
  | [] => .ok data
  | [_] => .error .missingFields
  | [regex, context] => storeSpec P validating pfx data regex none context
  | regex :: type :: context :: _ => storeSpec P validating pfx data regex (some type) context

def processLines (P : Pcre) (validating : Bool) (pfx : Option (List Char)) (lines : List (List (List Char))) :
    Except LoadErr SavedData :=
  lines.foldlM (processLine P validating pfx) {}

/-! ## Looking up -/

/-- Each slash before another one is dropped. -/
def cleanKey : List Char → List Char
  | [] => []
  | c :: l => if c = '/' ∧ l.head? = some '/' then cleanKey l else c :: cleanKey l

def getStemFromFileName (buf : List Char) : Nat := (secondSlash buf).getD 0

/-- The index of the stem of the path, and what follows it. -/
def findStemFromFile (data : SavedData) (buf : List Char) : Option Nat × List Char :=
  let stemLen := getStemFromFileName buf
  if stemLen = 0 then (none, buf)
  else
    match data.stemArr.idxOf? (buf.take stemLen) with
    | some i => (some i, buf.drop stemLen)
    | none => (none, buf)

/-- `S_IFMT` -/
def sIfmt : Nat := 0o170000

/-- `mode` is what is left of the requested type. -/
def modeFits (mode specMode : Nat) : Bool := mode == 0 || specMode == 0 || mode == specMode

def noneContext : List Char := "<<none>>".toList

/-- From the last entry to the first. An expression that cannot be compiled ends the search, and so
    does an error of the matching. -/
def scanSpecs (P : Pcre) (data : SavedData) (key buf : List Char) (fileStem : Option Nat) (mode : Nat) :
    List Spec → Option Spec
  | [] => none
  | spec :: l =>
    if (spec.stemId = none ∨ spec.stemId = fileStem) ∧ modeFits mode spec.mode then
      match (compileRegex P data spec).bind (P.exec · (if spec.stemId = none then key else buf)) with
      | none => none
      | some true => some spec
      | some false => scanSpecs P data key buf fileStem mode l
    else scanSpecs P data key buf fileStem mode l

/-- `lookup_common`, not partial -/
def lookupCommon (P : Pcre) (data : SavedData) (key : List Char) (type : Nat) : Option Spec :=
  let key := cleanKey key
  let (fileStem, buf) := findStemFromFile data key
  (scanSpecs P data key buf fileStem (type &&& sIfmt) data.specArr.reverse).filter fun spec => spec.ctxRaw ≠ noneContext

/-! ## Several names -/

variable {lookup : List Char → Option Spec} {key best : Option Spec} {found : List Spec} {len : Nat} {s : Spec}

/-- The loop over the aliases; `len` is `prefix_len`. -/
def scanAliases (lookup : List Char → Option Spec) : Option Spec → Nat → List (List Char) → Option Spec
  | best, _, [] => best
  | best, len, a :: aliases =>
    match lookup a with
    | none => scanAliases lookup best len aliases
    | some s =>
      if !s.hasMetaChars then some s
      else if s.prefixLen > len then scanAliases lookup (some s) s.prefixLen aliases
      else scanAliases lookup best len aliases

/-- A missing alias list is an empty one. -/
def lookupBestMatch (P : Pcre) (data : SavedData) (key : List Char) (aliases : List (List Char)) (type : Nat) :
    Option Spec :=
  if aliases = [] then lookupCommon P data key type
  else
    match lookupCommon P data key type with
    | none => scanAliases (lookupCommon P data · type) none 0 aliases
    | some s => if !s.hasMetaChars then some s else scanAliases (lookupCommon P data · type) (some s) s.prefixLen aliases

/-- The entries of the key and the aliases. -/
def entriesFound (P : Pcre) (data : SavedData) (key : List Char) (aliases : List (List Char)) (type : Nat) : List Spec :=
  (key :: aliases).filterMap (lookupCommon P data · type)

def FirstLongest (found : List Spec) (s : Spec) : Prop :=
  ∃ before after, found = before ++ s :: after ∧ (∀ q ∈ before, q.prefixLen < s.prefixLen) ∧
    ∀ q ∈ after, q.prefixLen ≤ s.prefixLen

/-- The answer that the entries found ask for. -/
def BestOf (found : List Spec) (r : Option Spec) : Prop :=
  (r = none ↔ found = []) ∧
    ∀ s, r = some s → found.find? (!·.hasMetaChars) = some s ∨ (∀ q ∈ found, q.hasMetaChars = true) ∧ FirstLongest found s

/-- The key has no entry, and those of the aliases begin with a meta character. -/
def Lost (key : Option Spec) (found : List Spec) : Prop :=
  key = none ∧ found ≠ [] ∧ ∀ s ∈ found, s.hasMetaChars = true ∧ s.prefixLen = 0

/-- The running maximum over the entries found so far, none of which is exact. -/
def Running (key : Option Spec) (found : List Spec) (len : Nat) : Option Spec → Prop
  | none => key = none ∧ len = 0 ∧ ∀ q ∈ found, q.prefixLen = 0
  | some s => (key = none → 0 < s.prefixLen) ∧ len = s.prefixLen ∧ FirstLongest found s

theorem FirstLongest.le (h : FirstLongest found s) : ∀ q ∈ found, q.prefixLen ≤ s.prefixLen := by
  obtain ⟨before, after, rfl, hbefore, hafter⟩ := h
  intro q hq
  rcases mem_append.mp hq with hq | hq
  · exact (hbefore q hq).le
  · rcases mem_cons.mp hq with rfl | hq
    · exact Nat.le_refl _
    · exact hafter q hq

theorem Running.le (h : Running key found len best) : ∀ q ∈ found, q.prefixLen ≤ len := by
  cases best with
  | none => exact fun q hq => (h.2.2 q hq).trans_le (Nat.zero_le len)
  | some s => exact h.2.1 ▸ h.2.2.le

theorem Running.longer (h : Running key found len best) (hlen : s.prefixLen > len) :
    Running key (found ++ [s]) s.prefixLen (some s) :=
  ⟨fun _ => by omega, rfl, found, [], rfl, fun q hq => (h.le q hq).trans_lt hlen, forall_mem_nil _⟩

theorem Running.notLonger (h : Running key found len best) (hlen : ¬s.prefixLen > len) :
    Running key (found ++ [s]) len best := by
  cases best with
  | none =>
    obtain ⟨hkey, rfl, hzero⟩ := h
    refine ⟨hkey, rfl, forall_mem_append.mpr ⟨hzero, ?_⟩⟩
    simpa using hlen
  | some t =>
    obtain ⟨hkey, rfl, before, after, rfl, hbefore, hafter⟩ := h
    refine ⟨hkey, rfl, before, after ++ [s], by simp, hbefore, forall_mem_append.mpr ⟨hafter, ?_⟩⟩
    simpa using hlen

theorem bestOf_exact (key : Option Spec) (h : found.find? (!·.hasMetaChars) = some s) :
    BestOf found (some s) ↔ ¬Lost key found := by
  have hs : s ∈ found := mem_of_find?_eq_some h
  have hexact := find?_some h
  refine iff_of_true ⟨by simp [ne_nil_of_mem hs], ?_⟩ ?_
  · rintro q ⟨⟩
    exact Or.inl h
  · rintro ⟨-, -, hmeta⟩
    simp [(hmeta s hs).1] at hexact

theorem bestOf_running (hmeta : ∀ q ∈ found, q.hasMetaChars = true) (h : Running key found len best) :
    BestOf found best ↔ ¬Lost key found := by
  cases best with
  | none =>
    obtain ⟨hkey, -, hzero⟩ := h
    by_cases hnil : found = []
    · simp [BestOf, Lost, hnil]
    · simpa [BestOf, Lost, hnil, hkey] using fun q hq => ⟨hmeta q hq, hzero q hq⟩
  | some s =>
    obtain ⟨hpos, -, hlong⟩ := h
    have hs : s ∈ found := by
      obtain ⟨before, after, rfl, -, -⟩ := hlong
      simp
    refine iff_of_true ⟨by simp [ne_nil_of_mem hs], ?_⟩ ?_
    · rintro q ⟨⟩
      exact Or.inr ⟨hmeta, hlong⟩
    · rintro ⟨hkey, -, hzero⟩
      exact absurd (hzero s hs).2 (hpos hkey).ne'

/-- The loop ends at an exact entry, or with the maximum over all entries found. -/
theorem scanAliases_best (lookup : List Char → Option Spec) (aliases : List (List Char))
    (hmeta : ∀ q ∈ found, q.hasMetaChars = true) (h : Running key found len best) :
    BestOf (found ++ aliases.filterMap lookup) (scanAliases lookup best len aliases) ↔
      ¬Lost key (found ++ aliases.filterMap lookup) := by
  fun_induction scanAliases lookup best len aliases generalizing found with
  | case1 best len => simpa using bestOf_running hmeta h
  | case2 best len a aliases ha ih =>
    rw [filterMap_cons_none ha]
    exact ih hmeta h
  | case3 best len a aliases s ha hexact =>
    rw [filterMap_cons_some ha]
    refine bestOf_exact key ?_
    rw [find?_append, find?_eq_none.mpr (by simpa using hmeta)]
    exact find?_cons_of_pos (p := fun q : Spec => !q.hasMetaChars) hexact
  | case4 best len a aliases s ha hs hlen ih =>
    rw [filterMap_cons_some ha, append_cons]
    exact ih (forall_mem_append.mpr ⟨hmeta, by simpa using hs⟩) (h.longer hlen)
  | case5 best len a aliases s ha hs hlen ih =>
    rw [filterMap_cons_some ha, append_cons]
    exact ih (forall_mem_append.mpr ⟨hmeta, by simpa using hs⟩) (h.notLonger hlen)

theorem lookupBestMatch_iff (P : Pcre) (data : SavedData) (key : List Char) (aliases : List (List Char)) (type : Nat) :
    BestOf (entriesFound P data key aliases type) (lookupBestMatch P data key aliases type) ↔
      ¬Lost (lookupCommon P data key type) (entriesFound P data key aliases type) := by
  unfold lookupBestMatch entriesFound
  cases hkey : lookupCommon P data key type with
  | none =>
    have hscan := scanAliases_best (lookupCommon P data · type) aliases (forall_mem_nil _)
      (show Running none [] 0 none from ⟨rfl, rfl, forall_mem_nil _⟩)
    simp only [filterMap_cons, hkey]
    split
    next hnil =>
      simpa [hnil, scanAliases] using hscan
    · exact hscan
  | some s =>
    simp only [filterMap_cons, hkey]
    cases hs : s.hasMetaChars with
    | false =>
      have hfirst : find? (!·.hasMetaChars) (s :: aliases.filterMap (lookupCommon P data · type)) = some s := by simp [hs]
      simpa [hs] using bestOf_exact (some s) hfirst
    | true =>
      have hscan := scanAliases_best (lookupCommon P data · type) aliases (by simpa using hs)
        (show Running (some s) [s] s.prefixLen (some s) from ⟨by simp, rfl, [], [], rfl, forall_mem_nil _, forall_mem_nil _⟩)
      split
      next hnil =>
        simpa [hnil, scanAliases] using hscan
      · simpa using hscan

/-- Expressions of characters and dots between anchors. -/
def dots : Pcre where
  Regex := List Char
  compile text := some (text.drop 1).dropLast
  exec regex subject := some (regex.length == subject.length && (regex.zip subject).all fun p => p.1 == '.' || p.1 == p.2)

/-- The alias has an entry, which begins with a dot; the answer is that there is none. -/
theorem alias_entry_lost :
    ∃ data, processLines dots false none [[".a".toList, "c".toList]] = .ok data ∧
      (lookupCommon dots data "/a".toList 0).isSome ∧ lookupBestMatch dots data "/b".toList ["/a".toList] 0 = none := by
  refine ⟨_, rfl, ?_⟩
  decide +kernel

end SELinux.Label
