/-
  SELinux.Label.Specificity — which of two file contexts is more specific
  (`libsemanage/src/semanage_store.c`: `semanage_fc_find_meta`, `semanage_fc_compare`,
  `libsepol/cil/src/cil_post.c`: `cil_post_fc_fill_data`, `cil_post_filecon_compare`).

  Both compare whether there are meta characters, the length up to the first one, the length
  without escapes and the file type, in this order. The first three are the same numbers. A
  type makes a context more specific for libsemanage. CIL compares the types as numbers, and
  `CIL_FILECON_ANY`, which stands for none, is the greatest.

  `fileconCompare_pos_iff`: CIL agrees that the first context is the more specific one exactly when
  the type is not what decides. `typed_before_any` has one path with and without a type.
-/
import SELinux.Label.FileContexts

namespace SELinux.Label

/-- `enum cil_filecon_types`, without `CIL_FILECON_ANY`. -/
inductive FileconType
  | file
  | dir
  | char
  | block
  | socket
  | pipe
  | symlink
  deriving DecidableEq, Repr

/-- A path with a file type, or none. -/
structure Filecon where
  path : List Char
  type : Option FileconType
  deriving DecidableEq, Repr

/-- Every backslash that is not escaped has a character behind it. -/
def Complete : List Char → Prop
  | [] => True
  | ch :: path =>
    if ch = '\\' then
      match path with
      | [] => False
      | _ :: path => Complete path
    else Complete path

/-! ## libsemanage -/

/-- The loop of `semanage_fc_find_meta` at position `c`. -/
def fcFindMeta (c escapeChars : Int) : List Char → Int
  | [] => -1
  | ch :: path =>
    if ch ∈ metaChars then c - escapeChars
    else if ch = '\\' then
      match path with
      | [] => -1
      | _ :: path => fcFindMeta (c + 2) (escapeChars + 1) path
    else fcFindMeta (c + 1) escapeChars path

/-- `escape_chars`, as `semanage_fc_sort` counts it. -/
def escapeChars (justSawEscape : Bool) : List Char → Int
  | [] => 0
  | ch :: path =>
    if ch = '\\' then
      if justSawEscape then escapeChars false path else 1 + escapeChars true path
    else escapeChars false path

/-- `semanage_file_context_node_t` -/
structure FcNode where
  hasMeta : Int
  effectiveLen : Int
  fileType : Option FileconType

def Filecon.node (fc : Filecon) : FcNode :=
  { hasMeta := fcFindMeta 0 0 fc.path
    effectiveLen := fc.path.length - escapeChars false fc.path
    fileType := fc.type }

def fcCompare (a b : FcNode) : Int :=
  if 0 ≤ a.hasMeta ∧ ¬0 ≤ b.hasMeta then -1
  else if 0 ≤ b.hasMeta ∧ ¬0 ≤ a.hasMeta then 1
  else if a.hasMeta < b.hasMeta then -1
  else if b.hasMeta < a.hasMeta then 1
  else if a.effectiveLen < b.effectiveLen then -1
  else if b.effectiveLen < a.effectiveLen then 1
  else if a.fileType = none ∧ b.fileType ≠ none then -1
  else if b.fileType = none ∧ a.fileType ≠ none then 1
  else 0

/-! ## CIL -/

/-- `struct fc_data` -/
structure FcData where
  hasMeta : Bool := false
  stemLen : Int := 0
  strLen : Int := 0
  deriving DecidableEq, Repr

/-- The `default` branch. -/
def FcData.count (fc : FcData) : FcData :=
  { fc with stemLen := if fc.hasMeta then fc.stemLen else fc.stemLen + 1, strLen := fc.strLen + 1 }

def fcFillData (fc : FcData) : List Char → FcData
  | [] => fc
  | ch :: path =>
    if ch ∈ metaChars then fcFillData { fc with hasMeta := true, strLen := fc.strLen + 1 } path
    else if ch = '\\' then
      match path with
      | [] => fc.count
      | _ :: path => fcFillData fc.count path
    else fcFillData fc.count path

/-- The number of a type, `CIL_FILECON_ANY` for none. -/
def fileconType : Option FileconType → Int
  | some .file => 1
  | some .dir => 2
  | some .char => 3
  | some .block => 4
  | some .socket => 5
  | some .pipe => 6
  | some .symlink => 7
  | none => 8

def fileconCompare (a b : Filecon) : Int :=
  let aData := fcFillData {} a.path
  let bData := fcFillData {} b.path
  if aData.hasMeta ∧ ¬bData.hasMeta then -1
  else if bData.hasMeta ∧ ¬aData.hasMeta then 1
  else if aData.stemLen < bData.stemLen then -1
  else if bData.stemLen < aData.stemLen then 1
  else if aData.strLen < bData.strLen then -1
  else if bData.strLen < aData.strLen then 1
  else if fileconType a.type < fileconType b.type then -1
  else if fileconType b.type < fileconType a.type then 1
  else 0

/-! ## The keys -/

variable {a b : Filecon} {fc : FcData} {path : List Char}

theorem ne_backslash {ch : Char} (h : ch ∈ metaChars) : ch ≠ '\\' := by
  rintro rfl
  revert h
  decide

theorem escapeChars_true (ch : Char) (path : List Char) : escapeChars true (ch :: path) = escapeChars false path := by
  rw [escapeChars]
  split <;> rfl

/-- The length is that without the escapes. -/
theorem fcFillData_strLen (fc : FcData) (h : Complete path) :
    (fcFillData fc path).strLen = fc.strLen + (path.length - escapeChars false path) := by
  fun_induction fcFillData with
  | case1 => simp [escapeChars]
  | case2 fc ch path hmeta ih =>
    have hne := ne_backslash hmeta
    unfold Complete at h
    rw [if_neg hne] at h
    rw [ih h, escapeChars, if_neg hne, List.length_cons]
    simp only
    omega
  | case3 => cases h
  | case4 fc ch path hmeta ih =>
    rw [ih h, escapeChars, if_pos rfl, if_neg Bool.false_ne_true, escapeChars_true, List.length_cons, List.length_cons]
    simp only [FcData.count]
    omega
  | case5 fc ch path hmeta hne ih =>
    unfold Complete at h
    rw [if_neg hne] at h
    rw [ih h, escapeChars, if_neg hne, List.length_cons]
    simp only [FcData.count]
    omega

/-- Behind a meta character the stem does not grow. -/
theorem fcFillData_stem (path : List Char) (h : fc.hasMeta = true) :
    (fcFillData fc path).hasMeta = true ∧ (fcFillData fc path).stemLen = fc.stemLen := by
  fun_induction fcFillData with
  | case1 => exact ⟨h, rfl⟩
  | case2 fc ch path hmeta ih => exact ih rfl
  | case3 => simp [FcData.count, h]
  | case4 fc hmeta ch path ih => simpa [FcData.count, h] using ih h
  | case5 fc ch path hmeta hne ih => simpa [FcData.count, h] using ih h

/-- The first meta character stands behind the stem; without one the stem is all. -/
theorem fcFillData_meta (fc : FcData) (h : Complete path) (hfc : fc.hasMeta = false) (c e : Int) :
    if (fcFillData fc path).hasMeta then
      fcFindMeta c e path = (fcFillData fc path).stemLen - fc.stemLen + (c - e) ∧ fc.stemLen ≤ (fcFillData fc path).stemLen
    else fcFindMeta c e path = -1 ∧ (fcFillData fc path).stemLen - fc.stemLen = (fcFillData fc path).strLen - fc.strLen := by
  fun_induction fcFillData generalizing c e with
  | case1 => simp [hfc, fcFindMeta]
  | case2 fc ch path hmeta ih =>
    have hstem := @fcFillData_stem { fc with hasMeta := true, strLen := fc.strLen + 1 } path rfl
    unfold fcFindMeta
    rw [if_pos hstem.1, hstem.2, if_pos hmeta, sub_self, zero_add]
    exact ⟨rfl, Int.le_refl _⟩
  | case3 => cases h
  | case4 fc ch path hmeta ih =>
    have ih := ih h hfc (c + 2) (e + 1)
    rw [fcFindMeta, if_neg hmeta, if_pos rfl]
    simp only [FcData.count, hfc, Bool.false_eq_true, if_false] at ih ⊢
    split_ifs at ih ⊢ with hm <;> omega
  | case5 fc ch path hmeta hne ih =>
    unfold Complete at h
    rw [if_neg hne] at h
    have ih := ih h hfc (c + 1) e
    unfold fcFindMeta
    rw [if_neg hmeta, if_neg hne]
    simp only [FcData.count, hfc, Bool.false_eq_true, if_false] at ih ⊢
    split_ifs at ih ⊢ with hm <;> omega

/-- libsemanage's numbers are CIL's. -/
theorem node_eq (fc : Filecon) (h : Complete fc.path) :
    fc.node.effectiveLen = (fcFillData {} fc.path).strLen ∧
      if (fcFillData {} fc.path).hasMeta then
        fc.node.hasMeta = (fcFillData {} fc.path).stemLen ∧ 0 ≤ (fcFillData {} fc.path).stemLen
      else fc.node.hasMeta = -1 ∧ (fcFillData {} fc.path).stemLen = (fcFillData {} fc.path).strLen := by
  have hlen := fcFillData_strLen {} h
  have hmeta := fcFillData_meta {} h rfl 0 0
  simp only [Int.zero_add, Int.sub_zero, Int.add_zero] at hlen hmeta
  exact ⟨hlen.symm, hmeta⟩

theorem fileconType_any (t : FileconType) : fileconType (some t) < fileconType none := by
  cases t <;> decide

theorem fileconCompare_pos_iff (a b : Filecon) (ha : Complete a.path) (hb : Complete b.path) :
    (fcCompare a.node b.node = 1 → 0 < fileconCompare a b) ↔
      ¬(fcFillData {} a.path = fcFillData {} b.path ∧ a.type ≠ none ∧ b.type = none) := by
  obtain ⟨hla, hma⟩ := node_eq a ha
  obtain ⟨hlb, hmb⟩ := node_eq b hb
  have hany := fileconType_any
  rw [fcCompare, fileconCompare, hla, hlb, show a.node.fileType = a.type from rfl, show b.node.fileType = b.type from rfl]
  generalize fcFillData {} a.path = aData at *
  generalize fcFillData {} b.path = bData at *
  obtain ⟨aMeta, aStem, aLen⟩ := aData
  obtain ⟨bMeta, bStem, bLen⟩ := bData
  simp only [FcData.mk.injEq]
  -- the keys are compared alike once it is known which paths have meta characters
  cases aMeta <;> cases bMeta <;> cases a.type <;> cases b.type <;> grind

theorem exact_after_regex : 0 < fileconCompare ⟨['/', 'a'], none⟩ ⟨['/', '.'], some .file⟩ :=
  (fileconCompare_pos_iff _ _ (by simp [Complete]) (by simp [Complete])).mpr (by decide) (by decide)

theorem typed_before_any :
    ¬(fcCompare (Filecon.node ⟨['/', 'a'], some .dir⟩) (Filecon.node ⟨['/', 'a'], none⟩) = 1 →
      0 < fileconCompare ⟨['/', 'a'], some .dir⟩ ⟨['/', 'a'], none⟩) := by
  decide

end SELinux.Label
