/-
  SELinux.Label.Compiled — loading compiled file contexts (`libselinux/src/label_file.c`:
  `load_mmap`; `label_file.h`: `next_entry`, `grow_specs`, `find_stem`, `store_stem`;
  `label.c`: `selabel_validate`; `label_support.c`: `digest_add_specfile`).

  The image is read through one status variable, and every failed test jumps to the one exit,
  which returns it. All tests set it to -1 first, except the one of the validation: a rejected
  context leaves with the 0 of the read before it. `loadMmap_iff` says that this is the only way
  to report an image as loaded that is not, and `loadMmap_rejected` is such an image.

  A pointer into the mapping is what stands from there on. Numbers are little-endian, and
  allocation succeeds. `pcre` and the validation callback are parameters; the callback keeps a
  state of its own and may replace the context it is given.
-/
import SELinux.Lib.Exit
import SELinux.Lib.Wire

namespace SELinux.Label.Compiled

open Lib.Wire Lib.Exit

/-- A `char` array as text. -/
def ascii (s : String) : Bytes := s.toList.map fun c => BitVec.ofNat 8 c.toNat

/-- The text before the first nul. -/
def cString (b : Bytes) : Bytes := b.takeWhile (· ≠ 0#8)

/-- `struct spec`, as far as an image sets it. -/
structure Spec where
  ctxRaw : Bytes := []
  validated : Bool := false
  regexStr : Bytes := []
  regex : Bytes := []
  studyData : Bytes := []
  /-- `PCRE_EXTRA_STUDY_DATA` in `lsd.flags` -/
  studied : Bool := false
  mode : BitVec 32 := 0#32
  stemId : Int := 0
  hasMetaChars : BitVec 8 := 0#8
  regcomp : Bool := false
  fromMmap : Bool := false
  prefixLen : Nat := 0
  deriving DecidableEq

structure Stem where
  buf : Bytes
  len : BitVec 32
  fromMmap : Bool
  deriving DecidableEq

/-- `slot` is `spec_arr[nspec]`: blank unless an earlier load failed there. -/
structure SavedData where
  specArr : List Spec := []
  slot : Spec := {}
  stemArr : List Stem := []
  deriving DecidableEq

structure File where
  mtime : Int
  content : Bytes

structure Env (σ : Type) where
  pageSize : Nat := 4096
  files : Bytes → Option File
  pcreVersion : Bytes
  noNul : ∀ b ∈ pcreVersion, b ≠ 0#8
  /-- `pcre_fullinfo` with `PCRE_INFO_SIZE`; `none` is an error. -/
  infoSize : Bytes → Option Nat
  /-- With `PCRE_INFO_STUDYSIZE`. -/
  infoStudySize : Bytes → Bytes → Option Nat
  /-- `selinux_validate` -/
  validate : σ → Bytes → Int × Bytes × σ

structure Digest where
  hashbuf : Bytes := []
  specfileList : List Bytes := []
  deriving DecidableEq

/-! ## The mapping -/

/-- `sizeof(mmap_path)` -/
def pathSize : Nat := 4097

def mmapPath (path : Bytes) (isbinary : Bool) : Bytes := if isbinary then path else path ++ ascii ".bin"

/-- The pages of the file, the last one filled up with zeros. -/
def pages (pageSize : Nat) (content : Bytes) : Bytes :=
  content ++ List.replicate ((content.length + (pageSize - 1)) / pageSize * pageSize - content.length) 0#8

variable {σ : Type}

/-- The file, unless it is missing, older than `mtime` or empty. -/
def openImage (E : Env σ) (path : Bytes) (mtime : Int) (isbinary : Bool) : Option Bytes :=
  if (mmapPath path isbinary).length ≥ pathSize then none
  else
    match E.files (mmapPath path isbinary) with
    | none => none
    | some file => if file.mtime < mtime ∨ file.content = [] then none else some file.content

/-! ## Reading -/

structure Machine (σ : Type) where
  rc : Int := 0
  area : Bytes
  data : SavedData
  callback : σ

abbrev Load (σ α : Type) := Prog (Machine σ) α

/-- `rc = -1; goto err;` unless the test holds. -/
def check (c : Bool) : Load σ Unit := fun s => if c then .ok () s else .error () { s with rc := -1 }

/-- `rc = next_entry(buf, mmap_area, bytes); if (rc < 0) goto err;` -/
def nextEntry (bytes : Nat) : Load σ Bytes := fun s =>
  if bytes > s.area.length then .error () { s with rc := -1 }
  else .ok (s.area.take bytes) { s with rc := 0, area := s.area.drop bytes }

def nextWord : Load σ (BitVec 32) := do
  let b ← nextEntry 4
  pure (BitVec.ofNat 32 (ofBytes b))

def setSlot (f : Spec → Spec) : Load σ Unit := update fun s => { s with data := { s.data with slot := f s.data.slot } }

/-- A length, which may not be 0, and as many bytes. `point` is called with the place of the bytes
    before they are skipped. -/
def nextSized (point : Bytes → Spec → Spec) : Load σ Bytes := do
  let entryLen ← nextWord
  check (entryLen ≠ 0#32)
  let s ← get
  setSlot (point s.area)
  nextEntry entryLen.toNat

/-! ## The header -/

def magic : BitVec 32 := 0xf97cff8a#32

def pcreVers : Nat := 2

/-- From this version on the mode is a `uint32_t`, before it is a `mode_t`: 4 bytes as well. -/
def modeVers : Nat := 3

def prefixLenVers : Nat := 4

def maxVers : Nat := prefixLenVers

def modeTSize : Nat := 4

def checkPcreVersion (E : Env σ) (version : BitVec 32) : Load σ Unit :=
  if version.toNat ≥ pcreVers then do
    let entryLen ← nextWord
    check (E.pcreVersion.length = entryLen.toNat)
    let strBuf ← nextEntry entryLen.toNat
    check (cString strBuf = E.pcreVersion)
  else pure ()

/-- `strncmp` counts in a `size_t`, to which the length is converted from an `int`. -/
def findStem (stemArr : List Stem) (buf : Bytes) (stemLen : BitVec 32) : Option Nat :=
  let n := (stemLen.signExtend 64).toNat
  stemArr.findIdx? fun s => stemLen == s.len && (cString buf).take n == (cString s.buf).take n

/-- The stem's number, old or new. -/
def storeStem (stemArr : List Stem) (buf : Bytes) (stemLen : BitVec 32) : Nat × List Stem :=
  match findStem stemArr buf stemLen with
  | some id => (id, stemArr)
  | none => (stemArr.length, stemArr ++ [{ buf, len := stemLen, fromMmap := true }])

def loadStem : Load σ Nat := do
  let stemLen ← nextWord
  check (stemLen ≠ 0#32)
  check (stemLen ≠ BitVec.allOnes 32)
  let s ← get
  let bytes ← nextEntry (stemLen.toNat + 1)
  check (bytes.getLast? = some 0#8)
  let (newid, stemArr) := storeStem s.data.stemArr s.area stemLen
  update fun s => { s with data := { s.data with stemArr } }
  pure newid

/-- The version, the numbers of the stems and how many specifications follow. -/
def loadHeader (E : Env σ) : Load σ (BitVec 32 × List Nat × BitVec 32) := do
  let magicRead ← nextWord
  check (magicRead = magic)
  let version ← nextWord
  check (version.toNat ≤ maxVers)
  checkPcreVersion E version
  let stemMapLen ← nextWord
  check (stemMapLen ≠ 0#32)
  let stemMap ← times loadStem stemMapLen.toNat
  let regexArrayLen ← nextWord
  check (regexArrayLen ≠ 0#32)
  pure (version, stemMap, regexArrayLen)

/-! ## The specifications -/

def selabelValidate (E : Env σ) (validating : Bool) (callback : σ) (lr : Spec) : Int × Spec × σ :=
  if !validating || lr.validated then (0, lr, callback)
  else
    let (rc, ctxRaw, callback) := E.validate callback lr.ctxRaw
    if rc < 0 then (rc, { lr with ctxRaw }, callback) else (rc, { lr with ctxRaw, validated := true }, callback)

/-- A rejected context leaves with `rc` as it is. -/
def checkContext (E : Env σ) (validating : Bool) : Load σ Unit := fun s =>
  if cString s.data.slot.ctxRaw ≠ ascii "<<none>>" ∧ validating = true then
    let (rc, slot, callback) := selabelValidate E validating s.callback s.data.slot
    let s := { s with callback, data := { s.data with slot } }
    if rc < 0 then .error () s else .ok () s
  else .ok () s

/-- The number of the stem in the table, or -1. -/
def stemIdOf (stemMap : List Nat) (stemId : BitVec 32) : Int :=
  if stemId.toInt < 0 ∨ stemId.toInt ≥ (BitVec.ofNat 32 stemMap.length).toInt then -1
  else stemMap.getD stemId.toNat 0

def loadPrefixLen (version : BitVec 32) : Load σ Unit :=
  if version.toNat ≥ prefixLenVers then do
    let prefixLen ← nextWord
    setSlot fun slot => { slot with prefixLen := prefixLen.toNat }
  else pure ()

/-- The mode, the stem, whether there are meta characters, and the length of the fixed part. -/
def loadFields (version : BitVec 32) (stemMap : List Nat) : Load σ Unit := do
  let mode ← nextEntry (if version.toNat ≥ modeVers then 4 else modeTSize)
  setSlot fun slot => { slot with mode := BitVec.ofNat 32 (ofBytes mode) }
  let stemId ← nextWord
  setSlot fun slot => { slot with stemId := stemIdOf stemMap stemId }
  let metaChars ← nextWord
  setSlot fun slot => { slot with hasMetaChars := metaChars.setWidth 8 }
  loadPrefixLen version

/-- The compiled expression and its study data; each has the length `pcre_fullinfo` gives for it. -/
def loadRegex (E : Env σ) : Load σ Unit := do
  let regex ← nextSized fun area slot => { slot with regex := area }
  let s ← get
  check (E.infoSize s.data.slot.regex = some regex.length)
  let study ← nextSized fun area slot => { slot with studyData := area, studied := true }
  let s ← get
  check (E.infoStudySize s.data.slot.regex s.data.slot.studyData = some study.length)

/-- What follows the context of a specification. -/
def loadBody (E : Env σ) (version : BitVec 32) (stemMap : List Nat) : Load σ Unit := do
  let regexStr ← nextSized fun area slot => { slot with regexStr := area }
  check (regexStr.getLast? = some 0#8)
  loadFields version stemMap
  loadRegex E

def loadContext : Load σ Unit := do
  -- `grow_specs` gives 0 and leaves a blank slot or the one that is there
  update fun s => { s with rc := 0 }
  setSlot fun slot => { slot with fromMmap := true, regcomp := true }
  let strBuf ← nextSized fun _ slot => slot
  check (strBuf.getLast? = some 0#8)
  setSlot fun slot => { slot with ctxRaw := strBuf }

def loadSpec (E : Env σ) (validating : Bool) (version : BitVec 32) (stemMap : List Nat) : Load σ Unit := do
  loadContext
  checkContext E validating
  loadBody E version stemMap
  update fun s => { s with data := { s.data with specArr := s.data.specArr ++ [s.data.slot], slot := {} } }

def loadAll (E : Env σ) (validating : Bool) : Load σ Unit := do
  let (version, stemMap, regexArrayLen) ← loadHeader E
  let _ ← times (loadSpec E validating version stemMap) regexArrayLen.toNat

/-! ## The whole -/

def digestFilesMax : Nat := 8

def digestAddSpecfile (digest : Option Digest) (content path : Bytes) : Int × Option Digest :=
  match digest with
  | none => (0, none)
  | some d =>
    if d.hashbuf.length + content.length ≥ 2 ^ 64 then (-1, some d)
    else
      let d : Digest := { hashbuf := d.hashbuf ++ content, specfileList := d.specfileList ++ [path] }
      (if d.specfileList.length > digestFilesMax then -1 else 0, some d)

structure Outcome (σ : Type) where
  rc : Int
  data : SavedData
  callback : σ
  digest : Option Digest

def loadMmap (E : Env σ) (validating : Bool) (data : SavedData) (callback : σ) (digest : Option Digest) (path : Bytes)
    (mtime : Int) (isbinary : Bool) : Outcome σ :=
  match openImage E path mtime isbinary with
  | none => { rc := -1, data, callback, digest }
  | some content =>
    match loadAll E validating { area := pages E.pageSize content, data, callback } with
    | .error _ s => { rc := s.rc, data := s.data, callback := s.callback, digest }
    | .ok _ s =>
      let (rc, digest) := digestAddSpecfile digest content (mmapPath path isbinary)
      { rc, data := s.data, callback := s.callback, digest }

end SELinux.Label.Compiled
