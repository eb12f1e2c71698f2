/-
  SELinux.Db.MlsText — levels and ranges from text (`libsepol/src/mls.c`:
  `mls_context_to_sid`, `mls_from_string`).

  A range is a level, or two levels with a dash between them; a level is the name of a
  sensitivity and, after a colon, a list of categories and of ranges of categories. The parser
  goes through the text once and cuts it at the separators; what is left of it after the
  categories of the second level is not looked at.
-/
import SELinux.Db.Types

namespace SELinux.Db

/-- The text up to the first separator, and from it on. -/
def cutAt (sep : Char → Bool) (s : Name) : Name × Name := (s.takeWhile (!sep ·), s.dropWhile (!sep ·))

/-- The pieces between the commas, up to a dash or the end, and the text from there on. -/
def catPieces : Name → List Name × Name
  | [] => ([[]], [])
  | c :: s =>
    if c = '-' then ([[]], c :: s)
    else
      match catPieces s with
      | ([], rest) => ([], rest)
      | (piece :: pieces, rest) => if c = ',' then ([] :: piece :: pieces, rest) else ((c :: piece) :: pieces, rest)

/-- The categories after the first one of a range. -/
def setRange (cat : Bitmap) (low high : Nat) : Option Bitmap :=
  (List.range' low (high - low)).foldlM (fun cat i => cat.setBit i true) cat

/-- `s.value - 1`, an `unsigned int`. -/
def catBit (d : CatDatum) : Nat := if d.value = 0 then 2 ^ 32 - 1 else d.value - 1

theorem catBit_succ {d : CatDatum} {i : Nat} (h : d.value = i + 1) : catBit d = i := by
  rw [catBit, h, if_neg (Nat.succ_ne_zero i), Nat.add_sub_cancel]

/-- One piece: a category, or a range with a dot in it. -/
def setPiece (p : Policydb) (cat : Bitmap) (piece : Name) : Option Bitmap := do
  let (name, range) := cutAt (· == '.') piece
  let catdatum ← p.pCats.search name
  let cat ← cat.setBit (catBit catdatum) true
  match range with
  | [] => return cat
  | _ :: range => do
    let rngdatum ← p.pCats.search range
    if rngdatum.value ≤ catdatum.value then none else setRange cat catdatum.value rngdatum.value

/-- A level, of which the name of the sensitivity has been cut off, and the text after it. -/
def readLevel (p : Policydb) (sens rest : Name) : Option (MlsLevel × Name) := do
  let levdatum ← p.pLevels.search sens
  match rest with
  | ':' :: cats => do
    let (pieces, rest) := catPieces cats
    let cat ← pieces.foldlM (setPiece p) Bitmap.empty
    return ({ sens := levdatum.level.sens, cat }, rest)
  | rest => return ({ sens := levdatum.level.sens }, rest)

/-- `mls_context_to_sid` on an MLS policy, for a text that is there. -/
def mlsContextToSid (p : Policydb) (s : Name) : Option MlsRange := do
  let (sens, rest) := cutAt (fun c => c == ':' || c == '-') s
  let (low, rest) ← readLevel p sens rest
  match rest with
  | '-' :: rest => do
    let (sens, rest) := cutAt (· == ':') rest
    let (high, _) ← readLevel p sens rest
    return { low, high }
  | _ => return { low, high := low }

/-- `mls_from_string` into an empty context. -/
def mlsFromString (p : Policydb) (str : Name) : Option MlsRange := if p.mls then mlsContextToSid p str else some {}

end SELinux.Db
