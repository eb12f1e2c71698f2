/-
  SELinux.Db.Tokenize — cutting a line into arguments (`libsepol/src/util.c`: `tokenize_str`,
  `tokenize`).

  The loop of `tokenize_str` stops behind a delimiter or at the end of the line. Which of the two
  it was is told afterwards by the character it has stopped at, so that a delimiter that ends the
  line is taken for part of the argument.

  `tokenize_eq_iff`: the arguments are the runs between delimiters, and the last one the rest of
  the line, exactly when no argument but the last ends at a delimiter that ends the line.
  `tokenize_trailing` has one that does.

  Allocation succeeds, and a line has no NUL.
-/
import Mathlib.Data.List.TakeWhile
import Mathlib.Logic.Function.Iterate

namespace SELinux.Db

open List

variable {delim : Char} {buf : List Char}

/-- In the C locale. -/
def isspace (c : Char) : Bool := c ∈ [' ', '\t', '\n', '\x0b', '\x0c', '\r']

/-- The two tests of the loop in `tokenize_str`. -/
def isDelim (delim c : Char) : Bool := isspace delim && isspace c || !isspace delim && c == delim

/-- That loop: what it passes, and where it stops. -/
def passToken (delim : Char) : List Char → List Char × List Char
  | [] => ([], [])
  | c :: ptr =>
    if isDelim delim c then ([c], ptr)
    else
      let (passed, ptr) := passToken delim ptr
      (c :: passed, ptr)

/-- Spaces are squashed if the delimiter is one. -/
def squash (delim : Char) (ptr : List Char) : List Char := if isspace delim then ptr.dropWhile isspace else ptr

def tokenizeStr (delim : Char) (ptr : List Char) : List Char × List Char :=
  let (passed, ptr) := passToken delim ptr
  (if ptr ≠ [] then passed.take (passed.length - 1) else passed, squash delim ptr)

/-- The loop of `tokenize`, with the number of arguments still to be stored. -/
def tokenizeFrom (delim : Char) : Nat → List Char → List (List Char)
  | 0, _ => []
  | _, [] => []
  | 1, buf => [buf]
  | left + 2, buf =>
    let (arg, buf) := tokenizeStr delim buf
    arg :: tokenizeFrom delim (left + 1) buf

/-- The number of arguments stored, and the arguments. -/
def tokenize (line : List Char) (delim : Char) (numArgs : Nat) : Nat × List (List Char) :=
  let args := tokenizeFrom delim numArgs line
  (args.length, args)

/-! ## What is meant -/

/-- The run of other characters at the current position. -/
def field (delim : Char) (buf : List Char) : List Char := buf.takeWhile (!isDelim delim ·)

/-- What is left behind it and its delimiter. -/
def unread (delim : Char) (buf : List Char) : List Char := squash delim ((buf.dropWhile (!isDelim delim ·)).drop 1)

def fields (delim : Char) : Nat → List Char → List (List Char)
  | 0, _ => []
  | _, [] => []
  | 1, buf => [buf]
  | left + 2, buf => field delim buf :: fields delim (left + 1) (unread delim buf)

/-- The first delimiter is the last character. -/
def EndsInDelim (delim : Char) (buf : List Char) : Prop := ∃ c, isDelim delim c = true ∧ buf = field delim buf ++ [c]

theorem passToken_eq : passToken delim buf =
    (field delim buf ++ (buf.dropWhile (!isDelim delim ·)).take 1, (buf.dropWhile (!isDelim delim ·)).drop 1) := by
  induction buf with
  | nil => rfl
  | cons c buf ih =>
    rw [passToken, field]
    split
    next hc =>
      simp [hc]
    next hc =>
      rw [ih]
      simp [hc, field]

theorem tokenizeStr_snd : (tokenizeStr delim buf).2 = unread delim buf := by
  rw [tokenizeStr, passToken_eq, unread]

/-- The argument has its delimiter only if that ends the line. -/
theorem tokenizeStr_fst_iff : (tokenizeStr delim buf).1 = field delim buf ↔ ¬EndsInDelim delim buf := by
  have hsplit : field delim buf ++ buf.dropWhile (!isDelim delim ·) = buf := takeWhile_append_dropWhile
  rw [tokenizeStr, passToken_eq]
  unfold EndsInDelim
  cases hrest : buf.dropWhile (!isDelim delim ·) with
  | nil =>
    rw [hrest, append_nil] at hsplit
    simp [hsplit]
  | cons c rest =>
    have hc : isDelim delim c = true := by
      have hhead := head_dropWhile_not (!isDelim delim ·) (l := buf) (by simp [hrest])
      simpa [hrest] using hhead
    rw [hrest] at hsplit
    cases rest with
    | nil =>
      refine iff_of_false (by simp) (not_not.mpr ⟨c, hc, hsplit.symm⟩)
    | cons d rest =>
      simp only [drop_succ_cons, drop_zero, take_succ_cons, take_zero, length_append, length_singleton, Nat.add_sub_cancel]
      rw [take_left]
      refine iff_of_true rfl ?_
      rintro ⟨e, -, hend⟩
      have hlen := congrArg length (hsplit.trans hend)
      simp at hlen

theorem tokenizeFrom_eq_iff (left : Nat) :
    tokenizeFrom delim left buf = fields delim left buf ↔ ∀ k, k + 1 < left →
      ¬EndsInDelim delim ((unread delim)^[k] buf) := by
  have hnil : ∀ k, (unread delim)^[k] [] = [] := Function.iterate_fixed (by simp [unread, squash])
  induction left generalizing buf with
  | zero => simp [tokenizeFrom, fields]
  | succ left ih =>
    cases buf with
    | nil => simp [tokenizeFrom, fields, hnil, EndsInDelim, field]
    | cons c buf =>
      cases left with
      | zero => simp [tokenizeFrom, fields]
      | succ left =>
        have hstep : tokenizeFrom delim (left + 2) (c :: buf) =
          (tokenizeStr delim (c :: buf)).1 :: tokenizeFrom delim (left + 1) (tokenizeStr delim (c :: buf)).2 := rfl
        have hmeant : fields delim (left + 2) (c :: buf) = field delim (c :: buf) :: fields delim (left + 1)
          (unread delim (c :: buf)) := rfl
        rw [hstep, hmeant, cons.injEq, tokenizeStr_fst_iff, tokenizeStr_snd]
        refine (and_congr_right' ih).trans ?_
        constructor
        · rintro ⟨hfirst, hrest⟩ k hk
          cases k with
          | zero => exact hfirst
          | succ k => exact hrest k (by omega)
        · exact fun h => ⟨h 0 (by omega), fun k hk => h (k + 1) (by omega)⟩

theorem tokenize_eq_iff (line : List Char) (delim : Char) (numArgs : Nat) :
    tokenize line delim numArgs = ((fields delim numArgs line).length, fields delim numArgs line) ↔
      ∀ k, k + 1 < numArgs → ¬EndsInDelim delim ((unread delim)^[k] line) := by
  rw [← tokenizeFrom_eq_iff, Prod.mk.injEq]
  exact ⟨And.right, fun h => ⟨congrArg length h, h⟩⟩

/-- An empty second argument leaves the delimiter in the first. -/
theorem tokenize_trailing : tokenize ['a', ':'] ':' 2 = (1, [['a', ':']]) ∧ fields ':' 2 ['a', ':'] = [['a']] := by decide

end SELinux.Db
