/-
  SELinux.Check.AvString — the text of an access vector (`libsepol/src/util.c`:
  `sepol_av_to_string`).

  The text is put together in a static buffer, a space and a name for each bit. Nothing empties the
  buffer first, and the name printed last is printed again for a bit that has no name.

  `sepolAvToString_iff`: a text that is returned is that of the class's permissions in the vector
  exactly when one of them is in it or the buffer was empty, and no bit without a name comes behind
  one with a name. `sepolAvToString_stale` has a call with an empty vector that gives the text of
  the call before.

  The class is given by its datum. The tables are in the order `hashtab_map` visits them.
-/
import SELinux.Db.Types

namespace SELinux.Check

open Db List

variable {cladatum : ClassDatum} {av : BitVec 32} {l : List (Option Name)} {perm : Option Name} {avlen : Nat}
  {avbuf text : List Char}

/-- The two calls of `hashtab_map` with `perm_name`. -/
def permName (cladatum : ClassDatum) (val : Nat) : Option Name :=
  let inTable (table : List (Name × Nat)) := (table.find? fun p => p.2 == val).map (·.1)
  (inTable cladatum.permissions).or (cladatum.comdatum.bind inTable)

/-- What is found for each bit that is set. -/
def foundNames (cladatum : ClassDatum) (av : BitVec 32) : List (Option Name) :=
  ((range cladatum.permNprim).filter av.getLsbD).map fun i => permName cladatum (i + 1)

/-- `sizeof(avbuf)` -/
def avbufSize : Nat := 1024

/-- The rest of the loop, with `perm`, `avlen` and the text in the buffer: what is returned, and
    what is in the buffer then. -/
def printNames : List (Option Name) → Option Name → Nat → List Char → Option (List Char) × List Char
  | [], _, _, avbuf => (some avbuf, avbuf)
  | found :: l, perm, avlen, avbuf =>
    match found.or perm with
    | none => printNames l none avlen avbuf
    | some perm =>
      let avbuf := avbuf.take avlen ++ (' ' :: perm).take (avbufSize - avlen - 1)
      if avbufSize - avlen ≤ perm.length + 1 then (none, avbuf)
      else printNames l (some perm) (avlen + (perm.length + 1)) avbuf

def sepolAvToString (cladatum : ClassDatum) (av : BitVec 32) (avbuf : List Char) : Option (List Char) × List Char :=
  printNames (foundNames cladatum av) none 0 avbuf

/-- The buffer after calls. -/
def avbufAfter (calls : List (ClassDatum × BitVec 32)) : List Char :=
  calls.foldl (fun avbuf call => (sepolAvToString call.1 call.2 avbuf).2) []

/-- The names of the class's own and inherited permissions whose bits are set, in bit order. -/
def permsIn (cladatum : ClassDatum) (av : BitVec 32) : List Name := (foundNames cladatum av).reduceOption

def avText (names : List Name) : List Char := names.flatMap (' ' :: ·)

/-! ## The loop -/

/-- The names that are printed. -/
def printed : Option Name → List (Option Name) → List Name
  | _, [] => []
  | perm, found :: l => (found.or perm).toList ++ printed (found.or perm) l

theorem printNames_some (hlen : avlen ≤ avbuf.length) (h : (printNames l perm avlen avbuf).1 = some text) :
    text = if printed perm l = [] then avbuf else avbuf.take avlen ++ avText (printed perm l) := by
  fun_induction printNames l perm avlen avbuf with
  | case1 =>
    cases h
    rfl
  | case2 found l perm avlen avbuf hnone ih =>
    rw [printed, hnone]
    exact ih hlen h
  | case3 => cases h
  | case4 found l perm avlen avbuf name hsome avbuf' hfit ih =>
    have htake : avbuf' = avbuf.take avlen ++ ' ' :: name := by
      have hfull : (' ' :: name).take (avbufSize - avlen - 1) = ' ' :: name := take_of_length_le (by rw [length_cons]; omega)
      rw [← hfull]
    have hlength : avbuf'.length = avlen + (name.length + 1) := by
      rw [htake, length_append, length_take_of_le hlen, length_cons]
    rw [ih hlength.ge h, printed, hsome, take_of_length_le hlength.le, htake]
    split
    next hnil =>
      simp [hnil, avText]
    · simp [avText]

theorem reduceOption_sublist_printed : l.reduceOption <+ printed perm l := by
  induction l generalizing perm with
  | nil => exact Sublist.slnil
  | cons found l ih =>
    cases found with
    | none => exact ih.trans (sublist_append_right _ _)
    | some name => exact ih.cons_cons name

/-- Behind a name each bit needs its own. -/
theorem printed_eq_iff : printed perm l = l.reduceOption ↔
    (perm.isSome = true → ∀ o ∈ l, o.isSome = true) ∧ l.Pairwise fun a b => a.isSome = true → b.isSome = true := by
  induction l generalizing perm with
  | nil => simp [printed, reduceOption]
  | cons found l ih =>
    rw [printed, pairwise_cons, forall_mem_cons]
    cases found with
    | some name =>
      rw [reduceOption_cons_of_some, Option.some_or, Option.toList_some, singleton_append, cons.injEq, ih]
      simp only [Option.isSome_some, true_imp_iff, true_and]
      exact ⟨fun h => ⟨fun _ => h.1, h⟩, And.right⟩
    | none =>
      rw [reduceOption_cons_of_none, Option.none_or]
      cases perm with
      | none =>
        rw [Option.toList_none, nil_append, ih]
        simp
      | some name =>
        -- the name is printed again
        refine iff_of_false ?_ (by simp)
        intro h
        have hle : l.reduceOption.length ≤ (printed (some name) l).length := reduceOption_sublist_printed.length_le
        have hlen := congrArg length h
        rw [length_append, Option.toList_some, length_singleton] at hlen
        omega

theorem eq_of_avText {a b : List Name} (hsub : a <+ b) (h : avText a = avText b) : a = b := by
  induction hsub with
  | slnil => rfl
  | @cons a b x hsub _ =>
    -- a name more makes the text longer
    have hle : (avText a).length ≤ (avText b).length := (hsub.flatMap _).length_le
    have hlen : (avText a).length = (' ' :: x ++ avText b).length := congrArg length h
    rw [length_append, length_cons] at hlen
    omega
  | cons_cons x hsub ih => rw [ih (append_cancel_left h)]

theorem sepolAvToString_iff (calls : List (ClassDatum × BitVec 32))
    (h : (sepolAvToString cladatum av (avbufAfter calls)).1 = some text) :
    text = avText (permsIn cladatum av) ↔ (permsIn cladatum av = [] → avbufAfter calls = []) ∧
      (foundNames cladatum av).Pairwise fun a b => a.isSome = true → b.isSome = true := by
  have hprinted : printed none (foundNames cladatum av) = permsIn cladatum av ↔
      (foundNames cladatum av).Pairwise fun a b => a.isSome = true → b.isSome = true := by
    rw [permsIn, printed_eq_iff]
    simp
  have hsub : permsIn cladatum av <+ printed none (foundNames cladatum av) := reduceOption_sublist_printed
  rw [← hprinted, printNames_some (Nat.zero_le _) h, take_zero, nil_append]
  split
  next hnil =>
    have hnone : permsIn cladatum av = [] := sublist_nil.mp (hnil ▸ hsub)
    simp [hnil, hnone, avText]
  next hne =>
    constructor
    · intro heq
      have heq := eq_of_avText hsub heq.symm
      exact ⟨fun hnil => absurd (heq ▸ hnil) hne, heq.symm⟩
    · rintro ⟨-, heq⟩
      rw [heq]

def twoPerms : ClassDatum := { value := 1, permissions := [(['r'], 1), (['w'], 2)], permNprim := 2 }

/-- A text of two names, whatever the buffer held. -/
theorem sepolAvToString_two : " r w".toList = avText (permsIn twoPerms 3#32) :=
  (sepolAvToString_iff [(twoPerms, 2#32)] (by decide)).mpr ⟨by decide, by decide⟩

/-- Nothing is printed over the text of the call before. -/
theorem sepolAvToString_stale : (sepolAvToString twoPerms 0#32 (avbufAfter [(twoPerms, 2#32)])).1 = some " w".toList ∧
    permsIn twoPerms 0#32 = [] := by
  decide

end SELinux.Check
