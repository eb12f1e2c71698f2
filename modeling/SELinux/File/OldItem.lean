/-
  SELinux.File.OldItem — the words that reading an item of the old format looks at
  (`libsepol/src/avtab.c`: `avtab_read_item`).

  An item announces how many words it has, five to eight, and that many are read into an array of
  eight. Its fourth word has one bit for each datum that follows. The data are taken in turn, and
  only afterwards their number is compared with the one announced. An item cannot have both
  access vectors and types, but nothing keeps it from having all access vectors and all extended
  permissions: six data.

  `oldItem_reads_iff`: all words looked at were read from the file exactly when the item does not
  have more kinds of data than words for them, unless inserting one of the data that it has
  words for fails. `oldItem_overrun` looks at two words past the array.

  `mem` is what the array holds where nothing was read into it.
-/
import SELinux.File.Avtab

namespace SELinux.File

open Db Lib.Wire

variable {σ : Type} {insertf : σ → AvtabKey → AvtabDatum → Option σ} {mem : Nat → BitVec 32} {a : σ}
  {buf32 : List (BitVec 32)}

/-- The key of an item's data; the kind is set for each of them. -/
def oldKey (buf32 : List (BitVec 32)) (spec : BitVec 16) : AvtabKey :=
  ⟨(buf32.getD 0 0#32).setWidth 16, (buf32.getD 1 0#32).setWidth 16, (buf32.getD 2 0#32).setWidth 16,
    spec ||| if buf32.getD 3 0#32 &&& avtabEnabledOld ≠ 0#32 then avtabEnabled else 0#16⟩

/-- The kinds of data an item has. -/
def oldKinds (buf32 : List (BitVec 32)) : List (BitVec 16) := specOrderRead.filter (valMeets (buf32.getD 3 0#32))

/-- The indices of the loop over the kinds; `items` is the next one. -/
def dataReads (insertf : σ → AvtabKey → AvtabDatum → Option σ) (mem : Nat → BitVec 32) (buf32 : List (BitVec 32)) :
    Nat → σ → List (BitVec 16) → List Nat
  | _, _, [] => []
  | items, a, spec :: specs =>
    items :: match insertf a (oldKey buf32 spec) { data := buf32.getD items (mem items) } with
      | none => []
      | some a => dataReads insertf mem buf32 (items + 1) a specs

/-- The tests before the loop. -/
def oldHeaderOk (buf32 : List (BitVec 32)) : Bool :=
  (buf32.getD 0 0#32).toNat < 2 ^ 16 && (buf32.getD 1 0#32).toNat < 2 ^ 16 && (buf32.getD 2 0#32).toNat < 2 ^ 16 &&
    valMeets (buf32.getD 3 0#32) (avtabAv ||| avtabType) &&
      !(valMeets (buf32.getD 3 0#32) avtabAv && valMeets (buf32.getD 3 0#32) avtabType)

/-- The indices of the array that are looked at; the first four words are there for every item. -/
def oldItemReads (insertf : σ → AvtabKey → AvtabDatum → Option σ) (mem : Nat → BitVec 32) (a : σ)
    (buf32 : List (BitVec 32)) : List Nat :=
  [0, 1, 2, 3] ++ if oldHeaderOk buf32 then dataReads insertf mem buf32 4 a (oldKinds buf32) else []

/-- The words of an item, read from the file. -/
def oldItemWords : Reader (List (BitVec 32)) := do
  let items2 ← num 4
  check (decide (5 ≤ items2 ∧ items2 ≤ 8))
  times (word 32) items2

/-- Inserting the data that the item has words for. -/
def insertData (insertf : σ → AvtabKey → AvtabDatum → Option σ) (a : σ) (buf32 : List (BitVec 32)) :
    List (BitVec 16 × BitVec 32) → Option σ :=
  List.foldlM (fun a e => insertf a (oldKey buf32 e.1) { data := e.2 }) a

/-- The loop goes on past the words of the item. -/
structure Overruns (insertf : σ → AvtabKey → AvtabDatum → Option σ) (a : σ) (buf32 : List (BitVec 32)) : Prop where
  header : oldHeaderOk buf32 = true
  more : buf32.length < 4 + (oldKinds buf32).length
  inserted : (insertData insertf a buf32 ((oldKinds buf32).zip (buf32.drop 4))).isSome

theorem dataReads_iff {items : Nat} (hitems : items ≤ buf32.length) (specs : List (BitVec 16)) :
    (∀ i ∈ dataReads insertf mem buf32 items a specs, i < buf32.length) ↔
      ¬(buf32.length < items + specs.length ∧ (insertData insertf a buf32 (specs.zip (buf32.drop items))).isSome) := by
  induction specs generalizing items a with
  | nil => simp [dataReads, hitems]
  | cons spec specs ih =>
    rw [dataReads, List.forall_mem_cons]
    by_cases hlt : items < buf32.length
    · -- the word is there: the datum is the item's own
      rw [List.drop_eq_getElem_cons hlt, List.getD_eq_getElem _ _ hlt, and_iff_right hlt, List.zip_cons_cons,
        insertData, List.foldlM_cons]
      cases insertf a (oldKey buf32 spec) { data := buf32[items] } with
      | none => simp
      | some a' =>
        rw [ih hlt, Nat.succ_add_eq_add_succ]
        rfl
    · have heq : items = buf32.length := by omega
      simp [heq, insertData]

theorem length_oldItemWords {bytes rest : Bytes} (h : oldItemWords bytes = some (buf32, rest)) :
    5 ≤ buf32.length ∧ buf32.length ≤ 8 := by
  obtain ⟨items2, s, -, h⟩ := bind_some.mp h
  obtain ⟨u, s', hcheck, h⟩ := bind_some.mp h
  rw [length_times h]
  exact of_decide_eq_true (check_some.mp hcheck).1

theorem oldItem_reads_iff (insertf : σ → AvtabKey → AvtabDatum → Option σ) (mem : Nat → BitVec 32) (a : σ)
    {bytes rest : Bytes} (h : oldItemWords bytes = some (buf32, rest)) :
    (∀ i ∈ oldItemReads insertf mem a buf32, i < buf32.length ∧ i < 8) ↔ ¬Overruns insertf a buf32 := by
  obtain ⟨hmin, hmax⟩ := length_oldItemWords h
  have hboth : ∀ i, i < buf32.length ∧ i < 8 ↔ i < buf32.length := fun i => and_iff_left_of_imp fun hi => by omega
  simp only [hboth, oldItemReads]
  rw [List.forall_mem_append, and_iff_right (by simp; omega)]
  split
  next hheader =>
    rw [dataReads_iff (by omega)]
    exact not_congr ⟨fun ho => ⟨hheader, ho.1, ho.2⟩, fun ho => ⟨ho.more, ho.inserted⟩⟩
  next hheader =>
    exact iff_of_true (List.forall_mem_nil _) fun ho => hheader ho.header

/-- An item of one word of data with all access vectors and all extended permissions. -/
theorem oldItem_overrun :
    oldItemWords (toBytes 4 5 ++ [1, 1, 1, 0x707, 0].flatMap (toBytes 4)) = some ([1#32, 1#32, 1#32, 0x707#32, 0#32], []) ∧
      oldItemReads avtabInsertf (fun _ => 0#32)
        (avtabAlloc 1) [1#32, 1#32, 1#32, 0x707#32, 0#32] = [0, 1, 2, 3, 4, 5, 6, 7, 8, 9] := by
  decide +kernel

/-- An item with one datum for each of its kinds. -/
theorem oldItem_reads_two :
    oldItemWords (toBytes 4 6 ++ [1, 1, 1, 3, 0, 0].flatMap (toBytes 4)) = some ([1#32, 1#32, 1#32, 3#32, 0#32, 0#32], []) ∧
      ∀ i ∈ oldItemReads avtabInsertf (fun _ => 0#32) (avtabAlloc 1) [1#32, 1#32, 1#32, 3#32, 0#32, 0#32], i < 6 ∧
        i < 8 := by
  have h : oldItemWords (toBytes 4 6 ++ [1, 1, 1, 3, 0, 0].flatMap (toBytes 4)) =
      some ([1#32, 1#32, 1#32, 3#32, 0#32, 0#32], []) := by
    decide +kernel
  exact ⟨h, (oldItem_reads_iff avtabInsertf _ _ h).mpr fun ho => absurd ho.more (by decide)⟩

end SELinux.File
