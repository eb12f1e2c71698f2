/-
  SELinux.File.Slots — what is in `role_val_to_struct` and `user_val_to_struct`
  (`libsepol/src/policydb.c`: `role_index`, `user_index`, `policydb_index_others`; `context.c`:
  `context_is_valid`).

  Both arrays come from `malloc`, the one of the types from `calloc`: a slot that no symbol has is
  never written, and `context_is_valid` follows it. `valToStruct_written_iff`: this does not happen
  exactly if every value up to `nprim` is some symbol's, which nothing checks (`holePolicy_unwritten`).
-/
import SELinux.File.ReadSafety

namespace SELinux.File

open Lib Lib.Trace List Option

section Array

variable {size : Nat} {α : Type} (value : α → U32)

/-- The array after the index function was called for the table: `none` is a slot that was not written. -/
def valToStruct (t : SymTable size α) : Nat → Option α :=
  t.entries.foldl (fun arr e i => if i = (value e.2 - 1#32).toNat then some e.2 else arr i) fun _ => none

/-- Every slot holds a datum of its value. -/
def SlotsWritten (s : Symtab size α) : Prop :=
  ∀ i < s.nprim.toNat, ∃ d, valToStruct value s.table i = some d ∧ (value d).toNat = i + 1

/-- Every value is a symbol's. -/
def ValuesUsed (s : Symtab size α) : Prop := ∀ v, valueOk v s.nprim = true → ∃ d ∈ s.data, value d = v

variable {value}

theorem valToStruct_eq (t : SymTable size α) (i : Nat) :
    valToStruct value t i = (t.entries.reverse.find? fun e => decide (i = (value e.2 - 1#32).toNat)).map (·.2) := by
  unfold valToStruct
  generalize t.entries = l
  induction l using reverseRecOn with
  | nil => rfl
  | append_singleton l e ih =>
    rw [foldl_append, foldl_cons, foldl_nil, reverse_append, reverse_singleton, singleton_append, find?_cons]
    split
    next hi =>
      rw [decide_eq_true hi]
      rfl
    next hi =>
      rw [decide_eq_false hi]
      exact ih

theorem index_eq_iff {v nprim : U32} {i : Nat} (hi : i < nprim.toNat) : i = (v - 1#32).toNat ↔ v.toNat = i + 1 := by
  bv_omega

theorem slotsWritten_iff (s : Symtab size α) : SlotsWritten value s ↔ ValuesUsed value s := by
  constructor
  · intro h v hv
    obtain ⟨d, hd, hval⟩ := h _ (valueOk_lt hv)
    rw [valToStruct_eq, map_eq_some_iff] at hd
    obtain ⟨e, he, rfl⟩ := hd
    refine ⟨e.2, mem_map_of_mem (mem_reverse.mp (mem_of_find?_eq_some he)), BitVec.eq_of_toNat_eq ?_⟩
    bv_omega
  · intro h i hi
    have hv : valueOk (BitVec.ofNat 32 (i + 1)) s.nprim = true := by
      rw [valueOk_iff]
      constructor <;> bv_omega
    obtain ⟨d, hd, hval⟩ := h _ hv
    obtain ⟨e, he, rfl⟩ := mem_map.mp hd
    have hidx : i = (value e.2 - 1#32).toNat := by
      bv_omega
    have hsome : (s.table.entries.reverse.find? fun e => decide (i = (value e.2 - 1#32).toNat)).isSome := by
      rw [find?_isSome]
      exact ⟨e, mem_reverse.mpr he, decide_eq_true hidx⟩
    obtain ⟨e', he'⟩ := isSome_iff_exists.mp hsome
    refine ⟨e'.2, by rw [valToStruct_eq, he']; rfl, ?_⟩
    have hi' := find?_some he'
    exact (index_eq_iff hi).mp (of_decide_eq_true hi')

end Array

/-- The slots that `context_is_valid` follows for a context; `nprim` is `p_roles.nprim` after the users' caches. -/
def FollowsWritten (syms : Symtabs symtabSizes) (nprim : U32) : Prop :=
  ∀ c : Context, valueOk c.role nprim = true → valueOk c.user syms.users.nprim = true → c.role ≠ objectRVal →
    (valToStruct (·.value) syms.roles.table (c.role - 1#32).toNat).isSome ∧
      (valToStruct (·.value) syms.users.table (c.user - 1#32).toNat).isSome

/-- After `policydb_index_others` all slots are written, and only written slots are followed, exactly if
    every role value and every user value is used. -/
theorem valToStruct_written_iff {past : Past} {h : Header} {syms syms' : Symtabs symtabSizes} {w : List Access}
    (hi : Noted.Gives (policydbIndexOthers past h syms) syms' w) :
    (SlotsWritten (·.value) syms.roles ∧ SlotsWritten (·.value) syms.users) ∧ FollowsWritten syms syms'.roles.nprim ↔
      ValuesUsed (·.value) syms.roles ∧ ValuesUsed (·.value) syms.users := by
  rw [slotsWritten_iff, slotsWritten_iff, and_iff_left_iff_imp]
  intro hused
  have hsome {size : Nat} {α : Type} {value : α → U32} {s : Symtab size α} (hs : ValuesUsed value s) {v : U32}
    (hv : valueOk v s.nprim = true) :
      (valToStruct value s.table (v - 1#32).toNat).isSome := by
    obtain ⟨d, hd, -⟩ := (slotsWritten_iff s).mpr hs _ (valueOk_lt hv)
    rw [hd]
    rfl
  intro c hrole huser hne
  refine ⟨?_, hsome hused.2 huser⟩
  rcases (policydbIndexOthers_spec _ _ _ _ _ hi).2.nprim with hn | hn
  · exact hsome hused.1 (hn ▸ hrole)
  · -- a user with all roles: one role is left, and it is not looked up
    obtain ⟨hpos, hle⟩ := valueOk_iff.mp (hn ▸ hrole)
    exact absurd (show c.role = 1#32 by bv_omega) hne

/-- A role and a user are called `u`. -/
def uKey : Key := ⟨[0x75#8], by decide, by decide⟩

/-- `object_r` and another role, and a user that has it. -/
def usedTables : Symtabs symtabSizes where
  roles := { nprim := 2#32, table := ⟨[(objectRKey, { value := objectRVal }), (uKey, { value := 2#32 })], by decide⟩ }
  users :=
    { nprim := 1#32
      table := { entries := [(uKey, { value := 1#32, roles := { roles := .ofBitmap (Db.Bitmap.word 2#64) } })] } }

theorem valToStruct_written_iff_used :
    ∃ syms' w, Noted.Gives (policydbIndexOthers nothingPast ⟨.kern, 30, .selinux, false⟩ usedTables) syms' w ∧
      (SlotsWritten (·.value) usedTables.roles ∧ SlotsWritten (·.value) usedTables.users) ∧
      FollowsWritten usedTables syms'.roles.nprim := by
  have hsome : (policydbIndexOthers nothingPast ⟨.kern, 30, .selinux, false⟩ usedTables).run.isSome := by decide +kernel
  obtain ⟨⟨syms', w⟩, hi⟩ := isSome_iff_exists.mp hsome
  refine ⟨syms', w, hi, (valToStruct_written_iff hi).mpr ⟨?_, ?_⟩⟩
  · intro v hv
    obtain ⟨hpos, hle⟩ := valueOk_iff.mp hv
    have hle : v ≤ 2#32 := hle
    by_cases h2 : v = 2#32
    · exact ⟨_, mem_cons_of_mem _ mem_cons_self, h2.symm⟩
    · exact ⟨_, mem_cons_self, show 1#32 = v by bv_omega⟩
  · intro v hv
    obtain ⟨hpos, hle⟩ := valueOk_iff.mp hv
    have hle : v ≤ 1#32 := hle
    exact ⟨_, mem_cons_self, show 1#32 = v by bv_omega⟩

/-- A kernel policy with two roles, of which only `object_r` is there, and one user that is not. -/
def holePolicy : Wire.Bytes :=
  putWords [0xf97cff8c, 8] ++ policydbString ++ putWords [20, 0, 8, 7] ++
    putWords [0, 0, 0, 0, 2, 0] ++ putWords [1, 1, 1, 1, 1] ++ [0x74#8] ++ putWords [1] ++ putWords (List.replicate 7 0) ++
    putWords [1] ++ putRule 1 1 1 0x01 1 ++ putWords [0, 0, 0] ++ putWords (List.replicate 9 0) ++
      putWords [64, 64, 1, 0, 1, 0]

theorem holePolicy_unwritten : ∃ p s' w, (policydbRead nothingPast).Gives holePolicy p s' w ∧
    p.symtab.roles.nprim = 2#32 ∧ p.symtab.users.nprim = 1#32 ∧
    valToStruct (·.value) p.symtab.roles.table 1 = none ∧ valToStruct (·.value) p.symtab.users.table 0 = none := by
  have hread : ((policydbRead nothingPast holePolicy).run.map fun e => (e.1.1.symtab.roles.nprim, e.1.1.symtab.users.nprim,
      (valToStruct (·.value) e.1.1.symtab.roles.table 1).isNone,
        (valToStruct (·.value) e.1.1.symtab.users.table 0).isNone)) =
      some (2#32, 1#32, true, true) := by decide +kernel
  obtain ⟨⟨⟨p, s'⟩, w⟩, hp, heq⟩ := map_eq_some_iff.mp hread
  simp only [Prod.mk.injEq, isNone_iff_eq_none] at heq
  exact ⟨p, s', w, hp, heq⟩

end SELinux.File
