/-
  SELinux.Expand.RoleSets — the meaning of a role set (`libsepol/src/expand.c`: `role_set_expand`).

  Under `ROLE_STAR` the loop counts `p_roles.nprim` up together with its index. Under `ROLE_COMP` the
  loop goes to the length of the bitmap it changes: it ends behind the last map, or where it has taken
  the last bit out of that map. `roleSetExpand_iff`: when the result is what the set stands for.
-/
import SELinux.Expand.TypeSets
import SELinux.File.ReadSafety

namespace SELinux.Expand

open Db List Bitmap Option

structure RoleSet where
  roles : Bitmap := Bitmap.empty
  flags : BitVec 32 := 0#32

section Model

variable (x : RoleSet) (nprim : BitVec 32) (base : List (Option RoleDatum)) (rolemap : Option (List Nat))

/-- A role of the base policy, which the code asserts to be there. -/
def expandRole (acc : Bitmap) (i : Nat) : Option Bitmap :=
  (base.getD i none).bind fun role => if role.flavor = .attrib then some (acc.union role.roles) else acc.setBit i true

def mappedRoles : Option Bitmap :=
  match rolemap with
  | some map => (x.roles.bits.foldlM (expandRole base) Bitmap.empty).bind (mapEbitmap · map)
  | none => some x.roles

/-- The roles, and `p_roles.nprim` afterwards. -/
def roleSetExpand : Option (Ebitmap × BitVec 32) :=
  if x.flags &&& File.roleStar ≠ 0#32 then File.starRoles File.allRounds 0#32 nprim {}
  else do
    let mapped ← mappedRoles x base rolemap
    let r ← mapped.bits.foldlM (fun r i => r.setBit i true) Bitmap.empty
    let r ← File.compRolesIf x.flags r.1
    return (r, nprim)

/-- A role, or a member of a role attribute. -/
def RoleDatum.Covers (role : RoleDatum) (a i : Nat) : Prop :=
  if role.flavor = .attrib then role.roles.has i = true else i = a

/-- The set with its role attributes replaced, mapped. -/
def roleImage : Set Nat :=
  match rolemap with
  | some map => { j | ∃ a role i, x.roles.has a = true ∧ base.getD a none = some role ∧ RoleDatum.Covers role a i ∧
    map.getD i 0 = j + 1 }
  | none => { j | x.roles.has j = true }

/-- What the set stands for. -/
def roleSetMeaning : Set Nat :=
  if x.flags &&& File.roleStar ≠ 0#32 then { j | j < nprim.toNat }
  else if x.flags &&& File.roleComp ≠ 0#32 then { j | j < nprim.toNat } \ roleImage x base rolemap
  else roleImage x base rolemap

/-- The function returns that set and leaves the number of roles alone. -/
def RoleSetRight : Prop :=
  ∃ r, roleSetExpand x nprim base rolemap = some (r, nprim) ∧
    ∀ j, ebitmapGetBit r j = true ↔ j ∈ roleSetMeaning x nprim base rolemap

/-- The roles of the set are in the base policy, and their new values fit into a bitmap. -/
def RolesMapped : Prop :=
  rolemap.isSome → (∀ a, x.roles.has a = true → ∃ role, base.getD a none = some role) ∧
    ∀ j ∈ roleImage x base rolemap, Fits j

end Model

variable {x : RoleSet} {nprim : BitVec 32} {base : List (Option RoleDatum)} {rolemap : Option (List Nat)}

/-! ## Mapping -/

theorem mapEbitmap_isSome {src : Bitmap} {map : List Nat} (h : ∀ i j, src.has i = true → map.getD i 0 = j + 1 → Fits j) :
    ∃ dst, mapEbitmap src map = some dst := by
  obtain ⟨dst, hdst, -⟩ := gather
    (f := fun dst i => if map.getD i 0 = 0 then some dst else dst.setBit (map.getD i 0 - 1) true)
    (M := fun i j => map.getD i 0 = j + 1) (l := src.bits) (fun i hi acc => by
      cases hv : map.getD i 0 with
      | zero => exact ⟨acc, rfl, by simp⟩
      | succ v =>
        obtain ⟨acc', hacc, hbits⟩ := setBit_adds (h i v (mem_bits.mp hi) hv) acc
        refine ⟨acc', hacc, fun j => ?_⟩
        rw [hbits, Nat.add_right_cancel_iff, eq_comm (a := v)]) Bitmap.empty
  exact ⟨dst, hdst⟩

theorem expandRoles_spec (h : ∀ a, x.roles.has a = true → ∃ role, base.getD a none = some role) :
    ∃ r, x.roles.bits.foldlM (expandRole base) Bitmap.empty = some r ∧
      ∀ i, r.has i = true ↔ ∃ a role, x.roles.has a = true ∧ base.getD a none = some role ∧ RoleDatum.Covers role a i := by
  obtain ⟨r, hr, hbits⟩ := gather (f := expandRole base) (l := x.roles.bits)
    (M := fun a i => ∃ role, base.getD a none = some role ∧ RoleDatum.Covers role a i) (fun a ha acc => by
      obtain ⟨role, hrole⟩ := h a (mem_bits.mp ha)
      simp only [expandRole, hrole, bind_some, Option.some.injEq, exists_eq_left', RoleDatum.Covers]
      split
      · exact ⟨_, rfl, fun j => has_union⟩
      · exact setBit_adds (fits_of_has (mem_bits.mp ha)) acc) Bitmap.empty
  refine ⟨r, hr, fun i => ?_⟩
  rw [hbits]
  simp [has_empty, mem_bits]

theorem mappedRoles_some {m : Bitmap} (h : mappedRoles x base rolemap = some m) :
    (∀ j, m.has j = true ↔ j ∈ roleImage x base rolemap) ∧ RolesMapped x base rolemap := by
  cases rolemap with
  | none =>
    cases h
    exact ⟨fun j => Iff.rfl, nofun⟩
  | some map =>
    obtain ⟨r, hr, hm⟩ := bind_eq_some_iff.mp h
    have hroles : ∀ a ∈ x.roles.bits, ∃ role, base.getD a none = some role := by
      refine Lib.Run.foldlM_history (P := fun done _ => ∀ a ∈ done, ∃ role, base.getD a none = some role) ?_ (by simp) hr
      intro done a acc acc' _ hdone hstep
      obtain ⟨role, hrole, -⟩ := bind_eq_some_iff.mp hstep
      exact forall_mem_append.mpr ⟨hdone, forall_mem_singleton.mpr ⟨role, hrole⟩⟩
    have hexists : ∀ a, x.roles.has a = true → ∃ role, base.getD a none = some role := fun a ha => hroles a (mem_bits.mpr ha)
    obtain ⟨r', hr', hbits⟩ := expandRoles_spec hexists
    cases hr'.symm.trans hr
    have himage : ∀ j, m.has j = true ↔ j ∈ roleImage x base (some map) := by
      intro j
      rw [has_mapEbitmap hm]
      constructor
      · intro h
        obtain ⟨i, hi, hv⟩ := h
        obtain ⟨a, role, ha, hrole, hcov⟩ := (hbits i).mp hi
        exact ⟨a, role, i, ha, hrole, hcov, hv⟩
      · intro h
        obtain ⟨a, role, i, ha, hrole, hcov, hv⟩ := h
        exact ⟨i, (hbits i).mpr ⟨a, role, ha, hrole, hcov⟩, hv⟩
    exact ⟨himage, fun _ => ⟨hexists, fun j hj => fits_of_has ((himage j).mpr hj)⟩⟩

theorem exists_mappedRoles (h : RolesMapped x base rolemap) : ∃ m, mappedRoles x base rolemap = some m := by
  cases rolemap with
  | none => exact ⟨_, rfl⟩
  | some map =>
    obtain ⟨hexists, hfits⟩ := h rfl
    obtain ⟨r, hr, hbits⟩ := expandRoles_spec hexists
    have hmap : ∀ i j, r.has i = true → map.getD i 0 = j + 1 → Fits j := by
      intro i j hi hv
      obtain ⟨a, role, ha, hrole, hcov⟩ := (hbits i).mp hi
      exact hfits j ⟨a, role, i, ha, hrole, hcov, hv⟩
    obtain ⟨m, hm⟩ := mapEbitmap_isSome hmap
    exact ⟨m, by rw [mappedRoles, hr]; exact hm⟩

/-! ## The complement -/

/-- Where the loop ends: the set has no more bits, and all of the map before. -/
def Ends (s : Set Nat) (e : Nat) : Prop := (∀ j, e ≤ j → j ∉ s) ∧ ∀ j, e - e % mapsize ≤ j → j < e → j ∈ s

theorem compRoles_spec {s r : Bitmap} {i e fuel : Nat} (hr : ∀ j, r.has j = if j < i then !s.has j else s.has j)
    (he : IsLeast { e | Ends { j | s.has j = true } e } e) (hi : i ≤ e) (hfuel : e - i < fuel) :
    ∃ r', File.compRoles fuel i r.1 = some r' ∧ ∀ j, ebitmapGetBit r' j = if j < e then !s.has j else s.has j := by
  induction fuel generalizing i r with
  | zero => omega
  | succ fuel ih =>
    have hlen : i < ebitmapLength r.1 ↔ ¬Ends { j | s.has j = true } i := by
      rw [r.lt_length_iff, ← not_iff_not, not_not]
      constructor
      · intro hnone
        have hbit : ∀ j, i - i % mapsize ≤ j → r.has j = false := fun j hj => Bool.eq_false_iff.mpr fun h => hnone ⟨j, hj, h⟩
        refine ⟨fun j hj hhas => ?_, fun j hj hlt => ?_⟩
        · have := hbit j (by omega)
          rw [hr, if_neg (by omega)] at this
          exact Bool.false_ne_true (this.symm.trans hhas)
        · have := hbit j hj
          rw [hr, if_pos hlt] at this
          simpa using this
      · intro hends hlt
        obtain ⟨hnone, hall⟩ := hends
        obtain ⟨j, hj, hhas⟩ := hlt
        rw [hr] at hhas
        split at hhas
        next hlt =>
          rw [show s.has j = true from hall j hj hlt] at hhas
          cases hhas
        · exact hnone j (by omega) hhas
    unfold File.compRoles
    by_cases hend : Ends { j | s.has j = true } i
    · rw [if_neg fun h => hlen.mp h hend]
      cases Nat.le_antisymm hi (he.2 hend)
      exact ⟨r.1, rfl, hr⟩
    · have hlt : i < e := Nat.lt_of_le_of_ne hi fun heq => hend (heq ▸ he.1)
      rw [if_pos (hlen.mpr hend)]
      obtain ⟨r1, hr1⟩ := ebitmapSetBit_isSome r.1 (r.2.lt_highbit (hlen.mpr hend)) (!ebitmapGetBit r.1 i)
      obtain ⟨hwf, hbits⟩ := ebitmapSetBit_spec r.2 hr1
      rw [hr1]
      refine ih (r := ⟨r1, hwf⟩) (fun j => (hbits j).trans ?_) hlt (by omega)
      have hj := hr j
      have hi := hr i
      unfold Bitmap.has at hj hi
      by_cases hji : j = i
      · rw [if_pos hji, hi, if_neg (Nat.lt_irrefl i), hji, if_pos (Nat.lt_succ_self i)]
        rfl
      · rw [if_neg hji, hj]
        have : j < i + 1 ↔ j < i := by omega
        simp only [this]
        rfl

/-- It ends at the length of the set at the latest. -/
theorem exists_ends (s : Bitmap) : ∃ e, IsLeast { e | Ends { j | s.has j = true } e } e ∧ e < 2 ^ 32 := by
  have hend : Ends { j | s.has j = true } (ebitmapLength s.1) := by
    obtain ⟨q, hq⟩ := s.2.nodesEnd_dvd
    refine ⟨fun j hj hhas => Nat.not_lt.mpr hj (lt_length hhas), fun j hj hlt => ?_⟩
    rw [ebitmapLength, s.2.high, hq] at hj hlt
    simp only [mapsize] at hj hlt
    omega
  classical
  have hex : ∃ e, Ends { j | s.has j = true } e := ⟨_, hend⟩
  refine ⟨Nat.find hex, ⟨Nat.find_spec hex, fun e he => Nat.find_min' hex he⟩,
    Nat.lt_of_le_of_lt (Nat.find_min' hex hend) ?_⟩
  by_contra hge
  have := s.2.lt_highbit (i := ebitmapLength s.1 - 1) (by simp only [ebitmapLength] at *; omega)
  simp only [mapsize, ebitmapLength] at *
  omega

/-! ## All roles -/

theorem starRoles_keeps {fuel : Nat} {i n n' : BitVec 32} {r : Bitmap} {r' : Ebitmap}
    (h : File.starRoles fuel i n r.1 = some (r', n')) {j : Nat} (hj : r.has j = true) : ebitmapGetBit r' j = true := by
  induction fuel generalizing i n r with
  | zero => cases h
  | succ fuel ih =>
    unfold File.starRoles at h
    split at h
    · obtain ⟨r1, hr1, h⟩ := bind_eq_some_iff.mp h
      obtain ⟨hwf, hbits⟩ := ebitmapSetBit_spec r.2 hr1
      refine ih (r := ⟨r1, hwf⟩) h ((hbits j).trans ?_)
      split
      · rfl
      · exact hj
    · cases h
      exact hj

/-- The number of roles is 1 afterwards; if it was 1 before, the loop has gone on to another role. -/
theorem not_right_of_star (h : x.flags &&& File.roleStar ≠ 0#32) : ¬RoleSetRight x nprim base rolemap := by
  intro h
  obtain ⟨r, hr, hbits⟩ := h
  rw [roleSetExpand, if_pos h] at hr
  rw [roleSetMeaning, if_pos h] at hbits
  by_cases hlt : 0#32 < nprim
  · have hone := File.starRoles_nprim hlt hr
    subst hone
    rw [show File.allRounds = 4294967295 + 1 + 1 from rfl, File.starRoles, if_pos hlt] at hr
    obtain ⟨r1, hr1, hr⟩ := bind_eq_some_iff.mp hr
    rw [File.starRoles, if_pos (by decide)] at hr
    obtain ⟨r2, hr2, hr⟩ := bind_eq_some_iff.mp hr
    obtain ⟨hwf1, -⟩ := ebitmapSetBit_spec Ebitmap.WF.empty hr1
    obtain ⟨hwf2, hbits2⟩ := ebitmapSetBit_spec hwf1 hr2
    have hhas := starRoles_keeps (r := ⟨r2, hwf2⟩) hr (j := 1) (hbits2 1)
    exact absurd ((hbits 1).mp hhas) (by decide)
  · have hzero : nprim = 0#32 := by bv_omega
    rw [hzero] at hr
    cases hr

/-! ## The result -/

theorem copy_bits (m : Bitmap) : m.bits.foldlM (fun r i => r.setBit i true) Bitmap.empty = some m := by
  obtain ⟨r, hr, hbits⟩ := gather (f := fun r i => r.setBit i true) (M := fun i j => j = i) (l := m.bits)
    (fun i hi acc => setBit_adds (fits_of_has (mem_bits.mp hi)) acc) Bitmap.empty
  have hsame : r = m := by
    refine Bitmap.ext fun j => ?_
    rw [Bool.eq_iff_iff, hbits]
    simp [has_empty, mem_bits]
  rw [hr, hsame]

theorem roleSetExpand_of_mapped (nprim : BitVec 32) {m : Bitmap} (hstar : x.flags &&& File.roleStar = 0#32)
    (hm : mappedRoles x base rolemap = some m) :
    ∃ e r, IsLeast { e | Ends { j | m.has j = true } e } e ∧ roleSetExpand x nprim base rolemap = some (r, nprim) ∧
      ∀ j, ebitmapGetBit r j = if x.flags &&& File.roleComp ≠ 0#32 ∧ j < e then !m.has j else m.has j := by
  obtain ⟨e, he, hlt⟩ := exists_ends m
  have hexp : ∀ r, File.compRolesIf x.flags m.1 = some r → roleSetExpand x nprim base rolemap = some (r, nprim) := by
    intro r hr
    rw [roleSetExpand, if_neg (not_not.mpr hstar)]
    simp only [hm, copy_bits, hr, bind_eq_bind, bind_some]
    rfl
  by_cases hcomp : x.flags &&& File.roleComp ≠ 0#32
  · obtain ⟨r, hr, hbits⟩ := compRoles_spec (s := m) (r := m) (fun j => rfl) he (Nat.zero_le e)
      (show e - 0 < File.allRounds by simp only [File.allRounds]; omega)
    refine ⟨e, r, he, hexp r (by rw [File.compRolesIf, if_pos hcomp, hr]), fun j => ?_⟩
    simp only [hcomp, hbits, ne_eq, not_false_eq_true, true_and]
  · refine ⟨e, m.1, he, hexp m.1 (by rw [File.compRolesIf, if_neg hcomp]), fun j => ?_⟩
    rw [if_neg fun h => hcomp h.1]
    rfl

/-- The result is what the set stands for exactly if all roles are not asked for, the roles can be mapped, and
    the complement ends where the roles end, as far as they are not in the set. -/
theorem roleSetExpand_iff (x : RoleSet) (nprim : BitVec 32) (base : List (Option RoleDatum)) (rolemap : Option (List Nat)) :
    RoleSetRight x nprim base rolemap ↔ x.flags &&& File.roleStar = 0#32 ∧ RolesMapped x base rolemap ∧
      (x.flags &&& File.roleComp ≠ 0#32 → ∃ e, IsLeast { e | Ends (roleImage x base rolemap) e } e ∧
        ∀ j, j ∉ roleImage x base rolemap → (j < nprim.toNat ↔ j < e)) := by
  by_cases hstar : x.flags &&& File.roleStar ≠ 0#32
  · exact iff_of_false (not_right_of_star hstar) fun h => hstar h.1
  rw [and_iff_right (not_not.mp hstar)]
  by_cases hmapped : ∃ m, mappedRoles x base rolemap = some m
  · obtain ⟨m, hm⟩ := hmapped
    obtain ⟨himage, hfits⟩ := mappedRoles_some hm
    obtain ⟨e, r, he, hr, hbits⟩ := roleSetExpand_of_mapped nprim (not_not.mp hstar) hm
    have hset : { j | m.has j = true } = roleImage x base rolemap := Set.ext himage
    rw [hset] at he
    have hright : RoleSetRight x nprim base rolemap ↔ ∀ j, ebitmapGetBit r j = true ↔
        j ∈ roleSetMeaning x nprim base rolemap := by
      unfold RoleSetRight
      simp [hr]
    rw [hright, and_iff_right hfits, roleSetMeaning, if_neg hstar]
    simp only [hbits]
    by_cases hcomp : x.flags &&& File.roleComp ≠ 0#32
    · simp only [hcomp, ne_eq, not_false_eq_true, true_and, if_true, true_implies, Set.mem_sdiff, ← himage]
      have hfalse : ∀ j, ¬m.has j = true →
        (((if j < e then !m.has j else m.has j) = true ↔ j < nprim.toNat ∧ ¬m.has j = true) ↔
          (j < nprim.toNat ↔ j < e)) := by
        intro j hj
        rw [Bool.eq_false_iff.mpr hj]
        by_cases hlt : j < e
        · simp [hlt]
        · simp [hlt]
      constructor
      · intro h
        exact ⟨e, he, fun j hj => (hfalse j hj).mp (h j)⟩
      · intro hex j
        obtain ⟨e', he', h⟩ := hex
        cases he.unique he'
        by_cases hj : m.has j = true
        · -- a role of the set lies before the end
          have hlt : j < e := Nat.lt_of_not_le fun hle => he.1.1 j hle ((himage j).mp hj)
          simp [hlt, hj]
        · exact (hfalse j hj).mpr (h j hj)
    · simp only [hcomp, false_and, if_false, himage, false_implies, implies_true]
  · have hnot : ¬RolesMapped x base rolemap := fun h => hmapped (exists_mappedRoles h)
    refine iff_of_false ?_ fun h => hnot h.1
    intro h
    obtain ⟨r, hr, _⟩ := h
    rw [roleSetExpand, if_neg hstar] at hr
    obtain ⟨m, hm, -⟩ := bind_eq_some_iff.mp hr
    exact hmapped ⟨m, hm⟩

/-- Of three roles all but the first are asked for, and none is returned. -/
theorem complement_cut : roleSetExpand { roles := Bitmap.word 1#64, flags := File.roleComp } 3#32 [] none =
    some ({}, 3#32) := by
  have hcopy := copy_bits (Bitmap.word 1#64)
  have hcomp : File.compRolesIf File.roleComp (Bitmap.word 1#64).1 = some {} := by
    rw [File.compRolesIf, if_pos (by decide), show File.allRounds = 4294967295 + 1 + 1 from rfl, File.compRoles,
      if_pos (by decide)]
    rfl
  rw [roleSetExpand, if_neg (by decide)]
  simp only [mappedRoles, hcopy, hcomp, bind_eq_bind, bind_some]
  rfl

end SELinux.Expand
