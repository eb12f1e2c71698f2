/-
  SELinux.Manage.UserRoles — the roles of a user record (`libsepol/src/user_record.c`).

  A role is deleted by putting the array's last role in its place. The scan then goes on behind
  that place, so the role moved there is not looked at. Where no role stands twice that does no
  harm. `sepol_user_add_role` lets none in twice, and a clone is filled through it; but
  `sepol_user_set_roles` copies any array.

  `delRole_iff`: after any sequence of operations a deletion leaves the other roles alone, and it
  takes the role away exactly when none of its copies is among the last roles, as many as there
  are copies but one. `setRoles_twice_delRole` is a record that keeps the role.

  Allocation succeeds, and the record has a name before it is cloned.
-/
import SELinux.Manage.Users

namespace SELinux.Manage

open Db List

variable {l : List Name} {u : UserRecord} {r role : Name}

def sepolUserCreate : UserRecord := {}

def sepolUserHasRole (u : UserRecord) (role : Name) : Bool := u.roles.any fun r => r = role

def sepolUserAddRole (u : UserRecord) (role : Name) : UserRecord :=
  if sepolUserHasRole u role then u else { u with roles := u.roles ++ [role] }

def sepolUserSetRoles (u : UserRecord) (rolesArr : List Name) : UserRecord := { u with roles := rolesArr }

/-- The loop of `sepol_user_del_role` over the roles from `i` on. -/
def delRole (role : Name) : List Name → List Name
  | [] => []
  | r :: l =>
    if r = role then
      match l.getLast? with
      | none => []
      | some last => last :: delRole role l.dropLast
    else r :: delRole role l
termination_by l => l.length

def sepolUserDelRole (u : UserRecord) (role : Name) : UserRecord := { u with roles := delRole role u.roles }

def sepolUserClone (u : UserRecord) : UserRecord :=
  { u.roles.foldl sepolUserAddRole sepolUserCreate with mlsLevel := u.mlsLevel, mlsRange := u.mlsRange }

inductive UserOp
  | create
  | addRole (role : Name)
  | setRoles (rolesArr : List Name)
  | delRole (role : Name)
  | clone

def UserOp.apply (u : UserRecord) : UserOp → UserRecord
  | .create => sepolUserCreate
  | .addRole role => sepolUserAddRole u role
  | .setRoles rolesArr => sepolUserSetRoles u rolesArr
  | .delRole role => sepolUserDelRole u role
  | .clone => sepolUserClone u

/-- The record after the operations. -/
def built (ops : List UserOp) : UserRecord := ops.foldl UserOp.apply sepolUserCreate

@[simp] theorem sepolUserHasRole_iff : sepolUserHasRole u role = true ↔ role ∈ u.roles := by simp [sepolUserHasRole]

/-! ## One deletion -/

theorem mem_delRole (hne : r ≠ role) : r ∈ delRole role l ↔ r ∈ l := by
  fun_induction delRole role l with
  | case1 => rfl
  | case2 l hnone =>
    rw [getLast?_eq_none_iff] at hnone
    simp [hnone, hne]
  | case3 l last hlast ih =>
    rw [← dropLast_append_getLast? last hlast]
    grind
  | case4 q l hq ih => rw [mem_cons, mem_cons, ih]

/-- Each copy found moves one role from the end, unseen; the last copy needs none of them. -/
theorem self_mem_delRole : role ∈ delRole role l ↔ role ∈ l.reverse.take (l.count role - 1) := by
  fun_induction delRole role l with
  | case1 => simp
  | case2 l hnone =>
    rw [getLast?_eq_none_iff] at hnone
    simp [hnone]
  | case3 l last hlast ih =>
    obtain ⟨front, rfl⟩ : ∃ front, l = front ++ [last] := ⟨_, (dropLast_append_getLast? last hlast).symm⟩
    rw [dropLast_concat] at ih
    rw [dropLast_concat, mem_cons, ih, count_cons_self, count_append]
    by_cases hrole : role = last
    · simp [hrole]
    · rw [count_singleton, if_neg (by simpa using hrole ∘ Eq.symm), Nat.add_zero]
      rcases hcount : front.count role with _ | n
      · simp [hrole]
      · -- the count is at most the length, so the deleted copy itself is not reached
        have hle : n ≤ front.reverse.length := by
          have := front.count_le_length (a := role)
          rw [length_reverse]
          omega
        simp [hrole, take_append_of_le_length hle]
  | case4 q l hq ih =>
    have hle : l.count role - 1 ≤ l.reverse.length := by
      have := l.count_le_length (a := role)
      rw [length_reverse]
      omega
    rw [mem_cons, or_iff_right (Ne.symm hq), ih, reverse_cons, count_cons_of_ne hq, take_append_of_le_length hle]

/-! ## Runs -/

/-- What deleting a role should do. -/
def Deleted (u u' : UserRecord) (role : Name) : Prop :=
  sepolUserHasRole u' role = false ∧ ∀ r, r ≠ role → sepolUserHasRole u' r = sepolUserHasRole u r

/-- The role is not among the last `count - 1` roles. -/
def CopiesInFront (u : UserRecord) (role : Name) : Prop := role ∉ u.roles.reverse.take (u.roles.count role - 1)

theorem deleted_iff : Deleted u (sepolUserDelRole u role) role ↔ CopiesInFront u role := by
  unfold Deleted CopiesInFront
  rw [← self_mem_delRole, ← Bool.not_eq_true, sepolUserHasRole_iff]
  refine and_iff_left ?_
  intro r hne
  rw [Bool.eq_iff_iff, sepolUserHasRole_iff, sepolUserHasRole_iff]
  exact mem_delRole hne

theorem delRole_iff (ops : List UserOp) (role : Name) :
    Deleted (built ops) (sepolUserDelRole (built ops) role) role ↔ CopiesInFront (built ops) role := deleted_iff

/-- The record of one `sepol_user_set_roles` call that names a role twice. -/
theorem setRoles_twice_delRole :
    sepolUserHasRole (sepolUserDelRole (built [.setRoles ["staff_r".toList, "staff_r".toList]]) "staff_r".toList)
      "staff_r".toList = true := by
  rw [sepolUserHasRole_iff]
  exact self_mem_delRole.mpr (by decide)

theorem nodup_delRole (h : l.Nodup) : (delRole role l).Nodup := by
  fun_induction delRole role l with
  | case1 => exact h
  | case2 => exact nodup_nil
  | case3 l last hlast ih =>
    obtain ⟨front, rfl⟩ : ∃ front, l = front ++ [last] := ⟨_, (dropLast_append_getLast? last hlast).symm⟩
    obtain ⟨hrole, hl⟩ := nodup_cons.mp h
    rw [dropLast_concat] at ih ⊢
    rw [nodup_append] at hl
    refine nodup_cons.mpr ⟨?_, ih hl.1⟩
    rw [mem_delRole (by rintro rfl; exact hrole (by simp))]
    exact fun hmem => hl.2.2 last hmem last mem_cons_self rfl
  | case4 q l hq ih =>
    obtain ⟨hmem, hl⟩ := nodup_cons.mp h
    exact nodup_cons.mpr ⟨(mem_delRole hq).not.mpr hmem, ih hl⟩

theorem nodup_addRole (h : u.roles.Nodup) : (sepolUserAddRole u role).roles.Nodup := by
  unfold sepolUserAddRole
  split
  · exact h
  next hnew =>
    rw [sepolUserHasRole_iff] at hnew
    rw [← concat_eq_append]
    exact h.concat hnew

theorem nodup_addRoles (h : u.roles.Nodup) : (l.foldl sepolUserAddRole u).roles.Nodup := by
  induction l generalizing u with
  | nil => exact h
  | cons role l ih => exact ih (nodup_addRole h)

theorem nodup_apply {op : UserOp} (hset : ∀ rolesArr, op = .setRoles rolesArr → rolesArr.Nodup) (h : u.roles.Nodup) :
    (op.apply u).roles.Nodup := by
  cases op with
  | create => exact nodup_nil
  | addRole role => exact nodup_addRole h
  | setRoles rolesArr => exact hset rolesArr rfl
  | delRole role => exact nodup_delRole h
  | clone => exact nodup_addRoles nodup_nil

/-- While no array given names a role twice, no record does. -/
theorem nodup_built {ops : List UserOp} (hset : ∀ rolesArr, UserOp.setRoles rolesArr ∈ ops → rolesArr.Nodup) :
    (built ops).roles.Nodup := by
  suffices h : ∀ u : UserRecord, u.roles.Nodup → (ops.foldl UserOp.apply u).roles.Nodup from h _ nodup_nil
  induction ops with
  | nil => exact fun _ h => h
  | cons op ops ih =>
    intro u h
    refine ih (fun arr harr => hset arr (mem_cons_of_mem op harr)) _ (nodup_apply ?_ h)
    rintro arr rfl
    exact hset arr mem_cons_self

/-- Then every deletion does what it should. -/
theorem deleted_of_nodup {ops : List UserOp} (hset : ∀ rolesArr, UserOp.setRoles rolesArr ∈ ops → rolesArr.Nodup)
    (role : Name) : Deleted (built ops) (sepolUserDelRole (built ops) role) role := by
  rw [deleted_iff, CopiesInFront]
  have hcount := nodup_iff_count_le_one.mp (nodup_built hset) role
  rw [Nat.sub_eq_zero_of_le hcount]
  exact not_mem_nil

theorem deleted_of_nodup_two : sepolUserHasRole (sepolUserDelRole (built [.setRoles ["staff_r".toList, "user_r".toList]])
    "staff_r".toList) "staff_r".toList = false := by
  refine (deleted_of_nodup ?_ _).1
  rintro rolesArr h
  cases mem_singleton.mp h
  decide

end SELinux.Manage
