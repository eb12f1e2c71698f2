/-
  SELinux.Services.Load — loading a policy into the running security server
  (`libsepol/src/services.c`: `sepol_load_policy`, `validate_class`, `convert_context`;
  `policydb.c`: the header of `policydb_read`, `policydb_destroy`).

  The server works on the policy its pointer names: its own `mypolicydb`, or one set from
  outside (`sepol_set_policydb`). A load reads the new policy, checks that the classes stay
  as they are, closes the SID table, copies it, converts the contexts of the copy by name
  and installs both. A load whose buffer cannot be read destroys `mypolicydb`, which it does
  not own at that point, and a load that fails in the copy leaves the table closed:
  `load_failures_keep_iff` is the exact condition under which failed loads of a sequence
  leave the server as it was.

  What follows the header of a policy is read by a parameter; every theorem holds for any
  reader. A hash array of the new table that cannot be allocated makes the first insertion
  of the copy fail, as a failed allocation of that entry does; with no entry to copy it is
  left out.
-/
import SELinux.Services.Sidtab

namespace SELinux.Services

open Db Lib

/-! ## The policy file -/

inductive PolicyType where
  | kern
  | base
  | mod
  deriving DecidableEq, Repr

def policydbMagic : Nat := 0xf97cff8c
def policydbModMagic : Nat := 0xf97cff8d
def policydbStringMaxLength : Nat := 32

def policydbTargetStrings : List Name := ["SE Linux".toList, "XenFlask".toList]
def policydbModString : Name := "SE Linux Module".toList

def policydbVersionMin : Nat := 15
def policydbVersionMax : Nat := 30
def modPolicydbVersionMin : Nat := 4
def modPolicydbVersionMax : Nat := 17

/-- The first bytes and the rest. -/
def nextEntry (data : List (BitVec 8)) (bytes : Nat) : Option (List (BitVec 8) × List (BitVec 8)) :=
  if data.length < bytes then none else some (data.take bytes, data.drop bytes)

/-- `le32_to_cpu` of four bytes -/
def le32 (bytes : List (BitVec 8)) : Nat := bytes.foldr (fun b n => b.toNat + 256 * n) 0

def nextLe32 (data : List (BitVec 8)) : Option (Nat × List (BitVec 8)) :=
  (nextEntry data 4).map fun e => (le32 e.1, e.2)

/-- A string of the file, as `strcmp` sees it. -/
def cString (bytes : List (BitVec 8)) : Name := (bytes.takeWhile (· != 0#8)).map fun b => Char.ofNat b.toNat

/-- The type of a policy with this magic number and string; a module's own number tells a
    base module from another. -/
def readPolicyType (magic : Nat) (str : Name) (data : List (BitVec 8)) : Option (PolicyType × List (BitVec 8)) :=
  if magic = policydbMagic then if str ∈ policydbTargetStrings then some (.kern, data) else none
  else if str ≠ policydbModString then none
  else do
    let (type, data) ← nextLe32 data
    if type = 2 then some (.mod, data) else if type = 1 then some (.base, data) else none

def versionInRange : PolicyType → Nat → Bool
  | .kern, vers => decide (policydbVersionMin ≤ vers ∧ vers ≤ policydbVersionMax)
  | _, vers => decide (modPolicydbVersionMin ≤ vers ∧ vers ≤ modPolicydbVersionMax)

/-- The type and the version of a policy, and what follows them. -/
def readHeader (data : List (BitVec 8)) : Option (PolicyType × Nat × List (BitVec 8)) := do
  let (magic, data) ← nextLe32 data
  let (len, data) ← nextLe32 data
  if magic ≠ policydbMagic ∧ magic ≠ policydbModMagic then none
  if policydbStringMaxLength < len then none
  let (str, data) ← nextEntry data len
  let (type, data) ← readPolicyType magic (cString str) data
  let (vers, data) ← nextLe32 data
  if versionInRange type vers then some (type, vers, data) else none

/-- The reader of what follows the header. -/
abbrev BodyReader := PolicyType → Nat → List (BitVec 8) → Option Policydb

def policydbRead (body : BodyReader) (data : List (BitVec 8)) : Option Policydb := do
  let (type, vers, rest) ← readHeader data
  body type vers rest

/-! ## Classes -/

/-- Every permission is still there with the same value. -/
def validatePerms (perms perms2 : List (Name × Nat)) : Bool := perms.all fun p => perms2.lookup p.1 == some p.2

def validateComdatum : Option (List (Name × Nat)) → Option (List (Name × Nat)) → Bool
  | some perms, some perms2 => validatePerms perms perms2
  | none, none => true
  | _, _ => false

def validateClass (newp : Policydb) (key : Name) (cladatum : ClassDatum) : Bool :=
  match newp.pClasses.search key with
  | none => false
  | some cladatum2 =>
    cladatum.value == cladatum2.value && validateComdatum cladatum.comdatum cladatum2.comdatum &&
      validatePerms cladatum.permissions cladatum2.permissions

def validateClasses (p newp : Policydb) : Bool := p.pClasses.table.all fun e => validateClass newp e.1 e.2

/-! ## Contexts -/

/-- The values of the names in the new policy; `none` when a name is gone or the context is
    not valid there. -/
def convertContext (oldp newp : Policydb) (c : Context) : Option Context := do
  let usrdatum ← (oldp.pUsers.name? c.user).bind newp.pUsers.search
  let role ← (oldp.pRoles.name? c.role).bind newp.pRoles.search
  let typdatum ← (oldp.pTypes.name? c.type).bind newp.pTypes.search
  let c' ← mlsConvertContext oldp newp { c with user := usrdatum.value, role := role.value, type := typdatum.value }
  if contextIsValid newp c' then some c' else none

/-! ## The server -/

/-- `mypolicydb`: as the loader of the program left it, in use, or freed. -/
inductive PolicySlot where
  | zeroed
  | live (p : Policydb)
  | destroyed

/-- `external` is the policy of `sepol_set_policydb`; without one the server uses its own. -/
structure Server where
  mypolicydb : PolicySlot
  external : Option Policydb := none
  sidtab : Sidtab := .empty

/-- The policy the server works on, if it has one that is not freed. -/
def Server.active (sv : Server) : Option Policydb :=
  match sv.external, sv.mypolicydb with
  | some p, _ => some p
  | none, .live p => some p
  | none, _ => none

/-- `memcpy(policydb, &newpolicydb)` -/
def Server.setActive (sv : Server) (p : Policydb) : Server :=
  match sv.external with
  | some _ => { sv with external := some p }
  | none => { sv with mypolicydb := .live p }

@[simp] theorem Server.active_setActive (sv : Server) (p : Policydb) : (sv.setActive p).active = some p := by
  unfold setActive active
  cases sv.external <;> simp

/-- `policydb_destroy`; freeing a policy twice has no meaning. -/
def policydbDestroy : PolicySlot → Option PolicySlot
  | .zeroed => some .zeroed
  | .live _ => some .destroyed
  | .destroyed => none

/-- A call: the buffer, and which allocations fail. -/
structure LoadCall where
  data : List (BitVec 8)
  initOom : Bool := false
  readOom : Bool := false
  cloneOom : Nat → Bool := fun _ => false
  convertOom : Nat → Bool := fun _ => false

def LoadCall.read (body : BodyReader) (call : LoadCall) : Option Policydb :=
  if call.readOom then none else policydbRead body call.data

/-- The entry converted, unless its copy cannot be allocated. -/
def convertNode (oom : Nat → Bool) (p newp : Policydb) (n : SidtabNode) : Option Context :=
  if oom n.sid then none else convertContext p newp n.context

/-- The call from where the new policy has been read. -/
def loadNew (sv : Server) (cloneOom convertOom : Nat → Bool) (newp : Policydb) : Option (Int × Server) :=
  match sv.active with
  | none => none
  | some p =>
    if !validateClasses p newp then some (-einval, sv)
    else
      match cloneSids sv.sidtab cloneOom with
      | .error _ => some (-enomem, { sv with sidtab := { sv.sidtab with shutdown := true } })
      | .ok tab =>
        some (0, { sv.setActive newp with
          sidtab := { mapRemoveOnError tab (convertNode convertOom p newp) with shutdown := false } })

/-- The return value and the server after the call; `none` when freed memory is used. -/
def sepolLoadPolicy (body : BodyReader) (sv : Server) (call : LoadCall) : Option (Int × Server) :=
  if call.initOom then some (-enomem, sv)
  else
    match call.read body with
    | none => (policydbDestroy sv.mypolicydb).map fun m => (-einval, { sv with mypolicydb := m })
    | some newp => loadNew sv call.cloneOom call.convertOom newp

/-! ## Failed loads -/

theorem Sidtab.shutdown_eq_self {t : Sidtab} : { t with shutdown := true } = t ↔ t.shutdown = true := by
  obtain ⟨htable, nel, nextSid, shutdown, hashed, sorted⟩ := t
  simp [eq_comm]

/-- When a call that fails leaves the server alone: it does not fail in `policydb_read`
    while `mypolicydb` is in use or freed, nor in the copy of an open SID table. -/
def SafeCall (body : BodyReader) (sv : Server) (call : LoadCall) : Prop :=
  call.initOom = false →
    (call.read body = none → sv.external.isSome = true ∧ sv.mypolicydb ≠ .destroyed) ∧
      ∀ p, sv.active = some p → ∀ newp, call.read body = some newp → validateClasses p newp = true →
        (∃ n ∈ sv.sidtab.nodes, call.cloneOom n.sid = true) → sv.sidtab.shutdown = true

/-- The call has a result, and if it is an error nothing changed. -/
def FailureKeeps (sv : Server) (result : Option (Int × Server)) : Prop :=
  ∃ r sv', result = some (r, sv') ∧ (r ≠ 0 → sv'.active = sv.active ∧ sv'.sidtab = sv.sidtab)

variable {sv sv' : Server}

theorem failureKeeps_some {r : Int} (hr : r ≠ 0) :
    FailureKeeps sv (some (r, sv')) ↔ sv'.active = sv.active ∧ sv'.sidtab = sv.sidtab := by
  constructor
  · intro h
    obtain ⟨r', sv'', heq, hkeep⟩ := h
    cases heq
    exact hkeep hr
  · intro h
    exact ⟨r, sv', rfl, fun _ => h⟩

/-- A buffer that cannot be read costs the server the policy it owns. -/
theorem failureKeeps_destroy {p : Policydb} (hp : sv.active = some p) :
    FailureKeeps sv ((policydbDestroy sv.mypolicydb).map fun m => (-einval, { sv with mypolicydb := m })) ↔
      sv.external.isSome = true ∧ sv.mypolicydb ≠ .destroyed := by
  obtain ⟨slot, external, tab⟩ := sv
  cases slot with
  | zeroed => cases external <;> simp [policydbDestroy, failureKeeps_some, einval, Server.active] at hp ⊢
  | live q => cases external <;> simp [policydbDestroy, failureKeeps_some, einval, Server.active] at hp ⊢
  | destroyed => cases external <;> simp [policydbDestroy, FailureKeeps]

/-- The step: from a server with a policy, exactly the safe calls leave it alone when they fail. -/
theorem failureKeeps_iff (body : BodyReader) {p : Policydb} (hp : sv.active = some p) (call : LoadCall) :
    FailureKeeps sv (sepolLoadPolicy body sv call) ↔ SafeCall body sv call := by
  unfold SafeCall sepolLoadPolicy loadNew
  cases call.initOom with
  | true => simp [failureKeeps_some, enomem]
  | false =>
    cases call.read body with
    | none => simpa using failureKeeps_destroy hp
    | some newp =>
      simp only [hp, reduceCtorEq, false_imp_iff, true_and, Option.some.injEq, forall_eq']
      cases validateClasses p newp with
      | false => simp [failureKeeps_some, einval]
      | true =>
        simp only [Bool.not_true, Bool.false_eq_true, if_false, true_imp_iff]
        have hclone := @cloneSids_isOk_iff sv.sidtab call.cloneOom
        cases hc : cloneSids sv.sidtab call.cloneOom with
        | error e =>
          have hoom : ∃ n ∈ sv.sidtab.nodes, call.cloneOom n.sid = true := by
            rw [hc] at hclone
            simpa using hclone
          simp only [failureKeeps_some (show -enomem ≠ 0 by decide), hoom, true_imp_iff]
          exact (and_iff_right rfl).trans Sidtab.shutdown_eq_self
        | ok tab =>
          have hoom : ¬ ∃ n ∈ sv.sidtab.nodes, call.cloneOom n.sid = true := by
            rw [hc] at hclone
            simpa using hclone
          simp only [hoom, false_imp_iff, iff_true]
          exact ⟨_, _, rfl, fun h => absurd rfl h⟩

theorem sepolLoadPolicy_zero {body : BodyReader} {call : LoadCall} (h : sepolLoadPolicy body sv call = some (0, sv')) :
    ∃ p newp tab, sv.active = some p ∧ call.read body = some newp ∧ cloneSids sv.sidtab call.cloneOom = .ok tab ∧
      sv'.active = some newp ∧
      sv'.sidtab = { mapRemoveOnError tab (convertNode call.convertOom p newp) with shutdown := false } := by
  revert h
  fun_cases sepolLoadPolicy body sv call with
  | case1 => nofun
  | case2 =>
    intro h
    obtain ⟨m, -, hm⟩ := Option.map_eq_some_iff.mp h
    cases hm
  | case3 _ newp hread =>
    fun_cases loadNew sv call.cloneOom call.convertOom newp with
    | case4 p hp _ tab htab =>
      intro h
      cases h
      exact ⟨p, newp, tab, hp, hread, htab, Server.active_setActive sv newp, rfl⟩
    | _ => nofun

/-- Every failed call of the sequence leaves the server alone. -/
def FailuresKeep (body : BodyReader) : Server → List LoadCall → Prop
  | _, [] => True
  | sv, call :: calls =>
    FailureKeeps sv (sepolLoadPolicy body sv call) ∧
      ∀ r sv', sepolLoadPolicy body sv call = some (r, sv') → FailuresKeep body sv' calls

/-- Every call of the sequence is safe where it is made. -/
def SafeCalls (body : BodyReader) : Server → List LoadCall → Prop
  | _, [] => True
  | sv, call :: calls =>
    SafeCall body sv call ∧ ∀ r sv', sepolLoadPolicy body sv call = some (r, sv') → SafeCalls body sv' calls

/-- A call that keeps the server on failure leaves it with a policy. -/
theorem active_of_failureKeeps {body : BodyReader} {call : LoadCall} {r : Int} (hp : sv.active.isSome = true)
    (h : FailureKeeps sv (sepolLoadPolicy body sv call)) (hcall : sepolLoadPolicy body sv call = some (r, sv')) :
    sv'.active.isSome = true := by
  by_cases hr : r = 0
  · subst hr
    obtain ⟨-, newp, -, -, -, -, hactive, -⟩ := sepolLoadPolicy_zero hcall
    rw [hactive]
    rfl
  · rw [hcall, failureKeeps_some hr] at h
    rw [h.1]
    exact hp

/-- In a sequence of loads on a running server, the failed ones leave the policy and the
    SID table as they were exactly if every call is safe. -/
theorem load_failures_keep_iff (body : BodyReader) (sv : Server) (hrunning : sv.active.isSome = true)
    (calls : List LoadCall) : FailuresKeep body sv calls ↔ SafeCalls body sv calls := by
  induction calls generalizing sv with
  | nil => exact Iff.rfl
  | cons call calls ih =>
    obtain ⟨p, hp⟩ := Option.isSome_iff_exists.mp hrunning
    have hstep := failureKeeps_iff body hp call
    constructor
    · intro h
      obtain ⟨hkeep, hrest⟩ := h
      exact ⟨hstep.mp hkeep, fun r sv' hcall =>
        (ih sv' (active_of_failureKeeps hrunning hkeep hcall)).mp (hrest r sv' hcall)⟩
    · intro h
      obtain ⟨hsafe, hrest⟩ := h
      have hkeep := hstep.mpr hsafe
      exact ⟨hkeep, fun r sv' hcall =>
        (ih sv' (active_of_failureKeeps hrunning hkeep hcall)).mpr (hrest r sv' hcall)⟩

/-- A kernel policy of version 30, up to its configuration. -/
def kernelBuffer : List (BitVec 8) :=
  [0x8c#8, 0xff#8, 0x7c#8, 0xf9#8, 8#8, 0#8, 0#8, 0#8] ++ "SE Linux".toList.map (fun c => BitVec.ofNat 8 c.toNat) ++
    [30#8, 0#8, 0#8, 0#8]

/-- The policy is set from outside. -/
def externalServer : Server := { mypolicydb := .zeroed, external := some {} }

/-- A policy that is read, and an empty buffer after it. -/
theorem load_failures_keep_external :
    externalServer.active.isSome = true ∧
      (∃ sv', sepolLoadPolicy (fun _ _ _ => some {}) externalServer { data := kernelBuffer } = some (0, sv')) ∧
      FailuresKeep (fun _ _ _ => some {}) externalServer [{ data := kernelBuffer }, { data := [] }] := by
  have hload : sepolLoadPolicy (fun _ _ _ => some {}) externalServer { data := kernelBuffer } =
      some (0, externalServer) := rfl
  have hempty : SafeCall (fun _ _ _ => some {}) externalServer { data := [] } :=
    fun _ => ⟨fun _ => ⟨rfl, fun h => nomatch h⟩, fun p _ newp h => nomatch h⟩
  refine ⟨rfl, ⟨_, hload⟩, (load_failures_keep_iff _ _ rfl _).mpr ⟨?_, ?_⟩⟩
  · intro _
    refine ⟨fun _ => ⟨rfl, fun h => nomatch h⟩, ?_⟩
    intro p _ newp _ _ hoom
    obtain ⟨n, -, hn⟩ := hoom
    cases hn
  · intro r sv' h
    rw [hload] at h
    cases h
    exact ⟨hempty, fun _ _ _ => trivial⟩

/-- A server on its own policy. -/
def ownServer : Server := { mypolicydb := .live {} }

/-- An empty buffer, whatever the reader makes of a policy: the load fails, and the policy
    of the server is gone. -/
theorem load_destroys_active :
    ownServer.active = some {} ∧ ({ ownServer with mypolicydb := .destroyed } : Server).active = none ∧
      ∀ body : BodyReader,
        sepolLoadPolicy body ownServer { data := [] } = some (-einval, { ownServer with mypolicydb := .destroyed }) ∧
          ¬ FailuresKeep body ownServer [{ data := [] }] := by
  refine ⟨rfl, rfl, fun body => ⟨rfl, ?_⟩⟩
  intro h
  have hkeep : FailureKeeps ownServer (some (-einval, { ownServer with mypolicydb := .destroyed })) := h.1
  exact nomatch ((failureKeeps_some (by decide)).mp hkeep).1

end SELinux.Services
