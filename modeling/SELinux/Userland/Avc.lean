/-
  SELinux.Userland.Avc — the userspace access vector cache (`libselinux/src/avc.c`).

  A fixed set of nodes is kept in the chains of a hash table and in a free list. A lookup takes
  the first node of a chain with the key asked for; an answer of the security server is put into
  a free node, or into one reclaimed from a chain, at the front of its chain. The callers hold
  references to entries, which are nodes: a reference stays when its node is cleared or reused.

  Events of the security server change the entries in the chains and call the object manager's
  callbacks, which may use the cache themselves. A call that has callbacks is therefore two
  actions, one up to its callbacks and `ret` after them; what stands between the two is done
  by the callbacks. The answers of the security server are part of the actions that ask for them.

  The cache is initialised and there are no threads. Statistics, the audit and the lock are left
  out, and so is `avc_compute_member`, which does not use the cache. The netlink messages a
  permission check handles at its start are actions before it; the check sets the caller's `avd`
  before them in the source, and after them here.
-/
import Mathlib

namespace SELinux.Userland.Avc

/-- A pointer. -/
abbrev Sid := BitVec 64

/-- `access_vector_t` -/
abbrev Av := BitVec 32

/-- `SECSID_WILD` -/
def wild : Sid := 0#64

structure Key where
  ssid : Sid := 0#64
  tsid : Sid := 0#64
  tclass : BitVec 16 := 0#16
  deriving DecidableEq, Repr

structure AvDecision where
  allowed : Av := 0#32
  decided : Av := 0#32
  auditallow : Av := 0#32
  auditdeny : Av := 0#32
  seqno : BitVec 32 := 0#32
  flags : BitVec 32 := 0#32
  deriving DecidableEq, Repr

/-- `SELINUX_AVD_FLAGS_PERMISSIVE` -/
def AvDecision.permissive (d : AvDecision) : Bool := d.flags &&& 1#32 ≠ 0#32

/-- `struct avc_entry`; the blank one is what `avc_clear_avc_entry` leaves. -/
structure Entry extends Key where
  avd : AvDecision := {}
  createSid : Sid := 0#64
  used : Bool := false
  deriving DecidableEq, Repr

/-- The address of a node, and of the entry in it. -/
abbrev Node := Nat

/-- The process-wide state. A chain of nodes is a list. -/
structure Cache where
  entries : Node → Entry := fun _ => {}
  slots : Fin 512 → List Node := fun _ => []
  freelist : List Node
  lruHint : Fin 512 := 0
  activeNodes : BitVec 32 := 0#32
  latestNotif : BitVec 32 := 0#32
  enforcing : Bool

/-- `avc_init`; `AVC_CACHE_MAXNODES` is 410, and fewer nodes are used if no more could be allocated. -/
def avcInit (nodes : Nat) (enforcing : Bool) : Cache := { freelist := (List.range nodes).reverse, enforcing }

def avcHash (k : Key) : Fin 512 := Fin.ofNat 512 (k.ssid ^^^ (k.tsid <<< 2) ^^^ k.tclass.setWidth 64).toNat

def Cache.modify (s : Cache) (n : Node) (f : Entry → Entry) : Cache :=
  { s with entries := Function.update s.entries n (f (s.entries n)) }

/-! ## Nodes -/

def setUsed (used : Bool) (e : Entry) : Entry := { e with used }

/-- The chain from `cur` on: the used nodes are marked unused until one is found that is not. It
    is unlinked. -/
def scanChain : (Node → Entry) → List Node → (Node → Entry) × Option (Node × List Node)
  | entries, [] => (entries, none)
  | entries, cur :: next =>
    if !(entries cur).used then (entries, some (cur, next))
    else
      match scanChain (Function.update entries cur (setUsed false (entries cur))) next with
      | (entries, some (node, rest)) => (entries, some (node, cur :: rest))
      | (entries, none) => (entries, none)

/-- The next `fuel` slots, from `hvalue` on. -/
def reclaimLoop : Nat → Fin 512 → Cache → Option Node × Cache
  | 0, _, s => (none, s)
  | fuel + 1, hvalue, s =>
    match scanChain s.entries (s.slots hvalue) with
    | (entries, some (node, rest)) =>
      (some node, { s with entries, slots := Function.update s.slots hvalue rest, lruHint := hvalue })
    | (entries, none) => reclaimLoop fuel (hvalue + 1) { s with entries }

/-- Two rounds over all slots. -/
def avcReclaimNode (s : Cache) : Option Node × Cache := reclaimLoop (2 * 512) s.lruHint s

/-- A free node or a reclaimed one. -/
def takeNode (s : Cache) : Option Node × Cache :=
  match s.freelist with
  | n :: freelist => (some n, { s with freelist, activeNodes := s.activeNodes + 1 })
  | [] => avcReclaimNode s

def avcClaimNode (s : Cache) (k : Key) : Option Node × Cache :=
  match takeNode s with
  | (none, s) => (none, s)
  | (some n, s) =>
    (some n, { s with
      entries := Function.update s.entries n { k with used := true }
      slots := Function.update s.slots (avcHash k) (n :: s.slots (avcHash k)) })

def avcSearchNode (s : Cache) (k : Key) : Option Node × Cache :=
  match (s.slots (avcHash k)).find? fun n => (s.entries n).toKey = k with
  | none => (none, s)
  | some n => (some n, s.modify n (setUsed true))

/-- Everything asked for is decided. -/
def decides (e : Entry) (requested : Av) : Bool := e.avd.decided &&& requested = requested

def avcLookup (s : Cache) (k : Key) (requested : Av) : Option Node × Cache :=
  match avcSearchNode s k with
  | (none, s) => (none, s)
  | (some n, s) => if decides (s.entries n) requested then (some n, s) else (none, s)

/-- Refuses an answer older than the latest notification. -/
def avcInsert (s : Cache) (k : Key) (avd : AvDecision) : Option Node × Cache :=
  if avd.seqno < s.latestNotif then (none, s)
  else
    match avcClaimNode s k with
    | (none, s) => (none, s)
    | (some n, s) => (some n, s.modify n fun e => { e with avd })

/-! ## Queries -/

/-- `security_compute_av_flags_raw`: an error, perhaps `EINVAL`, or an answer. -/
inductive Answer
  | error (einval : Bool)
  | decision (avd : AvDecision)
  deriving DecidableEq, Repr

/-- `decided` is left as it is. -/
def avdInit (s : Cache) (avd : AvDecision) : AvDecision :=
  { avd with allowed := 0#32, auditallow := 0#32, auditdeny := BitVec.allOnes 32, seqno := s.latestNotif, flags := 0#32 }

/-- What a permission check gives back. `avd` is what the caller's decision becomes, `ae` the entry
    that was decided from, `claimed` the node an answer was put into. -/
structure Verdict where
  rc : Int
  avd : AvDecision → AvDecision
  aeref : Option Node
  ae : Option Node
  claimed : Option Node
  cache : Cache

def allow (perms : Av) (e : Entry) : Entry := { e with avd := { e.avd with allowed := e.avd.allowed ||| perms } }

def disallow (perms : Av) (e : Entry) : Entry := { e with avd := { e.avd with allowed := e.avd.allowed &&& ~~~perms } }

/-- The end of `avc_has_perm_noaudit`, with an entry. -/
def decideFrom (s : Cache) (requested : Av) (ae : Node) (claimed : Option Node) : Verdict :=
  let avd := (s.entries ae).avd
  let denied := requested &&& ~~~avd.allowed
  let v : Verdict := { rc := 0, avd := fun _ => avd, aeref := some ae, ae := some ae, claimed, cache := s }
  if requested = 0#32 ∨ denied ≠ 0#32 then
    if !s.enforcing || avd.permissive then
      { v with cache := s.modify ae (allow requested) }
    else { v with rc := -1 }
  else v

/-- Without an entry the caller's `avd` is as it was set at the start. -/
def noEntry (s : Cache) (start : AvDecision → AvDecision) (aeref : Option Node) (rc : Int) : Verdict :=
  { rc, avd := start, aeref, ae := none, claimed := none, cache := s }

/-- The entry of the caller's reference, if it is for this key and decides what is asked. -/
def heldEntry (s : Cache) (k : Key) (requested : Av) (aeref : Option Node) : Option Node :=
  aeref.filter fun n => (s.entries n).toKey = k && decides (s.entries n) requested

/-- `aeref` is `none` for a reference that is not set, and for no reference. -/
def avcHasPermNoaudit (s : Cache) (k : Key) (requested : Av) (aeref : Option Node) (answer : Answer) : Verdict :=
  match heldEntry s k requested aeref with
  | some ae => decideFrom (s.modify ae (setUsed true)) requested ae none
  | none =>
    match avcLookup s k requested with
    | (some ae, s') => decideFrom s' requested ae none
    | (none, s') =>
      match answer with
      | .error einval => noEntry s' (avdInit s) aeref (if einval && !s.enforcing then 0 else -1)
      | .decision avd =>
        match avcInsert s' k avd with
        | (none, s') => noEntry s' (avdInit s) aeref (-1)
        | (some ae, s') => decideFrom s' requested ae (some ae)

/-- `security_compute_create_raw` and `sidtab_context_to_sid` with an entry. -/
def saveCreate (s : Cache) (ae : Node) (create : Option Sid) : Cache :=
  if (s.entries ae).createSid = 0#64 then
    match create with
    | none => s
    | some sid => s.modify ae fun e => { e with createSid := sid }
  else s

/-- The cache afterwards, and the node an answer was put into. -/
def avcComputeCreate (s : Cache) (k : Key) (answer : Answer) (create : Option Sid) : Option Node × Cache :=
  match avcLookup s k 0#32 with
  | (some ae, s) => (none, saveCreate s ae create)
  | (none, s) =>
    match answer with
    | .error _ => (none, s)
    | .decision avd =>
      match avcInsert s k avd with
      | (none, s) => (none, s)
      | (some ae, s) => (some ae, saveCreate s ae create)

/-! ## Events -/

inductive Event
  | grant
  | tryRevoke
  | revoke
  | auditallowEnable
  | auditallowDisable
  | auditdenyEnable
  | auditdenyDisable
  deriving DecidableEq, Repr

def avcUpdateNode (event : Event) (perms : Av) (e : Entry) : Entry :=
  match event with
  | .grant => allow perms e
  | .tryRevoke => disallow perms e
  | .revoke => disallow perms e
  | .auditallowEnable => { e with avd := { e.avd with auditallow := e.avd.auditallow ||| perms } }
  | .auditallowDisable => { e with avd := { e.avd with auditallow := e.avd.auditallow &&& ~~~perms } }
  | .auditdenyEnable => { e with avd := { e.avd with auditdeny := e.avd.auditdeny ||| perms } }
  | .auditdenyDisable => { e with avd := { e.avd with auditdeny := e.avd.auditdeny &&& ~~~perms } }

def avcSidcmp (x y : Sid) : Bool := x = y || x = wild || y = wild

def Cache.nodes (s : Cache) : List Node := (List.finRange 512).flatMap s.slots

/-- The nodes an event applies to: all matching ones if it names no particular source or target,
    else one. -/
def targets (s : Cache) (k : Key) : List Node :=
  if k.ssid = wild ∨ k.tsid = wild then
    s.nodes.filter fun n =>
      avcSidcmp k.ssid (s.entries n).ssid && avcSidcmp k.tsid (s.entries n).tsid && k.tclass = (s.entries n).tclass
  else (avcSearchNode s k).1.toList

/-- The search for the one node marks it used. -/
def avcUpdateCache (event : Event) (k : Key) (perms : Av) (s : Cache) : Cache :=
  (targets s k).foldl (fun s n => s.modify n (avcUpdateNode event perms))
    (if k.ssid = wild ∨ k.tsid = wild then s else (avcSearchNode s k).2)

def raiseNotif (seqno : BitVec 32) (s : Cache) : Cache :=
  if s.latestNotif < seqno then { s with latestNotif := seqno } else s

/-- `avc_reset` up to its callbacks. -/
def flush (s : Cache) : Cache :=
  { s with
    entries := fun n => if n ∈ s.nodes then {} else s.entries n
    slots := fun _ => []
    freelist := s.nodes.reverse ++ s.freelist
    activeNodes := s.activeNodes - BitVec.ofNat 32 s.nodes.length
    lruHint := 0 }

/-! ## A process -/

/-- A call whose callbacks are running. -/
inductive Call
  | reset
  | ssReset (seqno : BitVec 32)
  | control (event : Event) (key : Key) (perms : Av) (seqno : BitVec 32)
  deriving DecidableEq, Repr

inductive Action
  | refInit (ref : Nat)
  | hasPerm (key : Key) (requested : Av) (ref : Option Nat) (answer : Answer)
  | computeCreate (key : Key) (answer : Answer) (create : Option Sid)
  | call (c : Call)
  /-- The callbacks of the last call are done; `retained` is what they retained. -/
  | ret (retained : Av)
  deriving DecidableEq, Repr

/-- `refs` are the references of the callers. -/
structure Process where
  cache : Cache
  refs : Nat → Option Node := fun _ => none
  calls : List Call := []

def Call.start : Call → Cache → Cache
  | .reset, s => flush s
  | .ssReset _, s => flush s
  | .control event key perms _, s => if event = .tryRevoke then s else avcUpdateCache event key perms s

def Call.finish (retained : Av) : Call → Cache → Cache
  | .reset, s => s
  | .ssReset seqno, s => raiseNotif seqno s
  | .control event key perms seqno, s =>
    raiseNotif seqno (if event = .tryRevoke then avcUpdateCache event key (perms &&& ~~~retained) s else s)

def Process.hasPerm (p : Process) (key : Key) (requested : Av) (ref : Option Nat) (answer : Answer) : Verdict :=
  avcHasPermNoaudit p.cache key requested (ref.bind p.refs) answer

def Process.step (p : Process) : Action → Process
  | .refInit ref => { p with refs := Function.update p.refs ref none }
  | .hasPerm key requested ref answer =>
    let v := p.hasPerm key requested ref answer
    { p with
      cache := v.cache
      refs := match ref with
        | none => p.refs
        | some r => Function.update p.refs r v.aeref }
  | .computeCreate key answer create => { p with cache := (avcComputeCreate p.cache key answer create).2 }
  | .call c => { p with cache := c.start p.cache, calls := c :: p.calls }
  | .ret retained =>
    match p.calls with
    | [] => p
    | c :: calls => { p with cache := c.finish retained p.cache, calls }

end SELinux.Userland.Avc
