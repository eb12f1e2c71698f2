/-
  SELinux.Cil.Ast — resolved rules of the CIL compiler and the search for them
  (`libsepol/cil/src/cil_internal.h`, `cil_find.c`, `cil_tree.c`: `cil_tree_walk`).

  A type of CIL has a value of its own, counted from 0 and unrelated to the policydb's, and
  an attribute is a bitmap of these. The class permissions of a rule are a list of entries
  for a class, for permissions of a class map, or for a named set; maps and sets hold lists
  of the same kind. Classes and permissions are compared as pointers, here as `id`s.

  The search visits the tree as `cil_tree_walk` does and passes over macros and abstract
  blocks. It fails when the intersection of two attributes cannot be built.
-/
import SELinux.Db.Types

namespace SELinux.Cil

open Db

/-! ## Rules -/

/-- A `cil_type` or a `cil_typeattribute`; aliases are resolved. -/
inductive CilTypeDatum
  | type (fqn : Name) (value : Nat)
  | attr (fqn : Name) (types : Bitmap)

def CilTypeDatum.fqn : CilTypeDatum → Name
  | type fqn _ => fqn
  | attr fqn _ => fqn

structure CilClass where
  id : Nat
  fqn : Name
  deriving DecidableEq, Repr

structure CilPerm where
  id : Nat
  fqn : Name
  deriving DecidableEq, Repr

/-- `map` has the class permissions of each of its permissions. -/
inductive Classperms
  | perms (cls : CilClass) (perms : List CilPerm)
  | map (perms : List (List Classperms))
  | set (classperms : List Classperms)

inductive RuleKind
  | allowed
  | auditallow
  | dontaudit
  | neverallow
  deriving DecidableEq, Repr

/-- `tgt` is `none` for `self`. -/
structure CilAvrule where
  ruleKind : RuleKind
  src : CilTypeDatum
  tgt : Option CilTypeDatum
  classperms : List Classperms

/-- The flavors the search tells apart. -/
inductive Flavor
  | block (isAbstract : Bool)
  | macroBody
  | avrule (rule : CilAvrule)
  | other

inductive Tree
  | node (flavor : Flavor) (children : List Tree)

/-! ## Types in common -/

def cilTypeMatchAny : CilTypeDatum → CilTypeDatum → Bool
  | .type _ v1, .type _ v2 => v1 == v2
  | .attr _ types, .type _ v => types.has v
  | .type _ v, .attr _ types => types.has v
  | .attr _ types1, .attr _ types2 => ebitmapMatchAny types1.1 types2.1

/-- The bitmap with one type; the result of `ebitmap_set_bit` is not looked at. -/
def typeBitmap (value : Nat) : Ebitmap := (ebitmapSetBit {} value true).getD {}

def cilTypeMatches : CilTypeDatum → CilTypeDatum → Option Ebitmap
  | .type _ v1, .type _ v2 => some (if v1 = v2 then typeBitmap v1 else {})
  | .attr _ types, .type _ v => some (if types.has v then typeBitmap v else {})
  | .type _ v, .attr _ types => some (if types.has v then typeBitmap v else {})
  | .attr _ types1, .attr _ types2 => ebitmapAnd types1.1 types2.1

/-- `s1` is matched with `self`, `s2` and `t2` are of the other rule. -/
def cilSelfMatchAny (s1 s2 t2 : CilTypeDatum) : Option Bool :=
  match s1 with
  | .type _ _ => some (cilTypeMatchAny s1 t2)
  | .attr _ types =>
    (cilTypeMatches s2 t2).map fun map => if map.node.isEmpty then false else ebitmapMatchAny map types.1

/-! ## Class permissions in common -/

def cilClasspermsMatchAny (c1 : CilClass) (perms1 : List CilPerm) (c2 : CilClass) (perms2 : List CilPerm) : Bool :=
  c1.id == c2.id && perms1.any fun p1 => perms2.any fun p2 => p1.id == p2.id

mutual

/-- `__cil_classperms_list_match_any`: one class and its permissions against a list. -/
def entryMatchAny (c : CilClass) (perms : List CilPerm) : List Classperms → Bool
  | [] => false
  | cp :: l => entryMatchOne c perms cp || entryMatchAny c perms l

def entryMatchOne (c : CilClass) (perms : List CilPerm) : Classperms → Bool
  | .perms c2 perms2 => cilClasspermsMatchAny c perms c2 perms2
  | .map lists => entryMatchLists c perms lists
  | .set l => entryMatchAny c perms l

def entryMatchLists (c : CilClass) (perms : List CilPerm) : List (List Classperms) → Bool
  | [] => false
  | l :: lists => entryMatchAny c perms l || entryMatchLists c perms lists

end

mutual

/-- `cil_classperms_list_match_any` -/
def cilClasspermsListMatchAny (cpl2 : List Classperms) : List Classperms → Bool
  | [] => false
  | cp :: l => classpermsMatchOne cpl2 cp || cilClasspermsListMatchAny cpl2 l

def classpermsMatchOne (cpl2 : List Classperms) : Classperms → Bool
  | .perms c perms => entryMatchAny c perms cpl2
  | .map lists => classpermsMatchLists cpl2 lists
  | .set l => cilClasspermsListMatchAny cpl2 l

def classpermsMatchLists (cpl2 : List Classperms) : List (List Classperms) → Bool
  | [] => false
  | l :: lists => cilClasspermsListMatchAny cpl2 l || classpermsMatchLists cpl2 lists

end

/-! ## The search -/

/-- The targets of two rules whose sources meet; `none` when a bitmap cannot be built. -/
def targetsMatchAny (s1 : CilTypeDatum) (t1 : Option CilTypeDatum) (s2 : CilTypeDatum) (t2 : Option CilTypeDatum) :
    Option Bool :=
  match t1, t2 with
  | some t1, some t2 => some (cilTypeMatchAny t1 t2)
  | none, none => some true
  | none, some t2 => cilSelfMatchAny s1 s2 t2
  | some t1, none => cilSelfMatchAny s2 s1 t1

/-- Whether the rule is one the search reports. -/
def cilFindMatchingAvrule (avrule target : CilAvrule) : Option Bool :=
  if avrule.ruleKind ≠ target.ruleKind then some false
  else if !cilTypeMatchAny avrule.src target.src then some false
  else
    (targetsMatchAny avrule.src avrule.tgt target.src target.tgt).map fun meet =>
      meet && cilClasspermsListMatchAny target.classperms avrule.classperms

mutual

/-- `cil_find_matching_avrule_in_ast` below a node: the rules found, in the order of the tree. -/
def findMatching (target : CilAvrule) : List Tree → Option (List CilAvrule)
  | [] => some []
  | t :: l => (findMatchingNode target t).bind fun here => (findMatching target l).map fun rest => here ++ rest

def findMatchingNode (target : CilAvrule) : Tree → Option (List CilAvrule)
  | .node (.block true) _ => some []
  | .node .macroBody _ => some []
  | .node (.avrule rule) children =>
    (cilFindMatchingAvrule rule target).bind fun found =>
      (findMatching target children).map fun below => (if found then [rule] else []) ++ below
  | .node _ children => findMatching target children

end

end SELinux.Cil
