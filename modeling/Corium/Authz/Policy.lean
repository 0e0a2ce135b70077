/-
  Corium.Authz.Policy — relationship policies and who a principal is
  (`crates/corium-authz/src/model.rs`, `policy.rs`, `subject.rs`, `view.rs`).

  A policy is compiled from a snapshot of the authorization database and never
  changes; `basisT` says which snapshot. Every name in it is data: relations,
  object types and ids are free strings, and so are a principal's provider,
  subject, roles and claims.

  Left out: reading the policy out of the database (any value of `Policy` stands
  for a compiled one) and its counts.
-/

import Corium.Core.Keyword

namespace Corium.Authz

open Corium.Core Corium.Lib Std

def wildcard : String := "*"

/-- A subject or protected object, written `type:id`. -/
structure ObjectRef where
  kind : String
  id : String
  deriving DecidableEq, Repr

namespace ObjectRef

def ordKey (o : ObjectRef) : Bytes × Bytes := (utf8 o.kind, utf8 o.id)

theorem ordKey_injective : Function.Injective ordKey := by
  rintro ⟨k, i⟩ ⟨k', i'⟩ h
  simp only [ordKey, Prod.mk.injEq] at h
  rw [utf8_injective h.1, utf8_injective h.2]

instance : Ord ObjectRef := ⟨fun a b => compare a.ordKey b.ordKey⟩

instance : Std.TransOrd ObjectRef where
  eq_swap {a b} := by
    show compare a.ordKey b.ordKey = (compare b.ordKey a.ordKey).swap
    exact Std.OrientedCmp.eq_swap
  isLE_trans {a b c} := by
    show (compare a.ordKey b.ordKey).isLE → (compare b.ordKey c.ordKey).isLE → (compare a.ordKey c.ordKey).isLE
    exact Std.TransCmp.isLE_trans

instance : Std.LawfulEqOrd ObjectRef where
  compare_self {a} := compare_same a.ordKey
  eq_of_compare {a b} h := by
    change compare a.ordKey b.ordKey = .eq at h
    exact ordKey_injective (eq_of_compare_eq h)

/-- Every object of this one's type. -/
def wildcardOfType (o : ObjectRef) : ObjectRef := ⟨o.kind, wildcard⟩

def isWildcard (o : ObjectRef) : Bool := o.id = wildcard

def toString (o : ObjectRef) : String := o.kind ++ ":" ++ o.id

end ObjectRef

/-- The subject half of a tuple: an object, or with a relation everyone who holds it there. -/
structure SubjectRef where
  object : ObjectRef
  relation : Option String
  deriving DecidableEq, Repr

/-- `relation` holds on an object when `onRelation` holds on what its `viaRelation` points at. -/
structure Rewrite where
  relation : String
  viaRelation : String
  onRelation : String
  /-- The object type the rule is for, any if none. -/
  objectType : Option String
  deriving DecidableEq, Repr

/-! ## Actions -/

inductive Action where
  | query
  | pull
  | datoms
  | txRange
  | subscribe
  | inspect
  | transact
  | createDatabase
  | deleteDatabase
  | forkDatabase
  | listDatabases
  | garbageCollect
  | manageIndex
  | manageKeys
  | alterSchema
  deriving DecidableEq, Repr

inductive ActionClass where
  | read
  | write
  | admin
  deriving DecidableEq, Repr

def Action.isWrite (a : Action) : Bool := a = .transact

def Action.isAdmin : Action → Bool
  | .createDatabase | .deleteDatabase | .forkDatabase | .garbageCollect | .manageIndex | .manageKeys | .alterSchema => true
  | _ => false

def ActionClass.of (a : Action) : ActionClass := if a.isAdmin then .admin else if a.isWrite then .write else .read

def actionName : Action → String
  | .query => "query"
  | .pull => "pull"
  | .datoms => "datoms"
  | .txRange => "tx-range"
  | .subscribe => "subscribe"
  | .inspect => "inspect"
  | .transact => "transact"
  | .createDatabase => "create-database"
  | .deleteDatabase => "delete-database"
  | .forkDatabase => "fork-database"
  | .listDatabases => "list-databases"
  | .garbageCollect => "garbage-collect"
  | .manageIndex => "manage-index"
  | .manageKeys => "manage-keys"
  | .alterSchema => "alter-schema"

theorem actionName_injective : Function.Injective actionName := by
  intro a b h
  cases a <;> cases b <;> first | rfl | (simp [actionName] at h)

def actionClassName : ActionClass → String
  | .read => "read"
  | .write => "write"
  | .admin => "admin"

structure Access where
  action : Action
  /-- None for what concerns the whole catalog. -/
  database : Option String
  deriving DecidableEq, Repr

/-! ## Views -/

/-- One compiled attribute filter, under the name of its view. -/
inductive ViewPart where
  | allowlist (name : String) (allowed : ExtTreeSet String)
  | denylist (name : String) (denied : ExtTreeSet String)
  deriving DecidableEq

/-- An attribute is visible when every part admits it. -/
abbrev ViewFilter := List ViewPart

/-- `view::combine`. -/
def combine (views : List ViewPart) : Option ViewFilter := if views.isEmpty then none else some views

inductive KeyGrant where
  | unrestricted
  | only (keyIds : ExtTreeSet String)
  deriving DecidableEq

def KeyGrant.isUnrestricted : KeyGrant → Bool
  | .unrestricted => true
  | .only _ => false

def KeyGrant.intersect : KeyGrant → KeyGrant → KeyGrant
  | .unrestricted, other => other
  | other, .unrestricted => other
  | .only mine, .only theirs => .only (mine.filter fun k => k ∈ theirs)

structure ReadGrant where
  view : Option ViewFilter
  keys : KeyGrant
  deriving DecidableEq

structure CompiledView where
  filter : Option ViewPart
  keys : KeyGrant

/-- Attaches a view, or full visibility, to a relation on an object. -/
structure Binding where
  view : Option String
  unfiltered : Bool

structure PrincipalDef where
  /-- Who must have vouched for it, anyone if none. -/
  provider : Option String
  roles : List String

/-! ## Compiled policies -/

structure Policy where
  basisT : Nat
  byObject : ExtTreeMap (ObjectRef × String) (List SubjectRef)
  rewrites : ExtTreeMap String (List Rewrite)
  /-- By object type and action, class or wildcard. -/
  permissions : ExtTreeMap (String × String) (ExtTreeSet String)
  views : ExtTreeMap String CompiledView
  bindings : ExtTreeMap (String × ObjectRef) Binding
  principals : ExtTreeMap String PrincipalDef
  objectsByDatabase : ExtTreeMap String (List ObjectRef)

namespace Policy

/-- It denies everything. -/
def empty : Policy :=
  { basisT := 0, byObject := ∅, rewrites := ∅, permissions := ∅, views := ∅, bindings := ∅, principals := ∅
    objectsByDatabase := ∅ }

def objectsForDatabase (p : Policy) (name : String) : List ObjectRef := p.objectsByDatabase[name]?.getD []

/-- The action, its class and `*`, each for the type and for `*`. -/
def relationsFor (p : Policy) (objectType : String) (action : Action) : ExtTreeSet String :=
  [actionName action, actionClassName (ActionClass.of action), wildcard].foldl (fun relations name =>
    [objectType, wildcard].foldl (fun relations kind =>
      (p.permissions[(kind, name)]?.getD ∅).toList.foldl (·.insert ·) relations) relations) ∅

/-- Who holds `relation` on `object`, by tuples on it or on its type. -/
def subjectsFor (p : Policy) (object : ObjectRef) (relation : String) : List SubjectRef :=
  p.byObject[(object, relation)]?.getD [] ++
    if object.isWildcard then [] else p.byObject[(object.wildcardOfType, relation)]?.getD []

def rewritesFor (p : Policy) (relation objectType : String) : List Rewrite :=
  (p.rewrites[relation]?.getD []).filter fun rule => rule.objectType.all (· = objectType)

def bindingFor (p : Policy) (relation : String) (object : ObjectRef) : Option Binding :=
  p.bindings[(relation, object)]?.or p.bindings[(relation, object.wildcardOfType)]?

end Policy

/-! ## Principals -/

structure Principal where
  subject : String
  provider : String
  roles : ExtTreeSet String
  claims : ExtTreeMap String String

namespace Principal

def isAnonymous (p : Principal) : Bool := p.provider = "anonymous"

def claim (p : Principal) (key : String) : Option String := p.claims[key]?

end Principal

structure SubjectMapping where
  /-- Claim and the type of the objects it lists. -/
  claimSubjects : List (String × String)
  requireRegisteredPrincipal : Bool

/-- The Unicode white space that `str::trim` strips. -/
def isWhitespace (c : Char) : Bool :=
  let n := c.toNat
  (9 ≤ n && n ≤ 13) || n = 0x20 || n = 0x85 || n = 0xa0 || n = 0x1680 || (0x2000 ≤ n && n ≤ 0x200a) || n = 0x2028 ||
    n = 0x2029 || n = 0x202f || n = 0x205f || n = 0x3000

def trim (cs : List Char) : List Char := ((cs.dropWhile isWhitespace).reverse.dropWhile isWhitespace).reverse

/-- What a claim lists, separated by commas or spaces. -/
def claimItems (value : String) : List String :=
  (((value.toList.splitOnP fun c => c = ',' || c = ' ').map trim).filter fun item => !item.isEmpty).map String.ofList

/-- The objects a principal is, for this request. -/
def subjectsOf (principal : Principal) (policy : Policy) (mapping : SubjectMapping) : ExtTreeSet ObjectRef :=
  let registered := policy.principals[principal.subject]?
  let providerMatches := (registered.bind (·.provider)).all (· = principal.provider)
  let admissible := providerMatches && (registered.isSome || !mapping.requireRegisteredPrincipal)
  let qualified : ObjectRef := ⟨"user", principal.provider ++ "/" ++ principal.subject⟩
  let user : List ObjectRef := if admissible then [⟨"user", principal.subject⟩] else []
  let authenticated : List ObjectRef := if principal.isAnonymous then [] else [⟨"authenticated", principal.subject⟩]
  let granted := if admissible then (registered.map (·.roles)).getD [] else []
  let roles := (principal.roles.toList ++ granted).map fun role => ObjectRef.mk "role" role
  let claimed := mapping.claimSubjects.flatMap fun x =>
    ((principal.claim x.1).map claimItems).getD [] |>.map (ObjectRef.mk x.2)
  (qualified :: user ++ authenticated ++ roles ++ claimed).foldl (·.insert ·) ∅

/-- A claim in a fingerprint, nothing if the principal does not make it. -/
def claimText (principal : Principal) (claim : String) : String :=
  match principal.claim claim with
  | some value => "|" ++ claim ++ "=" ++ value
  | none => ""

/-- The principal's part of a cache key: what `subjectsOf` reads, joined by bars. -/
def fingerprint (principal : Principal) (mapping : SubjectMapping) : String :=
  ((principal.roles.toList.map fun role => "|" ++ role) ++ mapping.claimSubjects.map fun x => claimText principal x.1).foldl
    (· ++ ·) (principal.provider ++ "|" ++ principal.subject)

end Corium.Authz
