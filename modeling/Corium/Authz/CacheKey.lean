/-
  Corium.Authz.CacheKey — what the key of a cached decision tells
  (`crates/corium-authz/src/subject.rs`: `fingerprint`; `authorizer.rs`: `CacheKey`).

  A key is three strings: the principal's provider, subject, roles and claims
  joined by bars, the action's name, and the target objects joined by commas. The
  parts are free strings and are not escaped, so two requests may share a key
  (`Refresh.lean` has what follows). They do not where the parts hold no
  separator: the bars then delimit the fields, the equals sign tells a claim from
  a role, and the first comma ends the database's name (`decideAt_of_cacheKey`).
-/

import Corium.Authz.Authorizer
import Corium.Lib.Fields
import Mathlib.Data.List.Lex

namespace Corium.Authz

open Corium.Lib List

structure CacheKey where
  principal : String
  action : String
  object : String
  deriving DecidableEq

def cacheKey (c : AuthzConfig) (policy : Policy) (principal : Principal) (access : Access) : CacheKey :=
  { principal := fingerprint principal c.mapping, action := actionName access.action
    object := objectLabel (targetObjects c policy access) }

/-! ## Separators -/

/-- The character does not occur in the text. -/
def Lacks (sep : Char) (text : String) : Prop := sep ∉ text.toList

instance (sep : Char) (text : String) : Decidable (Lacks sep text) := inferInstanceAs (Decidable (_ ∉ _))

theorem key_value_inj {k k' v v' : String} (hk : Lacks '=' k) (hk' : Lacks '=' k')
    (h : k ++ "=" ++ v = k' ++ "=" ++ v') : k = k' ∧ v = v' := by
  have hlist := congrArg String.toList h
  simp only [String.toList_append, append_assoc] at hlist
  obtain ⟨hkey, hvalue⟩ := append_cons_inj hk hk' hlist
  exact ⟨String.toList_inj.mp hkey, String.toList_inj.mp hvalue⟩

/-! ## Fingerprints -/

/-- What the bars join. -/
def fingerprintClaims (principal : Principal) (mapping : SubjectMapping) : List String :=
  mapping.claimSubjects.filterMap fun x => (principal.claim x.1).map fun value => x.1 ++ "=" ++ value

theorem intercalate_cons {α : Type} (sep : α) (x : List α) (xs : List (List α)) :
    [sep].intercalate (x :: xs) = x ++ xs.flatMap (sep :: ·) := by
  induction xs generalizing x with
  | nil => simp [List.intercalate]
  | cons y xs ih => rw [intercalate_cons_cons, ih, flatMap_cons]; simp

theorem foldl_append_toList (texts : List String) (init : String) :
    (texts.foldl (· ++ ·) init).toList = init.toList ++ texts.flatMap String.toList := by
  induction texts generalizing init with
  | nil => simp
  | cons text texts ih => rw [foldl_cons, ih, String.toList_append, append_assoc, flatMap_cons]

theorem fingerprint_toList (principal : Principal) (mapping : SubjectMapping) :
    (fingerprint principal mapping).toList =
      ['|'].intercalate ((principal.provider :: principal.subject ::
        (principal.roles.toList ++ fingerprintClaims principal mapping)).map String.toList) := by
  have hclaims : ∀ xs : List (String × String),
      (xs.map fun x => claimText principal x.1).flatMap String.toList =
      (xs.filterMap fun x => (principal.claim x.1).map fun value => x.1 ++ "=" ++ value).flatMap ('|' :: ·.toList) := by
    intro xs
    induction xs with
    | nil => rfl
    | cons x xs ih =>
      rw [map_cons, flatMap_cons, ih, filterMap_cons, claimText]
      cases principal.claim x.1 with
      | none => simp
      | some value => simp [String.toList_append]
  unfold fingerprint fingerprintClaims
  rw [foldl_append_toList, flatMap_append, hclaims, map_cons, intercalate_cons]
  simp [flatMap_map, String.toList_append]

/-- No separator in what a fingerprint is made of. -/
structure PlainPrincipal (mapping : SubjectMapping) (principal : Principal) : Prop where
  provider : Lacks '|' principal.provider
  subject : Lacks '|' principal.subject
  roles : ∀ role ∈ principal.roles.toList, Lacks '|' role ∧ Lacks '=' role
  claims : ∀ x ∈ mapping.claimSubjects, ∀ value, principal.claim x.1 = some value → Lacks '|' value

def PlainMapping (mapping : SubjectMapping) : Prop := ∀ x ∈ mapping.claimSubjects, Lacks '|' x.1 ∧ Lacks '=' x.1

section Fingerprint

variable {mapping : SubjectMapping} {p p' : Principal}
variable {text : String}

theorem mem_fingerprintClaims : text ∈ fingerprintClaims p mapping ↔
    ∃ x ∈ mapping.claimSubjects, ∃ value, p.claim x.1 = some value ∧ text = x.1 ++ "=" ++ value := by
  simp only [fingerprintClaims, mem_filterMap, Option.map_eq_some_iff]
  constructor
  · rintro ⟨x, hx, value, hv, rfl⟩
    exact ⟨x, hx, value, hv, rfl⟩
  · rintro ⟨x, hx, value, hv, rfl⟩
    exact ⟨x, hx, value, hv, rfl⟩

theorem equals_mem_of_claim (h : text ∈ fingerprintClaims p mapping) : ¬ Lacks '=' text := by
  obtain ⟨x, -, value, -, rfl⟩ := mem_fingerprintClaims.mp h
  simp [Lacks, String.toList_append]

theorem PlainPrincipal.fields (hmap : PlainMapping mapping) (h : PlainPrincipal mapping p) :
    ∀ text ∈ (p.provider :: p.subject :: (p.roles.toList ++ fingerprintClaims p mapping)).map String.toList,
      '|' ∉ text := by
  simp only [map_cons, forall_mem_cons, mem_map, mem_append]
  refine ⟨h.provider, h.subject, ?_⟩
  rintro _ ⟨text, htext | htext, rfl⟩
  · exact (h.roles text htext).1
  · obtain ⟨x, hx, value, hv, rfl⟩ := mem_fingerprintClaims.mp htext
    have hname := (hmap x hx).1
    have hvalue := h.claims x hx value hv
    simp only [Lacks] at hname hvalue
    simp [String.toList_append, hname, hvalue]

/-- The claims a fingerprint lists are the claims there are. -/
theorem claim_of_fingerprintClaims (hmap : PlainMapping mapping) (h : fingerprintClaims p mapping = fingerprintClaims p' mapping)
    {x : String × String} (hx : x ∈ mapping.claimSubjects) {value : String} (hv : p.claim x.1 = some value) :
    p'.claim x.1 = some value := by
  have hmem : x.1 ++ "=" ++ value ∈ fingerprintClaims p' mapping := h ▸ mem_fingerprintClaims.mpr ⟨x, hx, value, hv, rfl⟩
  obtain ⟨y, hy, value', hv', htext⟩ := mem_fingerprintClaims.mp hmem
  obtain ⟨hname, rfl⟩ := key_value_inj (hmap x hx).2 (hmap y hy).2 htext
  rw [hname]
  exact hv'

/-- What two principals of one fingerprint share. -/
theorem eq_of_fingerprint (hmap : PlainMapping mapping) (h : PlainPrincipal mapping p) (h' : PlainPrincipal mapping p')
    (heq : fingerprint p mapping = fingerprint p' mapping) : p.provider = p'.provider ∧ p.subject = p'.subject ∧
      p.roles.toList = p'.roles.toList ∧ ∀ x ∈ mapping.claimSubjects, p.claim x.1 = p'.claim x.1 := by
  have hlist := congrArg String.toList heq
  rw [fingerprint_toList, fingerprint_toList] at hlist
  have hfields := congrArg (List.splitOn '|') hlist
  rw [splitOn_intercalate '|' (h.fields hmap) (by simp), splitOn_intercalate '|' (h'.fields hmap) (by simp),
    (map_injective_iff.mpr fun _ _ => String.toList_inj.mp).eq_iff] at hfields
  simp only [List.cons.injEq] at hfields
  obtain ⟨hprovider, hsubject, hrest⟩ := hfields
  -- roles have no equals sign, claims have one
  have hroles : ∀ {p : Principal}, PlainPrincipal mapping p →
      (p.roles.toList ++ fingerprintClaims p mapping).filter (Lacks '=' ·) = p.roles.toList ∧
      (p.roles.toList ++ fingerprintClaims p mapping).filter (¬ Lacks '=' ·) = fingerprintClaims p mapping := by
    intro p h
    rw [filter_append, filter_append]
    rw [filter_eq_self.mpr fun r hr => decide_eq_true (h.roles r hr).2,
      filter_eq_nil_iff.mpr fun r hr => by simpa using equals_mem_of_claim hr,
      filter_eq_nil_iff.mpr fun r hr => by simpa using (h.roles r hr).2,
      filter_eq_self.mpr fun r hr => by simpa using equals_mem_of_claim hr]
    simp
  have hr := congrArg (List.filter fun t => decide (Lacks '=' t)) hrest
  have hc := congrArg (List.filter fun t => decide (¬ Lacks '=' t)) hrest
  rw [(hroles h).1, (hroles h').1] at hr
  rw [(hroles h).2, (hroles h').2] at hc
  refine ⟨hprovider, hsubject, hr, fun x hx => ?_⟩
  cases hv : p.claim x.1 with
  | some value => exact (claim_of_fingerprintClaims hmap hc hx hv).symm
  | none =>
    cases hv' : p'.claim x.1 with
    | none => rfl
    | some value =>
      rw [claim_of_fingerprintClaims hmap hc.symm hx hv'] at hv
      cases hv

theorem subjectsOf_of_fingerprint (hmap : PlainMapping mapping) (h : PlainPrincipal mapping p)
    (h' : PlainPrincipal mapping p') (heq : fingerprint p mapping = fingerprint p' mapping) (policy : Policy) :
    subjectsOf p policy mapping = subjectsOf p' policy mapping := by
  obtain ⟨hprovider, hsubject, hroles, hclaims⟩ := eq_of_fingerprint hmap h h' heq
  have hclaimed : (mapping.claimSubjects.flatMap fun x =>
      ((p.claim x.1).map claimItems).getD [] |>.map (ObjectRef.mk x.2)) = mapping.claimSubjects.flatMap fun x =>
      ((p'.claim x.1).map claimItems).getD [] |>.map (ObjectRef.mk x.2) :=
    flatMap_congr fun x hx => by rw [hclaims x hx]
  unfold subjectsOf Principal.isAnonymous
  rw [hprovider, hsubject, hroles, hclaimed]

end Fingerprint

/-! ## Objects -/

theorem objectLabel_toList (objects : List ObjectRef) :
    (objectLabel objects).toList = [','].intercalate (objects.map fun o => o.toString.toList) := by
  simp [objectLabel, String.toList_intercalate, Function.comp_def]

variable {o o' : ObjectRef} {c : AuthzConfig} {policy : Policy} {a a' : Access}

/-- The first name of a label ends at its first comma. -/
theorem head_of_objectLabel {os os' : List ObjectRef} (ho : Lacks ',' o.toString)
    (ho' : Lacks ',' o'.toString) (h : objectLabel (o :: os) = objectLabel (o' :: os')) :
    o.toString = o'.toString ∧ (os = [] ↔ os' = []) := by
  have hlist := congrArg String.toList h
  rw [objectLabel_toList, objectLabel_toList, map_cons, map_cons, intercalate_cons, intercalate_cons] at hlist
  rcases os with _ | ⟨a, os⟩ <;> rcases os' with _ | ⟨a', os'⟩
  · simp only [map_nil, flatMap_nil, append_nil] at hlist
    exact ⟨String.toList_inj.mp hlist, by simp⟩
  · refine absurd ?_ ho
    simp only [map_nil, flatMap_nil, append_nil] at hlist
    rw [hlist]
    simp
  · refine absurd ?_ ho'
    simp only [map_nil, flatMap_nil, append_nil] at hlist
    rw [← hlist]
    simp
  · simp only [map_cons, flatMap_cons, cons_append] at hlist
    obtain ⟨hhead, -⟩ := append_cons_inj ho ho' hlist
    exact ⟨String.toList_inj.mp hhead, by simp⟩

theorem toString_inj (hk : Lacks ':' o.kind) (hk' : Lacks ':' o'.kind) (h : o.toString = o'.toString) : o = o' := by
  have hlist := congrArg String.toList h
  simp only [ObjectRef.toString, String.toList_append, append_assoc] at hlist
  obtain ⟨hkind, hid⟩ := append_cons_inj hk hk' hlist
  obtain ⟨k, i⟩ := o
  obtain ⟨k', i'⟩ := o'
  rw [ObjectRef.mk.injEq]
  exact ⟨String.toList_inj.mp hkind, String.toList_inj.mp hid⟩

/-- The configured names hold no separator. -/
structure PlainConfig (c : AuthzConfig) : Prop where
  mapping : PlainMapping c.mapping
  catalog : Lacks ',' c.catalogObject.toString
  catalogKind : Lacks ':' c.catalogObject.kind

def PlainAccess (access : Access) : Prop := ∀ database, access.database = some database → Lacks ',' database

theorem PlainAccess.toString {access : Access} (h : PlainAccess access) {database : String}
    (hd : access.database = some database) : Lacks ',' (ObjectRef.mk "database" database).toString := by
  have := h database hd
  simp only [Lacks] at this
  simp [Lacks, ObjectRef.toString, String.toList_append, this]

theorem lacks_database : Lacks ':' "database" := by decide

theorem database_toString {a b : String} (h : (ObjectRef.mk "database" a).toString = (ObjectRef.mk "database" b).toString) :
    a = b := by
  have := toString_inj lacks_database lacks_database h
  exact (ObjectRef.mk.inj this).2

/-- Equal labels of one action are of one list of objects. -/
theorem targetObjects_of_label (hc : PlainConfig c)
    (ha : PlainAccess a) (ha' : PlainAccess a') (haction : a.action = a'.action)
    (h : objectLabel (targetObjects c policy a) = objectLabel (targetObjects c policy a')) :
    targetObjects c policy a = targetObjects c policy a' := by
  have hmixed : ∀ {a : Access} {os : List ObjectRef} {d : String}, PlainAccess a → a.database = some d →
      objectLabel (⟨"database", d⟩ :: os) = objectLabel [c.catalogObject] → ⟨"database", d⟩ :: os = [c.catalogObject] := by
    intro a os d ha hd hlabel
    obtain ⟨hhead, htail⟩ := head_of_objectLabel (ha.toString hd) hc.catalog hlabel
    rw [htail.mpr rfl, toString_inj lacks_database hc.catalogKind hhead]
  unfold targetObjects at h ⊢
  cases hd : a.database with
  | none =>
    cases hd' : a'.database with
    | none => rfl
    | some d' =>
      rw [hd, hd'] at h
      exact (hmixed ha' hd' h.symm).symm
  | some d =>
    cases hd' : a'.database with
    | none =>
      rw [hd, hd'] at h
      exact hmixed ha hd h
    | some d' =>
      rw [hd, hd'] at h
      obtain ⟨hhead, -⟩ := head_of_objectLabel (ha.toString hd) (ha'.toString hd') h
      rw [database_toString hhead, haction]

/-- Requests of one key get one decision. -/
theorem decideAt_of_cacheKey (hc : PlainConfig c) {p p' : Principal}
    (hp : PlainPrincipal c.mapping p) (hp' : PlainPrincipal c.mapping p') (ha : PlainAccess a) (ha' : PlainAccess a')
    (h : cacheKey c policy p a = cacheKey c policy p' a') : decideAt c policy p a = decideAt c policy p' a' := by
  simp only [cacheKey, CacheKey.mk.injEq] at h
  obtain ⟨hprincipal, haction, hobject⟩ := h
  have haction := actionName_injective haction
  have htargets := targetObjects_of_label hc ha ha' haction hobject
  unfold decideAt queryFor
  rw [subjectsOf_of_fingerprint hc.mapping hp hp' hprincipal policy, haction, htargets]

end Corium.Authz
