/-
  Corium.Authz.Refresh — one authorizer under concurrent checks and refreshes
  (`crates/corium-authz/src/authorizer.rs`: `refresh`, `spawn_refresh`, `decide`,
  `CheckCache`).

  The installed policy and the check cache are shared, each behind its own lock,
  and no lock spans two of these steps:

  * a refresh reads a snapshot of the source, compares its basis with the
    installed policy's, compiles, installs, and retargets the cache;
  * a check takes the installed policy (pinned) or the one its own refresh
    returns (fresh), looks its key up in the cache, and on a miss decides and
    puts the decision in.

  `cache_transparent`: the cache is keyed by the policy's basis, so it never mixes
  policies, whatever the interleaving; but its key joins free strings. Where these
  hold none of the separators, every decision is the one its policy gives.
  `policy_never_goes_back`: a refresh installs what it compiled without looking at
  what was installed meanwhile, so the installed basis grows only if refreshes do
  not overlap.

  Left out: what is answered when the source cannot be read (`unavailable`).
-/

import Corium.Authz.CacheKey

namespace Corium.Authz

open Corium.Lib List

/-! ## The check cache -/

structure CheckCache where
  basisT : Nat
  entries : List (CacheKey × AuthzDecision)

namespace CheckCache

def retarget (cache : CheckCache) (basisT : Nat) : CheckCache :=
  if cache.basisT ≠ basisT then { basisT, entries := [] } else cache

/-- Looked up in the retargeted cache. -/
def get (cache : CheckCache) (basisT : Nat) (key : CacheKey) : Option AuthzDecision :=
  (cache.retarget basisT).entries.lookup key

/-- A full cache is emptied first. -/
def put (cache : CheckCache) (capacity basisT : Nat) (key : CacheKey) (decision : AuthzDecision) : CheckCache :=
  let cache := cache.retarget basisT
  let entries := if capacity ≤ cache.entries.length then [] else cache.entries
  { cache with entries := (key, decision) :: entries.filter fun x => x.1 ≠ key }

end CheckCache

/-! ## Steps -/

structure Request where
  principal : Principal
  access : Access

inductive Stage where
  /-- The snapshot read has this basis. -/
  | read (t : Nat)
  | compiled (policy : Policy)
  /-- Installed, the cache not yet retargeted. -/
  | installed (policy : Policy)

structure RefreshTask where
  stage : Stage
  /-- The check that waits for it, none for the background task. -/
  waiting : Option Request

structure CheckTask where
  request : Request
  policy : Policy
  missed : Bool

structure Made where
  request : Request
  /-- The policy the check took. -/
  policy : Policy
  decision : AuthzDecision

structure Sys where
  /-- The basis of the source. -/
  sourceT : Nat
  policy : Option Policy
  cache : CheckCache
  refreshes : List RefreshTask
  checks : List CheckTask
  made : List Made

def Sys.start (sourceT : Nat) : Sys :=
  { sourceT, policy := none, cache := ⟨0, []⟩, refreshes := [], checks := [], made := [] }

/-- A refresh that is done hands its policy to the check waiting for it. -/
def RefreshTask.done (task : RefreshTask) (policy : Policy) : List CheckTask :=
  (task.waiting.map fun request => ⟨request, policy, false⟩).toList

inductive Event where
  | advance
  /-- A refresh starts, for a check or in the background. -/
  | refresh (waiting : Option Request)
  | pinned (request : Request)
  /-- A refresh or a check goes on. -/
  | work

section Steps

variable (c : AuthzConfig) (source : Nat → Option Policy)

inductive Step : Sys → Event → Sys → Prop
  | advance {s : Sys} {t : Nat} : s.sourceT ≤ t → Step s .advance { s with sourceT := t }
  | read {s : Sys} (waiting : Option Request) :
      Step s (.refresh waiting) { s with refreshes := ⟨.read s.sourceT, waiting⟩ :: s.refreshes }
  | unchanged {s : Sys} {l r : List RefreshTask} {task : RefreshTask} {p : Policy} : s.refreshes = l ++ task :: r →
      task.stage = .read p.basisT → s.policy = some p →
      Step s .work { s with refreshes := l ++ r, checks := task.done p ++ s.checks }
  | compile {s : Sys} {l r : List RefreshTask} {waiting : Option Request} {t : Nat} {p : Policy} :
      s.refreshes = l ++ ⟨.read t, waiting⟩ :: r → (∀ q, s.policy = some q → q.basisT ≠ t) → source t = some p →
      Step s .work { s with refreshes := l ++ ⟨.compiled p, waiting⟩ :: r }
  /-- The snapshot cannot be read or does not compile. -/
  | fail {s : Sys} {l r : List RefreshTask} {waiting : Option Request} {t : Nat} :
      s.refreshes = l ++ ⟨.read t, waiting⟩ :: r → Step s .work { s with refreshes := l ++ r }
  | install {s : Sys} {l r : List RefreshTask} {waiting : Option Request} {p : Policy} :
      s.refreshes = l ++ ⟨.compiled p, waiting⟩ :: r →
      Step s .work { s with policy := some p, refreshes := l ++ ⟨.installed p, waiting⟩ :: r }
  | retarget {s : Sys} {l r : List RefreshTask} {task : RefreshTask} {p : Policy} : s.refreshes = l ++ task :: r →
      task.stage = .installed p →
      Step s .work
        { s with cache := s.cache.retarget p.basisT, refreshes := l ++ r, checks := task.done p ++ s.checks }
  | pinned {s : Sys} {p : Policy} (request : Request) : s.policy = some p →
      Step s (.pinned request) { s with checks := ⟨request, p, false⟩ :: s.checks }
  | hit {s : Sys} {l r : List CheckTask} {request : Request} {p : Policy} {d : AuthzDecision} :
      s.checks = l ++ ⟨request, p, false⟩ :: r → 0 < c.checkCacheCapacity →
      s.cache.get p.basisT (cacheKey c p request.principal request.access) = some d →
      Step s .work
        { s with cache := s.cache.retarget p.basisT, checks := l ++ r, made := ⟨request, p, d⟩ :: s.made }
  | miss {s : Sys} {l r : List CheckTask} {request : Request} {p : Policy} :
      s.checks = l ++ ⟨request, p, false⟩ :: r → 0 < c.checkCacheCapacity →
      s.cache.get p.basisT (cacheKey c p request.principal request.access) = none →
      Step s .work { s with cache := s.cache.retarget p.basisT, checks := l ++ ⟨request, p, true⟩ :: r }
  | put {s : Sys} {l r : List CheckTask} {request : Request} {p : Policy} :
      s.checks = l ++ ⟨request, p, true⟩ :: r →
      Step s .work
        { s with
          cache := s.cache.put c.checkCacheCapacity p.basisT (cacheKey c p request.principal request.access)
            (decideAt c p request.principal request.access)
          checks := l ++ r
          made := ⟨request, p, decideAt c p request.principal request.access⟩ :: s.made }
  /-- Without a cache. -/
  | decide {s : Sys} {l r : List CheckTask} {request : Request} {p : Policy} :
      s.checks = l ++ ⟨request, p, false⟩ :: r → c.checkCacheCapacity = 0 →
      Step s .work
        { s with checks := l ++ r, made := ⟨request, p, decideAt c p request.principal request.access⟩ :: s.made }

/-- Runs whose events all meet `P`. -/
inductive Reaches (P : Sys → Event → Prop) (s₀ : Sys) : Sys → Prop
  | refl : Reaches P s₀ s₀
  | step {s s' : Sys} {e : Event} : Reaches P s₀ s → P s e → Step c source s e s' → Reaches P s₀ s'

end Steps

theorem forall_mem_middle {α : Type} {P : α → Prop} {l r : List α} {x : α} :
    (∀ y ∈ l ++ x :: r, P y) ↔ P x ∧ ∀ y ∈ l ++ r, P y := by
  simp only [mem_append, mem_cons]
  constructor
  · exact fun h => ⟨h x (.inr (.inl rfl)), fun y hy => h y (hy.imp_right .inr)⟩
  · rintro ⟨hx, h⟩ y (hy | rfl | hy)
    · exact h y (.inl hy)
    · exact hx
    · exact h y (.inr hy)

/-! ## The cache is transparent -/

section Cache

variable {c : AuthzConfig} {source : Nat → Option Policy}

/-- No separator in what the request's cache key is made of. -/
structure PlainRequest (c : AuthzConfig) (request : Request) : Prop where
  principal : PlainPrincipal c.mapping request.principal
  access : PlainAccess request.access

def PlainRequests (c : AuthzConfig) (_ : Sys) : Event → Prop
  | .refresh (some request) => PlainRequest c request
  | .pinned request => PlainRequest c request
  | _ => True

/-- The policy is the source's at its basis. -/
def FromSource (source : Nat → Option Policy) (p : Policy) : Prop := source p.basisT = some p

/-- Every entry is the decision of the cache's basis for some request of its key. -/
def CheckCache.Justified (c : AuthzConfig) (source : Nat → Option Policy) (cache : CheckCache) : Prop :=
  ∀ x ∈ cache.entries, ∃ request p, PlainRequest c request ∧ source cache.basisT = some p ∧
    x.1 = cacheKey c p request.principal request.access ∧ x.2 = decideAt c p request.principal request.access

theorem CheckCache.retarget_basisT (cache : CheckCache) (basisT : Nat) : (cache.retarget basisT).basisT = basisT := by
  unfold CheckCache.retarget
  split
  · rfl
  · rename_i h
    exact not_not.mp h

theorem CheckCache.Justified.retarget {cache : CheckCache} (h : cache.Justified c source) (basisT : Nat) :
    (cache.retarget basisT).Justified c source := by
  unfold CheckCache.retarget
  split
  · exact nofun
  · exact h

variable {p : Policy}

theorem CheckCache.Justified.get {cache : CheckCache} (h : cache.Justified c source) (hc : PlainConfig c)
    (hp : FromSource source p) {request : Request} (hr : PlainRequest c request) {d : AuthzDecision}
    (hget : cache.get p.basisT (cacheKey c p request.principal request.access) = some d) :
    d = decideAt c p request.principal request.access := by
  obtain ⟨l, r, hentries, -⟩ := lookup_eq_some_iff.mp hget
  obtain ⟨request', p', hr', hp', hkey, rfl⟩ := h.retarget p.basisT _ (hentries ▸ mem_append_right _ mem_cons_self)
  rw [CheckCache.retarget_basisT, hp] at hp'
  cases hp'
  exact (decideAt_of_cacheKey hc hr.principal hr'.principal hr.access hr'.access hkey).symm

theorem CheckCache.Justified.put {cache : CheckCache} (h : cache.Justified c source) (capacity : Nat) {p : Policy}
    (hp : FromSource source p) {request : Request} (hr : PlainRequest c request) :
    (cache.put capacity p.basisT (cacheKey c p request.principal request.access)
      (decideAt c p request.principal request.access)).Justified c source := by
  have hbasis := cache.retarget_basisT p.basisT
  intro x hx
  rcases mem_cons.mp hx with rfl | hx
  · refine ⟨request, p, hr, ?_, rfl, rfl⟩
    show source (cache.retarget p.basisT).basisT = some p
    rw [hbasis]
    exact hp
  · refine h.retarget p.basisT x ?_
    have hmem := mem_of_mem_filter hx
    split at hmem
    · cases hmem
    · exact hmem

def RefreshTask.Sound (c : AuthzConfig) (source : Nat → Option Policy) (task : RefreshTask) : Prop :=
  (∀ request, task.waiting = some request → PlainRequest c request) ∧
    match task.stage with
    | .read _ => True
    | .compiled p | .installed p => FromSource source p

structure CheckTask.Sound (c : AuthzConfig) (source : Nat → Option Policy) (check : CheckTask) : Prop where
  request : PlainRequest c check.request
  policy : FromSource source check.policy

structure Transparent (c : AuthzConfig) (source : Nat → Option Policy) (s : Sys) : Prop where
  policy : ∀ p, s.policy = some p → FromSource source p
  refreshes : ∀ task ∈ s.refreshes, task.Sound c source
  checks : ∀ check ∈ s.checks, check.Sound c source
  cache : s.cache.Justified c source
  made : ∀ m ∈ s.made, m.decision = decideAt c m.policy m.request.principal m.request.access

theorem RefreshTask.Sound.done {task : RefreshTask} (h : task.Sound c source) {checks : List CheckTask}
    (hchecks : ∀ check ∈ checks, check.Sound c source) (hp : FromSource source p) :
    ∀ check ∈ task.done p ++ checks, check.Sound c source := by
  intro check hcheck
  rcases mem_append.mp hcheck with hcheck | hcheck
  · obtain ⟨request, hr, rfl⟩ := Option.mem_map.mp (Option.mem_toList.mp hcheck)
    exact ⟨h.1 request hr, hp⟩
  · exact hchecks check hcheck

theorem Transparent.step (hc : PlainConfig c) (hsource : ∀ t p, source t = some p → p.basisT = t) {s s' : Sys}
    {e : Event} (h : Transparent c source s) (he : PlainRequests c s e) (hstep : Step c source s e s') :
    Transparent c source s' := by
  cases hstep with
  | advance => exact ⟨h.policy, h.refreshes, h.checks, h.cache, h.made⟩
  | read waiting =>
    refine ⟨h.policy, forall_mem_cons.mpr ⟨⟨fun request hw => ?_, trivial⟩, h.refreshes⟩, h.checks, h.cache, h.made⟩
    change waiting = some request at hw
    subst hw
    exact he
  | @unchanged l r task p hs hread hp =>
    obtain ⟨htask, hrest⟩ := forall_mem_middle.mp (hs ▸ h.refreshes)
    exact ⟨h.policy, hrest, htask.done h.checks (h.policy p hp), h.cache, h.made⟩
  | @compile l r waiting t p hs hne hsrc =>
    obtain ⟨htask, hrest⟩ := forall_mem_middle.mp (hs ▸ h.refreshes)
    refine ⟨h.policy, forall_mem_middle.mpr ⟨⟨htask.1, ?_⟩, hrest⟩, h.checks, h.cache, h.made⟩
    show source p.basisT = some p
    rw [hsource t p hsrc]
    exact hsrc
  | @fail l r waiting t hs =>
    exact ⟨h.policy, (forall_mem_middle.mp (hs ▸ h.refreshes)).2, h.checks, h.cache, h.made⟩
  | @install l r waiting p hs =>
    obtain ⟨htask, hrest⟩ := forall_mem_middle.mp (hs ▸ h.refreshes)
    refine ⟨?_, forall_mem_middle.mpr ⟨htask, hrest⟩, h.checks, h.cache, h.made⟩
    rintro q ⟨⟩
    exact htask.2
  | @retarget l r task p hs hstage =>
    obtain ⟨htask, hrest⟩ := forall_mem_middle.mp (hs ▸ h.refreshes)
    have hp := htask.2
    rw [hstage] at hp
    exact ⟨h.policy, hrest, htask.done h.checks hp, h.cache.retarget _, h.made⟩
  | pinned request hp =>
    exact ⟨h.policy, h.refreshes, forall_mem_cons.mpr ⟨⟨he, h.policy _ hp⟩, h.checks⟩, h.cache, h.made⟩
  | @hit l r request p d hs _ hget =>
    obtain ⟨hcheck, hrest⟩ := forall_mem_middle.mp (hs ▸ h.checks)
    exact ⟨h.policy, h.refreshes, hrest, h.cache.retarget _,
      forall_mem_cons.mpr ⟨h.cache.get hc hcheck.policy hcheck.request hget, h.made⟩⟩
  | @miss l r request p hs _ _ =>
    obtain ⟨hcheck, hrest⟩ := forall_mem_middle.mp (hs ▸ h.checks)
    exact ⟨h.policy, h.refreshes, forall_mem_middle.mpr ⟨⟨hcheck.request, hcheck.policy⟩, hrest⟩, h.cache.retarget _, h.made⟩
  | @put l r request p hs =>
    obtain ⟨hcheck, hrest⟩ := forall_mem_middle.mp (hs ▸ h.checks)
    refine ⟨h.policy, h.refreshes, hrest, h.cache.put _ hcheck.policy hcheck.request, fun m hm => ?_⟩
    rcases mem_cons.mp hm with rfl | hm
    · rfl
    · exact h.made m hm
  | @decide l r request p hs _ =>
    refine ⟨h.policy, h.refreshes, (forall_mem_middle.mp (hs ▸ h.checks)).2, h.cache, fun m hm => ?_⟩
    rcases mem_cons.mp hm with rfl | hm
    · rfl
    · exact h.made m hm

/-- Under any interleaving of checks and refreshes whose strings hold no separator, a
    decision is the one its policy gives without the cache. -/
theorem cache_transparent (hc : PlainConfig c) (hsource : ∀ t p, source t = some p → p.basisT = t) {t₀ : Nat} {s : Sys}
    (h : Reaches c source (PlainRequests c) (Sys.start t₀) s) :
    ∀ m ∈ s.made, m.decision = decideAt c m.policy m.request.principal m.request.access := by
  have htransparent : Transparent c source s := by
    induction h with
    | refl => exact ⟨nofun, forall_mem_nil _, forall_mem_nil _, forall_mem_nil _, forall_mem_nil _⟩
    | step _ he hstep ih => exact ih.step hc hsource he hstep
  exact htransparent.made

end Cache

namespace SharedKeyExample

def config : AuthzConfig := { TenantExample.config with checkCacheCapacity := 16 }

/-- `role:admin owner database:music`, and owners may query. -/
def policy : Policy :=
  { Policy.empty with
    basisT := 1
    byObject := (∅ : Std.ExtTreeMap (ObjectRef × String) (List SubjectRef)).insert (⟨"database", "music"⟩, "owner")
      [⟨⟨"role", "admin"⟩, none⟩]
    permissions := (∅ : Std.ExtTreeMap (String × String) (Std.ExtTreeSet String)).insert ("database", "query")
      ((∅ : Std.ExtTreeSet String).insert "owner") }

def source (t : Nat) : Option Policy := if t = 1 then some policy else none

/-- The subject `alice` in the role `admin`. -/
def admin : Request :=
  ⟨{ subject := "alice", provider := "oidc", roles := (∅ : Std.ExtTreeSet String).insert "admin", claims := ∅ },
    ⟨.query, some "music"⟩⟩

/-- The subject `alice|admin`, in no role. -/
def other : Request :=
  ⟨{ subject := "alice|admin", provider := "oidc", roles := ∅, claims := ∅ }, ⟨.query, some "music"⟩⟩

def key : CacheKey := cacheKey config policy admin.principal admin.access

def allowed : AuthzDecision := decideAt config policy admin.principal admin.access

theorem same_key : cacheKey config policy other.principal other.access = key := by decide

/-- With the policy installed and no refresh under way. -/
def sys (cache : CheckCache) (checks : List CheckTask) (made : List Made) : Sys :=
  { sourceT := 1, policy := some policy, cache, refreshes := [], checks, made }

/-- After the first check. -/
def cached : Sys := sys ⟨1, [(key, allowed)]⟩ [] [⟨admin, policy, allowed⟩]

theorem get_empty (k : CacheKey) : (CheckCache.mk 1 []).get 1 k = none := rfl

theorem put_empty : (CheckCache.mk 1 []).put 16 1 key allowed = ⟨1, [(key, allowed)]⟩ := rfl

theorem get_key : (CheckCache.mk 1 [(key, allowed)]).get 1 key = some allowed := by
  simp [CheckCache.get, CheckCache.retarget]

theorem reaches_installed {P : Sys → Event → Prop} (hwork : ∀ s, P s .work) (hread : ∀ s, P s (.refresh none)) :
    Reaches config source P (Sys.start 1) (sys ⟨1, []⟩ [] []) := by
  have hinstall : Reaches config source P (Sys.start 1) { sys ⟨0, []⟩ [] [] with refreshes := [⟨.installed policy, none⟩] } :=
    .step (.step (.step .refl (hread _) (.read none))
      (hwork _) (.compile (l := []) (r := []) (p := policy) rfl nofun rfl))
      (hwork _) (.install (l := []) (r := []) rfl)
  refine .step hinstall (hwork _) ?_
  have h := @Step.retarget config source { sys ⟨0, []⟩ [] [] with refreshes := [⟨.installed policy, none⟩] } [] []
    ⟨.installed policy, none⟩ policy rfl rfl
  rwa [show CheckCache.retarget _ policy.basisT = ⟨1, []⟩ from rfl] at h

theorem reaches_cached {P : Sys → Event → Prop} (hwork : ∀ s, P s .work) (hread : ∀ s, P s (.refresh none))
    (hadmin : ∀ s, P s (.pinned admin)) : Reaches config source P (Sys.start 1) cached := by
  have hpinned := Reaches.step (reaches_installed hwork hread) (hadmin _) (.pinned admin rfl)
  have hmiss : Step config source (sys ⟨1, []⟩ [⟨admin, policy, false⟩] []) .work
      (sys ⟨1, []⟩ [⟨admin, policy, true⟩] []) :=
    @Step.miss config source (sys ⟨1, []⟩ [⟨admin, policy, false⟩] []) [] [] admin policy rfl (by decide) (get_empty _)
  have hput : Step config source (sys ⟨1, []⟩ [⟨admin, policy, true⟩] []) .work cached := by
    have h := @Step.put config source (sys ⟨1, []⟩ [⟨admin, policy, true⟩] []) [] [] admin policy rfl
    have hcache := put_empty
    unfold key allowed at hcache
    rwa [show (sys ⟨1, []⟩ [⟨admin, policy, true⟩] []).cache = CheckCache.mk 1 [] from rfl,
      show config.checkCacheCapacity = 16 from rfl, show policy.basisT = 1 from rfl, hcache] at h
  exact .step (.step hpinned (hwork _) hmiss) (hwork _) hput

def answered : Sys := sys ⟨1, [(key, allowed)]⟩ [] [⟨other, policy, allowed⟩, ⟨admin, policy, allowed⟩]

/-- `alice|admin` has the key of `alice` in the role `admin`, and gets the decision
    cached for it. -/
theorem shared_key_shares_decision : Reaches config source (fun _ _ => True) (Sys.start 1) answered ∧
    Made.mk other policy allowed ∈ answered.made ∧ allowed.isAllowed = true ∧
    (decideAt config policy other.principal other.access).isAllowed = false := by
  refine ⟨?_, mem_cons_self, by decide, by decide⟩
  have hpinned := Reaches.step (@reaches_cached (fun _ _ => True) (fun _ => trivial) (fun _ => trivial) (fun _ => trivial))
    trivial (.pinned other rfl)
  refine .step hpinned trivial (@Step.hit config source
    (sys ⟨1, [(key, allowed)]⟩ [⟨other, policy, false⟩] [⟨admin, policy, allowed⟩]) [] [] other policy allowed rfl
    (by decide) ?_)
  rw [same_key]
  exact get_key

theorem plain_admin : PlainRequest config admin := by
  refine ⟨⟨by decide, by decide, by decide, forall_mem_nil _⟩, ?_⟩
  rintro _ ⟨⟩
  decide

theorem plain_config : PlainConfig config := ⟨forall_mem_nil _, by decide, by decide⟩

theorem cache_transparent_admin :
    cached.made.length = 1 ∧ ∀ m ∈ cached.made, m.decision = decideAt config m.policy m.request.principal m.request.access :=
  ⟨rfl, cache_transparent plain_config
    (fun t p h => by
      unfold source at h
      split at h
      · cases h; rename_i ht; exact ht.symm
      · cases h)
    (reaches_cached (P := PlainRequests config) (fun _ => trivial) (fun _ => trivial) (fun _ => plain_admin))⟩

end SharedKeyExample

/-! ## The installed policy -/

section Installed

variable {c : AuthzConfig} {source : Nat → Option Policy}

/-- The basis a decision of now is made from, zero before the first policy. -/
def Sys.installedT (s : Sys) : Nat := (s.policy.map (·.basisT)).getD 0

/-- No refresh starts while another is under way. -/
def OneRefresh (s : Sys) : Event → Prop
  | .refresh _ => s.refreshes = []
  | _ => True

/-- What a refresh under way may still do to the installed basis. -/
def RefreshTask.Ahead (s : Sys) (task : RefreshTask) : Prop :=
  match task.stage with
  | .read t => s.installedT ≤ t ∧ t ≤ s.sourceT
  | .compiled p => s.installedT ≤ p.basisT ∧ p.basisT ≤ s.sourceT
  | .installed p => s.policy = some p

/-- One refresh at most, ahead of what is installed; nothing decided from a later basis. -/
structure Forward (s : Sys) : Prop where
  alone : s.refreshes.length ≤ 1
  ahead : ∀ task ∈ s.refreshes, task.Ahead s
  bounded : s.installedT ≤ s.sourceT
  checks : ∀ check ∈ s.checks, check.policy.basisT ≤ s.installedT
  made : ∀ m ∈ s.made, m.policy.basisT ≤ s.installedT

theorem alone_cons {α : Type} {l r : List α} {x : α} (h : (l ++ x :: r).length ≤ 1) : l = [] ∧ r = [] := by
  rw [length_append, length_cons] at h
  exact ⟨length_eq_zero_iff.mp (by omega), length_eq_zero_iff.mp (by omega)⟩

variable {s : Sys} {t₀ : Nat}

/-- A refresh that ends leaves none, and at most one check with the policy it returns. -/
theorem Forward.done (h : Forward s) {l r : List RefreshTask} {task : RefreshTask}
    (hs : s.refreshes = l ++ task :: r) (cache : CheckCache) {p : Policy} (hp : p.basisT ≤ s.installedT) :
    Forward { s with cache, refreshes := l ++ r, checks := task.done p ++ s.checks } := by
  have halone := h.alone
  rw [hs] at halone
  obtain ⟨rfl, rfl⟩ := alone_cons halone
  refine ⟨Nat.zero_le _, nofun, h.bounded, fun check hc => ?_, h.made⟩
  rcases mem_append.mp hc with hc | hc
  · obtain ⟨request, -, rfl⟩ := Option.mem_map.mp (Option.mem_toList.mp hc)
    exact hp
  · exact h.checks check hc

theorem Forward.decided (h : Forward s) {l r : List CheckTask} {check : CheckTask}
    (hs : s.checks = l ++ check :: r) (cache : CheckCache) {m : Made} (hm : m.policy = check.policy) :
    Forward { s with cache, checks := l ++ r, made := m :: s.made } := by
  obtain ⟨hcheck, hrest⟩ := forall_mem_middle.mp (hs ▸ h.checks)
  exact ⟨h.alone, h.ahead, h.bounded, hrest, forall_mem_cons.mpr ⟨hm ▸ hcheck, h.made⟩⟩

theorem Forward.step (hsource : ∀ t p, source t = some p → p.basisT = t) {s s' : Sys} {e : Event} (h : Forward s)
    (he : OneRefresh s e) (hstep : Step c source s e s') : Forward s' ∧ s.installedT ≤ s'.installedT := by
  cases hstep with
  | advance ht =>
    refine ⟨⟨h.alone, fun task htask => ?_, h.bounded.trans ht, h.checks, h.made⟩, Nat.le_refl _⟩
    have hahead := h.ahead task htask
    unfold RefreshTask.Ahead at hahead ⊢
    split at hahead
    · exact ⟨hahead.1, hahead.2.trans ht⟩
    · exact ⟨hahead.1, hahead.2.trans ht⟩
    · exact hahead
  | read waiting =>
    change s.refreshes = [] at he
    refine ⟨⟨by simp [he], fun task htask => ?_, h.bounded, h.checks, h.made⟩, Nat.le_refl _⟩
    simp only [he, mem_singleton] at htask
    subst htask
    exact ⟨h.bounded, Nat.le_refl _⟩
  | @unchanged l r task p hs hread hp =>
    refine ⟨h.done hs s.cache (Nat.le_of_eq ?_), Nat.le_refl _⟩
    simp [Sys.installedT, hp]
  | @compile l r waiting t p hs hne hsrc =>
    have halone := h.alone
    have hahead := h.ahead _ (hs ▸ mem_append_right _ mem_cons_self)
    rw [hs] at halone
    obtain ⟨rfl, rfl⟩ := alone_cons halone
    refine ⟨⟨Nat.le_refl _, fun task htask => ?_, h.bounded, h.checks, h.made⟩, Nat.le_refl _⟩
    simp only [nil_append, mem_singleton] at htask
    subst htask
    show s.installedT ≤ p.basisT ∧ p.basisT ≤ s.sourceT
    rw [hsource t p hsrc]
    exact hahead
  | @fail l r waiting t hs =>
    have halone := h.alone
    rw [hs] at halone
    obtain ⟨rfl, rfl⟩ := alone_cons halone
    exact ⟨⟨Nat.zero_le _, nofun, h.bounded, h.checks, h.made⟩, Nat.le_refl _⟩
  | @install l r waiting p hs =>
    have halone := h.alone
    have hahead : s.installedT ≤ p.basisT ∧ p.basisT ≤ s.sourceT :=
      h.ahead ⟨.compiled p, waiting⟩ (hs ▸ mem_append_right _ mem_cons_self)
    rw [hs] at halone
    obtain ⟨rfl, rfl⟩ := alone_cons halone
    refine ⟨⟨Nat.le_refl _, fun task htask => ?_, hahead.2, fun check hc => (h.checks check hc).trans hahead.1,
      fun m hm => (h.made m hm).trans hahead.1⟩, hahead.1⟩
    simp only [nil_append, mem_singleton] at htask
    subst htask
    rfl
  | @retarget l r task p hs hstage =>
    have hahead := h.ahead task (hs ▸ mem_append_right _ mem_cons_self)
    unfold RefreshTask.Ahead at hahead
    rw [hstage] at hahead
    refine ⟨h.done hs _ (Nat.le_of_eq ?_), Nat.le_refl _⟩
    simp [Sys.installedT, hahead]
  | pinned request hp =>
    refine ⟨⟨h.alone, h.ahead, h.bounded, fun check hc => ?_, h.made⟩, Nat.le_refl _⟩
    rcases mem_cons.mp hc with rfl | hc
    · simp [Sys.installedT, hp]
    · exact h.checks check hc
  | hit hs _ _ => exact ⟨h.decided hs _ rfl, Nat.le_refl _⟩
  | miss hs _ _ =>
    exact ⟨⟨h.alone, h.ahead, h.bounded, forall_mem_middle.mpr (forall_mem_middle.mp (hs ▸ h.checks)), h.made⟩, Nat.le_refl _⟩
  | put hs => exact ⟨h.decided hs _ rfl, Nat.le_refl _⟩
  | decide hs _ => exact ⟨h.decided hs s.cache rfl, Nat.le_refl _⟩

theorem Reaches.forward (hsource : ∀ t p, source t = some p → p.basisT = t)
    (h : Reaches c source OneRefresh (Sys.start t₀) s) : Forward s := by
  induction h with
  | refl =>
    exact ⟨Nat.zero_le _, forall_mem_nil _, Nat.zero_le _, forall_mem_nil _, forall_mem_nil _⟩
  | step _ he hstep ih => exact (ih.step hsource he hstep).1

/-- Where refreshes do not overlap the installed basis never falls, and a pinned check
    takes a policy no older than any decision was made from. -/
theorem policy_never_goes_back (hsource : ∀ t p, source t = some p → p.basisT = t) {t₀ : Nat} {s : Sys}
    (h : Reaches c source OneRefresh (Sys.start t₀) s) :
    (∀ e s', OneRefresh s e → Step c source s e s' → s.installedT ≤ s'.installedT) ∧
      ∀ m ∈ s.made, ∀ p, s.policy = some p → m.policy.basisT ≤ p.basisT := by
  have hforward := h.forward hsource
  refine ⟨fun e s' he hstep => (hforward.step hsource he hstep).2, fun m hm p hp => ?_⟩
  have := hforward.made m hm
  simpa [Sys.installedT, hp] using this

end Installed

namespace OverlapExample

open TenantExample (config alice music)

def policyAt (t : Nat) : Policy := { Policy.empty with basisT := t }

def source (t : Nat) : Option Policy := some (policyAt t)

def request : Request := ⟨alice, music⟩

def decided (t : Nat) : Made := ⟨request, policyAt t, decideAt config (policyAt t) alice music⟩

/-- The background refresh has read basis 1; a fresh check has since refreshed to basis 2
    and decided. -/
def overtaken : Sys :=
  { sourceT := 2, policy := some (policyAt 2), cache := ⟨2, []⟩, refreshes := [⟨.read 1, none⟩], checks := []
    made := [decided 2] }

theorem reaches_overtaken : Reaches config source (fun _ _ => True) (Sys.start 1) overtaken :=
  .step (.step (.step (.step (.step (.step (.step (.step .refl trivial (.read none)) trivial (.advance (t := 2) (by decide)))
    trivial (.read (some request)))
    trivial (.compile (l := []) (r := [⟨.read 1, none⟩]) rfl nofun rfl))
    trivial (.install (l := []) rfl))
    trivial (.retarget (l := []) (p := policyAt 2) rfl rfl))
    trivial (.decide (l := []) (r := []) rfl rfl))
    trivial (.advance (t := 2) (Nat.le_refl _))

/-- The background refresh compiles what it read. -/
def late : Sys := { overtaken with refreshes := [⟨.compiled (policyAt 1), none⟩] }

def rolledBack : Sys := { overtaken with policy := some (policyAt 1), refreshes := [⟨.installed (policyAt 1), none⟩] }

/-- Of two refreshes that overlap the one that read first installs last: after a decision
    from basis 2, the policy of basis 1 is installed and answers pinned checks. -/
theorem overlapping_refresh_goes_back : Reaches config source (fun _ _ => True) (Sys.start 1) late ∧
    Step config source late .work rolledBack ∧ rolledBack.installedT < late.installedT ∧
    decided 2 ∈ rolledBack.made ∧
    Step config source rolledBack (.pinned request) { rolledBack with checks := [⟨request, policyAt 1, false⟩] } :=
  ⟨.step reaches_overtaken trivial (.compile (l := []) (r := []) rfl (by rintro q ⟨⟩; decide) rfl),
    .install (l := []) (r := []) rfl, by decide, mem_cons_self, .pinned request rfl⟩

def steady : Sys :=
  { sourceT := 1, policy := some (policyAt 1), cache := ⟨1, []⟩, refreshes := [], checks := [], made := [decided 1] }

theorem reaches_steady : Reaches config source OneRefresh (Sys.start 1) steady :=
  .step (e := .work) (.step (e := .pinned request) (.step (e := .work) (.step (e := .work) (.step (e := .work)
    (.step (e := .refresh none) .refl rfl (.read none))
    trivial (.compile (l := []) (r := []) rfl nofun rfl))
    trivial (.install (l := []) (r := []) rfl))
    trivial (.retarget (l := []) (r := []) (p := policyAt 1) rfl rfl))
    trivial (.pinned request rfl))
    trivial (.decide (l := []) (r := []) rfl rfl)

theorem policy_never_goes_back_steady :
    (∀ e s', OneRefresh steady e → Step config source steady e s' → steady.installedT ≤ s'.installedT) ∧
      ∀ m ∈ steady.made, ∀ p, steady.policy = some p → m.policy.basisT ≤ p.basisT :=
  policy_never_goes_back (by rintro t p ⟨⟩; rfl) reaches_steady

end OverlapExample

end Corium.Authz
