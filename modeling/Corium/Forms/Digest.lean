/-
  Corium.Forms.Digest — what a plan digest and a schema fingerprint are hashes of
  (`SchemaPlan::digest`, `InstalledSchema::fingerprint` and `Canonical` of
  `crates/corium-core/src/migration.rs`).

  Both write a list of texts, each behind its length, and hash the bytes. The bytes are
  modelled, the hash is not. What a plan is about is its `PlanContent`: the steps without
  the order they, their acknowledgements or their dependencies are listed in. Two plans
  whose step keys are distinct, as the planner's are, write the same bytes exactly when
  their contents are equal, and so do two installed schemas
  (`canonical_bytes_bind_content`).

  A plan's database, basis, generation, observations, summaries, recipes and notes are left
  out: the digest does not read them.
-/

import Corium.Forms.SchemaTx
import Corium.Lib.Fields
import Corium.Lib.Insertion
import Mathlib.Data.List.Sort
import Mathlib.Data.Multiset.Sort

namespace Corium.Forms

open Corium.Core Corium.Lib List

/-! ## Names -/

def ExecutionClass.asStr : ExecutionClass → String
  | .additive => "additive"
  | .validateReindex => "validate-reindex"
  | .rewrite => "rewrite"
  | .destructive => "destructive"

inductive Risk where
  | low
  | medium
  | high
  deriving DecidableEq, Repr

def Risk.asStr : Risk → String
  | .low => "low"
  | .medium => "medium"
  | .high => "high"

def AckCode.asStr : AckCode → String
  | .componentEnable => "component-enable"
  | .componentDisable => "component-disable"
  | .uniqueModeChange => "unique-mode-change"
  | .noHistoryEnable => "no-history-enable"
  | .noHistoryDisable => "no-history-disable"
  | .retireLiveAttribute => "retire-live-attribute"
  | .protectionForwardOnly => "protection-forward-only"

def BlockedReason.asStr : BlockedReason → String
  | .valueTypeMutation => "value-type-mutation"
  | .uniqueDuplicates => "unique-duplicates"
  | .cardinalityConflicts => "cardinality-conflicts"
  | .everProtected => "ever-protected"
  | .protectionConflict => "protection-conflict"

/-- `unique_name`. -/
def uniqueModeName : Option Unique → String
  | none => "none"
  | some mode => uniqueName mode

def flag (b : Bool) : String := if b then "true" else "false"

/-! ## What is written -/

/-- `to_string` of a count. -/
def number (n : Nat) : String := String.ofList (digits n)

/-- `Canonical::optional`. -/
def optional : Option String → List String
  | some value => ["some", value]
  | none => ["none"]

/-- A count and the texts counted. -/
def counted (values : List String) : List String := number values.length :: values

/-- The bytes `Canonical` collects: every text behind its length. -/
def canonical (texts : List String) : Bytes := texts.flatMap fun text => field (utf8 text)

def planFormatVersion : Nat := 1

/-- A step with the parts of it that only the digest reads. -/
structure DigestedStep extends PlanStep where
  /-- `key_for` of the ident and the kind in every plan the planner makes. -/
  key : String
  installed : Option String
  desired : Option String
  risk : Risk
  dependsOn : List String
  deriving DecidableEq, Repr

structure SchemaPlan where
  desiredDigest : String
  installedFingerprint : String
  prune : Bool
  steps : List DigestedStep
  unmanaged : List String

def sortTexts (texts : List String) : List String := texts.insertionSort (· ≤ ·)

def DigestedStep.texts (s : DigestedStep) : List String :=
  s.key :: s.ident :: s.kind.asStr :: (optional s.installed ++ (optional s.desired ++ (s.cls.asStr :: s.risk.asStr ::
    (counted (sortTexts (s.acks.map AckCode.asStr)) ++ (optional (s.blocked.map BlockedReason.asStr) ++
      counted (sortTexts s.dependsOn))))))

/-- The steps by key; steps of one key stay as listed. -/
def SchemaPlan.ordered (p : SchemaPlan) : List DigestedStep := p.steps.insertionSort fun left right => left.key ≤ right.key

/-- What `SchemaPlan::digest` hashes. -/
def SchemaPlan.digestBytes (p : SchemaPlan) : Bytes :=
  canonical ("corium.schema-plan" :: number planFormatVersion :: p.desiredDigest :: p.installedFingerprint ::
    (if p.prune then "prune" else "no-prune") :: number p.ordered.length ::
      (p.ordered.flatMap DigestedStep.texts ++ counted (sortTexts p.unmanaged)))

def InstalledAttribute.texts (a : InstalledAttribute) : List String :=
  a.ident :: number a.id.partition :: number a.id.sequence :: valueTypeName a.valueType :: cardinalityName a.cardinality ::
    uniqueModeName a.unique :: flag a.indexed :: flag a.isComponent :: flag a.noHistory :: (optional a.doc ++
      (flag a.retired :: (optional a.protection ++ [flag a.everProtected, flag a.engine])))

/-- `InstalledSchema::new`: by ident, and of two attributes of one ident the later. -/
def InstalledSchema.new (attrs : List InstalledAttribute) : InstalledSchema :=
  attrs.foldl (fun s a => s.insert a.ident a) ∅

/-- What `InstalledSchema::fingerprint` hashes. -/
def InstalledSchema.fingerprintBytes (s : InstalledSchema) : Bytes :=
  canonical ("corium.installed-schema" :: number planFormatVersion :: number s.size ::
    (s.toList.map (·.2)).flatMap InstalledAttribute.texts)

/-! ## What a plan is about -/

/-- A step, whatever order its acknowledgements and dependencies are listed in. -/
structure StepContent where
  key : String
  ident : String
  kind : ChangeKind
  installed : Option String
  desired : Option String
  cls : ExecutionClass
  risk : Risk
  acks : Multiset AckCode
  blocked : Option BlockedReason
  dependsOn : Multiset String

def DigestedStep.content (s : DigestedStep) : StepContent :=
  ⟨s.key, s.ident, s.kind, s.installed, s.desired, s.cls, s.risk, s.acks, s.blocked, s.dependsOn⟩

/-- A plan, whatever order its steps are listed in. -/
structure PlanContent where
  desiredDigest : String
  installedFingerprint : String
  prune : Bool
  steps : Multiset StepContent
  unmanaged : Multiset String

def SchemaPlan.content (p : SchemaPlan) : PlanContent :=
  ⟨p.desiredDigest, p.installedFingerprint, p.prune, p.steps.map DigestedStep.content, p.unmanaged⟩

/-! ## Names are told apart -/

section Names

theorem ChangeKind.asStr_injective : Function.Injective ChangeKind.asStr := by
  intro a b h
  rcases a with _ | _ | p <;> rcases b with _ | _ | q
  case property.property => cases p <;> cases q <;> first | rfl | exact absurd h (by decide)
  all_goals first | rfl | (cases p; all_goals exact absurd h (by decide)) | (cases q; all_goals exact absurd h (by decide)) | exact absurd h (by decide)

theorem ExecutionClass.asStr_injective : Function.Injective ExecutionClass.asStr := by
  intro a b h
  cases a <;> cases b <;> first | rfl | exact absurd h (by decide)

theorem Risk.asStr_injective : Function.Injective Risk.asStr := by
  intro a b h
  cases a <;> cases b <;> first | rfl | exact absurd h (by decide)

theorem AckCode.asStr_injective : Function.Injective AckCode.asStr := by
  intro a b h
  cases a <;> cases b <;> first | rfl | exact absurd h (by decide)

theorem BlockedReason.asStr_injective : Function.Injective BlockedReason.asStr := by
  intro a b h
  cases a <;> cases b <;> first | rfl | exact absurd h (by decide)

theorem valueTypeName_injective : Function.Injective valueTypeName := by
  intro a b h
  cases a <;> cases b <;> first | rfl | exact absurd h (by decide)

theorem cardinalityName_injective : Function.Injective cardinalityName := by
  intro a b h
  cases a <;> cases b <;> first | rfl | exact absurd h (by decide)

theorem uniqueModeName_injective : Function.Injective uniqueModeName := by
  intro a b h
  rcases a with _ | _ | _ <;> rcases b with _ | _ | _ <;> first | rfl | exact absurd h (by decide)

theorem flag_injective : Function.Injective flag := by
  intro a b h
  cases a <;> cases b <;> first | rfl | exact absurd h (by decide)

theorem number_injective : Function.Injective number := by
  intro m n h
  exact digits_injective (String.ofList_injective h)

end Names

/-! ## What is written is told apart -/

theorem canonical_injective : Function.Injective canonical := by
  have hfield : SelfDelimiting fun text : String => field (utf8 text) := by
    intro a b r s h
    obtain ⟨hbytes, hrest⟩ := selfDelimiting_field h
    exact ⟨utf8_injective hbytes, hrest⟩
  exact hfield.flatMap_injective fun text => field_ne_nil (utf8 text)

theorem selfDelimiting_optional : SelfDelimiting optional := by
  have heq : optional = fun x => x.elim ["none"] fun value => ["some", value] := by
    funext x
    cases x <;> rfl
  rw [heq]
  exact SelfDelimiting.optional Function.injective_id (by decide)

theorem selfDelimiting_counted : SelfDelimiting counted := by
  have hsingle : SelfDelimiting fun text : String => [text] := fun _ _ _ _ h => List.cons.inj h
  have heq : counted = fun values => number values.length :: values.flatMap fun text => [text] := by
    funext values
    rw [counted, flatMap_singleton']
  rw [heq]
  exact hsingle.counted number_injective

/-- Sorting leaves what is listed and forgets how. -/
theorem sortTexts_eq_sort (texts : List String) : sortTexts texts = (texts : Multiset String).sort := by
  have hperm : (sortTexts texts).Perm ((texts : Multiset String).sort) := by
    refine (perm_insertionSort _ texts).trans (Multiset.coe_eq_coe.mp ?_)
    rw [Multiset.sort_eq]
  exact hperm.eq_of_pairwise' (pairwise_insertionSort _ texts) (Multiset.pairwise_sort _ _)

theorem sort_injective : Function.Injective fun texts : Multiset String => texts.sort := by
  intro s t h
  have hcoe := congrArg (fun texts : List String => (texts : Multiset String)) h
  dsimp only at hcoe
  rwa [Multiset.sort_eq, Multiset.sort_eq] at hcoe

/-- A step's texts, from its content. -/
def StepContent.texts (c : StepContent) : List String :=
  c.key :: c.ident :: c.kind.asStr :: (optional c.installed ++ (optional c.desired ++ (c.cls.asStr :: c.risk.asStr ::
    (counted (c.acks.map AckCode.asStr).sort ++ (optional (c.blocked.map BlockedReason.asStr) ++ counted c.dependsOn.sort)))))

theorem DigestedStep.texts_eq (s : DigestedStep) : s.texts = s.content.texts := by
  rw [texts, StepContent.texts, sortTexts_eq_sort, sortTexts_eq_sort, ← Multiset.map_coe]
  rfl

theorem StepContent.selfDelimiting_texts : SelfDelimiting StepContent.texts := by
  intro c c' r r' h
  simp only [StepContent.texts, cons_append, append_assoc, List.cons.injEq] at h
  obtain ⟨hkey, hident, hkind, h⟩ := h
  obtain ⟨hinstalled, h⟩ := selfDelimiting_optional h
  obtain ⟨hdesired, h⟩ := selfDelimiting_optional h
  rw [List.cons.injEq, List.cons.injEq] at h
  obtain ⟨hcls, hrisk, h⟩ := h
  obtain ⟨hacks, h⟩ := selfDelimiting_counted h
  obtain ⟨hblocked, h⟩ := selfDelimiting_optional h
  obtain ⟨hdepends, hrest⟩ := selfDelimiting_counted h
  refine ⟨?_, hrest⟩
  rw [StepContent.mk.injEq]
  exact ⟨hkey, hident, ChangeKind.asStr_injective hkind, hinstalled, hdesired, ExecutionClass.asStr_injective hcls,
    Risk.asStr_injective hrisk, Multiset.map_injective AckCode.asStr_injective (sort_injective hacks),
    Option.map_injective BlockedReason.asStr_injective hblocked, sort_injective hdepends⟩

/-! ## Plans -/

/-- The contents of the steps, by key. -/
def SchemaPlan.contents (p : SchemaPlan) : List StepContent := p.ordered.map DigestedStep.content

theorem SchemaPlan.digestBytes_eq (p : SchemaPlan) : p.digestBytes =
    canonical ("corium.schema-plan" :: number planFormatVersion :: p.desiredDigest :: p.installedFingerprint ::
      (if p.prune then "prune" else "no-prune") :: number p.contents.length ::
        (p.contents.flatMap StepContent.texts ++ counted (p.unmanaged : Multiset String).sort)) := by
  have htexts : p.ordered.flatMap DigestedStep.texts = p.contents.flatMap StepContent.texts := by
    rw [contents, flatMap_map]
    exact flatMap_congr fun s _ => s.texts_eq
  rw [digestBytes, htexts, sortTexts_eq_sort, contents, length_map]

theorem SchemaPlan.coe_contents (p : SchemaPlan) : (p.contents : Multiset StepContent) = p.content.steps :=
  Multiset.coe_eq_coe.mpr ((perm_insertionSort _ p.steps).map DigestedStep.content)

def SchemaPlan.KeysDistinct (p : SchemaPlan) : Prop := (p.steps.map (·.key)).Nodup

instance (p : SchemaPlan) : Decidable p.KeysDistinct := inferInstanceAs (Decidable (List.Nodup _))

variable {p q : SchemaPlan}

theorem SchemaPlan.KeysDistinct.pairwise (h : p.KeysDistinct) : p.contents.Pairwise fun c c' => c.key < c'.key := by
  rw [contents, pairwise_map]
  have hsorted : p.ordered.Pairwise fun s s' => s.key ≤ s'.key := pairwise_insertionSort _ p.steps
  have hnodup : p.ordered.Pairwise fun s s' => s.key ≠ s'.key := by
    refine pairwise_map.mp ?_
    exact ((perm_insertionSort _ p.steps).map _).nodup_iff.mpr h
  exact (hsorted.and hnodup).imp fun hs => lt_of_le_of_ne hs.1 hs.2

/-- Steps of distinct keys are written in one order, whichever they are listed in. -/
theorem SchemaPlan.contents_eq_iff (hp : p.KeysDistinct) (hq : q.KeysDistinct) :
    p.contents = q.contents ↔ p.content.steps = q.content.steps := by
  rw [← p.coe_contents, ← q.coe_contents, Multiset.coe_eq_coe]
  refine ⟨fun h => h ▸ .refl _, fun h => h.eq_of_pairwise ?_ hp.pairwise hq.pairwise⟩
  intro c c' _ _ hlt hgt
  exact absurd hgt (lt_asymm hlt)

theorem SchemaPlan.digestBytes_eq_iff (hp : p.KeysDistinct) (hq : q.KeysDistinct) :
    p.digestBytes = q.digestBytes ↔ p.content = q.content := by
  rw [digestBytes_eq, digestBytes_eq]
  constructor
  · intro h
    have htexts := canonical_injective h
    simp only [List.cons.injEq, true_and] at htexts
    obtain ⟨hdesired, hinstalled, hprune, hlen, hrest⟩ := htexts
    have hprune' : p.prune = q.prune := by
      cases hp' : p.prune <;> cases hq' : q.prune
      case false.true | true.false =>
        rw [hp', hq'] at hprune
        exact absurd hprune (by decide)
      all_goals rfl
    obtain ⟨hcontents, hrest⟩ := StepContent.selfDelimiting_texts.flatMap (number_injective hlen) hrest
    have hunmanaged : counted (p.unmanaged : Multiset String).sort = counted (q.unmanaged : Multiset String).sort := hrest
    rw [content, content, PlanContent.mk.injEq]
    exact ⟨hdesired, hinstalled, hprune', (contents_eq_iff hp hq).mp hcontents,
      sort_injective (selfDelimiting_counted.injective hunmanaged)⟩
  · intro h
    have hcontents := (contents_eq_iff hp hq).mpr (congrArg PlanContent.steps h)
    rw [content, content, PlanContent.mk.injEq] at h
    obtain ⟨hdesired, hinstalled, hprune, -, hunmanaged⟩ := h
    rw [hdesired, hinstalled, hprune, hcontents, hunmanaged]

/-! ## Installed schemas -/

theorem entityId_ext_parts {e f : EntityId} (hpartition : e.partition = f.partition) (hsequence : e.sequence = f.sequence) :
    e = f := by
  obtain ⟨e⟩ := e
  obtain ⟨f⟩ := f
  have hdiv : e.toNat / 2 ^ 42 = f.toNat / 2 ^ 42 := hpartition
  have hmod : e.toNat % 2 ^ 42 = f.toNat % 2 ^ 42 := hsequence
  have heq : e.toNat = f.toNat := by rw [← Nat.div_add_mod e.toNat (2 ^ 42), hdiv, hmod, Nat.div_add_mod]
  rw [UInt64.toNat_inj.mp heq]

theorem InstalledAttribute.selfDelimiting_texts : SelfDelimiting InstalledAttribute.texts := by
  intro a b r s h
  simp only [texts, cons_append, append_assoc, List.cons.injEq] at h
  obtain ⟨hident, hpartition, hsequence, htype, hcardinality, hunique, hindexed, hcomponent, hhistory, h⟩ := h
  obtain ⟨hdoc, h⟩ := selfDelimiting_optional h
  rw [List.cons.injEq] at h
  obtain ⟨hretired, h⟩ := h
  obtain ⟨hprotection, h⟩ := selfDelimiting_optional h
  rw [List.cons.injEq, List.cons.injEq] at h
  obtain ⟨hever, hengine, hrest⟩ := h
  refine ⟨?_, hrest⟩
  rw [InstalledAttribute.mk.injEq]
  exact ⟨hident, entityId_ext_parts (number_injective hpartition) (number_injective hsequence),
    valueTypeName_injective htype, cardinalityName_injective hcardinality, uniqueModeName_injective hunique,
    flag_injective hindexed, flag_injective hcomponent, flag_injective hhistory, hdoc, flag_injective hretired, hprotection,
    flag_injective hever, flag_injective hengine⟩

/-- Every attribute is under its own ident. -/
def InstalledSchema.ByIdent (s : InstalledSchema) : Prop := ∀ ⦃ident : String⦄ ⦃a : InstalledAttribute⦄, s[ident]? = some a → a.ident = ident

namespace InstalledSchema

theorem byIdent_new (attrs : List InstalledAttribute) : (new attrs).ByIdent := by
  intro ident a h
  rw [new, getElem?_foldl_insert, Std.ExtTreeMap.getElem?_empty, Option.or_none, Option.map_id'] at h
  exact of_decide_eq_true (mem_filter.mp (mem_of_getLast? h)).2

variable {s : InstalledSchema}

theorem ByIdent.toList_eq (hs : s.ByIdent) : s.toList = (s.toList.map (·.2)).map fun a => (a.ident, a) := by
  have hid : (s.toList.map fun x => (x.2.ident, x.2)) = s.toList.map id := by
    refine map_congr_left fun x hx => ?_
    rw [hs (Std.ExtTreeMap.mem_toList_iff_getElem?_eq_some.mp hx)]
    rfl
  rw [map_map]
  exact (hid.trans (map_id _)).symm

theorem fingerprintBytes_eq_iff {s' : InstalledSchema} (hs : s.ByIdent) (hs' : s'.ByIdent) :
    s.fingerprintBytes = s'.fingerprintBytes ↔ s = s' := by
  refine ⟨fun h => ?_, fun h => h ▸ rfl⟩
  have htexts := canonical_injective h
  simp only [List.cons.injEq, true_and] at htexts
  obtain ⟨hsize, hrest⟩ := htexts
  have hlen : (s.toList.map (·.2)).length = (s'.toList.map (·.2)).length := by
    rw [length_map, length_map, Std.ExtTreeMap.length_toList, Std.ExtTreeMap.length_toList, number_injective hsize]
  have hvalues : s.toList.map (·.2) = s'.toList.map (·.2) :=
    (InstalledAttribute.selfDelimiting_texts.flatMap hlen (congrArg (· ++ []) hrest)).1
  rw [← Std.ExtTreeMap.toList_inj, hs.toList_eq, hs'.toList_eq, hvalues]

theorem new_some {attrs : List InstalledAttribute} (h : (attrs.map (·.ident)).Nodup) {a : InstalledAttribute} :
    (new attrs)[a.ident]? = some a ↔ a ∈ attrs := by
  rw [new, getElem?_foldl_insert, Std.ExtTreeMap.getElem?_empty, Option.or_none, Option.map_id']
  constructor
  · intro hlast
    exact (mem_filter.mp (mem_of_getLast? hlast)).1
  · intro ha
    have hmem : a ∈ attrs.filter fun x => decide (x.ident = a.ident) := mem_filter.mpr ⟨ha, decide_eq_true rfl⟩
    cases hlast : (attrs.filter fun x => decide (x.ident = a.ident)).getLast? with
    | none =>
      rw [List.getLast?_eq_none_iff.mp hlast] at hmem
      cases hmem
    | some b =>
      obtain ⟨hb, hident⟩ := mem_filter.mp (mem_of_getLast? hlast)
      rw [inj_on_of_nodup_map h hb ha (of_decide_eq_true hident)]

/-- Attributes of distinct idents make one schema in whatever order they are listed. -/
theorem new_eq_iff {xs ys : List InstalledAttribute} (hx : (xs.map (·.ident)).Nodup) (hy : (ys.map (·.ident)).Nodup) :
    new xs = new ys ↔ xs.Perm ys := by
  rw [perm_ext_iff_of_nodup hx.of_map hy.of_map]
  constructor
  · intro h a
    rw [← new_some hx, ← new_some hy, h]
  · intro h
    have hle : ∀ {us vs : List InstalledAttribute}, (us.map (·.ident)).Nodup → (vs.map (·.ident)).Nodup →
        (∀ a, a ∈ us → a ∈ vs) → ∀ {k : String} {a : InstalledAttribute}, (new us)[k]? = some a → (new vs)[k]? = some a := by
      intro us vs hu hv huv k a hk
      obtain rfl := byIdent_new us hk
      exact (new_some hv).mpr (huv a ((new_some hu).mp hk))
    refine Std.ExtTreeMap.ext_getElem? fun k => Option.ext fun a => ?_
    exact ⟨hle hx hy fun a => (h a).mp, hle hy hx fun a => (h a).mpr⟩

end InstalledSchema

/-! ## The planner's keys -/

section Keys

variable {db : Db} {installed : InstalledSchema} {desired : DesiredSchema}

theorem nodup_keys {α : Type} (m : Std.ExtTreeMap String α) : (m.toList.map Prod.fst).Nodup := by
  refine pairwise_map.mpr (Std.ExtTreeMap.ordered_keys_toList.imp fun hlt heq => ?_)
  rw [heq, compare_same] at hlt
  cases hlt

theorem hash_notMem_asStr (kind : ChangeKind) : '#' ∉ kind.asStr.toList := by
  rcases kind with _ | _ | p
  case property => cases p <;> decide
  all_goals decide

/-- No kind's name has a `#`, so the last one of a key is where its ident ends. -/
theorem key_inj {s s' : PlanStep} (h : s.key = s'.key) : s.ident = s'.ident ∧ s.kind = s'.kind := by
  have hchars := congrArg (fun t : String => t.toList.reverse) h
  simp only [PlanStep.key, String.toList_append, reverse_append] at hchars
  obtain ⟨hkind, hident⟩ := append_cons_inj (fun hm => hash_notMem_asStr s.kind (mem_reverse.mp hm))
    (fun hm => hash_notMem_asStr s'.kind (mem_reverse.mp hm)) hchars
  exact ⟨String.toList_inj.mp (reverse_injective hident),
    ChangeKind.asStr_injective (String.toList_inj.mp (reverse_injective hkind))⟩

theorem propertySteps_keys (current : InstalledAttribute) (d : DesiredAttribute) :
    ((propertySteps db current d).map PlanStep.key).Nodup := by
  rw [propertySteps, map_map]
  refine List.Nodup.map ?_ (List.Nodup.filter _ (by decide))
  intro p q hpq
  have hkind := (key_inj hpq).2
  rw [(propertyStep_ident db current d p).2, (propertyStep_ident db current d q).2] at hkind
  exact ChangeKind.property.inj hkind

variable {steps : List PlanStep}

theorem declarationSteps_keys (hinstalled : installed.ByIdent) {ident : String} {d : DesiredAttribute}
    (h : declarationSteps db installed ident d = .ok steps) :
    (∀ step ∈ steps, step.ident = ident) ∧ (steps.map PlanStep.key).Nodup := by
  unfold declarationSteps at h
  split at h
  · cases h
    exact ⟨fun step hstep => by rw [mem_singleton.mp hstep]; rfl, nodup_singleton _⟩
  · next current hcurrent =>
    split at h
    · cases h
    · split at h
      · cases h
        exact ⟨nofun, nodup_nil⟩
      · cases h
        refine ⟨fun step hstep => ?_, propertySteps_keys current d⟩
        obtain ⟨p, -, rfl⟩ := mem_propertySteps.mp hstep
        rw [(propertyStep_ident db current d p).1, hinstalled hcurrent]

theorem declared_keys (hinstalled : installed.ByIdent) {l : List (String × DesiredAttribute)} (hl : (l.map Prod.fst).Nodup)
    {declared : List (List PlanStep)} (h : l.mapM (fun x => declarationSteps db installed x.1 x.2) = .ok declared) :
    (∀ step ∈ declared.flatten, step.ident ∈ l.map Prod.fst) ∧ (declared.flatten.map PlanStep.key).Nodup := by
  induction l generalizing declared with
  | nil =>
    rw [mapM_nil, pure_eq_ok] at h
    subst h
    exact ⟨nofun, nodup_nil⟩
  | cons x l ih =>
    rw [mapM_cons] at h
    obtain ⟨steps, hsteps, h⟩ := bind_eq_ok.mp h
    obtain ⟨rest, hrest, h⟩ := bind_eq_ok.mp h
    rw [pure_eq_ok] at h
    subst h
    rw [map_cons, nodup_cons] at hl
    obtain ⟨hown, hnodup⟩ := declarationSteps_keys hinstalled hsteps
    obtain ⟨hothers, hrestNodup⟩ := ih hl.2 hrest
    rw [flatten_cons, map_append, map_cons]
    refine ⟨fun step hstep => ?_, hnodup.append hrestNodup ?_⟩
    · rcases mem_append.mp hstep with hs | hs
      · exact hown step hs ▸ mem_cons_self
      · exact mem_cons_of_mem _ (hothers step hs)
    · intro key hkey hkey'
      obtain ⟨step, hstep, rfl⟩ := mem_map.mp hkey
      obtain ⟨step', hstep', heq⟩ := mem_map.mp hkey'
      have hident := (key_inj heq).1
      exact hl.1 (hown step hstep ▸ hident ▸ hothers step' hstep')

theorem pruneSteps_keys (hinstalled : installed.ByIdent) :
    (∀ step ∈ pruneSteps desired db installed, desired.get step.ident = none) ∧
    ((pruneSteps desired db installed).map PlanStep.key).Nodup := by
  constructor
  · intro step hstep
    obtain ⟨current, hcurrent, rfl⟩ := mem_map.mp hstep
    have hkept := (mem_filter.mp hcurrent).2
    simp only [Bool.and_eq_true, Option.isNone_iff_eq_none] at hkept
    exact hkept.1.2
  · have hidents : ((installed.toList.map (·.2)).map (·.ident)).Nodup := by
      have hkeys := nodup_keys installed
      rw [hinstalled.toList_eq, map_map] at hkeys
      exact hkeys
    rw [pruneSteps, map_map]
    refine List.Nodup.map_on (fun a ha b hb hab => ?_) (hidents.of_map.filter _)
    exact inj_on_of_nodup_map hidents (mem_filter.mp ha).1 (mem_filter.mp hb).1 (key_inj hab).1

/-- No two steps of a plan have one key. -/
theorem planAgainst_keys (hinstalled : installed.ByIdent) {prune : Bool}
    (h : planAgainst desired db installed prune = .ok steps) : (steps.map PlanStep.key).Nodup := by
  unfold planAgainst at h
  obtain ⟨declared, hdeclared, h⟩ := bind_eq_ok.mp h
  rw [pure_eq_ok] at h
  subst h
  refine ((perm_insertionSort _ _).map PlanStep.key).nodup_iff.mpr ?_
  obtain ⟨hidents, hnodup⟩ := declared_keys hinstalled (nodup_keys desired.attrs) hdeclared
  rw [map_append]
  cases prune with
  | false => simpa using hnodup
  | true =>
    obtain ⟨hnone, hpruned⟩ := @pruneSteps_keys db installed desired hinstalled
    refine hnodup.append hpruned fun key hkey hkey' => ?_
    obtain ⟨step, hstep, rfl⟩ := mem_map.mp hkey
    obtain ⟨step', hstep', heq⟩ := mem_map.mp hkey'
    obtain ⟨x, hx, hident⟩ := mem_map.mp (hidents step hstep)
    have hget : desired.get step.ident = some x.2 := hident ▸ Std.ExtTreeMap.mem_toList_iff_getElem?_eq_some.mp hx
    rw [← (key_inj heq).1, hnone step' hstep'] at hget
    cases hget

end Keys

/-! ## The bytes and the content -/

/--
  What is hashed binds what it is about, whatever its texts hold.

  Plans whose steps have distinct keys write the same bytes exactly when they have the same
  steps, the same unmanaged attributes and the same header, in whatever order the steps,
  their acknowledgements and their dependencies are listed; the plans the planner makes have
  distinct keys. Installed schemas, which have an attribute under its own ident, write the
  same bytes exactly when they are equal, and those made of listed attributes exactly when
  the lists are the same up to order.
-/
theorem canonical_bytes_bind_content :
    (∀ p q : SchemaPlan, p.KeysDistinct → q.KeysDistinct → (p.digestBytes = q.digestBytes ↔ p.content = q.content)) ∧
    (∀ (desired : DesiredSchema) (db : Db) (installed : InstalledSchema) (prune : Bool) (p : SchemaPlan), installed.ByIdent →
      planAgainst desired db installed prune = .ok (p.steps.map (·.toPlanStep)) →
      (∀ s ∈ p.steps, s.key = s.toPlanStep.key) → p.KeysDistinct) ∧
    (∀ s s' : InstalledSchema, s.ByIdent → s'.ByIdent → (s.fingerprintBytes = s'.fingerprintBytes ↔ s = s')) ∧
    ∀ xs ys : List InstalledAttribute, (xs.map (·.ident)).Nodup → (ys.map (·.ident)).Nodup →
      ((InstalledSchema.new xs).fingerprintBytes = (InstalledSchema.new ys).fingerprintBytes ↔ xs.Perm ys) := by
  refine ⟨fun p q hp hq => SchemaPlan.digestBytes_eq_iff hp hq, ?_, fun s s' hs hs' =>
    InstalledSchema.fingerprintBytes_eq_iff hs hs', fun xs ys hx hy => ?_⟩
  · intro desired db installed prune p hinstalled hplan hkeys
    have hnodup := planAgainst_keys hinstalled hplan
    rw [map_map] at hnodup
    unfold SchemaPlan.KeysDistinct
    rw [map_congr_left hkeys]
    exact hnodup
  · rw [InstalledSchema.fingerprintBytes_eq_iff (InstalledSchema.byIdent_new xs) (InstalledSchema.byIdent_new ys),
      InstalledSchema.new_eq_iff hx hy]

namespace DigestExample

def step (p : SchemaProperty) (installed desired : String) : DigestedStep :=
  { ident := ":person/email", kind := .property p, cls := .validateReindex, acks := [], blocked := none
    key := ":person/email#" ++ p.asStr, installed := some installed, desired := some desired, risk := .medium, dependsOn := [] }

def plan (steps : List DigestedStep) : SchemaPlan := ⟨"sha256:desired", "sha256:installed", false, steps, []⟩

def index : DigestedStep := step .index "false" "true"

def unique : DigestedStep := step .unique "none" "identity"

/-- Two steps in either order are one plan; another mode is another plan. -/
theorem canonical_bytes_bind_content_of_two_steps :
    (plan [index, unique]).digestBytes = (plan [unique, index]).digestBytes ∧
    (plan [index, unique]).digestBytes ≠ (plan [index, step .unique "none" "value"]).digestBytes := by
  refine ⟨(canonical_bytes_bind_content.1 _ _ (by decide) (by decide)).mpr ?_, fun h => ?_⟩
  · rw [SchemaPlan.content, SchemaPlan.content, PlanContent.mk.injEq]
    exact ⟨rfl, rfl, rfl, Multiset.coe_eq_coe.mpr (.swap _ _ _), rfl⟩
  · have hsteps := congrArg PlanContent.steps ((canonical_bytes_bind_content.1 _ _ (by decide) (by decide)).mp h)
    have hdesired := congrArg (Multiset.map StepContent.desired) hsteps
    exact absurd hdesired (by decide)

end DigestExample

end Corium.Forms
