/-
  Corium.Forms.SchemaPlan — schema updates: planning a desired schema against the
  installed one and compiling the plan to datoms
  (`crates/corium-forms/src/{desired,planner,apply}.rs`,
  `crates/corium-core/src/migration.rs`, `crates/corium-db/src/impact.rs`).

  A plan is one step per attribute to add, per property that differs and, when
  pruning, per attribute to retire. A step is blocked where the change could never
  run on the data there is; a blocked step fails the whole compilation. Attribute
  ids are allocated above every id in use. What a step prints (summary, recipe,
  observations, notes, risk) and the digests are left out: nothing here reads them.
-/

import Corium.Db.Views
import Corium.Lib.Result

namespace Corium.Core

/-- `Display`: `:namespace/name`. -/
def Keyword.render (k : Keyword) : String :=
  match k.ns with
  | some ns => ":" ++ ns ++ "/" ++ k.name
  | none => ":" ++ k.name

end Corium.Core

namespace Corium.Forms

open Corium.Core Corium.Lib

/-! ## What a schema file asks for -/

structure DesiredAttribute where
  ident : Keyword
  valueType : ValueType
  cardinality : Cardinality
  unique : Option Unique
  /-- Whether AVET coverage is requested. -/
  indexed : Bool
  isComponent : Bool
  noHistory : Bool
  doc : Option String
  /-- The protection class, by class ident. -/
  protection : Option Keyword
  /-- Uniqueness implies coverage: every reader of a schema file normalizes so. -/
  covered : unique.isSome = true → indexed = true

def DesiredAttribute.renderedIdent (d : DesiredAttribute) : String := d.ident.render

structure DesiredSchema where
  attrs : Std.ExtTreeMap String DesiredAttribute
  keyed : ∀ {ident : String} {d : DesiredAttribute}, attrs[ident]? = some d → d.renderedIdent = ident

namespace DesiredSchema

def empty : DesiredSchema := ⟨∅, fun h => by simp at h⟩

def insert (s : DesiredSchema) (d : DesiredAttribute) : DesiredSchema :=
  ⟨s.attrs.insert d.renderedIdent d, fun {ident d'} h => by
    rw [Std.ExtTreeMap.getElem?_insert] at h
    split at h
    · cases h
      exact eq_of_compare_eq ‹_›
    · exact s.keyed h⟩

/-- `DesiredSchema::new`; the error names the ident declared twice. -/
def new (attributes : List DesiredAttribute) : Except String DesiredSchema :=
  attributes.foldlM (fun s d => if d.renderedIdent ∈ s.attrs then .error d.renderedIdent else .ok (s.insert d)) empty

def get (s : DesiredSchema) (ident : String) : Option DesiredAttribute := s.attrs[ident]?

end DesiredSchema

/-! ## What is installed -/

structure InstalledAttribute where
  ident : String
  id : AttrId
  valueType : ValueType
  cardinality : Cardinality
  unique : Option Unique
  indexed : Bool
  isComponent : Bool
  noHistory : Bool
  doc : Option String
  retired : Bool
  /-- The class in force now, by class ident. -/
  protection : Option String
  everProtected : Bool
  /-- No user file reaches it: the engine owns the id, or nothing names it. -/
  engine : Bool

abbrev InstalledSchema := Std.ExtTreeMap String InstalledAttribute

def isEngineAttribute (id : AttrId) : Bool := id.inPartition .db && id.sequence < firstAttrId

/-- How the installed schema names an attribute. -/
def installedIdent (db : Db) (id : AttrId) : String :=
  match db.idents.ident id with
  | some k => k.render
  | none => "<unnamed attribute " ++ toString id.partition ++ ":" ++ toString id.sequence ++ ">"

def installedAttribute (db : Db) (id : AttrId) (attr : Attribute) : InstalledAttribute :=
  let timeline := db.schema.protectionOf id
  { ident := installedIdent db id
    id
    valueType := attr.valueType
    cardinality := attr.cardinality
    unique := attr.unique
    indexed := attr.indexed
    isComponent := attr.isComponent
    noHistory := attr.noHistory
    doc := db.schema.docs[id]?
    retired := db.schema.isRetired id
    protection := (timeline.current.bind db.idents.ident).map Keyword.render
    everProtected := timeline.everProtected
    engine := isEngineAttribute id || (db.idents.ident id).isNone }

/-- `installed_schema`: by ident, and of two attributes of one name the later. -/
def installedSchema (db : Db) : InstalledSchema :=
  db.schema.attrs.toList.foldl (fun s x => s.insert (installedIdent db x.1) (installedAttribute db x.1 x.2)) ∅

/-! ## Impact on the data -/

def datomsForAttribute (db : Db) (a : AttrId) : List Datom :=
  db.datomsPrefix .aevt (keyPrefix .aevt none (some a) none)

/-- Entities holding more than one current value of `a`. -/
def cardinalityConflicts (db : Db) (a : AttrId) : List EntityId :=
  let datoms := datomsForAttribute db a
  (datoms.map (·.e)).dedup.filter fun e => 1 < datoms.countP fun d => d.e = e

/-- Values of `a` held by more than one entity. -/
def duplicateValues (db : Db) (a : AttrId) : List Value :=
  let datoms := datomsForAttribute db a
  (datoms.map (·.v)).dedup.filter fun v => 1 < ((datoms.filter fun d => d.v = v).map (·.e)).dedup.length

/-! ## Planning -/

inductive ExecutionClass where
  | additive
  | validateReindex
  | rewrite
  | destructive
  deriving DecidableEq, Repr

def ExecutionClass.executable (c : ExecutionClass) : Bool := c ≠ .destructive

inductive AckCode where
  | componentEnable
  | componentDisable
  | uniqueModeChange
  | noHistoryEnable
  | noHistoryDisable
  | retireLiveAttribute
  | protectionForwardOnly
  deriving DecidableEq, Repr

inductive SchemaProperty where
  | valueType
  | cardinality
  | unique
  | index
  | component
  | noHistory
  | doc
  | protection
  deriving DecidableEq, Repr

def SchemaProperty.asStr : SchemaProperty → String
  | .valueType => "value-type"
  | .cardinality => "cardinality"
  | .unique => "unique"
  | .index => "index"
  | .component => "component"
  | .noHistory => "no-history"
  | .doc => "doc"
  | .protection => "protection"

inductive ChangeKind where
  | add
  | retire
  | property (p : SchemaProperty)
  deriving DecidableEq, Repr

def ChangeKind.asStr : ChangeKind → String
  | .add => "add"
  | .retire => "retire"
  | .property p => p.asStr

inductive BlockedReason where
  | valueTypeMutation
  | uniqueDuplicates
  | cardinalityConflicts
  | everProtected
  | protectionConflict
  deriving DecidableEq, Repr

structure PlanStep where
  ident : String
  kind : ChangeKind
  cls : ExecutionClass
  acks : List AckCode
  blocked : Option BlockedReason
  deriving DecidableEq, Repr

def PlanStep.key (s : PlanStep) : String := s.ident ++ "#" ++ s.kind.asStr

/-- A step that can never run. -/
def PlanStep.isBlocked (s : PlanStep) : Bool := s.blocked.isSome || !s.cls.executable

/-- The file declares an attribute the engine owns. -/
inductive PlanError where
  | engineAttribute (ident : String)
  deriving DecidableEq, Repr

/-- A protected attribute is in neither AVET nor VAET. -/
def protectionConflict (d : DesiredAttribute) : Bool :=
  d.protection.isSome && (d.valueType = .ref || d.indexed || d.unique.isSome)

def addStep (ident : String) (d : DesiredAttribute) : PlanStep :=
  { ident, kind := .add, cls := .additive, acks := []
    blocked := if protectionConflict d then some .protectionConflict else none }

def retireStep (db : Db) (current : InstalledAttribute) : PlanStep :=
  { ident := current.ident, kind := .retire, cls := .validateReindex
    acks := if (datomsForAttribute db current.id).isEmpty then [] else [.retireLiveAttribute]
    blocked := none }

/-- A property differs between the file and the database. -/
def SchemaProperty.differs (current : InstalledAttribute) (d : DesiredAttribute) : SchemaProperty → Bool
  | .valueType => current.valueType ≠ d.valueType
  | .cardinality => current.cardinality ≠ d.cardinality
  | .unique => current.unique ≠ d.unique
  | .index => current.indexed ≠ d.indexed
  | .component => current.isComponent ≠ d.isComponent
  | .noHistory => current.noHistory ≠ d.noHistory
  | .doc => current.doc ≠ d.doc
  | .protection => current.protection ≠ d.protection.map Keyword.render

/-- `value_type_step`, `cardinality_step` and so on: what a change of the property takes. -/
def propertyStep (db : Db) (current : InstalledAttribute) (d : DesiredAttribute) (p : SchemaProperty) : PlanStep :=
  let step (cls : ExecutionClass) (acks : List AckCode) (blocked : Option BlockedReason) : PlanStep :=
    { ident := current.ident, kind := .property p, cls, acks, blocked }
  match p with
  | .valueType => step .destructive [] (some .valueTypeMutation)
  | .cardinality =>
    if d.cardinality = .many then step .additive [] none
    else if (cardinalityConflicts db current.id).isEmpty then step .validateReindex [] none
    else step .rewrite [] (some .cardinalityConflicts)
  | .index => step .validateReindex [] (if d.indexed && current.everProtected then some .everProtected else none)
  | .unique =>
    match current.unique, d.unique with
    | none, some _ =>
      step .validateReindex [] (if current.everProtected then some .everProtected
        else if (duplicateValues db current.id).isEmpty then none else some .uniqueDuplicates)
    | some _, some _ => step .validateReindex [.uniqueModeChange] none
    | _, none => step .validateReindex [] none
  | .component => step .validateReindex [if d.isComponent then .componentEnable else .componentDisable] none
  | .noHistory => step .additive [if d.noHistory then .noHistoryEnable else .noHistoryDisable] none
  | .doc => step .additive [] none
  | .protection =>
    step .validateReindex [.protectionForwardOnly] (if protectionConflict d then some .protectionConflict else none)

def propertySteps (db : Db) (current : InstalledAttribute) (d : DesiredAttribute) : List PlanStep :=
  ([.valueType, .cardinality, .index, .unique, .component, .noHistory, .doc, .protection].filter
    (SchemaProperty.differs current d)).map (propertyStep db current d)

/-- The steps for one declaration. Reinstating a retired attribute is not supported: it is noted only. -/
def declarationSteps (db : Db) (installed : InstalledSchema) (ident : String) (d : DesiredAttribute) :
    Except PlanError (List PlanStep) :=
  match installed[ident]? with
  | none => .ok [addStep ident d]
  | some current =>
    if current.engine then .error (.engineAttribute ident)
    else if current.retired then .ok []
    else .ok (propertySteps db current d)

/-- Installed attributes the file does not mention, when pruning. -/
def pruneSteps (desired : DesiredSchema) (db : Db) (installed : InstalledSchema) : List PlanStep :=
  ((installed.toList.map (·.2)).filter fun current =>
    !current.engine && (desired.get current.ident).isNone && !current.retired).map (retireStep db)

/-- `plan_against`: the steps, in the order of their keys. -/
def planAgainst (desired : DesiredSchema) (db : Db) (installed : InstalledSchema) (prune : Bool) :
    Except PlanError (List PlanStep) := do
  let declared ← desired.attrs.toList.mapM fun x => declarationSteps db installed x.1 x.2
  let steps := declared.flatten ++ if prune then pruneSteps desired db installed else []
  pure (steps.insertionSort fun a b => a.key ≤ b.key)

/-! ## Compiling -/

inductive ApplyError where
  | undeclaredAttribute (ident : String)
  | missingAttribute (ident : String)
  | notExecutable (ident : String)
  | unknownProtectionClass (attr : String) (cls : Keyword)
  | idSpaceExhausted
  deriving DecidableEq, Repr

def keywordValue (interner : KeywordInterner) (k : Keyword) : Value × KeywordInterner :=
  let (id, interner) := interner.intern k
  (.keyword id, interner)

def valueTypeName : ValueType → String
  | .bool => "boolean"
  | .long => "long"
  | .double => "double"
  | .instant => "instant"
  | .uuid => "uuid"
  | .keyword => "keyword"
  | .str => "string"
  | .bytes => "bytes"
  | .ref => "ref"

def cardinalityName : Cardinality → String
  | .one => "one"
  | .many => "many"

def uniqueName : Unique → String
  | .identity => "identity"
  | .value => "value"

def valueTypeValue (interner : KeywordInterner) (t : ValueType) : Value × KeywordInterner :=
  keywordValue interner ⟨some "db.type", valueTypeName t⟩

def cardinalityValue (interner : KeywordInterner) (c : Cardinality) : Value × KeywordInterner :=
  keywordValue interner ⟨some "db.cardinality", cardinalityName c⟩

def uniqueValue (interner : KeywordInterner) (u : Unique) : Value × KeywordInterner :=
  keywordValue interner ⟨some "db.unique", uniqueName u⟩

/-- A class a file may name: an ident of an installed class. -/
def resolveClass (db : Db) (cls : Keyword) (attr : String) : Except ApplyError EntityId :=
  match db.idents.entid cls with
  | none => .error (.unknownProtectionClass attr cls)
  | some id => if (db.schema.cls id).isNone then .error (.unknownProtectionClass attr cls) else .ok id

/-- One past the highest db-partition id in use, at least `firstAttrId`. -/
def nextAttributeId (db : Db) (installed : InstalledSchema) : Except ApplyError AttrId :=
  let ids := db.schema.attrs.toList.map (·.1) ++ db.schema.classes.toList.map (·.1) ++
    db.idents.byKeyword.toList.map (·.2) ++ installed.toList.map (·.2.id)
  let highest := ((ids.filter fun id => id.inPartition .db).map fun id => id.sequence + 1).foldl max firstAttrId
  let id := EntityId.new Partition.db.id highest
  if id.sequence ≠ highest then .error .idSpaceExhausted else .ok id

def advanceId (id : AttrId) : Except ApplyError AttrId :=
  let next := EntityId.new id.partition (id.sequence + 1)
  if next.sequence ≠ id.sequence + 1 then .error .idSpaceExhausted else .ok next

/-- The class a declaration asks for. -/
def desiredClass (db : Db) (d : DesiredAttribute) (ident : String) : Except ApplyError (Option Value) :=
  match d.protection with
  | some cls => (resolveClass db cls ident).map fun id => some (.ref id)
  | none => .ok none

section Compile

variable (tx : TxId)

def assertFact (e : EntityId) (a : AttrId) (v : Value) : Datom := { e, a, v, tx, added := true }

def retractFact (e : EntityId) (a : AttrId) (v : Value) : Datom := { e, a, v, tx, added := false }

def installCardinality (id : AttrId) (d : DesiredAttribute) (interner : KeywordInterner) : List Datom × KeywordInterner :=
  if d.cardinality = .many then
    let (v, interner) := cardinalityValue interner .many
    ([assertFact tx id Bootstrap.cardinality v], interner)
  else ([], interner)

/-- Uniqueness already implies coverage. -/
def installUnique (id : AttrId) (d : DesiredAttribute) (interner : KeywordInterner) : List Datom × KeywordInterner :=
  match d.unique with
  | some u =>
    let (v, interner) := uniqueValue interner u
    ([assertFact tx id Bootstrap.unique v], interner)
  | none => (if d.indexed then [assertFact tx id Bootstrap.index (.bool true)] else [], interner)

/-- Only what differs from the engine's defaults is written. -/
def installAttribute (id : AttrId) (d : DesiredAttribute) (db : Db) (interner : KeywordInterner) (ident : String) :
    Except ApplyError (List Datom × KeywordInterner) := do
  let (name, interner) := keywordValue interner d.ident
  let (type, interner) := valueTypeValue interner d.valueType
  let (cardinality, interner) := installCardinality tx id d interner
  let (unique, interner) := installUnique tx id d interner
  let cls ← desiredClass db d ident
  pure ([assertFact tx id Bootstrap.ident name, assertFact tx id Bootstrap.valueType type] ++ cardinality ++ unique ++
    (if d.isComponent then [assertFact tx id Bootstrap.isComponent (.bool true)] else []) ++
    (if d.noHistory then [assertFact tx id Bootstrap.noHistory (.bool true)] else []) ++
    (d.doc.toList.map fun doc => assertFact tx id Bootstrap.doc (.str doc)) ++
    (cls.toList.map fun cls => assertFact tx id Bootstrap.protection cls), interner)

/-- The vocabulary attribute a property is stored under. -/
def attributeOf : SchemaProperty → AttrId
  | .valueType => Bootstrap.valueType
  | .cardinality => Bootstrap.cardinality
  | .unique => Bootstrap.unique
  | .index => Bootstrap.index
  | .component => Bootstrap.isComponent
  | .noHistory => Bootstrap.noHistory
  | .doc => Bootstrap.doc
  | .protection => Bootstrap.protection

/-- What there is to retract of a property; a class is read off its timeline instead. -/
def installedValue (p : SchemaProperty) (current : InstalledAttribute) (interner : KeywordInterner) :
    Option Value × KeywordInterner :=
  let flag (b : Bool) : Option Value := if b then some (.bool true) else none
  match p with
  | .valueType => (valueTypeValue interner current.valueType).map some id
  | .cardinality => (cardinalityValue interner current.cardinality).map some id
  | .unique =>
    match current.unique with
    | some u => (uniqueValue interner u).map some id
    | none => (none, interner)
  | .index => (flag current.indexed, interner)
  | .component => (flag current.isComponent, interner)
  | .noHistory => (flag current.noHistory, interner)
  | .doc => (current.doc.map .str, interner)
  | .protection => (none, interner)

/-- What a property is to be. A flag turned off is an assertion of `false`. -/
def desiredValue (p : SchemaProperty) (d : DesiredAttribute) (db : Db) (interner : KeywordInterner) (ident : String) :
    Except ApplyError (Option Value × KeywordInterner) :=
  match p with
  | .valueType => .error (.notExecutable ident)
  | .cardinality => .ok ((cardinalityValue interner d.cardinality).map some id)
  | .unique =>
    match d.unique with
    | some u => .ok ((uniqueValue interner u).map some id)
    | none => .ok (none, interner)
  | .index => .ok (some (.bool d.indexed), interner)
  | .component => .ok (some (.bool d.isComponent), interner)
  | .noHistory => .ok (some (.bool d.noHistory), interner)
  | .doc => .ok (d.doc.map .str, interner)
  | .protection => (desiredClass db d ident).map fun cls => (cls, interner)

/-- The installed value is retracted, where it differs, and the desired one asserted. -/
def changeProperty (p : SchemaProperty) (current : InstalledAttribute) (d : DesiredAttribute) (db : Db)
    (interner : KeywordInterner) (ident : String) : Except ApplyError (List Datom × KeywordInterner) := do
  let (installed, interner) := installedValue p current interner
  let (desired, interner) ← desiredValue p d db interner ident
  let installed := if p = .protection then (db.schema.protectionOf current.id).current.map .ref else installed
  pure ((installed.toList.filter fun v => some v ≠ desired).map (retractFact tx current.id (attributeOf p)) ++
    desired.toList.map (assertFact tx current.id (attributeOf p)), interner)

/-- The datoms so far, the next attribute id and the names minted. -/
structure Compiling where
  datoms : List Datom
  nextId : AttrId
  interner : KeywordInterner

def compileStep (desired : DesiredSchema) (db : Db) (installed : InstalledSchema) (c : Compiling) (step : PlanStep) :
    Except ApplyError Compiling := do
  require (step.isBlocked = false) (.notExecutable step.ident)
  match step.kind with
  | .add =>
    match desired.get step.ident with
    | none => .error (.undeclaredAttribute step.ident)
    | some d =>
      let nextId ← advanceId c.nextId
      let (datoms, interner) ← installAttribute tx c.nextId d db c.interner step.ident
      pure { datoms := c.datoms ++ datoms, nextId, interner }
  | .retire =>
    match installed[step.ident]? with
    | none => .error (.missingAttribute step.ident)
    | some current => pure { c with datoms := c.datoms ++ [assertFact tx current.id Bootstrap.retired (.bool true)] }
  | .property p =>
    match installed[step.ident]? with
    | none => .error (.missingAttribute step.ident)
    | some current =>
      match desired.get step.ident with
      | none => .error (.undeclaredAttribute step.ident)
      | some d =>
        let (datoms, interner) ← changeProperty tx p current d db c.interner step.ident
        pure { c with datoms := c.datoms ++ datoms, interner }

def compile (steps : List PlanStep) (desired : DesiredSchema) (db : Db) (installed : InstalledSchema)
    (interner : KeywordInterner) : Except ApplyError (List Datom × KeywordInterner) := do
  let nextId ← nextAttributeId db installed
  let c ← steps.foldlM (compileStep tx desired db installed) { datoms := [], nextId, interner }
  pure (c.datoms, c.interner)

end Compile

end Corium.Forms
