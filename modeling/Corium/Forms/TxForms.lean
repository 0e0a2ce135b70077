/-
  Corium.Forms.TxForms — from EDN transaction forms to transaction items
  (`crates/corium-forms/src/txforms.rs`).

  Converting a form interns the keyword values it meets into the interner it is
  given, and keeps them interned when a later form is refused (`Conv`). What a
  conversion can do to the interner is said once: it only adds names, and every
  keyword value of the items it returns is named (`txItemsFromEdn_mints`).

  An error carries the form or the name the source prints.
-/

import Corium.Query.Edn
import Corium.Tx.Effects

namespace Corium.Forms

open Corium.Core Corium.Lib Corium.Query Corium.Tx List

inductive TxFormError where
  | badForm (form : Edn)
  /-- `BadForm("attribute position …")`. -/
  | attributePosition (form : Edn)
  /-- `BadForm("map form requires :db/id")`. -/
  | mapWithoutId
  | unknownOp (op : Keyword)
  | unknownAttribute (k : Keyword)
  /-- An attribute with an ident but no definition. -/
  | undefinedAttribute (a : AttrId)
  | badEntity (form : Edn)
  | badValue (form : Edn)
  /-- `BadValue`: only an assertion may name an entity being created. -/
  | tempidValue (name : String)
  /-- `BadValue("lookup ref … did not resolve")`. -/
  | unresolvedLookup (form : Edn)

/-- A conversion: an interner it adds to, and a result or an error. -/
abbrev Conv (α : Type) := ExceptT TxFormError (StateM KeywordInterner) α

/-- The result and the interner left behind. -/
def Conv.on {α : Type} (f : Conv α) (i : KeywordInterner) : Except TxFormError α × KeywordInterner := f.run.run i

def Conv.intern (k : Keyword) : Conv KwId := ExceptT.mk fun i => (.ok (i.intern k).1, (i.intern k).2)

/-! ## Positions -/

/-- `:db/current-tx` names the transaction being built. -/
def isCurrentTx (k : Keyword) : Bool := k.ns = some "db" ∧ k.name = "current-tx"

def attrOf (db : Db) (form : Edn) : Except TxFormError AttrId :=
  match form.asKeyword with
  | none => .error (.attributePosition form)
  | some k =>
    match db.idents.entid k with
    | some a => .ok a
    | none => .error (.unknownAttribute k)

/-- `u64::try_from` of a long, as an id. -/
def idOfLong (n : Int64) : Option EntityId := if 0 ≤ n.toInt then some (EntityId.fromRaw n.toUInt64) else none

/-- The id no keyword has: `u64::MAX`. -/
def unknownKeyword : KwId := 0xFFFFFFFFFFFFFFFF

/-! ## Values -/

def hexDigit (b : UInt8) : Option Nat :=
  if 48 ≤ b ∧ b ≤ 57 then some (b.toNat - 48)
  else if 97 ≤ b ∧ b ≤ 102 then some (b.toNat - 87)
  else if 65 ≤ b ∧ b ≤ 70 then some (b.toNat - 55)
  else none

/-- `from_str_radix(_, 16)` below `limit`: an optional plus sign, then at least one digit. -/
def fromHex (limit : Nat) (bytes : List UInt8) : Option Nat :=
  let digits := match bytes with
    | 43 :: rest => rest
    | bytes => bytes
  if digits.isEmpty then none
  else (digits.foldlM (fun n b => (hexDigit b).map fun d => n * 16 + d) 0).bind fun n => if n < limit then some n else none

/-- Two characters a byte. -/
def decodeHexBytes : List UInt8 → Option Bytes
  | [] => some []
  | [_] => none
  | a :: b :: rest => do
    let n ← fromHex 256 [a, b]
    let rest ← decodeHexBytes rest
    pure (UInt8.ofNat n :: rest)

def decodeHex (hex : String) : Option Bytes := decodeHexBytes (utf8 hex)

def valueTypeNamed (k : Keyword) : Option ValueType :=
  if k.name = "boolean" then some .bool
  else if k.name = "long" then some .long
  else if k.name = "double" then some .double
  else if k.name = "instant" then some .instant
  else if k.name = "uuid" then some .uuid
  else if k.name = "keyword" then some .keyword
  else if k.name = "string" then some .str
  else if k.name = "bytes" then some .bytes
  else if k.name = "ref" then some .ref
  else none

/-- `#corium/sealed {:class … :epoch … :vtype … :body "hex"}`. -/
def sealedOf (form : Edn) : Option Sealed := do
  let cls ← match ← form.get ⟨none, "class"⟩ with
    | .long raw => idOfLong raw
    | _ => none
  let epoch ← match ← form.get ⟨none, "epoch"⟩ with
    | .long epoch => if 0 ≤ epoch.toInt ∧ epoch.toInt < 2 ^ 32 then some (UInt32.ofNat epoch.toInt.toNat) else none
    | _ => none
  let vtype ← valueTypeNamed (← (← form.get ⟨none, "vtype"⟩).asKeyword)
  let body ← match ← form.get ⟨none, "body"⟩ with
    | .str hex => decodeHex hex
    | .tagged "bytes" (.str hex) => decodeHex hex
    | _ => none
  pure { cls, epoch, vtype, body }

def sealedValue (form : Edn) : Option Value := (sealedOf form).map .sealed

/-- A scalar form that names no keyword. -/
def plainValue : Edn → Option Value
  | .bool b => some (.bool b)
  | .long i => some (.long i)
  | .double d => some (.double d)
  | .str s => some (.str s)
  | .tagged tag value =>
    match tag, value with
    | "eid", .long n => (idOfLong n).map .ref
    | "inst", .long ms => some (.instant ms)
    | "uuid", .str hex => (fromHex (2 ^ 128) (utf8 hex)).map fun n => .uuid (BitVec.ofNat 128 n)
    | "bytes", .str hex => (decodeHex hex).map .bytes
    | "corium/sealed", map => sealedValue map
    | _, _ => none
  | _ => none

def scalarValue : Edn → Conv (Option Value)
  | .keyword k => do
    let id ← Conv.intern k
    pure (some (.keyword id))
  | form => pure (plainValue form)

/-- `n as f64`: nearest, ties to even. -/
def longToDouble (n : Int64) : TotalF64 :=
  let m := n.toInt.natAbs
  if m = 0 then ⟨0⟩
  else
    let e := Nat.log2 m
    let rounded :=
      if e ≤ 52 then m * 2 ^ (52 - e)
      else
        let q := m / 2 ^ (e - 52)
        let r := m % 2 ^ (e - 52)
        let half := 2 ^ (e - 53)
        if half < r ∨ (r = half ∧ q % 2 = 1) then q + 1 else q
    -- a carry out of the fraction is one more in the exponent
    let bits := (e + 1022) * 2 ^ 52 + rounded
    ⟨UInt64.ofNat (if n.toInt < 0 then 2 ^ 63 + bits else bits)⟩

def coerce (v : Value) (t : ValueType) : Value :=
  match v, t with
  | .long n, .ref => match idOfLong n with
    | some e => .ref e
    | none => v
  | .long n, .instant => .instant n
  | .long n, .double => .double (longToDouble n)
  | _, _ => v

/-- An entity position. Lookup values never intern: a keyword that is not interned
    equals no stored value. -/
def entityRef (db : Db) (form : Edn) : Except TxFormError EntityRef :=
  match form with
  | .str name => .ok (.temp name)
  | .long n => match idOfLong n with
    | some e => .ok (.id e)
    | none => .error (.badEntity form)
  | .keyword k =>
    if isCurrentTx k then .ok (.temp txTempid)
    else match db.idents.entid k with
      | some e => .ok (.id e)
      | none => .error (.unknownAttribute k)
  | .tagged "eid" (.long n) => match idOfLong n with
    | some e => .ok (.id e)
    | none => .error (.badEntity form)
  | .vector [attrForm, valueForm] => do
    let attr ← attrOf db attrForm
    match db.schema.get attr with
    | none => .error (.undefinedAttribute attr)
    | some record =>
      match valueForm with
      | .keyword k => .ok (.lookup attr (coerce (.keyword ((db.interner.get k).getD unknownKeyword)) record.valueType))
      | other => match plainValue other with
        | some v => .ok (.lookup attr (coerce v record.valueType))
        | none => .error (.badValue form)
  | form => .error (.badEntity form)

def Conv.lift {α : Type} (x : Except TxFormError α) : Conv α := ExceptT.mk fun i => (x, i)

/-- A reference position read as a value: only an assertion may name a tempid. -/
def refValue (db : Db) (form : Edn) : Except TxFormError Value :=
  match entityRef db form with
  | .error e => .error e
  | .ok (.id e) => .ok (.ref e)
  | .ok (.temp name) => .error (.tempidValue name)
  | .ok (.lookup a v) => match db.lookup a v with
    | some e => .ok (.ref e)
    | none => .error (.unresolvedLookup form)

def txValue (db : Db) (attr : AttrId) (form : Edn) : Conv Value :=
  match db.schema.get attr with
  | none => Conv.lift (.error (.undefinedAttribute attr))
  | some record =>
    if record.valueType = .ref then Conv.lift (refValue db form)
    else do
      match ← scalarValue form with
      | some v => pure (coerce v record.valueType)
      | none => Conv.lift (.error (.badValue form))

/-- The tempid a value position names: on a reference a bare string is only ever one. -/
def valueTempid (db : Db) (attr : AttrId) : Edn → Option String
  | .str name => if (db.schema.get attr).any (·.valueType = .ref) then some name else none
  | _ => none

/-! ## Forms -/

/-- The `index`-th element of a list form. -/
def arg (items : List Edn) (form : Edn) (index : Nat) : Except TxFormError Edn :=
  match items[index]? with
  | some x => .ok x
  | none => .error (.badForm form)

def addForm (db : Db) (items : List Edn) (form : Edn) : Conv TxOp := do
  let attr ← Conv.lift (do attrOf db (← arg items form 2))
  let entity ← Conv.lift (do entityRef db (← arg items form 1))
  let value ← Conv.lift (arg items form 3)
  match valueTempid db attr value with
  | some target => pure (.addRef entity attr (.temp target))
  | none => do
    let v ← txValue db attr value
    pure (.add entity attr v)

def retractForm (db : Db) (items : List Edn) (form : Edn) : Conv TxOp := do
  let attr ← Conv.lift (do attrOf db (← arg items form 2))
  let entity ← Conv.lift (do entityRef db (← arg items form 1))
  let value ← Conv.lift (arg items form 3)
  let v ← txValue db attr value
  pure (.retract entity attr v)

/-- `nil` expects no value. -/
def oldValue (db : Db) (attr : AttrId) : Edn → Conv (Option Value)
  | .nil => pure none
  | form => do
    let v ← txValue db attr form
    pure (some v)

def casForm (db : Db) (items : List Edn) (form : Edn) : Conv TxOp := do
  let attr ← Conv.lift (do attrOf db (← arg items form 2))
  let expected ← Conv.lift (arg items form 3)
  let old ← oldValue db attr expected
  let entity ← Conv.lift (do entityRef db (← arg items form 1))
  let value ← Conv.lift (arg items form 4)
  let new ← txValue db attr value
  pure (.cas entity attr old new)

def retractEntityForm (db : Db) (items : List Edn) (form : Edn) : Conv TxOp := do
  let entity ← Conv.lift (do entityRef db (← arg items form 1))
  pure (.retractEntity entity)

def listForm (db : Db) (items : List Edn) (form : Edn) : Conv TxOp :=
  match items.head?.bind Edn.asKeyword with
  | none => Conv.lift (.error (.badForm form))
  | some op =>
    let name := op.ns.getD "" ++ "/" ++ op.name
    if name = "db/add" then addForm db items form
    else if name = "db/retract" then retractForm db items form
    else if name = "db/cas" then casForm db items form
    else if name = "db/retractEntity" then retractEntityForm db items form
    else Conv.lift (.error (.unknownOp op))

/-- The values of one attribute of a map form; tempids become references beside them. -/
def mapValues (db : Db) (entity : EntityRef) (attr : AttrId) : List Edn → Conv (List Value × List TxItem)
  | [] => pure ([], [])
  | form :: forms =>
    match valueTempid db attr form with
    | some target => do
      let rest ← mapValues db entity attr forms
      pure (rest.1, .op (.addRef entity attr (.temp target)) :: rest.2)
    | none => do
      let v ← txValue db attr form
      let rest ← mapValues db entity attr forms
      pure (v :: rest.1, rest.2)

/-- A vector is a set of values unless it reads as a lookup ref. -/
def valueForms : Edn → List Edn
  | .vector items =>
    if items.length = 2 ∧ (items.head?.bind Edn.asKeyword).isSome then [.vector items] else items
  | form => [form]

def mapPairs (db : Db) (entity : EntityRef) : List (Edn × Edn) → Conv (List (AttrId × List Value) × List TxItem)
  | [] => pure ([], [])
  | (key, value) :: pairs => do
    let attr ← Conv.lift (attrOf db key)
    let values ← mapValues db entity attr (valueForms value)
    let rest ← mapPairs db entity pairs
    pure (if values.1.isEmpty then rest.1 else (attr, values.1) :: rest.1, values.2 ++ rest.2)

def idKey : Keyword := ⟨some "db", "id"⟩

/-- Literal values become one map, values naming a transaction-local entity
    reference assertions beside it. -/
def mapForm (db : Db) (pairs : List (Edn × Edn)) : Conv (List TxItem) :=
  match pairs.find? fun pair => pair.1.isKeyword idKey with
  | none => Conv.lift (.error .mapWithoutId)
  | some pair => do
    let entity ← Conv.lift (entityRef db pair.2)
    let found ← mapPairs db entity (pairs.filter fun pair => !pair.1.isKeyword idKey)
    pure (.map { entity, attributes := found.1 } :: found.2)

/-- The items one form stands for. -/
def txForm (db : Db) : Edn → Conv (List TxItem)
  | .vector items => do
    let op ← listForm db items (.vector items)
    pure [.op op]
  | .map pairs => mapForm db pairs
  | form => Conv.lift (.error (.badForm form))

def txItemsFromEdn (db : Db) : List Edn → Conv (List TxItem)
  | [] => pure []
  | form :: forms => do
    let items ← txForm db form
    let rest ← txItemsFromEdn db forms
    pure (items ++ rest)

/-! ## What a conversion does to the names -/

/-- A keyword value has a name. -/
def NamedIn (i : KeywordInterner) (v : Value) : Prop := ∀ id, v = .keyword id → (i.resolve id).isSome

theorem NamedIn.mono {i j : KeywordInterner} {v : Value} (h : NamedIn i v) (hij : i.Extends j) : NamedIn j v := by
  intro id hv
  obtain ⟨k, hk⟩ := Option.isSome_iff_exists.mp (h id hv)
  rw [hij.resolve hk]
  rfl

/-- Converting from `i` only adds names, and what is returned satisfies `N` under the names left. -/
def Conv.MintsAt {α : Type} (f : Conv α) (i : KeywordInterner) (N : KeywordInterner → α → Prop) : Prop :=
  i.Extends (f.on i).2 ∧ ∀ a, (f.on i).1 = .ok a → N (f.on i).2 a

section MintsAt

variable {α β : Type} {f : Conv α} {g : α → Conv β} {i : KeywordInterner} {M N : KeywordInterner → α → Prop}
  {K : KeywordInterner → β → Prop}

theorem Conv.mintsAt_pure {a : α} (h : N i a) : (pure a : Conv α).MintsAt i N := by
  refine ⟨KeywordInterner.Extends.refl i, fun b hb => ?_⟩
  cases hb
  exact h

theorem Conv.mintsAt_lift {x : Except TxFormError α} (h : ∀ a, x = .ok a → N i a) : (Conv.lift x).MintsAt i N :=
  ⟨KeywordInterner.Extends.refl i, h⟩

theorem Conv.mintsAt_error {e : TxFormError} : (Conv.lift (.error e) : Conv α).MintsAt i N :=
  Conv.mintsAt_lift fun _ h => nomatch h

/-- The rest runs under the names the first part left. -/
theorem Conv.MintsAt.bind (hf : f.MintsAt i M) (hg : ∀ a j, i.Extends j → M j a → (g a).MintsAt j K) :
    (f >>= g).MintsAt i K := by
  have hon : (f >>= g).on i = match f.on i with
      | (.ok a, j) => (g a).on j
      | (.error e, j) => (.error e, j) := by
    unfold Conv.on
    rw [ExceptT.run_bind, StateT.run_bind]
    rcases hr : StateT.run (ExceptT.run f) i with ⟨r, j⟩
    cases r <;> rfl
  unfold Conv.MintsAt at hf ⊢
  rw [hon]
  rcases hr : f.on i with ⟨r, j⟩
  rw [hr] at hf
  cases r with
  | error e => exact ⟨hf.1, nofun⟩
  | ok a =>
    obtain ⟨hext, hk⟩ := hg a j hf.1 (hf.2 a rfl)
    exact ⟨hf.1.trans hext, hk⟩

end MintsAt

theorem resolve_intern_isSome (i : KeywordInterner) (k : Keyword) : ((i.intern k).2.resolve (i.intern k).1).isSome := by
  -- also past `2 ^ 64` names: the wrapped id is a smaller one
  have hwrap : ∀ n : Nat, (UInt64.ofNat n).toNat ≤ n := fun n => by
    rw [UInt64.toNat_ofNat']
    exact Nat.mod_le n _
  unfold KeywordInterner.intern KeywordInterner.resolve
  split
  · rename_i hmem
    rw [List.getElem?_eq_getElem (Nat.lt_of_le_of_lt (hwrap _) (idxOf_lt_length_of_mem hmem))]
    rfl
  · rw [List.getElem?_eq_getElem (by simpa using Nat.lt_succ_of_le (hwrap i.names.length))]
    rfl

theorem coerce_keyword {v : Value} {t : ValueType} {id : KwId} (h : coerce v t = .keyword id) : v = .keyword id := by
  unfold coerce at h
  split at h
  · split at h
    · cases h
    · exact h
  · cases h
  · cases h
  · exact h

theorem plainValue_named {form : Edn} {v : Value} (h : plainValue form = some v) (i : KeywordInterner) :
    NamedIn i v := by
  rintro id rfl
  unfold plainValue at h
  split at h
  case h_5 =>
    split at h
    · simp at h
    · cases h
    · simp at h
    · simp at h
    · simp [sealedValue] at h
    · cases h
  all_goals cases h

theorem scalarValue_mints (form : Edn) (i : KeywordInterner) :
    (scalarValue form).MintsAt i fun j v => ∀ x, v = some x → NamedIn j x := by
  unfold scalarValue
  split
  · rename_i k
    refine Conv.MintsAt.bind (M := fun j id => (j.resolve id).isSome) ⟨i.intern_extends k, fun id hid => ?_⟩ ?_
    · cases hid
      exact resolve_intern_isSome i k
    · intro id j _ hid
      refine Conv.mintsAt_pure fun x hx id' hid' => ?_
      cases hx
      cases hid'
      exact hid
  · exact Conv.mintsAt_pure fun x hx => plainValue_named hx i

theorem txValue_mints (db : Db) (attr : AttrId) (form : Edn) (i : KeywordInterner) :
    (txValue db attr form).MintsAt i NamedIn := by
  unfold txValue
  split
  · exact Conv.mintsAt_error
  · rename_i record _
    split
    · refine Conv.mintsAt_lift fun v hv id hid => ?_
      subst hid
      unfold refValue at hv
      split at hv
      · cases hv
      · cases hv
      · cases hv
      · split at hv <;> cases hv
    · refine (scalarValue_mints form i).bind fun v j _ hv => ?_
      split
      · rename_i x
        exact Conv.mintsAt_pure fun id hid => hv x rfl id (coerce_keyword hid)
      · exact Conv.mintsAt_error

/-- Every keyword the operation writes has a name. -/
def OpNamed (i : KeywordInterner) (op : TxOp) : Prop := ∀ v ∈ opValues op, NamedIn i v

def ItemsNamed (i : KeywordInterner) (items : List TxItem) : Prop := ∀ op ∈ expandItems items, OpNamed i op

theorem OpNamed.mono {i j : KeywordInterner} {op : TxOp} (h : OpNamed i op) (hij : i.Extends j) : OpNamed j op :=
  fun v hv => (h v hv).mono hij

theorem ItemsNamed.mono {i j : KeywordInterner} {items : List TxItem} (h : ItemsNamed i items) (hij : i.Extends j) :
    ItemsNamed j items :=
  fun op hop => (h op hop).mono hij

theorem itemsNamed_append {i : KeywordInterner} {xs ys : List TxItem} (hx : ItemsNamed i xs) (hy : ItemsNamed i ys) :
    ItemsNamed i (xs ++ ys) := by
  intro op hop
  unfold expandItems at hop
  rw [flatMap_append] at hop
  rcases mem_append.mp hop with hop | hop
  · exact hx op hop
  · exact hy op hop

theorem itemsNamed_cons {i : KeywordInterner} {x : TxItem} {xs : List TxItem} (hx : ItemsNamed i [x])
    (hxs : ItemsNamed i xs) : ItemsNamed i (x :: xs) :=
  itemsNamed_append hx hxs

theorem itemsNamed_op {i : KeywordInterner} {op : TxOp} (h : OpNamed i op) : ItemsNamed i [.op op] := by
  intro op' hop
  simp only [expandItems, flatMap_cons, expandItem, flatMap_nil, append_nil, mem_singleton] at hop
  exact hop ▸ h

theorem itemsNamed_nil (i : KeywordInterner) : ItemsNamed i [] := by
  intro op hop
  cases hop

theorem addForm_mints (db : Db) (items : List Edn) (form : Edn) (i : KeywordInterner) :
    (addForm db items form).MintsAt i OpNamed := by
  refine (Conv.mintsAt_lift (N := fun _ _ => True) fun _ _ => trivial).bind fun attr j _ _ => ?_
  refine (Conv.mintsAt_lift (N := fun _ _ => True) fun _ _ => trivial).bind fun entity j _ _ => ?_
  refine (Conv.mintsAt_lift (N := fun _ _ => True) fun _ _ => trivial).bind fun value j _ _ => ?_
  split
  · exact Conv.mintsAt_pure fun v hv => absurd hv (by simp [opValues])
  · refine (txValue_mints db attr value j).bind fun v j _ hv => ?_
    exact Conv.mintsAt_pure fun x hx => mem_singleton.mp hx ▸ hv

theorem retractForm_mints (db : Db) (items : List Edn) (form : Edn) (i : KeywordInterner) :
    (retractForm db items form).MintsAt i OpNamed := by
  refine (Conv.mintsAt_lift (N := fun _ _ => True) fun _ _ => trivial).bind fun attr j _ _ => ?_
  refine (Conv.mintsAt_lift (N := fun _ _ => True) fun _ _ => trivial).bind fun entity j _ _ => ?_
  refine (Conv.mintsAt_lift (N := fun _ _ => True) fun _ _ => trivial).bind fun value j _ _ => ?_
  refine (txValue_mints db attr value j).bind fun v j _ hv => ?_
  exact Conv.mintsAt_pure fun x hx => mem_singleton.mp hx ▸ hv

theorem oldValue_mints (db : Db) (attr : AttrId) (form : Edn) (i : KeywordInterner) :
    (oldValue db attr form).MintsAt i fun j old => ∀ v ∈ old.toList, NamedIn j v := by
  unfold oldValue
  split
  · exact Conv.mintsAt_pure nofun
  · refine (txValue_mints db attr form i).bind fun v j _ hv => ?_
    exact Conv.mintsAt_pure fun x hx => mem_singleton.mp hx ▸ hv

theorem casForm_mints (db : Db) (items : List Edn) (form : Edn) (i : KeywordInterner) :
    (casForm db items form).MintsAt i OpNamed := by
  refine (Conv.mintsAt_lift (N := fun _ _ => True) fun _ _ => trivial).bind fun attr j _ _ => ?_
  refine (Conv.mintsAt_lift (N := fun _ _ => True) fun _ _ => trivial).bind fun expected j _ _ => ?_
  refine (oldValue_mints db attr expected j).bind fun old j1 _ hold => ?_
  refine (Conv.mintsAt_lift (i := j1) (N := fun k _ => j1.Extends k)
    fun _ _ => KeywordInterner.Extends.refl j1).bind fun entity j2 _ h12 => ?_
  refine (Conv.mintsAt_lift (i := j2) (N := fun k _ => j1.Extends k) fun _ _ => h12).bind fun value j3 _ h13 => ?_
  refine (txValue_mints db attr value j3).bind fun v j4 h34 hv => ?_
  refine Conv.mintsAt_pure fun x hx => ?_
  rcases mem_append.mp hx with hx | hx
  · exact (hold x hx).mono (h13.trans h34)
  · exact mem_singleton.mp hx ▸ hv

theorem listForm_mints (db : Db) (items : List Edn) (form : Edn) (i : KeywordInterner) :
    (listForm db items form).MintsAt i OpNamed := by
  unfold listForm
  split
  · exact Conv.mintsAt_error
  · rename_i op _
    dsimp only
    generalize op.ns.getD "" ++ "/" ++ op.name = name
    split
    · exact addForm_mints db items form i
    · split
      · exact retractForm_mints db items form i
      · split
        · exact casForm_mints db items form i
        · split
          · refine (Conv.mintsAt_lift (N := fun _ _ => True) fun _ _ => trivial).bind fun entity j _ _ => ?_
            exact Conv.mintsAt_pure fun v hv => absurd hv (by simp [opValues])
          · exact Conv.mintsAt_error

theorem mapValues_mints (db : Db) (entity : EntityRef) (attr : AttrId) (forms : List Edn) (i : KeywordInterner) :
    (mapValues db entity attr forms).MintsAt i fun j found => (∀ v ∈ found.1, NamedIn j v) ∧ ItemsNamed j found.2 := by
  induction forms generalizing i with
  | nil => exact Conv.mintsAt_pure ⟨nofun, itemsNamed_nil i⟩
  | cons form forms ih =>
    unfold mapValues
    split
    · rename_i target _
      refine (ih i).bind fun rest j _ hrest => ?_
      refine Conv.mintsAt_pure ⟨hrest.1, ?_⟩
      exact itemsNamed_cons (itemsNamed_op fun v hv => absurd hv (by simp [opValues])) hrest.2
    · refine (txValue_mints db attr form i).bind fun v j _ hv => ?_
      refine (ih j).bind fun rest k hjk hrest => ?_
      refine Conv.mintsAt_pure ⟨fun x hx => ?_, hrest.2⟩
      rcases mem_cons.mp hx with rfl | hx
      · exact hv.mono hjk
      · exact hrest.1 x hx

theorem mapPairs_mints (db : Db) (entity : EntityRef) (pairs : List (Edn × Edn)) (i : KeywordInterner) :
    (mapPairs db entity pairs).MintsAt i fun j found =>
      (∀ entry ∈ found.1, ∀ v ∈ entry.2, NamedIn j v) ∧ ItemsNamed j found.2 := by
  induction pairs generalizing i with
  | nil => exact Conv.mintsAt_pure ⟨nofun, itemsNamed_nil i⟩
  | cons pair pairs ih =>
    refine (Conv.mintsAt_lift (N := fun _ _ => True) fun _ _ => trivial).bind fun attr j _ _ => ?_
    refine (mapValues_mints db entity attr _ j).bind fun values k _ hvalues => ?_
    refine (ih k).bind fun rest l hkl hrest => ?_
    refine Conv.mintsAt_pure ⟨fun entry hentry v hv => ?_, itemsNamed_append (hvalues.2.mono hkl) hrest.2⟩
    dsimp only at hentry
    split at hentry
    · exact hrest.1 entry hentry v hv
    · rcases mem_cons.mp hentry with rfl | hentry
      · exact (hvalues.1 v hv).mono hkl
      · exact hrest.1 entry hentry v hv

theorem mapForm_mints (db : Db) (pairs : List (Edn × Edn)) (i : KeywordInterner) :
    (mapForm db pairs).MintsAt i ItemsNamed := by
  unfold mapForm
  split
  · exact Conv.mintsAt_error
  · refine (Conv.mintsAt_lift (N := fun _ _ => True) fun _ _ => trivial).bind fun entity j _ _ => ?_
    refine (mapPairs_mints db entity _ j).bind fun found k _ hfound => ?_
    refine Conv.mintsAt_pure (itemsNamed_cons (fun op hop => ?_) hfound.2)
    simp only [expandItems, flatMap_cons, expandItem, flatMap_nil, append_nil, mem_flatMap,
      mem_map] at hop
    obtain ⟨entry, hentry, v, hv, rfl⟩ := hop
    exact fun x hx => mem_singleton.mp hx ▸ hfound.1 entry hentry v hv

/-- Conversion only adds names, and names every keyword of the items it returns. -/
theorem txItemsFromEdn_mints (db : Db) (forms : List Edn) (i : KeywordInterner) :
    (txItemsFromEdn db forms).MintsAt i ItemsNamed := by
  induction forms generalizing i with
  | nil => exact Conv.mintsAt_pure (itemsNamed_nil i)
  | cons form forms ih =>
    have hform : (txForm db form).MintsAt i ItemsNamed := by
      unfold txForm
      split
      · exact (listForm_mints db _ _ i).bind fun op j _ hop => Conv.mintsAt_pure (itemsNamed_op hop)
      · exact mapForm_mints db _ i
      · exact Conv.mintsAt_error
    refine hform.bind fun items j _ hitems => ?_
    refine (ih j).bind fun rest k hjk hrest => ?_
    exact Conv.mintsAt_pure (itemsNamed_append (hitems.mono hjk) hrest)

end Corium.Forms
