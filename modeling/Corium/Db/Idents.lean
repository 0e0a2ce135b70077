/-
  Corium.Db.Idents — the ident registry as a list of registrations.

  Registering is inserting into two maps, so in both the last registration decides.
  A transaction's registrations are the names its collapsed `:db/ident` values
  resolve to (`namesOf`); repeating the last of a list of registrations changes
  nothing (`register_again`). The engine's own names are in place in every registry
  that was installed and in which nothing took them over (`HasEngine`).
-/

import Corium.Db.SchemaDatoms
import Corium.Lib.Insertion

namespace Corium.Idents

open Corium.Core Corium.Lib Bootstrap

/-- Registers one name after another. -/
def register (idents : Idents) (names : List (Keyword × EntityId)) : Idents :=
  names.foldl (fun i x => i.insert x.1 x.2) idents

theorem register_append (idents : Idents) (xs ys : List (Keyword × EntityId)) :
    idents.register (xs ++ ys) = (idents.register xs).register ys := List.foldl_append

theorem register_eq (idents : Idents) (names : List (Keyword × EntityId)) : idents.register names =
    ⟨names.foldl (fun m x => m.insert x.1 x.2) idents.byKeyword, names.foldl (fun m x => m.insert x.2 x.1) idents.byId⟩ := by
  unfold register
  induction names generalizing idents with
  | nil => rfl
  | cons x names ih => exact ih _

theorem register_entid (idents : Idents) (names : List (Keyword × EntityId)) (k : Keyword) :
    (idents.register names).entid k = ((names.filter fun x => x.1 = k).getLast?.map (·.2)).or (idents.entid k) := by
  rw [register_eq]
  exact getElem?_foldl_insert (fun x : Keyword × EntityId => x.1) (fun x => x.2) names idents.byKeyword k

theorem register_ident (idents : Idents) (names : List (Keyword × EntityId)) (e : EntityId) :
    (idents.register names).ident e = ((names.filter fun x => x.2 = e).getLast?.map (·.1)).or (idents.ident e) := by
  rw [register_eq]
  exact getElem?_foldl_insert (fun x : Keyword × EntityId => x.2) (fun x => x.1) names idents.byId e

theorem ext_answers {i j : Idents} (hentid : ∀ k, i.entid k = j.entid k) (hident : ∀ e, i.ident e = j.ident e) : i = j := by
  have hk : i.byKeyword = j.byKeyword := Std.ExtTreeMap.ext_getElem? fun {k} => hentid k
  have he : i.byId = j.byId := Std.ExtTreeMap.ext_getElem? fun {e} => hident e
  cases i; cases j
  simp_all

theorem or_or_self {α : Type} (a b c : Option α) : a.or ((a.or b).or c) = (a.or b).or c := by
  cases a <;> rfl

/-- The last registrations, made again, change nothing. -/
theorem register_again (idents : Idents) (xs ys : List (Keyword × EntityId)) :
    (idents.register (xs ++ ys)).register ys = idents.register (xs ++ ys) := by
  refine ext_answers (fun k => ?_) (fun e => ?_)
  · rw [register_entid, register_entid, List.filter_append, List.getLast?_append, Option.map_or]
    exact or_or_self _ _ _
  · rw [register_ident, register_ident, List.filter_append, List.getLast?_append, Option.map_or]
    exact or_or_self _ _ _

/-! ## The engine's names -/

/-- The engine's attributes have their names, and the names their attributes. -/
def HasEngine (idents : Idents) : Prop :=
  ∀ entry ∈ attributes, idents.entid entry.1 = some entry.2.id ∧ idents.ident entry.2.id = some entry.1

theorem installIdents_eq_register (idents : Idents) :
    installIdents idents = idents.register (Bootstrap.attributes.map fun entry => (entry.1, entry.2.id)) := by
  unfold register
  rw [List.foldl_map]
  rfl

theorem hasEngine_installIdents (idents : Idents) : HasEngine (installIdents idents) := by
  have hlast : ∀ entry ∈ attributes,
      ((Bootstrap.attributes.map fun x => (x.1, x.2.id)).filter fun x => x.1 = entry.1).getLast? = some (entry.1, entry.2.id) ∧
      ((Bootstrap.attributes.map fun x => (x.1, x.2.id)).filter fun x => x.2 = entry.2.id).getLast? =
        some (entry.1, entry.2.id) := by
    decide
  intro entry hentry
  rw [installIdents_eq_register, register_entid, register_ident, (hlast entry hentry).1, (hlast entry hentry).2]
  exact ⟨rfl, rfl⟩

theorem HasEngine.installIdents {idents : Idents} (h : HasEngine idents) : installIdents idents = idents := by
  rw [installIdents_eq_register]
  refine ext_answers (fun k => ?_) (fun e => ?_)
  · rw [register_entid]
    cases hl : ((Bootstrap.attributes.map fun entry => (entry.1, entry.2.id)).filter fun x => x.1 = k).getLast? with
    | none => rfl
    | some x =>
      obtain ⟨hx, hk⟩ := List.mem_filter.mp (List.mem_of_getLast? hl)
      obtain ⟨entry, hentry, rfl⟩ := List.mem_map.mp hx
      rw [← of_decide_eq_true hk]
      exact (h entry hentry).1.symm
  · rw [register_ident]
    cases hl : ((Bootstrap.attributes.map fun entry => (entry.1, entry.2.id)).filter fun x => x.2 = e).getLast? with
    | none => rfl
    | some x =>
      obtain ⟨hx, hk⟩ := List.mem_filter.mp (List.mem_of_getLast? hl)
      obtain ⟨entry, hentry, rfl⟩ := List.mem_map.mp hx
      rw [← of_decide_eq_true hk]
      exact (h entry hentry).2.symm

/-- Names that are none of the engine's, of entities that are none of its attributes, leave the engine's alone. -/
theorem HasEngine.register {idents : Idents} (h : HasEngine idents) {names : List (Keyword × EntityId)}
    (hnames : ∀ x ∈ names, ∀ entry ∈ attributes, entry.1 ≠ x.1 ∧ entry.2.id ≠ x.2) :
    HasEngine (idents.register names) := by
  intro entry hentry
  have hk : names.filter (fun x => x.1 = entry.1) = [] :=
    List.filter_eq_nil_iff.mpr fun x hx heq => (hnames x hx entry hentry).1 (of_decide_eq_true heq).symm
  have he : names.filter (fun x => x.2 = entry.2.id) = [] :=
    List.filter_eq_nil_iff.mpr fun x hx heq => (hnames x hx entry hentry).2 (of_decide_eq_true heq).symm
  rw [register_entid, register_ident, hk, he]
  exact h entry hentry

end Corium.Idents

namespace Corium.SchemaDatoms

open Corium.Core

/-- The names a transaction registers. -/
def namesOf (interner : KeywordInterner) (datoms : List Datom) : List (Keyword × EntityId) :=
  (finalValues datoms).toList.filterMap fun entry =>
    if entry.1.2 = Bootstrap.ident then (entry.2.bind (keywordOf interner)).map fun k => (k, entry.1.1) else none

theorem deriveIdents_eq_register (idents : Idents) (interner : KeywordInterner) (datoms : List Datom) :
    deriveIdents idents interner datoms = idents.register (namesOf interner datoms) := by
  unfold deriveIdents Idents.register namesOf
  rw [List.foldl_filterMap]
  congr 1
  funext idents entry
  unfold deriveIdent
  split
  · cases entry.2.bind (keywordOf interner) <;> rfl
  · rfl

end Corium.SchemaDatoms
