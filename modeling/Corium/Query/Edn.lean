/-
  Corium.Query.Edn — EDN forms (`crates/corium-query/src/edn.rs`), as far as
  transaction forms read them. The reader and the printer are left out.
-/

import Corium.Core.Keyword

namespace Corium.Query

open Corium.Core

inductive Edn where
  | nil
  | bool (b : Bool)
  | long (i : Int64)
  | double (d : TotalF64)
  | str (s : String)
  | keyword (k : Keyword)
  /-- Printed verbatim. -/
  | symbol (text : String)
  | list (items : List Edn)
  | vector (items : List Edn)
  /-- Sorted key/value pairs. -/
  | map (pairs : List (Edn × Edn))
  /-- Sorted, deduplicated elements. -/
  | set (items : List Edn)
  | tagged (tag : String) (value : Edn)

namespace Edn

def asKeyword : Edn → Option Keyword
  | .keyword k => some k
  | _ => none

/-- The elements of a list or a vector. -/
def asSeq : Edn → Option (List Edn)
  | .list items | .vector items => some items
  | _ => none

/-- The form is the keyword `k`. -/
def isKeyword (k : Keyword) (form : Edn) : Bool := form.asKeyword = some k

/-- A map's value under the keyword `k`; every key the engine looks up is one. -/
def get (form : Edn) (k : Keyword) : Option Edn :=
  match form with
  | .map pairs => (pairs.find? fun pair => pair.1.isKeyword k).map (·.2)
  | _ => none

end Edn

end Corium.Query
