/-
  Corium.Lib.Wire — messages with a table of the strings they have used: writing
  item by item, reading in the same order, and round trips.

  A writer is a list of items; an item is the bytes it adds, given the strings
  written before it. `Reads r ws a` says that `r` reads `a` off what `ws` wrote,
  whatever follows and whatever strings came before, and leaves what follows
  unread. The rules compose it along sequences and repetitions, so that a codec's
  round trip is assembled field by field in the order of the format.
-/

import Corium.Lib.OrdCode

namespace Corium.Lib.Wire

/-- The strings of a message, in the order of their first use. -/
abbrev Table := List String

/-- One item of a message. -/
structure Write where
  run : Table → Bytes × Table
  /-- An item brings at most one string. -/
  grows : ∀ t, (run t).2.length ≤ t.length + 1

namespace Write

def raw (bytes : Bytes) : Write := ⟨fun t => (bytes, t), fun t => Nat.le_succ t.length⟩

end Write

def writeAll : List Write → Table → Bytes × Table
  | [], t => ([], t)
  | w :: ws, t => ((w.run t).1 ++ (writeAll ws (w.run t).2).1, (writeAll ws (w.run t).2).2)

theorem writeAll_append (ws ws' : List Write) (t : Table) : writeAll (ws ++ ws') t =
    ((writeAll ws t).1 ++ (writeAll ws' (writeAll ws t).2).1, (writeAll ws' (writeAll ws t).2).2) := by
  induction ws generalizing t with
  | nil => rfl
  | cons w ws ih => simp [writeAll, ih]

theorem writeAll_grows (ws : List Write) (t : Table) : (writeAll ws t).2.length ≤ t.length + ws.length := by
  induction ws generalizing t with
  | nil => exact Nat.le_refl _
  | cons w ws ih =>
    have hw := w.grows t
    have hws := ih (w.run t).2
    simp only [writeAll, List.length_cons]
    omega

/-- What is left to read, and the strings read so far. -/
structure Input where
  bytes : Bytes
  table : Table

abbrev Reader (ε : Type) := StateT Input (Except ε)

def readMany {ε α : Type} (r : Reader ε α) : Nat → Reader ε (List α)
  | 0 => pure []
  | n + 1 => do
    let a ← r
    let rest ← readMany r n
    pure (a :: rest)

/-- `r` reads `a` off the items `ws`, for as many strings as an index can count. -/
def Reads {ε α : Type} (r : Reader ε α) (ws : List Write) (a : α) : Prop :=
  ∀ (t : Table) (rest : Bytes), t.length + ws.length < 2 ^ 64 →
    r.run ⟨(writeAll ws t).1 ++ rest, t⟩ = .ok (a, ⟨rest, (writeAll ws t).2⟩)

section Reads

variable {ε α β γ : Type} {r : Reader ε α} {ws ws' : List Write} {a : α}
variable {f : α → Reader ε β} {b : β}

theorem run_bind_ok {i i' : Input} (h : r.run i = .ok (a, i')) : (r >>= f).run i = (f a).run i' := by
  rw [StateT.run_bind, h]
  rfl

theorem Reads.pure (a : α) : Reads (Pure.pure a : Reader ε α) [] a := fun _ _ _ => rfl

theorem Reads.bind (h : Reads r ws a) (h' : Reads (f a) ws' b) : Reads (r >>= f) (ws ++ ws') b := by
  intro t rest hlen
  have hgrows := writeAll_grows ws t
  rw [List.length_append] at hlen
  rw [writeAll_append, List.append_assoc, run_bind_ok (h t _ (by omega))]
  exact h' _ rest (by omega)

theorem Reads.cons {w : Write} {f : α → Reader ε β} {b : β} (h : Reads r [w] a) (h' : Reads (f a) ws b) :
    Reads (r >>= f) (w :: ws) b := h.bind h'

/-- A read followed by a conversion that succeeds. -/
theorem Reads.then_pure (h : Reads r ws a) (h' : Reads (f a) [] b) : Reads (r >>= f) ws b := by
  have := h.bind h'
  rwa [List.append_nil] at this

theorem Reads.many {w : γ → List Write} {f : γ → α} {l : List γ} (h : ∀ x ∈ l, Reads r (w x) (f x)) :
    Reads (readMany r l.length) (l.flatMap w) (l.map f) := by
  induction l with
  | nil => exact .pure []
  | cons x l ih =>
    have hrest := ih fun y hy => h y (List.mem_cons_of_mem _ hy)
    exact (h x List.mem_cons_self).bind (hrest.then_pure (.pure _))

end Reads

end Corium.Lib.Wire
