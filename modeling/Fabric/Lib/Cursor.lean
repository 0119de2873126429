import Fabric.Lib.FiniteMap

/-! # Cursors over sorted entries -/

namespace Fabric.Lib

structure Cursor (K V : Type) where
  entries : List (K × V)
  pos : Nat

theorem drop_findIdx {α : Type} {p : α → Bool} {xs : List α} (mono : xs.Pairwise fun a b => p a → p b) :
    xs.drop (xs.findIdx p) = xs.filter p := by
  have constant : xs.Pairwise fun _ _ => false = true → false = true := mono.imp fun _ past => past
  have whole : xs.findIdx (fun _ => false) = xs.length := by simp
  simpa [whole] using drop_take_findIdx mono constant

namespace Cursor

variable {K V : Type} (c : Cursor K V)

def next : Option (K × V) × Cursor K V :=
  match c.entries[c.pos]? with
  | some e => (some e, { c with pos := c.pos + 1 })
  | none => (none, { c with pos := c.entries.length + 1 })

def prev : Cursor K V := { c with pos := c.pos - 1 }

def seek [Ord K] (k : K) : Cursor K V :=
  { c with pos := c.entries.findIdx (fun e => (compare k e.1).isLE) + 1 }

def rest : List (K × V) := c.entries.drop c.pos

theorem next_of_rest_cons {c : Cursor K V} {e : K × V} {tail : List (K × V)} (ahead : c.rest = e :: tail) :
    c.next = (some e, { c with pos := c.pos + 1 }) ∧ { c with pos := c.pos + 1 }.rest = tail := by
  have found : c.entries[c.pos]? = some e := by
    rw [← List.head?_drop, ← rest, ahead]
    rfl
  rw [next, found]
  refine ⟨rfl, ?_⟩
  rw [rest, ← List.drop_drop, ← rest, ahead]
  rfl

theorem next_of_rest_nil {c : Cursor K V} (ahead : c.rest = []) : c.next = (none, { c with pos := c.entries.length + 1 }) := by
  have found : c.entries[c.pos]? = none := List.getElem?_eq_none (List.drop_eq_nil_iff.mp ahead)
  rw [next, found]

theorem rest_behind : { c with pos := c.entries.length + 1 }.rest = [] :=
  List.drop_eq_nil_of_le (Nat.le_succ _)

end Cursor

end Fabric.Lib
