import Mathlib.Data.Option.Basic

/-!
# Finite maps as lookup functions

The meaning of a hash map: `get`, `set` and `del`, with the one law that
matters, that an update is seen at its own key and nowhere else.
-/

namespace Tributary.Lib

variable {κ α : Type*}

/-- A map from keys to values. -/
structure Table (κ α : Type*) where
  get : κ → Option α

namespace Table

/-- The map without entries. -/
def empty : Table κ α := ⟨fun _ => none⟩

@[simp] theorem get_empty (j : κ) : (empty : Table κ α).get j = none := rfl

variable [DecidableEq κ]

/-- Insert or replace. -/
def set (t : Table κ α) (k : κ) (v : α) : Table κ α :=
  ⟨fun j => if j = k then some v else t.get j⟩

/-- Remove a key. -/
def del (t : Table κ α) (k : κ) : Table κ α :=
  ⟨fun j => if j = k then none else t.get j⟩

@[simp] theorem get_set_self (t : Table κ α) (k : κ) (v : α) :
    (t.set k v).get k = some v := if_pos rfl

theorem get_set (t : Table κ α) (k j : κ) (v : α) :
    (t.set k v).get j = if j = k then some v else t.get j := rfl

theorem get_del (t : Table κ α) (k j : κ) :
    (t.del k).get j = if j = k then none else t.get j := rfl

end Table

end Tributary.Lib
