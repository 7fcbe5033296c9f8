/-!
# Records in order

A registry holds records by id, in the order in which the ids first came. A
record that comes again takes the place of the earlier one.

* `Registry.insert`: adds or replaces a record.
* `Registry.get?`, `Registry.ids`: the record of an id, and all ids.
* `Registry.addNew`: adds a record unless its id is there.
-/

namespace Stagecraft

/-- Records with an id. -/
class Keyed (α : Type) where
  key : α → String

open Keyed (key)

/-- Records by id; no id stands twice. -/
structure Registry (α : Type) [Keyed α] where
  toList : List α
  nodup : (toList.map key).Nodup

namespace Registry

variable {α : Type} [Keyed α]

/-- A list of records with `a` in place of the record of its id, or at the end. -/
def place (a : α) : List α → List α
  | [] => [a]
  | b :: bs => if key b = key a then a :: bs else b :: place a bs

theorem map_key_place (a : α) (as : List α) :
    (place a as).map key = if key a ∈ as.map key then as.map key else as.map key ++ [key a] := by
  fun_induction place a as <;> grind

def empty : Registry α := ⟨[], by simp⟩

/-- Adds a record, or replaces the one of its id in place. -/
def insert (r : Registry α) (a : α) : Registry α where
  toList := place a r.toList
  nodup := by
    rw [map_key_place]
    have := r.nodup
    split
    · exact this
    · rename_i h
      exact List.nodup_append.2 ⟨this, by simp, by intro x hx y hy; simp_all; grind⟩

/-- Adds or replaces several records, one after the other. -/
def insertAll (r : Registry α) (as : List α) : Registry α := as.foldl insert r

def ofList (as : List α) : Registry α := empty.insertAll as

def get? (r : Registry α) (i : String) : Option α := r.toList.find? (key · == i)

def ids (r : Registry α) : List String := r.toList.map key

def contains (r : Registry α) (i : String) : Bool := (r.get? i).isSome

def size (r : Registry α) : Nat := r.toList.length

def isEmpty (r : Registry α) : Bool := r.toList.isEmpty

/-- Adds a record unless its id is there. -/
def addNew (r : Registry α) (a : α) : Registry α :=
  if r.contains (key a) then r else r.insert a

/-- Adds several records, each unless its id is there by then. -/
def addAllNew (r : Registry α) (as : List α) : Registry α := as.foldl addNew r

@[simp] theorem toList_empty : (empty : Registry α).toList = [] := rfl

@[simp] theorem toList_insert (r : Registry α) (a : α) :
    (r.insert a).toList = place a r.toList := rfl

theorem ids_insert (r : Registry α) (a : α) :
    (r.insert a).ids = if key a ∈ r.ids then r.ids else r.ids ++ [key a] :=
  map_key_place a r.toList

theorem nodup_ids (r : Registry α) : r.ids.Nodup := r.nodup

theorem find?_place_self (a : α) (as : List α) :
    (place a as).find? (key · == key a) = some a := by
  fun_induction place a as <;> simp_all

theorem find?_place_of_ne {i : String} {a : α} (h : i ≠ key a) (as : List α) :
    (place a as).find? (key · == i) = as.find? (key · == i) := by
  fun_induction place a as with
  | case1 => simp [Ne.symm h]
  | case2 b bs hb => simp [hb, Ne.symm h]
  | case3 b bs _ ih => simp only [List.find?_cons, ih]

@[simp] theorem get?_insert_self (r : Registry α) (a : α) : (r.insert a).get? (key a) = some a :=
  find?_place_self a r.toList

/-- A record that is inserted changes no other one. -/
theorem get?_insert_of_ne {i : String} {a : α} (r : Registry α) (h : i ≠ key a) :
    (r.insert a).get? i = r.get? i :=
  find?_place_of_ne h r.toList

theorem contains_iff_mem_ids (r : Registry α) (i : String) : r.contains i = true ↔ i ∈ r.ids := by
  simp [contains, get?, ids]

end Registry

end Stagecraft
