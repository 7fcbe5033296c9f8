import Mathlib.Data.List.Nodup
import Stagecraft.Proofs.Stock

/-!
# Records with an index of their places

The records of a registry can be kept in a row beside an index, which lists the place of
each record under its id. A record is found through the index then, and it is replaced or
changed at its place; the index grows with the row and never changes otherwise. What this
gives is a registry, and every operation is the one of the registry.

* `Indexed`: the row and its index, which list the same records.
* `Indexed.insert`, `Indexed.update`: a record that comes, and one that is changed in place.
* `Indexed.toRegistry_insert`, `Indexed.toRegistry_update`, `Indexed.get?_eq`,
  `Indexed.contains_eq`, `Indexed.insert_snd`: **the operations are those of a registry**.
-/

namespace Stagecraft

open Keyed (key)

/-- Records in a row, and the place of each of them by its id. -/
structure Indexed (α : Type) [Keyed α] where
  entries : Array α
  index : Std.HashMap String Nat
  /-- The index lists each place under the id of the record there, and nothing else. -/
  index_iff : ∀ i p, index[i]? = some p ↔ entries[p]?.map key = some i

namespace Registry

variable {α : Type} [Keyed α]

/-- Changes the record of an id, if there is one. -/
def update (r : Registry α) (i : String) (f : α → α) : Registry α :=
  match r.get? i with
  | some a => r.insert (f a)
  | none => r

theorem get?_eq_none_iff {r : Registry α} {i : String} : r.get? i = none ↔ i ∉ r.ids := by
  rw [← contains_iff_mem_ids, contains]
  cases r.get? i <;> simp

/-- A record that takes the place of the one with its id. -/
theorem place_eq_set {a : α} {as : List α} (hnodup : (as.map key).Nodup) {p : Nat}
    (h : as[p]?.map key = some (key a)) : place a as = as.set p a := by
  induction as generalizing p with
  | nil => cases h
  | cons b bs ih =>
    obtain ⟨hb, hbs⟩ := List.nodup_cons.1 hnodup
    cases p with
    | zero =>
      have hsame : key b = key a := Option.some.inj h
      rw [place, if_pos hsame, List.set_cons_zero]
    | succ p =>
      rw [List.getElem?_cons_succ] at h
      have hmem : key a ∈ bs.map key := by
        obtain ⟨c, hc, hkey⟩ := Option.map_eq_some_iff.1 h
        exact hkey ▸ List.mem_map_of_mem (List.mem_of_getElem? hc)
      have hne : key b ≠ key a := fun he => hb (he ▸ hmem)
      rw [place, if_neg hne, ih hbs h, List.set_cons_succ]

end Registry

namespace Indexed

variable {α : Type} [Keyed α] {x : Indexed α} {i : String} {p : Nat} {a : α}

theorem lt_of_index (h : x.index[i]? = some p) : p < x.entries.size := by
  obtain ⟨a, ha, -⟩ := Option.map_eq_some_iff.1 ((x.index_iff i p).1 h)
  exact (Array.getElem?_eq_some_iff.1 ha).1

/-- The record at a place of the index. -/
def entry (x : Indexed α) (h : x.index[i]? = some p) : α :=
  x.entries[Fin.mk p (lt_of_index h)]

theorem getElem?_entries (h : x.index[i]? = some p) : x.entries[p]? = some (x.entry h) :=
  Array.getElem?_eq_getElem (lt_of_index h)

theorem key_entry (h : x.index[i]? = some p) : key (x.entry h) = i := by
  have hget := (x.index_iff i p).1 h
  rw [getElem?_entries h] at hget
  exact Option.some.inj hget

theorem entry_mem (h : x.index[i]? = some p) : x.entry h ∈ x.entries.toList :=
  Array.getElem_mem_toList _

/-! ## Operations -/

def empty : Indexed α where
  entries := #[]
  index := ∅
  index_iff := by simp

def size (x : Indexed α) : Nat := x.entries.size

def contains (x : Indexed α) (i : String) : Bool := x.index.contains i

/-- The record of an id, at the place that the index gives. -/
def get? (x : Indexed α) (i : String) : Option α :=
  match h : x.index[i]? with
  | some _ => some (x.entry h)
  | none => none

/-- Puts a record at the place of one that has its id. -/
def put (x : Indexed α) (a : α) (h : x.index[key a]? = some p) : Indexed α where
  entries := x.entries.set p a (lt_of_index h)
  index := x.index
  index_iff := by
    intro j q
    rw [x.index_iff, Array.getElem?_set]
    by_cases hq : p = q
    · rw [← hq, if_pos rfl, (x.index_iff _ _).1 h]
      rfl
    · rw [if_neg hq]

/-- Puts a record behind the others, if its id is new. -/
def push (x : Indexed α) (a : α) (h : x.index[key a]? = none) : Indexed α where
  entries := x.entries.push a
  index := x.index.insert (key a) x.entries.size
  index_iff := by
    intro j q
    rw [Std.HashMap.getElem?_insert, Array.getElem?_push]
    by_cases hj : key a = j
    · -- no record in front has the id
      have hnone : ∀ q, x.entries[q]?.map key ≠ some j := fun q hq => by
        rw [← x.index_iff, ← hj, h] at hq
        cases hq
      by_cases hq : q = x.entries.size
      · simp [hj, hq]
      · simp [hj, hq, hnone q, Ne.symm hq]
    · by_cases hq : q = x.entries.size
      · have hout : x.index[j]? ≠ some x.entries.size := fun hi =>
          Nat.lt_irrefl _ (lt_of_index hi)
        simp [hj, hq, hout]
      · simp [hj, hq, x.index_iff]

/-- Adds a record, or replaces the one of its id in place and gives that one back. -/
def insert (x : Indexed α) (a : α) : Indexed α × Option α :=
  match h : x.index[key a]? with
  | some _ => (x.put a h, some (x.entry h))
  | none => (x.push a h, none)

/-- Changes the record of an id in place, by what leaves its id alone. -/
def update (x : Indexed α) (i : String) (f : α → α) (hf : ∀ a, key (f a) = key a) : Indexed α :=
  match h : x.index[i]? with
  | some p => x.put (f (x.entry h)) (by rwa [hf, key_entry h])
  | none => x

/-- Adds or replaces several records, one after the other. -/
def insertAll (x : Indexed α) (as : List α) : Indexed α := as.foldl (fun x a => (x.insert a).1) x

def ofList (as : List α) : Indexed α := empty.insertAll as

theorem get?_of_place (h : x.index[i]? = some p) :
    x.get? i = some (x.entry h) := by
  unfold get?
  split
  · rename_i q hq
    cases hq.symm.trans h
    rfl
  · rename_i hq
    cases hq.symm.trans h

theorem get?_of_none (h : x.index[i]? = none) : x.get? i = none := by
  unfold get?
  split
  · rename_i q hq
    cases hq.symm.trans h
  · rfl

theorem insert_of_place (h : x.index[key a]? = some p) :
    x.insert a = (x.put a h, some (x.entry h)) := by
  unfold insert
  split
  · rename_i q hq
    cases hq.symm.trans h
    rfl
  · rename_i hq
    cases hq.symm.trans h

theorem insert_of_none (h : x.index[key a]? = none) : x.insert a = (x.push a h, none) := by
  unfold insert
  split
  · rename_i q hq
    cases hq.symm.trans h
  · rfl

/-! ## The registry -/

/-- Two places with one id would be one place, by the index. -/
theorem nodup_entries (x : Indexed α) : (x.entries.toList.map key).Nodup := by
  rw [List.nodup_iff_getElem?_ne_getElem?]
  intro p q hpq hq hsame
  have hget : ∀ n, (x.entries.toList.map key)[n]? = x.entries[n]?.map key := fun n => by
    rw [List.getElem?_map, Array.getElem?_toList]
  rw [hget, hget] at hsame
  have hlt : q < x.entries.size := by simpa using hq
  have hat : x.entries[q]?.map key = some (key x.entries[q]) := by
    rw [Array.getElem?_eq_getElem hlt, Option.map_some]
  have hfirst := (x.index_iff _ p).2 (hsame.trans hat)
  have hsecond := (x.index_iff _ q).2 hat
  have heq := Option.some.inj (hfirst.symm.trans hsecond)
  omega

/-- The records without their index. -/
def toRegistry (x : Indexed α) : Registry α := ⟨x.entries.toList, x.nodup_entries⟩

theorem toRegistry_empty : (empty : Indexed α).toRegistry = .empty := rfl

theorem size_eq (x : Indexed α) : x.size = x.toRegistry.size := Array.length_toList.symm

/-- The index gives no place exactly for the ids that no record has. -/
theorem index_eq_none_iff : x.index[i]? = none ↔ i ∉ x.toRegistry.ids := by
  constructor
  · intro h hi
    obtain ⟨a, ha, rfl⟩ := List.mem_map.1 hi
    obtain ⟨p, hp⟩ := List.mem_iff_getElem?.1 ha
    rw [toRegistry, Array.getElem?_toList] at hp
    have hat := (x.index_iff (key a) p).2 (by rw [hp, Option.map_some])
    cases h.symm.trans hat
  · intro h
    cases hi : x.index[i]? with
    | none => rfl
    | some p =>
      exact absurd (key_entry hi ▸ List.mem_map_of_mem (entry_mem hi)) h

/-- **A record is found** through the index as it is found in the row. -/
theorem get?_eq (x : Indexed α) (i : String) : x.get? i = x.toRegistry.get? i := by
  cases h : x.index[i]? with
  | none => rw [get?_of_none h, Registry.get?_eq_none_iff.2 (index_eq_none_iff.1 h)]
  | some p =>
    rw [get?_of_place h]
    exact (Registry.get?_eq_some_iff.2 ⟨entry_mem h, key_entry h⟩).symm

theorem contains_eq (x : Indexed α) (i : String) : x.contains i = x.toRegistry.contains i := by
  rw [contains, ← Std.HashMap.isSome_getElem?_eq_contains, Registry.contains, ← get?_eq]
  cases h : x.index[i]? with
  | none => rw [get?_of_none h]; rfl
  | some p => rw [get?_of_place h]; rfl

theorem toRegistry_put (h : x.index[key a]? = some p) :
    (x.put a h).toRegistry = x.toRegistry.insert a := by
  have hat : x.entries.toList[p]?.map key = some (key a) := by
    rw [Array.getElem?_toList, (x.index_iff _ _).1 h]
  apply Registry.ext
  rw [Registry.toList_insert]
  exact (Array.toList_set _ _ _ (lt_of_index h)).trans
    (Registry.place_eq_set x.nodup_entries hat).symm

theorem toRegistry_push (h : x.index[key a]? = none) :
    (x.push a h).toRegistry = x.toRegistry.insert a := by
  apply Registry.ext
  rw [Registry.toList_insert, Registry.place_of_not_mem (index_eq_none_iff.1 h)]
  exact Array.toList_push

/-- **A record that comes** does to the row what it does to the registry. -/
theorem toRegistry_insert (x : Indexed α) (a : α) :
    (x.insert a).1.toRegistry = x.toRegistry.insert a := by
  cases h : x.index[key a]? with
  | none => rw [insert_of_none h, toRegistry_push h]
  | some p => rw [insert_of_place h, toRegistry_put h]

/-- **The record that is given back** is the one that was found under the id before. -/
theorem insert_snd (x : Indexed α) (a : α) : (x.insert a).2 = x.toRegistry.get? (key a) := by
  rw [← get?_eq]
  cases h : x.index[key a]? with
  | none => rw [insert_of_none h, get?_of_none h]
  | some p => rw [insert_of_place h, get?_of_place h]

/-- **A record that is changed in place** is one that comes again. -/
theorem toRegistry_update (x : Indexed α) (i : String) (f : α → α) (hf : ∀ a, key (f a) = key a) :
    (x.update i f hf).toRegistry = x.toRegistry.update i f := by
  have hfound := x.get?_eq i
  unfold update Registry.update
  rw [← hfound]
  split
  · rename_i p h
    rw [get?_of_place h, toRegistry_put]
  · rename_i h
    rw [get?_of_none h]

theorem toRegistry_insertAll (x : Indexed α) (as : List α) :
    (x.insertAll as).toRegistry = x.toRegistry.insertAll as := by
  unfold insertAll Registry.insertAll
  induction as generalizing x with
  | nil => rfl
  | cons a as ih => rw [List.foldl_cons, List.foldl_cons, ih, toRegistry_insert]

theorem toRegistry_ofList (as : List α) : (ofList as).toRegistry = .ofList as :=
  toRegistry_insertAll _ _

end Indexed

end Stagecraft
