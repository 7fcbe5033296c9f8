import Mathlib.Data.Finset.Card
import Mathlib.Data.List.Induction
import Stagecraft.Proofs.Indexed

/-!
# What a registry holds after any changes

Records come one by one or in lists, and those that are there are edited in place; the id
of a record is fixed, even for an edit that writes a field under the key of the id. What a
registry holds then is told by the changes alone: its ids stand in the order in which they
first came, and under each stands the record that came last, with the edits since.

* `Editable`: records with edits that leave the id alone; `Storable.Edit`, `Atom.Edit`.
* `Registry.Change`, `Registry.change`, `Indexed.change`: what can be done.
* `Registry.arrivals`, `Registry.held`: the ids that came, and the record of an id.
* `Registry.Recalls`, `Indexed.Mirrors`: a registry that holds what came, and a row with its
  index that gives the same answers.
* `Indexed.recalls_of_changes`: **after any changes** both hold.
-/

namespace Stagecraft

open Keyed (key)

/-- Records that can be edited, while their id stays. -/
class Editable (α : Type) extends Keyed α where
  Edit : Type
  edit : Edit → α → α
  key_edit : ∀ e a, key (edit e a) = key a

namespace Storable

/-- What can be done to a storable. -/
inductive Edit where
  | setField (key : String) (v : Json)
  | merge (data : Fields)

def edit : Edit → Storable → Storable
  | .setField k v, t => t.setField k v
  | .merge data, t => t.merge data

instance : Editable Storable where
  Edit := Edit
  edit := edit
  key_edit := by rintro (_ | _) t <;> rfl

end Storable

namespace Atom

/-- What can be done to an atom, and to a storable of it. -/
inductive Edit where
  | setField (key : String) (v : Json)
  | merge (data : Fields)
  | storable (i : String) (e : Storable.Edit)

/-- The atom behind an edit; a merge that stops at a fault leaves what came before it. -/
def edit : Edit → Atom → Atom
  | .setField k v, a => a.setField k v
  | .merge data, a => (a.merge data).1
  | .storable i e, a => { a with storables := a.storables.update i (Storable.edit e) }

theorem id_merge (a : Atom) (data : Fields) : (a.merge data).1.id = a.id := by
  fun_induction merge a data <;> simp_all [setField]

instance : Editable Atom where
  Edit := Edit
  edit := edit
  key_edit := by
    rintro (_ | _ | _) a
    · rfl
    · exact a.id_merge _
    · rfl

end Atom

/-! ## Changes -/

namespace Registry

variable {α : Type} [Editable α]

/-- **What can be done to a registry**: a record comes, or a list of them, or a list takes the
place of the whole registry, or the record of an id is edited. -/
inductive Change (α : Type) [Editable α] where
  | insert (a : α)
  | extend (as : List α)
  | collect (as : List α)
  | mutate (i : String) (e : Editable.Edit α)

def change (r : Registry α) : Change α → Registry α
  | .insert a => r.insert a
  | .extend as => r.insertAll as
  | .collect as => .ofList as
  | .mutate i e => r.update i (Editable.edit e)

/-- The ids of the records that came, with one more change. -/
def arrive (is : List String) : Change α → List String
  | .insert a => is ++ [key a]
  | .extend as => is ++ as.map key
  | .collect as => as.map key
  | .mutate _ _ => is

/-- The ids of the records that came since the registry was last replaced. -/
def arrivals (cs : List (Change α)) : List String := cs.foldl arrive []

/-- The record of an id, with one more change. -/
def hold (i : String) (held : Option α) : Change α → Option α
  | .insert a => if key a = i then some a else held
  | .extend as => (as.reverse.find? (key · == i)).or held
  | .collect as => as.reverse.find? (key · == i)
  | .mutate j e => if j = i then held.map (Editable.edit e) else held

/-- **The record that came last under an id**, with the edits since. -/
def held (cs : List (Change α)) (i : String) : Option α := cs.foldl (hold i) none

/-- **A registry that holds what came**: each id once, in the order in which the ids first came,
and with each the record that is held for it. -/
structure Recalls (cs : List (Change α)) (r : Registry α) : Prop where
  nodup : r.ids.Nodup
  ids : r.ids = (arrivals cs).eraseDups
  records : r.toList.map some = r.ids.map (held cs)
  size : r.size = (arrivals cs).toFinset.card
  get? : ∀ i, r.get? i = held cs i
  contains : ∀ i, r.contains i = true ↔ i ∈ arrivals cs
  key : ∀ i a, r.get? i = some a → key a = i

variable {r : Registry α} {cs : List (Change α)} {is : List String}

/-! ## One change -/

theorem ids_insert_eraseDups (a : α) (h : r.ids = is.eraseDups) :
    (r.insert a).ids = (is ++ [key a]).eraseDups := by
  rw [ids_insert, h, List.eraseDups_append, List.removeAll]
  -- an id that came before keeps its place, and another one goes to the end
  by_cases ha : key a ∈ is
  · rw [if_pos (List.mem_eraseDups.2 ha), List.filter_cons_of_neg (by simpa using ha)]
    exact (List.append_nil _).symm
  · rw [if_neg fun hd => ha (List.mem_eraseDups.1 hd), List.filter_cons_of_pos (by simpa using ha)]
    rfl

theorem ids_insertAll_eraseDups (as : List α) (h : r.ids = is.eraseDups) :
    (r.insertAll as).ids = (is ++ as.map key).eraseDups := by
  unfold insertAll
  induction as generalizing r is with
  | nil => rw [List.map_nil, List.append_nil, List.foldl_nil, h]
  | cons a as ih =>
    rw [List.foldl_cons, ih (ids_insert_eraseDups a h), List.map_cons, List.append_assoc,
      List.singleton_append]

/-- A record that is edited in place moves no id. -/
theorem ids_update (r : Registry α) (i : String) (f : α → α) (hf : ∀ a, key (f a) = key a) :
    (r.update i f).ids = r.ids := by
  unfold update
  cases h : r.get? i with
  | none => rfl
  | some a =>
    have hkey : key (f a) = i := (hf a).trans (key_of_get? h)
    exact ids_insert_of_get? (hkey ▸ h)

theorem get?_update (r : Registry α) (i : String) (f : α → α) (hf : ∀ a, key (f a) = key a)
    (j : String) : (r.update i f).get? j = if i = j then (r.get? j).map f else r.get? j := by
  unfold update
  cases h : r.get? i with
  | none =>
    show r.get? j = _
    by_cases hij : i = j
    · rw [if_pos hij, ← hij, h, Option.map_none]
    · rw [if_neg hij]
  | some a =>
    have hkey : key (f a) = i := (hf a).trans (key_of_get? h)
    rw [get?_insert, hkey]
    by_cases hij : i = j
    · rw [if_pos hij.symm, if_pos hij, ← hij, h, Option.map_some]
    · rw [if_neg (Ne.symm hij), if_neg hij]

/-- **A change adds the ids that come with it**, each behind the others if it is new. -/
theorem ids_change (c : Change α) (h : r.ids = is.eraseDups) :
    (r.change c).ids = (arrive is c).eraseDups := by
  cases c with
  | insert a => exact ids_insert_eraseDups a h
  | extend as => exact ids_insertAll_eraseDups as h
  | collect as => exact ids_ofList as
  | mutate i e => exact (ids_update r i _ (Editable.key_edit e)).trans h

/-- **A change of the record of an id**, which is all that matters for it. -/
theorem get?_change (r : Registry α) (c : Change α) (i : String) :
    (r.change c).get? i = hold i (r.get? i) c := by
  cases c with
  | insert a =>
    rw [change, get?_insert, hold]
    simp only [eq_comm]
  | extend as => exact get?_insertAll r as i
  | collect as => exact get?_ofList as i
  | mutate j e => exact get?_update r j _ (Editable.key_edit e) i

/-! ## Any changes -/

theorem ids_changes (cs : List (Change α)) :
    (cs.foldl change .empty).ids = (arrivals cs).eraseDups := by
  induction cs using List.reverseRecOn with
  | nil => rfl
  | append_singleton cs c ih =>
    have hstep := ids_change c ih
    simpa only [arrivals, List.foldl_append, List.foldl_cons, List.foldl_nil] using hstep

theorem get?_changes (cs : List (Change α)) (i : String) :
    (cs.foldl change .empty).get? i = held cs i := by
  induction cs using List.reverseRecOn with
  | nil => rfl
  | append_singleton cs c ih =>
    have hstep := get?_change (cs.foldl change .empty) c i
    rw [ih] at hstep
    simpa only [held, List.foldl_append, List.foldl_cons, List.foldl_nil] using hstep

/-- A list of records with distinct ids is told by what is found under them. -/
theorem map_get?_ids (r : Registry α) : r.ids.map r.get? = r.toList.map some := by
  rw [ids, List.map_map]
  exact List.map_congr_left fun a ha => get?_eq_some_iff.2 ⟨ha, rfl⟩

/-- **A registry holds what came**, whatever was done to it. -/
theorem recalls (cs : List (Change α)) : Recalls cs (cs.foldl change .empty) := by
  have hids := ids_changes cs
  have hget := get?_changes cs
  generalize cs.foldl change .empty = r at hids hget
  refine ⟨r.nodup, hids, ?_, ?_, hget, fun i => ?_, fun i a h => key_of_get? h⟩
  · rw [← map_get?_ids]
    exact List.map_congr_left fun i _ => hget i
  · have hsame : (arrivals cs).toFinset = r.ids.toFinset := by
      ext i
      rw [List.mem_toFinset, List.mem_toFinset, hids, List.mem_eraseDups]
    rw [hsame, ids, List.toFinset_card_of_nodup r.nodup, List.length_map, size]
  · rw [contains_iff_mem_ids, hids, List.mem_eraseDups]

end Registry

namespace Indexed

variable {α : Type} [Editable α]

def change (x : Indexed α) : Registry.Change α → Indexed α
  | .insert a => (x.insert a).1
  | .extend as => x.insertAll as
  | .collect as => .ofList as
  | .mutate i e => x.update i (Editable.edit e) (Editable.key_edit e)

/-- **The row and its index do what the registry does**: they list the same records and give the
same answers, and a record that comes gives back the one that was there. -/
structure Mirrors (x : Indexed α) (r : Registry α) : Prop where
  entries : x.entries.toList = r.toList
  size : x.size = r.size
  get? : ∀ i, x.get? i = r.get? i
  contains : ∀ i, x.contains i = r.contains i
  replaced : ∀ a, (x.insert a).2 = r.get? (key a)

theorem toRegistry_change (x : Indexed α) (c : Registry.Change α) :
    (x.change c).toRegistry = x.toRegistry.change c := by
  cases c with
  | insert a => exact toRegistry_insert x a
  | extend as => exact toRegistry_insertAll x as
  | collect as => exact toRegistry_ofList as
  | mutate i e => exact toRegistry_update x i _ (Editable.key_edit e)

theorem toRegistry_changes (cs : List (Registry.Change α)) :
    (cs.foldl change empty).toRegistry = cs.foldl Registry.change .empty := by
  induction cs using List.reverseRecOn with
  | nil => exact toRegistry_empty
  | append_singleton cs c ih =>
    rw [List.foldl_append, List.foldl_append, ← ih]
    exact toRegistry_change _ c

/-- **Whatever is done to a registry**, from the empty one on, it holds what came in the order
in which the ids first came, and a row with an index of places does the same. -/
theorem recalls_of_changes (cs : List (Registry.Change α)) :
    Registry.Recalls cs (cs.foldl Registry.change .empty) ∧
      Mirrors (cs.foldl change empty) (cs.foldl Registry.change .empty) := by
  refine ⟨Registry.recalls cs, ?_⟩
  rw [← toRegistry_changes]
  generalize cs.foldl change empty = x
  exact ⟨rfl, x.size_eq, x.get?_eq, x.contains_eq, x.insert_snd⟩

end Indexed

end Stagecraft
