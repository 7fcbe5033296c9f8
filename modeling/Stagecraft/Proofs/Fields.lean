import Stagecraft.Scene.Basic

/-!
# Setting fields of a scene

A field that is set in a storable of a scene changes that storable and no other,
and a field that has the value already changes nothing.

* `Fields.set_eq_self`, `Registry.insert_eq_self`: what is there already.
* `Scene.storable?_setStorableField`: the storables of a scene after a field was set.
* `Scene.setStorableField_eq_self`: the field had the value.
-/

namespace Stagecraft

open Keyed (key)

/-! ## Fields of an object -/

namespace Fields

variable {fs : Fields} {k : String} {v w : Json}

theorem set_eq_self (h : fs.get? k = some v) : fs.set k v = fs := by
  fun_induction set fs k v <;> simp_all [get?]

theorem set_set (fs : Fields) (k : String) (v w : Json) : (fs.set k v).set k w = fs.set k w := by
  fun_induction set fs k v <;> simp_all [set]

theorem clear_set (fs : Fields) (k : String) (v : Json) : (fs.set k v).clear k = fs.set k .null := by
  simp [clear, set_set]

end Fields

/-! ## Registries -/

namespace Registry

variable {α : Type} [Keyed α] {r : Registry α} {a : α} {i : String}

theorem key_of_get? (h : r.get? i = some a) : key a = i := by
  simpa using List.find?_some h

theorem get?_insert (r : Registry α) (a : α) (i : String) :
    (r.insert a).get? i = if i = key a then some a else r.get? i := by
  split
  · rename_i h; rw [h, get?_insert_self]
  · rename_i h; exact get?_insert_of_ne r h

theorem ext {r r' : Registry α} (h : r.toList = r'.toList) : r = r' := by
  cases r; cases r'; cases h; rfl

theorem insert_eq_self (h : r.get? i = some a) : r.insert a = r := by
  have hk := key_of_get? h
  unfold get? at h
  apply ext
  rw [toList_insert]
  rw [← hk] at h
  generalize r.toList = as at h
  induction as with
  | nil => simp at h
  | cons b bs ih =>
    unfold place
    by_cases hb : key b = key a
    · simp only [List.find?_cons, hb, beq_self_eq_true] at h
      cases h; simp
    · simp only [List.find?_cons, beq_eq_false_iff_ne.2 hb] at h
      rw [if_neg hb, ih h]

/-- A record that takes the place of another one leaves the ids as they are. -/
theorem ids_insert_of_get? {b : α} (h : r.get? (key a) = some b) : (r.insert a).ids = r.ids := by
  rw [ids_insert, if_pos]
  rw [← contains_iff_mem_ids, contains, h, Option.isSome_some]

end Registry

/-! ## Storables of a scene -/

namespace Scene

variable {s : Scene} {a st k : String} {v : Json}

theorem atom?_putAtom (s : Scene) (x : Atom) (i : String) :
    (s.putAtom x).atom? i = if i = x.id then some x else s.atom? i :=
  Registry.get?_insert s.atoms x i

theorem storable?_putAtom (s : Scene) (x : Atom) (i j : String) :
    (s.putAtom x).storable? i j = if i = x.id then x.storable? j else s.storable? i j := by
  unfold storable?
  rw [atom?_putAtom]
  split <;> rfl

/-- **What setting a field does**: nothing, unless the scene has the storable. -/
theorem setStorableField_cases (s : Scene) (a st k : String) (v : Json) :
    s.setStorableField a st k v = s ∨ ∃ x t, s.atom? a = some x ∧ x.storable? st = some t ∧
      s.setStorableField a st k v = s.putAtom (x.putStorable (t.setField k v)) := by
  unfold setStorableField
  cases s.atom? a with
  | none => exact .inl rfl
  | some x => cases hx : x.storable? st with
    | none => simp [hx]
    | some t => exact .inr ⟨x, t, rfl, hx, by simp [hx]⟩

/-- **Only the storable that is addressed changes.** -/
theorem storable?_setStorableField (s : Scene) (a st k : String) (v : Json) (a' st' : String) :
    (s.setStorableField a st k v).storable? a' st' =
      if a' = a ∧ st' = st then (s.storable? a st).map (·.setField k v) else s.storable? a' st' := by
  -- without the atom, or the storable in it, nothing is set
  cases ha : s.atom? a with
  | none =>
    have hn : s.storable? a st = none := by simp [storable?, ha]
    simp only [setStorableField, ha, hn, Option.map_none]
    split
    · rename_i h; rw [h.1, h.2, hn]
    · rfl
  | some x =>
    have hx : x.id = a := Registry.key_of_get? ha
    have hs : ∀ j, s.storable? a j = x.storable? j := fun j => by simp [storable?, ha]
    cases ht : x.storable? st with
    | none =>
      simp only [setStorableField, ha, ht, hs, Option.map_none]
      split
      · rename_i h; rw [h.1, h.2, hs, ht]
      · rfl
    | some t =>
      have hti : t.id = st := Registry.key_of_get? ht
      have hput : ∀ j, (x.putStorable (t.setField k v)).storable? j =
          if j = st then some (t.setField k v) else x.storable? j := fun j => by
        rw [← hti]; exact Registry.get?_insert x.storables (t.setField k v) j
      have hid : (x.putStorable (t.setField k v)).id = a := hx
      simp only [setStorableField, ha, ht, storable?_putAtom, hid, hput, hs, Option.map_some]
      by_cases h1 : a' = a
      · by_cases h2 : st' = st
        · simp [h1, h2]
        · simp [h1, h2, hs]
      · simp [h1]

/-- A storable that is there stays there, and no other comes. -/
theorem isSome_storable?_setStorableField (s : Scene) (a st k : String) (v : Json) (a' st' : String) :
    ((s.setStorableField a st k v).storable? a' st').isSome = (s.storable? a' st').isSome := by
  rw [storable?_setStorableField]
  split
  · rename_i h; rw [h.1, h.2, Option.isSome_map]
  · rfl

/-- **A field that has the value** is not changed. -/
theorem setStorableField_eq_self (h : ∀ t, s.storable? a st = some t → t.field? k = some v) :
    s.setStorableField a st k v = s := by
  unfold setStorableField
  unfold storable? at h
  cases ha : s.atom? a with
  | none => rfl
  | some x =>
    simp only [ha, Option.bind_some] at h
    cases ht : x.storable? st with
    | none => simp only [ht]
    | some t =>
      simp only [ht]
      have hf : t.setField k v = t := by
        unfold Storable.setField
        rw [Fields.set_eq_self (h t ht)]
      have hp : x.putStorable t = x := by
        unfold Atom.putStorable
        rw [Registry.insert_eq_self ht]
      rw [hf, hp]
      unfold putAtom
      rw [Registry.insert_eq_self ha]

end Scene

end Stagecraft
