import Stagecraft.Proofs.Fields

/-!
# Scenes that are read back

The document of a scene reads back as the same scene, but for the fields `id`,
`storables` and `atoms` of its records: what stood there is overwritten. The scene that
was read back has the same document, and its storables have the same other fields.

* `Scene.reread`, `Scene.ofJson?_toJson`: what a document reads back as.
* `Scene.toJson_reread`: it has the same document.
* `Scene.storable?_reread`: its storables.
-/

namespace Stagecraft

open Keyed (key)

namespace Registry

variable {α : Type} [Keyed α]

theorem place_of_not_mem {a : α} {as : List α} (h : key a ∉ as.map key) : place a as = as ++ [a] := by
  induction as with
  | nil => rfl
  | cons b bs ih =>
    rw [List.map_cons, List.mem_cons, not_or] at h
    rw [place, if_neg (Ne.symm h.1), ih h.2, List.cons_append]

theorem toList_insertAll {r : Registry α} {as : List α} (h : (r.ids ++ as.map key).Nodup) :
    (r.insertAll as).toList = r.toList ++ as := by
  unfold insertAll
  induction as generalizing r with
  | nil => exact (List.append_nil _).symm
  | cons a as ih =>
    have ha : key a ∉ r.ids := fun hm =>
      (List.nodup_append.1 h).2.2 _ hm _ List.mem_cons_self rfl
    have hids : (r.insert a).ids = r.ids ++ [key a] := by rw [ids_insert, if_neg ha]
    rw [List.foldl_cons, ih (by rwa [hids, List.append_assoc]), toList_insert,
      place_of_not_mem ha, List.append_assoc]
    rfl

/-- Distinct records stay as they are listed. -/
theorem toList_ofList {as : List α} (h : (as.map key).Nodup) : (ofList as).toList = as := by
  unfold ofList
  rw [toList_insertAll (by simpa [ids] using h)]
  rfl

/-- The records, each replaced by one of its id. -/
theorem toList_ofList_map (r : Registry α) (f : α → α) (hf : ∀ a, key (f a) = key a) :
    (ofList (r.toList.map f)).toList = r.toList.map f := by
  apply toList_ofList
  rw [List.map_map, show key ∘ f = key from funext hf]
  exact r.nodup

theorem get?_ofList_map (r : Registry α) (f : α → α) (hf : ∀ a, key (f a) = key a) (i : String) :
    (ofList (r.toList.map f)).get? i = (r.get? i).map f := by
  unfold get?
  rw [toList_ofList_map r f hf, List.find?_map]
  have hkey : ((fun a => key a == i) ∘ f) = fun a => key a == i := funext fun a => by
    rw [Function.comp_apply, hf]
  rw [hkey]

end Registry

/-! ## Storables -/

namespace Storable

/-- What the object of a storable reads back as. -/
def reread (t : Storable) : Storable := t.setField idKey (.str t.id)

theorem ofJson?_toJson (t : Storable) : ofJson? t.toJson = .ok t.reread := by
  simp only [ofJson?, toJson, recordOf?, Fields.get?_set_self]
  rfl

theorem toJson_reread (t : Storable) : t.reread.toJson = t.toJson := by
  show Json.obj ((t.fields.set idKey (.str t.id)).set idKey (.str t.id)) = _
  rw [Fields.set_set]
  rfl

theorem field?_reread {t : Storable} {k : String} (h : k ≠ idKey) : t.reread.field? k = t.field? k :=
  Fields.get?_set_of_ne _ _ h

end Storable

/-- A list of objects that each read back reads back. -/
theorem mapM_ofJson?_toJson {α ε : Type} {ofJson? : Json → Except ε α} {toJson : α → Json}
    {reread : α → α} (h : ∀ a, ofJson? (toJson a) = .ok (reread a)) (as : List α) :
    (as.map toJson).mapM ofJson? = .ok (as.map reread) := by
  induction as with
  | nil => rfl
  | cons a as ih =>
    rw [List.map_cons, List.mapM_cons, h, ih]
    rfl

/-! ## Atoms -/

namespace Atom

/-- What the object of an atom reads back as. -/
def reread (a : Atom) : Atom where
  id := a.id
  fields := (a.fields.set idKey (.str a.id)).set storablesKey .null
  storables := .ofList (a.storables.toList.map Storable.reread)

theorem ofJson?_toJson (a : Atom) : ofJson? a.toJson = .ok a.reread := by
  -- the list of storables is written behind the id and leaves it there
  have hid : ∀ v, ((a.fields.set idKey (.str a.id)).set storablesKey v).get? idKey =
      some (.str a.id) := fun v => by
    rw [Fields.get?_set_of_ne _ _ (by decide), Fields.get?_set_self]
  simp only [ofJson?, toJson, recordOf?, hid, bind, Except.bind, Fields.get?_set_self, storablesOf?,
    mapM_ofJson?_toJson Storable.ofJson?_toJson, Except.map, Fields.clear_set]
  rfl

theorem toJson_reread (a : Atom) : a.reread.toJson = a.toJson := by
  have hid : ((a.fields.set idKey (.str a.id)).set storablesKey .null).set idKey (.str a.id) =
      (a.fields.set idKey (.str a.id)).set storablesKey .null := by
    apply Fields.set_eq_self
    rw [Fields.get?_set_of_ne _ _ (by decide), Fields.get?_set_self]
  have hst : a.reread.storables.toList.map Storable.toJson =
      a.storables.toList.map Storable.toJson := by
    rw [show a.reread.storables.toList = _ from
      Registry.toList_ofList_map a.storables Storable.reread fun _ => rfl, List.map_map]
    exact congrArg (List.map · _) (funext Storable.toJson_reread)
  unfold toJson
  rw [hst]
  show Json.obj ((((a.fields.set idKey (.str a.id)).set storablesKey .null).set idKey
    (.str a.id)).set storablesKey _) = _
  rw [hid, Fields.set_set]

theorem storable?_reread (a : Atom) (i : String) :
    a.reread.storable? i = (a.storable? i).map Storable.reread :=
  Registry.get?_ofList_map a.storables Storable.reread (fun _ => rfl) i

end Atom

/-! ## Scenes -/

namespace Scene

/-- What the document of a scene reads back as. -/
def reread (s : Scene) : Scene where
  fields := s.fields.set atomsKey .null
  atoms := .ofList (s.atoms.toList.map Atom.reread)

/-- **A scene reads back.** -/
theorem ofJson?_toJson (s : Scene) : ofJson? s.toJson = .ok s.reread := by
  simp only [ofJson?, toJson, Fields.get?_set_self, atomsOf?,
    mapM_ofJson?_toJson Atom.ofJson?_toJson, Except.map, Fields.clear_set]
  rfl

/-- **A scene that was read back** has the same document. -/
theorem toJson_reread (s : Scene) : s.reread.toJson = s.toJson := by
  have hat : s.reread.atoms.toList.map Atom.toJson = s.atoms.toList.map Atom.toJson := by
    rw [show s.reread.atoms.toList = _ from
      Registry.toList_ofList_map s.atoms Atom.reread fun _ => rfl, List.map_map]
    exact congrArg (List.map · _) (funext Atom.toJson_reread)
  unfold toJson
  rw [hat]
  show Json.obj ((s.fields.set atomsKey .null).set atomsKey _) = _
  rw [Fields.set_set]

theorem storable?_reread (s : Scene) (i j : String) :
    s.reread.storable? i j = (s.storable? i j).map Storable.reread := by
  unfold storable? atom?
  rw [show s.reread.atoms.get? i = _ from
    Registry.get?_ofList_map s.atoms Atom.reread (fun _ => rfl) i]
  cases s.atoms.get? i with
  | none => rfl
  | some a => exact a.storable?_reread j

end Scene

end Stagecraft
