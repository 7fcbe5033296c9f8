import Mathlib.Data.List.Nodup
import Stagecraft.Proofs.Fallible
import Stagecraft.Proofs.Reread
import Stagecraft.Stage.Compile

/-!
# Scenes and their documents

A document is read as a scene if its atoms and their storables are records. It is written
again as it was, to the order of all keys, unless an id stands twice beside each other or an
atom lists no storables. Whatever is done to a scene, its document reads back.

* `Json.IsRecord`, `Json.IsAtom`, `Json.IsScene`: the documents that are read;
  `Storable.exists_ofJson?_iff`, `Atom.exists_ofJson?_iff`, `Scene.exists_ofJson?_iff`.
* `Json.Distinct`, `Json.Verbatim`: the documents that are written as they were read.
* `Registry.map_toList_ofList_eq_iff`: a list of records, read and written.
* `Scene.Edit`, `Scene.edit`: what can be done to a scene.
* `Scene.roundTrip`: **which documents are read, which are kept, and that all read back**.
-/

namespace Stagecraft

open Keyed (key)

/-! ## Documents that are read -/

namespace Json

variable {v : Json} {fs : Fields}

/-- An object with a text under its id. -/
def IsRecord (v : Json) : Prop := ∃ i, v.field? idKey = some (.str i)

/-- A record whose storables, if it lists any, are records. -/
structure IsAtom (v : Json) : Prop where
  record : v.IsRecord
  storables : ∀ w, v.field? storablesKey = some w → ∃ vs, w = .arr vs ∧ ∀ u ∈ vs, u.IsRecord

/-- An object with a list of atoms. -/
def IsScene (v : Json) : Prop := ∃ vs, v.field? atomsKey = some (.arr vs) ∧ ∀ u ∈ vs, u.IsAtom

/-- Only objects have fields. -/
theorem field?_eq_some_iff {k : String} {w : Json} :
    v.field? k = some w ↔ ∃ fs : Fields, v = .obj fs ∧ fs.get? k = some w := by
  unfold field? fields?
  cases v <;> simp

/-- No id stands twice in a list of records. -/
def Distinct (vs : List Json) : Prop := (vs.map (·.field? idKey)).Nodup

/-- An atom that lists its storables, each id once. -/
def ListsStorables (v : Json) : Prop :=
  ∃ vs, v.field? storablesKey = some (.arr vs) ∧ Distinct vs

/-- **A document that is kept as it is**: no two of its atoms have one id, and each lists its
storables, no two of which have one id. -/
def Verbatim (v : Json) : Prop :=
  ∃ vs, v.field? atomsKey = some (.arr vs) ∧ Distinct vs ∧ ∀ u ∈ vs, u.ListsStorables

end Json

namespace Fields

variable {fs : Fields} {k : String} {v w : Json}

/-- Writing a field changes nothing exactly if it had the value. -/
theorem set_eq_self_iff : fs.set k v = fs ↔ fs.get? k = some v := by
  constructor
  · intro h
    have hget := get?_set_self fs k v
    rwa [h] at hget
  · exact set_eq_self

/-- A field that is taken out and written again is written. -/
theorem set_clear (h : fs.get? k = some w) : (fs.clear k).set k v = fs.set k v := by
  unfold clear
  rw [h, Option.isSome_some, if_pos rfl, set_set]

end Fields

/-- A record is an object with its id. -/
theorem recordOf?_eq_ok_iff {kind : RecordKind} {v : Json} {i : String} {fs : Fields} :
    recordOf? kind v = .ok (i, fs) ↔ v = .obj fs ∧ fs.get? idKey = some (.str i) := by
  constructor
  · intro h
    unfold recordOf? at h
    split at h
    · split at h
      · rename_i hid
        cases h
        exact ⟨rfl, hid⟩
      · cases h
    · cases h
  · rintro ⟨rfl, h⟩
    simp only [recordOf?, h]

/-! ## Lists of records -/

namespace Registry

variable {α ε : Type} [Keyed α] {ofJson? : Json → Except ε α} {toJson : α → Json}
  {vs : List Json} {as : List α}

/-- **A list of records that is read and written** is the same list exactly if no id stands
twice in it and each of its records is written as it was read. -/
theorem map_toList_ofList_eq_iff
    (hread : ∀ v a, ofJson? v = .ok a → v.field? idKey = some (.str (key a)))
    (hwrite : ∀ a, (toJson a).field? idKey = some (.str (key a)))
    (h : List.Forall₂ (fun v a => ofJson? v = .ok a) vs as) :
    (ofList as).toList.map toJson = vs ↔
      Json.Distinct vs ∧ List.Forall₂ (fun v a => toJson a = v) vs as := by
  have hids : vs.map (·.field? idKey) = (as.map key).map fun i => some (.str i) := by
    induction h with
    | nil => rfl
    | cons hv _ ih => rw [List.map_cons, List.map_cons, List.map_cons, hread _ _ hv, ih]
  have hinj : Function.Injective fun i : String => some (Json.str i) := fun i j hij => by
    cases hij
    rfl
  have hdistinct : Json.Distinct vs ↔ (as.map key).Nodup := by
    unfold Json.Distinct
    rw [hids, List.nodup_map_iff hinj]
  constructor
  · intro hsame
    -- the ids of a registry are distinct, and they are those that were written
    have hnodup : Json.Distinct vs := by
      unfold Json.Distinct
      rw [← hsame, List.map_map]
      have hcomp : (fun v : Json => v.field? idKey) ∘ toJson = fun a => some (.str (key a)) :=
        funext hwrite
      rw [hcomp]
      have hmap := (List.nodup_map_iff hinj).2 (ofList as).nodup
      rwa [List.map_map] at hmap
    refine ⟨hnodup, ?_⟩
    rw [toList_ofList (hdistinct.1 hnodup)] at hsame
    rw [← hsame, List.forall₂_map_left_iff, List.forall₂_same]
    exact fun _ _ => rfl
  · rintro ⟨hnodup, hall⟩
    rw [toList_ofList (hdistinct.1 hnodup)]
    clear hids h hdistinct hnodup
    induction hall with
    | nil => rfl
    | cons hv _ ih => rw [List.map_cons, hv, ih]

end Registry

/-! ## Storables -/

namespace Storable

variable {v : Json} {t : Storable}

theorem ofJson?_eq_ok_iff : ofJson? v = .ok t ↔
    v = .obj t.fields ∧ t.fields.get? idKey = some (.str t.id) := by
  obtain ⟨i, fs⟩ := t
  rw [← @recordOf?_eq_ok_iff .storable]
  unfold ofJson?
  cases recordOf? .storable v with
  | error f => simp [Except.map]
  | ok r => simp [Except.map, Prod.ext_iff]

/-- **Which documents are read as storables.** -/
theorem exists_ofJson?_iff : (∃ t, ofJson? v = .ok t) ↔ v.IsRecord := by
  unfold Json.IsRecord
  constructor
  · rintro ⟨t, ht⟩
    obtain ⟨hv, hid⟩ := ofJson?_eq_ok_iff.1 ht
    exact ⟨t.id, Json.field?_eq_some_iff.2 ⟨_, hv, hid⟩⟩
  · rintro ⟨i, hi⟩
    obtain ⟨fs, hv, hid⟩ := Json.field?_eq_some_iff.1 hi
    exact ⟨⟨i, fs⟩, ofJson?_eq_ok_iff.2 ⟨hv, hid⟩⟩

theorem id_of_ofJson? (h : ofJson? v = .ok t) : v.field? idKey = some (.str t.id) := by
  obtain ⟨hv, hid⟩ := ofJson?_eq_ok_iff.1 h
  exact Json.field?_eq_some_iff.2 ⟨_, hv, hid⟩

theorem id_toJson (t : Storable) : t.toJson.field? idKey = some (.str t.id) :=
  Fields.get?_set_self _ _ _

/-- **A storable is written as it was read.** -/
theorem toJson_of_ofJson? (h : ofJson? v = .ok t) : t.toJson = v := by
  obtain ⟨hv, hid⟩ := ofJson?_eq_ok_iff.1 h
  rw [hv, toJson, Fields.set_eq_self hid]

end Storable

/-! ## Atoms -/

namespace Atom

variable {v : Json} {a : Atom} {i : String} {fs : Fields}

theorem storablesOf?_eq_ok {owner : String} {ss : Registry Storable}
    (h : storablesOf? owner v = .ok ss) : ∃ vs ts, v = .arr vs ∧
      List.Forall₂ (fun v t => Storable.ofJson? v = .ok t) vs ts ∧ ss = .ofList ts := by
  cases v with
  | arr vs =>
    obtain ⟨ts, hts, hss⟩ := map_eq_ok h
    exact ⟨vs, ts, rfl, forall₂_of_mapM hts, hss.symm⟩
  | _ => cases h

theorem exists_storablesOf?_iff (owner : String) :
    (∃ ss, storablesOf? owner v = .ok ss) ↔ ∃ vs, v = .arr vs ∧ ∀ u ∈ vs, u.IsRecord := by
  constructor
  · rintro ⟨ss, h⟩
    cases v with
    | arr vs =>
      obtain ⟨ts, hts, -⟩ := map_eq_ok h
      exact ⟨vs, rfl, fun u hu => Storable.exists_ofJson?_iff.1 (exists_mapM_iff.1 ⟨ts, hts⟩ u hu)⟩
    | _ => cases h
  · rintro ⟨vs, rfl, hvs⟩
    obtain ⟨ts, hts⟩ := exists_mapM_iff.2 fun u hu => Storable.exists_ofJson?_iff.2 (hvs u hu)
    exact ⟨.ofList ts, by rw [storablesOf?, hts]; rfl⟩

/-- **What an atom is read as**: a record with the storables that it lists, if it lists any. -/
theorem ofJson?_cases (h : ofJson? v = .ok a) :
    ∃ fs : Fields, v = .obj fs ∧ fs.get? idKey = some (.str a.id) ∧
      ((fs.get? storablesKey = none ∧ a.fields = fs ∧ a.storables = .empty) ∨
        ∃ w, fs.get? storablesKey = some w ∧ a.fields = fs.clear storablesKey ∧
          storablesOf? a.id w = .ok a.storables) := by
  obtain ⟨⟨i, fs⟩, hrecord, hrest⟩ := bind_eq_ok h
  obtain ⟨rfl, hid⟩ := recordOf?_eq_ok_iff.1 hrecord
  refine ⟨fs, rfl, ?_⟩
  simp only at hrest
  split at hrest
  · rename_i hnone
    cases hrest
    exact ⟨hid, .inl ⟨hnone, rfl, rfl⟩⟩
  · rename_i w hw
    obtain ⟨ss, hss, ha⟩ := map_eq_ok hrest
    rw [← ha]
    exact ⟨hid, .inr ⟨w, hw, rfl, hss⟩⟩

/-- **Which documents are read as atoms.** -/
theorem exists_ofJson?_iff : (∃ a, ofJson? v = .ok a) ↔ v.IsAtom := by
  constructor
  · rintro ⟨a, h⟩
    obtain ⟨fs, rfl, hid, hst⟩ := ofJson?_cases h
    refine ⟨⟨a.id, hid⟩, fun w hw => ?_⟩
    -- storables that are there were read, so they are a list of records
    rcases hst with ⟨hnone, -, -⟩ | ⟨w', hw', -, hread⟩
    · cases hnone.symm.trans hw
    · cases hw'.symm.trans hw
      exact (exists_storablesOf?_iff _).1 ⟨_, hread⟩
  · rintro ⟨⟨i, hi⟩, hst⟩
    obtain ⟨fs, rfl, hid⟩ := Json.field?_eq_some_iff.1 hi
    unfold ofJson?
    rw [recordOf?_eq_ok_iff.2 ⟨rfl, hid⟩]
    cases hw : fs.get? storablesKey with
    | none => exact ⟨⟨i, fs, .empty⟩, by simp only [bind, Except.bind, hw]⟩
    | some w =>
      obtain ⟨ss, hss⟩ := (exists_storablesOf?_iff i).2 (hst w hw)
      exact ⟨⟨i, fs.clear storablesKey, ss⟩, by simp only [bind, Except.bind, hw, hss]; rfl⟩

theorem id_of_ofJson? (h : ofJson? v = .ok a) : v.field? idKey = some (.str a.id) := by
  obtain ⟨fs, rfl, hid, -⟩ := ofJson?_cases h
  exact hid

theorem id_toJson (a : Atom) : a.toJson.field? idKey = some (.str a.id) := by
  show Fields.get? _ _ = _
  rw [Fields.get?_set_of_ne _ _ (by decide), Fields.get?_set_self]

/-- **An atom is written as it was read** exactly if it lists its storables, each id once. -/
theorem toJson_eq_iff (h : ofJson? v = .ok a) : a.toJson = v ↔ v.ListsStorables := by
  obtain ⟨fs, rfl, hid, ⟨hnone, hfields, -⟩ | ⟨w, hw, hfields, hread⟩⟩ := ofJson?_cases h
  · -- the list of storables is new, however short it is
    constructor
    · intro hsame
      have hset := Json.obj.inj hsame
      have hget := Fields.get?_set_self (a.fields.set idKey (.str a.id)) storablesKey
        (.arr (a.storables.toList.map Storable.toJson))
      rw [hset, hnone] at hget
      cases hget
    · rintro ⟨vs, hvs, -⟩
      cases hnone.symm.trans hvs
  · obtain ⟨vs, ts, rfl, hts, hst⟩ := storablesOf?_eq_ok hread
    -- the id is there already, so only the list of storables is written
    have hkept : a.fields.set idKey (.str a.id) = a.fields := by
      rw [hfields]
      apply Fields.set_eq_self
      unfold Fields.clear
      rw [hw, Option.isSome_some, if_pos rfl, Fields.get?_set_of_ne _ _ (by decide), hid]
    have hlist := Registry.map_toList_ofList_eq_iff (fun _ _ => Storable.id_of_ofJson?)
      Storable.id_toJson hts
    have hall : List.Forall₂ (fun v t => Storable.toJson t = v) vs ts :=
      hts.imp fun _ _ => Storable.toJson_of_ofJson?
    have hwritten : a.toJson = .obj (fs.set storablesKey (.arr ((Registry.ofList ts).toList.map
        Storable.toJson))) := by
      rw [toJson, hkept, hfields, hst, Fields.set_clear hw]
    rw [hwritten, Json.obj.injEq, Fields.set_eq_self_iff, hw, Option.some.injEq, Json.arr.injEq,
      eq_comm, hlist]
    constructor
    · rintro ⟨hdistinct, -⟩
      exact ⟨vs, hw, hdistinct⟩
    · rintro ⟨vs', hvs', hdistinct⟩
      cases hw.symm.trans hvs'
      exact ⟨hdistinct, hall⟩

end Atom

/-! ## Scenes -/

namespace Scene

variable {v : Json} {s : Scene}

/-- **What a scene is read as**: the atoms that it lists. -/
theorem ofJson?_cases (h : ofJson? v = .ok s) : ∃ (fs : Fields) (vs : List Json) (as : List Atom),
    v = .obj fs ∧ fs.get? atomsKey = some (.arr vs) ∧ s.fields = fs.clear atomsKey ∧
      vs.mapM Atom.ofJson? = .ok as ∧ s.atoms = .ofList as := by
  unfold ofJson? at h
  split at h
  · rename_i fs
    split at h
    · rename_i vs hvs
      obtain ⟨r, hr, hs⟩ := map_eq_ok h
      obtain ⟨as, has, hr⟩ := map_eq_ok hr
      rw [← hs]
      exact ⟨fs, vs, as, rfl, hvs, rfl, has, hr.symm⟩
    · cases h
  · cases h

/-- **Which documents are read as scenes.** -/
theorem exists_ofJson?_iff : (∃ s, ofJson? v = .ok s) ↔ v.IsScene := by
  constructor
  · rintro ⟨s, h⟩
    obtain ⟨fs, vs, as, rfl, hvs, -, has, -⟩ := ofJson?_cases h
    exact ⟨vs, hvs, fun u hu => Atom.exists_ofJson?_iff.1 (exists_mapM_iff.1 ⟨as, has⟩ u hu)⟩
  · rintro ⟨vs, hv, hvs⟩
    obtain ⟨fs, rfl, hget⟩ := Json.field?_eq_some_iff.1 hv
    obtain ⟨as, has⟩ := exists_mapM_iff.2 fun u hu => Atom.exists_ofJson?_iff.2 (hvs u hu)
    refine ⟨⟨fs.clear atomsKey, .ofList as⟩, ?_⟩
    simp only [ofJson?, hget, atomsOf?, has]
    rfl

/-- **A scene is written as it was read** exactly if no two of its atoms have one id, and each
lists its storables, each id once. -/
theorem toJson_eq_iff (h : ofJson? v = .ok s) : s.toJson = v ↔ v.Verbatim := by
  obtain ⟨fs, vs, as, rfl, hvs, hfields, has, hatoms⟩ := ofJson?_cases h
  have hall := forall₂_of_mapM has
  have hlist := Registry.map_toList_ofList_eq_iff (fun _ _ => Atom.id_of_ofJson?) Atom.id_toJson hall
  have hwritten : s.toJson =
      .obj (fs.set atomsKey (.arr ((Registry.ofList as).toList.map Atom.toJson))) := by
    rw [toJson, hfields, hatoms, Fields.set_clear hvs]
  -- each atom on its own is written as it was read if it lists its storables
  have hsame : List.Forall₂ (fun v a => Atom.toJson a = v) vs as ↔ ∀ u ∈ vs, u.ListsStorables := by
    clear has hlist hwritten hvs hatoms h
    induction hall with
    | nil => exact ⟨fun _ u hu => absurd hu List.not_mem_nil, fun _ => .nil⟩
    | cons hv _ ih => rw [List.forall₂_cons, ih, List.forall_mem_cons, Atom.toJson_eq_iff hv]
  rw [hwritten, Json.obj.injEq, Fields.set_eq_self_iff, hvs, Option.some.injEq, Json.arr.injEq,
    eq_comm, hlist, hsame]
  constructor
  · rintro ⟨hdistinct, hst⟩
    exact ⟨vs, hvs, hdistinct, hst⟩
  · rintro ⟨vs', hvs', hdistinct, hst⟩
    cases hvs.symm.trans hvs'
    exact ⟨hdistinct, hst⟩

/-! ## Scenes that are edited -/

/-- Changes the atom of an id, if the scene has it. -/
def updateAtom (s : Scene) (i : String) (change : Atom → Atom) : Scene :=
  match s.atom? i with
  | some a => s.putAtom (change a)
  | none => s

/-- Changes a storable of an atom, if the scene has it. -/
def updateStorable (s : Scene) (i j : String) (change : Storable → Storable) : Scene :=
  s.updateAtom i fun a => match a.storable? j with
    | some t => a.putStorable (change t)
    | none => a

/-- **What can be done to a scene.** Fields can be set under any key, also those of the id, the
storables and the atoms, and a merge may stop at a fault. -/
inductive Edit where
  | pack (as : List Atom)
  | merge (data : Fields)
  | compile (c : Compiler)
  | setField (atom key : String) (v : Json)
  | mergeAtom (atom : String) (data : Fields)
  | setStorableField (atom storable key : String) (v : Json)
  | mergeStorable (atom storable : String) (data : Fields)

/-- The scene behind an edit, whether it succeeded or not. -/
def edit (s : Scene) : Edit → Scene
  | .pack as => s.pack as
  | .merge data => (s.merge data).1
  | .compile c => (c.run s).1
  | .setField i key v => s.updateAtom i (·.setField key v)
  | .mergeAtom i data => s.updateAtom i fun a => (a.merge data).1
  | .setStorableField i j key v => s.updateStorable i j (·.setField key v)
  | .mergeStorable i j data => s.updateStorable i j (·.merge data)

/-- **Documents and scenes.** A document is read exactly if it describes a scene. It is written
as it was read, with all keys in order, exactly if no id stands twice and each atom lists its
storables; and whatever was done to the scene by then, its document reads back as one that has
the same document. -/
theorem roundTrip (v : Json) :
    ((∃ s, ofJson? v = .ok s) ↔ v.IsScene) ∧
      ∀ s, ofJson? v = .ok s → (s.toJson = v ↔ v.Verbatim) ∧
        ∀ edits : List Edit, ∃ s', ofJson? (edits.foldl edit s).toJson = .ok s' ∧
          s'.toJson = (edits.foldl edit s).toJson := by
  refine ⟨exists_ofJson?_iff, fun s h => ⟨toJson_eq_iff h, fun edits => ?_⟩⟩
  -- no edit can leave two records of one id, so what a scene is does not depend on its past
  exact ⟨_, ofJson?_toJson _, toJson_reread _⟩

/-- The document of a lamp. -/
def lamp : Json := .obj [("title", .str "Yard"), ("atoms", .arr [.obj [("on", .str "true"),
  ("storables", .arr [.obj [("range", .str "5"), ("id", .str "Light")]]), ("id", .str "Lamp")]])]

/-- The lamp is kept as it is, and also reads back behind edits of its id and its storables. -/
theorem roundTrip_lamp : ∃ s, ofJson? lamp = .ok s ∧ s.toJson = lamp ∧ ∃ s', ofJson?
    ([Edit.setField "Lamp" "id" .null, .setField "Lamp" "storables" (.str "none"),
      .merge [("atoms", .null)]].foldl edit s).toJson = .ok s' ∧ s'.toJson =
    ([Edit.setField "Lamp" "id" .null, .setField "Lamp" "storables" (.str "none"),
      .merge [("atoms", .null)]].foldl edit s).toJson := by
  obtain ⟨hread, hall⟩ := roundTrip lamp
  have hlight : Json.IsRecord (.obj [("range", .str "5"), ("id", .str "Light")]) := ⟨"Light", rfl⟩
  obtain ⟨s, hs⟩ := hread.2 ⟨_, rfl, fun u hu => by
    rw [List.mem_singleton.1 hu]
    refine ⟨⟨"Lamp", rfl⟩, fun w hw => ?_⟩
    cases hw
    exact ⟨_, rfl, fun u hu => by rw [List.mem_singleton.1 hu]; exact hlight⟩⟩
  obtain ⟨hkept, hedits⟩ := hall s hs
  refine ⟨s, hs, hkept.2 ⟨_, rfl, List.nodup_singleton _, fun u hu => ?_⟩, hedits _⟩
  rw [List.mem_singleton.1 hu]
  exact ⟨_, rfl, List.nodup_singleton _⟩

end Scene

end Stagecraft
