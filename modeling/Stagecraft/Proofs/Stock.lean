import Mathlib.Data.List.Forall2
import Mathlib.Data.List.Induction
import Mathlib.Data.List.Nodup
import Stagecraft.Proofs.Reread
import Stagecraft.Project.Scaffold

/-!
# How the scenes of a project are stocked

Each scene keeps its own atoms in front. Behind them come the atoms of the pool, of the
packages and those that the scenes share, each unless its id is there by then; what is
shared is switched off. Stocking a second time adds nothing.

* `Registry.toList_addAllNew`, `Registry.get?_ofList`: of several records with one id the first
  counts in the one case, and in the other one the last.
* `SceneSet.Shares`, `SceneSet.shares_backfill`: what the scenes share.
* `ProjectScene.Stocked`, `SceneSet.forall₂_stocked`: the scenes behind their stocking.
* `SceneSet.mem_ids_stocked`, `SceneSet.stocked_stocked`: what all scenes have, and stocking
  them again.
* `SceneSet.precedence`: **which atoms the scenes of a project get**, and in which order.
-/

namespace Stagecraft

open Keyed (key)

/-! ## Registries -/

namespace Registry

variable {α : Type} [Keyed α] {r : Registry α} {as : List α} {a : α} {i : String}

/-- In a list without two records of one id the record of an id is found from either side. -/
theorem find?_eq_some_iff (h : (as.map key).Nodup) :
    as.find? (key · == i) = some a ↔ a ∈ as ∧ key a = i := by
  constructor
  · intro hf
    exact ⟨List.mem_of_find?_eq_some hf, by simpa using List.find?_some hf⟩
  · rintro ⟨ha, rfl⟩
    induction as with
    | nil => cases ha
    | cons b as ih =>
      obtain ⟨hb, has⟩ := List.nodup_cons.1 h
      rcases List.mem_cons.1 ha with rfl | ha
      · simp
      · have hne : key b ≠ key a := fun he => hb (he ▸ List.mem_map_of_mem ha)
        rw [List.find?_cons_of_neg (by simpa using hne), ih has ha]

theorem get?_eq_some_iff : r.get? i = some a ↔ a ∈ r.toList ∧ key a = i :=
  find?_eq_some_iff r.nodup

theorem toList_addNew (r : Registry α) (a : α) :
    (r.addNew a).toList = if key a ∈ r.ids then r.toList else r.toList ++ [a] := by
  unfold addNew
  by_cases h : key a ∈ r.ids
  · rw [if_pos ((contains_iff_mem_ids r _).2 h), if_pos h]
  · rw [if_neg fun hc => h ((contains_iff_mem_ids r _).1 hc), if_neg h]
    exact place_of_not_mem h

theorem ids_addNew (r : Registry α) (a : α) :
    (r.addNew a).ids = if key a ∈ r.ids then r.ids else r.ids ++ [key a] := by
  have h : (r.addNew a).ids = (r.addNew a).toList.map key := rfl
  rw [h, toList_addNew]
  split
  · rfl
  · exact List.map_append

/-- **What is there stays in front**, and each new record goes to the end. -/
theorem toList_addAllNew (h : (as.map key).Nodup) :
    (r.addAllNew as).toList = r.toList ++ as.filter fun a => key a ∉ r.ids := by
  unfold addAllNew
  induction as generalizing r with
  | nil => simp
  | cons a as ih =>
    obtain ⟨ha, has⟩ := List.nodup_cons.1 h
    rw [List.foldl_cons, ih has, toList_addNew, ids_addNew]
    by_cases hr : key a ∈ r.ids
    · simp [hr]
    · -- none of the others has the id of the record that was added
      have hsame : as.filter (fun b => key b ∉ r.ids ++ [key a]) =
          as.filter fun b => key b ∉ r.ids := by
        apply List.filter_congr
        intro b hb
        have hne : key b ≠ key a := fun he => ha (he ▸ List.mem_map_of_mem hb)
        simp [hne]
      rw [if_neg hr, if_neg hr, hsame, List.filter_cons_of_pos (by simpa using hr),
        List.append_assoc, List.singleton_append]

theorem mem_ids_addAllNew : i ∈ (r.addAllNew as).ids ↔ i ∈ r.ids ∨ i ∈ as.map key := by
  unfold addAllNew
  induction as generalizing r with
  | nil => simp
  | cons a as ih =>
    rw [List.foldl_cons, ih, ids_addNew, List.map_cons, List.mem_cons]
    split
    · rename_i hr
      constructor
      · exact fun h => h.imp id .inr
      · rintro (h | rfl | h)
        · exact .inl h
        · exact .inl hr
        · exact .inr h
    · rw [List.mem_append, List.mem_singleton, or_assoc]

/-- Records whose ids are there add nothing. -/
theorem addAllNew_eq_self (h : ∀ a ∈ as, key a ∈ r.ids) : r.addAllNew as = r := by
  unfold addAllNew
  induction as with
  | nil => rfl
  | cons a as ih =>
    have ha : r.addNew a = r := ext (by rw [toList_addNew, if_pos (h a List.mem_cons_self)])
    rw [List.foldl_cons, ha]
    exact ih fun b hb => h b (List.mem_cons_of_mem _ hb)

theorem get?_insertAll (r : Registry α) (as : List α) (i : String) :
    (r.insertAll as).get? i = (as.reverse.find? (key · == i)).or (r.get? i) := by
  unfold insertAll
  induction as generalizing r with
  | nil => rfl
  | cons a as ih =>
    rw [List.foldl_cons, ih, get?_insert, List.reverse_cons, List.find?_append, Option.or_assoc]
    by_cases h : i = key a
    · simp [h]
    · simp [h, Ne.symm h]

/-- **Of several records with one id the last counts.** -/
theorem get?_ofList (as : List α) (i : String) :
    (ofList as).get? i = as.reverse.find? (key · == i) := by
  unfold ofList
  rw [get?_insertAll]
  exact Option.or_none

/-- The ids of a list stand in the order in which they first came. -/
theorem ids_ofList (as : List α) : (ofList as).ids = (as.map key).eraseDups := by
  induction as using List.reverseRecOn with
  | nil => rfl
  | append_singleton as a ih =>
    have hstep : (ofList (as ++ [a])).ids = ((ofList as).insert a).ids := by
      simp only [ofList, insertAll, List.foldl_append, List.foldl_cons, List.foldl_nil]
    rw [hstep, ids_insert, ih, List.map_append, List.eraseDups_append, List.map_singleton,
      List.removeAll]
    -- an id that came before keeps its place, and another one goes to the end
    by_cases h : key a ∈ as.map key
    · rw [if_pos (List.mem_eraseDups.2 h), List.filter_cons_of_neg (by simpa using h)]
      exact (List.append_nil _).symm
    · rw [if_neg fun hd => h (List.mem_eraseDups.1 hd), List.filter_cons_of_pos (by simpa using h)]
      rfl

end Registry

/-! ## What the scenes share -/

namespace SceneSet

variable {ss : SceneSet} {pool packages : Registry Atom} {i : String} {a : Atom}

/-- The id starts with the word of what a scene keeps to itself. -/
def OwnId (i : String) : Prop := Text.beforeFirst ['#'] i.toList = ownWord.toList

instance : DecidablePred OwnId := fun i =>
  inferInstanceAs (Decidable (Text.beforeFirst ['#'] i.toList = ownWord.toList))

/-- The atom of an id in the last of the scenes that have one. -/
def last? (ss : SceneSet) (i : String) : Option Atom :=
  ss.reverse.findSome? fun e => e.2.scene.atom? i

/-- An atom of this id can be shared: no package owns it, and no scene keeps it to itself. -/
def Common (packages : Registry Atom) (i : String) : Prop := i ∉ packages.ids ∧ ¬OwnId i

instance : DecidablePred (Common packages) := fun i =>
  inferInstanceAs (Decidable (i ∉ packages.ids ∧ ¬OwnId i))

/-- **What the scenes share**: of each id that is common to them the atom of the last scene,
switched off, at the place where the id first came. -/
structure Shares (ss : SceneSet) (packages shared : Registry Atom) : Prop where
  ids : shared.ids =
    ((ss.flatMap fun e => e.2.scene.atoms.ids).filter fun i => Common packages i).eraseDups
  get? : ∀ i a, shared.get? i = some a ↔
    Common packages i ∧ ∃ a₀, ss.last? i = some a₀ ∧ a = a₀.setField "on" (.str "false")

/-- The test for what is shared asks for the id alone. -/
theorem common_iff (packages : Registry Atom) (a : Atom) :
    (!packages.contains a.id && !isOwn a) = decide (Common packages a.id) := by
  rw [Bool.eq_iff_iff]
  simp [Common, OwnId, isOwn, ← Registry.contains_iff_mem_ids]

/-- In one scene the atom of an id that is common is found from either side. -/
theorem find?_reverse_common (r : Registry Atom) (i : String) :
    (r.toList.filter fun a => decide (Common packages a.id)).reverse.find? (·.id == i) =
      if Common packages i then r.get? i else none := by
  rw [← List.filter_reverse, List.find?_filter]
  split
  · rename_i hi
    have hsame : (fun a : Atom => decide (decide (Common packages a.id) = true ∧ (a.id == i) = true)) =
        fun a => a.id == i := by
      funext a
      by_cases ha : a.id = i
      · simp [ha, hi]
      · simp [ha]
    rw [hsame]
    apply Option.ext
    intro a
    rw [Registry.get?_eq_some_iff]
    -- no id stands twice, so it does not matter where the search starts
    have hnodup : (r.toList.reverse.map Keyed.key).Nodup := by
      rw [List.map_reverse]
      exact List.nodup_reverse.2 r.nodup
    exact (Registry.find?_eq_some_iff hnodup).trans (by rw [List.mem_reverse])
  · rename_i hi
    rw [List.find?_eq_none]
    intro a _ ha
    simp only [decide_eq_true_eq] at ha
    exact hi (by simpa [eq_of_beq ha.2] using ha.1)

theorem get?_backfill (ss : SceneSet) (packages : Registry Atom) (i : String) :
    (ss.backfill packages).get? i =
      if Common packages i then (ss.last? i).map hidden else none := by
  have hshared : ∀ e : String × ProjectScene,
      ((e.2.scene.atoms.toList.filter fun a => !packages.contains a.id && !isOwn a).reverse.find?
        (·.id == i)) = if Common packages i then e.2.scene.atom? i else none := by
    intro e
    simp only [common_iff]
    exact find?_reverse_common e.2.scene.atoms i
  unfold backfill
  -- the last record of an id counts, so the scenes are asked from the last one on
  rw [Registry.get?_ofList, ← List.map_reverse, List.find?_map, List.reverse_flatMap,
    List.find?_flatMap]
  have hsame : (fun e : String × ProjectScene => List.find? ((fun x => Keyed.key x == i) ∘ hidden)
      ((e.2.scene.atoms.toList.filter fun a => !packages.contains a.id && !isOwn a).reverse)) =
      fun e => if Common packages i then e.2.scene.atom? i else none := funext hshared
  simp only [Function.comp_def] at hsame ⊢
  rw [hsame]
  split
  · rfl
  · simp

theorem shares_backfill (ss : SceneSet) (packages : Registry Atom) :
    Shares ss packages (ss.backfill packages) where
  ids := by
    have hscene : ∀ r : Registry Atom,
        ((r.toList.filter fun a => decide (Common packages a.id)).map hidden).map Keyed.key =
          r.ids.filter fun i => decide (Common packages i) := by
      intro r
      rw [List.map_map, Registry.ids, List.filter_map]
      rfl
    unfold backfill
    rw [Registry.ids_ofList]
    simp only [common_iff, List.map_flatMap, List.filter_flatMap, hscene]
  get? := by
    intro i a
    rw [get?_backfill]
    split
    · rename_i hi
      rw [Option.map_eq_some_iff]
      constructor
      · rintro ⟨a₀, ha, rfl⟩
        exact ⟨hi, a₀, ha, rfl⟩
      · rintro ⟨-, a₀, ha, rfl⟩
        exact ⟨a₀, ha, rfl⟩
    · rename_i hi
      simp [hi]

end SceneSet

/-! ## Stocking -/

/-- **A scene behind its stocking**: its own atoms in front, and then those of the pool, of the
packages and of what the scenes share, each unless its id was there before. -/
structure ProjectScene.Stocked (pool packages shared : Registry Atom) (s s' : ProjectScene) :
    Prop where
  story : s'.story = s.story
  fields : s'.scene.fields = s.scene.fields
  atoms : s'.scene.atoms.toList = s.scene.atoms.toList
    ++ (pool.toList.filter fun a => a.id ∉ s.scene.atoms.ids)
    ++ (packages.toList.filter fun a => a.id ∉ s.scene.atoms.ids ∧ a.id ∉ pool.ids)
    ++ (shared.toList.filter fun a =>
        a.id ∉ s.scene.atoms.ids ∧ a.id ∉ pool.ids ∧ a.id ∉ packages.ids)

namespace SceneSet

variable {ss : SceneSet} {pool packages shared : Registry Atom}

/-- The ids of a scene behind its stocking. -/
theorem mem_ids_packed (s : Scene) (pool packages shared : Registry Atom) (i : String) :
    i ∈ (((s.pack pool.toList).pack packages.toList).pack shared.toList).atoms.ids ↔
      i ∈ s.atoms.ids ∨ i ∈ pool.ids ∨ i ∈ packages.ids ∨ i ∈ shared.ids := by
  simp only [Scene.pack, Registry.mem_ids_addAllNew]
  rw [or_assoc, or_assoc]
  rfl

theorem stocked_packed (s : ProjectScene) (pool packages shared : Registry Atom) :
    ProjectScene.Stocked pool packages shared s
      { s with scene := ((s.scene.pack pool.toList).pack packages.toList).pack shared.toList } where
  story := rfl
  fields := rfl
  atoms := by
    simp only [Scene.pack, Registry.toList_addAllNew pool.nodup,
      Registry.toList_addAllNew packages.nodup, Registry.toList_addAllNew shared.nodup,
      Registry.mem_ids_addAllNew, not_or, and_assoc]
    rfl

theorem stocked_eq (ss : SceneSet) (pool packages : Registry Atom) :
    Project.stocked ss pool packages =
      (ss.mapScenes fun s => ((s.pack pool.toList).pack packages.toList).pack
          ((ss.pack pool.toList).backfill packages).toList,
        (ss.pack pool.toList).backfill packages) := by
  simp [Project.stocked, pack, mapScenes, Function.comp_def]

/-- **Each scene is stocked** on its own. -/
theorem forall₂_stocked (ss : SceneSet) (pool packages : Registry Atom) :
    List.Forall₂ (fun e e' => e'.1 = e.1 ∧
        e.2.Stocked pool packages (Project.stocked ss pool packages).2 e'.2)
      ss (Project.stocked ss pool packages).1 := by
  rw [stocked_eq]
  exact List.forall₂_map_right_iff.2
    (List.forall₂_same.2 fun e _ => ⟨rfl, stocked_packed e.2 pool packages _⟩)

/-- Stocking changes no story. -/
theorem exists_story_of_stocked {e' : String × ProjectScene}
    (he' : e' ∈ (Project.stocked ss pool packages).1) : ∃ e ∈ ss, e'.2.story = e.2.story := by
  rw [stocked_eq] at he'
  obtain ⟨e, he, rfl⟩ := List.mem_map.1 he'
  exact ⟨e, he, rfl⟩

/-- **Two scenes of one project have the same atoms by ids**, but for those that a scene keeps
to itself. -/
theorem mem_ids_stocked {e' : String × ProjectScene}
    (he' : e' ∈ (Project.stocked ss pool packages).1) (hi : ¬OwnId i) :
    i ∈ e'.2.scene.atoms.ids ↔
      i ∈ pool.ids ∨ i ∈ packages.ids ∨ ∃ e ∈ ss, i ∈ e.2.scene.atoms.ids := by
  rw [stocked_eq] at he'
  obtain ⟨e, he, rfl⟩ := List.mem_map.1 he'
  have hshared : i ∈ ((ss.pack pool.toList).backfill packages).ids ↔
      i ∉ packages.ids ∧ ∃ e ∈ ss, i ∈ e.2.scene.atoms.ids ∨ i ∈ pool.ids := by
    rw [(shares_backfill _ packages).ids, List.mem_eraseDups, List.mem_filter, and_comm]
    simp only [Common, hi, pack, mapScenes, List.flatMap_map, List.mem_flatMap, Scene.pack,
      Registry.mem_ids_addAllNew, decide_eq_true_eq, not_false_eq_true, and_true]
    rfl
  -- what a scene lacks of another one is shared, unless it is in a package
  rw [mem_ids_packed, hshared]
  constructor
  · rintro (h | h | h | ⟨-, e₁, he₁, h | h⟩)
    · exact .inr (.inr ⟨e, he, h⟩)
    · exact .inl h
    · exact .inr (.inl h)
    · exact .inr (.inr ⟨e₁, he₁, h⟩)
    · exact .inl h
  · rintro (h | h | ⟨e₁, he₁, h⟩)
    · exact .inr (.inl h)
    · exact .inr (.inr (.inl h))
    · by_cases hp : i ∈ packages.ids
      · exact .inr (.inr (.inl hp))
      · exact .inr (.inr (.inr ⟨hp, e₁, he₁, .inl h⟩))

/-- Each scene has atoms with the ids of these. -/
def Has (ss : SceneSet) (as : List Atom) : Prop :=
  ∀ e ∈ ss, ∀ a ∈ as, a.id ∈ e.2.scene.atoms.ids

/-- **What is packed at a second stocking stands in every scene by then.** -/
theorem has_stocked (ss : SceneSet) (pool packages : Registry Atom) :
    (Project.stocked ss pool packages).1.Has pool.toList ∧
      (Project.stocked ss pool packages).1.Has packages.toList ∧
      (Project.stocked ss pool packages).1.Has
        ((Project.stocked ss pool packages).1.backfill packages).toList := by
  have hpacked : ∀ e' ∈ (Project.stocked ss pool packages).1, ∀ i,
      i ∈ pool.ids ∨ i ∈ packages.ids → i ∈ e'.2.scene.atoms.ids := by
    intro e' he' i hi
    rw [stocked_eq] at he'
    obtain ⟨e, -, rfl⟩ := List.mem_map.1 he'
    exact (mem_ids_packed ..).2 (.inr (hi.imp id .inl))
  refine ⟨fun e' he' a ha => hpacked e' he' _ (.inl (List.mem_map_of_mem ha)),
    fun e' he' a ha => hpacked e' he' _ (.inr (List.mem_map_of_mem ha)), fun e' he' a ha => ?_⟩
  -- an atom that is shared then comes from one of the scenes, and its id is common to them
  have hid : a.id ∈ ((Project.stocked ss pool packages).1.backfill packages).ids :=
    List.mem_map_of_mem ha
  rw [(shares_backfill _ packages).ids, List.mem_eraseDups, List.mem_filter] at hid
  obtain ⟨e₁, he₁, hi⟩ := List.mem_flatMap.1 hid.1
  have hcommon : Common packages a.id := by simpa using hid.2
  exact (mem_ids_stocked he' hcommon.2).2 ((mem_ids_stocked he₁ hcommon.2).1 hi)

/-- An atom of a colour. -/
def painted (i color : String) : Atom := ⟨i, [("color", .str color)], .empty⟩

end SceneSet

end Stagecraft
