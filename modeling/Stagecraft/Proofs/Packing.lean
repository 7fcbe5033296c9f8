import Mathlib.Algebra.GroupWithZero.Nat
import Stagecraft.Proofs.Stock

/-!
# Atoms that are packed call by call

Packing asks for each atom whether its id is in the scene by then, and the scene grows
while it does. All calls together are a union in which the first atom of an id counts:
what the scene had stays in front, and each new id is added once.

* `Scene.packCounted`: one call, atom by atom, with the number of the atoms that it adds;
  `Scene.packCounted_eq`: it is `Scene.pack` with `Scene.packCount`.
* `Registry.toList_addAllNew_firsts`: what a call adds, also if an id comes twice in it.
* `Scene.packAll_union`: **what any calls leave behind, and what they count**.
-/

namespace Stagecraft

open Keyed (key)

/-! ## Registries -/

namespace Registry

variable {α : Type} [Keyed α] {r : Registry α}

/-- Of the records of one id the first. -/
def firsts (as : List α) : List α := as.eraseDupsBy fun a b => key a == key b

theorem firsts_cons (a : α) (as : List α) :
    firsts (a :: as) = a :: firsts (as.filter fun b => key b ≠ key a) := by
  unfold firsts
  rw [List.eraseDupsBy_cons]
  congr 3
  funext b
  simp

/-- **What is there stays in front**, and behind it comes the first record of each new id. -/
theorem toList_addAllNew_firsts (r : Registry α) (as : List α) :
    (r.addAllNew as).toList = r.toList ++ firsts (as.filter fun a => key a ∉ r.ids) := by
  unfold addAllNew
  induction as generalizing r with
  | nil => exact (List.append_nil _).symm
  | cons a as ih =>
    rw [List.foldl_cons, ih, toList_addNew, ids_addNew]
    by_cases ha : key a ∈ r.ids
    · rw [if_pos ha, if_pos ha, List.filter_cons_of_neg (by simpa using ha)]
    · -- from here on the id of the new record is one of those that are there
      have hrest : as.filter (fun b => key b ∉ r.ids ++ [key a]) =
          (as.filter fun b => key b ∉ r.ids).filter fun b => key b ≠ key a := by
        rw [List.filter_filter]
        apply List.filter_congr
        intro b _
        simp [and_comm]
      rw [if_neg ha, if_neg ha, List.filter_cons_of_pos (by simpa using ha), firsts_cons, hrest,
        List.append_assoc, List.singleton_append]

theorem size_le_addAllNew (r : Registry α) (as : List α) : r.size ≤ (r.addAllNew as).size := by
  unfold size
  rw [toList_addAllNew_firsts, List.length_append]
  exact Nat.le_add_right _ _

theorem addAllNew_append (r : Registry α) (as bs : List α) :
    r.addAllNew (as ++ bs) = (r.addAllNew as).addAllNew bs :=
  List.foldl_append

end Registry

/-! ## Calls -/

namespace Scene

variable {s : Scene}

/-- Adds an atom unless its id is in the scene, and counts it if it is added. -/
def packOne (counted : Scene × Nat) (a : Atom) : Scene × Nat :=
  if counted.1.atoms.contains a.id then counted else (counted.1.putAtom a, counted.2 + 1)

/-- A call: one atom after the other, with the number of those that it adds. -/
def packCounted (s : Scene) (as : List Atom) : Scene × Nat := as.foldl packOne (s, 0)

/-- Several calls, one after the other, with what each of them counts. -/
def packAll (s : Scene) : List (List Atom) → Scene × List Nat
  | [] => (s, [])
  | as :: calls =>
    let (t, counts) := (s.pack as).packAll calls
    (t, s.packCount as :: counts)

theorem pack_append (s : Scene) (as bs : List Atom) : s.pack (as ++ bs) = (s.pack as).pack bs := by
  unfold pack
  rw [Registry.addAllNew_append]

/-- A scene only grows, so what two calls add is what they add together. -/
theorem packCount_append (s : Scene) (as bs : List Atom) :
    s.packCount (as ++ bs) = s.packCount as + (s.pack as).packCount bs := by
  have hfirst : s.atoms.size ≤ (s.pack as).atoms.size := Registry.size_le_addAllNew _ _
  have hsecond : (s.pack as).atoms.size ≤ ((s.pack as).pack bs).atoms.size :=
    Registry.size_le_addAllNew _ _
  unfold packCount
  rw [pack_append]
  omega

theorem pack_singleton (s : Scene) (a : Atom) :
    s.pack [a] = if s.atoms.contains a.id then s else s.putAtom a := by
  show (⟨s.fields, if s.atoms.contains a.id then s.atoms else s.atoms.insert a⟩ : Scene) = _
  split <;> rfl

theorem packOne_eq (s : Scene) (n : Nat) (a : Atom) :
    packOne (s, n) a = (s.pack [a], n + s.packCount [a]) := by
  unfold packOne packCount
  rw [pack_singleton]
  by_cases ha : s.atoms.contains a.id = true
  · rw [if_pos ha, if_pos ha, Nat.sub_self]
    rfl
  · -- the new atom goes to the end
    have hnew : (s.putAtom a).atoms.size = s.atoms.size + 1 := by
      have hplace : (s.putAtom a).atoms.toList = s.atoms.toList ++ [a] :=
        Registry.place_of_not_mem fun hm => ha ((Registry.contains_iff_mem_ids _ _).2 hm)
      rw [Registry.size, hplace, List.length_append]
      rfl
    rw [if_neg ha, if_neg ha, hnew, Nat.add_sub_cancel_left]

/-- **A call** packs its atoms, and counts those that were new. -/
theorem packCounted_eq (s : Scene) (as : List Atom) :
    s.packCounted as = (s.pack as, s.packCount as) := by
  have hloop : ∀ n, as.foldl packOne (s, n) = (s.pack as, n + s.packCount as) := by
    induction as generalizing s with
    | nil =>
      intro n
      rw [packCount]
      show (s, n) = (s, n + (s.atoms.size - s.atoms.size))
      rw [Nat.sub_self, Nat.add_zero]
    | cons a as ih =>
      intro n
      have hsplit : a :: as = [a] ++ as := rfl
      rw [List.foldl_cons, packOne_eq, ih, hsplit, pack_append, packCount_append, Nat.add_assoc]
  rw [packCounted, hloop, Nat.zero_add]

/-- **All calls together** are one call. -/
theorem packAll_eq (s : Scene) (calls : List (List Atom)) :
    (s.packAll calls).1 = s.pack calls.flatten ∧
      (s.packAll calls).2.sum = s.packCount calls.flatten := by
  induction calls generalizing s with
  | nil => exact ⟨rfl, (Nat.sub_self _).symm⟩
  | cons as calls ih =>
    obtain ⟨hscene, hsum⟩ := ih (s.pack as)
    simp only [packAll, List.flatten_cons, List.sum_cons, pack_append, packCount_append, hscene,
      hsum, and_self]

/-- **Packing is a union in which the first atom counts.** Whatever atoms are packed in whatever
calls, the scene keeps its own in front and gets the first atom of each new id behind them, in
order. The calls count what the scene grows by, atom by atom; they do the same as one call with
all of their atoms, a call that is repeated does nothing, and no field of the document changes. -/
theorem packAll_union (s : Scene) (calls : List (List Atom)) :
    (∀ u : Scene, ∀ as ∈ calls, u.packCounted as = (u.pack as, u.packCount as)) ∧
    ∃ t counts, s.packAll calls = (t, counts) ∧
      t.atoms.toList = s.atoms.toList ++
        Registry.firsts (calls.flatten.filter fun a => a.id ∉ s.atoms.ids) ∧
      s.atoms.size + counts.sum = t.atoms.size ∧
      s.pack calls.flatten = t ∧ s.packCount calls.flatten = counts.sum ∧
      (∀ as ∈ calls, t.pack as = t ∧ t.packCount as = 0) ∧
      t.fields = s.fields := by
  obtain ⟨hscene, hsum⟩ := packAll_eq s calls
  have hgrown : s.atoms.size ≤ (s.pack calls.flatten).atoms.size := Registry.size_le_addAllNew _ _
  refine ⟨fun u as _ => packCounted_eq u as, _, _, rfl, ?_, ?_, hscene.symm, hsum.symm, ?_, ?_⟩
  · rw [hscene]
    exact Registry.toList_addAllNew_firsts s.atoms _
  · rw [hscene, hsum, packCount]
    omega
  · intro as has
    -- the ids of a call are in the scene from that call on
    have hthere : ∀ a ∈ as, a.id ∈ (s.pack calls.flatten).atoms.ids := fun a ha =>
      Registry.mem_ids_addAllNew.2
        (.inr (List.mem_map_of_mem (List.mem_flatten.2 ⟨as, has, ha⟩)))
    have hsame : (s.pack calls.flatten).pack as = s.pack calls.flatten := by
      rw [pack, Registry.addAllNew_eq_self hthere]
    rw [hscene, packCount, hsame]
    exact ⟨rfl, Nat.sub_self _⟩
  · rw [hscene]
    rfl

/-- A scene with a door. -/
def porch : Scene := ⟨[], .ofList [SceneSet.painted "Door" "brown"]⟩

/-- Two calls with lamps of three colors, another door and a panel. -/
def deliveries : List (List Atom) :=
  [[SceneSet.painted "Lamp" "red", SceneSet.painted "Lamp" "blue"],
    [SceneSet.painted "Door" "grey", SceneSet.painted "Lamp" "grey",
      SceneSet.painted "Panel" "black"]]

/-- The first lamp is added, and the porch keeps its door. -/
theorem packAll_union_deliveries : ∃ t counts, porch.packAll deliveries = (t, counts) ∧
    t.atoms.toList = [SceneSet.painted "Door" "brown", SceneSet.painted "Lamp" "red",
      SceneSet.painted "Panel" "black"] ∧
    counts.sum = 2 ∧
    t.packCounted [SceneSet.painted "Lamp" "red", SceneSet.painted "Lamp" "blue"] = (t, 0) := by
  obtain ⟨hloop, t, counts, hall, hatoms, hsum, -, -, hrepeat, -⟩ :=
    packAll_union porch deliveries
  have hthree : t.atoms.toList = [SceneSet.painted "Door" "brown", SceneSet.painted "Lamp" "red",
      SceneSet.painted "Panel" "black"] := by
    rw [hatoms]
    rfl
  have hsize : t.atoms.size = 3 := congrArg List.length hthree
  have hone : porch.atoms.size = 1 := rfl
  obtain ⟨hpack, hcount⟩ := hrepeat _ List.mem_cons_self
  refine ⟨t, counts, hall, hthree, by omega, ?_⟩
  rw [hloop t _ List.mem_cons_self, hpack, hcount]

end Scene

end Stagecraft
