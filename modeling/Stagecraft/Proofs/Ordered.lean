import Mathlib.Data.List.Basic
import Mathlib.Data.String.Basic
import Stagecraft.Catalog

/-!
# Catalogs are in order

Whatever is put into a catalog, its keys ascend, so none stands twice.

* `Catalog.mem_keys_set`, `Catalog.mem_keys_ofList`, `Catalog.mem_sorted`: the keys that are there.
* `Catalog.Ascending`, `Catalog.ascending_set`, `Catalog.ascending_ofList`: **the keys ascend**.
* `Catalog.pairwise_sorted`: so do texts that were sorted.
-/

namespace Stagecraft

namespace Catalog

variable {α : Type} {c : Catalog α} {key k : String} {a : α} {e : String × α}

theorem mem_of_mem_set (h : e ∈ set key a c) : e = (key, a) ∨ e ∈ c := by
  fun_induction set key a c with
  | case1 => exact .inl (List.mem_singleton.1 h)
  | case2 b c =>
    rcases List.mem_cons.1 h with h | h
    · exact .inl h
    · exact .inr (List.mem_cons_of_mem _ h)
  | case3 k b c => exact List.mem_cons.1 h
  | case4 k b c _ _ ih =>
    rcases List.mem_cons.1 h with h | h
    · exact .inr (h ▸ List.mem_cons_self)
    · exact (ih h).imp id (List.mem_cons_of_mem _)

theorem mem_keys_set : k ∈ (set key a c).map (·.1) ↔ k = key ∨ k ∈ c.map (·.1) := by
  fun_induction set key a c with
  | case1 => simp
  | case2 b c => simp
  | case3 k' b c => simp
  | case4 k' b c _ _ ih =>
    rw [List.map_cons, List.mem_cons, ih, List.map_cons, List.mem_cons]
    tauto

theorem mem_keys_foldl (es : List (String × α)) (c : Catalog α) :
    k ∈ (es.foldl (fun c e => set e.1 e.2 c) c).map (·.1) ↔ k ∈ es.map (·.1) ∨ k ∈ c.map (·.1) := by
  induction es generalizing c with
  | nil => simp
  | cons e es ih =>
    rw [List.foldl_cons, ih, mem_keys_set, List.map_cons, List.mem_cons]
    tauto

/-- A catalog has the keys that were listed. -/
theorem mem_keys_ofList {es : List (String × α)} : k ∈ (ofList es).map (·.1) ↔ k ∈ es.map (·.1) := by
  rw [ofList, mem_keys_foldl]
  simp

theorem mem_of_mem_foldl {es : List (String × α)} {c : Catalog α}
    (h : e ∈ es.foldl (fun c e => set e.1 e.2 c) c) : e ∈ es ∨ e ∈ c := by
  induction es generalizing c with
  | nil => exact .inr h
  | cons e' es ih =>
    rcases ih h with h | h
    · exact .inl (List.mem_cons_of_mem _ h)
    · rcases mem_of_mem_set h with rfl | h
      · exact .inl List.mem_cons_self
      · exact .inr h

theorem mem_of_mem_foldl_new {keys : List String}
    (h : e ∈ keys.foldl (fun c key => if (get? c key).isSome then c else set key a c) c) :
    e.2 = a ∨ e ∈ c := by
  induction keys generalizing c with
  | nil => exact .inr h
  | cons key keys ih =>
    rw [List.foldl_cons] at h
    rcases ih h with h | h
    · exact .inl h
    split at h
    · exact .inr h
    · exact (mem_of_mem_set h).imp (congrArg Prod.snd) id

/-- What a catalog holds was listed. -/
theorem mem_of_mem_ofList {es : List (String × α)} (h : e ∈ ofList es) : e ∈ es :=
  (mem_of_mem_foldl h).resolve_right List.not_mem_nil

theorem mem_keys_of_isSome (h : (get? c k).isSome) : k ∈ c.map (·.1) := by
  rw [get?, Option.isSome_map, Option.isSome_iff_exists] at h
  obtain ⟨e, he⟩ := h
  have hkey : e.1 = k := by simpa using List.find?_some he
  exact hkey ▸ List.mem_map_of_mem (List.mem_of_find?_eq_some he)

/-- Keys that are there already keep their value; the others are added with the one given. -/
theorem mem_keys_foldl_new (keys : List String) (c : Catalog α) :
    k ∈ (keys.foldl (fun c key => if (get? c key).isSome then c else set key a c) c).map (·.1) ↔
      k ∈ c.map (·.1) ∨ k ∈ keys := by
  induction keys generalizing c with
  | nil => simp
  | cons key keys ih =>
    rw [List.foldl_cons, ih, List.mem_cons]
    split
    · rename_i hthere
      have hkey : k = key → k ∈ c.map (·.1) := fun he => he ▸ mem_keys_of_isSome hthere
      tauto
    · rw [mem_keys_set]
      tauto

theorem mem_sorted {ks : List String} : k ∈ sorted ks ↔ k ∈ ks := by
  rw [sorted, mem_keys_ofList, List.map_map]
  simp

/-- The keys ascend. -/
def Ascending (c : Catalog α) : Prop := (c.map (·.1)).Pairwise (· < ·)

/-- **A key is put where it belongs.** -/
theorem ascending_set (h : c.Ascending) (key : String) (a : α) : (set key a c).Ascending := by
  unfold Ascending at h ⊢
  fun_induction set key a c with
  | case1 => exact List.pairwise_singleton _ _
  | case2 b c => exact h
  | case3 k b c hne hlt =>
    rw [List.map_cons, List.pairwise_cons]
    refine ⟨fun x hx => ?_, h⟩
    rcases List.mem_cons.1 hx with rfl | hx
    · exact hlt
    · exact lt_trans hlt ((List.pairwise_cons.1 h).1 x hx)
  | case4 k b c hne hlt ih =>
    obtain ⟨hfirst, hrest⟩ := List.pairwise_cons.1 h
    rw [List.map_cons, List.pairwise_cons]
    refine ⟨fun x hx => ?_, ih hrest⟩
    -- a key that goes further back is greater than those in front
    rcases mem_keys_set.1 hx with rfl | hx
    · exact lt_of_le_of_ne (not_lt.1 hlt) (Ne.symm hne)
    · exact hfirst x hx

theorem ascending_foldl (es : List (String × α)) (h : c.Ascending) :
    (es.foldl (fun c e => set e.1 e.2 c) c).Ascending := by
  induction es generalizing c with
  | nil => exact h
  | cons e es ih => exact ih (ascending_set h _ _)

theorem ascending_foldl_new (keys : List String) (h : c.Ascending) :
    (keys.foldl (fun c key => if (get? c key).isSome then c else set key a c) c).Ascending := by
  induction keys generalizing c with
  | nil => exact h
  | cons key keys ih =>
    rw [List.foldl_cons]
    apply ih
    split
    · exact h
    · exact ascending_set h _ _

theorem ascending_ofList (es : List (String × α)) : (ofList es).Ascending :=
  ascending_foldl es List.Pairwise.nil

theorem pairwise_sorted (ks : List String) : (sorted ks).Pairwise (· < ·) := ascending_ofList _

/-- No key of a catalog stands twice. -/
theorem Ascending.nodup (h : c.Ascending) : (c.map (·.1)).Nodup :=
  List.Pairwise.imp (fun hlt => ne_of_lt hlt) h

end Catalog

end Stagecraft
