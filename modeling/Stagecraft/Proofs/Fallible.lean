import Mathlib.Data.List.Forall2

/-!
# Steps that can fail

A list of steps is gone through up to the first that fails. It gives results exactly if
each step gives one, and then it gives these, in order.

* `bind_eq_ok`: two steps, one behind the other.
* `forall₂_of_mapM`, `exists_of_mapM`: what a list of steps gave; `exists_of_forall₂`.
* `exists_mapM_iff`: whether it gives anything.
* `mapM_congr`, `foldlM_congr`: the same steps give the same.
* `Keeps`: what one computation gives another one gives too.
-/

namespace Stagecraft

variable {α β ε : Type}

theorem bind_eq_ok {x : Except ε α} {f : α → Except ε β} {b : β} (h : x >>= f = .ok b) :
    ∃ a, x = .ok a ∧ f a = .ok b := by
  cases x with
  | error e => cases h
  | ok a => exact ⟨a, rfl, h⟩

theorem map_eq_ok {x : Except ε α} {f : α → β} {b : β} (h : x.map f = .ok b) :
    ∃ a, x = .ok a ∧ f a = b := by
  cases x with
  | error e => cases h
  | ok a => exact ⟨a, rfl, Except.ok.inj h⟩

variable {f : α → Except ε β} {as : List α} {bs : List β}

/-- What a list of steps gave, one by one. -/
theorem forall₂_of_mapM (h : as.mapM f = .ok bs) : List.Forall₂ (fun a b => f a = .ok b) as bs := by
  induction as generalizing bs with
  | nil =>
    cases h
    exact .nil
  | cons a as ih =>
    rw [List.mapM_cons] at h
    obtain ⟨b, hb, h⟩ := bind_eq_ok h
    obtain ⟨bs, hbs, h⟩ := bind_eq_ok h
    cases h
    exact .cons hb (ih hbs)

theorem exists_of_mapM (h : as.mapM f = .ok bs) {b : β} (hb : b ∈ bs) : ∃ a ∈ as, f a = .ok b := by
  have hall := forall₂_of_mapM h
  clear h
  induction hall with
  | nil => cases hb
  | cons h _ ih =>
    rcases List.mem_cons.1 hb with rfl | hb
    · exact ⟨_, List.mem_cons_self, h⟩
    · obtain ⟨a, ha, hf⟩ := ih hb
      exact ⟨a, List.mem_cons_of_mem _ ha, hf⟩

/-- Each of two lists that are related has a partner for a member of the other one. -/
theorem exists_of_forall₂ {R : α → β → Prop} (h : List.Forall₂ R as bs) {a : α} (ha : a ∈ as) :
    ∃ b ∈ bs, R a b := by
  induction h with
  | nil => cases ha
  | cons hab _ ih =>
    rcases List.mem_cons.1 ha with rfl | ha
    · exact ⟨_, List.mem_cons_self, hab⟩
    · obtain ⟨b, hb, h⟩ := ih ha
      exact ⟨b, List.mem_cons_of_mem _ hb, h⟩

/-- **A list of steps gives results** exactly if each of its steps gives one. -/
theorem exists_mapM_iff : (∃ bs, as.mapM f = .ok bs) ↔ ∀ a ∈ as, ∃ b, f a = .ok b := by
  induction as with
  | nil => exact ⟨fun _ a ha => absurd ha List.not_mem_nil, fun _ => ⟨[], rfl⟩⟩
  | cons a as ih =>
    rw [List.forall_mem_cons, ← ih]
    constructor
    · rintro ⟨bs, h⟩
      rw [List.mapM_cons] at h
      obtain ⟨b, hb, h⟩ := bind_eq_ok h
      obtain ⟨bs, hbs, -⟩ := bind_eq_ok h
      exact ⟨⟨b, hb⟩, bs, hbs⟩
    · rintro ⟨⟨b, hb⟩, bs, hbs⟩
      refine ⟨b :: bs, ?_⟩
      rw [List.mapM_cons, hb, hbs]
      rfl

/-- Steps that are the same for each member of a list give the same results. -/
theorem mapM_congr {g : α → Except ε β} (h : ∀ a ∈ as, f a = g a) : as.mapM f = as.mapM g := by
  induction as with
  | nil => rfl
  | cons a as ih =>
    rw [List.mapM_cons, List.mapM_cons, h a List.mem_cons_self,
      ih fun b hb => h b (List.mem_cons_of_mem _ hb)]

theorem foldlM_congr {f g : β → α → Except ε β} (h : ∀ a ∈ as, ∀ b, f b a = g b a) (b : β) :
    as.foldlM f b = as.foldlM g b := by
  induction as generalizing b with
  | nil => rfl
  | cons a as ih =>
    have hrest := ih fun x hx => h x (List.mem_cons_of_mem _ hx)
    rw [List.foldlM_cons, List.foldlM_cons, h a List.mem_cons_self]
    exact bind_congr hrest

/-- **What the first gives the second gives too.** -/
def Keeps (x y : Except ε α) : Prop := ∀ a, x = .ok a → y = .ok a

namespace Keeps

theorem refl (x : Except ε α) : Keeps x x := fun _ h => h

theorem bind {x y : Except ε α} {f g : α → Except ε β} (hx : Keeps x y)
    (hf : ∀ a, Keeps (f a) (g a)) : Keeps (x >>= f) (y >>= g) := by
  intro b h
  obtain ⟨a, ha, hb⟩ := bind_eq_ok h
  rw [hx a ha]
  exact hf a b hb

theorem map {x y : Except ε α} (hx : Keeps x y) (f : α → β) : Keeps (x.map f) (y.map f) := by
  intro b h
  obtain ⟨a, ha, rfl⟩ := map_eq_ok h
  rw [hx a ha]
  rfl

theorem mapM {f g : α → Except ε β} (h : ∀ a ∈ as, Keeps (f a) (g a)) :
    Keeps (as.mapM f) (as.mapM g) := by
  induction as with
  | nil => exact refl _
  | cons a as ih =>
    rw [List.mapM_cons, List.mapM_cons]
    refine (h a List.mem_cons_self).bind fun b => ?_
    exact (ih fun x hx => h x (List.mem_cons_of_mem _ hx)).bind fun bs => refl _

theorem foldlM {f g : β → α → Except ε β} (h : ∀ a ∈ as, ∀ b, Keeps (f b a) (g b a)) (b : β) :
    Keeps (as.foldlM f b) (as.foldlM g b) := by
  induction as generalizing b with
  | nil => exact refl _
  | cons a as ih =>
    rw [List.foldlM_cons, List.foldlM_cons]
    refine (h a List.mem_cons_self b).bind fun b' => ?_
    exact ih (fun x hx => h x (List.mem_cons_of_mem _ hx)) b'

end Keeps

end Stagecraft
