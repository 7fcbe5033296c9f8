import Stagecraft.Proofs.Ids
import Stagecraft.Proofs.Line
import Stagecraft.Proofs.Triggers
import Stagecraft.Stage.Compile

/-!
# Renewing the triggers of a branch

Each trigger that is written into a branch is found again under its name, so the
triggers of a branch are renewed to themselves. A branch is settled in a scene if it
stands there as it would be written down.

* `Compiler.renewed`, `Compiler.renewed_renewed`: the triggers of a branch, made twice.
* `Compiler.Settled`: a branch that stands as it would be written down;
  `write_eq_self`, `settled_foldl`.
* `Compiler.triggers_foldl`: what stands in a branch behind several that were written.
-/

namespace Stagecraft

open Stage

namespace Trigger

variable {name : String} {t : Trigger} {ts : List Trigger} {vs : List Json}

theorem name?_of_find? (h : find? name vs = some t) : t.name? = some name := by
  have ht := List.find?_some h
  exact eq_of_beq ht

/-- The only trigger of a name is found. -/
theorem find?_of_unique (ht : t ∈ ts) (hn : t.name? = some name)
    (hu : ∀ t' ∈ ts, t'.name? = some name → t' = t) : find? name (ts.map .obj) = some t := by
  have hts : (ts.map Json.obj).filterMap Json.fields? = ts := by
    rw [List.filterMap_map]
    exact List.filterMap_some
  unfold find?
  rw [hts]
  cases hf : ts.reverse.find? (fun t => t.name? == some name) with
  | none =>
    rw [List.find?_eq_none] at hf
    exact absurd (beq_iff_eq.2 hn) (hf t (List.mem_reverse.2 ht))
  | some t' =>
    have hmem := List.mem_reverse.1 (List.mem_of_find?_eq_some hf)
    have hname := List.find?_some hf
    rw [hu t' hmem (eq_of_beq hname)]

end Trigger

namespace Compiler

variable {c : Compiler} {heads : List String} {s : Scene} {vs : List Json} {m n : String}

/-! ## The triggers of a list of beats -/

theorem name?_earlier (vs : List Json) (n : String) :
    (c.earlier vs n).name? = some (displayName n) := by
  unfold earlier
  split
  · rename_i t ht
    exact Trigger.name?_of_find? ht
  · simp [Trigger.name?, Json.text?]

theorem getElem?_triggers (vs : List Json) (first : Bool) (bs : List Beat) (i : Nat) :
    (c.triggers heads vs first bs)[i]? = bs[i]?.map fun b =>
      b.trigger c.slots (branchOf heads) (first && i == 0) (c.earlier vs b.passage.name) := by
  induction bs generalizing first i with
  | nil => rfl
  | cons b bs ih =>
    cases i with
    | zero => simp [triggers]
    | succ i => simp [triggers, ih]

/-- **A trigger that was made** is the earlier one when it is made again. -/
theorem earlier_triggers {first : Bool} {bs : List Beat} (hb : (bs.map (·.passage.name)).Nodup)
    {i : Nat} {b : Beat} {t : Trigger} (hi : bs[i]? = some b)
    (ht : (c.triggers heads vs first bs)[i]? = some t) :
    c.earlier ((c.triggers heads vs first bs).map .obj) b.passage.name = t := by
  have hname : ∀ {j : Nat} {t' : Trigger}, (c.triggers heads vs first bs)[j]? = some t' →
      ∃ b', bs[j]? = some b' ∧ t'.name? = some (displayName b'.passage.name) := by
    intro j t' hj
    rw [getElem?_triggers, Option.map_eq_some_iff] at hj
    obtain ⟨b', hb', rfl⟩ := hj
    exact ⟨b', hb', (Beat.name?_trigger _ _ _ _ _).trans (name?_earlier _ _)⟩
  obtain ⟨b₁, hb₁, hn⟩ := hname ht
  rw [hi] at hb₁
  cases hb₁
  have hfind : Trigger.find? (displayName b.passage.name)
      ((c.triggers heads vs first bs).map .obj) = some t := by
    refine Trigger.find?_of_unique (List.mem_of_getElem? ht) hn fun t' ht' hn' => ?_
    obtain ⟨j, hj⟩ := List.mem_iff_getElem?.1 ht'
    obtain ⟨b', hb', hn''⟩ := hname hj
    -- no other beat has the name, so the trigger found is that of `b`
    have hsame : b'.passage.name = b.passage.name :=
      displayName_inj (Option.some.inj (hn''.symm.trans hn'))
    have hij : i = j := by
      have hlt : i < (bs.map (·.passage.name)).length := by
        rw [List.length_map]
        exact (List.getElem?_eq_some_iff.1 hi).1
      rw [← List.getElem?_inj hlt hb, List.getElem?_map, List.getElem?_map, hi, hb',
        Option.map_some, Option.map_some, hsame]
    rw [← hij, ht] at hj
    exact (Option.some.inj hj).symm
  unfold earlier
  rw [hfind]

theorem triggers_triggers {first : Bool} {bs : List Beat} (hb : (bs.map (·.passage.name)).Nodup) :
    c.triggers heads ((c.triggers heads vs first bs).map .obj) first bs =
      c.triggers heads vs first bs := by
  apply List.ext_getElem?
  intro i
  cases hi : bs[i]? with
  | none => simp [getElem?_triggers, hi]
  | some b =>
    have ht : (c.triggers heads vs first bs)[i]? = _ := getElem?_triggers vs first bs i
    rw [hi, Option.map_some] at ht
    rw [getElem?_triggers, hi, Option.map_some, earlier_triggers hb hi ht, ht, Beat.trigger_trigger]

/-! ## The triggers of a branch -/

/-- The triggers of the branch that a passage heads, made from the values `vs`. -/
def renewed (c : Compiler) (heads : List String) (name : String) (vs : List Json) : List Json :=
  (c.triggers heads vs true (c.timelineOf name).beats).map .obj

theorem timelineOf_of_opening? {p : Passage} (h : c.story.opening? n = some p) :
    c.timelineOf n = c.story.timeline p := by
  unfold timelineOf
  rw [h]

theorem nodup_timelineOf (c : Compiler) (n : String) :
    ((c.timelineOf n).beats.map (·.passage.name)).Nodup := by
  unfold timelineOf
  split
  · exact Story.nodup_timeline _
  · exact List.nodup_nil

/-- **The triggers of a branch are renewed to themselves.** -/
theorem renewed_renewed : c.renewed heads n (c.renewed heads n vs) = c.renewed heads n vs := by
  unfold renewed
  rw [triggers_triggers (c.nodup_timelineOf n)]

/-! ## Writing a branch down -/

theorem write_eq (c : Compiler) (heads : List String) (s : Scene) (n : String) :
    c.write heads s n = (s.setStorableField (branchOf heads n) patternId triggersKey
      (.arr (c.renewed heads n (listed s (branchOf heads n))))).setStorableField
        (durationId (branchOf heads n)) stepId lengthKey
          (.str (Decimal.format (c.timelineOf n).total)) := rfl

/-- Only the triggers and the length of the branch change. -/
theorem storable?_write (c : Compiler) (heads : List String) (s : Scene) (m a st : String) :
    (c.write heads s m).storable? a st =
      if a = durationId (branchOf heads m) ∧ st = stepId then (s.storable? a st).map
        (·.setField lengthKey (.str (Decimal.format (c.timelineOf m).total)))
      else if a = branchOf heads m ∧ st = patternId then (s.storable? a st).map
        (·.setField triggersKey (.arr (c.renewed heads m (listed s (branchOf heads m)))))
      else s.storable? a st := by
  have hne : stepId ≠ patternId := by decide
  simp only [write_eq, Scene.storable?_setStorableField, hne, and_false, if_false]
  split
  · rename_i h; rw [h.1, h.2]
  · split
    · rename_i h; rw [h.1, h.2]
    · rfl

theorem storable?_write_pattern (hm : m ∈ heads) (n : String) :
    (c.write heads s m).storable? (branchOf heads n) patternId =
      if n = m then (s.storable? (branchOf heads m) patternId).map
        (·.setField triggersKey (.arr (c.renewed heads m (listed s (branchOf heads m)))))
      else s.storable? (branchOf heads n) patternId := by
  have hne : patternId ≠ stepId := by decide
  rw [storable?_write]
  simp only [hne, and_false, if_false, and_true]
  by_cases h : n = m
  · simp [h]
  · rw [if_neg fun he => h (branchOf_inj hm he.symm).symm, if_neg h]

theorem storable?_write_step (hm : m ∈ heads) (n : String) :
    (c.write heads s m).storable? (durationId (branchOf heads n)) stepId =
      if n = m then (s.storable? (durationId (branchOf heads m)) stepId).map
        (·.setField lengthKey (.str (Decimal.format (c.timelineOf m).total)))
      else s.storable? (durationId (branchOf heads n)) stepId := by
  have hne : stepId ≠ patternId := by decide
  rw [storable?_write]
  simp only [hne, and_false, if_false, and_true]
  by_cases h : n = m
  · simp [h]
  · rw [if_neg fun he => h (branchOf_inj hm (durationId_inj he).symm).symm, if_neg h]

theorem listed_of_storable? {branch : String} {t : Storable}
    (h : s.storable? branch patternId = some t) (ht : t.field? triggersKey = some (.arr vs)) :
    listed s branch = vs := by
  simp [listed, h, ht]

/-- The triggers of a branch are left alone or renewed. -/
theorem listed_write (hm : m ∈ heads) (n : String) :
    listed (c.write heads s m) (branchOf heads n) = listed s (branchOf heads n) ∨
      listed (c.write heads s m) (branchOf heads n) =
        c.renewed heads n (listed s (branchOf heads n)) := by
  have hw := storable?_write_pattern (c := c) (s := s) hm n
  by_cases h : n = m
  · subst h
    rw [if_pos rfl] at hw
    cases ht : s.storable? (branchOf heads n) patternId with
    | none => left; rw [ht] at hw; simp [listed, ht, hw]
    | some t =>
      right
      rw [ht, Option.map_some] at hw
      exact listed_of_storable? hw (Fields.get?_set_self _ _ _)
  · left
    rw [if_neg h] at hw
    simp [listed, hw]

/-! ## Settled branches -/

/-- The branch that `n` heads stands in the scene as it would be written down. -/
structure Settled (c : Compiler) (heads : List String) (s : Scene) (n : String) : Prop where
  triggers : ∀ t, s.storable? (branchOf heads n) patternId = some t →
    t.field? triggersKey = some (.arr (c.renewed heads n (listed s (branchOf heads n))))
  length : ∀ t, s.storable? (durationId (branchOf heads n)) stepId = some t →
    t.field? lengthKey = some (.str (Decimal.format (c.timelineOf n).total))

/-- **A settled branch that is written down** changes nothing. -/
theorem Settled.write_eq_self (h : Settled c heads s n) : c.write heads s n = s := by
  rw [write_eq, Scene.setStorableField_eq_self h.triggers]
  exact Scene.setStorableField_eq_self h.length

/-- **A branch that was written down** is settled. -/
theorem settled_write (hn : n ∈ heads) : Settled c heads (c.write heads s n) n := by
  constructor
  · intro t ht
    have hw := storable?_write_pattern (c := c) (s := s) hn n
    rw [if_pos rfl, ht] at hw
    obtain ⟨t₀, -, rfl⟩ := Option.map_eq_some_iff.1 hw.symm
    have hf := Fields.get?_set_self t₀.fields triggersKey
      (.arr (c.renewed heads n (listed s (branchOf heads n))))
    rw [listed_of_storable? ht hf, renewed_renewed]
    exact hf
  · intro t ht
    have hw := storable?_write_step (c := c) (s := s) hn n
    rw [if_pos rfl, ht] at hw
    obtain ⟨t₀, -, rfl⟩ := Option.map_eq_some_iff.1 hw.symm
    exact Fields.get?_set_self _ _ _

theorem Settled.write (h : Settled c heads s n) (hm : m ∈ heads) :
    Settled c heads (c.write heads s m) n := by
  by_cases hne : n = m
  · rw [hne] at h ⊢
    exact settled_write hm
  have hp := storable?_write_pattern (c := c) (s := s) hm n
  have hs := storable?_write_step (c := c) (s := s) hm n
  rw [if_neg hne] at hp hs
  constructor
  · intro t ht
    have hl : listed (c.write heads s m) (branchOf heads n) = listed s (branchOf heads n) := by
      simp only [listed, hp]
    rw [hl]
    exact h.triggers t (hp ▸ ht)
  · intro t ht
    exact h.length t (hs ▸ ht)

section Several

variable {ns : List String}

theorem Settled.foldl (h : Settled c heads s n) (hns : ∀ m ∈ ns, m ∈ heads) :
    Settled c heads (ns.foldl (c.write heads) s) n := by
  induction ns generalizing s with
  | nil => exact h
  | cons m ns ih =>
    exact ih (h.write (hns m List.mem_cons_self)) fun k hk => hns k (List.mem_cons_of_mem _ hk)

/-- **All branches that were written down** are settled, whatever the order. -/
theorem settled_foldl (hns : ∀ m ∈ ns, m ∈ heads) (hn : n ∈ ns) :
    Settled c heads (ns.foldl (c.write heads) s) n := by
  induction ns generalizing s with
  | nil => cases hn
  | cons m ns ih =>
    have hrest : ∀ k ∈ ns, k ∈ heads := fun k hk => hns k (List.mem_cons_of_mem _ hk)
    rcases List.mem_cons.1 hn with rfl | hn
    · exact (settled_write (hns n List.mem_cons_self)).foldl hrest
    · exact ih hrest hn

/-- Settled branches that are written down change nothing. -/
theorem foldl_eq_self (h : ∀ n ∈ ns, Settled c heads s n) : ns.foldl (c.write heads) s = s := by
  induction ns with
  | nil => rfl
  | cons n ns ih =>
    rw [List.foldl_cons, (h n List.mem_cons_self).write_eq_self]
    exact ih fun m hm => h m (List.mem_cons_of_mem _ hm)

theorem listed_foldl (hns : ∀ m ∈ ns, m ∈ heads) (n : String) :
    listed (ns.foldl (c.write heads) s) (branchOf heads n) = listed s (branchOf heads n) ∨
      listed (ns.foldl (c.write heads) s) (branchOf heads n) =
        c.renewed heads n (listed s (branchOf heads n)) := by
  induction ns generalizing s with
  | nil => exact .inl rfl
  | cons m ns ih =>
    have hw := listed_write (c := c) (s := s) (hns m List.mem_cons_self) n
    have hr := ih (s := c.write heads s m) fun k hk => hns k (List.mem_cons_of_mem _ hk)
    rw [List.foldl_cons]
    rcases hw with hw | hw <;> rw [hw] at hr
    · exact hr
    · -- what was renewed stays, also when it is renewed again
      rw [renewed_renewed, or_self] at hr
      exact .inr hr

/-- **The triggers of a branch** are made from those before the first write. -/
theorem triggers_foldl (hns : ∀ m ∈ ns, m ∈ heads) (hn : n ∈ ns) {t : Storable}
    (ht : (ns.foldl (c.write heads) s).storable? (branchOf heads n) patternId = some t) :
    t.field? triggersKey = some (.arr (c.renewed heads n (listed s (branchOf heads n)))) := by
  rw [(settled_foldl hns hn).triggers t ht]
  rcases listed_foldl (c := c) (s := s) hns n with h | h
  · rw [h]
  · rw [h, renewed_renewed]

end Several

end Compiler

end Stagecraft
