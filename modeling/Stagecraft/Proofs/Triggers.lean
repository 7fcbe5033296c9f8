import Stagecraft.Proofs.Fields
import Stagecraft.Stage.Trigger

/-!
# What a trigger keeps

The trigger of a beat keeps from an earlier one what was added by hand, and nothing of
what was generated. So it is found again under its name, and made a second time it is
the same.

* `Beat.Performs`, `Beat.performs_of_mem`: the kinds of actions that a beat generates.
* `Action.isGenerated_named`, `Beat.Performs.isGenerated`: all of these are recognised as
  generated.
* `Beat.kept_trigger`, `Beat.generated_trigger`: both kinds of actions in a beat's trigger.
* `Beat.trigger_trigger`: a trigger that is made again.
* `Trigger.Renews`, `Beat.renews_trigger`: what becomes of an earlier trigger.
-/

namespace Stagecraft

/-! ## Generated actions -/

namespace Stage.Action

theorem isGenerated_toJson (a : Action) :
    isGenerated a.toJson = mark.toList.isPrefixOf a.name.toList := rfl

/-- **A generated action is recognised.** -/
theorem isGenerated_named (parts : List String) (atom receiver target : String) (v : Setting) :
    isGenerated (named parts atom receiver target v).toJson = true := by
  rw [isGenerated_toJson, List.isPrefixOf_iff_prefix]
  simp [named, String.toList_append]

theorem isGenerated_choiceButton {k : Nat} {l : Link} {branch : String} {a : Action}
    (h : a ∈ choiceButton k l branch) : isGenerated a.toJson = true := by
  simp only [choiceButton, List.mem_cons, List.not_mem_nil, or_false] at h
  rcases h with rfl | rfl | rfl | rfl <;> exact isGenerated_named _ _ _ _ _

end Stage.Action

open Stage

namespace Beat

variable {b : Beat} {slots : Nat} {branchOf : String → String} {first : Bool} {a : Action}

theorem mem_buttons {n : Nat} {ls : List Link} (h : a ∈ buttons branchOf n ls) :
    ∃ i l, ls[i]? = some l ∧ a ∈ Action.choiceButton (n + i) l (branchOf l.target) := by
  induction ls generalizing n with
  | nil => cases h
  | cons l ls ih =>
    rcases List.mem_append.1 h with h | h
    · exact ⟨0, l, rfl, h⟩
    · obtain ⟨i, l', hl, ha⟩ := ih h
      refine ⟨i + 1, l', hl, ?_⟩
      rwa [show n + (i + 1) = n + 1 + i by omega]

/-- **The generated actions** of a beat, one constructor for each kind. -/
inductive Performs (slots : Nat) (branchOf : String → String) (b : Beat) : Action → Prop
  | hidePanel : Performs slots branchOf b .hidePanel
  | lifetime {target bubble seconds} :
      Performs slots branchOf b (.lifetime target bubble seconds)
  | line {target bubble content} : Performs slots branchOf b (.line target bubble content)
  | enableRestart : Performs slots branchOf b .enableRestart
  | disableButton {i} : i < slots → Performs slots branchOf b (.disableButton (i + 1))
  | showPanel : Performs slots branchOf b .showPanel
  | choiceButton {i l a} : b.directive.prompt = true → b.exits[i]? = some l →
      a ∈ Action.choiceButton (i + 1) l (branchOf l.target) → Performs slots branchOf b a

theorem performs_of_mem (h : a ∈ lead first ++ b.tail slots branchOf) :
    b.Performs slots branchOf a := by
  rcases List.mem_append.1 h with h | h
  · cases first with
    | false => cases h
    | true =>
      rw [List.mem_singleton.1 h]
      exact .hidePanel
  rcases List.mem_append.1 h with h | h
  · unfold speech at h
    split at h
    · cases h
    · simp only [List.mem_cons, List.not_mem_nil, or_false] at h
      rcases h with rfl | rfl
      · exact .lifetime
      · exact .line
  -- what leads on: the restart, or at a prompt the panel with its buttons
  unfold onward at h
  split at h
  · rw [List.mem_singleton.1 h]
    exact .enableRestart
  split at h
  · rename_i hp
    rcases List.mem_append.1 h with h | h
    · obtain ⟨i, hi, rfl⟩ := List.mem_map.1 h
      exact .disableButton (List.mem_range.1 hi)
    rcases List.mem_cons.1 h with rfl | h
    · exact .showPanel
    · obtain ⟨i, l, hl, ha⟩ := mem_buttons h
      rw [Nat.add_comm] at ha
      exact .choiceButton hp hl ha
  · cases h

/-- All generated actions are recognised as such. -/
theorem Performs.isGenerated (h : b.Performs slots branchOf a) :
    Action.isGenerated a.toJson = true := by
  cases h with
  | choiceButton _ _ h => exact Action.isGenerated_choiceButton h
  | _ => exact Action.isGenerated_named _ _ _ _ _

theorem isGenerated_of_mem_lead {v : Json} (h : v ∈ (lead first).map Action.toJson) :
    Action.isGenerated v = true := by
  cases first with
  | false => cases h
  | true =>
    rw [List.mem_singleton.1 h]
    exact Action.isGenerated_named _ _ _ _ _

theorem isGenerated_of_mem_tail {v : Json} (h : v ∈ (b.tail slots branchOf).map Action.toJson) :
    Action.isGenerated v = true := by
  obtain ⟨a, ha, rfl⟩ := List.mem_map.1 h
  have hmem : a ∈ lead false ++ b.tail slots branchOf := List.mem_append_right _ ha
  exact (performs_of_mem hmem).isGenerated

end Beat

/-! ## The actions of a trigger -/

namespace Trigger

/-- The actions that a trigger starts. -/
def actions (t : Trigger) : List Json :=
  match t.get? actionsKey with
  | some (.arr as) => as
  | _ => []

/-- The generated actions of a trigger. -/
def generated (t : Trigger) : List Json := t.actions.filter Action.isGenerated

theorem actions_of_get? {t : Trigger} {as : List Json} (h : t.get? actionsKey = some (.arr as)) :
    t.actions = as := by
  simp [actions, h]

theorem kept_eq_filter (t : Trigger) : t.kept = t.actions.filter fun a => !Action.isGenerated a := by
  unfold kept actions
  cases t.get? actionsKey with
  | none => rfl
  | some v => cases v <;> rfl

theorem isGenerated_of_mem_kept {t : Trigger} {v : Json} (h : v ∈ t.kept) :
    Action.isGenerated v = false := by
  rw [kept_eq_filter, List.mem_filter] at h
  simpa using h.2

end Trigger

namespace Beat

variable (b : Beat) (slots : Nat) (branchOf : String → String) (first : Bool) (old : Trigger)

theorem get?_trigger_actions :
    (b.trigger slots branchOf first old).get? Trigger.actionsKey = some (.arr
      ((lead first).map Action.toJson ++ old.kept ++ (b.tail slots branchOf).map Action.toJson)) := by
  unfold trigger
  exact Fields.get?_set_self _ _ _

theorem actions_trigger :
    (b.trigger slots branchOf first old).actions =
      (lead first).map Action.toJson ++ old.kept ++ (b.tail slots branchOf).map Action.toJson :=
  Trigger.actions_of_get? (b.get?_trigger_actions slots branchOf first old)

/-- **What was added by hand stays**, and nothing else counts as added by hand. -/
theorem kept_trigger : (b.trigger slots branchOf first old).kept = old.kept := by
  have hnone : ∀ vs : List Json, (∀ v ∈ vs, Action.isGenerated v = true) →
      vs.filter (fun a => !Action.isGenerated a) = [] := fun vs h => by
    rw [List.filter_eq_nil_iff]
    intro v hv
    rw [h v hv]; decide
  have hkept : old.kept.filter (fun a => !Action.isGenerated a) = old.kept := by
    rw [List.filter_eq_self]
    intro v hv
    rw [Trigger.isGenerated_of_mem_kept hv, Bool.not_false]
  rw [Trigger.kept_eq_filter, actions_trigger, List.filter_append, List.filter_append,
    hnone _ fun _ => isGenerated_of_mem_lead, hnone _ fun _ => isGenerated_of_mem_tail, hkept,
    List.nil_append, List.append_nil]

/-- **What is generated** is the beat's own. -/
theorem generated_trigger : (b.trigger slots branchOf first old).generated =
    (lead first ++ b.tail slots branchOf).map Action.toJson := by
  have hkept : old.kept.filter Action.isGenerated = [] := by
    rw [List.filter_eq_nil_iff]
    intro v hv
    simp [Trigger.isGenerated_of_mem_kept hv]
  rw [Trigger.generated, actions_trigger, List.filter_append, List.filter_append, hkept,
    List.filter_eq_self.2 fun _ => isGenerated_of_mem_lead,
    List.filter_eq_self.2 fun _ => isGenerated_of_mem_tail, List.append_nil, List.map_append]

/-! ## The fields of a trigger -/

/-- **A trigger that is made again** stays as it is. -/
theorem trigger_trigger :
    b.trigger slots branchOf first (b.trigger slots branchOf first old) =
      b.trigger slots branchOf first old := by
  have hkept := b.kept_trigger slots branchOf first old
  generalize ht : b.trigger slots branchOf first old = t at hkept ⊢
  -- it has its times and its actions already, so setting them changes nothing
  have hstart : t.set "startTime" (.str (Decimal.format b.start)) = t := by
    apply Fields.set_eq_self
    rw [← ht, trigger, Fields.get?_set_of_ne _ _ (by decide), Fields.get?_set_of_ne _ _ (by decide),
      Fields.get?_set_self]
  have hend : t.set "endTime" (.str (Decimal.format b.finish)) = t := by
    apply Fields.set_eq_self
    rw [← ht, trigger, Fields.get?_set_of_ne _ _ (by decide), Fields.get?_set_self]
  rw [trigger, hstart, hend, hkept]
  apply Fields.set_eq_self
  rw [← ht]
  exact b.get?_trigger_actions slots branchOf first old

theorem name?_trigger : Trigger.name? (b.trigger slots branchOf first old) = Trigger.name? old := by
  unfold Trigger.name? trigger
  rw [Fields.get?_set_of_ne _ _ (by decide), Fields.get?_set_of_ne _ _ (by decide),
    Fields.get?_set_of_ne _ _ (by decide)]

end Beat

namespace Fields

theorem filter_set {P : String → Bool} {k : String} (hk : P k = false) (fs : Fields) (v : Json) :
    (fs.set k v).filter (fun e => P e.1) = fs.filter (fun e => P e.1) := by
  fun_induction set fs k v <;> simp_all [List.filter_cons]

theorem keys_prefix_set (fs : Fields) (k : String) (v : Json) : fs.keys <+: (fs.set k v).keys := by
  rw [keys_set]
  split
  · exact List.prefix_rfl
  · exact List.prefix_append _ _

end Fields

namespace Trigger

/-- The fields that a trigger has from its beat. -/
def renewedKeys : List String := ["startTime", "endTime", actionsKey]

/-- **How a trigger is renewed**: it starts with the actions `lead`, then come those that
were added to `old` by hand, and then generated ones. -/
structure Renews (lead : List Json) (old new : Trigger) : Prop where
  actions : ∃ tail, new.get? actionsKey = some (.arr (lead ++ old.kept ++ tail)) ∧
    ∀ a ∈ lead ++ tail, Action.isGenerated a = true
  kept : new.kept = old.kept
  /-- The other fields stay, in order. -/
  others : new.filter (fun e => e.1 ∉ renewedKeys) = old.filter (fun e => e.1 ∉ renewedKeys)
  /-- Fields that were there before stay in their places. -/
  keys : old.keys <+: new.keys

end Trigger

theorem Beat.renews_trigger (b : Beat) (slots : Nat) (branchOf : String → String) (first : Bool)
    (old : Trigger) :
    Trigger.Renews ((lead first).map Action.toJson) old (b.trigger slots branchOf first old) where
  actions := by
    refine ⟨_, b.get?_trigger_actions slots branchOf first old, fun v hv => ?_⟩
    exact (List.mem_append.1 hv).elim isGenerated_of_mem_lead isGenerated_of_mem_tail
  kept := b.kept_trigger slots branchOf first old
  others := by
    -- the three fields that are set are those that are renewed
    have hset : ∀ k ∈ Trigger.renewedKeys, ∀ (fs : Fields) (v : Json),
        (fs.set k v).filter (fun e => e.1 ∉ Trigger.renewedKeys) =
          fs.filter (fun e => e.1 ∉ Trigger.renewedKeys) := fun k hk fs v =>
      Fields.filter_set (P := fun k => k ∉ Trigger.renewedKeys) (by simpa using hk) fs v
    unfold trigger
    rw [hset _ (by decide), hset _ (by decide), hset _ (by decide)]
  keys := by
    unfold trigger
    exact ((Fields.keys_prefix_set _ _ _).trans (Fields.keys_prefix_set _ _ _)).trans
      (Fields.keys_prefix_set _ _ _)

end Stagecraft
