import Stagecraft.Proofs.Agreement
import Stagecraft.Proofs.Footprint

/-!
# What the controls of a compiled story address

The panel, the start button and the choice buttons of a story are atoms of the scene, and a
choice leads to a branch of the scene. Nothing that a compilation generates addresses
anything else, but for the bubbles of those who speak.

* `Stage.IsControl`: the ids of the panel, the start button and the choice buttons.
* `Beat.Performs.control`, `Beat.Performs.route`: what one action addresses.
* `Compiler.control_of_run`, `Compiler.route_of_run`: what the actions of a compiled story
  address.
* `Compiled.Wired`, `Compiler.wired_of_run`: **nothing that is addressed is missing**, if the
  scene has the controls.
-/

namespace Stagecraft

open Stage

/-! ## The controls of a beat -/

namespace Stage

/-- The id of the panel, of the start button, or of one of `slots` choice buttons. -/
inductive IsControl (slots : Nat) : String → Prop
  | panel : IsControl slots panelId
  | restart : IsControl slots startButtonId
  | button {k} : 1 ≤ k → k ≤ slots → IsControl slots (buttonId k)

namespace Action

/-- The object of an action for the bubble of somebody who speaks. -/
def Speaks (v : Json) : Prop := ∃ bubble : Bubble, v.field? "receiver" = some (.str bubble.receiver)

/-- The object of an action that sets the branch that a choice leads to. -/
def SetsBranch (v : Json) : Prop :=
  v.field? "receiver" = some (.str "plugin#0_JayJayWon.ActionGrouper") ∧
    v.field? "receiverTargetName" = some (.str "act1Atom1Name")

variable {a : Action} {i : Nat} {l : Link} {branch : String}

theorem atom_of_mem_choiceButton (h : a ∈ choiceButton i l branch) : a.atom = buttonId i := by
  simp only [choiceButton, List.mem_cons, List.not_mem_nil, or_false] at h
  rcases h with rfl | rfl | rfl | rfl <;> rfl

theorem stringValue_toJson {text : String} (h : a.setting = .text text) :
    a.toJson.field? "stringValue" = some (.str text) := by
  obtain ⟨name, atom, receiver, target, setting⟩ := a
  cases h
  rfl

theorem setsBranch_toJson_iff : SetsBranch a.toJson ↔
    a.receiver = "plugin#0_JayJayWon.ActionGrouper" ∧ a.target = "act1Atom1Name" := by
  have hreceiver : a.toJson.field? "receiver" = some (.str a.receiver) := rfl
  have htarget : a.toJson.field? "receiverTargetName" = some (.str a.target) := rfl
  simp only [SetsBranch, hreceiver, htarget, Option.some.injEq, Json.str.injEq]

/-- Of the actions of a choice button one sets a branch. -/
theorem setting_of_mem_choiceButton (h : a ∈ choiceButton i l branch) (ha : SetsBranch a.toJson) :
    a.setting = .text branch := by
  rw [setsBranch_toJson_iff] at ha
  simp only [choiceButton, List.mem_cons, List.not_mem_nil, or_false] at h
  rcases h with rfl | rfl | rfl | rfl
  · simp [named] at ha
  · simp [named] at ha
  · rfl
  · simp [toggle, named] at ha

theorem not_setsBranch_toggle (i : String) (on : Bool) : ¬ SetsBranch (toggle i on).toJson := by
  simp [setsBranch_toJson_iff, toggle, named]

/-- A bubble sets no branch, whatever atom it is in. -/
theorem not_setsBranch_of_bubble {b : Bubble} (h : a.receiver = b.receiver) :
    ¬ SetsBranch a.toJson := by
  rw [setsBranch_toJson_iff, h]
  cases b <;> simp [Bubble.receiver]

end Action

end Stage

namespace Beat.Performs

variable {b : Beat} {slots : Nat} {branchOf : String → String} {a : Action}

/-- **An action addresses a bubble or a control.** -/
theorem control (h : b.Performs slots branchOf a)
    (hb : b.directive.prompt = true → b.exits.length ≤ slots) :
    (∃ bubble : Bubble, a.receiver = bubble.receiver) ∨ IsControl slots a.atom := by
  cases h with
  | hidePanel | showPanel => exact .inr .panel
  | lifetime | line => exact .inl ⟨_, rfl⟩
  | enableRestart => exact .inr .restart
  | disableButton hi => exact .inr (.button (Nat.succ_pos _) hi)
  | @choiceButton i _ _ hp hl ha =>
    right
    obtain ⟨hi, -⟩ := List.getElem?_eq_some_iff.1 hl
    have hle := hb hp
    rw [Action.atom_of_mem_choiceButton ha]
    exact .button (by omega) (by omega)

/-- **A branch is set** for a link of a prompt: that of its target. -/
theorem route (h : b.Performs slots branchOf a) (ha : Action.SetsBranch a.toJson) :
    b.directive.prompt = true ∧ ∃ l ∈ b.exits, a.setting = .text (branchOf l.target) := by
  cases h with
  | choiceButton hp hl hmem =>
    exact ⟨hp, _, List.mem_of_getElem? hl, Action.setting_of_mem_choiceButton hmem ha⟩
  | lifetime | line => exact absurd ha (Action.not_setsBranch_of_bubble rfl)
  | hidePanel | enableRestart | disableButton | showPanel =>
    exact absurd ha (Action.not_setsBranch_toggle _ _)

end Beat.Performs

/-! ## The controls of a compiled story -/

/-- **Nothing that a compiled story addresses is missing.** But for bubbles, all that is
generated is received by an atom of the scene, and a choice leads to a compiled branch that is
an atom of the scene and has triggers. -/
structure Compiled.Wired (out : Compiled) (s : Scene) : Prop where
  receivers : ∀ v ∈ out.generated s, Action.Speaks v ∨
    ∃ i ∈ s.atoms.ids, v.field? "receiverAtom" = some (.str i)
  routes : ∀ v ∈ out.generated s, Action.SetsBranch v →
    ∃ name b, v.field? "stringValue" = some (.str b) ∧ (name, b) ∈ out.branches ∧
      b ∈ s.atoms.ids ∧ Compiler.listed s b ≠ []

namespace Compiler

open Story

variable {c : Compiler} {s : Scene} {out : Compiled} {v : Json} {name b : String} {cap : Capacity}

/-- A compilation adds no atom and takes none away. -/
theorem ids_run (c : Compiler) (s : Scene) : (c.run s).1.atoms.ids = s.atoms.ids := by
  rw [run_fst]
  have hlt : ∀ m ∈ c.writes s, c.story.heads.idxOf m < c.story.heads.length := fun m hm =>
    List.idxOf_lt_length_of_mem (mem_heads_of_writes hm)
  exact (edited_foldl hlt).ids

theorem mem_ids_of_storable? {i st : String} (h : (s.storable? i st).isSome) : i ∈ s.atoms.ids := by
  obtain ⟨t, ht⟩ := Option.isSome_iff_exists.1 h
  obtain ⟨a, ha, -⟩ := Option.bind_eq_some_iff.1 ht
  rw [← Registry.contains_iff_mem_ids]
  exact Option.isSome_iff_exists.2 ⟨a, ha⟩

/-- **A branch of a compiled story** is an atom of the scene, and has triggers. -/
theorem branch_of_run (h : (c.run s).2 = .ok out) (hb : (name, b) ∈ out.branches) :
    b ∈ (c.run s).1.atoms.ids ∧ listed (c.run s).1 b ≠ [] := by
  obtain ⟨hn, rfl⟩ := (mem_branches_iff h).1 hb
  obtain ⟨hu, hs⟩ := run_ok_iff.1 ⟨out, h⟩
  obtain ⟨-, p, hp, -⟩ := played_of_mem_heads hn
  constructor
  · rw [ids_run]
    exact mem_ids_of_storable? (hs name hn).1
  · obtain ⟨t, ht, hf⟩ := Option.bind_eq_some_iff.1 (triggers_of_run h hn)
    rw [listed_of_storable? ht hf, timelineOf_of_opening? hp]
    -- one trigger for each beat, and the passage that heads the branch is a beat
    have hbeats := (unrolls_timeline p).beats_ne_nil (hu.ending_ne hn hp)
    cases hb : (c.story.timeline p).beats with
    | nil => exact absurd hb hbeats
    | cons => exact List.cons_ne_nil _ _

/-- **A branch that is set** is one of the compiled story. -/
theorem route_of_run (h : (c.run s).2 = .ok out) (hv : v ∈ out.generated (c.run s).1)
    (hr : Action.SetsBranch v) :
    ∃ name b, v.field? "stringValue" = some (.str b) ∧ (name, b) ∈ out.branches := by
  obtain ⟨hu, -⟩ := run_ok_iff.1 ⟨out, h⟩
  obtain ⟨b, a, hplay, hp, ha, rfl⟩ := performs_of_generated h hv
  obtain ⟨hprompt, l, hl, hset⟩ := ha.route hr
  rw [hprompt] at hp
  exact ⟨l.target, branchOf c.story.heads l.target, Action.stringValue_toJson hset,
    (mem_branches_iff h).2 ⟨hu.target_mem_heads hplay hp hl, rfl⟩⟩

section Measured

variable (hs : c.story.find? c.story.start.name = some c.story.start) (hm : c.story.Measured cap)
  (hc : cap.choices ≤ c.slots)
include hs hm hc

/-- **What a compiled story addresses** is a bubble or a control. -/
theorem control_of_run (h : (c.run s).2 = .ok out) (hv : v ∈ out.generated (c.run s).1) :
    Action.Speaks v ∨ ∃ i, IsControl c.slots i ∧ v.field? "receiverAtom" = some (.str i) := by
  obtain ⟨b, a, hplay, hp, ha, rfl⟩ := performs_of_generated h hv
  have hle : b.directive.prompt = true → b.exits.length ≤ c.slots := fun hprompt =>
    Nat.le_trans (hm.bound b.passage ((surveyed_iff_played hs).2 hplay) (hp.trans hprompt)) hc
  rcases ha.control hle with ⟨bubble, hbubble⟩ | hcontrol
  · exact .inl ⟨bubble, congrArg (fun r => some (Json.str r)) hbubble⟩
  · exact .inr ⟨a.atom, hcontrol, rfl⟩

/-- **A story on a scene with all controls** is wired. -/
theorem wired_of_run (hi : ∀ i, IsControl c.slots i → i ∈ s.atoms.ids)
    (h : (c.run s).2 = .ok out) : out.Wired (c.run s).1 where
  receivers := fun v hv => by
    refine (control_of_run hs hm hc h hv).imp id ?_
    rintro ⟨i, hcontrol, hatom⟩
    exact ⟨i, by rw [ids_run]; exact hi i hcontrol, hatom⟩
  routes := fun v hv hr => by
    obtain ⟨name, b, hvalue, hb⟩ := route_of_run h hv hr
    exact ⟨name, b, hvalue, hb, branch_of_run h hb⟩

end Measured

end Compiler

end Stagecraft
