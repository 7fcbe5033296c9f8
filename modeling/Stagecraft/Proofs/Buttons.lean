import Stagecraft.Proofs.HandEdits

/-!
# The buttons of a compiled story

A prompt with `n` links is served by the choice buttons `1` to `n`. So the buttons that a
compiled story uses are known from the passages that play.

* `Action.Serves`, `Action.Shows`: an action's object that is for a choice button.
* `Compiled.generated`: the generated actions in the branches of a compiled story;
  `Compiler.performs_of_generated`.
* `Compiler.prompt_of_serves`, `Compiler.exists_shows`: **a button is used** if and only
  if a prompt that plays has so many links.
-/

namespace Stagecraft

/-! ## Actions for a button -/

namespace Stage.Action

/-- The object of an action that colours, labels, routes or shows choice button `k`. -/
def Serves (v : Json) (k : Nat) : Prop :=
  v.field? "receiverAtom" = some (.str (buttonId k)) ∧
    (v.field? "receiver" = some (.str "ButtonColor") ∨ v.field? "receiver" = some (.str "Text") ∨
      v.field? "receiver" = some (.str "plugin#0_JayJayWon.ActionGrouper") ∨
      v.field? "receiver" = some (.str "AtomControl") ∧ v.field? "boolValue" = some (.str "true"))

/-- The object of an action that shows choice button `k`. -/
def Shows (v : Json) (k : Nat) : Prop :=
  v.field? "receiverAtom" = some (.str (buttonId k)) ∧
    v.field? "receiver" = some (.str "AtomControl") ∧
    v.field? "receiverTargetName" = some (.str "on") ∧ v.field? "boolValue" = some (.str "true")

variable {a : Action} {v : Json} {i k : Nat} {l : Link} {branch : String}

theorem Shows.serves (h : Shows v k) : Serves v k :=
  ⟨h.1, .inr (.inr (.inr ⟨h.2.1, h.2.2.2⟩))⟩

theorem boolValue_toJson_iff :
    a.toJson.field? "boolValue" = some (.str "true") ↔ a.setting = .switch true := by
  obtain ⟨name, atom, receiver, target, setting⟩ := a
  cases setting with
  | switch on => cases on <;> simp [toJson, Setting.key, Setting.toJson, Json.field?, Json.fields?,
      Fields.get?]
  | _ => simp [toJson, Setting.key, Json.field?, Json.fields?, Fields.get?]

theorem serves_toJson_iff : Serves a.toJson k ↔ a.atom = buttonId k ∧
    (a.receiver = "ButtonColor" ∨ a.receiver = "Text" ∨
      a.receiver = "plugin#0_JayJayWon.ActionGrouper" ∨
      a.receiver = "AtomControl" ∧ a.setting = .switch true) := by
  have hatom : a.toJson.field? "receiverAtom" = some (.str a.atom) := rfl
  have hreceiver : a.toJson.field? "receiver" = some (.str a.receiver) := rfl
  simp only [Serves, hatom, hreceiver, boolValue_toJson_iff, Option.some.injEq, Json.str.injEq]

/-- The actions of a choice button serve it and no other. -/
theorem serves_choiceButton_iff (h : a ∈ choiceButton i l branch) : Serves a.toJson k ↔ i = k := by
  have hatom : a.atom = buttonId i := by
    simp only [choiceButton, List.mem_cons, List.not_mem_nil, or_false] at h
    rcases h with rfl | rfl | rfl | rfl <;> rfl
  rw [serves_toJson_iff, hatom]
  refine ⟨fun h => buttonId_inj h.1, fun hk => ⟨by rw [hk], ?_⟩⟩
  simp only [choiceButton, List.mem_cons, List.not_mem_nil, or_false] at h
  rcases h with rfl | rfl | rfl | rfl <;> simp [named, toggle]

theorem shows_choiceButton (k : Nat) (l : Link) (branch : String) :
    ∃ a ∈ choiceButton k l branch, Shows a.toJson k :=
  ⟨toggle (buttonId k) true, by simp [choiceButton], rfl, rfl, rfl, rfl⟩

theorem not_serves_panel (on : Bool) : ¬ Serves (toggle panelId on).toJson k := by
  rw [serves_toJson_iff]
  exact fun h => buttonId_ne.1 h.1.symm

theorem not_serves_restart : ¬ Serves enableRestart.toJson k := by
  rw [serves_toJson_iff]
  exact fun h => buttonId_ne.2 h.1.symm

theorem not_serves_disableButton : ¬ Serves (disableButton i).toJson k := by
  rw [serves_toJson_iff]
  rintro ⟨-, h⟩
  simp [disableButton, toggle, named] at h

/-- A bubble is no button, whatever atom it is in. -/
theorem not_serves_of_bubble {b : Bubble} (h : a.receiver = b.receiver) : ¬ Serves a.toJson k := by
  rw [serves_toJson_iff, h]
  rintro ⟨-, h⟩
  cases b <;> simp [Bubble.receiver] at h

end Stage.Action

open Stage

/-! ## The buttons of a beat -/

namespace Beat

variable {b : Beat} {slots n k : Nat} {branchOf : String → String} {first : Bool} {a : Action}
  {ls : List Link}

theorem exists_buttons (branchOf : String → String) (h1 : n ≤ k) (h2 : k < n + ls.length) :
    ∃ l, ∀ a ∈ Action.choiceButton k l (branchOf l.target), a ∈ buttons branchOf n ls := by
  induction ls generalizing n with
  | nil => rw [List.length_nil] at h2; omega
  | cons l ls ih =>
    rw [List.length_cons] at h2
    rcases Nat.eq_or_lt_of_le h1 with rfl | h1
    · exact ⟨l, fun a ha => List.mem_append_left _ ha⟩
    · obtain ⟨l', hl⟩ := ih (n := n + 1) (by omega) (by omega)
      exact ⟨l', fun a ha => List.mem_append_right _ (hl a ha)⟩

/-- Only a prompt serves buttons, as many as it has links. -/
theorem Performs.prompt_of_serves (h : b.Performs slots branchOf a)
    (hs : Action.Serves a.toJson k) :
    b.directive.prompt = true ∧ 1 ≤ k ∧ k ≤ b.exits.length := by
  cases h with
  | hidePanel | showPanel => exact absurd hs (Action.not_serves_panel _)
  | lifetime | line => exact absurd hs (Action.not_serves_of_bubble rfl)
  | enableRestart => exact absurd hs Action.not_serves_restart
  | disableButton => exact absurd hs Action.not_serves_disableButton
  | choiceButton hp hl ha =>
    obtain ⟨hlt, -⟩ := List.getElem?_eq_some_iff.1 hl
    rw [Action.serves_choiceButton_iff ha] at hs
    exact ⟨hp, by omega, by omega⟩

/-- A prompt shows a button for each of its links. -/
theorem exists_shows (slots : Nat) (branchOf : String → String) (hp : b.directive.prompt = true)
    (h1 : 1 ≤ k) (h2 : k ≤ b.exits.length) :
    ∃ a ∈ b.tail slots branchOf, Action.Shows a.toJson k := by
  have hlt : k < 1 + b.exits.length := by omega
  obtain ⟨l, hl⟩ := exists_buttons branchOf h1 hlt
  obtain ⟨a, ha, hs⟩ := Action.shows_choiceButton k l (branchOf l.target)
  refine ⟨a, List.mem_append_right _ ?_, hs⟩
  have hne : b.exits.isEmpty = false := by
    rw [List.isEmpty_eq_false_iff, ← List.length_pos_iff]
    omega
  rw [onward, hne, hp, if_neg (by decide), if_pos rfl]
  exact List.mem_append_right _ (List.mem_cons_of_mem _ (hl a ha))

end Beat

/-! ## The buttons of a compiled story -/

/-- The generated actions of the triggers in a compiled story's branches, as they stand in
the scene. -/
def Compiled.generated (out : Compiled) (s : Scene) : List Json :=
  out.branches.flatMap fun e => (Compiler.listed s e.2).flatMap fun v =>
    (v.fields?.map Trigger.generated).getD []

namespace Compiler

open Story

variable {c : Compiler} {s : Scene} {out : Compiled} {v : Json} {k : Nat} {p : Passage}

theorem mem_generated_triggers {heads : List String} {vs : List Json} {bs : List Beat} :
    (∃ t ∈ c.triggers heads vs true bs, v ∈ t.generated) ↔ ∃ i b, bs[i]? = some b ∧
      v ∈ (Beat.lead (i == 0) ++ b.tail c.slots (branchOf heads)).map Action.toJson := by
  constructor
  · rintro ⟨t, ht, hv⟩
    obtain ⟨i, hi⟩ := List.mem_iff_getElem?.1 ht
    rw [getElem?_triggers, Option.map_eq_some_iff] at hi
    obtain ⟨b, hb, rfl⟩ := hi
    rw [Beat.generated_trigger, Bool.true_and] at hv
    exact ⟨i, b, hb, hv⟩
  · rintro ⟨i, b, hb, hv⟩
    have hi : (c.triggers heads vs true bs)[i]? = _ := getElem?_triggers vs true bs i
    rw [hb, Option.map_some] at hi
    refine ⟨_, List.mem_of_getElem? hi, ?_⟩
    rwa [Beat.generated_trigger, Bool.true_and]

/-- **The generated actions** of a compiled story are those of its beats. -/
theorem mem_generated_iff (h : (c.run s).2 = .ok out) :
    v ∈ out.generated (c.run s).1 ↔ ∃ n ∈ c.story.heads, ∃ i b,
      (c.timelineOf n).beats[i]? = some b ∧ v ∈ (Beat.lead (i == 0) ++
        b.tail c.slots (branchOf c.story.heads)).map Action.toJson := by
  have hlisted : ∀ n ∈ c.story.heads, listed (c.run s).1 (branchOf c.story.heads n) =
      (c.triggers c.story.heads (listed s (branchOf c.story.heads n)) true
        (c.timelineOf n).beats).map .obj := fun n hn => by
    obtain ⟨t, hst, hf⟩ := Option.bind_eq_some_iff.1 (triggers_of_run h hn)
    exact listed_of_storable? hst hf
  constructor
  · intro hv
    obtain ⟨⟨n, b⟩, hb, hv⟩ := List.mem_flatMap.1 hv
    obtain ⟨hn, rfl⟩ := (mem_branches_iff h).1 hb
    rw [hlisted n hn] at hv
    obtain ⟨w, hw, hv⟩ := List.mem_flatMap.1 hv
    obtain ⟨t, ht, rfl⟩ := List.mem_map.1 hw
    exact ⟨n, hn, mem_generated_triggers.1 ⟨t, ht, hv⟩⟩
  · rintro ⟨n, hn, hv⟩
    obtain ⟨t, ht, hv⟩ := mem_generated_triggers.2 hv
    refine List.mem_flatMap.2 ⟨(n, _), (mem_branches_iff h).2 ⟨hn, rfl⟩, ?_⟩
    rw [hlisted n hn]
    exact List.mem_flatMap.2 ⟨.obj t, List.mem_map_of_mem ht, hv⟩

/-- **What is generated** is an action of a beat that plays. -/
theorem performs_of_generated (h : (c.run s).2 = .ok out) (hv : v ∈ out.generated (c.run s).1) :
    ∃ (b : Beat) (a : Action), c.story.Played b.passage ∧ b.passage.isPrompt = b.directive.prompt ∧
      b.Performs c.slots (branchOf c.story.heads) a ∧ v = a.toJson := by
  obtain ⟨n, hn, i, b, hb, hv⟩ := (mem_generated_iff h).1 hv
  obtain ⟨a, ha, rfl⟩ := List.mem_map.1 hv
  obtain ⟨-, o, ho, hplay⟩ := played_of_mem_heads hn
  rw [timelineOf_of_opening? ho] at hb
  obtain ⟨hline, hd⟩ := (unrolls_timeline o).line_of_mem (List.mem_of_getElem? hb)
  exact ⟨b, a, hplay.line hline, Passage.isPrompt_of_ok hd, Beat.performs_of_mem ha, rfl⟩

/-- **A button that is used** is one of a prompt that plays. -/
theorem prompt_of_serves (h : (c.run s).2 = .ok out) (hv : v ∈ out.generated (c.run s).1)
    (hs : Action.Serves v k) :
    ∃ p, c.story.Played p ∧ p.isPrompt = true ∧ 1 ≤ k ∧ k ≤ p.exits.length := by
  obtain ⟨b, a, hplay, hp, ha, rfl⟩ := performs_of_generated h hv
  obtain ⟨hprompt, h1, h2⟩ := ha.prompt_of_serves hs
  exact ⟨b.passage, hplay, hp.trans hprompt, h1, h2⟩

/-- **A prompt that plays** shows a button for each of its links. -/
theorem exists_shows (h : (c.run s).2 = .ok out) (hp : c.story.Played p)
    (hpr : p.isPrompt = true) (h1 : 1 ≤ k) (h2 : k ≤ p.exits.length) :
    ∃ v ∈ out.generated (c.run s).1, Action.Shows v k := by
  obtain ⟨hu, -⟩ := run_ok_iff.1 ⟨out, h⟩
  obtain ⟨n, hn, o, ho, b, hb, rfl⟩ := hu.exists_beat hp
  obtain ⟨-, hd⟩ := (unrolls_timeline o).line_of_mem hb
  rw [Passage.isPrompt_of_ok hd] at hpr
  obtain ⟨a, ha, hs⟩ := Beat.exists_shows c.slots (branchOf c.story.heads) hpr h1 h2
  obtain ⟨i, hi⟩ := List.mem_iff_getElem?.1 hb
  rw [← timelineOf_of_opening? ho] at hi
  refine ⟨a.toJson, (mem_generated_iff h).2 ⟨n, hn, i, b, hi, ?_⟩, hs⟩
  exact List.mem_map_of_mem (List.mem_append_right _ ha)

end Compiler

end Stagecraft
