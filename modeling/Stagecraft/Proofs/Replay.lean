import Stagecraft.Proofs.Endings

/-!
# What a prompt shows

When a trigger starts, its actions are performed in order, and each turns one dial of the scene.
What a dial shows in the end is what the last action for it has set, whatever it showed before.
So a prompt leaves the panel with the buttons of its own links and no others.

* `Stage.Dial`, `Dials.perform`, `Dials.replay`: what actions set, and how they are performed.
* `Dials.replay_of_forall_ne`, `Dials.replay_of_agree`: what a row of actions leaves in a dial.
* `Compiled.Shown`: the panel with one button for each link, and no other.
* `Beat.bears_buttons`, `Beat.shown_trigger`: what the trigger of a prompt leaves.
* `Compiler.shown_of_run`: **each prompt shows its own choices**, whatever was shown before.
-/

namespace Stagecraft

namespace Stage

/-! ## Dials -/

/-- What an action can set: the target of a receiver in an atom. -/
structure Dial where
  atom : String
  receiver : String
  target : String
deriving DecidableEq

/-- What each dial shows. -/
abbrev Dials := Dial → Json

namespace Dial

/-- The dial that the object of an action addresses. -/
def ofAction? (v : Json) : Option Dial := do
  let atom ← (v.field? "receiverAtom").bind (·.text?)
  let receiver ← (v.field? "receiver").bind (·.text?)
  let target ← (v.field? "receiverTargetName").bind (·.text?)
  return ⟨atom, receiver, target⟩

/-- The dial that takes an atom away or shows it. -/
def switch (atom : String) : Dial := ⟨atom, "AtomControl", "on"⟩

/-- The colour of a button. -/
def tint (button : String) : Dial := ⟨button, "ButtonColor", "color"⟩

/-- What stands on a button. -/
def label (button : String) : Dial := ⟨button, "Text", "text"⟩

/-- The branch that a button leads to. -/
def route (button : String) : Dial :=
  ⟨button, "plugin#0_JayJayWon.ActionGrouper", "act1Atom1Name"⟩

end Dial

/-- The value that the object of an action sets. -/
def valueOf? (v : Json) : Option Json :=
  ["boolValue", "stringValue", "floatValue", "color"].findSome? v.field?

namespace Dials

/-- An action overwrites the dial that it addresses. -/
def perform (ds : Dials) (v : Json) : Dials :=
  match Dial.ofAction? v, valueOf? v with
  | some k, some x => fun k' => if k' = k then x else ds k'
  | _, _ => ds

/-- Actions are performed in order. -/
def replay (ds : Dials) (vs : List Json) : Dials := vs.foldl perform ds

end Dials

/-- The dial that an action addresses. -/
def Action.dial (a : Action) : Dial := ⟨a.atom, a.receiver, a.target⟩

namespace Dials

variable {ds : Dials} {k : Dial} {a : Action} {as : List Action}

/-- **The object of an action** sets the value of the action, and nothing else. -/
theorem perform_toJson (ds : Dials) (a : Action) :
    ds.perform a.toJson = fun k => if k = a.dial then a.setting.toJson else ds k := by
  obtain ⟨name, atom, receiver, target, setting⟩ := a
  cases setting <;> rfl

theorem replay_append (ds : Dials) (vs ws : List Json) :
    ds.replay (vs ++ ws) = (ds.replay vs).replay ws := List.foldl_append

/-- Actions for other dials change nothing. -/
theorem replay_of_forall_ne (h : ∀ a ∈ as, a.dial ≠ k) :
    ds.replay (as.map Action.toJson) k = ds k := by
  induction as generalizing ds with
  | nil => rfl
  | cons a as ih =>
    have hk : k ≠ a.dial := Ne.symm (h a List.mem_cons_self)
    show (ds.perform a.toJson).replay (as.map Action.toJson) k = ds k
    rw [ih fun a' ha => h a' (List.mem_cons_of_mem _ ha), perform_toJson]
    exact if_neg hk

/-- **What all actions for a dial set** is what it shows in the end, if there is one. -/
theorem replay_of_agree {x : Json} (ha : ∃ a ∈ as, a.dial = k)
    (hx : ∀ a ∈ as, a.dial = k → a.setting.toJson = x) : ds.replay (as.map Action.toJson) k = x := by
  induction as generalizing ds with
  | nil =>
    obtain ⟨a, ha, -⟩ := ha
    cases ha
  | cons a as ih =>
    show (ds.perform a.toJson).replay (as.map Action.toJson) k = x
    by_cases hrest : ∃ a' ∈ as, a'.dial = k
    · exact ih hrest fun a' ha' => hx a' (List.mem_cons_of_mem _ ha')
    · -- the first action is the last one for the dial
      have hne : ∀ a' ∈ as, a'.dial ≠ k := fun a' ha' hk => hrest ⟨a', ha', hk⟩
      have hk : a.dial = k := by
        obtain ⟨a', ha', hk⟩ := ha
        rcases List.mem_cons.1 ha' with rfl | ha'
        · exact hk
        · exact absurd hk (hne a' ha')
      rw [replay_of_forall_ne hne, perform_toJson]
      exact (if_pos hk.symm).trans (hx a List.mem_cons_self hk)

/-! ## Buttons -/

/-- **The button is shown** with the label and the colour of a link, and leads to a branch. -/
structure Bears (ds : Dials) (button : String) (l : Link) (branch : String) : Prop where
  on : ds (.switch button) = .str "true"
  label : ds (.label button) = .str l.label
  tint : ds (.tint button) = l.tint.toJson
  route : ds (.route button) = .str branch

variable {button branch : String} {l : Link} {n : Nat}

/-- Actions for other atoms leave a button as it is. -/
theorem Bears.replay (h : ds.Bears button l branch) (has : ∀ a ∈ as, a.atom ≠ button) :
    (ds.replay (as.map Action.toJson)).Bears button l branch := by
  have hsame : ∀ k : Dial, k.atom = button → ds.replay (as.map Action.toJson) k = ds k :=
    fun k hk => replay_of_forall_ne fun a ha he => has a ha ((congrArg Dial.atom he).trans hk)
  exact ⟨(hsame _ rfl).trans h.on, (hsame _ rfl).trans h.label, (hsame _ rfl).trans h.tint,
    (hsame _ rfl).trans h.route⟩

/-- The actions of a choice button give it its link. -/
theorem bears_choiceButton (ds : Dials) (n : Nat) (l : Link) (branch : String) :
    (ds.replay ((Action.choiceButton n l branch).map Action.toJson)).Bears (buttonId n) l branch := by
  -- the four actions set four dials of the button, each once
  have hset : ∀ {k : Dial} {x : Json},
      (∃ a ∈ Action.choiceButton n l branch, a.dial = k) →
      (∀ a ∈ Action.choiceButton n l branch, a.dial = k → a.setting.toJson = x) →
      ds.replay ((Action.choiceButton n l branch).map Action.toJson) k = x := replay_of_agree
  constructor <;> refine hset ?_ ?_ <;>
    simp [Action.choiceButton, Action.dial, Action.named, Action.toggle, Setting.toJson, Dial.switch,
      Dial.label, Dial.tint, Dial.route]

end Dials

end Stage

open Stage

/-! ## What a prompt leaves -/

namespace Compiled

/-- **The panel shows `links` and nothing else**: of `slots` buttons the first ones are shown, each
with a link and the branch of its target, and the others are not. -/
structure Shown (out : Compiled) (slots : Nat) (links : List Link) (ds : Dials) : Prop where
  panel : ds (.switch panelId) = .str "true"
  buttons : ∀ i l, links[i]? = some l → ∃ branch, out.branches.lookup l.target = some branch ∧
    ds.Bears (buttonId (i + 1)) l branch
  others : ∀ k, links.length < k → k ≤ slots → ds (.switch (buttonId k)) = .str "false"

end Compiled

namespace Beat

variable {b : Beat} {slots n : Nat} {branchOf : String → String} {first : Bool} {old : Trigger}
  {out : Compiled} {ds : Dials} {ls : List Link}

/-- The buttons from `n` on are those of the links, and no others. -/
theorem atom_of_mem_buttons {a : Action} (ha : a ∈ buttons branchOf n ls) :
    ∃ i < ls.length, a.atom = buttonId (n + i) := by
  obtain ⟨i, l, hl, ha⟩ := mem_buttons ha
  exact ⟨i, (List.getElem?_eq_some_iff.1 hl).1, Action.atom_of_mem_choiceButton ha⟩

/-- **Each button gets its link**, whatever the others get. -/
theorem bears_buttons {l : Link} {i : Nat} (hl : ls[i]? = some l) :
    (ds.replay ((buttons branchOf n ls).map Action.toJson)).Bears (buttonId (n + i)) l
      (branchOf l.target) := by
  induction ls generalizing n i ds with
  | nil => cases hl
  | cons l' ls ih =>
    rw [buttons, List.map_append, Dials.replay_append]
    cases i with
    | zero =>
      cases hl
      -- the buttons of later links have other numbers
      refine (Dials.bears_choiceButton ds n l (branchOf l.target)).replay fun a ha hatom => ?_
      obtain ⟨j, -, hj⟩ := atom_of_mem_buttons ha
      have := buttonId_inj (hj.symm.trans hatom)
      omega
    | succ i =>
      rw [show n + (i + 1) = n + 1 + i by omega]
      exact ih hl

/-- **A prompt shows its links**, whatever stood there before. -/
theorem shown_trigger (hp : b.directive.prompt = true) (hl : b.exits ≠ [])
    (hout : ∀ l ∈ b.exits, out.branches.lookup l.target = some (branchOf l.target)) (ds : Dials) :
    out.Shown slots b.exits (ds.replay (b.trigger slots branchOf first old).generated) := by
  have honward : b.onward slots branchOf =
      cleared slots ++ .showPanel :: buttons branchOf 1 b.exits := by
    rw [onward, List.isEmpty_eq_false_iff.2 hl, hp]
    rfl
  have hsplit : ds.replay (b.trigger slots branchOf first old).generated =
      (((ds.replay ((lead first ++ b.speech).map Action.toJson)).replay
        ((cleared slots).map Action.toJson)).replay
          ((Action.showPanel :: buttons branchOf 1 b.exits).map Action.toJson)) := by
    simp only [generated_trigger, tail, honward, List.map_append, Dials.replay_append]
  rw [hsplit]
  generalize ds.replay ((lead first ++ b.speech).map Action.toJson) = ds
  refine ⟨?_, fun i l hl => ?_, fun k hk hslots => ?_⟩
  · -- no button is the panel
    refine Dials.replay_of_agree ⟨_, List.mem_cons_self, rfl⟩ fun a ha hdial => ?_
    rcases List.mem_cons.1 ha with rfl | ha
    · rfl
    · obtain ⟨i, -, hatom⟩ := atom_of_mem_buttons ha
      exact absurd (hatom.symm.trans (congrArg Dial.atom hdial)) buttonId_ne.1
  · refine ⟨_, hout l (List.mem_of_getElem? hl), ?_⟩
    rw [Nat.add_comm]
    exact bears_buttons hl
  · -- a button without a link is taken away with the others, and nothing shows it again
    have hcleared : (ds.replay ((cleared slots).map Action.toJson)) (.switch (buttonId k)) =
        .str "false" := by
      refine Dials.replay_of_agree ⟨Action.disableButton k, ?_, rfl⟩ fun a ha _ => ?_
      · exact List.mem_map.2 ⟨k - 1, List.mem_range.2 (by omega), by congr 1; omega⟩
      · obtain ⟨i, -, rfl⟩ := List.mem_map.1 ha
        rfl
    rw [← hcleared]
    refine Dials.replay_of_forall_ne fun a ha hdial => ?_
    rcases List.mem_cons.1 ha with rfl | ha
    · exact absurd (congrArg Dial.atom hdial).symm buttonId_ne.1
    · obtain ⟨i, hi, hatom⟩ := atom_of_mem_buttons ha
      have := buttonId_inj (hatom.symm.trans (congrArg Dial.atom hdial))
      omega

end Beat

namespace Compiler

open Story

variable {c : Compiler} {s : Scene} {out : Compiled} {name b : String}

/-- What holds of each beat and its trigger holds of a row of them. -/
theorem forall₂_triggers {R : Beat → Trigger → Prop} {bs : List Beat} (vs : List Json) (first : Bool)
    (h : ∀ b ∈ bs, ∀ first, R b
      (b.trigger c.slots (branchOf c.story.heads) first (c.earlier vs b.passage.name))) :
    List.Forall₂ R bs (c.triggers c.story.heads vs first bs) := by
  induction bs generalizing first with
  | nil => exact .nil
  | cons b bs ih =>
    exact .cons (h b List.mem_cons_self first) (ih false fun b hb => h b (List.mem_cons_of_mem _ hb))

/-- **Each prompt shows its own choices.** The triggers of a branch are those of the passages that
the story tells from its head on. Once the generated actions of a prompt have been performed, the
panel shows the links of that prompt and nothing else, whatever it has shown before. -/
theorem shown_of_run (h : (c.run s).2 = .ok out) (hb : (name, b) ∈ out.branches) :
    ∃ (p : Passage) (line : List (Passage × Directive)) (ts : List Trigger),
      c.story.opening? name = some p ∧ c.story.Tells p line ∧
      triggers? (c.run s).1 b = some (.arr (ts.map .obj)) ∧
      List.Forall₂ (fun (e : Passage × Directive) (t : Trigger) =>
        t.name? = some (displayName e.1.name) ∧
          (e.1.isPrompt = true → e.1.exits ≠ [] →
            ∀ ds : Dials, out.Shown c.slots e.1.exits (ds.replay t.generated))) line ts := by
  obtain ⟨hn, rfl⟩ := (mem_branches_iff h).1 hb
  obtain ⟨hu, -⟩ := run_ok_iff.1 ⟨out, h⟩
  obtain ⟨-, p, hp, hplay⟩ := played_of_mem_heads hn
  have hend := hu.ending_ne hn hp
  have hunrolls := c.story.unrolls_timeline p
  have htriggers := triggers_of_run h hn
  rw [timelineOf_of_opening? hp] at htriggers
  generalize hvs : listed s (branchOf c.story.heads name) = vs at htriggers
  refine ⟨p, _, _, hp, hunrolls.tells hend, htriggers, ?_⟩
  rw [List.forall₂_map_left_iff]
  refine forall₂_triggers _ _ fun b hb first => ⟨?_, fun hpr hl ds => ?_⟩
  · rw [Beat.name?_trigger, name?_earlier]
  · obtain ⟨hline, hd⟩ := hunrolls.line_of_mem hb
    refine Beat.shown_trigger ((Passage.isPrompt_of_ok hd).symm.trans hpr) hl (fun l hmem => ?_) ds
    -- the targets of a prompt that is played are heads
    exact lookup_branches h (hu.target_mem_heads (hplay.line hline) hpr hmem)

/-- The prompt shows its one choice, whatever stood there before. -/
theorem shown_of_run_fork : ∃ ts : List Trigger,
    triggers? (fork.run (bare 2)).1 "Dialog-Branch#1" = some (.arr (ts.map .obj)) ∧
      ∃ t ∈ ts, ∀ ds : Dials,
        (fork.compiled ["a", "b"]).Shown 1 [.ofRaw ⟨"b", "b"⟩] (ds.replay t.generated) := by
  have hmem : ("a", "Dialog-Branch#1") ∈ (fork.compiled ["a", "b"]).branches := List.mem_cons_self
  have hprompt : fork.story.start.isPrompt = true := by decide
  obtain ⟨p, line, ts, hp, htells, hts, hshown⟩ := shown_of_run run_fork hmem
  cases hp
  refine ⟨ts, hts, ?_⟩
  -- the start is a prompt, so its line ends with it
  cases htells with
  | onward hd hpr => exact absurd ((Passage.isPrompt_of_ok hd).trans hpr) (by decide)
  | last =>
    obtain ⟨t, ts, ⟨-, ht⟩, hrest, rfl⟩ := List.forall₂_cons_left_iff.1 hshown
    exact ⟨t, List.mem_cons_self, ht hprompt (List.cons_ne_nil _ _)⟩

end Compiler

end Stagecraft
