import Mathlib.Data.List.Forall2
import Stagecraft.Proofs.Controls
import Stagecraft.Proofs.Timing

/-!
# How a branch ends

A branch plays by itself up to its last trigger, which hands over to the player. If nothing
follows, it offers to start again; otherwise it shows the panel with one button for each link
of its prompt. Each button leads to a branch of the same story, so the player is never stranded.

* `Action.Onward`, `Action.LeadsOn`: the actions that hand over to the player.
* `Beat.hidePanel_mem_trigger_iff`, `Beat.mem_trigger_iff_of_leadsOn`: the triggers that have
  such an action, and those that hide the panel.
* `Unrolls.ends`: the last beat of a timeline, and the others.
* `Compiled.Ends`: how the last trigger of a branch hands over.
* `Compiler.no_dead_end`: **no branch strands the player**.
-/

namespace Stagecraft

open Stage

/-! ## Actions that hand over to the player -/

namespace Stage.Action

/-- **The actions that hand over to the player**: the restart, the panel, and the buttons that
are taken away or given a choice. -/
inductive Onward : Action → Prop
  | restart : Onward .enableRestart
  | clear {k} : Onward (.disableButton k)
  | panel : Onward .showPanel
  | choice {k l branch a} : a ∈ choiceButton k l branch → Onward a

/-- The object of an action that hands over to the player. -/
def LeadsOn (v : Json) : Prop := ∃ a : Action, a.Onward ∧ v = a.toJson

variable {a a' : Action} {k : Nat} {l : Link} {branch : String} {v : Json}

theorem atom_eq_of_toJson (h : a.toJson = a'.toJson) : a.atom = a'.atom := by
  have hatom : a.toJson.field? "receiverAtom" = a'.toJson.field? "receiverAtom" := by rw [h]
  exact Json.str.inj (Option.some.inj hatom)

theorem receiver_eq_of_toJson (h : a.toJson = a'.toJson) : a.receiver = a'.receiver := by
  have hreceiver : a.toJson.field? "receiver" = a'.toJson.field? "receiver" := by rw [h]
  exact Json.str.inj (Option.some.inj hreceiver)

theorem Onward.isGenerated (h : a.Onward) : isGenerated a.toJson = true := by
  cases h with
  | choice h => exact isGenerated_choiceButton h
  | _ => exact isGenerated_named _ _ _ _ _

/-- Who speaks does not hand over. -/
theorem Onward.receiver_ne (h : a.Onward) (bubble : Bubble) : a.receiver ≠ bubble.receiver := by
  cases h with
  | restart | clear | panel => cases bubble <;> simp [Bubble.receiver, toggle, named,
      enableRestart, disableButton, showPanel]
  | choice h =>
    simp only [choiceButton, List.mem_cons, List.not_mem_nil, or_false] at h
    rcases h with rfl | rfl | rfl | rfl <;> cases bubble <;>
      simp [Bubble.receiver, toggle, named]

theorem LeadsOn.isGenerated (h : LeadsOn v) : isGenerated v = true := by
  obtain ⟨a, ha, rfl⟩ := h
  exact ha.isGenerated

theorem not_leadsOn_of_bubble {bubble : Bubble} (h : a.receiver = bubble.receiver) :
    ¬ LeadsOn a.toJson := by
  rintro ⟨a', ha', heq⟩
  exact ha'.receiver_ne bubble ((receiver_eq_of_toJson heq).symm.trans h)

theorem toJson_showPanel_ne : showPanel.toJson ≠ hidePanel.toJson := by
  intro h
  have htrue : showPanel.toJson.field? "boolValue" = some (.str "true") := rfl
  rw [h, boolValue_toJson_iff] at htrue
  cases htrue

/-- A branch that hides the panel does not hand over with it. -/
theorem not_leadsOn_hidePanel : ¬ LeadsOn hidePanel.toJson := by
  rintro ⟨a, ha, h⟩
  cases ha with
  | restart => exact absurd (atom_eq_of_toJson h) (by decide)
  | clear => exact buttonId_ne.1 (atom_eq_of_toJson h).symm
  | panel => exact toJson_showPanel_ne h.symm
  | choice ha =>
    have hatom := atom_eq_of_toJson h
    rw [atom_of_mem_choiceButton ha] at hatom
    exact buttonId_ne.1 hatom.symm

end Stage.Action

/-! ## The trigger of a beat -/

namespace Beat

variable {b : Beat} {slots n : Nat} {branchOf : String → String} {first : Bool} {old : Trigger}
  {a : Action} {v : Json}

theorem bubble_of_mem_speech (h : a ∈ b.speech) : ∃ bubble : Bubble, a.receiver = bubble.receiver := by
  unfold speech at h
  split at h
  · cases h
  · simp only [List.mem_cons, List.not_mem_nil, or_false] at h
    rcases h with rfl | rfl <;> exact ⟨_, rfl⟩

theorem buttons_eq_flatten (branchOf : String → String) (n : Nat) (ls : List Link) :
    buttons branchOf n ls =
      ((ls.zipIdx n).map fun e => Action.choiceButton e.2 e.1 (branchOf e.1.target)).flatten := by
  induction ls generalizing n with
  | nil => rfl
  | cons l ls ih => rw [buttons, ih, List.zipIdx_cons, List.map_cons, List.flatten_cons]

theorem onward_of_mem_onward (h : a ∈ b.onward slots branchOf) : a.Onward := by
  unfold onward at h
  split at h
  · rw [List.mem_singleton.1 h]
    exact .restart
  split at h
  · rcases List.mem_append.1 h with h | h
    · obtain ⟨i, -, rfl⟩ := List.mem_map.1 h
      exact .clear
    rcases List.mem_cons.1 h with rfl | h
    · exact .panel
    · obtain ⟨i, l, -, ha⟩ := mem_buttons h
      exact .choice ha
  · cases h

/-- A generated action in the trigger of a beat is one of the beat's own. -/
theorem mem_trigger_iff (hv : Action.isGenerated v = true) :
    v ∈ (b.trigger slots branchOf first old).actions ↔
      v ∈ (lead first ++ b.tail slots branchOf).map Action.toJson := by
  rw [← b.generated_trigger slots branchOf first old, Trigger.generated, List.mem_filter,
    and_iff_left hv]

/-- **Only the first trigger hides the panel.** -/
theorem hidePanel_mem_trigger_iff :
    Action.hidePanel.toJson ∈ (b.trigger slots branchOf first old).actions ↔ first = true := by
  have hgen : Action.isGenerated Action.hidePanel.toJson = true := Action.isGenerated_named _ _ _ _ _
  rw [mem_trigger_iff hgen, List.map_append, List.mem_append]
  constructor
  · rintro (h | h)
    · cases first with
      | false => cases h
      | true => rfl
    · -- no action behind those that were added by hand has this object
      obtain ⟨a, ha, heq⟩ := List.mem_map.1 h
      rcases List.mem_append.1 ha with ha | ha
      · obtain ⟨bubble, hb⟩ := bubble_of_mem_speech ha
        have hreceiver : "AtomControl" = bubble.receiver :=
          (Action.receiver_eq_of_toJson heq).symm.trans hb
        cases bubble <;> simp [Bubble.receiver] at hreceiver
      · exact absurd ⟨a, onward_of_mem_onward ha, heq.symm⟩ Action.not_leadsOn_hidePanel
  · rintro rfl
    exact .inl (List.mem_singleton.2 rfl)

theorem not_leadsOn_of_mem_lead (hv : v ∈ (lead first).map Action.toJson) : ¬ Action.LeadsOn v := by
  cases first with
  | false => cases hv
  | true =>
    rw [List.mem_singleton.1 hv]
    exact Action.not_leadsOn_hidePanel

theorem not_leadsOn_of_mem_speech (hv : v ∈ b.speech.map Action.toJson) : ¬ Action.LeadsOn v := by
  obtain ⟨a, ha, rfl⟩ := List.mem_map.1 hv
  obtain ⟨bubble, hb⟩ := bubble_of_mem_speech ha
  exact Action.not_leadsOn_of_bubble hb

/-- **What hands over to the player** is what leads on from the beat. -/
theorem mem_trigger_iff_of_leadsOn (hv : Action.LeadsOn v) :
    v ∈ (b.trigger slots branchOf first old).actions ↔
      v ∈ (b.onward slots branchOf).map Action.toJson := by
  rw [mem_trigger_iff hv.isGenerated, tail, List.map_append, List.map_append, List.mem_append,
    List.mem_append]
  refine ⟨?_, fun h => .inr (.inr h)⟩
  rintro (h | h | h)
  · exact absurd hv (not_leadsOn_of_mem_lead h)
  · exact absurd hv (not_leadsOn_of_mem_speech h)
  · exact h

end Beat

/-! ## The last beat of a timeline -/

namespace Story.Unrolls

variable {s : Story} {p : Passage} {fresh : List String} {start : Float} {t : Timeline}

/-- **Only the last beat** of an unbroken timeline has no links, or is a prompt. -/
theorem ends (h : s.Unrolls fresh p start t) (ht : ∀ f, t.ending ≠ .broken f) :
    ∃ bs b, t.beats = bs ++ [b] ∧ (b.exits = [] ∨ b.directive.prompt = true) ∧
      ∀ b' ∈ bs, b'.exits ≠ [] ∧ b'.directive.prompt = false := by
  induction h with
  | malformed | unresolved | cycle => exact absurd rfl (ht _)
  | stop _ hl => exact ⟨[], _, rfl, .inl hl, fun b' hb' => by cases hb'⟩
  | choice _ hp _ => exact ⟨[], _, rfl, .inr hp, fun b' hb' => by cases hb'⟩
  | @onward _ p start d _ _ hd hc _ _ ih =>
    obtain ⟨bs, b, hbs, hlast, hinner⟩ := ih ht
    obtain ⟨hp, l, ls, hl, -⟩ := hc.first hd
    refine ⟨beatOf p d start :: bs, b, by rw [Timeline.cons, hbs, List.cons_append], hlast,
      fun b' hb' => ?_⟩
    rcases List.mem_cons.1 hb' with rfl | hb'
    · exact ⟨by rw [Beat.exits, beatOf, hl]; exact List.cons_ne_nil _ _, hp⟩
    · exact hinner b' hb'

end Story.Unrolls

/-! ## The last trigger of a branch -/

namespace Compiled

variable (out : Compiled)

/-- `group` is the choice button of a link, with its number: it leads to the branch of the link's
target, which has a length. -/
def Button (link : Link × Nat) (group : List Action) : Prop :=
  ∃ b total, out.branches.lookup link.1.target = some b ∧ out.durations.lookup b = some total ∧
    group = Action.choiceButton link.2 link.1 b

/-- **The panel is shown with `groups`**: one choice button for each of `links`, numbered from
one. Before that buttons are taken away, and no restart is offered. -/
structure Offers (links : List Link) (front : List Json) (groups : List (List Action))
    (actions : List Json) : Prop where
  actions_eq : actions =
    front ++ Action.showPanel.toJson :: groups.flatten.map Action.toJson
  buttons : List.Forall₂ out.Button (links.zipIdx 1) groups
  clears : ∀ v ∈ front, Action.LeadsOn v → ∃ k, v = (Action.disableButton k).toJson
  panel : Action.showPanel.toJson ∉ front ++ groups.flatten.map Action.toJson
  restart : Action.enableRestart.toJson ∉ actions

/-- **How the last trigger of a branch hands over**, where `p` is the last passage: by the restart
and nothing else if there are no links, or else by a choice among these. -/
inductive Ends (p : Passage) (t : Trigger) : Prop
  | restart : p.exits = [] → Action.enableRestart.toJson ∈ t.actions →
      (∀ v ∈ t.actions, Action.LeadsOn v → v = Action.enableRestart.toJson) → Ends p t
  | choice {front groups} : p.isPrompt = true → p.exits ≠ [] →
      out.Offers p.exits front groups t.actions → Ends p t

end Compiled

namespace Beat

variable {b : Beat} {slots n : Nat} {branchOf : String → String} {first : Bool} {old : Trigger}
  {out : Compiled} {a : Action} {v : Json}

/-- No button has the object of the panel or the restart. -/
theorem not_mem_buttons (ha : a.atom = panelId ∨ a.atom = startButtonId) (n : Nat)
    (ls : List Link) : a.toJson ∉ (buttons branchOf n ls).map Action.toJson := by
  intro h
  obtain ⟨a', ha', heq⟩ := List.mem_map.1 h
  obtain ⟨i, l, -, hl⟩ := mem_buttons ha'
  have hatom := Action.atom_eq_of_toJson heq
  rw [Action.atom_of_mem_choiceButton hl] at hatom
  rcases ha with ha | ha
  · exact buttonId_ne.1 (hatom.trans ha)
  · exact buttonId_ne.2 (hatom.trans ha)

theorem toJson_ne_disableButton (ha : a.atom = panelId ∨ a.atom = startButtonId) (k : Nat) :
    a.toJson ≠ (Action.disableButton k).toJson := by
  intro h
  have hatom : a.atom = buttonId k := Action.atom_eq_of_toJson h
  rcases ha with ha | ha
  · exact buttonId_ne.1 (hatom.symm.trans ha)
  · exact buttonId_ne.2 (hatom.symm.trans ha)

/-- The actions that take all choice buttons away. -/
def cleared (slots : Nat) : List Action := (List.range slots).map fun i => .disableButton (i + 1)

/-- What a prompt's trigger starts before it shows the panel. -/
def front (slots : Nat) (first : Bool) (b : Beat) (old : Trigger) : List Json :=
  (lead first).map Action.toJson ++ old.kept ++ (b.speech ++ cleared slots).map Action.toJson

/-- Before the panel is shown, buttons are taken away and nothing else leads on. -/
theorem disableButton_of_mem_front (hv : v ∈ b.front slots first old) (hon : Action.LeadsOn v) :
    ∃ k, v = (Action.disableButton k).toJson := by
  rw [front, List.map_append, List.mem_append, List.mem_append, List.mem_append] at hv
  rcases hv with (hv | hv) | hv | hv
  · exact absurd hon (not_leadsOn_of_mem_lead hv)
  · -- what was added by hand is no generated action
    have hgen := hon.isGenerated
    rw [Trigger.isGenerated_of_mem_kept hv] at hgen
    cases hgen
  · exact absurd hon (not_leadsOn_of_mem_speech hv)
  · obtain ⟨a, ha, rfl⟩ := List.mem_map.1 hv
    obtain ⟨i, -, rfl⟩ := List.mem_map.1 ha
    exact ⟨i + 1, rfl⟩

/-- **A prompt offers its links.** -/
theorem offers_trigger (hp : b.directive.prompt = true) (hl : b.exits ≠ [])
    (hout : ∀ l ∈ b.exits, out.branches.lookup l.target = some (branchOf l.target) ∧
      ∃ total, out.durations.lookup (branchOf l.target) = some total) :
    out.Offers b.exits (b.front slots first old)
      ((b.exits.zipIdx 1).map fun e => Action.choiceButton e.2 e.1 (branchOf e.1.target))
      (b.trigger slots branchOf first old).actions := by
  have hne : b.exits.isEmpty = false := List.isEmpty_eq_false_iff.2 hl
  have honward : b.onward slots branchOf =
      cleared slots ++ .showPanel :: buttons branchOf 1 b.exits := by
    rw [onward, hne, hp]
    rfl
  have heq : (b.trigger slots branchOf first old).actions = b.front slots first old ++
      Action.showPanel.toJson :: (buttons branchOf 1 b.exits).map Action.toJson := by
    rw [actions_trigger, tail, honward, front]
    simp
  have hfront : ∀ a : Action, a.Onward → (a.atom = panelId ∨ a.atom = startButtonId) →
      a.toJson ∉ b.front slots first old := fun a hon ha hmem => by
    obtain ⟨k, hk⟩ := disableButton_of_mem_front hmem ⟨a, hon, rfl⟩
    exact toJson_ne_disableButton ha k hk
  rw [heq]
  constructor
  · rw [buttons_eq_flatten]
  · rw [List.forall₂_map_right_iff, List.forall₂_same]
    intro e he
    obtain ⟨hbranch, total, htotal⟩ := hout e.1 (List.fst_mem_of_mem_zipIdx he)
    exact ⟨_, total, hbranch, htotal, rfl⟩
  · exact fun v => disableButton_of_mem_front
  · rw [← buttons_eq_flatten, List.mem_append, not_or]
    exact ⟨hfront _ .panel (.inl rfl), not_mem_buttons (.inl rfl) _ _⟩
  · rw [List.mem_append, List.mem_cons, not_or, not_or]
    refine ⟨hfront _ .restart (.inr rfl), fun h => ?_, not_mem_buttons (.inr rfl) _ _⟩
    exact absurd (Action.atom_eq_of_toJson h) (by decide)

/-- **The last trigger of a branch** hands over to the player, if the branch of each target is
known and has a length. -/
theorem ends_trigger (hp : b.passage.isPrompt = b.directive.prompt)
    (hlast : b.exits = [] ∨ b.directive.prompt = true)
    (hout : b.directive.prompt = true → ∀ l ∈ b.exits,
      out.branches.lookup l.target = some (branchOf l.target) ∧
        ∃ total, out.durations.lookup (branchOf l.target) = some total) :
    out.Ends b.passage (b.trigger slots branchOf first old) := by
  by_cases hl : b.exits = []
  · have honward : b.onward slots branchOf = [.enableRestart] := by rw [onward, hl]; rfl
    refine .restart hl ?_ fun v hv hon => ?_
    · rw [mem_trigger_iff_of_leadsOn ⟨_, .restart, rfl⟩, honward]
      exact List.mem_singleton.2 rfl
    · rwa [mem_trigger_iff_of_leadsOn hon, honward, List.map_singleton, List.mem_singleton] at hv
  · have hprompt : b.directive.prompt = true := hlast.resolve_left hl
    exact .choice (hp.trans hprompt) hl (offers_trigger hprompt hl (hout hprompt))

/-- The trigger of a beat that goes on by itself does not hand over. -/
theorem not_leadsOn_of_mem_trigger (hl : b.exits ≠ []) (hp : b.directive.prompt = false)
    (hv : v ∈ (b.trigger slots branchOf first old).actions) : ¬ Action.LeadsOn v := by
  intro hon
  have hne : b.exits.isEmpty = false := List.isEmpty_eq_false_iff.2 hl
  rw [mem_trigger_iff_of_leadsOn hon, onward, hne, hp] at hv
  cases hv

end Beat

/-! ## The branches of a compiled story -/

namespace Compiler

open Story

variable {c : Compiler} {s : Scene} {out : Compiled} {heads : List String} {vs : List Json}
  {name b : String} {total : Float}

theorem triggers_append (first : Bool) (bs bs' : List Beat) :
    c.triggers heads vs first (bs ++ bs') =
      c.triggers heads vs first bs ++ c.triggers heads vs (first && bs.isEmpty) bs' := by
  induction bs generalizing first with
  | nil => simp [triggers]
  | cons b bs ih => simp [triggers, ih]

/-- The triggers of beats have the names of their passages. -/
theorem map_name?_triggers (first : Bool) (bs : List Beat) :
    (c.triggers heads vs first bs).map Trigger.name? =
      bs.map fun b => some (displayName b.passage.name) := by
  induction bs generalizing first with
  | nil => rfl
  | cons b bs ih =>
    rw [triggers, List.map_cons, ih, List.map_cons, Beat.name?_trigger, name?_earlier]

theorem lookup_branches (h : (c.run s).2 = .ok out) (hn : name ∈ c.story.heads) :
    out.branches.lookup name = some (branchOf c.story.heads name) := by
  rw [(run_of_ok h).1]
  exact lookup_map_self hn

/-- The branches with a length are those of the heads. -/
theorem exists_of_mem_durations (h : (c.run s).2 = .ok out) (hb : (b, total) ∈ out.durations) :
    ∃ name ∈ c.story.heads, b = branchOf c.story.heads name := by
  rw [(run_of_ok h).1] at hb
  obtain ⟨name, hn, heq⟩ := List.mem_map.1 hb
  cases heq
  exact ⟨name, hn, rfl⟩

/-- Beats that go on by themselves do not hand over to the player. -/
theorem not_leadsOn_of_triggers {bs : List Beat} {first : Bool} {t : Trigger} {v : Json}
    (hbs : ∀ b ∈ bs, b.exits ≠ [] ∧ b.directive.prompt = false)
    (ht : t ∈ c.triggers heads vs first bs) (hv : v ∈ t.actions) : ¬ Action.LeadsOn v := by
  obtain ⟨i, hi⟩ := List.mem_iff_getElem?.1 ht
  rw [getElem?_triggers, Option.map_eq_some_iff] at hi
  obtain ⟨b, hb, rfl⟩ := hi
  obtain ⟨hl, hpr⟩ := hbs b (List.mem_of_getElem? hb)
  exact Beat.not_leadsOn_of_mem_trigger hl hpr hv

/-- **No branch strands the player.** A branch of a compiled story tells the story from the passage
that heads it up to a last passage `q`. Only its first trigger hides the panel, and only its last
one hands over to the player: with the restart if `q` has no links, and else with a choice among
these, each of which leads to a branch of the story. -/
theorem no_dead_end (h : (c.run s).2 = .ok out) (hb : (b, total) ∈ out.durations) :
    ∃ (name : String) (p q : Passage) (d : Directive) (told : List (Passage × Directive))
      (ts : List Trigger) (t : Trigger),
      (name, b) ∈ out.branches ∧ c.story.opening? name = some p ∧
      c.story.Tells p (told ++ [(q, d)]) ∧
      triggers? (c.run s).1 b = some (.arr ((ts ++ [t]).map .obj)) ∧
      (ts ++ [t]).map Trigger.name? =
        (told ++ [(q, d)]).map (fun e => some (displayName e.1.name)) ∧
      (∀ i t', (ts ++ [t])[i]? = some t' → (Action.hidePanel.toJson ∈ t'.actions ↔ i = 0)) ∧
      (∀ t' ∈ ts, ∀ v ∈ t'.actions, ¬ Action.LeadsOn v) ∧ out.Ends q t := by
  obtain ⟨name, hn, rfl⟩ := exists_of_mem_durations h hb
  obtain ⟨hu, -⟩ := run_ok_iff.1 ⟨out, h⟩
  obtain ⟨-, p, hp, hplay⟩ := played_of_mem_heads hn
  have hend := hu.ending_ne hn hp
  have hunrolls := c.story.unrolls_timeline p
  obtain ⟨bs, last, hbs, hlast, hinner⟩ := hunrolls.ends hend
  have hmem : last ∈ (c.story.timeline p).beats := by simp [hbs]
  obtain ⟨hline, hd⟩ := hunrolls.line_of_mem hmem
  have htells := hunrolls.tells hend
  have htriggers := triggers_of_run h hn
  rw [timelineOf_of_opening? hp] at htriggers
  rw [hbs] at htells htriggers
  generalize hvs : listed s (branchOf c.story.heads name) = vs at htriggers
  have hts : c.triggers c.story.heads vs true (bs ++ [last]) =
      c.triggers c.story.heads vs true bs ++ [last.trigger c.slots (branchOf c.story.heads)
        bs.isEmpty (c.earlier vs last.passage.name)] := triggers_append true bs [last]
  refine ⟨name, p, last.passage, last.directive, _, _, _, (mem_branches_iff h).2 ⟨hn, rfl⟩, hp,
    List.map_append ▸ htells, hts ▸ htriggers, ?_, fun i t' ht' => ?_,
    fun t' ht' v => not_leadsOn_of_triggers hinner ht', ?_⟩
  · rw [← hts, map_name?_triggers]
    simp
  · rw [← hts, getElem?_triggers, Option.map_eq_some_iff] at ht'
    obtain ⟨b, -, rfl⟩ := ht'
    rw [Beat.hidePanel_mem_trigger_iff]
    simp
  · -- the choices of the last passage are heads, and have their branches
    refine Beat.ends_trigger (Passage.isPrompt_of_ok hd) hlast fun hprompt l hl => ?_
    have htarget := hu.target_mem_heads (hplay.line hline)
      ((Passage.isPrompt_of_ok hd).trans hprompt) hl
    exact ⟨lookup_branches h htarget, _, lookup_durations h htarget⟩

/-- The prompt hands over with one button, which leads to the branch of its choice. -/
theorem no_dead_end_fork : ∃ (ts : List Trigger) (t : Trigger) (front : List Json),
    triggers? (fork.run (bare 2)).1 "Dialog-Branch#1" = some (.arr ((ts ++ [t]).map .obj)) ∧
      t.actions = front ++ Action.showPanel.toJson ::
        (Action.choiceButton 1 (.ofRaw ⟨"b", "b"⟩) "Dialog-Branch#2").map Action.toJson ∧
      Action.showPanel.toJson ∉ front := by
  have hmem : ("Dialog-Branch#1", (fork.timelineOf "a").total) ∈
      (fork.compiled ["a", "b"]).durations := List.mem_cons_self
  obtain ⟨name, p, q, d, told, ts, t, hname, hp, htells, hts, -, -, -, hends⟩ :=
    no_dead_end run_fork hmem
  obtain ⟨hn, hid⟩ := (mem_branches_iff run_fork).1 hname
  rw [heads_fork] at hn hid
  -- the branch is that of the start, and not that of the choice
  have hstart : name = "a" := by
    rcases List.mem_cons.1 hn with rfl | hn
    · rfl
    · rw [List.mem_singleton.1 hn] at hid
      exact absurd hid (by decide)
  subst hstart
  cases hp
  obtain ⟨rfl, rfl⟩ : told = [] ∧ q = fork.story.start := by
    generalize hline : told ++ [(q, d)] = line at htells
    cases htells with
    | last =>
      obtain ⟨rfl, heq⟩ := List.append_eq_singleton_iff.1 hline |>.resolve_right (by simp)
      cases heq
      exact ⟨rfl, rfl⟩
    | onward hd hpr => exact absurd ((Passage.isPrompt_of_ok hd).trans hpr) (by decide)
  cases hends with
  | restart hl => exact absurd hl (by decide)
  | @choice front groups _ _ hoffers =>
    obtain ⟨hacts, hbuttons, -, hpanel, -⟩ := hoffers
    obtain ⟨group, rest, ⟨b, _, hb, -, rfl⟩, hrest, rfl⟩ := List.forall₂_cons_left_iff.1 hbuttons
    cases hrest
    obtain rfl : b = "Dialog-Branch#2" := Option.some.inj (hb.symm.trans (by decide))
    refine ⟨ts, t, front, hts, ?_, fun h => hpanel (List.mem_append_left _ h)⟩
    simpa using hacts

end Compiler

end Stagecraft
