import Stagecraft.Proofs.Performance
import Stagecraft.Proofs.Renewal

/-!
# Edits by hand survive a compilation

The triggers that a compilation writes into a branch are made from those that the branch
had before. What was added to these by hand stays, and what is generated depends on the
story and the number of buttons only.

* `Compiler.map_generated_triggers`: the generated actions do not depend on what was there.
* `Compiler.triggers_of_run`: the triggers in a branch of a compiled story.
* `Compiler.renews_of_run`: **what becomes of the triggers** of a branch.
-/

namespace Stagecraft

open Stage

namespace Compiler

variable {c c' : Compiler} {s s' : Scene} {heads : List String} {vs vs' : List Json}
  {name b : String} {out out' : Compiled}

/-- The triggers of a branch, as they stand in the scene. -/
def triggers? (s : Scene) (branch : String) : Option Json :=
  (s.storable? branch patternId).bind (·.field? triggersKey)

theorem timelineOf_congr (h : c'.story = c.story) (n : String) : c'.timelineOf n = c.timelineOf n := by
  unfold timelineOf
  rw [h]

/-- **What is generated** depends on the beats, the branches and the number of buttons. -/
theorem map_generated_triggers (h : c'.slots = c.slots) (first : Bool) (bs : List Beat) :
    (c'.triggers heads vs' first bs).map Trigger.generated =
      (c.triggers heads vs first bs).map Trigger.generated := by
  apply List.ext_getElem?
  intro i
  rw [List.getElem?_map, List.getElem?_map, getElem?_triggers, getElem?_triggers, Option.map_map,
    Option.map_map, h]
  cases bs[i]? with
  | none => rfl
  | some b => simp only [Option.map_some, Function.comp, Beat.generated_trigger]

/-- An earlier trigger is the one found, or a fresh one. -/
theorem earlier_eq_getD (vs : List Json) (n : String) :
    c.earlier vs n = (Trigger.find? (displayName n) vs).getD
      (c.template.set Trigger.nameKey (.str (displayName n))) := by
  unfold earlier
  cases Trigger.find? (displayName n) vs <;> rfl

/-- The branches of a compiled story are those of its heads. -/
theorem mem_branches_iff (h : (c.run s).2 = .ok out) :
    (name, b) ∈ out.branches ↔ name ∈ c.story.heads ∧ b = branchOf c.story.heads name := by
  rw [(run_of_ok h).1]
  simp only [compiled, List.mem_map, Prod.mk.injEq]
  constructor
  · rintro ⟨n, hn, rfl, rfl⟩
    exact ⟨hn, rfl⟩
  · rintro ⟨hn, rfl⟩
    exact ⟨name, hn, rfl, rfl⟩

/-- A branch that was written down has the triggers that were made from those before. -/
theorem triggers?_foldl {ns : List String} (hns : ∀ m ∈ ns, m ∈ heads) (hn : name ∈ ns)
    (hthere : (s.storable? (branchOf heads name) patternId).isSome) :
    triggers? (ns.foldl (c.write heads) s) (branchOf heads name) =
      some (.arr (c.renewed heads name (listed s (branchOf heads name)))) := by
  have halike : s.Alike (ns.foldl (c.write heads) s) := alike_foldl ns s
  rw [← halike, Option.isSome_iff_exists] at hthere
  obtain ⟨t, ht⟩ := hthere
  rw [triggers?, ht, Option.bind_some]
  exact triggers_foldl hns hn ht

/-- **The triggers of a branch** behind a compilation are made from those before it. -/
theorem triggers_of_run (h : (c.run s).2 = .ok out) (hn : name ∈ c.story.heads) :
    triggers? (c.run s).1 (branchOf c.story.heads name) = some (.arr
      ((c.triggers c.story.heads (listed s (branchOf c.story.heads name)) true
        (c.timelineOf name).beats).map .obj)) := by
  obtain ⟨-, hs⟩ := run_ok_iff.1 ⟨out, h⟩
  rw [run_fst]
  exact triggers?_foldl (fun _ => mem_heads_of_writes) (((run_of_ok h).2 name).2 hn) (hs name hn).1

/-- **Edits by hand survive, and what is generated is renewed.** In each branch of a compiled
story each trigger renews the last one of its name that was there before, or a fresh one, and
its generated actions are those that any compilation of the story with as many buttons gives. -/
theorem renews_of_run (h : (c.run s).2 = .ok out) (hb : (name, b) ∈ out.branches) :
    ∃ ts : List Trigger, triggers? (c.run s).1 b = some (.arr (ts.map .obj)) ∧
      (∀ i t, ts[i]? = some t → ∃ n, t.name? = some n ∧
        Trigger.Renews (if i = 0 then [Action.hidePanel.toJson] else [])
          ((Trigger.find? n (listed s b)).getD (c.template.set Trigger.nameKey (.str n))) t) ∧
      ∀ (c' : Compiler) (s' : Scene) (out' : Compiled), c'.story = c.story → c'.slots = c.slots →
        (c'.run s').2 = .ok out' → (name, b) ∈ out'.branches ∧
          ∃ ts' : List Trigger, triggers? (c'.run s').1 b = some (.arr (ts'.map .obj)) ∧
            ts'.map Trigger.generated = ts.map Trigger.generated := by
  obtain ⟨hn, rfl⟩ := (mem_branches_iff h).1 hb
  refine ⟨_, triggers_of_run h hn, fun i t ht => ?_, fun c' s' out' hst hsl h' => ?_⟩
  · -- each trigger is that of a beat, made from the earlier one of its name
    rw [getElem?_triggers, Option.map_eq_some_iff] at ht
    obtain ⟨b, -, rfl⟩ := ht
    refine ⟨displayName b.passage.name, (Beat.name?_trigger _ _ _ _ _).trans (name?_earlier _ _), ?_⟩
    rw [← earlier_eq_getD]
    have hlead : (if i = 0 then [Action.hidePanel.toJson] else []) =
        (Beat.lead (true && i == 0)).map Action.toJson := by
      by_cases hi : i = 0 <;> simp [hi, Beat.lead]
    rw [hlead]
    exact b.renews_trigger _ _ _ _
  · -- the other compilation has the same heads, and so the same branches and beats
    have hmem : (name, branchOf c.story.heads name) ∈ out'.branches := by
      rw [mem_branches_iff h', hst]
      exact ⟨hn, rfl⟩
    have ht := triggers_of_run h' (hst ▸ hn)
    rw [hst, timelineOf_congr hst] at ht
    exact ⟨hmem, _, ht, map_generated_triggers hsl _ _⟩

/-- A story of one passage. -/
def solo : Compiler where
  story := { start := ⟨"intro", "Hello", ["delay"], []⟩, others := [] }
  template := []
  slots := 0

/-- Its branch, with an action in the trigger that was added by hand. -/
def waving : Scene where
  fields := []
  atoms := .ofList [
    ⟨"Dialog-Branch#1", [], .ofList [⟨patternId, [(triggersKey, .arr [.obj
      [("displayName", .str "D:intro"), ("startActions", .arr [.obj [("name", .str "wave")]]),
        ("colour", .str "red")]])]⟩]⟩,
    ⟨"Dialog-Branch#1-Duration", [], .ofList [⟨stepId, []⟩]⟩]

/-- The trigger that waves is renewed. -/
theorem renews_of_run_waving : ∃ ts : List Trigger,
    triggers? (solo.run waving).1 "Dialog-Branch#1" = some (.arr (ts.map .obj)) ∧
      ∀ i t, ts[i]? = some t → ∃ n, t.name? = some n ∧
        Trigger.Renews (if i = 0 then [Action.hidePanel.toJson] else [])
          ((Trigger.find? n (listed waving "Dialog-Branch#1")).getD
            (solo.template.set Trigger.nameKey (.str n))) t := by
  -- a story of one passage is entered and written down
  have hscript : solo.story.script = [.enter "intro", .write "intro"] := by
    have hbranch : solo.story.branch "intro" = [.note (.enter "intro"), .note (.write "intro")] := by
      rw [Story.branch_of_opening? rfl, Story.timeline,
        Story.timelineFrom_of_exits_nil _ rfl rfl]
    have hnames : solo.story.names = ["intro"] := rfl
    rw [Story.script, hnames, show solo.story.start.name = "intro" from rfl]
    simp [walk, hbranch]
  have hheads : solo.story.heads = ["intro"] := by rw [Story.heads, hscript]; rfl
  have hrun : (solo.run waving).2 = .ok (solo.compiled ["intro"]) :=
    run_of_script hheads hscript (by cbv)
  have hmem : ("intro", "Dialog-Branch#1") ∈ (solo.compiled ["intro"]).branches := by decide
  obtain ⟨ts, hts, hrenews, -⟩ := renews_of_run hrun hmem
  exact ⟨ts, hts, hrenews⟩

end Compiler

end Stagecraft
