import Stagecraft.Proofs.Session
import Stagecraft.Proofs.Shortfall

/-!
# When the triggers of a branch play

A branch plays a line of passages, one trigger each, and each trigger starts when the one
before it ends. The length of the branch is the end of its last trigger.

* `Story.Tells`: the passages that a branch plays; `Unrolls.tells`.
* `Trigger.Plays`: a trigger that plays a passage for as long as that takes.
* `Compiler.InTime`: triggers that play a line of passages, one after the other;
  `Unrolls.inTime`.
* `Compiler.inTime_of_run`: **the timeline of each branch** of a compiled story.
-/

namespace Stagecraft

open Stage

namespace Story

/-- **What a branch tells** from `p` on: a passage that is no prompt goes on with its first
link, and the last one is a prompt or has no links. -/
inductive Tells (s : Story) : Passage → List (Passage × Directive) → Prop
  | last {p d} : p.directive? = .ok d → d.prompt = true ∨ p.exits = [] → Tells s p [(p, d)]
  | onward {p d l ls q line} : p.directive? = .ok d → d.prompt = false → p.exits = l :: ls →
      s.follow? p l = .ok q → Tells s q line → Tells s p ((p, d) :: line)

variable {s : Story} {p q : Passage}

theorem Tells.ne_nil {line : List (Passage × Directive)} (h : s.Tells p line) : line ≠ [] := by
  cases h <;> exact List.cons_ne_nil _ _

/-- A passage that continues is no prompt, and goes on with its first link. -/
theorem Continues.first {d : Directive} (hc : s.Continues p q) (hd : p.directive? = .ok d) :
    d.prompt = false ∧ ∃ l ls, p.exits = l :: ls ∧ s.follow? p l = .ok q := by
  obtain ⟨hp, l, hl, hq⟩ := hc
  rw [Passage.isPrompt_of_ok hd] at hp
  rw [Passage.followed_of_ok hd, hp] at hl
  refine ⟨hp, ?_⟩
  cases he : p.exits with
  | nil => simp [he] at hl
  | cons l' ls =>
    have hll : l = l' := by simpa [he] using hl
    exact ⟨l', ls, rfl, hll ▸ hq⟩

namespace Unrolls

variable {fresh : List String} {start : Float} {t : Timeline}

/-- **An unbroken timeline** tells its branch to the end. -/
theorem tells (h : s.Unrolls fresh p start t) (ht : ∀ f, t.ending ≠ .broken f) :
    s.Tells p (t.beats.map fun b => (b.passage, b.directive)) := by
  induction h with
  | malformed | unresolved | cycle => exact absurd rfl (ht _)
  | stop hd hl => exact .last hd (.inr hl)
  | choice hd hp _ => exact .last hd (.inl hp)
  | onward hd hc _ _ ih =>
    obtain ⟨hp, l, ls, hl, hq⟩ := hc.first hd
    exact .onward hd hp hl hq (ih ht)

theorem beats_ne_nil (h : s.Unrolls fresh p start t) (ht : ∀ f, t.ending ≠ .broken f) :
    t.beats ≠ [] := by
  intro hnil
  have htells := h.tells ht
  rw [hnil] at htells
  exact htells.ne_nil rfl

end Unrolls

end Story

/-! ## The times of a trigger -/

/-- The trigger plays a passage from `start` to `finish`. A prompt waits for the player
anyway, so it ends soon. -/
structure Trigger.Plays (t : Trigger) (p : Passage) (d : Directive) (start finish : Float) :
    Prop where
  name : t.name? = some (displayName p.name)
  startTime : t.get? "startTime" = some (.str (Decimal.format start))
  endTime : t.get? "endTime" = some (.str (Decimal.format finish))
  finish_eq : finish = if d.prompt then start + 0.2 else (start + d.duration) + 0.4

theorem Beat.plays_trigger {p : Passage} {d : Directive} {start : Float} {slots : Nat}
    {branchOf : String → String} {first : Bool} {old : Trigger}
    (h : old.name? = some (displayName p.name)) :
    Trigger.Plays ((Story.beatOf p d start).trigger slots branchOf first old) p d start
      (Timeline.finishOf d start) where
  name := (Beat.name?_trigger _ _ _ _ _).trans h
  startTime := by
    unfold Beat.trigger
    rw [Fields.get?_set_of_ne _ _ (by decide), Fields.get?_set_of_ne _ _ (by decide),
      Fields.get?_set_self]
    rfl
  endTime := by
    unfold Beat.trigger
    rw [Fields.get?_set_of_ne _ _ (by decide), Fields.get?_set_self]
    rfl
  finish_eq := rfl

namespace Compiler

variable {c : Compiler} {s : Scene} {out : Compiled} {heads : List String} {name b : String}

/-- **Triggers in time** with a line of passages, from `start` to `finish`: each plays its
passage, and the next one starts when it ends. -/
inductive InTime : Float → List (Passage × Directive) → List Trigger → Float → Prop
  | last {start p d t finish} : Trigger.Plays t p d start finish →
      InTime start [(p, d)] [t] finish
  | onward {start p d t next line ts finish} : Trigger.Plays t p d start next →
      InTime next line ts finish → InTime start ((p, d) :: line) (t :: ts) finish

theorem InTime.length_eq {start finish : Float} {line : List (Passage × Directive)}
    {ts : List Trigger} (h : InTime start line ts finish) : ts.length = line.length := by
  induction h with
  | last => rfl
  | onward _ _ ih => rw [List.length_cons, List.length_cons, ih]

/-- The last trigger ends at the end of them all. -/
theorem InTime.endTime {start finish : Float} {line : List (Passage × Directive)}
    {ts : List Trigger} (h : InTime start line ts finish) :
    ts.getLast?.bind (·.get? "endTime") = some (.str (Decimal.format finish)) := by
  induction h with
  | last h => exact h.endTime
  | @onward _ _ _ t _ _ ts _ _ hts ih =>
    have hne : ts ≠ [] := by cases hts <;> exact List.cons_ne_nil _ _
    rwa [List.getLast?_cons_of_ne_nil hne]

end Compiler

namespace Story.Unrolls

open Compiler

variable {s : Story} {p : Passage} {fresh : List String} {start : Float} {t : Timeline}

/-- **The triggers of an unbroken timeline** are in time with it. -/
theorem inTime (h : s.Unrolls fresh p start t) (ht : ∀ f, t.ending ≠ .broken f) (c : Compiler)
    (heads : List String) (vs : List Json) (first : Bool) :
    InTime start (t.beats.map fun b => (b.passage, b.directive)) (c.triggers heads vs first t.beats)
      t.total := by
  induction h generalizing first with
  | malformed | unresolved | cycle => exact absurd rfl (ht _)
  | stop | choice => exact .last (Beat.plays_trigger (name?_earlier vs _))
  | onward _ _ _ hu ih =>
    -- what follows is not empty, so its end is that of the whole
    rw [Timeline.total, Timeline.cons, List.getLast?_cons_of_ne_nil (hu.beats_ne_nil ht)]
    exact .onward (Beat.plays_trigger (name?_earlier vs _)) (ih ht false)

end Story.Unrolls

namespace Compiler

variable {c : Compiler} {s : Scene} {out : Compiled} {heads : List String} {name b : String}

/-! ## The timelines of a compiled story -/

/-- The length of a branch, as it stands in the scene. -/
def length? (s : Scene) (branch : String) : Option Json :=
  (s.storable? (durationId branch) stepId).bind (·.field? lengthKey)

/-- A branch that was written down has the length of its timeline. -/
theorem length?_foldl {ns : List String} (hns : ∀ m ∈ ns, m ∈ heads) (hn : name ∈ ns)
    (hthere : (s.storable? (durationId (branchOf heads name)) stepId).isSome) :
    length? (ns.foldl (c.write heads) s) (branchOf heads name) =
      some (.str (Decimal.format (c.timelineOf name).total)) := by
  have halike : s.Alike (ns.foldl (c.write heads) s) := alike_foldl ns s
  rw [← halike, Option.isSome_iff_exists] at hthere
  obtain ⟨t, ht⟩ := hthere
  rw [length?, ht, Option.bind_some]
  exact (settled_foldl hns hn).length t ht

/-- **The length of a branch** behind a compilation. -/
theorem length_of_run (h : (c.run s).2 = .ok out) (hn : name ∈ c.story.heads) :
    length? (c.run s).1 (branchOf c.story.heads name) =
      some (.str (Decimal.format (c.timelineOf name).total)) := by
  obtain ⟨-, hs⟩ := run_ok_iff.1 ⟨out, h⟩
  rw [run_fst]
  exact length?_foldl (fun _ => mem_heads_of_writes) (((run_of_ok h).2 name).2 hn) (hs name hn).2

theorem lookup_durations (h : (c.run s).2 = .ok out) (hn : name ∈ c.story.heads) :
    out.durations.lookup (branchOf c.story.heads name) = some (c.timelineOf name).total := by
  rw [(run_of_ok h).1]
  exact lookup_branchOf hn fun _ hk => hk

/-- **The timeline of each branch.** It tells the story from the passage that heads the branch
on, with one trigger for each passage, the first of which starts at 0.1; the length of the
branch is the end of the last one. -/
theorem inTime_of_run (h : (c.run s).2 = .ok out) (hb : (name, b) ∈ out.branches) :
    ∃ (p : Passage) (line : List (Passage × Directive)) (ts : List Trigger) (total : Float),
      c.story.opening? name = some p ∧ c.story.Tells p line ∧
      triggers? (c.run s).1 b = some (.arr (ts.map .obj)) ∧ ts.length = line.length ∧
      InTime 0.1 line ts total ∧ out.durations.lookup b = some total ∧
      length? (c.run s).1 b = some (.str (Decimal.format total)) ∧
      length? (c.run s).1 b = ts.getLast?.bind (·.get? "endTime") := by
  obtain ⟨hn, rfl⟩ := (mem_branches_iff h).1 hb
  obtain ⟨hu, -⟩ := run_ok_iff.1 ⟨out, h⟩
  obtain ⟨-, p, hp, -⟩ := Story.played_of_mem_heads hn
  have hend := hu.ending_ne hn hp
  have hlength := length_of_run h hn
  have hdurations := lookup_durations h hn
  have htriggers := triggers_of_run h hn
  rw [timelineOf_of_opening? hp] at hlength hdurations htriggers
  -- the times of the triggers are those of the beats
  have htime := (Story.unrolls_timeline p).inTime hend c c.story.heads
    (listed s (branchOf c.story.heads name)) true
  exact ⟨p, _, _, _, hp, (Story.unrolls_timeline p).tells hend, htriggers, htime.length_eq, htime,
    hdurations, hlength, hlength.trans htime.endTime.symm⟩

/-- The second branch goes on with the prompt that hides the start, so it has two triggers. -/
theorem inTime_of_run_hidden : ∃ (line : List (Passage × Directive)) (ts : List Trigger)
    (total : Float), triggers? (hidden.run (bare 4)).1 "Dialog-Branch#2" = some (.arr (ts.map .obj)) ∧
      line.map (·.1.name) = ["x", "a"] ∧ ts.length = 2 ∧ InTime 0.1 line ts total ∧
      length? (hidden.run (bare 4)).1 "Dialog-Branch#2" = some (.str (Decimal.format total)) := by
  have hheads : hidden.story.heads = ["a", "x", "y", "z"] := by
    rw [Story.heads, script_hidden]
    rfl
  have hrun : (hidden.run (bare 4)).2 = .ok (hidden.compiled ["a", "x", "y", "z"]) :=
    run_of_script hheads script_hidden (by decide +kernel)
  have hmem : ("x", "Dialog-Branch#2") ∈ (hidden.compiled ["a", "x", "y", "z"]).branches := by decide
  obtain ⟨p, line, ts, total, hp, hline, hts, hlen, htime, -, hlength, -⟩ := inTime_of_run hrun hmem
  cases hp
  -- the passage is no prompt, and the one behind it is
  cases hline with
  | last hd hend =>
    rcases hend with hpr | hnil
    · exact absurd ((Passage.isPrompt_of_ok hd).trans hpr) (by decide)
    · exact absurd hnil (by decide)
  | onward hd _ hl hq hrest =>
    cases hl
    cases hq
    cases hrest with
    | last => exact ⟨_, ts, total, hts, rfl, hlen, htime, hlength⟩
    | onward hd hpr => exact absurd ((Passage.isPrompt_of_ok hd).trans hpr) (by decide)

end Compiler

end Stagecraft
