import Stagecraft.Proofs.Agreement

/-!
# When the count of needs falls short

The count of needs goes to each name once, and under the name of the start it finds the
start. A line may play a further passage of that name instead, which hides the start, and
so may lead to prompts that were never counted.

* `Compiled.Within`: what a compiled story uses is within a capacity.
* `Story.Foreseen`: prompts that were not counted need no more than was counted.
* `Compiler.within_iff`: **the count suffices exactly if** these prompts are foreseen; they
  only come behind a passage that hides the start.
-/

namespace Stagecraft

open Relation Stage

variable {cap : Capacity}

/-- The branches and the choice buttons of a compiled story are within a capacity. -/
def Compiled.Within (out : Compiled) (s : Scene) (cap : Capacity) : Prop :=
  out.branches.length ≤ cap.branches ∧
    ∀ v ∈ out.generated s, ∀ k, Action.Serves v k → k ≤ cap.choices

namespace Story

variable {s : Story} {n : String} {p : Passage}

/-- A prompt that plays without having been surveyed has no more links than there are
buttons, and they lead to branches that were counted. -/
def Foreseen (s : Story) (cap : Capacity) : Prop :=
  ∀ p, s.Played p → ¬ s.Surveyed p → p.isPrompt = true →
    p.exits.length ≤ cap.choices ∧ ∀ q, s.Offers p q → s.Heads s.Surveyed q.name

theorem foreseen_of_find? (hs : s.find? s.start.name = some s.start) : s.Foreseen cap :=
  fun _ hp hn => absurd ((surveyed_iff_played hs).2 hp) hn

namespace Unbroken

variable (hu : s.Unbroken) (hm : s.Measured cap)
include hu hm

/-- There are as many branches as were counted exactly if each was counted. -/
theorem length_heads_le_iff :
    s.heads.length ≤ cap.branches ↔ ∀ n ∈ s.heads, s.Heads s.Surveyed n := by
  obtain ⟨ns, hnd, hmem, hlen⟩ := hm.heads
  rw [← hlen]
  constructor
  · intro hle n hn
    have hsub : ∀ m ∈ ns, m ∈ s.heads := fun m h =>
      hu.mem_heads_iff.2 (((hmem m).1 h).mono fun _ => Surveyed.played)
    rw [← hmem]
    -- a head that was not counted would be one more than there are branches
    by_cases hin : n ∈ ns
    · exact hin
    have hmore := (List.nodup_cons.2 ⟨hin, hnd⟩).length_le_of_subset fun m h =>
      (List.mem_cons.1 h).elim (fun e => e ▸ hn) (hsub m)
    rw [List.length_cons] at hmore
    omega
  · intro h
    exact nodup_heads.length_le_of_subset fun n hn => (hmem n).2 (h n hn)

end Unbroken

end Story

namespace Compiler

open Story

variable {c : Compiler} {s : Scene} {out : Compiled}

section Compiled

variable (hm : c.story.Measured cap) (h : (c.run s).2 = .ok out)
include h

theorem length_branches : out.branches.length = c.story.heads.length := by
  rw [(run_of_ok h).1]
  exact List.length_map _

include hm

/-- A prompt that plays shows its last button, and its choices have branches, so that all of
it was counted if the compiled story is within the capacity. -/
theorem foreseen_of_within (hw : out.Within (c.run s).1 cap) : c.story.Foreseen cap := by
  obtain ⟨hu, -⟩ := run_ok_iff.1 ⟨out, h⟩
  obtain ⟨hheads, hserves⟩ := hw
  rw [length_branches h, hu.length_heads_le_iff hm] at hheads
  intro p hp _ hpr
  refine ⟨?_, fun q hq => hheads _ (hu.mem_heads_iff.2 (.inr ⟨p, q, hp, hq, rfl⟩))⟩
  rcases Nat.eq_zero_or_pos p.exits.length with h0 | hpos
  · omega
  · obtain ⟨v, hv, hshow⟩ := exists_shows h hp hpr hpos (Nat.le_refl _)
    exact hserves v hv _ hshow.serves

/-- **A compiled story whose prompts were foreseen** is within the capacity. -/
theorem within_of_foreseen (hf : c.story.Foreseen cap) : out.Within (c.run s).1 cap := by
  obtain ⟨hu, -⟩ := run_ok_iff.1 ⟨out, h⟩
  constructor
  · rw [length_branches h, hu.length_heads_le_iff hm]
    intro n hn
    rcases hu.mem_heads_iff.1 hn with rfl | ⟨p, q, hp, hq, rfl⟩
    · exact .inl rfl
    · by_cases hsp : c.story.Surveyed p
      · exact .inr ⟨p, q, hsp, hq, rfl⟩
      · exact (hf p hp hsp hq.1).2 q hq
  · intro v hv k hk
    obtain ⟨p, hp, hpr, -, hle⟩ := prompt_of_serves h hv hk
    by_cases hsp : c.story.Surveyed p
    · exact Nat.le_trans hle (hm.bound p hsp hpr)
    · exact Nat.le_trans hle (hf p hp hsp hpr).1

end Compiled

/-- **The count of needs suffices** for a compiled story exactly if the prompts that it did not
get to are foreseen. These come behind a passage that hides the start, so it suffices where
the start is found under its name. -/
theorem within_iff (hcap : c.story.capacity? = .ok cap) (h : (c.run s).2 = .ok out) :
    (out.Within (c.run s).1 cap ↔ c.story.Foreseen cap) ∧
      (∀ p, c.story.Played p → ¬ c.story.Surveyed p →
        ∃ q, c.story.find? c.story.start.name = some q ∧ q ≠ c.story.start ∧
          ReflTransGen c.story.Plays q p) ∧
      (c.story.find? c.story.start.name = some c.story.start → out.Within (c.run s).1 cap) := by
  have hm := measured_of_capacity? hcap
  refine ⟨⟨foreseen_of_within hm h, within_of_foreseen hm h⟩, fun p => shadow_of_played, ?_⟩
  exact fun hs => within_of_foreseen hm h (foreseen_of_find? hs)

/-- The prompt that hides the start. -/
def again : Passage := ⟨"a", "", ["Ann", "says", "prompt"], [⟨"y", "y"⟩, ⟨"z", "z"⟩]⟩

/-- A story that leads back to the name of its start, where another prompt hides it. -/
def hidden : Compiler where
  story :=
    { start := ⟨"a", "", ["Ann", "says", "prompt"], [⟨"x", "x"⟩]⟩
      others := [⟨"x", "", ["delay"], [⟨"a", "a"⟩]⟩, again, ⟨"y", "", ["delay"], []⟩,
        ⟨"z", "", ["delay"], []⟩] }
  template := []
  slots := 1

theorem capacity_hidden : hidden.story.capacity? = .ok ⟨2, 1⟩ := by
  have ha : hidden.story.survey "a" = [.note (.choices 1), .note (.branch "x"), .go "x"] := rfl
  have hx : hidden.story.survey "x" = [.go "a"] := rfl
  have hnames : hidden.story.names = ["a", "x", "y", "z"] := rfl
  have hneeds : hidden.story.needs = [.branch "a", .choices 1, .branch "x"] := by
    rw [needs, hnames, show hidden.story.start.name = "a" from rfl]
    simp [walk, ha, hx]
  rw [capacity?, hneeds]
  rfl

theorem script_hidden : hidden.story.script = [.enter "a", .enter "x", .enter "y", .write "y",
    .enter "z", .write "z", .write "x", .write "a"] := by
  have hnames : hidden.story.names = ["a", "x", "y", "z"] := rfl
  have ha : hidden.story.branch "a" = [.note (.enter "a"), .go "x", .note (.write "a")] := by
    rw [branch_of_opening? rfl, timeline, timelineFrom_of_prompt _ rfl rfl (by decide)]
    rfl
  have hx : hidden.story.branch "x" =
      [.note (.enter "x"), .go "y", .go "z", .note (.write "x")] := by
    have hc : hidden.story.Continues ⟨"x", "", ["delay"], [⟨"a", "a"⟩]⟩ again :=
      ⟨rfl, Link.ofRaw ⟨"a", "a"⟩, List.mem_singleton_self _, rfl⟩
    rw [branch_of_opening? rfl, timeline, hnames,
      timelineFrom_of_continues _ rfl hc (by decide),
      timelineFrom_of_prompt _ rfl rfl (by decide)]
    rfl
  have hy : hidden.story.branch "y" = [.note (.enter "y"), .note (.write "y")] := by
    rw [branch_of_opening? rfl, timeline, timelineFrom_of_exits_nil _ rfl rfl]
  have hz : hidden.story.branch "z" = [.note (.enter "z"), .note (.write "z")] := by
    rw [branch_of_opening? rfl, timeline, timelineFrom_of_exits_nil _ rfl rfl]
  rw [script, hnames, show hidden.story.start.name = "a" from rfl]
  simp [walk, ha, hx, hy, hz]

/-- The prompt that hides the start plays with two choices, where one was counted. -/
theorem not_within_hidden : hidden.story.capacity? = .ok ⟨2, 1⟩ ∧
    ∃ out, (hidden.run (bare 4)).2 = .ok out ∧ out.branches.length = 4 ∧
      ¬ hidden.story.Foreseen ⟨2, 1⟩ := by
  have hheads : hidden.story.heads = ["a", "x", "y", "z"] := by rw [heads, script_hidden]; rfl
  have hrun : (hidden.run (bare 4)).2 = .ok (hidden.compiled ["a", "x", "y", "z"]) :=
    run_of_script hheads script_hidden (by cbv)
  refine ⟨capacity_hidden, _, hrun, rfl, fun hf => ?_⟩
  have hle := ((within_iff capacity_hidden hrun).1.2 hf).1
  exact absurd hle (by decide)

end Compiler

end Stagecraft
