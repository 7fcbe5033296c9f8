import Stagecraft.Proofs.Buttons
import Stagecraft.Proofs.Needs

/-!
# The count of needs and the compilation agree

If no further passage has the name of the start, the count of needs and the compilation
get to the same passages. So a story with a capacity compiles exactly on the scenes that
have its branches, unless it runs into a cycle, and it uses all that was counted.

* `Story.Acyclic`, `Story.unbroken_iff`: only a cycle breaks the script of such a story.
* `Story.length_heads_le`, `Story.length_heads_eq`: its branches are those that were counted.
* `Compiler.not_ok_of_capacity?`: no story without a capacity compiles.
* `Compiler.run_ok_iff_stocked`, `Compiler.bounds_of_shows`: whether such a story compiles, and
  which buttons it shows.
* `Compiler.agreement`: **whether such a story compiles, why not, and what it uses**.
-/

namespace Stagecraft

open Relation Stage

variable {cap : Capacity}

namespace Story

variable {s : Story} {n : String} {p : Passage} {f : Fault}

/-- No passage behind followed links is in a cycle of passages that continue into each other. -/
def Acyclic (s : Story) : Prop := ∀ p, s.Reachable p → ¬ TransGen s.Continues p p

section Unhidden

variable (hs : s.find? s.start.name = some s.start) (hm : s.Measured cap)
include hs

theorem surveyed_iff_played : s.Surveyed p ↔ s.Played p :=
  (surveyed_iff_reachable hs).trans (played_iff_reachable hs).symm

theorem heads_surveyed_iff : s.Heads s.Surveyed n ↔ s.Heads s.Played n := by
  rw [show s.Surveyed = s.Played from funext fun _ => propext (surveyed_iff_played hs)]

include hm

/-- **The script of a story with a capacity** only fails in a cycle. -/
theorem cycle_of_script (hf : .fails f ∈ s.script) :
    ¬ s.Acyclic ∧ f.notice.code = "DIALOG_CHAIN_CYCLE" := by
  rcases fault_of_script hf with ⟨p, hp, hfault⟩ | ⟨o, q, r, ho, hline, hc, hr, rfl⟩
  · exact absurd hfault (hm.sound p f ((surveyed_iff_played hs).2 hp))
  · refine ⟨fun ha => ?_, rfl⟩
    -- the line comes back to the name of `o`, and so to `o` itself
    have hreach := (played_iff_reachable hs).1 ho
    have hro : r = o := by
      have hfind := hreach.opening? hs
      rw [opening?_eq_find? hs, ← hr, hc.leads.find?] at hfind
      exact Option.some.inj hfind
    rw [hro] at hc
    exact ha o hreach (TransGen.tail' hline hc)

/-- **Only a cycle breaks the script** of a story with a capacity. -/
theorem unbroken_iff : s.Unbroken ↔ s.Acyclic := by
  refine ⟨fun hu p hp => hu.not_cycle ((played_iff_reachable hs).2 hp), fun ha f hf => ?_⟩
  exact (cycle_of_script hs hm hf).1 ha

/-- **There are branches for all heads**, also if the script is broken. -/
theorem length_heads_le : s.heads.length ≤ cap.branches := by
  obtain ⟨ns, -, hmem, hlen⟩ := hm.heads
  rw [← hlen]
  refine nodup_heads.length_le_of_subset fun n hn => ?_
  rw [hmem, heads_surveyed_iff hs]
  exact (played_of_mem_heads hn).1

/-- **All branches that were counted** are used. -/
theorem length_heads_eq (hu : s.Unbroken) : s.heads.length = cap.branches := by
  obtain ⟨ns, hnd, hmem, hlen⟩ := hm.heads
  rw [← hlen]
  refine ((List.perm_ext_iff_of_nodup nodup_heads hnd).2 fun n => ?_).length_eq
  rw [hmem, heads_surveyed_iff hs, hu.mem_heads_iff]

end Unhidden

end Story

namespace Compiler

open Story

variable {c : Compiler} {s : Scene} {f : Fault}

/-- The scene has the branches `1` to `n`, each with its triggers and its length. -/
def Stocked (s : Scene) (n : Nat) : Prop := ∀ i, 1 ≤ i → i ≤ n → Staged s (branchId i)

/-- A scene with enough branches has those of all heads. -/
theorem Stocked.allStaged {n : Nat} (h : Stocked s n) (hn : c.story.heads.length ≤ n) :
    c.AllStaged s := by
  intro m hm
  have hlt := List.idxOf_lt_length_of_mem hm
  exact h _ (by omega) (by omega)

theorem stocked_iff : Stocked s c.story.heads.length ↔ c.AllStaged s := by
  refine ⟨fun h => h.allStaged (Nat.le_refl _), fun h i h1 h2 => ?_⟩
  have hlt : i - 1 < c.story.heads.length := by omega
  have hstaged := h _ (List.getElem_mem hlt)
  rw [branchOf_getElem nodup_heads hlt] at hstaged
  rwa [show i - 1 + 1 = i by omega] at hstaged

/-- **No story without a capacity compiles**, whatever the scene. -/
theorem not_ok_of_capacity? (h : c.story.capacity? = .error f) (s : Scene) :
    ∃ g, (c.run s).2 = .error g := by
  obtain ⟨p, hp, hf⟩ := faulty_of_capacity? h
  cases hr : (c.run s).2 with
  | error g => exact ⟨g, rfl⟩
  | ok out => exact absurd hf ((run_ok_iff.1 ⟨out, hr⟩).1.not_faulty hp.played f)

section Unhidden

variable (hs : c.story.find? c.story.start.name = some c.story.start) (hm : c.story.Measured cap)
include hs hm

theorem run_ok_iff_stocked :
    (∃ out, (c.run s).2 = .ok out) ↔ c.story.Acyclic ∧ Stocked s cap.branches := by
  rw [run_ok_iff, unbroken_iff hs hm]
  refine and_congr_right fun ha => ?_
  rw [← length_heads_eq hs hm ((unbroken_iff hs hm).2 ha), stocked_iff]

/-- On a scene with all branches that were counted, a story that does not compile has a cycle. -/
theorem cycle_of_run (hst : Stocked s cap.branches) (hr : (c.run s).2 = .error f) :
    f.notice.code = "DIALOG_CHAIN_CYCLE" := by
  rcases fault_of_run hr with hf | ⟨n, hn, he⟩
  · exact (cycle_of_script hs hm hf).2
  · -- no head lacks its branch
    have hstaged := hst.allStaged (length_heads_le hs hm) n hn
    rw [enter?_eq_ok_iff.2 hstaged] at he
    cases he

/-- A story without a cycle that does not compile lacks a branch. -/
theorem missing_of_run (ha : c.story.Acyclic) (hr : (c.run s).2 = .error f) :
    f.notice.code = "DIALOG_BRANCH_MISSING" := by
  rcases fault_of_run hr with hf | ⟨n, hn, he⟩
  · exact absurd ha (cycle_of_script hs hm hf).1
  · obtain ⟨a, st, rfl⟩ := enter?_eq_error he
    rfl

variable {out : Compiled} (hr : (c.run s).2 = .ok out)
include hr

theorem length_durations : out.durations.length = cap.branches := by
  obtain ⟨hu, -⟩ := run_ok_iff.1 ⟨out, hr⟩
  rw [(run_of_ok hr).1, ← length_heads_eq hs hm hu]
  exact List.length_map _

/-- **The buttons that are shown** are those that were counted. -/
theorem bounds_of_shows {v : Json} {k : Nat} (hv : v ∈ out.generated (c.run s).1)
    (hk : Action.Shows v k) : 1 ≤ k ∧ k ≤ cap.choices := by
  obtain ⟨p, hp, hpr, h1, h2⟩ := prompt_of_serves hr hv hk.serves
  have hbound := hm.bound p ((surveyed_iff_played hs).2 hp) hpr
  exact ⟨h1, Nat.le_trans h2 hbound⟩

theorem exists_shows_choices (hpos : 0 < cap.choices) :
    ∃ v ∈ out.generated (c.run s).1, Action.Shows v cap.choices := by
  rcases hm.attained with h0 | ⟨p, hp, hpr, hk⟩
  · omega
  · exact exists_shows hr ((surveyed_iff_played hs).1 hp) hpr hpos (Nat.le_of_eq hk.symm)

end Unhidden

/-- **The count of needs and the compilation agree.** -/
theorem agreement (h : ∀ p ∈ c.story.others, p.name ≠ c.story.start.name) (s : Scene) :
    (∀ cap, c.story.capacity? = .ok cap →
      ((∃ out, (c.run s).2 = .ok out) ↔ c.story.Acyclic ∧ Stocked s cap.branches) ∧
      (Stocked s cap.branches → ¬ c.story.Acyclic →
        ∃ f, (c.run s).2 = .error f ∧ f.notice.code = "DIALOG_CHAIN_CYCLE") ∧
      (c.story.Acyclic → ¬ Stocked s cap.branches →
        ∃ f, (c.run s).2 = .error f ∧ f.notice.code = "DIALOG_BRANCH_MISSING") ∧
      ∀ out, (c.run s).2 = .ok out →
        out.durations.length = cap.branches ∧
        (∀ v ∈ out.generated (c.run s).1, ∀ k, Action.Shows v k → 1 ≤ k ∧ k ≤ cap.choices) ∧
        (0 < cap.choices → ∃ v ∈ out.generated (c.run s).1, Action.Shows v cap.choices)) ∧
    ∀ f, c.story.capacity? = .error f → ∃ g, (c.run s).2 = .error g := by
  have hs := find?_start_of_unique h
  refine ⟨fun cap hcap => ?_, fun f hf => not_ok_of_capacity? hf s⟩
  have hm := measured_of_capacity? hcap
  have hiff := run_ok_iff_stocked (s := s) hs hm
  refine ⟨hiff, fun hst ha => ?_, fun ha hst => ?_, fun out hr => ?_⟩
  · cases hr : (c.run s).2 with
    | ok out => exact absurd (hiff.1 ⟨out, hr⟩).1 ha
    | error f => exact ⟨f, rfl, cycle_of_run hs hm hst hr⟩
  · cases hr : (c.run s).2 with
    | ok out => exact absurd (hiff.1 ⟨out, hr⟩).2 hst
    | error f => exact ⟨f, rfl, missing_of_run hs hm ha hr⟩
  · exact ⟨length_durations hs hm hr, fun v hv k hk => bounds_of_shows hs hm hr hv hk,
      exists_shows_choices hs hm hr⟩

/-- The scene with the branches `1` to `n` and nothing else. -/
def bare (n : Nat) : Scene where
  fields := []
  atoms := .ofList <| (List.range n).flatMap fun i =>
    [⟨branchId (i + 1), [], .ofList [⟨patternId, []⟩]⟩,
      ⟨durationId (branchId (i + 1)), [], .ofList [⟨stepId, []⟩]⟩]

/-- A prompt with one choice. -/
def fork : Compiler where
  story :=
    { start := ⟨"a", "", ["Ann", "says", "prompt"], [⟨"b", "b"⟩]⟩
      others := [⟨"b", "", ["delay"], []⟩] }
  template := []
  slots := 1

theorem capacity_fork : fork.story.capacity? = .ok ⟨2, 1⟩ := by
  have ha : fork.story.survey "a" = [.note (.choices 1), .note (.branch "b"), .go "b"] := rfl
  have hb : fork.story.survey "b" = [] := rfl
  have hnames : fork.story.names = ["a", "b"] := rfl
  have hneeds : fork.story.needs = [.branch "a", .choices 1, .branch "b"] := by
    rw [needs, hnames, show fork.story.start.name = "a" from rfl]
    simp [walk, ha, hb]
  rw [capacity?, hneeds]
  rfl

theorem script_fork : fork.story.script = [.enter "a", .enter "b", .write "b", .write "a"] := by
  have ha : fork.story.branch "a" = [.note (.enter "a"), .go "b", .note (.write "a")] := by
    rw [branch_of_opening? rfl, timeline, timelineFrom_of_prompt _ rfl rfl (by decide)]
    rfl
  have hb : fork.story.branch "b" = [.note (.enter "b"), .note (.write "b")] := by
    rw [branch_of_opening? rfl, timeline, timelineFrom_of_exits_nil _ rfl rfl]
  have hnames : fork.story.names = ["a", "b"] := rfl
  rw [script, hnames, show fork.story.start.name = "a" from rfl]
  simp [walk, ha, hb]

theorem heads_fork : fork.story.heads = ["a", "b"] := by
  rw [heads, script_fork]
  rfl

theorem run_fork : (fork.run (bare 2)).2 = .ok (fork.compiled ["a", "b"]) :=
  run_of_script heads_fork script_fork (by cbv)

/-- A scene with two branches plays the prompt and its choice, and shows button 1. -/
theorem agreement_fork : fork.story.capacity? = .ok ⟨2, 1⟩ ∧ fork.story.Acyclic ∧
    ∃ out, (fork.run (bare 2)).2 = .ok out ∧ out.durations.length = 2 ∧
      ∃ v ∈ out.generated (fork.run (bare 2)).1, Action.Shows v 1 := by
  obtain ⟨hiff, -, -, hout⟩ := (agreement (c := fork) (by decide) (bare 2)).1 _ capacity_fork
  obtain ⟨hlen, -, hshow⟩ := hout _ run_fork
  exact ⟨capacity_fork, (hiff.1 ⟨_, run_fork⟩).1, _, run_fork, hlen, hshow (by decide)⟩

end Compiler

end Stagecraft
