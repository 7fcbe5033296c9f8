import Stagecraft.Proofs.Fields
import Stagecraft.Proofs.Heads
import Stagecraft.Proofs.Ids

/-!
# What a performance does to a scene

Writing a branch down changes what stands in storables, never which storables there
are. So whether a step meets a fault is known before the first step, and a
performance is the branches that are written down before the first fault.

* `Compiler.perform_eq`: a performance as its written branches and its first fault.
* `Compiler.Staged`: the scene has the atoms of a branch.
* `Compiler.run_ok_iff`: **a story compiles** if its script has no fault and each of
  its branches is staged; `Compiler.run_of_ok`, `Compiler.fault_of_run` say what it
  compiles to and why it fails.
-/

namespace Stagecraft

open Stage

/-- Both scenes have the same storables, whatever stands in them. -/
def Scene.Alike (s s' : Scene) : Prop :=
  ∀ a st, (s'.storable? a st).isSome = (s.storable? a st).isSome

theorem Scene.Alike.trans {s s' s'' : Scene} (h : s.Alike s') (h' : s'.Alike s'') : s.Alike s'' :=
  fun a st => (h' a st).trans (h a st)

namespace Compiler

variable {c : Compiler} {s s' : Scene} {heads : List String} {n : String} {f : Fault}

/-! ## The faults of single steps -/

/-- The scene has the atoms of a branch, with its triggers and its length. -/
def Staged (s : Scene) (branch : String) : Prop :=
  (s.storable? branch patternId).isSome ∧ (s.storable? (durationId branch) stepId).isSome

theorem staged_congr {branch : String} (h : s.Alike s') : Staged s' branch ↔ Staged s branch := by
  unfold Staged
  rw [h, h]

theorem require?_eq_ok_iff {a st : String} :
    require? s a st = .ok () ↔ (s.storable? a st).isSome := by
  unfold require?
  split <;> simp_all

theorem enter?_eq_ok_iff {branch : String} : enter? s branch = .ok () ↔ Staged s branch := by
  unfold enter? Staged
  rw [← require?_eq_ok_iff, ← require?_eq_ok_iff]
  cases require? s (durationId branch) stepId <;> simp

/-- A branch that is not staged is missing. -/
theorem enter?_eq_error {branch : String} (h : enter? s branch = .error f) :
    ∃ a st, f = .branchMissing a st := by
  have missing : ∀ {a st}, require? s a st = .error f → ∃ a st, f = .branchMissing a st := by
    intro a st h
    unfold require? at h
    split at h
    · cases h
    · cases h; exact ⟨a, st, rfl⟩
  unfold enter? at h
  split at h
  · exact missing h
  · rename_i g hg
    cases h; exact missing hg

/-- The fault that a step meets in a scene. -/
def fault? (heads : List String) (s : Scene) : Step → Option Fault
  | .enter name => match enter? s (branchOf heads name) with
    | .ok () => none
    | .error f => some f
  | .write _ => none
  | .fails f => some f

theorem fault?_congr (h : s.Alike s') : fault? heads s' = fault? heads s := by
  have hreq : ∀ a st, require? s' a st = require? s a st := fun a st => by
    unfold require?; rw [h]
  funext o
  cases o with
  | enter name => simp only [fault?, enter?, hreq]
  | write name => rfl
  | fails f => rfl

theorem fault?_enter_eq_none_iff :
    fault? heads s (.enter n) = none ↔ Staged s (branchOf heads n) := by
  rw [← enter?_eq_ok_iff]
  simp only [fault?]
  cases enter? s (branchOf heads n) <;> simp

theorem fault?_enter_eq_some_iff :
    fault? heads s (.enter n) = some f ↔ enter? s (branchOf heads n) = .error f := by
  simp only [fault?]
  cases enter? s (branchOf heads n) <;> simp

/-! ## The written branches -/

theorem alike_write (c : Compiler) (heads : List String) (s : Scene) (n : String) :
    s.Alike (c.write heads s n) := by
  intro a st
  unfold write
  rw [Scene.isSome_storable?_setStorableField, Scene.isSome_storable?_setStorableField]

theorem alike_foldl (ns : List String) (s : Scene) : s.Alike (ns.foldl (c.write heads) s) := by
  induction ns generalizing s with
  | nil => exact fun _ _ => rfl
  | cons n ns ih => exact (alike_write c heads s n).trans (ih _)

/-- The branches that are written down before the first fault. -/
def written (heads : List String) (s : Scene) : List Step → List String
  | [] => []
  | .write name :: steps => name :: written heads s steps
  | o :: steps => if fault? heads s o = none then written heads s steps else []

theorem written_congr (h : s.Alike s') (steps : List Step) :
    written heads s' steps = written heads s steps := by
  fun_induction written heads s steps with
  | case1 => rfl
  | case2 _ _ ih => rw [written, ih]
  | case3 o steps hw ho ih =>
    rw [written, if_pos (by rw [fault?_congr h, ho]), ih]
    exact hw
  | case4 o steps hw ho =>
    rw [written, if_neg (by rwa [fault?_congr h])]
    exact hw

/-- Only what the steps write is written. -/
theorem write_mem_of_mem_written {steps : List Step} (h : n ∈ written heads s steps) :
    .write n ∈ steps := by
  fun_induction written heads s steps with
  | case1 => cases h
  | case2 m steps ih =>
    rcases List.mem_cons.1 h with rfl | h
    · exact List.mem_cons_self
    · exact List.mem_cons_of_mem _ (ih h)
  | case3 _ _ _ _ ih => exact List.mem_cons_of_mem _ (ih h)
  | case4 => cases h

/-- Without a fault all that the steps write is written. -/
theorem mem_written {steps : List Step} (hf : ∀ o ∈ steps, fault? heads s o = none)
    (h : .write n ∈ steps) : n ∈ written heads s steps := by
  fun_induction written heads s steps with
  | case1 => cases h
  | case2 m steps ih =>
    rcases List.mem_cons.1 h with h | h
    · cases h; exact List.mem_cons_self
    · exact List.mem_cons_of_mem _ (ih (fun o ho => hf o (List.mem_cons_of_mem _ ho)) h)
  | case3 o steps hw _ ih =>
    rcases List.mem_cons.1 h with rfl | h
    · exact absurd rfl (hw n)
    · exact ih (fun o ho => hf o (List.mem_cons_of_mem _ ho)) h
  | case4 o steps _ ho => exact absurd (hf o List.mem_cons_self) ho

/-- A step that writes nothing ends the writing if it meets a fault. -/
theorem written_cons_of_ne {o : Step} {steps : List Step} (ho : ∀ m, o ≠ .write m) :
    written heads s (o :: steps) =
      if fault? heads s o = none then written heads s steps else [] := by
  rw [written]
  exact fun m hm => ho m hm

/-- What is written behind all other steps is only written if none of them meets a fault. -/
theorem fault?_eq_none_of_written {steps : List Step} (hs : .write n ∉ steps)
    (h : n ∈ written heads s (steps ++ [.write n])) : ∀ o ∈ steps, fault? heads s o = none := by
  induction steps with
  | nil => exact fun _ ho => nomatch ho
  | cons o steps ih =>
    obtain ⟨hne, hrest⟩ := not_or.1 (mt List.mem_cons.2 hs)
    have hcase : fault? heads s o = none ∧ n ∈ written heads s (steps ++ [.write n]) := by
      -- a step that writes does not fail, and any other one is passed only without a fault
      by_cases ho : ∃ m, o = .write m
      · obtain ⟨m, rfl⟩ := ho
        have hnm : n ≠ m := fun e => hne (e ▸ rfl)
        rw [List.cons_append, written] at h
        exact ⟨rfl, List.mem_of_ne_of_mem hnm h⟩
      · rw [List.cons_append, written_cons_of_ne (not_exists.1 ho)] at h
        split at h
        · rename_i hf
          exact ⟨hf, h⟩
        · cases h
    intro o' ho'
    rcases List.mem_cons.1 ho' with rfl | ho'
    · exact hcase.1
    · exact ih hrest hcase.2 o' ho'

/-- **A performance** writes branches down until its first fault. -/
theorem perform_eq (c : Compiler) (heads : List String) (s : Scene) (steps : List Step) :
    c.perform heads s steps = ((written heads s steps).foldl (c.write heads) s,
      match steps.findSome? (fault? heads s) with
      | none => .ok ()
      | some f => .error f) := by
  fun_induction perform c heads s steps with
  | case1 => rfl
  | case2 s name steps h ih =>
    have hf : fault? heads s (.enter name) = none := by simp [fault?, h]
    rw [ih, List.findSome?_cons, hf, written, if_pos hf]
    exact fun _ h => nomatch h
  | case3 s name steps f h =>
    have hf : fault? heads s (.enter name) = some f := by simp [fault?, h]
    rw [List.findSome?_cons, hf, written, if_neg (by simp [hf])]
    · rfl
    · exact fun _ h => nomatch h
  | case4 s name steps ih =>
    -- the write changes no storable that a later step asks for
    rw [ih, fault?_congr (alike_write c heads s name), written_congr (alike_write c heads s name)]
    rfl
  | case5 s f steps =>
    rw [written, if_neg (by simp [fault?])]
    · rfl
    · exact fun _ h => nomatch h

/-! ## The compilation of a story -/

/-- The branches that a compilation writes down. -/
def writes (c : Compiler) (s : Scene) : List String := written c.story.heads s c.story.script

theorem run_fst (c : Compiler) (s : Scene) :
    (c.run s).1 = (c.writes s).foldl (c.write c.story.heads) s := by
  simp only [run, perform_eq, writes]

theorem alike_run (c : Compiler) (s : Scene) : s.Alike (c.run s).1 := by
  rw [run_fst]
  exact alike_foldl _ _

theorem run_snd (c : Compiler) (s : Scene) :
    (c.run s).2 = match c.story.script.findSome? (fault? c.story.heads s) with
      | none => .ok (c.compiled c.story.heads)
      | some f => .error f := by
  simp only [run, perform_eq]
  cases c.story.script.findSome? (fault? c.story.heads s) <;> rfl

/-- A script in which no step meets a fault compiles to its heads. -/
theorem run_of_script {heads : List String} {steps : List Step} (hh : c.story.heads = heads)
    (hs : c.story.script = steps) (hf : steps.findSome? (fault? heads s) = none) :
    (c.run s).2 = .ok (c.compiled heads) := by
  rw [run_snd, hh, hs, hf]

open Story

variable {out : Compiled}

theorem mem_heads_of_writes (h : n ∈ c.writes s) : n ∈ c.story.heads :=
  mem_heads_of_write (write_mem_of_mem_written h)

/-- Every branch of the story is staged. -/
def AllStaged (c : Compiler) (s : Scene) : Prop :=
  ∀ n ∈ c.story.heads, Staged s (branchOf c.story.heads n)

theorem fault?_eq_none (hu : c.story.Unbroken) (hs : c.AllStaged s) {o : Step}
    (ho : o ∈ c.story.script) : fault? c.story.heads s o = none := by
  cases o with
  | enter n => exact fault?_enter_eq_none_iff.2 (hs n (mem_heads_of_enter ho))
  | write n => rfl
  | fails f => exact absurd ho (hu f)

/-- **A story compiles** if its script has no fault and all of its branches are staged. -/
theorem run_ok_iff :
    (∃ out, (c.run s).2 = .ok out) ↔ c.story.Unbroken ∧ c.AllStaged s := by
  rw [run_snd]
  constructor
  · rintro ⟨out, h⟩
    split at h
    · rename_i hnone
      rw [List.findSome?_eq_none_iff] at hnone
      refine ⟨fun f hf => ?_, fun n hn => ?_⟩
      · cases hnone _ hf
      · exact fault?_enter_eq_none_iff.1 (hnone _ (enter_mem_script hn))
    · cases h
  · rintro ⟨hu, hs⟩
    have hnone : c.story.script.findSome? (fault? c.story.heads s) = none :=
      List.findSome?_eq_none_iff.2 fun o ho => fault?_eq_none hu hs ho
    rw [hnone]; exact ⟨_, rfl⟩

/-- What a story compiles to, and what was written for it. -/
theorem run_of_ok (h : (c.run s).2 = .ok out) :
    out = c.compiled c.story.heads ∧ ∀ n, n ∈ c.writes s ↔ n ∈ c.story.heads := by
  obtain ⟨hu, hs⟩ := run_ok_iff.1 ⟨out, h⟩
  refine ⟨?_, fun n => ⟨mem_heads_of_writes, fun hn => ?_⟩⟩
  · rw [run_snd] at h
    split at h
    · cases h; rfl
    · cases h
  · exact mem_written (fun o ho => fault?_eq_none hu hs ho) (hu.write_mem_script hn)

/-- **A story that does not compile** has a fault in its script, or lacks a branch. -/
theorem fault_of_run (h : (c.run s).2 = .error f) :
    .fails f ∈ c.story.script ∨
      ∃ n ∈ c.story.heads, enter? s (branchOf c.story.heads n) = .error f := by
  rw [run_snd] at h
  split at h
  · cases h
  · rename_i g hg
    cases h
    obtain ⟨o, ho, hf⟩ := List.exists_of_findSome?_eq_some hg
    cases o with
    | enter n => exact .inr ⟨n, mem_heads_of_enter ho, fault?_enter_eq_some_iff.1 hf⟩
    | write n => cases hf
    | fails f => cases hf; exact .inl ho

/-- Whether a story compiles depends on the storables that a scene has, not on what stands
in them. -/
theorem run_snd_congr (h : s.Alike s') : (c.run s').2 = (c.run s).2 := by
  rw [run_snd, run_snd, fault?_congr h]

theorem writes_congr (h : s.Alike s') : c.writes s' = c.writes s := written_congr h _

end Compiler

end Stagecraft
