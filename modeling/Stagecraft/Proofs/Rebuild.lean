import Stagecraft.Proofs.Reread
import Stagecraft.Proofs.Session

/-!
# Compiling a story again

A compilation leaves every branch that it wrote settled, and whether a step meets a fault
does not depend on what was written. So a second compilation comes to the same result
and leaves the scene as it is, whether the first one succeeded or not.

* `Compiler.run_eq_of_settled`: a compilation that finds its branches settled.
* `Compiler.settled_run`: what a compilation leaves behind.
* `Compiler.run_run`, `Compiler.rebuild`: **compiling twice** is compiling once.
-/

namespace Stagecraft

variable {c : Compiler} {s s' : Scene} {heads : List String} {n : String}

namespace Scene

theorem alike_reread (s : Scene) : s.Alike s.reread := by
  intro a st
  rw [storable?_reread, Option.isSome_map]

end Scene

namespace Compiler

/-- **A compilation leaves its branches settled.** -/
theorem settled_run (hn : n ∈ c.writes s) : Settled c c.story.heads (c.run s).1 n := by
  rw [run_fst]
  exact settled_foldl (fun _ => mem_heads_of_writes) hn

/-- **A compilation that finds its branches settled** changes nothing. -/
theorem run_eq_of_settled (h : ∀ n ∈ c.writes s, Settled c c.story.heads s n) :
    c.run s = (s, (c.run s).2) := by
  refine Prod.ext ?_ rfl
  rw [run_fst]
  exact foldl_eq_self h

/-- What a scene reads back as is settled where the scene is. -/
theorem Settled.reread (h : Settled c heads s n) : Settled c heads s.reread n := by
  -- what is listed was read before it is asked for
  have hl : listed s.reread (branchOf heads n) = listed s (branchOf heads n) := by
    unfold listed
    rw [Scene.storable?_reread]
    cases s.storable? (branchOf heads n) patternId with
    | none => rfl
    | some t =>
      rw [Option.map_some, Option.bind_some, Option.bind_some,
        Storable.field?_reread (by decide)]
  constructor
  · intro t ht
    rw [Scene.storable?_reread] at ht
    obtain ⟨t₀, ht₀, rfl⟩ := Option.map_eq_some_iff.1 ht
    rw [hl, Storable.field?_reread (by decide)]
    exact h.triggers t₀ ht₀
  · intro t ht
    rw [Scene.storable?_reread] at ht
    obtain ⟨t₀, ht₀, rfl⟩ := Option.map_eq_some_iff.1 ht
    rw [Storable.field?_reread (by decide)]
    exact h.length t₀ ht₀

/-- A scene like the one that a compilation left, with the same branches settled, is compiled
to the same result and stays. -/
theorem run_of_alike (ha : s.Alike s')
    (h : ∀ n ∈ c.writes s, Settled c c.story.heads s' n) : c.run s' = (s', (c.run s).2) := by
  rw [← run_snd_congr (c := c) ha]
  apply run_eq_of_settled
  rwa [writes_congr ha]

/-- A second run has the same result and leaves the scene as it is. -/
theorem run_run (c : Compiler) (s : Scene) : c.run (c.run s).1 = c.run s :=
  run_of_alike (alike_run c s) fun _ => settled_run

/-- So does a run on the scene that is read back from the document. -/
theorem run_reread (c : Compiler) (s : Scene) :
    c.run (c.run s).1.reread = ((c.run s).1.reread, (c.run s).2) :=
  run_of_alike ((alike_run c s).trans (Scene.alike_reread _)) fun _ hn => (settled_run hn).reread

/-- **Compiling twice is compiling once**, in success and in failure, whatever the compiler
remembers at each time: the second compilation has the same result and leaves the scene as it
is. So does one of the scene that is read back from the document. -/
theorem rebuild (c : Compiler) (m m' : Memo) (s : Scene) :
    (c.build m' (c.build m s).scene).result = (c.build m s).result ∧
      (c.build m' (c.build m s).scene).scene = (c.build m s).scene ∧
      ∃ s', Scene.ofJson? (c.build m s).scene.toJson = .ok s' ∧
        (c.build m' s').result = (c.build m s).result ∧
        (c.build m' s').scene.toJson = (c.build m s).scene.toJson := by
  obtain ⟨hscene, hresult⟩ := build_eq c m s
  rw [hscene, hresult, (build_eq c m' _).1, (build_eq c m' _).2, run_run]
  refine ⟨rfl, rfl, _, Scene.ofJson?_toJson _, ?_⟩
  rw [(build_eq c m' _).1, (build_eq c m' _).2, run_reread]
  exact ⟨rfl, Scene.toJson_reread _⟩

end Compiler

end Stagecraft
