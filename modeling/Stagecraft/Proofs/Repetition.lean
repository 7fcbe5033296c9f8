import Stagecraft.Proofs.Absent

/-!
# Scaffolding again

A scaffold first clears the build directory. What it adds afterwards goes inside it, so clearing
it a second time brings back the tree that the first run has built on, and the second run goes
the same way. This holds as well if the first one was refused half-way.

* `Project.Sited`, `Project.Straight.sited`: a build directory with its place outside itself.
* `Project.rebuilt_refused`: nothing is built where the build path cannot be followed.
* `Project.grown_inside`: all that is built goes inside the build directory.
* `Project.cleared_rebuilt`, `Project.clear_scaffold`: **clearing forgets** what a run has built.
* `Project.scaffold_scaffold`: **a scaffold is repeatable**.
-/

namespace Stagecraft

open FileTree (Grown after)

namespace Project

variable {p : Project} {t u v : FileTree} {q : Place} {path : String}

/-- **The directories in which the build path is looked up are there**, and none of them lies in
the build directory itself. -/
structure Sited (p : Project) (t : FileTree) : Prop where
  there : ∀ x ∈ p.build.ways t.cwd, t.entry? x = some .dir
  outside : ∀ x ∈ p.build.ways t.cwd, ¬p.home t.cwd <+: x

instance (p : Project) (t : FileTree) : Decidable (p.Sited t) :=
  decidable_of_iff ((∀ x ∈ p.build.ways t.cwd, t.entry? x = some .dir) ∧
      ∀ x ∈ p.build.ways t.cwd, ¬p.home t.cwd <+: x)
    ⟨fun ⟨h1, h2⟩ => ⟨h1, h2⟩, fun h => ⟨h.there, h.outside⟩⟩

/-- A path that leads down leads away from all the directories in which it is looked up. -/
theorem Straight.sited (h : p.Straight) (hp : p.InPlace)
    (hways : ∀ x ∈ p.build.ways t.cwd, t.entry? x = some .dir) : p.Sited t := by
  refine ⟨hways, fun x hx hpre => ?_⟩
  obtain ⟨dir, last, hs, hb⟩ := hp.beside
  have hdown : ".." ∉ dir := by
    intro hup
    apply h.down
    rw [hs]
    exact List.mem_append_left _ hup
  rw [hb, Path.ways, FileTree.ways_append_singleton] at hx
  have hlen := (hpre.trans (FileTree.prefix_goal_of_mem_trail hdown hx)).length_le
  rw [home, hb, Path.place, FileTree.goal_append_singleton, enter_buildName, List.length_append,
    List.length_singleton] at hlen
  omega

/-- Clearing leaves a build directory its place. -/
theorem Sited.cleared (h : p.Sited t) (hclear : p.cleared t = .ok () u) : p.Sited u := by
  rcases cleared_eq_ok hclear with ⟨-, -, rfl⟩ | ⟨-, rfl⟩
  · refine ⟨fun x hx => ?_, h.outside⟩
    rw [FileTree.entry?_clear_outside (h.outside x hx)]
    exact h.there x hx
  · exact h

theorem cleared_of_dir (hr : t.resolve p.build = .ok (p.home t.cwd))
    (hdir : t.entry? (p.home t.cwd) = some .dir) :
    p.cleared t = .ok () (t.clear (p.home t.cwd)) := by
  have hexists : t.exists? p.build = true := by
    rw [FileTree.exists?, FileTree.stat_eq_ok_iff.2 ⟨hr, hdir⟩]
    rfl
  have hremove : FileTree.removeDir p.build t = .ok () (t.clear (p.home t.cwd)) :=
    FileTree.removeDir_eq_ok_iff.2 ⟨hr, hdir, rfl⟩
  unfold cleared
  rw [Work.get_bind, if_pos hexists, FileM.orFault, hremove]

/-! ## Build paths that are refused -/

/-- Nothing is saved where the build path cannot be followed. -/
theorem save_refused (hp : p.InPlace) {f : FileFault} (hr : u.resolve p.build = .error f)
    (hf : f ≠ .missing) {ss : SceneSet}
    (hrel : ∀ e ∈ ss, (Path.ofString e.1).isAbsolute = false) : after (p.save ss u) = u := by
  cases ss with
  | nil => rfl
  | cons e ss =>
    obtain ⟨dir, last, -, hb⟩ := hp.beside
    obtain ⟨rest, hparent⟩ := hp.parent_child hb (hrel e List.mem_cons_self)
    rw [hb] at hr
    obtain ⟨f', hf', hrefused⟩ := FileTree.resolve_append hr hf rest
    have hmake := FileTree.makeDirs_refused hrefused hf'
    rw [← hparent] at hmake
    rw [save_cons, Work.bind_eq_error (by rw [FileM.orFault, hmake])]
    rfl

/-- Nothing is copied there. -/
theorem copied_refused (hp : p.InPlace) {f : FileFault} (hr : u.resolve p.build = .error f)
    (hf : f ≠ .missing) : after (p.copied u) = u := by
  rw [copied_eq]
  split
  · rfl
  · obtain ⟨f', hf', hrefused⟩ := FileTree.resolve_append hr hf [""]
    have hmake := FileTree.makeDirs_refused hrefused hf'
    rw [← hp.join_build (q := ⟨[""]⟩) (Path.relative_single "")] at hmake
    rw [Work.bind_eq_error (by rw [copyOne, FileM.orFault, hmake])]
    rfl

/-- Nor are the scenes that are assembled saved. -/
theorem remade_refused (hp : p.InPlace) {f : FileFault} (hr : u.resolve p.build = .error f)
    (hf : f ≠ .missing) (hin : ∀ path ∈ p.scenePaths u, (Path.ofString path).Inward) :
    after (p.remade u) = u := by
  unfold remade
  rw [Work.get_bind]
  cases hassemble : p.assemble? u with
  | error f => rfl
  | ok made =>
    obtain ⟨ss, report⟩ := made
    refine Work.after_bind (save_refused hp hr hf fun e he => ?_) fun _ => rfl
    have hplanned : e.1 ∈ (p.planned u).map (·.1) :=
      (paths_of_assemble? hassemble).1 ▸ List.mem_map_of_mem he
    rcases mem_planned_iff.1 hplanned with h | h
    · exact (hin _ (List.mem_append_left _ h)).relative
    · -- no scene is found in a directory that cannot be reached
      obtain ⟨entries, hlist, -⟩ := mem_sceneNames.1 (mem_existing.1 h)
      rw [(FileTree.listBelow_eq_ok_iff.1 hlist).1] at hr
      cases hr

/-- **Nothing is built where the build path cannot be followed** for another reason than that
something is missing on the way. -/
theorem rebuilt_refused (hp : p.InPlace) {f : FileFault} (hr : u.resolve p.build = .error f)
    (hf : f ≠ .missing) (hin : ∀ path ∈ p.scenePaths u, (Path.ofString path).Inward) :
    after (p.rebuilt u) = u :=
  Work.after_bind (copied_refused hp hr hf) fun _ => remade_refused hp hr hf hin

/-! ## Clearing again -/

/-- All directories on the way are there, so **what is built goes inside the build directory**. -/
theorem grown_inside (hp : p.InPlace) (hu : u.WellFormed) (hfresh : p.Fresh u) (hsite : p.Sited u)
    (hin : ∀ path ∈ p.scenePaths u, (Path.ofString path).Inward) :
    Grown (fun q e => p.home u.cwd <+: q ∧ (q = p.home u.cwd → e = .dir)) u (after (p.rebuilt u)) := by
  refine (grown_rebuilt hp hu hfresh fun path hpath =>
    stays_of_inward (hin path hpath) p u.cwd).refine fun q e hw => ?_
  cases hw with
  | way hway =>
    by_cases hq : q = p.home u.cwd
    · exact .inl ⟨hq ▸ List.prefix_refl _, fun _ => rfl⟩
    · exact .inr ⟨rfl, hp.dir_of_way hu hsite.there hway hq⟩
  | inside hpre hne => exact .inl ⟨hpre, fun hq => absurd hq hne⟩

/-- A tree that grew inside the build directory, where nothing was, is cleared of all that. -/
theorem cleared_of_grown (hu : u.WellFormed) (hr : u.resolve p.build = .ok (p.home u.cwd))
    (hnone : u.entry? (p.home u.cwd) = none)
    (hgrown : Grown (fun q e => p.home u.cwd <+: q ∧ (q = p.home u.cwd → e = .dir)) u v) :
    p.cleared v = .ok () u := by
  have hback : v.clear (p.home u.cwd) = u := by
    rw [hgrown.clear_eq fun q e h => h.1, hu.clear_of_none hnone]
  have hr' : v.resolve p.build = .ok (p.home u.cwd) := hgrown.resolve_eq_ok hr
  rcases hgrown.entry?_cases (p.home u.cwd) with hsame | ⟨e, he, hw, -⟩
  · -- nothing was built, so there is nothing to clear
    rw [hnone, ← hgrown.cwd_eq] at hsame
    rw [← hgrown.cwd_eq] at hr' hback
    have hexists : v.exists? p.build = false := by
      have hstat : v.stat p.build = .error .missing := by
        simp only [FileTree.stat, hr', hsame]
      rw [FileTree.exists?, hstat]
      rfl
    rw [cleared_of_not_exists hexists, ← hback, (hgrown.wellFormed hu).clear_of_none hsame]
  · -- what was built there is a directory, with all else below it
    rw [hw.2 rfl, ← hgrown.cwd_eq] at he
    rw [← hgrown.cwd_eq] at hr' hback
    rw [cleared_of_dir hr' he, hback]

/-- **Clearing forgets what was built** since the last time, whatever became of it. -/
theorem cleared_rebuilt (hp : p.InPlace) (ht : t.WellFormed) (hsite : p.Sited t)
    (hin : ∀ path ∈ p.scenePaths t, (Path.ofString path).Inward) (hclear : p.cleared t = .ok () u) :
    p.cleared (after (p.rebuilt u)) = .ok () u := by
  obtain ⟨hfresh, hu, hcwd⟩ := fresh_of_cleared hp ht hclear
  have hsited := hsite.cleared hclear
  have hinward : ∀ path ∈ p.scenePaths u, (Path.ofString path).Inward := fun path hpath =>
    hin path (mem_scenePaths_of_cleared hclear hpath)
  rcases hp.resolve_build hsited.there with hr | ⟨f, hf, hr⟩
  · have hnone : u.entry? (p.home u.cwd) = none := hfresh hr _ (List.prefix_refl _)
    exact cleared_of_grown hu hr hnone (grown_inside hp hu hfresh hsited hinward)
  · rw [rebuilt_refused hp hr hf hinward]
    exact cleared_of_not_exists (FileTree.exists?_of_resolve_error hr)

/-- **What a scaffold leaves** outside the build directory is what was there. -/
theorem clear_scaffold (hp : p.InPlace) (ht : t.WellFormed) (hsite : p.Sited t)
    (hin : ∀ path ∈ p.scenePaths t, (Path.ofString path).Inward) :
    (after (p.scaffold t)).clear (p.home t.cwd) = t.clear (p.home t.cwd) ∧
      (after (p.scaffold t)).cwd = t.cwd ∧ (after (p.scaffold t)).WellFormed := by
  cases hclear : p.cleared t with
  | error f u =>
    rw [scaffold_of_not_cleared hclear]
    exact ⟨rfl, rfl, ht⟩
  | ok _ u =>
    obtain ⟨hfresh, hu, hcwd⟩ := fresh_of_cleared hp ht hclear
    have hgrown := grown_inside hp hu hfresh (hsite.cleared hclear) fun path hpath =>
      hin path (mem_scenePaths_of_cleared hclear hpath)
    rw [scaffold_of_cleared hclear, ← hcwd, hgrown.clear_eq fun q e h => h.1]
    refine ⟨?_, hgrown.cwd_eq, hgrown.wellFormed hu⟩
    rcases cleared_eq_ok hclear with ⟨-, -, rfl⟩ | ⟨-, rfl⟩
    · exact FileTree.clear_clear t _
    · rfl

/-- Where the directories are there in which the build path is looked up, a second run has the
outcome of the first one and leaves the tree that this one left. -/
theorem Sited.scaffold_again (hsite : p.Sited t) (hp : p.InPlace) (ht : t.WellFormed)
    (hin : ∀ path ∈ p.scenePaths t, (Path.ofString path).Inward) :
    p.scaffold (after (p.scaffold t)) = p.scaffold t := by
  cases hclear : p.cleared t with
  | error f u =>
    rw [scaffold_of_not_cleared hclear]
    exact scaffold_of_not_cleared hclear
  | ok _ u =>
    have hagain := cleared_rebuilt hp ht hsite hin hclear
    rw [scaffold_of_cleared hclear, scaffold_of_cleared hagain]

/-- **A scaffold is repeatable.** If the scene paths lead down from the build directory, a second run
has the outcome of the first one and leaves the tree that this one left, whether it was built up or
refused half-way. Directories may be missing on the way to the build directory if its path leads
down only. -/
theorem scaffold_scaffold {t₀ : FileTree} {dirs : BuildDirs} {name : String}
    (hopen : open? t₀ dirs name = .ok p) (ht : t.WellFormed) (hsite : p.Sited t ∨ p.Straight)
    (hin : ∀ path ∈ p.scenePaths t, (Path.ofString path).Inward) :
    p.scaffold (after (p.scaffold t)) = p.scaffold t := by
  have hp := inPlace_of_open? hopen
  rcases hsite with hsite | hstraight
  · exact hsite.scaffold_again hp ht hin
  · cases hr : t.resolve p.build with
    | ok q =>
      obtain ⟨-, -, -, -, hways, -⟩ := FileTree.resolve_eq_ok_iff.1 hr
      exact (hstraight.sited hp hways).scaffold_again hp ht hin
    | error f =>
      by_cases hf : f = .missing
      · rw [hf] at hr
        rcases scaffold_of_missing hp hstraight hr ht fun path hpath => (hin path hpath).relative with
          hagain | ⟨u, hu, hways, hpaths, hsame⟩
        · exact hagain
        · -- the first run is one on the tree with the directories that it made
          rw [← hpaths] at hin
          rw [← hsame]
          exact (hstraight.sited hp hways).scaffold_again hp hu hin
      · have hexists := FileTree.exists?_of_resolve_error hr
        have hrebuilt := scaffold_of_cleared (cleared_of_not_exists hexists)
        have hsame : after (p.scaffold t) = t := by
          rw [hrebuilt, rebuilt_refused hp hr hf hin]
        rw [hsame]

/-- Both scenes of the project are built again. -/
theorem scaffold_scaffold_yard : yard.WellFormed ∧ yardProject.Sited yard ∧
    (∀ path ∈ yardProject.scenePaths yard, (Path.ofString path).Inward) ∧
    yardProject.scaffold (after (yardProject.scaffold yard)) = yardProject.scaffold yard := by
  have hwf : yard.WellFormed := by decide
  have hsite : yardProject.Sited yard := by decide
  have hin : ∀ path ∈ yardProject.scenePaths yard, (Path.ofString path).Inward := by
    rw [scenePaths_yard]
    decide
  exact ⟨hwf, hsite, hin, scaffold_scaffold open?_yard hwf (.inl hsite) hin⟩

end Project

end Stagecraft
