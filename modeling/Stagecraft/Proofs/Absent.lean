import Stagecraft.Proofs.Confinement
import Stagecraft.Proofs.Making

/-!
# Where the directory of the scenes is not there yet

If nothing stands where the build directory goes and on the way to it, nothing is copied, and the
first scene that is saved makes the directories on the way. A second scaffold finds these, and
nothing else that is new outside the build directory, so it reads what the first one read and
makes the rest.

* `Keeps.assemble?`: **what was assembled is assembled again** where directories were added.
* `Project.Absent`, `Project.Absent.scaffold_congr`: where neither the source directory nor the
  build directory is there.
* `Project.Straight`, `Project.absent_of_missing`: a source path that leads down to a name.
* `Project.scaffold_of_missing`: **where something is missing on the way** a scaffold goes as if it
  had been there, or it is refused again as it was.
-/

namespace Stagecraft

open FileTree (Grown after)

/-! ## Reading where directories were added -/

section Reading

variable {t u : FileTree} {W : Place → Entry → Prop} (h : Grown W t u)
  (hW : ∀ q e, W q e → e = .dir)

include h hW

/-- A file is read as before. -/
theorem FileTree.Grown.readText_of_dirs {p : Path} (hp : t.isFile p = true) :
    u.isFile p = true ∧ u.readText p = t.readText p := by
  have hsame : u.stat p = t.stat p := by
    cases hs : t.stat p with
    | error f =>
      rw [FileTree.isFile, hs] at hp
      cases hp
    | ok e => exact h.stat_of_dirs hW hs
  constructor
  · rwa [FileTree.isFile, hsame]
  · rw [FileTree.readText, FileTree.readText, hsame]

theorem Keeps.load? (s : TemplateStore) (name : String) (values : Placeholders) :
    Keeps (s.load? t name values) (s.load? u name values) := by
  intro v hv
  unfold TemplateStore.load? TemplateStore.read? at hv ⊢
  simp only at hv ⊢
  cases hfile : t.isFile (s.pathOf name) with
  | false =>
    rw [hfile] at hv
    cases hv
  | true =>
    obtain ⟨hfile', hread⟩ := h.readText_of_dirs hW hfile
    rw [hfile] at hv
    rwa [hfile', hread]

theorem Keeps.story (path : Path) : Keeps (Story.load? t path) (Story.load? u path) := by
  intro s hs
  unfold Story.load? at hs ⊢
  cases hfile : t.isFile path with
  | false =>
    rw [hfile] at hs
    cases hs
  | true =>
    obtain ⟨hfile', hread⟩ := h.readText_of_dirs hW hfile
    rw [hfile] at hs
    rwa [hfile', hread]

theorem Keeps.instantiate? (s : TemplateStore) (name : String) (values : Placeholders) :
    Keeps (s.instantiate? t name values) (s.instantiate? u name values) := by
  intro as has
  unfold TemplateStore.instantiate? at has ⊢
  cases hv : s.load? t name values with
  | error f =>
    rw [hv] at has
    cases has
  | ok v =>
    rw [hv] at has
    rwa [Keeps.load? h hW s name values v hv]

omit h hW in
theorem Keeps.gather {make make' : Nat → Except Fault (List Atom)}
    (hmake : ∀ i, Keeps (make i) (make' i)) (i n : Nat) :
    Keeps (TemplateStore.gather make i n) (TemplateStore.gather make' i n) := by
  induction n generalizing i with
  | zero => exact Keeps.refl _
  | succ n ih =>
    intro bs hbs
    unfold TemplateStore.gather at hbs ⊢
    cases has : make i with
    | error f =>
      rw [has] at hbs
      cases hbs
    | ok as =>
      rw [has] at hbs
      rw [hmake i as has]
      exact (ih (i + 1)).map _ bs hbs

theorem Keeps.packageAtoms? (p : Project) : Keeps (p.packageAtoms? t) (p.packageAtoms? u) := by
  unfold Project.packageAtoms?
  refine (Keeps.instantiate? h hW _ _ _).bind fun common => Keeps.foldlM (fun ⟨name, count⟩ _ r => ?_) _
  refine Keeps.map (Keeps.gather (fun i => ?_) 1 count) _
  exact Keeps.instantiate? h hW _ _ _

theorem Keeps.pool? (s : TemplateStore) (c : Capacity) :
    Keeps (Stage.pool? s t c) (Stage.pool? s u c) := by
  have hrest : ∀ roots : List Atom, Keeps
      (do
        let branches ← TemplateStore.gather (Stage.branchAtoms? s t) 1 c.branches
        let buttons ← TemplateStore.gather (Stage.buttonAtoms? s t) 1 c.choices
        .ok (roots ++ branches ++ buttons))
      (do
        let branches ← TemplateStore.gather (Stage.branchAtoms? s u) 1 c.branches
        let buttons ← TemplateStore.gather (Stage.buttonAtoms? s u) 1 c.choices
        .ok (roots ++ branches ++ buttons)) := by
    intro roots
    refine (Keeps.gather (fun i => Keeps.instantiate? h hW _ _ _) _ _).bind fun branches => ?_
    exact (Keeps.gather (fun i => Keeps.instantiate? h hW _ _ _) _ _).bind fun buttons => Keeps.refl _
  unfold Stage.pool?
  simp only
  -- the dialog is made only if there is a branch
  split
  · exact (Keeps.refl _).bind hrest
  · exact (Keeps.instantiate? h hW _ _ _).bind hrest

theorem Keeps.triggerTemplate? (s : TemplateStore) :
    Keeps (Stage.triggerTemplate? s t) (Stage.triggerTemplate? s u) := by
  intro template htemplate
  unfold Stage.triggerTemplate? at htemplate ⊢
  cases hv : s.load? t "trigger" {} with
  | error f =>
    rw [hv] at htemplate
    cases htemplate
  | ok v =>
    rw [hv] at htemplate
    rwa [Keeps.load? h hW s _ _ v hv]

theorem Keeps.loadScenes? {p : Project} (ht : p.existing t = []) (hu : p.existing u = []) :
    Keeps (p.loadScenes? t) (p.loadScenes? u) := by
  -- without scenes that exist only those of the blueprint are planned
  have hplanned : p.planned u = p.planned t := by
    unfold Project.planned
    rw [ht, hu]
  unfold Project.loadScenes?
  rw [hplanned, ht, hu]
  refine Keeps.mapM fun ⟨path, story⟩ _ => Keeps.map ?_ _
  have hscene : Keeps ((p.templates.load? t "scene" {}).bind Scene.ofJson?)
      ((p.templates.load? u "scene" {}).bind Scene.ofJson?) :=
    (Keeps.load? h hW _ _ _).bind fun v => Keeps.refl _
  unfold Project.loadScene?
  simp only [List.not_mem_nil, if_false]
  split
  · cases story with
    | none => exact Keeps.bind (Keeps.refl _) fun story => hscene.bind fun scene => Keeps.refl _
    | some file =>
      refine Keeps.bind ((Keeps.story h hW _).map _) fun story => ?_
      exact hscene.bind fun scene => Keeps.refl _
  · exact Keeps.refl _

/-- **What was assembled is assembled again** where directories were added, if there are no scenes
in the build directory. -/
theorem Keeps.assemble? {p : Project} (ht : p.existing t = []) (hu : p.existing u = []) :
    Keeps (p.assemble? t) (p.assemble? u) := by
  unfold Project.assemble?
  refine (Keeps.packageAtoms? h hW p).bind fun packages => ?_
  refine (Keeps.loadScenes? h hW ht hu).bind fun ss => Keeps.bind (Keeps.refl _) fun capacity => ?_
  refine (Keeps.pool? h hW _ _).bind fun pool => ?_
  simp only
  generalize Project.stocked ss (Registry.ofList pool) packages = stock
  generalize (if packages.isEmpty = true then 0 else Project.storyCount stock.1) = compiled
  split
  · exact Keeps.refl _
  · exact (Keeps.triggerTemplate? h hW _).bind fun template => Keeps.refl _

end Reading

namespace Project

variable {p : Project} {t u v : FileTree} {here : Place} {dir : List String} {last : String}
  {e : String × ProjectScene} {ss : SceneSet} {report : Report}

/-! ## Where there is no source directory and no build directory -/

/-- **Nothing stands** where the source directory and the build directory go. -/
structure Absent (p : Project) (t : FileTree) : Prop where
  source : t.entry? (p.source.place t.cwd) = none
  build : t.entry? (p.home t.cwd) = none

theorem exists?_of_none {path : Path} (h : t.entry? (path.place t.cwd) = none) :
    t.exists? path = false := by
  unfold FileTree.exists?
  cases hs : t.stat path with
  | error f => rfl
  | ok e =>
    rw [(FileTree.stat_eq_ok_iff.1 hs).2] at h
    cases h

theorem listBelow_of_none {path : Path} (h : t.entry? (path.place t.cwd) = none) :
    ∃ f, t.listBelow path = .error f := by
  cases hl : t.listBelow path with
  | error f => exact ⟨f, rfl⟩
  | ok entries =>
    rw [(FileTree.listBelow_eq_ok_iff.1 hl).2.1] at h
    cases h

theorem cleared_of_not_exists (h : t.exists? p.build = false) : p.cleared t = .ok () t := by
  unfold cleared
  rw [Work.get_bind, h]
  rfl

namespace Absent

theorem existing_eq (h : p.Absent t) : p.existing t = [] := by
  obtain ⟨f, hlist⟩ := listBelow_of_none h.build
  unfold existing
  rw [hlist]

theorem scenePaths_eq (h : p.Absent t) :
    p.scenePaths t = p.blueprint.scenes.map fun s => slashed s.path := by
  obtain ⟨f, hlist⟩ := listBelow_of_none h.source
  unfold scenePaths FileTree.sceneNames
  rw [hlist]
  exact List.append_nil _

/-- Then nothing is cleared and nothing is copied. -/
theorem scaffold_eq (h : p.Absent t) : p.scaffold t = p.remade t := by
  obtain ⟨f, hlist⟩ := listBelow_of_none h.source
  have hcopied : p.copied t = .ok () t := by
    rw [copied_eq, hlist]
  rw [scaffold_of_cleared (cleared_of_not_exists (exists?_of_none h.build)), rebuilt]
  simp only [bind, EStateM.bind, hcopied]

/-- **What is built is built again** where directories were added, if the first scene then goes into
the same directory. -/
theorem scaffold_congr (ht : p.Absent t) (hu : p.Absent u) {W : Place → Entry → Prop}
    (h : Grown W t u) (hW : ∀ q e, W q e → e = .dir) (hmade : p.assemble? t = .ok (e :: ss, report))
    (hsame : FileTree.makeDirs (p.build.child e.1).parent u =
      FileTree.makeDirs (p.build.child e.1).parent t) : p.scaffold u = p.scaffold t := by
  have hmade' : p.assemble? u = .ok (e :: ss, report) :=
    Keeps.assemble? h hW ht.existing_eq hu.existing_eq _ hmade
  have hsave : p.save (e :: ss) u = p.save (e :: ss) t := by
    rw [save_cons]
    simp only [bind, EStateM.bind, FileM.orFault, hsame]
  rw [ht.scaffold_eq, hu.scaffold_eq]
  unfold remade
  rw [Work.get_bind, Work.get_bind, hmade, hmade']
  simp only [bind, EStateM.bind, hsave]

/-- A scaffold that is refused where the first scene goes. -/
theorem scaffold_eq_error {f : FileFault} (h : p.Absent t)
    (hmade : p.assemble? t = .ok (e :: ss, report))
    (hrefused : FileTree.makeDirs (p.build.child e.1).parent t = .error f v) :
    after (p.scaffold t) = v := by
  rw [h.scaffold_eq]
  unfold remade
  rw [Work.get_bind, hmade]
  simp only [save_cons, bind, EStateM.bind, FileM.orFault, hrefused]
  rfl

end Absent

/-! ## Where something is missing on the way -/

/-- **A source path that leads down to a name**: no part of it is `..`, and the last one is not
blank. -/
structure Straight (p : Project) : Prop where
  down : ".." ∉ p.source.parts
  named : p.source.parts.getLast? ≠ some "" ∧ p.source.parts.getLast? ≠ some "."

instance (p : Project) : Decidable p.Straight :=
  decidable_of_iff (".." ∉ p.source.parts ∧
      p.source.parts.getLast? ≠ some "" ∧ p.source.parts.getLast? ≠ some ".")
    ⟨fun ⟨h1, h2⟩ => ⟨h1, h2⟩, fun h => ⟨h.down, h.named⟩⟩

/-- A scene is saved in the build directory or further down its path. -/
theorem InPlace.parent_child (hp : p.InPlace) (hb : p.build = ⟨dir ++ [buildName last]⟩)
    {path : String} (hrel : (Path.ofString path).isAbsolute = false) :
    ∃ rest, (p.build.child path).parent = ⟨dir ++ [buildName last] ++ rest⟩ := by
  rw [Path.child, hp.join_build hrel, hb]
  exact Path.parent_append (buildName_ne (by decide)) (buildName_ne (by decide)) dir
    (Path.parts_ofString_ne_nil path)

section Missing

variable (hs : p.source = ⟨dir ++ [last]⟩) (hb : p.build = ⟨dir ++ [buildName last]⟩)
  (hstraight : p.Straight) (hr : t.resolve p.build = .error .missing) (ht : t.WellFormed)

include hs hb hstraight hr ht

/-- If something is missing on the way to the build directory nothing stands there, and directories
that are made on the way do not change that. -/
theorem absent_of_missing
    (h : Grown (fun q e => e = .dir ∧ q ∈ Path.trail t.cwd ⟨dir⟩) t u) : p.Absent u := by
  -- the source path leads down to a name, so both directories have the one in front
  have hdown : ".." ∉ dir ∧ last ≠ ".." := by
    have hdown := hstraight.down
    rw [hs] at hdown
    exact ⟨fun hm => hdown (List.mem_append_left _ hm),
      fun he => hdown (List.mem_append_right _ (List.mem_singleton.2 he.symm))⟩
  have hnamed : last ≠ "" ∧ last ≠ "." := by
    have hnamed := hstraight.named
    rw [hs, List.getLast?_concat] at hnamed
    exact ⟨fun he => hnamed.1 (congrArg some he), fun he => hnamed.2 (congrArg some he)⟩
  rw [hb] at hr
  have hfree := FileTree.nothing_behind_missing ht hdown.1 (parts_ne_blank dir last) hr h
  constructor
  · have hplace : p.source.place u.cwd = Path.place t.cwd ⟨dir⟩ ++ [last] := by
      have hstart := FileTree.start_of_missing hr t.cwd
      unfold Path.start at hstart
      unfold Path.place Path.start
      rw [h.cwd_eq, hs, Path.isAbsolute_last dir last (buildName last), FileTree.goal_append_singleton,
        hstart]
      unfold FileTree.enter
      rw [if_neg (not_or.2 hnamed), if_neg hdown.2]
    rw [hplace]
    exact hfree last
  · have hplace : p.home u.cwd = Path.place t.cwd ⟨dir⟩ ++ [buildName last] := by
      rw [h.cwd_eq, home, hb, FileTree.place_of_missing hr, enter_buildName]
    rw [hplace]
    exact hfree _

variable {rest : List String} {f : FileFault} (hmade : p.assemble? t = .ok (e :: ss, report))
  (hparent : (p.build.child e.1).parent = ⟨dir ++ [buildName last] ++ rest⟩)
  (hf : Path.fault? ⟨dir ++ [buildName last] ++ rest⟩ = none)

include hmade hparent hf

/-- If the directories on the way are made, the scaffold goes as if they had been there. -/
theorem scaffold_of_made (hback : FileTree.makeDirsBack dir.reverse t = .ok here u)
    (hu : u.resolve ⟨dir⟩ = .ok here) :
    u.WellFormed ∧ (∀ x ∈ p.build.ways u.cwd, u.entry? x = some .dir) ∧
      p.scenePaths u = p.scenePaths t ∧ p.scaffold u = p.scaffold t := by
  have habsent : p.Absent t := absent_of_missing hs hb hstraight hr ht .refl
  obtain ⟨hgrown, hok⟩ := FileTree.grown_makeDirsBack ht dir.reverse
  rw [List.reverse_reverse, hback] at hgrown
  rw [List.reverse_reverse] at hok
  replace hgrown : Grown (fun q e => e = .dir ∧ q ∈ Path.trail t.cwd ⟨dir⟩) t u := hgrown
  obtain ⟨hhere, hdirs⟩ := hok _ _ hback
  have habsent' : p.Absent u := absent_of_missing hs hb hstraight hr ht hgrown
  rw [hb] at hr
  have hhome : p.home u.cwd = FileTree.enter here (buildName last) := by
    rw [hhere, hgrown.cwd_eq, home, hb, FileTree.place_of_missing hr]
  -- behind the front the first scene goes alike, and so does all that follows
  have hsame := FileTree.makeDirs_of_made hback hu
    (hdirs here (hhere ▸ Path.place_mem_trail _ _)) (hhome ▸ habsent'.build) hr hf
  rw [← hparent] at hsame
  refine ⟨hgrown.wellFormed ht, fun x hx => ?_, ?_, ?_⟩
  · rw [hgrown.cwd_eq, hb, Path.ways, FileTree.start_of_missing hr,
      FileTree.ways_append_singleton] at hx
    exact hdirs x hx
  · rw [habsent.scenePaths_eq, habsent'.scenePaths_eq]
  · exact habsent.scaffold_congr habsent' hgrown (fun q e h => h.1) hmade hsame

/-- If one of them is refused, it is refused again behind those that were made. -/
theorem scaffold_of_refused (hback : FileTree.makeDirsBack dir.reverse t = .error f v)
    (hv : v = t ∨ f ≠ .missing ∧ v.resolve ⟨dir⟩ = .error f) :
    p.scaffold (after (p.scaffold t)) = p.scaffold t := by
  have habsent : p.Absent t := absent_of_missing hs hb hstraight hr ht .refl
  have hrefused : FileTree.makeDirs (p.build.child e.1).parent t = .error f v := by
    rw [hparent]
    exact FileTree.makeDirs_of_refused hback (hb ▸ hr) (parts_ne_blank dir last) hf
  rw [habsent.scaffold_eq_error hmade hrefused]
  rcases hv with rfl | ⟨hne, hv⟩
  · rfl
  · obtain ⟨hgrown, -⟩ := FileTree.grown_makeDirsBack ht dir.reverse
    rw [List.reverse_reverse, hback] at hgrown
    have habsent' : p.Absent v := absent_of_missing hs hb hstraight hr ht hgrown
    -- the directories that were made are there, and what refused the path refuses it again
    have hagain : FileTree.makeDirs (p.build.child e.1).parent v = .error f v := by
      rw [hparent]
      rw [List.append_assoc] at hf ⊢
      exact FileTree.makeDirs_refused (FileTree.resolve_append_error hv hne hf) hne
    refine habsent.scaffold_congr habsent' hgrown (fun q e h => h.1) hmade ?_
    rw [hagain, hrefused]

omit hf in
/-- The directory of the first scene decides: it is refused at once, or the front of its path is
made, or that is refused. -/
theorem scaffold_of_first : p.scaffold (after (p.scaffold t)) = p.scaffold t ∨
    ∃ u : FileTree, u.WellFormed ∧ (∀ x ∈ p.build.ways u.cwd, u.entry? x = some .dir) ∧
      p.scenePaths u = p.scenePaths t ∧ p.scaffold u = p.scaffold t := by
  cases hf : Path.fault? ⟨dir ++ [buildName last] ++ rest⟩ with
  | some f =>
    -- a path that is refused as it is written makes nothing
    have hrefused : FileTree.makeDirs (p.build.child e.1).parent t = .error f t := by
      rw [hparent]
      exact FileTree.makeDirs_refused (FileTree.resolve_of_fault hf) (Path.fault?_ne_missing hf)
    rw [(absent_of_missing hs hb hstraight hr ht .refl).scaffold_eq_error hmade hrefused]
    exact .inl rfl
  | none =>
    have hdown : ".." ∉ dir.reverse := by
      intro hup
      apply hstraight.down
      rw [hs]
      exact List.mem_append_left _ (List.mem_reverse.1 hup)
    have hback : t.resolve ⟨dir.reverse.reverse ++ [buildName last]⟩ = .error .missing := by
      rwa [List.reverse_reverse, ← hb]
    have hfront := FileTree.makeDirsBack_front ht hdown (fun _ => buildName_ne (by decide)) hback
    rw [List.reverse_reverse] at hfront
    rcases hfront with ⟨here, u, hmake, hu⟩ | ⟨f, v, hmake, hv⟩
    · exact .inr ⟨u, scaffold_of_made hs hb hstraight hr ht hmade hparent hf hmake hu⟩
    · exact .inl (scaffold_of_refused hs hb hstraight hr ht hmade hparent hf hmake hv)

end Missing

/-- **Where something is missing on the way** to the build directory, a second scaffold repeats the
first one, or this one went as if the directories on the way had been there. -/
theorem scaffold_of_missing (hp : p.InPlace) (hstraight : p.Straight)
    (hr : t.resolve p.build = .error .missing) (ht : t.WellFormed)
    (hrel : ∀ path ∈ p.scenePaths t, (Path.ofString path).isAbsolute = false) :
    p.scaffold (after (p.scaffold t)) = p.scaffold t ∨
      ∃ u : FileTree, u.WellFormed ∧ (∀ x ∈ p.build.ways u.cwd, u.entry? x = some .dir) ∧
        p.scenePaths u = p.scenePaths t ∧ p.scaffold u = p.scaffold t := by
  obtain ⟨dir, last, hs, hb⟩ := hp.beside
  have habsent : p.Absent t := absent_of_missing hs hb hstraight hr ht .refl
  -- there is nothing to clear and nothing to copy
  have hstart : p.scaffold t = p.remade t := habsent.scaffold_eq
  unfold remade at hstart
  rw [Work.get_bind] at hstart
  cases hmade : p.assemble? t with
  | error f =>
    rw [hmade] at hstart
    have herror : p.scaffold t = .error f t := hstart
    rw [herror]
    exact .inl herror
  | ok made =>
    obtain ⟨ss, report⟩ := made
    cases ss with
    | nil =>
      -- without a scene nothing is saved
      rw [hmade] at hstart
      have hnothing : p.scaffold t = .ok report t := hstart
      rw [hnothing]
      exact .inl hnothing
    | cons e ss =>
      have hlisted : e.1 ∈ p.scenePaths t := by
        have hplanned : e.1 ∈ (p.planned t).map (·.1) :=
          (paths_of_assemble? hmade).1 ▸ List.mem_cons_self
        rcases mem_planned_iff.1 hplanned with h | h
        · exact List.mem_append_left _ h
        · -- no scene exists in a build directory that is missing
          rw [habsent.existing_eq] at h
          cases h
      obtain ⟨rest, hparent⟩ := hp.parent_child hb (hrel _ hlisted)
      exact scaffold_of_first hs hb hstraight hr ht hmade hparent

end Project

end Stagecraft
