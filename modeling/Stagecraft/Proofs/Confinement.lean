import Stagecraft.Proofs.Stages

/-!
# What a scaffold leaves alone

A scene is saved where its path leads from the build directory. As long as the paths of all
scenes lead back into the build directory, a scaffold writes nothing outside it but the
directories that lead there, whether it succeeds or fails.

* `Project.Stays`, `Project.stays_of_inward`: a scene path that leads to a place inside.
* `Project.grown_save`, `Project.grown_rebuilt`: what saving adds, and all that follows clearing.
* `Project.scaffold_confined`: **a scaffold writes only its own build directory**.
-/

namespace Stagecraft

open FileTree (Grown after)

namespace Project

variable {p : Project} {t u v : FileTree} {w q x : Place} {path : String}

/-! ## Scene paths -/

/-- **A scene path that stays**: it leads from the build directory to a place inside it, and on
the way through no other directories than those inside and those above. -/
structure Stays (p : Project) (w : Place) (path : String) : Prop where
  relative : (Path.ofString path).isAbsolute = false
  way : ∀ x ∈ FileTree.trail (p.home w) (Path.ofString path).parts,
    p.home w <+: x ∨ x <+: p.home w
  inside : p.home w <+: FileTree.goal (p.home w) (Path.ofString path).parts

instance (p : Project) (w : Place) (path : String) : Decidable (p.Stays w path) :=
  decidable_of_iff ((Path.ofString path).isAbsolute = false ∧
      (∀ x ∈ FileTree.trail (p.home w) (Path.ofString path).parts, p.home w <+: x ∨ x <+: p.home w) ∧
      p.home w <+: FileTree.goal (p.home w) (Path.ofString path).parts)
    ⟨fun ⟨h1, h2, h3⟩ => ⟨h1, h2, h3⟩, fun h => ⟨h.relative, h.way, h.inside⟩⟩

theorem stays_of_inward (h : (Path.ofString path).Inward) (p : Project) (w : Place) :
    p.Stays w path where
  relative := h.relative
  way := fun _ hx => .inl (FileTree.prefix_of_mem_trail h.down hx)
  inside := FileTree.prefix_of_mem_trail h.down (FileTree.goal_mem_trail _ _)

/-- The file name of a scene has the ending of a document. -/
theorem last_of_isScenePath (h : isScenePath path = true) : ∃ init last,
    (Path.ofString path).parts = init ++ [last] ∧
      ".json".toList <:+ last.toList.map Text.small := by
  unfold isScenePath at h
  obtain ⟨front, hfront⟩ := List.isSuffixOf_iff_suffix.1 h
  obtain ⟨a, ext, hpath, -, hext⟩ := List.map_eq_append_iff.1 hfront.symm
  -- the ending is within the last part, since no small letter stands for a slash
  have hslash : '/' ∉ (String.ofList ext).toList := by
    rw [String.toList_ofList]
    intro hmem
    have hsmall : Text.small '/' ∈ ".json".toList := hext ▸ List.mem_map_of_mem hmem
    exact absurd hsmall (by decide)
  obtain ⟨init, last, -, hparts⟩ := Path.ofString_append hslash (String.ofList a)
  have hwhole : String.ofList a ++ String.ofList ext = path := by
    rw [← String.ofList_append, ← hpath, String.ofList_toList]
  rw [hwhole] at hparts
  refine ⟨init, last ++ String.ofList ext, by rw [hparts], ?_⟩
  rw [String.toList_append, List.map_append, @String.toList_ofList ext, hext]
  exact List.suffix_append _ _

theorem ne_of_suffix {last s : String} (h : ".json".toList <:+ last.toList.map Text.small)
    (hs : s.toList.length < 5) : last ≠ s := by
  rintro rfl
  have hlen := h.length_le
  rw [List.length_map] at hlen
  have hext : ".json".toList.length = 5 := rfl
  omega

/-- **No scene is saved in place of the build directory.** -/
theorem goal_ne_home (hp : p.InPlace) (h : isScenePath path = true) :
    FileTree.goal (p.home w) (Path.ofString path).parts ≠ p.home w := by
  obtain ⟨init, last, hparts, hext⟩ := last_of_isScenePath h
  have h0 : last ≠ "" := ne_of_suffix hext (by decide)
  have h1 : last ≠ "." := ne_of_suffix hext (by decide)
  have h2 : last ≠ ".." := ne_of_suffix hext (by decide)
  have henter : ∀ here, FileTree.enter here last = here ++ [last] := by
    intro here
    unfold FileTree.enter
    rw [if_neg (not_or.2 ⟨h0, h1⟩), if_neg h2]
  obtain ⟨here, name, -, -, hhome⟩ := hp.home_eq w
  rw [hparts, FileTree.goal_append_singleton, henter]
  intro he
  rw [hhome] at he
  obtain ⟨-, hlast⟩ := List.append_inj' he rfl
  -- the two names end differently
  rw [(List.cons.inj hlast).1, buildName, String.toList_append, List.map_append] at hext
  obtain ⟨front, hfront⟩ := hext
  have hend := congrArg List.getLast? hfront
  have hn : ".json".toList.getLast? = some 'n' := rfl
  have hd : (".scaffold".toList.map Text.small).getLast? = some 'd' := by decide
  rw [List.getLast?_append, List.getLast?_append, hn, hd] at hend
  cases hend

/-! ## Saving -/

theorem save_cons (p : Project) (e : String × ProjectScene) (ss : SceneSet) :
    p.save (e :: ss) = (do
      (FileTree.makeDirs (p.build.child e.1).parent).orFault
        (.sceneNotWritten (p.build.child e.1).parent)
      (FileTree.write (p.build.child e.1) e.2.scene.fileContent).orFault
        (.sceneNotWritten (p.build.child e.1))
      p.save ss) := rfl

/-- **Saving** scenes whose paths stay adds directories on the way to the build directory, and
files inside it. -/
theorem grown_save (hp : p.InPlace) (hu : u.WellFormed) {ss : SceneSet}
    (h : ∀ e ∈ ss, isScenePath e.1 = true ∧ p.Stays u.cwd e.1) :
    Grown (p.Writes u.cwd) u (after (p.save ss u)) := by
  induction ss generalizing u with
  | nil => exact .refl
  | cons e ss ih =>
    obtain ⟨hscene, hstay⟩ := h e List.mem_cons_self
    have hne := Path.parts_ofString_ne_nil e.1
    -- the way to a scene is that to the build directory, and on inside it or back up
    have htrail : ∀ x, x ∈ (p.build.child e.1).trail u.cwd → p.Writes u.cwd x .dir := by
      intro x hx
      rcases (Path.mem_trail_join hstay.relative hne).1 hx with hx | hx
      · exact .way (.inl hx)
      · rcases hstay.way x hx with hin | hup
        · by_cases hhome : x = p.home u.cwd
          · exact .way (.inr (hhome ▸ List.prefix_refl _))
          · exact .inside hin hhome
        · exact .way (.inr hup)
    rw [save_cons]
    refine Work.grown_bind ?_ fun _ v _ hv => Work.grown_bind ?_ fun _ v' _ hv' => ?_
    · rw [Work.after_orFault]
      refine (FileTree.grown_makeDirs hu _).mono fun q e' ⟨he', hq⟩ => ?_
      rw [he']
      exact htrail q (Path.mem_trail_parent hq)
    · rw [Work.after_orFault]
      refine (FileTree.grown_write (hv.wellFormed hu) _ _).mono fun q e' ⟨hq, he'⟩ => ?_
      rw [hq, hv.cwd_eq, Path.child, Path.place_join hstay.relative hne]
      exact .inside hstay.inside (goal_ne_home hp hscene)
    · -- the other scenes are saved alike in the tree that is left
      have hcwd : v'.cwd = u.cwd := hv'.cwd_eq.trans hv.cwd_eq
      have hrest := ih (hv'.wellFormed (hv.wellFormed hu)) fun e' he' => by
        rw [hcwd]
        exact h e' (List.mem_cons_of_mem _ he')
      rwa [hcwd] at hrest

/-- Saving adds directories, and the files of the scenes. -/
theorem files_of_save (hu : u.WellFormed) (ss : SceneSet) :
    Grown (fun q e => ∀ c, e = .file c → ∃ a ∈ ss, q = (p.build.child a.1).place u.cwd) u
      (after (p.save ss u)) := by
  induction ss generalizing u with
  | nil => exact .refl
  | cons a ss ih =>
    rw [save_cons]
    refine Work.grown_bind ?_ fun _ v _ hv => Work.grown_bind ?_ fun _ v' _ hv' => ?_
    · rw [Work.after_orFault]
      refine (FileTree.grown_makeDirs hu _).mono fun q e ⟨he, _⟩ c hc => ?_
      -- what was made is no file
      rw [he] at hc
      cases hc
    · rw [Work.after_orFault]
      refine (FileTree.grown_write (hv.wellFormed hu) _ _).mono fun q e ⟨hq, _⟩ c _ => ?_
      rw [hv.cwd_eq] at hq
      exact ⟨a, List.mem_cons_self, hq⟩
    · have hrest := ih (hv'.wellFormed (hv.wellFormed hu))
      rw [hv'.cwd_eq, hv.cwd_eq] at hrest
      refine hrest.mono fun q e h c hc => ?_
      obtain ⟨b, hb, hq⟩ := h c hc
      exact ⟨b, List.mem_cons_of_mem _ hb, hq⟩

/-- All that follows clearing: the source directory is copied, and the scenes are built. -/
def rebuilt (p : Project) : Work Report := do
  p.copied
  p.remade

theorem scaffold_of_cleared (h : p.cleared t = .ok () u) : p.scaffold t = p.rebuilt u := by
  rw [scaffold_eq, prepare_eq, rebuilt]
  simp only [bind, EStateM.bind, h]

/-- A build directory that cannot be cleared is left as it is. -/
theorem scaffold_of_not_cleared {f : Fault} (h : p.cleared t = .error f u) :
    p.scaffold t = .error f t := by
  have hu := cleared_eq_error h
  subst hu
  rw [scaffold_eq, prepare_eq]
  simp only [bind, EStateM.bind, h]

/-- **What a scaffold adds** once the build directory is cleared. -/
theorem grown_rebuilt (hp : p.InPlace) (hu : u.WellFormed) (hfresh : p.Fresh u)
    (hstay : ∀ path ∈ p.scenePaths u, p.Stays u.cwd path) :
    Grown (p.Writes u.cwd) u (after (p.rebuilt u)) := by
  refine Work.grown_bind ((grown_copied hu hfresh).mono fun q e h => h.1) fun _ v hok hv => ?_
  unfold remade
  rw [Work.get_bind]
  cases hassemble : p.assemble? v with
  | error f => exact .refl
  | ok made =>
    obtain ⟨ss, report⟩ := made
    obtain ⟨hpaths, hscenes⟩ := paths_of_assemble? hassemble
    -- what is planned behind the copy was a scene path before, so it stays
    have hstays : ∀ e ∈ ss, isScenePath e.1 = true ∧ p.Stays v.cwd e.1 := by
      intro e he
      refine ⟨hscenes e he, ?_⟩
      have hplanned : e.1 ∈ (p.planned v).map (·.1) := hpaths ▸ List.mem_map_of_mem he
      rw [hv.cwd_eq]
      exact hstay _ (mem_scenePaths_of_planned hp hu hfresh hok hplanned)
    have hsave := grown_save hp (hv.wellFormed hu) hstays
    rw [hv.cwd_eq] at hsave
    exact Work.grown_bind hsave fun _ _ _ _ => .refl

/-- The scene paths of a tree that was cleared in part are among those before. -/
theorem mem_scenePaths_of_cleared (h : p.cleared t = .ok () u) (hpath : path ∈ p.scenePaths u) :
    path ∈ p.scenePaths t := by
  rcases cleared_eq_ok h with ⟨-, -, rfl⟩ | ⟨-, rfl⟩
  · rcases List.mem_append.1 hpath with hpath | hpath
    · exact List.mem_append_left _ hpath
    · exact List.mem_append_right _ (mem_sceneNames_of_clear hpath)
  · exact hpath

/-- If the directories are there in which the build path is looked up, so are all on the way to the
build directory. -/
theorem InPlace.dir_of_way (hp : p.InPlace) (ht : t.WellFormed)
    (hways : ∀ x ∈ p.build.ways t.cwd, t.entry? x = some .dir)
    (hq : q ∈ p.build.trail t.cwd ∨ q <+: p.home t.cwd) (hne : q ≠ p.home t.cwd) :
    t.entry? q = some .dir := by
  rcases hq with htrail | hup
  · rcases Path.mem_trail_iff.1 htrail with hway | hplace
    · exact hways q hway
    · exact absurd hplace hne
  · obtain ⟨here, last, hhere, -, hhome⟩ := hp.home_eq t.cwd
    rw [hhome] at hup hne
    rcases List.prefix_concat_iff.1 hup with he | hup
    · exact absurd he hne
    · by_cases hself : q = here
      · rw [hself]
        exact hways here hhere
      · exact ht.dir_of_prefix (hways here hhere) hup hself

/-- **A scaffold writes only its own build directory**, whether it succeeds or fails, if the paths
of its scenes stay there: all that does not lie under it is the same afterwards, but that
directories on the way to it are made where they are missing. -/
theorem scaffold_confined {t₀ : FileTree} {dirs : BuildDirs} {name : String}
    (hopen : open? t₀ dirs name = .ok p) (ht : t.WellFormed)
    (hstay : ∀ path ∈ p.scenePaths t, p.Stays t.cwd path) (hv : after (p.scaffold t) = v)
    (hq : ¬p.home t.cwd <+: q) :
    (v.entry? q = t.entry? q ∨ t.entry? q = none ∧ v.entry? q = some .dir ∧
      (q ∈ p.build.trail t.cwd ∨ q <+: p.home t.cwd)) ∧
    ((∀ x ∈ p.build.ways t.cwd, t.entry? x = some .dir) → v.entry? q = t.entry? q) := by
  have hp := inPlace_of_open? hopen
  have hmain : v.entry? q = t.entry? q ∨ t.entry? q = none ∧ v.entry? q = some .dir ∧
      (q ∈ p.build.trail t.cwd ∨ q <+: p.home t.cwd) := by
    rw [← hv]
    cases hclear : p.cleared t with
    | error f u =>
      rw [scaffold_of_not_cleared hclear]
      exact .inl rfl
    | ok _ u =>
      obtain ⟨hfresh, hu, hcwd⟩ := fresh_of_cleared hp ht hclear
      have hsame : u.entry? q = t.entry? q := by
        rcases cleared_eq_ok hclear with ⟨-, -, rfl⟩ | ⟨-, rfl⟩
        · exact FileTree.entry?_clear_outside hq
        · rfl
      have hgrown := grown_rebuilt hp hu hfresh fun path hpath => by
        rw [hcwd]
        exact hstay path (mem_scenePaths_of_cleared hclear hpath)
      rw [scaffold_of_cleared hclear, ← hsame]
      rw [hcwd] at hgrown
      rcases hgrown.entry?_cases q with he | ⟨e, he, hw, hkind⟩
      · exact .inl he
      · cases hw with
        | way hway =>
          -- a directory on the way was there, or it was made
          cases hold : u.entry? q with
          | none => exact .inr ⟨rfl, he, hway⟩
          | some e' => exact .inl (by rw [he, (hkind e' hold).2 rfl])
        | inside hin _ => exact absurd hin hq
  refine ⟨hmain, fun hways => ?_⟩
  -- with all of them there, none is made
  rcases hmain with he | ⟨hnone, -, hway⟩
  · exact he
  · rw [hp.dir_of_way ht hways hway fun h => hq (h ▸ List.prefix_refl _)] at hnone
    cases hnone

/-- A scene that was drawn by hand, with a field and an atom of its own. -/
def hallText : String :=
  "\x7b\"music\":\"slow\",\"atoms\":[\x7b\"id\":\"Lamp\",\"on\":\"true\"\x7d]\x7d"

/-- A project with a scene that was drawn by hand, and a new one in a directory of its own. -/
def yard : FileTree where
  cwd := []
  entries := [(["p"], .dir), (["p", "x"], .dir),
    (["p", "x", "blueprint.json"],
      .file "\x7b\"scenes\":[\"Hall.json\",\"sub/Room.json\"]\x7d".toUTF8),
    (["t"], .dir), (["t", "default.json"], .file "[]".toUTF8),
    (["t", "scene.json"], .file "\x7b\"atoms\":[]\x7d".toUTF8), (["s"], .dir), (["s", "x"], .dir),
    (["s", "x", "Hall.json"], .file hallText.toUTF8)]

/-- Its directories. -/
def yardDirs : BuildDirs := ⟨⟨["s"]⟩, ⟨["p"]⟩, ⟨["t"]⟩⟩

/-- The project. -/
def yardProject : Project where
  name := "x"
  dir := ⟨["p", "x"]⟩
  source := ⟨["s", "x"]⟩
  build := ⟨["s", "x.scaffold"]⟩
  blueprint := { scenes := [⟨"Hall.json", none⟩, ⟨"sub/Room.json", none⟩] }
  templates := ⟨⟨["t"]⟩⟩

-- a path may lead up and back, but not over the scenes that were drawn by hand
example : yardProject.Stays [] "../x.scaffold/Room.json" ∧ ¬yardProject.Stays [] "../x/Hall.json" := by
  decide

theorem open?_yard : open? yard yardDirs "x" = .ok yardProject := by cbv

theorem scenePaths_yard :
    yardProject.scenePaths yard = ["Hall.json", "sub/Room.json", "Hall.json"] := by
  cbv

/-- The scene that was drawn by hand is left alone. -/
theorem scaffold_confined_yard : yard.WellFormed ∧
    (∀ path ∈ yardProject.scenePaths yard, yardProject.Stays [] path) ∧
    ∃ v, after (yardProject.scaffold yard) = v ∧ v.entry? ["s", "x", "Hall.json"] =
      some (.file hallText.toUTF8) := by
  have hwf : yard.WellFormed := by decide
  have hstay : ∀ path ∈ yardProject.scenePaths yard, yardProject.Stays [] path := by
    rw [scenePaths_yard]
    decide
  have hways : ∀ x ∈ yardProject.build.ways yard.cwd, yard.entry? x = some .dir := by decide
  exact ⟨hwf, hstay, _, rfl, (scaffold_confined open?_yard hwf hstay rfl (by decide)).2 hways⟩

end Project

end Stagecraft
