import Stagecraft.Command.Run
import Stagecraft.Proofs.Locality
import Stagecraft.Proofs.Repetition

/-!
# Projects that are built one after the other

A build scaffolds projects on one tree. Each of them works on the places of its own directories,
and changes only what lies in its build directory, where no other one looks. So it makes no
difference to a project which others are built before and after it, or whether these fail.

* `BuildDirs.footprint`, `BuildDirs.Apart`: the places of a project, and projects whose places do
  not meet.
* `Command.buildProject_only`: a project is built alike on its own part of the tree.
* `Command.clear_buildProject`, `Command.Ready.step`: what one build leaves to the others.
* `Command.buildAll_only`: **what a run leaves to each of its projects**.
* `Command.projects_isolated`: **projects are isolated**.
-/

namespace Stagecraft

open FileTree (after)

/-! ## The directories of a project -/

namespace Path

variable {p : Path} {w x : Place} {name : String}

/-- A text without slashes is a path of one part. -/
theorem ofString_eq_single (h : '/' ∉ name.toList) : ofString name = ⟨[name]⟩ := by
  obtain ⟨init, last, hblank, hname⟩ := ofString_append h ""
  have hsingle : init ++ [last] = [] ++ [""] := (Path.mk.inj hblank).symm
  obtain ⟨rfl, hlast⟩ := List.append_inj' hsingle rfl
  rw [String.empty_append, (List.cons.inj hlast).1, String.empty_append] at hname
  exact hname

theorem place_child (h : '/' ∉ name.toList) (henter : ∀ here, FileTree.enter here name = here ++ [name])
    (p : Path) (w : Place) : (p.child name).place w = p.place w ++ [name] := by
  rw [child, ofString_eq_single h, place_join (relative_single name) (List.cons_ne_nil _ _)]
  exact henter _

theorem reach_child_iff (h : '/' ∉ name.toList)
    (henter : ∀ here, FileTree.enter here name = here ++ [name]) :
    (p.child name).reach w x = true ↔ x ∈ p.trail w ∨ p.place w ++ [name] <+: x := by
  have hlast : x ∈ FileTree.trail (p.place w) [name] ↔ x = p.place w ∨ x = p.place w ++ [name] := by
    rw [← List.nil_append [name], FileTree.mem_trail_append_singleton, FileTree.goal, List.foldl_nil,
      henter]
    exact or_congr_left List.mem_singleton
  rw [reach_iff, place_child h henter, child, ofString_eq_single h,
    mem_trail_join (relative_single name) (List.cons_ne_nil _ _), hlast]
  constructor
  · rintro ((hx | rfl | rfl) | hx)
    · exact .inl hx
    · exact .inl (place_mem_trail w p)
    · exact .inr (List.prefix_refl _)
    · exact .inr hx
  · rintro (hx | hx)
    · exact .inl (.inl hx)
    · exact .inr hx

/-- A name in a directory is looked up on the trail of that. -/
theorem mem_trail_of_ways_child (h : '/' ∉ name.toList) (hx : x ∈ (p.child name).ways w) :
    x ∈ p.trail w := by
  have hrel := relative_single name
  have hjoin : p.child name = ⟨p.front ++ [name]⟩ := by
    rw [child, ofString_eq_single h]
    exact congrArg Path.mk (parts_join hrel p)
  have hstart := start_front (q := ⟨[name]⟩) hrel (List.cons_ne_nil _ _) p w
  rw [hjoin, ways, hstart, FileTree.ways_append_singleton] at hx
  exact ((place_front w p).2 x).1 hx

end Path

/-! ## Places that do not meet -/

namespace BuildDirs

variable {dirs : BuildDirs} {names : List String} {a b name : String} {w x : Place}

/-- **The places of a project**: those of its source and build directories, of its own directory,
and of the templates. -/
def footprint (dirs : BuildDirs) (name : String) (w x : Place) : Bool :=
  (dirs.scenes.child name).reach w x || (dirs.scenes.child (Project.buildName name)).reach w x ||
    (dirs.projects.child name).reach w x || dirs.templates.reach w x

/-- The place of the build directory of a project. -/
def home (dirs : BuildDirs) (name : String) (w : Place) : Place :=
  dirs.scenes.place w ++ [Project.buildName name]

/-- **Projects whose places do not meet**: the directories of scenes, projects and templates do not
lie in one another, none of them is looked up in a build directory, and no project has the name of
one. -/
structure Apart (dirs : BuildDirs) (names : List String) (w : Place) : Prop where
  beside : ∀ d ∈ [dirs.projects, dirs.templates],
    ¬dirs.scenes.place w <+: d.place w ∧ ¬d.place w <+: dirs.scenes.place w
  trails : ∀ d ∈ [dirs.scenes, dirs.projects, dirs.templates], ∀ name ∈ names, ∀ x ∈ d.trail w,
    ¬dirs.home name w <+: x
  unbuilt : ∀ a ∈ names, ∀ b ∈ names, a ≠ Project.buildName b
  slashless : ∀ name ∈ names, '/' ∉ name.toList

instance (dirs : BuildDirs) (names : List String) (w : Place) : Decidable (dirs.Apart names w) :=
  decidable_of_iff ((∀ d ∈ [dirs.projects, dirs.templates],
        ¬dirs.scenes.place w <+: d.place w ∧ ¬d.place w <+: dirs.scenes.place w) ∧
      (∀ d ∈ [dirs.scenes, dirs.projects, dirs.templates], ∀ name ∈ names, ∀ x ∈ d.trail w,
        ¬dirs.home name w <+: x) ∧
      (∀ a ∈ names, ∀ b ∈ names, a ≠ Project.buildName b) ∧ ∀ name ∈ names, '/' ∉ name.toList)
    ⟨fun ⟨h1, h2, h3, h4⟩ => ⟨h1, h2, h3, h4⟩,
      fun h => ⟨h.beside, h.trails, h.unbuilt, h.slashless⟩⟩

theorem Apart.subset (h : dirs.Apart names w) {some : List String} (hsub : some ⊆ names) :
    dirs.Apart some w where
  beside := h.beside
  trails := fun d hd name hname => h.trails d hd name (hsub hname)
  unbuilt := fun a ha b hb => h.unbuilt a (hsub ha) b (hsub hb)
  slashless := fun name hname => h.slashless name (hsub hname)

theorem slash_not_mem_buildName (h : '/' ∉ name.toList) : '/' ∉ (Project.buildName name).toList := by
  have hext : '/' ∉ ".scaffold".toList := by decide
  rw [Project.buildName, String.toList_append, List.mem_append]
  exact not_or.2 ⟨h, hext⟩

theorem buildName_injective (h : Project.buildName a = Project.buildName b) : a = b := by
  apply String.toList_injective
  have hlist := congrArg String.toList h
  simp only [Project.buildName, String.toList_append] at hlist
  exact List.append_cancel_right hlist

/-- Two names in one directory lead apart. -/
theorem name_eq_of_below {here : Place} {m n : String} (hm : here ++ [m] <+: x) (hn : here ++ [n] <+: x) :
    m = n := by
  have hlen : (here ++ [m]).length = (here ++ [n]).length := by
    rw [List.length_append, List.length_append]
    rfl
  have hsame := (List.prefix_of_prefix_length_le hm hn hlen.le).eq_of_length hlen
  exact (List.cons.inj (List.append_cancel_left hsame)).1

/-- **No project looks into the build directory of another one.** -/
theorem footprint_eq_false (h : dirs.Apart names w) (ha : a ∈ names) (hb : b ∈ names) (hne : a ≠ b)
    (hplain : Path.Plain a) (hx : dirs.home b w <+: x) : dirs.footprint a w x = false := by
  have hslash := h.slashless a ha
  have henter := fun here => FileTree.enter_plain hplain here
  -- a directory beside that of the scenes has no place in the build directory
  have hbeside : ∀ d ∈ [dirs.projects, dirs.templates], ¬d.place w <+: x := by
    intro d hd hpre
    have hscenes : dirs.scenes.place w <+: x := (List.prefix_append _ _).trans hx
    rcases List.prefix_or_prefix_of_prefix hscenes hpre with hin | hin
    · exact (h.beside d hd).1 hin
    · exact (h.beside d hd).2 hin
  rw [← Bool.not_eq_true]
  intro hfoot
  simp only [footprint, Bool.or_eq_true] at hfoot
  rw [Path.reach_child_iff hslash henter, Path.reach_child_iff (slash_not_mem_buildName hslash)
    (fun here => Project.enter_buildName here a), Path.reach_child_iff hslash henter,
    Path.reach_iff] at hfoot
  rcases hfoot with ((((htrail | hin) | (htrail | hin)) | (htrail | hin)) | (htrail | hin))
  · exact h.trails _ List.mem_cons_self b hb x htrail hx
  · exact h.unbuilt a ha b hb (name_eq_of_below hin hx)
  · exact h.trails _ List.mem_cons_self b hb x htrail hx
  · exact hne (buildName_injective (name_eq_of_below hin hx))
  · exact h.trails _ (by simp) b hb x htrail hx
  · exact hbeside dirs.projects (by simp) ((List.prefix_append _ _).trans hin)
  · exact h.trails _ (by simp) b hb x htrail hx
  · exact hbeside dirs.templates (by simp) hin

end BuildDirs

/-! ## One project -/

namespace Project

variable {p : Project} {t : FileTree} {F : Place → Bool} {dirs : BuildDirs} {name : String}

theorem dirs_of_open? (h : open? t dirs name = .ok p) :
    p.source = dirs.scenes.child name ∧ p.build = dirs.scenes.child (buildName name) ∧
      p.dir = dirs.projects.child name ∧ p.templates.root = dirs.templates := by
  obtain ⟨blueprint, -, h⟩ := bind_eq_ok h
  obtain ⟨templates, htemplates, h⟩ := bind_eq_ok h
  cases h
  unfold TemplateStore.open? at htemplates
  split at htemplates
  · cases htemplates
    exact ⟨rfl, rfl, rfl, rfl⟩
  · cases htemplates

theorem covered_of_open? (h : open? t dirs name = .ok p) (w : Place) :
    p.Covered (dirs.footprint name w) w := by
  obtain ⟨hsource, hbuild, hdir, htemplates⟩ := dirs_of_open? h
  constructor <;> intro x hx <;> simp only [BuildDirs.footprint, Bool.or_eq_true]
  · exact .inl (.inl (.inl (hsource ▸ hx)))
  · exact .inl (.inl (.inr (hbuild ▸ hx)))
  · exact .inl (.inr (hdir ▸ hx))
  · exact .inr (htemplates ▸ hx)

theorem open?_only (dirs : BuildDirs) (name : String) (t : FileTree) :
    open? (t.only (dirs.footprint name t.cwd)) dirs name = open? t dirs name := by
  have hdir : (dirs.projects.child name).Covered (dirs.footprint name t.cwd) t.cwd := fun x hx => by
    simp only [BuildDirs.footprint, Bool.or_eq_true]
    exact .inl (.inr hx)
  have htemplates : dirs.templates.Covered (dirs.footprint name t.cwd) t.cwd := fun x hx => by
    simp only [BuildDirs.footprint, Bool.or_eq_true]
    exact .inr hx
  have hin : (Path.ofString Blueprint.fileName).Inward := by decide
  have hblueprint := (hdir.child hin).among
  unfold open? Blueprint.load? loadSettings? TemplateStore.open?
  simp only [FileTree.isFile_only hblueprint, FileTree.readText_only hblueprint,
    FileTree.isDir_only htemplates.among]

/-- What leads down on a part of a tree does so on the whole. -/
theorem Downward.congr {u : FileTree} (h : p.Downward t) (hF : p.source.Covered F t.cwd)
    (hcwd : u.cwd = t.cwd) (hu : u.only F = t.only F) : p.Downward u where
  scenes := by
    have hnames : u.sceneNames p.source = t.sceneNames p.source := by
      rw [← sceneNames_only hF, ← hu, sceneNames_only (hcwd ▸ hF)]
    unfold scenePaths
    rw [hnames]
    exact h.scenes
  stories := h.stories
  packages := h.packages

end Project

namespace Command

open Project (open?)

variable {dirs : BuildDirs} {t v : FileTree} {names rest : List String} {a b name : String}
  {w x : Place} {F : Place → Bool}

/-- **Projects that can be built one after the other** on a tree. -/
structure Ready (dirs : BuildDirs) (names : List String) (t : FileTree) : Prop where
  wellFormed : t.WellFormed
  scenes : t.isDir dirs.scenes = true
  plain : ∀ name ∈ names, Path.Plain name
  apart : dirs.Apart names t.cwd
  down : ∀ name ∈ names, ∀ p, open? t dirs name = .ok p → p.Downward t

/-- **A project is built alike on its own part of the tree.** -/
theorem buildProject_only (ht : t.WellFormed)
    (hdown : ∀ p, open? t dirs name = .ok p → p.Downward t) :
    buildProject dirs name (t.only (dirs.footprint name t.cwd)) =
      ((buildProject dirs name t).1,
        (buildProject dirs name t).2.only (dirs.footprint name t.cwd)) := by
  unfold buildProject
  rw [Project.open?_only]
  cases hopen : open? t dirs name with
  | error f => rfl
  | ok p =>
    have hlocal := Project.local_scaffold (Project.inPlace_of_open? hopen) ht
      (Project.covered_of_open? hopen t.cwd) (hdown p hopen)
    unfold Work.Local at hlocal
    simp only [hlocal]
    cases p.scaffold t <;> rfl

/-- **What one build changes** lies in the build directory of its project. -/
theorem clear_buildProject (h : Ready dirs names t) (hb : b ∈ names) :
    (buildProject dirs b t).2.clear (dirs.home b t.cwd) = t.clear (dirs.home b t.cwd) ∧
      (buildProject dirs b t).2.cwd = t.cwd ∧ (buildProject dirs b t).2.WellFormed := by
  cases hopen : open? t dirs b with
  | error f =>
    unfold buildProject
    rw [hopen]
    exact ⟨rfl, rfl, h.wellFormed⟩
  | ok p =>
    have hslash := BuildDirs.slash_not_mem_buildName (h.apart.slashless b hb)
    obtain ⟨-, hbuild, -, -⟩ := Project.dirs_of_open? hopen
    have hhome : p.home t.cwd = dirs.home b t.cwd := by
      rw [Project.home, hbuild]
      exact Path.place_child hslash (fun here => Project.enter_buildName here b) _ _
    have htrail : ∀ x ∈ p.build.ways t.cwd, x ∈ dirs.scenes.trail t.cwd := fun x hx =>
      Path.mem_trail_of_ways_child hslash (hbuild ▸ hx)
    have hsite : p.Sited t := by
      refine ⟨fun x hx => FileTree.dir_of_isDir h.scenes (htrail x hx), fun x hx => ?_⟩
      rw [hhome]
      exact h.apart.trails _ List.mem_cons_self b hb x (htrail x hx)
    have hleft := Project.clear_scaffold (Project.inPlace_of_open? hopen) h.wellFormed hsite
      (h.down b hb p hopen).scenes
    have hafter : (buildProject dirs b t).2 = after (p.scaffold t) := by
      unfold buildProject
      simp only [hopen]
      cases p.scaffold t <;> rfl
    rw [hafter, ← hhome]
    exact hleft

/-- The places outside the build directory are left alone. -/
theorem only_buildProject (h : Ready dirs names t) (hb : b ∈ names)
    (hF : ∀ x, dirs.home b t.cwd <+: x → F x = false) :
    (buildProject dirs b t).2.only F = t.only F := by
  rw [← FileTree.only_clear_of_apart hF, (clear_buildProject h hb).1, FileTree.only_clear_of_apart hF]

/-- **One build leaves the other projects ready.** -/
theorem Ready.step (h : Ready dirs (b :: rest) t) (hnew : b ∉ rest) :
    Ready dirs rest (buildProject dirs b t).2 := by
  have hb : b ∈ b :: rest := List.mem_cons_self
  obtain ⟨hclear, hcwd, hwf⟩ := clear_buildProject h hb
  have hapart : ∀ a ∈ rest, ∀ x, dirs.home b t.cwd <+: x → dirs.footprint a t.cwd x = false := by
    intro a ha x hx
    have hmem := List.mem_cons_of_mem b ha
    have hne : a ≠ b := fun he => hnew (he ▸ ha)
    exact BuildDirs.footprint_eq_false h.apart hmem hb hne (h.plain a hmem) hx
  refine ⟨hwf, ?_, fun a ha => h.plain a (List.mem_cons_of_mem _ ha), ?_, fun a ha p hopen => ?_⟩
  · have hsame : (buildProject dirs b t).2.stat dirs.scenes = t.stat dirs.scenes := by
      refine FileTree.stat_congr hcwd fun x hx => ?_
      have hout := h.apart.trails _ List.mem_cons_self b hb x hx
      rw [← FileTree.entry?_clear_outside hout, hclear, FileTree.entry?_clear_outside hout]
    rw [FileTree.isDir, hsame]
    exact h.scenes
  · rw [hcwd]
    exact h.apart.subset (List.subset_cons_self _ _)
  · have hsame := only_buildProject h hb (hapart a ha)
    have hopen' : open? t dirs a = .ok p := by
      rw [← Project.open?_only, ← hsame, ← hcwd, Project.open?_only]
      exact hopen
    exact (h.down a (List.mem_cons_of_mem _ ha) p hopen').congr
      (Project.covered_of_open? hopen' t.cwd).source hcwd hsame

/-! ## All projects -/

theorem buildAll_cons (dirs : BuildDirs) (name : String) (names : List String) (t : FileTree) :
    buildAll dirs (name :: names) t =
      ((name, (buildProject dirs name t).1) :: (buildAll dirs names (buildProject dirs name t).2).1,
        (buildAll dirs names (buildProject dirs name t).2).2) := by
  rw [buildAll]

theorem names_buildAll (dirs : BuildDirs) (names : List String) (t : FileTree) :
    (buildAll dirs names t).1.map (·.1) = names := by
  induction names generalizing t with
  | nil => rfl
  | cons name names ih => rw [buildAll_cons, List.map_cons, ih]

/-- A run leaves alone what lies in none of its build directories. -/
theorem only_buildAll (h : Ready dirs names t) (hnodup : names.Nodup)
    (hF : ∀ a ∈ names, ∀ x, dirs.home a t.cwd <+: x → F x = false) :
    (buildAll dirs names t).2.only F = t.only F := by
  induction names generalizing t with
  | nil => rfl
  | cons b rest ih =>
    obtain ⟨hnew, hnodup⟩ := List.nodup_cons.1 hnodup
    have hcwd := (clear_buildProject h List.mem_cons_self).2.1
    rw [buildAll_cons, ih (h.step hnew) hnodup fun a ha x hx => ?_]
    · exact only_buildProject h List.mem_cons_self (hF b List.mem_cons_self)
    · rw [hcwd] at hx
      exact hF a (List.mem_cons_of_mem _ ha) x hx

/-- **What a run leaves to each of its projects** is what it would have built on its own part of
the tree. -/
theorem buildAll_only (h : Ready dirs names t) (hnodup : names.Nodup) :
    ∀ a ∈ (buildAll dirs names t).1,
      buildProject dirs a.1 (t.only (dirs.footprint a.1 t.cwd)) =
        (a.2, (buildAll dirs names t).2.only (dirs.footprint a.1 t.cwd)) := by
  induction names generalizing t with
  | nil => exact fun a ha => absurd ha List.not_mem_nil
  | cons b rest ih =>
    obtain ⟨hnew, hnodup⟩ := List.nodup_cons.1 hnodup
    have hb : b ∈ b :: rest := List.mem_cons_self
    have hstep := h.step hnew
    have hcwd := (clear_buildProject h hb).2.1
    intro a ha
    rw [buildAll_cons] at ha ⊢
    rcases List.mem_cons.1 ha with rfl | ha
    · -- what is built later leaves the first project alone
      rw [buildProject_only h.wellFormed (h.down b hb)]
      congr 1
      refine (only_buildAll hstep hnodup fun a ha x hx => ?_).symm
      rw [hcwd] at hx
      have hne : b ≠ a := fun he => hnew (he ▸ ha)
      exact BuildDirs.footprint_eq_false h.apart hb (List.mem_cons_of_mem _ ha) hne (h.plain b hb) hx
    · -- and what was built first leaves the later ones alone
      have hname : a.1 ∈ rest := by
        rw [← names_buildAll dirs rest (buildProject dirs b t).2]
        exact List.mem_map_of_mem ha
      have hmem := List.mem_cons_of_mem b hname
      have hne : a.1 ≠ b := fun he => hnew (he ▸ hname)
      have hsame := only_buildProject h hb fun x hx =>
        BuildDirs.footprint_eq_false h.apart hmem hb hne (h.plain a.1 hmem) hx
      have hlater := ih hstep hnodup a ha
      rwa [hcwd, hsame] at hlater

/-! ## The command -/

theorem isDir_of_resolve? {c : Config} (h : c.resolve? t = .ok dirs) : t.isDir dirs.scenes = true := by
  unfold Config.resolve? at h
  split at h
  · cases h
  · obtain ⟨_, -, h⟩ := bind_eq_ok h
    obtain ⟨_, -, h⟩ := bind_eq_ok h
    obtain ⟨_, -, h⟩ := bind_eq_ok h
    obtain ⟨_, hscenes, h⟩ := bind_eq_ok h
    cases h
    unfold Config.requireDir at hscenes
    split at hscenes
    · assumption
    · cases hscenes

/-- The projects of a directory have plain names, in order. -/
theorem plain_of_projectNames? {dir : Path} (ht : t.WellFormed) (h : projectNames? t dir = .ok names) :
    names.Pairwise (· < ·) ∧ ∀ name ∈ names, Path.Plain name := by
  unfold projectNames? at h
  split at h
  · cases h
  · rename_i entries hlist
    cases h
    refine ⟨Catalog.pairwise_sorted _, fun name hname => ?_⟩
    obtain ⟨⟨place, e⟩, ha, hplace⟩ := List.mem_filterMap.1 (Catalog.mem_sorted.1 hname)
    obtain ⟨-, hplain⟩ := Project.plain_of_listed ht hlist ha
    simp only at hplace
    split at hplace
    · split at hplace
      · cases hplace
        exact hplain _ List.mem_cons_self
      · cases hplace
    · cases hplace

theorem sublist_of_select? {available wanted : List String} (h : select? available wanted = .ok names) :
    names.Sublist available := by
  unfold select? at h
  split at h
  · cases h
    exact List.Sublist.refl _
  · split at h
    · cases h
    · cases h
      exact List.filter_sublist

/-- A project that is there can be selected alone. -/
theorem select?_single {available : List String} (hsorted : available.Pairwise (· < ·))
    (h : name ∈ available) : select? available [name] = .ok [name] := by
  have hnodup : available.Nodup := List.Pairwise.imp (fun hlt => ne_of_lt hlt) hsorted
  have hfind : [name].find? (· ∉ available) = none := by
    rw [List.find?_singleton, if_neg]
    simpa using h
  have hfilter : available.filter (· ∈ [name]) = [name] := by
    have hone : available.count name = 1 := List.count_eq_one_of_mem hnodup h
    simp only [List.mem_singleton]
    rw [List.filter_eq, hone]
    rfl
  unfold select?
  rw [hfind, hfilter]
  rfl

variable {args : BuildArgs}

/-- **What a build works on**: projects with plain names, in order, in directories that are there;
and each of them alone, if it is asked for. -/
theorem prepare?_eq_ok (ht : t.WellFormed) (h : prepare? args t = .ok (dirs, names)) :
    t.isDir dirs.scenes = true ∧ names.Pairwise (· < ·) ∧ (∀ name ∈ names, Path.Plain name) ∧
      ∀ name ∈ names, prepare? { args with names := [name] } t = .ok (dirs, [name]) := by
  obtain ⟨c, hconfig, hc⟩ := bind_eq_ok h
  obtain ⟨dirs', hdirs, hd⟩ := bind_eq_ok hc
  obtain ⟨available, havailable, hn⟩ := bind_eq_ok hd
  obtain ⟨names', hselect, he⟩ := bind_eq_ok hn
  cases he
  obtain ⟨hsorted, hplain⟩ := plain_of_projectNames? ht havailable
  have hsub := sublist_of_select? hselect
  refine ⟨isDir_of_resolve? hdirs, hsorted.sublist hsub, fun name hname => hplain name (hsub.subset hname),
    fun name hname => ?_⟩
  have hconfig' : config? { args with names := [name] } t = .ok c := hconfig
  have hsingle := select?_single hsorted (hsub.subset hname)
  simp only [prepare?, hconfig', hdirs, havailable, hsingle, bind, Except.bind]

/-- A line that opens the block of a project. -/
def isHead (line : String) : Bool := "PROJECT:".toList.isPrefixOf line.toList

theorem isHead_eq_false {pre : String} {c : Char} {cs : List Char} (hpre : pre.toList = c :: cs)
    (hc : c ≠ 'P') (s : String) : isHead (pre ++ s) = false := by
  have hhead : "PROJECT:".toList = 'P' :: "ROJECT:".toList := rfl
  rw [isHead, String.toList_append, hpre, hhead, List.cons_append, List.isPrefixOf,
    beq_eq_false_iff_ne.2 hc.symm, Bool.false_and]

theorem prefix_append_bar (name : String) {s : List Char} :
    "PROJECT:".toList ++ (name.toList ++ "|".toList) <+:
      "PROJECT:".toList ++ (name.toList ++ '|' :: s) := by
  refine ⟨s, ?_⟩
  rw [List.append_assoc, List.append_assoc]
  rfl

/-- **The block of a project** has one head, with its name. -/
theorem projectLines_eq (name : String) (r : Except Fault Report) : ∃ line rest,
    projectLines name r = line :: rest ∧ ("PROJECT:" ++ name ++ "|").toList <+: line.toList ∧
      ∀ l ∈ rest, isHead l = false := by
  cases r with
  | ok r =>
    refine ⟨_, [], rfl, ?_, fun l hl => absurd hl List.not_mem_nil⟩
    have hbar : "|OK|SCENES:".toList = '|' :: "OK|SCENES:".toList := rfl
    simp only [String.toList_append, List.append_assoc, hbar, List.cons_append]
    exact prefix_append_bar name
  | error f =>
    refine ⟨_, faultLines f, rfl, ?_, fun l hl => ?_⟩
    · have hbar : "|ERROR".toList = '|' :: "ERROR".toList := rfl
      simp only [String.toList_append, List.append_assoc, hbar]
      exact prefix_append_bar name
    · -- no line of a fault starts as a head does
      have hletter : 'E' ≠ 'P' := by decide
      unfold faultLines at hl
      rcases List.mem_append.1 hl with hl | hl
      · rcases List.mem_pair.1 hl with rfl | rfl
        · exact isHead_eq_false rfl hletter _
        · exact isHead_eq_false rfl hletter _
      · split at hl
        · cases hl
        · rw [List.mem_singleton.1 hl]
          exact isHead_eq_false rfl hletter _

theorem isHead_of_opens {line : String} (h : ("PROJECT:" ++ name ++ "|").toList <+: line.toList) :
    isHead line = true := by
  refine List.isPrefixOf_iff_prefix.2 (List.IsPrefix.trans ?_ h)
  rw [String.toList_append, String.toList_append, List.append_assoc]
  exact List.prefix_append _ _

/-- **A build prints one block for each project**, in order. -/
theorem heads_buildOutcome (results : List (String × Except Fault Report)) :
    List.Forall₂ (fun name line => ("PROJECT:" ++ name ++ "|").toList <+: line.toList)
      (results.map (·.1)) ((buildOutcome results).lines.filter isHead) := by
  have hblocks : List.Forall₂ (fun name line => ("PROJECT:" ++ name ++ "|").toList <+: line.toList)
      (results.map (·.1)) ((results.flatMap fun a => projectLines a.1 a.2).filter isHead) := by
    induction results with
    | nil => exact .nil
    | cons a results ih =>
      obtain ⟨line, rest, hlines, hhead, hrest⟩ := projectLines_eq a.1 a.2
      -- of a block only the first line is a head
      have hnone : rest.filter isHead = [] :=
        List.filter_eq_nil_iff.2 fun l hl => Bool.not_eq_true _ ▸ hrest l hl
      rw [List.map_cons, List.flatMap_cons, List.filter_append, hlines,
        List.filter_cons_of_pos (isHead_of_opens hhead), hnone, List.singleton_append]
      exact .cons hhead ih
  -- the line of the result in front of the blocks is none
  have hfirst : ∀ s, isHead ("RESULT:" ++ s) = false := isHead_eq_false rfl (by decide)
  unfold buildOutcome
  rw [List.filter_cons_of_neg (by rw [hfirst]; exact Bool.false_ne_true)]
  exact hblocks

/-- A build answers 1 if some project failed. -/
theorem exit_buildOutcome (results : List (String × Except Fault Report)) :
    (buildOutcome results).exit = 1 ↔ ∃ a ∈ results, ∃ f, a.2 = .error f := by
  have hbad : ∀ r : Except Fault Report, r.isOk = false ↔ ∃ f, r = .error f := by
    intro r
    cases r with
    | ok r => exact ⟨nofun, nofun⟩
    | error f => exact ⟨fun _ => ⟨f, rfl⟩, fun _ => rfl⟩
  have hall : (results.all fun a => a.2.isOk) = false ↔ ∃ a ∈ results, ∃ f, a.2 = .error f := by
    rw [List.all_eq_false]
    refine exists_congr fun a => and_congr_right fun _ => ?_
    rw [Bool.not_eq_true]
    exact hbad a.2
  rw [← hall]
  unfold buildOutcome
  cases results.all fun a => a.2.isOk with
  | true => exact ⟨nofun, nofun⟩
  | false => exact ⟨fun _ => rfl, fun _ => rfl⟩

theorem runBuild_eq (hlog : args.log = none) (hprepare : prepare? args t = .ok (dirs, names)) :
    runBuild args t = (buildOutcome (buildAll dirs names t).1, (buildAll dirs names t).2) := by
  unfold runBuild
  rw [hlog]
  simp only [hprepare]

/-- **Projects are isolated.** A build that passes configuration and selection gives for each
project what it would give on that project's own part of the tree, and what it gives if this
project is built alone, whichever others succeed or fail. It prints one block for each project, in
order of their names, and answers 1 if one of them failed. -/
theorem projects_isolated (hlog : args.log = none) (hprepare : prepare? args t = .ok (dirs, names))
    (ht : t.WellFormed) (hapart : dirs.Apart names t.cwd)
    (hdown : ∀ name ∈ names, ∀ p, open? t dirs name = .ok p → p.Downward t) :
    ∃ results v, runBuild args t = (buildOutcome results, v) ∧ results.map (·.1) = names ∧
      (∀ a ∈ results,
        buildProject dirs a.1 (t.only (dirs.footprint a.1 t.cwd)) =
          (a.2, v.only (dirs.footprint a.1 t.cwd)) ∧
        ∃ u, runBuild { args with names := [a.1] } t = (buildOutcome [a], u) ∧
          u.only (dirs.footprint a.1 t.cwd) = v.only (dirs.footprint a.1 t.cwd)) ∧
      names.Pairwise (· < ·) ∧
      List.Forall₂ (fun name line => ("PROJECT:" ++ name ++ "|").toList <+: line.toList) names
        ((buildOutcome results).lines.filter isHead) ∧
      ((buildOutcome results).exit = 1 ↔ ∃ a ∈ results, ∃ f, a.2 = .error f) := by
  obtain ⟨hscenes, hsorted, hplain, halone⟩ := prepare?_eq_ok ht hprepare
  have hready : Ready dirs names t := ⟨ht, hscenes, hplain, hapart, hdown⟩
  have hnodup : names.Nodup := List.Pairwise.imp (fun hlt => ne_of_lt hlt) hsorted
  have hnames := names_buildAll dirs names t
  have hheads := heads_buildOutcome (buildAll dirs names t).1
  rw [hnames] at hheads
  refine ⟨_, _, runBuild_eq hlog hprepare, hnames, fun a ha => ?_, hsorted, hheads, exit_buildOutcome _⟩
  have hname : a.1 ∈ names := hnames ▸ List.mem_map_of_mem ha
  have hpart := buildAll_only hready hnodup a ha
  have hwhole := buildProject_only ht (hdown a.1 hname)
  rw [hpart, Prod.mk.injEq] at hwhole
  -- the project alone is built on the same tree, so it gives the same
  have hone : buildAll dirs [a.1] t = ([a], (buildProject dirs a.1 t).2) := by
    have hsame : (a.1, (buildProject dirs a.1 t).1) = a := Prod.ext rfl hwhole.1.symm
    rw [buildAll_cons, hsame]
    rfl
  refine ⟨hpart, (buildProject dirs a.1 t).2, ?_, hwhole.2.symm⟩
  have hlog' : ({ args with names := [a.1] } : BuildArgs).log = none := hlog
  rw [runBuild_eq hlog' (halone a.1 hname), hone]

/-- Two projects, one of which plans a scene that is no document. -/
def village : FileTree where
  cwd := []
  entries := [(["g"], .dir), (["g", "Saves"], .dir), (["g", "Saves", "scene"], .dir),
    (["g", "Saves", "scene", "x"], .dir),
    (["g", "Saves", "scene", "x", "Hall.json"], .file "\x7b\"atoms\":[]\x7d".toUTF8),
    (["p"], .dir), (["p", "x"], .dir),
    (["p", "x", "blueprint.json"], .file "\x7b\"scenes\":[\"Room.json\"]\x7d".toUTF8),
    (["p", "y"], .dir),
    (["p", "y", "blueprint.json"], .file "\x7b\"scenes\":[\"Room.txt\"]\x7d".toUTF8),
    (["t"], .dir), (["t", "default.json"], .file "[]".toUTF8),
    (["t", "scene.json"], .file "\x7b\"atoms\":[]\x7d".toUTF8)]

/-- A build of all its projects. -/
def villageArgs : BuildArgs where
  config := ⟨["c"]⟩
  game := some ⟨["g"]⟩
  projects := some ⟨["p"]⟩
  templates := some ⟨["t"]⟩
  names := []
  log := none

/-- The directories that it works with. -/
def villageDirs : BuildDirs := ⟨⟨["g", "Saves", "scene"]⟩, ⟨["p"]⟩, ⟨["t"]⟩⟩

/-- One of its projects. -/
def villageProject (name path : String) : Project where
  name := name
  dir := ⟨["p", name]⟩
  source := ⟨["g", "Saves", "scene", name]⟩
  build := ⟨["g", "Saves", "scene", Project.buildName name]⟩
  blueprint := { scenes := [⟨path, none⟩] }
  templates := ⟨⟨["t"]⟩⟩

theorem prepare?_village : prepare? villageArgs village = .ok (villageDirs, ["x", "y"]) := by cbv

theorem downward_village : ∀ name ∈ ["x", "y"], ∀ p, open? village villageDirs name = .ok p →
    p.Downward village := by
  have hx : open? village villageDirs "x" = .ok (villageProject "x" "Room.json") := by cbv
  have hy : open? village villageDirs "y" = .ok (villageProject "y" "Room.txt") := by cbv
  have hpaths : (villageProject "x" "Room.json").scenePaths village = ["Room.json", "Hall.json"] := by
    cbv
  have hpaths' : (villageProject "y" "Room.txt").scenePaths village = ["Room.txt"] := by cbv
  intro name hname p hopen
  rcases List.mem_pair.1 hname with rfl | rfl
  · rw [hx, Except.ok.injEq] at hopen
    subst hopen
    refine ⟨?_, by decide, by decide⟩
    rw [hpaths]
    decide
  · rw [hy, Except.ok.injEq] at hopen
    subst hopen
    refine ⟨?_, by decide, by decide⟩
    rw [hpaths']
    decide

/-- The projects of the village are built as if each were alone. -/
theorem projects_isolated_village :
    prepare? villageArgs village = .ok (villageDirs, ["x", "y"]) ∧ village.WellFormed ∧
      villageDirs.Apart ["x", "y"] [] ∧
      ∃ results v, runBuild villageArgs village = (buildOutcome results, v) ∧
        results.map (·.1) = ["x", "y"] ∧ ∀ a ∈ results,
          buildProject villageDirs a.1 (village.only (villageDirs.footprint a.1 [])) =
            (a.2, v.only (villageDirs.footprint a.1 [])) := by
  have hwf : village.WellFormed := by decide
  have hapart : villageDirs.Apart ["x", "y"] village.cwd := by decide
  obtain ⟨results, v, hrun, hnames, hparts, -⟩ :=
    projects_isolated rfl prepare?_village hwf hapart downward_village
  exact ⟨prepare?_village, hwf, hapart, results, v, hrun, hnames, fun a ha => (hparts a ha).1⟩

end Command

end Stagecraft
