import Mathlib
import Stagecraft.Proofs.Controls
import Stagecraft.Proofs.Fallible
import Stagecraft.Proofs.Growth
import Stagecraft.Proofs.Reading
import Stagecraft.Proofs.Stock

/-!
# What a scaffold leaves in the scenes

All scenes of a project share one pool, which suffices for each of its stories. So every scene
has the controls that the compilation of its story addresses, whichever story it is.

* `Capacity.Covers`, `SceneSet.covers_of_capacity?`: the capacity of a project suffices for each
  story.
* `TemplateStore.Furnishes`, `Stage.mem_pool_of_isControl`: templates that make the controls.
* `Project.run_of_compileAll?`, `Project.assemble?_eq_ok`, `Project.scaffold_eq_ok_iff`: what was
  done when a project was compiled, assembled and scaffolded.
* `Project.spares_of_save`, `Project.stat_of_save`: what saving leaves as it is, and a scene that
  was saved.
* `Project.wired_of_scaffold`: **no control of a compiled scene is missing** behind a scaffold.
-/

namespace Stagecraft

open Stage
open FileTree (Spares)

/-! ## Steps that can fail -/

namespace Work

variable {α β : Type} {t t' : FileTree}

theorem bind_eq_ok {x : Work α} {f : α → Work β} {b : β} (h : (x >>= f) t = .ok b t') :
    ∃ a u, x t = .ok a u ∧ f a u = .ok b t' := by
  simp only [bind, EStateM.bind] at h
  split at h
  · rename_i a u hx
    exact ⟨a, u, hx, h⟩
  · cases h

theorem eq_ok_of_orFault {change : FileM α} {fault : FileFault → Fault} {a : α}
    (h : change.orFault fault t = .ok a t') : change t = .ok a t' := by
  unfold FileM.orFault at h
  split at h
  · cases h
    assumption
  · cases h

end Work

/-! ## The capacity of a project -/

/-- A capacity suffices for another one. -/
structure Capacity.Covers (c c' : Capacity) : Prop where
  branches : c'.branches ≤ c.branches
  choices : c'.choices ≤ c.choices

namespace Capacity.Covers

variable {c c' c'' : Capacity}

theorem refl (c : Capacity) : c.Covers c := ⟨Nat.le_refl _, Nat.le_refl _⟩

theorem trans (h : c.Covers c') (h' : c'.Covers c'') : c.Covers c'' :=
  ⟨Nat.le_trans h'.branches h.branches, Nat.le_trans h'.choices h.choices⟩

theorem max_left (c c' : Capacity) : (c.max c').Covers c :=
  ⟨Nat.le_max_left _ _, Nat.le_max_left _ _⟩

theorem max_right (c c' : Capacity) : (c.max c').Covers c' :=
  ⟨Nat.le_max_right _ _, Nat.le_max_right _ _⟩

end Capacity.Covers

namespace SceneSet

/-- One story more or none is counted. -/
def count (c : Capacity) (e : String × ProjectScene) : Except Fault Capacity :=
  match e.2.story with
  | none => .ok c
  | some story => story.capacity?.map c.max

theorem covers_of_count {c c' : Capacity} {e : String × ProjectScene} (h : count c e = .ok c') :
    c'.Covers c ∧ ∀ story, e.2.story = some story →
      ∃ need, story.capacity? = .ok need ∧ c'.Covers need := by
  unfold count at h
  split at h
  · rename_i hs
    cases h
    -- without a story nothing is needed, and the count stays
    exact ⟨.refl c, fun story hstory => by rw [hs] at hstory; cases hstory⟩
  · rename_i story hs
    cases hneed : story.capacity? with
    | error f =>
      rw [hneed] at h
      cases h
    | ok need =>
      rw [hneed] at h
      cases h
      -- with one the count is the greater of both, number by number
      refine ⟨.max_left _ _, fun story' hstory => ?_⟩
      rw [hs] at hstory
      cases hstory
      exact ⟨need, hneed, .max_right _ _⟩

/-- A count covers where it started, and each story on the way. -/
theorem covers_of_foldlM {c c' : Capacity} {ss : SceneSet} (h : ss.foldlM count c = .ok c') :
    c'.Covers c ∧ ∀ e ∈ ss, ∀ story, e.2.story = some story →
      ∃ need, story.capacity? = .ok need ∧ c'.Covers need := by
  induction ss generalizing c with
  | nil =>
    cases h
    exact ⟨.refl _, fun e he => by cases he⟩
  | cons e ss ih =>
    rw [List.foldlM_cons] at h
    obtain ⟨next, hnext, h⟩ := bind_eq_ok h
    obtain ⟨hc, hrest⟩ := ih h
    obtain ⟨hcn, hfirst⟩ := covers_of_count hnext
    refine ⟨hc.trans hcn, fun e' he' story hs => ?_⟩
    rcases List.mem_cons.1 he' with rfl | he'
    · obtain ⟨need, hneed, hcover⟩ := hfirst story hs
      exact ⟨need, hneed, hc.trans hcover⟩
    · exact hrest e' he' story hs

/-- **The capacity of a project** suffices for each of its stories. -/
theorem covers_of_capacity? {cap : Capacity} {ss : SceneSet} (h : ss.capacity? = .ok cap)
    {e : String × ProjectScene} (he : e ∈ ss) {story : Story} (hs : e.2.story = some story) :
    ∃ need, story.capacity? = .ok need ∧ cap.Covers need :=
  (covers_of_foldlM h).2 e he story hs

end SceneSet

/-- A story has the branch of its start. -/
theorem Story.branches_pos {s : Story} {cap : Capacity} (h : s.capacity? = .ok cap) :
    0 < cap.branches := by
  obtain ⟨ns, -, hmem, hlen⟩ := (measured_of_capacity? h).heads
  have hstart : s.start.name ∈ ns := (hmem _).2 (.inl rfl)
  rw [← hlen]
  exact List.length_pos_of_mem hstart

/-! ## The pool of a project -/

namespace TemplateStore

theorem exists_of_gather {make : Nat → Except Fault (List Atom)} {i n k : Nat} {as : List Atom}
    (h : gather make i n = .ok as) (h1 : i ≤ k) (h2 : k < i + n) :
    ∃ made, make k = .ok made ∧ made ⊆ as := by
  induction n generalizing i as with
  | zero => omega
  | succ n ih =>
    unfold gather at h
    split at h
    · cases h
    · rename_i made hmade
      cases hrest : gather make (i + 1) n with
      | error f =>
        rw [hrest] at h
        cases h
      | ok rest =>
        rw [hrest] at h
        cases h
        -- the first number is made here, and all others in the rest
        rcases Nat.eq_or_lt_of_le h1 with rfl | h1
        · exact ⟨made, hmade, List.subset_append_left _ _⟩
        · obtain ⟨made', hmade', hsub⟩ := ih hrest (by omega) (by omega)
          exact ⟨made', hmade', List.Subset.trans hsub (List.subset_append_right _ _)⟩

/-- **The templates make the controls**: the panel, the start button and the choice buttons
`1` to `n` come with their ids. -/
structure Furnishes (s : TemplateStore) (t : FileTree) (n : Nat) : Prop where
  dialog : ∀ as, dialogAtoms? s t = .ok as →
    panelId ∈ as.map (·.id) ∧ startButtonId ∈ as.map (·.id)
  button : ∀ k as, 1 ≤ k → k ≤ n → buttonAtoms? s t k = .ok as → buttonId k ∈ as.map (·.id)

end TemplateStore

/-- **The pool has all controls**, if there is a branch at all. -/
theorem Stage.mem_pool_of_isControl {s : TemplateStore} {t : FileTree} {cap : Capacity}
    {as : List Atom} {i : String} (hs : s.Furnishes t cap.choices) (hb : 0 < cap.branches)
    (h : pool? s t cap = .ok as) (hi : IsControl cap.choices i) :
    i ∈ (Registry.ofList as).ids := by
  rw [Registry.ids_ofList, List.mem_eraseDups]
  unfold pool? at h
  rw [if_neg (by omega)] at h
  obtain ⟨roots, hroots, h⟩ := bind_eq_ok h
  obtain ⟨branches, -, h⟩ := bind_eq_ok h
  obtain ⟨buttons, hbuttons, h⟩ := bind_eq_ok h
  cases h
  rw [List.map_append, List.map_append, List.mem_append, List.mem_append]
  -- panel and restart are in the dialog, and each button was made for its number
  cases hi with
  | panel => exact .inl (.inl (hs.dialog roots hroots).1)
  | restart => exact .inl (.inl (hs.dialog roots hroots).2)
  | button h1 h2 =>
    obtain ⟨made, hmade, hsub⟩ := TemplateStore.exists_of_gather hbuttons h1 (by omega)
    exact .inr (List.map_subset _ hsub (hs.button _ made h1 h2 hmade))

/-! ## The scenes of a project -/

namespace Project

variable {p : Project} {t t' : FileTree} {report : Report} {ss ss' : SceneSet}

/-- **What was done when the stories were compiled**: each one into its scene. -/
theorem run_of_compileAll? {template : Trigger} {slots : Nat}
    (h : compileAll? template slots ss = .ok ss') {e : String × ProjectScene} (he : e ∈ ss')
    {story : Story} (hs : e.2.story = some story) :
    ∃ e₀ ∈ ss, e₀.2.story = some story ∧ ∃ out,
      (Compiler.mk story template slots).run e₀.2.scene = (e.2.scene, .ok out) := by
  obtain ⟨⟨path, s⟩, he₀, hrun⟩ := exists_of_mapM h he
  cases hstory : s.story with
  | none =>
    simp only [hstory] at hrun
    -- a scene without a story is kept, so it has none behind the compilation
    cases hrun
    rw [hstory] at hs
    cases hs
  | some story' =>
    simp only [hstory] at hrun
    split at hrun
    · rename_i scene out hout
      cases hrun
      have hsame : story' = story := Option.some.inj hs
      exact ⟨(path, s), he₀, hstory.trans hs, out, hsame ▸ hout⟩
    · cases hrun

/-- **What was done when a project was assembled.** -/
theorem assemble?_eq_ok (h : p.assemble? t = .ok (ss, report)) :
    ∃ packages ss₀ as, p.packageAtoms? t = .ok packages ∧ p.loadScenes? t = .ok ss₀ ∧
      ss₀.capacity? = .ok report.capacity ∧
      pool? p.templates t report.capacity = .ok as ∧
      if report.compiled = 0 then ss = (stocked ss₀ (.ofList as) packages).1
      else ∃ template, triggerTemplate? p.templates t = .ok template ∧
        compileAll? template report.capacity.choices (stocked ss₀ (.ofList as) packages).1 =
          .ok ss := by
  unfold assemble? at h
  obtain ⟨packages, hpackages, h⟩ := bind_eq_ok h
  obtain ⟨ss₀, hss₀, h⟩ := bind_eq_ok h
  obtain ⟨capacity, hcapacity, h⟩ := bind_eq_ok h
  obtain ⟨as, has, h⟩ := bind_eq_ok h
  obtain ⟨made, shared, hstocked⟩ :
    ∃ made shared, stocked ss₀ (.ofList as) packages = (made, shared) := ⟨_, _, rfl⟩
  simp only [hstocked] at h
  generalize (if packages.isEmpty then 0 else storyCount made) = compiled at h
  -- the stories are compiled if there are any, and packages to play them
  split at h
  · rename_i hz
    cases h
    exact ⟨packages, ss₀, as, hpackages, hss₀, hcapacity, has, by rw [if_pos hz, hstocked]⟩
  · rename_i hz
    obtain ⟨template, htemplate, h⟩ := bind_eq_ok h
    obtain ⟨result, hresult, h⟩ := bind_eq_ok h
    cases h
    refine ⟨packages, ss₀, as, hpackages, hss₀, hcapacity, has, ?_⟩
    rw [if_neg hz, hstocked]
    exact ⟨template, htemplate, hresult⟩

/-- **What a scaffold does**: it prepares the build directory, assembles the scenes, and saves
them. -/
theorem scaffold_eq_ok_iff : p.scaffold t = .ok report t' ↔
    ∃ t₁ ss, p.prepare t = .ok () t₁ ∧ p.assemble? t₁ = .ok (ss, report) ∧
      p.save ss t₁ = .ok () t' := by
  constructor
  · intro h
    obtain ⟨⟨⟩, t₁, hprepare, h⟩ := Work.bind_eq_ok h
    obtain ⟨_, _, hget, h⟩ := Work.bind_eq_ok h
    cases hget
    cases hassemble : p.assemble? t₁ with
    | error f =>
      rw [hassemble] at h
      cases h
    | ok made =>
      rw [hassemble] at h
      obtain ⟨⟨⟩, t₂, hsave, h⟩ := Work.bind_eq_ok h
      cases h
      exact ⟨t₁, made.1, hprepare, hassemble, hsave⟩
  · rintro ⟨t₁, ss, hprepare, hassemble, hsave⟩
    simp only [scaffold, bind, EStateM.bind, get, getThe, MonadStateOf.get, EStateM.get, hprepare,
      hassemble, hsave]
    rfl

/-- The first scene is saved, and then the others. -/
theorem save_cons_eq_ok (h : p.save (e :: ss) t = .ok () t') : ∃ u,
    u.stat (p.build.child e.1) = .ok (.file e.2.scene.fileContent) ∧
    Spares (· = (p.build.child e.1).place t.cwd) t u ∧ p.save ss u = .ok () t' := by
  obtain ⟨path, s⟩ := e
  obtain ⟨⟨⟩, t₁, hmake, h⟩ := Work.bind_eq_ok h
  obtain ⟨⟨⟩, t₂, hwrite, h⟩ := Work.bind_eq_ok h
  replace hwrite := Work.eq_ok_of_orFault hwrite
  have hmade := FileTree.spares_makeDirs t (p.build.child path).parent
    (F := (· = (p.build.child path).place t.cwd))
  rw [Work.eq_ok_of_orFault hmake] at hmade
  have hwritten := FileTree.spares_write t₁ (p.build.child path) s.scene.fileContent
  have hcwd : t₁.cwd = t.cwd := hmade.cwd_eq
  rw [hwrite, hcwd] at hwritten
  exact ⟨t₂, FileTree.stat_of_write hwrite, hmade.trans hwritten, h⟩

/-- Saving leaves all directories where they are, and all files but those of the scenes. -/
theorem spares_of_save (h : p.save ss t = .ok () t') :
    Spares (fun q => ∃ e ∈ ss, (p.build.child e.1).place t.cwd = q) t t' := by
  induction ss generalizing t with
  | nil =>
    cases h
    exact .refl
  | cons e ss ih =>
    obtain ⟨u, -, hfirst, hrest⟩ := save_cons_eq_ok h
    have hlater := ih hrest
    rw [hfirst.cwd_eq] at hlater
    refine (hfirst.mono ?_).trans (hlater.mono ?_)
    · rintro q rfl
      exact ⟨e, List.mem_cons_self, rfl⟩
    · rintro q ⟨x, hx, hq⟩
      exact ⟨x, List.mem_cons_of_mem _ hx, hq⟩

/-- **A scene that was saved** is in its file, if no later one was saved to the same place. -/
theorem stat_of_save (h : p.save (front ++ e :: later) t = .ok () t')
    (hlater : ∀ x ∈ later,
      (p.build.child x.1).place t.cwd ≠ (p.build.child e.1).place t.cwd) :
    t'.stat (p.build.child e.1) = .ok (.file e.2.scene.fileContent) := by
  induction front generalizing t with
  | nil =>
    obtain ⟨u, hthere, hfirst, hrest⟩ := save_cons_eq_ok h
    refine (spares_of_save hrest).stat_file hthere ?_
    rintro ⟨x, hx, hplace⟩
    rw [hfirst.cwd_eq] at hplace
    exact hlater x hx hplace
  | cons x front ih =>
    obtain ⟨u, -, hfirst, hrest⟩ := save_cons_eq_ok h
    rw [← hfirst.cwd_eq] at hlater
    exact ih hrest hlater

/-- **The scenes of an assembled project** whose stories were compiled are wired. -/
theorem wired_of_assemble? (h : p.assemble? t = .ok (ss, report))
    (hfurnish : p.templates.Furnishes t report.capacity.choices)
    (hplain : ∀ ss₀, p.loadScenes? t = .ok ss₀ → ∀ e ∈ ss₀, ∀ story, e.2.story = some story →
      ∀ q ∈ story.others, q.name ≠ story.start.name)
    (hcompiled : report.compiled ≠ 0) {e : String × ProjectScene} (he : e ∈ ss) {story : Story}
    (hs : e.2.story = some story) :
    ∃ template s₀ out, (Compiler.mk story template report.capacity.choices).run s₀ =
      (e.2.scene, .ok out) ∧ out.Wired e.2.scene := by
  obtain ⟨packages, ss₀, as, -, hload, hcapacity, hpool, hss⟩ := assemble?_eq_ok h
  rw [if_neg hcompiled] at hss
  obtain ⟨template, -, hcompile⟩ := hss
  obtain ⟨e₁, he₁, hs₁, out, hrun⟩ := run_of_compileAll? hcompile he hs
  obtain ⟨e₀, he₀, hstory⟩ := SceneSet.exists_story_of_stocked he₁
  rw [hs₁] at hstory
  -- the pool was made for the whole project, so it suffices for this story
  obtain ⟨need, hneed, hcovers⟩ := SceneSet.covers_of_capacity? hcapacity he₀ hstory.symm
  have hbranch : 0 < report.capacity.branches :=
    Nat.lt_of_lt_of_le (Story.branches_pos hneed) hcovers.branches
  have hcontrols : ∀ i, IsControl report.capacity.choices i → i ∈ e₁.2.scene.atoms.ids := by
    intro i hi
    obtain ⟨a, ha, rfl⟩ := List.mem_map.1 (mem_pool_of_isControl hfurnish hbranch hpool hi)
    exact (SceneSet.has_stocked ss₀ (.ofList as) packages).1 e₁ he₁ a ha
  have hstart := Story.find?_start_of_unique (hplain ss₀ hload e₀ he₀ story hstory.symm)
  have hok : ((Compiler.mk story template report.capacity.choices).run e₁.2.scene).2 = .ok out :=
    congrArg Prod.snd hrun
  refine ⟨template, e₁.2.scene, out, hrun, ?_⟩
  have hwired := Compiler.wired_of_run hstart (Story.measured_of_capacity? hneed) hcovers.choices
    hcontrols hok
  rwa [hrun] at hwired

/-- **No control of a compiled scene is missing** behind a scaffold. If the templates make the
controls and no story hides its start, then the stories were compiled into scenes in which
everything is there that the triggers of a story address, and these scenes are in their files,
unless the path of a later scene leads to the same place. -/
theorem wired_of_scaffold {t₁ : FileTree} (hprepare : p.prepare t = .ok () t₁)
    (hscaffold : p.scaffold t = .ok report t')
    (hfurnish : p.templates.Furnishes t₁ report.capacity.choices)
    (hplain : ∀ ss₀, p.loadScenes? t₁ = .ok ss₀ → ∀ e ∈ ss₀, ∀ story, e.2.story = some story →
      ∀ q ∈ story.others, q.name ≠ story.start.name)
    (hcompiled : report.compiled ≠ 0) :
    ∃ ss, p.assemble? t₁ = .ok (ss, report) ∧ p.save ss t₁ = .ok () t' ∧
      ∀ e ∈ ss, ∀ story, e.2.story = some story →
        (∃ template s₀ out, (Compiler.mk story template report.capacity.choices).run s₀ =
          (e.2.scene, .ok out) ∧ out.Wired e.2.scene) ∧
        ∀ front later, ss = front ++ e :: later →
          (∀ x ∈ later,
            (p.build.child x.1).place t₁.cwd ≠ (p.build.child e.1).place t₁.cwd) →
          t'.stat (p.build.child e.1) = .ok (.file e.2.scene.fileContent) := by
  obtain ⟨t₂, ss, hprepare', hassemble, hsave⟩ := scaffold_eq_ok_iff.1 hscaffold
  rw [hprepare] at hprepare'
  cases hprepare'
  refine ⟨ss, hassemble, hsave, fun e he story hs => ⟨?_, ?_⟩⟩
  · exact wired_of_assemble? hassemble hfurnish hplain hcompiled he hs
  · rintro front later rfl
    exact stat_of_save hsave

/-! ## A prompt with one choice -/

/-- A template that makes a branch and its length. -/
def branchText : String :=
  "[\x7b\"id\":\"$ID\",\"storables\":[\x7b\"id\":\"AnimationPattern\"\x7d]\x7d,\x7b\"id\":\"$ID-Duration\",\"storables\":[\x7b\"id\":\"Step\"\x7d]\x7d]"

/-- The templates of a project. -/
def kit : List (String × String) :=
  [("default", "[\x7b\"id\":\"Core\"\x7d]"), ("scene", "\x7b\"atoms\":[]\x7d"), ("trigger", "\x7b\x7d"),
    ("dialog", "[\x7b\"id\":\"Dialog-Choices\"\x7d,\x7b\"id\":\"Dialog-StartBtn\"\x7d]"),
    ("dialog_branch", branchText), ("dialog_choice", "[\x7b\"id\":\"$ID\"\x7d]")]

def kitText (name : String) : String := (kit.lookup name).getD ""

/-- A prompt with one choice. -/
def forkText : String :=
  "\x7b\"passages\":[\x7b\"name\":\"a\",\"tags\":[\"Ann\",\"says\",\"prompt\"],\"links\":[\x7b\"link\":\"b\",\"name\":\"b\"\x7d]\x7d,\x7b\"name\":\"b\",\"tags\":[\"delay\"]\x7d]\x7d"

def shelf : FileTree where
  cwd := []
  entries := [(["t"], .dir), (["p"], .dir), (["p", "s.json"], .file forkText.toUTF8)] ++
    kit.map fun e => (["t", e.1 ++ ".json"], .file e.2.toUTF8)

/-- A project whose only scene plays the prompt. -/
def duet : Project where
  name := "p"
  dir := ⟨["p"]⟩
  source := ⟨["s"]⟩
  build := ⟨["b"]⟩
  blueprint := { scenes := [⟨"x.json", some "s.json"⟩] }
  templates := ⟨⟨["t"]⟩⟩

/-- The paths that the project uses can be followed. -/
theorem fault?_duet {names : List String} (h : names ∈ [["s"], ["b"], ["b", "x.json"],
    ["p", "s.json"], ["t", "default.json"], ["t", "scene.json"], ["t", "trigger.json"],
    ["t", "dialog.json"], ["t", "dialog_branch.json"], ["t", "dialog_choice.json"]]) :
    Path.fault? ⟨names⟩ = none := by
  simp only [List.mem_cons, List.not_mem_nil, or_false] at h
  rcases h with rfl | rfl | rfl | rfl | rfl | rfl | rfl | rfl | rfl | rfl <;> cbv

theorem stat_kit {name : String} (h : name ∈ kit.map (·.1)) :
    shelf.stat (duet.templates.pathOf name) = .ok (.file (kitText name).toUTF8) := by
  have hnames : kit.map (·.1) =
    ["default", "scene", "trigger", "dialog", "dialog_branch", "dialog_choice"] := rfl
  simp only [hnames, List.mem_cons, List.not_mem_nil, or_false] at h
  have hpath : duet.templates.pathOf name = ⟨["t", name ++ ".json"]⟩ ∧
      Path.fault? ⟨["t", name ++ ".json"]⟩ = none ∧ Path.Plain (name ++ ".json") ∧
      shelf.entry? ["t", name ++ ".json"] = some (.file (kitText name).toUTF8) := by
    rcases h with rfl | rfl | rfl | rfl | rfl | rfl <;>
      exact ⟨by decide +kernel, fault?_duet (by decide), by decide, rfl⟩
  obtain ⟨hpath, hfault, hplain, hentry⟩ := hpath
  have hresolve : shelf.resolve ⟨["t", name ++ ".json"]⟩ = .ok ["t", name ++ ".json"] :=
    FileTree.resolve_pair hfault (by decide) hplain rfl rfl
  simp only [hpath, FileTree.stat, hresolve, hentry]

theorem load?_kit {name : String} (h : name ∈ kit.map (·.1)) (values : Placeholders) :
    duet.templates.load? shelf name values = TemplateStore.parse? name values (kitText name) :=
  TemplateStore.load?_of_stat (stat_kit h)

theorem instantiate?_kit {name : String} {values : Placeholders} {vs : List Json} {as : List Atom}
    (h : name ∈ kit.map (·.1)) (hp : TemplateStore.parse? name values (kitText name) = .ok (.arr vs))
    (ha : vs.mapM Atom.ofJson? = .ok as) :
    duet.templates.instantiate? shelf name values = .ok as := by
  simp only [TemplateStore.instantiate?, load?_kit h, hp, ha]

/-- The object of an atom or a storable with an id only, and of an atom with a storable. -/
def idObject (i : String) : Json := .obj [("id", .str i)]

def holderObject (i st : String) : Json := .obj [("id", .str i), ("storables", .arr [idObject st])]

set_option maxRecDepth 4000 in
/-- The documents of the templates. -/
theorem parse?_kit :
    TemplateStore.parse? "default" {} (kitText "default") = .ok (.arr [idObject "Core"]) ∧
    TemplateStore.parse? "scene" {} (kitText "scene") = .ok (.obj [("atoms", .arr [])]) ∧
    TemplateStore.parse? "trigger" {} (kitText "trigger") = .ok (.obj []) ∧
    TemplateStore.parse? "dialog" {} (kitText "dialog") =
      .ok (.arr [idObject panelId, idObject startButtonId]) ∧
    (∀ i, i = "Dialog-Branch#1" ∨ i = "Dialog-Branch#2" →
      TemplateStore.parse? "dialog_branch" { id := some i } (kitText "dialog_branch") =
        .ok (.arr [holderObject i "AnimationPattern", holderObject (durationId i) "Step"])) ∧
    ∀ y, TemplateStore.parse? "dialog_choice"
      { id := some "Dialog-Choices-Btn#1", position := some y } (kitText "dialog_choice") =
        .ok (.arr [idObject "Dialog-Choices-Btn#1"]) := by
  refine ⟨?_, ?_, ?_, ?_, fun i hi => ?_, fun y => ?_⟩
  · exact (TemplateStore.parse?_ofList _ _ _).trans (by cbv)
  · exact (TemplateStore.parse?_ofList _ _ _).trans (by cbv)
  · exact (TemplateStore.parse?_ofList _ _ _).trans (by cbv)
  · exact (TemplateStore.parse?_ofList _ _ _).trans (by cbv)
  · rw [show kitText "dialog_branch" = branchText from rfl, branchText]
    refine (TemplateStore.parse?_ofList _ _ _).trans ?_
    rcases hi with rfl | rfl <;> cbv
  · exact (TemplateStore.parse?_ofList _ _ _).trans (by cbv)

/-- An atom with an id only, and one with a storable. -/
def idAtom (i : String) : Atom := ⟨i, [("id", .str i)], .empty⟩

def holder (i st : String) : Atom :=
  ⟨i, [("id", .str i), ("storables", .null)], .ofList [⟨st, [("id", .str st)]⟩]⟩

def branchPair (i : String) : List Atom := [holder i "AnimationPattern", holder (durationId i) "Step"]

theorem packageAtoms_duet : duet.packageAtoms? shelf = .ok (.ofList [idAtom "Core"]) := by
  obtain ⟨hdefault, -⟩ := parse?_kit
  rw [packageAtoms?, instantiate?_kit (by decide) hdefault rfl]
  rfl

theorem dialogAtoms_duet :
    dialogAtoms? duet.templates shelf = .ok [idAtom panelId, idAtom startButtonId] := by
  obtain ⟨-, -, -, hdialog, -⟩ := parse?_kit
  exact instantiate?_kit (by decide) hdialog rfl

theorem branchAtoms_duet {n : Nat} (h : n = 1 ∨ n = 2) :
    branchAtoms? duet.templates shelf n = .ok (branchPair (branchId n)) := by
  obtain ⟨-, -, -, -, hbranch, -⟩ := parse?_kit
  rcases h with rfl | rfl
  · exact instantiate?_kit (by decide) (hbranch _ (.inl rfl)) rfl
  · exact instantiate?_kit (by decide) (hbranch _ (.inr rfl)) rfl

theorem buttonAtoms_duet : buttonAtoms? duet.templates shelf 1 = .ok [idAtom (buttonId 1)] := by
  obtain ⟨-, -, -, -, -, hchoice⟩ := parse?_kit
  exact instantiate?_kit (by decide) (hchoice _) rfl

theorem trigger_duet : triggerTemplate? duet.templates shelf = .ok [] := by
  have hkit : "trigger" ∈ kit.map (·.1) := by decide
  obtain ⟨-, -, htrigger, -⟩ := parse?_kit
  simp only [triggerTemplate?, load?_kit hkit, htrigger]

set_option maxRecDepth 4000 in
theorem parse?_forkText (source : Option Path) :
    Story.parse? forkText source = .ok Compiler.fork.story := by
  have hraw : Json.raw? forkText = some (.obj [(some "passages", .arr
      [.obj [(some "name", .str (some "a")),
          (some "tags", .arr [.str (some "Ann"), .str (some "says"), .str (some "prompt")]),
          (some "links", .arr [.obj [(some "link", .str (some "b")), (some "name", .str (some "b"))]])],
        .obj [(some "name", .str (some "b")), (some "tags", .arr [.str (some "delay")])]])]) :=
    (Json.raw?_ofList _).trans (by cbv)
  rw [Story.parse?, hraw]
  rfl

theorem story_duet : Story.load? shelf (duet.dir.child "s.json") = .ok Compiler.fork.story := by
  have hpath : duet.dir.child "s.json" = ⟨["p", "s.json"]⟩ := by decide +kernel
  have hstat : shelf.stat (duet.dir.child "s.json") = .ok (.file forkText.toUTF8) := by
    have hresolve : shelf.resolve ⟨["p", "s.json"]⟩ = .ok ["p", "s.json"] :=
      FileTree.resolve_pair (fault?_duet (by decide)) (by decide) (by decide) rfl rfl
    rw [hpath, FileTree.stat, hresolve]
    rfl
  have hfile : shelf.isFile (duet.dir.child "s.json") = true := by
    simp only [FileTree.isFile, hstat]
  simp only [Story.load?, hfile, if_true, FileTree.readText_of_stat hstat, parse?_forkText]

theorem resolve_name {d : String} (hf : Path.fault? ⟨[d]⟩ = none) (hd : Path.Plain d) :
    shelf.resolve ⟨[d]⟩ = .ok [d] := by
  refine FileTree.resolve_plain hf (List.cons_ne_nil _ _) (fun n hn => ?_) fun k hk => ?_
  · rwa [List.mem_singleton.1 hn]
  · match k, hk with
    | 0, _ => rfl

theorem resolve_build : shelf.resolve duet.build = .ok ["b"] :=
  resolve_name (fault?_duet (by decide)) (by decide)

theorem prepare_duet : duet.prepare shelf = .ok () shelf := by
  have hbuild : shelf.exists? duet.build = false := by
    simp only [FileTree.exists?, FileTree.stat, resolve_build]
    rfl
  have hsource : shelf.listBelow duet.source = .error .missing := by
    have hresolve : shelf.resolve duet.source = .ok ["s"] :=
      resolve_name (fault?_duet (by decide)) (by decide)
    simp only [FileTree.listBelow, hresolve]
    rfl
  simp [prepare, get, getThe, MonadStateOf.get, EStateM.get, bind, EStateM.bind, pure, EStateM.pure,
    hbuild, hsource]

theorem loadScenes_duet : duet.loadScenes? shelf =
    .ok [("x.json", ⟨⟨[("atoms", .null)], .empty⟩, some Compiler.fork.story⟩)] := by
  have hexisting : duet.existing shelf = [] := by
    -- there is no build directory yet
    have hlist : shelf.listBelow duet.build = .error .missing := by
      simp only [FileTree.listBelow, resolve_build]
      rfl
    simp only [existing, hlist]
  have hplanned : duet.planned shelf = [("x.json", some "s.json")] := by
    rw [planned, hexisting]
    decide +kernel
  have hscene : isScenePath "x.json" = true := by decide +kernel
  have hload : duet.loadScene? shelf [] "x.json" (some "s.json") =
      .ok ⟨⟨[("atoms", .null)], .empty⟩, some Compiler.fork.story⟩ := by
    have hkit : "scene" ∈ kit.map (·.1) := by decide
    obtain ⟨-, hparse, -⟩ := parse?_kit
    simp only [loadScene?, hscene, story_duet, load?_kit hkit, hparse]
    rfl
  simp only [loadScenes?, hexisting, hplanned, List.mapM_cons, List.mapM_nil, hload]
  rfl

/-- The pool of the project. -/
def duetPool : List Atom :=
  [idAtom panelId, idAtom startButtonId] ++ (branchPair (branchId 1) ++ branchPair (branchId 2)) ++
    [idAtom (buttonId 1)]

theorem pool_duet : pool? duet.templates shelf ⟨2, 1⟩ = .ok duetPool := by
  have hbranches : TemplateStore.gather (branchAtoms? duet.templates shelf) 1 2 =
      .ok (branchPair (branchId 1) ++ branchPair (branchId 2)) := by
    simp only [TemplateStore.gather, branchAtoms_duet (.inl rfl), branchAtoms_duet (.inr rfl)]
    rfl
  have hbuttons : TemplateStore.gather (buttonAtoms? duet.templates shelf) 1 1 =
      .ok [idAtom (buttonId 1)] := by
    simp only [TemplateStore.gather, buttonAtoms_duet]
    rfl
  simp only [pool?, dialogAtoms_duet, hbranches, hbuttons]
  rfl

/-- The scene behind its stocking. -/
def duetScene : Scene := ⟨[("atoms", .null)], .ofList (duetPool ++ [idAtom "Core"])⟩

theorem run_duet : ∃ out, ((Compiler.mk Compiler.fork.story [] 1).run duetScene).2 = .ok out :=
  ⟨_, Compiler.run_of_script Compiler.heads_fork Compiler.script_fork (by decide +kernel)⟩

/-- The scene of the project before its stocking and behind it. -/
def duetScenes (s : Scene) : SceneSet := [("x.json", ⟨s, some Compiler.fork.story⟩)]

theorem capacity_duet (s : Scene) : (duetScenes s).capacity? = .ok ⟨2, 1⟩ := by
  simp only [duetScenes, SceneSet.capacity?, List.foldlM_cons, List.foldlM_nil,
    Compiler.capacity_fork]
  rfl

theorem stocked_duet : ∃ shared, stocked (duetScenes ⟨[("atoms", .null)], .empty⟩) (.ofList duetPool)
    (.ofList [idAtom "Core"]) = (duetScenes duetScene, shared) := by
  refine ⟨_, Prod.ext ?_ rfl⟩
  rfl

theorem assemble_duet : ∃ report s, duet.assemble? shelf = .ok (duetScenes s, report) ∧
    report.compiled = 1 ∧ report.capacity = ⟨2, 1⟩ := by
  obtain ⟨shared, hstocked⟩ := stocked_duet
  obtain ⟨out, hrun⟩ := run_duet
  have hcompile : compileAll? [] 1 (duetScenes duetScene) =
      .ok (duetScenes ((Compiler.mk Compiler.fork.story [] 1).run duetScene).1) := by
    have hpair : (Compiler.mk Compiler.fork.story [] 1).run duetScene =
        (((Compiler.mk Compiler.fork.story [] 1).run duetScene).1, .ok out) := Prod.ext rfl hrun
    simp only [compileAll?, duetScenes, List.mapM_cons, List.mapM_nil]
    rw [hpair]
    rfl
  have hload : duet.loadScenes? shelf = .ok (duetScenes ⟨[("atoms", .null)], .empty⟩) :=
    loadScenes_duet
  have hempty : (Registry.ofList [idAtom "Core"]).isEmpty = false := rfl
  have hcount : ∀ s, storyCount (duetScenes s) = 1 := fun _ => rfl
  refine ⟨⟨1, 1, (Registry.ofList duetPool).size, shared.size, ⟨2, 1⟩, 1⟩,
    ((Compiler.mk Compiler.fork.story [] 1).run duetScene).1, ?_, rfl, rfl⟩
  simp only [assemble?, packageAtoms_duet, hload, capacity_duet, pool_duet, bind, Except.bind, hstocked,
    hempty, hcount, trigger_duet, hcompile]
  rfl

theorem save_duet (s : Scene) : ∃ t', duet.save (duetScenes s) shelf = .ok () t' := by
  have htarget : duet.build.child "x.json" = ⟨["b", "x.json"]⟩ := by decide +kernel
  have hparent : Path.parent ⟨["b", "x.json"]⟩ = duet.build := by decide +kernel
  have hdirs : FileTree.makeDirs duet.build shelf = .ok () (shelf.put ["b"] .dir) := by
    -- the build directory is missing in one that is there
    have hback : FileTree.makeDirsBack ["b"] shelf = .ok ["b"] (shelf.put ["b"] .dir) := by
      have hresolve : shelf.resolve ⟨["b"].reverse⟩ = .ok ["b"] := resolve_build
      have hnone : shelf.entry? ["b"] = none := rfl
      simp only [FileTree.makeDirsBack, hresolve, FileTree.makeDirAt, hnone]
    have hparts : duet.build.parts.reverse = ["b"] := rfl
    simp only [FileTree.makeDirs, bind, EStateM.bind, hparts, hback]
    rfl
  have hwrite : ∃ t', FileTree.write ⟨["b", "x.json"]⟩ s.fileContent (shelf.put ["b"] .dir) = .ok () t' := by
    have hresolve : (shelf.put ["b"] .dir).resolve ⟨["b", "x.json"]⟩ = .ok ["b", "x.json"] :=
      FileTree.resolve_pair (fault?_duet (by decide)) (by decide) (by decide) rfl rfl
    have hnone : FileTree.entry? (shelf.put ["b"] .dir) ["b", "x.json"] = none := rfl
    have hslash : Path.endsInSlash ⟨["b", "x.json"]⟩ = false := by decide
    simp only [FileTree.write, FileTree.write?, hslash, hresolve, hnone]
    exact ⟨_, rfl⟩
  obtain ⟨t', hwrite⟩ := hwrite
  refine ⟨t', ?_⟩
  simp only [save, duetScenes, htarget, hparent, bind, EStateM.bind, FileM.orFault, hdirs, hwrite]
  rfl

/-- The scene of the prompt is wired, shows the button of its choice, and is in its file. -/
theorem wired_of_scaffold_duet : ∃ report t' s, ∃ out : Compiled,
    duet.scaffold shelf = .ok report t' ∧
    duet.save (duetScenes s) shelf = .ok () t' ∧ out.Wired s ∧
      t'.stat (duet.build.child "x.json") = .ok (.file s.fileContent) ∧
      ∃ v ∈ out.generated s, Action.Shows v 1 := by
  obtain ⟨report, s, hassemble, hcompiled, hcapacity⟩ := assemble_duet
  obtain ⟨t', hsave⟩ := save_duet s
  have hscaffold : duet.scaffold shelf = .ok report t' :=
    scaffold_eq_ok_iff.2 ⟨shelf, duetScenes s, prepare_duet, hassemble, hsave⟩
  -- the templates give the panel, the restart and the one button
  have hfurnish : duet.templates.Furnishes shelf report.capacity.choices := by
    rw [hcapacity]
    refine ⟨fun as h => ?_, fun k as h1 h2 h => ?_⟩
    · rw [dialogAtoms_duet] at h
      cases h
      simp [idAtom]
    · obtain rfl : k = 1 := Nat.le_antisymm h2 h1
      rw [buttonAtoms_duet] at h
      cases h
      simp [idAtom]
  -- the only other passage of the story has another name
  have hplain : ∀ ss₀, duet.loadScenes? shelf = .ok ss₀ → ∀ e ∈ ss₀, ∀ story,
      e.2.story = some story → ∀ q ∈ story.others, q.name ≠ story.start.name := by
    intro ss₀ hload e he story hs
    rw [loadScenes_duet] at hload
    cases hload
    rw [List.mem_singleton.1 he] at hs
    cases hs
    decide
  obtain ⟨ss, hss, hsaved, hwired⟩ :=
    wired_of_scaffold prepare_duet hscaffold hfurnish hplain (by rw [hcompiled]; decide)
  rw [hassemble] at hss
  cases hss
  obtain ⟨⟨template, s₀, out, hrun, hout⟩, hstat⟩ := hwired _ List.mem_cons_self _ rfl
  -- no other scene is saved
  have hfile : t'.stat (duet.build.child "x.json") = .ok (.file s.fileContent) :=
    hstat [] [] rfl (by simp)
  have hok : ((Compiler.mk Compiler.fork.story template report.capacity.choices).run s₀).2 =
      .ok out := congrArg Prod.snd hrun
  have hprompt : Compiler.fork.story.start.isPrompt = true := by decide
  have hexit : 1 ≤ Compiler.fork.story.start.exits.length := by decide
  obtain ⟨v, hv, hshow⟩ := Compiler.exists_shows hok .start hprompt (Nat.le_refl 1) hexit
  rw [hrun] at hv
  exact ⟨report, t', s, out, hscaffold, hsave, hout, hfile, v, hv, hshow⟩

end Project

end Stagecraft
