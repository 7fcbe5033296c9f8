import Stagecraft.Proofs.Confinement

/-!
# Work on a part of a tree

Where a path leads depends on the places of its trail only. So what reads and changes a tree
goes the same way on the part of it at some places as on the whole, if the trails of all its paths
are among these.

* `Path.Among`, `Path.Covered`: a path with its trail among the places of a part.
* `FileTree.stat_only`, `FileTree.listBelow_only`: reading a part.
* `Work.Local`: **work that goes the same way on a part**.
* `FileTree.local_makeDirs`, `FileTree.local_write`, `FileTree.local_removeDir`: the changes are
  local.
* `Project.local_scaffold`: **a scaffold is local** to the directories of its project.
-/

namespace Stagecraft

open FileTree (Grown after)

/-! ## Reading a part of a tree -/

/-- All places on the trail of a path are among some. -/
def Path.Among (p : Path) (F : Place → Bool) (w : Place) : Prop := ∀ x ∈ p.trail w, F x = true

namespace FileTree

variable {t u v : FileTree} {F : Place → Bool} {b q x : Place} {e : Entry} {p : Path}

theorem putEntry_filter (h : F q = true) (es : List (Place × Entry)) :
    (putEntry q e es).filter (fun a => F a.1) = putEntry q e (es.filter fun a => F a.1) := by
  fun_induction putEntry q e es with
  | case1 =>
    rw [List.filter_cons_of_pos (by exact h)]
    rfl
  | case2 f es =>
    rw [List.filter_cons_of_pos (by exact h), List.filter_cons_of_pos (by exact h), putEntry, if_pos rfl]
  | case3 q' f es hne ih =>
    by_cases hq : F q' = true
    · rw [List.filter_cons_of_pos (by exact hq), List.filter_cons_of_pos (by exact hq), ih, putEntry,
        if_neg hne]
    · rw [List.filter_cons_of_neg (by exact hq), List.filter_cons_of_neg (by exact hq), ih]

theorem only_put (h : F q = true) (t : FileTree) (e : Entry) :
    (t.put q e).only F = (t.only F).put q e := by
  unfold only put
  rw [putEntry_filter h]

theorem only_clear (t : FileTree) (b : Place) (F : Place → Bool) :
    (t.clear b).only F = (t.only F).clear b := by
  unfold only clear
  simp only [List.filter_filter, Bool.and_comm]

/-- What is cleared away is missed by no other part. -/
theorem only_clear_of_apart (h : ∀ q, b <+: q → F q = false) (t : FileTree) :
    (t.clear b).only F = t.only F := by
  unfold only clear
  simp only [List.filter_filter]
  congr 1
  refine List.filter_congr fun a _ => ?_
  cases hq : b.isPrefixOf a.1 with
  | false => rw [Bool.not_false, Bool.and_true]
  | true => rw [h a.1 (List.isPrefixOf_iff_prefix.1 hq), Bool.false_and]

theorem below_only (h : ∀ x, b <+: x → F x = true) (t : FileTree) : (t.only F).below b = t.below b := by
  unfold below only
  rw [List.filterMap_filter]
  congr 1
  funext ⟨q, e⟩
  by_cases hb : b.isPrefixOf q
  · exact if_pos (h q (List.isPrefixOf_iff_prefix.1 hb))
  · have hout : ¬(b.isPrefixOf q = true ∧ q ≠ b) := fun hpre => hb hpre.1
    simp only [if_neg hout, ite_self]

theorem resolve_only (h : p.Among F t.cwd) : (t.only F).resolve p = t.resolve p :=
  resolve_congr rfl fun x hx => entry?_only (h x (Path.mem_trail_iff.2 (.inl hx)))

theorem stat_only (h : p.Among F t.cwd) : (t.only F).stat p = t.stat p :=
  stat_congr rfl fun x hx => entry?_only (h x hx)

theorem isFile_only (h : p.Among F t.cwd) : (t.only F).isFile p = t.isFile p := by
  rw [isFile, stat_only h, isFile]

theorem isDir_only (h : p.Among F t.cwd) : (t.only F).isDir p = t.isDir p := by
  rw [isDir, stat_only h, isDir]

theorem exists?_only (h : p.Among F t.cwd) : FileTree.exists? (t.only F) p = t.exists? p := by
  rw [exists?, stat_only h, exists?]

theorem readText_only (h : p.Among F t.cwd) : (t.only F).readText p = t.readText p := by
  rw [readText, stat_only h, readText]

theorem listBelow_only (h : p.Among F t.cwd) (hbelow : ∀ x, p.place t.cwd <+: x → F x = true) :
    (t.only F).listBelow p = t.listBelow p := by
  unfold listBelow
  rw [resolve_only h]
  cases hr : t.resolve p with
  | error f => rfl
  | ok q =>
    obtain ⟨rfl, -⟩ := resolve_eq_ok_iff.1 hr
    simp only [entry?_only (hbelow _ (List.prefix_refl _)), below_only hbelow]

end FileTree

/-! ## Local work -/

namespace Work

variable {α β ε : Type} {t u : FileTree} {F : Place → Bool} {W : Place → Entry → Prop}

/-- A result with only a part of the tree. -/
def part (F : Place → Bool) : EStateM.Result ε FileTree α → EStateM.Result ε FileTree α
  | .ok a t => .ok a (t.only F)
  | .error f t => .error f (t.only F)

/-- **Work that goes the same way on a part of a tree**: it gives the same result, and leaves
that part of what it leaves of the whole. -/
def Local (F : Place → Bool) (x : EStateM ε FileTree α) (t : FileTree) : Prop :=
  x (t.only F) = part F (x t)

theorem local_pure (a : α) : Local (ε := ε) F (pure a) t := rfl

/-- Steps in a row are local if each of them is. -/
theorem Local.bind {x : EStateM ε FileTree α} {f : α → EStateM ε FileTree β} (hx : Local F x t)
    (hgrown : Grown W t (after (x t))) (hf : ∀ a u, x t = .ok a u → Grown W t u → Local F (f a) u) :
    Local F (x >>= f) t := by
  unfold Local at hx ⊢
  simp only [Bind.bind, EStateM.bind, hx]
  cases h : x t with
  | error f u => rfl
  | ok a u =>
    rw [h] at hgrown
    exact hf a u h hgrown

theorem Local.orFault {change : FileM α} (h : Local F change t) (fault : FileFault → Fault) :
    Local F (change.orFault fault) t := by
  unfold Local at h ⊢
  unfold FileM.orFault
  rw [h]
  cases change t <;> rfl

end Work

namespace FileTree

open Work (Local)

variable {t u v : FileTree} {F : Place → Bool} {q x : Place} {p : Path}

theorem local_makeDirAt (h : F q = true) (t : FileTree) : Local F (makeDirAt q) t := by
  unfold Local makeDirAt
  simp only [entry?_only h]
  cases t.entry? q with
  | none => exact congrArg _ (only_put h t .dir).symm
  | some e => cases e <;> rfl

theorem local_makeDirsBack (ht : t.WellFormed) (back : List String)
    (h : Path.Among ⟨back.reverse⟩ F t.cwd) : Local F (makeDirsBack back) t := by
  induction back with
  | nil =>
    unfold Local makeDirsBack
    have hcwd : F t.cwd = true := h t.cwd List.mem_cons_self
    simp only [cwd_only, entry?_only hcwd]
    cases t.entry? t.cwd with
    | none => rfl
    | some e => cases e <;> rfl
  | cons part back ih =>
    have hr := resolve_only h
    rw [List.reverse_cons] at h hr
    unfold Local makeDirsBack
    rw [List.reverse_cons, hr]
    split
    · rename_i place hplace
      -- only the last directory is made, and its place is on the trail
      obtain ⟨rfl, -⟩ := resolve_eq_ok_iff.1 hplace
      exact local_makeDirAt (h _ (Path.place_mem_trail _ _)) t
    · rename_i hmissing
      -- the front is made first, and its trail is part of this one
      have htrail := fun x => mem_trail_of_missing (x := x) hmissing t.cwd
      have hback : Local F (makeDirsBack back) t := ih fun x hx => h x ((htrail x).2 (.inl hx))
      obtain ⟨-, hok⟩ := grown_makeDirsBack ht back
      rw [hback]
      cases hmade : makeDirsBack back t with
      | error f v => rfl
      | ok here v =>
        obtain ⟨rfl, -⟩ := hok _ _ hmade
        simp only [Work.part]
        split
        · exact local_makeDirAt (h _ ((htrail _).2 (.inr rfl))) v
        · rfl
    · rfl

/-- **Making directories is local**. -/
theorem local_makeDirs (ht : t.WellFormed) (h : p.Among F t.cwd) : Local F (makeDirs p) t := by
  have hback := local_makeDirsBack ht p.parts.reverse (by rwa [List.reverse_reverse])
  unfold Local at hback ⊢
  rw [makeDirs_eq, makeDirs_eq, hback]
  cases makeDirsBack p.parts.reverse t <;> rfl

/-- **Writing a file is local**, if its path does not end in a slash. -/
theorem local_write (hslash : p.endsInSlash = false) (h : p.Among F t.cwd) (c : ByteArray) :
    Local F (write p c) t := by
  unfold Local write write?
  rw [hslash, resolve_only h]
  cases hr : t.resolve p with
  | error f => rfl
  | ok q =>
    obtain ⟨rfl, -⟩ := resolve_eq_ok_iff.1 hr
    have hq : F (p.place t.cwd) = true := h _ (Path.place_mem_trail _ _)
    have hput := only_put hq t (.file c)
    simp only [Bool.false_eq_true, if_false, entry?_only hq]
    cases t.entry? (p.place t.cwd) with
    | none => simp only [Work.part, hput]
    | some e =>
      cases e with
      | dir => rfl
      | file c' => simp only [Work.part, hput]

/-- **Removing a directory is local**. -/
theorem local_removeDir (h : p.Among F t.cwd) : Local F (removeDir p) t := by
  unfold Local removeDir
  rw [resolve_only h]
  cases hr : t.resolve p with
  | error f => rfl
  | ok q =>
    obtain ⟨rfl, -⟩ := resolve_eq_ok_iff.1 hr
    have hclear := only_clear t (p.place t.cwd) F
    simp only [entry?_only (h _ (Path.place_mem_trail _ _))]
    cases t.entry? (p.place t.cwd) with
    | none => rfl
    | some e =>
      cases e with
      | dir => simp only [Work.part, hclear]
      | file c => rfl

end FileTree

/-! ## The places of a directory -/

namespace Path

variable {p q : Path} {w x : Place} {F : Place → Bool}

/-- **The places of a directory**: those on the trail of its path, and all below it. -/
def reach (p : Path) (w : Place) (x : Place) : Bool :=
  (p.trail w).contains x || (p.place w).isPrefixOf x

theorem reach_iff : p.reach w x = true ↔ x ∈ p.trail w ∨ p.place w <+: x := by
  rw [reach, Bool.or_eq_true, List.contains_iff_mem, List.isPrefixOf_iff_prefix]

/-- The places of a directory are all among some. -/
def Covered (p : Path) (F : Place → Bool) (w : Place) : Prop := ∀ x, p.reach w x = true → F x = true

namespace Covered

theorem among (h : p.Covered F w) : p.Among F w := fun x hx => h x (reach_iff.2 (.inl hx))

theorem below (h : p.Covered F w) (hx : p.place w <+: x) : F x = true := h x (reach_iff.2 (.inr hx))

/-- A path that leads down from a directory has its places there. -/
theorem join (h : p.Covered F w) (hq : q.isAbsolute = false) (hne : q.parts ≠ [])
    (hdown : ".." ∉ q.parts) : (p.join q).Covered F w := by
  intro x hx
  rcases reach_iff.1 hx with hx | hx
  · rcases (mem_trail_join hq hne).1 hx with hx | hx
    · exact h.among x hx
    · exact h.below (FileTree.prefix_of_mem_trail hdown hx)
  · rw [place_join hq hne] at hx
    exact h.below ((FileTree.prefix_of_mem_trail hdown (FileTree.goal_mem_trail _ _)).trans hx)

theorem child {s : String} (h : p.Covered F w) (hs : (ofString s).Inward) : (p.child s).Covered F w :=
  h.join hs.relative (parts_ofString_ne_nil s) hs.down

end Covered

end Path

/-! ## Templates -/

namespace TemplateStore

variable {s : TemplateStore} {t : FileTree} {F : Place → Bool} {w : Place} {root : Path}
  {names : List String} {name : String} {values : Placeholders}

theorem among_pathBelow (h : root.Covered F w) (hn : ".." ∉ names) :
    (pathBelow root names).Among F w := by
  fun_induction pathBelow root names with
  | case1 root => exact h.among
  | case2 root name =>
    -- a name with the ending is too long to be the way up
    have hname : name ++ ".json" ≠ ".." := by
      intro he
      have hlen := congrArg (fun s : String => s.toList.length) he
      rw [String.toList_append, List.length_append] at hlen
      have hext : ".json".toList.length = 5 := rfl
      have hdots : "..".toList.length = 2 := rfl
      omega
    have hdown : ".." ∉ [name ++ ".json"] := fun hmem => hname (List.mem_singleton.1 hmem).symm
    exact (h.join (Path.relative_single _) (List.cons_ne_nil _ _) hdown).among
  | case3 root name names _ ih =>
    obtain ⟨hname, hrest⟩ := not_or.1 (mt List.mem_cons.2 hn)
    have hdown : ".." ∉ [name] := fun hmem => hname (List.mem_singleton.1 hmem)
    exact ih (h.join (Path.relative_single _) (List.cons_ne_nil _ _) hdown) hrest

variable (hs : s.root.Covered F t.cwd) (hn : ".." ∉ (Path.ofString name).parts)

include hs hn

theorem load?_only : s.load? (t.only F) name values = s.load? t name values := by
  have hpath : (s.pathOf name).Among F t.cwd := among_pathBelow hs hn
  unfold load? read?
  simp only [FileTree.isFile_only hpath, FileTree.readText_only hpath]

theorem instantiate?_only : s.instantiate? (t.only F) name values = s.instantiate? t name values := by
  unfold instantiate?
  rw [load?_only hs hn]

theorem package?_only (count : Nat) : s.package? (t.only F) name count = s.package? t name count := by
  have hparts : (Path.ofString ("packages/" ++ name)).parts =
      "packages" :: (Path.ofString name).parts := by
    simp [Path.ofString, Text.pieces]
  have hdown : ".." ∉ (Path.ofString ("packages/" ++ name)).parts := by
    rw [hparts, List.mem_cons]
    exact not_or.2 ⟨by decide, hn⟩
  unfold package?
  simp only [instantiate?_only hs hdown]

end TemplateStore

/-! ## Projects -/

namespace Project

open Work (Local)

variable {p : Project} {t u v : FileTree} {w : Place} {F : Place → Bool} {path : String}

/-- The places of a project are all among some. -/
structure Covered (p : Project) (F : Place → Bool) (w : Place) : Prop where
  source : p.source.Covered F w
  build : p.build.Covered F w
  dir : p.dir.Covered F w
  templates : p.templates.root.Covered F w

/-- **A project whose paths lead down**: its scene paths from the build directory, and those of
its stories and packages from theirs. -/
structure Downward (p : Project) (t : FileTree) : Prop where
  scenes : ∀ path ∈ p.scenePaths t, (Path.ofString path).Inward
  stories : ∀ s ∈ p.blueprint.scenes, ∀ file, s.story = some file → (Path.ofString file).Inward
  packages : ∀ a ∈ p.blueprint.packages, ".." ∉ (Path.ofString a.1).parts

theorem sceneNames_only {dir : Path} (h : dir.Covered F t.cwd) :
    (t.only F).sceneNames dir = t.sceneNames dir := by
  unfold FileTree.sceneNames
  rw [FileTree.listBelow_only h.among fun x hx => h.below hx]

theorem existing_only (h : p.build.Covered F t.cwd) : p.existing (t.only F) = p.existing t := by
  unfold existing
  rw [FileTree.listBelow_only h.among fun x hx => h.below hx]

theorem planned_only (h : p.build.Covered F t.cwd) : p.planned (t.only F) = p.planned t := by
  unfold planned
  rw [existing_only h]

/-- A planned story is one of the blueprint. -/
theorem story_of_planned {file : String} (h : (path, some file) ∈ p.planned t) :
    ∃ s ∈ p.blueprint.scenes, s.story = some file := by
  unfold planned at h
  -- a scene that was found has no story
  have hlisted := (Catalog.mem_of_mem_foldl_new h).resolve_left nofun
  obtain ⟨s, hs, he⟩ := List.mem_map.1 (Catalog.mem_of_mem_ofList hlisted)
  exact ⟨s, hs, (Prod.mk.inj he).2⟩

theorem load?_scene_only {a : Path} (h : a.Among F t.cwd) : Scene.load? (t.only F) a = Scene.load? t a := by
  unfold Scene.load?
  rw [FileTree.isFile_only h, FileTree.readText_only h]

theorem load?_story_only {a : Path} (h : a.Among F t.cwd) : Story.load? (t.only F) a = Story.load? t a := by
  unfold Story.load?
  rw [FileTree.isFile_only h, FileTree.readText_only h]

variable (hF : p.Covered F t.cwd)

include hF

theorem packageAtoms?_only (hpackages : ∀ a ∈ p.blueprint.packages, ".." ∉ (Path.ofString a.1).parts) :
    p.packageAtoms? (t.only F) = p.packageAtoms? t := by
  have hdefault : ".." ∉ (Path.ofString "default").parts := by decide
  unfold packageAtoms?
  rw [TemplateStore.instantiate?_only hF.templates hdefault]
  refine bind_congr fun common => foldlM_congr (fun ⟨name, count⟩ ha r => ?_) _
  simp only [TemplateStore.package?_only hF.templates (hpackages _ ha)]

theorem loadScene?_only {found : List String} {story : Option String}
    (hpath : (Path.ofString path).Inward)
    (hstory : ∀ file, story = some file → (Path.ofString file).Inward) :
    p.loadScene? (t.only F) found path story = p.loadScene? t found path story := by
  have hscene : ".." ∉ (Path.ofString "scene").parts := by decide
  unfold loadScene?
  rw [load?_scene_only (hF.build.child hpath).among, TemplateStore.load?_only hF.templates hscene]
  cases story with
  | none => rfl
  | some file => simp only [load?_story_only (hF.dir.child (hstory file rfl)).among]

/-- **Assembling reads only the places of the project.** -/
theorem assemble?_only (hscenes : ∀ path ∈ (p.planned t).map (·.1), (Path.ofString path).Inward)
    (hstories : ∀ s ∈ p.blueprint.scenes, ∀ file, s.story = some file → (Path.ofString file).Inward)
    (hpackages : ∀ a ∈ p.blueprint.packages, ".." ∉ (Path.ofString a.1).parts) :
    p.assemble? (t.only F) = p.assemble? t := by
  -- scenes, pool and trigger template are read by paths that lead down, so the places are enough
  have hload : p.loadScenes? (t.only F) = p.loadScenes? t := by
    unfold loadScenes?
    rw [planned_only hF.build, existing_only hF.build]
    refine mapM_congr fun ⟨path, story⟩ ha => ?_
    have hstory : ∀ file, story = some file → (Path.ofString file).Inward := by
      rintro file rfl
      obtain ⟨s, hs, hfile⟩ := story_of_planned ha
      exact hstories s hs file hfile
    simp only [loadScene?_only hF (hscenes path (List.mem_map_of_mem ha)) hstory]
  have hpool : ∀ c, Stage.pool? p.templates (t.only F) c = Stage.pool? p.templates t c := by
    have hdialog : ".." ∉ (Path.ofString "dialog").parts := by decide
    have hbranch : ".." ∉ (Path.ofString "dialog_branch").parts := by decide
    have hbutton : ".." ∉ (Path.ofString "dialog_choice").parts := by decide
    intro c
    unfold Stage.pool? Stage.dialogAtoms? Stage.branchAtoms? Stage.buttonAtoms?
    simp only [TemplateStore.instantiate?_only hF.templates hdialog,
      TemplateStore.instantiate?_only hF.templates hbranch,
      TemplateStore.instantiate?_only hF.templates hbutton]
  have htrigger : Stage.triggerTemplate? p.templates (t.only F) = Stage.triggerTemplate? p.templates t := by
    have hname : ".." ∉ (Path.ofString "trigger").parts := by decide
    unfold Stage.triggerTemplate?
    rw [TemplateStore.load?_only hF.templates hname]
  unfold assemble?
  simp only [packageAtoms?_only hF hpackages, hload, hpool, htrigger]

omit hF

/-! ## The stages are local -/

theorem endsInSlash_eq_false {a : Path} (h : a.parts.getLast? ≠ some "") : a.endsInSlash = false := by
  have hlast : (a.parts.getLast? == some "") = false := by
    rw [beq_eq_false_iff_ne]
    exact h
  rw [Path.endsInSlash, hlast, Bool.and_false]

theorem local_cleared (hF : p.build.Covered F t.cwd) : Local F p.cleared t := by
  unfold Local cleared
  rw [Work.get_bind, Work.get_bind, FileTree.exists?_only hF.among]
  split
  · exact (FileTree.local_removeDir hF.among).orFault _
  · rfl

/-- Making the build directory itself. -/
theorem local_copyOne_blank (hu : u.WellFormed) (hF : p.build.Covered F u.cwd) :
    Local F (copyOne p.build ([""], .dir)) u := by
  have hdown : ".." ∉ [""] := by decide
  have htarget := hF.join (q := ⟨[""]⟩) (Path.relative_single "") (List.cons_ne_nil _ _) hdown
  exact (FileTree.local_makeDirs hu htarget.among).orFault _

theorem local_copyOne (hp : p.InPlace) (hu : u.WellFormed) (hF : p.build.Covered F u.cwd)
    {a : Place × Entry} (hne : a.1 ≠ []) (hplain : ∀ n ∈ a.1, Path.Plain n) :
    Local F (copyOne p.build a) u := by
  obtain ⟨place, e⟩ := a
  have hrel : Path.isAbsolute ⟨place⟩ = false := relative_of_plain hplain
  have hdown : ".." ∉ place := fun hm => (hplain ".." hm).ne_dots rfl
  have htarget := hF.join (q := ⟨place⟩) hrel hne hdown
  cases e with
  | dir => exact (FileTree.local_makeDirs hu htarget.among).orFault _
  | file c =>
    have hslash : (p.build.join ⟨place⟩).endsInSlash = false := by
      apply endsInSlash_eq_false
      rw [hp.join_build hrel, List.getLast?_append_of_ne_nil _ hne]
      intro hlast
      exact (hplain "" (List.mem_of_getLast? hlast)).ne_empty rfl
    exact (FileTree.local_write hslash htarget.among c).orFault _

theorem local_copyAll (hp : p.InPlace) (hu : u.WellFormed) (hF : p.build.Covered F u.cwd)
    {entries : List (Place × Entry)} (hplain : ∀ a ∈ entries, a.1 ≠ [] ∧ ∀ n ∈ a.1, Path.Plain n) :
    Local F (copyAll p.build entries) u := by
  induction entries generalizing u with
  | nil => exact Work.local_pure ()
  | cons a entries ih =>
    obtain ⟨hne, hnames⟩ := hplain a List.mem_cons_self
    rw [copyAll_cons]
    refine (local_copyOne hp hu hF hne hnames).bind (grown_copyOne hu p.build a) fun _ v _ hv => ?_
    refine ih (hv.wellFormed hu) (hv.cwd_eq ▸ hF) fun b hb => hplain b (List.mem_cons_of_mem _ hb)

theorem local_copyDown {target : Path} {place : Place} {names : List String}
    (h : ∀ x, place <+: x → F x = true) : Local F (copyDown target place names) u := by
  induction names generalizing target place u with
  | nil => exact Work.local_pure ()
  | cons n names ih =>
    have hplace : F (place ++ [n]) = true := h _ (List.prefix_append _ _)
    have hrest : Local F (copyDown (target.join ⟨[n]⟩) (place ++ [n]) names) (u.put (place ++ [n]) .dir) :=
      ih fun x hx => h x ((List.prefix_append _ _).trans hx)
    unfold Local copyDown
    rw [← FileTree.only_put hplace]
    simp only
    split
    · rfl
    · exact hrest

/-- **Copying is local**. -/
theorem local_copied (hp : p.InPlace) (hu : u.WellFormed) (hF : p.Covered F u.cwd) :
    Local F p.copied u := by
  have hnested : p.nested? (u.only F) = p.nested? u := by
    unfold nested?
    rw [FileTree.resolve_only hF.source.among, FileTree.resolve_only hF.build.among]
  unfold Local
  rw [copied_eq, copied_eq, hnested, FileTree.listBelow_only hF.source.among fun x hx =>
    hF.source.below hx]
  cases hlist : u.listBelow p.source with
  | error f => rfl
  | ok entries =>
    refine (local_copyOne_blank hu hF.build).bind (grown_copyOne hu p.build _) fun _ v _ hv => ?_
    have hbuild : p.build.Covered F v.cwd := hv.cwd_eq ▸ hF.build
    cases hends : p.nested? u with
    | none =>
      -- what is listed has plain names, so its copies stay among the places
      exact local_copyAll hp (hv.wellFormed hu) hbuild fun a ha => plain_of_listed hu hlist ha
    | some ends =>
      obtain ⟨source, build⟩ := ends
      obtain ⟨rfl, -⟩ := FileTree.resolve_eq_ok_iff.1 (resolve_of_nested hends)
      exact local_copyDown fun x hx => hF.build.below hx

/-- **Saving is local**. -/
theorem local_save (hu : u.WellFormed) (hF : p.build.Covered F u.cwd) {ss : SceneSet}
    (h : ∀ e ∈ ss, isScenePath e.1 = true ∧ (Path.ofString e.1).Inward) : Local F (p.save ss) u := by
  induction ss generalizing u with
  | nil => exact Work.local_pure ()
  | cons e ss ih =>
    obtain ⟨hscene, hin⟩ := h e List.mem_cons_self
    have htarget := hF.child hin
    have hparent : (p.build.child e.1).parent.Among F u.cwd := fun x hx =>
      htarget.among x (Path.mem_trail_parent hx)
    -- a scene path ends in its ending, so it does not end in a slash
    have hslash : (p.build.child e.1).endsInSlash = false := by
      obtain ⟨init, last, hparts, hext⟩ := last_of_isScenePath hscene
      apply endsInSlash_eq_false
      rw [Path.child, Path.parts_join hin.relative, hparts, ← List.append_assoc, List.getLast?_concat,
        ne_eq, Option.some.injEq]
      exact ne_of_suffix hext (by decide)
    rw [save_cons]
    refine ((FileTree.local_makeDirs hu hparent).orFault _).bind
      (by rw [Work.after_orFault]; exact FileTree.grown_makeDirs hu _) fun _ v _ hv => ?_
    have hv' := hv.wellFormed hu
    refine ((FileTree.local_write hslash (hv.cwd_eq ▸ htarget.among) _).orFault _).bind
      (by rw [Work.after_orFault]; exact FileTree.grown_write hv' _ _) fun _ v' _ hv'' => ?_
    refine ih (hv''.wellFormed hv') ?_ fun e' he' => h e' (List.mem_cons_of_mem _ he')
    rw [hv''.cwd_eq, hv.cwd_eq]
    exact hF

/-- **A scaffold is local**: on the places of its project it goes as on the whole tree. -/
theorem local_scaffold (hp : p.InPlace) (ht : t.WellFormed) (hF : p.Covered F t.cwd)
    (hdown : p.Downward t) : Local F p.scaffold t := by
  unfold Local
  cases hclear : p.cleared t with
  | error f u =>
    have hlocal := local_cleared hF.build
    unfold Local at hlocal
    rw [hclear] at hlocal
    -- a clearing that is refused leaves both trees as they were
    have hu := cleared_eq_error hclear
    subst hu
    rw [scaffold_of_not_cleared hclear, scaffold_of_not_cleared hlocal]
    rfl
  | ok _ u =>
    have hlocal := local_cleared hF.build
    unfold Local at hlocal
    rw [hclear] at hlocal
    obtain ⟨hfresh, hu, hcwd⟩ := fresh_of_cleared hp ht hclear
    rw [← hcwd] at hF
    rw [scaffold_of_cleared hclear, scaffold_of_cleared hlocal]
    refine (local_copied hp hu hF).bind (grown_copied hu hfresh) fun _ v hok hv => ?_
    have hwf := hv.wellFormed hu
    rw [← hv.cwd_eq] at hF
    -- a scene that is planned behind the copy was a scene path before it
    have hscenes : ∀ path ∈ (p.planned v).map (·.1), (Path.ofString path).Inward :=
      fun path hpath => hdown.scenes path
        (mem_scenePaths_of_cleared hclear (mem_scenePaths_of_planned hp hu hfresh hok hpath))
    have hassemble := assemble?_only hF hscenes hdown.stories hdown.packages
    unfold Local remade
    rw [Work.get_bind, Work.get_bind, hassemble]
    cases hmade : p.assemble? v with
    | error f => rfl
    | ok made =>
      obtain ⟨ss, report⟩ := made
      obtain ⟨hpaths, hends⟩ := paths_of_assemble? hmade
      refine (local_save hwf hF.build fun e he => ⟨hends e he, ?_⟩).bind (files_of_save hwf ss)
        fun _ _ _ _ => Work.local_pure report
      exact hscenes e.1 (hpaths ▸ List.mem_map_of_mem he)

end Project

end Stagecraft
