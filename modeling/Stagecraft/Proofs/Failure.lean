import Stagecraft.Proofs.Absent
import Stagecraft.Proofs.Extension

/-!
# What a failed scaffold leaves

A scaffold clears the build directory, copies the source directory, assembles the scenes and saves
them. Assembling changes no file. So if anything but clearing, copying and saving fails, what is left
is the copy: the build directory has what the source directory has, and the rest is as it was.

* `Refused`, `Work.Fails`: work that fails for one cause only.
* `Project.assemble?_of_failed`: where a fault with another cause arises in a scaffold.
* `Project.entry?_copied`, `Project.entry?_of_copied_outside`: every place behind a copy.
* `Project.Mirrored`: the build directory as a copy of the source directory.
* `Project.scaffold_failed`: **a failed scaffold leaves a clean copy**.
-/

namespace Stagecraft

open FileTree (Grown after)

/-! ## Work that fails in one way -/

/-- The fault is the refusal of a change of files, with one cause. -/
def Refused (cause : Path → FileFault → Fault) (f : Fault) : Prop := ∃ path why, f = cause path why

namespace Work

variable {α β : Type} {cause : Path → FileFault → Fault} {t u : FileTree} {f : Fault}

/-- If the work fails, then with that cause. -/
def Fails (cause : Path → FileFault → Fault) (x : Work α) : Prop :=
  ∀ t f u, x t = .error f u → Refused cause f

theorem error_of_bind {x : Work α} {g : α → Work β} (h : (x >>= g) t = .error f u) :
    x t = .error f u ∨ ∃ a v, x t = .ok a v ∧ g a v = .error f u := by
  simp only [bind, EStateM.bind] at h
  split at h
  · rename_i a v hx
    exact .inr ⟨a, v, hx, h⟩
  · rename_i hx
    cases h
    exact .inl hx

theorem fails_pure (a : α) : Fails cause (pure a) := fun _ _ _ h => by cases h

theorem Fails.bind {x : Work α} {g : α → Work β} (hx : Fails cause x) (hg : ∀ a, Fails cause (g a)) :
    Fails cause (x >>= g) := fun t f u h => by
  rcases error_of_bind h with h | ⟨a, v, -, h⟩
  · exact hx t f u h
  · exact hg a v f u h

theorem fails_orFault (change : FileM α) (path : Path) : Fails cause (change.orFault (cause path)) := by
  intro t f u h
  unfold FileM.orFault at h
  split at h
  · cases h
  · cases h
    exact ⟨path, _, rfl⟩

end Work

namespace Project

open Work (Fails fails_pure fails_orFault)

variable {p : Project} {t u v : FileTree} {q place : Place} {e : Entry} {f : Fault}

theorem fails_cleared (p : Project) : Fails .buildDirNotCleared p.cleared := by
  intro t f u h
  unfold cleared at h
  rw [Work.get_bind] at h
  split at h
  · exact fails_orFault _ p.build t f u h
  · cases h

theorem fails_copyOne (target : Path) (a : Place × Entry) :
    Fails .sceneNotCopied (copyOne target a) := by
  obtain ⟨place, e⟩ := a
  cases e <;> exact fails_orFault _ _

theorem fails_copyAll (target : Path) (entries : List (Place × Entry)) :
    Fails .sceneNotCopied (copyAll target entries) := by
  induction entries with
  | nil => exact fails_pure ()
  | cons a entries ih =>
    rw [copyAll_cons]
    exact (fails_copyOne target a).bind fun _ => ih

theorem fails_copyDown (target : Path) (place : Place) (names : List String) :
    Fails .sceneNotCopied (copyDown target place names) := by
  induction names generalizing target place with
  | nil => exact fails_pure ()
  | cons n names ih =>
    intro t f u h
    unfold copyDown at h
    simp only at h
    split at h
    · cases h
      exact ⟨_, _, rfl⟩
    · exact ih _ _ _ _ _ h

theorem fails_copied (p : Project) : Fails .sceneNotCopied p.copied := by
  intro t f u h
  rw [copied_eq] at h
  split at h
  · cases h
  · refine (fails_copyOne p.build ([""], .dir)).bind (fun _ => ?_) t f u h
    split
    · exact fails_copyAll _ _
    · exact fails_copyDown _ _ _

theorem fails_save (p : Project) (ss : SceneSet) : Fails .sceneNotWritten (p.save ss) := by
  induction ss with
  | nil => exact fails_pure ()
  | cons a ss ih =>
    rw [save_cons]
    exact (fails_orFault _ _).bind fun _ => (fails_orFault _ _).bind fun _ => ih

/-- **A fault with another cause** arises while the scenes are assembled, behind the copy. -/
theorem assemble?_of_failed (h : p.scaffold t = .error f v)
    (hclear : ¬Refused .buildDirNotCleared f) (hcopy : ¬Refused .sceneNotCopied f)
    (hsave : ¬Refused .sceneNotWritten f) :
    ∃ u, p.cleared t = .ok () u ∧ p.copied u = .ok () v ∧ p.assemble? v = .error f := by
  rw [scaffold_eq, prepare_eq] at h
  -- each stage has its own fault, so only the assembling is left
  rcases Work.error_of_bind h with h | ⟨_, w, hprepare, h⟩
  · rcases Work.error_of_bind h with h | ⟨_, u, -, h⟩
    · exact absurd (fails_cleared p t f v h) hclear
    · exact absurd (fails_copied p u f v h) hcopy
  · obtain ⟨_, u, hcleared, hcopied⟩ := Work.bind_eq_ok hprepare
    unfold remade at h
    rw [Work.get_bind] at h
    cases hassemble : p.assemble? w with
    | error f' =>
      rw [hassemble] at h
      cases h
      exact ⟨u, hcleared, hcopied, hassemble⟩
    | ok made =>
      rw [hassemble] at h
      rcases Work.error_of_bind h with h | ⟨_, _, -, h⟩
      · exact absurd (fails_save p made.1 w f v h) hsave
      · cases h

/-! ## Every place behind a copy -/

/-- What is copied below the build directory stands at the same place below the source directory. -/
theorem entry?_of_copied_below (hu : u.WellFormed) {b w : Place} {a : Place × Entry}
    (ha : a ∈ u.below b) (htrail : p.home w ++ place ∉ p.build.trail w)
    (h : Copied p.build w a (p.home w ++ place) e) : u.entry? (b ++ place) = some e := by
  obtain ⟨names, e'⟩ := a
  obtain ⟨hnames, hmem⟩ := FileTree.mem_below_iff.1 ha
  have hentry := hu.entry?_of_mem hmem
  have hplain : ∀ n ∈ names, Path.Plain n := fun n hn =>
    hu.plain_of_stands hentry (List.mem_append_right _ hn)
  have hrel : Path.isAbsolute ⟨names⟩ = false := relative_of_plain hplain
  rcases h with ⟨rfl, rfl, hway⟩ | ⟨hplace, rfl, -⟩
  · -- a directory that was copied, or one on the way to it
    rcases (Path.mem_trail_join hrel hnames).1 hway with hway | hway
    · exact absurd hway htrail
    · have hpre := FileTree.prefix_goal_of_mem_trail (fun hd => (hplain ".." hd).ne_dots rfl) hway
      rw [FileTree.goal_plain hplain] at hpre
      replace hpre : place <+: names := (List.prefix_append_right_inj (p.home w)).1 hpre
      by_cases hsame : place = names
      · rwa [hsame]
      · refine hu.dir_of_prefix hentry ((List.prefix_append_right_inj b).2 hpre) fun he => ?_
        exact hsame (List.append_cancel_left he)
  · rw [Path.place_join hrel hnames, FileTree.goal_plain hplain] at hplace
    rwa [List.append_cancel_left hplace]

/-- **Inside the build directory** each place has what the same place in the source directory has. -/
theorem entry?_copied (hp : p.InPlace) (hu : u.WellFormed) (hfresh : p.Fresh u)
    (h : p.copied u = .ok () v) {entries : List (Place × Entry)}
    (hlist : u.listBelow p.source = .ok entries) (place : Place) :
    v.entry? (p.home u.cwd ++ place) = u.entry? (p.source.place u.cwd ++ place) := by
  have hbuild := resolve_of_copied hp h hlist
  obtain ⟨u', hone, hall, hu', hcwd⟩ := copyAll_of_copied hp hu h hlist
  obtain ⟨hdir, hempty⟩ := empty_of_copyOne hu hfresh hbuild hone
  have hgrown := grown_copyAll hu' p.build entries
  rw [hall, hcwd] at hgrown
  replace hgrown : Grown (fun q e => ∃ a ∈ entries, Copied p.build u.cwd a q e) u' v := hgrown
  obtain ⟨-, hsource, hbelow⟩ := FileTree.listBelow_eq_ok_iff.1 hlist
  by_cases hne : place = []
  · rw [hne, List.append_nil, List.append_nil, hsource]
    exact hgrown.dir hdir
  -- what stands there was copied, and what is listed was
  refine Option.ext fun e => ⟨fun hthere => ?_, fun hthere => ?_⟩
  · rcases hgrown.entry?_cases (p.home u.cwd ++ place) with hold | ⟨e', he', ⟨a, ha, hcopied⟩, -⟩
    · rw [hold, hempty place hne] at hthere
      cases hthere
    · obtain rfl : e' = e := Option.some.inj (he'.symm.trans hthere)
      exact entry?_of_copied_below hu (hbelow ▸ ha) (hfresh.not_mem_trail hbuild hne) hcopied
  · have ha : (place, e) ∈ entries := by
      rw [hbelow]
      refine FileTree.mem_below_iff.2 ⟨hne, FileTree.mem_entries_of_some ?_ hthere⟩
      exact List.append_ne_nil_of_right_ne_nil _ hne
    exact entry?_of_copied hp hu h hlist ha

/-- **Outside the build directory** a copy changes nothing. -/
theorem entry?_of_copied_outside (hp : p.InPlace) (hu : u.WellFormed) (hfresh : p.Fresh u)
    (h : p.copied u = .ok () v) (hq : ¬p.home u.cwd <+: q) : v.entry? q = u.entry? q := by
  cases hlist : u.listBelow p.source with
  | error f =>
    rw [copied_eq, hlist] at h
    cases h
    rfl
  | ok entries =>
    have hgrown := grown_of_copied hu hfresh h
    obtain ⟨-, -, -, -, hways, -⟩ := FileTree.resolve_eq_ok_iff.1 (resolve_of_copied hp h hlist)
    rcases hgrown.entry?_cases q with hsame | ⟨e, he, ⟨hwrites, -⟩, -⟩
    · exact hsame
    · cases hwrites with
      | way hway =>
        -- the directories on the way are there already
        rw [he, hp.dir_of_way hu hways hway fun hhome => hq (hhome ▸ List.prefix_refl _)]
      | inside hin => exact absurd hin hq

/-! ## A clean copy -/

/-- **The build directory is a copy of the source directory** behind a change from `t` to `v`: the
source directory is what it was, and the build directory has the same at each place. Or there is no
source directory, and no build directory either. -/
inductive Mirrored (p : Project) (t v : FileTree) : Prop
  | copy : v.isDir p.source = true → v.isDir p.build = true →
      (∀ place,
        v.entry? (p.source.place t.cwd ++ place) = t.entry? (p.source.place t.cwd ++ place) ∧
        v.entry? (p.home t.cwd ++ place) = t.entry? (p.source.place t.cwd ++ place)) →
      Mirrored p t v
  | none : v.isDir p.source = false → v.exists? p.build = false → Mirrored p t v

/-- A build directory that was cleared is not there. -/
theorem not_exists_of_cleared (hp : p.InPlace) (h : p.cleared t = .ok () u) :
    u.exists? p.build = false := by
  rcases cleared_eq_ok h with ⟨-, -, rfl⟩ | ⟨hexists, rfl⟩
  · refine exists?_of_none (FileTree.entry?_clear_inside ?_ (List.prefix_refl _))
    exact hp.home_ne_nil t.cwd
  · exact hexists

/-- Clearing changes nothing outside the build directory. -/
theorem entry?_of_cleared (h : p.cleared t = .ok () u) (hq : ¬p.home t.cwd <+: q) :
    u.entry? q = t.entry? q := by
  rcases cleared_eq_ok h with ⟨-, -, rfl⟩ | ⟨-, rfl⟩
  · exact FileTree.entry?_clear_outside hq
  · rfl

theorem isDir_iff_listBelow {path : Path} :
    t.isDir path = true ↔ ∃ entries, t.listBelow path = .ok entries := by
  rw [FileTree.isDir_iff, FileTree.stat_eq_ok_iff]
  constructor
  · exact fun ⟨hr, hdir⟩ => ⟨_, FileTree.listBelow_eq_ok_iff.2 ⟨hr, hdir, rfl⟩⟩
  · rintro ⟨entries, hlist⟩
    obtain ⟨hr, hdir, -⟩ := FileTree.listBelow_eq_ok_iff.1 hlist
    exact ⟨hr, hdir⟩

/-- A directory stays one where directories are only added. -/
theorem isDir_of_grown {W : Place → Entry → Prop} {path : Path} (hgrown : Grown W t u)
    (h : t.isDir path = true) : u.isDir path = true := by
  rw [FileTree.isDir_iff, FileTree.stat_eq_ok_iff] at h ⊢
  rw [hgrown.cwd_eq]
  exact ⟨hgrown.resolve_eq_ok h.1, hgrown.dir h.2⟩

/-- **Clearing and copying** change nothing outside the build directory. -/
theorem entry?_of_prepared (hp : p.InPlace) (ht : t.WellFormed) (hclear : p.cleared t = .ok () u)
    (hcopied : p.copied u = .ok () v) (hq : ¬p.home t.cwd <+: q) : v.entry? q = t.entry? q := by
  obtain ⟨hfresh, hu, hcwd⟩ := fresh_of_cleared hp ht hclear
  rw [entry?_of_copied_outside hp hu hfresh hcopied (hcwd ▸ hq), entry?_of_cleared hclear hq]

/-- **Clearing and copying** leave a clean copy. -/
theorem mirrored_of_prepared (hp : p.InPlace) (ht : t.WellFormed) (hclear : p.cleared t = .ok () u)
    (hcopied : p.copied u = .ok () v) : p.Mirrored t v := by
  obtain ⟨hfresh, hu, hcwd⟩ := fresh_of_cleared hp ht hclear
  cases hlist : u.listBelow p.source with
  | error f =>
    rw [copied_eq, hlist] at hcopied
    cases hcopied
    refine .none (Bool.eq_false_iff.2 fun hdir => ?_) (not_exists_of_cleared hp hclear)
    obtain ⟨entries, hlist'⟩ := isDir_iff_listBelow.1 hdir
    rw [hlist] at hlist'
    cases hlist'
  | ok entries =>
    have hgrown := grown_of_copied hu hfresh hcopied
    have hcopy := entry?_copied hp hu hfresh hcopied hlist
    obtain ⟨-, hsource, -⟩ := FileTree.listBelow_eq_ok_iff.1 hlist
    -- the source directory is not inside the build directory, nor the other way round
    have hapart : ∀ place, ¬p.home t.cwd <+: p.source.place t.cwd ++ place := by
      intro place hpre
      rcases List.prefix_or_prefix_of_prefix hpre (List.prefix_append _ place) with hin | hin
      · exact hp.source_outside t.cwd hin
      · rw [← hcwd] at hin
        exact not_nested_of_copied hp hu hcopied hlist hin
    refine .copy (isDir_of_grown hgrown (isDir_iff_listBelow.2 ⟨entries, hlist⟩)) ?_
      fun place => ⟨entry?_of_prepared hp ht hclear hcopied (hapart place), ?_⟩
    · rw [FileTree.isDir_iff, FileTree.stat_eq_ok_iff, hgrown.cwd_eq]
      refine ⟨hgrown.resolve_eq_ok (resolve_of_copied hp hcopied hlist), ?_⟩
      have hhome := hcopy []
      rwa [List.append_nil, List.append_nil, hsource] at hhome
    · rw [← hcwd, hcopy, hcwd, entry?_of_cleared hclear (hapart place)]

/-- **A failed scaffold leaves a clean copy.** Unless the build directory could not be cleared, the
source directory could not be copied, or a scene could not be saved, a scaffold that fails leaves the
build directory as a copy of the source directory, and the rest of the tree as it was. There is a
source directory exactly if there was one, but that a path may lead to it through the build
directory, which is cleared first. -/
theorem scaffold_failed {t₀ : FileTree} {dirs : BuildDirs} {name : String}
    (hopen : open? t₀ dirs name = .ok p) (ht : t.WellFormed) (h : p.scaffold t = .error f v)
    (hcode : f.notice.code ∉ ["PROJECT_BUILD_DIR_CLEAR", "PROJECT_COPY", "SCENE_WRITE"]) :
    p.Mirrored t v ∧ v.cwd = t.cwd ∧ (∀ q, ¬p.home t.cwd <+: q → v.entry? q = t.entry? q) ∧
      ((∀ x ∈ p.source.ways t.cwd, ¬p.home t.cwd <+: x) → v.isDir p.source = t.isDir p.source) := by
  have hp := inPlace_of_open? hopen
  obtain ⟨u, hclear, hcopied, -⟩ : ∃ u, p.cleared t = .ok () u ∧ p.copied u = .ok () v ∧
      p.assemble? v = .error f := by
    refine assemble?_of_failed h ?_ ?_ ?_ <;> rintro ⟨path, why, rfl⟩ <;> simp [Fault.notice] at hcode
  obtain ⟨hfresh, hu, hcwd⟩ := fresh_of_cleared hp ht hclear
  have hcwd' : v.cwd = t.cwd := (grown_of_copied hu hfresh hcopied).cwd_eq.trans hcwd
  have hrest : ∀ q, ¬p.home t.cwd <+: q → v.entry? q = t.entry? q := fun q =>
    entry?_of_prepared hp ht hclear hcopied
  refine ⟨mirrored_of_prepared hp ht hclear hcopied, hcwd', hrest, fun hways => ?_⟩
  -- the path of the source directory is followed as before
  have hstat : v.stat p.source = t.stat p.source := by
    refine FileTree.stat_congr hcwd' fun x hx => hrest x ?_
    rcases Path.mem_trail_iff.1 hx with hx | rfl
    · exact hways x hx
    · exact hp.source_outside t.cwd
  unfold FileTree.isDir
  rw [hstat]

/-- A project that was built before, with a template of atoms that is no list. -/
def staleYard : FileTree where
  cwd := []
  entries := [(["p"], .dir), (["p", "x"], .dir),
    (["p", "x", "blueprint.json"],
      .file "\x7b\"scenes\":[\"Hall.json\",\"sub/Room.json\"]\x7d".toUTF8),
    (["t"], .dir), (["t", "default.json"], .file "\x7b\x7d".toUTF8), (["s"], .dir),
    (["s", "x"], .dir), (["s", "x", "Hall.json"], .file hallText.toUTF8),
    (["s", "x.scaffold"], .dir), (["s", "x.scaffold", "Old.json"], .file "\x7b\x7d".toUTF8)]

theorem scaffold_staleYard :
    ∃ v, yardProject.scaffold staleYard = .error (.templateNotList "default") v := by
  have hfault : FileTree.outcome (yardProject.scaffold staleYard) =
      .error (.templateNotList "default") := by cbv
  cases h : yardProject.scaffold staleYard with
  | ok report v =>
    rw [h] at hfault
    cases hfault
  | error f v =>
    rw [h] at hfault
    cases hfault
    exact ⟨v, rfl⟩

/-- What was built before is gone, and the scene that was drawn by hand is copied. -/
theorem scaffold_failed_staleYard : staleYard.WellFormed ∧ ∃ v,
    yardProject.scaffold staleYard = .error (.templateNotList "default") v ∧
      v.entry? ["s", "x.scaffold", "Hall.json"] = some (.file hallText.toUTF8) ∧
      v.entry? ["s", "x.scaffold", "Old.json"] = none := by
  have hwf : staleYard.WellFormed := by decide
  have hopen : open? staleYard yardDirs "x" = .ok yardProject := by cbv
  obtain ⟨v, hscaffold⟩ := scaffold_staleYard
  obtain ⟨hmirrored, -, -, hdir⟩ := scaffold_failed hopen hwf hscaffold (by decide)
  have hsource : v.isDir yardProject.source = true := (hdir (by decide)).trans (by cbv)
  refine ⟨hwf, v, hscaffold, ?_⟩
  cases hmirrored with
  | none hnone => exact absurd (hsource.symm.trans hnone) (by decide)
  | copy _ _ hsame => exact ⟨(hsame ["Hall.json"]).2, (hsame ["Old.json"]).2⟩

end Project

end Stagecraft
