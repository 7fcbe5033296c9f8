import Stagecraft.Proofs.Confinement
import Stagecraft.Proofs.Footprint

/-!
# Scenes that were drawn by hand are extended

A scene whose path is written as the scan of the source directory finds it is copied, loaded
from its copy, stocked, compiled and saved under the same path. Each of these steps keeps what
the scene has, so nothing of the scene that was drawn by hand is lost.

* `Project.fault?_of_copyDown`, `Project.not_nested_of_copied`: a build directory inside the source
  directory is never copied to the end.
* `Project.entry?_of_copyAll`, `Project.content_of_copied`, `Project.stat_of_save_of_nodup`: what
  is copied and what is saved is there afterwards, with its content.
* `Scene.Extends`, `Scene.extends_of_stocked`, `Scene.extends_run`: a scene with all that another
  one has.
* `Project.scaffold_extends`: **scenes that exist are extended**, never replaced.
-/

namespace Stagecraft

open FileTree (Grown after)
open Compiler (BranchField)

/-! ## Scenes that have more -/

/-- **A scene that extends another one**: the fields and atoms of that one are there with what
they had, but that free fields of storables were set. -/
structure Scene.Extends (Free : String → String → String → Prop) (s s' : Scene) : Prop where
  fields : s'.fields = s.fields
  atoms : ∀ i a, s.atom? i = some a → ∃ a', s'.atom? i = some a' ∧ a'.fields = a.fields ∧
    a'.storables.ids = a.storables.ids
  storables : ∀ i st t, s.storable? i st = some t → ∃ es : List (String × Json),
    (∀ e ∈ es, Free i st e.1) ∧ s'.storable? i st = some { t with fields := t.fields.setAll es }

namespace Scene

variable {Free Free' : String → String → String → Prop} {s s' s'' : Scene}

theorem Edited.extends (h : Edited Free s s') : s.Extends Free s' where
  fields := h.fields
  atoms := h.atoms
  storables := h.storables

theorem Extends.mono (h : s.Extends Free s') (hfree : ∀ i st k, Free i st k → Free' i st k) :
    s.Extends Free' s' where
  fields := h.fields
  atoms := h.atoms
  storables := fun i st t ht => by
    obtain ⟨es, hes, ht'⟩ := h.storables i st t ht
    exact ⟨es, fun e he => hfree _ _ _ (hes e he), ht'⟩

theorem Extends.trans (h : s.Extends Free s') (h' : s'.Extends Free s'') : s.Extends Free s'' where
  fields := h'.fields.trans h.fields
  atoms := fun i a ha => by
    obtain ⟨a', ha', hf, hi⟩ := h.atoms i a ha
    obtain ⟨a'', ha'', hf', hi'⟩ := h'.atoms i a' ha'
    exact ⟨a'', ha'', hf'.trans hf, hi'.trans hi⟩
  storables := fun i st t ht => by
    obtain ⟨es, hes, ht'⟩ := h.storables i st t ht
    obtain ⟨es', hes', ht''⟩ := h'.storables i st _ ht'
    refine ⟨es ++ es', fun e he => ?_, ?_⟩
    · exact (List.mem_append.1 he).elim (hes e) (hes' e)
    · rw [ht'', Fields.setAll_append]

/-- **Stocking keeps a scene's own atoms** in front. -/
theorem extends_of_stocked {pool packages shared : Registry Atom} {e e' : ProjectScene}
    (h : e.Stocked pool packages shared e') : e.scene.Extends Free e'.scene := by
  have hatom : ∀ i a, e.scene.atom? i = some a → e'.scene.atom? i = some a := by
    intro i a ha
    obtain ⟨hmem, hid⟩ := Registry.get?_eq_some_iff.1 ha
    refine Registry.get?_eq_some_iff.2 ⟨?_, hid⟩
    rw [h.atoms, List.append_assoc, List.append_assoc]
    exact List.mem_append_left _ hmem
  refine ⟨h.fields, fun i a ha => ⟨a, hatom i a ha, rfl, rfl⟩, fun i st t ht => ?_⟩
  obtain ⟨a, ha, hst⟩ := Option.bind_eq_some_iff.1 ht
  refine ⟨[], by simp, ?_⟩
  rw [storable?, hatom i a ha]
  exact hst

/-- **Compiling a story sets fields of its branches** only. -/
theorem extends_run (c : Compiler) (s : Scene) :
    s.Extends (BranchField c.story.heads.length) (c.run s).1 := by
  rw [Compiler.run_fst]
  refine (Compiler.edited_foldl fun m hm => ?_).extends
  exact List.idxOf_lt_length_of_mem (Compiler.mem_heads_of_writes hm)

end Scene

namespace Project

variable {p : Project} {t u v : FileTree} {q : Place} {e : Entry} {c : ByteArray} {path : String}

/-! ## A build directory inside the source directory -/

/-- Directories made one in another have paths that can be followed. -/
theorem fault?_of_copyDown {target : Path} {place : Place} {names : List String}
    (htarget : target.front = target.parts) (hn : ∀ n ∈ names, n ≠ "") (h0 : names ≠ [])
    (h : copyDown target place names u = .ok () v) :
    Path.fault? ⟨target.parts ++ names⟩ = none := by
  induction names generalizing target place u with
  | nil => exact absurd rfl h0
  | cons n names ih =>
    have hjoin : target.join ⟨[n]⟩ = ⟨target.parts ++ [n]⟩ := by
      rw [← htarget]
      exact congrArg Path.mk (Path.parts_join (Path.relative_single n) target)
    unfold copyDown at h
    simp only at h
    split at h
    · cases h
    · rename_i hfault
      rw [hjoin] at h hfault
      -- the check of the last name is one of the whole path
      by_cases hlast : names = []
      · rw [hlast]
        exact hfault
      · have hfront : Path.front ⟨target.parts ++ [n]⟩ = target.parts ++ [n] := by
          unfold Path.front
          rw [if_neg]
          rw [List.getLast?_concat, Option.some.injEq]
          exact hn n List.mem_cons_self
        have hrest := ih hfront (fun m hm => hn m (List.mem_cons_of_mem _ hm)) hlast h
        rwa [List.append_assoc] at hrest

theorem length_le_sum (names : List String) :
    names.length ≤ (names.map fun n => n.utf8ByteSize + 1).sum := by
  induction names with
  | nil => exact Nat.le_refl _
  | cons n names ih =>
    rw [List.length_cons, List.map_cons, List.sum_cons]
    omega

/-- A path that is not refused is no longer than it may be. -/
theorem sum_le_of_fault? {path : Path} (h : path.fault? = none) (h0 : path.parts ≠ []) :
    (path.parts.map fun n => n.utf8ByteSize + 1).sum ≤ Path.maxBytes + 1 := by
  rw [← Path.utf8ByteSize_text h0]
  unfold Path.fault? at h
  split at h
  · cases h
  · split at h
    · cases h
    · omega

/-- The build path with as many names behind it as a path may have bytes is refused. -/
theorem fault?_build_append (hp : p.InPlace) {names : List String}
    (h : Path.maxBytes ≤ names.length) : Path.fault? ⟨p.build.parts ++ names⟩ ≠ none := by
  intro hfault
  obtain ⟨dir, last, -, hb⟩ := hp.beside
  have hsize := sum_le_of_fault? hfault (by simp [hb])
  rw [List.map_append, List.sum_append] at hsize
  have hnames := length_le_sum names
  have hbuild : (buildName last).utf8ByteSize + 1 ≤
      (p.build.parts.map fun n => n.utf8ByteSize + 1).sum := by
    rw [hb, List.map_append, List.sum_append, List.map_singleton, List.sum_singleton]
    omega
  have hlast : 9 ≤ (buildName last).utf8ByteSize := by
    rw [buildName, String.utf8ByteSize_append]
    exact Nat.le_add_left _ _
  omega

/-- The names on the way to the build directory are those of directories, and its own. -/
theorem ne_empty_of_mem_home (hp : p.InPlace) (hu : u.WellFormed)
    (hways : ∀ x ∈ p.build.ways u.cwd, u.entry? x = some .dir) {n : String}
    (hn : n ∈ p.home u.cwd) : n ≠ "" := by
  obtain ⟨here, last, hhere, -, hhome⟩ := hp.home_eq u.cwd
  rw [hhome] at hn
  rcases List.mem_append.1 hn with hn | hn
  · exact (hu.plain_of_stands (hways here hhere) hn).ne_empty
  · rw [List.mem_singleton.1 hn]
    exact buildName_ne (by decide)

/-- **A build directory inside the source directory is never copied to the end**: each copy of it
holds another one, and the paths grow too long. -/
theorem not_nested_of_copied (hp : p.InPlace) (hu : u.WellFormed) (h : p.copied u = .ok () v)
    {entries : List (Place × Entry)} (hlist : u.listBelow p.source = .ok entries) :
    ¬p.source.place u.cwd <+: p.home u.cwd := by
  rintro ⟨d, hd⟩
  have hbuild := resolve_of_copied hp h hlist
  obtain ⟨hsource, -⟩ := FileTree.listBelow_eq_ok_iff.1 hlist
  obtain ⟨-, -, -, -, hways, -⟩ := FileTree.resolve_eq_ok_iff.1 hbuild
  have hends : p.nested? u = some (p.source.place u.cwd, p.home u.cwd) := by
    unfold nested?
    rw [hsource, hbuild]
    exact if_pos (List.isPrefixOf_iff_prefix.2 ⟨d, hd⟩)
  rw [copied_eq, hlist] at h
  obtain ⟨_, _, -, h⟩ := Work.bind_eq_ok h
  rw [hends] at h
  simp only [← hd, List.drop_left] at h
  -- the names that are repeated lead from the source directory to the build directory
  have hlen : Path.maxBytes ≤ (List.replicate Path.maxBytes d).flatten.length := by
    have hne : d ≠ [] := by
      rintro rfl
      rw [List.append_nil] at hd
      exact hp.source_ne_home u.cwd hd
    rw [List.length_flatten, List.map_replicate, List.sum_replicate, smul_eq_mul]
    exact Nat.le_mul_of_pos_right _ (List.length_pos_iff.2 hne)
  refine fault?_build_append hp hlen (fault?_of_copyDown hp.front_build (fun n hn => ?_) ?_ h)
  · obtain ⟨l, hl, hn⟩ := List.mem_flatten.1 hn
    rw [(List.mem_replicate.1 hl).2] at hn
    exact ne_empty_of_mem_home hp hu hways (hd ▸ List.mem_append_right _ hn)
  · intro hnil
    rw [hnil] at hlen
    exact absurd hlen (by decide)

/-! ## What is there afterwards -/

/-- What was copied is there at once. -/
theorem entry?_of_copyOne (hu : u.WellFormed) {place : Place} (hne : place ≠ [])
    (hplain : ∀ n ∈ place, Path.Plain n) (h : copyOne p.build (place, e) u = .ok () v) :
    v.entry? (p.home u.cwd ++ place) = some e := by
  have hplace : (p.build.join ⟨place⟩).place u.cwd = p.home u.cwd ++ place := by
    rw [Path.place_join (relative_of_plain hplain) hne]
    exact FileTree.goal_plain hplain _
  rw [← hplace]
  cases e with
  | dir => exact FileTree.dir_of_makeDirs hu (Work.eq_ok_of_orFault h) (Path.place_mem_trail _ _)
  | file c =>
    obtain ⟨-, -, -, hput⟩ := FileTree.write_eq_ok_iff.1 (Work.eq_ok_of_orFault h)
    rw [hput]
    refine FileTree.entry?_put_self ?_
    rw [hplace]
    exact List.append_ne_nil_of_right_ne_nil _ hne

/-- **What was copied is there**, a file with its content. -/
theorem entry?_of_copyAll (hu : u.WellFormed) {entries : List (Place × Entry)}
    (hplain : ∀ a ∈ entries, a.1 ≠ [] ∧ ∀ n ∈ a.1, Path.Plain n)
    (hnodup : (entries.map (·.1)).Nodup) (h : copyAll p.build entries u = .ok () v)
    {place : Place} (ha : (place, e) ∈ entries) :
    v.entry? (p.home u.cwd ++ place) = some e := by
  induction entries generalizing u with
  | nil => cases ha
  | cons a entries ih =>
    obtain ⟨hnew, hnodup⟩ := List.nodup_cons.1 hnodup
    have hrest : ∀ b ∈ entries, b.1 ≠ [] ∧ ∀ n ∈ b.1, Path.Plain n := fun b hb =>
      hplain b (List.mem_cons_of_mem _ hb)
    rw [copyAll_cons] at h
    obtain ⟨_, u', hone, htail⟩ := Work.bind_eq_ok h
    have hgrown := grown_copyOne hu p.build a
    rw [hone] at hgrown
    have hu' : u'.WellFormed := hgrown.wellFormed hu
    have hcwd : u'.cwd = u.cwd := hgrown.cwd_eq
    rcases List.mem_cons.1 ha with rfl | ha
    · -- the entry itself, which no later one overwrites
      obtain ⟨hne, hnames⟩ := hplain _ List.mem_cons_self
      have hthere := entry?_of_copyOne hu hne hnames hone
      have hlater := grown_copyAll hu' p.build entries
      rw [htail, hcwd] at hlater
      rcases hlater.entry?_cases (p.home u.cwd ++ place) with hsame | ⟨e', he', ⟨b, hb, hcopied⟩, hkind⟩
      · exact hsame.trans hthere
      · obtain ⟨hbne, hbnames⟩ := hrest b hb
        cases e' with
        | dir => rwa [(hkind e hthere).2 rfl]
        | file c' =>
          have hq := ((copied_cases hbne hbnames hcopied).2 c' rfl).2
          have hplace : place = b.1 := List.append_cancel_left hq
          exact absurd (List.mem_map.2 ⟨b, hb, hplace.symm⟩) hnew
    · rw [← hcwd]
      exact ih hu' hrest hnodup htail ha

/-- **What was saved is there**, unless another scene leads to the same place. -/
theorem stat_of_save_of_nodup {ss : SceneSet} (hnodup : (ss.map (·.1)).Nodup)
    {a : String × ProjectScene} (ha : a ∈ ss)
    (hapart : ∀ b ∈ ss, b.1 ≠ a.1 →
      (p.build.child b.1).place u.cwd ≠ (p.build.child a.1).place u.cwd)
    (h : p.save ss u = .ok () v) :
    v.stat (p.build.child a.1) = .ok (.file a.2.scene.fileContent) := by
  obtain ⟨front, later, rfl⟩ := List.append_of_mem ha
  rw [List.map_append, List.map_cons] at hnodup
  obtain ⟨hnew, -⟩ := List.nodup_cons.1 (List.nodup_append.1 hnodup).2.1
  refine stat_of_save h fun b hb => hapart b ?_ fun hkey => ?_
  · exact List.mem_append_right _ (List.mem_cons_of_mem _ hb)
  · exact hnew (List.mem_map.2 ⟨b, hb, hkey⟩)

/-! ## The copy of the source directory -/

/-- A copy makes the build directory and then copies what is listed in the source directory. -/
theorem copyAll_of_copied (hp : p.InPlace) (hu : u.WellFormed) (h : p.copied u = .ok () v)
    {entries : List (Place × Entry)} (hlist : u.listBelow p.source = .ok entries) :
    ∃ u', copyOne p.build ([""], .dir) u = .ok () u' ∧ copyAll p.build entries u' = .ok () v ∧
      u'.WellFormed ∧ u'.cwd = u.cwd := by
  have hnested : p.nested? u = none := by
    unfold nested?
    rw [(FileTree.listBelow_eq_ok_iff.1 hlist).1, resolve_of_copied hp h hlist]
    refine if_neg fun hpre => not_nested_of_copied hp hu h hlist ?_
    exact List.isPrefixOf_iff_prefix.1 hpre
  rw [copied_eq, hlist, hnested] at h
  obtain ⟨_, u', hone, htail⟩ := Work.bind_eq_ok h
  have hgrown := grown_copyOne hu p.build ([""], .dir)
  rw [hone] at hgrown
  exact ⟨u', hone, htail, hgrown.wellFormed hu, hgrown.cwd_eq⟩

/-- What is listed in the source directory was copied. -/
theorem entry?_of_copied (hp : p.InPlace) (hu : u.WellFormed) (h : p.copied u = .ok () v)
    {entries : List (Place × Entry)} (hlist : u.listBelow p.source = .ok entries) {place : Place}
    (ha : (place, e) ∈ entries) : v.entry? (p.home u.cwd ++ place) = some e := by
  obtain ⟨u', -, htail, hu', hcwd⟩ := copyAll_of_copied hp hu h hlist
  rw [← hcwd]
  refine entry?_of_copyAll hu' (fun a ha => plain_of_listed hu hlist ha) ?_ htail ha
  rw [(FileTree.listBelow_eq_ok_iff.1 hlist).2.2]
  exact FileTree.nodup_below hu.nodup _

/-- **What was found in the source directory exists** behind a copy. -/
theorem mem_sceneNames_of_copied (hp : p.InPlace) (hu : u.WellFormed) (hfresh : p.Fresh u)
    (h : p.copied u = .ok () v) (hpath : path ∈ u.sceneNames p.source) :
    path ∈ v.sceneNames p.build := by
  have hgrown := grown_of_copied hu hfresh h
  obtain ⟨entries, hlist, ⟨place, e⟩, ha, hname⟩ := mem_sceneNames.1 hpath
  cases e with
  | dir => cases hname
  | file c =>
    obtain ⟨hne, -⟩ := plain_of_listed hu hlist ha
    have hentry := entry?_of_copied hp hu h hlist ha
    have hr := hgrown.resolve_eq_ok (resolve_of_copied hp h hlist)
    have hv := hgrown.wellFormed hu
    -- the copy stands below the build directory, so this is a directory by now
    have hdir : v.entry? (p.home u.cwd) = some .dir :=
      hv.dir_of_prefix hentry (List.prefix_append _ _) fun he =>
        hne (List.append_right_eq_self.1 he.symm)
    rw [home, ← hgrown.cwd_eq] at hr hentry hdir
    refine mem_sceneNames.2 ⟨_, FileTree.listBelow_eq_ok_iff.2 ⟨hr, hdir, rfl⟩, (place, .file c),
      FileTree.mem_below_iff.2 ⟨hne, ?_⟩, hname⟩
    exact FileTree.mem_entries_of_some (List.append_ne_nil_of_right_ne_nil _ hne) hentry

/-- Clearing leaves the source directory listed, if its path does not lead through the build
directory. -/
theorem listBelow_of_cleared (hp : p.InPlace) (hclear : p.cleared t = .ok () u)
    (hout : ∀ x ∈ p.build.ways t.cwd, ¬p.home t.cwd <+: x) {entries : List (Place × Entry)}
    (hlist : t.listBelow p.source = .ok entries) :
    u.listBelow p.source = .ok (u.below (p.source.place t.cwd)) := by
  obtain ⟨hr, hdir, -⟩ := FileTree.listBelow_eq_ok_iff.1 hlist
  rcases cleared_eq_ok hclear with ⟨-, -, rfl⟩ | ⟨-, rfl⟩
  · have hsame : (t.clear (p.home t.cwd)).resolve p.source = t.resolve p.source := by
      refine FileTree.resolve_congr rfl fun x hx => FileTree.entry?_clear_outside ?_
      rw [hp.ways_source] at hx
      exact hout x hx
    have hthere : FileTree.entry? (t.clear (p.home t.cwd)) (p.source.place t.cwd) = some .dir :=
      (FileTree.entry?_clear_outside (hp.source_outside t.cwd)).trans hdir
    exact FileTree.listBelow_eq_ok_iff.2 ⟨hsame.trans hr, hthere, rfl⟩
  · exact FileTree.listBelow_eq_ok_iff.2 ⟨hr, hdir, rfl⟩

/-- Clearing takes nothing from a source directory beside the build directory. -/
theorem mem_below_of_cleared (hp : p.InPlace) (hclear : p.cleared t = .ok () u)
    (hapart : ¬p.source.place t.cwd <+: p.home t.cwd) {a : Place × Entry}
    (ha : a ∈ t.below (p.source.place t.cwd)) : a ∈ u.below (p.source.place t.cwd) := by
  obtain ⟨place, e⟩ := a
  rcases cleared_eq_ok hclear with ⟨-, -, rfl⟩ | ⟨-, rfl⟩
  · obtain ⟨hne, hmem⟩ := FileTree.mem_below_iff.1 ha
    refine FileTree.mem_below_iff.2 ⟨hne, List.mem_filter.2 ⟨hmem, ?_⟩⟩
    rw [Bool.not_eq_true', ← Bool.not_eq_true, List.isPrefixOf_iff_prefix]
    intro hin
    rcases List.prefix_or_prefix_of_prefix hin (List.prefix_append _ place) with h | h
    · exact hp.source_outside t.cwd h
    · exact hapart h
  · exact ha

/-- **The copy of a file has its content.** -/
theorem content_of_copied (hp : p.InPlace) (ht : t.WellFormed) (hclear : p.cleared t = .ok () u)
    (hcopied : p.copied u = .ok () v) (hout : ∀ x ∈ p.build.ways t.cwd, ¬p.home t.cwd <+: x)
    {entries : List (Place × Entry)} (hlist : t.listBelow p.source = .ok entries)
    (hin : (Path.ofString path).Inward) (hfile : t.stat (p.source.child path) = .ok (.file c))
    {c' : ByteArray} (hcopy : v.stat (p.build.child path) = .ok (.file c')) : c' = c := by
  obtain ⟨hfresh, hu, hcwd⟩ := fresh_of_cleared hp ht hclear
  have hcwd' : v.cwd = t.cwd := (grown_of_copied hu hfresh hcopied).cwd_eq.trans hcwd
  have hlist' := listBelow_of_cleared hp hclear hout hlist
  have hapart : ¬p.source.place t.cwd <+: p.home t.cwd := by
    rw [← hcwd]
    exact not_nested_of_copied hp hu hcopied hlist'
  have hne := Path.parts_ofString_ne_nil path
  obtain ⟨-, hentry⟩ := FileTree.stat_eq_ok_iff.1 hfile
  obtain ⟨-, hentry'⟩ := FileTree.stat_eq_ok_iff.1 hcopy
  rw [Path.child, Path.place_join hin.relative hne, FileTree.goal_of_down hin.down] at hentry hentry'
  have hrel : FileTree.goal [] (Path.ofString path).parts ≠ [] := by
    intro hnil
    rw [hnil, List.append_nil, (FileTree.listBelow_eq_ok_iff.1 hlist).2.1] at hentry
    cases hentry
  -- the file is listed below the source directory, by the place that its path leads down to
  have hmem := FileTree.mem_below_iff.2 ⟨hrel,
    FileTree.mem_entries_of_some (List.append_ne_nil_of_right_ne_nil _ hrel) hentry⟩
  have hthere := entry?_of_copied hp hu hcopied hlist' (mem_below_of_cleared hp hclear hapart hmem)
  rw [home, hcwd, ← hcwd', hentry'] at hthere
  cases hthere
  rfl

/-! ## From the source directory to the build directory -/

/-- A file is read alike wherever it stands. -/
theorem load?_of_stat {a b : Path} {s : Scene} (ha : t.stat a = .ok (.file c))
    (hb : u.stat b = .ok (.file c)) (h : Scene.load? t a = .ok s) : Scene.load? u b = .ok s := by
  unfold Scene.load? FileTree.isFile FileTree.readText at h ⊢
  rw [ha] at h
  rw [hb]
  simp only [if_true] at h ⊢
  -- only the faults name the path, and there is none
  cases hutf : String.fromUTF8? c with
  | none =>
    rw [hutf] at h
    cases h
  | some text =>
    rw [hutf] at h
    simp only at h ⊢
    cases hjson : Json.parse? text with
    | none =>
      rw [hjson] at h
      cases h
    | some v => rwa [hjson] at h

theorem stat_of_load? {path : Path} {s : Scene} (h : Scene.load? t path = .ok s) :
    ∃ c, t.stat path = .ok (.file c) := by
  unfold Scene.load? FileTree.isFile at h
  cases hstat : t.stat path with
  | error f =>
    rw [hstat] at h
    cases h
  | ok e =>
    cases e with
    | dir =>
      rw [hstat] at h
      cases h
    | file c => exact ⟨c, rfl⟩

/-- A scene that exists is loaded from its file, and its story from the file of that. -/
theorem loaded_of_existing {found : List String} {story : Option String} {s : ProjectScene}
    (h : p.loadScene? t found path story = .ok s) (hpath : path ∈ found) :
    Scene.load? t (p.build.child path) = .ok s.scene ∧ ∀ st, s.story = some st →
      ∃ file, story = some file ∧ Story.load? t (p.dir.child file) = .ok st := by
  unfold loadScene? at h
  simp only [if_pos hpath] at h
  split at h
  · cases story with
    | none =>
      -- without a story nothing else is read
      obtain ⟨loaded, hnone, h⟩ := bind_eq_ok h
      obtain ⟨scene, hscene, h⟩ := bind_eq_ok h
      cases hnone
      cases h
      exact ⟨hscene, nofun⟩
    | some file =>
      obtain ⟨loaded, hstory, h⟩ := bind_eq_ok h
      obtain ⟨scene, hscene, h⟩ := bind_eq_ok h
      cases h
      refine ⟨hscene, fun st hst => ⟨file, rfl, ?_⟩⟩
      obtain ⟨st', hload, rfl⟩ := map_eq_ok hstory
      exact Option.some.inj hst ▸ hload
  · cases h

theorem ascending_planned (p : Project) (t : FileTree) : (p.planned t).Ascending := by
  unfold planned
  exact Catalog.ascending_foldl_new _ (Catalog.ascending_ofList _)

/-- **Each scene that is loaded is extended** by what follows, and is saved under its path. -/
theorem extends_of_assemble? {ss : SceneSet} {report : Report} (h : p.assemble? t = .ok (ss, report))
    (hpath : path ∈ p.existing t) : ∃ s₀, Scene.load? t (p.build.child path) = .ok s₀ ∧
      ∃ e ∈ ss, e.1 = path ∧ (s₀.Extends (fun _ _ _ => False) e.2.scene ∨ report.compiled ≠ 0 ∧
        ∃ file story, (path, some file) ∈ p.planned t ∧
          Story.load? t (p.dir.child file) = .ok story ∧
          s₀.Extends (BranchField story.heads.length) e.2.scene) := by
  obtain ⟨packages, ss₀, as, -, hload, -, -, hss⟩ := assemble?_eq_ok h
  obtain ⟨⟨_, story⟩, hplanned, rfl⟩ := List.mem_map.1 (mem_planned_iff.2 (.inr hpath))
  obtain ⟨e₀, he₀, hname₀, hload₀⟩ := exists_of_forall₂ (loaded_of_loadScenes? hload) hplanned
  obtain ⟨hscene, hstory⟩ := loaded_of_existing hload₀ hpath
  obtain ⟨e₁, he₁, hname₁, hstocked⟩ :=
    exists_of_forall₂ (SceneSet.forall₂_stocked ss₀ (.ofList as) packages) he₀
  -- the scene is loaded, stocked, and maybe compiled: each step extends what was there
  have hkept : e₀.2.scene.Extends (fun _ _ _ => False) e₁.2.scene := Scene.extends_of_stocked hstocked
  refine ⟨e₀.2.scene, hscene, ?_⟩
  split at hss
  · rw [hss]
    exact ⟨e₁, he₁, hname₁.trans hname₀, .inl hkept⟩
  · rename_i hcompiled
    obtain ⟨template, -, hcompile⟩ := hss
    obtain ⟨e₂, he₂, hname₂, hsame | ⟨st, hst, hrun⟩⟩ :=
      exists_of_forall₂ (compiled_of_compileAll? hcompile) he₁
    · exact ⟨e₂, he₂, (hname₂.trans hname₁).trans hname₀, .inl (by rwa [hsame])⟩
    · rw [hstocked.story] at hst
      obtain ⟨file, rfl, hfile⟩ := hstory st hst
      refine ⟨e₂, he₂, (hname₂.trans hname₁).trans hname₀, .inr ⟨hcompiled, file, st, hplanned, hfile, ?_⟩⟩
      rw [hrun]
      exact (hkept.mono fun _ _ _ h => h.elim).trans
        (Scene.extends_run (Compiler.mk st template report.capacity.choices) _)

/-- A scene that is found in the source directory exists behind the copy. -/
theorem mem_existing_of_found (hp : p.InPlace) (ht : t.WellFormed) (hclear : p.cleared t = .ok () u)
    (hcopied : p.copied u = .ok () v) (hout : ∀ x ∈ p.build.ways t.cwd, ¬p.home t.cwd <+: x)
    (hfound : path ∈ t.sceneNames p.source) : path ∈ p.existing v := by
  obtain ⟨hfresh, hu, hcwd⟩ := fresh_of_cleared hp ht hclear
  obtain ⟨entries, hlist, a, ha, hname⟩ := mem_sceneNames.1 hfound
  obtain ⟨-, -, rfl⟩ := FileTree.listBelow_eq_ok_iff.1 hlist
  -- the source directory is listed as before
  have hlist' := listBelow_of_cleared hp hclear hout hlist
  have hapart : ¬p.source.place t.cwd <+: p.home t.cwd := by
    rw [← hcwd]
    exact not_nested_of_copied hp hu hcopied hlist'
  have hfound' : path ∈ u.sceneNames p.source :=
    mem_sceneNames.2 ⟨_, hlist', a, mem_below_of_cleared hp hclear hapart ha, hname⟩
  exact mem_existing.2 (mem_sceneNames_of_copied hp hu hfresh hcopied hfound')

/-- **Scenes that exist are extended, never replaced.** If a scaffold succeeds, then behind it a
file of the source directory whose path is written as the scan finds it has become a scene that
extends its own: fields, atoms and storables are kept, but for the triggers and the lengths of the
branches of a story that was compiled into it. -/
theorem scaffold_extends {t₀ t₁ t' : FileTree} {dirs : BuildDirs} {name : String} {report : Report}
    (hopen : open? t₀ dirs name = .ok p) (ht : t.WellFormed) (hprepare : p.prepare t = .ok () t₁)
    (hscaffold : p.scaffold t = .ok report t')
    (hout : ∀ x ∈ p.build.ways t.cwd, ¬p.home t.cwd <+: x)
    (hin : (Path.ofString path).Inward) (hfound : path ∈ t.sceneNames p.source)
    (hfile : t.stat (p.source.child path) = .ok (.file c))
    (halone : ∀ other ∈ p.scenePaths t, other ≠ path →
      (p.build.child other).place t.cwd ≠ (p.build.child path).place t.cwd) :
    ∃ s₀ s, Scene.load? t (p.source.child path) = .ok s₀ ∧
      t'.stat (p.build.child path) = .ok (.file s.fileContent) ∧
      (s₀.Extends (fun _ _ _ => False) s ∨ report.compiled ≠ 0 ∧
        ∃ file story, (path, some file) ∈ p.planned t₁ ∧
          Story.load? t₁ (p.dir.child file) = .ok story ∧
          s₀.Extends (BranchField story.heads.length) s) := by
  have hp := inPlace_of_open? hopen
  obtain ⟨t₂, ss, hprepare', hassemble, hsave⟩ := scaffold_eq_ok_iff.1 hscaffold
  obtain rfl : t₁ = t₂ := by
    rw [hprepare] at hprepare'
    cases hprepare'
    rfl
  rw [prepare_eq] at hprepare
  obtain ⟨_, u, hclear, hcopied⟩ := Work.bind_eq_ok hprepare
  obtain ⟨hfresh, hu, hcwd⟩ := fresh_of_cleared hp ht hclear
  have hgrown := grown_of_copied hu hfresh hcopied
  have hcwd₁ : t₁.cwd = t.cwd := hgrown.cwd_eq.trans hcwd
  have hexisting := mem_existing_of_found hp ht hclear hcopied hout hfound
  obtain ⟨entries, hlist, -⟩ := mem_sceneNames.1 hfound
  obtain ⟨s₀, hload, e, he, rfl, hextends⟩ := extends_of_assemble? hassemble hexisting
  obtain ⟨c', hstat⟩ := stat_of_load? hload
  -- what was loaded behind the copy is the scene of the source directory
  have hsame : c' = c := content_of_copied hp ht hclear hcopied hout hlist hin hfile hstat
  subst hsame
  refine ⟨s₀, e.2.scene, load?_of_stat hstat hfile hload, ?_, hextends⟩
  obtain ⟨hpaths, -⟩ := paths_of_assemble? hassemble
  have hnodup : (ss.map (·.1)).Nodup := hpaths ▸ (ascending_planned p t₁).nodup
  refine stat_of_save_of_nodup hnodup he (fun b hb hkey => ?_) hsave
  rw [hcwd₁]
  have hplanned : b.1 ∈ (p.planned t₁).map (·.1) := hpaths ▸ List.mem_map_of_mem hb
  have hscene := mem_scenePaths_of_planned hp hu hfresh hcopied hplanned
  exact halone b.1 (mem_scenePaths_of_cleared hclear hscene) hkey

theorem scaffold_yard : ∃ report t', yardProject.scaffold yard = .ok report t' := by
  have hdone : (FileTree.outcome (yardProject.scaffold yard)).isOk = true := by cbv
  cases h : yardProject.scaffold yard with
  | ok report t' => exact ⟨report, t', rfl⟩
  | error f t' =>
    rw [h] at hdone
    cases hdone

/-- What the scene holds that was drawn by hand. -/
theorem load?_hall : (Scene.load? yard (yardProject.source.child "Hall.json")).map
    (fun s => (s.field? "music", (s.atom? "Lamp").map Atom.fields)) =
      .ok (some (.str "slow"), some [("id", .str "Lamp"), ("on", .str "true")]) := by
  cbv

/-- **The scene that was drawn by hand is extended**: its music and its lamp, which the empty scene
does not have, are in the scene that is saved. -/
theorem scaffold_extends_yard : yard.WellFormed ∧ "Hall.json" ∈ yard.sceneNames yardProject.source ∧
    ∃ report t₁ t' s₀ s, yardProject.prepare yard = .ok () t₁ ∧
      yardProject.scaffold yard = .ok report t' ∧
      Scene.load? yard (yardProject.source.child "Hall.json") = .ok s₀ ∧
      t'.stat (yardProject.build.child "Hall.json") = .ok (.file s.fileContent) ∧
      (s₀.Extends (fun _ _ _ => False) s ∨ report.compiled ≠ 0 ∧
        ∃ file story, ("Hall.json", some file) ∈ yardProject.planned t₁ ∧
          Story.load? t₁ (yardProject.dir.child file) = .ok story ∧
          s₀.Extends (BranchField story.heads.length) s) ∧
      s.field? "music" = some (.str "slow") ∧
      (s.atom? "Lamp").map Atom.fields = some [("id", .str "Lamp"), ("on", .str "true")] := by
  have hwf : yard.WellFormed := by decide
  have hout : ∀ x ∈ yardProject.build.ways yard.cwd, ¬yardProject.home yard.cwd <+: x := by decide
  have hin : (Path.ofString "Hall.json").Inward := by decide
  have hfound : "Hall.json" ∈ yard.sceneNames yardProject.source := by
    have hnames : yard.sceneNames yardProject.source = ["Hall.json"] := by cbv
    rw [hnames]
    exact List.mem_cons_self
  obtain ⟨c, hfile⟩ : ∃ c, yard.stat (yardProject.source.child "Hall.json") = .ok (.file c) :=
    ⟨_, by cbv⟩
  have halone : ∀ other ∈ yardProject.scenePaths yard, other ≠ "Hall.json" →
      (yardProject.build.child other).place yard.cwd ≠
        (yardProject.build.child "Hall.json").place yard.cwd := by
    rw [scenePaths_yard]
    decide
  obtain ⟨report, t', hscaffold⟩ := scaffold_yard
  obtain ⟨t₁, ss, hprepare, -⟩ := scaffold_eq_ok_iff.1 hscaffold
  obtain ⟨s₀, s, hload, hsaved, hextends⟩ :=
    scaffold_extends open?_yard hwf hprepare hscaffold hout hin hfound hfile halone
  -- whether a story was compiled or not, fields and atoms are kept
  obtain ⟨Free, hkept⟩ : ∃ Free, s₀.Extends Free s := by
    rcases hextends with hkept | ⟨-, _, _, -, -, hkept⟩
    · exact ⟨_, hkept⟩
    · exact ⟨_, hkept⟩
  have hhall := load?_hall
  rw [hload] at hhall
  obtain ⟨hmusic, hlamp⟩ := Prod.mk.inj (Except.ok.inj hhall)
  obtain ⟨a, ha, hfields⟩ := Option.map_eq_some_iff.1 hlamp
  obtain ⟨a', ha', hsame, -⟩ := hkept.atoms "Lamp" a ha
  refine ⟨hwf, hfound, report, t₁, t', s₀, s, hprepare, hscaffold, hload, hsaved, hextends, ?_, ?_⟩
  · rw [Scene.field?, hkept.fields]
    exact hmusic
  · rw [ha', Option.map_some, hsame, hfields]

end Project

end Stagecraft
