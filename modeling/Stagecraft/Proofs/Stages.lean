import Stagecraft.Proofs.Fallible
import Stagecraft.Proofs.Growth
import Stagecraft.Proofs.Ordered
import Stagecraft.Proofs.Wiring

/-!
# The stages of a scaffold

A scaffold clears the build directory, copies the source directory into it, and builds the
scenes there. Both directories stand side by side, and what is copied goes below the build
directory; so the scenes that exist are those that were found in the source.

* `Project.InPlace`, `Project.inPlace_of_open?`: where a project has its directories.
* `Project.cleared`, `Project.copied`, `Project.remade`, `Project.scaffold_eq`: the stages.
* `Project.Writes`, `Project.grown_copied`: what copying adds to the tree.
* `Project.scenePaths`, `Project.mem_existing`, `Project.paths_of_assemble?`: which scenes are
  built.
-/

namespace Stagecraft

open FileTree (Grown after)

/-! ## Where a project has its directories -/

/-- What is written behind a text goes to its last piece. -/
theorem Text.pieces_append {sep : Char} {s' : List Char} (h : sep ∉ s') (s : List Char) :
    ∃ init last, pieces sep s = init ++ [last] ∧ pieces sep (s ++ s') = init ++ [last ++ s'] := by
  induction s with
  | nil =>
    refine ⟨[], [], rfl, ?_⟩
    -- behind the empty text the other one is a piece of its own
    induction s' with
    | nil => rfl
    | cons c s' ih =>
      obtain ⟨hc, hs'⟩ := not_or.1 (mt List.mem_cons.2 h)
      have hrest : pieces sep s' = [s'] := ih hs'
      have hcons : pieces sep (c :: s') = [c :: s'] := by
        unfold pieces
        rw [if_neg (Ne.symm hc), hrest]
      exact hcons
  | cons c s ih =>
    obtain ⟨init, last, hs, hss⟩ := ih
    rw [List.cons_append]
    unfold pieces
    by_cases hc : c = sep
    · rw [if_pos hc, if_pos hc, hs, hss]
      exact ⟨[] :: init, last, rfl, rfl⟩
    · rw [if_neg hc, if_neg hc, hs, hss]
      -- the last piece may be the first one too
      cases init with
      | nil => exact ⟨[], c :: last, rfl, rfl⟩
      | cons a init => exact ⟨(c :: a) :: init, last, rfl, rfl⟩

/-- What is written behind the text of a path goes to its last part. -/
theorem Path.ofString_append {s' : String} (h : '/' ∉ s'.toList) (s : String) :
    ∃ init last, ofString s = ⟨init ++ [last]⟩ ∧ ofString (s ++ s') = ⟨init ++ [last ++ s']⟩ := by
  obtain ⟨init, last, hs, hss⟩ := Text.pieces_append h s.toList
  refine ⟨init.map String.ofList, String.ofList last, ?_, ?_⟩
  · rw [ofString, hs, List.map_append]
    rfl
  · have hlast : String.ofList (last ++ s'.toList) = String.ofList last ++ s' := by
      rw [String.ofList_append, String.ofList_toList]
    rw [ofString, String.toList_append, hss, List.map_append, List.map_singleton, hlast]

namespace Project

variable {p : Project} {t u v : FileTree} {w q x : Place} {e : Entry} {path : String}

/-- **A project whose directories stand side by side**: the names of the source and of the
build directory are looked up in the same directory. -/
structure InPlace (p : Project) : Prop where
  beside : ∃ dir last, p.source = ⟨dir ++ [last]⟩ ∧ p.build = ⟨dir ++ [buildName last]⟩

theorem inPlace_of_open? {dirs : BuildDirs} {name : String} (h : open? t dirs name = .ok p) :
    p.InPlace := by
  obtain ⟨blueprint, -, h⟩ := bind_eq_ok h
  obtain ⟨templates, -, h⟩ := bind_eq_ok h
  cases h
  obtain ⟨init, last, hs, hss⟩ := @Path.ofString_append ".scaffold" (by decide) name
  have habs := Path.isAbsolute_last init last (last ++ ".scaffold")
  constructor
  unfold Path.child buildName
  rw [hs, hss]
  -- an absolute name leaves the directory of the scenes out, with the ending and without it
  cases hrel : Path.isAbsolute ⟨init ++ [last]⟩ with
  | true =>
    rw [hrel] at habs
    exact ⟨init, last, if_pos hrel, if_pos habs.symm⟩
  | false =>
    rw [hrel] at habs
    refine ⟨dirs.scenes.front ++ init, last, ?_, ?_⟩
    · have hparts := Path.parts_join hrel dirs.scenes
      rw [List.append_assoc]
      exact congrArg Path.mk hparts
    · have hparts := Path.parts_join habs.symm dirs.scenes
      rw [List.append_assoc]
      exact congrArg Path.mk hparts

/-- The place of the build directory. -/
def home (p : Project) (w : Place) : Place := p.build.place w

theorem buildName_ne {last s : String} (h : s.toList.length < 9) : buildName last ≠ s := by
  rintro rfl
  rw [buildName, String.toList_append, List.length_append] at h
  have hext : ".scaffold".toList.length = 9 := rfl
  omega

theorem parts_ne_blank (dir : List String) (last : String) : dir ++ [buildName last] ≠ [""] := by
  intro h
  have hlast := congrArg List.getLast? h
  rw [List.getLast?_concat, List.getLast?_singleton, Option.some.injEq] at hlast
  exact buildName_ne (by decide) hlast

theorem enter_buildName (here : Place) (last : String) :
    FileTree.enter here (buildName last) = here ++ [buildName last] := by
  have h0 : buildName last ≠ "" := buildName_ne (by decide)
  have h1 : buildName last ≠ "." := buildName_ne (by decide)
  have h2 : buildName last ≠ ".." := buildName_ne (by decide)
  unfold FileTree.enter
  rw [if_neg (not_or.2 ⟨h0, h1⟩), if_neg h2]

namespace InPlace

/-- Both directories are looked up in the same one. -/
theorem ways_source (h : p.InPlace) (w : Place) : p.source.ways w = p.build.ways w := by
  obtain ⟨dir, last, hs, hb⟩ := h.beside
  unfold Path.ways Path.start
  rw [hs, hb, Path.isAbsolute_last dir last (buildName last), FileTree.ways_append_singleton,
    FileTree.ways_append_singleton]

theorem home_eq (h : p.InPlace) (w : Place) : ∃ here last, here ∈ p.build.ways w ∧
    p.source.place w = FileTree.enter here last ∧ p.home w = here ++ [buildName last] := by
  obtain ⟨dir, last, hs, hb⟩ := h.beside
  refine ⟨FileTree.goal (Path.start w ⟨dir ++ [last]⟩) dir, last, ?_, ?_, ?_⟩
  · unfold Path.ways Path.start
    rw [hb, Path.isAbsolute_last dir last (buildName last), FileTree.ways_append_singleton]
    exact FileTree.goal_mem_trail _ _
  · unfold Path.place
    rw [hs, FileTree.goal_append_singleton]
  · unfold home Path.place Path.start
    rw [hb, Path.isAbsolute_last dir last (buildName last), FileTree.goal_append_singleton,
      enter_buildName]

theorem home_ne_nil (h : p.InPlace) (w : Place) : p.home w ≠ [] := by
  obtain ⟨here, last, -, -, hhome⟩ := h.home_eq w
  rw [hhome]
  exact List.append_ne_nil_of_right_ne_nil _ (List.cons_ne_nil _ _)

theorem source_ne_home (h : p.InPlace) (w : Place) : p.source.place w ≠ p.home w := by
  obtain ⟨here, last, -, hplace, hhome⟩ := h.home_eq w
  rw [hplace, hhome]
  intro he
  have hlen := congrArg List.length he
  unfold FileTree.enter at he hlen
  -- the place of the build directory is one longer than that of a blank name or of the way up
  split at he
  · rename_i hblank
    rw [if_pos hblank, List.length_append, List.length_singleton] at hlen
    omega
  · rename_i hname
    rw [if_neg hname] at hlen
    split at he
    · rename_i hup
      rw [if_pos hup, List.length_dropLast, List.length_append, List.length_singleton] at hlen
      omega
    · have hsame : buildName last = last := (List.cons.inj (List.append_cancel_left he)).1.symm
      have hlong := congrArg (fun s : String => s.toList.length) hsame
      simp only [buildName, String.toList_append, List.length_append] at hlong
      have hext : ".scaffold".toList.length = 9 := rfl
      omega

theorem length_source (h : p.InPlace) (w : Place) :
    (p.source.place w).length ≤ (p.home w).length := by
  obtain ⟨here, last, -, hplace, hhome⟩ := h.home_eq w
  rw [hplace, hhome, List.length_append, List.length_singleton]
  unfold FileTree.enter
  split
  · omega
  · split
    · rw [List.length_dropLast]
      omega
    · rw [List.length_append, List.length_singleton]

/-- The source directory is not inside the build directory. -/
theorem source_outside (h : p.InPlace) (w : Place) : ¬p.home w <+: p.source.place w := by
  intro hpre
  exact h.source_ne_home w (hpre.eq_of_length_le (h.length_source w)).symm

theorem front_build (h : p.InPlace) : p.build.front = p.build.parts := by
  obtain ⟨dir, last, -, hb⟩ := h.beside
  unfold Path.front
  rw [if_neg]
  rw [hb, List.getLast?_concat, Option.some.injEq]
  exact buildName_ne (by decide)

theorem join_build (h : p.InPlace) {q : Path} (hq : q.isAbsolute = false) :
    p.build.join q = ⟨p.build.parts ++ q.parts⟩ := by
  rw [← h.front_build]
  exact congrArg Path.mk (Path.parts_join hq p.build)

/-- If its directory is there the build path can be followed, or it is refused for another
reason than that something is missing. -/
theorem resolve_build (h : p.InPlace) (hways : ∀ x ∈ p.build.ways t.cwd, t.entry? x = some .dir) :
    t.resolve p.build = .ok (p.home t.cwd) ∨ ∃ f, f ≠ .missing ∧ t.resolve p.build = .error f := by
  obtain ⟨dir, last, -, hb⟩ := h.beside
  have h0 : p.build.parts ≠ [] := by
    rw [hb]
    exact List.append_ne_nil_of_right_ne_nil _ (List.cons_ne_nil _ _)
  have h1 : p.build.parts ≠ [""] := by
    rw [hb]
    exact parts_ne_blank dir last
  exact FileTree.resolve_cases hways h0 h1

end InPlace

/-! ## The stages -/

/-- The build directory is taken away if something stands there. -/
def cleared (p : Project) : Work Unit := do
  if (← get).exists? p.build then
    (FileTree.removeDir p.build).orFault (.buildDirNotCleared p.build)

/-- The source directory is copied into the build directory, if there is one. -/
def copied (p : Project) : Work Unit := do
  match (← get).listBelow p.source with
  | .error _ => pure ()
  | .ok entries => match p.nested? (← get) with
    | none => copyAll p.build (([""], .dir) :: entries)
    | some (source, build) => do
      copyAll p.build [([""], .dir)]
      copyDown p.build build (List.replicate Path.maxBytes (build.drop source.length)).flatten

/-- The scenes are assembled and saved. -/
def remade (p : Project) : Work Report := do
  match p.assemble? (← get) with
  | .error f => throw f
  | .ok (ss, report) => do
    p.save ss
    pure report

theorem prepare_eq (p : Project) : p.prepare = (do p.cleared; p.copied) := by
  funext t
  unfold prepare cleared copied
  simp only [bind, EStateM.bind, get, getThe, MonadStateOf.get, EStateM.get]
  split <;> rfl

/-- **A scaffold goes through the stages in a row.** -/
theorem scaffold_eq (p : Project) : p.scaffold = (do p.prepare; p.remade) := rfl

end Project

/-! ## Work that adds to a tree -/

namespace Work

variable {α β : Type} {t u : FileTree} {W : Place → Entry → Prop}

theorem grown_bind {x : Work α} {f : α → Work β} (hx : Grown W t (after (x t)))
    (hf : ∀ a u, x t = .ok a u → Grown W t u → Grown W u (after (f a u))) :
    Grown W t (after ((x >>= f) t)) := by
  simp only [bind, EStateM.bind]
  cases h : x t with
  | ok a u =>
    rw [h] at hx
    exact hx.trans (hf a u h hx)
  | error f u => rwa [h] at hx

/-- **Work that leaves a tree alone**, part by part. -/
theorem after_bind {x : Work α} {f : α → Work β} (hx : after (x t) = t)
    (hf : ∀ a, after (f a t) = t) : after ((x >>= f) t) = t := by
  simp only [bind, EStateM.bind]
  cases h : x t with
  | ok a u =>
    rw [h] at hx
    obtain rfl : u = t := hx
    exact hf a
  | error f u => rwa [h] at hx

/-- Behind work that is refused nothing else is done. -/
theorem bind_eq_error {x : Work α} {f : α → Work β} {e : Fault} (hx : x t = .error e u) :
    (x >>= f) t = .error e u := by
  simp only [bind, EStateM.bind, hx]

theorem get_bind (f : FileTree → Work α) (t : FileTree) : ((get : Work FileTree) >>= f) t = f t t :=
  rfl

theorem after_orFault (change : FileM α) (fault : FileFault → Fault) (t : FileTree) :
    after (change.orFault fault t) = after (change t) := by
  unfold FileM.orFault
  cases change t <;> rfl

end Work

namespace Project

variable {p : Project} {t u v : FileTree} {w q x : Place} {e : Entry} {path : String}

/-- One entry is copied. -/
def copyOne (target : Path) : Place × Entry → Work Unit
  | (place, .dir) => (FileTree.makeDirs (target.join ⟨place⟩)).orFault
      (.sceneNotCopied (target.join ⟨place⟩))
  | (place, .file content) => (FileTree.write (target.join ⟨place⟩) content).orFault
      (.sceneNotCopied (target.join ⟨place⟩))

theorem copyAll_cons (target : Path) (a : Place × Entry) (entries : List (Place × Entry)) :
    copyAll target (a :: entries) = (do copyOne target a; copyAll target entries) := by
  obtain ⟨place, e⟩ := a
  cases e <;> rfl

/-- What copying one entry may add: a directory with those on the way to it, or a file. -/
def Copied (target : Path) (w : Place) (a : Place × Entry) (q : Place) (e : Entry) : Prop :=
  (e = .dir ∧ a.2 = .dir ∧ q ∈ (target.join ⟨a.1⟩).trail w) ∨
    (q = (target.join ⟨a.1⟩).place w ∧ e = a.2 ∧ a.2 ≠ .dir)

theorem grown_copyOne (hu : u.WellFormed) (target : Path) (a : Place × Entry) :
    Grown (Copied target u.cwd a) u (after (copyOne target a u)) := by
  obtain ⟨place, e⟩ := a
  cases e with
  | dir =>
    rw [copyOne, Work.after_orFault]
    exact (FileTree.grown_makeDirs hu _).mono fun q e h => .inl ⟨h.1, rfl, h.2⟩
  | file c =>
    rw [copyOne, Work.after_orFault]
    exact (FileTree.grown_write hu _ _).mono fun q e h => .inr ⟨h.1, h.2, nofun⟩

theorem grown_copyAll (hu : u.WellFormed) (target : Path) (entries : List (Place × Entry)) :
    Grown (fun q e => ∃ a ∈ entries, Copied target u.cwd a q e) u
      (after (copyAll target entries u)) := by
  induction entries generalizing u with
  | nil => exact .refl
  | cons a entries ih =>
    rw [copyAll_cons]
    refine Work.grown_bind ?_ fun _ v _ hv => ?_
    · exact (grown_copyOne hu target a).mono fun q e h => ⟨a, List.mem_cons_self, h⟩
    · have hrest := ih (hv.wellFormed hu)
      rw [hv.cwd_eq] at hrest
      exact hrest.mono fun q e ⟨b, hb, h⟩ => ⟨b, List.mem_cons_of_mem _ hb, h⟩

/-- Directories that are made one in another go into a place with nothing in it. -/
theorem grown_copyDown {target : Path} {place : Place} {names : List String}
    (hn : ∀ n ∈ names, Path.Plain n) (hdir : u.entry? place = some .dir)
    (hfree : ∀ x, x ≠ [] → u.entry? (place ++ x) = none) :
    Grown (fun q e => e = .dir ∧ place <+: q ∧ q ≠ place) u
      (after (copyDown target place names u)) := by
  induction names generalizing target place u with
  | nil => exact .refl
  | cons n names ih =>
    unfold copyDown
    simp only
    split
    · exact .refl
    · have hne : place ++ [n] ≠ [] := List.append_ne_nil_of_right_ne_nil _ (List.cons_ne_nil _ _)
      have hlonger : place ++ [n] ≠ place := fun he => by simp at he
      have hfirst : Grown (fun q e => e = .dir ∧ place <+: q ∧ q ≠ place) u
          (u.put (place ++ [n]) .dir) := by
        refine .put .refl ⟨rfl, List.prefix_append _ _, hlonger⟩ ⟨?_, fun e' he' => ?_⟩
        · exact ⟨place, n, rfl, hn n List.mem_cons_self, hdir⟩
        · rw [hfree [n] (List.cons_ne_nil _ _)] at he'
          cases he'
      -- the new directory has nothing in it either, so the rest goes into it alike
      refine hfirst.trans ((ih (fun m hm => hn m (List.mem_cons_of_mem _ hm))
        (FileTree.entry?_put_self hne) fun x hx => ?_).mono fun q e h => ⟨h.1, ?_, ?_⟩)
      · rw [FileTree.entry?_put_of_ne fun he => hx (List.append_right_eq_self.1 he),
          List.append_assoc]
        exact hfree _ (List.append_ne_nil_of_right_ne_nil _ hx)
      · exact (List.prefix_append _ _).trans h.2.1
      · rintro rfl
        have hlen := h.2.1.length_le
        rw [List.length_append, List.length_singleton] at hlen
        omega

/-- **What a scaffold may write**: directories on the way to the build directory, and anything
inside it. -/
inductive Writes (p : Project) (w : Place) : Place → Entry → Prop
  | way {q : Place} : q ∈ p.build.trail w ∨ q <+: p.home w → Writes p w q .dir
  | inside {q : Place} {e : Entry} : p.home w <+: q → q ≠ p.home w → Writes p w q e

/-- What copying may add: files only from the source directory. -/
def Copies (p : Project) (u : FileTree) (q : Place) (e : Entry) : Prop :=
  p.Writes u.cwd q e ∧ ∀ c, e = .file c → ∃ entries place, u.listBelow p.source = .ok entries ∧
    (place, e) ∈ entries ∧ q = p.home u.cwd ++ place

/-- What is listed below a directory has plain names. -/
theorem plain_of_listed {entries : List (Place × Entry)} {path : Path} (hu : u.WellFormed)
    (h : u.listBelow path = .ok entries) {a : Place × Entry} (ha : a ∈ entries) :
    a.1 ≠ [] ∧ ∀ n ∈ a.1, Path.Plain n := by
  obtain ⟨-, -, rfl⟩ := FileTree.listBelow_eq_ok_iff.1 h
  obtain ⟨hne, hmem⟩ := FileTree.mem_below_iff.1 (show (a.1, a.2) ∈ _ from ha)
  refine ⟨hne, fun n hn => ?_⟩
  exact hu.plain_of_stands (hu.entry?_of_mem hmem) (List.mem_append_right _ hn)

theorem relative_of_plain {names : List String} (h : ∀ n ∈ names, Path.Plain n) :
    Path.isAbsolute ⟨names⟩ = false := by
  rw [Path.relative_iff]
  rintro part parts rfl
  exact (h "" List.mem_cons_self).ne_empty rfl

/-- Where an entry with plain names is copied to. -/
theorem copied_cases {place : Place} (hne : place ≠ []) (hplain : ∀ n ∈ place, Path.Plain n)
    (h : Copied p.build w (place, e) q e') : p.Writes w q e' ∧
      ∀ c, e' = .file c → e = e' ∧ q = p.home w ++ place := by
  have hrel : Path.isAbsolute ⟨place⟩ = false := relative_of_plain hplain
  have hdown : ".." ∉ place := fun hm => (hplain ".." hm).ne_dots rfl
  have hplace : (p.build.join ⟨place⟩).place w = p.home w ++ place := by
    rw [Path.place_join hrel hne]
    exact FileTree.goal_plain hplain _
  rcases h with ⟨rfl, -, htrail⟩ | ⟨rfl, rfl, -⟩
  · -- a directory: those on the way to the build directory may be made, too
    refine ⟨?_, fun c hc => by cases hc⟩
    rcases (Path.mem_trail_join hrel hne).1 htrail with htrail | htrail
    · exact .way (.inl htrail)
    · have hpre : p.home w <+: q := FileTree.prefix_of_mem_trail hdown htrail
      by_cases hq : q = p.home w
      · exact .way (.inr (hq ▸ List.prefix_refl _))
      · exact .inside hpre hq
  · -- a file stands at its own place, below the build directory
    rw [hplace]
    refine ⟨.inside (List.prefix_append _ _) fun he => hne (List.append_right_eq_self.1 he), ?_⟩
    exact fun c hc => ⟨rfl, rfl⟩

/-- The build directory is made before anything goes into it. -/
theorem copied_blank (h : Copied p.build w ([""], .dir) q e) :
    e = .dir ∧ (q ∈ p.build.trail w ∨ q = p.home w) := by
  have hrel : Path.isAbsolute ⟨[""]⟩ = false := Path.relative_single ""
  rcases h with ⟨rfl, -, htrail⟩ | ⟨-, -, hne⟩
  · refine ⟨rfl, ?_⟩
    rcases (Path.mem_trail_join hrel (List.cons_ne_nil _ _)).1 htrail with htrail | htrail
    · exact .inl htrail
    · exact .inr (Path.eq_of_mem_trail_blank (by simp) htrail)
  · exact absurd rfl hne

/-! ## Clearing and copying -/

theorem cleared_eq_ok (h : p.cleared t = .ok () u) :
    (t.resolve p.build = .ok (p.home t.cwd) ∧ t.entry? (p.home t.cwd) = some .dir ∧
      u = t.clear (p.home t.cwd)) ∨ t.exists? p.build = false ∧ u = t := by
  unfold cleared at h
  simp only [bind, EStateM.bind, get, getThe, MonadStateOf.get, EStateM.get] at h
  split at h
  · exact .inl (FileTree.removeDir_eq_ok_iff.1 (Work.eq_ok_of_orFault h))
  · rename_i hexists
    cases h
    exact .inr ⟨by simpa using hexists, rfl⟩

theorem cleared_eq_error {f : Fault} (h : p.cleared t = .error f u) : u = t := by
  unfold cleared at h
  simp only [bind, EStateM.bind, get, getThe, MonadStateOf.get, EStateM.get] at h
  split at h
  · unfold FileM.orFault at h
    split at h
    · cases h
    · rename_i hremove
      cases h
      exact FileTree.removeDir_eq_error hremove
  · cases h

/-- **There is nothing where the build directory goes**, if its path can be followed. -/
def Fresh (p : Project) (u : FileTree) : Prop :=
  u.resolve p.build = .ok (p.home u.cwd) → ∀ x, p.home u.cwd <+: x → u.entry? x = none

theorem fresh_of_cleared (hp : p.InPlace) (ht : t.WellFormed) (h : p.cleared t = .ok () u) :
    p.Fresh u ∧ u.WellFormed ∧ u.cwd = t.cwd := by
  rcases cleared_eq_ok h with ⟨-, -, rfl⟩ | ⟨hexists, rfl⟩
  · refine ⟨fun _ x hx => FileTree.entry?_clear_inside ?_ hx, ht.clear _, rfl⟩
    rintro rfl
    exact hp.home_ne_nil _ (List.prefix_nil.1 hx)
  · refine ⟨fun hr x hx => ?_, ht, rfl⟩
    have hnone : u.entry? (p.home u.cwd) = none := by
      cases he : u.entry? (p.home u.cwd) with
      | none => rfl
      | some e =>
        rw [FileTree.exists?, FileTree.stat_eq_ok_iff.2 ⟨hr, he⟩] at hexists
        cases hexists
    by_cases hne : x = p.home u.cwd
    · rwa [hne]
    · exact ht.nothing_below (by simp [hnone]) hx hne

/-- Copying starts with the build directory. -/
theorem copied_eq (p : Project) (u : FileTree) : p.copied u =
    match u.listBelow p.source with
    | .error _ => .ok () u
    | .ok entries => (do
        copyOne p.build ([""], .dir)
        match p.nested? u with
        | none => copyAll p.build entries
        | some (source, build) =>
          copyDown p.build build (List.replicate Path.maxBytes (build.drop source.length)).flatten) u := by
  unfold copied
  rw [Work.get_bind]
  cases u.listBelow p.source with
  | error f => rfl
  | ok entries =>
    -- the tree is asked before anything is made
    simp only
    rw [Work.get_bind]
    cases p.nested? u with
    | none => simp only [copyAll_cons]
    | some ends =>
      simp only [copyAll_cons, bind, EStateM.bind]
      cases copyOne p.build ([""], .dir) u <;> rfl

theorem resolve_of_nested {source build : Place} (h : p.nested? u = some (source, build)) :
    u.resolve p.build = .ok build := by
  unfold nested? at h
  split at h
  · rename_i hb
    split at h
    · cases h
      exact hb
    · cases h
  · cases h

/-- Nothing on the way to a build directory that can be reached stands inside it. -/
theorem Fresh.not_mem_trail (hfresh : p.Fresh u) (hbuild : u.resolve p.build = .ok (p.home u.cwd))
    (hx : x ≠ []) : p.home u.cwd ++ x ∉ p.build.trail u.cwd := by
  obtain ⟨-, -, -, -, hways, -⟩ := FileTree.resolve_eq_ok_iff.1 hbuild
  intro htrail
  rcases Path.mem_trail_iff.1 htrail with hway | hplace
  · have hnone := hfresh hbuild _ (List.prefix_append (p.home u.cwd) x)
    rw [hways _ hway] at hnone
    cases hnone
  · exact hx (List.append_right_eq_self.1 hplace)

/-- The first step of a copy leaves an empty build directory. -/
theorem empty_of_copyOne (hu : u.WellFormed) (hfresh : p.Fresh u)
    (hbuild : u.resolve p.build = .ok (p.home u.cwd))
    (h : copyOne p.build ([""], .dir) u = .ok () v) : v.entry? (p.home u.cwd) = some .dir ∧
      ∀ x, x ≠ [] → v.entry? (p.home u.cwd ++ x) = none := by
  have hmade := grown_copyOne hu p.build ([""], .dir)
  rw [h] at hmade
  constructor
  · refine FileTree.dir_of_makeDirs hu (Work.eq_ok_of_orFault h) ?_
    rw [Path.mem_trail_join (Path.relative_single "") (List.cons_ne_nil _ _)]
    exact .inl (Path.place_mem_trail _ _)
  · intro x hx
    rw [← hfresh hbuild (p.home u.cwd ++ x) (List.prefix_append _ _)]
    refine hmade.entry?_eq fun e h => ?_
    obtain ⟨rfl, htrail | hhome⟩ := copied_blank h
    · exact hfresh.not_mem_trail hbuild hx htrail
    · exact hx (List.append_right_eq_self.1 hhome)

/-- **Copying** adds directories on the way to the build directory, and what was in the source
directory. -/
theorem grown_copied (hu : u.WellFormed) (hfresh : p.Fresh u) :
    Grown (p.Copies u) u (after (p.copied u)) := by
  have hfirst : Grown (p.Copies u) u (after (copyOne p.build ([""], .dir) u)) := by
    refine (grown_copyOne hu p.build ([""], .dir)).mono fun q e h => ?_
    obtain ⟨rfl, hq⟩ := copied_blank h
    refine ⟨.way (hq.imp id fun hq => ?_), fun c hc => by cases hc⟩
    exact hq ▸ List.prefix_refl _
  rw [copied_eq]
  split
  · exact .refl
  · rename_i entries hlist
    refine Work.grown_bind hfirst fun _ v hok hv => ?_
    cases hnested : p.nested? u with
    | none =>
      have hrest := grown_copyAll (hv.wellFormed hu) p.build entries
      rw [hv.cwd_eq] at hrest
      refine hrest.mono fun q e ⟨a, ha, h⟩ => ?_
      obtain ⟨hne, hplain⟩ := plain_of_listed hu hlist ha
      obtain ⟨hw, hfile⟩ := copied_cases hne hplain h
      refine ⟨hw, fun c hc => ?_⟩
      obtain ⟨he, hq⟩ := hfile c hc
      exact ⟨entries, a.1, hlist, he ▸ ha, hq⟩
    | some ends =>
      obtain ⟨source, build⟩ := ends
      -- the build directory is inside the source directory, and empty
      have hbuild := resolve_of_nested hnested
      obtain ⟨rfl, -⟩ := FileTree.resolve_eq_ok_iff.1 hbuild
      obtain ⟨hdir, hbelow⟩ := empty_of_copyOne hu hfresh hbuild hok
      refine (grown_copyDown (fun n hn => ?_) hdir hbelow).mono fun q e ⟨he, hpre, hne⟩ => ?_
      · obtain ⟨l, hl, hn⟩ := List.mem_flatten.1 hn
        rw [(List.mem_replicate.1 hl).2] at hn
        exact (hv.wellFormed hu).plain_of_stands hdir (List.mem_of_mem_drop hn)
      · refine ⟨.inside hpre hne, fun c hc => ?_⟩
        rw [he] at hc
        cases hc

/-! ## Which scenes are built -/

/-- The scene path of a file that is found, if it is that of a scene. -/
def sceneName? (place : Place) : Entry → Option String
  | .dir => none
  | .file _ =>
    if Path.hasExtension (place.getLast?.getD "") "json" then
      some (slashed ("/".intercalate place))
    else none

end Project

/-- The scene paths that are found below a directory. -/
def FileTree.sceneNames (t : FileTree) (dir : Path) : List String :=
  match t.listBelow dir with
  | .error _ => []
  | .ok entries => entries.filterMap fun a => Project.sceneName? a.1 a.2

namespace Project

variable {p : Project} {t u v : FileTree} {path : String}

theorem mem_sceneNames {dir : Path} : path ∈ t.sceneNames dir ↔
    ∃ entries, t.listBelow dir = .ok entries ∧ ∃ a ∈ entries, sceneName? a.1 a.2 = some path := by
  unfold FileTree.sceneNames
  cases t.listBelow dir with
  | error f => simp
  | ok entries => simp

theorem mem_existing : path ∈ p.existing t ↔ path ∈ t.sceneNames p.build := by
  unfold existing FileTree.sceneNames
  cases t.listBelow p.build with
  | error f => exact Iff.rfl
  | ok entries =>
    refine Catalog.mem_sorted.trans (Iff.of_eq (congrArg (path ∈ ·) (List.filterMap_congr ?_)))
    rintro ⟨place, e⟩ -
    cases e <;> rfl

/-- What is found in a tree that was cleared in part was found before. -/
theorem mem_sceneNames_of_clear {dir : Path} {b : Place} (h : path ∈ (t.clear b).sceneNames dir) :
    path ∈ t.sceneNames dir := by
  obtain ⟨entries, hlist, ⟨place, e⟩, ha, hname⟩ := mem_sceneNames.1 h
  obtain ⟨hr, hdir, rfl⟩ := FileTree.listBelow_eq_ok_iff.1 hlist
  have hr' := FileTree.resolve_mono (t := t.clear b) (u := t) rfl
    (fun x hx => FileTree.entry?_of_clear hx) hr
  have hlist' := FileTree.listBelow_eq_ok_iff.2 ⟨hr', FileTree.entry?_of_clear hdir, rfl⟩
  obtain ⟨hne, hmem⟩ := FileTree.mem_below_iff.1 ha
  refine mem_sceneNames.2 ⟨_, hlist', (place, e), FileTree.mem_below_iff.2 ⟨hne, ?_⟩, hname⟩
  exact (List.mem_filter.1 hmem).1

/-- If the source directory is there and was copied, the build path can be followed. -/
theorem resolve_of_copied (hp : p.InPlace) (h : p.copied u = .ok () v)
    {entries : List (Place × Entry)} (hlist : u.listBelow p.source = .ok entries) :
    u.resolve p.build = .ok (p.home u.cwd) := by
  obtain ⟨hsource, -⟩ := FileTree.listBelow_eq_ok_iff.1 hlist
  obtain ⟨-, -, -, -, hways, -⟩ := FileTree.resolve_eq_ok_iff.1 hsource
  rw [hp.ways_source] at hways
  rcases hp.resolve_build hways with hbuild | ⟨f, hf, hbuild⟩
  · exact hbuild
  · -- what cannot be followed for good is not made
    obtain ⟨f', hf', hrefused⟩ := FileTree.resolve_append hbuild hf [""]
    have hmake := FileTree.makeDirs_refused hrefused hf'
    rw [← hp.join_build (q := ⟨[""]⟩) (Path.relative_single "")] at hmake
    rw [copied_eq, hlist] at h
    obtain ⟨_, _, hone, -⟩ := Work.bind_eq_ok h
    rw [Work.eq_ok_of_orFault hone] at hmake
    cases hmake

theorem grown_of_copied (hu : u.WellFormed) (hfresh : p.Fresh u) (h : p.copied u = .ok () v) :
    Grown (p.Copies u) u v := by
  have hgrown := grown_copied hu hfresh
  rwa [h] at hgrown

/-- **The scenes that exist behind a copy** were found in the source directory. -/
theorem mem_sceneNames_copied (hp : p.InPlace) (hu : u.WellFormed) (hfresh : p.Fresh u)
    (h : p.copied u = .ok () v) (hpath : path ∈ v.sceneNames p.build) :
    path ∈ u.sceneNames p.source := by
  have hgrown := grown_of_copied hu hfresh h
  have hcwd : v.cwd = u.cwd := hgrown.cwd_eq
  obtain ⟨entries, hlist, ⟨place, e⟩, ha, hname⟩ := mem_sceneNames.1 hpath
  obtain ⟨hr, hdir, rfl⟩ := FileTree.listBelow_eq_ok_iff.1 hlist
  obtain ⟨c, rfl⟩ : ∃ c, e = .file c := by
    cases e with
    | dir => cases hname
    | file c => exact ⟨c, rfl⟩
  obtain ⟨hne, hmem⟩ := FileTree.mem_below_iff.1 ha
  have hentry : v.entry? (p.home u.cwd ++ place) = some (.file c) := by
    rw [home, ← hcwd]
    exact (hgrown.wellFormed hu).entry?_of_mem hmem
  rcases hgrown.entry?_cases (p.home u.cwd ++ place) with hold | ⟨e, he, hw, -⟩
  · -- the file was there before, but nothing was
    have hbuild : u.resolve p.build = .ok (p.home u.cwd) := by
      cases hlist' : u.listBelow p.source with
      | error f =>
        rw [copied_eq, hlist'] at h
        cases h
        exact hr
      | ok entries => exact resolve_of_copied hp h hlist'
    have hnone := hfresh hbuild _ (List.prefix_append (p.home u.cwd) place)
    rw [hold, hnone] at hentry
    cases hentry
  · have hsame : e = .file c := Option.some.inj (he.symm.trans hentry)
    obtain ⟨entries', place', hlist', ha', hq⟩ := hw.2 c hsame
    have hplace : place = place' := List.append_cancel_left hq
    subst hplace hsame
    exact mem_sceneNames.2 ⟨entries', hlist', _, ha', hname⟩

/-- **The scene paths of a project**: those of the blueprint, and those that are found in the
source directory, all with slashes only. -/
def scenePaths (p : Project) (t : FileTree) : List String :=
  (p.blueprint.scenes.map fun s => slashed s.path) ++ t.sceneNames p.source

theorem mem_planned_iff : path ∈ (p.planned t).map (·.1) ↔
    path ∈ p.blueprint.scenes.map (fun s => slashed s.path) ∨ path ∈ p.existing t := by
  unfold planned
  rw [Catalog.mem_keys_foldl_new, Catalog.mem_keys_ofList, List.map_map]
  rfl

/-- **The scenes that are planned behind a copy** have scene paths of the project. -/
theorem mem_scenePaths_of_planned (hp : p.InPlace) (hu : u.WellFormed) (hfresh : p.Fresh u)
    (h : p.copied u = .ok () v) (hpath : path ∈ (p.planned v).map (·.1)) :
    path ∈ p.scenePaths u := by
  rcases mem_planned_iff.1 hpath with hlisted | hfound
  · exact List.mem_append_left _ hlisted
  · exact List.mem_append_right _ (mem_sceneNames_copied hp hu hfresh h (mem_existing.1 hfound))

/-- Steps that keep the paths of scenes keep them all. -/
theorem paths_of_forall₂ {α β : Type} {as : List (String × α)} {bs : List (String × β)}
    {R : String × α → String × β → Prop} (h : List.Forall₂ R as bs) (hR : ∀ a b, R a b → b.1 = a.1) :
    bs.map (·.1) = as.map (·.1) := by
  induction h with
  | nil => rfl
  | cons hab _ ih => rw [List.map_cons, List.map_cons, ih, hR _ _ hab]

/-- Each scene to build is loaded, under its path. -/
theorem loaded_of_loadScenes? {ss : SceneSet} (h : p.loadScenes? t = .ok ss) :
    List.Forall₂ (fun a e => e.1 = a.1 ∧ p.loadScene? t (p.existing t) a.1 a.2 = .ok e.2)
      (p.planned t) ss := by
  refine (forall₂_of_mapM h).imp fun a e hae => ?_
  obtain ⟨s, hs, hse⟩ := map_eq_ok hae
  rw [← hse]
  exact ⟨rfl, hs⟩

/-- **What becomes of each scene** when the stories are compiled. -/
theorem compiled_of_compileAll? {template : Trigger} {slots : Nat} {ss ss' : SceneSet}
    (h : compileAll? template slots ss = .ok ss') :
    List.Forall₂ (fun e e' => e'.1 = e.1 ∧ (e'.2 = e.2 ∨ ∃ story, e.2.story = some story ∧
      e'.2.scene = ((Compiler.mk story template slots).run e.2.scene).1)) ss ss' := by
  refine (forall₂_of_mapM h).imp fun ⟨path, s⟩ e he => ?_
  cases hs : s.story with
  | none =>
    simp only [hs] at he
    cases he
    exact ⟨rfl, .inl rfl⟩
  | some story =>
    simp only [hs] at he
    split at he
    · rename_i scene out hrun
      cases he
      exact ⟨rfl, .inr ⟨story, rfl, by rw [hrun]⟩⟩
    · cases he

/-- **The scenes that are built** are those that were planned, and their paths end like that of
a document. -/
theorem paths_of_assemble? {ss : SceneSet} {report : Report} (h : p.assemble? t = .ok (ss, report)) :
    ss.map (·.1) = (p.planned t).map (·.1) ∧ ∀ e ∈ ss, isScenePath e.1 = true := by
  obtain ⟨packages, ss₀, as, -, hload, -, -, hss⟩ := assemble?_eq_ok h
  have hloaded := loaded_of_loadScenes? hload
  have hplanned : ss₀.map (·.1) = (p.planned t).map (·.1) :=
    paths_of_forall₂ hloaded fun a e hae => hae.1
  have hstocked : (stocked ss₀ (.ofList as) packages).1.map (·.1) = ss₀.map (·.1) :=
    paths_of_forall₂ (SceneSet.forall₂_stocked ss₀ _ _) fun a e hae => hae.1
  have hpaths : ss.map (·.1) = (p.planned t).map (·.1) := by
    -- only where a story is compiled does a third step come after loading and stocking
    split at hss
    · rw [hss, hstocked, hplanned]
    · obtain ⟨template, -, hcompile⟩ := hss
      have hcompiled := paths_of_forall₂ (compiled_of_compileAll? hcompile) fun a e hae => hae.1
      rw [hcompiled, hstocked, hplanned]
  have hall : ∀ x ∈ ss₀.map (·.1), isScenePath x = true := by
    intro x hx
    obtain ⟨e, he, rfl⟩ := List.mem_map.1 hx
    obtain ⟨a, -, hload⟩ := exists_of_mapM hload he
    obtain ⟨s, hscene, rfl⟩ := map_eq_ok hload
    unfold loadScene? at hscene
    split at hscene
    · assumption
    · cases hscene
  refine ⟨hpaths, fun e he => hall _ ?_⟩
  rw [hplanned, ← hpaths]
  exact List.mem_map_of_mem he

end Project

end Stagecraft
