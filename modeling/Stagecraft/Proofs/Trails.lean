import Mathlib.Algebra.GroupWithZero.Nat
import Mathlib.Data.List.Induction
import Stagecraft.Proofs.Reading

/-!
# Where paths lead

Without links a path leads where its parts say, whatever stands in the tree: the tree only
decides whether it can be followed that far. What is asked of the tree on the way are the
places that the path leads through.

* `FileTree.goal`, `FileTree.ways`, `FileTree.trail`: the place that parts lead to, the
  directories in which they are looked up, and both together.
* `FileTree.follow_eq_ok_iff`, `FileTree.resolve_eq_ok_iff`: **when a path can be followed**.
* `FileTree.follow_congr`, `FileTree.stat_congr`: what else stands in the tree does not matter.
* `Path.Inward`, `FileTree.prefix_of_mem_trail`: a path without `..` stays below its start.
* `Path.place_join`, `Path.mem_trail_join`, `Path.mem_trail_parent`: joined paths and parents.
* `Path.utf8ByteSize_text`, `Path.fault?_append`: a longer path is refused where a shorter one is.
-/

namespace Stagecraft

namespace FileTree

/-- The place that parts lead to. -/
def goal (here : Place) (parts : List String) : Place := parts.foldl enter here

/-- The directories in which the parts of a path are looked up. -/
def ways : Place → List String → List Place
  | _, [] => []
  | here, part :: parts => here :: ways (enter here part) parts

/-- All places that the parts of a path lead through, up to the last one. -/
def trail (here : Place) (parts : List String) : List Place := ways here parts ++ [goal here parts]

variable {t u : FileTree} {here x : Place} {part : String} {parts rest names : List String}

theorem goal_append (here : Place) (parts rest : List String) :
    goal here (parts ++ rest) = goal (goal here parts) rest := List.foldl_append

theorem ways_append (here : Place) (parts rest : List String) :
    ways here (parts ++ rest) = ways here parts ++ ways (goal here parts) rest := by
  induction parts generalizing here with
  | nil => rfl
  | cons part parts ih => exact congrArg (here :: ·) (ih (enter here part))

theorem ways_append_singleton (here : Place) (parts : List String) (part : String) :
    ways here (parts ++ [part]) = trail here parts := ways_append here parts [part]

theorem goal_append_singleton (here : Place) (parts : List String) (part : String) :
    goal here (parts ++ [part]) = enter (goal here parts) part := goal_append here parts [part]

theorem goal_mem_trail (here : Place) (parts : List String) : goal here parts ∈ trail here parts :=
  List.mem_append_right _ (List.mem_singleton_self _)

theorem start_mem_trail (here : Place) (parts : List String) : here ∈ trail here parts := by
  cases parts with
  | nil => exact List.mem_singleton_self _
  | cons part parts => exact List.mem_cons_self

theorem mem_trail_append_singleton : x ∈ trail here (parts ++ [part]) ↔
    x ∈ trail here parts ∨ x = enter (goal here parts) part := by
  rw [trail, ways_append_singleton, goal_append_singleton, List.mem_append, List.mem_singleton]

theorem mem_trail_append : x ∈ trail here (parts ++ rest) ↔
    x ∈ trail here parts ∨ x ∈ trail (goal here parts) rest := by
  induction rest using List.reverseRecOn with
  | nil =>
    rw [List.append_nil, trail, trail, ways, goal, List.nil_append, List.mem_append]
    simp only [List.mem_singleton]
    tauto
  | append_singleton rest part ih =>
    rw [← List.append_assoc, mem_trail_append_singleton, mem_trail_append_singleton, ih, goal_append,
      or_assoc]

/-- Names that stand for themselves lead down. -/
theorem goal_plain (hn : ∀ n ∈ names, Path.Plain n) (here : Place) :
    goal here names = here ++ names := by
  induction names generalizing here with
  | nil => exact (List.append_nil _).symm
  | cons n names ih =>
    have hfirst : enter here n = here ++ [n] := enter_plain (hn n List.mem_cons_self) here
    have hrest := ih (fun m hm => hn m (List.mem_cons_of_mem _ hm)) (here ++ [n])
    rw [goal, List.foldl_cons, hfirst, ← goal, hrest, ← List.append_cons]

theorem prefix_enter (h : part ≠ "..") (here : Place) : here <+: enter here part := by
  unfold enter
  rw [if_neg h]
  split
  · exact List.prefix_refl _
  · exact List.prefix_append _ _

/-- **Without `..` no part leads up.** -/
theorem prefix_of_mem_trail (h : ".." ∉ parts) (hx : x ∈ trail here parts) : here <+: x := by
  induction parts generalizing here with
  | nil =>
    obtain rfl : x = here := List.mem_singleton.1 hx
    exact List.prefix_refl _
  | cons part parts ih =>
    have hpart : part ≠ ".." := fun he => h (he ▸ List.mem_cons_self)
    have hparts : ".." ∉ parts := fun hm => h (List.mem_cons_of_mem _ hm)
    rcases List.mem_cons.1 hx with rfl | hx
    · exact List.prefix_refl _
    · exact (prefix_enter hpart here).trans (ih hparts hx)

/-- Nor does the trail lead past the goal. -/
theorem prefix_goal_of_mem_trail (h : ".." ∉ parts) (hx : x ∈ trail here parts) :
    x <+: goal here parts := by
  induction parts using List.reverseRecOn with
  | nil =>
    obtain rfl : x = here := List.mem_singleton.1 hx
    exact List.prefix_refl _
  | append_singleton parts part ih =>
    have hpart : part ≠ ".." := fun he => h (he ▸ List.mem_append_right _ List.mem_cons_self)
    have hparts : ".." ∉ parts := fun hm => h (List.mem_append_left _ hm)
    rw [goal_append_singleton]
    rcases mem_trail_append_singleton.1 hx with hx | rfl
    · exact (ih hparts hx).trans (prefix_enter hpart _)
    · exact List.prefix_refl _

/-- Without `..` the goal lies below the start, wherever that is. -/
theorem goal_of_down (h : ".." ∉ parts) (here : Place) : goal here parts = here ++ goal [] parts := by
  induction parts generalizing here with
  | nil => exact (List.append_nil here).symm
  | cons part parts ih =>
    have hpart : part ≠ ".." := fun he => h (he ▸ List.mem_cons_self)
    have hparts : ".." ∉ parts := fun hm => h (List.mem_cons_of_mem _ hm)
    have hstep : enter here part = here ++ enter [] part := by
      unfold enter
      split
      · exact (List.append_nil here).symm
      · rfl
    have hcons : ∀ x, goal x (part :: parts) = goal (enter x part) parts := fun _ => rfl
    rw [hcons, hcons, ih hparts (enter here part), ih hparts (enter [] part), hstep, List.append_assoc]

/-! ## Following -/

/-- The root is a directory. -/
@[simp] theorem entry?_root (t : FileTree) : t.entry? [] = some .dir := if_pos rfl

/-- A part is looked up in a directory, and is not refused. -/
theorem follow_cons_eq_ok_iff {part : String} {q : Place} :
    t.follow here (part :: parts) = .ok q ↔ t.entry? here = some .dir ∧
      Path.partFault? part = none ∧ t.follow (enter here part) parts = .ok q := by
  rw [follow]
  split
  · rename_i hhere
    split <;> simp_all
  · simp_all
  · simp_all

/-- **When parts can be followed**: each of them is looked up in a directory, and none is
refused. They lead to their goal then. -/
theorem follow_eq_ok_iff {q : Place} : t.follow here parts = .ok q ↔ q = goal here parts ∧
    (∀ x ∈ ways here parts, t.entry? x = some .dir) ∧ ∀ part ∈ parts, Path.partFault? part = none := by
  induction parts generalizing here with
  | nil =>
    rw [follow, Except.ok.injEq, eq_comm (a := here)]
    exact ⟨fun h => ⟨h, List.forall_mem_nil _, List.forall_mem_nil _⟩, And.left⟩
  | cons part parts ih =>
    rw [follow_cons_eq_ok_iff, ih, ways, List.forall_mem_cons, List.forall_mem_cons]
    constructor
    · rintro ⟨hhere, hpart, hq, hways, hparts⟩
      exact ⟨hq, ⟨hhere, hways⟩, hpart, hparts⟩
    · rintro ⟨hq, ⟨hhere, hways⟩, hpart, hparts⟩
      exact ⟨hhere, hpart, hq, hways, hparts⟩

/-- Two trees that agree on the way are followed alike. -/
theorem follow_congr (h : ∀ x ∈ ways here parts, u.entry? x = t.entry? x) :
    u.follow here parts = t.follow here parts := by
  induction parts generalizing here with
  | nil => rfl
  | cons part parts ih =>
    have hhere := h here List.mem_cons_self
    have hrest : u.follow (enter here part) parts = t.follow (enter here part) parts :=
      ih fun x hx => h x (List.mem_cons_of_mem _ hx)
    unfold follow
    rw [hhere, hrest]

end FileTree

/-! ## Paths -/

namespace Path

variable {p q : Path} {cwd x : Place}

/-- Where a path starts: at the root, or in the current directory. -/
def start (cwd : Place) (p : Path) : Place := if p.isAbsolute then [] else cwd

/-- The place that a path leads to. -/
def place (cwd : Place) (p : Path) : Place := FileTree.goal (p.start cwd) p.parts

/-- The directories in which the parts of a path are looked up. -/
def ways (cwd : Place) (p : Path) : List Place := FileTree.ways (p.start cwd) p.parts

/-- All places that a path leads through, up to the last one. -/
def trail (cwd : Place) (p : Path) : List Place := FileTree.trail (p.start cwd) p.parts

/-- **A path that leads down only**: it starts where it is put, and no part of it is `..`. -/
structure Inward (p : Path) : Prop where
  relative : p.isAbsolute = false
  down : ".." ∉ p.parts

instance (p : Path) : Decidable p.Inward :=
  decidable_of_iff (p.isAbsolute = false ∧ ".." ∉ p.parts)
    ⟨fun ⟨h1, h2⟩ => ⟨h1, h2⟩, fun h => ⟨h.relative, h.down⟩⟩

theorem isAbsolute_iff : p.isAbsolute = true ↔ ∃ part parts, p.parts = "" :: part :: parts := by
  unfold isAbsolute
  split
  · rename_i part parts h
    exact ⟨fun _ => ⟨part, parts, h⟩, fun _ => rfl⟩
  · rename_i h
    constructor
    · intro hf
      cases hf
    · rintro ⟨part, parts, hp⟩
      exact absurd hp (h part parts)

/-- **A path is absolute** exactly if its first part is empty and not the last one. -/
theorem isAbsolute_iff_head? : p.isAbsolute = true ↔ p.parts.dropLast.head? = some "" := by
  rw [isAbsolute_iff]
  match p.parts with
  | [] | [part] => simp
  | part :: part' :: parts => simp

theorem start_congr (h : p.isAbsolute = q.isAbsolute) (cwd : Place) : p.start cwd = q.start cwd := by
  unfold start
  rw [h]

theorem mem_trail_iff : x ∈ p.trail cwd ↔ x ∈ p.ways cwd ∨ x = p.place cwd := by
  rw [trail, FileTree.trail, List.mem_append, List.mem_singleton]
  rfl

theorem place_mem_trail (cwd : Place) (p : Path) : p.place cwd ∈ p.trail cwd :=
  FileTree.goal_mem_trail _ _

theorem start_mem_trail (cwd : Place) (p : Path) : p.start cwd ∈ p.trail cwd :=
  FileTree.start_mem_trail _ _

/-- A path that starts elsewhere than its front is one of the empty text. -/
theorem start_append {parts : List String} (h0 : parts ≠ []) (h1 : parts ≠ [""])
    (rest : List String) :
    start cwd ⟨parts ++ rest⟩ = start cwd ⟨parts⟩ := by
  refine start_congr ?_ cwd
  rw [Bool.eq_iff_iff, isAbsolute_iff_head?, isAbsolute_iff_head?]
  match parts, h0, h1 with
  | [part], _, h1 =>
    have hpart : part ≠ "" := fun he => h1 (by rw [he])
    cases rest <;> simp [hpart]
  | part :: part' :: parts, _, _ => simp

end Path

/-! ### Joined paths and parents -/

namespace Path

variable {p q : Path} {cwd x : Place} {dir rest : List String} {last : String}

theorem relative_iff : p.isAbsolute = false ↔ ∀ part parts, p.parts ≠ "" :: part :: parts := by
  rw [← Bool.not_eq_true, isAbsolute_iff]
  simp only [not_exists]

theorem relative_single (part : String) : isAbsolute ⟨[part]⟩ = false := by
  rw [← Bool.not_eq_true, isAbsolute_iff_head?]
  exact nofun

/-- A single part is looked up in the current directory. -/
theorem start_single (cwd : Place) (part : String) : start cwd ⟨[part]⟩ = cwd := by
  unfold start
  rw [relative_single]
  rfl

/-- The last part of a path has no say in where it starts. -/
theorem isAbsolute_last (dir : List String) (a b : String) :
    isAbsolute ⟨dir ++ [a]⟩ = isAbsolute ⟨dir ++ [b]⟩ := by
  rw [Bool.eq_iff_iff, isAbsolute_iff_head?, isAbsolute_iff_head?, List.dropLast_concat,
    List.dropLast_concat]

/-- The trail of a path leads through that of its front. -/
theorem mem_trail_of_prefix {here : Place} {parts parts' : List String} (h : parts <+: parts')
    (hx : x ∈ FileTree.trail here parts) : x ∈ FileTree.trail here parts' := by
  obtain ⟨rest, rfl⟩ := h
  exact FileTree.mem_trail_append.2 (.inl hx)

/-- The parts of a path that go into a path below it. -/
def front (p : Path) : List String :=
  if p.parts.getLast? = some "" then p.parts.dropLast else p.parts

theorem parts_join (hq : q.isAbsolute = false) (p : Path) : (p.join q).parts = p.front ++ q.parts := by
  unfold join front
  rw [hq, if_neg Bool.false_ne_true]
  split <;> rfl

/-- An empty part at the end of a path leads nowhere. -/
theorem place_front (cwd : Place) (p : Path) : FileTree.goal (p.start cwd) p.front = p.place cwd ∧
    ∀ x, x ∈ FileTree.trail (p.start cwd) p.front ↔ x ∈ p.trail cwd := by
  unfold front place trail
  split
  · rename_i hlast
    obtain ⟨init, hinit⟩ := List.getLast?_eq_some_iff.1 hlast
    have hstay : ∀ here, FileTree.enter here "" = here := fun _ => rfl
    rw [hinit, List.dropLast_concat, FileTree.goal_append_singleton, hstay]
    refine ⟨rfl, fun x => ?_⟩
    rw [FileTree.mem_trail_append_singleton, hstay]
    exact ⟨.inl, fun h => h.elim id fun hx => hx ▸ FileTree.goal_mem_trail _ _⟩
  · exact ⟨rfl, fun x => Iff.rfl⟩

/-- A joined path starts where its first one does. -/
theorem start_front (hq : q.isAbsolute = false) (hne : q.parts ≠ []) (p : Path) (cwd : Place) :
    start cwd ⟨p.front ++ q.parts⟩ = p.start cwd := by
  have hrel : q.parts.dropLast.head? ≠ some "" := by
    rw [Ne, ← isAbsolute_iff_head?, hq]
    exact Bool.false_ne_true
  refine start_congr ?_ cwd
  rw [Bool.eq_iff_iff, isAbsolute_iff_head?, isAbsolute_iff_head?,
    List.dropLast_append_of_ne_nil hne]
  unfold front
  rcases List.eq_nil_or_concat p.parts with hp | ⟨init, last, hp⟩
  · simp [hp, hrel]
  · -- without its empty last part a path has its first one still, unless that was all of it
    rw [hp, List.concat_eq_append, List.getLast?_concat, List.dropLast_concat]
    split
    · cases init <;> simp [hrel]
    · rename_i hlast
      cases init <;> simp_all

/-- **Where a joined path leads**: on from the place of the first one. -/
theorem place_join (hq : q.isAbsolute = false) (hne : q.parts ≠ []) (p : Path) (cwd : Place) :
    (p.join q).place cwd = FileTree.goal (p.place cwd) q.parts := by
  have hjoin : p.join q = ⟨p.front ++ q.parts⟩ := congrArg Path.mk (parts_join hq p)
  rw [hjoin, place, start_front hq hne, FileTree.goal_append, (place_front cwd p).1]

theorem mem_trail_join (hq : q.isAbsolute = false) (hne : q.parts ≠ []) :
    x ∈ (p.join q).trail cwd ↔
      x ∈ p.trail cwd ∨ x ∈ FileTree.trail (p.place cwd) q.parts := by
  have hjoin : p.join q = ⟨p.front ++ q.parts⟩ := congrArg Path.mk (parts_join hq p)
  obtain ⟨hplace, htrail⟩ := place_front cwd p
  rw [hjoin, trail, start_front hq hne, FileTree.mem_trail_append, htrail, hplace]

theorem parts_ofString_ne_nil (s : String) : (ofString s).parts ≠ [] := by
  intro h
  exact Text.pieces_ne_nil '/' s.toList (List.map_eq_nil_iff.1 h)

/-- Parts that name nothing lead nowhere. -/
theorem eq_of_mem_trail_blank {here : Place} {parts : List String} (h : ∀ part ∈ parts, part = "")
    (hx : x ∈ FileTree.trail here parts) : x = here := by
  induction parts with
  | nil => exact List.mem_singleton.1 hx
  | cons part parts ih =>
    have hpart : FileTree.enter here part = here := by rw [h part List.mem_cons_self]; rfl
    have hcons : FileTree.trail here (part :: parts) = here :: FileTree.trail here parts := by
      unfold FileTree.trail
      rw [FileTree.ways, FileTree.goal, List.foldl_cons, hpart]
      rfl
    rw [hcons] at hx
    rcases List.mem_cons.1 hx with hx | hx
    · exact hx
    · exact ih (fun q hq => h q (List.mem_cons_of_mem _ hq)) hx

theorem prefix_dropBlank (parts : List String) : dropBlank parts <+: parts := by
  have h := List.dropWhile_suffix (l := parts.reverse) fun s => s = "" ∨ s = "."
  rw [← List.reverse_prefix, List.reverse_reverse] at h
  exact h

/-- **A parent** starts where its path does. -/
theorem isAbsolute_parent (p : Path) : p.parent.isAbsolute = p.isAbsolute := by
  rw [Bool.eq_iff_iff, isAbsolute_iff_head?, isAbsolute_iff_head?]
  unfold parent
  split
  · rename_i body hbody
    rw [hbody]
    split
    · simp
    · rename_i hne
      obtain ⟨part, parts, hparts⟩ := List.exists_cons_of_ne_nil hne
      simp [hparts]
  · rename_i body hbody
    rw [hbody]
    cases dropBlank body <;> simp
  · rename_i habs _
    -- a first part of the parent would be the first one of the path
    have hfirst : p.parts.dropLast.head? ≠ some "" := by
      intro h
      obtain ⟨parts, hparts⟩ := List.head?_eq_some_iff.1 h
      exact habs parts hparts
    have hparent : (dropBlank p.parts.dropLast).dropLast.head? ≠ some "" := by
      intro h
      obtain ⟨parts, hparts⟩ := List.head?_eq_some_iff.1 h
      obtain ⟨rest, hrest⟩ := (List.dropLast_prefix _).trans (prefix_dropBlank p.parts.dropLast)
      rw [← hrest, hparts] at hfirst
      exact hfirst rfl
    split <;> simp [hfirst, hparent]

/-- It is a front of the path, or names nothing. -/
theorem parent_cases (p : Path) :
    p.parent.parts <+: p.parts ∨ ∀ part ∈ p.parent.parts, part = "" := by
  have hfront : p.parts.dropLast <+: p.parts := List.dropLast_prefix _
  unfold parent
  split
  · rename_i body hbody
    rw [hbody] at hfront
    split
    · exact .inr (by simp)
    · exact .inl ((List.cons_prefix_cons.2 ⟨rfl, prefix_dropBlank body⟩).trans hfront)
  · rename_i body hbody
    rw [hbody] at hfront
    exact .inl ((List.cons_prefix_cons.2 ⟨rfl, prefix_dropBlank body⟩).trans hfront)
  · split
    · exact .inr (by simp)
    · exact .inl ((prefix_dropBlank _).trans hfront)

/-- A parent leads through places that its path leads through. -/
theorem mem_trail_parent (h : x ∈ p.parent.trail cwd) : x ∈ p.trail cwd := by
  have hstart := start_congr (isAbsolute_parent p) cwd
  unfold trail at h
  rw [hstart] at h
  rcases parent_cases p with hparts | hparts
  · exact mem_trail_of_prefix hparts h
  · rw [eq_of_mem_trail_blank hparts h]
    exact start_mem_trail cwd p

theorem dropBlank_append (h0 : last ≠ "") (h1 : last ≠ ".") (dir rest : List String) :
    ∃ rest', dropBlank (dir ++ [last] ++ rest) = dir ++ [last] ++ rest' := by
  induction rest using List.reverseRecOn with
  | nil =>
    refine ⟨[], ?_⟩
    have hlast : ¬(last = "" ∨ last = ".") := not_or.2 ⟨h0, h1⟩
    simp [dropBlank, hlast]
  | append_singleton rest part ih =>
    obtain ⟨rest', hrest⟩ := ih
    by_cases hpart : part = "" ∨ part = "."
    · refine ⟨rest', ?_⟩
      rw [← hrest]
      simp [dropBlank, hpart]
    · refine ⟨rest ++ [part], ?_⟩
      simp [dropBlank, hpart]

/-- The parent of a path below a directory with a name is that directory, or below it. -/
theorem parent_append (h0 : last ≠ "") (h1 : last ≠ ".") (dir : List String) (hrest : rest ≠ []) :
    ∃ rest', parent ⟨dir ++ [last] ++ rest⟩ = ⟨dir ++ [last] ++ rest'⟩ := by
  have hdrop : (dir ++ [last] ++ rest).dropLast = dir ++ [last] ++ rest.dropLast :=
    List.dropLast_append_of_ne_nil hrest
  unfold parent
  simp only [hdrop]
  match dir with
  | [] =>
    obtain ⟨rest', hrest'⟩ := dropBlank_append h0 h1 [] rest.dropLast
    rw [List.nil_append] at hrest' ⊢
    refine ⟨rest', ?_⟩
    split
    · rename_i h
      exact absurd (List.cons.inj h).1 h0
    · rename_i h
      exact absurd (List.cons.inj h).1 h1
    · rw [hrest']
      rfl
  | d :: dir =>
    -- the first part is kept apart where it is the root or a dot
    obtain ⟨rest', hrest'⟩ := dropBlank_append h0 h1 dir rest.dropLast
    obtain ⟨rest'', hrest''⟩ := dropBlank_append h0 h1 (d :: dir) rest.dropLast
    split
    · rename_i body h
      obtain ⟨rfl, hbody⟩ := List.cons.inj h
      refine ⟨rest', ?_⟩
      rw [← hbody, List.append_eq, List.append_eq, hrest']
      split
      · rename_i hnil
        simp at hnil
      · rfl
    · rename_i body h
      obtain ⟨rfl, hbody⟩ := List.cons.inj h
      refine ⟨rest', ?_⟩
      rw [← hbody, List.append_eq, List.append_eq, hrest']
      rfl
    · refine ⟨rest'', ?_⟩
      rw [hrest'']
      rfl

theorem fault?_ne_missing {f : FileFault} (h : p.fault? = some f) : f ≠ .missing := by
  rintro rfl
  unfold fault? at h
  split at h
  · cases h
  · split at h <;> cases h

theorem partFault?_ne_missing {part : String} {f : FileFault} (h : partFault? part = some f) :
    f ≠ .missing := by
  rintro rfl
  unfold partFault? at h
  split at h <;> cases h

/-- The bytes of a path's text: those of its parts, and a slash between each two. -/
theorem utf8ByteSize_text (h : p.parts ≠ []) :
    p.text.utf8ByteSize + 1 = (p.parts.map fun part => part.utf8ByteSize + 1).sum := by
  obtain ⟨parts⟩ := p
  unfold text
  induction parts with
  | nil => exact absurd rfl h
  | cons part parts ih =>
    by_cases hne : parts = []
    · rw [hne]
      simp
    · have hslash : "/".utf8ByteSize = 1 := rfl
      have hrest := ih hne
      rw [String.intercalate_cons_of_ne_nil hne, String.utf8ByteSize_append,
        String.utf8ByteSize_append, List.map_cons, List.sum_cons, hslash]
      simp only at hrest
      omega

/-- **A path is refused where its front is.** -/
theorem fault?_append {parts : List String} {f : FileFault} (h : fault? ⟨parts⟩ = some f)
    (rest : List String) :
    ∃ f', fault? ⟨parts ++ rest⟩ = some f' := by
  have hsize : (text ⟨parts⟩).utf8ByteSize ≤ (text ⟨parts ++ rest⟩).utf8ByteSize := by
    by_cases hparts : parts = []
    · -- nothing is written of a path without parts
      have hnil : (text ⟨parts⟩).utf8ByteSize = 0 := by rw [hparts]; rfl
      omega
    · have hne : parts ++ rest ≠ [] := List.append_ne_nil_of_left_ne_nil hparts _
      have hleft := utf8ByteSize_text (p := ⟨parts⟩) hparts
      have hright := utf8ByteSize_text (p := ⟨parts ++ rest⟩) hne
      simp only [List.map_append, List.sum_append] at hleft hright
      omega
  unfold fault? at h ⊢
  rw [List.any_append]
  split at h
  · rename_i hnul
    exact ⟨_, by rw [hnul]; rfl⟩
  · split at h
    · rename_i hlong
      have hlong' : maxBytes < (text ⟨parts ++ rest⟩).utf8ByteSize := by omega
      split
      · exact ⟨_, rfl⟩
      · exact ⟨_, rfl⟩
    · cases h

end Path

namespace FileTree

variable {t u : FileTree} {p : Path}

theorem resolve_eq_error (h : p.parts = [] ∨ p.parts = [""]) : ∃ f, t.resolve p = .error f := by
  unfold resolve
  split
  · exact ⟨_, rfl⟩
  · rcases h with h | h <;> rw [h] <;> exact ⟨_, rfl⟩

/-- A path that is not refused is followed from its start. -/
theorem resolve_eq_follow (hf : p.fault? = none) (h0 : p.parts ≠ []) (h1 : p.parts ≠ [""]) :
    t.resolve p = t.follow (p.start t.cwd) p.parts := by
  simp only [resolve, hf]
  split
  · rename_i h
    exact absurd h h0
  · rename_i h
    exact absurd h h1
  · rename_i parts hne h
    -- the first part of an absolute path is empty and leads from the root to the root
    have habs : p.isAbsolute = true := by
      rw [Path.isAbsolute_iff]
      cases parts with
      | nil => exact absurd h h1
      | cons part parts => exact ⟨part, parts, h⟩
    have hroot : enter [] "" = [] := rfl
    have hpart : Path.partFault? "" = none := rfl
    simp only [Path.start, habs, if_true, h, follow, entry?_root, hpart, hroot]
  · rename_i hne h1' hcons
    have habs : p.isAbsolute = false := by
      rw [← Bool.not_eq_true, Path.isAbsolute_iff]
      rintro ⟨part, parts, h⟩
      exact hcons _ h
    simp only [Path.start, habs, Bool.false_eq_true, if_false]

theorem resolve_of_fault {f : FileFault} (h : p.fault? = some f) : t.resolve p = .error f := by
  unfold resolve
  rw [h]

/-- **When a path can be followed.** -/
theorem resolve_eq_ok_iff {q : Place} : t.resolve p = .ok q ↔ q = p.place t.cwd ∧
    p.fault? = none ∧ p.parts ≠ [] ∧ p.parts ≠ [""] ∧
    (∀ x ∈ p.ways t.cwd, t.entry? x = some .dir) ∧ ∀ part ∈ p.parts, Path.partFault? part = none := by
  cases hf : p.fault? with
  | some f =>
    rw [resolve_of_fault hf]
    exact iff_of_false nofun fun ⟨_, h, _⟩ => nomatch h
  | none =>
    by_cases hblank : p.parts = [] ∨ p.parts = [""]
    · -- a path that names nothing leads nowhere
      obtain ⟨f, hr⟩ := resolve_eq_error (t := t) hblank
      rw [hr]
      exact iff_of_false nofun fun ⟨_, _, h0, h1, _⟩ => not_or.2 ⟨h0, h1⟩ hblank
    · obtain ⟨h0, h1⟩ := not_or.1 hblank
      rw [resolve_eq_follow hf h0 h1, follow_eq_ok_iff]
      constructor
      · rintro ⟨hq, hw, hp⟩
        exact ⟨hq, rfl, h0, h1, hw, hp⟩
      · rintro ⟨hq, -, -, -, hw, hp⟩
        exact ⟨hq, hw, hp⟩

theorem follow_append (here : Place) (parts rest : List String) : t.follow here (parts ++ rest) =
    (t.follow here parts).bind fun q => t.follow q rest := by
  induction parts generalizing here with
  | nil => rfl
  | cons part parts ih =>
    simp only [List.cons_append, follow]
    split
    · split
      · exact ih _
      · rfl
    · rfl
    · rfl

theorem fault?_eq_none {parts rest : List String} (h : Path.fault? ⟨parts ++ rest⟩ = none) :
    Path.fault? ⟨parts⟩ = none := by
  cases hfront : Path.fault? ⟨parts⟩ with
  | none => rfl
  | some f' =>
    obtain ⟨f'', hf''⟩ := Path.fault?_append hfront rest
    rw [h] at hf''
    cases hf''

/-- A path that is not refused goes on from where its front leads. -/
theorem resolve_append_eq {parts rest : List String} (h0 : parts ≠ []) (h1 : parts ≠ [""])
    (hf : Path.fault? ⟨parts ++ rest⟩ = none) :
    t.resolve ⟨parts ++ rest⟩ = (t.resolve ⟨parts⟩).bind fun q => t.follow q rest := by
  have hne : parts ++ rest ≠ [""] := by
    intro he
    obtain ⟨part, parts', rfl⟩ := List.exists_cons_of_ne_nil h0
    obtain ⟨rfl, hrest⟩ := List.cons.inj he
    exact h1 (by rw [(List.append_eq_nil_iff.1 hrest).1])
  rw [resolve_eq_follow hf (List.append_ne_nil_of_left_ne_nil h0 _) hne,
    resolve_eq_follow (fault?_eq_none hf) h0 h1, Path.start_append h0 h1, follow_append]

theorem resolve_append_error {parts rest : List String} {f : FileFault}
    (h : t.resolve ⟨parts⟩ = .error f) (hf : f ≠ .missing)
    (hw : Path.fault? ⟨parts ++ rest⟩ = none) : t.resolve ⟨parts ++ rest⟩ = .error f := by
  have hblank : ¬(parts = [] ∨ parts = [""]) := by
    intro hb
    have hmissing : t.resolve ⟨parts⟩ = .error .missing := by
      have hfront := fault?_eq_none hw
      rcases hb with rfl | rfl <;> simp only [resolve, hfront]
    rw [hmissing] at h
    cases h
    exact absurd rfl hf
  obtain ⟨h0, h1⟩ := not_or.1 hblank
  rw [resolve_append_eq h0 h1 hw, h]
  rfl

/-- **What is below a path that is refused is refused too**, unless something is missing on the
way. -/
theorem resolve_append {parts : List String} {f : FileFault} (h : t.resolve ⟨parts⟩ = .error f)
    (hf : f ≠ .missing) (rest : List String) :
    ∃ f', f' ≠ .missing ∧ t.resolve ⟨parts ++ rest⟩ = .error f' := by
  cases hwhole : Path.fault? ⟨parts ++ rest⟩ with
  | some f' => exact ⟨f', Path.fault?_ne_missing hwhole, resolve_of_fault hwhole⟩
  | none => exact ⟨f, hf, resolve_append_error h hf hwhole⟩

/-- Nothing is missing to parts whose directories are all there. -/
theorem follow_ne_missing (h : ∀ x ∈ ways here parts, t.entry? x = some .dir) :
    t.follow here parts ≠ .error .missing := by
  induction parts generalizing here with
  | nil => exact nofun
  | cons part parts ih =>
    rw [follow, h here List.mem_cons_self]
    simp only
    split
    · exact ih fun x hx => h x (List.mem_cons_of_mem _ hx)
    · rename_i hpart
      exact fun he => Path.partFault?_ne_missing hpart (Except.error.inj he)

/-- If all directories on its way are there, a path can be followed, or it is refused for another
reason than that something is missing. -/
theorem resolve_cases (hways : ∀ x ∈ p.ways t.cwd, t.entry? x = some .dir) (h0 : p.parts ≠ [])
    (h1 : p.parts ≠ [""]) :
    t.resolve p = .ok (p.place t.cwd) ∨ ∃ f, f ≠ .missing ∧ t.resolve p = .error f := by
  cases hr : t.resolve p with
  | ok q => exact .inl (by rw [(resolve_eq_ok_iff.1 hr).1])
  | error f =>
    refine .inr ⟨f, ?_, rfl⟩
    rintro rfl
    cases hf : p.fault? with
    | some f =>
      rw [resolve_of_fault hf] at hr
      exact Path.fault?_ne_missing hf (Except.error.inj hr)
    | none =>
      rw [resolve_eq_follow hf h0 h1] at hr
      exact follow_ne_missing hways hr

theorem resolve_congr (hcwd : u.cwd = t.cwd) (h : ∀ x ∈ p.ways t.cwd, u.entry? x = t.entry? x) :
    u.resolve p = t.resolve p := by
  cases hf : p.fault? with
  | some f =>
    unfold resolve
    rw [hf]
  | none =>
    by_cases hblank : p.parts = [] ∨ p.parts = [""]
    · rcases hblank with hb | hb <;> simp only [resolve, hf, hb]
    · obtain ⟨h0, h1⟩ := not_or.1 hblank
      rw [resolve_eq_follow hf h0 h1, resolve_eq_follow hf h0 h1, hcwd]
      exact follow_congr h

/-- With more directories a path can be followed as well. -/
theorem resolve_mono (hcwd : u.cwd = t.cwd) (h : ∀ x, t.entry? x = some .dir → u.entry? x = some .dir)
    {q : Place} (hq : t.resolve p = .ok q) : u.resolve p = .ok q := by
  rw [resolve_eq_ok_iff] at hq ⊢
  obtain ⟨rfl, hf, h0, h1, hways, hparts⟩ := hq
  rw [hcwd]
  exact ⟨rfl, hf, h0, h1, fun x hx => h x (hways x hx), hparts⟩

/-- **What stands elsewhere does not matter** to what a path leads to. -/
theorem stat_congr (hcwd : u.cwd = t.cwd) (h : ∀ x ∈ p.trail t.cwd, u.entry? x = t.entry? x) :
    u.stat p = t.stat p := by
  have hr : u.resolve p = t.resolve p :=
    resolve_congr hcwd fun x hx => h x (Path.mem_trail_iff.2 (.inl hx))
  unfold stat
  rw [hr]
  split
  · rfl
  · rename_i q hq
    obtain ⟨rfl, -⟩ := resolve_eq_ok_iff.1 hq
    rw [h _ (Path.place_mem_trail _ _)]

theorem stat_eq_ok_iff {e : Entry} : t.stat p = .ok e ↔
    t.resolve p = .ok (p.place t.cwd) ∧ t.entry? (p.place t.cwd) = some e := by
  unfold stat
  split
  · rename_i f hf
    rw [hf]
    exact iff_of_false nofun fun ⟨h, _⟩ => nomatch h
  · rename_i q hq
    obtain ⟨rfl, -⟩ := resolve_eq_ok_iff.1 hq
    rw [hq]
    split
    · rename_i hnone
      rw [hnone]
      exact iff_of_false nofun fun ⟨_, h⟩ => nomatch h
    · rename_i e' he
      rw [he, Except.ok.injEq, Option.some.injEq, and_iff_right rfl]

theorem exists?_of_resolve_error {f : FileFault} (h : t.resolve p = .error f) :
    t.exists? p = false := by
  rw [exists?, stat, h]
  rfl

theorem isDir_iff : t.isDir p = true ↔ t.stat p = .ok .dir := by
  unfold isDir
  split
  · rename_i h
    exact ⟨fun _ => h, fun _ => rfl⟩
  · rename_i h
    constructor
    · intro hf
      cases hf
    · intro hd
      exact absurd hd h

/-- A path to a directory leads through directories only. -/
theorem dir_of_isDir (h : t.isDir p = true) {x : Place} (hx : x ∈ p.trail t.cwd) :
    t.entry? x = some .dir := by
  obtain ⟨hr, he⟩ := stat_eq_ok_iff.1 (isDir_iff.1 h)
  obtain ⟨-, -, -, -, hw, -⟩ := resolve_eq_ok_iff.1 hr
  rcases Path.mem_trail_iff.1 hx with hx | rfl
  · exact hw x hx
  · exact he

end FileTree

end Stagecraft
