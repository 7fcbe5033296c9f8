import Stagecraft.Project.Documents
import Stagecraft.Template.Store

/-!
# Reading files and templates

A path of names that stand for themselves leads to the place with these names, as long as
the directories on the way are there. A file that holds the bytes of a text is read as that
text, and a text is read by its characters.

* `Path.Plain`: a name that stands for itself.
* `FileTree.follow_plain`, `FileTree.resolve_plain`: **where such a path leads**;
  `FileTree.resolve_pair`.
* `FileTree.readText_of_stat`, `TemplateStore.load?_of_stat`: the text and the template in a
  file.
* `Json.raw?_ofList`, `TemplateStore.parse?_ofList`: a document and a template by the characters
  of their texts.
-/

namespace Stagecraft

/-- A name that stands for itself and can be looked up. -/
structure Path.Plain (name : String) : Prop where
  ne_empty : name ≠ ""
  ne_dot : name ≠ "."
  ne_dots : name ≠ ".."
  short : Path.partFault? name = none

instance (name : String) : Decidable (Path.Plain name) :=
  decidable_of_iff (name ≠ "" ∧ name ≠ "." ∧ name ≠ ".." ∧ Path.partFault? name = none)
    ⟨fun ⟨h1, h2, h3, h4⟩ => ⟨h1, h2, h3, h4⟩, fun h => ⟨h.ne_empty, h.ne_dot, h.ne_dots, h.short⟩⟩

namespace FileTree

variable {t : FileTree} {here : Place} {name : String} {names : List String}

theorem enter_plain (h : Path.Plain name) (here : Place) : enter here name = here ++ [name] := by
  have hfirst : ¬(name = "" ∨ name = ".") := not_or.2 ⟨h.ne_empty, h.ne_dot⟩
  rw [enter, if_neg hfirst, if_neg h.ne_dots]

/-- **Plain names are followed as they stand**, from one directory into the next. -/
theorem follow_plain (hn : ∀ n ∈ names, Path.Plain n)
    (hd : ∀ k < names.length, t.entry? (here ++ names.take k) = some .dir) :
    t.follow here names = .ok (here ++ names) := by
  induction names generalizing here with
  | nil => rw [follow, List.append_nil]
  | cons n names ih =>
    have hplain := hn n List.mem_cons_self
    have hhere : t.entry? here = some .dir := by
      have h0 := hd 0 (Nat.succ_pos _)
      rwa [List.take_zero, List.append_nil] at h0
    have hrest : ∀ k < names.length, t.entry? (here ++ [n] ++ names.take k) = some .dir := by
      intro k hk
      have hk1 := hd (k + 1) (Nat.succ_lt_succ hk)
      rwa [List.take_succ_cons, List.append_cons] at hk1
    simp only [follow, hhere, hplain.short, enter_plain hplain]
    rw [ih (fun m hm => hn m (List.mem_cons_of_mem _ hm)) hrest, ← List.append_cons]

/-- A path of plain names leads down from the current directory. -/
theorem resolve_plain (hf : Path.fault? ⟨names⟩ = none) (hne : names ≠ [])
    (hn : ∀ n ∈ names, Path.Plain n)
    (hd : ∀ k < names.length, t.entry? (t.cwd ++ names.take k) = some .dir) :
    t.resolve ⟨names⟩ = .ok (t.cwd ++ names) := by
  cases names with
  | nil => exact absurd rfl hne
  | cons n names =>
    have hfirst : n ≠ "" := (hn n List.mem_cons_self).ne_empty
    unfold resolve
    simp only [hf]
    split
    · rename_i h
      cases h
    · rename_i h
      cases h
      exact absurd rfl hfirst
    · rename_i h
      cases h
      exact absurd rfl hfirst
    · exact follow_plain hn hd

/-- A name in a directory that is in the current one. -/
theorem resolve_pair {d n : String} (hf : Path.fault? ⟨[d, n]⟩ = none) (hd : Path.Plain d)
    (hn : Path.Plain n) (hcwd : t.entry? t.cwd = some .dir)
    (hdir : t.entry? (t.cwd ++ [d]) = some .dir) : t.resolve ⟨[d, n]⟩ = .ok (t.cwd ++ [d, n]) := by
  refine resolve_plain hf (List.cons_ne_nil _ _) (fun m hm => ?_) fun k hk => ?_
  · simp only [List.mem_cons, List.not_mem_nil, or_false] at hm
    rcases hm with rfl | rfl
    · exact hd
    · exact hn
  · match k, hk with
    | 0, _ => rwa [List.take_zero, List.append_nil]
    | 1, _ => exact hdir

/-- **The bytes of a text are read as that text.** -/
theorem readText_of_stat {p : Path} {s : String} (h : t.stat p = .ok (.file s.toUTF8)) :
    t.readText p = .ok s := by
  have hs : String.fromUTF8? s.toUTF8 = some s := by
    unfold String.fromUTF8?
    exact dif_pos s.isValidUTF8
  simp only [readText, h, hs]

end FileTree

/-! ## Templates -/

/-- The template in a file that holds the bytes of a text. -/
theorem TemplateStore.load?_of_stat {s : TemplateStore} {t : FileTree} {name text : String}
    {values : Placeholders} (h : t.stat (s.pathOf name) = .ok (.file text.toUTF8)) :
    s.load? t name values = parse? name values text := by
  have hfile : t.isFile (s.pathOf name) = true := by simp only [FileTree.isFile, h]
  simp only [load?, read?, hfile, FileTree.readText_of_stat h, if_true]

theorem Json.raw?_ofList (cs : List Char) : Json.raw? (String.ofList cs) =
    ((Json.tokens? cs).bind fun ts => ts.foldlM Json.Builder.step {}).bind Json.Builder.finish? := by
  rw [Json.raw?, String.toList_ofList]

theorem TemplateStore.parse?_ofList (name : String) (values : Placeholders) (cs : List Char) :
    TemplateStore.parse? name values (String.ofList cs) =
      (Placeholder.expand name values cs).bind fun filled =>
        ((((Json.tokens? filled).bind fun ts => ts.foldlM Json.Builder.step {}).bind
          Json.Builder.finish?).bind (Json.Raw.value? Json.maxDepth)).elim
            (.error (.templateNotJson name)) .ok := by
  rw [TemplateStore.parse?, String.toList_ofList]
  cases Placeholder.expand name values cs with
  | error f => rfl
  | ok filled =>
    simp only [Except.bind, Json.parse?, ← Json.raw?_ofList]
    cases (Json.raw? (String.ofList filled)).bind (Json.Raw.value? Json.maxDepth) <;> rfl

end Stagecraft
