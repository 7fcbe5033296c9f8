import Mathlib.Data.List.Nodup
import Stagecraft.Proofs.Trails

/-!
# What changes of a tree leave behind

Making directories and writing files only ever adds: where a directory stands there is one
afterwards, and where a file stands there is a file. What is added has its place in a
directory that is there, so a tree stays well-formed.

* `FileTree.WellFormed`: each entry stands in a directory under a plain name, and no place twice.
* `FileTree.entry?_put_self`, `FileTree.entry?_clear_outside`: what stands where after a change.
* `FileTree.only`, `FileTree.entry?_only`: the part of a tree at some places.
* `FileTree.Grown`: **a tree to which entries were added**, each of them allowed to be.
* `FileTree.Grown.wellFormed`, `FileTree.Grown.entry?_cases`, `FileTree.Grown.clear_eq`: what that
  says of the tree.
* `FileTree.grown_makeDirs`, `FileTree.grown_write`: what the changes add, whether they are
  refused or not.
* `FileTree.Spares`, `FileTree.spares_makeDirs`, `FileTree.spares_write`: **what the changes leave
  as it is**, in any tree.
-/

namespace Stagecraft

namespace FileTree

variable {t u v : FileTree} {b q x : Place} {e e' : Entry}

/-! ## What stands where -/

theorem entry?_of_ne_nil (h : q ≠ []) : t.entry? q = (t.entries.find? (·.1 == q)).map (·.2) :=
  if_neg h

theorem find?_putEntry_self (es : List (Place × Entry)) :
    (putEntry q e es).find? (·.1 == q) = some (q, e) := by
  fun_induction putEntry q e es with
  | case1 => simp
  | case2 => simp
  | case3 q' f es h ih => rw [List.find?_cons_of_neg (by simpa using h), ih]

theorem find?_putEntry_of_ne (h : x ≠ q) (es : List (Place × Entry)) :
    (putEntry q e es).find? (·.1 == x) = es.find? (·.1 == x) := by
  fun_induction putEntry q e es with
  | case1 => simp [Ne.symm h]
  | case2 f es => simp [Ne.symm h]
  | case3 q' f es _ ih => simp only [List.find?_cons, ih]

theorem putEntry_eq_self {es : List (Place × Entry)}
    (h : (es.find? (·.1 == q)).map (·.2) = some e) : putEntry q e es = es := by
  fun_induction putEntry q e es with
  | case1 => cases h
  | case2 f es =>
    rw [List.find?_cons_of_pos (by simp)] at h
    cases h
    rfl
  | case3 q' f es hne ih =>
    rw [List.find?_cons_of_neg (by simpa using hne)] at h
    rw [ih h]

/-- An entry is put where its place stands already, or behind the others. -/
theorem map_fst_putEntry (es : List (Place × Entry)) : (putEntry q e es).map (·.1) =
    if q ∈ es.map (·.1) then es.map (·.1) else es.map (·.1) ++ [q] := by
  fun_induction putEntry q e es <;> grind

theorem mem_of_mem_putEntry {a : Place × Entry} {es : List (Place × Entry)}
    (h : a ∈ putEntry q e es) : a = (q, e) ∨ a ∈ es := by
  fun_induction putEntry q e es <;> grind

theorem entry?_put_self (h : q ≠ []) : entry? (t.put q e) q = some e := by
  rw [entry?_of_ne_nil h, put, find?_putEntry_self]
  rfl

theorem entry?_put_of_ne (h : x ≠ q) : entry? (t.put q e) x = t.entry? x := by
  unfold entry?
  rw [put, find?_putEntry_of_ne h]

/-- What stands at a place already is put there without effect. -/
theorem put_eq_self (h0 : q ≠ []) (h : t.entry? q = some e) : t.put q e = t := by
  rw [entry?_of_ne_nil h0] at h
  rw [put, putEntry_eq_self h]

theorem entry?_clear_inside (h0 : q ≠ []) (h : b <+: q) : entry? (t.clear b) q = none := by
  rw [entry?_of_ne_nil h0, clear, List.find?_filter, Option.map_eq_none_iff, List.find?_eq_none]
  rintro ⟨q', e'⟩ - hq
  simp only [Bool.not_eq_true', decide_eq_true_eq, beq_iff_eq] at hq
  obtain ⟨hq, rfl⟩ := hq
  rw [List.isPrefixOf_iff_prefix.2 h] at hq
  cases hq

/-- **The part of a tree at some places.** -/
def only (t : FileTree) (F : Place → Bool) : FileTree :=
  { t with entries := t.entries.filter fun a => F a.1 }

theorem cwd_only (t : FileTree) (F : Place → Bool) : (t.only F).cwd = t.cwd := rfl

theorem entry?_only {F : Place → Bool} (h : F q = true) : entry? (t.only F) q = t.entry? q := by
  have hsame : (fun a : Place × Entry => decide (F a.1 = true ∧ (a.1 == q) = true)) =
      fun a => a.1 == q := by
    funext ⟨q', e'⟩
    by_cases hq : q' = q
    · simp [hq, h]
    · simp [hq]
  unfold entry?
  rw [only, List.find?_filter, hsame]

theorem entry?_clear_outside (h : ¬b <+: q) : entry? (t.clear b) q = t.entry? q := by
  have hpart : (!b.isPrefixOf q) = true := by
    rw [Bool.not_eq_true', ← Bool.not_eq_true, List.isPrefixOf_iff_prefix]
    exact h
  exact entry?_only (F := fun x => !b.isPrefixOf x) hpart

theorem entry?_of_clear (h : FileTree.entry? (t.clear b) q = some e) : t.entry? q = some e := by
  by_cases h0 : q = []
  · rw [h0] at h ⊢
    exact h
  · by_cases hb : b <+: q
    · rw [entry?_clear_inside h0 hb] at h
      cases h
    · rwa [entry?_clear_outside hb] at h

theorem clear_clear (t : FileTree) (b : Place) : (t.clear b).clear b = t.clear b := by
  unfold clear
  rw [List.filter_filter]
  simp only [Bool.and_self]

/-- What is put below a place is cleared with it. -/
theorem clear_put (h : b <+: q) (t : FileTree) (e : Entry) : (t.put q e).clear b = t.clear b := by
  have hq : b.isPrefixOf q = true := List.isPrefixOf_iff_prefix.2 h
  have hsame : ∀ es : List (Place × Entry),
      (putEntry q e es).filter (fun a => !b.isPrefixOf a.1) = es.filter fun a => !b.isPrefixOf a.1 := by
    intro es
    fun_induction putEntry q e es with
    | case1 => simp [hq]
    | case2 f es => simp [hq]
    | case3 q' f es _ ih => simp only [List.filter_cons, ih]
  unfold clear put
  rw [hsame]

/-- A tree with nothing at or below a place is cleared of it without effect. -/
theorem clear_eq_self (h : ∀ a ∈ t.entries, ¬b <+: a.1) : t.clear b = t := by
  have hall : t.entries.filter (fun a => !b.isPrefixOf a.1) = t.entries := by
    rw [List.filter_eq_self]
    intro a ha
    rw [Bool.not_eq_true', ← Bool.not_eq_true, List.isPrefixOf_iff_prefix]
    exact h a ha
  unfold clear
  rw [hall]

/-- What stands below a place, by the names on the way from there. -/
theorem mem_below_iff {names : List String} :
    (names, e) ∈ t.below b ↔ names ≠ [] ∧ (b ++ names, e) ∈ t.entries := by
  unfold below
  rw [List.mem_filterMap]
  constructor
  · rintro ⟨⟨q, e'⟩, hq, hsome⟩
    simp only [Option.ite_none_right_eq_some, List.isPrefixOf_iff_prefix] at hsome
    obtain ⟨⟨⟨rest, rfl⟩, hne⟩, hsome⟩ := hsome
    rw [List.drop_left] at hsome
    cases hsome
    refine ⟨?_, hq⟩
    -- the place itself is not below itself
    rintro rfl
    exact hne (List.append_nil b)
  · rintro ⟨hne, hq⟩
    refine ⟨_, hq, ?_⟩
    simp only [Option.ite_none_right_eq_some, List.isPrefixOf_iff_prefix, List.drop_left, and_true]
    refine ⟨List.prefix_append _ _, fun he => hne ?_⟩
    exact List.append_right_eq_self.1 he

/-- In a tree without two entries at one place none is listed twice. -/
theorem nodup_below (h : (t.entries.map (·.1)).Nodup) (b : Place) :
    ((t.below b).map (·.1)).Nodup := by
  have hsame : (t.below b).map (·.1) = (t.entries.map (·.1)).filterMap fun q =>
      if b.isPrefixOf q ∧ q ≠ b then some (q.drop b.length) else none := by
    unfold below
    rw [List.map_filterMap, List.filterMap_map]
    congr 1
    funext ⟨q, e⟩
    simp only [Function.comp]
    split <;> rfl
  rw [hsame]
  refine List.Nodup.filterMap (fun q q' names hq hq' => ?_) h
  simp only [Option.mem_def, Option.ite_none_right_eq_some, List.isPrefixOf_iff_prefix] at hq hq'
  obtain ⟨⟨⟨rest, rfl⟩, -⟩, hq⟩ := hq
  obtain ⟨⟨⟨rest', rfl⟩, -⟩, hq'⟩ := hq'
  rw [List.drop_left] at hq hq'
  rw [Option.some.inj hq, Option.some.inj hq']

theorem listBelow_eq_ok_iff {p : Path} {entries : List (Place × Entry)} :
    t.listBelow p = .ok entries ↔ t.resolve p = .ok (p.place t.cwd) ∧
      t.entry? (p.place t.cwd) = some .dir ∧ entries = t.below (p.place t.cwd) := by
  unfold listBelow
  cases hr : t.resolve p with
  | error f => simp
  | ok q =>
    obtain ⟨rfl, -⟩ := resolve_eq_ok_iff.1 hr
    cases he : t.entry? (p.place t.cwd) with
    | none => simp [he]
    | some e => cases e <;> simp [he, eq_comm]

/-! ## Well-formed trees -/

/-- The place is that of a plain name in a directory. -/
def Houses (t : FileTree) (q : Place) : Prop :=
  ∃ here name, q = here ++ [name] ∧ Path.Plain name ∧ t.entry? here = some .dir

/-- **A tree as a file system holds it**: each entry stands in a directory under a plain name,
and no place has two. -/
structure WellFormed (t : FileTree) : Prop where
  nodup : (t.entries.map (·.1)).Nodup
  inside : ∀ a ∈ t.entries, t.Houses a.1

instance (t : FileTree) (q : Place) : Decidable (t.Houses q) :=
  decidable_of_iff (q ≠ [] ∧ Path.Plain (q.getLastD "") ∧ t.entry? q.dropLast = some .dir) <| by
    constructor
    · rintro ⟨h0, hname, hdir⟩
      obtain ⟨here, name, rfl⟩ : ∃ here name, q = here ++ [name] :=
        ⟨_, _, (List.dropLast_concat_getLast h0).symm⟩
      rw [List.getLastD_concat] at hname
      rw [List.dropLast_concat] at hdir
      exact ⟨here, name, rfl, hname, hdir⟩
    · rintro ⟨here, name, rfl, hname, hdir⟩
      rw [List.dropLast_concat, List.getLastD_concat]
      exact ⟨List.append_ne_nil_of_right_ne_nil _ (List.cons_ne_nil _ _), hname, hdir⟩

instance (t : FileTree) : Decidable t.WellFormed :=
  decidable_of_iff ((t.entries.map (·.1)).Nodup ∧ ∀ a ∈ t.entries, t.Houses a.1)
    ⟨fun ⟨h1, h2⟩ => ⟨h1, h2⟩, fun h => ⟨h.nodup, h.inside⟩⟩

theorem Houses.ne_nil (h : t.Houses q) : q ≠ [] := by
  obtain ⟨here, name, rfl, -, -⟩ := h
  exact List.append_ne_nil_of_right_ne_nil _ (List.cons_ne_nil _ _)

theorem mem_entries_of_some (h0 : q ≠ []) (h : t.entry? q = some e) : (q, e) ∈ t.entries := by
  rw [entry?_of_ne_nil h0, Option.map_eq_some_iff] at h
  obtain ⟨⟨q', e'⟩, hfind, rfl⟩ := h
  have hq : q' = q := by simpa using List.find?_some hfind
  rw [← hq]
  exact List.mem_of_find?_eq_some hfind

namespace WellFormed

theorem entry?_of_mem (h : t.WellFormed) (ha : (q, e) ∈ t.entries) : t.entry? q = some e := by
  have h0 : q ≠ [] := (h.inside _ ha).ne_nil
  have hfind : ∀ es : List (Place × Entry), (es.map (·.1)).Nodup → (q, e) ∈ es →
      es.find? (·.1 == q) = some (q, e) := by
    intro es hes hq
    induction es with
    | nil => cases hq
    | cons a es ih =>
      obtain ⟨hnew, hes⟩ := List.nodup_cons.1 hes
      rcases List.mem_cons.1 hq with rfl | hq
      · exact List.find?_cons_of_pos (by simp)
      · have hne : a.1 ≠ q := fun he => hnew (List.mem_map.2 ⟨_, hq, he.symm⟩)
        rw [List.find?_cons_of_neg (by simpa using hne), ih hes hq]
  rw [entry?_of_ne_nil h0, hfind _ h.nodup ha]
  rfl

theorem houses (h : t.WellFormed) (h0 : q ≠ []) (hq : t.entry? q = some e) : t.Houses q :=
  h.inside _ (mem_entries_of_some h0 hq)

/-- **What stands somewhere stands in directories**, up to the root. -/
theorem dir_of_prefix (h : t.WellFormed) (hq : t.entry? q = some e) (hx : x <+: q) (hne : x ≠ q) :
    t.entry? x = some .dir := by
  induction q using List.reverseRecOn generalizing e with
  | nil => exact absurd (List.prefix_nil.1 hx) hne
  | append_singleton q name ih =>
    have h0 : q ++ [name] ≠ [] := List.append_ne_nil_of_right_ne_nil _ (List.cons_ne_nil _ _)
    obtain ⟨here, name', hplace, -, hdir⟩ := h.houses h0 hq
    obtain ⟨rfl, -⟩ := List.append_inj' hplace rfl
    rcases List.prefix_concat_iff.1 hx with rfl | hx
    · exact absurd rfl hne
    · by_cases hself : x = q
      · rwa [hself]
      · exact ih hdir hx hself

/-- Where no directory stands there is nothing below. -/
theorem nothing_below (h : t.WellFormed) (hb : t.entry? b ≠ some .dir) (hx : b <+: x) (hne : x ≠ b) :
    t.entry? x = none := by
  cases he : t.entry? x with
  | none => rfl
  | some e => exact absurd (h.dir_of_prefix he hx (Ne.symm hne)) hb

/-- Where nothing stands, nothing is cleared. -/
theorem clear_of_none (h : t.WellFormed) (hb : t.entry? b = none) : t.clear b = t := by
  apply clear_eq_self
  rintro ⟨q, e⟩ ha hq
  have he := h.entry?_of_mem ha
  by_cases hne : q = b
  · rw [hne, hb] at he
    cases he
  · have hnone := h.nothing_below (b := b) (by rw [hb]; exact nofun) hq hne
    rw [hnone] at he
    cases he

theorem clear (h : t.WellFormed) (b : Place) : (t.clear b).WellFormed where
  nodup := List.Nodup.sublist (List.Sublist.map _ List.filter_sublist) h.nodup
  inside := by
    intro a ha
    obtain ⟨hmem, hfree⟩ := List.mem_filter.1 ha
    rw [Bool.not_eq_true', ← Bool.not_eq_true, List.isPrefixOf_iff_prefix] at hfree
    obtain ⟨here, name, hq, hname, hdir⟩ := h.inside a hmem
    refine ⟨here, name, hq, hname, ?_⟩
    rwa [entry?_clear_outside fun hp => hfree (hq ▸ hp.trans (List.prefix_append _ _))]

/-- All names on the way to an entry are plain. -/
theorem plain_of_stands (h : t.WellFormed) (hq : t.entry? q = some e) {name : String}
    (hname : name ∈ q) : Path.Plain name := by
  induction q using List.reverseRecOn generalizing e with
  | nil => cases hname
  | append_singleton q last ih =>
    have h0 : q ++ [last] ≠ [] := List.append_ne_nil_of_right_ne_nil _ (List.cons_ne_nil _ _)
    obtain ⟨here, last', hplace, hplain, hdir⟩ := h.houses h0 hq
    obtain ⟨rfl, hlast⟩ := List.append_inj' hplace rfl
    rcases List.mem_append.1 hname with hname | hname
    · exact ih hdir hname
    · rw [List.mem_singleton.1 hname, (List.cons.inj hlast).1]
      exact hplain

end WellFormed

/-! ## Growth -/

/-- An entry can be put at a place: a directory houses it, and if something stands there
already it is a directory exactly if the new entry is one. -/
structure Fits (t : FileTree) (q : Place) (e : Entry) : Prop where
  houses : t.Houses q
  kind : ∀ e', t.entry? q = some e' → (e' = .dir ↔ e = .dir)

/-- **A tree to which entries were added**, one after the other, each of them among `W`. -/
inductive Grown (W : Place → Entry → Prop) (t : FileTree) : FileTree → Prop
  | refl : Grown W t t
  | put {s : FileTree} {p : Place} {f : Entry} :
      Grown W t s → W p f → s.Fits p f → Grown W t (s.put p f)

namespace Grown

variable {W W' : Place → Entry → Prop}

theorem trans (h : Grown W t u) (h' : Grown W u v) : Grown W t v := by
  induction h' with
  | refl => exact h
  | put _ hw hfit ih => exact .put ih hw hfit

theorem mono (h : Grown W t u) (hw : ∀ q e, W q e → W' q e) : Grown W' t u := by
  induction h with
  | refl => exact .refl
  | put _ hq hfit ih => exact .put ih (hw _ _ hq) hfit

theorem cwd_eq (h : Grown W t u) : u.cwd = t.cwd := by
  induction h with
  | refl => rfl
  | put _ _ _ ih => exact ih

/-- **What was not added was there before**; and what was there keeps its kind. -/
theorem entry?_cases (h : Grown W t u) (q : Place) : u.entry? q = t.entry? q ∨
    ∃ e, u.entry? q = some e ∧ W q e ∧ ∀ e', t.entry? q = some e' → (e' = .dir ↔ e = .dir) := by
  induction h with
  | refl => exact .inl rfl
  | @put u q' e _ hw hfit ih =>
    by_cases hq : q = q'
    · subst hq
      refine .inr ⟨e, entry?_put_self hfit.houses.ne_nil, hw, fun e' he' => ?_⟩
      rcases ih with ih | ⟨e'', hu, -, hkind⟩
      · exact hfit.kind e' (ih.trans he')
      · exact (hkind e' he').trans (hfit.kind e'' hu)
    · rwa [entry?_put_of_ne hq]

/-- Directories stay. -/
theorem dir (h : Grown W t u) (hq : t.entry? q = some .dir) : u.entry? q = some .dir := by
  rcases h.entry?_cases q with he | ⟨e, he, -, hkind⟩
  · rwa [he]
  · rw [he, (hkind _ hq).1 rfl]

/-- Where nothing may be added nothing changes. -/
theorem entry?_eq (h : Grown W t u) (hq : ∀ e, ¬W q e) : u.entry? q = t.entry? q := by
  rcases h.entry?_cases q with he | ⟨e, -, hw, -⟩
  · exact he
  · exact absurd hw (hq e)

/-- What a path leads to it leads to still. -/
theorem resolve_eq_ok {p : Path} (h : Grown W t u) (hr : t.resolve p = .ok q) :
    u.resolve p = .ok q :=
  resolve_mono h.cwd_eq (fun _ => h.dir) hr

/-- A path that leads to a file leads to it still, if no other one was written there. -/
theorem stat_file {p : Path} {c : ByteArray} (h : Grown W t u) (hp : t.stat p = .ok (.file c))
    (hw : ∀ c', ¬W (p.place t.cwd) (.file c')) : u.stat p = .ok (.file c) := by
  obtain ⟨hr, he⟩ := stat_eq_ok_iff.1 hp
  rw [stat_eq_ok_iff, h.cwd_eq]
  refine ⟨h.resolve_eq_ok hr, ?_⟩
  rcases h.entry?_cases (p.place t.cwd) with hsame | ⟨e, -, hadded, hkind⟩
  · exact hsame.trans he
  · cases e with
    | dir => cases (hkind _ he).2 rfl
    | file c' => exact absurd hadded (hw c')

theorem houses (h : Grown W t u) (hq : t.Houses q) : u.Houses q := by
  obtain ⟨here, name, hplace, hname, hdir⟩ := hq
  exact ⟨here, name, hplace, hname, h.dir hdir⟩

/-- **Growth keeps a tree well-formed.** -/
theorem wellFormed (h : Grown W t u) (ht : t.WellFormed) : u.WellFormed := by
  induction h with
  | refl => exact ht
  | @put u q e _ _ hfit ih =>
    -- what housed an entry before houses it still
    have hone : Grown (fun _ _ => True) u (u.put q e) := .put .refl trivial hfit
    constructor
    · have hput : (u.put q e).entries = putEntry q e u.entries := rfl
      rw [hput, map_fst_putEntry]
      split
      · exact ih.nodup
      · rename_i hnew
        refine List.nodup_append.2 ⟨ih.nodup, by simp, fun x hx y hy hxy => hnew ?_⟩
        rwa [hxy, List.mem_singleton.1 hy] at hx
    · intro a ha
      rcases mem_of_mem_putEntry ha with rfl | ha
      · exact hone.houses hfit.houses
      · exact hone.houses (ih.inside a ha)

/-- What grew below a place is cleared with it. -/
theorem clear_eq (h : Grown W t u) (hw : ∀ q e, W q e → b <+: q) : u.clear b = t.clear b := by
  induction h with
  | refl => rfl
  | put _ hq _ ih => rw [clear_put (hw _ _ hq), ih]

/-- Directories that are there already are not added. -/
theorem refine (h : Grown W t u)
    (hw : ∀ q e, W q e → W' q e ∨ (e = .dir ∧ t.entry? q = some .dir)) : Grown W' t u := by
  induction h with
  | refl => exact .refl
  | @put u q e _ hq hfit ih =>
    rcases hw _ _ hq with hq | ⟨rfl, hdir⟩
    · exact .put ih hq hfit
    · rwa [put_eq_self hfit.houses.ne_nil (ih.dir hdir)]

end Grown

/-! ## Changes -/

variable {W : Place → Entry → Prop} {p : Path} {here : Place} {part : String} {c : ByteArray}

/-- The tree that a change leaves, whether it was refused or not. -/
def after {ε α : Type} : EStateM.Result ε FileTree α → FileTree
  | .ok _ t => t
  | .error _ t => t

/-- What a change gives, without the tree that it leaves. -/
def outcome {ε α : Type} : EStateM.Result ε FileTree α → Except ε α
  | .ok a _ => .ok a
  | .error f _ => .error f

/-- A part that is not refused leads from a directory to a directory or to a plain name in one. -/
theorem houses_enter (hu : u.WellFormed) (hhere : u.entry? here = some .dir)
    (hpart : Path.partFault? part = none) :
    u.entry? (enter here part) = some .dir ∨ u.Houses (enter here part) := by
  unfold enter
  split
  · exact .inl hhere
  · rename_i hname
    obtain ⟨h0, h1⟩ := not_or.1 hname
    split
    · refine .inl ?_
      -- the way up leads from a directory to the one that it is in
      by_cases hroot : here = []
      · rw [hroot]
        exact entry?_root u
      · have hne : here.dropLast ≠ here := by
          intro he
          have hlen := congrArg List.length he
          have hpos : 0 < here.length := List.length_pos_iff.2 hroot
          rw [List.length_dropLast] at hlen
          omega
        exact hu.dir_of_prefix hhere (List.dropLast_prefix _) hne
    · rename_i h2
      exact .inr ⟨here, part, rfl, ⟨h0, h1, h2, hpart⟩, hhere⟩

/-- So does a path that can be followed. -/
theorem houses_of_resolve (hu : u.WellFormed) (h : u.resolve p = .ok q) :
    u.entry? q = some .dir ∨ u.Houses q := by
  obtain ⟨rfl, -, h0, -, hways, hparts⟩ := resolve_eq_ok_iff.1 h
  obtain ⟨init, last, hlast⟩ : ∃ init last, p.parts = init ++ [last] :=
    ⟨_, _, (List.dropLast_concat_getLast h0).symm⟩
  have hplace : p.place u.cwd = enter (goal (p.start u.cwd) init) last := by
    rw [Path.place, hlast, goal_append_singleton]
  have hdir : u.entry? (goal (p.start u.cwd) init) = some .dir := by
    apply hways
    rw [Path.ways, hlast, ways_append_singleton]
    exact goal_mem_trail _ _
  rw [hplace]
  exact houses_enter hu hdir (hparts _ (by rw [hlast]; exact List.mem_append_right _ List.mem_cons_self))

theorem grown_makeDirAt (hq : u.entry? q = some .dir ∨ u.Houses q) (hw : W q .dir) :
    Grown W u (after (makeDirAt q u)) ∧
      ∀ x v, makeDirAt q u = .ok x v → x = q ∧ v.entry? q = some .dir := by
  unfold makeDirAt
  split
  · rename_i hnone
    -- what has nothing is no directory, so it is housed
    have hhouse : u.Houses q := hq.resolve_left (by rw [hnone]; exact nofun)
    refine ⟨.put .refl hw ⟨hhouse, fun e' he' => ?_⟩, fun x v h => ?_⟩
    · rw [hnone] at he'
      cases he'
    · cases h
      exact ⟨rfl, entry?_put_self hhouse.ne_nil⟩
  · rename_i hdir
    refine ⟨.refl, fun x v h => ?_⟩
    cases h
    exact ⟨rfl, hdir⟩
  · refine ⟨.refl, fun x v h => ?_⟩
    cases h

/-- **The last directory of a way**, made once directories stand at all other places of it. -/
theorem grown_makeDirAt_last {T : Place → Prop} (hgrown : Grown W u v)
    (hways : ∀ x, T x → v.entry? x = some .dir) (hq : v.entry? q = some .dir ∨ v.Houses q)
    (hw : W q .dir) : Grown W u (after (makeDirAt q v)) ∧
      ∀ here w, makeDirAt q v = .ok here w →
        here = q ∧ ∀ x, T x ∨ x = q → w.entry? x = some .dir := by
  obtain ⟨hlast, hok⟩ := grown_makeDirAt hq hw
  refine ⟨hgrown.trans hlast, fun here w h => ?_⟩
  obtain ⟨rfl, hdir⟩ := hok _ _ h
  refine ⟨rfl, fun x hx => ?_⟩
  rw [h] at hlast
  rcases hx with hx | rfl
  · exact hlast.dir (hways x hx)
  · exact hdir

/-- What is missing on the way of a path is not its start. -/
theorem start_of_missing {parts : List String}
    (h : u.resolve ⟨parts ++ [part]⟩ = .error .missing) (cwd : Place) :
    Path.start cwd ⟨parts ++ [part]⟩ = Path.start cwd ⟨parts⟩ := by
  by_cases h0 : parts = []
  · rw [h0, List.nil_append, Path.start_single]
    rfl
  by_cases h1 : parts = [""]
  · -- an absolute path of one name is looked up in the root, which is there
    rw [h1] at h
    unfold resolve at h
    split at h
    · rename_i f hf
      cases h
      exact absurd rfl (Path.fault?_ne_missing hf)
    · simp only [List.cons_append, List.nil_append, follow, entry?_root] at h
      split at h
      · cases h
      · rename_i f hf
        cases h
        exact absurd rfl (Path.partFault?_ne_missing hf)
  · exact Path.start_append h0 h1 _

/-- The trail of a path on whose way something is missing goes on from that of its front. -/
theorem mem_trail_of_missing {parts : List String}
    (h : u.resolve ⟨parts ++ [part]⟩ = .error .missing) (cwd : Place) :
    x ∈ Path.trail cwd ⟨parts ++ [part]⟩ ↔
      x ∈ Path.trail cwd ⟨parts⟩ ∨ x = enter (Path.place cwd ⟨parts⟩) part := by
  unfold Path.trail Path.place
  rw [start_of_missing h]
  exact mem_trail_append_singleton

theorem place_of_missing {parts : List String}
    (h : u.resolve ⟨parts ++ [part]⟩ = .error .missing) (cwd : Place) :
    Path.place cwd ⟨parts ++ [part]⟩ = enter (Path.place cwd ⟨parts⟩) part := by
  unfold Path.place
  rw [start_of_missing h]
  exact goal_append_singleton _ _ _

/-- The directories that were made stand on the trail of the path, and behind a success all
places of the trail are directories. -/
theorem grown_makeDirsBack (hu : u.WellFormed) (back : List String) :
    Grown (fun q e => e = .dir ∧ q ∈ Path.trail u.cwd ⟨back.reverse⟩) u
        (after (makeDirsBack back u)) ∧
      ∀ here v, makeDirsBack back u = .ok here v → here = Path.place u.cwd ⟨back.reverse⟩ ∧
        ∀ x ∈ Path.trail u.cwd ⟨back.reverse⟩, v.entry? x = some .dir := by
  induction back with
  | nil =>
    unfold makeDirsBack
    split
    · rename_i hcwd
      refine ⟨.refl, fun here v h => ?_⟩
      cases h
      refine ⟨rfl, fun x hx => ?_⟩
      rwa [List.mem_singleton.1 hx]
    · refine ⟨.refl, fun here v h => ?_⟩
      cases h
  | cons part back ih =>
    rw [List.reverse_cons]
    unfold makeDirsBack
    rw [List.reverse_cons]
    split
    · rename_i place hplace
      obtain ⟨rfl, -, -, -, hways, -⟩ := resolve_eq_ok_iff.1 hplace
      obtain ⟨hgrown, hok⟩ := grown_makeDirAt_last .refl hways (houses_of_resolve hu hplace)
        (W := fun q e => e = .dir ∧ q ∈ Path.trail u.cwd ⟨back.reverse ++ [part]⟩)
        ⟨rfl, Path.place_mem_trail _ _⟩
      refine ⟨hgrown, fun here v h => ?_⟩
      obtain ⟨rfl, hdirs⟩ := hok _ _ h
      exact ⟨rfl, fun x hx => hdirs x (Path.mem_trail_iff.1 hx)⟩
    · rename_i hmissing
      -- the missing directories in front are made first; whether that is refused or not, what it
      -- added stands on the longer trail too
      have hplace := place_of_missing hmissing u.cwd
      have htrail : ∀ x, x ∈ Path.trail u.cwd ⟨back.reverse ++ [part]⟩ ↔
          x ∈ Path.trail u.cwd ⟨back.reverse⟩ ∨
            x = enter (Path.place u.cwd ⟨back.reverse⟩) part := fun x =>
        mem_trail_of_missing hmissing u.cwd
      obtain ⟨hgrown, hok⟩ := ih
      replace hgrown := hgrown.mono fun q e h => (⟨h.1, (htrail q).2 (.inl h.2)⟩ :
        e = .dir ∧ q ∈ Path.trail u.cwd ⟨back.reverse ++ [part]⟩)
      split
      · rename_i f v hback
        rw [hback] at hgrown
        refine ⟨hgrown, fun here v h => ?_⟩
        cases h
      · rename_i here v hback
        rw [hback] at hgrown
        obtain ⟨rfl, hdirs⟩ := hok _ _ hback
        split
        · rename_i hpart
          have hv : v.WellFormed := hgrown.wellFormed hu
          have hhouse := houses_enter hv (hdirs _ (Path.place_mem_trail _ _)) hpart
          obtain ⟨hlast, hlastok⟩ := grown_makeDirAt_last hgrown hdirs hhouse
            ⟨rfl, (htrail _).2 (.inr rfl)⟩
          refine ⟨hlast, fun here w h => ?_⟩
          obtain ⟨rfl, hall⟩ := hlastok _ _ h
          exact ⟨hplace.symm, fun x hx => hall x ((htrail x).1 hx)⟩
        · refine ⟨hgrown, fun here v h => ?_⟩
          cases h
    · refine ⟨.refl, fun here v h => ?_⟩
      cases h

theorem makeDirs_eq (p : Path) (u : FileTree) : makeDirs p u =
    match makeDirsBack p.parts.reverse u with
    | .ok _ v => .ok () v
    | .error f v => .error f v := by
  unfold makeDirs
  simp only [bind, EStateM.bind]
  cases makeDirsBack p.parts.reverse u <;> rfl

/-- **Making directories** adds directories on the trail of the path. -/
theorem grown_makeDirs (hu : u.WellFormed) (p : Path) :
    Grown (fun q e => e = .dir ∧ q ∈ p.trail u.cwd) u (after (makeDirs p u)) := by
  obtain ⟨hgrown, -⟩ := grown_makeDirsBack hu p.parts.reverse
  rw [List.reverse_reverse] at hgrown
  rw [makeDirs_eq]
  split <;> rename_i h <;> rwa [h] at hgrown

/-- Then all places on its trail are directories. -/
theorem dir_of_makeDirs (hu : u.WellFormed) (h : makeDirs p u = .ok () v) (hx : x ∈ p.trail u.cwd) :
    v.entry? x = some .dir := by
  obtain ⟨-, hok⟩ := grown_makeDirsBack hu p.parts.reverse
  rw [List.reverse_reverse] at hok
  rw [makeDirs_eq] at h
  split at h
  · rename_i hback
    cases h
    exact (hok _ _ hback).2 x hx
  · cases h

/-- A path that is refused before anything is missing on its way makes no directory. -/
theorem makeDirsBack_refused {back : List String} {f : FileFault}
    (h : u.resolve ⟨back.reverse⟩ = .error f) (hf : f ≠ .missing) :
    makeDirsBack back u = .error f u := by
  cases back with
  | nil =>
    -- the empty path is missing
    cases h
    exact absurd rfl hf
  | cons part back =>
    unfold makeDirsBack
    rw [h]
    split
    · rename_i h
      cases h
    · rename_i h
      cases h
      exact absurd rfl hf
    · rename_i h
      cases h
      rfl

theorem makeDirs_refused {f : FileFault} (h : u.resolve p = .error f) (hf : f ≠ .missing) :
    makeDirs p u = .error f u := by
  rw [makeDirs_eq, makeDirsBack_refused (by rwa [List.reverse_reverse]) hf]

theorem write_eq_ok_iff : write p c u = .ok () v ↔ p.endsInSlash = false ∧
    u.resolve p = .ok (p.place u.cwd) ∧ u.entry? (p.place u.cwd) ≠ some .dir ∧
    v = u.put (p.place u.cwd) (.file c) := by
  unfold write write?
  cases hslash : p.endsInSlash with
  | true => simp
  | false =>
    cases hr : u.resolve p with
    | error f => simp
    | ok q =>
      obtain ⟨rfl, -⟩ := resolve_eq_ok_iff.1 hr
      cases he : u.entry? (p.place u.cwd) with
      | none => simp [he, eq_comm]
      | some e => cases e <;> simp [he, eq_comm]

theorem write_eq_error {f : FileFault} (h : write p c u = .error f v) : v = u := by
  unfold write at h
  split at h
  · cases h
  · cases h
    rfl

/-- A file that was written is there. -/
theorem stat_of_write (h : write p c u = .ok () v) : v.stat p = .ok (.file c) := by
  obtain ⟨-, hr, hdir, rfl⟩ := write_eq_ok_iff.1 h
  have hne : p.place u.cwd ≠ [] := by
    intro hnil
    rw [hnil] at hdir
    exact hdir (entry?_root u)
  -- what stands there now is no directory, so none of those on the way has gone
  have hr' : resolve (u.put (p.place u.cwd) (.file c)) p = .ok (p.place u.cwd) := by
    refine resolve_mono (t := u) (u := u.put _ _) rfl (fun x hx => ?_) hr
    have hother : x ≠ p.place u.cwd := fun he => hdir (he ▸ hx)
    rwa [entry?_put_of_ne hother]
  exact stat_eq_ok_iff.2 ⟨hr', entry?_put_self hne⟩

/-- **Writing a file** adds it at the place of its path. -/
theorem grown_write (hu : u.WellFormed) (p : Path) (c : ByteArray) :
    Grown (fun q e => q = p.place u.cwd ∧ e = .file c) u (after (write p c u)) := by
  cases h : write p c u with
  | error f v =>
    rw [write_eq_error h]
    exact .refl
  | ok a v =>
    obtain ⟨-, hr, hdir, rfl⟩ := write_eq_ok_iff.1 h
    have hhouse : u.Houses (p.place u.cwd) := (houses_of_resolve hu hr).resolve_left hdir
    refine .put .refl ⟨rfl, rfl⟩ ⟨hhouse, fun e' he' => ?_⟩
    constructor
    · rintro rfl
      exact absurd he' hdir
    · intro hfile
      cases hfile

theorem removeDir_eq_ok_iff : removeDir p u = .ok () v ↔ u.resolve p = .ok (p.place u.cwd) ∧
    u.entry? (p.place u.cwd) = some .dir ∧ v = u.clear (p.place u.cwd) := by
  unfold removeDir
  cases hr : u.resolve p with
  | error f => simp
  | ok q =>
    obtain ⟨rfl, -⟩ := resolve_eq_ok_iff.1 hr
    cases he : u.entry? (p.place u.cwd) with
    | none => simp [he]
    | some e => cases e <;> simp [he, eq_comm]

theorem removeDir_eq_error {f : FileFault} (h : removeDir p u = .error f v) : v = u := by
  unfold removeDir at h
  split at h
  · cases h
    rfl
  · split at h
    · cases h
      rfl
    · cases h
      rfl
    · cases h

/-! ## What changes leave as it is -/

section Spares

variable {F F' : Place → Prop}

/-- **What a change leaves as it is**, well-formed or not: the directories, and the files that it
does not write. -/
structure Spares (F : Place → Prop) (t u : FileTree) : Prop where
  cwd_eq : u.cwd = t.cwd
  dir : ∀ q, t.entry? q = some .dir → u.entry? q = some .dir
  file : ∀ q c, t.entry? q = some (.file c) → ¬F q → u.entry? q = some (.file c)

namespace Spares

theorem refl : Spares F t t := ⟨rfl, fun _ h => h, fun _ _ h _ => h⟩

theorem trans (h : Spares F t u) (h' : Spares F u v) : Spares F t v where
  cwd_eq := h'.cwd_eq.trans h.cwd_eq
  dir q hq := h'.dir q (h.dir q hq)
  file q c hq hw := h'.file q c (h.file q c hq hw) hw

theorem mono (h : Spares F t u) (hw : ∀ q, F q → F' q) : Spares F' t u where
  cwd_eq := h.cwd_eq
  dir := h.dir
  file q c hq hout := h.file q c hq (mt (hw q) hout)

/-- A file is still read under its path, if no other one was written there. -/
theorem stat_file (h : Spares F t u) (hp : t.stat p = .ok (.file c)) (hw : ¬F (p.place t.cwd)) :
    u.stat p = .ok (.file c) := by
  obtain ⟨hr, he⟩ := stat_eq_ok_iff.1 hp
  rw [stat_eq_ok_iff, h.cwd_eq]
  exact ⟨resolve_mono h.cwd_eq h.dir hr, h.file _ c he hw⟩

end Spares

theorem spares_put (hdir : t.entry? q ≠ some .dir) (hw : ∀ c, t.entry? q = some (.file c) → F q) :
    Spares F t (t.put q e) where
  cwd_eq := rfl
  dir x hx := by
    have hne : x ≠ q := fun he => hdir (he ▸ hx)
    rwa [entry?_put_of_ne hne]
  file x c hx hout := by
    have hne : x ≠ q := fun he => hout (he ▸ hw c (he ▸ hx))
    rwa [entry?_put_of_ne hne]

theorem spares_makeDirAt (t : FileTree) (q : Place) : Spares F t (after (makeDirAt q t)) := by
  unfold makeDirAt
  split
  · rename_i hnone
    exact spares_put (by rw [hnone]; exact nofun) fun c hc => absurd (hnone.symm.trans hc) nofun
  · exact .refl
  · exact .refl

theorem spares_makeDirsBack (t : FileTree) (back : List String) :
    Spares F t (after (makeDirsBack back t)) := by
  induction back with
  | nil =>
    unfold makeDirsBack
    split <;> exact .refl
  | cons part back ih =>
    unfold makeDirsBack
    split
    · exact spares_makeDirAt t _
    · -- the directories in front are made first, and then the one of the part
      split
      · rename_i f u hback
        rwa [hback] at ih
      · rename_i here u hback
        rw [hback] at ih
        split
        · exact ih.trans (spares_makeDirAt u _)
        · exact ih
    · exact .refl

theorem spares_makeDirs (t : FileTree) (p : Path) : Spares F t (after (makeDirs p t)) := by
  have h := spares_makeDirsBack (F := F) t p.parts.reverse
  rw [makeDirs_eq]
  split <;> rename_i hback <;> rwa [hback] at h

theorem spares_write (t : FileTree) (p : Path) (c : ByteArray) :
    Spares (· = p.place t.cwd) t (after (write p c t)) := by
  cases h : write p c t with
  | error f u =>
    rw [write_eq_error h]
    exact .refl
  | ok _ u =>
    obtain ⟨-, -, hdir, rfl⟩ := write_eq_ok_iff.1 h
    exact spares_put hdir fun _ _ => rfl

end Spares

end FileTree

end Stagecraft
