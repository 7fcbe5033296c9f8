import Stagecraft.Proofs.Growth

/-!
# Making directories that are missing

The directories that are missing on a path are made one in another. A path without `..` leads
from there only through directories that are new, so what refuses it is one of its names, and
refuses it again; and a path that leads on from directories that were made is made alike
whether they are there or not.

* `FileTree.makeDirIn`, `FileTree.makeDirsBack_of_missing`: one step, behind those in front of it.
* `FileTree.makeDirsBack_front`: **the front of a path on which something is missing** is made, or it is
  refused for good.
* `FileTree.nothing_behind_missing`: nothing stands where the path of such a front leads on.
* `FileTree.makeDirs_of_made`: **what was made in front does not matter** to what is made behind it.
-/

namespace Stagecraft

namespace FileTree

variable {t u v : FileTree} {here q x : Place} {part name : String} {back parts rest : List String}
  {e : Entry} {c : ByteArray} {p : Path}

/-! ## Growth by directories -/

/-- A file that is there was there before directories were added. -/
theorem Grown.file_of_dirs {W : Place → Entry → Prop} (h : Grown W t u) (hW : ∀ q e, W q e → e = .dir)
    (hq : u.entry? q = some (.file c)) : t.entry? q = some (.file c) := by
  rcases h.entry?_cases q with hsame | ⟨e, he, hw, -⟩
  · rwa [hsame] at hq
  · rw [hW q e hw, hq] at he
    cases he

/-- What a path leads to it leads to as well when directories were added. -/
theorem Grown.stat_of_dirs {W : Place → Entry → Prop} (h : Grown W t u) (hW : ∀ q e, W q e → e = .dir)
    (hp : t.stat p = .ok e) : u.stat p = .ok e := by
  cases e with
  | dir =>
    obtain ⟨hr, he⟩ := stat_eq_ok_iff.1 hp
    rw [stat_eq_ok_iff, h.cwd_eq]
    exact ⟨h.resolve_eq_ok hr, h.dir he⟩
  | file c =>
    -- no file was written
    refine h.stat_file hp fun c' hadded => ?_
    cases hW _ _ hadded

/-! ## One step -/

/-- Makes a directory of a name in one that is there. -/
def makeDirIn (here : Place) (part : String) : FileM Place := fun t =>
  match Path.partFault? part with
  | none => makeDirAt (enter here part) t
  | some f => .error f t

/-- **Behind what is missing** directories are made one in another. -/
theorem makeDirsBack_of_missing (h : t.resolve ⟨back.reverse ++ [part]⟩ = .error .missing) :
    makeDirsBack (part :: back) t = (do
      let here ← makeDirsBack back
      makeDirIn here part) t := by
  rw [makeDirsBack]
  simp only [List.reverse_cons, h, bind, EStateM.bind]
  cases makeDirsBack back t with
  | error f v => rfl
  | ok here v => rfl

/-- How a name is looked up in a directory. -/
theorem resolve_concat (hr : t.resolve ⟨parts⟩ = .ok here) (hdir : t.entry? here = some .dir)
    (hf : Path.fault? ⟨parts ++ [part]⟩ = none) :
    t.resolve ⟨parts ++ [part]⟩ = match Path.partFault? part with
      | none => .ok (enter here part)
      | some f => .error f := by
  obtain ⟨-, -, h0, h1, -⟩ := resolve_eq_ok_iff.1 hr
  rw [resolve_append_eq h0 h1 hf, hr]
  cases hpart : Path.partFault? part <;> simp only [Except.bind, follow, hdir, hpart]

/-- In a directory that is there one more is made. -/
theorem makeDirsBack_of_dir (hr : t.resolve ⟨back.reverse⟩ = .ok here)
    (hdir : t.entry? here = some .dir) (hf : Path.fault? ⟨back.reverse ++ [part]⟩ = none) :
    makeDirsBack (part :: back) t = makeDirIn here part t := by
  unfold makeDirsBack makeDirIn
  simp only [List.reverse_cons, resolve_concat hr hdir hf]
  cases hpart : Path.partFault? part with
  | none => rfl
  | some f =>
    simp only
    split
    · rename_i h
      cases h
    · rename_i h
      exact absurd (Except.error.inj h) (Path.partFault?_ne_missing hpart)
    · rename_i h
      cases h
      rfl

/-- A name in a directory is made, or it is refused for good. -/
theorem makeDirIn_cases (hu : u.WellFormed) (hr : u.resolve ⟨parts⟩ = .ok here)
    (hdir : u.entry? here = some .dir) (hf : Path.fault? ⟨parts ++ [part]⟩ = none)
    (hfile : ∀ c, u.entry? (enter here part) ≠ some (.file c)) :
    (∃ q v, makeDirIn here part u = .ok q v ∧ v.resolve ⟨parts ++ [part]⟩ = .ok q) ∨
      ∃ f, makeDirIn here part u = .error f u ∧ f ≠ .missing ∧
        u.resolve ⟨parts ++ [part]⟩ = .error f := by
  have hlook := resolve_concat hr hdir hf
  unfold makeDirIn
  cases hpart : Path.partFault? part with
  | some f =>
    rw [hpart] at hlook
    exact .inr ⟨f, rfl, Path.partFault?_ne_missing hpart, hlook⟩
  | none =>
    rw [hpart] at hlook
    refine .inl ⟨enter here part, after (makeDirAt (enter here part) u), ?_, ?_⟩
    · -- only a file could refuse a name that the path allows
      unfold makeDirAt
      cases he : u.entry? (enter here part) with
      | none => rfl
      | some e =>
        cases e with
        | dir => rfl
        | file c => exact absurd he (hfile c)
    · have hgrown := (grown_makeDirAt (W := fun _ _ => True) (houses_of_resolve hu hlook) trivial).1
      exact hgrown.resolve_eq_ok hlook

/-! ## The front of a path on which something is missing -/

/-- A path on which something is missing is not refused as it is written. -/
theorem fault?_eq_none_of_missing (h : t.resolve p = .error .missing) : p.fault? = none := by
  cases hf : p.fault? with
  | none => rfl
  | some f =>
    rw [resolve_of_fault hf] at h
    cases h
    exact absurd rfl (Path.fault?_ne_missing hf)

/-- Nothing is missing where all the directories are there in which a path is looked up. -/
theorem resolve_ne_missing_of_ways (hways : ∀ x ∈ p.ways t.cwd, t.entry? x = some .dir)
    (h0 : p.parts ≠ []) (h1 : p.parts ≠ [""]) : t.resolve p ≠ .error .missing := by
  rcases resolve_cases hways h0 h1 with hr | ⟨f, hf, hr⟩
  · rw [hr]
    exact nofun
  · rw [hr]
    exact fun h => hf (Except.error.inj h)

/-- Nothing is missing on the way of a name in the root. -/
theorem resolve_root_ne_missing (t : FileTree) (part : String) :
    t.resolve ⟨["", part]⟩ ≠ .error .missing := by
  have hways : ∀ x ∈ Path.ways t.cwd ⟨["", part]⟩, t.entry? x = some .dir := by
    intro x hx
    have hroot : x = [] := by
      rcases List.mem_cons.1 hx with rfl | hx
      · rfl
      · exact List.mem_singleton.1 hx
    rw [hroot]
    exact entry?_root t
  exact resolve_ne_missing_of_ways hways (by simp) (by simp)

/-- Nothing is missing on a way that leads to what stands somewhere. -/
theorem resolve_ne_missing_of_stands (ht : t.WellFormed) (h1 : parts ++ [part] ≠ [""])
    (hq : t.entry? q = some e) (htrail : ∀ x ∈ Path.trail t.cwd ⟨parts⟩, x <+: q ∧ x ≠ q) :
    t.resolve ⟨parts ++ [part]⟩ ≠ .error .missing := by
  intro h
  have h0 : parts ++ [part] ≠ [] := List.append_ne_nil_of_right_ne_nil _ (List.cons_ne_nil _ _)
  have hdirs : ∀ x ∈ Path.ways t.cwd ⟨parts ++ [part]⟩, t.entry? x = some .dir := by
    intro x hx
    rw [Path.ways, start_of_missing h, ways_append_singleton] at hx
    obtain ⟨hpre, hne⟩ := htrail x hx
    exact ht.dir_of_prefix hq hpre hne
  exact resolve_ne_missing_of_ways hdirs h0 h1 h

/-- A single name is missing only if the current directory is. -/
theorem makeDirsBack_nil_of_missing (hpart : part ≠ "") (h : t.resolve ⟨[part]⟩ = .error .missing) :
    makeDirsBack [] t = .error .missing t := by
  have hcwd : t.entry? t.cwd ≠ some .dir := by
    intro hcwd
    have hways : ∀ x ∈ Path.ways t.cwd ⟨[part]⟩, t.entry? x = some .dir := by
      intro x hx
      rw [Path.ways, Path.start_single] at hx
      rwa [List.mem_singleton.1 hx]
    have hname : [part] ≠ [""] := fun he => hpart (List.cons.inj he).1
    exact resolve_ne_missing_of_ways hways (List.cons_ne_nil _ _) hname h
  unfold makeDirsBack
  split
  · rename_i hdir
    exact absurd hdir hcwd
  · rfl

/-- If only the last directory is missing, it is put where the path leads. -/
theorem makeDirsBack_of_last (hr : t.resolve ⟨back.reverse ++ [name]⟩ = .ok here)
    (h : t.follow here [part] = .error .missing) :
    makeDirsBack (name :: back) t = .ok here (t.put here .dir) := by
  have hnone : t.entry? here = none := by
    unfold follow at h
    split at h
    · split at h
      · cases h
      · rename_i f hpart
        exact absurd (Except.error.inj h) (Path.partFault?_ne_missing hpart)
    · cases h
    · assumption
  rw [makeDirsBack]
  simp only [List.reverse_cons, hr]
  unfold makeDirAt
  rw [hnone]

/-- Where something is missing on the way to a name no file stands under it, also if directories
were made on the way. -/
theorem no_file_of_missing (ht : t.WellFormed) (hdown : ".." ∉ back) (hname : name ≠ "..")
    (h1 : back.reverse ++ [name] ≠ [""]) (hr : t.resolve ⟨back.reverse ++ [name]⟩ = .error .missing)
    (hgrown : Grown (fun q e => e = .dir ∧ q ∈ Path.trail t.cwd ⟨back.reverse⟩) t v)
    (hdirs : ∀ x ∈ Path.trail t.cwd ⟨back.reverse⟩, v.entry? x = some .dir) :
    v.entry? (enter (Path.place t.cwd ⟨back.reverse⟩) name) ≠ some (.file c) := by
  intro hc
  -- the file was there before, so nothing was missing on the way to it
  have hold := hgrown.file_of_dirs (fun q e hw => hw.1) hc
  refine resolve_ne_missing_of_stands ht h1 hold (fun x htrail => ?_) hr
  constructor
  · have hup : ".." ∉ back.reverse := fun hm => hdown (List.mem_reverse.1 hm)
    have hpre : x <+: Path.place t.cwd ⟨back.reverse⟩ := prefix_goal_of_mem_trail hup htrail
    exact hpre.trans (prefix_enter hname _)
  · intro he
    rw [← he, hdirs x htrail] at hc
    cases hc

/-- Behind a front that was made the next name is made, or it is refused for good. -/
theorem makeDirIn_behind (ht : t.WellFormed) (hdown : ".." ∉ back) (hname : name ≠ "..")
    (h1 : back.reverse ++ [name] ≠ [""]) (hr : t.resolve ⟨back.reverse ++ [name]⟩ = .error .missing)
    (hmade : makeDirsBack back t = .ok here v) (hv : v.resolve ⟨back.reverse⟩ = .ok here) :
    (∃ q w, makeDirIn here name v = .ok q w ∧ w.resolve ⟨back.reverse ++ [name]⟩ = .ok q) ∨
      ∃ f, makeDirIn here name v = .error f v ∧ f ≠ .missing ∧
        v.resolve ⟨back.reverse ++ [name]⟩ = .error f := by
  obtain ⟨hgrown, hok⟩ := grown_makeDirsBack ht back
  rw [hmade] at hgrown
  obtain ⟨rfl, hdirs⟩ := hok _ _ hmade
  exact makeDirIn_cases (hgrown.wellFormed ht) hv (hdirs _ (Path.place_mem_trail _ _))
    (fault?_eq_none_of_missing hr) fun c => no_file_of_missing ht hdown hname h1 hr hgrown hdirs

/-- **The front of a path on which something is missing** is made, and then leads to a directory; or
it is refused for good, unless nothing was made. -/
theorem makeDirsBack_front (ht : t.WellFormed) (hdown : ".." ∉ back) (hblank : back = [] → part ≠ "")
    (h : t.resolve ⟨back.reverse ++ [part]⟩ = .error .missing) :
    (∃ here v, makeDirsBack back t = .ok here v ∧ v.resolve ⟨back.reverse⟩ = .ok here) ∨
      ∃ f v, makeDirsBack back t = .error f v ∧
        (v = t ∨ f ≠ .missing ∧ v.resolve ⟨back.reverse⟩ = .error f) := by
  induction back generalizing part with
  | nil => exact .inr ⟨.missing, t, makeDirsBack_nil_of_missing (hblank rfl) h, .inl rfl⟩
  | cons name back ih =>
    rw [List.reverse_cons] at h ⊢
    have hf := fault?_eq_none_of_missing h
    have h0 : back.reverse ++ [name] ≠ [] := List.append_ne_nil_of_right_ne_nil _ (List.cons_ne_nil _ _)
    have h1 : back.reverse ++ [name] ≠ [""] := by
      intro he
      rw [he] at h
      exact resolve_root_ne_missing t part h
    obtain ⟨hname, hback⟩ := not_or.1 (mt List.mem_cons.2 hdown)
    rw [resolve_append_eq h0 h1 hf] at h
    -- either the last name alone is missing, or one in front of it is
    cases hr : t.resolve ⟨back.reverse ++ [name]⟩ with
    | ok here =>
      rw [hr] at h
      have hmade := makeDirsBack_of_last hr h
      have hgrown := (grown_makeDirsBack ht (name :: back)).1
      rw [hmade] at hgrown
      exact .inl ⟨here, _, hmade, hgrown.resolve_eq_ok hr⟩
    | error f =>
      rw [hr] at h
      have hmissing : f = .missing := Except.error.inj h
      rw [hmissing] at hr
      have hblank' : back = [] → name ≠ "" := by
        rintro rfl rfl
        exact h1 rfl
      -- the front is made or refused by induction, and then the next name behind it
      rw [makeDirsBack_of_missing hr]
      simp only [bind, EStateM.bind]
      rcases ih hback hblank' hr with ⟨here, v, hmade, hv⟩ | ⟨f, v, hmade, hv⟩
      · rw [hmade]
        rcases makeDirIn_behind ht hback (Ne.symm hname) h1 hr hmade hv with
          ⟨q, w, hlast, hw⟩ | ⟨f, hlast, hf, hw⟩
        · exact .inl ⟨q, w, hlast, hw⟩
        · exact .inr ⟨f, v, hlast, .inr ⟨hf, hw⟩⟩
      · rw [hmade]
        refine .inr ⟨f, v, rfl, hv.imp id fun ⟨hne, hv⟩ => ⟨hne, ?_⟩⟩
        exact resolve_append_error hv hne (fault?_eq_none hf)

/-! ## Behind the front -/

variable {dir : List String} {f : FileFault}

/-- Where something is missing on the way **nothing stands at its end**, also if directories were
made on the way. -/
theorem nothing_behind_missing (ht : t.WellFormed) (hdown : ".." ∉ dir) (h1 : dir ++ [part] ≠ [""])
    (hr : t.resolve ⟨dir ++ [part]⟩ = .error .missing)
    (h : Grown (fun q e => e = .dir ∧ q ∈ Path.trail t.cwd ⟨dir⟩) t u) (n : String) :
    u.entry? (Path.place t.cwd ⟨dir⟩ ++ [n]) = none := by
  -- the trail of the directory ends before the names in it
  have hshort : ∀ x ∈ Path.trail t.cwd ⟨dir⟩,
      x <+: Path.place t.cwd ⟨dir⟩ ++ [n] ∧ x ≠ Path.place t.cwd ⟨dir⟩ ++ [n] := by
    intro x hx
    have hpre : x <+: Path.place t.cwd ⟨dir⟩ := prefix_goal_of_mem_trail hdown hx
    refine ⟨hpre.trans (List.prefix_append _ _), ?_⟩
    rintro rfl
    have hlen := hpre.length_le
    rw [List.length_append, List.length_singleton] at hlen
    omega
  have hold : t.entry? (Path.place t.cwd ⟨dir⟩ ++ [n]) = none := by
    cases he : t.entry? (Path.place t.cwd ⟨dir⟩ ++ [n]) with
    | none => rfl
    | some e => exact absurd hr (resolve_ne_missing_of_stands ht h1 he hshort)
  rw [← hold]
  exact h.entry?_eq fun e ⟨_, hq⟩ => (hshort _ hq).2 rfl

theorem resolve_append_missing (h : t.resolve ⟨dir ++ [name]⟩ = .error .missing)
    (h1 : dir ++ [name] ≠ [""]) (hf : Path.fault? ⟨dir ++ [name] ++ rest⟩ = none) :
    t.resolve ⟨dir ++ [name] ++ rest⟩ = .error .missing := by
  have h0 : dir ++ [name] ≠ [] := List.append_ne_nil_of_right_ne_nil _ (List.cons_ne_nil _ _)
  rw [resolve_append_eq h0 h1 hf, h]
  rfl

/-- Behind a name under which nothing stands something is missing, or the name is refused. -/
theorem resolve_behind_name (hr : u.resolve ⟨dir⟩ = .ok here) (hdir : u.entry? here = some .dir)
    (hnone : u.entry? (enter here name) = none) (h1 : dir ++ [name] ≠ [""])
    (hf : Path.fault? ⟨dir ++ [name] ++ (rest ++ [part])⟩ = none) :
    u.resolve ⟨dir ++ [name] ++ (rest ++ [part])⟩ = .error .missing ∨
      ∃ f, f ≠ .missing ∧ u.resolve ⟨dir ++ [name]⟩ = .error f := by
  have hlook := resolve_concat hr hdir (fault?_eq_none hf)
  cases hpart : Path.partFault? name with
  | some f =>
    rw [hpart] at hlook
    exact .inr ⟨f, Path.partFault?_ne_missing hpart, hlook⟩
  | none =>
    rw [hpart] at hlook
    have h0 : dir ++ [name] ≠ [] := List.append_ne_nil_of_right_ne_nil _ (List.cons_ne_nil _ _)
    refine .inl ?_
    rw [resolve_append_eq h0 h1 hf, hlook]
    -- the name is followed, and the part behind it is looked up where nothing stands
    obtain ⟨first, rest', hrest⟩ :=
      List.exists_cons_of_ne_nil (List.append_ne_nil_of_right_ne_nil rest (List.cons_ne_nil part []))
    simp only [hrest, Except.bind, follow, hnone]

/-- **What was made in front does not matter** to what is made behind it. -/
theorem makeDirsBack_of_made (hmade : makeDirsBack dir.reverse t = .ok here u)
    (hr : u.resolve ⟨dir⟩ = .ok here) (hdir : u.entry? here = some .dir)
    (hnone : u.entry? (enter here name) = none)
    (hmissing : t.resolve ⟨dir ++ [name]⟩ = .error .missing)
    (hf : Path.fault? ⟨dir ++ [name] ++ rest⟩ = none) :
    makeDirsBack (dir ++ [name] ++ rest).reverse u =
      makeDirsBack (dir ++ [name] ++ rest).reverse t := by
  have h1 : dir ++ [name] ≠ [""] := by
    intro he
    obtain ⟨-, -, hdir0, -⟩ := resolve_eq_ok_iff.1 hr
    exact hdir0 (List.append_inj' (show dir ++ [name] = [] ++ [""] from he) rfl).1
  induction rest using List.reverseRecOn with
  | nil =>
    rw [List.append_nil] at hf ⊢
    rw [List.reverse_concat, makeDirsBack_of_missing (t := t) (by rwa [List.reverse_reverse]),
      makeDirsBack_of_dir (by rwa [List.reverse_reverse]) hdir (by rwa [List.reverse_reverse])]
    simp only [bind, EStateM.bind, hmade]
  | append_singleton rest part ih =>
    have hlater := resolve_append_missing hmissing h1 hf
    have hbehind := resolve_behind_name hr hdir hnone h1 hf
    rw [← List.append_assoc] at hf hlater hbehind ⊢
    have hrest := ih (fault?_eq_none hf)
    rw [List.reverse_concat, makeDirsBack_of_missing (t := t) (by rwa [List.reverse_reverse])]
    rcases hbehind with hlater' | ⟨f, hne, hrefused⟩
    · rw [makeDirsBack_of_missing (t := u) (by rwa [List.reverse_reverse])]
      simp only [bind, EStateM.bind, hrest]
    · -- the name is refused, and so is all behind it
      have hfront := resolve_append_error hrefused hne (fault?_eq_none hf)
      have hwhole := resolve_append_error hfront hne hf
      rw [makeDirsBack_refused (by rwa [List.reverse_reverse]) hne] at hrest
      rw [← List.reverse_concat, makeDirsBack_refused (by rwa [List.reverse_reverse]) hne]
      simp only [bind, EStateM.bind, ← hrest]

theorem makeDirs_of_made (hmade : makeDirsBack dir.reverse t = .ok here u)
    (hr : u.resolve ⟨dir⟩ = .ok here) (hdir : u.entry? here = some .dir)
    (hnone : u.entry? (enter here name) = none)
    (hmissing : t.resolve ⟨dir ++ [name]⟩ = .error .missing)
    (hf : Path.fault? ⟨dir ++ [name] ++ rest⟩ = none) :
    makeDirs ⟨dir ++ [name] ++ rest⟩ u = makeDirs ⟨dir ++ [name] ++ rest⟩ t := by
  rw [makeDirs_eq, makeDirs_eq, makeDirsBack_of_made hmade hr hdir hnone hmissing hf]

/-- What is refused in front is refused behind it. -/
theorem makeDirs_of_refused (hrefused : makeDirsBack dir.reverse t = .error f v)
    (hmissing : t.resolve ⟨dir ++ [name]⟩ = .error .missing) (h1 : dir ++ [name] ≠ [""])
    (hf : Path.fault? ⟨dir ++ [name] ++ rest⟩ = none) :
    makeDirs ⟨dir ++ [name] ++ rest⟩ t = .error f v := by
  have hback : makeDirsBack (dir ++ [name] ++ rest).reverse t = .error f v := by
    induction rest using List.reverseRecOn with
    | nil =>
      rw [List.append_nil, List.reverse_concat, makeDirsBack_of_missing (by rwa [List.reverse_reverse])]
      simp only [bind, EStateM.bind, hrefused]
    | append_singleton rest part ih =>
      have hlater := resolve_append_missing hmissing h1 hf
      rw [← List.append_assoc] at hf hlater ⊢
      rw [List.reverse_concat, makeDirsBack_of_missing (by rwa [List.reverse_reverse])]
      simp only [bind, EStateM.bind, ih (fault?_eq_none hf)]
  rw [makeDirs_eq, hback]

end FileTree

end Stagecraft
