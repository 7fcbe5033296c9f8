import Stagecraft.Proofs.Rebuild
import Stagecraft.Proofs.Timing

/-!
# What a compilation touches

A compilation writes the triggers and the lengths of branches that it has numbered, each
branch as a whole or not at all, and leaves everything else in the scene alone. The branch
of the start is written last, so a compilation that fails leaves it alone too.

* `Scene.Edited`: a scene in which only free fields of storables were set; `edited_write`.
* `Compiler.heads_of_work`: what is written down has a number by then.
* `Story.script_eq_append`: the branch of the start is written down behind all others.
* `Compiler.footprint`: **what a compilation touches**, whether it succeeds or fails.
-/

namespace Stagecraft

open Stage
open Keyed (key)

/-! ## Edited scenes -/

namespace Fields

theorem setAll_append (fs : Fields) (es es' : List (String × Json)) :
    fs.setAll (es ++ es') = (fs.setAll es).setAll es' :=
  List.foldl_append

end Fields

namespace Scene

/-- **A scene in which fields were set**: those of storables that are free. There are the same
atoms and storables in the same order, and all that is not free is as before. -/
structure Edited (Free : String → String → String → Prop) (s s' : Scene) : Prop where
  fields : s'.fields = s.fields
  ids : s'.atoms.ids = s.atoms.ids
  atoms : ∀ i a, s.atom? i = some a → ∃ a', s'.atom? i = some a' ∧ a'.fields = a.fields ∧
    a'.storables.ids = a.storables.ids
  storables : ∀ i st t, s.storable? i st = some t → ∃ es : List (String × Json),
    (∀ e ∈ es, Free i st e.1) ∧ s'.storable? i st = some { t with fields := t.fields.setAll es }

namespace Edited

variable {Free : String → String → String → Prop} {s s' s'' : Scene}

theorem refl (s : Scene) : Edited Free s s where
  fields := rfl
  ids := rfl
  atoms := fun _ a ha => ⟨a, ha, rfl, rfl⟩
  storables := fun _ _ _ ht => ⟨[], by simp, ht⟩

theorem trans (h : Edited Free s s') (h' : Edited Free s' s'') : Edited Free s s'' where
  fields := h'.fields.trans h.fields
  ids := h'.ids.trans h.ids
  atoms := fun i a ha => by
    obtain ⟨a', ha', hf, hi⟩ := h.atoms i a ha
    obtain ⟨a'', ha'', hf', hi'⟩ := h'.atoms i a' ha'
    exact ⟨a'', ha'', hf'.trans hf, hi'.trans hi⟩
  storables := fun i st t ht => by
    obtain ⟨es, hes, ht'⟩ := h.storables i st t ht
    obtain ⟨es', hes', ht''⟩ := h'.storables i st _ ht'
    refine ⟨es ++ es', fun e he => ?_, ?_⟩
    · exact (List.mem_append.1 he).elim (hes e) (hes' e)
    · rw [ht'', Fields.setAll_append]

end Edited

variable {s : Scene} {a st k : String} {v : Json}

/-- Setting a field keeps the other atoms, and the fields and storables of its own. -/
theorem edited_setStorableField {Free : String → String → String → Prop} (hf : Free a st k) :
    Edited Free s (s.setStorableField a st k v) where
  fields := by
    rcases setStorableField_cases s a st k v with h | ⟨x, t, -, -, h⟩ <;> rw [h]
    rfl
  ids := by
    rcases setStorableField_cases s a st k v with h | ⟨x, t, hx, -, h⟩ <;> rw [h]
    have hid : x.id = a := Registry.key_of_get? hx
    exact Registry.ids_insert_of_get? (show s.atoms.get? x.id = some x from hid ▸ hx)
  atoms := fun i b hb => by
    rcases setStorableField_cases s a st k v with h | ⟨x, t, hx, ht, h⟩ <;> rw [h]
    · exact ⟨b, hb, rfl, rfl⟩
    have hid : x.id = a := Registry.key_of_get? hx
    rw [atom?_putAtom, show (x.putStorable (t.setField k v)).id = a from hid]
    split
    · -- the atom itself: the storable that is put is there already
      rename_i hi
      rw [hi, hx] at hb
      have hti : t.id = st := Registry.key_of_get? ht
      have hst : x.storables.get? t.id = some t := hti ▸ ht
      rw [← Option.some.inj hb]
      exact ⟨_, rfl, rfl, Registry.ids_insert_of_get? hst⟩
    · exact ⟨b, hb, rfl, rfl⟩
  storables := fun i j t ht => by
    rw [storable?_setStorableField]
    split
    · rename_i h
      obtain ⟨rfl, rfl⟩ := h
      refine ⟨[(k, v)], fun e he => ?_, ?_⟩
      · rw [List.mem_singleton.1 he]
        exact hf
      · rw [ht]
        rfl
    · exact ⟨[], by simp, ht⟩

/-- No other atom changes. -/
theorem atom?_setStorableField_of_ne {i : String} (h : i ≠ a) :
    (s.setStorableField a st k v).atom? i = s.atom? i := by
  rcases setStorableField_cases s a st k v with he | ⟨x, t, hx, -, he⟩ <;> rw [he]
  have hid : x.id = a := Registry.key_of_get? hx
  rw [atom?_putAtom, show (x.putStorable (t.setField k v)).id = a from hid, if_neg h]

end Scene

namespace Compiler

variable {c : Compiler} {s : Scene} {heads ns : List String} {name : String}

/-! ## Branches that are written down -/

/-- The fields of the branches `1` to `n`: their triggers and their lengths. -/
inductive BranchField (n : Nat) : String → String → String → Prop
  | triggers {i} : 1 ≤ i → i ≤ n → BranchField n (branchId i) patternId triggersKey
  | length {i} : 1 ≤ i → i ≤ n → BranchField n (durationId (branchId i)) stepId lengthKey

theorem edited_write {n : Nat} (hn : heads.idxOf name < n) :
    Scene.Edited (BranchField n) s (c.write heads s name) := by
  rw [write_eq]
  refine (Scene.edited_setStorableField ?_).trans (Scene.edited_setStorableField ?_)
  · exact .triggers (by omega) (by omega)
  · exact .length (by omega) (by omega)

theorem edited_foldl {n : Nat} (hns : ∀ m ∈ ns, heads.idxOf m < n) :
    Scene.Edited (BranchField n) s (ns.foldl (c.write heads) s) := by
  induction ns generalizing s with
  | nil => exact .refl s
  | cons m ns ih =>
    exact (edited_write (hns m List.mem_cons_self)).trans
      (ih fun k hk => hns k (List.mem_cons_of_mem _ hk))

/-- Another branch keeps its atoms. -/
theorem atom?_write_of_ne {i : String} (h : i ≠ branchOf heads name)
    (hd : i ≠ durationId (branchOf heads name)) :
    (c.write heads s name).atom? i = s.atom? i := by
  rw [write_eq, Scene.atom?_setStorableField_of_ne hd, Scene.atom?_setStorableField_of_ne h]

/-- A branch that is not among those that are written down keeps its atoms. -/
theorem atom?_foldl (hns : ∀ m ∈ ns, m ∈ heads) (hn : name ∉ ns) :
    (ns.foldl (c.write heads) s).atom? (branchOf heads name) = s.atom? (branchOf heads name) ∧
      (ns.foldl (c.write heads) s).atom? (durationId (branchOf heads name)) =
        s.atom? (durationId (branchOf heads name)) := by
  induction ns generalizing s with
  | nil => exact ⟨rfl, rfl⟩
  | cons m ns ih =>
    obtain ⟨hne, hrest⟩ := not_or.1 (mt List.mem_cons.2 hn)
    have hb : branchOf heads name ≠ branchOf heads m := fun he =>
      hne (branchOf_inj (hns m List.mem_cons_self) he.symm).symm
    have hd : durationId (branchOf heads name) ≠ durationId (branchOf heads m) := fun he =>
      hb (durationId_inj he)
    obtain ⟨h1, h2⟩ := ih (s := c.write heads s m) (fun k hk => hns k (List.mem_cons_of_mem _ hk)) hrest
    rw [List.foldl_cons, h1, h2]
    exact ⟨atom?_write_of_ne hb (durationId_ne_branchId _).symm,
      atom?_write_of_ne (durationId_ne_branchId _) hd⟩

/-! ## The numbers of a compilation -/

/-- **What is written down has its number** by then, so its branch is staged; and a number is
that of a head. -/
theorem heads_of_work (m : Memo) (s : Scene) (todo : List (Errand Step))
    (h : c.Pending heads m todo) (hs : ∀ n ∈ m.heads, Staged s (branchOf heads n)) :
    m.heads <+: (c.work m s todo).1.heads ∧ (c.work m s todo).1.heads <+: heads ∧
      ∀ n ∈ written heads s (walk c.story.branch (c.unnumbered m) todo),
        n ∈ (c.work m s todo).1.heads ∧ Staged s (branchOf heads n) := by
  fun_induction work c m s todo with
  | case1 m s =>
    rw [walk]
    exact ⟨List.prefix_rfl, h.heads_prefix, fun n hn => by cases hn⟩
  | case2 => exact h.ready.elim
  | case3 m s n todo ih =>
    obtain ⟨hn, -, hp⟩ := h.write (c.timelineOf n).total
    have ha := alike_write c m.heads s n
    obtain ⟨h1, h2, h3⟩ := ih hp fun k hk => (staged_congr ha).2 (hs k hk)
    -- the write changes no storable that a later step asks for
    rw [written_congr ha] at h3
    refine ⟨h1, h2, fun k hk => ?_⟩
    rw [walk, written] at hk
    rcases List.mem_cons.1 hk with rfl | hk
    · exact ⟨h1.subset hn, hs k hn⟩
    · exact ⟨(h3 k hk).1, (staged_congr ha).1 (h3 k hk).2⟩
  | case4 m s f todo =>
    -- a fault ends the work, so nothing behind it is written
    refine ⟨List.prefix_rfl, h.heads_prefix, fun n hn => ?_⟩
    rw [walk, written_cons_of_ne (by simp), if_neg (by simp [fault?])] at hn
    cases hn
  | case5 m s n todo hn ih =>
    obtain ⟨hwalk, hp⟩ := h.pass hn
    rw [hwalk]
    exact ih hp hs
  | case6 m s n todo hn he ih =>
    obtain ⟨hwalk, hsame, hp⟩ := h.enter hn
    rw [hsame, enter?_eq_ok_iff] at he
    obtain ⟨h1, h2, h3⟩ := ih hp fun k hk => by
      rcases List.mem_append.1 hk with hk | hk
      · exact hs k hk
      · rw [List.mem_singleton.1 hk]
        exact he
    refine ⟨(List.prefix_append _ _).trans h1, h2, fun k hk => ?_⟩
    rw [hwalk, written_cons_of_ne (by simp)] at hk
    split at hk
    · exact h3 k hk
    · cases hk
  | case7 m s n todo hn f he =>
    -- the branch has its number already, although it is not staged
    obtain ⟨hwalk, hsame, hp⟩ := h.enter hn
    refine ⟨List.prefix_append _ _, hp.heads_prefix, fun k hk => ?_⟩
    rw [hsame] at he
    rw [hwalk, written_cons_of_ne (by simp), if_neg (by simp [fault?, he])] at hk
    cases hk

/-- A compilation has given out the numbers of its work, and fails where its work does. -/
theorem build_of_work (c : Compiler) (m : Memo) (s : Scene) :
    (c.build m s).memo.heads = (c.work .empty s [.go c.story.start.name]).1.heads ∧
      ∀ f, (c.work .empty s [.go c.story.start.name]).2.2 = .error f →
        (c.build m s).result = .error f := by
  unfold build
  rw [show m.reset = .empty from rfl]
  rcases c.work .empty s [.go c.story.start.name] with ⟨m', s', done⟩
  cases done with
  | ok _ => exact ⟨rfl, fun f hf => by cases hf⟩
  | error g => exact ⟨rfl, fun f hf => by cases hf; rfl⟩

/-- The numbers that a compilation has given out are those of the first heads, and all that it
wrote down is among them. -/
theorem heads_of_build (c : Compiler) (m : Memo) (s : Scene) :
    (c.build m s).memo.heads <+: c.story.heads ∧ ∀ n ∈ c.writes s,
      n ∈ (c.build m s).memo.heads ∧ Staged s (branchOf c.story.heads n) := by
  obtain ⟨hall, hpending⟩ := c.pending_start
  obtain ⟨-, h2, h3⟩ := heads_of_work .empty s [.go c.story.start.name] hpending
    fun n hn => by cases hn
  rw [hall] at h3
  rw [(build_of_work c m s).1]
  exact ⟨h2, h3⟩

end Compiler

/-! ## The branch of the start -/

namespace Story

variable {s : Story}

theorem start_mem_names : s.start.name ∈ s.names := mem_names_of_opening? opening?_start

/-- The start heads the first branch. -/
theorem branchOf_start : Compiler.branchOf s.heads s.start.name = branchId 1 := by
  rw [heads_eq_visited, visited, if_pos start_mem_names]
  simp [Compiler.branchOf]

/-- **The branch of the start is written down last**, if at all. -/
theorem script_eq_append : ∃ steps, .write s.start.name ∉ steps ∧
    (s.script = steps ++ [.write s.start.name] ∨ s.script = steps) := by
  have hscript : s.script = .enter s.start.name ::
      walk s.branch (s.names.erase s.start.name) (s.body s.start.name) := by
    rw [script, walk, if_pos start_mem_names, branch_eq_cons opening?_start, List.append_nil, walk]
  rw [hscript, body_of_opening? opening?_start]
  cases (s.timeline s.start).ending with
  | stop => exact ⟨[.enter s.start.name], by simp, .inl (by simp [walk])⟩
  | broken f => exact ⟨[.enter s.start.name, .fails f], by simp, .inr (by simp [walk])⟩
  | choice r =>
    refine ⟨.enter s.start.name :: walk s.branch (s.names.erase s.start.name) (s.routes r), ?_,
      .inl (by simp only [walk_append_note, List.cons_append])⟩
    intro hmem
    rcases List.mem_cons.1 hmem with he | hmem
    · cases he
    -- no other branch writes that of the start, and that one is not gone to again
    rcases mem_walk_iff.1 hmem with hroute | ⟨n, hn, hw⟩
    · simp [mem_routes_iff] at hroute
    · have hfresh := visited_subset hn
      obtain ⟨p, hp⟩ := opening?_of_mem_names (List.mem_of_mem_erase hfresh)
      rw [← write_mem_branch hp hw] at hfresh
      exact s.nodup_names.not_mem_erase hfresh

/-- A branch that is written down has an unbroken timeline. -/
theorem ending_ne_of_write {n : String} {p : Passage} (h : .write n ∈ s.script)
    (hp : s.opening? n = some p) (f : Fault) : (s.timeline p).ending ≠ .broken f := by
  intro ht
  obtain ⟨m, hm, ho⟩ := mem_script_iff.1 h
  obtain ⟨-, q, hq, -⟩ := played_of_mem_heads hm
  obtain rfl := write_mem_branch hq ho
  rw [branch_of_opening? hp, ht] at ho
  simp at ho

end Story

namespace Compiler

variable {c : Compiler} {s : Scene} {name : String} {f : Fault}

/-- A compilation that fails has not written the branch of the start. -/
theorem start_not_mem_writes (h : (c.run s).2 = .error f) : c.story.start.name ∉ c.writes s := by
  intro hw
  obtain ⟨steps, hno, hscript⟩ := c.story.script_eq_append
  have hnone : ∀ o ∈ c.story.script, fault? c.story.heads s o = none := by
    unfold writes at hw
    rcases hscript with he | he
    · rw [he] at hw ⊢
      intro o ho
      rcases List.mem_append.1 ho with ho | ho
      · exact fault?_eq_none_of_written hno hw o ho
      · rw [List.mem_singleton.1 ho]
        rfl
    · rw [he] at hw
      exact absurd (write_mem_of_mem_written hw) hno
  rw [run_snd, List.findSome?_eq_none_iff.2 hnone] at h
  cases h

/-! ## Whole branches -/

/-- A branch is as it was. -/
structure Untouched (s s' : Scene) (branch : String) : Prop where
  triggers : s'.storable? branch patternId = s.storable? branch patternId
  length : s'.storable? (durationId branch) stepId = s.storable? (durationId branch) stepId

/-- **A branch that was written down**: it has the triggers of its timeline, made from those
that were there, and its length is the end of the last one. -/
structure WrittenDown (c : Compiler) (s s' : Scene) (name branch : String) : Prop where
  triggers : triggers? s' branch = some (.arr (c.renewed c.story.heads name (listed s branch)))
  length : ∃ text, length? s' branch = some (.str text) ∧
    (c.renewed c.story.heads name (listed s branch)).getLast?.bind (·.field? "endTime") =
      some (.str text)

theorem untouched_of_run (hw : name ∉ c.writes s) :
    Untouched s (c.run s).1 (branchOf c.story.heads name) := by
  obtain ⟨hb, hd⟩ := atom?_foldl (c := c) (s := s) (fun _ => mem_heads_of_writes) hw
  rw [← run_fst] at hb hd
  constructor
  · rw [Scene.storable?, hb, Scene.storable?]
  · rw [Scene.storable?, hd, Scene.storable?]

theorem writtenDown_of_run (hw : name ∈ c.writes s)
    (hs : Staged s (branchOf c.story.heads name)) :
    WrittenDown c s (c.run s).1 name (branchOf c.story.heads name) where
  triggers := by
    rw [run_fst]
    exact triggers?_foldl (fun _ => mem_heads_of_writes) hw hs.1
  length := by
    obtain ⟨-, p, hp, -⟩ := Story.played_of_mem_heads (mem_heads_of_writes hw)
    have hend := Story.ending_ne_of_write (write_mem_of_mem_written hw) hp
    have htime := (Story.unrolls_timeline p).inTime hend c c.story.heads
      (listed s (branchOf c.story.heads name)) true
    refine ⟨Decimal.format (c.timelineOf name).total, ?_, ?_⟩
    · rw [run_fst]
      exact length?_foldl (fun _ => mem_heads_of_writes) hw hs.2
    · rw [renewed, timelineOf_of_opening? hp, List.getLast?_map, Option.bind_map]
      exact htime.endTime

/-- The number of a head is its place among those that are numbered. -/
theorem branchOf_of_heads_prefix (h : heads <+: c.story.heads) {i : Nat}
    (hi : heads[i]? = some name) : branchId (i + 1) = branchOf c.story.heads name := by
  obtain ⟨hlt, hget⟩ := List.getElem?_eq_some_iff.1 hi
  have hlt' : i < c.story.heads.length := Nat.lt_of_lt_of_le hlt h.length_le
  rw [← hget, h.getElem hlt, branchOf_getElem Story.nodup_heads hlt']

/-- What is written down has one of the numbers that were given out. -/
theorem idxOf_lt_of_writes (m : Memo) {n : String} (hn : n ∈ c.writes s) :
    c.story.heads.idxOf n < (c.build m s).memo.heads.length := by
  obtain ⟨⟨rest, hrest⟩, hwrites⟩ := heads_of_build c m s
  have hmem := (hwrites n hn).1
  rw [← hrest, List.idxOf_append_of_mem hmem]
  exact List.idxOf_lt_length_of_mem hmem

/-- **What a compilation touches**, whether it succeeds or fails: fields of the branches that it
has numbered, each branch as a whole or not at all. If it fails, the first branch is as it was,
and if it succeeds, all are written. -/
theorem footprint (c : Compiler) (m : Memo) (s : Scene) :
    Scene.Edited (BranchField (c.build m s).memo.heads.length) s (c.build m s).scene ∧
      (∀ i name, (c.build m s).memo.heads[i]? = some name →
        Untouched s (c.build m s).scene (branchId (i + 1)) ∨
          WrittenDown c s (c.build m s).scene name (branchId (i + 1))) ∧
      (∀ f, (c.build m s).result = .error f →
        (c.build m s).scene.atom? (branchId 1) = s.atom? (branchId 1) ∧
          (c.build m s).scene.atom? (durationId (branchId 1)) =
            s.atom? (durationId (branchId 1))) ∧
      ∀ out, (c.build m s).result = .ok out → ∀ i name,
        (c.build m s).memo.heads[i]? = some name →
          WrittenDown c s (c.build m s).scene name (branchId (i + 1)) := by
  obtain ⟨hfront, hwrites⟩ := heads_of_build c m s
  rw [(build_eq c m s).1, (build_eq c m s).2]
  have hnumber : ∀ i name, (c.build m s).memo.heads[i]? = some name →
      branchId (i + 1) = branchOf c.story.heads name :=
    fun i name hi => branchOf_of_heads_prefix hfront hi
  refine ⟨?_, fun i name hi => ?_, fun f hf => ?_, fun out hout i name hi => ?_⟩
  · rw [run_fst]
    exact edited_foldl fun n hn => idxOf_lt_of_writes m hn
  · rw [hnumber i name hi]
    -- a branch is written as a whole, by the one errand that writes it
    by_cases hw : name ∈ c.writes s
    · exact .inr (writtenDown_of_run hw (hwrites name hw).2)
    · exact .inl (untouched_of_run hw)
  · rw [← Story.branchOf_start (s := c.story), run_fst]
    exact atom?_foldl (fun _ => mem_heads_of_writes) (start_not_mem_writes hf)
  · rw [hnumber i name hi]
    have hn : name ∈ c.story.heads := hfront.subset (List.mem_of_getElem? hi)
    have hw := ((run_of_ok hout).2 name).2 hn
    exact writtenDown_of_run hw (hwrites name hw).2

/-- A prompt with a choice that leads nowhere, behind one that does not. -/
def torn : Compiler where
  story :=
    { start := ⟨"a", "", ["Ann", "says", "prompt"], [⟨"b", "b"⟩, ⟨"ghost", "ghost"⟩]⟩
      others := [⟨"b", "", ["delay"], []⟩] }
  template := []
  slots := 2

/-- The branch of the first choice stays written, and that of the prompt is as it was. -/
theorem footprint_torn : ∃ f, (torn.build .empty (bare 2)).result = .error f ∧
    (torn.build .empty (bare 2)).scene.atom? "Dialog-Branch#1" = (bare 2).atom? "Dialog-Branch#1" ∧
    (Untouched (bare 2) (torn.build .empty (bare 2)).scene "Dialog-Branch#2" ∨
      WrittenDown torn (bare 2) (torn.build .empty (bare 2)).scene "b" "Dialog-Branch#2") := by
  have ha : torn.story.body "a" =
      [.go "b", .note (.fails (.unknownTarget "a" "ghost")), .note (.write "a")] := by
    rw [Story.body_of_opening? rfl, Story.timeline,
      Story.timelineFrom_of_prompt _ rfl rfl (by decide)]
    rfl
  have hb : torn.story.body "b" = [.note (.write "b")] := by
    rw [Story.body_of_opening? rfl, Story.timeline, Story.timelineFrom_of_exits_nil _ rfl rfl]
  have h1 : enter? (bare 2) (branchOf ["a"] "a") = .ok () := rfl
  have h2 : enter? (bare 2) (branchOf ["a", "b"] "b") = .ok () := rfl
  -- the choice is written down before the fault of the prompt
  have hwork : (torn.work .empty (bare 2) [.go "a"]).1.heads = ["a", "b"] ∧
      (torn.work .empty (bare 2) [.go "a"]).2.2 = .error (.unknownTarget "a" "ghost") := by
    simp [work, Memo.empty, Memo.enter, Memo.record, ha, hb, h1, h2]
  obtain ⟨hheads, hresult⟩ := build_of_work torn .empty (bare 2)
  obtain ⟨-, hwhole, hfail, -⟩ := footprint torn .empty (bare 2)
  have hnumber : (torn.build .empty (bare 2)).memo.heads[1]? = some "b" := by
    rw [hheads, show torn.story.start.name = "a" from rfl, hwork.1]
    rfl
  have herror := hresult _ hwork.2
  exact ⟨_, herror, (hfail _ herror).1, hwhole 1 "b" hnumber⟩

end Compiler

end Stagecraft
