import Mathlib.Data.List.Basic
import Stagecraft.Proofs.Performance
import Stagecraft.Proofs.Renewal

/-!
# A compiler at work

A compiler goes through a story depth first and numbers the branches as it comes to
them. It remembers the numbers, so that it enters no branch twice, and the lengths of
what it wrote; the next compilation starts with an empty memory.

* `Compiler.Memo`: what a compiler remembers.
* `Compiler.work`: errands up to the first fault, with the numbers given out by then.
* `Compiler.build`: a compilation, whatever is remembered of the one before.
-/

namespace Stagecraft

/-- What happens around a branch behind its entry. -/
def Story.body (s : Story) (name : String) : List (Errand Step) := (s.branch name).tail

namespace Compiler

/-- What a compiler remembers of its latest compilation. -/
structure Memo where
  /-- The passages that head branches, in the order of their numbers. -/
  heads : List String
  /-- The lengths of the branches that were written down. -/
  durations : List (String × Float)

namespace Memo

/-- Nothing is remembered. -/
def empty : Memo := ⟨[], []⟩

/-- A compilation starts over: what was remembered of the one before is forgotten. -/
def reset (m : Memo) : Memo := { m with heads := [], durations := [] }

/-- The branch that a passage heads gets the next number. -/
def enter (m : Memo) (name : String) : Memo := { m with heads := m.heads ++ [name] }

/-- The length of the branch that a passage heads is noted. -/
def record (m : Memo) (name : String) (length : Float) : Memo :=
  { m with durations := m.durations ++ [(branchOf m.heads name, length)] }

/-- The branches that are remembered, with their lengths. -/
def compiled (m : Memo) : Compiled where
  branches := m.heads.map fun n => (n, branchOf m.heads n)
  durations := m.heads.filterMap fun n =>
    (m.durations.lookup (branchOf m.heads n)).map (branchOf m.heads n, ·)

end Memo

/-- Where a compilation ends: the memory, the scene and the result. -/
structure Build where
  memo : Memo
  scene : Scene
  result : Except Fault Compiled

/-- The names without a number. -/
def unnumbered (c : Compiler) (m : Memo) : List String := c.story.names.filter fun n => n ∉ m.heads

/-- The length of the work that is left, at most. -/
def workBound (c : Compiler) (m : Memo) (todo : List (Errand Step)) : Nat :=
  walkBound c.story.body (c.unnumbered m) + todo.length

theorem workBound_cons (c : Compiler) (m : Memo) (e : Errand Step) (todo : List (Errand Step)) :
    c.workBound m (e :: todo) = c.workBound m todo + 1 := rfl

theorem workBound_record (c : Compiler) (m : Memo) (n : String) (x : Float)
    (todo : List (Errand Step)) : c.workBound (m.record n x) todo = c.workBound m todo := rfl

theorem unnumbered_enter (c : Compiler) (m : Memo) (n : String) :
    c.unnumbered (m.enter n) = (c.unnumbered m).erase n :=
  filter_not_mem_concat c.story.nodup_names m.heads n

theorem mem_unnumbered_iff {c : Compiler} {m : Memo} {n : String} :
    n ∈ c.unnumbered m ↔ n ∈ c.story.names ∧ n ∉ m.heads := by
  simp [unnumbered]

theorem workBound_enter (c : Compiler) {m : Memo} {n : String} (todo : List (Errand Step))
    (h : n ∉ m.heads) :
    c.workBound (m.enter n) (c.story.body n ++ todo) < c.workBound m (.go n :: todo) := by
  unfold workBound
  rw [unnumbered_enter, List.length_append, List.length_cons]
  by_cases hn : n ∈ c.story.names
  · have hb := walkBound_erase c.story.body (mem_unnumbered_iff.2 ⟨hn, h⟩)
    omega
  · -- nothing is opened under another name
    have hbody : c.story.body n = [] := by
      unfold Story.body Story.branch
      cases ho : c.story.opening? n with
      | none => rfl
      | some p => exact absurd (Story.mem_names_of_opening? ho) hn
    rw [List.erase_of_not_mem fun hm => hn (mem_unnumbered_iff.1 hm).1, hbody, List.length_nil]
    omega

/-- Performs errands up to the first fault. A branch that has a number is not entered again. -/
def work (c : Compiler) (m : Memo) (s : Scene) :
    List (Errand Step) → Memo × Scene × Except Fault Unit
  | [] => (m, s, .ok ())
  | .note (.enter _) :: todo => work c m s todo
  | .note (.write n) :: todo =>
    work c (m.record n (c.timelineOf n).total) (c.write m.heads s n) todo
  | .note (.fails f) :: _ => (m, s, .error f)
  | .go n :: todo =>
    if n ∈ m.heads then work c m s todo
    else
      match enter? s (branchOf (m.enter n).heads n) with
      | .ok () => work c (m.enter n) s (c.story.body n ++ todo)
      | .error f => (m.enter n, s, .error f)
termination_by todo => c.workBound m todo
decreasing_by
  · rw [workBound_cons]; omega
  · rw [workBound_cons, workBound_record]; omega
  · rw [workBound_cons]; omega
  · -- a name that is entered has its number then, and that outweighs the errands of its body
    exact workBound_enter c todo (by assumption)

/-- Compiles the story into a scene. What was not finished stays in the memory. -/
def build (c : Compiler) (m : Memo) (s : Scene) : Build :=
  match c.work m.reset s [.go c.story.start.name] with
  | (m, s, .ok ()) => ⟨{ m with durations := [] }, s, .ok m.compiled⟩
  | (m, s, .error f) => ⟨m, s, .error f⟩

end Compiler

/-! ## What a write needs to know -/

namespace Story

variable {s : Story} {n m : String} {p : Passage} {done done' : List String}

/-- The names that the prompt leads to at which the branch of a passage ends. -/
def targets (s : Story) (name : String) : List String :=
  match (s.opening? name).map fun p => (s.timeline p).ending with
  | some (.choice r) => r.exits.map (·.target)
  | _ => []

theorem targets_of_choice {r : Passage} (h : s.opening? n = some p)
    (ht : (s.timeline p).ending = .choice r) : s.targets n = r.exits.map (·.target) := by
  simp [targets, h, ht]

/-- A branch is only written down when it and those that its prompt leads to have numbers,
where `done` have theirs. -/
def Ready (s : Story) : List String → List (Errand Step) → Prop
  | _, [] => True
  | done, .go n :: todo => Ready s (n :: done) todo
  | done, .note (.write n) :: todo => (n ∈ done ∧ ∀ m ∈ s.targets n, m ∈ done) ∧ Ready s done todo
  | _, .note (.enter _) :: _ => False
  | _, .note (.fails _) :: _ => True

theorem Ready.mono {todo : List (Errand Step)} (h : s.Ready done todo) (hd : ∀ n ∈ done, n ∈ done') :
    s.Ready done' todo := by
  fun_induction Ready s done todo generalizing done' with
  | case1 => trivial
  | case2 done n todo ih =>
    refine ih h fun k hk => ?_
    rcases List.mem_cons.1 hk with rfl | hk
    · exact List.mem_cons_self
    · exact List.mem_cons_of_mem _ (hd k hk)
  | case3 done n todo ih => exact ⟨⟨hd _ h.1.1, fun k hk => hd _ (h.1.2 k hk)⟩, ih h.2 hd⟩
  | case4 => exact h
  | case5 => trivial

theorem Ready.append {todo rest : List (Errand Step)} (h : s.Ready done todo)
    (hr : s.Ready done rest) : s.Ready done (todo ++ rest) := by
  fun_induction Ready s done todo with
  | case1 => exact hr
  | case2 done n todo ih => exact ih h (hr.mono fun _ => List.mem_cons_of_mem _)
  | case3 done n todo ih => exact ⟨h.1, ih h.2 hr⟩
  | case4 => exact h.elim
  | case5 => trivial

theorem branch_eq_cons (h : s.opening? n = some p) : s.branch n = .note (.enter n) :: s.body n := by
  obtain ⟨rest, hb, -⟩ := branch_announces h
  rw [body, hb, List.tail_cons]

theorem body_of_opening? (h : s.opening? n = some p) :
    s.body n = match (s.timeline p).ending with
      | .stop => [.note (.write n)]
      | .choice r => s.routes r ++ [.note (.write n)]
      | .broken f => [.note (.fails f)] :=
  congrArg List.tail (branch_of_opening? h)

/-- The routes of a prompt lead to all of its targets before its branch is written down. -/
theorem ready_routes {r : Passage} {ls : List Link} (hn : n ∈ done)
    (ht : ∀ m ∈ s.targets n, m ∈ done ∨ m ∈ ls.map (·.target)) :
    s.Ready done ((ls.map fun l => match s.follow? r l with
      | .ok q => .go q.name
      | .error f => .note (.fails f)) ++ [.note (.write n)]) := by
  induction ls generalizing done with
  | nil => exact ⟨⟨hn, fun m hm => (ht m hm).elim id fun h => nomatch h⟩, trivial⟩
  | cons l ls ih =>
    -- behind a route that is a fault nothing is asked for
    cases hq : s.follow? r l with
    | error f => simp [hq, Ready]
    | ok q =>
      simp only [List.map_cons, List.cons_append, hq, Ready]
      refine ih (List.mem_cons_of_mem _ hn) fun m hm => ?_
      rw [follow?_name hq]
      rcases ht m hm with h | h
      · exact .inl (List.mem_cons_of_mem _ h)
      · rcases List.mem_cons.1 h with rfl | h
        · exact .inl List.mem_cons_self
        · exact .inr h

/-- **Behind its entry** a branch is ready. -/
theorem ready_body (h : s.opening? n = some p) (hn : n ∈ done) : s.Ready done (s.body n) := by
  rw [body_of_opening? h]
  cases ht : (s.timeline p).ending with
  | stop =>
    have hnone : s.targets n = [] := by simp [targets, h, ht]
    exact ⟨⟨hn, by simp [hnone]⟩, trivial⟩
  | broken f => trivial
  | choice r =>
    refine ready_routes hn fun m hm => .inr ?_
    rwa [targets_of_choice h ht] at hm

theorem mem_names_of_go (h : s.opening? n = some p) (hg : .go m ∈ s.body n) : m ∈ s.names := by
  have hb : .go m ∈ s.branch n := by
    rw [branch_eq_cons h]
    exact List.mem_cons_of_mem _ hg
  obtain ⟨r, q, -, ho, rfl⟩ := (go_mem_branch_iff h).1 hb
  obtain ⟨q', hq⟩ := ho.leads.opening?
  exact mem_names_of_opening? hq

/-- A prompt with links is the end of its timeline. -/
theorem Unrolls.ending_of_prompt {fresh : List String} {start : Float} {t : Timeline} {b : Beat}
    (h : s.Unrolls fresh p start t) (hb : b ∈ t.beats) (hp : b.directive.prompt = true)
    (hl : b.exits ≠ []) : t.ending = .choice b.passage := by
  induction h with
  | malformed => cases hb
  | stop hd hnil =>
    rw [List.mem_singleton.1 hb] at hl
    exact absurd hnil hl
  | choice => rw [List.mem_singleton.1 hb]; rfl
  | unresolved hd hpr =>
    -- a beat from which the timeline goes on by itself is no prompt
    rw [List.mem_singleton.1 hb] at hp
    exact absurd (hpr.symm.trans hp) (by decide)
  | cycle hd hc =>
    rw [List.mem_singleton.1 hb] at hp
    exact absurd ((hc.1.symm.trans (Passage.isPrompt_of_ok hd)).trans hp) (by decide)
  | onward hd hc _ _ ih =>
    rcases List.mem_cons.1 hb with rfl | hb
    · exact absurd ((hc.1.symm.trans (Passage.isPrompt_of_ok hd)).trans hp) (by decide)
    · exact ih hb

end Story

/-! ## Numbers that are given out on the way -/

namespace Beat

variable {b : Beat} {slots : Nat} {f g : String → String}

theorem buttons_congr {k : Nat} {ls : List Link} (h : ∀ l ∈ ls, f l.target = g l.target) :
    buttons f k ls = buttons g k ls := by
  induction ls generalizing k with
  | nil => rfl
  | cons l ls ih =>
    rw [buttons, buttons, h l List.mem_cons_self, ih fun l' hl => h l' (List.mem_cons_of_mem _ hl)]

/-- Only a prompt names branches, those that its links lead to. -/
theorem trigger_congr {first : Bool} {old : Trigger}
    (h : b.directive.prompt = true → ∀ l ∈ b.exits, f l.target = g l.target) :
    b.trigger slots f first old = b.trigger slots g first old := by
  have ht : b.onward slots f = b.onward slots g := by
    unfold onward
    split
    · rfl
    · split
      · rename_i hp
        rw [buttons_congr (h hp)]
      · rfl
  simp only [trigger, tail, ht]

end Beat

namespace Compiler

open Story

variable {c : Compiler} {s : Scene} {m : Memo} {n : String}

theorem branchOf_append {heads rest : List String} (h : n ∈ heads) :
    branchOf (heads ++ rest) n = branchOf heads n := by
  unfold branchOf
  rw [List.idxOf_append, if_pos h]

/-- A branch that is written down only depends on the numbers of its targets and its own. -/
theorem write_congr {heads heads' : List String} (hn : branchOf heads n = branchOf heads' n)
    (ht : ∀ k ∈ c.story.targets n, branchOf heads k = branchOf heads' k) :
    c.write heads s n = c.write heads' s n := by
  have htriggers : ∀ vs, c.triggers heads vs true (c.timelineOf n).beats =
      c.triggers heads' vs true (c.timelineOf n).beats := by
    intro vs
    apply List.ext_getElem?
    intro i
    rw [getElem?_triggers, getElem?_triggers]
    cases hb : (c.timelineOf n).beats[i]? with
    | none => rw [Option.map_none, Option.map_none]
    | some b =>
      rw [Option.map_some, Option.map_some]
      refine congrArg some (Beat.trigger_congr fun hp l hl => ?_)
      -- a prompt ends its timeline, so its links are the targets of the branch
      cases ho : c.story.opening? n with
      | none =>
        simp [timelineOf, ho] at hb
      | some o =>
        rw [timelineOf_of_opening? ho] at hb
        have hend := (unrolls_timeline o).ending_of_prompt (List.mem_of_getElem? hb) hp
          (List.ne_nil_of_mem hl)
        apply ht
        rw [targets_of_choice ho hend]
        exact List.mem_map_of_mem hl
  rw [write_eq, write_eq, hn, renewed, renewed, htriggers]

/-- The names that steps enter. -/
def entered (steps : List Step) : List String := steps.filterMap fun
  | .enter name => some name
  | _ => none

/-- The names that steps write down. -/
def wrote (steps : List Step) : List String := steps.filterMap fun
  | .write name => some name
  | _ => none

/-- Work on a name without a number is the walk that enters its branch. -/
theorem walk_unnumbered {p : Passage} (hp : c.story.opening? n = some p) (hn : n ∉ m.heads)
    (todo : List (Errand Step)) :
    walk c.story.branch (c.unnumbered m) (.go n :: todo) =
      .enter n :: walk c.story.branch (c.unnumbered (m.enter n)) (c.story.body n ++ todo) := by
  have hfresh : n ∈ c.unnumbered m := mem_unnumbered_iff.2 ⟨mem_names_of_opening? hp, hn⟩
  rw [walk, if_pos hfresh, branch_eq_cons hp, List.cons_append, walk, unnumbered_enter]

/-- The number that a name gets is that of the head. -/
theorem heads_enter {heads : List String} {p : Passage} {todo : List (Errand Step)}
    (hp : c.story.opening? n = some p) (hn : n ∉ m.heads)
    (hh : heads = m.heads ++ entered (walk c.story.branch (c.unnumbered m) (.go n :: todo))) :
    heads = (m.enter n).heads ++ entered
        (walk c.story.branch (c.unnumbered (m.enter n)) (c.story.body n ++ todo)) ∧
      branchOf (m.enter n).heads n = branchOf heads n := by
  have hheads : heads = (m.enter n).heads ++ entered
      (walk c.story.branch (c.unnumbered (m.enter n)) (c.story.body n ++ todo)) := by
    rw [hh, walk_unnumbered hp hn, Memo.enter, List.append_assoc]
    rfl
  refine ⟨hheads, ?_⟩
  rw [hheads, branchOf_append]
  exact List.mem_append_right _ (List.mem_singleton_self n)

/-- **What a compiler at work knows**: the errands that are left lead to names of the story and
are ready, and the heads are those that have a number and those that will get one. -/
structure Pending (c : Compiler) (heads : List String) (m : Memo) (todo : List (Errand Step)) :
    Prop where
  known : ∀ n, .go n ∈ todo → n ∈ c.story.names
  ready : c.story.Ready m.heads todo
  heads_eq : heads = m.heads ++ entered (walk c.story.branch (c.unnumbered m) todo)

namespace Pending

variable {heads : List String} {todo : List (Errand Step)}

theorem heads_prefix (h : c.Pending heads m todo) : m.heads <+: heads := by
  rw [h.heads_eq]
  exact List.prefix_append _ _

/-- A branch that is written down has its number, and so have its targets. -/
theorem write (h : c.Pending heads m (.note (.write n) :: todo)) (x : Float) :
    n ∈ m.heads ∧ (∀ k ∈ c.story.targets n, k ∈ m.heads) ∧ c.Pending heads (m.record n x) todo := by
  obtain ⟨hg, ⟨⟨hn, ht⟩, hr⟩, hh⟩ := h
  rw [walk] at hh
  exact ⟨hn, ht, fun k hk => hg k (List.mem_cons_of_mem _ hk), hr, hh⟩

/-- A name that has a number is passed over, by the walk too. -/
theorem pass (h : c.Pending heads m (.go n :: todo)) (hn : n ∈ m.heads) :
    walk c.story.branch (c.unnumbered m) (.go n :: todo) =
      walk c.story.branch (c.unnumbered m) todo ∧ c.Pending heads m todo := by
  obtain ⟨hg, hr, hh⟩ := h
  have hold : n ∉ c.unnumbered m := fun h => (mem_unnumbered_iff.1 h).2 hn
  have hr : c.story.Ready (n :: m.heads) todo := hr
  have hpass : walk c.story.branch (c.unnumbered m) (.go n :: todo) =
      walk c.story.branch (c.unnumbered m) todo := by
    rw [walk, if_neg hold]
  refine ⟨hpass, fun k hk => hg k (List.mem_cons_of_mem _ hk), hr.mono fun k hk => ?_, ?_⟩
  · rcases List.mem_cons.1 hk with rfl | hk
    · exact hn
    · exact hk
  · rw [← hpass]
    exact hh

/-- A name without a number gets the next one, which is that of the head. -/
theorem enter (h : c.Pending heads m (.go n :: todo)) (hn : n ∉ m.heads) :
    walk c.story.branch (c.unnumbered m) (.go n :: todo) =
        .enter n :: walk c.story.branch (c.unnumbered (m.enter n)) (c.story.body n ++ todo) ∧
      branchOf (m.enter n).heads n = branchOf heads n ∧
      c.Pending heads (m.enter n) (c.story.body n ++ todo) := by
  obtain ⟨hg, hr, hh⟩ := h
  obtain ⟨p, hp⟩ := opening?_of_mem_names (hg n List.mem_cons_self)
  obtain ⟨hheads, hsame⟩ := heads_enter hp hn hh
  -- what the rest is ready for was entered or is entered by now
  have hmem : n ∈ (m.enter n).heads := List.mem_append_right _ (List.mem_singleton_self n)
  have hr : c.story.Ready (n :: m.heads) todo := hr
  refine ⟨walk_unnumbered hp hn todo, hsame, fun k hk => ?_,
    (ready_body hp hmem).append (hr.mono fun k hk => ?_), hheads⟩
  · rcases List.mem_append.1 hk with hk | hk
    · exact mem_names_of_go hp hk
    · exact hg k (List.mem_cons_of_mem _ hk)
  · rcases List.mem_cons.1 hk with rfl | hk
    · exact hmem
    · exact List.mem_append_left _ hk

end Pending

/-- A whole story is pending at the start of a compilation. -/
theorem pending_start (c : Compiler) :
    c.unnumbered .empty = c.story.names ∧
      c.Pending c.story.heads .empty [.go c.story.start.name] := by
  have hall : c.unnumbered .empty = c.story.names := by
    unfold unnumbered
    rw [List.filter_eq_self]
    intro n _
    simp [Memo.empty]
  refine ⟨hall, fun n hn => ?_, trivial, ?_⟩
  · rw [show n = c.story.start.name by simpa using hn]
    exact mem_names_of_opening? opening?_start
  · rw [hall]
    rfl

/-- **The numbers that are given out on the way** are those of the heads: from any memory on,
the work that is left is a performance of the script that is left. -/
theorem work_eq {heads : List String} (m : Memo) (s : Scene) (todo : List (Errand Step))
    (h : c.Pending heads m todo) :
    (c.work m s todo).2 = c.perform heads s (walk c.story.branch (c.unnumbered m) todo) ∧
      ((c.work m s todo).2.2 = .ok () → (c.work m s todo).1 = ⟨heads, m.durations ++
        (wrote (walk c.story.branch (c.unnumbered m) todo)).map fun n =>
          (branchOf heads n, (c.timelineOf n).total)⟩) := by
  -- the memory has the heads so far, and the walk that is left enters the others
  fun_induction work c m s todo with
  | case1 m s =>
    have hh := h.heads_eq
    rw [walk] at hh ⊢
    have hheads : heads = m.heads := by simpa [entered] using hh
    rw [hheads]
    exact ⟨rfl, fun _ => by simp [wrote]⟩
  | case2 => exact h.ready.elim
  | case3 m s n todo ih =>
    obtain ⟨hn, ht, hp⟩ := h.write (c.timelineOf n).total
    -- the branch and its targets are numbered, and later numbers change none of theirs
    have hsame : ∀ k ∈ m.heads, branchOf m.heads k = branchOf heads k := fun k hk => by
      rw [h.heads_eq, branchOf_append hk]
    have hw : c.write m.heads s n = c.write heads s n :=
      write_congr (hsame n hn) fun k hk => hsame k (ht k hk)
    obtain ⟨h1, h2⟩ := ih hp
    rw [walk, perform, ← hw]
    refine ⟨h1, fun hok => (h2 hok).trans ?_⟩
    simp only [Memo.record, wrote, List.filterMap_cons, List.map_cons, List.append_assoc,
      List.cons_append, List.nil_append, hsame n hn]
    rfl
  | case4 m s f todo =>
    rw [walk, perform]
    exact ⟨rfl, fun hok => by cases hok⟩
  | case5 m s n todo hn ih =>
    obtain ⟨hwalk, hp⟩ := h.pass hn
    rw [hwalk]
    exact ih hp
  | case6 m s n todo hn he ih =>
    obtain ⟨hwalk, hsame, hp⟩ := h.enter hn
    rw [hsame] at he
    rw [hwalk, perform, he]
    exact ih hp
  | case7 m s n todo hn f he =>
    obtain ⟨hwalk, hsame, -⟩ := h.enter hn
    rw [hsame] at he
    rw [hwalk, perform, he]
    exact ⟨rfl, fun hok => by cases hok⟩

/-! ## Compilations in a row -/

/-- What is listed under distinct keys is found again. -/
theorem lookup_map_of_inj {α : Type} {ns : List String} {key : String → String} {g : String → α}
    (hn : n ∈ ns) (hkey : ∀ k ∈ ns, key n = key k → n = k) :
    (ns.map fun k => (key k, g k)).lookup (key n) = some (g n) := by
  induction ns with
  | nil => cases hn
  | cons k ns ih =>
    rw [List.map_cons, List.lookup_cons]
    by_cases hk : n = k
    · rw [hk, beq_self_eq_true]
    · have hne : key n ≠ key k := fun he => hk (hkey k List.mem_cons_self he)
      rw [beq_eq_false_iff_ne.2 hne]
      exact ih (List.mem_of_ne_of_mem hk hn) fun i hi => hkey i (List.mem_cons_of_mem _ hi)

theorem lookup_map_self {α : Type} {ns : List String} {g : String → α} (hn : n ∈ ns) :
    (ns.map fun k => (k, g k)).lookup n = some (g n) := by
  have hkey : ∀ k ∈ ns, id n = id k → n = k := fun _ _ => id
  exact lookup_map_of_inj hn hkey

/-- The length of a branch is found again. -/
theorem lookup_branchOf {heads ns : List String} {g : String → Float} (hn : n ∈ ns)
    (hns : ∀ k ∈ ns, k ∈ heads) :
    (ns.map fun k => (branchOf heads k, g k)).lookup (branchOf heads n) = some (g n) :=
  lookup_map_of_inj hn fun k hk he => (branchOf_inj (hns k hk) he.symm).symm

theorem mem_wrote_iff {steps : List Step} : n ∈ wrote steps ↔ .write n ∈ steps := by
  unfold wrote
  rw [List.mem_filterMap]
  constructor
  · rintro ⟨o, ho, hn⟩
    cases o <;> cases hn
    exact ho
  · intro h
    exact ⟨_, h, rfl⟩

/-- What is remembered of a whole story is what it compiles to. -/
theorem compiled_memo (hu : c.story.Unbroken) : Memo.compiled ⟨c.story.heads,
    (wrote c.story.script).map fun n => (branchOf c.story.heads n, (c.timelineOf n).total)⟩ =
      c.compiled c.story.heads := by
  have hlookup : ∀ n ∈ c.story.heads, ((wrote c.story.script).map fun n =>
      (branchOf c.story.heads n, (c.timelineOf n).total)).lookup (branchOf c.story.heads n) =
        some (c.timelineOf n).total := fun n hn =>
    lookup_branchOf (mem_wrote_iff.2 (hu.write_mem_script hn)) fun k hk =>
      mem_heads_of_write (mem_wrote_iff.1 hk)
  unfold Memo.compiled compiled
  rw [Compiled.mk.injEq]
  refine ⟨rfl, List.filterMap_eq_map_iff_forall_eq_some.2 fun n hn => ?_⟩
  rw [hlookup n hn]
  rfl

/-- **A compilation is a run**, whatever the compiler remembers. -/
theorem build_eq (c : Compiler) (m : Memo) (s : Scene) :
    (c.build m s).scene = (c.run s).1 ∧ (c.build m s).result = (c.run s).2 := by
  obtain ⟨hall, hpending⟩ := c.pending_start
  obtain ⟨hperform, hmemo⟩ := work_eq .empty s [.go c.story.start.name] hpending
  rw [hall, show walk c.story.branch c.story.names [.go c.story.start.name] = c.story.script from rfl]
    at hperform hmemo
  have hrun : c.run s = ((c.perform c.story.heads s c.story.script).1,
      (c.perform c.story.heads s c.story.script).2.map fun _ => c.compiled c.story.heads) := rfl
  unfold build
  rw [show m.reset = .empty from rfl]
  rcases hw : c.work .empty s [.go c.story.start.name] with ⟨m', s', done⟩
  rw [hw] at hperform hmemo
  rw [hrun, ← hperform]
  cases done with
  | error f => exact ⟨rfl, rfl⟩
  | ok _ =>
    have hok : ∃ out, (c.run s).2 = .ok out := ⟨c.compiled c.story.heads, by rw [hrun, ← hperform]; rfl⟩
    -- behind a success the memory holds what the run compiled
    obtain ⟨hu, -⟩ := run_ok_iff.1 hok
    refine ⟨rfl, congrArg Except.ok ?_⟩
    rw [show m' = _ from hmemo rfl]
    exact compiled_memo hu

end Compiler

end Stagecraft
