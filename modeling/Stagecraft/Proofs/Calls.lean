import Mathlib.Data.List.Nodup
import Stagecraft.Proofs.Budget
import Stagecraft.Proofs.Endings

/-!
# A compilation on a budget

A compilation can be run by calls, too: the call for a branch plays its timeline in a loop, and at
a prompt it calls for the branches of the choices, before its own is written down. A story never
uses up a budget of as many calls as it has names, as many nested in each other, and as many turns
of each loop.

* `Compiler.playWithin`, `Compiler.callWithin`, `Compiler.buildWithin`: the loop, the call for a
  branch, and the compilation.
* `Compiler.playWithin_does`, `Compiler.callWithin_done`: they do what a compiler at work does.
* `Compiler.Brief`: a branch with no more triggers than there are names, each with its own.
* `Compiler.walks_end`: **the walks end on every story**, and what they come to.
-/

namespace Stagecraft

open Stage

/-- The errands that are left at the end of a timeline, before its branch is written down. -/
def Story.leftover (s : Story) : Ending → List (Errand Step)
  | .stop => []
  | .choice p => s.routes p
  | .broken f => [.note (.fails f)]

namespace Compiler

open Story

/-- A compiler at work: what it remembers, the scene so far, and the calls that it has left. -/
structure Desk where
  memo : Memo
  scene : Scene
  calls : Nat

/-- A call is used. -/
def spend : Task Desk Unit := do
  match (← get).calls with
  | 0 => Task.exhausted
  | calls + 1 => modify fun x => { x with calls }

/-- A timeline from `p` on, behind the names of `chain`, in no more turns than `turns`. At a prompt
there is a call for each choice. -/
def playWithin (c : Compiler) (call : Passage → Task Desk Unit) :
    Nat → List String → Passage → Float → Task Desk (List Beat)
  | 0, _, _, _ => Task.exhausted
  | turns + 1, chain, p, start => do
    let d ← ofExcept p.directive?
    let beat := beatOf p d start
    if d.prompt then
      forM p.exits fun l => do call (← ofExcept (c.story.follow? p l))
      pure [beat]
    else match p.exits with
      | [] => pure [beat]
      | l :: _ => do
        let q ← ofExcept (c.story.follow? p l)
        if q.name ∈ chain ++ [p.name] then throw (.chainCycle p.name q.name)
        else do
          let beats ← playWithin c call turns (chain ++ [p.name]) q beat.finish
          pure (beat :: beats)

/-- A branch with the triggers of beats, and their length. -/
def put (c : Compiler) (heads : List String) (s : Scene) (name : String) (beats : List Beat) :
    Scene :=
  let branch := branchOf heads name
  let made := (c.triggers heads (listed s branch) true beats).map Json.obj
  (s.setStorableField branch patternId triggersKey (.arr made)).setStorableField
    (durationId branch) stepId lengthKey (.str (Decimal.format (Timeline.mk beats .stop).total))

/-- The branch that a passage heads is entered, played and written down. -/
def fill (c : Compiler) (call : Passage → Task Desk Unit) (turns : Nat) (p : Passage) :
    Task Desk Unit := do
  spend
  modify fun x => { x with memo := x.memo.enter p.name }
  let x ← get
  ofExcept (enter? x.scene (branchOf x.memo.heads p.name))
  let beats ← c.playWithin call turns [] p Timeline.startTime
  modify fun x => { x with
    memo := x.memo.record p.name (Timeline.mk beats .stop).total
    scene := c.put x.memo.heads x.scene p.name beats }

/-- The call for the branch that a passage heads, in which no more calls for branches without a
number are nested than `depth`. -/
def callWithin (c : Compiler) (turns : Nat) : Nat → Passage → Task Desk Unit
  | depth, p => Task.firstTime (·.memo.heads) p.name (match depth with
    | 0 => Task.exhausted
    | depth + 1 => c.fill (callWithin c turns depth) turns p)

/-- A compilation with no more calls for branches without a number than `calls`, no more nested in
each other than `depth`, and no more turns of a loop than `turns`. -/
def buildWithin (c : Compiler) (depth calls turns : Nat) (m : Memo) (s : Scene) : Option Build :=
  ((c.callWithin turns depth c.story.start).on ⟨m.reset, s, calls⟩).map fun
    | (.ok _, x) => ⟨{ x.memo with durations := [] }, x.scene, .ok x.memo.compiled⟩
    | (.error f, x) => ⟨x.memo, x.scene, .error f⟩

/-! ## The errands of a call -/

variable {c : Compiler} {call : Passage → Task Desk Unit} {depth turns : Nat} {p q : Passage}
  {x : Desk} {n : String}

/-- Working by errands. -/
def working (c : Compiler) : Doing Desk Step (Memo × Scene × Except Fault Unit) where
  run x todo := c.work x.memo x.scene todo
  stop x f := (x.memo, x.scene, .error f)

theorem working_fails (x : Desk) (f : Fault) (rest : List (Errand Step)) :
    c.working.run x (.note (.fails f) :: rest) = c.working.stop x f := by
  show c.work _ _ (.note (.fails f) :: rest) = _
  rw [work]
  rfl

/-- The start has a number, and there are names and calls for all others. -/
structure Busy (c : Compiler) (depth : Nat) (x : Desk) : Prop where
  start : c.story.start.name ∈ x.memo.heads
  depth : (c.unnumbered x.memo).length ≤ depth
  calls : (c.unnumbered x.memo).length ≤ x.calls

/-- The passage comes when there are names and calls for all that have no number. -/
structure Awaits (c : Compiler) (depth : Nat) (p : Passage) (x : Desk) : Prop where
  comes : c.story.Comes x.memo.heads p
  depth : (c.unnumbered x.memo).length ≤ depth
  calls : (c.unnumbered x.memo).length ≤ x.calls

/-- A new name costs one call, and then it is one less that has no number. -/
theorem Awaits.enter (h : c.Awaits (depth + 1) p x) (hnew : p.name ∉ x.memo.heads) :
    ∃ calls, x.calls = calls + 1 ∧ c.Busy depth ⟨x.memo.enter p.name, x.scene, calls⟩ := by
  have hname := mem_names_of_opening? (h.comes.opening? hnew)
  have hlen : (c.unnumbered (x.memo.enter p.name)).length + 1 = (c.unnumbered x.memo).length :=
    length_unseen_append (mem_unseen_iff.2 ⟨hname, hnew⟩)
  have hdepth := h.depth
  have hcalls := h.calls
  refine ⟨x.calls - 1, by omega, h.comes.start_mem_append, ?_, ?_⟩
  · show (c.unnumbered (x.memo.enter p.name)).length ≤ depth
    omega
  · show (c.unnumbered (x.memo.enter p.name)).length ≤ x.calls - 1
    omega

/-- The errands of a branch without a number: what is left at the end of its timeline, and to write
it down. -/
theorem working_enter (hopen : c.story.opening? n = some p) (hnew : n ∉ x.memo.heads)
    (he : enter? x.scene (branchOf (x.memo.enter n).heads n) = .ok ()) (calls : Nat)
    (rest : List (Errand Step)) : c.working.run x (.go n :: rest) =
      c.working.run ⟨x.memo.enter n, x.scene, calls⟩
        (c.story.leftover (c.story.timeline p).ending ++ [.note (.write n)] ++ rest) := by
  show c.work _ _ (.go n :: rest) = c.work _ _ _
  rw [work, if_neg hnew, he, body_of_opening? hopen]
  cases (c.story.timeline p).ending with
  | stop | choice => rfl
  | broken f =>
    -- behind a fault nothing is written down
    have hfails := working_fails (c := c) ⟨x.memo.enter n, x.scene, calls⟩ f
    exact (hfails _).trans (hfails _).symm

/-- A branch that the scene lacks has got its number. -/
theorem working_refuse {f : Fault} (hnew : n ∉ x.memo.heads)
    (he : enter? x.scene (branchOf (x.memo.enter n).heads n) = .error f) (calls : Nat)
    (rest : List (Errand Step)) : c.working.run x (.go n :: rest) =
      c.working.stop ⟨x.memo.enter n, x.scene, calls⟩ f := by
  show c.work _ _ (.go n :: rest) = _
  rw [work, if_neg hnew, he]
  rfl

/-- A branch is written down with the beats of its timeline. -/
theorem working_write (hopen : c.story.opening? n = some p) (rest : List (Errand Step)) :
    c.working.run x (.note (.write n) :: rest) =
      c.working.run { x with
        memo := x.memo.record n (Timeline.mk (c.story.timeline p).beats .stop).total
        scene := c.put x.memo.heads x.scene n (c.story.timeline p).beats } rest := by
  show c.work _ _ (.note (.write n) :: rest) = c.work _ _ rest
  rw [work, write, timelineOf_of_opening? hopen]
  rfl

/-- A passage that is no prompt has a first link, if one is followed. -/
theorem exits_of_followed {d : Directive} {l : Link} (hd : p.directive? = .ok d)
    (hp : d.prompt = false) (hl : p.followed = [l]) : ∃ ls, p.exits = l :: ls := by
  rw [Passage.followed_of_ok hd, hp] at hl
  cases he : p.exits with
  | nil => simp [he] at hl
  | cons l' ls =>
    obtain rfl : l' = l := by simpa [he] using hl
    exact ⟨ls, rfl⟩

/-- A branch with a number is passed over. -/
theorem Awaits.pass (h : c.Awaits depth p x) (hold : p.name ∈ x.memo.heads) :
    c.Busy depth x ∧ ∀ rest, c.working.run x (.go p.name :: rest) = c.working.run x rest := by
  refine ⟨⟨h.comes.start_mem hold, h.depth, h.calls⟩, fun rest => ?_⟩
  show c.work _ _ (.go p.name :: rest) = _
  rw [work, if_pos hold]
  rfl

/-- **A turn of the loop** that does not end the timeline: the next passage is behind it or goes
on with the rest. -/
theorem playWithin_turn {I : Desk → Prop} {chain : List String} {start : Float} {d : Directive}
    {todo : List (Errand Step)} {beats : List Beat} (hd : p.directive? = .ok d)
    (hc : c.story.Continues p q)
    (h : c.working.Does I (if q.name ∈ chain ++ [p.name] then throw (.chainCycle p.name q.name)
      else do
        let beats ← c.playWithin call turns (chain ++ [p.name]) q (Timeline.finishOf d start)
        pure (beatOf p d start :: beats)) todo beats) :
    c.working.Does I (c.playWithin call (turns + 1) chain p start) todo beats := by
  obtain ⟨hpr, l, ls, hl, hq⟩ := hc.first hd
  rw [playWithin, hl]
  refine .ofExcept_bind hd ?_
  rw [hpr]
  exact .ofExcept_bind hq h

/-- The names of a story that are fresh are those that do not play yet. -/
theorem mem_fresh_iff_of_continues {fresh chain : List String} (hc : c.story.Continues p q)
    (hchain : ∀ n ∈ c.story.names, n ∈ fresh ↔ n ∉ chain) : q.name ∈ fresh ↔ q.name ∉ chain := by
  obtain ⟨r, hr⟩ := hc.leads.opening?
  exact hchain _ (mem_names_of_opening? hr)

section Calls

variable (hcall : ∀ q x, c.Awaits depth q x →
  Task.Done c.working (c.Busy depth) x [.go q.name] () ((call q).on x))
include hcall

/-- The choices of a prompt are called for. -/
theorem routes_does (p : Passage) : c.working.Does (c.Busy depth)
    (forM p.exits fun l => do call (← ofExcept (c.story.follow? p l))) (c.story.routes p) () := by
  unfold routes
  rw [List.map_eq_flatMap]
  refine .forM fun l _ => ?_
  cases hq : c.story.follow? p l with
  | error f => exact .ofExcept_error (fun x rest => working_fails x f rest) rfl
  | ok q =>
    refine .ofExcept_bind rfl fun x hx => ?_
    exact hcall q x ⟨.of_follow hx.start hq, hx.depth, hx.calls⟩

/-- **The loop** plays a timeline in no more turns than there are names left. -/
theorem playWithin_does {fresh chain : List String} {start : Float} {t : Timeline}
    (hu : c.story.Unrolls fresh p start t) (hnd : fresh.Nodup)
    (hchain : ∀ n ∈ c.story.names, n ∈ fresh ↔ n ∉ chain ++ [p.name])
    (hturns : fresh.length < turns) :
    c.working.Does (c.Busy depth) (c.playWithin call turns chain p start)
      (c.story.leftover t.ending) t.beats := by
  obtain ⟨turns, rfl⟩ : ∃ k, turns = k + 1 := Nat.exists_eq_add_one.2 (by omega)
  induction hu generalizing chain turns with
  | malformed hd =>
    rw [playWithin]
    exact .ofExcept_error (fun x rest => working_fails x _ rest) hd
  | stop hd hl =>
    rw [playWithin, hl]
    refine .ofExcept_bind hd ?_
    split
    · exact (Doing.Does.pure ()).bind (.pure _)
    · exact .pure _
  | @choice _ p start d hd hpr hl =>
    rw [playWithin]
    refine .ofExcept_bind hd ?_
    rw [if_pos hpr, leftover, ← List.append_nil (c.story.routes p)]
    exact (routes_does hcall p).bind (.pure _)
  | unresolved hd hpr hfollowed hq =>
    obtain ⟨ls, hl⟩ := exits_of_followed hd hpr hfollowed
    rw [playWithin, hl]
    refine .ofExcept_bind hd ?_
    rw [hpr]
    exact .ofExcept_error (fun x rest => working_fails x _ rest) hq
  | cycle hd hc hm =>
    have hplayed := not_not.1 (mt (mem_fresh_iff_of_continues hc hchain).2 hm)
    refine playWithin_turn hd hc ?_
    rw [if_pos hplayed]
    exact .throw fun x rest => working_fails x _ rest
  | @onward fresh p start d q t hd hc hm hu ih =>
    have hnew := (mem_fresh_iff_of_continues hc hchain).1 hm
    obtain ⟨turns, rfl⟩ : ∃ k, turns = k + 1 := by
      have hpos := List.length_pos_of_mem hm
      exact Nat.exists_eq_add_one.2 (by omega)
    have hrest : c.working.Does (c.Busy depth)
        (c.playWithin call (turns + 1) (chain ++ [p.name]) q (Timeline.finishOf d start))
        (c.story.leftover t.ending) t.beats := by
      refine ih (hnd.erase _) (fun n hn => ?_) turns ?_
      · -- the name that plays now is fresh no more
        rw [hnd.mem_erase_iff, hchain n hn, List.mem_append (t := [q.name]), not_or,
          List.mem_singleton, and_comm]
      · rw [List.length_erase_of_mem hm]
        omega
    refine playWithin_turn hd hc ?_
    rw [if_neg hnew, ← List.append_nil (c.story.leftover _)]
    exact hrest.bind (.pure _)

/-- **A branch without a number** is entered, played and written down. One call is used, and one
name less is left. -/
theorem fill_done (hturns : c.story.names.length ≤ turns) (hp : c.Awaits (depth + 1) p x)
    (hnew : p.name ∉ x.memo.heads) :
    Task.Done c.working (c.Busy depth) x [.go p.name] () ((c.fill call turns p).on x) := by
  have hopen := hp.comes.opening? hnew
  obtain ⟨calls, hcalls, hbusy⟩ := hp.enter hnew
  let x' : Desk := ⟨x.memo.enter p.name, x.scene, calls⟩
  have hon : (c.fill call turns p).on x = (do
      ofExcept (enter? x'.scene (branchOf x'.memo.heads p.name))
      let beats ← c.playWithin call turns [] p Timeline.startTime
      modify fun x => { x with
        memo := x.memo.record p.name (Timeline.mk beats .stop).total
        scene := c.put x.memo.heads x.scene p.name beats } : Task Desk Unit).on x' := by
    obtain ⟨m, s, k⟩ := x
    obtain rfl : k = calls + 1 := hcalls
    rfl
  rw [hon]
  cases he : enter? x'.scene (branchOf x'.memo.heads p.name) with
  | error f => exact .error fun rest => working_refuse hnew he calls rest
  | ok _ =>
    -- the loop plays the timeline, with all other names fresh
    have hloop : c.working.Does (c.Busy depth) (c.playWithin call turns [] p Timeline.startTime)
        (c.story.leftover (c.story.timeline p).ending) (c.story.timeline p).beats := by
      have hname := mem_names_of_opening? hopen
      have hpos := List.length_pos_of_mem hname
      refine playWithin_does hcall (unrolls_timeline p) (c.story.nodup_names.erase _)
        (fun n hn => ?_) ?_
      · rw [c.story.nodup_names.mem_erase_iff, List.nil_append, List.mem_singleton]
        exact and_iff_left hn
      · rw [List.length_erase_of_mem hname]
        omega
    refine Task.Done.instead ?_ (working_enter hopen hnew he calls)
    refine (hloop x' hbusy).bind fun y hy => ?_
    exact .ok ⟨hy.start, hy.depth, hy.calls⟩ (working_write hopen)

end Calls

/-- **A call with a budget enough** for all names that are left. -/
theorem callWithin_done (hturns : c.story.names.length ≤ turns) (depth : Nat) (p : Passage)
    (x : Desk) (hx : c.Awaits depth p x) :
    Task.Done c.working (c.Busy depth) x [.go p.name] () ((c.callWithin turns depth p).on x) := by
  induction depth generalizing p x with
  | zero =>
    rw [callWithin]
    refine .firstTime hx.pass fun hnew => ?_
    -- there is no name left without a number
    have hmem := mem_unnumbered_iff.2 ⟨mem_names_of_opening? (hx.comes.opening? hnew), hnew⟩
    exact absurd (List.length_pos_of_mem hmem) (Nat.not_lt.2 hx.depth)
  | succ depth ih =>
    rw [callWithin]
    refine .firstTime hx.pass fun hnew => (fill_done ih hturns hx hnew).mono fun y hy => ?_
    exact ⟨hy.start, Nat.le_succ_of_le hy.depth, hy.calls⟩

/-- **The names of a story are budget enough** for its compilation. -/
theorem buildWithin_names (c : Compiler) (m : Memo) (s : Scene) :
    c.buildWithin c.story.names.length c.story.names.length c.story.names.length m s =
      some (c.build m s) := by
  have hall : c.unnumbered m.reset = c.story.names := (pending_start c).1
  have hlen : (c.unnumbered m.reset).length ≤ c.story.names.length :=
    Nat.le_of_eq (congrArg List.length hall)
  have hdone := callWithin_done (Nat.le_refl _) c.story.names.length c.story.start
    ⟨m.reset, s, c.story.names.length⟩ ⟨.inl rfl, hlen, hlen⟩
  rw [buildWithin, build]
  generalize (c.callWithin _ _ _).on _ = r at hdone
  cases hdone with
  | @ok y _ hrest =>
    have hwork : c.work m.reset s [.go c.story.start.name] = (y.memo, y.scene, .ok ()) := by
      -- with no errand left the work is done
      refine (hrest []).trans ?_
      show c.work _ _ [] = _
      rw [work]
    rw [hwork]
    rfl
  | @error f y hrest =>
    have hwork : c.work m.reset s [.go c.story.start.name] = (y.memo, y.scene, .error f) := hrest []
    rw [hwork]
    rfl

/-! ## What the walks come to -/

theorem mem_names_of_mem_heads (h : n ∈ c.story.heads) : n ∈ c.story.names := by
  obtain ⟨-, p, hp, -⟩ := played_of_mem_heads h
  exact mem_names_of_opening? hp

/-- The names that have got a number are names of the story, each once. -/
theorem heads_of_build_subset (c : Compiler) (m : Memo) (s : Scene) :
    (c.build m s).memo.heads.Nodup ∧ (c.build m s).memo.heads ⊆ c.story.names := by
  have hfirst := (heads_of_build c m s).1
  exact ⟨nodup_heads.sublist hfirst.sublist, fun n hn =>
    mem_names_of_mem_heads (hfirst.subset hn)⟩

/-- **A branch with `size` triggers at most**, each with its own name. -/
def Brief (size : Nat) (s : Scene) (branch : String) : Prop :=
  ∃ (ts : List Trigger) (names : List String), triggers? s branch = some (.arr (ts.map .obj)) ∧
    ts.map Trigger.name? = names.map some ∧ names.Nodup ∧ ts.length ≤ size

/-- A timeline has as many beats as there are names, at most. -/
theorem length_timelineOf_le (c : Compiler) (n : String) :
    (c.timelineOf n).beats.length ≤ c.story.names.length := by
  cases hp : c.story.opening? n with
  | none => simp [timelineOf, hp]
  | some p =>
    have hname : p.name ∈ c.story.names := mem_names_of_opening? (opening?_name hp ▸ hp)
    obtain ⟨hnd, hmem⟩ := (unrolls_timeline p).names_of_nodup (c.story.nodup_names.erase _)
      c.story.nodup_names.not_mem_erase
    rw [timelineOf_of_opening? hp]
    have hle := hnd.length_le_of_subset fun k hk =>
      (hmem k hk).elim (fun he => he ▸ hname) List.mem_of_mem_erase
    rwa [List.length_map] at hle

/-- **A branch that is written down** is brief. -/
theorem brief_of_writes {s : Scene} (h : n ∈ c.writes s) :
    Brief c.story.names.length (c.run s).1 (branchOf c.story.heads n) := by
  have hwritten := writtenDown_of_run h ((heads_of_build c .empty s).2 n h).2
  have hnames : (c.triggers c.story.heads (listed s (branchOf c.story.heads n)) true
      (c.timelineOf n).beats).map Trigger.name? = _ := map_name?_triggers _ _
  refine ⟨_, ((c.timelineOf n).beats.map (·.passage.name)).map displayName, hwritten.triggers,
    ?_, List.Nodup.map (fun _ _ => displayName_inj) (c.nodup_timelineOf n), ?_⟩
  · rw [hnames, List.map_map, List.map_map]
    rfl
  · have hlen := congrArg List.length hnames
    rw [List.length_map, List.length_map] at hlen
    rw [hlen]
    exact c.length_timelineOf_le n

/-- **The walks end on every story.** With `N` names, the count of needs is done by visits that are
nested `N` deep at most, and a compilation by `N` calls at most, nested `N` deep at most, with loops
of `N` turns at most. So there are `N` branches at most, and each has `N` triggers at most, each
with its own name. -/
theorem walks_end (c : Compiler) (m : Memo) (s : Scene) :
    c.story.capacityWithin c.story.names.length = some c.story.capacity? ∧
    c.buildWithin c.story.names.length c.story.names.length c.story.names.length m s =
      some (c.build m s) ∧
    (c.build m s).memo.heads.Nodup ∧ (c.build m s).memo.heads.length ≤ c.story.names.length ∧
    (∀ n ∈ c.writes s,
      Brief c.story.names.length (c.build m s).scene (branchOf c.story.heads n)) ∧
    ∀ out, (c.build m s).result = .ok out → out.durations.length ≤ c.story.names.length ∧
      ∀ b total, (b, total) ∈ out.durations →
        Brief c.story.names.length (c.build m s).scene b := by
  obtain ⟨hscene, hresult⟩ := build_eq c m s
  obtain ⟨hnodup, hnames⟩ := heads_of_build_subset c m s
  rw [hscene, hresult]
  refine ⟨c.story.capacityWithin_names, buildWithin_names c m s, hnodup,
    hnodup.length_le_of_subset hnames, fun n hn => brief_of_writes hn, fun out hout => ⟨?_, ?_⟩⟩
  · -- each head gets one length
    have hlen : out.durations.length = c.story.heads.length := by
      rw [(run_of_ok hout).1]
      exact List.length_map _
    rw [hlen]
    exact nodup_heads.length_le_of_subset fun n hn => mem_names_of_mem_heads hn
  · intro b total hb
    obtain ⟨n, hn, rfl⟩ := exists_of_mem_durations hout hb
    exact brief_of_writes (((run_of_ok hout).2 n).2 hn)

/-- The fork needs its two names as a budget for its two branches. -/
theorem walks_end_fork : fork.story.capacityWithin 2 = some (.ok ⟨2, 1⟩) ∧
    ∃ b out, fork.buildWithin 2 2 2 .empty (bare 2) = some b ∧ b.result = .ok out ∧
      out.durations.length ≤ 2 ∧ Brief 2 b.scene "Dialog-Branch#1" := by
  have hresult : (fork.build .empty (bare 2)).result = .ok (fork.compiled ["a", "b"]) :=
    (build_eq fork .empty (bare 2)).2.trans run_fork
  obtain ⟨hcapacity, hbuild, -, -, -, hout⟩ := walks_end fork .empty (bare 2)
  obtain ⟨hlen, hbrief⟩ := hout _ hresult
  have hcap : some fork.story.capacity? = some (.ok ⟨2, 1⟩) := congrArg some capacity_fork
  exact ⟨hcapacity.trans hcap, _, _, hbuild, hresult, hlen, hbrief _ _ List.mem_cons_self⟩

example : (fork.buildWithin 1 2 2 .empty (bare 2)).isNone = true ∧
    (fork.buildWithin 2 1 2 .empty (bare 2)).isNone = true := by decide +kernel

end Compiler

end Stagecraft
