import Stagecraft.Proofs.Agreement

/-!
# Only reachable passages matter

Two stories with the same start that agree on where the links lead that are followed from there
need the same and compile to the same, on every scene. So the order of passages does not matter,
nor what stands where no followed link leads.

* `Story.Agrees`: two stories that lead to the same passages.
* `Agrees.unrolls`, `Agrees.script`, `Agrees.needs`: both are gone through in the same way.
* `Story.SameOutcome`, `Agrees.sameOutcome`: they need the same and compile to the same.
* `Story.EditedOff`: lists of passages that differ in some that do not count.
* `Story.only_reachable_matters`: **what is not reachable has no effect**.
-/

namespace Stagecraft

open Relation

namespace Story

/-- **Both stories lead to the same passages**: they have one start, and find the same under the
targets of the links that are followed from there. -/
structure Agrees (s s' : Story) : Prop where
  start : s'.start = s.start
  find? : ∀ p, s.Reachable p → ∀ l ∈ p.followed, s'.find? l.target = s.find? l.target

variable {s s' : Story} {p q : Passage} {n : String} {l : Link}

theorem Reachable.line (h : s.Reachable p) (hl : s.Line p q) : s.Reachable q := by
  induction hl with
  | refl => exact h
  | tail _ hc ih => exact ih.tail hc.leads

theorem Reachable.mem_names (h : s.Reachable p) : p.name ∈ s.names := by
  rcases ReflTransGen.cases_tail h with heq | ⟨q, -, hl⟩
  · rw [heq]
    exact mem_names_of_opening? opening?_start
  · obtain ⟨r, hr⟩ := hl.opening?
    exact mem_names_of_opening? hr

namespace Agrees

variable (h : s.Agrees s')
include h

theorem follow?_eq (hp : s.Reachable p) (hl : l ∈ p.followed) : s'.follow? p l = s.follow? p l := by
  unfold follow?
  rw [h.find? p hp l hl]

theorem leads (hp : s.Reachable p) (hl : s.Leads p q) : s'.Leads p q := by
  obtain ⟨l, hl, hq⟩ := hl
  exact ⟨l, hl, (h.follow?_eq hp hl).trans hq⟩

/-- What is reachable in one story is so in the other one. -/
theorem reachable (hp : s.Reachable p) : s'.Reachable p := by
  induction hp with
  | refl =>
    rw [← h.start]
    exact .refl
  | tail hp hl ih => exact ih.tail (h.leads hp hl)

/-- Both open the same under the name of a reachable passage. -/
theorem opening?_eq (hp : s.Reachable p) : s'.opening? p.name = s.opening? p.name := by
  by_cases hs : s.start.name = p.name
  · rw [opening?, opening?, h.start, if_pos hs, if_pos hs]
  · have hs' : s'.start.name ≠ p.name := by rwa [h.start]
    rw [opening?_of_ne hs, opening?_of_ne hs']
    rcases ReflTransGen.cases_tail hp with heq | ⟨q, hq, l, hl, hlp⟩
    · exact absurd (congrArg Passage.name heq.symm) hs
    · rw [follow?_name hlp]
      exact h.find? q hq l hl

theorem continues (hp : s.Reachable p) (hc : s.Continues p q) : s'.Continues p q :=
  ⟨hc.1, h.leads hp hc.leads⟩

/-- **A timeline from a reachable passage** unrolls in both stories alike, if the same reachable
names are fresh. -/
theorem unrolls {fresh fresh' : List String} {start : Float} {t : Timeline}
    (hu : s.Unrolls fresh p start t) (hf : fresh.Nodup) (hf' : fresh'.Nodup)
    (hfresh : ∀ q, s.Reachable q → (q.name ∈ fresh' ↔ q.name ∈ fresh)) (hp : s.Reachable p) :
    s'.Unrolls fresh' p start t := by
  induction hu generalizing fresh' with
  | malformed hd => exact .malformed hd
  | stop hd hl => exact .stop hd hl
  | choice hd hpr hl => exact .choice hd hpr hl
  | unresolved hd hpr hl hq =>
    exact .unresolved hd hpr hl ((h.follow?_eq hp (by simp [hl])).trans hq)
  | cycle hd hc hm =>
    have hq := hp.tail hc.leads
    -- the next passage is reachable too, so it is fresh in both stories or in none
    exact .cycle hd (h.continues hp hc) fun hm' => hm ((hfresh _ hq).1 hm')
  | onward hd hc hm _ ih =>
    have hq := hp.tail hc.leads
    refine .onward hd (h.continues hp hc) ((hfresh _ hq).2 hm)
      (ih (hf.erase _) (hf'.erase _) (fun r hr => ?_) hq)
    rw [hf.mem_erase_iff, hf'.mem_erase_iff, hfresh r hr]

theorem timeline (hp : s.Reachable p) : s'.timeline p = s.timeline p := by
  refine (h.unrolls (unrolls_timeline p) (s.nodup_names.erase _) (s'.nodup_names.erase p.name)
    (fun q hq => ?_) hp).eq_timelineFrom
  rw [s.nodup_names.mem_erase_iff, s'.nodup_names.mem_erase_iff]
  exact and_congr_right fun _ => iff_of_true (h.reachable hq).mem_names hq.mem_names

/-! ## Both stories are gone through in the same way -/

theorem routes (hp : s.Reachable p) (hpr : p.isPrompt = true) : s'.routes p = s.routes p := by
  unfold Story.routes
  refine List.map_congr_left fun l hl => ?_
  rw [h.follow?_eq hp (by rwa [Passage.followed_of_isPrompt hpr])]

theorem branch (hp : s.Reachable p) (ho : s.opening? p.name = some p) :
    s'.branch p.name = s.branch p.name := by
  have ho' : s'.opening? p.name = some p := (h.opening?_eq hp).trans ho
  rw [branch_of_opening? ho, branch_of_opening? ho', h.timeline hp]
  cases ht : (s.timeline p).ending with
  | stop | broken => rfl
  | choice r =>
    obtain ⟨hline, hr, -⟩ := (unrolls_timeline p).line_of_choice ht
    simp only [h.routes (hp.line hline) hr]

theorem survey (hp : s.Reachable p) (ho : s.opening? p.name = some p) :
    s'.survey p.name = s.survey p.name := by
  have ho' : s'.opening? p.name = some p := (h.opening?_eq hp).trans ho
  cases hd : p.directive? with
  | error f => rw [survey_of_error ho hd, survey_of_error ho' hd]
  | ok d =>
    rw [survey_of_ok ho hd, survey_of_ok ho' hd]
    have hvisit : ∀ l ∈ p.followed, s'.visit p l = s.visit p l := fun l hl => by
      rw [visit, visit, h.follow?_eq hp hl]
    rw [List.flatMap_def, List.flatMap_def, List.map_congr_left hvisit]

/-- **The script is the same.** -/
theorem script : s'.script = s.script := by
  unfold Story.script
  rw [h.start]
  refine walk_congr s.nodup_names s'.nodup_names fun n hn => ?_
  obtain ⟨-, p, ho, hplay⟩ := played_of_reached hn
  have hp := hplay.reachable
  obtain rfl := opening?_name ho
  exact ⟨h.branch hp ho, iff_of_true (h.reachable hp).mem_names hp.mem_names⟩

theorem heads : s'.heads = s.heads := by
  rw [Story.heads, h.script, Story.heads]

/-- **The needs are the same.** -/
theorem needs : s'.needs = s.needs := by
  unfold Story.needs
  rw [h.start]
  refine walk_congr s.nodup_names s'.nodup_names fun n hn => ?_
  obtain ⟨p, hsurveyed, rfl⟩ := reached_survey_iff.1 hn
  have hp := hsurveyed.played.reachable
  exact ⟨h.survey hp hsurveyed.opening?, iff_of_true (h.reachable hp).mem_names hp.mem_names⟩

theorem capacity?_eq : s'.capacity? = s.capacity? := by
  rw [capacity?, h.needs, capacity?]

end Agrees

end Story

/-! ## Compilations -/

namespace Compiler

variable {c c' : Compiler} {heads : List String} {scene : Scene} {n : String}

theorem triggers_congr (ht : c'.template = c.template) (hs : c'.slots = c.slots) (vs : List Json)
    (first : Bool) (bs : List Beat) : c'.triggers heads vs first bs = c.triggers heads vs first bs := by
  apply List.ext_getElem?
  intro i
  rw [getElem?_triggers, getElem?_triggers, hs]
  simp only [earlier, ht]

theorem write_eq_write (ht : c'.template = c.template) (hs : c'.slots = c.slots)
    (hn : c'.timelineOf n = c.timelineOf n) : c'.write heads scene n = c.write heads scene n := by
  rw [write_eq, write_eq, renewed, renewed, hn, triggers_congr ht hs]

/-- A performance depends on the branches that are written down. -/
theorem perform_congr {steps : List Step}
    (h : ∀ n, .write n ∈ steps → ∀ scene, c'.write heads scene n = c.write heads scene n) :
    c'.perform heads scene steps = c.perform heads scene steps := by
  fun_induction perform c heads scene steps with
  | case1 => rfl
  | case2 s n steps he ih =>
    rw [perform, he]
    exact ih fun k hk => h k (List.mem_cons_of_mem _ hk)
  | case3 s n steps f he => rw [perform, he]
  | case4 s n steps ih =>
    rw [perform, h n List.mem_cons_self]
    exact ih fun k hk => h k (List.mem_cons_of_mem _ hk)
  | case5 => rfl

end Compiler

namespace Story

/-- **The outcome is the same**: the capacity or the fault that both stories have, and what their
compilations give and leave in a scene. -/
structure SameOutcome (s s' : Story) : Prop where
  capacity : s'.capacity? = s.capacity?
  run : ∀ template slots scene,
    (Compiler.mk s' template slots).run scene = (Compiler.mk s template slots).run scene

variable {s s' : Story}

theorem Agrees.timelineOf (h : s.Agrees s') {c c' : Compiler} (hc : c.story = s)
    (hc' : c'.story = s') {n : String} (hn : n ∈ s.heads) : c'.timelineOf n = c.timelineOf n := by
  subst hc hc'
  obtain ⟨-, p, ho, hplay⟩ := played_of_mem_heads hn
  have hp := hplay.reachable
  obtain rfl := opening?_name ho
  rw [Compiler.timelineOf_of_opening? ho,
    Compiler.timelineOf_of_opening? ((h.opening?_eq hp).trans ho)]
  exact h.timeline hp

/-- **Stories that lead to the same passages** have the same outcome. -/
theorem Agrees.sameOutcome (h : s.Agrees s') : s.SameOutcome s' where
  capacity := h.capacity?_eq
  run := fun template slots scene => by
    generalize hc : Compiler.mk s template slots = c
    generalize hc' : Compiler.mk s' template slots = c'
    have hs : c.story = s := by rw [← hc]
    have hs' : c'.story = s' := by rw [← hc']
    have ht : c'.template = c.template := by rw [← hc, ← hc']
    have hslots : c'.slots = c.slots := by rw [← hc, ← hc']
    -- what is written and what is compiled belongs to heads, which are reachable
    have hwrite : ∀ n, .write n ∈ s.script → ∀ scene,
        c'.write s.heads scene n = c.write s.heads scene n := fun n hn scene =>
      Compiler.write_eq_write ht hslots (h.timelineOf hs hs' (mem_heads_of_write hn))
    have hcompiled : c'.compiled s.heads = c.compiled s.heads := by
      have hlengths : ∀ n ∈ s.heads, (Compiler.branchOf s.heads n, (c'.timelineOf n).total) =
          (Compiler.branchOf s.heads n, (c.timelineOf n).total) := fun n hn => by
        rw [h.timelineOf hs hs' hn]
      rw [Compiler.compiled, List.map_congr_left hlengths, Compiler.compiled]
    simp only [Compiler.run, hs, hs', h.heads, h.script, Compiler.perform_congr hwrite, hcompiled]

/-! ## Changes without effect -/

/-- **Passages that differ only where `P` and `P'` do not hold**: some of the first list are taken
away that `P` does not hold of, and others added that `P'` does not hold of. -/
inductive EditedOff (P P' : Passage → Prop) : List Passage → List Passage → Prop
  | nil : EditedOff P P' [] []
  | keep {p ps ps'} : EditedOff P P' ps ps' → EditedOff P P' (p :: ps) (p :: ps')
  | drop {p ps ps'} : ¬ P p → EditedOff P P' ps ps' → EditedOff P P' (p :: ps) ps'
  | add {p ps ps'} : ¬ P' p → EditedOff P P' ps ps' → EditedOff P P' ps (p :: ps')

/-- The last passage of a name. -/
def last? (ps : List Passage) (name : String) : Option Passage := ps.reverse.find? (·.name == name)

variable {p q : Passage} {ps ps' : List Passage} {n m : String}

theorem find?_eq (s : Story) (name : String) : s.find? name =
    (last? s.others name).or (if s.start.name = name then some s.start else none) := by
  unfold find? last?
  cases s.others.reverse.find? (·.name == name) <;> rfl

theorem last?_cons (p : Passage) (ps : List Passage) (name : String) :
    last? (p :: ps) name = (last? ps name).or (if p.name = name then some p else none) := by
  unfold last?
  rw [List.reverse_cons, List.find?_append]
  congr 1
  by_cases hp : p.name = name <;> simp [hp]

/-- Passages that are not found do not matter. -/
theorem EditedOff.last?_eq {P P' : Passage → Prop} (h : EditedOff P P' ps ps')
    (hP : ∀ q, last? ps n = some q → P q) (hP' : ∀ q, last? ps' n = some q → P' q) :
    last? ps' n = last? ps n := by
  -- what is found in the rest of a list is found in the whole list too
  have hrest : ∀ {Q : Passage → Prop} {p : Passage} {ps : List Passage},
      (∀ q, last? (p :: ps) n = some q → Q q) → ∀ q, last? ps n = some q → Q q :=
    fun hQ q hq => hQ q (by rw [last?_cons, hq]; rfl)
  induction h with
  | nil => rfl
  | @keep p ps ps' _ ih => rw [last?_cons, last?_cons, ih (hrest hP) (hrest hP')]
  | @drop p ps ps' hp _ ih =>
    rw [ih (hrest hP) hP', last?_cons]
    cases hq : last? ps n with
    | some q => rfl
    | none =>
      have hne : p.name ≠ n := fun heq => hp (hP p (by simp [last?_cons, hq, heq]))
      simp [hne]
  | @add p ps ps' hp _ ih =>
    have hsame := ih hP (hrest hP')
    rw [last?_cons, hsame]
    cases hq : last? ps n with
    | some q => rfl
    | none =>
      have hne : p.name ≠ n := fun heq => hp (hP' p (by simp [last?_cons, hsame, hq, heq]))
      simp [hne]

/-- Distinct names are found whatever the order. -/
theorem last?_perm (h : ps.Perm ps') (hn : (ps.map (·.name)).Nodup) (n : String) :
    last? ps' n = last? ps n := by
  induction h with
  | nil => rfl
  | cons p _ ih => rw [last?_cons, last?_cons, ih (List.nodup_cons.1 hn).2]
  | swap p q ps =>
    -- two that trade places have different names, so one of them at most is found
    have hne : q.name ≠ p.name := fun heq =>
      (List.nodup_cons.1 hn).1 (List.mem_map.2 ⟨p, List.mem_cons_self, heq.symm⟩)
    simp only [last?_cons]
    cases last? ps n with
    | some r => rfl
    | none =>
      by_cases hp : p.name = n
      · have hq : q.name ≠ n := fun heq => hne (heq.trans hp.symm)
        simp [hp, hq]
      · simp [hp]
  | trans h₁ _ ih₁ ih₂ =>
    have hn' := ((h₁.map (·.name)).nodup_iff).1 hn
    rw [ih₂ hn', ih₁ hn]

/-- Passages of another name are passed over. -/
theorem last?_filter (ps : List Passage) (h : n ≠ m) :
    last? (ps.filter fun p => p.name ≠ m) n = last? ps n := by
  induction ps with
  | nil => rfl
  | cons p ps ih =>
    by_cases hp : p.name = m
    · have hne : p.name ≠ n := fun heq => h (heq.symm.trans hp)
      rw [List.filter_cons_of_neg (by simpa using hp), ih, last?_cons]
      simp [hne]
    · rw [List.filter_cons_of_pos (by simpa using hp), last?_cons, ih, last?_cons]

section Start

variable (hstart : s'.start = s.start)
include hstart

theorem find?_congr (h : last? s'.others n = last? s.others n) : s'.find? n = s.find? n := by
  rw [find?_eq, find?_eq, h, hstart]

/-- **Stories that differ off what is reachable** lead to the same passages. -/
theorem EditedOff.agrees (h : EditedOff s.Reachable s'.Reachable s.others s'.others) :
    s.Agrees s' := by
  -- what is found behind a passage that both reach is reachable in the story that finds it
  have hfind : ∀ p, s.Reachable p → s'.Reachable p → ∀ l ∈ p.followed,
      s'.find? l.target = s.find? l.target := fun p hp hp' l hl => by
    refine find?_congr hstart (h.last?_eq (fun q hq => ?_) fun q hq => ?_)
    · have hfound : s.find? l.target = some q := by rw [find?_eq, hq]; rfl
      exact hp.tail ⟨l, hl, follow?_eq_ok_iff.2 hfound⟩
    · have hfound : s'.find? l.target = some q := by rw [find?_eq, hq]; rfl
      exact hp'.tail ⟨l, hl, follow?_eq_ok_iff.2 hfound⟩
  have hreach : ∀ p, s.Reachable p → s'.Reachable p := fun p hp => by
    induction hp with
    | refl =>
      rw [← hstart]
      exact .refl
    | tail hp hq ih =>
      obtain ⟨l, hl, hq⟩ := hq
      rw [follow?_eq_ok_iff, ← hfind _ hp ih l hl] at hq
      exact ih.tail ⟨l, hl, follow?_eq_ok_iff.2 hq⟩
  exact ⟨hstart, fun p hp => hfind p hp (hreach p hp)⟩

/-- **Only reachable passages matter.** Stories with one start have the same outcome if they find
the same under the targets of all followed links. So they have it if one has the passages of the
other in another order, and their names are distinct; if they differ in passages that are not
reachable; and if they differ in passages of a name that no followed link has as its target. -/
theorem only_reachable_matters :
    ((∀ p, s.Reachable p → ∀ l ∈ p.followed, s'.find? l.target = s.find? l.target) →
      s.SameOutcome s') ∧
    (s.others.Perm s'.others → (s.others.map (·.name)).Nodup → s.SameOutcome s') ∧
    (EditedOff s.Reachable s'.Reachable s.others s'.others → s.SameOutcome s') ∧
    ∀ n, (∀ p, s.Reachable p → ∀ l ∈ p.followed, l.target ≠ n) →
      (s.others.filter fun p => p.name ≠ n) = (s'.others.filter fun p => p.name ≠ n) →
      s.SameOutcome s' := by
  refine ⟨fun h => ?_, fun hperm hn => ?_, fun h => (h.agrees hstart).sameOutcome,
    fun n hn hfilter => ?_⟩
  · exact Agrees.sameOutcome ⟨hstart, h⟩
  · refine Agrees.sameOutcome ⟨hstart, fun p _ l _ => find?_congr hstart ?_⟩
    exact last?_perm hperm hn l.target
  · refine Agrees.sameOutcome ⟨hstart, fun p hp l hl => find?_congr hstart ?_⟩
    rw [← last?_filter s'.others (hn p hp l hl), ← last?_filter s.others (hn p hp l hl), hfilter]

end Start

/-- A passage that is no prompt, with a second link that leads nowhere. -/
def detour : Story where
  start := ⟨"a", "", ["delay"], [⟨"b", "b"⟩, ⟨"z", "z"⟩]⟩
  others := [⟨"b", "", ["delay"], []⟩]

/-- The same, with a malformed passage behind the second link. -/
def detourTo : Story where
  start := detour.start
  others := [⟨"z", "", ["nonsense"], []⟩, ⟨"b", "", ["delay"], []⟩]

/-- It does not matter what the second link leads to. -/
theorem only_reachable_matters_detour : detour.SameOutcome detourTo := by
  have hreach : ∀ p, detour.Reachable p → p = detour.start ∨ p = ⟨"b", "", ["delay"], []⟩ := by
    intro p hp
    induction hp with
    | refl => exact .inl rfl
    | tail _ hl ih =>
      obtain ⟨l, hl, hq⟩ := hl
      rcases ih with rfl | rfl
      · obtain rfl : l = .ofRaw ⟨"b", "b"⟩ := List.mem_singleton.1 hl
        exact .inr (Except.ok.inj hq).symm
      · exact absurd hl List.not_mem_nil
  have hstart : detourTo.start = detour.start := rfl
  obtain ⟨-, -, -, hname⟩ := only_reachable_matters hstart
  refine hname "z" (fun p hp l hl => ?_) (by decide)
  rcases hreach p hp with rfl | rfl
  · rw [List.mem_singleton.1 hl]
    decide
  · exact absurd hl List.not_mem_nil

end Story

end Stagecraft
