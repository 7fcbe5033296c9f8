import Stagecraft.Proofs.Reach
import Stagecraft.Story.Timeline

/-!
# Timelines as lines through a story

A timeline follows the line of passages that continue into each other. Unless it
breaks, it plays the whole line: up to a prompt with links, or to a passage that
leads nowhere.

* `Story.Unrolls`: the ways in which a timeline unrolls, one constructor each;
  `unrolls_timeline`, `Unrolls.eq_timelineFrom`.
* `Unrolls.line_of_mem`, `Unrolls.mem_of_line`: the beats of a timeline are its line.
* `nodup_timeline`: no name plays twice in a timeline.
* `broken_timeline`: a timeline breaks at a faulty passage, or in a cycle.
* `Unrolls.not_faulty`, `Unrolls.not_cycle`: on the line of an unbroken timeline there
  is neither.
-/

namespace Stagecraft

open Relation

namespace Story

variable {s : Story} {p q : Passage}

/-- `q` is on the line that starts with `p`. -/
def Line (s : Story) (p q : Passage) : Prop := ReflTransGen s.Continues p q

/-- The beat that a passage plays at `start`. -/
def beatOf (p : Passage) (d : Directive) (start : Float) : Beat :=
  ⟨p, d, start, Timeline.finishOf d start⟩

/-- **How a timeline unrolls** from `p` on, where the names of `fresh` have not played yet. -/
inductive Unrolls (s : Story) : List String → Passage → Float → Timeline → Prop
  | malformed {fresh p start f} : p.directive? = .error f → Unrolls s fresh p start ⟨[], .broken f⟩
  | stop {fresh p start d} : p.directive? = .ok d → p.exits = [] →
      Unrolls s fresh p start ⟨[beatOf p d start], .stop⟩
  | choice {fresh p start d} : p.directive? = .ok d → d.prompt = true → p.exits ≠ [] →
      Unrolls s fresh p start ⟨[beatOf p d start], .choice p⟩
  | unresolved {fresh p start d l f} : p.directive? = .ok d → d.prompt = false →
      p.followed = [l] → s.follow? p l = .error f →
      Unrolls s fresh p start ⟨[beatOf p d start], .broken f⟩
  | cycle {fresh p start d q} : p.directive? = .ok d → s.Continues p q → q.name ∉ fresh →
      Unrolls s fresh p start ⟨[beatOf p d start], .broken (.chainCycle p.name q.name)⟩
  | onward {fresh p start d q t} : p.directive? = .ok d → s.Continues p q → q.name ∈ fresh →
      Unrolls s (fresh.erase q.name) q (Timeline.finishOf d start) t →
      Unrolls s fresh p start (t.cons (beatOf p d start))

theorem followed_of_line {d : Directive} {l : Link} {ls : List Link} (hd : p.directive? = .ok d)
    (hp : d.prompt = false) (hl : p.exits = l :: ls) : p.followed = [l] := by
  rw [Passage.followed_of_ok hd, hp, hl]; rfl

theorem unrolls_timelineFrom (fresh : List String) (p : Passage) (start : Float) :
    s.Unrolls fresh p start (s.timelineFrom fresh p start) := by
  fun_induction timelineFrom s fresh p start with
  | case1 _ _ _ f hd => exact .malformed hd
  | case2 _ _ _ d hd _ hl => exact .stop hd hl
  | case3 _ _ _ d hd _ l ls hl hp => exact .choice hd hp (by rw [hl]; exact List.cons_ne_nil _ _)
  | case4 _ _ _ d hd _ l ls hl hp f hf =>
    have hp : d.prompt = false := by simpa using hp
    exact .unresolved hd hp (followed_of_line hd hp hl) hf
  | case5 _ _ _ d hd _ l ls hl hp q hq hm ih =>
    have hp : d.prompt = false := by simpa using hp
    exact .onward hd ⟨(Passage.isPrompt_of_ok hd).trans hp, l, by simp [followed_of_line hd hp hl], hq⟩
      hm ih
  | case6 _ _ _ d hd _ l ls hl hp q hq hm =>
    have hp : d.prompt = false := by simpa using hp
    exact .cycle hd ⟨(Passage.isPrompt_of_ok hd).trans hp, l, by simp [followed_of_line hd hp hl], hq⟩ hm

theorem unrolls_timeline (p : Passage) :
    s.Unrolls (s.names.erase p.name) p Timeline.startTime (s.timeline p) :=
  unrolls_timelineFrom _ _ _

/-- A passage that is no prompt has one followed link at most. -/
theorem followed_of_not_isPrompt (hp : p.isPrompt = false) :
    p.followed = [] ∨ ∃ l, p.followed = [l] := by
  unfold Passage.isPrompt at hp
  unfold Passage.followed
  split at hp
  · simp only [hp]
    cases p.exits <;> simp
  · left; rfl

/-- A passage continues into one other passage at most. -/
theorem Continues.unique {r : Passage} (hq : s.Continues p q) (hr : s.Continues p r) : q = r := by
  obtain ⟨hp, l, hl, hq⟩ := hq
  obtain ⟨-, l', hl', hr⟩ := hr
  rcases followed_of_not_isPrompt hp with h | ⟨l₀, h⟩
  · rw [h] at hl; cases hl
  · rw [h, List.mem_singleton] at hl hl'
    rw [hl, ← hl', hr] at hq
    cases hq; rfl

theorem not_continues_of_exits (h : p.exits = []) : ¬ s.Continues p q := by
  rintro ⟨-, l, hl, -⟩
  unfold Passage.followed at hl
  split at hl <;> simp [h] at hl

theorem not_continues_of_isPrompt (h : p.isPrompt = true) : ¬ s.Continues p q := by
  rintro ⟨hp, -⟩
  rw [h] at hp; cases hp

/-- The rest of a line, behind its first passage. -/
theorem Line.cases_head {r : Passage} (h : s.Line p r) (hc : s.Continues p q) :
    p = r ∨ s.Line q r := by
  rcases ReflTransGen.cases_head h with rfl | ⟨q', hc', h⟩
  · exact .inl rfl
  · right; rw [hc.unique hc']; exact h

/-- A line that does not continue has one passage. -/
theorem Line.eq_of_end {r : Passage} (h : s.Line p r) (hp : ∀ q, ¬ s.Continues p q) : r = p := by
  rcases ReflTransGen.cases_head h with rfl | ⟨q, hc, -⟩
  · rfl
  · exact absurd hc (hp q)

/-! ## Single steps of a timeline -/

section Step

variable {fresh : List String} {d : Directive} (start : Float) (hd : p.directive? = .ok d)
include hd

theorem timelineFrom_of_exits_nil (hl : p.exits = []) :
    s.timelineFrom fresh p start = ⟨[beatOf p d start], .stop⟩ := by
  rw [timelineFrom, hd, hl]
  rfl

theorem timelineFrom_of_prompt (hp : d.prompt = true) (hl : p.exits ≠ []) :
    s.timelineFrom fresh p start = ⟨[beatOf p d start], .choice p⟩ := by
  rw [timelineFrom, hd]
  cases he : p.exits with
  | nil => exact absurd he hl
  | cons l ls =>
    simp only [hp, if_true]
    rfl

theorem timelineFrom_of_continues (hc : s.Continues p q) (hq : q.name ∈ fresh) :
    s.timelineFrom fresh p start =
      (s.timelineFrom (fresh.erase q.name) q (Timeline.finishOf d start)).cons
        (beatOf p d start) := by
  obtain ⟨hp, l, hl, hlq⟩ := hc
  rw [Passage.isPrompt_of_ok hd] at hp
  rw [Passage.followed_of_ok hd, hp] at hl
  rw [timelineFrom, hd]
  cases he : p.exits with
  | nil => rw [he] at hl; cases hl
  | cons l' ls =>
    have hll : l = l' := by simpa [he] using hl
    rw [hll] at hlq
    simp only [hp, hlq, hq, if_true]
    rfl

theorem timelineFrom_of_unresolved {l : Link} {f : Fault} (hp : d.prompt = false)
    (hl : p.followed = [l]) (hq : s.follow? p l = .error f) :
    s.timelineFrom fresh p start = ⟨[beatOf p d start], .broken f⟩ := by
  rw [Passage.followed_of_ok hd, hp] at hl
  rw [timelineFrom, hd]
  cases he : p.exits with
  | nil => simp [he] at hl
  | cons l' ls =>
    have hll : l' = l := by simpa [he] using hl
    simp only [hp, hll, hq]
    rfl

theorem timelineFrom_of_cycle (hc : s.Continues p q) (hq : q.name ∉ fresh) :
    s.timelineFrom fresh p start =
      ⟨[beatOf p d start], .broken (.chainCycle p.name q.name)⟩ := by
  obtain ⟨hp, l, hl, hlq⟩ := hc
  rw [Passage.isPrompt_of_ok hd] at hp
  rw [Passage.followed_of_ok hd, hp] at hl
  rw [timelineFrom, hd]
  cases he : p.exits with
  | nil => rw [he] at hl; cases hl
  | cons l' ls =>
    have hll : l = l' := by simpa [he] using hl
    rw [hll] at hlq
    simp only [hp, hlq, hq, if_false]
    rfl

end Step

/-- **A timeline unrolls in one way.** -/
theorem Unrolls.eq_timelineFrom {fresh : List String} {start : Float} {t : Timeline}
    (h : s.Unrolls fresh p start t) : s.timelineFrom fresh p start = t := by
  induction h with
  | malformed hd => rw [timelineFrom, hd]
  | stop hd hl => exact timelineFrom_of_exits_nil _ hd hl
  | choice hd hp hl => exact timelineFrom_of_prompt _ hd hp hl
  | unresolved hd hp hl hq => exact timelineFrom_of_unresolved _ hd hp hl hq
  | cycle hd hc hm => exact timelineFrom_of_cycle _ hd hc hm
  | onward hd hc hm _ ih => rw [timelineFrom_of_continues _ hd hc hm, ih]

namespace Unrolls

variable {fresh : List String} {start : Float} {t : Timeline}

/-- **The beats are on the line**, each with its own directive. -/
theorem line_of_mem (h : s.Unrolls fresh p start t) {b : Beat} (hb : b ∈ t.beats) :
    s.Line p b.passage ∧ b.passage.directive? = .ok b.directive := by
  induction h with
  | malformed => simp at hb
  | stop hd | choice hd | unresolved hd | cycle hd =>
    rw [List.mem_singleton] at hb
    subst hb; exact ⟨.refl, hd⟩
  | onward hd hc _ _ ih =>
    rcases List.mem_cons.1 hb with rfl | hb
    · exact ⟨.refl, hd⟩
    · exact ⟨.head hc (ih hb).1, (ih hb).2⟩

/-- The prompt at which a timeline ends is on its line, and has links. -/
theorem line_of_choice (h : s.Unrolls fresh p start t) (ht : t.ending = .choice q) :
    s.Line p q ∧ q.isPrompt = true ∧ q.exits ≠ [] := by
  induction h with
  | malformed | stop | unresolved | cycle => simp at ht
  | choice hd hp hl =>
    cases ht; exact ⟨.refl, (Passage.isPrompt_of_ok hd).trans hp, hl⟩
  | onward _ hc _ _ ih => exact ⟨.head hc (ih ht).1, (ih ht).2⟩

/-- **A timeline breaks** at a faulty passage, or where its line comes back to a name that
has played. -/
theorem broken {a : Passage} (h : s.Unrolls fresh p start t) {f : Fault} (ht : t.ending = .broken f)
    (ha : s.Line a p)
    (hf : ∀ n, n ∈ s.names → n ∉ fresh → ∃ o, o.name = n ∧ s.Line a o ∧ s.Line o p) :
    (∃ q, s.Line a q ∧ s.Faulty q f) ∨
      ∃ o q r, s.Line a o ∧ s.Line o q ∧ s.Continues q r ∧ r.name = o.name ∧
        f = .chainCycle q.name r.name := by
  induction h with
  | malformed hd => cases ht; exact .inl ⟨_, ha, .inl hd⟩
  | stop | choice => simp at ht
  | unresolved _ _ hl hq => cases ht; exact .inl ⟨_, ha, .inr ⟨_, by simp [hl], hq⟩⟩
  | cycle _ hc hn =>
    cases ht
    -- the name is known but not fresh, so it has played
    obtain ⟨r, hr⟩ := hc.leads.opening?
    obtain ⟨o, ho, hao, hl⟩ := hf _ (mem_names_of_opening? hr) hn
    exact .inr ⟨o, _, _, hao, hl, hc, ho.symm, rfl⟩
  | @onward fresh p start d q t hd hc hm _ ih =>
    refine ih ht (ha.tail hc) fun n hn hnot => ?_
    by_cases hq : n = q.name
    · exact ⟨q, hq.symm, ha.tail hc, .refl⟩
    · obtain ⟨o, ho, hao, hl⟩ := hf n hn fun h => hnot ((List.mem_erase_of_ne hq).2 h)
      exact ⟨o, ho, hao, hl.tail hc⟩

/-- The names of the beats, behind which none of `fresh` plays twice. -/
theorem names_of_nodup (h : s.Unrolls fresh p start t) (hf : fresh.Nodup) (hp : p.name ∉ fresh) :
    (t.beats.map (·.passage.name)).Nodup ∧
      ∀ n ∈ t.beats.map (·.passage.name), n = p.name ∨ n ∈ fresh := by
  induction h with
  | malformed => simp
  | stop | choice | unresolved | cycle => simp [beatOf]
  | @onward fresh p start d q t _ _ hm _ ih =>
    -- the next name leaves `fresh` when it plays
    obtain ⟨hnd, hmem⟩ := ih (hf.erase _) hf.not_mem_erase
    have hsub : ∀ n ∈ t.beats.map (·.passage.name), n ∈ fresh := fun n hn => by
      rcases hmem n hn with rfl | hn
      · exact hm
      · exact List.mem_of_mem_erase hn
    refine ⟨List.nodup_cons.2 ⟨fun hn => hp (hsub _ hn), hnd⟩, fun n hn => ?_⟩
    rcases List.mem_cons.1 hn with rfl | hn
    · exact .inl rfl
    · exact .inr (hsub n hn)

/-! ## Unbroken timelines -/

variable (h : s.Unrolls fresh p start t) (ht : ∀ f, t.ending ≠ .broken f)
include h ht

/-- **An unbroken timeline plays its whole line.** -/
theorem mem_of_line (hq : s.Line p q) : ∃ b ∈ t.beats, b.passage = q := by
  induction h with
  | malformed | unresolved | cycle => exact absurd rfl (ht _)
  | stop _ hl =>
    rw [hq.eq_of_end fun _ => not_continues_of_exits hl]
    exact ⟨_, List.mem_singleton_self _, rfl⟩
  | choice hd hp _ =>
    rw [hq.eq_of_end fun _ => not_continues_of_isPrompt ((Passage.isPrompt_of_ok hd).trans hp)]
    exact ⟨_, List.mem_singleton_self _, rfl⟩
  | onward _ hc _ _ ih =>
    rcases hq.cases_head hc with rfl | hq
    · exact ⟨_, List.mem_cons_self, rfl⟩
    · obtain ⟨b, hb, hbq⟩ := ih ht hq
      exact ⟨b, List.mem_cons_of_mem _ hb, hbq⟩

/-- A prompt with links on the line of an unbroken timeline is its end. -/
theorem choice_of_line (hq : s.Line p q) (hp : q.isPrompt = true) (hl : q.exits ≠ []) :
    t.ending = .choice q := by
  induction h with
  | malformed | unresolved | cycle => exact absurd rfl (ht _)
  | stop _ hnil =>
    rw [hq.eq_of_end fun _ => not_continues_of_exits hnil] at hl
    exact absurd hnil hl
  | choice hd hpr _ =>
    rw [hq.eq_of_end fun _ => not_continues_of_isPrompt ((Passage.isPrompt_of_ok hd).trans hpr)]
  | onward _ hc _ _ ih =>
    rcases hq.cases_head hc with rfl | hq
    · exact absurd hc (not_continues_of_isPrompt hp)
    · exact ih ht hq

/-- The line of an unbroken timeline has no malformed passage, and no line on it leads nowhere. -/
theorem not_faulty (hq : s.Line p q) (hp : q.isPrompt = false) (f : Fault) : ¬ s.Faulty q f := by
  induction h with
  | malformed | unresolved | cycle => exact absurd rfl (ht _)
  | stop hd hnil =>
    rw [hq.eq_of_end fun _ => not_continues_of_exits hnil]
    rintro (he | ⟨l, hl, -⟩)
    · rw [hd] at he; cases he
    · simp [Passage.followed_of_ok hd, hnil] at hl
  | choice hd hpr _ =>
    rw [hq.eq_of_end fun _ => not_continues_of_isPrompt ((Passage.isPrompt_of_ok hd).trans hpr),
      Passage.isPrompt_of_ok hd, hpr] at hp
    cases hp
  | onward hd hc _ _ ih =>
    rcases hq.cases_head hc with rfl | hq
    · rintro (he | ⟨l, hl, he⟩)
      · rw [hd] at he; cases he
      · -- the only link that is followed leads on
        obtain ⟨-, l', hl', hq'⟩ := hc
        rcases followed_of_not_isPrompt hp with hn | ⟨l₀, hn⟩
        · rw [hn] at hl; cases hl
        · rw [hn, List.mem_singleton] at hl hl'
          rw [hl, ← hl', hq'] at he
          cases he
    · exact ih ht hq

/-- **The line of an unbroken timeline has no cycle.** -/
theorem not_cycle (hq : s.Line p q) : ¬ TransGen s.Continues q q := by
  induction h generalizing q with
  | malformed | unresolved | cycle => exact absurd rfl (ht _)
  | stop _ hnil =>
    rw [hq.eq_of_end fun _ => not_continues_of_exits hnil, TransGen.head'_iff]
    rintro ⟨r, hr, -⟩
    exact not_continues_of_exits hnil hr
  | choice hd hp _ =>
    have hend : ∀ r, ¬ s.Continues _ r := fun _ =>
      not_continues_of_isPrompt ((Passage.isPrompt_of_ok hd).trans hp)
    rw [hq.eq_of_end hend, TransGen.head'_iff]
    rintro ⟨r, hr, -⟩
    exact hend r hr
  | onward _ hc _ _ ih =>
    rcases hq.cases_head hc with rfl | hq
    · -- a cycle through the first passage is one through the second
      rw [TransGen.head'_iff]
      rintro ⟨r, hr, hback⟩
      rw [← hc.unique hr] at hback
      exact ih ht .refl (TransGen.tail' hback hc)
    · exact ih ht hq

end Unrolls

/-- **No name plays twice** in a timeline. -/
theorem nodup_timeline (p : Passage) : ((s.timeline p).beats.map (·.passage.name)).Nodup :=
  ((unrolls_timeline p).names_of_nodup (s.nodup_names.erase _) s.nodup_names.not_mem_erase).1

theorem broken_timeline {f : Fault} (h : (s.timeline p).ending = .broken f) :
    (∃ q, s.Line p q ∧ s.Faulty q f) ∨
      ∃ o q r, s.Line p o ∧ s.Line o q ∧ s.Continues q r ∧ r.name = o.name ∧
        f = .chainCycle q.name r.name := by
  refine (unrolls_timeline p).broken h .refl fun n hn hnot => ?_
  by_cases hne : n = p.name
  · exact ⟨p, hne.symm, .refl, .refl⟩
  · exact absurd ((List.mem_erase_of_ne hne).2 hn) hnot

end Story

end Stagecraft
