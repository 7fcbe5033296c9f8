import Stagecraft.Proofs.Reach
import Stagecraft.Proofs.Walk
import Stagecraft.Story.Capacity

/-!
# What the count of needs says

* `go_mem_survey_iff`, `branch_mem_survey_iff`, `choices_mem_survey_iff`,
  `fails_mem_survey_iff`: what is noted about one passage.
* `branch_mem_needs_iff`, `choices_mem_needs_iff`, `fails_mem_needs_iff`: the notes about
  a story are those about its surveyed passages.
* `Tally.Counts`: what a tally has counted, which every further note keeps.
* `faulty_of_capacity?`, `measured_of_capacity?`: a story without a capacity has a faulty
  surveyed passage; else the capacity is the number of heads and the largest prompt.
-/

namespace Stagecraft

namespace Story

variable {s : Story} {p q : Passage} {n m : String}

/-! ## The notes about a passage -/

/-- What the count of needs does with a followed link. -/
def visit (s : Story) (p : Passage) (l : Link) : List (Errand Need) :=
  match s.follow? p l with
  | .ok q => (if p.isPrompt then [.note (.branch q.name)] else []) ++ [.go q.name]
  | .error f => [.note (.fails f)]

theorem survey_of_error (h : s.opening? n = some p) {f : Fault} (hd : p.directive? = .error f) :
    s.survey n = [.note (.fails f)] := by
  simp [survey, h, hd]

theorem survey_of_ok (h : s.opening? n = some p) {d : Directive} (hd : p.directive? = .ok d) :
    s.survey n = (if p.isPrompt then [.note (.choices p.exits.length)] else []) ++
      p.followed.flatMap (s.visit p) := by
  have hpd := Passage.isPrompt_of_ok hd
  rw [Passage.followed_of_ok hd, hpd]
  unfold survey
  rw [h]
  by_cases hp : d.prompt = true
  · simp only [hd, hp, if_true, List.cons_append, List.nil_append, List.cons.injEq, true_and]
    refine congrArg (List.flatMap · _) (funext fun l => ?_)
    cases hq : s.follow? p l <;> simp [visit, hpd, hp, hq]
  · cases hl : p.exits with
    | nil => simp [hd, hp, hl]
    | cons l ls => cases hq : s.follow? p l <;> simp [hd, hp, hl, hpd, visit, hq]

theorem mem_visit_iff {l : Link} {e : Errand Need} :
    e ∈ s.visit p l ↔
      (∃ q, s.follow? p l = .ok q ∧
        (e = .go q.name ∨ p.isPrompt = true ∧ e = .note (.branch q.name))) ∨
      ∃ f, s.follow? p l = .error f ∧ e = .note (.fails f) := by
  unfold visit
  cases s.follow? p l with
  | error f => simp
  | ok q => cases p.isPrompt <;> simp [or_comm]

theorem mem_survey_iff (h : s.opening? n = some p) {e : Errand Need} :
    e ∈ s.survey n ↔
      (∃ f, p.directive? = .error f ∧ e = .note (.fails f)) ∨
      (p.isPrompt = true ∧ e = .note (.choices p.exits.length)) ∨
      ∃ l ∈ p.followed, e ∈ s.visit p l := by
  cases hd : p.directive? with
  | error f => simp [survey_of_error h hd, Passage.followed, Passage.isPrompt, hd]
  | ok d =>
    rw [survey_of_ok h hd, List.mem_append, List.mem_flatMap]
    cases p.isPrompt <;> simp

/-- The walk goes where followed links lead. -/
theorem go_mem_survey_iff (h : s.opening? n = some p) :
    .go m ∈ s.survey n ↔ ∃ q, s.Leads p q ∧ q.name = m := by
  simp only [mem_survey_iff h, mem_visit_iff, Leads]
  constructor
  · rintro (⟨f, -, he⟩ | ⟨-, he⟩ | ⟨l, hl, ⟨q, hq, he | ⟨-, he⟩⟩ | ⟨f, -, he⟩⟩) <;> cases he
    exact ⟨q, ⟨l, hl, hq⟩, rfl⟩
  · rintro ⟨q, ⟨l, hl, hq⟩, rfl⟩
    exact .inr (.inr ⟨l, hl, .inl ⟨q, hq, .inl rfl⟩⟩)

/-- A branch is noted for each choice at a prompt. -/
theorem branch_mem_survey_iff (h : s.opening? n = some p) :
    .note (.branch m) ∈ s.survey n ↔ ∃ q, s.Offers p q ∧ q.name = m := by
  simp only [mem_survey_iff h, mem_visit_iff, Offers, Leads]
  constructor
  · rintro (⟨f, -, he⟩ | ⟨-, he⟩ | ⟨l, hl, ⟨q, hq, he | ⟨hp, he⟩⟩ | ⟨f, -, he⟩⟩) <;> cases he
    exact ⟨q, ⟨hp, l, hl, hq⟩, rfl⟩
  · rintro ⟨q, ⟨hp, l, hl, hq⟩, rfl⟩
    exact .inr (.inr ⟨l, hl, .inl ⟨q, hq, .inr ⟨hp, rfl⟩⟩⟩)

theorem choices_mem_survey_iff (h : s.opening? n = some p) {k : Nat} :
    .note (.choices k) ∈ s.survey n ↔ p.isPrompt = true ∧ p.exits.length = k := by
  simp only [mem_survey_iff h, mem_visit_iff]
  constructor
  · rintro (⟨f, -, he⟩ | ⟨hp, he⟩ | ⟨l, hl, ⟨q, hq, he | ⟨hp, he⟩⟩ | ⟨f, -, he⟩⟩) <;> cases he
    exact ⟨hp, rfl⟩
  · rintro ⟨hp, rfl⟩
    exact .inr (.inl ⟨hp, rfl⟩)

theorem fails_mem_survey_iff (h : s.opening? n = some p) {f : Fault} :
    .note (.fails f) ∈ s.survey n ↔ s.Faulty p f := by
  simp only [mem_survey_iff h, mem_visit_iff, Faulty]
  constructor
  · rintro (⟨f, hf, he⟩ | ⟨-, he⟩ | ⟨l, hl, ⟨q, hq, he | ⟨hp, he⟩⟩ | ⟨f, hf, he⟩⟩) <;> cases he
    · exact .inl hf
    · exact .inr ⟨l, hl, hf⟩
  · rintro (hf | ⟨l, hl, hf⟩)
    · exact .inl ⟨f, hf, rfl⟩
    · exact .inr (.inr ⟨l, hl, .inr ⟨f, hf, rfl⟩⟩)

/-! ## The notes about a story -/

/-- The errands with which the count of needs starts. -/
def surveyStart (s : Story) : List (Errand Need) :=
  [.note (.branch s.start.name), .go s.start.name]

/-- The walk gets to the names of the surveyed passages. -/
theorem reached_survey_iff :
    Reached s.survey s.surveyStart n ↔ ∃ p, s.Surveyed p ∧ p.name = n := by
  constructor
  · intro h
    induction h with
    | @here n hg =>
      have hn : n = s.start.name := by simpa [surveyStart] using hg
      exact ⟨s.start, .refl, hn.symm⟩
    | there _ hg ih =>
      obtain ⟨p, hp, rfl⟩ := ih
      obtain ⟨q, hl, rfl⟩ := (go_mem_survey_iff hp.opening?).1 hg
      -- a name to go to is that of a passage that is found under it
      obtain ⟨r, hr⟩ := hl.opening?
      exact ⟨r, hp.step hl hr, opening?_name hr⟩
  · rintro ⟨p, hp, rfl⟩
    induction hp with
    | refl => exact .here (by simp [surveyStart])
    | tail hp hq ih =>
      obtain ⟨r, hl, hr⟩ := hq
      rw [opening?_name hr]
      exact .there ih ((go_mem_survey_iff (Surveyed.opening? hp)).2 ⟨r, hl, rfl⟩)

theorem mem_needs_iff {o : Need} :
    o ∈ s.needs ↔ o = .branch s.start.name ∨ ∃ p, s.Surveyed p ∧ .note o ∈ s.survey p.name := by
  have hfresh : ∀ n, Reached s.survey s.surveyStart n → n ∈ s.names := by
    intro n h
    obtain ⟨p, hp, rfl⟩ := reached_survey_iff.1 h
    exact mem_names_of_opening? hp.opening?
  -- there are names enough for all that are reached, so all of them are visited
  have hv : ∀ n, n ∈ visited s.survey s.names s.surveyStart ↔ ∃ p, s.Surveyed p ∧ p.name = n :=
    fun n => (mem_visited_iff hfresh).trans reached_survey_iff
  show o ∈ walk s.survey s.names s.surveyStart ↔ _
  rw [mem_walk_iff]
  simp only [hv]
  constructor
  · rintro (h | ⟨n, ⟨p, hp, rfl⟩, h⟩)
    · exact .inl (by simpa [surveyStart] using h)
    · exact .inr ⟨p, hp, h⟩
  · rintro (rfl | ⟨p, hp, h⟩)
    · exact .inl List.mem_cons_self
    · exact .inr ⟨p.name, ⟨p, hp, rfl⟩, h⟩

theorem branch_mem_needs_iff : .branch n ∈ s.needs ↔ s.Heads s.Surveyed n := by
  rw [mem_needs_iff, Need.branch.injEq]
  refine or_congr_right ⟨?_, ?_⟩
  · rintro ⟨p, hp, hn⟩
    obtain ⟨q, ho, hq⟩ := (branch_mem_survey_iff hp.opening?).1 hn
    exact ⟨p, q, hp, ho, hq⟩
  · rintro ⟨p, q, hp, ho, hq⟩
    exact ⟨p, hp, (branch_mem_survey_iff hp.opening?).2 ⟨q, ho, hq⟩⟩

theorem choices_mem_needs_iff {k : Nat} :
    .choices k ∈ s.needs ↔ ∃ p, s.Surveyed p ∧ p.isPrompt = true ∧ p.exits.length = k := by
  rw [mem_needs_iff]
  simp only [reduceCtorEq, false_or]
  exact exists_congr fun p => and_congr_right fun hp => choices_mem_survey_iff hp.opening?

theorem fails_mem_needs_iff {f : Fault} :
    .fails f ∈ s.needs ↔ ∃ p, s.Surveyed p ∧ s.Faulty p f := by
  rw [mem_needs_iff]
  simp only [reduceCtorEq, false_or]
  exact exists_congr fun p => and_congr_right fun hp => fails_mem_survey_iff hp.opening?

/-! ## The tally -/

namespace Tally

/-- The tally has counted the notes `done`. -/
structure Counts (done : List Need) (t : Tally) : Prop where
  nodup : t.heads.Nodup
  heads : ∀ n, n ∈ t.heads ↔ .branch n ∈ done
  bound : ∀ k, .choices k ∈ done → k ≤ t.choices
  attained : t.choices = 0 ∨ .choices t.choices ∈ done

theorem counts_nil : Counts [] {} :=
  ⟨List.nodup_nil, by simp, by simp, .inl rfl⟩

/-- **A note that is taken in** is counted too. -/
theorem Counts.add {done : List Need} {t t' : Tally} {o : Need} (h : Counts done t)
    (ho : t.add o = .ok t') : Counts (done ++ [o]) t' := by
  obtain ⟨hnd, hh, hb, ha⟩ := h
  cases o with
  | branch n =>
    cases ho
    -- a name that was noted before is not noted again
    refine ⟨?_, fun m => ?_, by simpa using hb, by simpa using ha⟩
    · dsimp only
      split
      · exact hnd
      · rename_i hn
        refine List.nodup_append.2 ⟨hnd, List.pairwise_singleton _ n, fun a ha b hb => ?_⟩
        rw [List.mem_singleton] at hb
        rintro rfl; exact hn (hb ▸ ha)
    · dsimp only
      split
      · rename_i hn
        simp only [List.mem_append, List.mem_singleton, Need.branch.injEq, ← hh]
        exact ⟨.inl, fun h => h.elim id fun e => e ▸ hn⟩
      · simp [hh]
  | choices k =>
    cases ho
    refine ⟨hnd, by simpa using hh, fun j hj => ?_, ?_⟩
    · simp only [List.mem_append, List.mem_singleton, Need.choices.injEq] at hj
      rcases hj with hj | rfl
      · exact Nat.le_trans (hb j hj) (Nat.le_max_left _ _)
      · exact Nat.le_max_right _ _
    · dsimp only
      -- the greatest number of choices is that of a note
      rcases Nat.le_total k t.choices with hk | hk
      · rw [show Nat.max t.choices k = t.choices from Nat.max_eq_left hk]
        exact ha.imp id fun h => List.mem_append_left _ h
      · rw [show Nat.max t.choices k = k from Nat.max_eq_right hk]
        exact .inr (by simp)
  | fails f => cases ho

/-- The notes that are taken in are all counted, and there is no fault among them. -/
theorem Counts.foldlM {done rest : List Need} {t t' : Tally} (h : Counts done t)
    (ht : rest.foldlM Tally.add t = .ok t') :
    Counts (done ++ rest) t' ∧ ∀ f, .fails f ∉ rest := by
  induction rest generalizing done t with
  | nil => cases ht; simpa using h
  | cons o rest ih =>
    rw [List.foldlM_cons] at ht
    cases ho : t.add o with
    | error f => rw [ho] at ht; cases ht
    | ok t₁ =>
      rw [ho] at ht
      obtain ⟨h₁, h₂⟩ := ih (h.add ho) ht
      rw [List.append_assoc] at h₁
      refine ⟨h₁, fun f hf => ?_⟩
      rcases List.mem_cons.1 hf with rfl | hf
      · cases ho
      · exact h₂ f hf

theorem fails_of_foldlM {rest : List Need} {t : Tally} {f : Fault}
    (ht : rest.foldlM Tally.add t = .error f) : .fails f ∈ rest := by
  induction rest generalizing t with
  | nil => cases ht
  | cons o rest ih =>
    rw [List.foldlM_cons] at ht
    cases ho : t.add o with
    | error g =>
      rw [ho] at ht
      cases o <;> cases ho
      cases ht
      exact List.mem_cons_self
    | ok t₁ =>
      rw [ho] at ht
      exact List.mem_cons_of_mem _ (ih ht)

end Tally

/-! ## The capacity -/

/-- A story without a capacity has a faulty passage among those that are surveyed. -/
theorem faulty_of_capacity? {f : Fault} (h : s.capacity? = .error f) :
    ∃ p, s.Surveyed p ∧ s.Faulty p f := by
  unfold capacity? at h
  cases ht : s.needs.foldlM Tally.add {} with
  | ok t => rw [ht] at h; cases h
  | error g =>
    rw [ht] at h
    cases h
    exact fails_mem_needs_iff.1 (Tally.fails_of_foldlM ht)

/-- The capacity fits what is surveyed: each head has a branch, the largest prompt has its
buttons, and nothing is faulty. -/
structure Measured (s : Story) (c : Capacity) : Prop where
  sound : ∀ p f, s.Surveyed p → ¬ s.Faulty p f
  heads : ∃ ns : List String, ns.Nodup ∧ (∀ n, n ∈ ns ↔ s.Heads s.Surveyed n) ∧
    ns.length = c.branches
  bound : ∀ p, s.Surveyed p → p.isPrompt = true → p.exits.length ≤ c.choices
  attained : c.choices = 0 ∨ ∃ p, s.Surveyed p ∧ p.isPrompt = true ∧ p.exits.length = c.choices

/-- **A capacity is measured.** -/
theorem measured_of_capacity? {c : Capacity} (h : s.capacity? = .ok c) : s.Measured c := by
  unfold capacity? at h
  cases ht : s.needs.foldlM Tally.add {} with
  | error g => rw [ht] at h; cases h
  | ok t =>
    rw [ht] at h
    cases h
    obtain ⟨⟨hnd, hh, hb, ha⟩, hf⟩ := Tally.counts_nil.foldlM ht
    simp only [List.nil_append] at hh hb ha
    refine ⟨fun p f hp he => hf f (fails_mem_needs_iff.2 ⟨p, hp, he⟩),
      ⟨t.heads, hnd, fun n => (hh n).trans branch_mem_needs_iff, rfl⟩,
      fun p hp hpr => hb _ (choices_mem_needs_iff.2 ⟨p, hp, hpr, rfl⟩), ?_⟩
    exact ha.imp id choices_mem_needs_iff.1

end Story

end Stagecraft
