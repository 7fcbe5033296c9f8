import Mathlib.Data.Set.Card
import Stagecraft.Proofs.Agreement

/-!
# What a capacity counts

The count of needs is a walk. What it counts can be said without the walk: the passages behind
followed links are the least set with the start that no followed link leads out of, and if no
further passage has the name of the start, these are the passages that are counted.

* `Story.Closed`, `Story.isLeast_reachable`: that set.
* `Passage.Malformed`, `Story.Strands`: the two ways in which a passage fails, and the fault that
  tells of each.
* `Story.openings`: the passages that branches start with. No two passages that are counted have
  one name, so there are as many as there are names.
* `Story.capacity?_meaning`: **what a capacity is, and when there is none**.
-/

namespace Stagecraft

namespace Passage

/-- The tags state no directive. -/
def Malformed (p : Passage) : Prop := ∃ why, Directive.ofTags? p.tags = .error why

theorem directive?_eq_error_iff {p : Passage} {f : Fault} :
    p.directive? = .error f ↔
      ∃ why, Directive.ofTags? p.tags = .error why ∧ f = .malformedTags p.name why := by
  unfold directive?
  cases Directive.ofTags? p.tags <;> simp [eq_comm]

end Passage

namespace Story

variable {s : Story} {p q : Passage} {f : Fault} {R : Set Passage} {cap : Capacity}

/-- The start is in the set, and no followed link leads out of it. -/
structure Closed (s : Story) (R : Set Passage) : Prop where
  start : s.start ∈ R
  step : ∀ p ∈ R, ∀ q, s.Leads p q → q ∈ R

/-- **What is reachable** is the least closed set. -/
theorem isLeast_reachable (s : Story) : IsLeast {R | s.Closed R} {p | s.Reachable p} := by
  refine ⟨⟨.refl, fun p hp q hl => hp.tail hl⟩, fun R (hR : s.Closed R) p hp => ?_⟩
  induction hp with
  | refl => exact hR.start
  | tail _ hl ih => exact hR.step _ ih _ hl

/-! ## Faults -/

/-- A followed link has no passage. -/
def Strands (s : Story) (p : Passage) : Prop := ∃ l ∈ p.followed, s.find? l.target = none

theorem exists_faulty_iff : (∃ f, s.Faulty p f) ↔ p.Malformed ∨ s.Strands p := by
  simp only [Faulty, Passage.directive?_eq_error_iff, follow?_eq_error_iff, Passage.Malformed,
    Strands]
  constructor
  · rintro ⟨f, ⟨why, hwhy, -⟩ | ⟨l, hl, hnone, -⟩⟩
    · exact .inl ⟨why, hwhy⟩
    · exact .inr ⟨l, hl, hnone⟩
  · rintro (⟨why, hwhy⟩ | ⟨l, hl, hnone⟩)
    · exact ⟨_, .inl ⟨why, hwhy, rfl⟩⟩
    · exact ⟨_, .inr ⟨l, hl, hnone, rfl⟩⟩

/-- The fault is one that the passage has: it has the passage's name and the code for what is
wrong. -/
structure Blames (s : Story) (f : Fault) (p : Passage) : Prop where
  passage : f.notice.passage = some p.name
  code : p.Malformed ∧ f.notice.code = "DIALOG_TAGS_MALFORMED" ∨
    s.Strands p ∧ f.notice.code = "DIALOG_LINK_UNRESOLVED"

theorem Faulty.blames (h : s.Faulty p f) : s.Blames f p := by
  rcases h with hd | ⟨l, hl, hf⟩
  · obtain ⟨why, hwhy, rfl⟩ := Passage.directive?_eq_error_iff.1 hd
    exact ⟨rfl, .inl ⟨⟨why, hwhy⟩, rfl⟩⟩
  · obtain ⟨hnone, rfl⟩ := follow?_eq_error_iff.1 hf
    exact ⟨rfl, .inr ⟨⟨l, hl, hnone⟩, rfl⟩⟩

/-! ## Branches -/

/-- The passages that branches start with: the start, and whatever a link of a prompt in `R` leads
to. -/
def openings (s : Story) (R : Set Passage) : Set Passage :=
  {q | q = s.start ∨ ∃ p ∈ R, p.isPrompt = true ∧ ∃ l ∈ p.exits, s.find? l.target = some q}

theorem mem_openings_iff : q ∈ s.openings R ↔ q = s.start ∨ ∃ p ∈ R, s.Offers p q := by
  simp only [openings, Set.mem_ofPred_eq, offers_iff, follow?_eq_ok_iff]

section Unhidden

variable (hs : s.find? s.start.name = some s.start)
include hs

/-- **No two reachable passages** have one name. -/
theorem Reachable.eq_of_name (hp : s.Reachable p) (hq : s.Reachable q) (h : p.name = q.name) :
    p = q := by
  have hop := hp.opening? hs
  rw [h, hq.opening? hs] at hop
  exact (Option.some.inj hop).symm

theorem image_openings :
    Passage.name '' s.openings {p | s.Reachable p} = {n | s.Heads s.Surveyed n} := by
  ext n
  simp only [Set.mem_image, mem_openings_iff, Set.mem_ofPred_eq, Heads, surveyed_iff_reachable hs]
  constructor
  · rintro ⟨q, rfl | ⟨p, hp, ho⟩, rfl⟩
    · exact .inl rfl
    · exact .inr ⟨p, q, hp, ho, rfl⟩
  · rintro (rfl | ⟨p, q, hp, ho, rfl⟩)
    · exact ⟨s.start, .inl rfl, rfl⟩
    · exact ⟨q, .inr ⟨p, hp, ho⟩, rfl⟩

/-- **There are as many branches as passages** that they start with. -/
theorem Measured.encard_openings (hm : s.Measured cap) :
    (s.openings {p | s.Reachable p}).encard = cap.branches := by
  have hinj : Set.InjOn Passage.name (s.openings {p | s.Reachable p}) := by
    have hreach : ∀ q ∈ s.openings {p | s.Reachable p}, s.Reachable q := fun q hq => by
      rcases mem_openings_iff.1 hq with rfl | ⟨p, hp, ho⟩
      · exact .refl
      · exact hp.tail ho.leads
    exact fun p hp q hq => Reachable.eq_of_name hs (hreach p hp) (hreach q hq)
  obtain ⟨ns, hnd, hmem, hlen⟩ := hm.heads
  have hns : {n | s.Heads s.Surveyed n} = (ns.toFinset : Set String) := by
    ext n
    rw [List.coe_toFinset, Set.mem_ofPred_eq, Set.mem_ofPred_eq, hmem]
  rw [← hinj.encard_image, image_openings hs, hns, Set.encard_coe_eq_coe_finsetCard,
    List.toFinset_card_of_nodup hnd, hlen]

/-- **The choices are the links of the largest prompt**, or none. -/
theorem Measured.isGreatest_choices (hm : s.Measured cap) :
    IsGreatest {k | k = 0 ∨ ∃ p, s.Reachable p ∧ p.isPrompt = true ∧ p.exits.length = k}
      cap.choices := by
  constructor
  · refine hm.attained.imp id fun ⟨p, hp, hpr, hk⟩ => ⟨p, ?_, hpr, hk⟩
    exact (surveyed_iff_reachable hs).1 hp
  · rintro k (rfl | ⟨p, hp, hpr, rfl⟩)
    · exact Nat.zero_le _
    · exact hm.bound p ((surveyed_iff_reachable hs).2 hp) hpr

end Unhidden

/-- **The capacity of a story** whose start is found under its name, where `R` is the least closed
set: there is none exactly if a passage of `R` fails, and then the fault is one of such a passage.
Else the branches are the openings of `R`, and the choices the links of its largest prompt. -/
theorem capacity?_meaning (h : ∀ p ∈ s.others, p.name ≠ s.start.name)
    (hR : IsLeast {R | s.Closed R} R) :
    ((∃ f, s.capacity? = .error f) ↔ ∃ p ∈ R, p.Malformed ∨ s.Strands p) ∧
    (∀ f, s.capacity? = .error f → ∃ p ∈ R, s.Blames f p) ∧
    ∀ cap, s.capacity? = .ok cap →
      (s.openings R).encard = cap.branches ∧
      IsGreatest {k | k = 0 ∨ ∃ p ∈ R, p.isPrompt = true ∧ p.exits.length = k} cap.choices := by
  have hs := find?_start_of_unique h
  obtain rfl := hR.unique s.isLeast_reachable
  simp only [Set.mem_ofPred_eq, ← exists_faulty_iff]
  refine ⟨⟨?_, ?_⟩, fun f hf => ?_, fun cap hcap => ?_⟩
  · rintro ⟨f, hf⟩
    obtain ⟨p, hp, hfault⟩ := faulty_of_capacity? hf
    exact ⟨p, (surveyed_iff_reachable hs).1 hp, f, hfault⟩
  · rintro ⟨p, hp, f, hfault⟩
    cases hcap : s.capacity? with
    | error g => exact ⟨g, rfl⟩
    | ok cap =>
      -- what is measured has no faulty passage
      have hsound := (measured_of_capacity? hcap).sound p f ((surveyed_iff_reachable hs).2 hp)
      exact absurd hfault hsound
  · obtain ⟨p, hp, hfault⟩ := faulty_of_capacity? hf
    exact ⟨p, (surveyed_iff_reachable hs).1 hp, hfault.blames⟩
  · have hm := measured_of_capacity? hcap
    exact ⟨hm.encard_openings hs, hm.isGreatest_choices hs⟩

/-- The prompt and its choice are the two openings of the fork. -/
theorem capacity?_meaning_fork : Compiler.fork.story.capacity? = .ok ⟨2, 1⟩ ∧
    (Compiler.fork.story.openings {p | Compiler.fork.story.Reachable p}).encard = 2 := by
  obtain ⟨-, -, hok⟩ := capacity?_meaning (s := Compiler.fork.story) (by decide)
    (isLeast_reachable _)
  exact ⟨Compiler.capacity_fork, (hok _ Compiler.capacity_fork).1⟩

end Story

end Stagecraft
