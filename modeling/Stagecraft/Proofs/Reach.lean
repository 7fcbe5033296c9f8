import Mathlib.Logic.Relation
import Stagecraft.Story.Basic

/-!
# Where a story leads

From a prompt all links are followed, from any other passage the first. A name
that a link of a prompt has is opened as a branch, so the start passage is found
under its own name there, whatever else has this name; a line that continues
finds the last further passage of the name instead.

* `Story.Leads`, `Story.Continues`, `Story.Offers`: one followed link.
* `Story.Reachable`: the passages behind followed links, as a reader sees them.
* `Story.Surveyed`, `Story.Played`: those that the count of needs and the
  timelines get to.
* `surveyed_iff_reachable`, `played_iff_reachable`: all three are the same if no
  further passage hides the start.
* `shadow_of_played`: without that, only a passage that hides the start leads to
  a passage that plays and is not surveyed.
* `Played.reachable`: what plays is reachable in any case.
-/

namespace Stagecraft

open Relation

namespace Passage

/-- The tags are those of a prompt. -/
def isPrompt (p : Passage) : Bool :=
  match p.directive? with
  | .ok d => d.prompt
  | .error _ => false

/-- The links that are followed: all of a prompt, else the first. -/
def followed (p : Passage) : List Link :=
  match p.directive? with
  | .ok d => if d.prompt then p.exits else p.exits.take 1
  | .error _ => []

variable {p : Passage}

theorem isPrompt_of_ok {d : Directive} (h : p.directive? = .ok d) : p.isPrompt = d.prompt := by
  simp [isPrompt, h]

theorem followed_of_ok {d : Directive} (h : p.directive? = .ok d) :
    p.followed = if d.prompt then p.exits else p.exits.take 1 := by
  simp [followed, h]

theorem followed_of_isPrompt (h : p.isPrompt = true) : p.followed = p.exits := by
  unfold isPrompt at h
  unfold followed
  split at h <;> simp_all

end Passage

namespace Story

variable (s : Story)

/-- A followed link of `p` leads to `q`. -/
def Leads (p q : Passage) : Prop := ∃ l ∈ p.followed, s.follow? p l = .ok q

/-- `p` is no prompt, and its first link leads to `q`. -/
def Continues (p q : Passage) : Prop := p.isPrompt = false ∧ s.Leads p q

/-- `p` is a prompt with a link to `q`. -/
def Offers (p q : Passage) : Prop := p.isPrompt = true ∧ s.Leads p q

/-- The tags of `p` are malformed, or a followed link leads nowhere. -/
def Faulty (p : Passage) (f : Fault) : Prop :=
  p.directive? = .error f ∨ ∃ l ∈ p.followed, s.follow? p l = .error f

/-- Followed links lead from the start to `p`. -/
def Reachable (p : Passage) : Prop := ReflTransGen s.Leads s.start p

/-- The count of needs goes on from `p` to `q`, which it opens by name. -/
def Surveys (p q : Passage) : Prop := ∃ r, s.Leads p r ∧ s.opening? r.name = some q

/-- The count of needs gets to `p`. -/
def Surveyed (p : Passage) : Prop := ReflTransGen s.Surveys s.start p

/-- After `p` there plays `q`: in the same timeline, or at the head of a branch, which is
opened by name. -/
def Plays (p q : Passage) : Prop :=
  s.Continues p q ∨ ∃ r, s.Offers p r ∧ s.opening? r.name = some q

/-- Some timeline plays `p`. -/
def Played (p : Passage) : Prop := ReflTransGen s.Plays s.start p

/-- The name heads a branch: it is that of the start, or of a choice at a prompt that `P`
holds of. -/
def Heads (P : Passage → Prop) (name : String) : Prop :=
  name = s.start.name ∨ ∃ p q, P p ∧ s.Offers p q ∧ q.name = name

variable {s} {p q : Passage} {name : String}

theorem follow?_eq_ok_iff {l : Link} : s.follow? p l = .ok q ↔ s.find? l.target = some q := by
  unfold follow?
  cases s.find? l.target <;> simp

theorem Leads.find? (h : s.Leads p q) : s.find? q.name = some q := by
  obtain ⟨l, -, hl⟩ := h
  rw [follow?_name hl]
  exact follow?_eq_ok_iff.1 hl

theorem leads_iff : s.Leads p q ↔ s.Continues p q ∨ s.Offers p q := by
  unfold Continues Offers
  cases p.isPrompt <;> simp

theorem Continues.leads (h : s.Continues p q) : s.Leads p q := h.2

theorem Offers.leads (h : s.Offers p q) : s.Leads p q := h.2

theorem offers_iff :
    s.Offers p q ↔ p.isPrompt = true ∧ ∃ l ∈ p.exits, s.follow? p l = .ok q :=
  and_congr_right fun h => by rw [Leads, Passage.followed_of_isPrompt h]

theorem Offers.exits_ne_nil (h : s.Offers p q) : p.exits ≠ [] := by
  obtain ⟨-, l, hl, -⟩ := offers_iff.1 h
  exact List.ne_nil_of_mem hl

theorem opening?_start : s.opening? s.start.name = some s.start := by simp [opening?]

theorem opening?_name (h : s.opening? name = some p) : p.name = name := by
  unfold opening? at h
  split at h
  · cases h; assumption
  · exact find?_name h

theorem opening?_of_ne (h : s.start.name ≠ name) : s.opening? name = s.find? name := by
  simp [opening?, h]

theorem nodup_eraseDups (as : List String) : as.eraseDups.Nodup := by
  -- the rest is filtered before it goes on, so its length counts and not its structure
  induction hk : as.length using Nat.strongRecOn generalizing as with
  | _ k ih =>
    cases as with
    | nil => simp
    | cons a as =>
      have hlen : (as.filter fun b => !b == a).length < k := by
        have := List.length_filter_le (fun b => !b == a) as
        simp only [List.length_cons] at hk
        omega
      rw [List.eraseDups_cons, List.nodup_cons, List.mem_eraseDups]
      exact ⟨by simp, ih _ hlen _ rfl⟩

theorem nodup_names (s : Story) : s.names.Nodup := nodup_eraseDups _

theorem mem_names_of_opening? (h : s.opening? name = some p) : name ∈ s.names := by
  unfold names
  rw [List.mem_eraseDups]
  by_cases hs : s.start.name = name
  · rw [hs]; exact List.mem_cons_self
  rw [opening?_of_ne hs] at h
  unfold find? at h
  split at h
  · rename_i q hq
    cases h
    have hmem := List.mem_reverse.1 (List.mem_of_find?_eq_some hq)
    have hname : p.name = name := by simpa using List.find?_some hq
    rw [← hname]
    exact List.mem_cons_of_mem _ (List.mem_map_of_mem hmem)
  · simp [hs] at h

/-- Whatever a link leads to, something is opened under its name. -/
theorem Leads.opening? (h : s.Leads p q) : ∃ r, s.opening? q.name = some r := by
  by_cases hs : s.start.name = q.name
  · exact ⟨s.start, by rw [← hs]; exact opening?_start⟩
  · exact ⟨q, by rw [opening?_of_ne hs]; exact h.find?⟩

theorem Surveyed.opening? (h : s.Surveyed p) : s.opening? p.name = some p := by
  cases h with
  | refl => exact opening?_start
  | tail _ hq =>
    obtain ⟨r, -, hr⟩ := hq
    rw [opening?_name hr]; exact hr

theorem Surveyed.step {r : Passage} (h : s.Surveyed p) (hl : s.Leads p q)
    (hr : s.opening? q.name = some r) : s.Surveyed r := h.tail ⟨q, hl, hr⟩

theorem Played.start : s.Played s.start := .refl

/-- **What is surveyed is played.** -/
theorem Surveyed.played (h : s.Surveyed p) : s.Played p := by
  induction h with
  | refl => exact .start
  | tail _ hq ih =>
    obtain ⟨r, hl, hr⟩ := hq
    rcases leads_iff.1 hl with hc | ho
    · by_cases hs : s.start.name = r.name
      · -- the line goes on with another passage of the start's name, but the start plays anyway
        rw [← hs, opening?_start] at hr
        cases hr; exact .start
      · rw [opening?_of_ne hs, hl.find?] at hr
        cases hr; exact ih.tail (.inl hc)
    · exact ih.tail (.inr ⟨r, ho, hr⟩)

/-- What is opened under the name that a link leads to is reachable. -/
theorem Reachable.opens {r : Passage} (h : s.Reachable p) (hl : s.Leads p q)
    (hr : s.opening? q.name = some r) : s.Reachable r := by
  by_cases hs : s.start.name = q.name
  · rw [← hs, opening?_start] at hr
    cases hr
    exact .refl
  · rw [opening?_of_ne hs, hl.find?] at hr
    cases hr
    exact h.tail hl

/-- **What plays is reachable**, whatever hides the start. -/
theorem Played.reachable (h : s.Played p) : s.Reachable p := by
  induction h with
  | refl => exact .refl
  | tail _ hpq ih =>
    rcases hpq with hc | ⟨r, ho, hr⟩
    · exact ih.tail hc.leads
    · exact ih.opens ho.leads hr

theorem Heads.mono {P Q : Passage → Prop} (h : ∀ p, P p → Q p) (hn : s.Heads P name) :
    s.Heads Q name :=
  hn.imp id fun ⟨p, q, hp, ho⟩ => ⟨p, q, h p hp, ho⟩

/-- **A passage that plays unsurveyed** comes behind one that hides the start. -/
theorem shadow_of_played (h : s.Played p) (hn : ¬ s.Surveyed p) :
    ∃ q, s.find? s.start.name = some q ∧ q ≠ s.start ∧ ReflTransGen s.Plays q p := by
  induction h with
  | refl => exact absurd .refl hn
  | @tail p q _ hpq ih =>
    by_cases hp : s.Surveyed p
    · -- the first one that is not surveyed: a line goes on with it, under the start's name
      rcases hpq with hc | ⟨r, ho, hr⟩
      · obtain ⟨r, hr⟩ := hc.leads.opening?
        have hsr := hp.step hc.leads hr
        by_cases hs : s.start.name = q.name
        · refine ⟨q, by rw [hs]; exact hc.leads.find?, ?_, .refl⟩
          rintro rfl; exact hn .refl
        · rw [opening?_of_ne hs, hc.leads.find?] at hr
          cases hr; exact absurd hsr hn
      · exact absurd (hp.step ho.leads hr) hn
    · obtain ⟨q', h1, h2, h3⟩ := ih hp
      exact ⟨q', h1, h2, h3.tail hpq⟩

/-! ## Stories whose start is found under its name -/

theorem find?_start_of_unique (h : ∀ p ∈ s.others, p.name ≠ s.start.name) :
    s.find? s.start.name = some s.start := by
  unfold find?
  have hnone : s.others.reverse.find? (·.name == s.start.name) = none := by
    rw [List.find?_eq_none]
    intro p hp
    simpa using h p (List.mem_reverse.1 hp)
  simp [hnone]

variable (hs : s.find? s.start.name = some s.start)
include hs

theorem opening?_eq_find? (name : String) : s.opening? name = s.find? name := by
  unfold opening?
  split
  · rename_i h; rw [← h, hs]
  · rfl

theorem opening?_of_leads (h : s.Leads p q) : s.opening? q.name = some q := by
  rw [opening?_eq_find? hs]; exact h.find?

theorem surveys_iff : s.Surveys p q ↔ s.Leads p q := by
  constructor
  · rintro ⟨r, hl, hr⟩
    rw [opening?_of_leads hs hl] at hr
    cases hr; exact hl
  · intro h; exact ⟨q, h, opening?_of_leads hs h⟩

theorem plays_iff : s.Plays p q ↔ s.Leads p q := by
  rw [leads_iff]
  refine or_congr_right ⟨?_, fun h => ⟨q, h, opening?_of_leads hs h.leads⟩⟩
  rintro ⟨r, ho, hr⟩
  rw [opening?_of_leads hs ho.leads] at hr
  cases hr; exact ho

theorem surveyed_iff_reachable : s.Surveyed p ↔ s.Reachable p := by
  unfold Surveyed Reachable
  rw [show s.Surveys = s.Leads from funext₂ fun _ _ => propext (surveys_iff hs)]

theorem played_iff_reachable : s.Played p ↔ s.Reachable p := by
  unfold Played Reachable
  rw [show s.Plays = s.Leads from funext₂ fun _ _ => propext (plays_iff hs)]

theorem Reachable.opening? (h : s.Reachable p) : s.opening? p.name = some p :=
  ((surveyed_iff_reachable hs).2 h).opening?

end Story

end Stagecraft
