import Stagecraft.Proofs.Line
import Stagecraft.Proofs.Walk
import Stagecraft.Story.Script

/-!
# The heads of branches and the faults of a script

The script of a story enters a branch for each head it comes to. A script without
a fault plays every passage that plays may lead to, so it knows all heads.

* `nodup_heads`, `heads_of_mem`: the heads are distinct, and each is one.
* `fault_of_script`: a fault of a script is that of a passage that plays, or a cycle.
* `Unbroken.mem_heads_iff`, `Unbroken.exists_beat`: a script without a fault has
  all heads, and each passage that plays is a beat of a head's timeline.
* `Unbroken.not_faulty`, `Unbroken.not_cycle`: nothing that plays is faulty or in a cycle.
* `Unbroken.target_mem_heads`: a link of a prompt that plays leads to a head.
-/

namespace Stagecraft

open Relation

namespace Story

variable {s : Story} {p q : Passage} {n m : String}

/-! ## The steps around one branch -/

theorem branch_of_opening? (h : s.opening? n = some p) :
    s.branch n = .note (.enter n) :: match (s.timeline p).ending with
      | .stop => [.note (.write n)]
      | .choice r => s.routes r ++ [.note (.write n)]
      | .broken f => [.note (.fails f)] := by
  cases ht : (s.timeline p).ending <;> simp [branch, h, ht]

theorem mem_routes_iff {e : Errand Step} :
    e ∈ s.routes p ↔ (∃ l ∈ p.exits, ∃ q, s.follow? p l = .ok q ∧ e = .go q.name) ∨
      ∃ l ∈ p.exits, ∃ f, s.follow? p l = .error f ∧ e = .note (.fails f) := by
  simp only [routes, List.mem_map]
  constructor
  · rintro ⟨l, hl, rfl⟩
    cases hq : s.follow? p l with
    | ok q => exact .inl ⟨l, hl, q, hq, rfl⟩
    | error f => exact .inr ⟨l, hl, f, hq, rfl⟩
  · rintro (⟨l, hl, q, hq, rfl⟩ | ⟨l, hl, f, hf, rfl⟩)
    · exact ⟨l, hl, by rw [hq]⟩
    · exact ⟨l, hl, by rw [hf]⟩

/-- A branch leads to the choices at the prompt where its timeline ends. -/
theorem go_mem_branch_iff (h : s.opening? n = some p) :
    .go m ∈ s.branch n ↔ ∃ r q, (s.timeline p).ending = .choice r ∧ s.Offers r q ∧ q.name = m := by
  rw [branch_of_opening? h]
  cases ht : (s.timeline p).ending with
  | stop => simp
  | broken f => simp
  | choice r =>
    have hr := ((unrolls_timeline p).line_of_choice ht).2.1
    simp only [List.mem_cons, List.mem_append, mem_routes_iff]
    constructor
    · rintro (he | ((⟨l, hl, q, hq, he⟩ | ⟨l, hl, f, hf, he⟩) | he | he)) <;> cases he
      exact ⟨r, q, rfl, offers_iff.2 ⟨hr, l, hl, hq⟩, rfl⟩
    · rintro ⟨_, q, ⟨⟩, ho, rfl⟩
      obtain ⟨-, l, hl, hq⟩ := offers_iff.1 ho
      exact .inr (.inl (.inl ⟨l, hl, q, hq, rfl⟩))

theorem fails_mem_branch_iff (h : s.opening? n = some p) {f : Fault} :
    .note (.fails f) ∈ s.branch n ↔ (s.timeline p).ending = .broken f ∨
      ∃ r, (s.timeline p).ending = .choice r ∧ ∃ l ∈ r.exits, s.follow? r l = .error f := by
  rw [branch_of_opening? h]
  cases ht : (s.timeline p).ending with
  | stop => simp
  | broken g => simp [eq_comm]
  | choice r =>
    simp only [List.mem_cons, List.mem_append, mem_routes_iff]
    constructor
    · rintro (he | ((⟨l, hl, q, hq, he⟩ | ⟨l, hl, g, hg, he⟩) | he | he)) <;> cases he
      exact .inr ⟨r, rfl, l, hl, hg⟩
    · rintro (he | ⟨_, ⟨⟩, l, hl, hf⟩)
      · cases he
      · exact .inr (.inl (.inr ⟨l, hl, f, hf, rfl⟩))

/-- Behind its first step a branch is not entered again. -/
theorem branch_announces (h : s.opening? n = some p) :
    ∃ rest, s.branch n = .note (.enter n) :: rest ∧ ∀ m, .note (.enter m) ∉ rest := by
  rw [branch_of_opening? h]
  refine ⟨_, rfl, fun m hm => ?_⟩
  split at hm
  · simp at hm
  · simp [mem_routes_iff] at hm
  · simp at hm

/-! ## The heads -/

/-- The names of a story are those that something is opened under. -/
theorem opening?_of_mem_names (h : n ∈ s.names) : ∃ p, s.opening? n = some p := by
  unfold names at h
  rw [List.mem_eraseDups, List.mem_cons, List.mem_map] at h
  by_cases hs : s.start.name = n
  · exact ⟨s.start, by simp [opening?, hs]⟩
  obtain ⟨p, hp, hn⟩ := h.resolve_left (Ne.symm hs)
  rw [opening?_of_ne hs]
  unfold find?
  cases hf : s.others.reverse.find? (·.name == n) with
  | some q => exact ⟨q, rfl⟩
  | none =>
    rw [List.find?_eq_none] at hf
    exact absurd hn (by simpa using hf p (List.mem_reverse.2 hp))

/-- **The heads are what the script visits**, in order. -/
theorem heads_eq_visited : s.heads = visited s.branch s.names [.go s.start.name] := by
  unfold heads script
  refine filterMap_walk (fun n hn => ?_) (by simp)
  obtain ⟨p, hp⟩ := opening?_of_mem_names hn
  obtain ⟨rest, hrest, hno⟩ := branch_announces hp
  refine ⟨_, rest, hrest, rfl, fun o ho => ?_⟩
  cases o with
  | enter m => exact absurd ho (hno m)
  | write m => rfl
  | fails f => rfl

/-- No branch has two numbers. -/
theorem nodup_heads : s.heads.Nodup := by
  rw [heads_eq_visited]
  exact nodup_visited _ s.nodup_names

theorem Played.line (hp : s.Played p) (hl : s.Line p q) : s.Played q := by
  induction hl with
  | refl => exact hp
  | tail _ hc ih => exact ih.tail (.inl hc)

/-- What the script gets to is a head that opens a passage that plays. -/
theorem played_of_reached (h : Reached s.branch [.go s.start.name] n) :
    s.Heads s.Played n ∧ ∃ p, s.opening? n = some p ∧ s.Played p := by
  induction h with
  | @here n hg =>
    have hn : n = s.start.name := by simpa using hg
    subst hn
    exact ⟨.inl rfl, s.start, opening?_start, .start⟩
  | there _ hg ih =>
    obtain ⟨-, p, hp, hplay⟩ := ih
    obtain ⟨r, q, ht, ho, rfl⟩ := (go_mem_branch_iff hp).1 hg
    have hr := hplay.line ((unrolls_timeline p).line_of_choice ht).1
    obtain ⟨q', hq⟩ := ho.leads.opening?
    exact ⟨.inr ⟨r, q, hr, ho, rfl⟩, q', hq, hr.tail (.inr ⟨q, ho, hq⟩)⟩

theorem mem_heads_iff_reached : n ∈ s.heads ↔ Reached s.branch [.go s.start.name] n := by
  rw [heads_eq_visited]
  refine mem_visited_iff fun n h => ?_
  obtain ⟨-, p, hp, -⟩ := played_of_reached h
  exact mem_names_of_opening? hp

/-- A head of the script is a head, and what it opens plays. -/
theorem played_of_mem_heads (h : n ∈ s.heads) :
    s.Heads s.Played n ∧ ∃ p, s.opening? n = some p ∧ s.Played p :=
  played_of_reached (mem_heads_iff_reached.1 h)

theorem start_mem_heads : s.start.name ∈ s.heads :=
  mem_heads_iff_reached.2 (.here (by simp))

/-! ## The script -/

theorem mem_script_iff {o : Step} :
    o ∈ s.script ↔ ∃ n ∈ s.heads, .note o ∈ s.branch n := by
  rw [heads_eq_visited]
  unfold script
  rw [mem_walk_iff]
  simp

theorem write_mem_branch (h : s.opening? n = some p) (ho : .note (.write m) ∈ s.branch n) : m = n := by
  rw [branch_of_opening? h] at ho
  cases ht : (s.timeline p).ending <;> simp_all [mem_routes_iff]

theorem enter_mem_script (h : n ∈ s.heads) : .enter n ∈ s.script := by
  obtain ⟨-, p, hp, -⟩ := played_of_mem_heads h
  refine mem_script_iff.2 ⟨n, h, ?_⟩
  rw [branch_of_opening? hp]
  exact List.mem_cons_self

theorem mem_heads_of_enter (h : .enter n ∈ s.script) : n ∈ s.heads := by
  obtain ⟨m, hm, ho⟩ := mem_script_iff.1 h
  obtain ⟨-, p, hp, -⟩ := played_of_mem_heads hm
  obtain ⟨rest, hb, hno⟩ := branch_announces hp
  rw [hb] at ho
  rcases List.mem_cons.1 ho with he | ho
  · cases he; exact hm
  · exact absurd ho (hno n)

/-- Only heads are written down. -/
theorem mem_heads_of_write (h : .write n ∈ s.script) : n ∈ s.heads := by
  obtain ⟨m, hm, ho⟩ := mem_script_iff.1 h
  obtain ⟨-, p, hp, -⟩ := played_of_mem_heads hm
  rw [write_mem_branch hp ho]; exact hm

/-- **The faults of a script** are those of passages that play, and cycles among these. -/
theorem fault_of_script {f : Fault} (h : .fails f ∈ s.script) :
    (∃ p, s.Played p ∧ s.Faulty p f) ∨
      ∃ o q r, s.Played o ∧ s.Line o q ∧ s.Continues q r ∧ r.name = o.name ∧
        f = .chainCycle q.name r.name := by
  obtain ⟨n, hn, hf⟩ := mem_script_iff.1 h
  obtain ⟨-, p, hp, hplay⟩ := played_of_mem_heads hn
  rcases (fails_mem_branch_iff hp).1 hf with ht | ⟨r, ht, l, hl, hf⟩
  · rcases broken_timeline ht with ⟨q, hq, hf⟩ | ⟨o, q, r, ho, hl, hc, hr⟩
    · exact .inl ⟨q, hplay.line hq, hf⟩
    · exact .inr ⟨o, q, r, hplay.line ho, hl, hc, hr⟩
  · obtain ⟨hline, hr, -⟩ := (unrolls_timeline p).line_of_choice ht
    refine .inl ⟨r, hplay.line hline, .inr ⟨l, ?_, hf⟩⟩
    rw [Passage.followed_of_isPrompt hr]; exact hl

/-! ## Scripts without a fault -/

/-- The script has no fault. -/
def Unbroken (s : Story) : Prop := ∀ f, .fails f ∉ s.script

namespace Unbroken

variable (h : s.Unbroken)
include h

theorem ending_ne (hn : n ∈ s.heads) (hp : s.opening? n = some p) (f : Fault) :
    (s.timeline p).ending ≠ .broken f :=
  fun ht => h f (mem_script_iff.2 ⟨n, hn, (fails_mem_branch_iff hp).2 (.inl ht)⟩)

/-- A script without a fault writes every head down. -/
theorem write_mem_script (hn : n ∈ s.heads) : .write n ∈ s.script := by
  obtain ⟨-, p, hp, -⟩ := played_of_mem_heads hn
  refine mem_script_iff.2 ⟨n, hn, ?_⟩
  rw [branch_of_opening? hp]
  cases ht : (s.timeline p).ending with
  | stop => simp
  | choice r => simp
  | broken f => exact absurd ht (h.ending_ne hn hp f)

/-- What a prompt on the line of a head offers is a head. -/
theorem mem_heads_of_offers {o : Passage} (hn : n ∈ s.heads) (ho : s.opening? n = some o)
    (hl : s.Line o p) (hq : s.Offers p q) : q.name ∈ s.heads := by
  have ht := (unrolls_timeline o).choice_of_line (h.ending_ne hn ho) hl hq.1 hq.exits_ne_nil
  have hgo := (go_mem_branch_iff ho).2 ⟨p, q, ht, hq, rfl⟩
  exact mem_heads_iff_reached.2 (.there (mem_heads_iff_reached.1 hn) hgo)

/-- Each passage that plays is on the line of a head. -/
theorem line_of_played (hp : s.Played p) :
    ∃ n ∈ s.heads, ∃ o, s.opening? n = some o ∧ s.Line o p := by
  induction hp with
  | refl => exact ⟨_, start_mem_heads, s.start, opening?_start, .refl⟩
  | tail _ hpq ih =>
    obtain ⟨n, hn, o, ho, hl⟩ := ih
    -- a passage that continues stays on the line, and one that is offered starts its own
    rcases hpq with hc | ⟨r, hr, hq⟩
    · exact ⟨n, hn, o, ho, hl.tail hc⟩
    · exact ⟨r.name, h.mem_heads_of_offers hn ho hl hr, _, hq, .refl⟩

/-- **Each passage that plays is a beat** of the timeline of a head. -/
theorem exists_beat (hp : s.Played p) :
    ∃ n ∈ s.heads, ∃ o, s.opening? n = some o ∧ ∃ b ∈ (s.timeline o).beats, b.passage = p := by
  obtain ⟨n, hn, o, ho, hl⟩ := h.line_of_played hp
  exact ⟨n, hn, o, ho, (unrolls_timeline o).mem_of_line (h.ending_ne hn ho) hl⟩

/-- **All heads are known.** -/
theorem mem_heads_iff : n ∈ s.heads ↔ s.Heads s.Played n := by
  refine ⟨fun hn => (played_of_mem_heads hn).1, ?_⟩
  rintro (rfl | ⟨p, q, hp, ho, rfl⟩)
  · exact start_mem_heads
  · obtain ⟨n, hn, o, hon, hl⟩ := h.line_of_played hp
    exact h.mem_heads_of_offers hn hon hl ho

/-- **Nothing that plays is faulty.** -/
theorem not_faulty (hp : s.Played p) (f : Fault) : ¬ s.Faulty p f := by
  obtain ⟨n, hn, o, ho, hl⟩ := h.line_of_played hp
  have hend := h.ending_ne hn ho
  cases hpr : p.isPrompt with
  | false => exact (unrolls_timeline o).not_faulty hend hl hpr f
  | true =>
    rintro (hd | ⟨l, hmem, hf⟩)
    · simp [Passage.isPrompt, hd] at hpr
    · -- a link of a prompt that leads nowhere is a fault of the script
      rw [Passage.followed_of_isPrompt hpr] at hmem
      have ht := (unrolls_timeline o).choice_of_line hend hl hpr (List.ne_nil_of_mem hmem)
      exact h f (mem_script_iff.2 ⟨n, hn, (fails_mem_branch_iff ho).2 (.inr ⟨p, ht, l, hmem, hf⟩)⟩)

/-- **A link of a prompt that plays** leads to a head. -/
theorem target_mem_heads (hp : s.Played p) (hpr : p.isPrompt = true) {l : Link} (hl : l ∈ p.exits) :
    l.target ∈ s.heads := by
  cases hq : s.follow? p l with
  | error f =>
    -- the link leads somewhere, or the script would have a fault
    have hl' : l ∈ p.followed := by
      rw [Passage.followed_of_isPrompt hpr]
      exact hl
    exact absurd (.inr ⟨l, hl', hq⟩) (h.not_faulty hp f)
  | ok q =>
    rw [h.mem_heads_iff, ← follow?_name hq]
    exact .inr ⟨p, q, hp, offers_iff.2 ⟨hpr, l, hl, hq⟩, rfl⟩

/-- **Nothing that plays is in a cycle.** -/
theorem not_cycle (hp : s.Played p) : ¬ TransGen s.Continues p p := by
  obtain ⟨n, hn, o, ho, hl⟩ := h.line_of_played hp
  exact (unrolls_timeline o).not_cycle (h.ending_ne hn ho) hl

end Unbroken

end Story

end Stagecraft
