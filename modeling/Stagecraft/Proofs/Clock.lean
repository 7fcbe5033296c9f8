import Stagecraft.Proofs.Controls
import Stagecraft.Proofs.Timing
import Stagecraft.Proofs.Unsigned

/-!
# The numbers of a compiled story

The numbers that a compilation writes into a branch are the times of its beats, the seconds of
what is said in it, and its length. They are read as free text from the tags and added up, so not
every one of them needs to be a plain decimal.

* `Decimal.HoldsPlain`: a field that holds a plain decimal.
* `Trigger.HasNumber`, `Compiler.HasNumber`: the numbers of a trigger and of a branch;
  `Beat.hasNumber_trigger`, `Compiler.hasNumber_of_run`.
* `Story.Unrolls.starts`, `Story.Unrolls.finishes`: what one beat preserves along a timeline, from
  its start on and from its end back.
* `Compiler.plain_iff_of_run`: **which branches show plain decimals only**.
-/

namespace Stagecraft

open Stage Decimal

/-- **A field holds a plain decimal**, as a text. -/
def Decimal.HoldsPlain (field : Option Json) : Prop :=
  ∃ text, field = some (.str text) ∧ IsPlain text.toList

theorem Decimal.holdsPlain_format (x : Float) :
    HoldsPlain (some (.str (Decimal.format x))) ↔ Usable x := by
  have hwrite : (Decimal.format x).toList = plain.write x := String.toList_ofList
  rw [← isPlain_write_iff, ← hwrite]
  constructor
  · rintro ⟨_, ⟨⟩, h⟩
    exact h
  · exact fun h => ⟨_, rfl, h⟩

/-! ## The numbers of a trigger -/

/-- The object of an action that sets for how long a bubble is shown. -/
def Stage.Action.SetsLifetime (v : Json) : Prop :=
  v.field? "receiverTargetName" = some (.str "bubbleLifetime")

/-- **The numbers of a trigger**: its times, and the lifetimes that its generated actions set. -/
inductive Trigger.HasNumber (t : Trigger) : Option Json → Prop where
  | startTime : HasNumber t (t.get? "startTime")
  | endTime : HasNumber t (t.get? "endTime")
  | lifetime {v} : v ∈ t.generated → Action.SetsLifetime v → HasNumber t (v.field? "floatValue")

namespace Beat

variable {b : Beat} {slots : Nat} {branchOf : String → String} {first : Bool} {old : Trigger}
  {a : Action} {n : Option Json} {x : Float}

/-- Somebody says or thinks something in the beat. -/
def Speaks (b : Beat) : Prop := ∃ target bubble, b.directive.cue = .speak target bubble

/-- **The numbers of a beat**: its times, and the seconds of what is said in it. -/
inductive HasNumber (b : Beat) : Float → Prop where
  | start : HasNumber b b.start
  | finish : HasNumber b b.finish
  | seconds : b.Speaks → HasNumber b b.directive.duration

/-- The end of the beat is usable, and the seconds of what is said in it. -/
def Usable (b : Beat) : Prop :=
  Decimal.Usable b.finish ∧ (b.Speaks → Decimal.Usable b.directive.duration)

theorem setsLifetime_toJson : Action.SetsLifetime a.toJson ↔ a.target = "bubbleLifetime" := by
  have htarget : a.toJson.field? "receiverTargetName" = some (.str a.target) := rfl
  rw [Action.SetsLifetime, htarget, Option.some.injEq, Json.str.injEq]

theorem not_setsLifetime_toggle (i : String) (on : Bool) :
    ¬Action.SetsLifetime (Action.toggle i on).toJson := by
  rw [setsLifetime_toJson]
  show "on" ≠ "bubbleLifetime"
  decide

/-- What leads on from a beat sets no lifetime. -/
theorem not_setsLifetime_of_mem_onward (h : a ∈ b.onward slots branchOf) :
    ¬Action.SetsLifetime a.toJson := by
  unfold onward at h
  split at h
  · rw [List.mem_singleton.1 h]
    exact not_setsLifetime_toggle _ _
  split at h
  · rcases List.mem_append.1 h with h | h
    · obtain ⟨i, -, rfl⟩ := List.mem_map.1 h
      exact not_setsLifetime_toggle _ _
    rcases List.mem_cons.1 h with rfl | h
    · exact not_setsLifetime_toggle _ _
    · obtain ⟨i, l, -, h⟩ := mem_buttons h
      simp only [Action.choiceButton, List.mem_cons, List.not_mem_nil, or_false] at h
      rw [setsLifetime_toJson]
      rcases h with rfl | rfl | rfl | rfl <;> simp [Action.named, Action.toggle]
  · cases h

/-- **One action of a beat sets a lifetime**, if somebody speaks in it. -/
theorem setsLifetime_iff :
    a ∈ lead first ++ b.tail slots branchOf ∧ Action.SetsLifetime a.toJson ↔
      ∃ target bubble, b.directive.cue = .speak target bubble ∧
        a = .lifetime target bubble b.directive.duration := by
  constructor
  · rintro ⟨hmem, hset⟩
    rcases List.mem_append.1 hmem with hlead | htail
    · -- the only action in front hides the panel
      cases first with
      | false => cases hlead
      | true =>
        rw [List.mem_singleton.1 hlead] at hset
        exact absurd hset (not_setsLifetime_toggle _ _)
    rcases List.mem_append.1 htail with hspeech | honward
    · unfold speech at hspeech
      split at hspeech
      · cases hspeech
      · rename_i target bubble hcue
        simp only [List.mem_cons, List.not_mem_nil, or_false] at hspeech
        -- of the two actions of a line only the first one sets a lifetime
        rcases hspeech with rfl | rfl
        · exact ⟨target, bubble, hcue, rfl⟩
        · simp [setsLifetime_toJson, Action.line, Action.named] at hset
    · exact absurd hset (not_setsLifetime_of_mem_onward honward)
  · rintro ⟨target, bubble, hcue, rfl⟩
    refine ⟨List.mem_append_right _ (List.mem_append_left _ ?_), rfl⟩
    unfold speech
    rw [hcue]
    exact List.mem_cons_self

/-- **The trigger of a beat** has the numbers of the beat. -/
theorem hasNumber_trigger :
    (b.trigger slots branchOf first old).HasNumber n ↔
      ∃ x, b.HasNumber x ∧ n = some (.str (Decimal.format x)) := by
  -- both times are set over those of the old trigger
  have hstart : (b.trigger slots branchOf first old).get? "startTime" =
      some (.str (Decimal.format b.start)) := by
    unfold trigger
    rw [Fields.get?_set_of_ne _ _ (by decide), Fields.get?_set_of_ne _ _ (by decide),
      Fields.get?_set_self]
  have hend : (b.trigger slots branchOf first old).get? "endTime" =
      some (.str (Decimal.format b.finish)) := by
    unfold trigger
    rw [Fields.get?_set_of_ne _ _ (by decide), Fields.get?_set_self]
  have hvalue : ∀ target bubble, (Action.lifetime target bubble b.directive.duration).toJson.field?
      "floatValue" = some (.str (Decimal.format b.directive.duration)) := fun _ _ => rfl
  constructor
  · rintro (_ | _ | ⟨hv, hset⟩)
    · exact ⟨_, .start, hstart⟩
    · exact ⟨_, .finish, hend⟩
    · rw [generated_trigger, List.mem_map] at hv
      obtain ⟨a, ha, rfl⟩ := hv
      obtain ⟨target, bubble, hcue, rfl⟩ := setsLifetime_iff.1 ⟨ha, hset⟩
      exact ⟨_, .seconds ⟨target, bubble, hcue⟩, hvalue target bubble⟩
  · rintro ⟨x, hx, rfl⟩
    cases hx with
    | start =>
      rw [← hstart]
      exact .startTime
    | finish =>
      rw [← hend]
      exact .endTime
    | seconds hspeaks =>
      obtain ⟨target, bubble, hcue⟩ := hspeaks
      have hmem : .lifetime target bubble b.directive.duration ∈ lead first ++ b.tail slots branchOf :=
        (setsLifetime_iff.2 ⟨target, bubble, hcue, rfl⟩).1
      rw [← hvalue target bubble]
      refine .lifetime ?_ rfl
      rw [generated_trigger]
      exact List.mem_map_of_mem hmem

end Beat

/-! ## The seconds of a directive -/

namespace Directive

variable {tags : List String} {tag : String} {d : Directive}

/-- **The tag whose seconds are read**: the one behind the head of a pause, or behind the verb of
a line that is not at a prompt. -/
def secondsTag? (tags : List String) : Option String :=
  match tags with
  | [] => none
  | first :: rest =>
    if Text.isWord "delay" first then rest.head?
    else if tags.getLast? = some promptTag then none
    else rest.tail.head?

/-- The seconds are those of that tag, or the default; at a prompt only those of a pause are. -/
theorem seconds_cases (h : ofTags? tags = .ok d) :
    (secondsTag? tags = none ∧ d.duration = 2.0) ∨
      ∃ tag, secondsTag? tags = some tag ∧ Seconds tag d.duration ∧
        (d.prompt = true → d.cue = .delay) := by
  cases tags with
  | nil => cases h
  | cons first rest =>
    simp only [ofTags?] at h
    simp only [secondsTag?]
    split at h
    · rename_i hpause
      rw [if_pos hpause]
      -- a pause takes its seconds from the tag behind it, at a prompt too
      split at h
      · cases h
        exact .inl ⟨rfl, rfl⟩
      · obtain ⟨x, hx, rfl⟩ := map_eq_ok h
        exact .inr ⟨_, rfl, duration?_eq_ok_iff.1 hx, fun _ => rfl⟩
    rename_i hpause
    rw [if_neg hpause]
    -- a line names its verb behind the speaker, and the seconds only behind that
    split at h
    · cases h
    split at h
    · cases h
    split at h
    · cases h
      refine .inl ⟨?_, rfl⟩
      split <;> rfl
    split at h
    · rename_i hlast
      rw [if_pos hlast]
      cases h
      exact .inl ⟨rfl, rfl⟩
    · rename_i hlast
      rw [if_neg hlast]
      obtain ⟨x, hx, rfl⟩ := map_eq_ok h
      exact .inr ⟨_, rfl, duration?_eq_ok_iff.1 hx, fun hp => absurd (of_decide_eq_true hp) hlast⟩

/-- **The seconds have no sign** unless the tag that they are read from is marked. -/
theorem unsigned_duration_iff (h : ofTags? tags = .ok d) : Unsigned d.duration ↔
    ∀ tag, secondsTag? tags = some tag → ¬Marked (Text.trim tag.toList) := by
  rcases seconds_cases h with ⟨hnone, hd⟩ | ⟨tag, hsome, hd, -⟩
  · rw [hnone, hd]
    exact iff_of_true (by decide) fun _ htag => nomatch htag
  · rw [hsome]
    simp only [Option.some.injEq, forall_eq']
    exact unsigned_iff_of_read? hd

/-- Whoever speaks at a prompt does so for the default time. -/
theorem usable_of_prompt (h : ofTags? tags = .ok d) (hp : d.prompt = true) (hcue : d.cue ≠ .delay) :
    Usable d.duration := by
  rcases seconds_cases h with ⟨-, hd⟩ | ⟨-, -, -, hdelay⟩
  · rw [hd]
    decide
  · exact absurd (hdelay hp) hcue

end Directive

theorem Passage.ofTags?_of_directive? {p : Passage} {d : Directive} (h : p.directive? = .ok d) :
    Directive.ofTags? p.tags = .ok d := by
  unfold directive? at h
  split at h
  · cases h
    assumption
  · cases h

/-! ## Along a timeline -/

namespace Story.Unrolls

variable {s : Story} {fresh : List String} {p : Passage} {start : Float} {t : Timeline}
  {P : Float → Prop}

/-- Each beat of a timeline ends when its directive lets it. -/
theorem finish_eq (h : s.Unrolls fresh p start t) :
    ∀ b ∈ t.beats, b.finish = Timeline.finishOf b.directive b.start := by
  induction h with
  | malformed => exact fun _ hb => nomatch hb
  | stop | choice | unresolved | cycle =>
    intro b hb
    rw [List.mem_singleton.1 hb]
    rfl
  | onward _ _ _ _ ih =>
    intro b hb
    rcases List.mem_cons.1 hb with rfl | hb
    · rfl
    · exact ih b hb

/-- **From the start on**: what each beat hands on from its start to its end holds of all starts. -/
theorem starts (h : s.Unrolls fresh p start t) (h0 : P start)
    (hstep : ∀ b ∈ t.beats, P b.start → P b.finish) : ∀ b ∈ t.beats, P b.start := by
  induction h with
  | malformed => exact fun _ hb => nomatch hb
  | stop | choice | unresolved | cycle =>
    intro b hb
    rw [List.mem_singleton.1 hb]
    exact h0
  | onward _ _ _ _ ih =>
    have hnext := hstep _ List.mem_cons_self h0
    intro b hb
    rcases List.mem_cons.1 hb with rfl | hb
    · exact h0
    · exact ih hnext (fun b hb => hstep b (List.mem_cons_of_mem _ hb)) b hb

/-- The first beat starts with its timeline. -/
theorem start_eq (h : s.Unrolls fresh p start t) {b : Beat} {bs : List Beat}
    (hb : t.beats = b :: bs) : b.start = start := by
  cases h with
  | malformed => cases hb
  | stop | choice | unresolved | cycle | onward =>
    cases hb
    rfl

/-- **From the end back**: what each beat hands back from its end to its start holds of all ends. -/
theorem finishes (h : s.Unrolls fresh p start t) (hend : P t.total)
    (hstep : ∀ b ∈ t.beats, P b.finish → P b.start) : ∀ b ∈ t.beats, P b.finish := by
  induction h with
  | malformed => exact fun _ hb => nomatch hb
  | stop | choice | unresolved | cycle =>
    intro b hb
    rw [List.mem_singleton.1 hb]
    exact hend
  | @onward _ _ _ _ _ t _ _ _ hu ih =>
    -- the step holds of the rest too, and the rest has the same total
    have hback : ∀ b ∈ t.beats, P b.finish → P b.start := fun b hb =>
      hstep b (List.mem_cons_of_mem _ hb)
    cases hbs : t.beats with
    | nil =>
      intro b hb
      rw [Timeline.cons, hbs, List.mem_singleton] at hb
      rw [Timeline.total, Timeline.cons, hbs] at hend
      rw [hb]
      exact hend
    | cons b₁ bs =>
      have hne : t.beats ≠ [] := by
        rw [hbs]
        exact List.cons_ne_nil _ _
      have htotal : P t.total := by
        rwa [Timeline.total, Timeline.cons, List.getLast?_cons_of_ne_nil hne] at hend
      have hrest := ih htotal hback
      have hfirst : b₁ ∈ t.beats := by
        rw [hbs]
        exact List.mem_cons_self
      intro b hb
      rcases List.mem_cons.1 hb with rfl | hb
      · -- the first beat ends when the next one starts
        have hstart := hback b₁ hfirst (hrest b₁ hfirst)
        rwa [hu.start_eq hbs] at hstart
      · exact hrest b hb

end Story.Unrolls

/-! ## One beat -/

namespace Timeline

variable {d : Directive} {start : Float}

/-- A beat without a sign ends without one. -/
theorem unsigned_finishOf (h : Unsigned start) (hd : Unsigned d.duration) :
    Unsigned (finishOf d start) := by
  unfold finishOf
  split
  · exact unsigned_add h (by decide)
  · exact unsigned_add (unsigned_add h hd) (by decide)

/-- **A beat with a finite end** had a finite start, and took finite seconds unless it is a
prompt. -/
theorem usable_of_finishOf (h : Unsigned start) (hd : Unsigned d.duration)
    (hfinish : Usable (finishOf d start)) :
    Usable start ∧ (d.prompt = false → Usable d.duration) := by
  have hprompt : Unsigned promptGap := by decide
  have hline : Unsigned lineGap := by decide
  unfold finishOf at hfinish
  split at hfinish
  · rename_i hp
    refine ⟨(usable_of_add h hprompt hfinish).1, fun hnot => ?_⟩
    rw [hp] at hnot
    cases hnot
  · have hsum := (usable_of_add (unsigned_add h hd) hline hfinish).1
    have hparts := usable_of_add h hd hsum
    exact ⟨hparts.1, fun _ => hparts.2⟩

end Timeline

namespace Story.Unrolls

variable {s : Story} {fresh : List String} {p : Passage} {t : Timeline}
  (h : s.Unrolls fresh p Timeline.startTime t)
  (hd : ∀ b ∈ t.beats, Unsigned b.directive.duration)
include h hd

/-- **The times of a timeline** have no sign if its seconds have none. -/
theorem unsigned_start : ∀ b ∈ t.beats, Unsigned b.start := by
  refine h.starts (by decide) fun b hb hstart => ?_
  rw [h.finish_eq b hb]
  exact Timeline.unsigned_finishOf hstart (hd b hb)

theorem unsigned_finish : ∀ b ∈ t.beats, Unsigned b.finish := by
  intro b hb
  rw [h.finish_eq b hb]
  exact Timeline.unsigned_finishOf (h.unsigned_start hd b hb) (hd b hb)

/-- **A timeline with a finite total** has finite times and seconds all along. -/
theorem usable (htags : ∀ b ∈ t.beats, b.passage.directive? = .ok b.directive)
    (htotal : Usable t.total) : ∀ b ∈ t.beats, b.Usable := by
  have hparts : ∀ b ∈ t.beats, Usable b.finish →
      Usable b.start ∧ (b.directive.prompt = false → Usable b.directive.duration) := by
    intro b hb hfinish
    rw [h.finish_eq b hb] at hfinish
    exact Timeline.usable_of_finishOf (h.unsigned_start hd b hb) (hd b hb) hfinish
  have hfinish := h.finishes htotal fun b hb hfinish => (hparts b hb hfinish).1
  intro b hb
  refine ⟨hfinish b hb, fun hspeaks => ?_⟩
  cases hp : b.directive.prompt with
  | false => exact (hparts b hb (hfinish b hb)).2 hp
  | true =>
    obtain ⟨target, bubble, hcue⟩ := hspeaks
    refine Directive.usable_of_prompt (Passage.ofTags?_of_directive? (htags b hb)) hp ?_
    rw [hcue]
    exact nofun

end Story.Unrolls

/-! ## The numbers of a branch -/

namespace Timeline

variable {t : Timeline}

/-- The total is an end, if there is a beat at all. -/
theorem exists_finish (h : t.beats ≠ []) : ∃ b ∈ t.beats, b.finish = t.total := by
  refine ⟨t.beats.getLast h, List.getLast_mem h, ?_⟩
  rw [total, List.getLast?_eq_some_getLast h]
  rfl

end Timeline

namespace Compiler

variable {c : Compiler} {s : Scene} {out : Compiled} {name b : String} {n : Option Json}

/-- **The numbers of a branch** in a scene: its length, and those of its triggers. -/
inductive HasNumber (s : Scene) (branch : String) : Option Json → Prop where
  | length : HasNumber s branch (length? s branch)
  | trigger {vs t n} : triggers? s branch = some (.arr vs) → .obj t ∈ vs → Trigger.HasNumber t n →
      HasNumber s branch n

/-- The timeline of a branch of a compiled story unrolls to its end. -/
theorem unrolls_of_run (h : (c.run s).2 = .ok out) (hn : name ∈ c.story.heads) :
    ∃ fresh p, c.story.Unrolls fresh p Timeline.startTime (c.timelineOf name) ∧
      (c.timelineOf name).beats ≠ [] := by
  obtain ⟨hu, -⟩ := run_ok_iff.1 ⟨out, h⟩
  obtain ⟨-, p, hp, -⟩ := Story.played_of_mem_heads hn
  have hend := hu.ending_ne hn hp
  have hunrolls := c.story.unrolls_timeline p
  rw [timelineOf_of_opening? hp]
  exact ⟨_, p, hunrolls, hunrolls.beats_ne_nil hend⟩

/-- **The numbers of a branch** behind a compilation are those of its beats. -/
theorem hasNumber_of_run (h : (c.run s).2 = .ok out) (hn : name ∈ c.story.heads) :
    HasNumber (c.run s).1 (branchOf c.story.heads name) n ↔
      ∃ e ∈ (c.timelineOf name).beats, ∃ x, e.HasNumber x ∧
        n = some (.str (Decimal.format x)) := by
  have hlength := length_of_run h hn
  have htriggers := triggers_of_run h hn
  constructor
  · rintro (_ | ⟨hvs, ht, hnum⟩)
    · -- the length is the end of the last beat
      obtain ⟨-, -, -, hne⟩ := unrolls_of_run h hn
      obtain ⟨e, he, hfinish⟩ := Timeline.exists_finish hne
      exact ⟨e, he, _, .finish, by rw [hlength, hfinish]⟩
    · -- a number of a trigger is one of the beat that it was made of
      rw [htriggers, Option.some.injEq, Json.arr.injEq] at hvs
      rw [← hvs] at ht
      obtain ⟨t, ht, ⟨⟩⟩ := List.mem_map.1 ht
      obtain ⟨i, hi⟩ := List.mem_iff_getElem?.1 ht
      rw [getElem?_triggers, Option.map_eq_some_iff] at hi
      obtain ⟨e, he, rfl⟩ := hi
      exact ⟨e, List.mem_of_getElem? he, Beat.hasNumber_trigger.1 hnum⟩
  · rintro ⟨e, he, x, hx, rfl⟩
    obtain ⟨i, hi⟩ := List.mem_iff_getElem?.1 he
    have ht : (c.triggers c.story.heads (listed s (branchOf c.story.heads name)) true
      (c.timelineOf name).beats)[i]? = _ := getElem?_triggers _ true _ i
    rw [hi] at ht
    exact .trigger htriggers (List.mem_map_of_mem (List.mem_of_getElem? ht))
      (Beat.hasNumber_trigger.2 ⟨x, hx, rfl⟩)

/-- **Plain decimals only**: all numbers are usable if those are that the beats do not share. -/
theorem holdsPlain_iff (h : (c.run s).2 = .ok out) (hn : name ∈ c.story.heads) :
    (∀ n, HasNumber (c.run s).1 (branchOf c.story.heads name) n → HoldsPlain n) ↔
      ∀ e ∈ (c.timelineOf name).beats, e.Usable := by
  obtain ⟨fresh, p, hunrolls, -⟩ := unrolls_of_run h hn
  constructor
  · intro hplain e he
    have hnumber : ∀ x, e.HasNumber x → Decimal.Usable x := by
      intro x hx
      rw [← holdsPlain_format]
      exact hplain _ ((hasNumber_of_run h hn).2 ⟨e, he, x, hx, rfl⟩)
    exact ⟨hnumber _ .finish, fun hspeaks => hnumber _ (.seconds hspeaks)⟩
  · intro husable n hnumber
    obtain ⟨e, he, x, hx, rfl⟩ := (hasNumber_of_run h hn).1 hnumber
    rw [holdsPlain_format]
    -- a beat starts at zero or where an earlier one ends
    have hstart := hunrolls.starts (P := Decimal.Usable) (by decide) fun e he _ => (husable e he).1
    cases hx with
    | start => exact hstart e he
    | finish => exact (husable e he).1
    | seconds hspeaks => exact (husable e he).2 hspeaks

/-- **Which branches show plain decimals only.** A branch does if its beats end at usable times and
whoever speaks in them does so for a usable time. If no seconds are read from a tag with a minus
or without a number, no number of the branch has a sign, and all are plain decimals exactly if
their sum, the length of the branch, is finite. -/
theorem plain_iff_of_run (h : (c.run s).2 = .ok out) (hb : (name, b) ∈ out.branches) :
    ((∀ n, HasNumber (c.run s).1 b n → HoldsPlain n) ↔
      ∀ e ∈ (c.timelineOf name).beats, e.Usable) ∧
    ((∀ e ∈ (c.timelineOf name).beats, ∀ tag, Directive.secondsTag? e.passage.tags = some tag →
        ¬Marked (Text.trim tag.toList)) →
      (∀ n, HasNumber (c.run s).1 b n →
        ∃ x, Unsigned x ∧ n = some (.str (Decimal.format x))) ∧
      ((∀ n, HasNumber (c.run s).1 b n → HoldsPlain n) ↔ Usable (c.timelineOf name).total)) := by
  obtain ⟨hn, rfl⟩ := (mem_branches_iff h).1 hb
  obtain ⟨fresh, p, hunrolls, hne⟩ := unrolls_of_run h hn
  have htags : ∀ e ∈ (c.timelineOf name).beats, e.passage.directive? = .ok e.directive :=
    fun e he => (hunrolls.line_of_mem he).2
  refine ⟨holdsPlain_iff h hn, fun hmarked => ?_⟩
  have hd : ∀ e ∈ (c.timelineOf name).beats, Unsigned e.directive.duration := fun e he =>
    (Directive.unsigned_duration_iff (Passage.ofTags?_of_directive? (htags e he))).2 (hmarked e he)
  constructor
  · intro n hnumber
    obtain ⟨e, he, x, hx, rfl⟩ := (hasNumber_of_run h hn).1 hnumber
    refine ⟨x, ?_, rfl⟩
    cases hx with
    | start => exact hunrolls.unsigned_start hd e he
    | finish => exact hunrolls.unsigned_finish hd e he
    | seconds => exact hd e he
  · rw [holdsPlain_iff h hn]
    -- the last beat ends at the total
    refine ⟨fun husable => ?_, hunrolls.usable hd htags⟩
    obtain ⟨e, he, hfinish⟩ := Timeline.exists_finish hne
    rw [← hfinish]
    exact (husable e he).1

/-- A line of Ann, which states its seconds. -/
def answer : Passage := ⟨"b", "", ["Ann", "says", "2.5"], []⟩

/-- The line behind a pause, which states its seconds, too. -/
def chat : Compiler where
  story := { start := ⟨"a", "", ["delay", "1.5"], [⟨"b", "b"⟩]⟩, others := [answer] }
  template := []
  slots := 0

theorem timelineOf_chat : chat.timelineOf "a" =
    ⟨[Story.beatOf chat.story.start ⟨.delay, 1.5, false⟩ 0.1,
      Story.beatOf answer ⟨.speak "Ann" .speech, 2.5, false⟩ (0.1 + 1.5 + 0.4)], .stop⟩ := by
  have hnames : chat.story.names = ["a", "b"] := rfl
  have hc : chat.story.Continues chat.story.start answer :=
    ⟨rfl, Link.ofRaw ⟨"b", "b"⟩, List.mem_singleton_self _, rfl⟩
  have hpause : chat.story.start.directive? = .ok ⟨.delay, 1.5, false⟩ := rfl
  have hline : answer.directive? = .ok ⟨.speak "Ann" .speech, 2.5, false⟩ := rfl
  rw [timelineOf_of_opening? (p := chat.story.start) rfl, Story.timeline, hnames,
    Story.timelineFrom_of_continues _ hpause hc (by decide),
    Story.timelineFrom_of_exits_nil _ hline rfl]
  rfl

theorem script_chat : chat.story.script = [.enter "a", .write "a"] := by
  have hnames : chat.story.names = ["a", "b"] := rfl
  have ha : chat.story.branch "a" = [.note (.enter "a"), .note (.write "a")] := by
    have htimeline := timelineOf_chat
    rw [timelineOf_of_opening? (p := chat.story.start) rfl] at htimeline
    rw [Story.branch_of_opening? rfl, htimeline]
  rw [Story.script, hnames, show chat.story.start.name = "a" from rfl]
  simp [walk, ha]

theorem run_chat : (chat.run (bare 1)).2 = .ok (chat.compiled ["a"]) :=
  run_of_script (by rw [Story.heads, script_chat]; rfl) script_chat (by cbv)

/-- Neither tag of the branch is marked, so all its numbers are plain. Its length is the sum of the
seconds and of what is put in front of the beats and behind them. -/
theorem plain_iff_of_run_chat :
    (chat.timelineOf "a").beats.map (fun e => Directive.secondsTag? e.passage.tags) =
        [some "1.5", some "2.5"] ∧
      HasNumber (chat.run (bare 1)).1 "Dialog-Branch#1" (some (.str "4.9")) ∧
      ∀ n, HasNumber (chat.run (bare 1)).1 "Dialog-Branch#1" n → HoldsPlain n := by
  have hmem : ("a", "Dialog-Branch#1") ∈ (chat.compiled ["a"]).branches := List.mem_cons_self
  have htags : (chat.timelineOf "a").beats.map (fun e => Directive.secondsTag? e.passage.tags) =
      [some "1.5", some "2.5"] := by
    rw [timelineOf_chat]
    rfl
  have htotal : (chat.timelineOf "a").total = 0.1 + 1.5 + 0.4 + 2.5 + 0.4 := by
    rw [timelineOf_chat]
    rfl
  have hlength : length? (chat.run (bare 1)).1 "Dialog-Branch#1" = some (.str "4.9") := by
    obtain ⟨hn, hb⟩ := (mem_branches_iff run_chat).1 hmem
    have hformat : Decimal.format (0.1 + 1.5 + 0.4 + 2.5 + 0.4) = "4.9" := rfl
    rw [hb, length_of_run run_chat hn, htotal, hformat]
  refine ⟨htags, hlength ▸ .length,
    ((plain_iff_of_run run_chat hmem).2 fun e he tag htag => ?_).2.2 ?_⟩
  · have hstated : some tag ∈ [some "1.5", some "2.5"] := by
      rw [← htags, ← htag]
      exact List.mem_map_of_mem he
    simp only [List.mem_cons, Option.some.injEq, List.not_mem_nil, or_false] at hstated
    rcases hstated with rfl | rfl
    · exact (unsigned_iff_of_read? (x := 1.5) rfl).1 (by decide)
    · exact (unsigned_iff_of_read? (x := 2.5) rfl).1 (by decide)
  · rw [htotal]
    decide

end Compiler

end Stagecraft
