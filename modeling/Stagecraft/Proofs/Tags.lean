import Stagecraft.Proofs.Fallible
import Stagecraft.Story.Directive

/-!
# What tags state

A list of tags is read by position: its head says whether the passage is a pause or a line, and
the tag behind the head, if there is one, is for the seconds. The grammar of tags gives each part
a place of its own instead. The two differ at a prompt, where the seconds of a line are not read and
those of a pause are needed, for a target with the name of a pause, and on lists that are read
although they go on behind their last part.

* `Text.Cased`: a word in any letter case; `Text.isWord_iff`.
* `Directive.Listed`: the grammar of tags, with all its parts optional.
* `Directive.States`, `Directive.Surplus`: what tags state by position, and the lists that are read
  although they go on behind their last part.
* `Directive.ofTags?_eq_ok_iff`: **which tags are read, and as what**;
  `Directive.Surplus.exists_ofTags?`.
* `Directive.listed_ne_read`: where that is not the grammar.
-/

namespace Stagecraft

namespace Text

/-- The letter `l`, small or as a capital. A `k` has a second capital, the Kelvin sign. -/
def CaseOf (l c : Char) : Prop := c = l ∨ c = l.toUpper ∨ (l = 'k' ∧ c = kelvin)

/-- **A word in any letter case.** -/
def Cased (word s : String) : Prop := List.Forall₂ CaseOf word.toList s.toList

instance (l c : Char) : Decidable (CaseOf l c) := inferInstanceAs (Decidable (_ ∨ _))

instance (word s : String) : Decidable (Cased word s) :=
  inferInstanceAs (Decidable (List.Forall₂ _ _ _))

variable {l c : Char} {word s : String}

/-- A plain small letter. -/
def IsSmall (l : Char) : Prop := 'a' ≤ l ∧ l ≤ 'z'

instance (l : Char) : Decidable (IsSmall l) := inferInstanceAs (Decidable (_ ∧ _))

theorem toNat_toUpper (hl : IsSmall l) : l.toUpper.val.toNat = l.val.toNat - 32 := by
  have hle : l.val.toNat ≤ 122 := hl.2
  have hge : 97 ≤ l.val.toNat := hl.1
  have hdiff : ('A'.val - 'a'.val).toNat = 2 ^ 32 - 32 := by decide
  unfold Char.toUpper
  rw [dif_pos (show 'a'.val ≤ l.val ∧ l.val ≤ 'z'.val from hl)]
  show (l.val + ('A'.val - 'a'.val)).toNat = _
  rw [UInt32.toNat_add]
  omega

theorem toLower_eq_iff (hl : IsSmall l) : c.toLower = l ↔ c = l ∨ c = l.toUpper := by
  have hge : 97 ≤ l.val.toNat := hl.1
  have hle : l.val.toNat ≤ 122 := hl.2
  simp only [← Char.val_inj, ← UInt32.toNat_inj, toNat_toUpper hl]
  unfold Char.toLower
  split
  · rename_i h
    have hc : 65 ≤ c.val.toNat ∧ c.val.toNat ≤ 90 := h
    have hdiff : ('a'.val - 'A'.val).toNat = 32 := by decide
    show (c.val + ('a'.val - 'A'.val)).toNat = _ ↔ _
    rw [UInt32.toNat_add]
    omega
  · rename_i h
    have hc : ¬(65 ≤ c.val.toNat ∧ c.val.toNat ≤ 90) := h
    omega

theorem kelvin_ne (hl : IsSmall l) : kelvin ≠ l ∧ kelvin ≠ l.toUpper := by
  have hge : 97 ≤ l.val.toNat := hl.1
  have hle : l.val.toNat ≤ 122 := hl.2
  have hk : kelvin.val.toNat = 0x212a := by decide
  simp only [ne_eq, ← Char.val_inj, ← UInt32.toNat_inj, toNat_toUpper hl, hk]
  omega

/-- The characters whose small form is a letter. -/
theorem small_eq_iff (hl : IsSmall l) : small c = l ↔ CaseOf l c := by
  unfold small CaseOf
  split
  · rename_i h
    obtain ⟨hne, hne'⟩ := kelvin_ne hl
    rw [h]
    simp only [hne, hne', false_or, and_true, eq_comm]
  · rename_i h
    simp only [toLower_eq_iff hl, h, and_false, or_false]

/-- **Equality with a word of small letters**, letter by letter. -/
theorem isWord_iff (hword : ∀ l ∈ word.toList, IsSmall l) :
    isWord word s = true ↔ Cased word s := by
  unfold isWord Cased
  rw [beq_iff_eq]
  generalize word.toList = ls at hword
  generalize s.toList = cs
  induction ls generalizing cs with
  | nil => cases cs <;> simp
  | cons l ls ih =>
    obtain ⟨hl, hls⟩ := List.forall_mem_cons.1 hword
    cases cs with
    | nil => simp
    | cons c cs => rw [List.map_cons, List.cons.injEq, List.forall₂_cons, small_eq_iff hl, ih hls]

end Text

namespace Directive

open Text (Cased)

/-- A tag that is a number of seconds, with blanks at its ends. -/
def Seconds (tag : String) (x : Float) : Prop := Decimal.read? (Text.trim tag.toList) = some x

/-- The head of a pause. -/
def Pause (tag : String) : Prop := Cased "delay" tag

instance (tag : String) : Decidable (Pause tag) := inferInstanceAs (Decidable (Cased _ _))

/-- A verb and the bubble that it asks for. -/
inductive Verb : String → Bubble → Prop where
  | speech {tag : String} : Cased "says" tag → Verb tag .speech
  | thought {tag : String} : Cased "thinks" tag → Verb tag .thought

/-! ## The grammar -/

/-- The optional parts behind a head: the seconds, and the tag of a prompt. -/
inductive Parts : List String → Option Float → Bool → Prop where
  | none : Parts [] .none false
  | seconds {tag : String} {x : Float} : Seconds tag x → Parts [tag] (some x) false
  | prompt : Parts ["prompt"] .none true
  | both {tag : String} {x : Float} : Seconds tag x → Parts [tag, "prompt"] (some x) true

/-- **The grammar of tags**: a pause or a line of a target, with optional seconds and an optional
tag of a prompt, and what such a list states. A line at a prompt has the default length. -/
inductive Listed : List String → Directive → Prop where
  | pause {tag : String} {tags : List String} {x : Option Float} {prompt : Bool} :
      Pause tag → Parts tags x prompt → Listed (tag :: tags) ⟨.delay, x.getD 2.0, prompt⟩
  | line {target tag : String} {bubble : Bubble} {tags : List String} {x : Option Float}
      {prompt : Bool} : Verb tag bubble → Parts tags x prompt → Listed (target :: tag :: tags)
        ⟨.speak target bubble, if prompt then 2.0 else x.getD 2.0, prompt⟩

theorem Parts.exists_seconds {tag : String} {x : Option Float} {prompt : Bool}
    (h : Parts [tag, "prompt"] x prompt) : ∃ y, Seconds tag y := by
  cases h with
  | both hy => exact ⟨_, hy⟩

/-! ## Reading by position -/

/-- **What tags state by position.** A pause is a prompt only if it has seconds; a line at a prompt
has the default length, whatever stands for its seconds. A target is not the head of a pause. -/
inductive States : List String → Directive → Prop where
  | pause {tag : String} {tags : List String} {x : Option Float} {prompt : Bool} : Pause tag →
      Parts tags x prompt → tags ≠ ["prompt"] → States (tag :: tags) ⟨.delay, x.getD 2.0, prompt⟩
  | line {target tag : String} {bubble : Bubble} {tags : List String} {x : Option Float} :
      ¬Pause target → Verb tag bubble → Parts tags x false →
      States (target :: tag :: tags) ⟨.speak target bubble, x.getD 2.0, false⟩
  | prompt {target tag : String} {bubble : Bubble} : ¬Pause target → Verb tag bubble →
      States [target, tag, "prompt"] ⟨.speak target bubble, 2.0, true⟩
  | skipped {target tag seconds : String} {bubble : Bubble} : ¬Pause target → Verb tag bubble →
      States [target, tag, seconds, "prompt"] ⟨.speak target bubble, 2.0, true⟩

/-- **A list that is read although it goes on behind its last part**: the tag for the seconds is
followed by more than the tag of a prompt. It has a verb, if it is no pause, and seconds, if they
are read. -/
inductive Surplus : List String → Prop where
  | pause {tag seconds : String} {more : List String} {x : Float} : Pause tag → Seconds seconds x →
      more ≠ [] → more ≠ ["prompt"] → Surplus (tag :: seconds :: more)
  | line {target tag seconds : String} {bubble : Bubble} {more : List String} {x : Float} :
      ¬Pause target → Verb tag bubble → Seconds seconds x → more ≠ [] → more ≠ ["prompt"] →
      Surplus (target :: tag :: seconds :: more)
  | prompt {target tag seconds : String} {bubble : Bubble} {more : List String} :
      ¬Pause target → Verb tag bubble → more.getLast? = some "prompt" → more ≠ ["prompt"] →
      Surplus (target :: tag :: seconds :: more)

variable {tag target seconds : String} {tags more : List String} {d : Directive} {x : Float}

theorem isWord_delay : Text.isWord "delay" tag = true ↔ Pause tag :=
  Text.isWord_iff (by simp [Text.IsSmall])

theorem ofVerb?_eq_some_iff {bubble : Bubble} :
    Bubble.ofVerb? tag = some bubble ↔ Verb tag bubble := by
  have hspeech : Text.isWord "says" tag = true ↔ Cased "says" tag :=
    Text.isWord_iff (by simp [Text.IsSmall])
  have hthought : Text.isWord "thinks" tag = true ↔ Cased "thinks" tag :=
    Text.isWord_iff (by simp [Text.IsSmall])
  -- the two words differ in length
  have hboth : Cased "says" tag → ¬Cased "thinks" tag := fun h h' => by
    have hlength := h.length_eq.trans h'.length_eq.symm
    revert hlength
    decide
  unfold Bubble.ofVerb?
  constructor
  · intro h
    split at h
    · rename_i hs
      cases h
      exact .speech (hspeech.1 hs)
    · split at h
      · rename_i ht
        cases h
        exact .thought (hthought.1 ht)
      · cases h
  · rintro (h | h)
    · rw [if_pos (hspeech.2 h)]
    · rw [if_neg fun hs => hboth (hspeech.1 hs) h, if_pos (hthought.2 h)]

theorem duration?_eq_ok_iff : duration? tag = .ok x ↔ Seconds tag x := by
  unfold duration? Seconds
  cases Decimal.read? (Text.trim tag.toList) <;> simp

/-- The tag of a prompt is no number. -/
theorem not_seconds_prompt : ¬Seconds "prompt" x := by
  have hread : Decimal.read? (Text.trim "prompt".toList) = none := by rfl
  rw [Seconds, hread]
  exact fun h => nomatch h

theorem Pause.ne_prompt (h : Pause tag) : tag ≠ "prompt" := by
  rintro rfl
  exact absurd h (by decide)

theorem Verb.ne_prompt {bubble : Bubble} (h : Verb tag bubble) : tag ≠ "prompt" := by
  rintro rfl
  rcases h with h | h <;> exact absurd h (by decide)

/-! ## One head, and what is behind it -/

theorem ofTags?_pause (h : Pause tag) : ofTags? [tag] = .ok ⟨.delay, 2.0, false⟩ := by
  simp only [ofTags?, isWord_delay.2 h, if_true, List.getLast?_singleton, Option.some.injEq, promptTag,
    h.ne_prompt, decide_false, defaultDuration]

theorem ofTags?_pause_seconds (h : Pause tag) : ofTags? (tag :: seconds :: more) =
    (duration? seconds).map fun x => ⟨.delay, x, (seconds :: more).getLast? = some "prompt"⟩ := by
  simp only [ofTags?, isWord_delay.2 h, if_true, List.getLast?_cons_cons, promptTag]

theorem ofTags?_line {bubble : Bubble} (h : ¬Pause target) (hv : Verb tag bubble) :
    ofTags? [target, tag] = .ok ⟨.speak target bubble, 2.0, false⟩ := by
  simp only [ofTags?, mt isWord_delay.1 h, if_false, ofVerb?_eq_some_iff.2 hv, List.getLast?_cons_cons,
    List.getLast?_singleton, Option.some.injEq, promptTag, hv.ne_prompt, decide_false,
    defaultDuration, Bool.false_eq_true]

theorem ofTags?_line_prompt {bubble : Bubble} (h : ¬Pause target) (hv : Verb tag bubble)
    (hlast : (seconds :: more).getLast? = some "prompt") :
    ofTags? (target :: tag :: seconds :: more) = .ok ⟨.speak target bubble, 2.0, true⟩ := by
  simp only [ofTags?, mt isWord_delay.1 h, if_false, ofVerb?_eq_some_iff.2 hv, List.getLast?_cons_cons,
    hlast, promptTag, decide_true, if_true, defaultDuration, Bool.false_eq_true]

theorem ofTags?_line_seconds {bubble : Bubble} (h : ¬Pause target) (hv : Verb tag bubble)
    (hlast : (seconds :: more).getLast? ≠ some "prompt") :
    ofTags? (target :: tag :: seconds :: more) =
      (duration? seconds).map fun x => ⟨.speak target bubble, x, false⟩ := by
  simp only [ofTags?, mt isWord_delay.1 h, if_false, ofVerb?_eq_some_iff.2 hv, List.getLast?_cons_cons,
    hlast, promptTag, decide_false, Bool.false_eq_true]

/-- A list that is read without being a pause has a verb behind its target. -/
theorem exists_verb_of_ofTags? (h : ¬Pause target) (hd : ofTags? (target :: tags) = .ok d) :
    ∃ tag more bubble, tags = tag :: more ∧ Verb tag bubble := by
  simp only [ofTags?, mt isWord_delay.1 h, if_false, Bool.false_eq_true] at hd
  cases tags with
  | nil => cases hd
  | cons tag more =>
    cases hb : Bubble.ofVerb? tag with
    | none =>
      simp only [hb] at hd
      cases hd
    | some bubble => exact ⟨tag, more, bubble, rfl, ofVerb?_eq_some_iff.1 hb⟩

/-! ## What is read -/

/-- What tags state is read. -/
theorem States.ofTags? (h : States tags d) : ofTags? tags = .ok d := by
  cases h with
  | pause hp hparts hlone =>
    cases hparts with
    | none => exact ofTags?_pause hp
    | prompt => exact absurd rfl hlone
    | @seconds tag x hx =>
      -- seconds are no prompt, so the tag says one thing only
      have hlast : tag ≠ "prompt" := fun h => not_seconds_prompt (h ▸ hx)
      rw [ofTags?_pause_seconds hp, duration?_eq_ok_iff.2 hx]
      simp [Except.map, hlast]
    | both hx =>
      rw [ofTags?_pause_seconds hp, duration?_eq_ok_iff.2 hx]
      rfl
  | line hp hv hparts =>
    cases hparts with
    | none => exact ofTags?_line hp hv
    | @seconds tag x hx =>
      have hlast : [tag].getLast? ≠ some "prompt" := by
        rw [List.getLast?_singleton, ne_eq, Option.some.injEq]
        exact fun h => not_seconds_prompt (h ▸ hx)
      rw [ofTags?_line_seconds hp hv hlast, duration?_eq_ok_iff.2 hx]
      rfl
  | prompt hp hv => exact ofTags?_line_prompt hp hv rfl
  | skipped hp hv => exact ofTags?_line_prompt hp hv rfl

/-- A pause that is read, and does not go on behind its last part, states it. -/
theorem states_of_pause (hp : Pause tag) (hs : ¬Surplus (tag :: tags))
    (h : ofTags? (tag :: tags) = .ok d) : States (tag :: tags) d := by
  cases tags with
  | nil =>
    rw [ofTags?_pause hp] at h
    cases h
    exact .pause hp .none (List.cons_ne_nil _ _).symm
  | cons seconds more =>
    rw [ofTags?_pause_seconds hp] at h
    obtain ⟨x, hx, rfl⟩ := map_eq_ok h
    have hx := duration?_eq_ok_iff.1 hx
    have hne : seconds ≠ "prompt" := fun h => not_seconds_prompt (h ▸ hx)
    -- behind the seconds there is nothing, or the prompt; anything else is a surplus
    by_cases hnil : more = []
    · subst hnil
      have hstates := States.pause hp (.seconds hx) (fun h => hne (List.cons.inj h).1)
      simpa [hne] using hstates
    · by_cases hprompt : more = ["prompt"]
      · subst hprompt
        exact .pause hp (.both hx) (fun h => hne (List.cons.inj h).1)
      · exact absurd (.pause hp hx hnil hprompt) hs

/-- So does a line. -/
theorem states_of_line (hp : ¬Pause target) (hs : ¬Surplus (target :: tags))
    (h : ofTags? (target :: tags) = .ok d) : States (target :: tags) d := by
  obtain ⟨tag, behind, bubble, rfl, hv⟩ := exists_verb_of_ofTags? hp h
  cases behind with
  | nil =>
    rw [ofTags?_line hp hv] at h
    cases h
    exact .line hp hv .none
  | cons seconds more =>
    -- a prompt at the end keeps the tag behind the verb from being read
    by_cases hlast : (seconds :: more).getLast? = some "prompt"
    · rw [ofTags?_line_prompt hp hv hlast] at h
      cases h
      by_cases hnil : more = []
      · subst hnil
        obtain rfl : seconds = "prompt" := Option.some.inj hlast
        exact .prompt hp hv
      · by_cases hprompt : more = ["prompt"]
        · subst hprompt
          exact .skipped hp hv
        · rw [List.getLast?_cons_of_ne_nil hnil] at hlast
          exact absurd (.prompt hp hv hlast hprompt) hs
    · rw [ofTags?_line_seconds hp hv hlast] at h
      obtain ⟨x, hx, rfl⟩ := map_eq_ok h
      have hx := duration?_eq_ok_iff.1 hx
      by_cases hnil : more = []
      · subst hnil
        exact .line hp hv (.seconds hx)
      · by_cases hprompt : more = ["prompt"]
        · subst hprompt
          exact absurd rfl hlast
        · exact absurd (.line hp hv hx hnil hprompt) hs

/-- A surplus list is read: what goes on behind its last part does not count. -/
theorem Surplus.exists_ofTags? (h : Surplus tags) : ∃ d, Directive.ofTags? tags = .ok d := by
  cases h with
  | pause hp hx => exact ⟨_, by rw [ofTags?_pause_seconds hp, duration?_eq_ok_iff.2 hx]; rfl⟩
  | @line target tag seconds bubble more x hp hv hx =>
    by_cases hlast : (seconds :: more).getLast? = some "prompt"
    · exact ⟨_, ofTags?_line_prompt hp hv hlast⟩
    · exact ⟨_, by rw [ofTags?_line_seconds hp hv hlast, duration?_eq_ok_iff.2 hx]; rfl⟩
  | prompt hp hv hlast =>
    refine ⟨_, ofTags?_line_prompt hp hv ?_⟩
    rw [List.getLast?_cons, hlast]
    rfl

/-- **Which tags are read, and as what**: those that state something by position, as what they
state, if the list is no surplus. -/
theorem ofTags?_eq_ok_iff (hs : ¬Surplus tags) : ofTags? tags = .ok d ↔ States tags d := by
  refine ⟨fun h => ?_, States.ofTags?⟩
  cases tags with
  | nil => cases h
  | cons tag tags =>
    by_cases hp : Pause tag
    · exact states_of_pause hp hs h
    · exact states_of_line hp hs h

/-- A line at a prompt whose seconds are no number is read. A pause at a prompt is not, and neither
is a list that goes on behind its seconds and has no verb. -/
theorem ofTags?_eq_ok_iff_soon :
    ofTags? ["Ann", "Thin\u212as", "soon", "prompt"] = .ok ⟨.speak "Ann" .thought, 2.0, true⟩ ∧
      (∀ d, ofTags? ["delay", "prompt"] ≠ .ok d) ∧
      ∀ d, ofTags? ["Guard", "shouts", "2", "x"] ≠ .ok d := by
  have hann : ¬Pause "Ann" := by decide
  have hguard : ¬Pause "Guard" := by decide
  have hshouts : ∀ bubble, ¬Verb "shouts" bubble := by
    rintro _ (h | h) <;> exact absurd h (by decide)
  refine ⟨?_, fun d hd => ?_, fun d hd => ?_⟩
  · refine (ofTags?_eq_ok_iff fun h => ?_).2 (.skipped hann (.thought (by decide)))
    cases h with
    | pause hp => exact hann hp
    | line _ _ _ _ hne => exact hne rfl
    | prompt _ _ _ hne => exact hne rfl
  · have hstates := (ofTags?_eq_ok_iff fun h => ?_).1 hd
    · cases hstates with
      | pause _ _ hne => exact hne rfl
      | line hp => exact hp (by decide)
    · cases h with
      | pause _ _ hne => exact hne rfl
  · have hstates := (ofTags?_eq_ok_iff fun h => ?_).1 hd
    · generalize htags : ["Guard", "shouts", "2", "x"] = tags at hstates
      cases hstates with
      | pause hp => exact hguard ((List.cons.inj htags).1 ▸ hp)
      | line _ hv | prompt _ hv | skipped _ hv =>
        rw [← (List.cons.inj (List.cons.inj htags).2).1] at hv
        exact hshouts _ hv
    · cases h with
      | pause hp => exact hguard hp
      | line _ hv | prompt _ hv => exact hshouts _ hv

/-- **The grammar is not what is read.** A pause at a prompt may do without seconds, and a target
may have any name; a list with some other tag for its seconds is not in the grammar. -/
theorem listed_ne_read :
    (Listed ["delay", "prompt"] ⟨.delay, 2.0, true⟩ ∧ ∀ d, ofTags? ["delay", "prompt"] ≠ .ok d) ∧
      (Listed ["Delay", "says"] ⟨.speak "Delay" .speech, 2.0, false⟩ ∧
        ∀ d, ofTags? ["Delay", "says"] ≠ .ok d) ∧
      ofTags? ["Ann", "says", "soon", "prompt"] = .ok ⟨.speak "Ann" .speech, 2.0, true⟩ ∧
      ∀ d, ¬Listed ["Ann", "says", "soon", "prompt"] d := by
  have hspeech : Verb "says" .speech := .speech (by decide)
  -- no number is read from the word
  have hsoon : ∀ x, ¬Seconds "soon" x := fun x h => by
    have hread : Decimal.read? (Text.trim "soon".toList) = none := rfl
    rw [Seconds, hread] at h
    cases h
  refine ⟨⟨.pause (by decide) .prompt, fun d h => ?_⟩, ⟨.line hspeech .none, fun d h => ?_⟩,
    ofTags?_line_prompt (by decide) hspeech rfl, fun d h => ?_⟩
  · rw [ofTags?_pause_seconds (by decide)] at h
    obtain ⟨x, hx, -⟩ := map_eq_ok h
    exact not_seconds_prompt (duration?_eq_ok_iff.1 hx)
  · rw [ofTags?_pause_seconds (by decide)] at h
    obtain ⟨x, hx, -⟩ := map_eq_ok h
    cases hx
  · cases h with
    | pause hp => exact absurd hp (by decide)
    | line _ hparts =>
      obtain ⟨x, hx⟩ := hparts.exists_seconds
      exact hsoon x hx

end Directive

end Stagecraft
