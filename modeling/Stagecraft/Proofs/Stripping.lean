import Mathlib.Data.List.Infix
import Mathlib.Data.List.TakeWhile
import Stagecraft.Story.Basic

/-!
# A text without its links

The links of a text are found from the left: where one starts it is taken whole, and every other
character stays. So a text is links with gaps between them, in one way only, and the player sees the
gaps, without the blanks at their outer ends.

* `Text.Trimmed`, `Text.trimmed_iff`: a text without the blanks at its ends.
* `Markup.IsLink`, `Markup.Opens`: a link, and the texts that start with one.
* `Markup.links_induction`: induction on a text, link by link.
* `Markup.Parts`, `Markup.exists_parts`: links and the gaps between them, and that there is one way
  to find them.
* `Markup.content_exact`: **what the player sees of a text**.
-/

namespace Stagecraft

/-! ## Blanks at the ends -/

namespace Text

variable {a b s t : List Char}

/-- **A text without the blanks at its ends.** -/
structure Trimmed (s t : List Char) : Prop where
  whole : ∃ a b, s = a ++ (t ++ b) ∧ (∀ c ∈ a, isBlank c = true) ∧ ∀ c ∈ b, isBlank c = true
  first : ∀ c ∈ t.head?, isBlank c = false
  last : ∀ c ∈ t.getLast?, isBlank c = false

theorem head_dropWhile (s : List Char) : ∀ c ∈ (s.dropWhile isBlank).head?, isBlank c = false := by
  intro c hc
  have hnot := List.head?_dropWhile_not isBlank s
  rw [Option.mem_def.1 hc] at hnot
  exact hnot

theorem dropWhile_of_head (h : ∀ c ∈ s.head?, isBlank c = false) : s.dropWhile isBlank = s := by
  cases s with
  | nil => rfl
  | cons c s =>
    have hc : isBlank c = false := h c rfl
    exact List.dropWhile_cons_of_neg (by rw [hc]; decide)

theorem trimmed_trim (s : List Char) : Trimmed s (trim s) := by
  obtain ⟨u, hu⟩ : ∃ u, s.dropWhile isBlank = u := ⟨_, rfl⟩
  have hsplit : s = s.takeWhile isBlank ++ u := by rw [← hu, List.takeWhile_append_dropWhile]
  have hback : u = trim s ++ (u.reverse.takeWhile isBlank).reverse := by
    rw [trim, hu, ← List.reverse_append, List.takeWhile_append_dropWhile, List.reverse_reverse]
  have hblank : ∀ v : List Char, ∀ c ∈ v.takeWhile isBlank, isBlank c = true := fun v =>
    List.all_eq_true.1 List.all_takeWhile
  refine ⟨⟨_, _, ?_, hblank s, fun c hc => hblank u.reverse c (List.mem_reverse.1 hc)⟩, ?_, ?_⟩
  · rwa [← hback]
  · -- what is left starts where the blanks in front end
    intro c hc
    refine head_dropWhile s c ?_
    rw [hu, hback, List.head?_append, Option.mem_def.1 hc]
    rfl
  · intro c hc
    rw [trim, List.getLast?_reverse] at hc
    exact head_dropWhile _ c hc

theorem Trimmed.trim (h : Trimmed s t) : trim s = t := by
  obtain ⟨⟨a, b, rfl, ha, hb⟩, hfirst, hlast⟩ := h
  rw [Text.trim, List.dropWhile_append_of_pos ha]
  cases ht : t with
  | nil =>
    have hnil : b.dropWhile isBlank = [] := List.dropWhile_eq_nil_iff.2 hb
    rw [List.nil_append, hnil]
    rfl
  | cons c u =>
    have hfront : (t ++ b).dropWhile isBlank = t ++ b := by
      refine dropWhile_of_head fun d hd => hfirst d ?_
      rw [ht] at hd ⊢
      exact hd
    -- from the other end the text is trimmed as well
    have hend : t.reverse.dropWhile isBlank = t.reverse := by
      refine dropWhile_of_head fun d hd => hlast d ?_
      rwa [List.head?_reverse] at hd
    rw [← ht, hfront, List.reverse_append,
      List.dropWhile_append_of_pos fun d hd => hb d (List.mem_reverse.1 hd), hend,
      List.reverse_reverse]

/-- **There is one way to trim a text.** -/
theorem trimmed_iff : Trimmed s t ↔ t = trim s :=
  ⟨fun h => h.trim.symm, fun h => h ▸ trimmed_trim s⟩

end Text

namespace Markup

variable {c : Char} {g g' m m' s s' t : List Char} {ls ls' : List (List Char × List Char)}

/-! ## Links -/

/-- **A link**: two opening brackets, one character or more without a closing bracket among them,
and two closing brackets. -/
def IsLink (m : List Char) : Prop :=
  ∃ body, body ≠ [] ∧ ']' ∉ body ∧ m = '[' :: '[' :: (body ++ [']', ']'])

/-- The text starts with a link. -/
def Opens (s : List Char) : Prop := ∃ m rest, IsLink m ∧ s = m ++ rest

theorem IsLink.ne_nil (h : IsLink m) : m ≠ [] := by
  obtain ⟨body, -, -, rfl⟩ := h
  exact List.cons_ne_nil _ _

theorem link?_append (hm : IsLink m) (s : List Char) : link? (m ++ s) = some s := by
  obtain ⟨body, hne, hbody, rfl⟩ := hm
  have hall : ∀ c ∈ body, decide (c ≠ ']') = true := fun c hc =>
    decide_eq_true fun h => hbody (h ▸ hc)
  obtain ⟨d, body, rfl⟩ := List.exists_cons_of_ne_nil hne
  simp only [link?, List.cons_append, List.append_assoc, List.nil_append]
  rw [← List.cons_append, List.takeWhile_append_of_pos hall, List.dropWhile_append_of_pos hall]
  rfl

theorem exists_of_link? (h : link? s = some t) : ∃ m, IsLink m ∧ s = m ++ t := by
  unfold link? at h
  split at h
  · rename_i u
    split at h
    · rename_i d body rest hfront hback
      cases h
      have hsplit : u = d :: body ++ ']' :: ']' :: t := by
        rw [← hfront, ← hback, List.takeWhile_append_dropWhile]
      -- what was taken was taken while no bracket closed
      have hbody : ']' ∉ d :: body := by
        rw [← hfront]
        intro hmem
        have hne := List.all_eq_true.1 List.all_takeWhile _ hmem
        revert hne
        decide
      exact ⟨_, ⟨d :: body, List.cons_ne_nil _ _, hbody, rfl⟩, by simp [hsplit]⟩
    · cases h
  · cases h

theorem link?_eq_none_iff : link? s = none ↔ ¬Opens s := by
  constructor
  · rintro h ⟨m, rest, hm, rfl⟩
    rw [link?_append hm] at h
    cases h
  · intro h
    cases hs : link? s with
    | none => rfl
    | some rest =>
      obtain ⟨m, hm, rfl⟩ := exists_of_link? hs
      exact absurd ⟨m, rest, hm, rfl⟩ h

/-- A text starts with one link at most. -/
theorem link_append_inj (hm : IsLink m) (hm' : IsLink m') (h : m ++ s = m' ++ s') :
    m = m' ∧ s = s' := by
  have hrest : some s = some s' := by rw [← link?_append hm, h, link?_append hm']
  cases hrest
  exact ⟨List.append_cancel_right h, rfl⟩

theorem strip_link (hm : IsLink m) (s : List Char) : strip (m ++ s) = strip s :=
  strip_of_link? (link?_append hm s)

theorem strip_char (h : ¬Opens (c :: s)) : strip (c :: s) = c :: strip s :=
  strip_cons (link?_eq_none_iff.2 h)

/-- **Induction on a text**, link by link: a link is taken whole, and a character by itself only
where no link starts. -/
@[elab_as_elim]
theorem links_induction {P : List Char → Prop} (s : List Char) (nil : P [])
    (link : ∀ m s, IsLink m → P s → P (m ++ s))
    (char : ∀ c s, ¬Opens (c :: s) → P s → P (c :: s)) : P s := by
  induction hn : s.length using Nat.strong_induction_on generalizing s with
  | _ n ih =>
    cases hs : link? s with
    | some rest =>
      have hlt := length_lt_of_link? hs
      obtain ⟨m, hm, rfl⟩ := exists_of_link? hs
      exact link m rest hm (ih rest.length (by omega) rest rfl)
    | none =>
      cases s with
      | nil => exact nil
      | cons c s =>
        rw [List.length_cons] at hn
        exact char c s (link?_eq_none_iff.1 hs) (ih s.length (by omega) s rfl)

/-! ## Gaps -/

/-- A gap, and links with a gap behind each of them, as one text. -/
def joined (g : List Char) (ls : List (List Char × List Char)) : List Char :=
  g ++ ls.flatMap fun l => l.1 ++ l.2

/-- The gaps alone. -/
def gaps (g : List Char) (ls : List (List Char × List Char)) : List Char :=
  g ++ ls.flatMap fun l => l.2

/-- The positions in the gaps, if the first gap starts at `i`. -/
def gapPositions (i : Nat) (g : List Char) : List (List Char × List Char) → List Nat
  | [] => List.range' i g.length
  | l :: ls => List.range' i g.length ++ gapPositions (i + g.length + l.1.length) l.2 ls

/-- **The parts of a text**: gaps with links between them, so that in the text no link starts at a
position in a gap. -/
structure Parts (s g : List Char) (ls : List (List Char × List Char)) : Prop where
  text : s = joined g ls
  links : ∀ l ∈ ls, IsLink l.1
  gaps : ∀ i ∈ gapPositions 0 g ls, ¬Opens (s.drop i)

theorem gapPositions_add (n i : Nat) (g : List Char) (ls : List (List Char × List Char)) :
    gapPositions (n + i) g ls = (gapPositions i g ls).map (n + ·) := by
  induction ls generalizing i g with
  | nil => rw [gapPositions, gapPositions, List.map_add_range']
  | cons l ls ih =>
    rw [gapPositions, gapPositions, List.map_append, List.map_add_range', ← ih, Nat.add_assoc n,
      Nat.add_assoc n]

/-- Gaps behind a text `a` are the gaps of what is behind it. -/
theorem forall_gapPositions_append (a s g : List Char) (ls : List (List Char × List Char)) :
    (∀ i ∈ gapPositions a.length g ls, ¬Opens ((a ++ s).drop i)) ↔
      ∀ i ∈ gapPositions 0 g ls, ¬Opens (s.drop i) := by
  have hshift := gapPositions_add a.length 0 g ls
  rw [Nat.add_zero] at hshift
  rw [hshift, List.forall_mem_map]
  simp only [List.drop_append, List.drop_eq_nil_of_le (Nat.le_add_right _ _), Nat.add_sub_cancel_left,
    List.nil_append]

theorem parts_nil : Parts s [] [] ↔ s = [] := by
  constructor
  · exact fun h => h.text
  · rintro rfl
    exact ⟨rfl, nofun, nofun⟩

/-- A gap has its first character where no link starts. -/
theorem parts_cons : Parts s (c :: g) ls ↔ ¬Opens s ∧ ∃ t, s = c :: t ∧ Parts t g ls := by
  -- the other positions are those behind the first character
  have hpositions : gapPositions 0 (c :: g) ls = 0 :: gapPositions [c].length g ls := by
    cases ls with
    | nil => rfl
    | cons l ls =>
      have hlength : 0 + (c :: g).length + l.1.length = [c].length + g.length + l.1.length := by
        simp only [List.length_cons, List.length_nil]
        omega
      rw [gapPositions, gapPositions, hlength]
      rfl
  constructor
  · rintro ⟨rfl, hlinks, hgaps⟩
    rw [hpositions, List.forall_mem_cons] at hgaps
    exact ⟨hgaps.1, _, rfl, rfl, hlinks, (forall_gapPositions_append [c] _ g ls).1 hgaps.2⟩
  · rintro ⟨hopen, t, rfl, htext, hlinks, hgaps⟩
    refine ⟨congrArg _ htext, hlinks, ?_⟩
    rw [hpositions, List.forall_mem_cons]
    exact ⟨hopen, (forall_gapPositions_append [c] t g ls).2 hgaps⟩

/-- Without a gap in front a text starts with its first link. -/
theorem parts_link : Parts s [] ((m, g) :: ls) ↔ IsLink m ∧ ∃ t, s = m ++ t ∧ Parts t g ls := by
  have hpositions : gapPositions 0 [] ((m, g) :: ls) = gapPositions m.length g ls := by
    rw [gapPositions]
    simp
  have hjoined : joined [] ((m, g) :: ls) = m ++ joined g ls := by
    simp [joined]
  constructor
  · rintro ⟨rfl, hlinks, hgaps⟩
    obtain ⟨hm, hlinks⟩ := List.forall_mem_cons.1 hlinks
    rw [hpositions, hjoined] at hgaps
    exact ⟨hm, _, hjoined, rfl, hlinks, (forall_gapPositions_append m _ g ls).1 hgaps⟩
  · rintro ⟨hm, t, rfl, htext, hlinks, hgaps⟩
    refine ⟨by rw [hjoined, htext], List.forall_mem_cons.2 ⟨hm, hlinks⟩, ?_⟩
    rw [hpositions]
    exact (forall_gapPositions_append m t g ls).2 hgaps

/-- Nothing has no parts. -/
theorem parts_of_nil : Parts [] g ls ↔ g = [] ∧ ls = [] := by
  constructor
  · intro h
    obtain ⟨hg, hls⟩ := List.append_eq_nil_iff.1 h.text.symm
    cases ls with
    | nil => exact ⟨hg, rfl⟩
    | cons l ls =>
      have hl : l.1 = [] := by simp_all
      exact absurd hl (h.links l List.mem_cons_self).ne_nil
  · rintro ⟨rfl, rfl⟩
    exact parts_nil.2 rfl

/-- Where a text starts with a link, so do its parts. -/
theorem parts_of_link (hm : IsLink m) :
    Parts (m ++ s) g ls ↔ g = [] ∧ ∃ g' ls', ls = (m, g') :: ls' ∧ Parts s g' ls' := by
  constructor
  · intro h
    match g, ls, h with
    | _ :: _, _, h => exact absurd ⟨m, s, hm, rfl⟩ (parts_cons.1 h).1
    | [], [], h => exact absurd (List.append_eq_nil_iff.1 (parts_nil.1 h)).1 hm.ne_nil
    | [], (m', g') :: ls', h =>
      obtain ⟨hm', t, ht, hrest⟩ := parts_link.1 h
      obtain ⟨rfl, rfl⟩ := link_append_inj hm hm' ht
      exact ⟨rfl, g', ls', rfl, hrest⟩
  · rintro ⟨rfl, g', ls', rfl, h⟩
    exact parts_link.2 ⟨hm, s, rfl, h⟩

/-- Where none starts, the first character is in a gap. -/
theorem parts_of_char (hopen : ¬Opens (c :: s)) :
    Parts (c :: s) g ls ↔ ∃ g', g = c :: g' ∧ Parts s g' ls := by
  constructor
  · intro h
    match g, ls, h with
    | c' :: g', _, h =>
      obtain ⟨-, t, ht, hrest⟩ := parts_cons.1 h
      cases ht
      exact ⟨g', rfl, hrest⟩
    | [], [], h => cases parts_nil.1 h
    | [], (m', g') :: ls', h =>
      obtain ⟨hm, t, ht, -⟩ := parts_link.1 h
      exact absurd ⟨m', t, hm, ht⟩ hopen
  · rintro ⟨g', rfl, h⟩
    exact parts_cons.2 ⟨hopen, s, rfl, h⟩

/-- **A text has its parts in one way**, and without its links it is the gaps. -/
theorem exists_parts (s : List Char) : ∃ g ls, (∀ g' ls', Parts s g' ls' ↔ g' = g ∧ ls' = ls) ∧
    strip s = gaps g ls := by
  -- by links: what is left of a text has its parts, and each step adds to them in one way
  induction s using links_induction with
  | nil => exact ⟨[], [], fun _ _ => parts_of_nil, strip_nil⟩
  | link m s hm ih =>
    obtain ⟨g, ls, hparts, hstrip⟩ := ih
    refine ⟨[], (m, g) :: ls, fun g' ls' => ?_, ?_⟩
    · simp only [parts_of_link hm, hparts]
      constructor
      · rintro ⟨rfl, _, _, rfl, rfl, rfl⟩
        exact ⟨rfl, rfl⟩
      · rintro ⟨rfl, rfl⟩
        exact ⟨rfl, g, ls, rfl, rfl, rfl⟩
    · rw [strip_link hm, hstrip]
      rfl
  | char c s hopen ih =>
    obtain ⟨g, ls, hparts, hstrip⟩ := ih
    refine ⟨c :: g, ls, fun g' ls' => ?_, ?_⟩
    · simp only [parts_of_char hopen, hparts]
      constructor
      · rintro ⟨_, rfl, rfl, rfl⟩
        exact ⟨rfl, rfl⟩
      · rintro ⟨rfl, rfl⟩
        exact ⟨g, rfl, rfl, rfl⟩
    · rw [strip_char hopen, hstrip]
      rfl

/-- **What the player sees of a text.** There is one way to find links in it so that none starts in
a gap between them; the player sees the gaps, in order and whole, but for the blanks at their outer
ends. -/
theorem content_exact (p : Passage) : ∃ g ls,
    (∀ g' ls', Parts p.text.toList g' ls' ↔ g' = g ∧ ls' = ls) ∧
      ∀ t, Text.Trimmed (gaps g ls) t ↔ t = p.content.toList := by
  obtain ⟨g, ls, hparts, hstrip⟩ := exists_parts p.text.toList
  refine ⟨g, ls, hparts, fun t => ?_⟩
  have hcontent : p.content.toList = Text.trim (gaps g ls) := by
    rw [← hstrip]
    exact String.toList_ofList
  rw [hcontent, Text.trimmed_iff]

end Markup

end Stagecraft
