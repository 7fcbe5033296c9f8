import Stagecraft.Proofs.Stripping

/-!
# Links that are left

Without its links a text can hold a link again: if links stand between the two closing brackets of
what would be a link otherwise, then nothing starts at its opening brackets while these links are
there, and it is whole when they are gone. In no other way does a link come about.

* `Markup.Linked`: a text that holds a link.
* `Markup.Torn`: a text in which links stand between two closing brackets; `Markup.linked_strip_iff`.
* `Markup.linked_trim_iff`, `Markup.strip_eq_self`: blanks do not matter, and a text without links
  stays as it is.
* `Markup.linked_content_iff`: **when the player sees a link**.
-/

namespace Stagecraft.Markup

variable {c d : Char} {body m s t u x z : List Char} {links : List (List Char)}

/-- The text holds a link. -/
def Linked (s : List Char) : Prop := ∃ m, IsLink m ∧ m <:+: s

/-- **A torn link**: two opening brackets, one character or more without a closing bracket among
them, and two closing brackets with links between them. -/
def Torn (s : List Char) : Prop :=
  ∃ front body links back, body ≠ [] ∧ ']' ∉ body ∧ links ≠ [] ∧ (∀ m ∈ links, IsLink m) ∧
    s = front ++ ('[' :: '[' :: body ++ ']' :: (links.flatten ++ ']' :: back))

/-! ## Brackets -/

theorem IsLink.exists_cons (h : IsLink m) : ∃ t, m = '[' :: t := by
  obtain ⟨body, -, -, rfl⟩ := h
  exact ⟨_, rfl⟩

theorem IsLink.exists_concat (h : IsLink m) : ∃ t, m = t ++ [']'] := by
  obtain ⟨body, -, -, rfl⟩ := h
  exact ⟨'[' :: '[' :: (body ++ [']']), by simp⟩

theorem opens_iff : Opens s ↔ ∃ body rest, body ≠ [] ∧ ']' ∉ body ∧
    s = '[' :: '[' :: body ++ ']' :: ']' :: rest := by
  constructor
  · rintro ⟨m, rest, ⟨body, hne, hbody, rfl⟩, rfl⟩
    exact ⟨body, rest, hne, hbody, by simp⟩
  · rintro ⟨body, rest, hne, hbody, rfl⟩
    exact ⟨_, rest, ⟨body, hne, hbody, rfl⟩, by simp⟩

/-- The first closing bracket of a text is in one place. -/
theorem append_bracket_inj (hu : ']' ∉ u) (hx : ']' ∉ x) (h : u ++ ']' :: s = x ++ ']' :: t) :
    u = x ∧ s = t := by
  have hfront : ∀ {v : List Char} (w : List Char), ']' ∉ v →
      (v ++ ']' :: w).takeWhile (· ≠ ']') = v := by
    intro v w hv
    have hall : ∀ c ∈ v, decide (c ≠ ']') = true := fun c hc => decide_eq_true fun h => hv (h ▸ hc)
    rw [List.takeWhile_append_of_pos hall, List.takeWhile_cons_of_neg (by decide), List.append_nil]
  have hsame : u = x := by rw [← hfront s hu, h, hfront t hx]
  rw [hsame] at h
  exact ⟨hsame, List.tail_eq_of_cons_eq (List.append_cancel_left h)⟩

/-- No link starts in front of a closing bracket that stands alone. -/
theorem not_opens_of_lone (hu : ']' ∉ u) (hc : c ≠ ']') (s : List Char) :
    ¬Opens (u ++ ']' :: c :: s) := by
  intro h
  obtain ⟨body, rest, -, hbody, heq⟩ := opens_iff.1 h
  have hmarked : ']' ∉ '[' :: '[' :: body := by simpa using hbody
  obtain ⟨-, hrest⟩ := append_bracket_inj hu hmarked heq
  exact hc (List.cons.inj hrest).1

theorem strip_of_lone (hu : ']' ∉ u) (hc : c ≠ ']') (s : List Char) :
    strip (u ++ ']' :: c :: s) = u ++ ']' :: strip (c :: s) := by
  induction u with
  | nil => exact strip_char (not_opens_of_lone hu hc s)
  | cons d u ih =>
    have hopen : ¬Opens (d :: (u ++ ']' :: c :: s)) := not_opens_of_lone hu hc s
    have hlater : ']' ∉ u := fun h => hu (List.mem_cons_of_mem _ h)
    rw [List.cons_append, List.cons_append, strip_char hopen, ih hlater]

theorem strip_flatten (h : ∀ m ∈ links, IsLink m) (s : List Char) :
    strip (links.flatten ++ s) = strip s := by
  induction links with
  | nil => rfl
  | cons m links ih =>
    obtain ⟨hm, hlinks⟩ := List.forall_mem_cons.1 h
    rw [List.flatten_cons, List.append_assoc, strip_link hm, ih hlinks]

/-! ## Texts that hold a link -/

theorem linked_cons : Linked (c :: s) ↔ Opens (c :: s) ∨ Linked s := by
  constructor
  · rintro ⟨m, hm, hin⟩
    rcases List.infix_cons_iff.1 hin with ⟨rest, hrest⟩ | hin
    · exact .inl ⟨m, rest, hm, hrest.symm⟩
    · exact .inr ⟨m, hm, hin⟩
  · rintro (⟨m, rest, hm, hrest⟩ | ⟨m, hm, hin⟩)
    · exact ⟨m, hm, hrest ▸ (List.prefix_append m rest).isInfix⟩
    · exact ⟨m, hm, hin.trans (List.suffix_cons c s).isInfix⟩

theorem not_linked_nil : ¬Linked [] := by
  rintro ⟨m, hm, hin⟩
  exact hm.ne_nil (List.infix_nil.1 hin)

/-- What starts with a character that is not in `a` does not reach into it. -/
theorem infix_of_append_left {a : List Char} (hc : c ∉ a) (h : c :: t <:+: a ++ s) :
    c :: t <:+: s := by
  induction a with
  | nil => exact h
  | cons d a ih =>
    obtain ⟨hd, ha⟩ := not_or.1 (mt List.mem_cons.2 hc)
    rw [List.cons_append, List.infix_cons_iff] at h
    rcases h with hfirst | hlater
    · exact absurd (List.cons_prefix_cons.1 hfirst).1 hd
    · exact ih ha hlater

/-- What ends with a character that is not in `b` does not reach into it. -/
theorem infix_of_append_right {b : List Char} (hc : c ∉ b) (h : t ++ [c] <:+: s ++ b) :
    t ++ [c] <:+: s := by
  rw [← List.reverse_infix, List.reverse_append] at h ⊢
  rw [List.reverse_append] at h
  exact infix_of_append_left (mt List.mem_reverse.1 hc) h

/-- Blanks are no brackets, so a link does not reach into the blanks at the ends of a text. -/
theorem linked_trim_iff : Linked (Text.trim s) ↔ Linked s := by
  obtain ⟨a, b, hs, ha, hb⟩ := (Text.trimmed_trim s).whole
  have hopening : '[' ∉ a := fun h => absurd (ha _ h) (by decide)
  have hclosing : ']' ∉ b := fun h => absurd (hb _ h) (by decide)
  constructor
  · rintro ⟨m, hm, hin⟩
    refine ⟨m, hm, hin.trans ⟨a, b, ?_⟩⟩
    rw [List.append_assoc, ← hs]
  · rintro ⟨m, hm, hin⟩
    obtain ⟨t, ht⟩ := hm.exists_cons
    obtain ⟨u, hu⟩ := hm.exists_concat
    have hfront : m <:+: Text.trim s ++ b := by
      rw [hs, ht] at hin
      rw [ht]
      exact infix_of_append_left hopening hin
    rw [hu] at hfront
    exact ⟨m, hm, hu ▸ infix_of_append_right hclosing hfront⟩

/-- **A text without links stays as it is.** -/
theorem strip_eq_self (h : ¬Linked s) : strip s = s := by
  induction s with
  | nil => exact strip_nil
  | cons c s ih =>
    obtain ⟨hopen, hlater⟩ := not_or.1 (mt linked_cons.2 h)
    rw [strip_char hopen, ih hlater]

theorem length_strip_le (s : List Char) : (strip s).length ≤ s.length := by
  induction s using links_induction with
  | nil => rw [strip_nil]
  | link m s hm ih =>
    rw [strip_link hm, List.length_append]
    omega
  | char c s hopen ih =>
    rw [strip_char hopen, List.length_cons, List.length_cons]
    omega

theorem length_strip_lt (h : Linked s) : (strip s).length < s.length := by
  induction s using links_induction with
  | nil => exact absurd h not_linked_nil
  | link m s hm ih =>
    have hle := length_strip_le s
    have hpos := List.length_pos_of_ne_nil hm.ne_nil
    rw [strip_link hm, List.length_append]
    omega
  | char c s hopen ih =>
    have hlt := ih ((linked_cons.1 h).resolve_left hopen)
    rw [strip_char hopen, List.length_cons, List.length_cons]
    omega

/-! ## Torn links -/

theorem Torn.append_left (h : Torn s) (a : List Char) : Torn (a ++ s) := by
  obtain ⟨front, body, links, back, hne, hbody, hlinks, hall, rfl⟩ := h
  exact ⟨a ++ front, body, links, back, hne, hbody, hlinks, hall, (List.append_assoc _ _ _).symm⟩

/-- What stays first is behind the links that were taken in front of it. -/
theorem exists_of_strip_eq_cons (h : strip s = c :: z) :
    ∃ links t, (∀ m ∈ links, IsLink m) ∧ s = List.flatten links ++ c :: t ∧ strip t = z := by
  induction s using links_induction with
  | nil =>
    rw [strip_nil] at h
    cases h
  | link m s hm ih =>
    rw [strip_link hm] at h
    obtain ⟨links, t, hall, rfl, ht⟩ := ih h
    refine ⟨m :: links, t, List.forall_mem_cons.2 ⟨hm, hall⟩, ?_, ht⟩
    rw [List.flatten_cons, List.append_assoc]
  | char d s hopen _ =>
    rw [strip_char hopen] at h
    cases h
    exact ⟨[], s, nofun, rfl, rfl⟩

/-- Two opening brackets that are open in front of a link are the start of a longer link. -/
theorem opens_of_link (hx : ']' ∉ x) (hm : IsLink m) (s : List Char) :
    Opens ('[' :: '[' :: x ++ (m ++ s)) := by
  obtain ⟨body, -, hbody, rfl⟩ := hm
  refine opens_iff.2 ⟨x ++ '[' :: '[' :: body, s, ?_, ?_, by simp⟩
  · exact List.append_ne_nil_of_right_ne_nil _ (List.cons_ne_nil _ _)
  · simp [hx, hbody]

/-- So where no link starts, nothing was taken behind two opening brackets up to the first closing
bracket. -/
theorem eq_cons_of_strip (hx : ']' ∉ x) (hopen : ¬Opens ('[' :: '[' :: x ++ s))
    (h : strip s = c :: z) : ∃ t, s = c :: t ∧ strip t = z := by
  obtain ⟨links, t, hall, rfl, ht⟩ := exists_of_strip_eq_cons h
  cases links with
  | nil => exact ⟨t, rfl, ht⟩
  | cons m links =>
    rw [List.flatten_cons, List.append_assoc] at hopen
    exact absurd (opens_of_link hx (hall m List.mem_cons_self) _) hopen

theorem eq_append_of_strip (hx : ']' ∉ x) (hopen : ¬Opens ('[' :: '[' :: x ++ s)) (hu : ']' ∉ u)
    (h : strip s = u ++ c :: z) : ∃ t, s = u ++ c :: t ∧ strip t = z := by
  induction u generalizing x s with
  | nil => exact eq_cons_of_strip hx hopen h
  | cons d u ih =>
    obtain ⟨hd, hu⟩ := not_or.1 (mt List.mem_cons.2 hu)
    obtain ⟨t, rfl, ht⟩ := eq_cons_of_strip hx hopen h
    have hx' : ']' ∉ x ++ [d] := by simp [hx, hd]
    have hopen' : ¬Opens ('[' :: '[' :: (x ++ [d]) ++ t) := by
      rwa [← List.cons_append, ← List.cons_append, List.append_assoc]
    obtain ⟨t', rfl, ht'⟩ := ih hx' hopen' hu ht
    exact ⟨t', rfl, ht'⟩

/-- **A link that starts with a character that was kept is a torn one.** -/
theorem torn_of_opens_strip (hopen : ¬Opens (c :: s)) (h : Opens (c :: strip s)) :
    Torn (c :: s) := by
  obtain ⟨body, rest, hne, hbody, heq⟩ := opens_iff.1 h
  obtain ⟨rfl, hstrip⟩ := List.cons.inj heq
  -- a link that starts at the second bracket starts at the first one too
  obtain ⟨t, rfl, ht⟩ : ∃ t, s = '[' :: t ∧ strip t = body ++ ']' :: ']' :: rest := by
    obtain ⟨links, t, hall, rfl, ht⟩ := exists_of_strip_eq_cons hstrip
    cases links with
    | nil => exact ⟨t, rfl, ht⟩
    | cons m links =>
      obtain ⟨inner, -, hinner, rfl⟩ := hall m List.mem_cons_self
      refine absurd (opens_iff.2 ⟨'[' :: inner, links.flatten ++ '[' :: t, List.cons_ne_nil _ _,
        ?_, ?_⟩) hopen
      · simp [hinner]
      · simp
  obtain ⟨t', rfl, ht'⟩ := eq_append_of_strip (x := []) (by simp) hopen hbody ht
  obtain ⟨links, back, hall, rfl, -⟩ := exists_of_strip_eq_cons ht'
  refine ⟨[], body, links, back, hne, hbody, ?_, hall, rfl⟩
  -- without links between its closing brackets it would have been a link before
  rintro rfl
  exact hopen (opens_iff.2 ⟨body, back, hne, hbody, rfl⟩)

theorem torn_of_linked_strip (h : Linked (strip s)) : Torn s := by
  induction s using links_induction with
  | nil =>
    rw [strip_nil] at h
    exact absurd h not_linked_nil
  | link m s hm ih =>
    rw [strip_link hm] at h
    exact (ih h).append_left m
  | char c s hopen ih =>
    rw [strip_char hopen, linked_cons] at h
    rcases h with hfirst | hlater
    · exact torn_of_opens_strip hopen hfirst
    · exact (ih hlater).append_left [c]

theorem exists_cons_of_links (hlinks : links ≠ []) (hall : ∀ m ∈ links, IsLink m)
    (s : List Char) : ∃ t, links.flatten ++ s = '[' :: t := by
  obtain ⟨m, more, rfl⟩ := List.exists_cons_of_ne_nil hlinks
  obtain ⟨t, rfl⟩ := (hall m List.mem_cons_self).exists_cons
  exact ⟨_, rfl⟩

/-- Without the links between its closing brackets a torn link is whole. -/
theorem strip_torn (hbody : ']' ∉ body) (hlinks : links ≠ []) (hall : ∀ m ∈ links, IsLink m)
    (back : List Char) : strip ('[' :: '[' :: body ++ ']' :: (links.flatten ++ ']' :: back)) =
      '[' :: '[' :: body ++ ']' :: ']' :: strip back := by
  have hmarked : ']' ∉ '[' :: '[' :: body := by simpa using hbody
  have hlast : ¬Opens (']' :: back) := by
    intro h
    obtain ⟨_, _, -, -, heq⟩ := opens_iff.1 h
    exact absurd (List.cons.inj heq).1 (by decide)
  have hgone : strip (links.flatten ++ ']' :: back) = ']' :: strip back := by
    rw [strip_flatten hall, strip_char hlast]
  obtain ⟨t, ht⟩ := exists_cons_of_links hlinks hall (']' :: back)
  rw [ht] at hgone ⊢
  rw [strip_of_lone hmarked (by decide), hgone]

/-- **No link reaches into a torn one**: the first closing bracket there stands alone. -/
theorem exists_of_link_append (hm : IsLink m) (hu : ']' ∉ u) (hc : c ≠ ']') {front : List Char}
    (h : m ++ s = front ++ ('[' :: u ++ ']' :: c :: t)) :
    ∃ rest, s = rest ++ ('[' :: u ++ ']' :: c :: t) := by
  rcases List.append_eq_append_iff.1 h with ⟨rest, -, hrest⟩ | ⟨w, hsplit, hw⟩
  · exact ⟨rest, hrest⟩
  · obtain ⟨body, -, hbody, rfl⟩ := hm
    have hmarked : ']' ∉ '[' :: '[' :: body := by simpa using hbody
    have hends : front ++ w = '[' :: '[' :: body ++ [']', ']'] := hsplit.symm
    rcases List.append_eq_append_iff.1 hends with ⟨v, hv, rfl⟩ | ⟨v, -, hv⟩
    · -- the link would end behind the lone bracket
      have hopening : ']' ∉ '[' :: u := by simpa using hu
      have hinner : ']' ∉ v := fun h => hmarked (hv ▸ List.mem_append_right _ h)
      rw [List.append_assoc] at hw
      obtain ⟨-, hrest⟩ := append_bracket_inj hopening hinner hw
      exact absurd (List.cons.inj hrest).1 hc
    · cases w with
      | nil => exact ⟨[], hw.symm⟩
      | cons d w =>
        have hd : d ∈ [']', ']'] := hv ▸ List.mem_append_right _ List.mem_cons_self
        have hopening : '[' = d := (List.cons.inj hw).1
        rw [← hopening] at hd
        exact absurd hd (by decide)

theorem linked_strip_of_torn (h : Torn s) : Linked (strip s) := by
  induction s using links_induction with
  | nil =>
    obtain ⟨front, body, links, back, -, -, -, -, heq⟩ := h
    simp at heq
  | link m s hm ih =>
    obtain ⟨front, body, links, back, hne, hbody, hlinks, hall, heq⟩ := h
    have hopening : ']' ∉ '[' :: body := by simpa using hbody
    obtain ⟨t, ht⟩ := exists_cons_of_links hlinks hall (']' :: back)
    obtain ⟨rest, hrest⟩ := exists_of_link_append hm hopening (by decide) (ht ▸ heq)
    rw [strip_link hm]
    exact ih ⟨rest, body, links, back, hne, hbody, hlinks, hall, ht ▸ hrest⟩
  | char c s hopen ih =>
    obtain ⟨front, body, links, back, hne, hbody, hlinks, hall, heq⟩ := h
    cases front with
    | nil =>
      -- the torn brackets close up when the links between them are gone
      have hwhole := strip_torn hbody hlinks hall back
      rw [heq, List.nil_append, hwhole]
      exact linked_cons.2 (.inl (opens_iff.2 ⟨body, strip back, hne, hbody, rfl⟩))
    | cons d front =>
      have hlater : Torn s :=
        ⟨front, body, links, back, hne, hbody, hlinks, hall, (List.cons.inj heq).2⟩
      rw [strip_char hopen, linked_cons]
      exact .inr (ih hlater)

/-- **Which texts hold a link without their links.** -/
theorem linked_strip_iff : Linked (strip s) ↔ Torn s :=
  ⟨torn_of_linked_strip, linked_strip_of_torn⟩

/-! ## What the player sees -/

theorem toList_content (p : Passage) : p.content.toList = Text.trim (strip p.text.toList) :=
  String.toList_ofList

theorem linked_content (p : Passage) : Linked p.content.toList ↔ Torn p.text.toList := by
  rw [toList_content, linked_trim_iff, linked_strip_iff]

/-- Taking the links and the blanks away a second time. -/
theorem trim_strip_eq_self_iff :
    Text.trim (strip (Text.trim s)) = Text.trim s ↔ ¬Linked (Text.trim s) := by
  constructor
  · intro h hlinked
    have hlt := length_strip_lt hlinked
    have hle : (Text.trim (strip (Text.trim s))).length ≤ (strip (Text.trim s)).length := by
      obtain ⟨a, b, hab, -, -⟩ := (Text.trimmed_trim (strip (Text.trim s))).whole
      conv_rhs => rw [hab]
      simp only [List.length_append]
      omega
    rw [h] at hle
    omega
  · intro h
    have htrimmed := Text.trimmed_trim s
    rw [strip_eq_self h]
    exact Text.Trimmed.trim ⟨⟨[], [], by simp, nofun, nofun⟩, htrimmed.first, htrimmed.last⟩

/-- **When the player sees a link.** What the player sees of a text holds a link exactly if a link is
torn in the text; and what the player sees is seen of itself again exactly if none is. -/
theorem linked_content_iff (p : Passage) : (Linked p.content.toList ↔ Torn p.text.toList) ∧
    ∀ q : Passage, { q with text := p.content }.content = p.content ↔ ¬Torn p.text.toList := by
  refine ⟨linked_content p, fun q => ?_⟩
  rw [← linked_content p, ← String.toList_inj, toList_content, toList_content p]
  exact trim_strip_eq_self_iff

/-- A passage with a link between the closing brackets of another one. -/
def tornPassage : Passage := ⟨"a", "[[a][[x]]]", ["delay"], []⟩

/-- The outer link comes about when the inner one is gone, and would go when it is read again. -/
theorem linked_content_iff_torn : Torn tornPassage.text.toList ∧
    tornPassage.content = "[[a]]" ∧ Linked tornPassage.content.toList ∧
    { tornPassage with text := tornPassage.content }.content ≠ tornPassage.content := by
  have hlinks : ∀ m ∈ ["[[x]]".toList], IsLink m :=
    List.forall_mem_singleton.2 ⟨['x'], by decide, by decide, by decide⟩
  have htorn : Torn tornPassage.text.toList :=
    ⟨[], ['a'], _, [], by decide, by decide, by decide, hlinks, by decide⟩
  have hstrip : strip tornPassage.text.toList = "[[a]]".toList := by
    have hbody : ']' ∉ ['a'] := by decide
    have hwhole := strip_torn hbody (by decide) hlinks []
    rw [strip_nil] at hwhole
    exact hwhole
  have hcontent : tornPassage.content = "[[a]]" := by
    rw [← String.toList_inj, toList_content, hstrip]
    decide
  obtain ⟨hlinked, hagain⟩ := linked_content_iff tornPassage
  exact ⟨htorn, hcontent, hlinked.2 htorn, fun h => (hagain tornPassage).1 h htorn⟩

end Stagecraft.Markup
