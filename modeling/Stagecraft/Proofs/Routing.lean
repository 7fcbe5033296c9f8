import Mathlib.Data.List.Infix
import Stagecraft.Story.Link

/-!
# Where links lead, and what they show

A written link is cut at its routing marks: the target from the right end, the shown name from the
left one. What is left holds no mark, so it is cut no further, and both ways to write a link give
back the target and the name that they were made of. A name states at most one colour.

* `Text.not_infix_beforeFirst`, `Text.beforeFirst_append`: the piece in front of a separator, and
  `Text.not_infix_afterLast`, `Text.afterLast_append` for the one behind it.
* `Link.Reduced`, `Link.Routes`: texts without routing marks, and the two ways to write a link.
* `Tint.Names`, `Tint.names_iff`: the colour that a name states, and the rest of the name.
* `Link.ofRaw_reduced`: **what becomes of a written link**.
-/

namespace Stagecraft

/-! ## Pieces of a text -/

namespace Text

variable {sep s t : List Char} {c : Char}

theorem beforeFirst_prefix (sep s : List Char) : beforeFirst sep s <+: s := by
  induction s with
  | nil => exact List.nil_prefix
  | cons c s ih =>
    unfold beforeFirst
    split
    · exact List.nil_prefix
    · exact List.cons_prefix_cons.2 ⟨rfl, ih⟩

/-- **The separator does not stand in the piece in front of it.** -/
theorem not_infix_beforeFirst (hsep : sep ≠ []) (s : List Char) : ¬sep <:+: beforeFirst sep s := by
  induction s with
  | nil => exact fun h => hsep (List.infix_nil.1 h)
  | cons c s ih =>
    unfold beforeFirst
    split
    · exact fun h => hsep (List.infix_nil.1 h)
    · rename_i hno
      have hback : c :: beforeFirst sep s <+: c :: s :=
        List.cons_prefix_cons.2 ⟨rfl, beforeFirst_prefix sep s⟩
      intro h
      rcases List.infix_cons_iff.1 h with hfirst | hlater
      · exact hno (List.isPrefixOf_iff_prefix.2 (hfirst.trans hback))
      · exact ih hlater

theorem beforeFirst_eq_self (h : ¬sep <:+: s) : beforeFirst sep s = s := by
  induction s with
  | nil => rfl
  | cons c s ih =>
    have hfirst : ¬sep.isPrefixOf (c :: s) = true := fun hp =>
      h (List.isPrefixOf_iff_prefix.1 hp).isInfix
    have hlater : ¬sep <:+: s := fun hs => h (hs.trans (List.suffix_cons c s).isInfix)
    rw [beforeFirst, if_neg hfirst, ih hlater]

/-- **The piece in front of a separator**, if no part of the separator can be read into it. -/
theorem beforeFirst_append (h : ¬sep <:+: s ++ sep.dropLast) (t : List Char) :
    beforeFirst sep (s ++ (sep ++ t)) = s := by
  induction s with
  | nil =>
    cases hst : sep ++ t with
    | nil => rfl
    | cons c u =>
      have hfirst : sep.isPrefixOf (c :: u) = true :=
        List.isPrefixOf_iff_prefix.2 (hst ▸ List.prefix_append sep t)
      rw [List.nil_append, beforeFirst, if_pos hfirst]
  | cons c s ih =>
    have hlater : ¬sep <:+: s ++ sep.dropLast := fun hs =>
      h (hs.trans (List.suffix_cons c _).isInfix)
    -- a separator at the front would end before the last character of the one that is there
    have hfirst : ¬sep.isPrefixOf (c :: (s ++ (sep ++ t))) = true := by
      intro hp
      have hfront : c :: (s ++ sep.dropLast) <+: c :: (s ++ (sep ++ t)) := by
        refine List.cons_prefix_cons.2 ⟨rfl, (List.prefix_append_right_inj s).2 ?_⟩
        exact (List.dropLast_prefix sep).trans (List.prefix_append sep t)
      refine h (List.prefix_of_prefix_length_le (List.isPrefixOf_iff_prefix.1 hp) hfront ?_).isInfix
      simp only [List.length_cons, List.length_append, List.length_dropLast]
      omega
    rw [List.cons_append, beforeFirst, if_neg hfirst, ih hlater]

theorem afterLast_suffix (sep s : List Char) : afterLast sep s <:+ s := by
  rw [← List.reverse_prefix, afterLast, List.reverse_reverse]
  exact beforeFirst_prefix _ _

/-- **The separator does not stand in the piece behind it.** -/
theorem not_infix_afterLast (hsep : sep ≠ []) (s : List Char) : ¬sep <:+: afterLast sep s := by
  rw [← List.reverse_infix, afterLast, List.reverse_reverse]
  exact not_infix_beforeFirst (fun h => hsep (List.reverse_eq_nil_iff.1 h)) _

theorem afterLast_eq_self (h : ¬sep <:+: s) : afterLast sep s = s := by
  rw [← List.reverse_infix] at h
  rw [afterLast, beforeFirst_eq_self h, List.reverse_reverse]

/-- **The piece behind a separator**, if no part of the separator can be read into it. -/
theorem afterLast_append (h : ¬sep <:+: sep.tail ++ s) (t : List Char) :
    afterLast sep (t ++ (sep ++ s)) = s := by
  have hback : ¬sep.reverse <:+: s.reverse ++ sep.reverse.dropLast := by
    rwa [List.dropLast_reverse, ← List.reverse_append, List.reverse_infix]
  rw [afterLast, List.reverse_append, List.reverse_append, List.append_assoc,
    beforeFirst_append hback, List.reverse_reverse]

end Text

/-! ## Colours -/

namespace Tint

variable {name label label' : List Char} {t t' : Tint}

/-- **What a name states**: the colour whose word stands in front of a colon at its start, and what
follows; without such a word it is blue, and states itself. -/
inductive Names (name : List Char) : Tint → List Char → Prop where
  | tinted {t : Tint} {label : List Char} (h : name = t.word.toList ++ ':' :: label) :
      Names name t label
  | plain (h : ∀ t : Tint, ¬t.word.toList ++ [':'] <+: name) : Names name .blue name

theorem mem_all (t : Tint) : t ∈ all := by
  cases t <;> decide

/-- No colour has a colon in its word, so the word is all that stands in front of the first one. -/
theorem takeWhile_word (t : Tint) (label : List Char) :
    (t.word.toList ++ ':' :: label).takeWhile (· ≠ ':') = t.word.toList := by
  have hword : ∀ c ∈ t.word.toList, decide (c ≠ ':') = true := by
    cases t <;> decide
  rw [List.takeWhile_append_of_pos hword, List.takeWhile_cons_of_neg (by decide), List.append_nil]

theorem word_inj (h : t.word.toList = t'.word.toList) : t = t' := by
  revert h
  cases t <;> cases t' <;> decide

/-- A name starts with at most one colour. -/
theorem eq_of_word_append (h : t.word.toList ++ ':' :: label = t'.word.toList ++ ':' :: label') :
    t = t' ∧ label = label' := by
  have hword : t.word.toList = t'.word.toList := by
    rw [← takeWhile_word t label, h, takeWhile_word]
  rw [hword] at h
  exact ⟨word_inj hword, List.tail_eq_of_cons_eq (List.append_cancel_left h)⟩

theorem strip?_eq_some_iff : t.strip? name = some label ↔ name = t.word.toList ++ ':' :: label := by
  rw [strip?, Text.after?_eq_some_iff, List.append_assoc, List.singleton_append]

theorem strip?_eq_none_iff : t.strip? name = none ↔ ¬t.word.toList ++ [':'] <+: name := by
  rw [Option.eq_none_iff_forall_ne_some, strip?]
  constructor
  · rintro h ⟨label, hlabel⟩
    exact h label (Text.after?_eq_some_iff.2 hlabel.symm)
  · intro h label hlabel
    exact h ⟨label, (Text.after?_eq_some_iff.1 hlabel).symm⟩

/-- **The colour at the start of a name.** -/
theorem split?_eq_some_iff :
    split? name = some (t, label) ↔ name = t.word.toList ++ ':' :: label := by
  constructor
  · intro h
    obtain ⟨t', -, ht'⟩ := List.exists_of_findSome?_eq_some h
    obtain ⟨label', hlabel, hpair⟩ := Option.map_eq_some_iff.1 ht'
    cases hpair
    exact strip?_eq_some_iff.1 hlabel
  · intro h
    cases hs : split? name with
    | none =>
      have hno := List.findSome?_eq_none_iff.1 hs t (mem_all t)
      rw [strip?_eq_some_iff.2 h] at hno
      cases hno
    | some found =>
      obtain ⟨t', -, ht'⟩ := List.exists_of_findSome?_eq_some hs
      obtain ⟨label', hlabel, rfl⟩ := Option.map_eq_some_iff.1 ht'
      -- two colours cannot both stand in front, so the first one found is this one
      obtain ⟨rfl, rfl⟩ := eq_of_word_append (h.symm.trans (strip?_eq_some_iff.1 hlabel))
      rfl

theorem split?_eq_none_iff : split? name = none ↔ ∀ t : Tint, ¬t.word.toList ++ [':'] <+: name := by
  rw [split?, List.findSome?_eq_none_iff]
  constructor
  · intro h t
    exact strip?_eq_none_iff.1 (Option.map_eq_none_iff.1 (h t (mem_all t)))
  · intro h t _
    rw [strip?_eq_none_iff.2 (h t), Option.map_none]

/-- **A name states one colour**, which is the one that is found. -/
theorem names_iff : Names name t label ↔ (split? name).getD (.blue, name) = (t, label) := by
  constructor
  · intro h
    cases h with
    | tinted h => rw [split?_eq_some_iff.2 h, Option.getD_some]
    | plain h => rw [split?_eq_none_iff.2 h, Option.getD_none]
  · intro h
    cases hs : split? name with
    | none =>
      rw [hs] at h
      cases h
      exact .plain (split?_eq_none_iff.1 hs)
    | some found =>
      rw [hs] at h
      cases h
      exact .tinted (split?_eq_some_iff.1 hs)

end Tint

/-! ## Links -/

namespace Link

variable {s t d : List Char}

/-- **A text without routing marks.** -/
structure Reduced (s : List Char) : Prop where
  bar : '|' ∉ s
  arrow : ¬arrow <:+: s

/-- **The two ways to write a link** that leads to `t` and shows `d`. -/
inductive Routes (t d : List Char) : List Char → Prop where
  | piped : Routes t d (d ++ bar ++ t)
  | arrowed : Routes t d (t ++ arrow ++ d)

theorem bar_infix_iff : bar <:+: s ↔ '|' ∈ s := List.singleton_infix_iff _ _

theorem reduced_targetOf (s : List Char) : Reduced (targetOf s) := by
  have hbar : '|' ∉ Text.afterLast bar s := fun h =>
    Text.not_infix_afterLast (List.cons_ne_nil _ _) s (bar_infix_iff.2 h)
  exact ⟨fun h => hbar ((Text.beforeFirst_prefix arrow _).subset h),
    Text.not_infix_beforeFirst (List.cons_ne_nil _ _) _⟩

theorem reduced_nameOf (s : List Char) : Reduced (nameOf s) := by
  have hbar : '|' ∉ Text.beforeFirst bar s := fun h =>
    Text.not_infix_beforeFirst (List.cons_ne_nil _ _) s (bar_infix_iff.2 h)
  exact ⟨fun h => hbar ((Text.afterLast_suffix arrow _).subset h),
    Text.not_infix_afterLast (List.cons_ne_nil _ _) _⟩

theorem targetOf_eq_self (h : Reduced s) : targetOf s = s := by
  rw [targetOf, Text.afterLast_eq_self (mt bar_infix_iff.1 h.bar), Text.beforeFirst_eq_self h.arrow]

theorem nameOf_eq_self (h : Reduced s) : nameOf s = s := by
  rw [nameOf, Text.beforeFirst_eq_self (mt bar_infix_iff.1 h.bar), Text.afterLast_eq_self h.arrow]

theorem not_bar_infix_arrowed (ht : Reduced t) (hd : Reduced d) : ¬bar <:+: t ++ (arrow ++ d) := by
  rw [bar_infix_iff, List.mem_append, List.mem_append]
  rintro (h | h | h)
  · exact ht.bar h
  · revert h
    decide
  · exact hd.bar h

/-- A target that ends in the first character of an arrow makes no arrow with the one behind it. -/
theorem not_arrow_infix_left (ht : Reduced t) : ¬arrow <:+: t ++ arrow.dropLast := by
  show ¬arrow <:+: t ++ ['<']
  rw [List.infix_concat_iff]
  rintro (h | h)
  · rcases List.suffix_concat_iff.1 h with hnil | ⟨u, hu, -⟩
    · cases hnil
    · have hlast := congrArg List.getLast? hu
      rw [List.getLast?_concat] at hlast
      revert hlast
      decide
  · exact ht.arrow h

/-- A name that starts with the last character of an arrow makes no arrow with the one before it. -/
theorem not_arrow_infix_right (hd : Reduced d) : ¬arrow <:+: arrow.tail ++ d := by
  show ¬arrow <:+: '-' :: d
  rw [List.infix_cons_iff]
  rintro (h | h)
  · have hhead := (List.cons_prefix_cons.1 h).1
    revert hhead
    decide
  · exact hd.arrow h

/-- Both ways lead to the target. -/
theorem Routes.targetOf (h : Routes t d s) (ht : Reduced t) (hd : Reduced d) : targetOf s = t := by
  cases h with
  | piped =>
    have hbar : ¬bar <:+: bar.tail ++ t := mt bar_infix_iff.1 ht.bar
    rw [Link.targetOf, List.append_assoc, Text.afterLast_append hbar,
      Text.beforeFirst_eq_self ht.arrow]
  | arrowed =>
    rw [Link.targetOf, List.append_assoc, Text.afterLast_eq_self (not_bar_infix_arrowed ht hd),
      Text.beforeFirst_append (not_arrow_infix_left ht)]

/-- Both ways show the name. -/
theorem Routes.nameOf (h : Routes t d s) (ht : Reduced t) (hd : Reduced d) : nameOf s = d := by
  cases h with
  | piped =>
    have hbar : ¬bar <:+: d ++ bar.dropLast := by
      show ¬bar <:+: d ++ []
      rw [List.append_nil, bar_infix_iff]
      exact hd.bar
    rw [Link.nameOf, List.append_assoc, Text.beforeFirst_append hbar,
      Text.afterLast_eq_self hd.arrow]
  | arrowed =>
    rw [Link.nameOf, List.append_assoc, Text.beforeFirst_eq_self (not_bar_infix_arrowed ht hd),
      Text.afterLast_append (not_arrow_infix_right hd)]

theorem toList_target (raw : RawLink) : (ofRaw raw).target.toList = targetOf raw.link.toList :=
  String.toList_ofList

theorem toList_name (raw : RawLink) : (ofRaw raw).name.toList = nameOf raw.name.toList :=
  String.toList_ofList

/-- A link is made of its target and its name alone. -/
theorem ofRaw_congr {raw raw' : RawLink} (ht : (ofRaw raw).target = (ofRaw raw').target)
    (hn : (ofRaw raw).name = (ofRaw raw').name) : ofRaw raw = ofRaw raw' := by
  have htarget : targetOf raw.link.toList = targetOf raw'.link.toList := by
    rw [← toList_target, ht, toList_target]
  have hname : nameOf raw.name.toList = nameOf raw'.name.toList := by
    rw [← toList_name, hn, toList_name]
  simp only [ofRaw, htarget, hname]

/-- A written link without routing marks is its own target and name. -/
theorem ofRaw_of_reduced {link name : String} (ht : Reduced link.toList)
    (hn : Reduced name.toList) :
    (ofRaw ⟨link, name⟩).target = link ∧ (ofRaw ⟨link, name⟩).name = name := by
  constructor <;> apply String.toList_inj.1
  · rw [toList_target, targetOf_eq_self ht]
  · rw [toList_name, nameOf_eq_self hn]

theorem names_ofRaw (raw : RawLink) :
    Tint.Names (ofRaw raw).name.toList (ofRaw raw).tint (ofRaw raw).label.toList := by
  have hlabel : (ofRaw raw).label.toList =
      ((Tint.split? (nameOf raw.name.toList)).getD (.blue, nameOf raw.name.toList)).2 :=
    String.toList_ofList
  rw [Tint.names_iff, toList_name, hlabel]
  rfl

/-- **What becomes of a written link.** Its target and its name hold no routing mark, and a link
that is written as its target and its name stays as it is. A target and a name without routing marks
are found again, whichever way the link is written, in each of its texts. A name states exactly one
colour, and this is what the link has. -/
theorem ofRaw_reduced :
    (∀ raw, Reduced (ofRaw raw).target.toList ∧ Reduced (ofRaw raw).name.toList ∧
      ofRaw ⟨(ofRaw raw).target, (ofRaw raw).name⟩ = ofRaw raw) ∧
    (∀ t d, Reduced t → Reduced d → ∀ raw : RawLink, Routes t d raw.link.toList →
      Routes t d raw.name.toList →
        (ofRaw raw).target.toList = t ∧ (ofRaw raw).name.toList = d) ∧
    (∀ raw c label, Tint.Names (ofRaw raw).name.toList c label ↔
      c = (ofRaw raw).tint ∧ label = (ofRaw raw).label.toList) ∧
    ∀ name c label, Tint.Names name c label ↔ (Tint.split? name).getD (.blue, name) = (c, label) := by
  -- target and name are what is behind and in front of the last mark
  have hreduced : ∀ raw, Reduced (ofRaw raw).target.toList ∧ Reduced (ofRaw raw).name.toList := by
    intro raw
    rw [toList_target, toList_name]
    exact ⟨reduced_targetOf _, reduced_nameOf _⟩
  refine ⟨fun raw => ?_, fun t d ht hd raw hlink hname => ?_, fun raw c label => ?_,
    fun name c label => Tint.names_iff⟩
  · obtain ⟨htarget, hname⟩ := hreduced raw
    obtain ⟨htarget', hname'⟩ := ofRaw_of_reduced htarget hname
    exact ⟨htarget, hname, ofRaw_congr htarget' hname'⟩
  · rw [toList_target, toList_name]
    exact ⟨hlink.targetOf ht hd, hname.nameOf ht hd⟩
  · rw [Tint.names_iff, Tint.names_iff.1 (names_ofRaw raw), Prod.mk.injEq, eq_comm,
      eq_comm (a := (ofRaw raw).label.toList)]

/-- A target that ends in half an arrow and a name that starts with the other half, written in both
ways; and a name with two colours, of which the second is shown. -/
theorem ofRaw_reduced_halves :
    Reduced "a<".toList ∧ Reduced "-b".toList ∧
    (Routes "a<".toList "-b".toList "a<<--b".toList ∧ Routes "a<".toList "-b".toList "-b|a<".toList) ∧
    ((ofRaw ⟨"a<<--b", "-b|a<"⟩).target.toList = "a<".toList ∧
      (ofRaw ⟨"a<<--b", "-b|a<"⟩).name.toList = "-b".toList) ∧
    (ofRaw ⟨"a", "RED:GREEN:Go"⟩).tint = .red ∧
      (ofRaw ⟨"a", "RED:GREEN:Go"⟩).label.toList = "GREEN:Go".toList := by
  obtain ⟨-, hroutes, hcolour, -⟩ := ofRaw_reduced
  have ht : Reduced "a<".toList := ⟨by decide, by decide⟩
  have hd : Reduced "-b".toList := ⟨by decide, by decide⟩
  have hname : Tint.Names (ofRaw ⟨"a", "RED:GREEN:Go"⟩).name.toList .red "GREEN:Go".toList := by
    have hplain : Reduced "RED:GREEN:Go".toList := ⟨by decide, by decide⟩
    rw [toList_name, nameOf_eq_self hplain]
    exact .tinted (by decide)
  obtain ⟨htint, hlabel⟩ := (hcolour _ _ _).1 hname
  exact ⟨ht, hd, ⟨.arrowed, .piped⟩, hroutes _ _ ht hd ⟨"a<<--b", "-b|a<"⟩ .arrowed .piped,
    htint.symm, hlabel.symm⟩

end Link

end Stagecraft
