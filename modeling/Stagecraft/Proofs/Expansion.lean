import Stagecraft.Proofs.Fallible
import Stagecraft.Template.Placeholder

/-!
# What becomes of the placeholders of a text

A text falls into placeholders and single characters in one way only. Each placeholder that has
a value is replaced by it, and the values are not looked at again; the first one that has none
is the fault, whatever stands behind it.

* `Placeholder.Cut`: a text in pieces, told without a way to find them;
  `Placeholder.cut_iff`: there is one way to cut a text, and `cut` finds it.
* `Placeholders.Gives`, `Piece.filled`: the placeholders that have a value, and a piece with it.
* `Placeholder.scan`: the text gone through to its end, with the first fault kept;
  `Placeholder.scan_eq_expand`.
* `Placeholder.expand_exact`: **which texts are filled in, and with what**.
-/

namespace Stagecraft

namespace Placeholder

/-! ## Cutting a text -/

/-- **A text in pieces.** A placeholder is a `$` and a word that starts with a capital, and no
character behind it could stand in the word too. Every other character is a piece of its own; if
it is a `$`, then no capital follows. -/
inductive Cut : List Char → List Piece → Prop where
  | nil : Cut [] []
  | token {c : Char} {w rest : List Char} {ps : List Piece} (hstart : starts c = true)
      (hword : ∀ d ∈ w, continues d = true) (hend : ∀ d ∈ rest.head?, continues d = false)
      (hrest : Cut rest ps) : Cut ('$' :: (c :: w ++ rest)) (.token (c :: w) :: ps)
  | char {c : Char} {s : List Char} {ps : List Piece}
      (hlone : c = '$' → ∀ d ∈ s.head?, starts d = false) (hrest : Cut s ps) :
      Cut (c :: s) (.char c :: ps)

variable {c : Char} {s w rest : List Char} {ps : List Piece}

theorem continues_of_starts (h : starts c = true) : continues c = true := by
  rw [continues, h, Bool.true_or]

theorem word_cons (h : starts c = true) (s : List Char) :
    word (c :: s) = c :: s.takeWhile continues := by
  rw [word, if_pos h, List.takeWhile_cons_of_pos (continues_of_starts h)]

theorem word_eq_nil_iff : word s = [] ↔ ∀ d ∈ s.head?, starts d = false := by
  cases s with
  | nil =>
    refine ⟨fun _ d hd => ?_, fun _ => rfl⟩
    cases hd
  | cons c s =>
    by_cases h : starts c = true
    · rw [word_cons h]
      constructor
      · intro hnil
        cases hnil
      · intro hall
        have hc : starts c = false := hall c rfl
        rw [h] at hc
        cases hc
    · have hc : starts c = false := by simpa using h
      rw [word, if_neg h]
      refine ⟨fun _ d hd => ?_, fun _ => rfl⟩
      cases hd
      exact hc

theorem exists_of_word_ne_nil (h : word s ≠ []) : ∃ d t, s = d :: t ∧ starts d = true := by
  cases s with
  | nil => exact absurd rfl h
  | cons d t =>
    refine ⟨d, t, rfl, ?_⟩
    by_contra hd
    apply h
    rw [word, if_neg hd]

/-- The word goes on as long as it can. -/
theorem word_append (hstart : starts c = true) (hword : ∀ d ∈ w, continues d = true)
    (hend : ∀ d ∈ rest.head?, continues d = false) : word (c :: w ++ rest) = c :: w := by
  have hnone : rest.takeWhile continues = [] := by
    cases rest with
    | nil => rfl
    | cons d rest => exact List.takeWhile_cons_of_neg (by simp [hend d rfl])
  rw [List.cons_append, word_cons hstart, List.takeWhile_append_of_pos hword, hnone,
    List.append_nil]

theorem cut_char (h : c = '$' → ∀ d ∈ s.head?, starts d = false) :
    cut (c :: s) = .char c :: cut s := by
  rw [cut, if_neg fun hc => hc.2 (word_eq_nil_iff.2 (h hc.1))]

theorem cut_token (hstart : starts c = true) (hword : ∀ d ∈ w, continues d = true)
    (hend : ∀ d ∈ rest.head?, continues d = false) :
    cut ('$' :: (c :: w ++ rest)) = .token (c :: w) :: cut rest := by
  have hw : word (c :: w ++ rest) = c :: w := word_append hstart hword hend
  rw [cut, hw, if_pos ⟨rfl, List.cons_ne_nil _ _⟩, List.drop_left]

/-- A text is cut into the pieces that are found from the left. -/
theorem cut_of_cut (h : Cut s ps) : ps = cut s := by
  induction h with
  | nil => rw [cut]
  | token hstart hword hend _ ih => rw [cut_token hstart hword hend, ih]
  | char hlone _ ih => rw [cut_char hlone, ih]

theorem cut_cut (s : List Char) : Cut s (cut s) := by
  induction s using cut.induct with
  | case1 =>
    rw [cut]
    exact .nil
  | case2 c s h ih =>
    obtain ⟨rfl, hword⟩ := h
    -- the word is not empty, so a capital stands in front
    obtain ⟨d, t, rfl, hstart⟩ := exists_of_word_ne_nil hword
    have hsplit : d :: t = d :: t.takeWhile continues ++ t.dropWhile continues := by
      rw [List.cons_append, List.takeWhile_append_dropWhile]
    have hall : ∀ e ∈ t.takeWhile continues, continues e = true :=
      List.all_eq_true.1 List.all_takeWhile
    have hend : ∀ e ∈ (t.dropWhile continues).head?, continues e = false := by
      intro e he
      have hnot := List.head?_dropWhile_not continues t
      rw [Option.mem_def.1 he] at hnot
      exact hnot
    have hrest : (d :: t).drop (word (d :: t)).length = t.dropWhile continues := by
      rw [word_cons hstart]
      conv_lhs => rw [hsplit]
      rw [List.drop_left]
    rw [hrest] at ih
    rw [hsplit, cut_token hstart hall hend]
    exact .token hstart hall hend ih
  | case3 c s h ih =>
    have hlone : c = '$' → ∀ d ∈ s.head?, starts d = false := fun hc =>
      word_eq_nil_iff.1 (by_contra fun hw => h ⟨hc, hw⟩)
    rw [cut_char hlone]
    exact .char hlone ih

/-- **There is one way to cut a text.** -/
theorem cut_iff : Cut s ps ↔ ps = cut s :=
  ⟨cut_of_cut, fun h => h ▸ cut_cut s⟩

end Placeholder

/-! ## Filling in -/

namespace Placeholders

open Placeholder (idWord positionWord)

/-- The placeholder has a value. -/
def Gives (values : Placeholders) (w : List Char) : Prop :=
  (w = idWord ∧ values.id.isSome) ∨ (w = positionWord ∧ values.position.isSome)

instance (values : Placeholders) (w : List Char) : Decidable (values.Gives w) :=
  inferInstanceAs (Decidable (_ ∨ _))

/-- What is put in for a placeholder. -/
def text (values : Placeholders) (w : List Char) : List Char :=
  if w = idWord then (values.id.getD "").toList
  else (values.position.elim "" Decimal.format).toList

end Placeholders

namespace Placeholder

variable {template : String} {values : Placeholders} {w : List Char} {f : Fault} {p : Piece}
  {ps : List Piece}

/-- A piece of a text that is filled in. -/
def Piece.filled (values : Placeholders) : Piece → List Char
  | .char c => [c]
  | .token w => values.text w

/-- What is shown of a placeholder that has no value. -/
def rejection (template : String) (w : List Char) : Notice :=
  if w = idWord ∨ w = positionWord then
    ⟨"TEMPLATE_PLACEHOLDER_UNRESOLVED",
      "Template " ++ quoted template ++ " needs a value for $" ++ String.ofList w ++ ".", none⟩
  else
    ⟨"TEMPLATE_PLACEHOLDER_UNKNOWN",
      "Template " ++ quoted template ++ " uses unknown placeholder $" ++ String.ofList w ++ ".",
      none⟩

/-- A placeholder that has a value gives it. -/
theorem fill?_of_gives (h : values.Gives w) : fill? template values w = .ok (values.text w) := by
  rcases h with ⟨hid, hv⟩ | ⟨hpos, hv⟩
  · obtain ⟨i, hi⟩ := Option.isSome_iff_exists.1 hv
    rw [fill?, if_pos hid, Placeholders.text, if_pos hid, hi]
    rfl
  · obtain ⟨x, hx⟩ := Option.isSome_iff_exists.1 hv
    have hid : w ≠ idWord := by
      rw [hpos]
      decide
    rw [fill?, if_neg hid, if_pos hpos, Placeholders.text, if_neg hid, hx]
    show Except.ok (Decimal.plain.write x) = .ok (String.ofList (Decimal.plain.write x)).toList
    rw [String.toList_ofList]

/-- A placeholder that has none gives the fault that names it. -/
theorem fill?_of_not_gives (template : String) (h : ¬ values.Gives w) :
    ∃ f, fill? template values w = .error f ∧ f.notice = rejection template w := by
  obtain ⟨hid, hpos⟩ := not_or.1 h
  -- the two words that are known are unresolved, and any other one is unknown
  by_cases hw : w = idWord
  · have hnone : values.id = none := by simpa [hw] using hid
    refine ⟨.placeholderUnresolved template (String.ofList w), ?_, ?_⟩
    · rw [fill?, if_pos hw, hnone]
      rfl
    · rw [rejection, if_pos (.inl hw), Fault.notice]
  · by_cases hw' : w = positionWord
    · have hnone : values.position = none := by simpa [hw'] using hpos
      refine ⟨.placeholderUnresolved template (String.ofList w), ?_, ?_⟩
      · rw [fill?, if_neg hw, if_pos hw', hnone]
        rfl
      · rw [rejection, if_pos (.inr hw'), Fault.notice]
    · refine ⟨.placeholderUnknown template (String.ofList w), ?_, ?_⟩
      · rw [fill?, if_neg hw, if_neg hw']
      · rw [rejection, if_neg (not_or.2 ⟨hw, hw'⟩), Fault.notice]

/-- **All are filled in**, if all have a value. -/
theorem mapM_fill?_of_gives (h : ∀ w, .token w ∈ ps → values.Gives w) :
    ps.mapM (Piece.fill? template values) = .ok (ps.map (Piece.filled values)) := by
  have hpure : ps.mapM (Piece.fill? template values) = ps.mapM fun p => pure (p.filled values) := by
    apply mapM_congr
    intro p hp
    cases p with
    | char c => rfl
    | token w => exact fill?_of_gives (h w hp)
  rw [hpure, List.mapM_pure]
  rfl

/-- **The first one that has none is the fault**, whatever stands behind it. -/
theorem mapM_fill?_of_not_gives (template : String) {front : List Piece} (back : List Piece)
    (hfront : ∀ v, .token v ∈ front → values.Gives v) (hw : ¬ values.Gives w) :
    ∃ f, (front ++ .token w :: back).mapM (Piece.fill? template values) = .error f ∧
      f.notice = rejection template w := by
  obtain ⟨f, hf, hnotice⟩ := fill?_of_not_gives template hw
  refine ⟨f, ?_, hnotice⟩
  rw [List.mapM_append, mapM_fill?_of_gives hfront, List.mapM_cons,
    show Piece.fill? template values (.token w) = .error f from hf]
  rfl

/-- All placeholders have a value, or there is a first one that has none. -/
theorem gives_or_first (values : Placeholders) (ps : List Piece) :
    (∀ w, .token w ∈ ps → values.Gives w) ∨ ∃ front w back, ps = front ++ .token w :: back ∧
      (∀ v, .token v ∈ front → values.Gives v) ∧ ¬ values.Gives w := by
  induction ps with
  | nil => exact .inl fun w hw => absurd hw List.not_mem_nil
  | cons p ps ih =>
    by_cases hp : ∃ w, p = .token w ∧ ¬ values.Gives w
    · obtain ⟨w, rfl, hw⟩ := hp
      exact .inr ⟨[], w, ps, rfl, fun v hv => absurd hv List.not_mem_nil, hw⟩
    · -- a piece in front of the first one that has no value is no reason
      have hgives : ∀ w, p = .token w → values.Gives w := fun w hw =>
        by_contra fun hno => hp ⟨w, hw, hno⟩
      rcases ih with hall | ⟨front, w, back, rfl, hfront, hw⟩
      · refine .inl fun w hw => ?_
        rcases List.mem_cons.1 hw with h | h
        · exact hgives w h.symm
        · exact hall w h
      · refine .inr ⟨p :: front, w, back, rfl, fun v hv => ?_, hw⟩
        rcases List.mem_cons.1 hv with h | h
        · exact hgives v h.symm
        · exact hfront v h

/-! ## Going on behind a fault -/

/-- One piece more: its text is added, or its fault is kept if it is the first. -/
def replace (template : String) (values : Placeholders) (done : List Char × Option Fault)
    (p : Piece) : List Char × Option Fault :=
  match p.fill? template values with
  | .ok s => (done.1 ++ s, done.2)
  | .error f => (done.1, done.2.or (some f))

/-- What is made of the text in the end. -/
def answer : List Char × Option Fault → Except Fault (List Char)
  | (out, none) => .ok out
  | (_, some f) => .error f

/-- The text gone through to its end. -/
def scan (template : String) (values : Placeholders) (s : List Char) : Except Fault (List Char) :=
  answer ((cut s).foldl (replace template values) ([], none))

/-- A fault stays. -/
theorem answer_foldl_fault (ps : List Piece) (out : List Char) (f : Fault) :
    answer (ps.foldl (replace template values) (out, some f)) = .error f := by
  induction ps generalizing out with
  | nil => rfl
  | cons p ps ih =>
    rw [List.foldl_cons, replace]
    cases p.fill? template values with
    | ok s => exact ih (out ++ s)
    | error g => exact ih out

theorem answer_foldl (ps : List Piece) (out : List Char) :
    answer (ps.foldl (replace template values) (out, none)) =
      (ps.mapM (Piece.fill? template values)).map fun texts => out ++ texts.flatten := by
  induction ps generalizing out with
  | nil => exact congrArg Except.ok (List.append_nil out).symm
  | cons p ps ih =>
    rw [List.foldl_cons, List.mapM_cons, replace]
    cases p.fill? template values with
    | ok s =>
      have hrest := ih (out ++ s)
      cases hps : ps.mapM (Piece.fill? template values) with
      | ok texts =>
        rw [hps] at hrest
        exact hrest.trans (congrArg Except.ok (List.append_assoc out s _))
      | error f =>
        rw [hps] at hrest
        exact hrest
    -- behind a fault the pieces are gone through, but it stays
    | error f => exact answer_foldl_fault ps out f

/-- **Nothing behind the first fault counts.** -/
theorem scan_eq_expand (template : String) (values : Placeholders) (s : List Char) :
    scan template values s = expand template values s :=
  answer_foldl (cut s) []

/-- **Placeholders, exactly.** There is one way to cut a text. It can be filled in exactly if all of
its placeholders have a value, and then each of them has become its value and all else has stayed;
the values are not cut again. Otherwise the fault names the first placeholder that has no value.
It is the same if the text is gone through to its end. -/
theorem expand_exact (template : String) (values : Placeholders) (s : List Char) :
    scan template values s = expand template values s ∧
    ∃ ps, (∀ qs, Cut s qs ↔ qs = ps) ∧
      (∀ out, expand template values s = .ok out ↔
        (∀ w, .token w ∈ ps → values.Gives w) ∧ out = ps.flatMap (Piece.filled values)) ∧
      ∀ f, expand template values s = .error f → ∃ front w back, ps = front ++ .token w :: back ∧
        (∀ v, .token v ∈ front → values.Gives v) ∧ ¬ values.Gives w ∧
        f.notice = rejection template w := by
  refine ⟨scan_eq_expand template values s, cut s, fun qs => cut_iff, ?_⟩
  rw [expand]
  rcases gives_or_first values (cut s) with hall | ⟨front, w, back, hsplit, hfront, hw⟩
  · -- all have a value, so nothing else can come out
    rw [mapM_fill?_of_gives hall]
    constructor
    · intro out
      constructor
      · intro h
        cases h
        exact ⟨hall, rfl⟩
      · rintro ⟨-, rfl⟩
        rfl
    · intro f hf
      cases hf
  · -- one has none, and it is among the pieces, so nothing comes out
    obtain ⟨f, hf, hnotice⟩ := mapM_fill?_of_not_gives template back hfront hw
    have hmem : .token w ∈ cut s := by
      rw [hsplit]
      exact List.mem_append_right _ List.mem_cons_self
    rw [← hsplit] at hf
    rw [hf]
    constructor
    · intro out
      constructor
      · intro h
        cases h
      · rintro ⟨hall, -⟩
        exact absurd (hall w hmem) hw
    · intro g hg
      cases hg
      exact ⟨front, w, back, hsplit, hfront, hw, hnotice⟩

/-- An id that looks like a placeholder. -/
def nested : Placeholders := ⟨some "$POSITION", none⟩

/-- The id is put in as it is, and a word that goes on is another placeholder. -/
theorem expand_exact_nested :
    expand "panel" nested "$$ID-X $5".toList = .ok "$$POSITION-X $5".toList ∧
    ∃ f w, expand "panel" nested "$$ID $ID_X".toList = .error f ∧ f.notice = rejection "panel" w ∧
      ¬ nested.Gives w := by
  obtain ⟨-, ps, hps, hok, -⟩ := expand_exact "panel" nested "$$ID-X $5".toList
  obtain ⟨-, qs, hqs, hok', hfault⟩ := expand_exact "panel" nested "$$ID $ID_X".toList
  have hfirst : [.char '$', .token ['I', 'D'], .char '-', .char 'X', .char ' ', .char '$',
      .char '5'] = ps := (hps _).1 (cut_iff.2 (by cbv))
  have hsecond : [.char '$', .token ['I', 'D'], .char ' ', .token ['I', 'D', '_', 'X']] = qs :=
    (hqs _).1 (cut_iff.2 (by cbv))
  refine ⟨(hok _).2 ?_, ?_⟩
  · rw [← hfirst]
    refine ⟨fun w hw => ?_, by decide⟩
    have hid : w = ['I', 'D'] := by simpa using hw
    exact .inl ⟨hid, rfl⟩
  · cases hout : expand "panel" nested "$$ID $ID_X".toList with
    | ok out =>
      have hmem : .token ['I', 'D', '_', 'X'] ∈ qs := by
        rw [← hsecond]
        decide
      exact absurd (((hok' out).1 hout).1 _ hmem) (by decide)
    | error f =>
      obtain ⟨_, w, _, -, -, hw, hnotice⟩ := hfault f hout
      exact ⟨f, w, rfl, hnotice, hw⟩

end Placeholder

end Stagecraft
