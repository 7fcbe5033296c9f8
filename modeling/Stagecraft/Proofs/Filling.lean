import Stagecraft.Json.Printer
import Stagecraft.Proofs.Decimals
import Stagecraft.Proofs.Expansion
import Stagecraft.Stage.Ids

/-!
# Filling in a written document

The placeholders of a document are filled in while it is still a text. No placeholder reaches into
a quote, an escape or a number, so it comes to the same to fill in the texts and the keys of the
document itself, in the order in which they are written, if the id that is put in needs no escapes.

* `Placeholder.expand_append`, `Placeholder.expand_escape`: filling in part by part, and what is
  escaped.
* `Json.texts`, `Json.mapTexts`, `Json.traverse`: the texts and keys of a document as they are
  written, with each of them replaced, or with the first fault.
* `Json.expand_chars`: the placeholders of a document and those of its text.
* `Json.expand_compact`: **which documents are filled in, and with what**.
-/

namespace Stagecraft

/-- **A text without escapes**: no quote, no backslash and no character below U+0020. -/
def Unescaped (s : List Char) : Prop := ∀ c ∈ s, c ≠ '"' ∧ c ≠ '\\' ∧ 0x20 ≤ c.toNat

instance (s : List Char) : Decidable (Unescaped s) := inferInstanceAs (Decidable (∀ c ∈ s, _))

namespace Placeholder

open Json (escape)

variable {template : String} {values : Placeholders} {c : Char} {s t w : List Char}
  {ps qs : List Piece}

/-! ## Part by part -/

/-- The texts of pieces, one after the other, or the first fault. -/
def fillAll (template : String) (values : Placeholders) : List Piece → Except Fault (List Char)
  | [] => .ok []
  | p :: ps => (p.fill? template values).bind fun a => (fillAll template values ps).map (a ++ ·)

theorem expand_of_cut (h : Cut s ps) : expand template values s = fillAll template values ps := by
  rw [expand, ← cut_iff.1 h]
  clear h
  induction ps with
  | nil => rfl
  | cons p ps ih =>
    rw [fillAll, ← ih, List.mapM_cons]
    cases p.fill? template values with
    | error f => rfl
    | ok a => cases ps.mapM (Piece.fill? template values) <;> rfl

theorem expand_eq (s : List Char) : expand template values s = fillAll template values (cut s) :=
  expand_of_cut (cut_cut s)

theorem fillAll_append (ps qs : List Piece) : fillAll template values (ps ++ qs) =
    (fillAll template values ps).bind fun a => (fillAll template values qs).map (a ++ ·) := by
  induction ps with
  | nil =>
    rw [List.nil_append, fillAll]
    cases fillAll template values qs <;> rfl
  | cons p ps ih =>
    rw [List.cons_append, fillAll, fillAll, ih]
    cases p.fill? template values with
    | error f => rfl
    | ok a =>
      cases fillAll template values ps with
      | error f => rfl
      | ok b =>
        cases fillAll template values qs with
        | error f => rfl
        | ok c => exact congrArg Except.ok (List.append_assoc a b c).symm

/-- A character that is no `$` stays, and what follows is filled in by itself. -/
theorem expand_cons (hc : c ≠ '$') (s : List Char) :
    expand template values (c :: s) = (expand template values s).map (c :: ·) := by
  have hlone : c = '$' → ∀ d ∈ s.head?, starts d = false := fun h => absurd h hc
  rw [expand_of_cut (.char hlone (cut_cut s)), expand_eq]
  rfl

theorem expand_of_plain (h : ∀ c ∈ s, c ≠ '$') : expand template values s = .ok s := by
  induction s with
  | nil =>
    rw [expand_of_cut .nil]
    rfl
  | cons c s ih =>
    obtain ⟨hc, hs⟩ := List.forall_mem_cons.1 h
    rw [expand_cons hc, ih hs]
    rfl

theorem starts_of_continues (h : continues c = false) : starts c = false := by
  rw [continues, Bool.or_eq_false_iff] at h
  exact h.1

/-- **No placeholder reaches over a character that could not stand in it.** -/
theorem Cut.append (hs : Cut s ps) (ht : Cut t qs) (hend : ∀ d ∈ t.head?, continues d = false) :
    Cut (s ++ t) (ps ++ qs) := by
  induction hs with
  | nil => exact ht
  | @token c w rest ps hstart hword hrest _ ih =>
    have hsplit : '$' :: (c :: w ++ rest) ++ t = '$' :: (c :: w ++ (rest ++ t)) := by simp
    rw [hsplit]
    refine .token hstart hword (fun d hd => ?_) ih
    cases rest with
    | nil => exact hend d hd
    | cons => exact hrest d hd
  | @char c s ps hlone _ ih =>
    refine .char (fun hc d hd => ?_) ih
    cases s with
    | nil => exact starts_of_continues (hend d hd)
    | cons => exact hlone hc d hd

theorem expand_append (s t : List Char) (hend : ∀ d ∈ t.head?, continues d = false) :
    expand template values (s ++ t) =
      (expand template values s).bind fun a => (expand template values t).map (a ++ ·) := by
  rw [expand_of_cut ((cut_cut s).append (cut_cut t) hend), fillAll_append, expand_eq, expand_eq]

/-- A separator parts what is in front of it from what is behind it. -/
theorem expand_append_cons (hc : c ≠ '$') (hend : continues c = false) (s t : List Char) :
    expand template values (s ++ c :: t) =
      (expand template values s).bind fun a => (expand template values t).map (a ++ c :: ·) := by
  rw [expand_append s (c :: t) (fun d hd => by cases hd; exact hend), expand_cons hc]
  cases expand template values s with
  | error f => rfl
  | ok a => cases expand template values t <;> rfl

/-! ## Escapes -/

theorem letter?_ne {l : Char} (h : Json.letter? c = some l) : l ≠ '$' := by
  unfold Json.letter? at h
  split at h
  all_goals
    cases h
    try decide

theorem digitChar_ne {n : Nat} (h : n < 16) : Nat.digitChar n ≠ '$' := by
  revert n
  decide

/-- A character stays, or a backslash and something without a `$` stand for it. -/
theorem escape_cases (c : Char) :
    escape c = [c] ∨ ∃ t, escape c = '\\' :: t ∧ ∀ d ∈ '\\' :: t, d ≠ '$' := by
  unfold escape
  split
  · rename_i l hl
    refine .inr ⟨[l], rfl, ?_⟩
    simp only [List.forall_mem_cons]
    exact ⟨by decide, letter?_ne hl, nofun⟩
  · split
    · rename_i hlow
      have hhigh : c.toNat / 16 < 16 := by omega
      have hrest : c.toNat % 16 < 16 := Nat.mod_lt _ (by decide)
      refine .inr ⟨_, rfl, ?_⟩
      simp only [List.forall_mem_cons]
      exact ⟨by decide, by decide, by decide, by decide, digitChar_ne hhigh, digitChar_ne hrest,
        nofun⟩
    · exact .inl rfl

theorem escape_of_unescaped (h : Unescaped s) : s.flatMap escape = s := by
  induction s with
  | nil => rfl
  | cons c s ih =>
    obtain ⟨⟨hquote, hbackslash, hlow⟩, hs⟩ := List.forall_mem_cons.1 h
    -- the characters with a letter of their own are the quote, the backslash and control characters
    have hletter : Json.letter? c = none := by
      unfold Json.letter?
      split
      · exact absurd rfl hquote
      · exact absurd rfl hbackslash
      · exact absurd hlow (by decide)
      · exact absurd hlow (by decide)
      · exact absurd hlow (by decide)
      · exact absurd hlow (by decide)
      · exact absurd hlow (by decide)
      · rfl
    have hescape : escape c = [c] := by
      rw [escape, hletter]
      exact if_neg (Nat.not_lt.2 hlow)
    rw [List.flatMap_cons, ih hs, hescape]
    rfl

/-- What holds of a backslash and of the first character holds of the first one when it is
escaped. -/
theorem head_escape {P : Char → Prop} (hP : P '\\') (h : ∀ d ∈ s.head?, P d) :
    ∀ d ∈ (s.flatMap escape).head?, P d := by
  cases s with
  | nil => exact h
  | cons c s =>
    intro d hd
    rcases escape_cases c with hc | ⟨t, hc, -⟩
    · rw [List.flatMap_cons, hc] at hd
      cases hd
      exact h c rfl
    · rw [List.flatMap_cons, hc] at hd
      cases hd
      exact hP

/-- A piece of a text whose characters are escaped. -/
def Piece.escaped : Piece → List Piece
  | .char c => (escape c).map .char
  | .token w => [.token w]

theorem Cut.plain_append (hs : ∀ c ∈ s, c ≠ '$') (ht : Cut t qs) :
    Cut (s ++ t) (s.map .char ++ qs) := by
  induction s with
  | nil => exact ht
  | cons c s ih =>
    obtain ⟨hc, hs⟩ := List.forall_mem_cons.1 hs
    exact .char (fun h => absurd h hc) (ih hs)

theorem unescaped_of_continues (hw : ∀ d ∈ w, continues d = true) : Unescaped w := by
  intro d hd
  have hcontinues := hw d hd
  refine ⟨?_, ?_, ?_⟩
  · rintro rfl
    revert hcontinues
    decide
  · rintro rfl
    revert hcontinues
    decide
  · have hcases : ('A' ≤ d ∧ d ≤ 'Z') ∨ d = '_' := by
      simpa [continues, starts] using hcontinues
    rcases hcases with ⟨hge, -⟩ | rfl
    · have hnat : 'A'.toNat ≤ d.toNat := hge
      exact Nat.le_trans (by decide) hnat
    · decide

/-- **Escapes do not touch placeholders**, and make none. -/
theorem Cut.escaped (h : Cut s ps) : Cut (s.flatMap escape) (ps.flatMap Piece.escaped) := by
  induction h with
  | nil => exact .nil
  | @token c w rest ps hstart hword hend _ ih =>
    have hplain : Unescaped (c :: w) := unescaped_of_continues
      (List.forall_mem_cons.2 ⟨continues_of_starts hstart, hword⟩)
    rw [List.flatMap_cons, List.flatMap_append, escape_of_unescaped hplain]
    exact .token hstart hword (head_escape (P := fun d => continues d = false) (by decide) hend) ih
  | @char c s ps hlone _ ih =>
    rw [List.flatMap_cons, List.flatMap_cons]
    show Cut (escape c ++ _) ((escape c).map .char ++ _)
    rcases escape_cases c with hc | ⟨t, hc, ht⟩
    · rw [hc]
      exact .char (fun h => head_escape (P := fun d => starts d = false) (by decide) (hlone h)) ih
    · rw [hc]
      exact plain_append ht ih

/-! ## What is put in -/

theorem unescaped_of_inDouble (h : ∀ c ∈ s, Decimal.InDouble c) : Unescaped s := by
  have hmarks : Unescaped Decimal.marks := by decide
  intro c hc
  rcases h c hc with hdigit | hmark
  · have hge : '0'.toNat ≤ c.toNat := by
      have hcases : 48 ≤ c.val ∧ c.val ≤ 57 := by simpa [Char.isDigit] using hdigit
      exact UInt32.le_iff_toNat_le.1 hcases.1
    refine ⟨?_, ?_, Nat.le_trans (by decide) hge⟩
    · rintro rfl
      revert hdigit
      decide
    · rintro rfl
      revert hdigit
      decide
  · exact hmarks c hmark

/-- What is put in needs no escapes if the id does not. -/
theorem unescaped_of_fill? {out : List Char} (hid : ∀ i ∈ values.id, Unescaped i.toList)
    (h : fill? template values w = .ok out) : Unescaped out := by
  unfold fill? at h
  simp only at h
  split at h
  · -- the word is that of the id
    cases hv : values.id with
    | none =>
      rw [hv] at h
      cases h
    | some i =>
      rw [hv] at h
      cases h
      exact hid i hv
  split at h
  · -- the word is that of the position, which is a number
    cases hv : values.position with
    | none =>
      rw [hv] at h
      cases h
    | some x =>
      rw [hv] at h
      cases h
      exact unescaped_of_inDouble (Decimal.inDouble_write _ x)
  · cases h

theorem fillAll_chars (s : List Char) : fillAll template values (s.map .char) = .ok s := by
  induction s with
  | nil => rfl
  | cons c s ih =>
    rw [List.map_cons, fillAll, ih]
    rfl

/-- An escaped piece gives the escaped text of the piece. -/
theorem fillAll_escaped (hid : ∀ i ∈ values.id, Unescaped i.toList) (p : Piece) :
    fillAll template values p.escaped =
      (p.fill? template values).map fun out => out.flatMap escape := by
  cases p with
  | char c =>
    rw [Piece.escaped, fillAll_chars]
    exact congrArg Except.ok (List.append_nil _).symm
  | token w =>
    rw [Piece.escaped, fillAll]
    cases hw : Piece.fill? template values (.token w) with
    | error f => rfl
    | ok out =>
      have hout := escape_of_unescaped (unescaped_of_fill? hid hw)
      rw [Except.map, hout]
      exact congrArg Except.ok (List.append_nil out)

/-- **An escaped text is filled in** as the text is, and what comes of it is escaped. -/
theorem expand_escape (hid : ∀ i ∈ values.id, Unescaped i.toList) (s : List Char) :
    expand template values (s.flatMap escape) =
      (expand template values s).map fun out => out.flatMap escape := by
  rw [expand_of_cut (cut_cut s).escaped, expand_eq]
  induction cut s with
  | nil => rfl
  | cons p ps ih =>
    rw [List.flatMap_cons, fillAll_append, fillAll_escaped hid, ih, fillAll]
    cases p.fill? template values with
    | error f => rfl
    | ok a =>
      cases fillAll template values ps with
      | error f => rfl
      | ok b => exact congrArg Except.ok List.flatMap_append.symm

/-- A text with its placeholders filled in. -/
def expandText (template : String) (values : Placeholders) (s : String) : Except Fault String :=
  (expand template values s.toList).map String.ofList

end Placeholder

/-! ## Documents -/

namespace Json

open Placeholder (expand expandText)

mutual

/-- **The texts and keys of a value**, in the order in which they are written. -/
def texts : Json → List String
  | .str s => [s]
  | .arr vs => itemTexts vs
  | .obj fs => fieldTexts fs
  | _ => []

def itemTexts : List Json → List String
  | [] => []
  | v :: vs => texts v ++ itemTexts vs

def fieldTexts : List (String × Json) → List String
  | [] => []
  | (k, v) :: fs => k :: (texts v ++ fieldTexts fs)

end

mutual

/-- The value with `g` applied to each text and each key. -/
def mapTexts (g : String → String) : Json → Json
  | .str s => .str (g s)
  | .arr vs => .arr (mapItems g vs)
  | .obj fs => .obj (mapFields g fs)
  | v => v

def mapItems (g : String → String) : List Json → List Json
  | [] => []
  | v :: vs => mapTexts g v :: mapItems g vs

def mapFields (g : String → String) : List (String × Json) → List (String × Json)
  | [] => []
  | (k, v) :: fs => (g k, mapTexts g v) :: mapFields g fs

end

mutual

/-- The value with each text and each key replaced, or the first fault in written order. -/
def mapTexts? (g : String → Except Fault String) : Json → Except Fault Json
  | .str s => (g s).map .str
  | .arr vs => (mapItems? g vs).map .arr
  | .obj fs => (mapFields? g fs).map .obj
  | v => .ok v

def mapItems? (g : String → Except Fault String) : List Json → Except Fault (List Json)
  | [] => .ok []
  | v :: vs => (mapTexts? g v).bind fun w => (mapItems? g vs).map (w :: ·)

def mapFields? (g : String → Except Fault String) :
    List (String × Json) → Except Fault (List (String × Json))
  | [] => .ok []
  | (k, v) :: fs => (g k).bind fun key => (mapTexts? g v).bind fun w =>
      (mapFields? g fs).map ((key, w) :: ·)

end

section MapTexts

variable {g : String → String} {g? : String → Except Fault String} {f : Fault}

mutual

/-- If each of them is replaced, the whole value is. -/
theorem mapTexts?_eq_ok : ∀ v : Json, (∀ s ∈ v.texts, g? s = .ok (g s)) →
    v.mapTexts? g? = .ok (v.mapTexts g)
  | .str s, h => by
    rw [mapTexts?, h s List.mem_cons_self]
    rfl
  | .arr vs, h => by
    rw [mapTexts?, mapItems?_eq_ok vs h]
    rfl
  | .obj fs, h => by
    rw [mapTexts?, mapFields?_eq_ok fs h]
    rfl
  | .null, _ | .bool _, _ | .num _, _ => rfl

theorem mapItems?_eq_ok : ∀ vs : List Json, (∀ s ∈ itemTexts vs, g? s = .ok (g s)) →
    mapItems? g? vs = .ok (mapItems g vs)
  | [], _ => rfl
  | v :: vs, h => by
    rw [itemTexts, List.forall_mem_append] at h
    rw [mapItems?, mapTexts?_eq_ok v h.1, mapItems?_eq_ok vs h.2]
    rfl

theorem mapFields?_eq_ok : ∀ fs : List (String × Json), (∀ s ∈ fieldTexts fs, g? s = .ok (g s)) →
    mapFields? g? fs = .ok (mapFields g fs)
  | [], _ => rfl
  | (k, v) :: fs, h => by
    rw [fieldTexts, List.forall_mem_cons, List.forall_mem_append] at h
    rw [mapFields?, h.1, mapTexts?_eq_ok v h.2.1, mapFields?_eq_ok fs h.2.2]
    rfl

end

/-- The first fault in a list of texts. -/
def check (g? : String → Except Fault String) : List String → Except Fault Unit
  | [] => .ok ()
  | s :: ss => (g? s).bind fun _ => check g? ss

theorem check_append (as bs : List String) :
    check g? (as ++ bs) = (check g? as).bind fun _ => check g? bs := by
  induction as with
  | nil => rfl
  | cons a as ih =>
    rw [List.cons_append, check, check, ih]
    cases g? a <;> rfl

mutual

/-- **The fault of a value** is the first one of its texts. -/
theorem map_mapTexts? : ∀ v : Json, (v.mapTexts? g?).map (fun _ => ()) = check g? v.texts
  | .str s => by
    rw [mapTexts?, texts, check]
    cases g? s <;> rfl
  | .arr vs => by
    rw [mapTexts?, texts, ← map_mapItems? vs]
    cases mapItems? g? vs <;> rfl
  | .obj fs => by
    rw [mapTexts?, texts, ← map_mapFields? fs]
    cases mapFields? g? fs <;> rfl
  | .null | .bool _ | .num _ => rfl

theorem map_mapItems? : ∀ vs : List Json,
    (mapItems? g? vs).map (fun _ => ()) = check g? (itemTexts vs)
  | [] => rfl
  | v :: vs => by
    rw [mapItems?, itemTexts, check_append, ← map_mapTexts? v, ← map_mapItems? vs]
    cases v.mapTexts? g? with
    | error f => rfl
    | ok w => cases mapItems? g? vs <;> rfl

theorem map_mapFields? : ∀ fs : List (String × Json),
    (mapFields? g? fs).map (fun _ => ()) = check g? (fieldTexts fs)
  | [] => rfl
  | (k, v) :: fs => by
    rw [mapFields?, fieldTexts, check, check_append, ← map_mapTexts? v, ← map_mapFields? fs]
    cases g? k with
    | error f => rfl
    | ok key =>
      cases v.mapTexts? g? with
      | error f => rfl
      | ok w => cases mapFields? g? fs <;> rfl

end

/-- The first of its texts that is not replaced is the fault of the whole value. -/
theorem mapTexts?_eq_error {v : Json} {front back : List String} {s : String}
    (htexts : v.texts = front ++ s :: back) (hfront : ∀ r ∈ front, ∃ out, g? r = .ok out)
    (hs : g? s = .error f) : v.mapTexts? g? = .error f := by
  have hcheck : check g? front = .ok () := by
    clear htexts
    induction front with
    | nil => rfl
    | cons r front ih =>
      obtain ⟨⟨out, hr⟩, hfront⟩ := List.forall_mem_cons.1 hfront
      rw [check, hr]
      exact ih hfront
  -- a value has the fault that its list of texts has
  have hfault : (v.mapTexts? g?).map (fun _ => ()) = .error f := by
    rw [map_mapTexts?, htexts, check_append, hcheck]
    show check g? (s :: back) = _
    rw [check, hs]
    rfl
  cases hv : v.mapTexts? g? with
  | ok w =>
    rw [hv] at hfault
    cases hfault
  | error f' =>
    rw [hv] at hfault
    exact congrArg Except.error (Except.error.inj hfault)

theorem mapItems?_cons (v : Json) (vs : List Json) : mapItems? g? (v :: vs) =
    (v.mapTexts? g?).bind fun w => (mapItems? g? vs).map (w :: ·) := by
  rw [mapItems?]

theorem mapFields?_cons (k : String) (v : Json) (fs : List (String × Json)) :
    mapFields? g? ((k, v) :: fs) = (g? k).bind fun key => (v.mapTexts? g?).bind fun w =>
      (mapFields? g? fs).map ((key, w) :: ·) := by
  rw [mapFields?]

theorem exists_cons_of_mapItems? {v : Json} {vs ws : List Json}
    (h : mapItems? g? (v :: vs) = .ok ws) : ∃ w ws', ws = w :: ws' := by
  obtain ⟨w, -, h⟩ := bind_eq_ok h
  obtain ⟨ws', -, rfl⟩ := map_eq_ok h
  exact ⟨w, ws', rfl⟩

theorem exists_cons_of_mapFields? {e : String × Json} {fs gs : List (String × Json)}
    (h : mapFields? g? (e :: fs) = .ok gs) : ∃ e' gs', gs = e' :: gs' := by
  obtain ⟨key, -, h⟩ := bind_eq_ok h
  obtain ⟨w, -, h⟩ := bind_eq_ok h
  obtain ⟨gs', -, rfl⟩ := map_eq_ok h
  exact ⟨(key, w), gs', rfl⟩

end MapTexts

/-! ## The text of a document -/

section Expand

variable {template : String} {values : Placeholders}

theorem inDouble_ne {c : Char} (h : Decimal.InDouble c) : c ≠ '$' := by
  rintro rfl
  revert h
  decide

/-- A number has no placeholder. -/
theorem expand_number (n : Number) : expand template values n.chars = .ok n.chars := by
  refine Placeholder.expand_of_plain ?_
  cases n with
  | int n =>
    unfold Number.chars
    simp only [List.forall_mem_append]
    refine ⟨?_, fun c hc => inDouble_ne (Decimal.inDouble_digitsOf _ c hc)⟩
    split <;> decide
  | float x => exact fun c hc => inDouble_ne (Decimal.inDouble_write _ _ c hc)

/-- **A text between quotes** is filled in as the text is. -/
theorem expand_quote (hid : ∀ i ∈ values.id, Unescaped i.toList) (s : String) :
    expand template values (quote s) = (expandText template values s).map quote := by
  have hend : expand template values [] = .ok [] := Placeholder.expand_of_cut .nil
  rw [quote, Placeholder.expand_cons (by decide),
    Placeholder.expand_append_cons (by decide) (by decide), hend,
    Placeholder.expand_escape hid, expandText]
  cases expand template values s.toList with
  | error f => rfl
  | ok out =>
    show Except.ok _ = Except.ok (quote (String.ofList out))
    rw [quote, String.toList_ofList]

mutual

/-- **The text of a value** is filled in as the value is, text by text and key by key. -/
theorem expand_chars (hid : ∀ i ∈ values.id, Unescaped i.toList) :
    ∀ v : Json, expand template values v.chars =
      (v.mapTexts? (expandText template values)).map chars
  | .null => Placeholder.expand_of_plain (by decide)
  | .bool true => Placeholder.expand_of_plain (by decide)
  | .bool false => Placeholder.expand_of_plain (by decide)
  | .num n => expand_number n
  | .str s => by
    rw [chars, expand_quote hid, mapTexts?]
    cases expandText template values s <;> rfl
  | .arr vs => by
    -- the closing bracket ends what is cut, so the items are filled in by themselves
    have hend : expand template values [] = .ok [] := Placeholder.expand_of_cut .nil
    rw [chars, Placeholder.expand_cons (by decide),
      Placeholder.expand_append_cons (by decide) (by decide), hend, expand_items hid vs, mapTexts?]
    cases mapItems? (expandText template values) vs <;> rfl
  | .obj fs => by
    have hend : expand template values [] = .ok [] := Placeholder.expand_of_cut .nil
    rw [chars, Placeholder.expand_cons (by decide),
      Placeholder.expand_append_cons (by decide) (by decide), hend, expand_fields hid fs, mapTexts?]
    cases mapFields? (expandText template values) fs <;> rfl

theorem expand_items (hid : ∀ i ∈ values.id, Unescaped i.toList) :
    ∀ vs : List Json, expand template values (itemChars vs) =
      (mapItems? (expandText template values) vs).map itemChars
  | [] => Placeholder.expand_of_cut .nil
  | [v] => by
    rw [itemChars, expand_chars hid v, mapItems?]
    cases v.mapTexts? (expandText template values) <;> rfl
  | v :: w :: vs => by
    rw [itemChars, Placeholder.expand_append_cons (by decide) (by decide), expand_chars hid v,
      expand_items hid (w :: vs), mapItems?_cons v]
    cases v.mapTexts? (expandText template values) with
    | error f => rfl
    | ok a =>
      cases hws : mapItems? (expandText template values) (w :: vs) with
      | error f => rfl
      | ok ws =>
        -- what comes of further items is further items, so there is a comma here too
        obtain ⟨b, bs, rfl⟩ := exists_cons_of_mapItems? hws
        rfl

theorem expand_fields (hid : ∀ i ∈ values.id, Unescaped i.toList) :
    ∀ fs : List (String × Json), expand template values (fieldChars fs) =
      (mapFields? (expandText template values) fs).map fieldChars
  | [] => Placeholder.expand_of_cut .nil
  | [(k, v)] => by
    rw [fieldChars, Placeholder.expand_append_cons (by decide) (by decide), expand_quote hid,
      expand_chars hid v, mapFields?]
    cases expandText template values k with
    | error f => rfl
    | ok key => cases v.mapTexts? (expandText template values) <;> rfl
  | (k, v) :: f :: fs => by
    rw [fieldChars, Placeholder.expand_append_cons (by decide) (by decide), expand_quote hid,
      Placeholder.expand_append_cons (by decide) (by decide), expand_chars hid v,
      expand_fields hid (f :: fs), mapFields?_cons k v]
    cases expandText template values k with
    | error f => rfl
    | ok key =>
      cases v.mapTexts? (expandText template values) with
      | error f => rfl
      | ok a =>
        -- with a field behind it the comma stays
        cases hws : mapFields? (expandText template values) (f :: fs) with
        | error f => rfl
        | ok ws =>
          obtain ⟨e, es, rfl⟩ := exists_cons_of_mapFields? hws
          rfl

end

/-- So it is for the compact text. -/
theorem expandText_compact (hid : ∀ i ∈ values.id, Unescaped i.toList) (v : Json) :
    expandText template values v.compact =
    (v.mapTexts? (expandText template values)).map compact := by
  rw [expandText, compact, String.toList_ofList, expand_chars hid v]
  cases v.mapTexts? (expandText template values) <;> rfl

end Expand

/-- The ids of branches and buttons have no escapes. -/
theorem unescaped_numbered {base : String} (h : Unescaped base.toList) (n : Nat) :
    Unescaped (Stage.numbered base n).toList := by
  have hdigits : (String.ofList (Decimal.digitsOf n)).toList = Decimal.digitsOf n :=
    String.toList_ofList
  rw [Stage.numbered, String.toList_append, String.toList_append, hdigits]
  intro c hc
  rcases List.mem_append.1 hc with hc | hc
  · rcases List.mem_append.1 hc with hc | hc
    · exact h c hc
    · have hmark : Unescaped "#".toList := by decide
      exact hmark c hc
  · exact Placeholder.unescaped_of_inDouble (Decimal.inDouble_digitsOf n) c hc

/-- **Which documents are filled in, and with what.** If the id has no escapes, as those of branches
and buttons, then the text of a document is filled in exactly if all of its texts and keys are,
and it becomes the text of the document that has these instead. Otherwise the fault is that of the
first text or key, in written order, that cannot be filled in. -/
theorem expand_compact :
    (∀ n, Unescaped (Stage.branchId n).toList ∧ Unescaped (Stage.buttonId n).toList) ∧
    ∀ (template : String) (values : Placeholders), (∀ i ∈ values.id, Unescaped i.toList) →
      ∀ v : Json,
        (∀ g : String → String, (∀ s ∈ v.texts, expandText template values s = .ok (g s)) →
          expandText template values v.compact = .ok (v.mapTexts g).compact) ∧
        ∀ front s back f, v.texts = front ++ s :: back →
          (∀ r ∈ front, ∃ out, expandText template values r = .ok out) →
          expandText template values s = .error f →
          expandText template values v.compact = .error f := by
  refine ⟨fun n => ⟨unescaped_numbered (by decide) n, unescaped_numbered (by decide) n⟩,
    fun template values hid v => ⟨fun g hg => ?_, fun front s back f htexts hfront hs => ?_⟩⟩
  · rw [expandText_compact hid, mapTexts?_eq_ok v hg]
    rfl
  · rw [expandText_compact hid, mapTexts?_eq_error htexts hfront hs]
    rfl

/-- The id of a branch goes into a key and beside an escape; a word that is unknown is a fault,
whatever stands behind it. -/
theorem expand_compact_branch :
    expandText "shelf" ⟨some (Stage.branchId 3), none⟩ (obj [("$ID", arr [str "\"$ID\n"])]).compact =
        .ok (obj [("Dialog-Branch#3", arr [str "\"Dialog-Branch#3\n"])]).compact ∧
      expandText "shelf" ⟨some (Stage.branchId 3), none⟩
          (arr [str "$ID", str "$NAME", str "$POSITION"]).compact =
        .error (.placeholderUnknown "shelf" "NAME") := by
  obtain ⟨hids, hall⟩ := expand_compact
  have hid : ∀ i ∈ some (Stage.branchId 3), Unescaped i.toList := by
    intro i hi
    cases hi
    exact (hids 3).1
  have hkey : expandText "shelf" ⟨some (Stage.branchId 3), none⟩ "$ID" = .ok "Dialog-Branch#3" := by
    cbv
  have hitem : expandText "shelf" ⟨some (Stage.branchId 3), none⟩ "\"$ID\n" =
      .ok "\"Dialog-Branch#3\n" := by
    cbv
  have hname : expandText "shelf" ⟨some (Stage.branchId 3), none⟩ "$NAME" =
      .error (.placeholderUnknown "shelf" "NAME") := by
    have hcut : Placeholder.cut "$NAME".toList = [.token "NAME".toList] := by cbv
    rw [expandText, expand, hcut]
    rfl
  constructor
  · refine (hall "shelf" ⟨some (Stage.branchId 3), none⟩ hid (obj [("$ID", arr [str "\"$ID\n"])])).1
      (fun s => if s = "$ID" then "Dialog-Branch#3" else "\"Dialog-Branch#3\n") ?_
    intro s hs
    have hcases : s = "$ID" ∨ s = "\"$ID\n" := by simpa [texts, fieldTexts, itemTexts] using hs
    rcases hcases with rfl | rfl
    · exact hkey
    · exact hitem
  · have hfront : ∀ r ∈ ["$ID"], ∃ out,
        expandText "shelf" ⟨some (Stage.branchId 3), none⟩ r = .ok out := by
      intro r hr
      rw [List.mem_singleton.1 hr]
      exact ⟨_, hkey⟩
    exact (hall "shelf" ⟨some (Stage.branchId 3), none⟩ hid _).2 ["$ID"] "$NAME" ["$POSITION"] _ rfl
      hfront hname

end Json

end Stagecraft
