import Stagecraft.Json.Reader

/-!
# What one character and one token do

A document text is read in two passes. The first takes character after character and collects
tokens, the second takes token after token and builds a tree. What either does in one step depends
on what is being read, and each way has a name here, so that what holds of a whole text is told
from what holds of a step.

* `Json.Lexer.Takes`, `Json.Lexer.takes_iff`: **what a character does**.
* `Json.Builder.Takes`, `Json.Builder.takes_iff`: **what a token does**.
-/

namespace Stagecraft.Json

namespace Lexer

/-- **What a character does** to a reader of tokens. -/
inductive Takes (c : Char) : Lexer → Lexer → Prop where
  | start {back m} : start? back c = some m → Takes c ⟨.gap, back⟩ m
  | letter {b back} : c.isAlpha = true → Takes c ⟨.word b, back⟩ ⟨.word (c :: b), back⟩
  | wordEnd {b back t m} : ¬ c.isAlpha = true → word? b.reverse = some t →
      start? (t :: back) c = some m → Takes c ⟨.word b, back⟩ m
  | digit {b back} : inNumber c = true → Takes c ⟨.number b, back⟩ ⟨.number (c :: b), back⟩
  | numberEnd {b back t m} : ¬ inNumber c = true → number? b.reverse = some t →
      start? (t :: back) c = some m → Takes c ⟨.number b, back⟩ m
  | quote {b back} : c = '"' → Takes c ⟨.quoted b, back⟩
      ⟨.gap, .leaf (.str ((Piece.join? b.reverse).map String.ofList)) :: back⟩
  | backslash {b back} : c = '\\' → Takes c ⟨.quoted b, back⟩ ⟨.escaped b, back⟩
  | char {b back} : c ≠ '"' → c ≠ '\\' → ¬ c.toNat < 0x20 →
      Takes c ⟨.quoted b, back⟩ ⟨.quoted (.char c :: b), back⟩
  | unit {b back} : c = 'u' → Takes c ⟨.escaped b, back⟩ ⟨.unit b 0 4, back⟩
  | escape {b back d} : c ≠ 'u' → unletter? c = some d →
      Takes c ⟨.escaped b, back⟩ ⟨.quoted (.char d :: b), back⟩
  | lastDigit {b n digits d back} : hexDigit? c = some d → digits ≤ 1 →
      Takes c ⟨.unit b n digits, back⟩ ⟨.quoted (.unit (16 * n + d) :: b), back⟩
  | hexDigit {b n digits d back} : hexDigit? c = some d → ¬ digits ≤ 1 →
      Takes c ⟨.unit b n digits, back⟩ ⟨.unit b (16 * n + d) (digits - 1), back⟩

variable {l m : Lexer} {c : Char}

theorem takes_of_step (h : l.step c = some m) : Takes c l m := by
  obtain ⟨scan, back⟩ := l
  cases scan with
  | gap => exact .start h
  | word b =>
    simp only [step] at h
    split at h
    · rename_i hc
      cases h
      exact .letter hc
    · rename_i hc
      obtain ⟨t, ht, hm⟩ := Option.bind_eq_some_iff.1 h
      exact .wordEnd hc ht hm
  | number b =>
    simp only [step] at h
    split at h
    · rename_i hc
      cases h
      exact .digit hc
    · rename_i hc
      obtain ⟨t, ht, hm⟩ := Option.bind_eq_some_iff.1 h
      exact .numberEnd hc ht hm
  | quoted b =>
    simp only [step] at h
    split at h
    · rename_i hc
      cases h
      exact .quote hc
    split at h
    · rename_i hc
      cases h
      exact .backslash hc
    split at h
    · cases h
    · rename_i hquote hslash hlow
      cases h
      exact .char hquote hslash hlow
  | escaped b =>
    simp only [step] at h
    split at h
    · rename_i hc
      cases h
      exact .unit hc
    · rename_i hc
      obtain ⟨d, hd, rfl⟩ := Option.map_eq_some_iff.1 h
      exact .escape hc hd
  | unit b n digits =>
    obtain ⟨d, hd, rfl⟩ := Option.map_eq_some_iff.1 h
    by_cases hlast : digits ≤ 1
    · simp only [if_pos hlast]
      exact .lastDigit hd hlast
    · simp only [if_neg hlast]
      exact .hexDigit hd hlast

theorem Takes.step (h : Takes c l m) : l.step c = some m := by
  cases h with
  | start h => exact h
  | letter hc => exact if_pos hc
  | wordEnd hc ht hm => exact (if_neg hc).trans (by rw [ht, Option.bind_some, hm])
  | digit hc => exact if_pos hc
  | numberEnd hc ht hm => exact (if_neg hc).trans (by rw [ht, Option.bind_some, hm])
  | quote hc => exact if_pos hc
  | backslash hc =>
    subst hc
    rfl
  | char hquote hslash hlow =>
    exact (if_neg hquote).trans ((if_neg hslash).trans (if_neg hlow))
  | unit hc => exact if_pos hc
  | escape hc hd => exact (if_neg hc).trans (by rw [hd, Option.map_some])
  | lastDigit hd hlast => simp only [Lexer.step, hd, Option.map_some, if_pos hlast]
  | hexDigit hd hlast => simp only [Lexer.step, hd, Option.map_some, if_neg hlast]

/-- **A reader takes a character** in one of these ways. -/
theorem takes_iff : l.step c = some m ↔ Takes c l m := ⟨takes_of_step, Takes.step⟩

/-- What follows a character is read from where the character leads. -/
theorem Takes.foldlM (h : Takes c l m) (s : List Char) :
    (c :: s).foldlM Lexer.step l = s.foldlM Lexer.step m := by
  rw [List.foldlM_cons, h.step]
  rfl

theorem foldlM_append_of_eq {s : List Char} (h : s.foldlM step l = some m) (rest : List Char) :
    (s ++ rest).foldlM step l = rest.foldlM step m := by
  rw [List.foldlM_append, h]
  rfl

theorem exists_takes_of_foldlM {s : List Char} (h : (c :: s).foldlM Lexer.step l = some m) :
    ∃ l₁, Takes c l l₁ ∧ s.foldlM Lexer.step l₁ = some m := by
  obtain ⟨l₁, hl₁, hm⟩ := Option.bind_eq_some_iff.1 h
  exact ⟨l₁, takes_of_step hl₁, hm⟩

end Lexer

namespace Builder

/-- **What a token does** to a tree under construction. -/
inductive Takes : Token → Builder → Builder → Prop where
  | value {t fs c} : begin? fs t = some c → Takes t ⟨fs, .value⟩ c
  | noItems {fs} : Takes .closeList ⟨fs, .itemOrEnd⟩ (put (.arr []) fs)
  | firstItem {t fs c} : begin? (.item [] :: fs) t = some c → Takes t ⟨fs, .itemOrEnd⟩ c
  | nextItem {fs back} : Takes .comma ⟨fs, .afterItem back⟩ ⟨.item back :: fs, .value⟩
  | lastItem {fs back} : Takes .closeList ⟨fs, .afterItem back⟩ (put (.arr back.reverse) fs)
  | noFields {fs} : Takes .closeObject ⟨fs, .keyOrEnd⟩ (put (.obj []) fs)
  | firstKey {fs key} : Takes (.leaf (.str key)) ⟨fs, .keyOrEnd⟩ ⟨fs, .colon [] key⟩
  | key {fs back key} : Takes (.leaf (.str key)) ⟨fs, .key back⟩ ⟨fs, .colon back key⟩
  | colon {fs back key} : Takes .colon ⟨fs, .colon back key⟩ ⟨.field back key :: fs, .value⟩
  | nextField {fs back} : Takes .comma ⟨fs, .afterField back⟩ ⟨fs, .key back⟩
  | lastField {fs back} : Takes .closeObject ⟨fs, .afterField back⟩ (put (.obj back.reverse) fs)

variable {b c : Builder} {t : Token}

theorem takes_of_step (h : b.step t = some c) : Takes t b c := by
  obtain ⟨fs, next⟩ := b
  cases next with
  | value => exact .value h
  | itemOrEnd =>
    cases t with
    | closeList =>
      cases h
      exact .noItems
    | _ => exact .firstItem h
  | afterItem back =>
    cases t with
    | comma =>
      cases h
      exact .nextItem
    | closeList =>
      cases h
      exact .lastItem
    | _ => cases h
  | keyOrEnd =>
    cases t with
    | closeObject =>
      cases h
      exact .noFields
    | leaf v =>
      cases v with
      | str key =>
        cases h
        exact .firstKey
      | _ => cases h
    | _ => cases h
  | key back =>
    cases t with
    | leaf v =>
      cases v with
      | str key =>
        cases h
        exact .key
      | _ => cases h
    | _ => cases h
  | colon back key =>
    cases t with
    | colon =>
      cases h
      exact .colon
    | _ => cases h
  | afterField back =>
    cases t with
    | comma =>
      cases h
      exact .nextField
    | closeObject =>
      cases h
      exact .lastField
    | _ => cases h
  | done v => cases t <;> cases h

theorem Takes.step (h : Takes t b c) : b.step t = some c := by
  cases h with
  | value h => exact h
  | firstItem h =>
    -- no value begins with the end of a list
    cases t with
    | closeList => cases h
    | _ => exact h
  | _ => rfl

/-- **A tree takes a token** in one of these ways. -/
theorem takes_iff : b.step t = some c ↔ Takes t b c := ⟨takes_of_step, Takes.step⟩

end Builder

end Stagecraft.Json
