import Stagecraft.Proofs.Filling
import Stagecraft.Proofs.Scanning

/-!
# Quoted texts as they are written

A quoted text is written in some way, with escapes or without, and has a meaning. A placeholder
belongs to the way in which it is written: a `$ID` that an escape states is none. So an id that is
put in place of the placeholders changes the meaning of a text only through the way in which it is
written.

* `Json.Spells`: what stands between quotes, and the pieces that are read of it;
  `Json.Spells.run`, `Json.readFrom_of_foldlM`: a reader takes exactly that.
* `Json.meaning?`: what a quoted text means that is written in some way.
* `Json.guarded`: a text with its escapes guarded, so that it is read as it is written.
* `Placeholder.put`: a text with an id in place of its placeholders; `Json.Puts`: a text with an id
  in place of some of them.
* `Json.Spells.put`: what stands between quotes with an id in it.
* `Json.meaningWith?`, `Json.exists_meaningWith?`: **what a text means with an id in it**.
-/

namespace Stagecraft

/-! ## Putting in an id -/

namespace Placeholder

/-- A piece of a text with an id in its place, if it is the placeholder of one. -/
def Piece.put (y : List Char) : Piece → List Char
  | .char c => [c]
  | .token w => if w = idWord then y else '$' :: w

/-- **A text with an id in place of its placeholders.** -/
def put (y s : List Char) : List Char := (cut s).flatMap (Piece.put y)

variable {y s t w : List Char} {c : Char} {ps qs : List Piece}

theorem put_of_cut (h : Cut s ps) : put y s = ps.flatMap (Piece.put y) := by
  rw [put, cut_iff.1 h]

theorem put_nil : put y [] = [] := put_of_cut .nil

theorem put_cons (h : c = '$' → ∀ d ∈ s.head?, starts d = false) :
    put y (c :: s) = c :: put y s := by
  rw [put, cut_char h]
  rfl

theorem put_cons_of_ne (hc : c ≠ '$') : put y (c :: s) = c :: put y s :=
  put_cons fun h => absurd h hc

/-- A placeholder becomes the id; any other one stays. -/
theorem put_token {rest : List Char} (hstart : starts c = true)
    (hword : ∀ d ∈ w, continues d = true) (hend : ∀ d ∈ rest.head?, continues d = false) :
    put y ('$' :: (c :: w ++ rest)) =
      (if c :: w = idWord then y else '$' :: c :: w) ++ put y rest := by
  rw [put, cut_token hstart hword hend]
  rfl

/-- **No placeholder reaches over a character** that could not stand in it. -/
theorem put_append (s t : List Char) (hend : ∀ d ∈ t.head?, continues d = false) :
    put y (s ++ t) = put y s ++ put y t := by
  rw [put_of_cut ((cut_cut s).append (cut_cut t) hend), List.flatMap_append]
  rfl

/-- A text begins with a placeholder or with a character of its own. -/
theorem token_or_char (c : Char) (s : List Char) :
    (c = '$' → ∀ d ∈ s.head?, starts d = false) ∨ ∃ d w rest, c = '$' ∧ s = d :: w ++ rest ∧
      starts d = true ∧ (∀ e ∈ w, continues e = true) ∧ ∀ e ∈ rest.head?, continues e = false := by
  have h := cut_cut (c :: s)
  generalize cut (c :: s) = ps at h
  generalize hcs : c :: s = cs at h
  cases h with
  | nil => cases hcs
  | token hstart hword hend =>
    obtain ⟨rfl, rfl⟩ := List.cons.inj hcs
    exact .inr ⟨_, _, _, rfl, rfl, hstart, hword, hend⟩
  | char hlone =>
    obtain ⟨rfl, rfl⟩ := List.cons.inj hcs
    exact .inl hlone

/-- With the placeholder in its own place the text is as it was. -/
theorem put_self (s : List Char) : put ('$' :: idWord) s = s := by
  have h := cut_cut s
  rw [put]
  generalize cut s = ps at h
  induction h with
  | nil => rfl
  | @token c w rest ps _ _ _ _ ih =>
    rw [List.flatMap_cons, ih, Piece.put]
    split
    · rename_i hid
      rw [← hid]
      rfl
    · rfl
  | char _ _ ih => rw [List.flatMap_cons, ih]; rfl

end Placeholder

namespace Json

open Lexer
open Placeholder (idWord starts continues)

/-- The placeholder of an id, as it stands in a text. -/
def idMark : List Char := '$' :: idWord

/-- **A text with `y` in place of some of its `$ID`.** -/
inductive Puts (y : List Char) : List Char → List Char → Prop where
  | nil : Puts y [] []
  | char (c : Char) {s s' : List Char} : Puts y s s' → Puts y (c :: s) (c :: s')
  | mark {s s' : List Char} : Puts y s s' → Puts y (idMark ++ s) (y ++ s')

section Puts

variable {y s s' : List Char} {c : Char}

namespace Puts

/-- Without a `$` nothing is put in. -/
theorem eq_of_plain (hs : '$' ∉ s) (h : Puts y s s') : s' = s := by
  induction h with
  | nil => rfl
  | char c _ ih => rw [ih fun hin => hs (List.mem_cons_of_mem _ hin)]
  | mark => exact absurd List.mem_cons_self hs

/-- If a character of `y` is missing, it was not put in. -/
theorem eq_of_missing (hc : c ∈ y) (hs : c ∉ s') (h : Puts y s s') : s' = s := by
  induction h with
  | nil => rfl
  | char c _ ih => rw [ih fun hin => hs (List.mem_cons_of_mem _ hin)]
  | mark => exact absurd (List.mem_append_left _ hc) hs

/-- A character that is no `$` stays in front. -/
theorem of_cons (hc : c ≠ '$') (h : Puts y (c :: s) (c :: s')) : Puts y s s' := by
  generalize hcs : c :: s = cs at h
  generalize hcs' : c :: s' = cs' at h
  cases h with
  | nil => cases hcs
  | char =>
    cases hcs
    cases hcs'
    assumption
  | mark => exact absurd (List.cons.inj hcs).1 hc

end Puts

end Puts

/-! ## Between quotes -/

/-- **What stands between quotes**, and the pieces that are read of it. -/
inductive Spells : List Char → List Piece → Prop where
  | nil : Spells [] []
  | char {c s ps} : c ≠ '"' → c ≠ '\\' → ¬ c.toNat < 0x20 → Spells s ps →
      Spells (c :: s) (.char c :: ps)
  | escape {c d s ps} : c ≠ 'u' → unletter? c = some d → Spells s ps →
      Spells ('\\' :: c :: s) (.char d :: ps)
  | unit {c₁ c₂ c₃ c₄ d₁ d₂ d₃ d₄ s ps} : hexDigit? c₁ = some d₁ → hexDigit? c₂ = some d₂ →
      hexDigit? c₃ = some d₃ → hexDigit? c₄ = some d₄ → Spells s ps →
      Spells ('\\' :: 'u' :: c₁ :: c₂ :: c₃ :: c₄ :: s)
        (.unit (16 * (16 * (16 * (16 * 0 + d₁) + d₂) + d₃) + d₄) :: ps)

variable {c d : Char} {n : Nat} {s k u y : List Char} {b ps qs : List Piece} {back : List Token}
  {l m : Lexer}

/-- **What stands between quotes is read** piece by piece. -/
theorem Spells.run (h : Spells s ps) (b : List Piece) (back : List Token) :
    s.foldlM step ⟨.quoted b, back⟩ = some ⟨.quoted (ps.reverse ++ b), back⟩ := by
  induction h generalizing b with
  | nil => rfl
  | char hquote hslash hlow _ ih =>
    rw [(Takes.char hquote hslash hlow).foldlM, ih, List.reverse_cons, List.append_assoc]
    rfl
  | escape hc hd _ ih =>
    rw [(Takes.backslash rfl).foldlM, (Takes.escape hc hd).foldlM, ih, List.reverse_cons,
      List.append_assoc]
    rfl
  | unit h₁ h₂ h₃ h₄ _ ih =>
    rw [(Takes.backslash rfl).foldlM, (Takes.unit rfl).foldlM,
      (Takes.hexDigit h₁ (by decide)).foldlM, (Takes.hexDigit h₂ (by decide)).foldlM,
      (Takes.hexDigit h₃ (by decide)).foldlM, (Takes.lastDigit h₄ (by decide)).foldlM, ih,
      List.reverse_cons, List.append_assoc]
    rfl

/-- It is one token, if a quote ends it. -/
theorem Spells.run_quote (h : Spells s ps) (rest : List Char) (back : List Token) :
    (s ++ '"' :: rest).foldlM step ⟨.quoted [], back⟩ = rest.foldlM step
      ⟨.gap, .leaf (.str ((Piece.join? ps).map String.ofList)) :: back⟩ := by
  rw [foldlM_append_of_eq (h.run [] back), (Takes.quote rfl).foldlM, List.append_nil,
    List.reverse_reverse]

/-- The reader is within an escape. -/
inductive Escaping : Lexer → Prop where
  | escaped (b : List Piece) (back : List Token) : Escaping ⟨.escaped b, back⟩
  | unit (b : List Piece) (n digits : Nat) (back : List Token) : Escaping ⟨.unit b n digits, back⟩

/-- One digit of a unit. -/
theorem exists_hexDigit {digits : Nat} (h : s.foldlM step ⟨.unit b n digits, back⟩ = some m) :
    Escaping m ∨ ∃ c d s₁, s = c :: s₁ ∧ hexDigit? c = some d ∧
      s₁.foldlM step (if digits ≤ 1 then ⟨.quoted (.unit (16 * n + d) :: b), back⟩
        else ⟨.unit b (16 * n + d) (digits - 1), back⟩) = some m := by
  cases s with
  | nil =>
    cases h
    exact .inl (.unit _ _ _ _)
  | cons c s =>
    obtain ⟨l, hc, hm⟩ := exists_takes_of_foldlM h
    cases hc with
    | lastDigit hd hlast =>
      refine .inr ⟨c, _, s, rfl, hd, ?_⟩
      rwa [if_pos hlast]
    | hexDigit hd hlast =>
      refine .inr ⟨c, _, s, rfl, hd, ?_⟩
      rwa [if_neg hlast]

/-- The four digits of a unit. -/
theorem exists_hexDigits (h : s.foldlM step ⟨.unit b 0 4, back⟩ = some m) :
    Escaping m ∨ ∃ c₁ c₂ c₃ c₄ d₁ d₂ d₃ d₄ s₄, s = c₁ :: c₂ :: c₃ :: c₄ :: s₄ ∧
      hexDigit? c₁ = some d₁ ∧ hexDigit? c₂ = some d₂ ∧ hexDigit? c₃ = some d₃ ∧
      hexDigit? c₄ = some d₄ ∧ s₄.foldlM step ⟨.quoted
        (.unit (16 * (16 * (16 * (16 * 0 + d₁) + d₂) + d₃) + d₄) :: b), back⟩ = some m := by
  rcases exists_hexDigit h with h | ⟨c₁, d₁, s₁, rfl, h₁, h⟩
  · exact .inl h
  rcases exists_hexDigit h with h | ⟨c₂, d₂, s₂, rfl, h₂, h⟩
  · exact .inl h
  rcases exists_hexDigit h with h | ⟨c₃, d₃, s₃, rfl, h₃, h⟩
  · exact .inl h
  rcases exists_hexDigit h with h | ⟨c₄, d₄, s₄, rfl, h₄, h⟩
  · exact .inl h
  exact .inr ⟨c₁, c₂, c₃, c₄, d₁, d₂, d₃, d₄, s₄, rfl, h₁, h₂, h₃, h₄, h⟩

/-- How far a quoted text is read: to the end of what is there, to its closing quote or beyond, or
into an escape. -/
inductive ReadFrom (b : List Piece) (back : List Token) (s : List Char) (m : Lexer) : Prop where
  | within {ps : List Piece} : Spells s ps → m = ⟨.quoted (ps.reverse ++ b), back⟩ →
      ReadFrom b back s m
  | closed {k r : List Char} {ps : List Piece} : Spells k ps → s = k ++ '"' :: r →
      ReadFrom b back s m
  | escaping : Escaping m → ReadFrom b back s m

/-- **Only what `Spells` tells is read.** -/
theorem readFrom_of_foldlM (hn : s.length ≤ n)
    (h : s.foldlM step ⟨.quoted b, back⟩ = some m) : ReadFrom b back s m := by
  induction n generalizing s b with
  | zero =>
    obtain rfl : s = [] := List.length_eq_zero_iff.1 (Nat.le_zero.1 hn)
    cases h
    exact .within .nil rfl
  | succ n ih =>
    rcases s with _ | ⟨c, s⟩
    · cases h
      exact .within .nil rfl
    have hs : s.length ≤ n := Nat.le_of_succ_le_succ hn
    obtain ⟨l, hc, hm⟩ := exists_takes_of_foldlM h
    cases hc with
    | quote hc =>
      subst hc
      exact .closed .nil rfl
    | char hquote hslash hlow =>
      cases ih hs hm with
      | within hs hm => exact .within (.char hquote hslash hlow hs) (by simpa using hm)
      | closed hk hs => exact .closed (.char hquote hslash hlow hk) (congrArg _ hs)
      | escaping hm => exact .escaping hm
    | backslash hc =>
      subst hc
      rcases s with _ | ⟨c, s⟩
      · cases hm
        exact .escaping (.escaped _ _)
      obtain ⟨l, hc, hm⟩ := exists_takes_of_foldlM hm
      cases hc with
      | escape hu hd =>
        cases ih (Nat.le_of_succ_le hs) hm with
        | within hs hm => exact .within (.escape hu hd hs) (by simpa using hm)
        | closed hk hs => exact .closed (.escape hu hd hk) (congrArg (fun s => '\\' :: c :: s) hs)
        | escaping hm => exact .escaping hm
      | unit hc =>
        subst hc
        rcases exists_hexDigits hm with hm |
          ⟨c₁, c₂, c₃, c₄, d₁, d₂, d₃, d₄, s₄, rfl, h₁, h₂, h₃, h₄, hm⟩
        · exact .escaping hm
        simp only [List.length_cons] at hs
        cases ih (show s₄.length ≤ n by omega) hm with
        | within hs hm => exact .within (.unit h₁ h₂ h₃ h₄ hs) (by simpa using hm)
        | closed hk hs =>
          exact .closed (.unit h₁ h₂ h₃ h₄ hk)
            (congrArg (fun s => '\\' :: 'u' :: c₁ :: c₂ :: c₃ :: c₄ :: s) hs)
        | escaping hm => exact .escaping hm

/-! ## What a quoted text means -/

/-- **What a quoted text means** that is written in some way. -/
def meaning? (k : String) : Option String :=
  match k.toList.foldlM step ⟨.quoted [], []⟩ with
  | some ⟨.quoted back, []⟩ => (Piece.join? back.reverse).map String.ofList
  | _ => none

theorem Spells.meaning? (h : Spells k ps) :
    Json.meaning? (String.ofList k) = (Piece.join? ps).map String.ofList := by
  rw [Json.meaning?, String.toList_ofList, h.run]
  simp only [List.append_nil, List.reverse_reverse]

/-- No token that was read is dropped again. -/
theorem Lexer.Takes.back_suffix (h : Takes c l m) : l.back <:+ m.back := by
  have hstart : ∀ {back : List Token} {m : Lexer}, start? back c = some m → back <:+ m.back := by
    intro back m hm
    unfold start? at hm
    split at hm
    all_goals try (cases hm; exact List.suffix_refl _)
    all_goals try (cases hm; exact List.suffix_cons _ _)
    split at hm
    · cases hm
      exact List.suffix_refl _
    split at hm
    · cases hm
      exact List.suffix_refl _
    · cases hm
  cases h with
  | start hm => exact hstart hm
  | wordEnd _ _ hm | numberEnd _ _ hm => exact (List.suffix_cons _ _).trans (hstart hm)
  | quote => exact List.suffix_cons _ _
  | _ => exact List.suffix_refl _

theorem Lexer.back_suffix_of_foldlM (h : s.foldlM step l = some m) : l.back <:+ m.back := by
  induction s generalizing l with
  | nil =>
    cases h
    exact List.suffix_refl _
  | cons c s ih =>
    obtain ⟨l₁, hc, hm⟩ := exists_takes_of_foldlM h
    exact hc.back_suffix.trans (ih hm)

/-- What has a meaning can stand between quotes. -/
theorem exists_spells_of_meaning? {k s : String} (h : meaning? k = some s) :
    ∃ ps, Spells k.toList ps ∧ Piece.join? ps = some s.toList := by
  unfold meaning? at h
  split at h
  · rename_i b hrun
    obtain ⟨cs, hcs, rfl⟩ := Option.map_eq_some_iff.1 h
    cases readFrom_of_foldlM (Nat.le_refl _) hrun with
    | within hs hm =>
      cases hm
      refine ⟨_, hs, ?_⟩
      rw [String.toList_ofList, ← hcs, List.append_nil, List.reverse_reverse]
    | closed hk hs =>
      -- the closing quote leaves a token behind, and there is none
      rw [hs, hk.run_quote] at hrun
      exact absurd (Lexer.back_suffix_of_foldlM hrun) (by simp)
    | escaping hm => cases hm
  · cases h

/-- What needs no escapes is written as it is. -/
theorem spells_of_unescaped (hs : Unescaped s) : Spells s (s.map .char) := by
  induction s with
  | nil => exact .nil
  | cons c s ih =>
    obtain ⟨⟨hquote, hslash, hlow⟩, hs⟩ := List.forall_mem_cons.1 hs
    exact .char hquote hslash (Nat.not_lt.2 hlow) (ih hs)

theorem Spells.append (hs : Spells s ps) (hk : Spells k qs) : Spells (s ++ k) (ps ++ qs) := by
  induction hs with
  | nil => exact hk
  | char hquote hslash hlow _ ih => exact .char hquote hslash hlow ih
  | escape hu hd _ ih => exact .escape hu hd ih
  | unit h₁ h₂ h₃ h₄ _ ih => exact .unit h₁ h₂ h₃ h₄ ih

/-- Characters without escapes in front of a text are pieces of their own. -/
theorem Spells.of_append (hu : Unescaped u) (h : Spells (u ++ s) ps) :
    ∃ qs, ps = u.map .char ++ qs ∧ Spells s qs := by
  induction u generalizing ps with
  | nil => exact ⟨ps, rfl, h⟩
  | cons c u ih =>
    obtain ⟨⟨-, hslash, -⟩, hu⟩ := List.forall_mem_cons.1 hu
    rw [List.cons_append] at h
    generalize hrest : u ++ s = rest at h
    cases h with
    | char _ _ _ h =>
      rw [← hrest] at h
      obtain ⟨qs, rfl, hs⟩ := ih hu h
      exact ⟨qs, rfl, hs⟩
    | escape | unit => exact absurd rfl hslash

/-! ## Reading a text as it is written -/

/-- **A text with its escapes guarded** by backslashes of their own, in quotes or in front of them:
read, its quoted texts are as they are written. -/
def guarded : Bool → List Char → List Char
  | _, [] => []
  | false, c :: s => c :: guarded (c == '"') s
  | true, '"' :: s => '"' :: guarded false s
  | true, '\\' :: c :: s => '\\' :: '\\' :: (escape c ++ guarded true s)
  | true, c :: s => c :: guarded true s

theorem guarded_outside (hquote : c ≠ '"') (s : List Char) :
    guarded false (c :: s) = c :: guarded false s := by
  rw [guarded, beq_eq_false_iff_ne.2 hquote]

theorem guarded_append (hu : Unescaped u) (s : List Char) :
    guarded true (u ++ s) = u ++ guarded true s := by
  induction u with
  | nil => rfl
  | cons c u ih =>
    obtain ⟨⟨hquote, hslash, -⟩, hu⟩ := List.forall_mem_cons.1 hu
    rw [List.cons_append, guarded, ih hu, List.cons_append]
    · exact hquote
    · exact fun _ _ h _ => hslash h

/-- A digit of a unit is no quote, no backslash and no control character. -/
theorem unescaped_of_hexDigit? (h : hexDigit? c = some n) :
    c ≠ '"' ∧ c ≠ '\\' ∧ 0x20 ≤ c.toNat := by
  refine ⟨?_, ?_, ?_⟩
  · rintro rfl
    cases h
  · rintro rfl
    cases h
  · have hfrom : ∀ b : Char, 0x20 ≤ b.toNat → b ≤ c → 0x20 ≤ c.toNat :=
      fun b hb hle => Nat.le_trans hb hle
    unfold hexDigit? at h
    split at h
    · rename_i hdigit
      simp only [Char.isDigit, Bool.and_eq_true, decide_eq_true_eq] at hdigit
      exact hfrom '0' (by decide) hdigit.1
    split at h
    · rename_i hsmall
      exact hfrom 'a' (by decide) hsmall.1
    split at h
    · rename_i hcapital
      exact hfrom 'A' (by decide) hcapital.1
    · cases h

/-- The letter of an escape is read as it stands behind a backslash of its own. -/
theorem spells_escape (hd : unletter? c = some d) (h : Spells s ps) :
    Spells (Json.escape c ++ s) (.char c :: ps) := by
  unfold unletter? at hd
  split at hd
  · exact .escape (by decide) rfl h
  · exact .escape (by decide) rfl h
  · exact .char (by decide) (by decide) (by decide) h
  · exact .char (by decide) (by decide) (by decide) h
  · exact .char (by decide) (by decide) (by decide) h
  · exact .char (by decide) (by decide) (by decide) h
  · exact .char (by decide) (by decide) (by decide) h
  · exact .char (by decide) (by decide) (by decide) h
  · cases hd

theorem unescaped_of_hexDigits {c₁ c₂ c₃ c₄ : Char} {d₁ d₂ d₃ d₄ : Nat}
    (h₁ : hexDigit? c₁ = some d₁) (h₂ : hexDigit? c₂ = some d₂) (h₃ : hexDigit? c₃ = some d₃)
    (h₄ : hexDigit? c₄ = some d₄) : Unescaped [c₁, c₂, c₃, c₄] := by
  simp only [Unescaped, List.forall_mem_cons]
  exact ⟨unescaped_of_hexDigit? h₁, unescaped_of_hexDigit? h₂, unescaped_of_hexDigit? h₃,
    unescaped_of_hexDigit? h₄, nofun⟩

/-- **A guarded text is read as it is written**, and goes on behind its quote. -/
theorem Spells.guarded (h : Spells k ps) : Spells (Json.guarded true k) (k.map .char) ∧
    ∀ r, Json.guarded true (k ++ '"' :: r) =
      Json.guarded true k ++ '"' :: Json.guarded false r := by
  induction h with
  | nil => exact ⟨.nil, fun r => rfl⟩
  | @char c s ps hquote hslash hlow _ ih =>
    have hc : ∀ t, Json.guarded true (c :: t) = c :: Json.guarded true t :=
      guarded_append (u := [c]) (List.forall_mem_singleton.2 ⟨hquote, hslash, Nat.not_lt.1 hlow⟩)
    rw [hc]
    refine ⟨.char hquote hslash hlow ih.1, fun r => ?_⟩
    rw [List.cons_append, hc, ih.2]
    rfl
  | @escape c d s ps hu hd _ ih =>
    refine ⟨.escape (by decide) rfl (spells_escape hd ih.1), fun r => ?_⟩
    show '\\' :: '\\' :: (Json.escape c ++ Json.guarded true (s ++ '"' :: r)) = _
    rw [ih.2, ← List.append_assoc]
    rfl
  | @unit c₁ c₂ c₃ c₄ d₁ d₂ d₃ d₄ s ps h₁ h₂ h₃ h₄ _ ih =>
    have hfour := unescaped_of_hexDigits h₁ h₂ h₃ h₄
    have hc : ∀ t, Json.guarded true ('\\' :: 'u' :: c₁ :: c₂ :: c₃ :: c₄ :: t) =
        '\\' :: '\\' :: 'u' :: ([c₁, c₂, c₃, c₄] ++ Json.guarded true t) := by
      intro t
      rw [← guarded_append hfour]
      rfl
    rw [hc]
    refine ⟨.escape (by decide) rfl (.char (by decide) (by decide) (by decide)
      ((spells_of_unescaped hfour).append ih.1)), fun r => ?_⟩
    show Json.guarded true ('\\' :: 'u' :: c₁ :: c₂ :: c₃ :: c₄ :: (s ++ '"' :: r)) = _
    rw [hc, ih.2]
    rfl

/-! ## What it means with an id in it -/

namespace Piece

/-- Pieces, and pieces in which `y` is put in place of some of their `$ID`. -/
inductive Puts (y : List Char) : List Piece → List Piece → Prop where
  | nil : Puts y [] []
  | same (p : Piece) {ps ps' : List Piece} (h : Puts y ps ps') : Puts y (p :: ps) (p :: ps')
  | mark {ps ps' : List Piece} (h : Puts y ps ps') :
      Puts y (.char '$' :: .char 'I' :: .char 'D' :: ps) (y.map .char ++ ps')

theorem Puts.append_same (h : Puts y ps qs) (u : List Piece) : Puts y (u ++ ps) (u ++ qs) := by
  induction u with
  | nil => exact h
  | cons p u ih => exact .same p ih

theorem join?_pair {hi lo : Nat} (hhi : 0xD800 ≤ hi ∧ hi < 0xDC00) (hlo : 0xDC00 ≤ lo ∧ lo < 0xE000)
    (ps : List Piece) : join? (.unit hi :: .unit lo :: ps) = (join? ps).map
      (Char.ofNat (0x10000 + (hi - 0xD800) * 0x400 + (lo - 0xDC00)) :: ·) := by
  rw [join?.eq_def]
  simp only [if_pos hhi, if_pos hlo]

theorem join?_unit {n : Nat} (hhi : ¬ (0xD800 ≤ n ∧ n < 0xDC00)) (hlo : ¬ (0xDC00 ≤ n ∧ n < 0xE000))
    (ps : List Piece) : join? (.unit n :: ps) = (join? ps).map (Char.ofNat n :: ·) := by
  rw [join?.eq_def]
  simp only [if_neg hhi, if_neg hlo]

theorem join?_chars (s : List Char) (ps : List Piece) :
    join? (s.map .char ++ ps) = (join? ps).map (s ++ ·) := by
  induction s with
  | nil => cases h : join? ps <;> simp [h]
  | cons c s ih =>
    rw [List.map_cons, List.cons_append, join?, ih]
    cases join? ps <;> rfl

/-- Characters of their own are a text as they stand. -/
theorem join?_map_char (s : List Char) : join? (s.map .char) = some s := by
  rw [← List.append_nil (s.map Piece.char), join?_chars, join?, Option.map_some, List.append_nil]

/-- **With `y` put in, pieces are joined** if they were before, and it is put into their text. -/
theorem Puts.join? (h : Puts y ps qs) (hs : Piece.join? ps = some s) :
    ∃ s', Piece.join? qs = some s' ∧ Json.Puts y s s' := by
  fun_induction Piece.join? ps generalizing qs s with
  | case1 =>
    cases h
    cases hs
    exact ⟨[], rfl, .nil⟩
  | case2 c ps ih =>
    obtain ⟨s₁, hs₁, rfl⟩ := Option.map_eq_some_iff.1 hs
    cases h with
    | same _ h =>
      obtain ⟨s', hs', hputs⟩ := ih h hs₁
      exact ⟨c :: s', by rw [Piece.join?, hs']; rfl, .char c hputs⟩
    | @mark rest rest' h =>
      -- the hypothesis is about what follows the `$`, so the rest of the placeholder stays there
      obtain ⟨s', hs', hputs⟩ := ih (.same (.char 'I') (.same (.char 'D') h)) hs₁
      rw [Piece.join?, Piece.join?, Option.map_map] at hs' hs₁
      obtain ⟨s₂, -, rfl⟩ := Option.map_eq_some_iff.1 hs₁
      obtain ⟨s₂', hs₂', rfl⟩ := Option.map_eq_some_iff.1 hs'
      have hrest : Json.Puts y s₂ s₂' := (hputs.of_cons (by decide)).of_cons (by decide)
      exact ⟨y ++ s₂', by rw [join?_chars, hs₂']; rfl, .mark hrest⟩
  | case3 hi hhi lo ps hlo ih =>
    obtain ⟨s₁, hs₁, rfl⟩ := Option.map_eq_some_iff.1 hs
    cases h with
    | same _ h =>
      cases h with
      | same _ h =>
        obtain ⟨s', hs', hputs⟩ := ih h hs₁
        exact ⟨_ :: s', by rw [join?_pair hhi hlo, hs']; rfl, .char _ hputs⟩
  | case4 => cases hs
  | case5 => cases hs
  | case6 => cases hs
  | case7 hi ps hhi hlo ih =>
    obtain ⟨s₁, hs₁, rfl⟩ := Option.map_eq_some_iff.1 hs
    cases h with
    | same _ h =>
      obtain ⟨s', hs', hputs⟩ := ih h hs₁
      exact ⟨_ :: s', by rw [join?_unit hhi hlo, hs']; rfl, .char _ hputs⟩

end Piece

theorem hexDigit?_ne (h : hexDigit? c = some n) : c ≠ '$' := by
  rintro rfl
  cases h

theorem unletter?_ne (h : unletter? c = some d) : c ≠ '$' := by
  rintro rfl
  cases h

/-- **What stands between quotes with an id in it**, if the id needs no escapes. -/
theorem Spells.put (hy : Unescaped y) (hn : s.length ≤ n) (h : Spells s ps) :
    ∃ qs, Spells (Placeholder.put y s) qs ∧ Piece.Puts y ps qs := by
  induction n generalizing s ps with
  | zero =>
    obtain rfl : s = [] := List.length_eq_zero_iff.1 (Nat.le_zero.1 hn)
    cases h
    exact ⟨[], by rw [Placeholder.put_nil]; exact .nil, .nil⟩
  | succ n ih =>
    cases h with
    | nil => exact ⟨[], by rw [Placeholder.put_nil]; exact .nil, .nil⟩
    | @char c s ps hquote hslash hlow hs =>
      have hlen : s.length ≤ n := Nat.le_of_succ_le_succ hn
      rcases Placeholder.token_or_char c s with hlone | ⟨d, w, rest, rfl, rfl, hstart, hword, hend⟩
      · obtain ⟨qs, hqs, hputs⟩ := ih hlen hs
        refine ⟨_, ?_, .same _ hputs⟩
        rw [Placeholder.put_cons hlone]
        exact .char hquote hslash hlow hqs
      · -- the word of a placeholder needs no escapes, and what is behind it is spelled by itself
        have hplain : Unescaped (d :: w) := Placeholder.unescaped_of_continues
          (List.forall_mem_cons.2 ⟨Placeholder.continues_of_starts hstart, hword⟩)
        obtain ⟨rs, rfl, hrest⟩ := Spells.of_append hplain hs
        rw [List.length_append] at hlen
        obtain ⟨qs, hqs, hputs⟩ := ih (Nat.le_of_add_left_le hlen) hrest
        rw [Placeholder.put_token hstart hword hend]
        by_cases hid : d :: w = idWord
        · rw [if_pos hid]
          refine ⟨_, (spells_of_unescaped hy).append hqs, ?_⟩
          rw [hid]
          exact .mark hputs
        · rw [if_neg hid]
          have hword : Unescaped ('$' :: d :: w) :=
            List.forall_mem_cons.2 ⟨⟨hquote, hslash, Nat.not_lt.1 hlow⟩, hplain⟩
          exact ⟨_, (spells_of_unescaped hword).append hqs,
            .same (.char '$') (hputs.append_same ((d :: w).map .char))⟩
    | @escape c d s ps hu hd hs =>
      have hlen : s.length ≤ n := Nat.le_of_succ_le (Nat.le_of_succ_le_succ hn)
      obtain ⟨qs, hqs, hputs⟩ := ih hlen hs
      refine ⟨_, ?_, .same _ hputs⟩
      rw [Placeholder.put_cons_of_ne (by decide), Placeholder.put_cons_of_ne (unletter?_ne hd)]
      exact .escape hu hd hqs
    | @unit c₁ c₂ c₃ c₄ d₁ d₂ d₃ d₄ s ps h₁ h₂ h₃ h₄ hs =>
      simp only [List.length_cons] at hn
      obtain ⟨qs, hqs, hputs⟩ := ih (show s.length ≤ n by omega) hs
      refine ⟨_, ?_, .same _ hputs⟩
      simp only [Placeholder.put_cons_of_ne (show '\\' ≠ '$' by decide),
        Placeholder.put_cons_of_ne (show 'u' ≠ '$' by decide),
        Placeholder.put_cons_of_ne (hexDigit?_ne h₁), Placeholder.put_cons_of_ne (hexDigit?_ne h₂),
        Placeholder.put_cons_of_ne (hexDigit?_ne h₃), Placeholder.put_cons_of_ne (hexDigit?_ne h₄)]
      exact .unit h₁ h₂ h₃ h₄ hqs

/-- What a quoted text means with `y` in place of its placeholders. -/
def meaningWith? (y : List Char) (k : String) : Option String :=
  meaning? (String.ofList (Placeholder.put y k.toList))

/-- **A quoted text that has a meaning has one with an id in it**: its meaning, with the id in place
of some `$ID`. -/
theorem exists_meaningWith? (hy : Unescaped y) {k s : String} (h : meaning? k = some s) :
    ∃ s', meaningWith? y k = some s' ∧ Puts y s.toList s'.toList := by
  obtain ⟨ps, hk, hs⟩ := exists_spells_of_meaning? h
  obtain ⟨qs, hqs, hputs⟩ := hk.put hy (Nat.le_refl _)
  obtain ⟨s', hs', hs''⟩ := hputs.join? hs
  refine ⟨String.ofList s', ?_, by rwa [String.toList_ofList]⟩
  rw [meaningWith?, hqs.meaning?, hs']
  rfl

/-- **The placeholder that is written out** means what is put in. -/
theorem meaningWith?_mark (hy : Unescaped y) :
    meaningWith? y (String.ofList idMark) = some (String.ofList y) := by
  have hput : Placeholder.put y idMark = y := by
    have hmark : idMark = '$' :: ('I' :: ['D'] ++ []) := rfl
    rw [hmark, Placeholder.put_token (by decide) (by decide) (by simp), Placeholder.put_nil,
      List.append_nil]
    exact if_pos rfl
  rw [meaningWith?, String.toList_ofList, hput, (spells_of_unescaped hy).meaning?,
    Piece.join?_map_char]
  rfl

theorem meaningWith?_self : meaningWith? idMark = meaning? := by
  funext k
  rw [meaningWith?, idMark, Placeholder.put_self, String.ofList_toList]

end Json

end Stagecraft
