import Mathlib
import Stagecraft.Decimal.Layout

/-!
# The texts of doubles

A double is written with few characters, whatever the style. In the style of a scene it is digits,
a point and digits exactly if it is finite and has no sign.

* `Decimal.inDouble_write`: the characters of a double.
* `Decimal.IsPlain`: digits, a point and digits; `isPlain_point`.
* `Decimal.digits_shortest_ne_zero`: the shortest decimal of a positive value is positive.
* `Decimal.Usable`: a finite double without a sign.
* `Decimal.isPlain_write_iff`: **which doubles are plain in a scene**.
-/

namespace Stagecraft.Decimal

variable {c : Char} {ds s : List Char} {n : Nat} {e : Int} {x : Binary} {d : Scientific} {g : Int}

/-! ## Characters -/

theorem isDigit_of_mem_digitsOf (h : c ∈ digitsOf n) : c.isDigit = true :=
  Nat.isDigit_of_mem_toDigits (by decide) (by decide) h

theorem mem_of_mem_dropZeros (h : c ∈ (dropZeros ds).1) : c ∈ ds := by
  have hback := List.mem_reverse.1 h
  exact List.mem_reverse.1 ((List.dropWhile_suffix _).subset hback)

theorem isDigit_of_mem_dropZeros (h : c ∈ (dropZeros (digitsOf n)).1) : c.isDigit = true :=
  isDigit_of_mem_digitsOf (mem_of_mem_dropZeros h)

/-- The characters that doubles are written with, apart from digits. -/
def marks : List Char := ['-', '+', '.', 'e', 'i', 'n', 'f', 'N', 'a']

/-- A character of a written double. -/
def InDouble (c : Char) : Prop := c.isDigit = true ∨ c ∈ marks

instance (c : Char) : Decidable (InDouble c) := inferInstanceAs (Decidable (_ ∨ _))

/-- A claim about the characters of a text is decided by going through the text. The type of all
characters is finite too, but too large to go through. -/
instance decidableForallMem {P : Char → Prop} [DecidablePred P] (s : List Char) :
    Decidable (∀ c ∈ s, P c) :=
  List.decidableBAll P s

theorem inDouble_replicate (k : Nat) : ∀ c ∈ List.replicate k '0', InDouble c := by
  intro c hc
  rw [List.eq_of_mem_replicate hc]
  decide

theorem inDouble_digitsOf (n : Nat) : ∀ c ∈ digitsOf n, InDouble c :=
  fun _ hc => .inl (isDigit_of_mem_digitsOf hc)

theorem inDouble_point (hds : ∀ c ∈ ds, InDouble c) : ∀ c ∈ point ds e, InDouble c := by
  unfold point
  split
  · simp only [List.forall_mem_cons, List.forall_mem_append]
    exact ⟨by decide, by decide, inDouble_replicate _, hds⟩
  · split
    · simp only [List.forall_mem_cons, List.forall_mem_append]
      exact ⟨fun c hc => hds c (List.mem_of_mem_take hc), by decide,
        fun c hc => hds c (List.mem_of_mem_drop hc)⟩
    · simp only [List.forall_mem_append]
      exact ⟨hds, inDouble_replicate _, by decide⟩

theorem inDouble_scientific (hds : ∀ c ∈ ds, InDouble c) : ∀ c ∈ scientific ds e, InDouble c := by
  have hexponent : ∀ c ∈ 'e' :: (if e < 0 then '-' else '+') :: digitsOf e.natAbs, InDouble c := by
    simp only [List.forall_mem_cons]
    exact ⟨by decide, by split <;> decide, inDouble_digitsOf _⟩
  unfold scientific
  cases ds with
  | nil => exact hexponent
  | cons d ds =>
    obtain ⟨hd, hds⟩ := List.forall_mem_cons.1 hds
    cases ds with
    | nil => exact List.forall_mem_cons.2 ⟨hd, hexponent⟩
    | cons d' ds =>
      simp only [List.forall_mem_cons, List.forall_mem_append] at hds hexponent ⊢
      exact ⟨hd, by decide, hds, hexponent⟩

theorem inDouble_magnitude (style : Style) (x : Binary) : ∀ c ∈ style.magnitude x, InDouble c := by
  unfold Style.magnitude
  split
  · decide
  · simp only
    split
    · exact inDouble_point fun c hc => .inl (isDigit_of_mem_dropZeros hc)
    · exact inDouble_scientific fun c hc => .inl (isDigit_of_mem_dropZeros hc)

/-- **The characters of a double**, in any style. -/
theorem inDouble_write (style : Style) (x : Float) : ∀ c ∈ style.write x, InDouble c := by
  have hsign : ∀ c ∈ (if x.toBits >>> 63 = 1 then ['-'] else []), InDouble c := by
    split <;> decide
  unfold Style.write
  simp only
  split
  · split
    · exact List.forall_mem_append.2 ⟨hsign, by decide⟩
    · decide
  · exact List.forall_mem_append.2 ⟨hsign, inDouble_magnitude style _⟩

/-! ## Plain decimals -/

/-- **A plain decimal**: digits, a point and digits. -/
def IsPlain (s : List Char) : Prop :=
  ∃ whole fraction, s = whole ++ '.' :: fraction ∧ whole ≠ [] ∧ fraction ≠ [] ∧
    ∀ c ∈ whole ++ fraction, c.isDigit = true

theorem isDigit_replicate (k : Nat) : ∀ c ∈ List.replicate k '0', c.isDigit = true := by
  intro c hc
  rw [List.eq_of_mem_replicate hc]
  decide

/-- Digits with a point among them, or beside them. -/
theorem isPlain_point (hne : ds ≠ []) (hds : ∀ c ∈ ds, c.isDigit = true) :
    IsPlain (point ds e) := by
  unfold point
  split
  · -- the point stands in front of the digits, among them, or behind them
    refine ⟨['0'], _, rfl, List.cons_ne_nil _ _, List.append_ne_nil_of_right_ne_nil _ hne, ?_⟩
    simp only [List.forall_mem_append]
    exact ⟨by decide, isDigit_replicate _, hds⟩
  · split
    · rename_i hpos hlt
      refine ⟨_, _, rfl, ?_, ?_, ?_⟩
      · rw [ne_eq, List.take_eq_nil_iff, not_or]
        exact ⟨by omega, hne⟩
      · rw [ne_eq, List.drop_eq_nil_iff]
        omega
      · rwa [List.take_append_drop]
    · refine ⟨ds ++ List.replicate (e.toNat - ds.length) '0', ['0'], ?_,
        List.append_ne_nil_of_left_ne_nil hne _, List.cons_ne_nil _ _, ?_⟩
      · rw [List.append_assoc]
      · simp only [List.forall_mem_append]
        exact ⟨⟨hds, isDigit_replicate _⟩, by decide⟩

/-- A positive number has a digit that is not zero. -/
theorem dropZeros_digitsOf_ne_nil (hn : n ≠ 0) : (dropZeros (digitsOf n)).1 ≠ [] := by
  intro hnil
  have hback : (digitsOf n).reverse.dropWhile (· == '0') = [] := List.reverse_eq_nil_iff.1 hnil
  rw [List.dropWhile_eq_nil_iff] at hback
  have hzeros : digitsOf n = List.replicate (digitsOf n).length '0' := by
    refine List.eq_replicate_iff.2 ⟨rfl, fun c hc => ?_⟩
    exact eq_of_beq (hback c (List.mem_reverse.2 hc))
  -- the number that these digits are read as is zero
  have hread : Nat.ofDigitChars 10 (digitsOf n) 0 = n :=
    Nat.ofDigitChars_toDigits (by decide) (by decide)
  rw [hzeros, Nat.ofDigitChars_replicate_zero] at hread
  omega

/-- Zero lies below the interval of a positive value. -/
theorem not_readsBack_zero (hx : x.m ≠ 0) : x.readsBack ⟨0, g⟩ = false := by
  have hlow : ∀ k j, 0 < k → Binary.order ⟨0, g⟩ k j = .lt := by
    intro k j hk
    unfold Binary.order
    rw [Nat.compare_eq_lt]
    have hpos : 0 < k * Nat.pow 2 j.toNat * Nat.pow 10 (-g).toNat :=
      Nat.mul_pos (Nat.mul_pos hk (Nat.pow_pos (by decide))) (Nat.pow_pos (by decide))
    simpa using hpos
  unfold Binary.readsBack
  rw [hlow _ _ (by split <;> omega)]
  simp

theorem digits_onGrid_ne_zero {tie : Tie} (hx : x.m ≠ 0) (h : x.onGrid tie g = some d) :
    d.digits ≠ 0 := by
  -- zero reads back as zero only, so what reads back as this number is not zero
  have hzero : ∀ a, x.readsBack ⟨a, g⟩ = true → a ≠ 0 := by
    rintro a ha rfl
    rw [not_readsBack_zero hx] at ha
    cases ha
  unfold Binary.onGrid at h
  simp only at h
  split at h
  · rename_i ha _
    cases h
    have hpos := hzero _ ha
    unfold Binary.nearer
    split
    · exact hpos
    · exact Nat.succ_ne_zero _
    · split
      · exact hpos
      · exact Nat.succ_ne_zero _
  · rename_i ha _
    cases h
    exact hzero _ ha
  · cases h
    exact Nat.succ_ne_zero _
  · cases h

/-- **The shortest decimal of a positive value** is positive. -/
theorem digits_shortest_ne_zero (tie : Tie) (hx : x.m ≠ 0) : (x.shortest tie).digits ≠ 0 := by
  have hexact : x.exact.digits ≠ 0 := by
    unfold Binary.exact
    split
    · exact Nat.mul_ne_zero hx (Nat.pow_pos (by decide)).ne'
    · exact Nat.mul_ne_zero hx (Nat.pow_pos (by decide)).ne'
  unfold Binary.shortest
  simp only
  cases hf : (List.range 17).findSome? fun n => x.onGrid tie (x.scale - (n + 1 : Nat)) with
  | none => exact hexact
  | some d =>
    obtain ⟨n, -, hn⟩ := List.exists_of_findSome?_eq_some hf
    exact digits_onGrid_ne_zero hx hn

/-- A magnitude inside a scene is plain. -/
theorem isPlain_magnitude (x : Binary) : IsPlain (plain.magnitude x) := by
  unfold Style.magnitude
  split
  · exact ⟨['0'], ['0'], rfl, List.cons_ne_nil _ _, List.cons_ne_nil _ _, by decide⟩
  · rename_i hx
    have hpos : ∀ e, plain.positional e = true := fun _ => rfl
    simp only
    rw [if_pos (hpos _)]
    exact isPlain_point (dropZeros_digitsOf_ne_nil (digits_shortest_ne_zero _ hx))
      fun c hc => isDigit_of_mem_dropZeros hc

theorem not_isPlain_cons (hc : c.isDigit = false) : ¬IsPlain (c :: s) := by
  rintro ⟨whole, fraction, hs, hw, -, hall⟩
  cases whole with
  | nil => exact hw rfl
  | cons d whole =>
    have hd : d.isDigit = true := hall d (List.mem_append_left _ List.mem_cons_self)
    rw [List.cons_append, List.cons.injEq] at hs
    rw [← hs.1, hc] at hd
    cases hd

/-- The bits of the infinite double; those of a double without a sign that is finite are less. -/
def infinity : UInt64 := 0x7FF0000000000000

/-- **A finite double without a sign**; the zero with a sign is none. -/
def Usable (x : Float) : Prop := x.toBits < infinity

instance (x : Float) : Decidable (Usable x) := inferInstanceAs (Decidable (_ < _))

/-- The two fields of a bit pattern, by division. -/
theorem sign_iff (bits : UInt64) : bits >>> 63 = 1 ↔ 2 ^ 63 ≤ bits.toNat := by
  have hlt := bits.toNat_lt
  rw [← UInt64.toNat_inj, UInt64.toNat_shiftRight, Nat.shiftRight_eq_div_pow]
  show bits.toNat / 2 ^ 63 = 1 ↔ _
  omega

theorem exponent_iff (bits : UInt64) :
    (bits >>> 52) &&& 0x7FF = 0x7FF ↔ bits.toNat / 2 ^ 52 % 2 ^ 11 = 2 ^ 11 - 1 := by
  rw [← UInt64.toNat_inj, UInt64.toNat_and, UInt64.toNat_shiftRight, Nat.shiftRight_eq_div_pow]
  show bits.toNat / 2 ^ 52 &&& (2 ^ 11 - 1) = _ ↔ _
  rw [Nat.and_two_pow_sub_one_eq_mod]
  rfl

/-- **The plain doubles of a scene** are those that are finite and have no sign. -/
theorem isPlain_write_iff (x : Float) : IsPlain (plain.write x) ↔ Usable x := by
  have hlt := x.toBits.toNat_lt
  have husable : Usable x ↔ x.toBits.toNat < 2047 * 2 ^ 52 := UInt64.lt_iff_toNat_lt
  rw [husable]
  unfold Style.write
  simp only [exponent_iff, sign_iff]
  split
  · -- no number, or an infinite one
    rename_i hexp
    have hnot : ¬x.toBits.toNat < 2047 * 2 ^ 52 := by omega
    refine iff_of_false ?_ hnot
    split
    · split <;> exact not_isPlain_cons (by decide)
    · exact not_isPlain_cons (by decide)
  · rename_i hexp
    split
    · rename_i hsign
      exact iff_of_false (not_isPlain_cons (by decide)) (by omega)
    · rename_i hsign
      exact iff_of_true (isPlain_magnitude _) (by omega)

end Stagecraft.Decimal
