import Mathlib
import Stagecraft.Proofs.Decimals
import Stagecraft.Proofs.Tags

/-!
# Doubles without a sign

A sum of doubles without a sign has none and is a number again. It is infinite if one of them is,
and else only if it is too large. A double that is read from a text has no sign unless the text
has a minus or is no number.

* `Decimal.Unsigned`: a number without a sign, perhaps the infinite one; `usable_iff`.
* `Decimal.Positive`: the same for what is packed into a double, where rounding keeps the sign;
  `positive_add`, `positive_mul`, `positive_div`.
* `Decimal.unsigned_iff_positive`: the bits of a double and what is packed into them.
* `Decimal.unsigned_add`, `Decimal.usable_of_add`: **sums of doubles without a sign**.
* `Decimal.Marked`, `Decimal.unsigned_iff_of_read?`: **which texts state a double without a sign**.
-/

namespace Stagecraft.Decimal

open Float.Model Float.Model.UnpackedFloat

/-- **A number without a sign**, perhaps the infinite one. -/
def Unsigned (x : Float) : Prop := x.toBits ≤ infinity

instance (x : Float) : Decidable (Unsigned x) := inferInstanceAs (Decidable (_ ≤ _))

variable {x y : Float}

theorem Usable.unsigned (h : Usable x) : Unsigned x := UInt64.le_of_lt h

/-- Of the numbers without a sign one is not finite. -/
theorem usable_iff : Usable x ↔ Unsigned x ∧ x.toBits ≠ infinity := UInt64.lt_iff_le_and_ne

/-! ## What is packed into a double -/

variable {u v : UnpackedFloat} {m : Nat} {e : Int}

/-- A number whose sign is positive. -/
def Positive : UnpackedFloat → Prop
  | .infinity s | .zero s | .finite s _ _ _ => s = .positive
  | .notANumber => False

/-- Rounding keeps the sign, also where the number vanishes. -/
theorem positive_roundWithAccuracy (m : Nat) (e : Int) (accuracy : Accuracy) :
    Positive (roundWithAccuracy .binary64 .positive m e accuracy) := by
  unfold roundWithAccuracy
  simp only
  split <;> rfl

theorem positive_normalize {m : Int} (hm : 0 < m) :
    Positive (UnpackedFloat.normalize .binary64 m e .positive) := by
  unfold UnpackedFloat.normalize
  rw [Int.compare_eq_gt.2 hm]
  exact positive_roundWithAccuracy _ _ _

theorem decreaseExponent_pos (hm : 0 < m) (t : Int) : 0 < (decreaseExponent m e t).1 := by
  unfold decreaseExponent
  simp only
  rw [Nat.shiftLeft_eq]
  exact Nat.mul_pos hm (Nat.pow_pos (by decide))

/-- **Positive numbers have a positive sum.** -/
theorem positive_add (hu : Positive u) (hv : Positive v) : Positive (add .binary64 u v) := by
  match u, v, hu, hv with
  | .infinity .positive, .infinity .positive, rfl, rfl => rfl
  | .infinity .positive, .zero .positive, rfl, rfl => rfl
  | .infinity .positive, .finite .positive _ _ _, rfl, rfl => rfl
  | .zero .positive, .infinity .positive, rfl, rfl => rfl
  | .zero .positive, .zero .positive, rfl, rfl => rfl
  | .zero .positive, .finite .positive _ _ _, rfl, rfl => rfl
  | .finite .positive _ _ _, .infinity .positive, rfl, rfl => rfl
  | .finite .positive _ _ _, .zero .positive, rfl, rfl => rfl
  | .finite .positive m e hm, .finite .positive m' e' hm', rfl, rfl =>
    refine positive_normalize ?_
    have h := decreaseExponent_pos (e := e) hm (min e e')
    have h' := decreaseExponent_pos (e := e') hm' (min e e')
    show 0 < ((decreaseExponent m e (min e e')).1 : Int) +
      ((decreaseExponent m' e' (min e e')).1 : Int)
    omega

theorem add_infinity (hu : Positive u) :
    add .binary64 u (.infinity .positive) = .infinity .positive := by
  match u, hu with
  | .infinity .positive, rfl | .zero .positive, rfl | .finite .positive _ _ _, rfl => rfl

theorem infinity_add (hv : Positive v) :
    add .binary64 (.infinity .positive) v = .infinity .positive := by
  match v, hv with
  | .infinity .positive, rfl | .zero .positive, rfl | .finite .positive _ _ _, rfl => rfl

/-- A finite factor keeps a number positive; an infinite one would not, beside zero. -/
theorem positive_mul (hu : Positive u) (hm : 0 < m) :
    Positive (mul .binary64 u (.finite .positive m e hm)) := by
  match u, hu with
  | .infinity .positive, rfl | .zero .positive, rfl => rfl
  | .finite .positive _ _ _, rfl => exact positive_roundWithAccuracy _ _ _

theorem positive_div (hu : Positive u) (hm : 0 < m) :
    Positive (div .binary64 u (.finite .positive m e hm)) := by
  match u, hu with
  | .infinity .positive, rfl | .zero .positive, rfl => rfl
  | .finite .positive _ _ _, rfl => exact positive_roundWithAccuracy _ _ _

theorem positive_ofNat (n : Nat) : Positive (UnpackedFloat.ofNat .binary64 n) := by
  cases n with
  | zero => rfl
  | succ n =>
    have hpos : (0 : Int) < (n + 1 : Nat) := by omega
    exact positive_normalize hpos

theorem positive_ofScientific (m : Nat) (e : Int) :
    Positive (UnpackedFloat.ofScientific .binary64 m e) := by
  unfold UnpackedFloat.ofScientific
  split
  · rfl
  split
  · rfl
  split
  · rfl
  split
  · have hfinite : Positive (.finite .positive (m <<< Format.binary64.mantissaBits)
        (-Format.binary64.mantissaBits) (by simpa [Nat.pos_iff_ne_zero])) := rfl
    exact positive_mul hfinite _
  · rename_i hm _ _ _
    have hfinite : Positive (.finite .positive m 0 (Nat.pos_iff_ne_zero.2 hm)) := rfl
    exact positive_div hfinite _

/-! ## The bits of a double -/

theorem toNat_packComponents (s : Sign) (e : BitVec 11) (m : BitVec 52) :
    (packComponents .binary64 s e m).toNat =
      s.toBitVec.toNat * 2 ^ 63 + e.toNat * 2 ^ 52 + m.toNat := by
  unfold packComponents
  rw [BitVec.toNat_append, BitVec.toNat_append, ← Nat.shiftLeft_add_eq_or_of_lt m.isLt,
    ← Nat.shiftLeft_add_eq_or_of_lt e.isLt, Nat.shiftLeft_eq, Nat.shiftLeft_eq]
  show (s.toBitVec.toNat * 2 ^ 11 + e.toNat) * 2 ^ 52 + m.toNat = _
  omega

/-- With a finite exponent the sign decides whether the bits are below those of the infinite
double. -/
theorem packComponents_le_iff {s : Sign} {k : BitVec 11} {n : BitVec 52}
    (hk : k.toNat + 1 < 2 ^ 11) :
    (packComponents .binary64 s k n).toNat ≤ infinity.toNat ↔ s = .positive := by
  have hinfinity : infinity.toNat = 2047 * 2 ^ 52 := rfl
  have hn := n.isLt
  rw [toNat_packComponents, hinfinity]
  cases s
  · refine iff_of_false ?_ nofun
    show ¬(1 * 2 ^ 63 + _ + _ ≤ _)
    omega
  · refine iff_of_true ?_ rfl
    show 0 * 2 ^ 63 + _ + _ ≤ _
    omega

theorem pack_le_iff : (UnpackedFloat.pack .binary64 u).toNat ≤ infinity.toNat ↔ Positive u := by
  match u with
  | .notANumber => exact iff_of_false (by decide) not_false
  | .infinity .positive | .zero .positive => exact iff_of_true (by decide) rfl
  | .infinity .negative | .zero .negative => exact iff_of_false (by decide) nofun
  | .finite s m e hm =>
    unfold UnpackedFloat.pack
    simp only
    split
    · -- too large, so it is packed as the infinite number
      cases s
      · exact iff_of_false (by decide) nofun
      · exact iff_of_true (by decide) rfl
    · rename_i hexp
      split
      · apply packComponents_le_iff
        rw [BitVec.toNat_ofNat]
        have hsmall : ∀ k, ¬2 ^ 11 ≤ k + 1 → k % 2 ^ 11 + 1 < 2 ^ 11 := by omega
        exact hsmall _ hexp
      · exact packComponents_le_iff (by decide)

theorem pack_unpack (x : Float) :
    UnpackedFloat.pack .binary64 x.toModel.unpack = x.toBits.toBitVec :=
  pack_unpack_of_valid x.toModel.valid

/-- **A double has no sign** if what is packed into it is positive. -/
theorem unsigned_iff_positive : Unsigned x ↔ Positive x.toModel.unpack := by
  rw [← pack_le_iff, pack_unpack]
  rfl

theorem unsigned_ofModel (hu : Positive u) : Unsigned (Float.ofModel (.pack u)) := by
  show (Float.ofModel (.pack u)).toBits ≤ infinity
  rw [UInt64.le_iff_toNat_le]
  exact pack_le_iff.2 hu

theorem unpack_of_toBits (h : x.toBits = infinity) : x.toModel.unpack = .infinity .positive := by
  show UnpackedFloat.unpack .binary64 x.toBits.toBitVec = _
  rw [h]
  rfl

/-- What is packed into a double that is neither zero nor infinite. -/
theorem exists_finite (h : Usable x) (h0 : x.toBits ≠ 0) :
    ∃ m e hm, x.toModel.unpack = .finite .positive m e hm := by
  have hpositive := unsigned_iff_positive.1 h.unsigned
  have hbits := pack_unpack x
  match hu : x.toModel.unpack, hpositive with
  | .infinity .positive, rfl =>
    rw [hu] at hbits
    exact absurd (UInt64.toBitVec_inj.1 hbits.symm) (usable_iff.1 h).2
  | .zero .positive, rfl =>
    rw [hu] at hbits
    exact absurd (UInt64.toBitVec_inj.1 hbits.symm) h0
  | .finite .positive m e hm, rfl => exact ⟨m, e, hm, rfl⟩

/-! ## Sums -/

theorem toNat_toBits_add (x y : Float) : (x + y).toBits.toNat = (UnpackedFloat.pack .binary64
    (add .binary64 x.toModel.unpack y.toModel.unpack)).toNat := rfl

/-- **A sum of numbers without a sign** is one. -/
theorem unsigned_add (hx : Unsigned x) (hy : Unsigned y) : Unsigned (x + y) :=
  unsigned_ofModel (positive_add (unsigned_iff_positive.1 hx) (unsigned_iff_positive.1 hy))

/-- **A finite sum** of numbers without a sign has finite parts. -/
theorem usable_of_add (hx : Unsigned x) (hy : Unsigned y) (h : Usable (x + y)) :
    Usable x ∧ Usable y := by
  -- an infinite part makes the sum infinite
  have hinfinite : add .binary64 x.toModel.unpack y.toModel.unpack ≠ .infinity .positive := by
    intro hadd
    have hbits := toNat_toBits_add x y
    rw [hadd] at hbits
    exact absurd (UInt64.toNat_inj.1 hbits) (usable_iff.1 h).2
  refine ⟨usable_iff.2 ⟨hx, fun he => hinfinite ?_⟩, usable_iff.2 ⟨hy, fun he => hinfinite ?_⟩⟩
  · rw [unpack_of_toBits he]
    exact infinity_add (unsigned_iff_positive.1 hy)
  · rw [unpack_of_toBits he]
    exact add_infinity (unsigned_iff_positive.1 hx)

/-! ## Doubles that are read -/

theorem unsigned_mul (hx : Unsigned x) (hy : Usable y) (h0 : y.toBits ≠ 0) : Unsigned (x * y) := by
  obtain ⟨m, e, hm, hunpack⟩ := exists_finite hy h0
  refine unsigned_ofModel (u := mul .binary64 x.toModel.unpack y.toModel.unpack) ?_
  rw [hunpack]
  exact positive_mul (unsigned_iff_positive.1 hx) hm

theorem unsigned_div (hx : Unsigned x) (hy : Usable y) (h0 : y.toBits ≠ 0) : Unsigned (x / y) := by
  obtain ⟨m, e, hm, hunpack⟩ := exists_finite hy h0
  refine unsigned_ofModel (u := div .binary64 x.toModel.unpack y.toModel.unpack) ?_
  rw [hunpack]
  exact positive_div (unsigned_iff_positive.1 hx) hm

/-- The powers of ten in the table are positive and finite. -/
theorem usable_powers : ∀ x ∈ Float.exactlyRepresentablePowersOfTen.toList,
    Usable x ∧ x.toBits ≠ 0 := by
  decide

theorem unsigned_ofScientific (m : Nat) (down : Bool) (e : Nat) :
    Unsigned (Float.ofScientific m down e) := by
  have hnat : Unsigned m.toUInt64.toFloat := unsigned_ofModel (positive_ofNat _)
  unfold Float.ofScientific
  split
  · rename_i h
    have hsize : e < Float.exactlyRepresentablePowersOfTen.size := by
      show e < 23
      omega
    obtain ⟨husable, h0⟩ := usable_powers _ (Array.getElem_mem_toList hsize)
    simp only
    split
    · exact unsigned_div hnat husable h0
    · exact unsigned_mul hnat husable h0
  · exact unsigned_ofModel (positive_ofScientific _ _)

theorem unsigned_rounded (n : Nat) (e : Int) : Unsigned (rounded n e) := by
  unfold rounded
  simp only
  split
  · decide
  split
  · decide
  · exact unsigned_ofScientific _ _ _

/-- The opposite of a number without a sign has a sign, and what is no number has no opposite. -/
theorem not_unsigned_neg (h : x.toModel.unpack = .notANumber ∨ Unsigned x) : ¬Unsigned (-x) := by
  intro hneg
  have hpositive : Positive (neg x.toModel.unpack) := by
    rw [← pack_le_iff]
    exact UInt64.le_iff_toNat_le.1 hneg
  rcases h with h | h
  · rw [h] at hpositive
    exact hpositive
  · have hx := unsigned_iff_positive.1 h
    match hu : x.toModel.unpack, hx with
    | .infinity .positive, rfl | .zero .positive, rfl | .finite .positive _ _ _, rfl =>
      rw [hu] at hpositive
      cases hpositive

variable {s : List Char}

/-- The word for what is no number, in any letter case. -/
def IsNan (s : List Char) : Prop := s.map Char.toLower = "nan".toList

/-- A word, or digits with a fraction and an exponent. -/
theorem magnitude?_eq (s : List Char) : ∃ fraction rest, magnitude? s =
    if (s.takeWhile Char.isDigit).isEmpty && fraction.isEmpty then
      let word := String.ofList (s.map Char.toLower)
      if word = "inf" ∨ word = "infinity" then some (1.0 / 0.0)
      else if word = "nan" then some (0.0 / 0.0)
      else none
    else
      (exponent? rest).map fun e =>
        rounded (digitsValue 0 (s.takeWhile Char.isDigit ++ fraction)) (e - fraction.length) :=
  ⟨_, _, rfl⟩

theorem magnitude?_nan (h : IsNan s) : magnitude? s = some (0.0 / 0.0) := by
  obtain ⟨a, s, rfl, ha, h⟩ := List.map_eq_cons_iff.1 h
  obtain ⟨b, s, rfl, hb, h⟩ := List.map_eq_cons_iff.1 h
  obtain ⟨c, s, rfl, hc, h⟩ := List.map_eq_cons_iff.1 h
  rw [List.map_eq_nil_iff] at h
  subst h
  rw [Text.toLower_eq_iff (by decide)] at ha hb hc
  rcases ha with rfl | rfl <;> rcases hb with rfl | rfl <;> rcases hc with rfl | rfl <;> rfl

/-- A magnitude has no sign, or is no number. -/
theorem unsigned_of_magnitude? (h : magnitude? s = some x) (hs : ¬IsNan s) : Unsigned x := by
  obtain ⟨fraction, rest, heq⟩ := magnitude?_eq s
  rw [heq] at h
  simp only at h
  split at h
  · split at h
    · cases h
      decide
    split at h
    · rename_i hword
      have hlist := congrArg String.toList hword
      rw [String.toList_ofList] at hlist
      exact absurd hlist hs
    · cases h
  · obtain ⟨e, -, rfl⟩ := Option.map_eq_some_iff.1 h
    exact unsigned_rounded _ _

/-- **A text that states a double with a sign**, or none at all: it has a minus, or it is the word
for what is no number. -/
inductive Marked : List Char → Prop where
  | minus {s : List Char} : Marked ('-' :: s)
  | nan {s : List Char} : IsNan s → Marked s
  | plus {s : List Char} : IsNan s → Marked ('+' :: s)

theorem unsigned_magnitude?_iff (h : magnitude? s = some x) : Unsigned x ↔ ¬IsNan s := by
  refine ⟨fun hx hs => ?_, unsigned_of_magnitude? h⟩
  rw [magnitude?_nan hs, Option.some.injEq] at h
  rw [← h] at hx
  revert hx
  decide

/-- **The texts that state a double without a sign.** -/
theorem unsigned_iff_of_read? (h : read? s = some x) : Unsigned x ↔ ¬Marked s := by
  unfold read? at h
  split at h
  · rename_i s
    obtain ⟨y, hy, rfl⟩ := Option.map_eq_some_iff.1 h
    refine iff_of_false (not_unsigned_neg ?_) (not_not_intro .minus)
    -- behind a minus a number gets its sign, and what is no number has one too
    by_cases hs : IsNan s
    · rw [magnitude?_nan hs, Option.some.injEq] at hy
      rw [← hy]
      exact .inl rfl
    · exact .inr (unsigned_of_magnitude? hy hs)
  · rename_i s
    rw [unsigned_magnitude?_iff h, not_iff_not]
    refine ⟨.plus, fun hs => ?_⟩
    cases hs with
    | nan hs => exact absurd (List.cons.inj hs).1 (by decide)
    | plus hs => exact hs
  · rename_i hminus hplus
    rw [unsigned_magnitude?_iff h, not_iff_not]
    refine ⟨.nan, fun hs => ?_⟩
    cases hs with
    | minus => exact absurd rfl (hminus _)
    | nan hs => exact hs
    | plus => exact absurd rfl (hplus _)

end Stagecraft.Decimal
