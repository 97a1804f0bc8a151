import Mathlib.Algebra.Group.Nat.Defs
import Mathlib.Data.List.Basic
import Mathlib.Data.List.TakeWhile
import RouteContract.Decimal.Literal
import RouteContract.Json.Value

/-!
# Digits -- whole numbers read back

The text of a whole number reads as that number: as a signed 64-bit number if it is in the range of
one (`Decimal.int64?_toString`), and as the nearest double in any case
(`Decimal.binary64?_toString`). A number of fewer than 1023 bits has a nearest double
(`Binary64.ofQuotient?_isSome`), and so has every integer of a value.
-/

namespace RouteContract

namespace Decimal

/-! ## Digits -/

theorem isDigit_iff_toNat {c : Char} : c.isDigit = true ↔ 48 ≤ c.toNat ∧ c.toNat ≤ 57 := by
  simp only [Char.isDigit, ge_iff_le, Bool.and_eq_true, decide_eq_true_eq]
  rfl

theorem digit?_of_isDigit {c : Char} (h : c.isDigit = true) :
    digit? c = some (c.toNat - '0'.toNat) :=
  if_pos (isDigit_iff_toNat.mp h)

theorem isDigit_of_mem_toDigits {n : Nat} {c : Char} (h : c ∈ Nat.toDigits 10 n) :
    isDigit c = true := by
  rw [isDigit, digit?_of_isDigit (Nat.isDigit_of_mem_toDigits (by decide) (by decide) h)]
  rfl

theorem all_isDigit_toDigits (n : Nat) : (Nat.toDigits 10 n).all isDigit = true :=
  List.all_eq_true.mpr fun _ => isDigit_of_mem_toDigits

theorem natOfDigits_toDigits (n : Nat) : natOfDigits (Nat.toDigits 10 n) = n := by
  have hsame : natOfDigits (Nat.toDigits 10 n) = Nat.ofDigitChars 10 (Nat.toDigits 10 n) 0 := by
    refine List.foldl_ext _ _ _ fun m c hc => ?_
    rw [digit?_of_isDigit (Nat.isDigit_of_mem_toDigits (by decide) (by decide) hc)]
    rfl
  rw [hsame, Nat.ofDigitChars_ten_toDigits]

/-- Digits have no sign in front. -/
theorem splitSign_toDigits (n : Nat) :
    splitSign (Nat.toDigits 10 n) = (false, Nat.toDigits 10 n) := by
  have hdigit : ∀ c ∈ Nat.toDigits 10 n, isDigit c = true := fun _ => isDigit_of_mem_toDigits
  unfold splitSign
  split
  · next rest h => exact absurd (hdigit '-' (h ▸ List.mem_cons_self)) (by decide)
  · next rest h => exact absurd (hdigit '+' (h ▸ List.mem_cons_self)) (by decide)
  · rfl

theorem toList_toString_natCast (n : Nat) : (toString (n : Int)).toList = Nat.toDigits 10 n := by
  exact Nat.toList_repr

theorem toList_toString_negSucc (n : Nat) :
    (toString (Int.negSucc n)).toList = '-' :: Nat.toDigits 10 (n + 1) := by
  show ("-" ++ Nat.repr (n + 1)).toList = _
  rw [String.toList_append, Nat.toList_repr]
  rfl

/-! ## Whole numbers -/

theorem int?_toString (n : Int) : int? (toString n).toList = some n := by
  have hne : ∀ m, (Nat.toDigits 10 m).isEmpty = false :=
    fun m => List.isEmpty_eq_false_iff.mpr Nat.toDigits_ne_nil
  cases n with
  | ofNat m =>
      show int? (toString (m : Int)).toList = _
      rw [toList_toString_natCast, int?, splitSign_toDigits]
      simp only [hne, all_isDigit_toDigits, natOfDigits_toDigits]
      rfl
  | negSucc m =>
      rw [toList_toString_negSucc]
      show (if (Nat.toDigits 10 (m + 1)).isEmpty || !(Nat.toDigits 10 (m + 1)).all isDigit then none
        else some (-(natOfDigits (Nat.toDigits 10 (m + 1)) : Int))) = _
      rw [hne, all_isDigit_toDigits, natOfDigits_toDigits]
      rfl

/-- **The text of a whole number** reads as a signed 64-bit number if it is in their range. -/
theorem int64?_toString (n : Int) : int64? (toString n).toList =
    if leastInt64 ≤ n ∧ n ≤ greatestInt64 then some n else none := by
  rw [int64?, int?_toString, Option.filter_some]
  simp only [Bool.and_eq_true, decide_eq_true_eq]

theorem scientific?_toDigits (n : Nat) : scientific? (Nat.toDigits 10 n) = some ⟨false, n, 0⟩ := by
  have hall : ∀ c ∈ Nat.toDigits 10 n, isDigit c = true := fun _ => isDigit_of_mem_toDigits
  unfold scientific?
  rw [splitSign_toDigits]
  dsimp only
  rw [List.takeWhile_eq_self_iff.mpr hall, List.dropWhile_eq_nil_iff.mpr hall]
  dsimp only
  rw [List.append_nil, natOfDigits_toDigits,
    if_neg (by simp [Nat.toDigits_ne_nil])]
  rfl

end Decimal

/-! ## Nearest doubles -/

namespace Binary64

theorem roundHalfEven_cases (num den : Nat) :
    roundHalfEven num den = num / den ∨ roundHalfEven num den = num / den + 1 := by
  unfold roundHalfEven
  dsimp only
  split_ifs
  · exact .inl rfl
  · exact .inr rfl
  · exact .inl rfl
  · exact .inr rfl

variable {num bits : Nat}

/-- **A whole number of at most 1023 bits has a nearest double.** -/
theorem ofQuotient?_isSome (negative : Bool) (h : num < 2 ^ bits) (hbits : bits ≤ 1023) :
    (ofQuotient? negative num 1).isSome := by
  generalize hunit : 1074 = e
  have hparts : ∀ m shift, m < 2 * fullMantissa → shift ≤ 2045 →
      (fullMantissa ≤ m ∨ shift = 0) → (ofParts? negative m shift).isSome := by
    intro m shift hm hshift hfull
    rw [ofParts?, dif_pos ⟨hm, hshift, hfull⟩]
    rfl
  have hscaled : num * Nat.pow 2 e < 2 ^ (bits + e) := by
    rw [Nat.pow_add]
    exact Nat.mul_lt_mul_of_pos_right h (Nat.two_pow_pos e)
  unfold ofQuotient?
  rw [hunit]
  generalize num * Nat.pow 2 e = scaled at *
  dsimp only
  rw [Nat.div_one, Nat.one_mul, Nat.pow_eq]
  have hshift : scaled.log2 - 52 ≤ 2044 := by
    obtain rfl | hpos := Nat.eq_zero_or_pos scaled
    · exact Nat.zero_le _
    · have hlog := (Nat.log2_lt (Nat.ne_of_gt hpos)).mpr hscaled
      omega
  -- the shift leaves 53 bits, all of them used if there is a shift at all
  have hhigh : scaled / 2 ^ (scaled.log2 - 52) < 2 * fullMantissa := by
    rw [Nat.div_lt_iff_lt_mul (Nat.two_pow_pos _)]
    calc scaled < 2 ^ (scaled.log2 + 1) := Nat.lt_log2_self
      _ ≤ 2 ^ (53 + (scaled.log2 - 52)) := Nat.pow_le_pow_right (by decide) (by omega)
      _ = 2 * fullMantissa * 2 ^ (scaled.log2 - 52) := Nat.pow_add 2 53 _
  have hlow : fullMantissa ≤ scaled / 2 ^ (scaled.log2 - 52) ∨ scaled.log2 - 52 = 0 := by
    rw [or_iff_not_imp_right]
    intro hne
    have hne0 : scaled ≠ 0 := by
      rintro rfl
      exact hne rfl
    rw [Nat.le_div_iff_mul_le (Nat.two_pow_pos _)]
    calc fullMantissa * 2 ^ (scaled.log2 - 52) = 2 ^ (52 + (scaled.log2 - 52)) :=
          (Nat.pow_add 2 52 _).symm
      _ = 2 ^ scaled.log2 := by rw [Nat.add_sub_cancel' (by omega)]
      _ ≤ scaled := Nat.log2_self_le hne0
  have hcases := roundHalfEven_cases scaled (2 ^ (scaled.log2 - 52))
  split
  · exact hparts _ _ (by decide) (by omega) (.inl (Nat.le_refl _))
  · exact hparts _ _ (by omega) (by omega) (hlow.imp_left fun hfull => by omega)

/-- A whole number written without point and exponent is rounded like the number. -/
theorem ofDecimal?_zero (h : num < 2 ^ bits) (hbits : bits ≤ 1023) :
    ofDecimal? false num 0 = ofInt? num := by
  unfold ofDecimal?
  split
  · next hzero =>
      subst hzero
      decide +kernel
  · next hne =>
      have hlog := (Nat.log2_lt hne).mpr h
      rw [if_pos (by decide), if_neg (by omega)]
      exact congrArg (ofQuotient? false · 1) (Nat.mul_one num)

end Binary64

/-- **The text of a whole number** reads as its nearest double. -/
theorem Decimal.binary64?_toDigits {n bits : Nat} (h : n < 2 ^ bits) (hbits : bits ≤ 1023) :
    binary64? (Nat.toDigits 10 n) = Binary64.ofInt? n := by
  rw [← Binary64.ofDecimal?_zero h hbits]
  show (scientific? (Nat.toDigits 10 n)).bind _ = _
  rw [scientific?_toDigits]
  rfl

end RouteContract
