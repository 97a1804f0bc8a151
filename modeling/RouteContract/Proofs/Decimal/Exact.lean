import Mathlib.Algebra.Group.Nat.Defs
import Mathlib.Order.Basic
import RouteContract.Proofs.Json.Literals

/-!
# Exact -- integers that are doubles

An integer of magnitude at most `2 ^ 53` is a double: rounding it loses nothing
(`ofInt?_of_natAbs_le`), and so different ones round to different doubles (`RoundsTo.unique`).
-/

namespace RouteContract

namespace Binary64

/-- A quotient without remainder is not moved by rounding. -/
theorem roundHalfEven_mul (q : Nat) {den : Nat} (h : 0 < den) : roundHalfEven (q * den) den = q := by
  rw [roundHalfEven, Nat.mul_div_cancel q h, Nat.mul_mod_left]
  exact if_pos h

/-- A number of at most 53 bits times a power of two is a mantissa of full width with a shift behind
it. -/
theorem exists_mantissa {n e : Nat} (hle : n ≤ 2 ^ 53) (he : 52 ≤ e) :
    ∃ q shift, n * Nat.pow 2 e = q * Nat.pow 2 shift ∧ (n * Nat.pow 2 e).log2 - 52 = shift ∧
      shift ≤ e + 1 ∧ q < 2 ^ 53 ∧ (2 ^ 52 ≤ q ∨ shift = 0) := by
  simp only [Nat.pow_eq]
  obtain rfl | hpos := Nat.eq_zero_or_pos n
  · exact ⟨0, 0, by simp, by simp, by omega, by omega, .inr rfl⟩
  have hlow : 2 ^ n.log2 ≤ n := Nat.log2_self_le (by omega)
  have hhigh : n < 2 ^ (n.log2 + 1) := Nat.lt_log2_self
  have hlog : (n * 2 ^ e).log2 = n.log2 + e := by
    have hne : n * 2 ^ e ≠ 0 := Nat.ne_of_gt (Nat.mul_pos hpos (Nat.two_pow_pos e))
    rw [Nat.log2_eq_iff hne, Nat.add_right_comm, Nat.pow_add, Nat.pow_add _ (n.log2 + 1)]
    exact ⟨Nat.mul_le_mul_right _ hlow, Nat.mul_lt_mul_of_pos_right hhigh (Nat.two_pow_pos e)⟩
  have hbits : n.log2 < 54 := (Nat.log2_lt (by omega)).mpr (by omega)
  rw [hlog]
  by_cases hwide : n.log2 ≤ 52
  -- the bits that are missing are taken from the power of two
  · have hscale : ∀ k, 2 ^ k * 2 ^ (52 - n.log2) = 2 ^ (k + (52 - n.log2)) :=
      fun k => (Nat.pow_add 2 k _).symm
    refine ⟨n * 2 ^ (52 - n.log2), n.log2 + e - 52, ?_, rfl, by omega, ?_, .inl ?_⟩
    · rw [Nat.mul_assoc, ← Nat.pow_add]
      congr 2
      omega
    · calc n * 2 ^ (52 - n.log2) < 2 ^ (n.log2 + 1) * 2 ^ (52 - n.log2) :=
            Nat.mul_lt_mul_of_pos_right hhigh (Nat.two_pow_pos _)
        _ = 2 ^ 53 := by rw [hscale, show n.log2 + 1 + (52 - n.log2) = 53 by omega]
    · calc 2 ^ 52 = 2 ^ n.log2 * 2 ^ (52 - n.log2) := by rw [hscale, Nat.add_sub_cancel' hwide]
        _ ≤ n * 2 ^ (52 - n.log2) := Nat.mul_le_mul_right _ hlow
  -- only `2 ^ 53` itself has one bit more, and that is a zero
  · have hmax : n.log2 = 53 := by omega
    obtain rfl : n = 2 ^ 53 := by
      rw [hmax] at hlow
      omega
    refine ⟨2 ^ 52, e + 1, ?_, by omega, by omega, by omega, .inl (Nat.le_refl _)⟩
    rw [← Nat.pow_add, ← Nat.pow_add]
    congr 1
    omega

/-- A number that is a mantissa with a shift behind it is not moved by rounding. -/
theorem ofQuotient?_of_parts (negative : Bool) {num e q shift : Nat} (he : 1074 = e)
    (hparts : num * Nat.pow 2 e = q * Nat.pow 2 shift)
    (hlog : (num * Nat.pow 2 e).log2 - 52 = shift) (hshift : shift ≤ 2045)
    (hhigh : q < 2 * fullMantissa) (hlow : fullMantissa ≤ q ∨ shift = 0) :
    ∃ x, ofQuotient? negative num 1 = some x ∧ x.units = num * Nat.pow 2 e ∧
      x.negative = negative := by
  have hpos : 0 < Nat.pow 2 shift := Nat.two_pow_pos shift
  unfold ofQuotient?
  rw [he]
  generalize num * Nat.pow 2 e = scaled at *
  dsimp only
  rw [Nat.div_one, Nat.one_mul, hlog, hparts, roundHalfEven_mul q hpos,
    if_neg (Nat.ne_of_lt hhigh), ofParts?, dif_pos ⟨hhigh, hshift, hlow⟩]
  exact ⟨_, rfl, rfl, rfl⟩

/-- **An integer of magnitude at most `2 ^ 53` is a double.** -/
theorem ofInt?_of_natAbs_le {n : Int} (h : n.natAbs ≤ 2 ^ 53) :
    ∃ x, ofInt? n = some x ∧ x.units = n.natAbs * Nat.pow 2 1074 ∧
      x.negative = decide (n < 0) := by
  generalize he : 1074 = e
  have hbits : 52 ≤ e := by omega
  obtain ⟨q, shift, hparts, hlog, hshift, hhigh, hlow⟩ := exists_mantissa h hbits
  exact ofQuotient?_of_parts _ he hparts hlog (by omega) hhigh hlow

end Binary64

/-- **Integers that round to one double are equal** if both are of magnitude at most `2 ^ 53`. -/
theorem Number.RoundsTo.unique {n m : Int} {x : Binary64} (hn : RoundsTo n x) (hm : RoundsTo m x)
    (hle : n.natAbs ≤ 2 ^ 53) (hle' : m.natAbs ≤ 2 ^ 53) : n = m := by
  obtain ⟨y, hy, hyx⟩ := hn
  obtain ⟨z, hz, hzx⟩ := hm
  obtain ⟨y', hy', hunits, hsign⟩ := Binary64.ofInt?_of_natAbs_le hle
  obtain ⟨z', hz', hunits', hsign'⟩ := Binary64.ofInt?_of_natAbs_le hle'
  obtain rfl := Option.some.inj (hy.symm.trans hy')
  obtain rfl := Option.some.inj (hz.symm.trans hz')
  have hyz := Binary64.same_iff.mp (Binary64.same_trans hyx (Binary64.same_symm hzx))
  have hpos : ∀ k, 0 < Nat.pow 2 k := Nat.two_pow_pos
  have hunit := hpos 1074
  rw [hunits, hunits', hsign, hsign'] at hyz
  generalize Nat.pow 2 1074 = unit at hyz hunit
  obtain ⟨hmagnitude, hsame⟩ := hyz
  have habs : n.natAbs = m.natAbs := Nat.eq_of_mul_eq_mul_right hunit hmagnitude
  rcases hsame with hneg | hzero
  · rw [decide_eq_decide] at hneg
    omega
  · have hn0 : n.natAbs = 0 := (Nat.mul_eq_zero.mp hzero).resolve_right (Nat.ne_of_gt hunit)
    omega

end RouteContract
