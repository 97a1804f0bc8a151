import Mathlib.Data.List.Induction
import Mathlib.Data.Nat.Digits.Defs
import RouteContract.Proofs.Decimal.Digits

/-!
# Numerals -- which texts are whole numbers

A numeral is an optional sign and one or more ASCII digits. The reader of whole numbers accepts
exactly these, with their exact value (`Decimal.int?_eq_some_iff`), and the reader of signed 64-bit
numbers those of them that are in range (`Decimal.int64?_eq_some_iff`). Of all numerals of a number,
its text is the canonical one, without plus sign and leading zeros (`Decimal.canonical_iff`).
-/

namespace RouteContract

namespace Decimal

/-! ## Numerals and their values -/

/-- The sign of a numeral, which may be missing, and its factor. -/
inductive Sign : List Char → Int → Prop
  | none : Sign [] 1
  | plus : Sign ['+'] 1
  | minus : Sign ['-'] (-1)

/-- The exact value of a sequence of digits, the last of which counts once. -/
def digitsValue (digits : List Char) : Nat :=
  Nat.ofDigits 10 (digits.reverse.map fun c => c.toNat - '0'.toNat)

/-- An optional sign and one or more ASCII digits, with the number they stand for. -/
def Numeral (cs : List Char) (n : Int) : Prop :=
  ∃ sign factor digits, Sign sign factor ∧ cs = sign ++ digits ∧ digits ≠ [] ∧
    (∀ c ∈ digits, c.isDigit = true) ∧ n = factor * digitsValue digits

theorem isDigit_iff {c : Char} : isDigit c = true ↔ c.isDigit = true := by
  refine ⟨fun h => ?_, fun h => ?_⟩
  · rw [isDigit, digit?] at h
    split at h
    · next hrange => exact isDigit_iff_toNat.mpr hrange
    · cases h
  · rw [isDigit, digit?_of_isDigit h]
    rfl

theorem natOfDigits_eq_digitsValue {digits : List Char} (h : ∀ c ∈ digits, c.isDigit = true) :
    natOfDigits digits = digitsValue digits := by
  induction digits using List.reverseRecOn with
  | nil => rfl
  | append_singleton digits c ih =>
      have hlast : natOfDigits (digits ++ [c]) = 10 * natOfDigits digits + (digit? c).getD 0 := by
        rw [natOfDigits, List.foldl_append]
        rfl
      rw [hlast, digit?_of_isDigit (h c (by simp)), ih fun d hd => h d (List.mem_append_left _ hd),
        digitsValue, digitsValue, List.reverse_append, List.reverse_singleton, List.singleton_append,
        List.map_cons, Nat.ofDigits_cons, Option.getD_some, Nat.add_comm]

/-! ## Reading numerals -/

/-- Splitting off the sign takes no more than the sign. -/
theorem sign_splitSign (cs : List Char) :
    ∃ sign, cs = sign ++ (splitSign cs).2 ∧ Sign sign (if (splitSign cs).1 then -1 else 1) := by
  unfold splitSign
  split
  · exact ⟨['-'], rfl, .minus⟩
  · exact ⟨['+'], rfl, .plus⟩
  · exact ⟨[], rfl, .none⟩

/-- Splitting off the sign takes no less than the sign. -/
theorem splitSign_append {sign digits : List Char} {factor : Int} (hsign : Sign sign factor)
    (hdigits : ∀ c ∈ digits, c.isDigit = true) :
    splitSign (sign ++ digits) = (decide (factor = -1), digits) := by
  cases hsign with
  | plus => rfl
  | minus => rfl
  | none =>
      rw [List.nil_append]
      unfold splitSign
      split
      · next rest => exact absurd (hdigits '-' List.mem_cons_self) (by decide)
      · next rest => exact absurd (hdigits '+' List.mem_cons_self) (by decide)
      · rfl

/-- **The reader of whole numbers accepts numerals only, and all of them.** -/
theorem int?_eq_some_iff {cs : List Char} {n : Int} : int? cs = some n ↔ Numeral cs n := by
  unfold int?
  dsimp only
  refine ⟨fun h => ?_, ?_⟩
  · obtain ⟨sign, hcs, hsign⟩ := sign_splitSign cs
    generalize splitSign cs = split at *
    obtain ⟨negative, digits⟩ := split
    dsimp only at *
    split at h
    · cases h
    · next hok =>
        simp only [Bool.or_eq_true, List.isEmpty_iff, Bool.not_eq_true', not_or, Bool.not_eq_false,
          List.all_eq_true, isDigit_iff] at hok
        refine ⟨sign, _, digits, hsign, hcs, hok.1, hok.2, ?_⟩
        rw [← natOfDigits_eq_digitsValue hok.2, ← Option.some.inj h]
        cases negative
        · exact (Int.one_mul _).symm
        · exact Int.neg_eq_neg_one_mul _
  · rintro ⟨sign, factor, digits, hsign, rfl, hne, hdigits, rfl⟩
    have hall : digits.all isDigit = true := List.all_eq_true.mpr fun c hc => isDigit_iff.mpr (hdigits c hc)
    rw [splitSign_append hsign hdigits]
    dsimp only
    rw [List.isEmpty_eq_false_iff.mpr hne, hall, natOfDigits_eq_digitsValue hdigits]
    cases hsign <;> simp

/-- The signed 64-bit numbers in text: the numerals in their range. -/
theorem int64?_eq_some_iff {cs : List Char} {n : Int} :
    int64? cs = some n ↔ Numeral cs n ∧ -2 ^ 63 ≤ n ∧ n ≤ 2 ^ 63 - 1 := by
  rw [int64?, Option.filter_eq_some_iff, int?_eq_some_iff, Bool.and_eq_true, decide_eq_true_eq,
    decide_eq_true_eq]
  rfl

/-! ## Canonical numerals -/

/-- One or more digits, of which the first is not a zero. -/
structure Leading (digits : List Char) : Prop where
  /-- There is a digit. -/
  ne_nil : digits ≠ []
  /-- The first is not a zero. -/
  head_ne : digits.head? ≠ some '0'
  /-- All are ASCII digits. -/
  isDigit : ∀ c ∈ digits, c.isDigit = true

/-- The numeral of a number without plus sign and without leading zeros. -/
inductive Canonical : List Char → Int → Prop
  | zero : Canonical ['0'] 0
  | positive {digits : List Char} (h : Leading digits) : Canonical digits (digitsValue digits)
  | negative {digits : List Char} (h : Leading digits) : Canonical ('-' :: digits) (-digitsValue digits)

theorem digitChar_of_isDigit {c : Char} (h : c.isDigit = true) :
    Nat.digitChar (c.toNat - '0'.toNat) = c := by
  obtain ⟨hlow, hhigh⟩ := isDigit_iff_toNat.mp h
  have hchar : ∀ m < 10, Nat.digitChar m = Char.ofNat (48 + m) := by decide
  show Nat.digitChar (c.toNat - 48) = c
  rw [hchar _ (by omega), Nat.add_sub_cancel' hlow, Char.ofNat_toNat]

/-- Digits without leading zeros are those of their value. -/
theorem Leading.eq_digits {digits : List Char} (h : Leading digits) :
    digits = ((Nat.digits 10 (digitsValue digits)).map Nat.digitChar).reverse := by
  have hvalues : Nat.digits 10 (digitsValue digits) =
      digits.reverse.map fun c => c.toNat - '0'.toNat := by
    refine Nat.digits_ofDigits 10 (by decide) _ ?_ fun hne => ?_
    · refine List.forall_mem_map.mpr fun c hc => ?_
      have hhigh := (isDigit_iff_toNat.mp (h.isDigit c (List.mem_reverse.mp hc))).2
      show c.toNat - 48 < 10
      omega
    · obtain ⟨c, rest, rfl⟩ := List.exists_cons_of_ne_nil h.ne_nil
      have hc := digitChar_of_isDigit (h.isDigit c List.mem_cons_self)
      simp only [List.reverse_cons, List.map_append, List.map_cons, List.map_nil,
        List.getLast_append_singleton]
      intro hzero
      rw [hzero] at hc
      exact h.head_ne (congrArg some hc.symm)
  have hback : ∀ c ∈ digits.reverse, (Nat.digitChar ∘ fun c : Char => c.toNat - '0'.toNat) c = id c :=
    fun c hc => digitChar_of_isDigit (h.isDigit c (List.mem_reverse.mp hc))
  rw [hvalues, List.map_map, List.map_congr_left hback, List.map_id, List.reverse_reverse]

theorem Leading.value_pos {digits : List Char} (h : Leading digits) : 0 < digitsValue digits := by
  refine Nat.pos_of_ne_zero fun hzero => h.ne_nil ?_
  rw [h.eq_digits, hzero]
  rfl

/-- **A number has one canonical numeral.** -/
theorem Canonical.unique {cs cs' : List Char} {n : Int} (h : Canonical cs n) (h' : Canonical cs' n) :
    cs = cs' := by
  have hsame : ∀ {digits digits' : List Char}, Leading digits → Leading digits' →
      digitsValue digits = digitsValue digits' → digits = digits' := by
    intro digits digits' hd hd' heq
    rw [hd.eq_digits, hd'.eq_digits, heq]
  generalize hm : n = m at h'
  cases h with
  | zero =>
      cases h' with
      | zero => rfl
      | positive hd' => have hpos := hd'.value_pos; omega
      | negative hd' => have hpos := hd'.value_pos; omega
  | positive hd =>
      have hpos := hd.value_pos
      cases h' with
      | zero => omega
      | positive hd' => exact hsame hd hd' (by omega)
      | negative hd' => omega
  | negative hd =>
      have hpos := hd.value_pos
      cases h' with
      | zero => omega
      | positive hd' => omega
      | negative hd' => exact congrArg _ (hsame hd hd' (by omega))

/-- The digits of a number other than zero begin with none. -/
theorem leading_toDigits {n : Nat} (h : 0 < n) : Leading (Nat.toDigits 10 n) := by
  refine ⟨Nat.toDigits_ne_nil, ?_, fun c => Nat.isDigit_of_mem_toDigits (by decide) (by decide)⟩
  -- on the number without its last digit, which begins like the number
  induction n using Nat.strong_induction_on with
  | _ n ih =>
      rw [Nat.toDigits_eq_if (by decide)]
      split
      · next hsmall =>
          have hdigit : ∀ m < 10, 0 < m → m.digitChar ≠ '0' := by decide
          exact fun hhead => hdigit n hsmall h (Option.some.inj hhead)
      · next hlarge =>
          rw [List.head?_append_of_ne_nil _ Nat.toDigits_ne_nil]
          exact ih (n / 10) (Nat.div_lt_self h (by decide)) (by omega)

theorem digitsValue_toDigits (n : Nat) : digitsValue (Nat.toDigits 10 n) = n := by
  rw [← natOfDigits_eq_digitsValue fun c => Nat.isDigit_of_mem_toDigits (by decide) (by decide),
    natOfDigits_toDigits]

theorem canonical_toString (n : Int) : Canonical (toString n).toList n := by
  cases n with
  | ofNat m =>
      obtain rfl | hpos := Nat.eq_zero_or_pos m
      · exact .zero
      · have hcanonical := Canonical.positive (leading_toDigits hpos)
        rw [digitsValue_toDigits, ← toList_toString_natCast] at hcanonical
        exact hcanonical
  | negSucc m =>
      have hcanonical := Canonical.negative (leading_toDigits (Nat.succ_pos m))
      rw [digitsValue_toDigits] at hcanonical
      rw [toList_toString_negSucc]
      exact hcanonical

/-- **The text of a number is its canonical numeral.** -/
theorem canonical_iff {cs : List Char} {n : Int} : Canonical cs n ↔ cs = (toString n).toList :=
  ⟨fun h => h.unique (canonical_toString n), fun h => h ▸ canonical_toString n⟩

end Decimal

end RouteContract
