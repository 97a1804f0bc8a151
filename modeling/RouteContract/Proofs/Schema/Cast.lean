import RouteContract.Proofs.Decimal.Numeral
import RouteContract.Proofs.Text.Runs
import RouteContract.Proofs.Validation.Budget
import RouteContract.Schema.Cast

/-!
# Cast -- integers sent as text

A cast sends every integer as its decimal digits. Both casts read whole numbers as signed 64-bit
ones, so an integer comes back up to the greatest of these. Above it, in the upper half of the
unsigned ones, the two part (`Validator.casts_keep_iff`): `castNumber` falls back to the nearest
double, and `castInteger` refuses the digits that it wrote itself
(`Validator.castInteger_refuses_own`).

In the other direction `castInteger` reads every numeral in the range of the signed 64-bit numbers,
blanks around it allowed, and nothing else; sent again, the number is its canonical numeral
(`Validator.castInteger_exact`).
-/

namespace RouteContract

open Decimal (int64?_toString leastInt64 greatestInt64)

/-! ## Reading the digits of an integer -/

namespace Text

theorem isBlank_of_isDigit {c : Char} (h : c.isDigit = true) : isBlank c = false := by
  obtain ⟨hlow, hhigh⟩ := Decimal.isDigit_iff_toNat.mp h
  simp only [isBlank, Bool.or_eq_false_iff, Bool.and_eq_false_iff, decide_eq_false_iff_not,
    beq_eq_false_iff_ne]
  omega

theorem trim_toString (n : Int) : trim (toString n) = toString n := by
  have hnone : ∀ c ∈ (toString n).toList, isBlank c = false := by
    have hdigits : ∀ m, ∀ c ∈ Nat.toDigits 10 m, isBlank c = false := fun m c hc =>
      isBlank_of_isDigit (Nat.isDigit_of_mem_toDigits (by decide) (by decide) hc)
    cases n with
    | ofNat m =>
        show ∀ c ∈ (toString (m : Int)).toList, _
        rw [Decimal.toList_toString_natCast]
        exact hdigits m
    | negSucc m =>
        rw [Decimal.toList_toString_negSucc, List.forall_mem_cons]
        exact ⟨by decide, hdigits _⟩
  rw [trim, trimChars_of_not_blank hnone, String.ofList_toList]

end Text

namespace Cast

variable {n : Int}

theorem readInteger_toString (n : Int) : readInteger (toString n) =
    if leastInt64 ≤ n ∧ n ≤ greatestInt64 then .ok (.num (.int n))
    else .error ("'" ++ toString n ++ "' is not an integer") := by
  unfold readInteger
  dsimp only
  rw [Text.trim_toString, int64?_toString]
  split_ifs <;> rfl

theorem readNumber_toString (h : leastInt64 ≤ n ∧ n ≤ greatestInt64) :
    readNumber (toString n) = .ok (.num (.int n)) := by
  unfold readNumber number?
  dsimp only
  rw [Text.trim_toString, int64?_toString, if_pos h]

/-- An integer above the signed ones reads as its nearest double. -/
theorem readNumber_toString_of_lt (h : greatestInt64 < n) (hn : n ≤ Number.greatestInt) :
    ∃ x, Binary64.ofInt? n = some x ∧ readNumber (toString n) = .ok (.num (.float x)) := by
  obtain ⟨m, rfl⟩ := Int.eq_ofNat_of_zero_le (Int.le_of_lt (Int.lt_of_le_of_lt (by decide) h))
  have hbits : m < 2 ^ 64 := by
    have hle : (m : Int) ≤ 0xFFFFFFFFFFFFFFFF := hn
    omega
  obtain ⟨x, hx⟩ := Option.isSome_iff_exists.mp
    (Binary64.ofQuotient?_isSome false hbits (by decide))
  have hnearest : Binary64.ofInt? m = some x := hx
  refine ⟨x, hnearest, ?_⟩
  have hsigned : ¬(leastInt64 ≤ (m : Int) ∧ (m : Int) ≤ greatestInt64) := by omega
  unfold readNumber number?
  dsimp only
  rw [Text.trim_toString, int64?_toString, if_neg hsigned, Decimal.toList_toString_natCast,
    Decimal.binary64?_toDigits hbits (by decide), hnearest]
  rfl

/-! ## Casts at the root of a validator -/

/-- What a cast answers at the root: the value that was read, or the message. -/
def answer : Except String Json → Outcome Report Json
  | .ok v => .ok v
  | .error message => .failed ⟨[⟨"", [message]⟩]⟩

end Cast

namespace Validator

open Schema (castNumber castInteger)

/-- **A cast decodes a string to what its reader makes of it**, if its program side accepts whatever
is read. -/
theorem validate_cast {read : String → Except String Json} {target : Schema} {write : Conversion}
    (defs : Definitions) (config : ValidationConfig) (text : String)
    (htarget : ∀ v, read text = .ok v →
      Visit.present (Traversal.check defs config .decode target) "" v = .ok v) :
    (Validator.mk (.ofKind (.transform .string target (Cast.onString read) write)) defs .decode
      config).validate (.str text) = Cast.answer (read text) := by
  rw [validate_eq_visitor]
  show (((Outcome.bind (Pass.convert (Cast.onString read) "" (.str text)) fun v =>
    if config.verifyOutput then
      (Visit.present (Traversal.check defs config .decode target) "" v).map fun _ => v
    else .ok v).bind fun v => .ok (some v)).map fun v => v.getD .null).mapReason
      Report.ofFindings = _
  unfold Pass.convert Cast.onString
  dsimp only
  cases hread : read text with
  | error message => rfl
  | ok v =>
      dsimp only [Outcome.bind]
      rw [htarget v hread]
      cases config.verifyOutput <;> rfl

theorem decode_castNumber (defs : Definitions) (config : ValidationConfig) (text : String) :
    (Validator.mk castNumber defs .decode config).validate (.str text) =
      Cast.answer (Cast.readNumber text) := by
  refine validate_cast defs config text fun v hv => ?_
  unfold Cast.readNumber at hv
  dsimp only at hv
  split at hv <;> cases hv
  rfl

theorem decode_castInteger (defs : Definitions) (config : ValidationConfig) (text : String) :
    (Validator.mk castInteger defs .decode config).validate (.str text) =
      Cast.answer (Cast.readInteger text) := by
  refine validate_cast defs config text fun v hv => ?_
  unfold Cast.readInteger at hv
  dsimp only at hv
  split at hv <;> cases hv
  rfl

theorem encode_castNumber (defs : Definitions) (config : ValidationConfig) (n : Number) :
    (Validator.mk castNumber defs .encode config).validate (.num n) = .ok (.str n.text) := by
  obtain ⟨strict, verify, status, development⟩ := config
  cases verify <;> rfl

theorem encode_castInteger (defs : Definitions) (config : ValidationConfig) (n : Int) :
    (Validator.mk castInteger defs .encode config).validate (.num (.int n)) =
      .ok (.str (toString n)) := by
  obtain ⟨strict, verify, status, development⟩ := config
  cases verify <;> rfl

/-- **Casts are lossless on signed 64-bit integers, and on these only.** Every integer of a value is
sent as its digits. Up to the greatest signed one the digits are read back as that integer; above it
`castNumber` reads the nearest double, which is another literal, and `castInteger` reads nothing. -/
theorem casts_keep_iff (defs : Definitions) (config config' : ValidationConfig) {n : Int}
    (hn : (Number.int n).InRange) :
    let encoded cast := (Validator.mk cast defs .encode config).validate (.num (.int n))
    let decoded cast := (Validator.mk cast defs .decode config').validate (.str (toString n))
    (encoded castNumber = .ok (.str (toString n)) ∧
      (decoded castNumber = .ok (.num (.int n)) ↔ n ≤ greatestInt64) ∧
      (greatestInt64 < n → ∃ x, Binary64.ofInt? n = some x ∧
        decoded castNumber = .ok (.num (.float x)))) ∧
    encoded castInteger = .ok (.str (toString n)) ∧
      (decoded castInteger = .ok (.num (.int n)) ↔ n ≤ greatestInt64) ∧
      (greatestInt64 < n → decoded castInteger =
        .failed ⟨[⟨"", ["'" ++ toString n ++ "' is not an integer"]⟩]⟩) := by
  intro encoded decoded
  have hsigned : n ≤ greatestInt64 → leastInt64 ≤ n ∧ n ≤ greatestInt64 := fun h => ⟨hn.1, h⟩
  have habove : greatestInt64 < n → ¬(leastInt64 ≤ n ∧ n ≤ greatestInt64) :=
    fun h hle => Int.not_lt.mpr hle.2 h
  have hnumber : greatestInt64 < n → ∃ x, Binary64.ofInt? n = some x ∧
      decoded castNumber = .ok (.num (.float x)) := by
    intro h
    obtain ⟨x, hx, hread⟩ := Cast.readNumber_toString_of_lt h hn.2
    exact ⟨x, hx, (decode_castNumber defs config' _).trans (congrArg Cast.answer hread)⟩
  have hinteger : decoded castInteger = Cast.answer (Cast.readInteger (toString n)) :=
    decode_castInteger defs config' _
  rw [Cast.readInteger_toString] at hinteger
  refine ⟨⟨encode_castNumber defs config _, ⟨fun h => ?_, fun h => ?_⟩, hnumber⟩,
    encode_castInteger defs config n, ⟨fun h => ?_, fun h => ?_⟩, fun h => ?_⟩
  · by_contra hlt
    obtain ⟨x, _, hfloat⟩ := hnumber (Int.not_le.mp hlt)
    cases h.symm.trans hfloat
  · exact (decode_castNumber defs config' _).trans
      (congrArg Cast.answer (Cast.readNumber_toString (hsigned h)))
  · by_contra hlt
    rw [if_neg (habove (Int.not_le.mp hlt))] at hinteger
    cases h.symm.trans hinteger
  · rw [if_pos (hsigned h)] at hinteger
    exact hinteger
  · rw [if_neg (habove h)] at hinteger
    exact hinteger

/-- The greatest unsigned integer is sent, and both casts lose it. -/
theorem casts_keep_greatest :
    (Number.int 0xFFFFFFFFFFFFFFFF).InRange ∧
    (Validator.mk castInteger {} .encode {}).validate (.num (.int 0xFFFFFFFFFFFFFFFF)) =
      .ok (.str "18446744073709551615") ∧
    (∃ x, (Validator.mk castNumber {} .decode {}).validate (.str "18446744073709551615") =
      .ok (.num (.float x))) ∧
    (Validator.mk castInteger {} .decode {}).validate (.str "18446744073709551615") =
      .failed ⟨[⟨"", ["'18446744073709551615' is not an integer"]⟩]⟩ := by
  have hrange : (Number.int 0xFFFFFFFFFFFFFFFF).InRange := ⟨by decide, by decide⟩
  have hdigits : toString (0xFFFFFFFFFFFFFFFF : Int) = "18446744073709551615" := by decide
  obtain ⟨⟨_, _, hnumber⟩, hsent, _, hinteger⟩ := casts_keep_iff {} {} {} hrange
  rw [hdigits] at hnumber hsent hinteger
  obtain ⟨x, _, hfloat⟩ := hnumber (by decide)
  exact ⟨hrange, hsent, ⟨x, hfloat⟩, hinteger (by decide)⟩

/-- **A cast refuses its own text**: the least integer above the signed ones is sent, and what was
sent is refused. -/
theorem castInteger_refuses_own :
    (Number.int 0x8000000000000000).InRange ∧
    (Validator.mk castInteger {} .encode {}).validate (.num (.int 0x8000000000000000)) =
      .ok (.str "9223372036854775808") ∧
    (Validator.mk castInteger {} .decode {}).validate (.str "9223372036854775808") =
      .failed ⟨[⟨"", ["'9223372036854775808' is not an integer"]⟩]⟩ :=
  ⟨⟨by decide, by decide⟩, rfl, rfl⟩

end Validator

/-! ## Which texts are integers -/

namespace Cast

variable {text : String} {n : Int}

/-- A text spells a signed 64-bit number: without the blanks at its ends it is a numeral of the
number. -/
def Spells (text : String) (n : Int) : Prop :=
  (∃ inner, Text.Trimmed text.toList inner ∧ Decimal.Numeral inner n) ∧
    -2 ^ 63 ≤ n ∧ n ≤ 2 ^ 63 - 1

theorem spells_iff : Spells text n ↔ Decimal.int64? (Text.trim text).toList = some n := by
  simp only [Spells, Text.trimmed_iff, exists_eq_left', Decimal.int64?_eq_some_iff, Text.trim,
    String.toList_ofList]

theorem readInteger_of_spells (h : Spells text n) : readInteger text = .ok (.num (.int n)) := by
  unfold readInteger
  dsimp only
  rw [spells_iff.mp h]

theorem readInteger_of_not_spells (h : ∀ n, ¬Spells text n) :
    readInteger text = .error ("'" ++ Text.trim text ++ "' is not an integer") := by
  have hnone : Decimal.int64? (Text.trim text).toList = none :=
    Option.eq_none_iff_forall_ne_some.mpr fun n hn => h n (spells_iff.mpr hn)
  unfold readInteger
  dsimp only
  rw [hnone]

end Cast

namespace Validator

open Schema (castInteger)

/-- **An integer cast reads exactly the decimal 64-bit integers.** A text is decoded if, without the
blanks at its ends, it is an optional sign and one or more ASCII digits whose exact value is in the
range of the signed 64-bit numbers, and then to that value; any other text is refused and quoted.
Encoding such a number gives its canonical numeral, which is decoded to the number again and stays
as it is when that is encoded once more. -/
theorem castInteger_exact (defs : Definitions) (config config' : ValidationConfig) (text : String) :
    let decoded text := (Validator.mk castInteger defs .decode config).validate (.str text)
    let encoded := (Validator.mk castInteger defs .encode config').validate
    (∀ v, decoded text = .ok v ↔ ∃ n, Cast.Spells text n ∧ v = .num (.int n)) ∧
      ((∀ n, ¬Cast.Spells text n) →
        decoded text = .failed ⟨[⟨"", ["'" ++ Text.trim text ++ "' is not an integer"]⟩]⟩) ∧
      ∀ n : Int, -2 ^ 63 ≤ n → n ≤ 2 ^ 63 - 1 → ∃ canonical,
        encoded (.num (.int n)) = .ok (.str canonical) ∧
        (∀ cs, Decimal.Canonical cs n ↔ cs = canonical.toList) ∧
        decoded canonical = .ok (.num (.int n)) ∧
        ∀ v, decoded canonical = .ok v → encoded v = .ok (.str canonical) := by
  intro decoded encoded
  have hdecoded : ∀ text, decoded text = Cast.answer (Cast.readInteger text) :=
    decode_castInteger defs config
  have hspelled : ∀ {text n}, Cast.Spells text n → decoded text = .ok (.num (.int n)) :=
    fun h => (hdecoded _).trans (congrArg Cast.answer (Cast.readInteger_of_spells h))
  have hrefused : (∀ n, ¬Cast.Spells text n) →
      decoded text = .failed ⟨[⟨"", ["'" ++ Text.trim text ++ "' is not an integer"]⟩]⟩ :=
    fun h => (hdecoded text).trans (congrArg Cast.answer (Cast.readInteger_of_not_spells h))
  refine ⟨fun v => ⟨fun hv => ?_, ?_⟩, hrefused, fun n hleast hgreatest => ?_⟩
  · by_cases hspells : ∃ n, Cast.Spells text n
    · obtain ⟨n, hn⟩ := hspells
      exact ⟨n, hn, Outcome.ok.inj (hv.symm.trans (hspelled hn))⟩
    · cases hv.symm.trans (hrefused (not_exists.mp hspells))
  · rintro ⟨n, hn, rfl⟩
    exact hspelled hn
  · have hsent : encoded (.num (.int n)) = .ok (.str (toString n)) := encode_castInteger defs config' n
    have hread : decoded (toString n) = .ok (.num (.int n)) := by
      rw [hdecoded, Cast.readInteger_toString, if_pos ⟨hleast, hgreatest⟩]
      rfl
    refine ⟨toString n, hsent, fun cs => Decimal.canonical_iff, hread, fun v hv => ?_⟩
    rw [Outcome.ok.inj (hv.symm.trans hread)]
    exact hsent

/-- Blanks, a sign and leading zeros are read over. -/
example : (Validator.mk castInteger {} .decode {}).validate (.str " -007\n") = .ok (.num (.int (-7))) :=
  rfl

end Validator

end RouteContract
