import Mathlib.Algebra.Group.Nat.Defs
import Mathlib.Data.List.Basic

/-!
# Bytes -- texts are ordered like their bytes

Texts are compared character by character, and characters by their code points. UTF-8 writes code
points by their digits in base 64, most significant first, behind a byte that also tells how many of
them follow. A greater character is therefore written with bytes that come later
(`append_lt_append_of_lt`), and comparing bytes gives the same order of texts (`bytes_lt_iff`).
-/

namespace RouteContract.Text

/-- The bytes of a text in UTF-8. -/
def bytes (text : String) : List UInt8 := text.toUTF8.data.toList

theorem bytes_eq_flatMap (text : String) :
    bytes text = text.toList.flatMap String.utf8EncodeChar := by
  rw [bytes, String.toUTF8, ← String.utf8Encode_toList, List.utf8Encode,
    List.toList_data_toByteArray]

/-! ## Digits -/

/-- The last digits of a number in base 64, each in a byte that starts with the bits `10`. -/
def continuation (v : Nat) : Nat → List UInt8
  | 0 => []
  | n + 1 => .ofNat (v / 64 ^ n % 64 + 128) :: continuation v n

theorem ofNat_cons_lt {a b : Nat} (hb : b < 256) {xs ys : List UInt8}
    (h : a < b ∨ a = b ∧ xs < ys) : UInt8.ofNat a :: xs < UInt8.ofNat b :: ys := by
  rw [List.cons_lt_cons_iff]
  rcases h with hlt | ⟨rfl, hlt⟩
  · exact .inl ((UInt8.ofNat_lt_iff_lt (Nat.lt_trans hlt hb) hb).mpr hlt)
  · exact .inr ⟨rfl, hlt⟩

/-- Numbers are compared by their first digit, then by the others. -/
theorem div_lt_or_mod_lt {v w : Nat} (k : Nat) (h : v < w) :
    v / k < w / k ∨ v / k = w / k ∧ v % k < w % k := by
  rcases Nat.lt_or_eq_of_le (Nat.div_le_div_right (Nat.le_of_lt h)) with hlt | heq
  · exact .inl hlt
  · have hv := Nat.div_add_mod v k
    have hw := Nat.div_add_mod w k
    rw [heq] at hv
    exact .inr ⟨heq, by omega⟩

theorem continuation_append_lt {v w n : Nat} (h : v % 64 ^ n < w % 64 ^ n) (xs ys : List UInt8) :
    continuation v n ++ xs < continuation w n ++ ys := by
  induction n with
  | zero => simp [Nat.mod_one] at h
  | succ n ih =>
      apply ofNat_cons_lt (by omega)
      rcases div_lt_or_mod_lt (64 ^ n) h with hfirst | ⟨hfirst, hothers⟩
      · rw [Nat.pow_succ, Nat.mod_mul_right_div_self, Nat.mod_mul_right_div_self] at hfirst
        exact .inl (by omega)
      · rw [Nat.pow_succ, Nat.mod_mul_right_div_self, Nat.mod_mul_right_div_self] at hfirst
        rw [Nat.pow_succ, Nat.mod_mul_right_mod, Nat.mod_mul_right_mod] at hothers
        exact .inr ⟨by omega, ih hothers⟩

/-- Behind first bytes of one kind, greater code points come later. -/
theorem lead_append_lt {v w n lead : Nat} (h : v < w) (hlead : w / 64 ^ n + lead < 256)
    (xs ys : List UInt8) :
    UInt8.ofNat (v / 64 ^ n + lead) :: continuation v n ++ xs <
      UInt8.ofNat (w / 64 ^ n + lead) :: continuation w n ++ ys := by
  apply ofNat_cons_lt hlead
  rcases div_lt_or_mod_lt (64 ^ n) h with hfirst | ⟨hfirst, hothers⟩
  · exact .inl (by omega)
  · exact .inr ⟨by omega, continuation_append_lt hothers xs ys⟩

/-! ## Characters -/

/-- The four kinds of first bytes, and how many bytes follow. -/
theorem utf8EncodeChar_cases (c : Char) :
    (c.toNat < 128 ∧
      String.utf8EncodeChar c = .ofNat (c.toNat / 64 ^ 0 + 0) :: continuation c.toNat 0) ∨
    ((128 ≤ c.toNat ∧ c.toNat < 2048) ∧
      String.utf8EncodeChar c = .ofNat (c.toNat / 64 ^ 1 + 192) :: continuation c.toNat 1) ∨
    ((2048 ≤ c.toNat ∧ c.toNat < 65536) ∧
      String.utf8EncodeChar c = .ofNat (c.toNat / 64 ^ 2 + 224) :: continuation c.toNat 2) ∨
    ((65536 ≤ c.toNat ∧ c.toNat < 1114112) ∧
      String.utf8EncodeChar c = .ofNat (c.toNat / 64 ^ 3 + 240) :: continuation c.toNat 3) := by
  have hvalid : c.toNat < 1114112 := by
    rcases c.valid with h | h
    · exact Nat.lt_trans h (by decide)
    · exact h.2
  unfold String.utf8EncodeChar
  dsimp only
  rw [Char.toNat_val]
  split
  · exact .inl ⟨by omega, by simp [continuation]⟩
  · split
    · have hdigit : c.toNat / 64 % 32 = c.toNat / 64 := by omega
      exact .inr (.inl ⟨by omega, by simp [continuation, hdigit]⟩)
    · split
      · have hdigit : c.toNat / 4096 % 16 = c.toNat / 4096 := by omega
        exact .inr (.inr (.inl ⟨by omega, by simp [continuation, hdigit]⟩))
      · have hdigit : c.toNat / 262144 % 8 = c.toNat / 262144 := by omega
        exact .inr (.inr (.inr ⟨by omega, by simp [continuation, hdigit]⟩))

/-- **A greater character** is written with bytes that come later, whatever stands behind it. -/
theorem append_lt_append_of_lt {c d : Char} (h : c < d) (xs ys : List UInt8) :
    String.utf8EncodeChar c ++ xs < String.utf8EncodeChar d ++ ys := by
  have hlt : c.toNat < d.toNat := h
  rcases utf8EncodeChar_cases c with ⟨hc, hc'⟩ | ⟨hc, hc'⟩ | ⟨hc, hc'⟩ | ⟨hc, hc'⟩ <;>
    rcases utf8EncodeChar_cases d with ⟨hd, hd'⟩ | ⟨hd, hd'⟩ | ⟨hd, hd'⟩ | ⟨hd, hd'⟩ <;>
    rw [hc', hd']
  · exact lead_append_lt hlt (by omega) xs ys
  · exact ofNat_cons_lt (by omega) (.inl (by omega))
  · exact ofNat_cons_lt (by omega) (.inl (by omega))
  · exact ofNat_cons_lt (by omega) (.inl (by omega))
  · omega
  · exact lead_append_lt hlt (by omega) xs ys
  · exact ofNat_cons_lt (by omega) (.inl (by omega))
  · exact ofNat_cons_lt (by omega) (.inl (by omega))
  · omega
  · omega
  · exact lead_append_lt hlt (by omega) xs ys
  · exact ofNat_cons_lt (by omega) (.inl (by omega))
  · omega
  · omega
  · omega
  · exact lead_append_lt hlt (by omega) xs ys

/-! ## Texts -/

theorem flatMap_lt_flatMap {cs ds : List Char} (h : cs < ds) :
    cs.flatMap String.utf8EncodeChar < ds.flatMap String.utf8EncodeChar := by
  induction h with
  | @nil d ds =>
      rw [List.flatMap_nil, List.flatMap_cons]
      cases hbytes : String.utf8EncodeChar d with
      | nil => exact absurd hbytes String.utf8EncodeChar_ne_nil
      | cons byte others => exact List.nil_lt_cons _ _
  | cons _ ih =>
      rw [List.flatMap_cons, List.flatMap_cons]
      exact List.append_left_lt ih
  | rel hlt => exact append_lt_append_of_lt hlt _ _

/-- **The order of texts** is the order of their bytes. -/
theorem bytes_lt_iff {s t : String} : bytes s < bytes t ↔ s < t := by
  have hmono : ∀ {s t : String}, s < t → bytes s < bytes t := by
    intro s t h
    rw [bytes_eq_flatMap, bytes_eq_flatMap]
    exact flatMap_lt_flatMap (String.lt_iff.mp h)
  refine ⟨fun h => ?_, hmono⟩
  by_contra hnot
  by_cases hlt : t < s
  · exact List.lt_asymm h (hmono hlt)
  · have heq : s = t := String.le_antisymm (String.not_lt.mp hlt) (String.not_lt.mp hnot)
    rw [heq] at h
    exact List.lt_irrefl _ h

end RouteContract.Text
