import Mathlib.Data.List.Perm.Subperm
import RouteContract.Proofs.Json.Alike

/-!
# Literals -- when two values are the same literal

`Json.same` is an equivalence on well-formed values (`same_refl`, `same_symm`, `same_trans`).
`Json.literalsEqual`, the equality of the literals of a schema, is reflexive and symmetric too, but
not transitive: two integers are compared as they stand and an integer with a double after rounding,
so a double equals every integer that rounds to it. `literalsEqual_of_common` says that nothing else
goes wrong: two literals that equal a common value are equal, or they are integers and the value is
a double that both round to.
-/

namespace RouteContract

/-! ## Numbers -/

theorem Binary64.same_iff {x y : Binary64} :
    x.same y = true ↔ x.units = y.units ∧ (x.negative = y.negative ∨ x.units = 0) := by
  rw [same, Bool.and_eq_true, Bool.or_eq_true, beq_iff_eq, beq_iff_eq, isZero_iff_units]

theorem Binary64.same_symm {x y : Binary64} (h : x.same y = true) : y.same x = true := by
  obtain ⟨hunits, hsign⟩ := same_iff.mp h
  exact same_iff.mpr ⟨hunits.symm, hsign.imp Eq.symm fun hzero => hunits ▸ hzero⟩

theorem Binary64.same_comm (x y : Binary64) : x.same y = y.same x :=
  Bool.eq_iff_iff.mpr ⟨same_symm, same_symm⟩

theorem Binary64.same_trans {x y z : Binary64} (h : x.same y = true) (h' : y.same z = true) :
    x.same z = true := by
  obtain ⟨hunits, hsign⟩ := same_iff.mp h
  obtain ⟨hunits', hsign'⟩ := same_iff.mp h'
  refine same_iff.mpr ⟨hunits.trans hunits', ?_⟩
  rcases hsign with hxy | hzero
  · exact hsign'.imp hxy.trans hunits.trans
  · exact .inr hzero

namespace Number

theorem same_symm {a b : Number} (h : a.same b = true) : b.same a = true := by
  cases a with
  | int n =>
      cases b with
      | int m =>
          rw [same, beq_iff_eq] at h ⊢
          exact h.symm
      | float y => cases h
  | float x =>
      cases b with
      | int m => cases h
      | float y => exact Binary64.same_symm h

theorem same_trans {a b c : Number} (h : a.same b = true) (h' : b.same c = true) :
    a.same c = true := by
  cases b with
  | int m =>
      cases a with
      | int n =>
          rw [same, beq_iff_eq] at h
          rwa [h]
      | float x => cases h
  | float y =>
      cases a with
      | int n => cases h
      | float x =>
          cases c with
          | int k => cases h'
          | float z => exact Binary64.same_trans h h'

/-- Rounded to a double, the integer is the given one. -/
def RoundsTo (n : Int) (x : Binary64) : Prop :=
  ∃ y, Binary64.ofInt? n = some y ∧ y.same x = true

theorem sameValue_int_iff {n m : Int} : sameValue (.int n) (.int m) = true ↔ n = m := by
  rw [sameValue, beq_iff_eq]

theorem sameValue_int_float_iff {n : Int} {x : Binary64} :
    sameValue (.int n) (.float x) = true ↔ RoundsTo n x := by
  have hrounded : (Number.int n).toBinary64? = Binary64.ofInt? n := rfl
  rw [RoundsTo, sameValue, hrounded]
  · generalize Binary64.ofInt? n = rounded
    cases rounded <;> simp [toBinary64?]
  · exact nofun

instance (n : Int) (x : Binary64) : Decidable (RoundsTo n x) :=
  decidable_of_iff (sameValue (.int n) (.float x) = true) sameValue_int_float_iff

theorem sameValue_float_int_iff {n : Int} {x : Binary64} :
    sameValue (.float x) (.int n) = true ↔ RoundsTo n x := by
  have hrounded : (Number.int n).toBinary64? = Binary64.ofInt? n := rfl
  rw [RoundsTo, sameValue, hrounded]
  · generalize Binary64.ofInt? n = rounded
    cases rounded <;> simp [toBinary64?, Binary64.same_comm x]
  · exact nofun

theorem sameValue_symm {a b : Number} (h : a.sameValue b = true) : b.sameValue a = true := by
  cases a with
  | int n =>
      cases b with
      | int m => exact sameValue_int_iff.mpr (sameValue_int_iff.mp h).symm
      | float y => exact sameValue_float_int_iff.mpr (sameValue_int_float_iff.mp h)
  | float x =>
      cases b with
      | int m => exact sameValue_int_float_iff.mpr (sameValue_float_int_iff.mp h)
      | float y => exact Binary64.same_symm h

/-- Equal literals have the same value. -/
theorem sameValue_of_same {a b : Number} (h : a.same b = true) : a.sameValue b = true := by
  cases a with
  | int n =>
      cases b with
      | int m => exact h
      | float y => cases h
  | float x =>
      cases b with
      | int m => cases h
      | float y => exact h

/-- Two numbers with the value of a third have the same value, unless they are integers and the third
is a double. -/
theorem sameValue_of_common {a b c : Number} (ha : a.sameValue c = true)
    (hb : b.sameValue c = true) :
    a.sameValue b = true ∨ ∃ n m x, a = .int n ∧ b = .int m ∧ c = .float x := by
  cases c with
  | int k =>
      cases a with
      | int n =>
          obtain rfl := sameValue_int_iff.mp ha
          exact .inl (sameValue_symm hb)
      | float x =>
          cases b with
          | int m =>
              obtain rfl := sameValue_int_iff.mp hb
              exact .inl ha
          -- both doubles are the one that the integer rounds to
          | float y =>
              obtain ⟨w, hw, hwx⟩ := sameValue_float_int_iff.mp ha
              obtain ⟨w', hw', hwy⟩ := sameValue_float_int_iff.mp hb
              obtain rfl := Option.some.inj (hw.symm.trans hw')
              exact .inl (Binary64.same_trans (Binary64.same_symm hwx) hwy)
  | float z =>
      cases a with
      | int n =>
          cases b with
          | int m => exact .inr ⟨n, m, z, rfl, rfl, rfl⟩
          | float y =>
              obtain ⟨w, hw, hwz⟩ := sameValue_int_float_iff.mp ha
              have hwy := Binary64.same_trans hwz (Binary64.same_symm hb)
              exact .inl (sameValue_int_float_iff.mpr ⟨w, hw, hwy⟩)
      | float x =>
          cases b with
          | int m =>
              obtain ⟨w, hw, hwz⟩ := sameValue_int_float_iff.mp hb
              have hwx := Binary64.same_trans hwz (Binary64.same_symm ha)
              exact .inl (sameValue_float_int_iff.mpr ⟨w, hw, hwx⟩)
          | float y => exact .inl (Binary64.same_trans ha (Binary64.same_symm hb))

end Number

namespace Json

/-! ## Equality of values -/

theorem same_null_iff {b : Json} : same .null b = true ↔ b = .null := by
  cases b <;> simp [same]

theorem same_bool_iff {x : Bool} {b : Json} : same (.bool x) b = true ↔ b = .bool x := by
  cases b <;> simp [same, @eq_comm Bool x]

theorem same_str_iff {s : String} {b : Json} : same (.str s) b = true ↔ b = .str s := by
  cases b <;> simp [same, @eq_comm String s]

theorem same_num_iff {n : Number} {b : Json} :
    same (.num n) b = true ↔ ∃ m, b = .num m ∧ n.same m = true := by
  cases b <;> simp [same]

theorem same_arr_iff {xs : List Json} {b : Json} :
    same (.arr xs) b = true ↔ ∃ ys, b = .arr ys ∧ List.Forall₂ (same · · = true) xs ys := by
  have helements : ∀ ys, sameElements xs ys = true ↔ List.Forall₂ (same · · = true) xs ys := by
    intro ys
    induction xs generalizing ys with
    | nil => cases ys <;> simp [sameElements]
    | cons x xs ih =>
        cases ys with
        | nil => simp [sameElements]
        | cons y ys => rw [sameElements, Bool.and_eq_true, ih, List.forall₂_cons]
  cases b <;> simp [same, helements]

/-- Equal objects have the same number of members, and every name on the left holds an equal value
on the right. -/
theorem same_obj_iff {ms : Entries Json} {b : Json} :
    same (.obj ms) b = true ↔ ∃ ns, b = .obj ns ∧ ms.length = ns.length ∧
      ∀ m ∈ ms, ∃ w, Entries.get? ns m.1 = some w ∧ same m.2 w = true := by
  have hmembers : ∀ ns, sameMembers ms ns = true ↔
      ∀ m ∈ ms, ∃ w, Entries.get? ns m.1 = some w ∧ same m.2 w = true := by
    intro ns
    induction ms with
    | nil => simp [sameMembers]
    | cons m ms ih =>
        obtain ⟨k, v⟩ := m
        rw [sameMembers, List.forall_mem_cons, ← ih]
        cases Entries.get? ns k <;> simp
  cases b <;> simp [same, hmembers]

theorem same_refl {a : Json} (h : a.WellFormed) : same a a = true := by
  induction a with
  | null => exact same_null_iff.mpr rfl
  | bool x => exact same_bool_iff.mpr rfl
  | str s => exact same_str_iff.mpr rfl
  | num n => exact n.same_refl
  | arr xs ih =>
      refine same_arr_iff.mpr ⟨xs, rfl, List.forall₂_same.mpr fun x hx => ?_⟩
      exact ih x hx (h.element hx)
  | obj ms ih =>
      refine same_obj_iff.mpr ⟨ms, rfl, rfl, fun m hm => ?_⟩
      exact ⟨m.2, h.distinct.get?_of_mem hm, ih m hm (h.member hm)⟩

theorem same_symm {a b : Json} (ha : a.WellFormed) (h : same a b = true) : same b a = true := by
  induction a generalizing b with
  | null => exact same_null_iff.mp h ▸ h
  | bool x => exact same_bool_iff.mp h ▸ h
  | str s => exact same_str_iff.mp h ▸ h
  | num n =>
      obtain ⟨m, rfl, hsame⟩ := same_num_iff.mp h
      exact Number.same_symm hsame
  | arr xs ih =>
      obtain ⟨ys, rfl, hxy⟩ := same_arr_iff.mp h
      have hmem : List.Forall₂ (fun y x => x ∈ xs ∧ same x y = true) ys xs :=
        ((List.forall₂_and_left xs ys).mpr ⟨fun _ hx => hx, hxy⟩).flip
      refine same_arr_iff.mpr ⟨xs, rfl, hmem.imp fun y x hx => ?_⟩
      exact ih x hx.1 (ha.element hx.1) hx.2
  | obj ms ih =>
      obtain ⟨ns, rfl, hlength, hms⟩ := same_obj_iff.mp h
      have hd := ha.distinct
      -- the names on the left are distinct and stand on the right, where there are no more of them
      have hsub : Entries.keys ms ⊆ Entries.keys ns := by
        intro key hkey
        obtain ⟨m, hm, rfl⟩ := List.mem_map.mp hkey
        obtain ⟨w, hw, _⟩ := hms m hm
        exact List.mem_map.mpr ⟨_, Entries.mem_of_get? hw, rfl⟩
      have hle : (Entries.keys ns).length ≤ (Entries.keys ms).length := by
        rw [Entries.keys, Entries.keys, List.length_map, List.length_map]
        exact Nat.le_of_eq hlength.symm
      have hperm : (Entries.keys ms).Perm (Entries.keys ns) :=
        (List.Nodup.subperm hd hsub).perm_of_length_le hle
      have hdn : Entries.Distinct ns := hperm.nodup_iff.mp hd
      refine same_obj_iff.mpr ⟨ms, rfl, hlength.symm, fun n hn => ?_⟩
      obtain ⟨m, hm, hname⟩ := List.mem_map.mp (hperm.mem_iff.mpr (List.mem_map_of_mem hn))
      obtain ⟨w, hw, hsame⟩ := hms m hm
      rw [hname, hdn.get?_of_mem hn] at hw
      cases hw
      exact ⟨m.2, hname ▸ hd.get?_of_mem hm, ih m hm (ha.member hm) hsame⟩

theorem same_trans {a b c : Json} (h : same a b = true) (h' : same b c = true) :
    same a c = true := by
  induction a generalizing b c with
  | null => exact same_null_iff.mp h ▸ h'
  | bool x => exact same_bool_iff.mp h ▸ h'
  | str s => exact same_str_iff.mp h ▸ h'
  | num n =>
      obtain ⟨m, rfl, hsame⟩ := same_num_iff.mp h
      obtain ⟨k, rfl, hsame'⟩ := same_num_iff.mp h'
      exact Number.same_trans hsame hsame'
  | arr xs ih =>
      obtain ⟨ys, rfl, hxy⟩ := same_arr_iff.mp h
      obtain ⟨zs, rfl, hyz⟩ := same_arr_iff.mp h'
      refine same_arr_iff.mpr ⟨zs, rfl, ?_⟩
      clear h h'
      induction hxy generalizing zs with
      | nil =>
          cases hyz
          exact .nil
      | cons hx _ ihxs =>
          cases hyz with
          | cons hy hyz =>
              rw [List.forall_mem_cons] at ih
              exact .cons (ih.1 hx hy) (ihxs ih.2 _ hyz)
  | obj ms ih =>
      obtain ⟨ns, rfl, hlength, hms⟩ := same_obj_iff.mp h
      obtain ⟨os, rfl, hlength', hns⟩ := same_obj_iff.mp h'
      refine same_obj_iff.mpr ⟨os, rfl, hlength.trans hlength', fun m hm => ?_⟩
      obtain ⟨w, hw, hmw⟩ := hms m hm
      obtain ⟨u, hu, hwu⟩ := hns _ (Entries.mem_of_get? hw)
      exact ⟨u, hu, ih m hm hmw hwu⟩

/-! ## Equality of literals -/

/-- What is equal as a value is equal as a literal. -/
theorem literalsEqual_of_same {a b : Json} (h : same a b = true) : literalsEqual a b = true := by
  cases a with
  | num n =>
      obtain ⟨m, rfl, hsame⟩ := same_num_iff.mp h
      exact Number.sameValue_of_same hsame
  | _ => exact h

/-- A literal that equals a number is a number of that value. -/
theorem literalsEqual_num_iff {a : Json} {c : Number} :
    literalsEqual a (.num c) = true ↔ ∃ n, a = .num n ∧ n.sameValue c = true := by
  cases a <;> simp [literalsEqual, same]

/-- Only numbers are compared by value. -/
theorem literalsEqual_eq_same {a b : Json} (hb : ∀ c, b ≠ .num c) :
    literalsEqual a b = same a b := by
  cases a with
  | num n =>
      cases b with
      | num c => exact absurd rfl (hb c)
      | _ => rfl
  | _ => rfl

theorem literalsEqual_refl {a : Json} (h : a.WellFormed) : literalsEqual a a = true :=
  literalsEqual_of_same (same_refl h)

theorem literalsEqual_symm {a b : Json} (ha : a.WellFormed) (h : literalsEqual a b = true) :
    literalsEqual b a = true := by
  by_cases hb : ∃ c, b = .num c
  · obtain ⟨c, rfl⟩ := hb
    obtain ⟨n, rfl, hvalue⟩ := literalsEqual_num_iff.mp h
    exact Number.sameValue_symm hvalue
  · rw [literalsEqual_eq_same (not_exists.mp hb)] at h
    exact literalsEqual_of_same (same_symm ha h)

/-- **Literals that equal a common value are equal**, unless they are two integers and the value is a
double. -/
theorem literalsEqual_of_common {a b v : Json} (hb : b.WellFormed)
    (hav : literalsEqual a v = true) (hbv : literalsEqual b v = true) :
    literalsEqual a b = true ∨
      ∃ n m x, a = .num (.int n) ∧ b = .num (.int m) ∧ v = .num (.float x) := by
  by_cases hv : ∃ c, v = .num c
  · obtain ⟨c, rfl⟩ := hv
    obtain ⟨n, rfl, hnc⟩ := literalsEqual_num_iff.mp hav
    obtain ⟨m, rfl, hmc⟩ := literalsEqual_num_iff.mp hbv
    rcases Number.sameValue_of_common hnc hmc with hvalue | ⟨n, m, x, rfl, rfl, rfl⟩
    · exact .inl hvalue
    · exact .inr ⟨n, m, x, rfl, rfl, rfl⟩
  · rw [literalsEqual_eq_same (not_exists.mp hv)] at hav hbv
    exact .inl (literalsEqual_of_same (same_trans hav (same_symm hb hbv)))

end Json

end RouteContract
