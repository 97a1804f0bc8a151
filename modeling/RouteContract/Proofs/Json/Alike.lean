import Mathlib.Data.List.Perm.Basic
import RouteContract.Json.Value
import RouteContract.Proofs.Entries

/-!
# Alike -- equality of values up to the order of object members

`Json.Alike` holds of two values that differ in nothing but the order in which objects list their
members: scalars are equal as they stand, a `1` is not a `1.0` and a zero keeps its sign. It is
stated by a permutation of members that are alike one by one, so it is an equivalence on all values
(`Alike.refl`, `Alike.symm`, `Alike.trans`). On objects with distinct names it is the same as being
alike under every name (`alike_obj_of_get?`, `Alike.get?`), which is the form that traversals use:
they look members up by name and write them in an order of their own.
-/

namespace RouteContract

/-! ## Related options and lists -/

/-- Two related options are both absent or both present. -/
theorem rel_cases {α β : Type} {R : α → β → Prop} {a : Option α} {b : Option β}
    (h : Option.Rel R a b) : (a = none ∧ b = none) ∨ ∃ x y, a = some x ∧ b = some y ∧ R x y := by
  cases h with
  | none => exact .inl ⟨rfl, rfl⟩
  | some hxy => exact .inr ⟨_, _, rfl, rfl, hxy⟩

/-- Every right-hand element of two related lists has a left-hand partner. -/
theorem exists_left_of_forall₂ {α β : Type} {R : α → β → Prop} {xs : List α} {ys : List β}
    (h : List.Forall₂ R xs ys) {y : β} (hy : y ∈ ys) : ∃ x ∈ xs, R x y := by
  induction h with
  | nil => cases hy
  | cons hxy _ ih =>
      rcases List.mem_cons.mp hy with rfl | hy
      · exact ⟨_, List.mem_cons_self, hxy⟩
      · obtain ⟨x, hx, hR⟩ := ih hy
        exact ⟨x, List.mem_cons_of_mem _ hx, hR⟩

/-- Lists are related element by element when they have the same length and are related position by
position. -/
theorem forall₂_iff_getElem? {α β : Type} {R : α → β → Prop} {xs : List α} {ys : List β} :
    List.Forall₂ R xs ys ↔
      ys.length = xs.length ∧ ∀ (i : Nat) x y, xs[i]? = some x → ys[i]? = some y → R x y := by
  rw [List.forall₂_iff_get, eq_comm]
  refine and_congr_right fun _ => ⟨fun h i x y hx hy => ?_, fun h i hi hi' => ?_⟩
  · obtain ⟨hi, rfl⟩ := List.getElem?_eq_some_iff.mp hx
    obtain ⟨hi', rfl⟩ := List.getElem?_eq_some_iff.mp hy
    exact h i hi hi'
  · exact h i _ _ (List.getElem?_eq_getElem hi) (List.getElem?_eq_getElem hi')

namespace Json

/-! ## Well-formed values -/

theorem wellFormed_arr_iff {xs : List Json} : WellFormed (.arr xs) ↔ ∀ x ∈ xs, x.WellFormed := by
  simp only [WellFormed]
  induction xs with
  | nil => simp [WellFormedElements]
  | cons x xs ih => rw [WellFormedElements, ih, List.forall_mem_cons]

theorem wellFormed_obj_iff {ms : Entries Json} :
    WellFormed (.obj ms) ↔ ms.Distinct ∧ ∀ m ∈ ms, m.2.WellFormed := by
  simp only [WellFormed]
  apply and_congr_right'
  induction ms with
  | nil => simp [WellFormedMembers]
  | cons m ms ih => rw [WellFormedMembers, ih, List.forall_mem_cons]

theorem WellFormed.distinct {ms : Entries Json} (h : WellFormed (.obj ms)) : ms.Distinct :=
  (wellFormed_obj_iff.mp h).1

theorem WellFormed.element {xs : List Json} (h : WellFormed (.arr xs)) {x : Json} (hx : x ∈ xs) :
    x.WellFormed :=
  wellFormed_arr_iff.mp h x hx

theorem WellFormed.member {ms : Entries Json} (h : WellFormed (.obj ms)) {m : String × Json}
    (hm : m ∈ ms) : m.2.WellFormed :=
  (wellFormed_obj_iff.mp h).2 m hm

theorem WellFormed.get? {ms : Entries Json} (h : WellFormed (.obj ms)) {key : String} {v : Json}
    (hv : ms.get? key = some v) : v.WellFormed :=
  h.member (Entries.mem_of_get? hv)

/-! ## The relation -/

mutual

/-- **Equality up to the order of object members.** -/
@[simp] def Alike : Json → Json → Prop
  | .null, .null => True
  | .bool a, .bool b => a = b
  | .num a, .num b => a = b
  | .str a, .str b => a = b
  | .arr xs, .arr ys => AlikeElements xs ys
  | .obj ms, .obj ns => ∃ ms', AlikeMembers ms ms' ∧ ms'.Perm ns
  | _, _ => False

/-- Elements are alike position by position. -/
@[simp] def AlikeElements : List Json → List Json → Prop
  | [], [] => True
  | x :: xs, y :: ys => Alike x y ∧ AlikeElements xs ys
  | _, _ => False

/-- Members have the same names and alike values position by position. -/
@[simp] def AlikeMembers : List (String × Json) → List (String × Json) → Prop
  | [], [] => True
  | (k, v) :: ms, (l, w) :: ns => (k = l ∧ Alike v w) ∧ AlikeMembers ms ns
  | _, _ => False

end

/-- One member is like another: the same name and alike values. -/
def AlikeMember (m n : String × Json) : Prop := m.1 = n.1 ∧ Alike m.2 n.2

theorem alikeElements_iff {xs ys : List Json} : AlikeElements xs ys ↔ List.Forall₂ Alike xs ys := by
  induction xs generalizing ys with
  | nil => cases ys <;> simp
  | cons x xs ih =>
      cases ys with
      | nil => simp
      | cons y ys => rw [AlikeElements, ih, List.forall₂_cons]

theorem alikeMembers_iff {ms ns : List (String × Json)} :
    AlikeMembers ms ns ↔ List.Forall₂ AlikeMember ms ns := by
  induction ms generalizing ns with
  | nil => cases ns <;> simp
  | cons m ms ih =>
      cases ns with
      | nil => simp
      | cons n ns => rw [AlikeMembers, ih, List.forall₂_cons, AlikeMember]

theorem alike_arr_iff {xs : List Json} {b : Json} :
    Alike (.arr xs) b ↔ ∃ ys, b = .arr ys ∧ List.Forall₂ Alike xs ys := by
  cases b <;> simp [alikeElements_iff]

theorem alike_obj_iff {ms : Entries Json} {b : Json} :
    Alike (.obj ms) b ↔ ∃ ns, b = .obj ns ∧ ∃ ms', List.Forall₂ AlikeMember ms ms' ∧ ms'.Perm ns := by
  cases b <;> simp [alikeMembers_iff]

/-- Being alike to a scalar is being equal to it. -/
theorem Alike.eq_of_scalar {a b : Json} (h : Alike a b) (ha : ∀ xs, a ≠ .arr xs)
    (ho : ∀ ms, a ≠ .obj ms) : b = a := by
  cases a with
  | arr xs => exact absurd rfl (ha xs)
  | obj ms => exact absurd rfl (ho ms)
  | null => cases b <;> simp_all
  | bool v => cases b <;> simp_all
  | num n => cases b <;> simp_all
  | str s => cases b <;> simp_all

/-! ## An equivalence -/

@[simp] theorem Alike.refl (a : Json) : Alike a a := by
  induction a with
  | null | bool | num | str => simp
  | arr xs ih => exact alike_arr_iff.mpr ⟨xs, rfl, List.forall₂_same.mpr ih⟩
  | obj ms ih =>
      have hms : List.Forall₂ AlikeMember ms ms := List.forall₂_same.mpr fun m hm => ⟨rfl, ih m hm⟩
      exact alike_obj_iff.mpr ⟨ms, rfl, ms, hms, List.Perm.refl ms⟩

theorem Alike.symm {a b : Json} (h : Alike a b) : Alike b a := by
  induction a generalizing b with
  | null | bool | num | str =>
      rw [h.eq_of_scalar (by simp) (by simp)]
      exact .refl _
  | arr xs ih =>
      obtain ⟨ys, rfl, hxy⟩ := alike_arr_iff.mp h
      refine alike_arr_iff.mpr ⟨xs, rfl, ?_⟩
      have hyx : List.Forall₂ (fun y x => x ∈ xs ∧ Alike x y) ys xs :=
        ((List.forall₂_and_left xs ys).mpr ⟨fun _ hx => hx, hxy⟩).flip
      exact hyx.imp fun y x hx => ih x hx.1 hx.2
  | obj ms ih =>
      obtain ⟨ns, rfl, ms', hms, hp⟩ := alike_obj_iff.mp h
      have hflip : List.Forall₂ (fun n m => m ∈ ms ∧ AlikeMember m n) ms' ms :=
        ((List.forall₂_and_left ms ms').mpr ⟨fun _ hm => hm, hms⟩).flip
      have hback : List.Forall₂ AlikeMember ms' ms :=
        hflip.imp fun n m hm => ⟨hm.2.1.symm, ih m hm.1 hm.2.2⟩
      -- the permutation is on the wrong side: `ns` is permuted first, then related one by one
      obtain ⟨ns', hns, hp'⟩ := List.perm_comp_forall₂ hp.symm hback
      exact alike_obj_iff.mpr ⟨ms, rfl, ns', hns, hp'⟩

theorem Alike.trans {a b c : Json} (h : Alike a b) (h' : Alike b c) : Alike a c := by
  induction a generalizing b c with
  | null | bool | num | str =>
      rw [h.eq_of_scalar (by simp) (by simp)] at h'
      exact h'
  | arr xs ih =>
      obtain ⟨ys, rfl, hxy⟩ := alike_arr_iff.mp h
      obtain ⟨zs, rfl, hyz⟩ := alike_arr_iff.mp h'
      refine alike_arr_iff.mpr ⟨zs, rfl, ?_⟩
      clear h h'
      induction hxy generalizing zs with
      | nil => cases hyz; exact .nil
      | cons hx _ ihxs =>
          cases hyz with
          | cons hy hyz =>
              exact .cons (ih _ List.mem_cons_self hx hy)
                (ihxs (fun x hx => ih x (List.mem_cons_of_mem _ hx)) _ hyz)
  | obj ms ih =>
      obtain ⟨ns, rfl, ms', hms, hp⟩ := alike_obj_iff.mp h
      obtain ⟨os, rfl, ns', hns, hq⟩ := alike_obj_iff.mp h'
      -- a permutation stands between the two relations, so it is moved behind the second one
      obtain ⟨os', hos, hr⟩ := List.perm_comp_forall₂ hp hns
      refine alike_obj_iff.mpr ⟨os, rfl, os', ?_, hr.trans hq⟩
      clear h h' hp hns hr hq
      induction hms generalizing os' with
      | nil => cases hos; exact .nil
      | cons hm _ ihms =>
          cases hos with
          | cons hn hos =>
              exact .cons ⟨hm.1.trans hn.1, ih _ List.mem_cons_self hm.2 hn.2⟩
                (ihms (fun m hm => ih m (List.mem_cons_of_mem _ hm)) _ hos)

/-! ## Objects by name -/

theorem Alike.keys_perm {ms ns : Entries Json} (h : Alike (.obj ms) (.obj ns)) :
    ms.keys.Perm ns.keys := by
  obtain ⟨_, hns, ms', hms, hp⟩ := alike_obj_iff.mp h
  cases hns
  rw [Entries.keys_eq_of_forall₂ hms]
  exact hp.map Prod.fst

/-- Objects with distinct names that are alike are alike under every name. -/
theorem Alike.get? {ms ns : Entries Json} (h : Alike (.obj ms) (.obj ns)) (hd : ms.Distinct)
    (key : String) : Option.Rel Alike (ms.get? key) (ns.get? key) := by
  obtain ⟨_, hns, ms', hms, hp⟩ := alike_obj_iff.mp h
  cases hns
  have hd' : Entries.Distinct ms' := by rwa [Entries.Distinct, ← Entries.keys_eq_of_forall₂ hms]
  rw [← hd'.get?_perm hp]
  exact Entries.get?_of_forall₂ hms key

/-- **Objects with distinct names are alike when they are alike under every name.** -/
theorem alike_obj_of_get? {ms ns : Entries Json} (hm : ms.Distinct) (hn : ns.Distinct)
    (h : ∀ key, Option.Rel Alike (ms.get? key) (ns.get? key)) : Alike (.obj ms) (.obj ns) := by
  -- the members of `ns`, put in the order of the names of `ms`
  let reordered : Entries Json := ms.map fun m => (m.1, (ns.get? m.1).getD .null)
  have hpair : ∀ m ∈ ms, ∃ w, ns.get? m.1 = some w ∧ Alike m.2 w := by
    intro m hmem
    have hget := hm.get?_of_mem hmem
    obtain ⟨hv, _⟩ | ⟨v, w, hv, hw, hvw⟩ := rel_cases (h m.1)
    · rw [hget] at hv
      cases hv
    · rw [hget] at hv
      cases hv
      exact ⟨w, hw, hvw⟩
  have hms : List.Forall₂ AlikeMember ms reordered := by
    rw [List.forall₂_map_right_iff, List.forall₂_same]
    intro m hmem
    obtain ⟨w, hw, hvw⟩ := hpair m hmem
    exact ⟨rfl, by simpa [hw] using hvw⟩
  have hd : reordered.Distinct := by rwa [Entries.Distinct, ← Entries.keys_eq_of_forall₂ hms]
  have hget : ∀ key, reordered.get? key = ns.get? key := by
    intro key
    rw [Entries.get?_map fun k _ => (ns.get? k).getD .null]
    obtain ⟨hv, hw⟩ | ⟨v, w, hv, hw, _⟩ := rel_cases (h key) <;> simp [hv, hw]
  -- without repetitions, having the same members is being a permutation
  have hperm : reordered.Perm ns := by
    rw [List.perm_ext_iff_of_nodup hd.nodup hn.nodup]
    intro m
    rw [hd.mem_iff, hn.mem_iff, hget]
  exact alike_obj_iff.mpr ⟨ns, rfl, reordered, hms, hperm⟩

/-- A value that is like a well-formed one is well-formed. -/
theorem Alike.wellFormed {a b : Json} (h : Alike a b) (ha : a.WellFormed) : b.WellFormed := by
  induction a generalizing b with
  | null | bool | num | str =>
      rw [h.eq_of_scalar (by simp) (by simp)]
      exact ha
  | arr xs ih =>
      obtain ⟨ys, rfl, hxy⟩ := alike_arr_iff.mp h
      rw [wellFormed_arr_iff]
      intro y hy
      obtain ⟨x, hx, hlike⟩ := exists_left_of_forall₂ hxy hy
      exact ih x hx hlike (ha.element hx)
  | obj ms ih =>
      obtain ⟨ns, rfl, ms', hms, hp⟩ := alike_obj_iff.mp h
      rw [wellFormed_obj_iff]
      refine ⟨h.keys_perm.nodup_iff.mp ha.distinct, ?_⟩
      intro n hn
      obtain ⟨m, hm, hlike⟩ := exists_left_of_forall₂ hms (hp.mem_iff.mpr hn)
      exact ih m hm hlike.2 (ha.member hm)

/-! ## Literals -/

/-- Two alike values are equal, or both arrays, or both objects. -/
theorem Alike.cases {a b : Json} (h : Alike a b) :
    b = a ∨ (∃ xs ys, a = .arr xs ∧ b = .arr ys ∧ List.Forall₂ Alike xs ys) ∨
      ∃ ms ns, a = .obj ms ∧ b = .obj ns := by
  cases a with
  | arr xs =>
      obtain ⟨ys, rfl, hxy⟩ := alike_arr_iff.mp h
      exact .inr (.inl ⟨xs, ys, rfl, rfl, hxy⟩)
  | obj ms =>
      obtain ⟨ns, rfl, _⟩ := alike_obj_iff.mp h
      exact .inr (.inr ⟨ms, ns, rfl, rfl⟩)
  | null | bool | num | str => exact .inl (h.eq_of_scalar (by simp) (by simp))

/-- Comparison with a literal does not see the order of members on the right. -/
theorem same_congr_right {a b b' : Json} (h : Alike b b') (hb : b.WellFormed) :
    same a b = same a b' := by
  induction a generalizing b b' with
  | null | bool | num | str =>
      obtain rfl | ⟨ys, ys', rfl, rfl, _⟩ | ⟨ns, ns', rfl, rfl⟩ := h.cases <;> rfl
  | arr xs ih =>
      obtain rfl | ⟨ys, ys', rfl, rfl, hys⟩ | ⟨ns, ns', rfl, rfl⟩ := h.cases
      · rfl
      · have helem := wellFormed_arr_iff.mp hb
        clear h hb
        simp only [same]
        induction hys generalizing xs with
        | nil => rfl
        | @cons y y' ys ys' hy _ ihys =>
            cases xs with
            | nil => rfl
            | cons x xs =>
                rw [List.forall_mem_cons] at ih helem
                rw [sameElements, sameElements, ih.1 hy helem.1, ihys xs ih.2 helem.2]
      · rfl
  | obj ms ih =>
      obtain rfl | ⟨ys, ys', rfl, rfl, _⟩ | ⟨ns, ns', rfl, rfl⟩ := h.cases
      · rfl
      · rfl
      · have hlength : ns.length = ns'.length := by
          simpa [Entries.keys] using h.keys_perm.length_eq
        simp only [same, hlength]
        congr 1
        induction ms with
        | nil => rfl
        | cons m ms ihms =>
            obtain ⟨k, v⟩ := m
            rw [List.forall_mem_cons] at ih
            rw [sameMembers, sameMembers, ihms ih.2]
            obtain ⟨hw, hw'⟩ | ⟨w, w', hw, hw', hlike⟩ := rel_cases (h.get? hb.distinct k)
            · rw [hw, hw']
            · simp only [hw, hw', ih.1 hlike (hb.get? hw)]

/-- Whether a literal matches a value does not depend on the order of the value's members. -/
theorem literalsEqual_congr_right {a b b' : Json} (h : Alike b b') (hb : b.WellFormed) :
    literalsEqual a b = literalsEqual a b' := by
  have hsame := same_congr_right (a := a) h hb
  obtain rfl | ⟨ys, ys', rfl, rfl, _⟩ | ⟨ns, ns', rfl, rfl⟩ := h.cases
  · rfl
  · cases a <;> exact hsame
  · cases a <;> exact hsame

end Json

/-! ## Values that may be absent -/

open Json (Alike)

/-- Values that are both absent, or alike. -/
abbrev AlikeOption : Option Json → Option Json → Prop := Option.Rel Alike

theorem AlikeOption.refl (value : Option Json) : AlikeOption value value := by
  cases value with
  | none => exact .none
  | some v => exact .some (.refl v)

theorem AlikeOption.symm {a b : Option Json} (h : AlikeOption a b) : AlikeOption b a := by
  cases h with
  | none => exact .none
  | some h => exact .some h.symm

theorem AlikeOption.trans {a b c : Option Json} (h : AlikeOption a b) (h' : AlikeOption b c) :
    AlikeOption a c := by
  cases h with
  | none => exact h'
  | some h => cases h' with | some h' => exact .some (h.trans h')

/-- What can be said of a value holds of it if it is there. -/
def WellFormedOption (value : Option Json) : Prop := ∀ v, value = some v → v.WellFormed

theorem wellFormedOption_some {v : Json} (h : v.WellFormed) : WellFormedOption (some v) := by
  rintro _ ⟨⟩
  exact h

theorem AlikeOption.wellFormed {a b : Option Json} (h : AlikeOption a b) (ha : WellFormedOption a) :
    WellFormedOption b := by
  rintro v rfl
  cases h with
  | some h => exact h.wellFormed (ha _ rfl)

end RouteContract
