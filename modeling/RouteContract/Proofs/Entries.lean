import Mathlib.Data.List.Induction
import Mathlib.Data.List.Nodup
import RouteContract.Entries

/-!
# Look-ups in entries

Where names are distinct, members and look-ups say the same (`Distinct.mem_iff`), and a look-up does
not see the order of the entries (`Distinct.get?_perm`).
-/

namespace RouteContract

namespace Entries

variable {β γ : Type}

/-! ## Look-ups and membership -/

theorem mem_of_get? {es : Entries β} {key : String} {v : β} (h : get? es key = some v) :
    (key, v) ∈ es := by
  induction es with
  | nil => cases h
  | cons e rest ih =>
      obtain ⟨k, w⟩ := e
      by_cases hk : k = key
      · subst hk
        simp only [get?, if_true, Option.some.injEq] at h
        subst h
        exact List.mem_cons_self
      · simp only [get?, hk, if_false] at h
        exact List.mem_cons_of_mem _ (ih h)

theorem mem_put {es : Entries β} {key : String} {v : β} {m : String × β} (h : m ∈ put es key v) :
    m ∈ es ∨ m = (key, v) := by
  induction es with
  | nil => exact .inr (List.mem_singleton.mp h)
  | cons e rest ih =>
      rw [put] at h
      split at h
      · next hk =>
          rcases List.mem_cons.mp h with rfl | hrest
          · exact .inr (hk ▸ rfl)
          · exact .inl (List.mem_cons_of_mem _ hrest)
      · rcases List.mem_cons.mp h with rfl | hrest
        · exact .inl List.mem_cons_self
        · exact (ih hrest).imp_left (List.mem_cons_of_mem _)

/-- A new name adds an entry, a known one does not. -/
theorem length_put (es : Entries β) (key : String) (v : β) :
    (put es key v).length = es.length + if has es key then 0 else 1 := by
  have hkeys := congrArg List.length (keys_put es key v)
  rw [keys, List.length_map] at hkeys
  rw [hkeys]
  by_cases hmem : key ∈ keys es
  · rw [if_pos hmem, if_pos ((has_iff_mem_keys es key).mpr hmem), keys, List.length_map]
    rfl
  · rw [if_neg hmem, if_neg fun hhas => hmem ((has_iff_mem_keys es key).mp hhas), keys,
      List.length_append, List.length_map]
    rfl

theorem get?_eq_none_iff {es : Entries β} {key : String} : get? es key = none ↔ key ∉ keys es := by
  rw [← has_iff_mem_keys, has, Bool.not_eq_true, Option.isSome_eq_false_iff,
    Option.isNone_iff_eq_none]

theorem Distinct.tail {e : String × β} {es : Entries β} (h : Distinct (e :: es)) : Distinct es :=
  (List.nodup_cons.mp h).2

/-- Where names are distinct, a member is what its name looks up. -/
theorem Distinct.get?_of_mem {es : Entries β} (hd : Distinct es) {m : String × β} (hm : m ∈ es) :
    get? es m.1 = some m.2 := by
  induction es with
  | nil => cases hm
  | cons e rest ih =>
      obtain ⟨k, w⟩ := e
      rcases List.mem_cons.mp hm with rfl | hrest
      · simp [get?]
      · have hmem : m.1 ∈ keys rest := List.mem_map_of_mem hrest
        have hne : k ≠ m.1 := fun hk => (List.nodup_cons.mp hd).1 (hk ▸ hmem)
        rw [get?, if_neg hne]
        exact ih hd.tail hrest

theorem Distinct.mem_iff {es : Entries β} (hd : Distinct es) {m : String × β} :
    m ∈ es ↔ get? es m.1 = some m.2 :=
  ⟨hd.get?_of_mem, fun h => mem_of_get? h⟩

theorem Distinct.nodup {es : Entries β} (hd : Distinct es) : es.Nodup := List.Nodup.of_map _ hd

theorem Distinct.get?_perm {es fs : Entries β} (hd : Distinct es) (hp : es.Perm fs) (key : String) :
    get? es key = get? fs key := by
  have hf : Distinct fs := (hp.map Prod.fst).nodup_iff.mp hd
  apply Option.ext
  intro v
  have h := hp.mem_iff (a := (key, v))
  rw [hd.mem_iff, hf.mem_iff] at h
  exact h

theorem get?_map (f : String → β → γ) (es : Entries β) (key : String) :
    get? (es.map fun e => (e.1, f e.1 e.2)) key = (get? es key).map (f key) := by
  induction es with
  | nil => rfl
  | cons e rest ih =>
      obtain ⟨k, v⟩ := e
      by_cases hk : k = key
      · subst hk
        simp [get?]
      · simp only [List.map_cons, get?, hk, if_false]
        exact ih

theorem get?_mapValues (f : β → γ) (es : Entries β) (key : String) :
    get? (mapValues f es) key = (get? es key).map f :=
  get?_map (fun _ => f) es key

theorem keys_mapValues (f : β → γ) (es : Entries β) : keys (mapValues f es) = keys es := by
  rw [keys, keys, mapValues, List.map_map]
  rfl

theorem has_mapValues (f : β → γ) (es : Entries β) (key : String) :
    has (mapValues f es) key = has es key := by
  rw [has, has, get?_mapValues, Option.isSome_map]

theorem Distinct.mapValues {es : Entries β} (h : Distinct es) (f : β → γ) :
    Distinct (mapValues f es) := by
  rw [Distinct, keys_mapValues]
  exact h

theorem get?_append (es fs : Entries β) (key : String) :
    get? (es ++ fs) key = (get? es key).or (get? fs key) := by
  induction es with
  | nil => rfl
  | cons e rest ih =>
      obtain ⟨k, v⟩ := e
      by_cases hk : k = key
      · simp [get?, hk]
      · simp only [List.cons_append, get?, hk, if_false]
        exact ih

/-- Declared names followed by the others are distinct if each of the two lists is. -/
theorem nodup_append_others {es : Entries β} {names others : List String} (hnames : names.Nodup)
    (hdeclared : ∀ key ∈ names, has es key = true) (hothers : others.Nodup) :
    (names ++ others.filter fun key => !has es key).Nodup := by
  rw [List.nodup_append]
  refine ⟨hnames, hothers.filter _, fun key hkey other hother heq => ?_⟩
  rw [List.mem_filter, ← heq, hdeclared key hkey] at hother
  exact absurd hother.2 Bool.false_ne_true

/-- Related entries have the same names. -/
theorem keys_eq_of_forall₂ {R : β → γ → Prop} {es : Entries β} {fs : Entries γ}
    (h : List.Forall₂ (fun e e' => e.1 = e'.1 ∧ R e.2 e'.2) es fs) : keys es = keys fs := by
  induction h with
  | nil => rfl
  | cons he _ ih => rw [keys_cons, keys_cons, he.1, ih]

/-- Related entries hold related values under every name. -/
theorem get?_of_forall₂ {R : β → γ → Prop} {es : Entries β} {fs : Entries γ}
    (h : List.Forall₂ (fun e e' => e.1 = e'.1 ∧ R e.2 e'.2) es fs) (key : String) :
    Option.Rel R (get? es key) (get? fs key) := by
  induction h with
  | nil => exact .none
  | @cons e e' _ _ he _ ih =>
      rw [get?, get?, ← he.1]
      split
      · exact .some he.2
      · exact ih

theorem forall₂_put {R : β → γ → Prop} {es : Entries β} {fs : Entries γ}
    (h : List.Forall₂ (fun e e' => e.1 = e'.1 ∧ R e.2 e'.2) es fs) (key : String) {v : β} {w : γ}
    (hvalue : R v w) : List.Forall₂ (fun e e' => e.1 = e'.1 ∧ R e.2 e'.2) (put es key v)
      (put fs key w) := by
  induction h with
  | nil => exact .cons ⟨rfl, hvalue⟩ .nil
  | cons he hrest ih =>
      rw [put, put, he.1]
      split
      · exact .cons ⟨rfl, hvalue⟩ hrest
      · exact .cons ⟨rfl, he.2⟩ ih

/-! ## Lists that repeat names -/

theorem ofList_concat (es : List (String × β)) (e : String × β) :
    ofList (es ++ [e]) = put (ofList es) e.1 e.2 := by
  simp [ofList]

/-- A repeated element is dropped, a new one stays at the end. -/
theorem eraseDups_concat {α : Type} [BEq α] [LawfulBEq α] (l : List α) (a : α) :
    (l ++ [a]).eraseDups = if a ∈ l then l.eraseDups else l.eraseDups ++ [a] := by
  rw [List.eraseDups_append]
  split
  · next hmem => simp [List.removeAll, hmem]
  · next hmem => simp [List.removeAll, hmem, List.eraseDups_cons]

/-- Elements that a function keeps apart may be mapped before or after. -/
theorem eraseDups_map {α β : Type} [BEq α] [LawfulBEq α] [BEq β] [LawfulBEq β] {f : α → β} {l : List α}
    (hf : ∀ a ∈ l, ∀ b ∈ l, f a = f b → a = b) : (l.map f).eraseDups = l.eraseDups.map f := by
  induction l using List.reverseRecOn with
  | nil => rfl
  | append_singleton l a ih =>
      have hl : ∀ b ∈ l, b ∈ l ++ [a] := fun b hb => List.mem_append_left _ hb
      have hmem : f a ∈ l.map f ↔ a ∈ l := by
        refine ⟨fun h => ?_, List.mem_map_of_mem⟩
        obtain ⟨b, hb, heq⟩ := List.mem_map.mp h
        exact hf b (hl b hb) a (List.mem_append_right _ List.mem_cons_self) heq ▸ hb
      rw [List.map_append, List.map_singleton, eraseDups_concat, eraseDups_concat,
        ih fun b hb c hc => hf b (hl b hb) c (hl c hc)]
      simp only [hmem]
      split
      · rfl
      · rw [List.map_append, List.map_singleton]

/-- Every name stays where it first came. -/
theorem keys_ofList (es : List (String × β)) : keys (ofList es) = (es.map Prod.fst).eraseDups := by
  induction es using List.reverseRecOn with
  | nil => rfl
  | append_singleton es e ih =>
      rw [ofList_concat, keys_put, ih, List.map_append, List.map_singleton, eraseDups_concat]
      simp only [List.mem_eraseDups]

/-- Every name has the value that came last. -/
theorem get?_ofList (es : List (String × β)) (key : String) :
    get? (ofList es) key = get? es.reverse key := by
  induction es using List.reverseRecOn with
  | nil => rfl
  | append_singleton es e ih =>
      rw [ofList_concat, get?_put, ih, List.reverse_append]
      rfl

end Entries

end RouteContract
