import Mathlib.Data.Finset.Card
import Mathlib.Order.Interval.Finset.Nat
import RouteContract.Proofs.Validation.Rules

/-!
# Budget -- the bound on references is enough, and then it disappears

A traversal follows at most `Traversal.hopBudget` lazy nodes one inside the other. This module shows
that no traversal that ends is cut short by the bound (`upTo_eq_traverse`): whatever number of
references is allowed, an outcome other than `Outcome.looping` is the outcome of the traversal. The
reason is a pigeonhole argument. The least number of references that settles a value drops by one
from a visit to the visit it waits for; while the value stays the same, visits with different least
numbers are visits by different definitions, so after as many of them as there are definitions the
value has to shrink (`exists_waiting`, `Needs.le_budget`).

The consequence that everything else uses is `traverse_eq`: a traversal is the visitor whose lazy
nodes are traversals themselves. No later proof counts references, except by induction on the number
that a given traversal was allowed.
-/

namespace RouteContract

namespace Outcome

variable {ε α β : Type}

/-! ## Approximation -/

/-- No end approximates every outcome, and any other outcome only itself. -/
def Approx (o o' : Outcome ε α) : Prop := o = looping ∨ o = o'

@[simp] theorem Approx.refl (o : Outcome ε α) : Approx o o := .inr rfl

theorem Approx.eq_of_ne_looping {o o' : Outcome ε α} (h : Approx o o') (hne : o ≠ looping) :
    o' = o := by
  rcases h with h | h
  · exact absurd h hne
  · exact h.symm

theorem Approx.trans {o o' o'' : Outcome ε α} (h : Approx o o') (h' : Approx o' o'') :
    Approx o o'' := by
  rcases h with rfl | rfl
  · exact .inl rfl
  · exact h'

theorem Approx.antisymm {o o' : Outcome ε α} (h : Approx o o') (h' : Approx o' o) : o = o' := by
  rcases h with rfl | rfl
  · rcases h' with rfl | rfl <;> rfl
  · rfl

theorem Approx.map {o o' : Outcome ε α} (f : α → β) (h : Approx o o') :
    Approx (o.map f) (o'.map f) := by
  rcases h with rfl | rfl
  · exact .inl rfl
  · exact .inr rfl

theorem Approx.bind {o o' : Outcome ε α} {f f' : α → Outcome ε β} (h : Approx o o')
    (hf : ∀ a, Approx (f a) (f' a)) : Approx (o.bind f) (o'.bind f') := by
  rcases h with rfl | rfl
  · exact .inl rfl
  · cases o with
    | ok a => exact hf a
    | failed e => exact .inr rfl
    | looping => exact .inl rfl

theorem Approx.gather {os os' : List (Outcome (List ε) α)} (h : List.Forall₂ Approx os os') :
    Approx (gather os) (gather os') := by
  induction h with
  | nil => exact .inr rfl
  | @cons o o' rest rest' ho _ ih =>
      rw [Outcome.gather, Outcome.gather]
      rcases ho with rfl | rfl
      · exact .inl rfl
      · rcases ih with hloop | heq
        -- siblings have no end if one has none, whatever stands before it
        · rw [hloop]
          left
          cases o <;> rfl
        · rw [heq]
          exact .inr rfl

end Outcome

open Outcome (Approx)

namespace Pass

/-! ## What a visitor waits for -/

/-- The same pass with other targets of lazy nodes. -/
def withFollow (p : Pass) (follow : String → String → Json → Visit Json) : Pass :=
  { p with follow }

section Mono

variable {p : Pass} {f f' : String → String → Json → Visit Json}

theorem node_mono {isCodec required : Bool} {refinement : Option Refinement}
    {visit visit' : String → Json → Visit Json} {path : String} {value : Option Json}
    (h : ∀ input, value = some input → Approx (visit path input) (visit' path input)) :
    Approx (p.node isCodec required refinement visit path value)
      (p.node isCodec required refinement visit' path value) := by
  rcases absent_or_present value with hv | ⟨input, rfl, hne⟩
  · rw [node_absent hv, node_absent hv]
    exact .refl _
  · rw [node_present hne, node_present hne]
    exact (h input rfl).bind fun _ => .refl _

theorem present_mono {visit visit' : Visitor} {path : String} {input : Json}
    (h : Approx (visit path (some input)) (visit' path (some input))) :
    Approx (Visit.present visit path input) (Visit.present visit' path input) :=
  h.map _

theorem firstAccepting_mono {options : List Schema} {visit visit' : Schema → Visitor}
    {path : String} {input : Json}
    (h : ∀ option ∈ options, Approx (visit option path (some input))
      (visit' option path (some input))) :
    Approx (firstAccepting path input (options.map visit))
      (firstAccepting path input (options.map visit')) := by
  induction options with
  | nil => exact .refl _
  | cons option rest ih =>
      rw [List.forall_mem_cons] at h
      rw [List.map_cons, List.map_cons, firstAccepting, firstAccepting]
      rcases present_mono h.1 with hloop | heq
      · rw [hloop]
        exact .inl rfl
      · rw [heq]
        split
        · exact .refl _
        · exact .refl _
        · exact ih h.2

theorem untagged_mono {options : List Schema} {visit visit' : Schema → Visitor}
    {path : String} {input : Json}
    (h : ∀ option ∈ options, Approx (visit option path (some input))
      (visit' option path (some input))) :
    Approx (untagged (options.map visit) path input) (untagged (options.map visit') path input) := by
  unfold untagged
  rw [List.length_map, List.length_map]
  rcases firstAccepting_mono h with hloop | heq
  · rw [hloop]
    exact .inl rfl
  · rw [heq]
    exact .refl _

theorem tagged_mono {key : String} {options : List Schema} {visit visit' : Schema → Visitor}
    {path : String} {input : Json}
    (h : ∀ option ∈ options, Approx (visit option path (some input))
      (visit' option path (some input))) :
    Approx (tagged key (branches options visit) path input)
      (tagged key (branches options visit') path input) := by
  unfold tagged
  -- the tag is read from the value, so both sides go to the same option
  rw [map_fst_branches, map_fst_branches]
  cases input.members? with
  | none => exact .refl _
  | some ms =>
      dsimp only
      cases Entries.get? ms key with
      | none => exact .refl _
      | some tag =>
          dsimp only
          rw [find?_branches, find?_branches]
          cases hopt : options.find? fun option => option.selects key tag with
          | none => exact .refl _
          | some option => exact present_mono (h option (List.mem_of_find?_eq_some hopt))

theorem array_mono {items items' : Visitor} {path : String} {input : Json}
    (h : ∀ path' x, x.depth < input.depth →
      Approx (items path' (some x)) (items' path' (some x))) :
    Approx (array items path input) (array items' path input) := by
  unfold array
  cases input with
  | arr xs =>
      refine (Approx.gather ?_).map _
      rw [List.forall₂_map_left_iff, List.forall₂_map_right_iff, List.forall₂_same]
      intro x hx
      exact present_mono (h _ _ (Json.depth_lt_of_mem_elements (List.fst_mem_of_mem_zipIdx hx)))
  | _ => exact .refl _

theorem map_mono {values values' : Visitor} {path : String} {input : Json}
    (h : ∀ path' x, x.depth < input.depth →
      Approx (values path' (some x)) (values' path' (some x))) :
    Approx (map values path input) (map values' path input) := by
  unfold map
  cases input with
  | obj ms =>
      refine (Approx.gather ?_).map _
      rw [List.forall₂_map_left_iff, List.forall₂_map_right_iff, List.forall₂_same]
      intro m hm
      exact (present_mono (h _ _ (Json.depth_lt_of_mem_members hm))).map _
  | _ => exact .refl _

theorem object_mono {properties : Entries Schema} {visit visit' : Schema → Visitor}
    {path : String} {input : Json}
    (h : ∀ property ∈ properties, ∀ ms, input = .obj ms →
      Approx (visit property.2 (Visit.childPath path property.1) (Entries.get? ms property.1))
        (visit' property.2 (Visit.childPath path property.1) (Entries.get? ms property.1))) :
    Approx (p.object (properties.mapValues visit) path input)
      (p.object (properties.mapValues visit') path input) := by
  have hhas : ∀ key, Entries.has (properties.mapValues visit) key =
      Entries.has (properties.mapValues visit') key := by
    intro key
    rw [Bool.eq_iff_iff, Entries.has_iff_mem_keys, Entries.has_iff_mem_keys]
    simp [Entries.keys, Entries.mapValues]
  unfold object
  cases input with
  | obj ms =>
      simp only [Json.members?, hhas]
      refine (Approx.gather ?_).map _
      refine List.rel_append ?_ (List.forall₂_same.mpr fun _ _ => .refl _)
      rw [Entries.mapValues, Entries.mapValues, List.map_map, List.map_map,
        List.forall₂_map_left_iff, List.forall₂_map_right_iff, List.forall₂_same]
      intro property hmem
      exact (h property hmem ms rfl).map _
  | _ => exact .refl _

theorem transform_mono {side : Schema} {input input' output output' : Visitor}
    {conversion : Conversion} {path : String} {value : Json}
    (hin : Approx (input path (some value)) (input' path (some value)))
    (hout : Approx (output path (some value)) (output' path (some value))) :
    Approx (p.transform side input output conversion path value)
      (p.transform side input' output' conversion path value) := by
  unfold transform
  cases p.mode with
  | check => exact present_mono hout
  | run verify => exact (present_mono hin).bind fun _ => .refl _

theorem custom_mono {parent parent' : Visitor} {decode : Conversion} {path : String} {value : Json}
    (h : Approx (parent path (some value)) (parent' path (some value))) :
    Approx (p.custom parent decode path value) (p.custom parent' decode path value) := by
  unfold custom
  cases p.direction with
  | decode =>
      cases p.mode with
      | check => exact .refl _
      | run verify => exact (present_mono h).bind fun _ => .refl _
  | encode => exact present_mono h

/-- The lazy nodes of a pass are followed on the value itself, or on something inside it. -/
structure FollowApprox (f f' : String → String → Json → Visit Json) (path : String) (v : Json) :
    Prop where
  here : ∀ target, Approx (f target path v) (f' target path v)
  inside : ∀ target path' v', v'.depth < v.depth → Approx (f target path' v') (f' target path' v')

theorem FollowApprox.of_lt {path path' : String} {v v' : Json} (h : FollowApprox f f' path v)
    (hlt : v'.depth < v.depth) : FollowApprox f f' path' v' where
  here target := h.inside target path' v' hlt
  inside target path'' v'' hlt' := h.inside target path'' v'' (hlt'.trans hlt)

/-- **What a visitor makes of a value depends on what lazy nodes make of that value and of the
values inside it.** -/
theorem visitor_mono (s : Schema) {path : String} {value : Option Json}
    (h : ∀ v, value = some v → FollowApprox f f' path v) :
    Approx ((p.withFollow f).visitor s path value) ((p.withFollow f').visitor s path value) := by
  induction s generalizing path value with
  | number | string | boolean | any | enum => exact .refl _
  | lazy name target r g d => exact node_mono fun v hv => (h v hv).here target
  | oneOf options r g d ih =>
      apply node_mono
      intro v hv
      have hoptions : ∀ option ∈ options, Approx ((p.withFollow f).visitor option path (some v))
          ((p.withFollow f').visitor option path (some v)) :=
        fun option hmem => ih option hmem fun w hw => Option.some.inj hw ▸ h v hv
      show Approx (oneOf options ((p.withFollow f).visitors options) path v)
        (oneOf options ((p.withFollow f').visitors options) path v)
      rw [oneOf_eq, oneOf_eq]
      cases Schema.discriminator? options with
      | none => exact untagged_mono hoptions
      | some key => exact tagged_mono hoptions
  | array items r g d ih =>
      apply node_mono
      intro v hv
      exact array_mono fun path' x hlt => ih fun w hw => Option.some.inj hw ▸ (h v hv).of_lt hlt
  | object properties r g d ih =>
      apply node_mono
      intro v hv
      show Approx (p.object ((p.withFollow f).propertyVisitors properties) path v)
        (p.object ((p.withFollow f').propertyVisitors properties) path v)
      rw [propertyVisitors_eq_map, propertyVisitors_eq_map]
      refine object_mono fun property hmem ms hms => ih property hmem fun w hw => ?_
      have hlt := Json.depth_lt_of_mem_members (Entries.mem_of_get? hw)
      exact (h v hv).of_lt (hms ▸ hlt)
  | map values r g d ih =>
      apply node_mono
      intro v hv
      exact map_mono fun path' x hlt => ih fun w hw => Option.some.inj hw ▸ (h v hv).of_lt hlt
  | transform e c dec enc r g d ihe ihc =>
      apply node_mono
      intro v hv
      have hinside : ∀ w, some v = some w → FollowApprox f f' path w :=
        fun w hw => Option.some.inj hw ▸ h v hv
      have he := ihe hinside
      have hc := ihc hinside
      show Approx ((p.withFollow f).shape (.transform e c dec enc) path v)
        ((p.withFollow f').shape (.transform e c dec enc) path v)
      cases hdir : p.direction with
      | decode =>
          rw [shape_transform_decode (p := p.withFollow f) hdir,
            shape_transform_decode (p := p.withFollow f') hdir]
          exact transform_mono (p := p) he hc
      | encode =>
          rw [shape_transform_encode (p := p.withFollow f) hdir,
            shape_transform_encode (p := p.withFollow f') hdir]
          exact transform_mono (p := p) hc he
  | custom name parent dec r g d ih =>
      apply node_mono
      intro v hv
      exact custom_mono (p := p.withFollow f) (ih fun w hw => Option.some.inj hw ▸ h v hv)

end Mono

/-! ## References one inside the other -/

variable (p : Pass) (defs : Definitions)

/-- The visitor of a schema that follows at most the given number of references. -/
def upTo : Nat → Schema → Visitor := Traversal.levels defs p.withFollow

/-- What lazy nodes are followed by when the given number of references is allowed. -/
def followAt : Nat → String → String → Json → Visit Json
  | 0 => fun _ _ _ => .looping
  | n + 1 => fun target => Visit.present (p.upTo defs n (defs.resolve target))

/-- The traversal of a value: as many references as the budget of the value allows. -/
def traverse (s : Schema) : Visitor := fun path value =>
  p.upTo defs (Traversal.hopBudget defs value) s path value

/-- The pass whose lazy nodes are traversals of their definitions. -/
def followed : Pass := p.withFollow fun target => Visit.present (p.traverse defs (defs.resolve target))

theorem upTo_eq (n : Nat) : p.upTo defs n = (p.withFollow (p.followAt defs n)).visitor := by
  cases n <;> rfl

theorem followAt_mono {n m : Nat} (h : n ≤ m) (target path : String) (v : Json) :
    Approx (p.followAt defs n target path v) (p.followAt defs m target path v) := by
  -- on the smaller number: without references there is no end, and that approximates everything
  induction n generalizing m target path v with
  | zero => exact .inl rfl
  | succ n ih =>
      obtain ⟨m, rfl⟩ : ∃ k, m = k + 1 := ⟨m - 1, by omega⟩
      have hle : n ≤ m := by omega
      apply present_mono
      rw [upTo_eq, upTo_eq]
      exact visitor_mono _ fun v _ => ⟨fun t => ih hle t path v, fun t path' v' _ => ih hle t path' v'⟩

theorem upTo_mono {n m : Nat} (h : n ≤ m) (s : Schema) (path : String) (value : Option Json) :
    Approx (p.upTo defs n s path value) (p.upTo defs m s path value) := by
  rw [upTo_eq, upTo_eq]
  exact visitor_mono s fun v _ =>
    ⟨fun t => p.followAt_mono defs h t path v, fun t path' v' _ => p.followAt_mono defs h t path' v'⟩

/-- The value is settled by `n` references and by no fewer. -/
def Needs (s : Schema) (path : String) (v : Json) (n : Nat) : Prop :=
  p.upTo defs n s path (some v) ≠ .looping ∧ ∀ m < n, p.upTo defs m s path (some v) = .looping

variable {p defs}

theorem Needs.unique {s : Schema} {path : String} {v : Json} {n m : Nat}
    (hn : p.Needs defs s path v n) (hm : p.Needs defs s path v m) : n = m := by
  rcases Nat.lt_trichotomy n m with hlt | heq | hlt
  · exact absurd (hm.2 n hlt) hn.1
  · exact heq
  · exact absurd (hn.2 m hlt) hm.1

theorem exists_needs {s : Schema} {path : String} {v : Json} {n : Nat}
    (h : p.upTo defs n s path (some v) ≠ .looping) : ∃ m ≤ n, p.Needs defs s path v m := by
  classical
  have hex : ∃ m, p.upTo defs m s path (some v) ≠ .looping := ⟨n, h⟩
  refine ⟨Nat.find hex, Nat.find_min' hex h, Nat.find_spec hex, ?_⟩
  intro m hm
  exact not_not.mp (Nat.find_min hex hm)

/-- A visit that needs one more reference than `n` waits for a visit by some definition that needs
exactly `n`, of the same value or of one inside it. -/
theorem exists_waiting {s : Schema} {path : String} {v : Json} {n : Nat}
    (h : p.Needs defs s path v (n + 1)) :
    ∃ target path' v', (path' = path ∧ v' = v ∨ v'.depth < v.depth) ∧
      p.Needs defs (defs.resolve target) path' v' n := by
  by_contra hnone
  simp only [not_exists, not_and] at hnone
  -- otherwise `n` references follow every lazy node as far as `n + 1` do
  have hfollow : ∀ target path' v', (path' = path ∧ v' = v ∨ v'.depth < v.depth) →
      Approx (p.followAt defs (n + 1) target path' v') (p.followAt defs n target path' v') := by
    intro target path' v' hwithin
    by_cases hloop : p.upTo defs n (defs.resolve target) path' (some v') = .looping
    · exact .inl (Visit.present_eq_looping_iff.mpr hloop)
    · obtain ⟨m, hm, hneeds⟩ := exists_needs hloop
      obtain rfl | hlt := Nat.eq_or_lt_of_le hm
      · exact absurd hneeds (hnone target path' v' hwithin)
      · obtain ⟨k, rfl⟩ : ∃ k, n = k + 1 := ⟨n - 1, by omega⟩
        have hm' := (p.upTo_mono defs hm _ path' (some v')).eq_of_ne_looping hneeds.1
        have hk := (p.upTo_mono defs (by omega : m ≤ k) _ path' (some v')).eq_of_ne_looping hneeds.1
        apply present_mono
        rw [hm', hk]
        exact .refl _
  have hback : Approx (p.upTo defs (n + 1) s path (some v)) (p.upTo defs n s path (some v)) := by
    rw [upTo_eq, upTo_eq]
    refine visitor_mono s fun w hw => ?_
    cases hw
    exact ⟨fun t => hfollow t path v (.inl ⟨rfl, rfl⟩), fun t path' v' hlt =>
      hfollow t path' v' (.inr hlt)⟩
  exact h.1 ((hback.eq_of_ne_looping h.1).symm.trans (h.2 n (Nat.lt_succ_self n)))

/-- A definition that needs a reference is one of the listed ones. -/
theorem Needs.mem_keys {target path : String} {v : Json} {n : Nat}
    (h : p.Needs defs (defs.resolve target) path v n) (hn : 0 < n) :
    target ∈ Entries.keys defs.entries := by
  by_contra hmem
  have hnone : Entries.get? defs.entries target = none := Entries.get?_eq_none_iff.mpr hmem
  -- a name without definition stands for the union of no options, which needs no reference
  have hresolve : defs.resolve target = Schema.oneOf [] := by
    rw [Definitions.resolve, hnone]
    rfl
  have hloop := h.2 0 hn
  rw [hresolve] at hloop
  cases v <;> cases hloop

/-- **The budget is enough.** A value never needs more references than its depth and the number of
definitions allow. -/
theorem Needs.le_budget {s : Schema} {path : String} {v : Json} {n : Nat}
    (h : p.Needs defs s path v n) : n ≤ (v.depth + 1) * (defs.size + 1) := by
  induction hd : v.depth using Nat.strong_induction_on generalizing s path v n with
  | _ d ih =>
      -- above the budget of smaller values, what a visit waits for is a visit of the same value
      have hstep : ∀ {s : Schema} {k : Nat}, p.Needs defs s path v (k + 1) →
          d * (defs.size + 1) < k → ∃ target, p.Needs defs (defs.resolve target) path v k := by
        intro s k hk hlt
        obtain ⟨target, path', v', hwithin, hneeds⟩ := exists_waiting hk
        rcases hwithin with ⟨rfl, rfl⟩ | hdepth
        · exact ⟨target, hneeds⟩
        · have hle := ih v'.depth (hd ▸ hdepth) hneeds rfl
          have hbound : (v'.depth + 1) * (defs.size + 1) ≤ d * (defs.size + 1) :=
            Nat.mul_le_mul_right _ (by omega)
          omega
      -- while the value stays, every number between is needed by a definition of its own
      have hsame : ∀ k, d * (defs.size + 1) < k → k < n →
          ∃ target, p.Needs defs (defs.resolve target) path v k := by
        have hdown : ∀ j k, k + j + 1 = n → d * (defs.size + 1) < k →
            ∃ target, p.Needs defs (defs.resolve target) path v k := by
          intro j
          induction j with
          | zero =>
              intro k hk hlt
              exact hstep (by rwa [show k + 1 = n by omega]) hlt
          | succ j ihj =>
              intro k hk hlt
              obtain ⟨target, hneeds⟩ := ihj (k + 1) (by omega) (by omega)
              exact hstep hneeds hlt
        intro k hlt hkn
        exact hdown (n - k - 1) k (by omega) hlt
      choose! target htarget using hsame
      -- different numbers belong to different definitions, so there are no more than definitions
      have hcard : (Finset.Ioo (d * (defs.size + 1)) n).card ≤
          (Entries.keys defs.entries).toFinset.card := by
        refine Finset.card_le_card_of_injOn target ?_ ?_
        · intro k hk
          have hk := Finset.mem_Ioo.mp hk
          exact List.mem_toFinset.mpr ((htarget k hk.1 hk.2).mem_keys (by omega))
        · intro k hk l hl heq
          have hk := Finset.mem_Ioo.mp hk
          have hl := Finset.mem_Ioo.mp hl
          have hkn := htarget k hk.1 hk.2
          have hln := htarget l hl.1 hl.2
          rw [show target k = target l from heq] at hkn
          exact hkn.unique hln
      have hkeys : (Entries.keys defs.entries).toFinset.card ≤ defs.size := by
        refine (List.toFinset_card_le _).trans ?_
        rw [Entries.keys, List.length_map, Definitions.size]
      rw [Nat.card_Ioo] at hcard
      rw [Nat.add_mul, Nat.one_mul]
      omega

/-! ## Traversals without a bound -/

/-- **No traversal that ends is cut short**: an outcome under any bound is the outcome. -/
theorem upTo_eq_traverse {s : Schema} {path : String} {value : Option Json} {n : Nat}
    (h : p.upTo defs n s path value ≠ .looping) :
    p.upTo defs n s path value = p.traverse defs s path value := by
  cases value with
  | none =>
      have hall : ∀ m k, Approx (p.upTo defs m s path none) (p.upTo defs k s path none) := by
        intro m k
        rw [upTo_eq, upTo_eq]
        exact visitor_mono s fun v hv => nomatch hv
      exact (hall _ _).antisymm (hall _ _)
  | some v =>
      obtain ⟨m, hm, hneeds⟩ := exists_needs h
      have hn := (p.upTo_mono defs hm s path (some v)).eq_of_ne_looping hneeds.1
      have hbudget := (p.upTo_mono defs hneeds.le_budget s path (some v)).eq_of_ne_looping hneeds.1
      rw [hn]
      exact hbudget.symm

/-- From the budget on, allowing more references changes nothing. -/
theorem upTo_eq_traverse_of_le {s : Schema} {path : String} {value : Option Json} {n : Nat}
    (h : Traversal.hopBudget defs value ≤ n) :
    p.upTo defs n s path value = p.traverse defs s path value := by
  by_cases hloop : p.upTo defs n s path value = .looping
  · have happrox := p.upTo_mono defs h s path value
    by_cases htraverse : p.traverse defs s path value = .looping
    · rw [hloop, htraverse]
    · exact happrox.eq_of_ne_looping htraverse
  · exact upTo_eq_traverse hloop

theorem hopBudget_le {v w : Json} (h : v.depth ≤ w.depth) :
    Traversal.hopBudget defs (some v) ≤ Traversal.hopBudget defs (some w) :=
  Nat.mul_le_mul_right _ (by simpa using h)

variable (p defs)

/-- **A traversal is the visitor whose lazy nodes are traversals of their definitions.** -/
theorem traverse_eq (s : Schema) : p.traverse defs s = (p.followed defs).visitor s := by
  funext path value
  -- one reference more changes nothing here, and leaves the whole budget to every lazy node
  rw [← upTo_eq_traverse_of_le (Nat.le_succ (Traversal.hopBudget defs value)), upTo_eq]
  have hfollow : ∀ v, value = some v → ∀ target path' v', v'.depth ≤ v.depth →
      p.followAt defs (Traversal.hopBudget defs value + 1) target path' v' =
        Visit.present (p.traverse defs (defs.resolve target)) path' v' := by
    intro v hv target path' v' hdepth
    have hle : Traversal.hopBudget defs (some v') ≤ Traversal.hopBudget defs value := by
      rw [hv]
      exact hopBudget_le hdepth
    have hstable : p.upTo defs (Traversal.hopBudget defs value) (defs.resolve target) path' (some v') =
        p.traverse defs (defs.resolve target) path' (some v') := upTo_eq_traverse_of_le hle
    show Visit.present _ path' v' = Visit.present _ path' v'
    unfold Visit.present
    rw [hstable]
  refine Approx.antisymm (visitor_mono s fun v hv => ?_) (visitor_mono s fun v hv => ?_)
  · exact ⟨fun t => .inr (hfollow v hv t path v le_rfl),
      fun t path' v' hlt => .inr (hfollow v hv t path' v' hlt.le)⟩
  · exact ⟨fun t => .inr (hfollow v hv t path v le_rfl).symm,
      fun t path' v' hlt => .inr (hfollow v hv t path' v' hlt.le).symm⟩

end Pass

namespace Traversal

/-! ## The two traversals -/

/-- The pass that checks values without applying codecs. -/
def checkPass (config : ValidationConfig) (direction : Direction) : Pass :=
  { config, direction, mode := .check, follow := fun _ _ _ => .looping }

/-- The pass that applies codecs and checks what they produce. -/
def runPass (defs : Definitions) (config : ValidationConfig) (direction : Direction) : Pass :=
  { config, direction, follow := fun _ _ _ => .looping
    mode := .run fun side => Visit.present (check defs config direction side) }

theorem check_eq_traverse (defs : Definitions) (config : ValidationConfig) (direction : Direction)
    (s : Schema) : check defs config direction s = (checkPass config direction).traverse defs s :=
  rfl

theorem run_eq_traverse (defs : Definitions) (config : ValidationConfig) (direction : Direction)
    (s : Schema) : run defs config direction s = (runPass defs config direction).traverse defs s :=
  rfl

/-- A check is the visitor of a checking pass whose lazy nodes are checks. -/
theorem check_eq (defs : Definitions) (config : ValidationConfig) (direction : Direction)
    (s : Schema) :
    check defs config direction s = ((checkPass config direction).followed defs).visitor s := by
  rw [check_eq_traverse, Pass.traverse_eq]

/-- A run is the visitor of a running pass whose lazy nodes are runs. -/
theorem run_eq (defs : Definitions) (config : ValidationConfig) (direction : Direction)
    (s : Schema) :
    run defs config direction s = ((runPass defs config direction).followed defs).visitor s := by
  rw [run_eq_traverse, Pass.traverse_eq]

end Traversal

namespace Validator

/-! ## Validators -/

variable {validator : Validator}

/-- A validator runs the visitor of its schema at the root. -/
theorem validate_eq_visitor (v : Json) :
    validator.validate v =
      (Visit.present (((Traversal.runPass validator.definitions validator.config
        validator.direction).followed validator.definitions).visitor validator.schema) "" v).mapReason
          Report.ofFindings := by
  unfold validate validateOptional Visit.present
  rw [Traversal.run_eq]
  generalize ((Traversal.runPass _ _ _).followed _).visitor _ "" (some v) = outcome
  cases outcome <;> rfl

/-- **Null is decided by the outermost node**, whatever stands below it. -/
theorem validate_null_eq_ok_iff {out : Json} :
    validator.validate .null = .ok out ↔ validator.schema.required = false ∧ out = .null := by
  rw [validate_eq_visitor, Outcome.mapReason_eq_ok_iff, Visit.present_eq_ok_iff, Pass.visitor_eq,
    Pass.node_absent (.inr rfl)]
  cases validator.schema.required <;> simp [Visit.fail, eq_comm]

end Validator

end RouteContract
