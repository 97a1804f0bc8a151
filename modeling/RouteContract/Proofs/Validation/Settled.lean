import RouteContract.Proofs.Validation.Carried
import RouteContract.Proofs.Validation.RoundTrip

/-!
# Settled -- without codecs, validation is a pure check

A schema without codecs is checked the same way in both directions, and what it accepts it hands out
with nothing changed but the order of object members. That order is settled after one pass: a value
that was handed out is accepted again and handed out as it is (`Settles`).

Each rule passes this on from its parts. An object lists its declared members and then the others, so
a second pass finds both where they are (`object_settles`). Ordered trial takes the same option
again, because an option that refused the value cannot tell it from the output (`Pass.Blind`); this
is the one place that needs refinements to be blind to the order of members.
-/

namespace RouteContract

open Json (Alike)
open Schema (CodecFree WellFormed OrderBlind discriminator?)

namespace Pass

variable {p : Pass} {defs : Definitions}

/-- What a visitor hands out it accepts, and hands out as it is. -/
def Settles (visit : Visitor) : Prop :=
  ∀ path value out, WellFormedOption value → visit path value = .ok out → visit path out = .ok out

/-- The same for what is done with present values. -/
def SettlesShape (visit : String → Json → Visit Json) : Prop :=
  ∀ path v o, v.WellFormed → visit path v = .ok o → visit path o = .ok o

/-! ## Rules -/

theorem Settles.present {visit : Visitor} (h : Settles visit) (hkeeps : Keeps visit) :
    SettlesShape (Visit.present visit) := by
  intro path v o hwf hok
  obtain ⟨out, hout, rfl⟩ := Visit.present_eq_ok_iff.mp hok
  have hlike := hkeeps path (some v) out (wellFormedOption_some hwf) hout
  have hsettled := h path (some v) out (wellFormedOption_some hwf) hout
  cases hlike with
  | some => exact Visit.present_eq_ok_iff.mpr ⟨_, hsettled, rfl⟩

/-- In a check the refinement judges what is handed out, which is the same both times. -/
theorem SettlesShape.node (hmode : p.mode = .check) {isCodec required : Bool}
    {refinement : Option Refinement} {visit : String → Json → Visit Json}
    (h : SettlesShape visit) (hkeeps : KeepsShape visit) :
    Settles (p.node isCodec required refinement visit) := by
  intro path value out hwf hok
  rcases node_eq_ok_iff.mp hok with ⟨habsent, hrequired, rfl⟩ | ⟨v, o, rfl, hne, hvisit, hpass, rfl⟩
  · exact hok
  · have hlike := hkeeps path v o (hwf v rfl) hvisit
    have hne' : o ≠ .null := by
      rintro rfl
      exact hne (hlike.eq_of_scalar (by simp) (by simp))
    refine node_eq_ok_iff.mpr (.inr ⟨o, o, rfl, hne', h path v o (hwf v rfl) hvisit, ?_, rfl⟩)
    intro x judge hx hjudge
    refine hpass x judge ?_ hjudge
    unfold programValue? at hx ⊢
    rw [hmode] at hx ⊢
    exact hx

theorem SettlesShape.visitor (hmode : p.mode = .check) {s : Schema}
    (h : SettlesShape (p.shape s.kind)) (hkeeps : KeepsShape (p.shape s.kind)) :
    Settles (p.visitor s) := by
  rw [visitor_eq]
  exact h.node hmode hkeeps

theorem settlesShape_of_same {visit : String → Json → Visit Json}
    (h : ∀ path v o, visit path v = .ok o → o = v) : SettlesShape visit := by
  intro path v o _ hok
  obtain rfl := h path v o hok
  exact hok

theorem array_settles {items : Visitor} (h : SettlesShape (Visit.present items)) :
    SettlesShape (array items) := by
  intro path v o hwf hok
  obtain ⟨xs, ys, rfl, rfl, hys⟩ := array_eq_ok_iff.mp hok
  refine array_eq_ok_iff.mpr ⟨ys, ys, rfl, rfl, ?_⟩
  obtain ⟨hlength, hvisits⟩ := forall₂_iff_getElem?.mp hys
  refine forall₂_iff_getElem?.mpr ⟨List.length_zipIdx.symm, fun i y z hy hz => ?_⟩
  -- the element at a position was made of the one that stood there, at the same path
  rw [List.getElem?_zipIdx, hz] at hy
  cases hy
  obtain ⟨x, hx⟩ : ∃ x, xs[i]? = some x := by
    rw [List.length_zipIdx] at hlength
    obtain ⟨hi, _⟩ := List.getElem?_eq_some_iff.mp hz
    exact ⟨_, List.getElem?_eq_getElem (hlength ▸ hi)⟩
  have hvisit := hvisits i (x, 0 + i) z (by rw [List.getElem?_zipIdx, hx]; rfl) hz
  exact h _ _ _ (hwf.element (List.mem_of_getElem? hx)) hvisit

theorem map_settles {values : Visitor} (h : SettlesShape (Visit.present values)) :
    SettlesShape (map values) := by
  intro path v o hwf hok
  obtain ⟨ms, ns, rfl, rfl, hns⟩ := map_eq_ok_iff.mp hok
  refine map_eq_ok_iff.mpr ⟨ns, ns, rfl, rfl, List.forall₂_same.mpr fun n hn => ⟨rfl, ?_⟩⟩
  obtain ⟨m, hm, hname, hvisit⟩ := exists_left_of_forall₂ hns hn
  rw [hname]
  exact h _ _ _ (hwf.member hm) hvisit

/-- The members that a second pass carries through are the ones that the first pass did. -/
theorem carried_ofFields {properties : List (String × Visitor)} {ms ns : Entries Json}
    {fields : List (String × Option Json)} (hkeys : Entries.keys fields = Entries.keys properties)
    (h : Json.ofFields (fields ++ carried properties ms) = .obj ns) :
    carried properties ns = carried properties ms := by
  cases h
  have hdeclared : (fields.filterMap fun field => field.2.map fun v => (field.1, v)).filter
      (fun m => !Entries.has properties m.1) = [] := by
    rw [List.filter_eq_nil_iff]
    intro m hm
    obtain ⟨field, hfield, hsome⟩ := List.mem_filterMap.mp hm
    obtain ⟨v, _, rfl⟩ := Option.map_eq_some_iff.mp hsome
    have hkey : field.1 ∈ Entries.keys properties := hkeys ▸ List.mem_map_of_mem hfield
    simp [(Entries.has_iff_mem_keys properties field.1).mpr hkey]
  have hunknown :
      (carried properties ms).filterMap (fun field => field.2.map fun v => (field.1, v)) =
        ms.filter fun m => !Entries.has properties m.1 := by
    rw [carried, List.filterMap_map]
    exact List.filterMap_some
  rw [carried, List.filterMap_append, List.filter_append, hdeclared, hunknown, List.nil_append,
    List.filter_filter]
  simp only [Bool.and_self]
  rfl

theorem object_settles {properties : List (String × Visitor)}
    (hdistinct : Entries.Distinct properties) (h : ∀ property ∈ properties, Settles property.2) :
    SettlesShape (p.object properties) := by
  intro path v o hwf hok
  obtain ⟨ms, fields, rfl, hfields, hadmitted, ho⟩ := object_eq_ok_iff.mp hok
  obtain ⟨_, ns, ⟨⟩, rfl, _, hns⟩ := object_result hdistinct hok fun ms hms => (hms ▸ hwf).distinct
  refine object_eq_ok_iff.mpr ⟨ns, fields, rfl, ?_, hns.admitted rfl (fun _ => rfl) hadmitted, ?_⟩
  · refine ((List.forall₂_and_left _ _).mpr ⟨fun _ hmem => hmem, hfields⟩).imp ?_
    rintro property field ⟨hmem, hname, hvisit⟩
    refine ⟨hname, ?_⟩
    -- the second pass finds under the name what the first one put there
    have hdeclared := hns.declared property.1 property.2 (hdistinct.get?_of_mem hmem)
    rw [hvisit, Outcome.ok.injEq] at hdeclared
    rw [← hdeclared]
    exact h property hmem _ _ _ (fun v hv => hwf.get? hv) hvisit
  · rw [carried_ofFields (keys_of_declared hfields) ho.symm]
    exact ho

/-- The tag of an object is still there, so it selects the same option. -/
theorem tagged_settles {options : List Schema} {key : String}
    (hkey : discriminator? options = some key)
    (hoptions : ∀ option ∈ options, Schema.WellFormedNode option)
    (h : ∀ option ∈ options, SettlesShape (Visit.present (p.visitor option))) :
    SettlesShape (tagged key (branches options p.visitor)) := by
  intro path v o hwf hok
  obtain ⟨ms, tag, option, rfl, hget, hfind, hvisit⟩ := tagged_eq_ok_iff.mp hok
  have hmem := List.mem_of_find?_eq_some hfind
  have htag := Schema.tag?_isSome_of_discriminator? hkey option hmem
  obtain ⟨ns, rfl, hkept⟩ := tag_kept htag (hoptions option hmem) hwf.distinct hvisit
  exact tagged_eq_ok_iff.mpr
    ⟨ns, tag, option, rfl, hkept.trans hget, hfind, h option hmem path _ _ hwf hvisit⟩

/-- An option that refused a value refuses what another option made of it: the two are alike. -/
theorem untagged_settles {visitors : List Visitor}
    (h : ∀ visit ∈ visitors, SettlesShape (Visit.present visit))
    (hkeeps : ∀ visit ∈ visitors, Keeps visit) (hblind : ∀ visit ∈ visitors, Blind visit) :
    SettlesShape (untagged visitors) := by
  intro path v o hwf hok
  obtain ⟨before, visit, after, rfl, hbefore, hvisit⟩ :=
    firstAccepting_eq_ok_iff.mp (untagged_eq_ok_iff.mp hok)
  have hmem : visit ∈ before ++ visit :: after := List.mem_append_right _ List.mem_cons_self
  have hlike := (hkeeps visit hmem).present path v o hwf hvisit
  refine untagged_eq_ok_iff.mpr (firstAccepting_eq_ok_iff.mpr
    ⟨before, visit, after, rfl, fun earlier hearlier => ?_, h visit hmem path v o hwf hvisit⟩)
  obtain ⟨reason, hfailed⟩ := hbefore earlier hearlier
  have hverdict := (hblind earlier (List.mem_append_left _ hearlier)).present path path v o hwf
    hlike.symm
  rw [hfailed] at hverdict
  exact Outcome.verdict_eq_failed_iff.mp hverdict.symm

/-! ## The recursion -/

/-- **What a check hands out it accepts again and hands out as it is**, if its lazy nodes do. -/
theorem settles_shape (hmode : p.mode = .check) (n : Nat)
    (hf : ∀ target, WellFormed defs (defs.resolve target) → OrderBlind defs (defs.resolve target) →
      SettlesShape (p.followAt defs n target))
    (s : Schema) (hs : WellFormed defs s) (hb : OrderBlind defs s) :
    SettlesShape ((p.withFollow (p.followAt defs n)).shape s.kind) := by
  let q := p.withFollow (p.followAt defs n)
  have hmode' : q.mode = .check := hmode
  have hkeeps : ∀ {t}, WellFormed defs t → KeepsShape (q.shape t.kind) :=
    fun ht => keeps_shape hmode (keeps_followAt hmode n) _ ht
  have hpart : ∀ {t}, WellFormed defs t → SettlesShape (q.shape t.kind) → Settles (q.visitor t) :=
    fun ht hshape => hshape.visitor hmode' (hkeeps ht)
  have hpresent : ∀ {t}, WellFormed defs t → SettlesShape (q.shape t.kind) →
      SettlesShape (Visit.present (q.visitor t)) :=
    fun ht hshape => (hpart ht hshape).present (hkeeps ht).visitor
  show SettlesShape (q.shape s.kind)
  induction s with
  | number | string | boolean =>
      exact settlesShape_of_same fun path v o hok => (Visit.expect_eq_ok_iff.mp hok).2
  | any =>
      refine settlesShape_of_same fun path v o hok => ?_
      cases hok
      rfl
  | enum options => exact settlesShape_of_same fun path v o hok => (enum_eq_ok_iff.mp hok).2
  | lazy name target => exact hf target (hs.part .target) (hb.part .target)
  | oneOf options r g d ih =>
      have hoptions : ∀ option ∈ options,
          SettlesShape (Visit.present (q.visitor option)) := fun option hmem =>
        hpresent (hs.part (.option hmem)) (ih option hmem (hs.part (.option hmem))
          (hb.part (.option hmem)))
      show SettlesShape (oneOf options (q.visitors options))
      rw [oneOf_eq]
      cases hkey : discriminator? options with
      | some key =>
          exact tagged_settles hkey (fun option hmem => (hs.part (.option hmem)).self) hoptions
      | none =>
          refine untagged_settles (List.forall_mem_map.mpr hoptions)
            (List.forall_mem_map.mpr fun option hmem => ?_)
            (List.forall_mem_map.mpr fun option hmem => ?_)
          · exact (hkeeps (hs.part (.option hmem))).visitor
          · exact blind_visitor hmode (keeps_followAt hmode n) (blind_followAt hmode n)
              (hs.part (.option hmem)) (hb.part (.option hmem))
  | array items r g d ih =>
      exact array_settles (hpresent (hs.part .items) (ih (hs.part .items) (hb.part .items)))
  | object properties r g d ih =>
      show SettlesShape (q.object (q.propertyVisitors properties))
      rw [propertyVisitors_eq_map]
      refine object_settles ((hs.self.distinct properties rfl).mapValues _)
        (List.forall_mem_map.mpr fun property hmem => ?_)
      exact hpart (hs.part (.property hmem)) (ih property hmem (hs.part (.property hmem))
        (hb.part (.property hmem)))
  | map values r g d ih =>
      exact map_settles (hpresent (hs.part .values) (ih (hs.part .values) (hb.part .values)))
  | transform e c dec enc r g d ihe ihc =>
      intro path v o hwf hok
      cases hdir : q.direction with
      | decode =>
          rw [shape_transform_decode hdir, transform_check hmode'] at hok ⊢
          exact hpresent (hs.part .decoded) (ihc (hs.part .decoded) (hb.part .decoded)) path v o hwf
            hok
      | encode =>
          rw [shape_transform_encode hdir, transform_check hmode'] at hok ⊢
          exact hpresent (hs.part .encoded) (ihe (hs.part .encoded) (hb.part .encoded)) path v o hwf
            hok
  | custom name parent dec r g d ih =>
      intro path v o hwf hok
      rw [shape] at hok ⊢
      cases hdir : q.direction with
      | decode => rw [custom_decode_check hdir hmode']
      | encode =>
          rw [custom_encode hdir] at hok ⊢
          exact hpresent (hs.part .parent) (ih (hs.part .parent) (hb.part .parent)) path v o hwf hok

theorem settles_upTo (hmode : p.mode = .check) (n : Nat)
    (hf : ∀ target, WellFormed defs (defs.resolve target) → OrderBlind defs (defs.resolve target) →
      SettlesShape (p.followAt defs n target))
    {s : Schema} (hs : WellFormed defs s) (hb : OrderBlind defs s) :
    Settles (p.upTo defs n s) := by
  rw [upTo_eq]
  exact (settles_shape hmode n hf s hs hb).visitor (p := p.withFollow (p.followAt defs n)) hmode
    (keeps_shape hmode (keeps_followAt hmode n) s hs)

/-! ## All references -/

theorem settles_followAt (hmode : p.mode = .check) (n : Nat) (target : String)
    (hs : WellFormed defs (defs.resolve target)) (hb : OrderBlind defs (defs.resolve target)) :
    SettlesShape (p.followAt defs n target) := by
  induction n generalizing target with
  | zero => exact fun _ _ _ _ hok => nomatch hok
  | succ n ih =>
      have hkeeps : Keeps (p.upTo defs n (defs.resolve target)) := by
        rw [upTo_eq]
        exact (keeps_shape hmode (keeps_followAt hmode n) _ hs).visitor
      rw [followAt]
      exact (settles_upTo hmode n ih hs hb).present hkeeps

theorem settles_traverse (hmode : p.mode = .check) {s : Schema} (hs : WellFormed defs s)
    (hb : OrderBlind defs s) : Settles (p.traverse defs s) := by
  intro path value out hwf hok
  -- the references that were enough for the value are enough for what was made of it
  have hsettled : p.upTo defs (Traversal.hopBudget defs value) s path out = .ok out :=
    settles_upTo hmode _ (settles_followAt hmode _) hs hb path value out hwf hok
  rw [← upTo_eq_traverse (by rw [hsettled]; exact nofun), hsettled]

end Pass

namespace Traversal

variable {defs : Definitions} {config : ValidationConfig} {direction : Direction} {s : Schema}

/-- **What a check hands out it accepts again and hands out as it is**, order included. -/
theorem check_settles (hs : WellFormed defs s) (hb : OrderBlind defs s) :
    Pass.Settles (check defs config direction s) := by
  rw [check_eq_traverse]
  exact Pass.settles_traverse (p := checkPass config direction) rfl hs hb

end Traversal

namespace Validator

/-- **Without codecs, validation is a pure check.** A validator for a well-formed schema without
codecs comes to the same in both directions. What it accepts is alike to what it makes of it, with
the declared members of every object first and the others behind them as they came. And if no
refinement can tell the order of members, validating the output again gives exactly the output. -/
theorem validate_codecFree (validator : Validator)
    (hfree : CodecFree validator.definitions validator.schema)
    (hwf : WellFormed validator.definitions validator.schema) {value : Option Json}
    (hvalue : WellFormedOption value) :
    (∀ direction, { validator with direction }.validateOptional value =
      validator.validateOptional value) ∧
      ∀ out, validator.validateOptional value = .ok out →
        AlikeOption out value ∧
          Traversal.Carries validator.definitions validator.config validator.direction
            validator.schema value out ∧
          (OrderBlind validator.definitions validator.schema →
            validator.validateOptional out = .ok out) := by
  refine ⟨fun direction => ?_, fun out hok => ?_⟩
  · unfold validateOptional
    rw [Traversal.run_eq_check validator.direction hfree,
      Traversal.run_eq_check validator.direction hfree]
  · rw [validateOptional_eq_ok_iff] at hok
    have hcarries := Traversal.run_carries hwf "" value out hvalue hok
    refine ⟨hcarries.alike hwf hfree hvalue, hcarries, fun hblind => ?_⟩
    rw [validateOptional_eq_ok_iff, Traversal.run_eq_check .decode hfree]
    rw [Traversal.run_eq_check .decode hfree] at hok
    exact Traversal.check_settles hwf hblind "" value out hvalue hok

end Validator

/-! ## A recursive union -/

/-- The end of a twig. -/
def bud : Schema := ⟨.object [("bud", .boolean)], true, none, none⟩

/-- Two twigs. -/
def fork : Schema :=
  ⟨.object [("left", .lazy "Twig" "Twig"), ("right", .lazy "Twig" "Twig")], true, none, none⟩

/-- A twig ends, or it forks. -/
def twig : Schema := .oneOf [bud, fork]

/-- The definition that the twigs of a fork refer to. -/
def twigs : Definitions := ⟨[("Twig", twig)]⟩

/-- Everything that stands in a twig. -/
def InTwig (s : Schema) : Prop :=
  s = twig ∨ s = bud ∨ s = fork ∨ s = .boolean ∨ s = .lazy "Twig" "Twig"

theorem inTwig : Schema.Throughout twigs InTwig twig := by
  refine .of_closed (fun s t hs h => ?_) (fun s hs => hs) (.inl rfl)
  rcases hs with rfl | rfl | rfl | rfl | rfl
  · cases h with
    | option hmem =>
        rcases List.mem_pair.mp hmem with rfl | rfl
        · exact .inr (.inl rfl)
        · exact .inr (.inr (.inl rfl))
  · unfold bud at h
    cases h with
    | property hmem =>
        rw [List.mem_singleton.mp hmem]
        exact .inr (.inr (.inr (.inl rfl)))
  · unfold fork at h
    cases h with
    | property hmem =>
        rcases List.mem_pair.mp hmem with rfl | rfl <;> exact .inr (.inr (.inr (.inr rfl)))
  · cases h
  · cases h
    exact .inl rfl

theorem codecFree_twig : CodecFree twigs twig := by
  refine inTwig.imp fun s hs => ?_
  rcases hs with rfl | rfl | rfl | rfl | rfl <;> rfl

theorem orderBlind_twig : OrderBlind twigs twig := by
  refine inTwig.imp fun s hs judge hjudge => ?_
  rcases hs with rfl | rfl | rfl | rfl | rfl <;> cases hjudge

theorem wellFormed_twig : WellFormed twigs twig := by
  refine inTwig.imp fun s hs => ⟨?_, ?_⟩
  · rintro properties hkind
    rcases hs with rfl | rfl | rfl | rfl | rfl <;> cases hkind
    · show List.Nodup ["bud"]
      decide
    · show List.Nodup ["left", "right"]
      decide
  · rintro direction convert hconvert
    rcases hs with rfl | rfl | rfl | rfl | rfl <;> cases direction <;> cases hconvert

/-- A fork with a note on it; the first option of the union refuses the fork both times. -/
theorem validate_codecFree_twig :
    let given := Json.obj [("note", .str "x"), ("right", .obj [("bud", .bool true)]),
      ("left", .obj [("bud", .bool false)])]
    let ordered := Json.obj [("left", .obj [("bud", .bool false)]),
      ("right", .obj [("bud", .bool true)]), ("note", .str "x")]
    let validator : Validator := { schema := twig, definitions := twigs }
    validator.validateOptional (some given) = .ok (some ordered) ∧
      { validator with direction := .encode }.validateOptional (some given) = .ok (some ordered) ∧
      AlikeOption (some ordered) (some given) ∧
      validator.validateOptional (some ordered) = .ok (some ordered) := by
  intro given ordered validator
  have hgiven : WellFormedOption (some given) := by
    rintro _ ⟨⟩
    simp [given, Entries.Distinct, Entries.keys, Json.WellFormed, Json.WellFormedMembers]
  have hok : validator.validateOptional (some given) = .ok (some ordered) := rfl
  obtain ⟨hdirections, houtputs⟩ :=
    validator.validate_codecFree codecFree_twig wellFormed_twig hgiven
  obtain ⟨hlike, _, hagain⟩ := houtputs _ hok
  exact ⟨hok, (hdirections .encode).trans hok, hlike, hagain orderBlind_twig⟩

end RouteContract
