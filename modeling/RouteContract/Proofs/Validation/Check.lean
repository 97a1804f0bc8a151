import RouteContract.Proofs.Json.Alike
import RouteContract.Proofs.Schema.Reach
import RouteContract.Proofs.Validation.Budget

/-!
# Check -- traversals that apply no codec

A check leaves a value as it is, apart from the order of object members (`check_keeps`), and cannot
tell two values apart that differ in nothing else (`check_blind`), as long as the refinements cannot.
A schema without codecs is traversed the same way in both modes and both directions
(`run_eq_check`).
-/

namespace RouteContract

open Schema (WellFormed OrderBlind CodecFree Part)
open Json (Alike)

namespace Pass

variable {p : Pass} {defs : Definitions}

/-! ## A check leaves values as they are -/

/-- A visitor that hands out what it was given, up to the order of members. -/
def Keeps (visit : Visitor) : Prop :=
  ∀ path value out, WellFormedOption value → visit path value = .ok out → AlikeOption out value

/-- The same for what is done with present values. -/
def KeepsShape (visit : String → Json → Visit Json) : Prop :=
  ∀ path v out, v.WellFormed → visit path v = .ok out → Alike out v

theorem Keeps.present {visit : Visitor} (h : Keeps visit) : KeepsShape (Visit.present visit) := by
  intro path v out hv hok
  obtain ⟨o, ho, rfl⟩ := Visit.present_eq_ok_iff.mp hok
  have hlike := h path (some v) o (wellFormedOption_some hv) ho
  cases hlike with
  | some hlike => exact hlike

theorem KeepsShape.node {isCodec required : Bool} {refinement : Option Refinement}
    {visit : String → Json → Visit Json} (h : KeepsShape visit) :
    Keeps (p.node isCodec required refinement visit) := by
  intro path value out hwf hok
  rcases node_eq_ok_iff.mp hok with ⟨_, _, rfl⟩ | ⟨input, output, rfl, _, hvisit, _, rfl⟩
  · exact .refl _
  · exact .some (h path input output (hwf _ rfl) hvisit)

theorem KeepsShape.visitor {s : Schema} (h : KeepsShape (p.shape s.kind)) : Keeps (p.visitor s) := by
  rw [visitor_eq]
  exact h.node

theorem array_keeps {items : Visitor} (h : Keeps items) : KeepsShape (array items) := by
  intro path input output hwf hok
  obtain ⟨xs, ys, rfl, rfl, hys⟩ := array_eq_ok_iff.mp hok
  have hmem : List.Forall₂ (fun x y => x ∈ xs ∧ ∃ i,
      Visit.present items (Visit.elementPath path i) x = .ok y) xs ys :=
    (List.forall₂_and_left xs ys).mpr ⟨fun _ hx => hx, forall₂_of_zipIdx hys⟩
  refine (Json.alike_arr_iff.mpr ⟨ys, rfl, hmem.imp fun x y hxy => ?_⟩).symm
  obtain ⟨hx, i, hvisit⟩ := hxy
  exact (h.present _ _ _ (hwf.element hx) hvisit).symm

theorem object_keeps {properties : List (String × Visitor)} (hp : Entries.Distinct properties)
    (h : ∀ property ∈ properties, Keeps property.2) : KeepsShape (p.object properties) := by
  intro path input output hwf hok
  obtain ⟨ms, out, rfl, rfl, _, hresult⟩ := object_result hp hok fun ms hms => (hms ▸ hwf).distinct
  -- declared members are put first, so the two objects can only be compared by name
  refine Json.alike_obj_of_get? hresult.distinct hwf.distinct fun key => ?_
  cases hkey : Entries.get? properties key with
  | none =>
      rw [hresult.others key hkey]
      exact AlikeOption.refl _
  | some visit =>
      have hvisit := hresult.declared key visit hkey
      exact h _ (Entries.mem_of_get? hkey) _ _ _ (fun v hv => hwf.get? hv) hvisit

theorem map_keeps {values : Visitor} (h : Keeps values) : KeepsShape (map values) := by
  intro path input output hwf hok
  obtain ⟨ms, ns, rfl, rfl, hns⟩ := map_eq_ok_iff.mp hok
  have hmem : List.Forall₂ (fun m n => m ∈ ms ∧ MappedField values path m n) ms ns :=
    (List.forall₂_and_left ms ns).mpr ⟨fun _ hm => hm, hns⟩
  refine (Json.alike_obj_iff.mpr ⟨ns, rfl, ns, hmem.imp fun m n hmn => ?_, .refl _⟩).symm
  obtain ⟨hm, hname, hvisit⟩ := hmn
  exact ⟨hname.symm, (h.present _ _ _ (hwf.member hm) hvisit).symm⟩

/-- **A check hands out what it was given**, up to the order of members. -/
theorem keeps_shape {f : String → String → Json → Visit Json} (hmode : p.mode = .check)
    (hf : ∀ target, WellFormed defs (defs.resolve target) → KeepsShape (f target))
    (s : Schema) (hs : WellFormed defs s) : KeepsShape ((p.withFollow f).shape s.kind) := by
  induction s with
  | number | string | boolean =>
      intro path input output _ hok
      rw [(Visit.expect_eq_ok_iff.mp hok).2]
      exact .refl _
  | any =>
      intro path input output _ hok
      cases hok
      exact .refl _
  | enum options =>
      intro path input output _ hok
      rw [(enum_eq_ok_iff.mp hok).2]
      exact .refl _
  | lazy name target => exact hf target (hs.part .target)
  | oneOf options r g d ih =>
      intro path input output hwf hok
      obtain ⟨option, hmem, hvisit⟩ := oneOf_result hok
      exact (ih option hmem (hs.part (.option hmem))).visitor.present path _ _ hwf hvisit
  | array items r g d ih => exact array_keeps (ih (hs.part .items)).visitor
  | object properties r g d ih =>
      show KeepsShape ((p.withFollow f).object ((p.withFollow f).propertyVisitors properties))
      rw [propertyVisitors_eq_map]
      refine object_keeps ((hs.self.distinct properties rfl).mapValues _) fun property hmem => ?_
      obtain ⟨⟨key, s⟩, hs', rfl⟩ := List.mem_map.mp hmem
      exact (ih _ hs' (hs.part (.property hs'))).visitor
  | map values r g d ih => exact map_keeps (ih (hs.part .values)).visitor
  -- in a check a codec is the schema on the side that the direction leads to
  | transform e c dec enc r g d ihe ihc =>
      intro path input output hwf hok
      cases hdir : (p.withFollow f).direction with
      | decode =>
          rw [shape_transform_decode hdir, transform_check (p := p.withFollow f) hmode] at hok
          exact (ihc (hs.part .decoded)).visitor.present path _ _ hwf hok
      | encode =>
          rw [shape_transform_encode hdir, transform_check (p := p.withFollow f) hmode] at hok
          exact (ihe (hs.part .encoded)).visitor.present path _ _ hwf hok
  | custom name parent dec r g d ih =>
      intro path input output hwf hok
      rw [shape] at hok
      cases hdir : (p.withFollow f).direction with
      | decode =>
          rw [custom_decode_check hdir hmode] at hok
          cases hok
          exact .refl _
      | encode =>
          rw [custom_encode hdir] at hok
          exact (ih (hs.part .parent)).visitor.present path _ _ hwf hok

/-- Lazy nodes of a checking traversal hand out what they were given. -/
theorem keeps_followAt (hmode : p.mode = .check) (n : Nat) (target : String)
    (htarget : WellFormed defs (defs.resolve target)) : KeepsShape (p.followAt defs n target) := by
  induction n generalizing target with
  | zero =>
      intro path v out _ hok
      cases hok
  | succ n ih =>
      rw [followAt, upTo_eq]
      exact (keeps_shape hmode ih _ htarget).visitor.present

theorem keeps_traverse (hmode : p.mode = .check) {s : Schema} (hs : WellFormed defs s) :
    Keeps (p.traverse defs s) := by
  intro path value
  unfold traverse
  rw [upTo_eq]
  exact (keeps_shape hmode (keeps_followAt hmode _) s hs).visitor path value

/-! ## A check does not see the order of members -/

/-- A visitor that treats alike values alike, wherever they stand. -/
def Blind (visit : Visitor) : Prop :=
  ∀ path path' value value', WellFormedOption value → AlikeOption value value' →
    (visit path value).verdict = (visit path' value').verdict

/-- The same for what is done with present values. -/
def BlindShape (visit : String → Json → Visit Json) : Prop :=
  ∀ path path' v v', v.WellFormed → Alike v v' → (visit path v).verdict = (visit path' v').verdict

theorem Blind.present {visit : Visitor} (h : Blind visit) : BlindShape (Visit.present visit) := by
  intro path path' v v' hwf hlike
  rw [Visit.verdict_present, Visit.verdict_present]
  exact h path path' _ _ (wellFormedOption_some hwf) (.some hlike)

/-- In a checking pass the refinement judges what was handed out, or nothing. -/
theorem judged_verdict_congr (hmode : p.mode = .check) {isCodec : Bool}
    {refinement : Option Refinement} (hblind : ∀ judge, refinement = some judge → judge.OrderBlind)
    {path path' : String} {input input' output output' : Json} (hwf : output.WellFormed)
    (hlike : Alike output output') :
    (p.judged isCodec refinement path input output).verdict =
      (p.judged isCodec refinement path' input' output').verdict := by
  apply Outcome.verdict_ext
  · have hpasses : p.Passes isCodec refinement input output ↔
        p.Passes isCodec refinement input' output' := by
      unfold Passes programValue?
      rw [hmode]
      cases p.direction <;> cases isCodec <;> cases refinement with
        | none => simp
        | some judge => simp [hblind judge rfl output output' hwf hlike]
    simp only [judged_eq_ok_iff, hpasses]
    exact ⟨fun ⟨_, h, _⟩ => ⟨_, h, rfl⟩, fun ⟨_, h, _⟩ => ⟨_, h, rfl⟩⟩
  · simp [judged_ne_looping]

theorem Blind.node (hmode : p.mode = .check) {isCodec required : Bool}
    {refinement : Option Refinement} {visit : String → Json → Visit Json}
    (hblind : ∀ judge, refinement = some judge → judge.OrderBlind) (hvisit : BlindShape visit)
    (hkeeps : ∀ path v out, v.WellFormed → visit path v = .ok out → Alike out v) :
    Blind (p.node isCodec required refinement visit) := by
  intro path path' value value' hwf hlike
  rcases absent_or_present value with hv | ⟨v, rfl, hne⟩
  -- nothing but itself is like an absent value
  · have heq : value' = value := by
      rcases hv with rfl | rfl
      · cases hlike; rfl
      · cases hlike with
        | some h => rw [h.eq_of_scalar (by simp) (by simp)]
    rw [heq, node_absent hv, node_absent hv]
    cases required <;> rfl
  · cases hlike with
    | @some _ v' hlike =>
        have hne' : v' ≠ .null := by
          rintro rfl
          exact hne (hlike.symm.eq_of_scalar (by simp) (by simp))
        have hv : v.WellFormed := hwf v rfl
        -- the refinement sees the outputs, and these are alike because each is like its input
        rw [node_present hne, node_present hne']
        refine Outcome.verdict_bind_congr (hvisit path path' v v' hv hlike) fun o o' ho ho' => ?_
        have hov := hkeeps path v o hv ho
        have hov' := hkeeps path' v' o' (hlike.wellFormed hv) ho'
        exact judged_verdict_congr hmode hblind (hov.symm.wellFormed hv)
          (hov.trans (hlike.trans hov'.symm))

theorem enum_blind (options : List Json) : BlindShape (enum options) := by
  intro path path' v v' hwf hlike
  have hany : (options.any fun option => Json.literalsEqual option v) =
      options.any fun option => Json.literalsEqual option v' :=
    congrArg options.any (funext fun option => Json.literalsEqual_congr_right hlike hwf)
  unfold enum
  rw [hany]
  cases options.any fun option => Json.literalsEqual option v' <;> rfl

private theorem covers_elements {items : Visitor} (h : Blind items) (path path' : String)
    {xs ys : List Json} (hwf : ∀ x ∈ xs, x.WellFormed) (hxy : List.Forall₂ Alike xs ys) :
    Outcome.Covers
      (xs.zipIdx.map fun x => Visit.present items (Visit.elementPath path x.2) x.1)
      (ys.zipIdx.map fun y => Visit.present items (Visit.elementPath path' y.2) y.1) := by
  intro o ho
  obtain ⟨x, hx, rfl⟩ := List.mem_map.mp ho
  have hmem : x.1 ∈ xs := by
    rw [← List.zipIdx_map_fst 0 xs]
    exact List.mem_map_of_mem hx
  obtain ⟨y, hy, hlike⟩ := exists_left_of_forall₂ hxy.flip hmem
  rw [← List.zipIdx_map_fst 0 ys] at hy
  obtain ⟨z, hz, rfl⟩ := List.mem_map.mp hy
  exact ⟨_, List.mem_map_of_mem hz, h.present _ _ _ _ (hwf _ hmem) hlike⟩

theorem array_blind {items : Visitor} (h : Blind items) : BlindShape (array items) := by
  intro path path' v v' hwf hlike
  cases v with
  | arr xs =>
      obtain ⟨ys, rfl, hxy⟩ := Json.alike_arr_iff.mp hlike
      have hwf' := hlike.wellFormed hwf
      show (Outcome.map _ _).verdict = (Outcome.map _ _).verdict
      rw [Outcome.verdict_map, Outcome.verdict_map]
      have hyx : List.Forall₂ Alike ys xs := hxy.flip.imp fun _ _ h => h.symm
      exact Outcome.gather_verdict_congr
        (covers_elements h path path' (fun x hx => hwf.element hx) hxy)
        (covers_elements h path' path (fun y hy => hwf'.element hy) hyx)
  | obj ms =>
      obtain ⟨ns, rfl, _⟩ := Json.alike_obj_iff.mp hlike
      rfl
  | _ =>
      rw [hlike.eq_of_scalar (by simp) (by simp)]
      rfl

/-- A shape that refuses everything but objects has to be looked at on objects only. -/
theorem BlindShape.of_objects {visit : String → Json → Visit Json}
    (hother : ∀ path v, v.members? = none → (visit path v).verdict = .failed ())
    (hobj : ∀ path path' ms ns, Json.WellFormed (.obj ms) → Alike (.obj ms) (.obj ns) →
      (visit path (.obj ms)).verdict = (visit path' (.obj ns)).verdict) : BlindShape visit := by
  intro path path' v v' hwf hlike
  cases v with
  | obj ms =>
      obtain ⟨ns, rfl, _⟩ := Json.alike_obj_iff.mp hlike
      exact hobj path path' ms ns hwf hlike
  | arr xs =>
      obtain ⟨ys, rfl, _⟩ := Json.alike_arr_iff.mp hlike
      rw [hother path _ rfl, hother path' _ rfl]
  | _ =>
      rw [hlike.eq_of_scalar (by simp) (by simp), hother path _ rfl, hother path' _ rfl]

/-- A member has a partner of the same name in an object that is alike. -/
theorem exists_partner {ms ns : Entries Json} (hlike : Alike (.obj ms) (.obj ns))
    (hd : ms.Distinct) {m : String × Json} (hm : m ∈ ms) :
    ∃ n ∈ ns, n.1 = m.1 ∧ Alike m.2 n.2 := by
  have hget := hlike.get? hd m.1
  rw [hd.get?_of_mem hm] at hget
  obtain ⟨hv, _⟩ | ⟨v, w, hv, hw, hvw⟩ := rel_cases hget
  · cases hv
  · cases hv
    exact ⟨(m.1, w), Entries.mem_of_get? hw, rfl, hvw⟩

private theorem covers_fields {properties : List (String × Visitor)}
    (h : ∀ property ∈ properties, Blind property.2) (path path' : String) {ms ns : Entries Json}
    (hwf : Json.WellFormed (.obj ms)) (hlike : Alike (.obj ms) (.obj ns)) :
    Outcome.Covers
      ((properties.map fun property =>
          (property.2 (Visit.childPath path property.1) (Entries.get? ms property.1)).map
            fun output => (property.1, output)) ++
        (ms.filter fun m => !Entries.has properties m.1).map fun m =>
          if p.config.strictObjects then
            Visit.fail (Visit.childPath path m.1) "is not a known property"
          else (.ok (m.1, some m.2) : Visit (String × Option Json)))
      ((properties.map fun property =>
          (property.2 (Visit.childPath path' property.1) (Entries.get? ns property.1)).map
            fun output => (property.1, output)) ++
        (ns.filter fun m => !Entries.has properties m.1).map fun m =>
          if p.config.strictObjects then
            Visit.fail (Visit.childPath path' m.1) "is not a known property"
          else (.ok (m.1, some m.2) : Visit (String × Option Json))) := by
  intro o ho
  rcases List.mem_append.mp ho with ho | ho
  -- a declared property has itself as partner, an unknown member the one of the same name
  · obtain ⟨property, hmem, rfl⟩ := List.mem_map.mp ho
    refine ⟨_, List.mem_append_left _ (List.mem_map_of_mem hmem), ?_⟩
    rw [Outcome.verdict_map, Outcome.verdict_map]
    exact h property hmem _ _ _ _ (fun v hv => hwf.get? hv) (hlike.get? hwf.distinct _)
  · obtain ⟨m, hm, rfl⟩ := List.mem_map.mp ho
    rw [List.mem_filter] at hm
    obtain ⟨n, hn, hname, _⟩ := exists_partner hlike hwf.distinct hm.1
    refine ⟨_, List.mem_append_right _ (List.mem_map_of_mem (List.mem_filter.mpr ⟨hn, ?_⟩)), ?_⟩
    · rw [hname]
      exact hm.2
    · cases p.config.strictObjects <;> rfl

theorem object_blind {properties : List (String × Visitor)}
    (h : ∀ property ∈ properties, Blind property.2) : BlindShape (p.object properties) := by
  refine BlindShape.of_objects (fun path v hv => ?_) fun path path' ms ns hwf hlike => ?_
  · cases v <;> first | rfl | cases hv
  · show (Outcome.map _ _).verdict = (Outcome.map _ _).verdict
    rw [Outcome.verdict_map, Outcome.verdict_map]
    exact Outcome.gather_verdict_congr (covers_fields h path path' hwf hlike)
      (covers_fields h path' path (hlike.wellFormed hwf) hlike.symm)

private theorem covers_values {values : Visitor} (h : Blind values) (path path' : String)
    {ms ns : Entries Json} (hwf : Json.WellFormed (.obj ms)) (hlike : Alike (.obj ms) (.obj ns)) :
    Outcome.Covers
      (ms.map fun m => (Visit.present values (Visit.childPath path m.1) m.2).map
        fun output => (m.1, output))
      (ns.map fun n => (Visit.present values (Visit.childPath path' n.1) n.2).map
        fun output => (n.1, output)) := by
  intro o ho
  obtain ⟨m, hm, rfl⟩ := List.mem_map.mp ho
  obtain ⟨n, hn, _, hmn⟩ := exists_partner hlike hwf.distinct hm
  refine ⟨_, List.mem_map_of_mem hn, ?_⟩
  rw [Outcome.verdict_map, Outcome.verdict_map]
  exact h.present _ _ _ _ (hwf.member hm) hmn

theorem map_blind {values : Visitor} (h : Blind values) : BlindShape (map values) := by
  refine BlindShape.of_objects (fun path v hv => ?_) fun path path' ms ns hwf hlike => ?_
  · cases v <;> first | rfl | cases hv
  · show (Outcome.map _ _).verdict = (Outcome.map _ _).verdict
    rw [Outcome.verdict_map, Outcome.verdict_map]
    exact Outcome.gather_verdict_congr (covers_values h path path' hwf hlike)
      (covers_values h path' path (hlike.wellFormed hwf) hlike.symm)

theorem firstAccepting_verdict_congr {visitors : List Visitor} (h : ∀ visit ∈ visitors, Blind visit)
    (path path' : String) {v v' : Json} (hwf : v.WellFormed) (hlike : Alike v v') :
    (firstAccepting path v visitors).verdict = (firstAccepting path' v' visitors).verdict := by
  induction visitors with
  | nil => rfl
  | cons visit rest ih =>
      rw [List.forall_mem_cons] at h
      have hvisit := h.1.present path path' v v' hwf hlike
      rw [firstAccepting, firstAccepting]
      -- the first option ends alike on both values, and the rest is tried on both or on neither
      cases hv : Visit.present visit path v with
      | ok o =>
          obtain ⟨o', ho'⟩ := Outcome.verdict_eq_ok_iff.mp (hvisit.symm.trans (by rw [hv]; rfl))
          rw [ho']
          rfl
      | failed reason =>
          obtain ⟨reason', hr'⟩ :=
            Outcome.verdict_eq_failed_iff.mp (hvisit.symm.trans (by rw [hv]; rfl))
          rw [hr']
          exact ih h.2
      | looping =>
          rw [Outcome.verdict_eq_looping_iff.mp (hvisit.symm.trans (by rw [hv]; rfl))]

theorem untagged_blind {visitors : List Visitor} (h : ∀ visit ∈ visitors, Blind visit) :
    BlindShape (untagged visitors) := by
  intro path path' v v' hwf hlike
  have hfirst := firstAccepting_verdict_congr h path path' hwf hlike
  unfold untagged
  cases hv : firstAccepting path v visitors <;> cases hv' : firstAccepting path' v' visitors <;>
    rw [hv, hv'] at hfirst <;> first | rfl | cases hfirst

theorem tagged_blind {options : List Schema} {visit : Schema → Visitor} {key : String}
    (h : ∀ option ∈ options, Blind (visit option)) :
    BlindShape (tagged key (branches options visit)) := by
  refine BlindShape.of_objects (fun path v hv => ?_) fun path path' ms ns hwf hlike => ?_
  · cases v <;> first | rfl | cases hv
  · unfold tagged
    simp only [Json.members?]
    obtain ⟨hv, hw⟩ | ⟨tag, tag', hv, hw, htag⟩ := rel_cases (hlike.get? hwf.distinct key)
    · rw [hv, hw]
      rfl
    -- alike tags select the same option
    · have hselects : (fun option : Schema => option.selects key tag) =
          fun option => option.selects key tag' := by
        funext option
        unfold Schema.selects
        cases option.tag? key with
        | none => rfl
        | some literal => exact Json.literalsEqual_congr_right htag (hwf.get? hv)
      simp only [hv, hw, find?_branches, hselects]
      cases hopt : options.find? fun option => option.selects key tag' with
      | none => rfl
      | some option =>
          exact (h option (List.mem_of_find?_eq_some hopt)).present path path' _ _ hwf hlike

theorem Blind.visitor (hmode : p.mode = .check) {s : Schema}
    (hblind : ∀ judge, s.refinement = some judge → judge.OrderBlind)
    (hshape : BlindShape (p.shape s.kind)) (hkeeps : KeepsShape (p.shape s.kind)) :
    Blind (p.visitor s) := by
  rw [visitor_eq]
  exact .node hmode hblind hshape hkeeps

theorem expect_blind {test : Json → Bool} (expected : String)
    (htest : ∀ v v', Alike v v' → test v = test v') :
    BlindShape fun path input => Visit.expect (test input) expected path input := by
  intro path path' v v' _ hlike
  show (Visit.expect _ _ _ _).verdict = (Visit.expect _ _ _ _).verdict
  rw [htest v v' hlike]
  cases test v' <;> rfl

/-- **A check treats alike values alike**, as long as the refinements do. -/
theorem blind_shape {f : String → String → Json → Visit Json} (hmode : p.mode = .check)
    (hkeeps : ∀ target, WellFormed defs (defs.resolve target) → KeepsShape (f target))
    (hf : ∀ target, WellFormed defs (defs.resolve target) → OrderBlind defs (defs.resolve target) →
      BlindShape (f target))
    (s : Schema) (hs : WellFormed defs s) (hb : OrderBlind defs s) :
    BlindShape ((p.withFollow f).shape s.kind) := by
  -- the hypothesis for a part speaks of its shape, and a rule needs the visitor of the part
  have hpart : ∀ {t}, WellFormed defs t → OrderBlind defs t →
      (WellFormed defs t → OrderBlind defs t → BlindShape ((p.withFollow f).shape t.kind)) →
      Blind ((p.withFollow f).visitor t) := by
    intro t ht hbt hshape
    exact .visitor (p := p.withFollow f) hmode hbt.self (hshape ht hbt)
      (keeps_shape hmode hkeeps t ht)
  induction s with
  | number | string | boolean =>
      refine expect_blind _ fun v v' hlike => ?_
      obtain rfl | ⟨_, _, rfl, rfl, _⟩ | ⟨_, _, rfl, rfl⟩ := hlike.cases <;> rfl
  | any => exact fun _ _ _ _ _ _ => rfl
  | enum options => exact enum_blind options
  | lazy name target => exact hf target (hs.part .target) (hb.part .target)
  | oneOf options r g d ih =>
      have hoptions : ∀ option ∈ options, Blind ((p.withFollow f).visitor option) :=
        fun option hmem => hpart (hs.part (.option hmem)) (hb.part (.option hmem)) (ih option hmem)
      show BlindShape (oneOf options ((p.withFollow f).visitors options))
      rw [oneOf_eq]
      cases Schema.discriminator? options with
      | none => exact untagged_blind (List.forall_mem_map.mpr hoptions)
      | some key => exact tagged_blind hoptions
  | array items r g d ih => exact array_blind (hpart (hs.part .items) (hb.part .items) ih)
  | object properties r g d ih =>
      show BlindShape ((p.withFollow f).object ((p.withFollow f).propertyVisitors properties))
      rw [propertyVisitors_eq_map]
      refine object_blind (List.forall_mem_map.mpr fun property hmem => ?_)
      exact hpart (hs.part (.property hmem)) (hb.part (.property hmem)) (ih property hmem)
  | map values r g d ih => exact map_blind (hpart (hs.part .values) (hb.part .values) ih)
  | transform e c dec enc r g d ihe ihc =>
      intro path path' v v' hwf hlike
      cases hdir : (p.withFollow f).direction with
      | decode =>
          rw [shape_transform_decode hdir, transform_check (p := p.withFollow f) hmode,
            transform_check (p := p.withFollow f) hmode]
          exact (hpart (hs.part .decoded) (hb.part .decoded) ihc).present _ _ _ _ hwf hlike
      | encode =>
          rw [shape_transform_encode hdir, transform_check (p := p.withFollow f) hmode,
            transform_check (p := p.withFollow f) hmode]
          exact (hpart (hs.part .encoded) (hb.part .encoded) ihe).present _ _ _ _ hwf hlike
  | custom name parent dec r g d ih =>
      intro path path' v v' hwf hlike
      rw [shape]
      cases hdir : (p.withFollow f).direction with
      | decode =>
          rw [custom_decode_check hdir hmode, custom_decode_check hdir hmode]
          rfl
      | encode =>
          rw [custom_encode hdir, custom_encode hdir]
          exact (hpart (hs.part .parent) (hb.part .parent) ih).present _ _ _ _ hwf hlike

theorem blind_visitor {f : String → String → Json → Visit Json} (hmode : p.mode = .check)
    (hkeeps : ∀ target, WellFormed defs (defs.resolve target) → KeepsShape (f target))
    (hf : ∀ target, WellFormed defs (defs.resolve target) → OrderBlind defs (defs.resolve target) →
      BlindShape (f target))
    {s : Schema} (hs : WellFormed defs s) (hb : OrderBlind defs s) :
    Blind ((p.withFollow f).visitor s) :=
  .visitor (p := p.withFollow f) hmode hb.self (blind_shape hmode hkeeps hf s hs hb)
    (keeps_shape hmode hkeeps s hs)

theorem blind_followAt (hmode : p.mode = .check) (n : Nat) (target : String)
    (hs : WellFormed defs (defs.resolve target)) (hb : OrderBlind defs (defs.resolve target)) :
    BlindShape (p.followAt defs n target) := by
  induction n generalizing target with
  | zero => exact fun _ _ _ _ _ _ => rfl
  | succ n ih =>
      rw [followAt, upTo_eq]
      exact (blind_visitor hmode (keeps_followAt hmode n) ih hs hb).present

theorem blind_traverse (hmode : p.mode = .check) {s : Schema} (hs : WellFormed defs s)
    (hb : OrderBlind defs s) : Blind (p.traverse defs s) := by
  intro path path' value value' hwf hlike
  -- the two values have budgets of their own, and any number above both does for both
  let n := max (Traversal.hopBudget defs value) (Traversal.hopBudget defs value')
  rw [← upTo_eq_traverse_of_le (Nat.le_max_left _ _ : _ ≤ n),
    ← upTo_eq_traverse_of_le (Nat.le_max_right _ _ : _ ≤ n), upTo_eq]
  exact blind_visitor hmode (keeps_followAt hmode n) (blind_followAt hmode n) hs hb
    path path' value value' hwf hlike

/-! ## Schemas without codecs -/

section CodecFree

variable {q : Pass}

/-- A node that is no codec is judged by its output in every mode and direction. -/
theorem node_congr {required : Bool} {refinement : Option Refinement}
    {visit : String → Json → Visit Json} :
    p.node false required refinement visit = q.node false required refinement visit := by
  funext path value
  rcases absent_or_present value with hv | ⟨v, rfl, hne⟩
  · rw [node_absent hv, node_absent hv]
  · rw [node_present hne, node_present hne]
    congr 1
    funext output
    unfold judged programValue?
    cases p.direction <;> cases q.direction <;> rfl

theorem object_congr (hconfig : p.config = q.config) : p.object = q.object := by
  funext properties path input
  unfold object
  rw [hconfig]

/-- **Mode and direction concern codecs only.** -/
theorem shape_congr {f f' : String → String → Json → Visit Json} (hconfig : p.config = q.config)
    (hf : ∀ target, CodecFree defs (defs.resolve target) → f target = f' target)
    (s : Schema) (hs : CodecFree defs s) :
    (p.withFollow f).shape s.kind = (q.withFollow f').shape s.kind := by
  have hpart : ∀ {t : Schema}, CodecFree defs t →
      (CodecFree defs t → (p.withFollow f).shape t.kind = (q.withFollow f').shape t.kind) →
      (p.withFollow f).visitor t = (q.withFollow f').visitor t := by
    intro t ht hshape
    rw [visitor_eq, visitor_eq, hshape ht, ht.self]
    exact node_congr
  induction s with
  | number | string | boolean | any | enum => rfl
  | lazy name target => exact hf target (hs.part .target)
  | oneOf options r g d ih =>
      show oneOf options ((p.withFollow f).visitors options) =
        oneOf options ((q.withFollow f').visitors options)
      rw [visitors_eq_map, visitors_eq_map]
      congr 1
      exact List.map_congr_left fun option hmem => hpart (hs.part (.option hmem)) (ih option hmem)
  | array items r g d ih => exact congrArg array (hpart (hs.part .items) ih)
  | object properties r g d ih =>
      show (p.withFollow f).object ((p.withFollow f).propertyVisitors properties) =
        (q.withFollow f').object ((q.withFollow f').propertyVisitors properties)
      rw [propertyVisitors_eq_map, propertyVisitors_eq_map,
        object_congr (p := p.withFollow f) (q := q.withFollow f') hconfig]
      congr 1
      apply List.map_congr_left
      intro property hmem
      rw [hpart (hs.part (.property hmem)) (ih property hmem)]
  | map values r g d ih => exact congrArg map (hpart (hs.part .values) ih)
  | transform => exact hs.not_transform.elim
  | custom => exact hs.not_custom.elim

theorem visitor_congr {f f' : String → String → Json → Visit Json} (hconfig : p.config = q.config)
    (hf : ∀ target, CodecFree defs (defs.resolve target) → f target = f' target)
    {s : Schema} (hs : CodecFree defs s) :
    (p.withFollow f).visitor s = (q.withFollow f').visitor s := by
  rw [visitor_eq, visitor_eq, shape_congr hconfig hf s hs, hs.self]
  exact node_congr

theorem followAt_congr (hconfig : p.config = q.config) (n : Nat) (target : String)
    (hs : CodecFree defs (defs.resolve target)) :
    p.followAt defs n target = q.followAt defs n target := by
  induction n generalizing target with
  | zero => rfl
  | succ n ih =>
      rw [followAt, followAt, upTo_eq, upTo_eq]
      exact congrArg Visit.present (visitor_congr hconfig ih hs)

theorem traverse_congr (hconfig : p.config = q.config) {s : Schema} (hs : CodecFree defs s) :
    p.traverse defs s = q.traverse defs s := by
  funext path value
  unfold traverse
  rw [upTo_eq, upTo_eq, visitor_congr hconfig (followAt_congr hconfig _) hs]

end CodecFree

end Pass

namespace Traversal

variable {defs : Definitions} {config : ValidationConfig} {direction : Direction} {s : Schema}

/-! ## Checks -/

/-- **What a check accepts it hands out as it is**, up to the order of members. -/
theorem check_keeps (hs : WellFormed defs s) : Pass.Keeps (check defs config direction s) := by
  rw [check_eq_traverse]
  exact Pass.keeps_traverse (p := checkPass config direction) rfl hs

/-- **A check treats alike values alike**, wherever they stand. -/
theorem check_blind (hs : WellFormed defs s) (hb : OrderBlind defs s) :
    Pass.Blind (check defs config direction s) := by
  rw [check_eq_traverse]
  exact Pass.blind_traverse (p := checkPass config direction) rfl hs hb

/-- **Without codecs a run is a check**, and the direction does not matter. -/
theorem run_eq_check (direction' : Direction) (hs : CodecFree defs s) :
    run defs config direction s = check defs config direction' s := by
  rw [run_eq_traverse, check_eq_traverse]
  exact Pass.traverse_congr (p := runPass defs config direction)
    (q := checkPass config direction') rfl hs

end Traversal

end RouteContract
