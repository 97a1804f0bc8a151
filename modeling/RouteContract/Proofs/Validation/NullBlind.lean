import RouteContract.Proofs.Schema.OffNull
import RouteContract.Proofs.Validation.Budget

/-!
# NullBlind -- codecs and refinements never see null

A node decides about null and absent values by itself, so the value that a shape is handed is not
null. What its parts make of that value may be handed on, to a conversion, to a refinement or to the
verification of a codec, so the invariant is about outputs: a visitor that accepts a present value
other than null makes such a value of it (`KeepsPresent`), as long as no conversion makes null out of
something else.

With the invariant, a traversal of a schema and one of the same schema without its functions on null
(`Schema.offNull`) go through the same values, in lockstep (`Pass.Forgets.visitor`): they have the
same outcome on everything (`Pass.traverse_offNull`), and so have two schemas that come to the same
one.
-/

namespace RouteContract

open Schema (MakesNoNull discriminator?)

/-! ## What is not null stays so -/

/-- Present values other than null are made into such values. -/
def KeepsPresent (visit : Visitor) : Prop :=
  ∀ path v out, v ≠ .null → visit path (some v) = .ok out → ∃ w, out = some w ∧ w ≠ .null

/-- The same for what is done with present values. -/
def KeepsPresentShape (visit : String → Json → Visit Json) : Prop :=
  ∀ path v out, v ≠ .null → visit path v = .ok out → out ≠ .null

theorem KeepsPresent.present {visit : Visitor} (h : KeepsPresent visit) :
    KeepsPresentShape (Visit.present visit) := by
  intro path v out hne hok
  obtain ⟨o, ho, rfl⟩ := Visit.present_eq_ok_iff.mp hok
  obtain ⟨w, rfl, hw⟩ := h path v o hne ho
  exact hw

namespace Pass

variable {defs : Definitions} {p q : Pass}

theorem node_keeps {isCodec required : Bool} {refinement : Option Refinement}
    {visit : String → Json → Visit Json} (h : KeepsPresentShape visit) :
    KeepsPresent (p.node isCodec required refinement visit) := by
  intro path v out hne hok
  rcases node_eq_ok_iff.mp hok with ⟨habsent, _⟩ | ⟨_, output, hv, _, hvisit, _, rfl⟩
  · simp [Absent, hne] at habsent
  · cases hv
    exact ⟨output, rfl, h path v output hne hvisit⟩

theorem transform_keeps {side : Schema} {input output : Visitor} {conversion : Conversion}
    (hin : KeepsPresent input) (hout : KeepsPresent output)
    (hconversion : ∀ v, v ≠ .null → conversion v ≠ .ok .null) :
    KeepsPresentShape (p.transform side input output conversion) := by
  intro path v out hne hok
  cases hmode : p.mode with
  | check =>
      rw [transform_check hmode] at hok
      exact hout.present path v out hne hok
  | run verify =>
      obtain ⟨accepted, haccepted, hconv, _⟩ := (transform_run_eq_ok_iff hmode).mp hok
      rintro rfl
      exact hconversion accepted (hin.present path v accepted hne haccepted) hconv

theorem custom_keeps {parent : Visitor} {decode : Conversion} (hparent : KeepsPresent parent)
    (hdecode : ∀ v, v ≠ .null → decode v ≠ .ok .null) : KeepsPresentShape (p.custom parent decode) := by
  intro path v out hne hok
  cases hdir : p.direction with
  | encode =>
      rw [custom_encode hdir] at hok
      exact hparent.present path v out hne hok
  | decode =>
      cases hmode : p.mode with
      | check =>
          rw [custom_decode_check hdir hmode] at hok
          cases hok
          exact hne
      | run verify =>
          rw [custom_decode_run hdir hmode, Outcome.bind_eq_ok_iff] at hok
          obtain ⟨accepted, haccepted, hconv⟩ := hok
          rintro rfl
          exact hdecode accepted (hparent.present path v accepted hne haccepted)
            (convert_eq_ok_iff.mp hconv)

/-- Lazy nodes keep what is not null. -/
def FollowKeeps (defs : Definitions) (p : Pass) : Prop :=
  ∀ target, MakesNoNull defs (defs.resolve target) → KeepsPresentShape (p.follow target)

/-- **No shape makes null of anything else**, unless a conversion does. -/
theorem shape_keeps (hfollow : FollowKeeps defs p) (s : Schema) (hs : MakesNoNull defs s) :
    KeepsPresentShape (p.shape s.kind) := by
  have hvisitor : ∀ t, KeepsPresentShape (p.shape t.kind) → KeepsPresent (p.visitor t) :=
    fun t ht => visitor_eq p t ▸ node_keeps ht
  induction s with
  | number | string | boolean =>
      intro path v out hne hok
      exact (Visit.expect_eq_ok_iff.mp hok).2 ▸ hne
  | any =>
      intro path v out hne hok
      cases hok
      exact hne
  | enum options =>
      intro path v out hne hok
      exact (enum_eq_ok_iff.mp hok).2 ▸ hne
  | lazy name target => exact hfollow target (hs.part .target)
  | oneOf options r f d ih =>
      intro path v out hne hok
      obtain ⟨option, hmem, hoption⟩ := oneOf_result hok
      have hkeeps := hvisitor option (ih option hmem (hs.part (.option hmem)))
      exact hkeeps.present path v out hne hoption
  -- containers make containers, whatever is inside
  | array items r f d ih =>
      intro path v out hne hok
      obtain ⟨_, _, _, rfl, _⟩ := array_eq_ok_iff.mp hok
      exact nofun
  | object properties r f d ih =>
      intro path v out hne hok
      obtain ⟨_, _, _, _, _, rfl⟩ := object_eq_ok_iff.mp hok
      exact nofun
  | map values r f d ih =>
      intro path v out hne hok
      obtain ⟨_, _, _, rfl, _⟩ := map_eq_ok_iff.mp hok
      exact nofun
  | transform encoded decoded dec enc r f d ihe ihd =>
      have hencoded := hvisitor encoded (ihe (hs.part .encoded))
      have hdecoded := hvisitor decoded (ihd (hs.part .decoded))
      cases hdir : p.direction with
      | decode =>
          rw [shape_transform_decode hdir]
          exact transform_keeps hencoded hdecoded (hs.self .decode dec rfl)
      | encode =>
          rw [shape_transform_encode hdir]
          exact transform_keeps hdecoded hencoded (hs.self .encode enc rfl)
  | custom name parent dec r f d ih =>
      exact custom_keeps (hvisitor parent (ih (hs.part .parent))) (hs.self .decode dec rfl)

theorem visitor_keeps (hfollow : FollowKeeps defs p) (s : Schema) (hs : MakesNoNull defs s) :
    KeepsPresent (p.visitor s) :=
  visitor_eq p s ▸ node_keeps (shape_keeps hfollow s hs)

theorem followAt_keeps (n : Nat) : FollowKeeps defs (p.withFollow (p.followAt defs n)) := by
  induction n with
  | zero => exact fun _ _ _ _ _ _ hok => nomatch hok
  | succ n ih =>
      intro target ht
      show KeepsPresentShape (p.followAt defs (n + 1) target)
      rw [followAt, upTo_eq]
      exact (visitor_keeps ih _ ht).present

theorem traverse_keeps {s : Schema} (hs : MakesNoNull defs s) : KeepsPresent (p.traverse defs s) := by
  intro path v out hne hok
  rw [traverse, upTo_eq] at hok
  exact visitor_keeps (followAt_keeps _) s hs path v out hne hok

end Pass

/-! ## Passes that forget -/

/-- Both modes check, or both run and verify the same. -/
inductive Mode.Forgets (defs : Definitions) : Mode → Mode → Prop
  | check : Forgets defs .check .check
  | run {verify verify'} (h : ∀ side, MakesNoNull defs side → verify' side.offNull = verify side) :
      Forgets defs (.run verify) (.run verify')

/-- **The second pass is the first one for schemas without functions on null**: it follows every
lazy node and verifies every side in the same way. -/
structure Pass.Forgets (defs : Definitions) (p q : Pass) : Prop where
  direction : q.direction = p.direction
  config : q.config = p.config
  mode : p.mode.Forgets defs q.mode
  keeps : FollowKeeps defs p
  follow : ∀ target, MakesNoNull defs (defs.resolve target) → q.follow target = p.follow target

namespace Pass

variable {defs : Definitions} {p q : Pass}

/-! ## Rules -/

theorem Forgets.programValue?_eq (h : p.Forgets defs q) (isCodec : Bool) (input output : Json) :
    q.programValue? isCodec input output = p.programValue? isCodec input output := by
  obtain ⟨config, direction, mode, follow⟩ := p
  obtain ⟨config', direction', mode', follow'⟩ := q
  obtain ⟨hdirection, _, hmode, _, _⟩ := h
  cases hdirection
  cases hmode <;> rfl

/-- A refinement judges what goes into a node or what comes out of it. -/
theorem programValue?_eq_or {isCodec : Bool} {input output v : Json}
    (h : p.programValue? isCodec input output = some v) : v = input ∨ v = output := by
  unfold programValue? at h
  split at h
  · split at h
    · exact .inl (Option.some.inj h).symm
    · cases h
  · exact .inr (Option.some.inj h).symm

theorem Forgets.judged (h : p.Forgets defs q) {isCodec : Bool} {refinement : Option Refinement}
    {path : String} {input output : Json} (hinput : input ≠ .null) (houtput : output ≠ .null) :
    q.judged isCodec (refinement.map Refinement.offNull) path input output =
      p.judged isCodec refinement path input output := by
  unfold Pass.judged
  rw [h.programValue?_eq]
  cases hv : p.programValue? isCodec input output with
  | none => rfl
  | some v =>
      have hne : v ≠ .null := by
        rcases programValue?_eq_or hv with rfl | rfl
        · exact hinput
        · exact houtput
      cases refinement with
      | none => rfl
      | some judge =>
          dsimp only [Option.map_some]
          rw [Refinement.offNull_of_ne judge hne]

/-- A node is the same for passes that do the same with every value but null. -/
theorem Forgets.node (h : p.Forgets defs q) {isCodec required : Bool}
    {refinement : Option Refinement} {visit visit' : String → Json → Visit Json}
    (hvisit : ∀ path v, v ≠ .null → visit' path v = visit path v) (hkeeps : KeepsPresentShape visit) :
    q.node isCodec required (refinement.map Refinement.offNull) visit' =
      p.node isCodec required refinement visit := by
  funext path value
  rcases absent_or_present value with hv | ⟨input, rfl, hne⟩
  · rw [node_absent hv, node_absent hv]
  · rw [node_present hne, node_present hne, hvisit path input hne]
    cases hok : visit path input with
    | ok output => exact h.judged hne (hkeeps path input output hne hok)
    | failed reason => rfl
    | looping => rfl

/-- A transform hands its conversion what its input side makes of the value, and that is not null. -/
theorem Forgets.transform (h : p.Forgets defs q) {side : Schema} (hside : MakesNoNull defs side)
    {input output : Visitor} {conversion : Conversion} (hin : KeepsPresent input) (path : String)
    {v : Json} (hne : v ≠ .null) :
    q.transform side.offNull input output conversion.offNull path v =
      p.transform side input output conversion path v := by
  obtain ⟨config, direction, mode, follow⟩ := p
  obtain ⟨config', direction', mode', follow'⟩ := q
  obtain ⟨hdirection, hconfig, hmode, _, _⟩ := h
  cases hdirection
  cases hconfig
  cases hmode with
  | check => rfl
  | run hverify =>
      unfold Pass.transform
      cases haccepted : Visit.present input path v with
      | failed reason => rfl
      | looping => rfl
      | ok accepted =>
          have hconverted : convert conversion.offNull path accepted =
              convert conversion path accepted := by
            unfold convert
            rw [Conversion.offNull_of_ne conversion (hin.present path v accepted hne haccepted)]
          dsimp only [Outcome.bind_ok]
          rw [hconverted, hverify side hside]

theorem Forgets.custom (h : p.Forgets defs q) {parent : Visitor} {decode : Conversion}
    (hparent : KeepsPresent parent) (path : String) {v : Json} (hne : v ≠ .null) :
    q.custom parent decode.offNull path v = p.custom parent decode path v := by
  obtain ⟨config, direction, mode, follow⟩ := p
  obtain ⟨config', direction', mode', follow'⟩ := q
  obtain ⟨hdirection, _, hmode, _, _⟩ := h
  cases hdirection
  cases direction with
  | encode => cases hmode <;> rfl
  | decode =>
      cases hmode with
      | check => rfl
      | run _ =>
          unfold Pass.custom
          cases haccepted : Visit.present parent path v with
          | failed reason => rfl
          | looping => rfl
          | ok accepted =>
              dsimp only [Outcome.bind_ok]
              unfold convert
              rw [Conversion.offNull_of_ne decode (hparent.present path v accepted hne haccepted)]

/-- The tag is read from the value and from the literals, so the same option is taken. -/
theorem tagged_offNull {key : String} {options : List Schema}
    (h : ∀ option ∈ options, q.visitor option.offNull = p.visitor option) :
    tagged key (branches (options.map Schema.offNull) q.visitor) =
      tagged key (branches options p.visitor) := by
  have hselects : ∀ tag : Json, (fun option : Schema => option.selects key tag) ∘ Schema.offNull =
      fun option => option.selects key tag :=
    fun tag => funext fun option => (Schema.readsAlike_offNull option).selects_eq key tag
  funext path input
  unfold tagged
  rw [map_fst_branches, map_fst_branches,
    Schema.tags_congr (Schema.forall₂_readsAlike_offNull options)]
  cases input.members? with
  | none => rfl
  | some ms =>
      dsimp only
      cases Entries.get? ms key with
      | none => rfl
      | some tag =>
          dsimp only
          rw [find?_branches, find?_branches, List.find?_map, hselects]
          cases hfind : options.find? fun option => option.selects key tag with
          | none => rfl
          | some option =>
              dsimp only [Option.map_some]
              rw [h option (List.mem_of_find?_eq_some hfind)]

/-! ## The recursion -/

theorem Forgets.visitor_of_shape (h : p.Forgets defs q) {s : Schema} (hs : MakesNoNull defs s)
    (hshape : ∀ path v, v ≠ .null →
      q.shape (Schema.offNullKind s.kind) path v = p.shape s.kind path v) :
    q.visitor s.offNull = p.visitor s := by
  rw [visitor_eq, visitor_eq, Schema.offNull_kind, Schema.offNull_required,
    Schema.offNull_refinement, Schema.isCodec_offNullKind]
  exact h.node hshape (shape_keeps h.keeps s hs)

/-- **A visitor does not know what functions do on null.** -/
theorem Forgets.visitor (h : p.Forgets defs q) (s : Schema) (hs : MakesNoNull defs s) :
    q.visitor s.offNull = p.visitor s := by
  induction s with
  | number | string | boolean | any | enum => exact h.visitor_of_shape hs fun _ _ _ => rfl
  | lazy name target =>
      exact h.visitor_of_shape hs fun path v _ => congrFun₂ (h.follow target (hs.part .target)) path v
  | oneOf options r f d ih =>
      have hoptions : ∀ option ∈ options, q.visitor option.offNull = p.visitor option :=
        fun option hmem => ih option hmem (hs.part (.option hmem))
      refine h.visitor_of_shape hs fun path v _ => ?_
      show oneOf (Schema.offNullList options) (q.visitors (Schema.offNullList options)) path v =
        oneOf options (p.visitors options) path v
      rw [Schema.offNullList_eq_map, oneOf_eq, oneOf_eq, Schema.discriminator?_offNull]
      cases discriminator? options with
      | some key => exact congrFun₂ (tagged_offNull hoptions) path v
      | none =>
          have hvisitors : (options.map Schema.offNull).map q.visitor = options.map p.visitor := by
            rw [List.map_map]
            exact List.map_congr_left hoptions
          dsimp only
          rw [hvisitors]
  | array items r f d ih =>
      refine h.visitor_of_shape hs fun path v _ => ?_
      show array (q.visitor items.offNull) path v = array (p.visitor items) path v
      rw [ih (hs.part .items)]
  | object properties r f d ih =>
      have hvisitors : q.propertyVisitors (Schema.offNullProperties properties) =
          p.propertyVisitors properties := by
        rw [Schema.offNullProperties_eq_map, propertyVisitors_eq_map, propertyVisitors_eq_map,
          Entries.mapValues, Entries.mapValues, Entries.mapValues, List.map_map]
        refine List.map_congr_left fun property hmem => ?_
        exact Prod.ext rfl (ih property hmem (hs.part (.property hmem)))
      refine h.visitor_of_shape hs fun path v _ => ?_
      show q.object (q.propertyVisitors (Schema.offNullProperties properties)) path v =
        p.object (p.propertyVisitors properties) path v
      rw [hvisitors, Pass.object, Pass.object, h.config]
  | map values r f d ih =>
      refine h.visitor_of_shape hs fun path v _ => ?_
      show map (q.visitor values.offNull) path v = map (p.visitor values) path v
      rw [ih (hs.part .values)]
  | transform encoded decoded dec enc r f d ihe ihd =>
      have hse := hs.part .encoded
      have hsd := hs.part .decoded
      refine h.visitor_of_shape hs fun path v hne => ?_
      dsimp only [Schema.offNullKind]
      cases hdir : p.direction with
      | decode =>
          rw [shape_transform_decode hdir, shape_transform_decode (h.direction.trans hdir), ihe hse,
            ihd hsd]
          exact h.transform hsd (visitor_keeps h.keeps encoded hse) path hne
      | encode =>
          rw [shape_transform_encode hdir, shape_transform_encode (h.direction.trans hdir), ihe hse,
            ihd hsd]
          exact h.transform hse (visitor_keeps h.keeps decoded hsd) path hne
  | custom name parent dec r f d ih =>
      have hs' := hs.part .parent
      refine h.visitor_of_shape hs fun path v hne => ?_
      show q.custom (q.visitor parent.offNull) dec.offNull path v =
        p.custom (p.visitor parent) dec path v
      rw [ih hs']
      exact h.custom (visitor_keeps h.keeps parent hs') path hne

/-! ## All references -/

/-- **A traversal does not know what functions do on null.** -/
theorem traverse_offNull (hdirection : q.direction = p.direction) (hconfig : q.config = p.config)
    (hmode : p.mode.Forgets defs q.mode) {s : Schema} (hs : MakesNoNull defs s) :
    q.traverse defs.offNull s.offNull = p.traverse defs s := by
  have hpass : ∀ n, (p.withFollow (p.followAt defs n)).Forgets defs
      (q.withFollow (q.followAt defs.offNull n)) := by
    intro n
    -- on the number of references that may be followed, the same in both traversals
    induction n with
    | zero => exact ⟨hdirection, hconfig, hmode, followAt_keeps 0, fun _ _ => rfl⟩
    | succ n ih =>
        refine ⟨hdirection, hconfig, hmode, followAt_keeps (n + 1), fun target ht => ?_⟩
        show Visit.present (q.upTo defs.offNull n (defs.offNull.resolve target)) =
          Visit.present (p.upTo defs n (defs.resolve target))
        rw [upTo_eq, upTo_eq, Definitions.resolve_offNull, ih.visitor _ ht]
  funext path value
  rw [traverse, traverse, upTo_eq, upTo_eq, Traversal.hopBudget, Traversal.hopBudget,
    Definitions.size_offNull, (hpass _).visitor s hs]

end Pass

namespace Traversal

variable {defs : Definitions} {config : ValidationConfig} {direction : Direction} {s : Schema}

theorem check_offNull (hs : MakesNoNull defs s) :
    check defs.offNull config direction s.offNull = check defs config direction s :=
  Pass.traverse_offNull (p := checkPass config direction) (q := checkPass config direction) rfl rfl
    .check hs

theorem run_offNull (hs : MakesNoNull defs s) :
    run defs.offNull config direction s.offNull = run defs config direction s :=
  Pass.traverse_offNull (p := runPass defs config direction)
    (q := runPass defs.offNull config direction) rfl rfl
    (.run fun _ hside => congrArg Visit.present (check_offNull hside)) hs

end Traversal

namespace Validator

/-- The validator of the same schema with functions that do nothing on null. -/
def offNull (validator : Validator) : Validator :=
  { validator with
    schema := validator.schema.offNull
    definitions := validator.definitions.offNull }

theorem validateOptional_offNull {validator : Validator}
    (hnull : MakesNoNull validator.definitions validator.schema) :
    validator.offNull.validateOptional = validator.validateOptional := by
  funext value
  show (Traversal.run validator.definitions.offNull validator.config validator.direction
    validator.schema.offNull "" value).mapReason _ = _
  rw [Traversal.run_offNull hnull]
  rfl

/-- **Codecs and refinements never see null.** Take a schema whose conversions make no null out of
other values, at any depth, in codec sides and in definitions. A validator whose schema differs from
it only in what its conversions and refinements do on null has the same outcome on every value,
present, null or absent, report included. And a present value other than null is never accepted with
null, nor with nothing. -/
theorem never_shows_null (validator other : Validator) (hsame : other.offNull = validator.offNull)
    (hnull : MakesNoNull validator.definitions validator.schema) :
    (∀ value, other.validateOptional value = validator.validateOptional value) ∧
      ∀ v out, v ≠ .null → validator.validateOptional (some v) = .ok out →
        ∃ w, out = some w ∧ w ≠ .null := by
  refine ⟨fun value => ?_, fun v out hne hok => ?_⟩
  · have hoff : MakesNoNull other.definitions other.schema := by
      have hschema : other.schema.offNull = validator.schema.offNull := congrArg schema hsame
      have hdefs : other.definitions.offNull = validator.definitions.offNull :=
        congrArg definitions hsame
      rw [← Schema.makesNoNull_offNull_iff, hschema, hdefs]
      exact Schema.makesNoNull_offNull_iff.mpr hnull
    rw [← validateOptional_offNull hoff, hsame, validateOptional_offNull hnull]
  · rw [validateOptional_eq_ok_iff, Traversal.run_eq_traverse] at hok
    exact Pass.traverse_keeps hnull "" v out hne hok

end Validator

/-! ## A recursive schema with a cast -/

/-- The boolean cast with an answer for null, which the cast refuses. -/
def readEagerly : Conversion
  | .null => .ok (.bool false)
  | v => Cast.onString Cast.readBoolean v

/-- A switch that reads null as off, and perhaps another one behind it. -/
def eagerSwitch : Schema :=
  ⟨.object [("on", ⟨.transform .string .boolean readEagerly Cast.writeBoolean, true, none, none⟩),
    ("next", ⟨.lazy "Switch" "Switch", false, none, none⟩)], true, none, none⟩

theorem offNull_eagerSwitch : eagerSwitch.offNull = switch.offNull := by
  have hread : readEagerly.offNull = Conversion.offNull (Cast.onString Cast.readBoolean) := by
    refine Conversion.offNull_eq_iff.mpr fun v hne => ?_
    cases v <;> first | rfl | exact absurd rfl hne
  unfold eagerSwitch
  simp only [Schema.offNull, Schema.offNullKind, Schema.offNullProperties, hread]
  rfl

/-- Null settings are refused before the cast that has an answer for them, and a null link is passed
on without it. -/
theorem never_shows_null_switches :
    let plain : Validator := { schema := switch, definitions := switches }
    let eager : Validator := { schema := eagerSwitch, definitions := ⟨[("Switch", eagerSwitch)]⟩ }
    let unset := Json.obj [("on", .str "true"), ("next", .obj [("on", .null)])]
    let last := Json.obj [("on", .str "true"), ("next", .null)]
    eager.offNull = plain.offNull ∧ MakesNoNull switches switch ∧
      readEagerly .null ≠ Cast.onString Cast.readBoolean .null ∧
      eager.validateOptional (some unset) =
        .failed (Report.ofFindings [⟨"next.on", "is required"⟩]) ∧
      eager.validateOptional (some last) = .ok (some (.obj [("on", .bool true), ("next", .null)])) ∧
      ∀ out, plain.validateOptional (some last) = .ok out → ∃ w, out = some w ∧ w ≠ .null := by
  intro plain eager unset last
  have hsame : eager.offNull = plain.offNull := by
    show (⟨eagerSwitch.offNull, ⟨[("Switch", eagerSwitch.offNull)]⟩, .decode, {}⟩ : Validator) =
      ⟨switch.offNull, ⟨[("Switch", switch.offNull)]⟩, .decode, {}⟩
    rw [offNull_eagerSwitch]
  have hnull : MakesNoNull switches switch := neverNull_switch.makesNoNull
  obtain ⟨hblind, hkeeps⟩ := plain.never_shows_null eager hsame hnull
  refine ⟨hsame, hnull, nofun, ?_, ?_, fun out => hkeeps last out nofun⟩
  · rw [hblind]
    rfl
  · rw [hblind]
    rfl

end RouteContract
