import RouteContract.Proofs.Schema.Relaxed
import RouteContract.Proofs.Validation.Budget

/-!
# Relaxation -- clearing flags only widens what is accepted

Two runs are compared, of a schema and of a relaxed one, under a configuration and a relaxed one
(`Pass.Relaxed`). Whatever the first accepts the second accepts with the same output (`Widens`). Each
rule passes this on from its parts: codecs and refinements are handed the same values in both runs,
because the parts made the same of theirs, and the second run only asks less.

Ordered trial does not fit in. An earlier option that refused a value may accept it once it is
relaxed, and hand out something else. So every union has to go by a tag, which is read off the value
and the literals and not changed by relaxing (`Schema.discriminator?_congr`).
-/

namespace RouteContract

open Schema (Discriminated discriminator?)

/-! ## Visitors that accept more, and passes that ask less -/

/-- What the one visitor accepts the other one accepts, with the same output. -/
def Widens (visit visit' : Visitor) : Prop :=
  ∀ path value out, visit path value = .ok out → visit' path value = .ok out

/-- The same for what is done with present values. -/
def WidensShape (visit visit' : String → Json → Visit Json) : Prop :=
  ∀ path v out, visit path v = .ok out → visit' path v = .ok out

theorem Widens.present {visit visit' : Visitor} (h : Widens visit visit') :
    WidensShape (Visit.present visit) (Visit.present visit') := by
  intro path v out hok
  obtain ⟨o, ho, hout⟩ := Visit.present_eq_ok_iff.mp hok
  exact Visit.present_eq_ok_iff.mpr ⟨o, h path (some v) o ho, hout⟩

/-- Unknown members are refused and results verified only where they were before. -/
structure ValidationConfig.Relaxed (config config' : ValidationConfig) : Prop where
  strictObjects : config'.strictObjects = true → config.strictObjects = true
  verifyOutput : config'.verifyOutput = true → config.verifyOutput = true

/-- Both modes check, or both run and what the one verifies the other one verifies. -/
inductive Mode.Relaxed (defs defs' : Definitions) : Mode → Mode → Prop
  | check : Relaxed defs defs' .check .check
  | run {verify verify'} (h : ∀ s s', Schema.Relaxed defs defs' s s' → Discriminated defs s →
      WidensShape (verify s) (verify' s')) : Relaxed defs defs' (.run verify) (.run verify')

theorem Mode.Relaxed.cases {defs defs' : Definitions} {mode mode' : Mode}
    (h : mode.Relaxed defs defs' mode') :
    (mode = .check ∧ mode' = .check) ∨ ∃ verify verify', mode = .run verify ∧ mode' = .run verify' ∧
      ∀ s s', Schema.Relaxed defs defs' s s' → Discriminated defs s →
        WidensShape (verify s) (verify' s') := by
  cases h with
  | check => exact .inl ⟨rfl, rfl⟩
  | run h => exact .inr ⟨_, _, rfl, rfl, h⟩

/-- **A pass that asks no more than another one**: the same direction, a relaxed configuration, and
relaxed definitions. -/
structure Pass.Relaxed (defs defs' : Definitions) (p q : Pass) : Prop where
  direction : q.direction = p.direction
  config : p.config.Relaxed q.config
  mode : p.mode.Relaxed defs defs' q.mode
  follow : ∀ target target', Schema.Relaxed defs defs' (defs.resolve target) (defs'.resolve target') →
    Discriminated defs (defs.resolve target) → WidensShape (p.follow target) (q.follow target')

namespace Pass

variable {defs defs' : Definitions} {p q : Pass}

/-! ## Rules -/

/-- In related passes refinements judge the same values. -/
theorem Relaxed.programValue?_eq (h : p.Relaxed defs defs' q) (isCodec : Bool)
    (input output : Json) :
    q.programValue? isCodec input output = p.programValue? isCodec input output := by
  unfold programValue?
  rw [h.direction]
  rcases h.mode.cases with ⟨hmode, hmode'⟩ | ⟨_, _, hmode, hmode', _⟩ <;> rw [hmode, hmode']

theorem Relaxed.node (h : p.Relaxed defs defs' q) {isCodec required required' : Bool}
    {refinement : Option Refinement} {visit visit' : String → Json → Visit Json}
    (hrequired : required' = true → required = true) (hvisit : WidensShape visit visit') :
    Widens (p.node isCodec required refinement visit)
      (q.node isCodec required' refinement visit') := by
  intro path value out hok
  rcases node_eq_ok_iff.mp hok with ⟨habsent, hfalse, rfl⟩ | ⟨v, o, rfl, hne, hv, hpass, rfl⟩
  · refine node_eq_ok_iff.mpr (.inl ⟨habsent, ?_, rfl⟩)
    by_contra hrequired'
    rw [hrequired (Bool.not_eq_false _ ▸ hrequired')] at hfalse
    cases hfalse
  · refine node_eq_ok_iff.mpr (.inr ⟨v, o, rfl, hne, hvisit path v o hv, ?_, rfl⟩)
    intro x judge hx hjudge
    exact hpass x judge (h.programValue?_eq isCodec v o ▸ hx) hjudge

theorem array_widens {items items' : Visitor} (h : Widens items items') :
    WidensShape (array items) (array items') := by
  intro path v out hok
  obtain ⟨xs, ys, rfl, rfl, hys⟩ := array_eq_ok_iff.mp hok
  exact array_eq_ok_iff.mpr ⟨xs, ys, rfl, rfl, hys.imp fun _ _ hy => h.present _ _ _ hy⟩

theorem map_widens {values values' : Visitor} (h : Widens values values') :
    WidensShape (map values) (map values') := by
  intro path v out hok
  obtain ⟨ms, ns, rfl, rfl, hns⟩ := map_eq_ok_iff.mp hok
  exact map_eq_ok_iff.mpr
    ⟨ms, ns, rfl, rfl, hns.imp fun _ _ hn => ⟨hn.1, h.present _ _ _ hn.2⟩⟩

/-- The same names are declared, so the same members are carried through, and they are refused by
the strict pass only. -/
theorem Relaxed.object (h : p.Relaxed defs defs' q)
    {properties properties' : List (String × Visitor)}
    (hproperties : List.Forall₂ (fun e e' => e.1 = e'.1 ∧ Widens e.2 e'.2) properties properties') :
    WidensShape (p.object properties) (q.object properties') := by
  intro path v out hok
  obtain ⟨ms, fields, rfl, hfields, hadmitted, rfl⟩ := object_eq_ok_iff.mp hok
  have hhas : ∀ key, Entries.has properties' key = Entries.has properties key := by
    intro key
    rw [Bool.eq_iff_iff, Entries.has_iff_mem_keys, Entries.has_iff_mem_keys,
      Entries.keys_eq_of_forall₂ hproperties]
  have hfields' : List.Forall₂ (DeclaredField path ms) properties' fields := by
    clear hok hadmitted hhas
    induction hproperties generalizing fields with
    | nil => exact hfields
    | @cons e e' _ _ he _ ih =>
        cases hfields with
        | cons hfield hrest =>
            refine .cons ⟨hfield.1.trans he.1, ?_⟩ (ih _ hrest)
            rw [← he.1]
            exact he.2 _ _ _ hfield.2
  refine object_eq_ok_iff.mpr ⟨ms, fields, rfl, hfields', ?_, ?_⟩
  · intro hstrict m hm
    rw [hhas]
    exact hadmitted (h.config.strictObjects hstrict) m hm
  · simp only [carried, hhas]

/-- The option that a tag selects and its counterpart are found together. -/
theorem find?_selects {options options' : List Schema} {key : String} {tag : Json} {option : Schema}
    (h : List.Forall₂ (Schema.Relaxed defs defs') options options')
    (hfind : options.find? (fun option => option.selects key tag) = some option) :
    ∃ option', Schema.Relaxed defs defs' option option' ∧
      options'.find? (fun option => option.selects key tag) = some option' := by
  induction h with
  | nil => cases hfind
  | @cons s s' _ _ hs _ ih =>
      rw [List.find?_cons] at hfind ⊢
      rw [(Schema.Relaxed.readsAlike hs).selects_eq]
      cases hselects : s.selects key tag with
      | true =>
          rw [hselects] at hfind
          cases hfind
          exact ⟨s', hs, rfl⟩
      | false =>
          rw [hselects] at hfind
          exact ih hfind

theorem oneOf_widens {options options' : List Schema} {key : String}
    (h : List.Forall₂ (Schema.Relaxed defs defs') options options')
    (hkey : discriminator? options = some key)
    (hvisit : ∀ option ∈ options, ∀ option', Schema.Relaxed defs defs' option option' →
      Widens (p.visitor option) (q.visitor option')) :
    WidensShape (oneOf options (p.visitors options)) (oneOf options' (q.visitors options')) := by
  rw [oneOf_eq, oneOf_eq, Schema.discriminator?_congr (h.imp fun _ _ => Schema.Relaxed.readsAlike),
    hkey]
  intro path v out hok
  obtain ⟨ms, tag, option, rfl, htag, hfind, hoption⟩ := tagged_eq_ok_iff.mp hok
  obtain ⟨option', hrelaxed, hfind'⟩ := find?_selects h hfind
  have hmem := List.mem_of_find?_eq_some hfind
  exact tagged_eq_ok_iff.mpr ⟨ms, tag, option', rfl, htag, hfind',
    (hvisit option hmem option' hrelaxed).present _ _ _ hoption⟩

/-- A codec is handed the same value, so it makes the same of it, which is verified no more
strictly than before. -/
theorem Relaxed.transform (h : p.Relaxed defs defs' q) {side side' : Schema}
    (hside : Schema.Relaxed defs defs' side side') (hdisc : Discriminated defs side)
    {input input' output output' : Visitor} {conversion : Conversion}
    (hin : Widens input input') (hout : Widens output output') :
    WidensShape (p.transform side input output conversion)
      (q.transform side' input' output' conversion) := by
  intro path v out hok
  rcases h.mode.cases with ⟨hmode, hmode'⟩ | ⟨_, _, hmode, hmode', hverify⟩
  · rw [transform_check hmode] at hok
    rw [transform_check hmode']
    exact hout.present path v out hok
  · obtain ⟨accepted, haccepted, hconv, hverified⟩ := (transform_run_eq_ok_iff hmode).mp hok
    refine (transform_run_eq_ok_iff hmode').mpr
      ⟨accepted, hin.present _ _ _ haccepted, hconv, fun hconfig => ?_⟩
    obtain ⟨o, ho⟩ := hverified (h.config.verifyOutput hconfig)
    exact ⟨o, hverify _ _ hside hdisc _ _ _ ho⟩

theorem Relaxed.custom (h : p.Relaxed defs defs' q) {parent parent' : Visitor}
    {decode : Conversion} (hparent : Widens parent parent') :
    WidensShape (p.custom parent decode) (q.custom parent' decode) := by
  intro path v out hok
  cases hdir : p.direction with
  | encode =>
      rw [custom_encode hdir] at hok
      rw [custom_encode (h.direction.trans hdir)]
      exact hparent.present path v out hok
  | decode =>
      rcases h.mode.cases with ⟨hmode, hmode'⟩ | ⟨_, _, hmode, hmode', _⟩
      · rw [custom_decode_check hdir hmode] at hok
        rw [custom_decode_check (h.direction.trans hdir) hmode']
        exact hok
      · rw [custom_decode_run hdir hmode, Outcome.bind_eq_ok_iff] at hok
        rw [custom_decode_run (h.direction.trans hdir) hmode', Outcome.bind_eq_ok_iff]
        exact hok.imp fun accepted ha => ⟨hparent.present _ _ _ ha.1, ha.2⟩

/-! ## The recursion -/

theorem Relaxed.visitor_of_shape (h : p.Relaxed defs defs' q) {s s' : Schema}
    (hs : Schema.Relaxed defs defs' s s') (hshape : WidensShape (p.shape s.kind) (q.shape s'.kind)) :
    Widens (p.visitor s) (q.visitor s') := by
  rw [visitor_eq, visitor_eq, hs.kind.isCodec_eq, hs.refinement]
  exact h.node hs.required hshape

/-- **A shape with relaxed schemas inside accepts what the shape accepts**, with the same output. -/
theorem Relaxed.shape (h : p.Relaxed defs defs' q) (s : Schema) {k' : Kind Schema}
    (hk : s.kind.Matches defs defs' (Schema.Relaxed defs defs') k') (hd : Discriminated defs s) :
    WidensShape (p.shape s.kind) (q.shape k') := by
  induction s generalizing k' with
  | number | string | boolean | any | enum =>
      cases hk
      exact fun _ _ _ hok => hok
  | lazy name target =>
      cases hk with
      | lazy ht => exact h.follow _ _ ht (hd.part .target)
  | oneOf options r f d ih =>
      cases hk with
      | oneOf hoptions =>
          obtain ⟨key, hkey⟩ := Option.isSome_iff_exists.mp (hd.self options rfl)
          refine oneOf_widens hoptions hkey fun option hmem option' ho => ?_
          exact h.visitor_of_shape ho (ih option hmem ho.kind (hd.part (.option hmem)))
  | array items r f d ih =>
      cases hk with
      | array hi => exact array_widens (h.visitor_of_shape hi (ih hi.kind (hd.part .items)))
  | object properties r f d ih =>
      cases hk with
      | @object _ properties' hproperties =>
          show WidensShape (p.object (p.propertyVisitors properties))
            (q.object (q.propertyVisitors properties'))
          rw [propertyVisitors_eq_map, propertyVisitors_eq_map]
          refine h.object ?_
          rw [Entries.mapValues, Entries.mapValues, List.forall₂_map_left_iff,
            List.forall₂_map_right_iff]
          refine ((List.forall₂_and_left _ _).mpr ⟨fun _ hmem => hmem, hproperties⟩).imp ?_
          rintro property property' ⟨hmem, hname, hp⟩
          exact ⟨hname, h.visitor_of_shape hp (ih property hmem hp.kind (hd.part (.property hmem)))⟩
  | map values r f d ih =>
      cases hk with
      | map hv => exact map_widens (h.visitor_of_shape hv (ih hv.kind (hd.part .values)))
  | transform encoded decoded dec enc r f d ihe ihd =>
      cases hk with
      | transform he hdec =>
          have hencoded := h.visitor_of_shape he (ihe he.kind (hd.part .encoded))
          have hdecoded := h.visitor_of_shape hdec (ihd hdec.kind (hd.part .decoded))
          cases hdir : p.direction with
          | decode =>
              rw [shape_transform_decode hdir, shape_transform_decode (h.direction.trans hdir)]
              exact h.transform hdec (hd.part .decoded) hencoded hdecoded
          | encode =>
              rw [shape_transform_encode hdir, shape_transform_encode (h.direction.trans hdir)]
              exact h.transform he (hd.part .encoded) hdecoded hencoded
  | custom name parent dec r f d ih =>
      cases hk with
      | custom hp => exact h.custom (h.visitor_of_shape hp (ih hp.kind (hd.part .parent)))

theorem Relaxed.visitor (h : p.Relaxed defs defs' q) {s s' : Schema}
    (hs : Schema.Relaxed defs defs' s s') (hd : Discriminated defs s) :
    Widens (p.visitor s) (q.visitor s') :=
  h.visitor_of_shape hs (h.shape s hs.kind hd)

/-! ## All references -/

/-- **A relaxed traversal accepts what the traversal accepts**, with the same output. -/
theorem traverse_widens (hdirection : q.direction = p.direction)
    (hconfig : p.config.Relaxed q.config) (hmode : p.mode.Relaxed defs defs' q.mode) {s s' : Schema}
    (hs : Schema.Relaxed defs defs' s s') (hd : Discriminated defs s) :
    Widens (p.traverse defs s) (q.traverse defs' s') := by
  have hpass : ∀ n, (p.withFollow (p.followAt defs n)).Relaxed defs defs'
      (q.withFollow (q.followAt defs' n)) := by
    intro n
    -- on the number of references that may be followed, the same in both runs
    induction n with
    | zero => exact ⟨hdirection, hconfig, hmode, fun _ _ _ _ _ _ _ hok => nomatch hok⟩
    | succ n ih =>
        refine ⟨hdirection, hconfig, hmode, fun target target' ht hdt => ?_⟩
        show WidensShape (p.followAt defs (n + 1) target) (q.followAt defs' (n + 1) target')
        rw [followAt, followAt, upTo_eq, upTo_eq]
        exact (ih.visitor ht hdt).present
  intro path value out hok
  have hupTo : q.upTo defs' (Traversal.hopBudget defs value) s' path value = .ok out := by
    rw [upTo_eq]
    refine (hpass _).visitor hs hd path value out ?_
    rw [← upTo_eq]
    exact hok
  rw [← upTo_eq_traverse (by rw [hupTo]; exact nofun), hupTo]

end Pass

namespace Traversal

variable {defs defs' : Definitions} {config config' : ValidationConfig} {direction : Direction}

theorem check_widens (hconfig : config.Relaxed config') {s s' : Schema}
    (hs : Schema.Relaxed defs defs' s s') (hd : Discriminated defs s) :
    Widens (check defs config direction s) (check defs' config' direction s') :=
  Pass.traverse_widens (p := checkPass config direction) (q := checkPass config' direction) rfl
    hconfig .check hs hd

theorem run_widens (hconfig : config.Relaxed config') {s s' : Schema}
    (hs : Schema.Relaxed defs defs' s s') (hd : Discriminated defs s) :
    Widens (run defs config direction s) (run defs' config' direction s') :=
  Pass.traverse_widens (p := runPass defs config direction) (q := runPass defs' config' direction)
    rfl hconfig (.run fun _ _ hside hd => (check_widens hconfig hside hd).present) hs hd

end Traversal

namespace Validator

/-- **Relaxing only widens what is accepted.** Take a validator all of whose unions go by a tag, and
another one of the same direction, whose schema is the same with some required flags cleared, at any
depth, in codec sides and in definitions, and whose configuration refuses unknown members and
verifies what codecs make no more than the first. Every value that the first accepts, null and absent
ones included, the second accepts with the same output. -/
theorem relaxed_accepts (validator relaxed : Validator)
    (hdirection : relaxed.direction = validator.direction)
    (hconfig : validator.config.Relaxed relaxed.config)
    (hschema : Schema.Relaxed validator.definitions relaxed.definitions validator.schema
      relaxed.schema)
    (hunions : Discriminated validator.definitions validator.schema) {value out : Option Json}
    (hok : validator.validateOptional value = .ok out) :
    relaxed.validateOptional value = .ok out := by
  rw [validateOptional_eq_ok_iff] at hok ⊢
  rw [hdirection]
  exact Traversal.run_widens hconfig hschema hunions "" value out hok

end Validator

/-! ## A recursive schema with a cast -/

/-- The boolean cast with both of its sides optional. -/
def looseCast : Schema :=
  ⟨.transform Schema.string.asOptional Schema.boolean.asOptional
    (Cast.onString Cast.readBoolean) Cast.writeBoolean, false, none, none⟩

/-- A switch all of whose nodes are optional. -/
def looseSwitch : Schema :=
  ⟨.object [("on", looseCast), ("next", ⟨.lazy "Switch" "Switch", false, none, none⟩)], false, none,
    none⟩

theorem relaxed_switch : Schema.Relaxed switches ⟨[("Switch", looseSwitch)]⟩ switch looseSwitch := by
  refine ⟨fun s s' => (s = switch ∧ s' = looseSwitch) ∨ (s = .castBoolean ∧ s' = looseCast) ∨
    (s = ⟨.lazy "Switch" "Switch", false, none, none⟩ ∧ s' = s) ∨
    ((s = .string ∨ s = .boolean) ∧ s' = s.asOptional), ⟨?_, ?_, ?_⟩, .inl ⟨rfl, rfl⟩⟩
  · rintro s s' (⟨rfl, rfl⟩ | ⟨rfl, rfl⟩ | ⟨rfl, rfl⟩ | ⟨_, rfl⟩) h
    · rfl
    · rfl
    · exact h
    · cases h
  · rintro s s' (⟨rfl, rfl⟩ | ⟨rfl, rfl⟩ | ⟨rfl, rfl⟩ | ⟨_, rfl⟩) <;> rfl
  · rintro s s' (⟨rfl, rfl⟩ | ⟨rfl, rfl⟩ | ⟨rfl, rfl⟩ | ⟨rfl | rfl, rfl⟩)
    · exact .object (.cons ⟨rfl, .inr (.inl ⟨rfl, rfl⟩)⟩
        (.cons ⟨rfl, .inr (.inr (.inl ⟨rfl, rfl⟩))⟩ .nil))
    · exact .transform (.inr (.inr (.inr ⟨.inl rfl, rfl⟩))) (.inr (.inr (.inr ⟨.inr rfl, rfl⟩)))
    · exact .lazy (.inl ⟨rfl, rfl⟩)
    · exact .string
    · exact .boolean

theorem discriminated_switch : Discriminated switches switch := by
  refine inSwitch.imp fun s hs options hkind => ?_
  rcases hs with rfl | rfl | rfl | rfl | rfl <;> cases hkind

/-- Two switches, one behind the other, without anything that is optional. -/
theorem relaxed_accepts_switches :
    let wire := Json.obj [("next", .obj [("on", .str "false")]), ("on", .str "true")]
    let decoded := Json.obj [("on", .bool true), ("next", .obj [("on", .bool false)])]
    let strict : Validator :=
      { schema := switch, definitions := switches, config := { strictObjects := true } }
    let loose : Validator :=
      { schema := looseSwitch, definitions := ⟨[("Switch", looseSwitch)]⟩
        config := { verifyOutput := false } }
    strict.config.Relaxed loose.config ∧
      strict.validateOptional (some wire) = .ok (some decoded) ∧
      loose.validateOptional (some wire) = .ok (some decoded) := by
  intro wire decoded strict loose
  have hconfig : strict.config.Relaxed loose.config := ⟨nofun, nofun⟩
  have hok : strict.validateOptional (some wire) = .ok (some decoded) := rfl
  exact ⟨hconfig, hok, strict.relaxed_accepts loose rfl hconfig relaxed_switch discriminated_switch
    hok⟩

/-- With ordered trial the output may be another one: once the second member is optional, the first
option is taken and its cast runs. -/
example :
    let options := fun required => [.object [("on", .castBoolean), ("next", ⟨.boolean, required, none,
      none⟩)], Schema.object []]
    let value := Json.obj [("on", .str "true")]
    let strict : Validator := { schema := .oneOf (options true) }
    let loose : Validator := { schema := .oneOf (options false) }
    strict.validate value = .ok value ∧ loose.validate value = .ok (.obj [("on", .bool true)]) :=
  ⟨rfl, rfl⟩

end RouteContract
