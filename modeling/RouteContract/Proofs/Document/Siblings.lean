import RouteContract.Proofs.Document.Nullable
import RouteContract.Proofs.Document.References

/-!
# Siblings -- what stands beside a reference

A reference to a definition has no room for anything else: a schema object is bare if no reference
in it, at any depth, has a sibling (`SchemaObject.Bare`). A node wraps the reference before it adds
its flag and its description, but a custom codec writes its title on what its parent compiled to,
whatever that is. So the references in a compiled schema are those of the nodes that are lazy on the
wire, each with the title of the custom codec over it if there is one (`Describe.contains_ref_iff`),
and a compiled schema is bare unless a custom codec stands over a lazy node
(`Describe.bare_wireObject_iff`).
-/

namespace RouteContract

/-! ## References and their siblings -/

namespace SchemaObject

/-- **No reference has a sibling**, at any depth. -/
def Bare (o : SchemaObject) : Prop :=
  ∀ t, Contains o t → ∀ ref, t.ref = some ref → t = { ref := some ref }

/-- No reference has another sibling than a title, at any depth. -/
def BareButTitles (o : SchemaObject) : Prop :=
  ∀ t, Contains o t → ∀ ref, t.ref = some ref → t = { ref := some ref, title := t.title }

/-- Other keywords than those for parts do not change the parts. -/
theorem Part.of_same {o o' t : SchemaObject} (h : Part o t)
    (hproperties : o'.properties = o.properties) (hitems : o'.items = o.items)
    (hvalues : o'.additionalProperties = o.additionalProperties) (hoptions : o'.oneOf = o.oneOf)
    (hall : o'.allOf = o.allOf) : Part o' t := by
  cases h with
  | property hsome hmem => exact .property (hproperties.trans hsome) hmem
  | items hsome => exact .items (hitems.trans hsome)
  | values hsome => exact .values (hvalues.trans hsome)
  | option hsome hmem => exact .option (hoptions.trans hsome) hmem
  | all hsome hmem => exact .all (hall.trans hsome) hmem

end SchemaObject

/-- A schema directly inside a shape. -/
inductive Kind.Inside {σ : Type} : Kind σ → σ → Prop where
  | option {options s} : s ∈ options → Inside (.oneOf options) s
  | items {items} : Inside (.array items) items
  | property {properties} {property : String × σ} :
      property ∈ properties → Inside (.object properties) property.2
  | values {values} : Inside (.map values) values

namespace Schema

/-- The title of a schema on the wire: the name of the outermost custom codec. -/
def wireTitle : Schema → Option String
  | ⟨.transform encoded _ _ _, _, _, _⟩ => encoded.wireTitle
  | ⟨.custom name _ _, _, _, _⟩ => some name
  | _ => none

/-- A schema stands in another one on the wire, at any depth. -/
abbrev WireReaches : Schema → Schema → Prop :=
  Relation.ReflTransGen fun s t => s.wireKind.Inside t

/-- **A custom codec stands over a lazy node**, somewhere in the schema on the wire. -/
def TitlesReference (s : Schema) : Prop :=
  ∃ t name target title, WireReaches s t ∧ t.wireKind = .lazy name target ∧
    t.wireTitle = some title

end Schema

namespace Describe

open Schema (WireReaches TitlesReference)
open SchemaObject (Part Contains Bare BareButTitles pointer)

variable {defs : Definitions} {s t : Schema} {o : SchemaObject}

/-! ## Nodes -/

/-- A node adds nothing to a reference, or it wraps it. -/
theorem annotate_of_ref (required : Bool) (description : Option String) (h : o.ref.isSome) :
    annotate required description o = o ∨ annotate required description o =
      { allOf := some [o], description, nullable := !required } := by
  rw [annotate, if_pos h]
  split
  · exact .inl rfl
  · exact .inr rfl

/-- A node that does not refer keeps the parts of its shape. -/
theorem part_annotate_iff (required : Bool) (description : Option String) (h : o.ref = none)
    {p : SchemaObject} : Part (annotate required description o) p ↔ Part o p := by
  rw [annotate, if_neg (by rw [h]; exact Bool.false_ne_true)]
  exact ⟨fun hp => hp.of_same rfl rfl rfl rfl rfl, fun hp => hp.of_same rfl rfl rfl rfl rfl⟩

/-- What compiles to a reference is a reference and a title. -/
theorem wireShape_of_lazy {name target : String} (h : s.wireKind = .lazy name target) :
    wireShape s.kind = { ref := some (pointer name), title := s.wireTitle } := by
  induction s with
  | lazy =>
      cases h
      rfl
  | transform e c dec enc r f d ihe _ => rw [wireShape_transform, ihe h]; rfl
  | custom name parent dec r f d ih => rw [wireShape_custom, ih h]; rfl
  | _ => cases h

/-- The parts of a shape are the compiled schemas inside it. -/
theorem part_wireShape_iff {p : SchemaObject} :
    Part (wireShape s.kind) p ↔ ∃ t, s.wireKind.Inside t ∧ p = wireObject t := by
  induction s with
  | number | string | boolean | any | enum | lazy =>
      refine ⟨fun h => ?_, fun ⟨_, h, _⟩ => nomatch h⟩
      cases h <;> contradiction
  | oneOf options r f d ih =>
      rw [wireShape_oneOf]
      refine ⟨fun h => ?_, ?_⟩
      · cases h with
        | option hsome hmem =>
            cases hsome
            obtain ⟨t, ht, rfl⟩ := List.mem_map.mp hmem
            exact ⟨t, .option ht, rfl⟩
        | property hnone | items hnone | values hnone | all hnone => cases hnone
      · rintro ⟨t, ht, rfl⟩
        cases ht with
        | option hmem => exact .option rfl (List.mem_map_of_mem hmem)
  | array items r f d ih =>
      rw [wireShape_array]
      refine ⟨fun h => ?_, ?_⟩
      · cases h with
        | items hsome =>
            cases hsome
            exact ⟨items, .items, rfl⟩
        | property hnone | values hnone | option hnone | all hnone => cases hnone
      · rintro ⟨t, ht, rfl⟩
        cases ht
        exact .items rfl
  | object properties r f d ih =>
      rw [wireShape_object]
      refine ⟨fun h => ?_, ?_⟩
      · cases h with
        | property hsome hmem =>
            cases hsome
            obtain ⟨q, hq, rfl⟩ := List.mem_map.mp hmem
            exact ⟨q.2, .property hq, rfl⟩
        | items hnone | values hnone | option hnone | all hnone => cases hnone
      · rintro ⟨t, ht, rfl⟩
        cases ht with
        | @property _ q hmem =>
            exact .property (p := (q.1, wireObject q.2)) rfl (List.mem_map_of_mem hmem)
  | map values r f d ih =>
      rw [wireShape_map]
      refine ⟨fun h => ?_, ?_⟩
      · cases h with
        | values hsome =>
            cases hsome
            exact ⟨values, .values, rfl⟩
        | property hnone | items hnone | option hnone | all hnone => cases hnone
      · rintro ⟨t, ht, rfl⟩
        cases ht
        exact .values rfl
  | transform e c dec enc r f d ihe _ =>
      rw [wireShape_transform]
      exact ihe
  | custom name parent dec r f d ih =>
      rw [wireShape_custom]
      exact ⟨fun h => ih.mp (h.of_same rfl rfl rfl rfl rfl),
        fun h => (ih.mpr h).of_same rfl rfl rfl rfl rfl⟩

/-- A reference has no parts. -/
theorem not_part_of_lazy {name target : String} (h : s.wireKind = .lazy name target)
    {p : SchemaObject} : ¬Part (wireShape s.kind) p := by
  rw [part_wireShape_iff, h]
  rintro ⟨t, ht, _⟩
  cases ht

/-- The parts of a compiled schema: the compiled schemas inside it, or the reference that a node
wrapped. -/
theorem part_wireObject_cases {p : SchemaObject} (h : Part (wireObject s) p) :
    (∃ t, s.wireKind.Inside t ∧ p = wireObject t) ∨
      ∃ name target, s.wireKind = .lazy name target ∧ p = wireShape s.kind := by
  rw [wireObject_eq] at h
  cases href : (wireShape s.kind).ref with
  | none =>
      rw [part_annotate_iff _ _ href, part_wireShape_iff] at h
      exact .inl h
  | some ref =>
      obtain ⟨name, target, hkind, _⟩ := wireShape_ref_eq_some_iff.mp href
      refine .inr ⟨name, target, hkind, ?_⟩
      rcases annotate_of_ref s.required s.wireDescription (o := wireShape s.kind)
          (by rw [href]; rfl) with hsame | hwrapped
      · rw [hsame] at h
        exact absurd h (not_part_of_lazy hkind)
      · rw [hwrapped] at h
        cases h with
        | all hsome hmem =>
            cases hsome
            exact List.mem_singleton.mp hmem
        | property hnone | items hnone | values hnone | option hnone => cases hnone

theorem part_wireObject (h : s.wireKind.Inside t) : Part (wireObject s) (wireObject t) := by
  have href : (wireShape s.kind).ref = none := by
    rw [Option.eq_none_iff_forall_ne_some]
    intro ref href
    obtain ⟨name, target, hkind, _⟩ := wireShape_ref_eq_some_iff.mp href
    rw [hkind] at h
    cases h
  rw [wireObject_eq s, part_annotate_iff _ _ href, part_wireShape_iff]
  exact ⟨t, h, rfl⟩

/-! ## References at any depth -/

theorem contains_wireObject_of_reaches (h : WireReaches s t) :
    Contains (wireObject s) (wireObject t) := by
  induction h with
  | refl => exact .refl
  | tail _ hinside ih => exact ih.tail (part_wireObject hinside)

/-- A node that refers, or the wrapper that it puts around the reference, contains the reference. -/
theorem contains_wireShape_of_lazy {name target : String} (h : s.wireKind = .lazy name target) :
    Contains (wireObject s) (wireShape s.kind) := by
  have href : (wireShape s.kind).ref.isSome := by
    rw [wireShape_of_lazy h]
    rfl
  rw [wireObject_eq]
  rcases annotate_of_ref s.required s.wireDescription href with hsame | hwrapped
  · rw [hsame]
  · rw [hwrapped]
    exact .single (.all rfl List.mem_cons_self)

theorem exists_lazy_of_contains (h : Contains (wireObject s) o) {ref : String}
    (href : o.ref = some ref) : ∃ t name target, WireReaches s t ∧
      t.wireKind = .lazy name target ∧ o = wireShape t.kind := by
  generalize hs : wireObject s = start at h
  induction h using Relation.ReflTransGen.head_induction_on generalizing s with
  | refl =>
      subst hs
      obtain ⟨name, target, hkind, _⟩ := wireShape_ref_eq_some_iff.mp ((annotated s).ref ref href)
      refine ⟨s, name, target, .refl, hkind, ?_⟩
      rw [wireObject_eq] at href ⊢
      -- a wrapper does not refer itself
      rcases annotate_of_ref s.required s.wireDescription (o := wireShape s.kind)
          (by rw [wireShape_of_lazy hkind]; rfl) with hsame | hwrapped
      · exact hsame
      · rw [hwrapped] at href
        cases href
  | head hpart hrest ih =>
      subst hs
      rcases part_wireObject_cases hpart with ⟨t, hinside, rfl⟩ | ⟨name, target, hkind, rfl⟩
      · obtain ⟨u, name, target, hreach, hrefers⟩ := ih rfl
        exact ⟨u, name, target, .head hinside hreach, hrefers⟩
      · rcases hrest.cases_head with rfl | ⟨p, hinside, _⟩
        · exact ⟨s, name, target, .refl, hkind, rfl⟩
        · exact absurd hinside (not_part_of_lazy hkind)

/-- **The references in a compiled schema** are those of the nodes that are lazy on the wire, each
with the title of the custom codec over it. -/
theorem contains_ref_iff : (Contains (wireObject s) o ∧ o.ref.isSome) ↔
    ∃ t name target, WireReaches s t ∧ t.wireKind = .lazy name target ∧
      o = { ref := some (pointer name), title := t.wireTitle } := by
  constructor
  · rintro ⟨hcontains, hrefers⟩
    obtain ⟨ref, href⟩ := Option.isSome_iff_exists.mp hrefers
    obtain ⟨t, name, target, hreach, hkind, rfl⟩ := exists_lazy_of_contains hcontains href
    exact ⟨t, name, target, hreach, hkind, wireShape_of_lazy hkind⟩
  · rintro ⟨t, name, target, hreach, hkind, rfl⟩
    rw [← wireShape_of_lazy hkind]
    refine ⟨(contains_wireObject_of_reaches hreach).trans (contains_wireShape_of_lazy hkind), ?_⟩
    rw [wireShape_of_lazy hkind]
    rfl

theorem bareButTitles_wireObject (s : Schema) : (wireObject s).BareButTitles := by
  intro o ho ref href
  obtain ⟨t, name, target, _, _, rfl⟩ :=
    contains_ref_iff.mp ⟨ho, Option.isSome_iff_exists.mpr ⟨ref, href⟩⟩
  cases href
  rfl

/-- **A compiled schema is bare** unless a custom codec stands over a lazy node. -/
theorem bare_wireObject_iff : (wireObject s).Bare ↔ ¬s.TitlesReference := by
  constructor
  · rintro hbare ⟨t, name, target, title, hreach, hkind, htitle⟩
    obtain ⟨hcontains, _⟩ := contains_ref_iff.mpr ⟨t, name, target, hreach, hkind, rfl⟩
    have hsame := congrArg SchemaObject.title (hbare _ hcontains _ rfl)
    rw [htitle] at hsame
    cases hsame
  · intro hfree o ho ref href
    obtain ⟨t, name, target, hreach, hkind, rfl⟩ :=
      contains_ref_iff.mp ⟨ho, Option.isSome_iff_exists.mpr ⟨ref, href⟩⟩
    cases href
    have htitle : t.wireTitle = none := Option.eq_none_iff_forall_ne_some.mpr
      fun title htitle => hfree ⟨t, name, target, title, hreach, hkind, htitle⟩
    rw [htitle]

/-! ## What a compiler returns and collects -/

/-- **References have no siblings but titles.** Whatever a compiler has compiled before, the next
schema compiles to an object whose references are bare unless a custom codec stands over a lazy node
in that schema; then it is the title of the codec that stands beside a reference, and nothing else.
The same holds of every collected definition and the schema that it describes. -/
theorem bare_compile_iff (defs : Definitions) (earlier : List Schema) (s : Schema) :
    let compiled := compile defs s (compileAll defs earlier {}).2
    ((compiled.1.Bare ↔ ¬s.TitlesReference) ∧ compiled.1.BareButTitles) ∧
      ∀ definition ∈ compiled.2.entries, ∃ target,
        RefersIn defs (earlier ++ [s]) (definition.1, target) ∧
        (definition.2.Bare ↔ ¬(defs.resolve target).TitlesReference) ∧
        definition.2.BareButTitles := by
  intro compiled
  have hobject : compiled.1 = wireObject s := compile_fst defs s _
  have hregistry : compiled.2 = (compileAll defs (earlier ++ [s]) {}).2 := by
    rw [compileAll_append, compileAll_cons]
    rfl
  obtain ⟨_, hregistered, _⟩ := compileAll_registered defs (earlier ++ [s])
  refine ⟨?_, fun definition hmem => ?_⟩
  · rw [hobject]
    exact ⟨bare_wireObject_iff, bareButTitles_wireObject s⟩
  · rw [hregistry] at hmem
    have hget := (compileAll_distinct defs (earlier ++ [s])).get?_of_mem hmem
    obtain ⟨target, href, hbody, _⟩ := hregistered _ _ hget
    rw [hbody, bodies_body]
    exact ⟨target, href, bare_wireObject_iff, bareButTitles_wireObject _⟩

/-- A custom codec may stand over a lazy node, and its title then stands beside the reference. -/
theorem compile_titles_reference :
    let keys : Definitions := ⟨[("key", .string)]⟩
    ∃ s, Schema.custom? "Id" (.lazy "Key" "key") .ok = .ok s ∧
      (compile keys s {}).1 = { ref := some (pointer "Key"), title := some "Id" } ∧
      ¬(compile keys s {}).1.Bare := by
  intro keys
  refine ⟨_, rfl, rfl, fun hbare => ?_⟩
  cases hbare _ .refl (pointer "Key") rfl

end Describe

end RouteContract
