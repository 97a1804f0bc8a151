import RouteContract.Proofs.Document.Admits
import RouteContract.Proofs.Validation.Budget

/-!
# Nullable -- where the documentation says that null may stand

A schema object advertises null by a flag of its own, through the definition that it refers to, or
through an option of a union (`SchemaObject.Advertises`). A validator asks the outermost node and
nothing else. Both read the same flag, but a compilation writes it on every node, also on those below
a union and in a shared definition. So what is advertised for a schema is what is accepted by it or
by a schema that it offers: an option or a definition that stands in its place on the wire
(`Schema.Offers`, `Describe.advertises_iff`).

For a schema without options and references the two agree. A required union of an optional option
advertises a null that it refuses (`Describe.advertises_refused`).
-/

namespace RouteContract

/-! ## Null in a schema object -/

/-- **The schema object advertises null**: it is flagged, or it refers to a definition that
advertises null, by itself or from inside a wrapper, or one of its options advertises null. -/
inductive SchemaObject.Advertises (definitions : Entries SchemaObject) : SchemaObject → Prop
  | flagged {o} : o.nullable = true → Advertises definitions o
  | reference {o ref body} : o.ref = some ref → definition? definitions ref = some body →
      Advertises definitions body → Advertises definitions o
  | wrapped {o part ref body} : o.allOf = some [part] → part.ref = some ref →
      definition? definitions ref = some body → Advertises definitions body →
      Advertises definitions o
  | option {o options t} : o.oneOf = some options → t ∈ options → Advertises definitions t →
      Advertises definitions o

namespace Schema

/-! ## What stands in the place of a schema -/

/-- The shape of a schema on the wire: that of the wire side, if the schema is a codec. -/
def wireKind : Schema → Kind Schema
  | ⟨.transform encoded _ _ _, _, _, _⟩ => encoded.wireKind
  | ⟨.custom _ parent _, _, _, _⟩ => parent.wireKind
  | ⟨kind, _, _, _⟩ => kind

/-- A schema that stands in the place of another one on the wire: an option of a union, or the
definition of a lazy node. -/
inductive Offers (defs : Definitions) (s : Schema) : Schema → Prop
  | option {options t} : s.wireKind = .oneOf options → t ∈ options → Offers defs s t
  | target {name target} : s.wireKind = .lazy name target → Offers defs s (defs.resolve target)

/-- Validation accepts a null. -/
def AcceptsNull (defs : Definitions) (config : ValidationConfig) (s : Schema) : Prop :=
  ∃ out, (Validator.mk s defs .decode config).validate .null = .ok out

theorem acceptsNull_iff {defs : Definitions} {config : ValidationConfig} {s : Schema} :
    s.AcceptsNull defs config ↔ s.required = false := by
  simp [AcceptsNull, Validator.validate_null_eq_ok_iff]

end Schema

namespace Describe

open Schema (Offers)
open SchemaObject (Advertises pointer definition? definition?_pointer)

variable {defs : Definitions} {definitions : Entries SchemaObject} {s t : Schema}

/-! ## Shapes on the wire -/

/-- A codec refers to what its wire side refers to. -/
theorem wireRefs_ofKind (s : Schema) : wireRefs (Schema.ofKind s.wireKind) = wireRefs s := by
  induction s with
  | transform e c dec enc r f d ihe _ => exact ihe
  | custom name parent dec r f d ih => exact ih
  | _ => rfl

/-- The keywords that can lead to a null elsewhere: options, a reference and the parts of a wrapper.
A union compiles to the first, a lazy node to the second, and no shape to the third. -/
theorem wireShape_leads (s : Schema) :
    ((wireShape s.kind).oneOf, (wireShape s.kind).ref, (wireShape s.kind).allOf) =
      match s.wireKind with
      | .oneOf options => (some (options.map wireObject), none, none)
      | .lazy name _ => (none, some (pointer name), none)
      | _ => (none, none, none) := by
  induction s with
  | oneOf => rw [wireShape_oneOf]; rfl
  | object => rw [wireShape_object]; rfl
  | transform e c dec enc r f d ihe _ => rw [wireShape_transform]; exact ihe
  | custom name parent dec r f d ih => rw [wireShape_custom]; exact ih
  | _ => rfl

theorem wireShape_oneOf_eq_some_iff {objects : List SchemaObject} :
    (wireShape s.kind).oneOf = some objects ↔
      ∃ options, s.wireKind = .oneOf options ∧ objects = options.map wireObject := by
  have h := congrArg Prod.fst (wireShape_leads s)
  dsimp only at h
  rw [h]
  cases s.wireKind <;> simp [eq_comm]

theorem wireShape_ref_eq_some_iff {ref : String} :
    (wireShape s.kind).ref = some ref ↔
      ∃ name target, s.wireKind = .lazy name target ∧ ref = pointer name := by
  have h := congrArg (fun leads => leads.2.1) (wireShape_leads s)
  dsimp only at h
  rw [h]
  cases s.wireKind <;> simp [eq_comm]

theorem wireShape_allOf (s : Schema) : (wireShape s.kind).allOf = none := by
  have h := congrArg (fun leads => leads.2.2) (wireShape_leads s)
  dsimp only at h
  rw [h]
  cases s.wireKind <;> rfl

/-! ## Nodes -/

/-- What a node adds: its flag, and perhaps a wrapper around a reference. -/
structure Annotated (required : Bool) (shape o : SchemaObject) : Prop where
  /-- The flag is that of the node. -/
  nullable : o.nullable = !required
  /-- A reference is that of the shape, and then nothing was added. -/
  ref : ∀ ref, o.ref = some ref → shape.ref = some ref
  /-- Options are those of the shape. -/
  oneOf : ∀ options, o.oneOf = some options → shape.oneOf = some options
  /-- What stands in a wrapper is the shape. -/
  allOf : ∀ parts, o.allOf = some parts → parts = [shape]

theorem annotated (s : Schema) : Annotated s.required (wireShape s.kind) (wireObject s) := by
  have hnullable := wireShape_nullable s
  have hallOf := wireShape_allOf s
  rw [wireObject_eq, annotate]
  split_ifs with href hbare
  -- a bare reference is required and has no description
  · refine ⟨?_, fun _ h => h, fun _ h => h, fun _ h => ?_⟩
    · rw [hnullable, (Bool.and_eq_true_iff.mp hbare).1]
      rfl
    · rw [hallOf] at h
      cases h
  · refine ⟨rfl, fun _ h => ?_, fun _ h => ?_, fun _ h => (Option.some.inj h).symm⟩
    · cases h
    · cases h
  · refine ⟨rfl, fun _ h => h, fun _ h => h, fun _ h => ?_⟩
    change (wireShape s.kind).allOf = _ at h
    rw [hallOf] at h
    cases h

/-- The options of a union stand where the union stands. -/
theorem oneOf_wireObject {options : List Schema} (hkind : s.wireKind = .oneOf options) :
    (wireObject s).oneOf = some (options.map wireObject) := by
  have hleads := wireShape_leads s
  rw [hkind, Prod.mk.injEq, Prod.mk.injEq] at hleads
  rw [wireObject_eq, annotate, hleads.2.1]
  exact hleads.1

/-- The reference of a lazy node stands where the node stands, or in a wrapper there. -/
theorem ref_wireObject {name target : String} (hkind : s.wireKind = .lazy name target) :
    (wireObject s).ref = some (pointer name) ∨
      ∃ part, (wireObject s).allOf = some [part] ∧ part.ref = some (pointer name) := by
  have href : (wireShape s.kind).ref = some (pointer name) :=
    wireShape_ref_eq_some_iff.mpr ⟨name, target, hkind, rfl⟩
  rw [wireObject_eq, annotate, if_pos (Option.isSome_of_eq_some href)]
  split_ifs
  · exact .inl href
  · exact .inr ⟨_, rfl, href⟩

/-! ## What is documented -/

theorem Documented.ofKind (h : Documented defs definitions s) :
    Documented defs definitions (Schema.ofKind s.wireKind) :=
  h.of_subset (by rw [wireRefs_ofKind]; exact List.Subset.refl _)

/-- The definition of a name that a schema stands for on the wire is documented under the name. -/
theorem Documented.definition? {name target : String} (h : Documented defs definitions s)
    (hkind : s.wireKind = .lazy name target) :
    SchemaObject.definition? definitions (pointer name) = some (wireObject (defs.resolve target)) := by
  have hlazy := h.ofKind
  rw [hkind] at hlazy
  exact definition?_pointer hlazy.target.1

theorem Documented.offered (h : Documented defs definitions s) (hoffers : Offers defs s t) :
    Documented defs definitions t := by
  have hwire := h.ofKind
  cases hoffers with
  | option hkind hmem =>
      rw [hkind] at hwire
      exact hwire.option hmem
  | target hkind =>
      rw [hkind] at hwire
      exact hwire.target.2

/-! ## Null -/

/-- An optional schema is flagged. -/
theorem advertises_of_optional (h : s.required = false) : Advertises definitions (wireObject s) :=
  .flagged (by rw [(annotated s).nullable, h]; rfl)

/-- **One step**: a schema advertises what it offers advertises. -/
theorem advertises_of_offers (hdocumented : Documented defs definitions s)
    (hoffers : Offers defs s t) (h : Advertises definitions (wireObject t)) :
    Advertises definitions (wireObject s) := by
  cases hoffers with
  | option hkind hmem =>
      exact .option (oneOf_wireObject hkind) (List.mem_map_of_mem hmem) h
  | target hkind =>
      have hdefinition := hdocumented.definition? hkind
      rcases ref_wireObject hkind with href | ⟨part, hall, href⟩
      · exact .reference href hdefinition h
      · exact .wrapped hall href hdefinition h

/-- The definition behind a reference of a shape, bare or wrapped, is one that the schema offers. -/
theorem exists_behind {ref : String} {body : SchemaObject}
    (hdocumented : Documented defs definitions s) (href : (wireShape s.kind).ref = some ref)
    (hbody : definition? definitions ref = some body) :
    ∃ t, Offers defs s t ∧ body = wireObject t ∧ Documented defs definitions t := by
  obtain ⟨name, target, hkind, rfl⟩ := wireShape_ref_eq_some_iff.mp href
  rw [hdocumented.definition? hkind] at hbody
  exact ⟨_, .target hkind, (Option.some.inj hbody).symm, hdocumented.offered (.target hkind)⟩

/-- A null that is advertised for a schema can be traced to an optional schema that it offers. -/
theorem exists_optional_of_advertises {o : SchemaObject} (h : Advertises definitions o)
    (hs : o = wireObject s) (hdocumented : Documented defs definitions s) :
    ∃ t, Relation.ReflTransGen (Offers defs) s t ∧ t.required = false := by
  -- on what shows the null: each step in the document is one from a schema to one that it offers
  induction h generalizing s with
  | flagged hflag =>
      subst hs
      rw [(annotated s).nullable] at hflag
      exact ⟨s, .refl, by simpa using hflag⟩
  | reference href hbody _ ih =>
      subst hs
      obtain ⟨t, hoffers, hbody, ht⟩ := exists_behind hdocumented ((annotated s).ref _ href) hbody
      obtain ⟨u, hreach, hu⟩ := ih hbody ht
      exact ⟨u, .head hoffers hreach, hu⟩
  | wrapped hall href hbody _ ih =>
      subst hs
      obtain rfl := List.singleton_inj.mp ((annotated s).allOf _ hall)
      obtain ⟨t, hoffers, hbody, ht⟩ := exists_behind hdocumented href hbody
      obtain ⟨u, hreach, hu⟩ := ih hbody ht
      exact ⟨u, .head hoffers hreach, hu⟩
  | option hoptions hmem _ ih =>
      subst hs
      obtain ⟨options, hkind, rfl⟩ :=
        wireShape_oneOf_eq_some_iff.mp ((annotated s).oneOf _ hoptions)
      obtain ⟨t, ht, rfl⟩ := List.mem_map.mp hmem
      obtain ⟨u, hreach, hu⟩ := ih rfl (hdocumented.offered (.option hkind ht))
      exact ⟨u, .head (.option hkind ht) hreach, hu⟩

/-- An optional schema is advertised by everything that offers it. -/
theorem advertises_of_reaches (hreach : Relation.ReflTransGen (Offers defs) s t)
    (ht : t.required = false) (hdocumented : Documented defs definitions s) :
    Advertises definitions (wireObject s) := by
  induction hreach using Relation.ReflTransGen.head_induction_on with
  | refl => exact advertises_of_optional ht
  | head hoffers _ ih =>
      exact advertises_of_offers hdocumented hoffers (ih (hdocumented.offered hoffers))

/-- What is documented for a schema advertises null as soon as something that it offers is optional. -/
theorem advertises_wireObject_iff (hdocumented : Documented defs definitions s) :
    Advertises definitions (wireObject s) ↔
      ∃ t, Relation.ReflTransGen (Offers defs) s t ∧ t.required = false := by
  constructor
  · intro h
    exact exists_optional_of_advertises h rfl hdocumented
  · rintro ⟨t, hreach, ht⟩
    exact advertises_of_reaches hreach ht hdocumented

/-- **What is advertised is accepted, by the schema or by one that it offers.** Let every name stand
for one schema. Then a compilation advertises null exactly if validation accepts null for the schema
itself, or for an option or a definition that stands in its place, in any number of steps. -/
theorem advertises_iff (config : ValidationConfig) (hnames : Schema.NamesAgree defs s) :
    Advertises (compile defs s {}).2.entries (compile defs s {}).1 ↔
      ∃ t, Relation.ReflTransGen (Offers defs) s t ∧ t.AcceptsNull defs config := by
  simp only [Schema.acceptsNull_iff]
  rw [compile_fst]
  exact advertises_wireObject_iff (compile_documented hnames)

/-- A required reference to an optional string. -/
def remark : Schema := ⟨.lazy "Remark" "Remark", true, none, none⟩

/-- The optional string. -/
def remarks : Definitions := ⟨[("Remark", Schema.string.asOptional)]⟩

theorem namesAgree_remark : Schema.NamesAgree remarks remark := by
  have hclosed : Schema.Throughout remarks
      (fun t => t = remark ∨ t = Schema.string.asOptional) remark := by
    refine .of_closed (fun s t hs h => ?_) (fun s hs => hs) (.inl rfl)
    rcases hs with rfl | rfl
    · unfold remark at h
      cases h
      exact .inr rfl
    · cases h
  have htarget : ∀ name target, Schema.Names remarks remark name target → target = "Remark" := by
    rintro name target ⟨r, f, d, hreach⟩
    rcases hclosed _ hreach with h | h <;> cases h
    rfl
  intro name target target' h h'
  rw [htarget name target h, htarget name target' h']

/-- The reference advertises the null of the string, and refuses it. -/
theorem advertises_iff_remark :
    Schema.NamesAgree remarks remark ∧
      Advertises (compile remarks remark {}).2.entries (compile remarks remark {}).1 ∧
        ¬remark.AcceptsNull remarks {} := by
  refine ⟨namesAgree_remark, ?_, by simp [Schema.acceptsNull_iff, remark]⟩
  have hoffers : Offers remarks remark (remarks.resolve "Remark") := .target rfl
  have hoptional : (remarks.resolve "Remark").AcceptsNull remarks {} :=
    Schema.acceptsNull_iff.mpr rfl
  exact (advertises_iff {} namesAgree_remark).mpr ⟨_, .single hoffers, hoptional⟩

/-- **Where nothing that is offered is optional, the two agree.** -/
theorem advertises_iff_acceptsNull (config : ValidationConfig) (hnames : Schema.NamesAgree defs s)
    (hrequired : ∀ t, Relation.TransGen (Offers defs) s t → t.required = true) :
    Advertises (compile defs s {}).2.entries (compile defs s {}).1 ↔
      s.AcceptsNull defs config := by
  rw [compile_fst, Schema.acceptsNull_iff, advertises_wireObject_iff (compile_documented hnames)]
  constructor
  · rintro ⟨t, hreach, ht⟩
    rcases Relation.reflTransGen_iff_eq_or_transGen.mp hreach with rfl | hreach
    · exact ht
    · rw [hrequired t hreach] at ht
      cases ht
  · intro h
    exact ⟨s, .refl, h⟩

/-- A required union of an optional string and a number. -/
def note : Schema := ⟨.oneOf [Schema.string.asOptional, Schema.number], true, none, none⟩

theorem throughout_note :
    Schema.Throughout {} (fun t => t = note ∨ t = Schema.string.asOptional ∨ t = Schema.number)
      note := by
  refine .of_closed (fun s t hs h => ?_) (fun s hs => hs) (.inl rfl)
  rcases hs with rfl | rfl | rfl
  · unfold note at h
    cases h with
    | option hmem => exact .inr (List.mem_pair.mp hmem)
  · cases h
  · cases h

/-- **The union advertises the null of its option, and refuses it**: null is decided before any
option is tried. -/
theorem advertises_refused :
    Schema.Throughout {} (fun t => t.kind ≠ .any) note ∧ Schema.NamesAgree {} note ∧
      ¬(Advertises (compile {} note {}).2.entries (compile {} note {}).1 ↔
        note.AcceptsNull {} {}) := by
  refine ⟨?_, ?_, ?_⟩
  · refine throughout_note.imp fun t ht => ?_
    rcases ht with rfl | rfl | rfl <;> exact nofun
  · rintro name target target' ⟨r, f, d, hreach⟩
    rcases throughout_note _ hreach with h | h | h <;> cases h
  · rw [compile_fst, Schema.acceptsNull_iff]
    intro h
    have hoption : Advertises (compile {} note {}).2.entries (wireObject note) :=
      .option rfl List.mem_cons_self (.flagged rfl)
    cases h.mp hoption

end Describe

end RouteContract
