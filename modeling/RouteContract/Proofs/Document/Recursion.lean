import RouteContract.Proofs.Document.Compile

/-!
# Recursion -- compilation without a bound

A compilation allows itself so many levels of definitions. `Describe.Compiles` is the compilation that
allows itself any number: one rule for each shape, and a definition is opened whenever its name is
new. A derivation is finite and there is at most one (`Compiles.sound`), so what has one is a
compilation that ends. Whatever follows its references to their ends has one (`compiles_of_linked`),
by recursion on the schema between two references and on the following of references in between;
hence every compilation that starts with nothing in progress (`compile_compiles`), and any number of
them in turn (`compileAll_threads_iff`).
-/

namespace RouteContract

/-- Things done one after the other, each in the state that the one before it left. -/
inductive Threads {α β σ : Type} (step : α → σ → β → σ → Prop) :
    List α → σ → List β → σ → Prop
  | nil {s : σ} : Threads step [] s [] s
  | cons {a : α} {as : List α} {b : β} {bs : List β} {s s' s'' : σ} :
      step a s b s' → Threads step as s' bs s'' → Threads step (a :: as) s (b :: bs) s''

namespace Describe

open Registry (Bodies Follows Registered)

/-! ## The rules -/

mutual

/-- **A schema is compiled**, from one registry to another. -/
inductive Compiles (defs : Definitions) :
    Schema → Registry SchemaObject → SchemaObject → Registry SchemaObject → Prop
  | node {s r shape r'} : CompilesShape defs s.kind r shape r' →
      Compiles defs s r (annotate s.required s.wireDescription shape) r'

/-- A shape is compiled. -/
inductive CompilesShape (defs : Definitions) :
    Kind Schema → Registry SchemaObject → SchemaObject → Registry SchemaObject → Prop
  | number {r} : CompilesShape defs .number r (.ofType "number") r
  | string {r} : CompilesShape defs .string r (.ofType "string") r
  | boolean {r} : CompilesShape defs .boolean r (.ofType "boolean") r
  | any {r} : CompilesShape defs .any r {} r
  | enum {options r} :
      CompilesShape defs (.enum options) r
        { type := literalType? options, enum := some options } r
  | oneOf {options r objects r'} : Threads (Compiles defs) options r objects r' →
      CompilesShape defs (.oneOf options) r
        { oneOf := some objects, discriminator := Schema.discriminator? options } r'
  | array {items r object r'} : Compiles defs items r object r' →
      CompilesShape defs (.array items) r
        { SchemaObject.ofType "array" with items := some object } r'
  | object {properties r objects r'} :
      Threads (Compiles defs) (properties.map Prod.snd) r objects r' →
      CompilesShape defs (.object properties) r
        { SchemaObject.ofType "object" with
          properties := some ((properties.map Prod.fst).zip objects)
          required := (properties.filter fun p => p.2.required).map Prod.fst } r'
  | map {values r object r'} : Compiles defs values r object r' →
      CompilesShape defs (.map values) r
        { SchemaObject.ofType "object" with additionalProperties := some object } r'
  | known {name target r} : r.knows name = true →
      CompilesShape defs (.lazy name target) r (.reference name) r
  | new {name target r object after} : r.knows name = false →
      Compiles defs (defs.resolve target) (r.opened name) object after →
      CompilesShape defs (.lazy name target) r (.reference name) (after.closed name object)
  | transform {encoded decoded decode encode r object r'} :
      CompilesShape defs encoded.kind r object r' →
      CompilesShape defs (.transform encoded decoded decode encode) r object r'
  | custom {name parent decode r object r'} : CompilesShape defs parent.kind r object r' →
      CompilesShape defs (.custom name parent decode) r { object with title := some name } r'

end

/-! ## Between two references -/

variable {defs : Definitions} {r r' : Registry SchemaObject}

/-- References are compiled in turn. -/
def Linked (defs : Definitions) : List (String × String) → Registry SchemaObject →
    Registry SchemaObject → Prop
  | [], r, r' => r' = r
  | ref :: rest, r, r' => ∃ mid,
      CompilesShape defs (.lazy ref.1 ref.2) r (.reference ref.1) mid ∧ Linked defs rest mid r'

theorem linked_append_iff {refs refs' : List (String × String)} :
    Linked defs (refs ++ refs') r r' ↔ ∃ mid, Linked defs refs r mid ∧ Linked defs refs' mid r' := by
  induction refs generalizing r with
  | nil => simp [Linked]
  | cons ref rest ih =>
      simp only [List.cons_append, Linked, ih]
      constructor
      · rintro ⟨mid, href, mid', hrest, hrefs'⟩
        exact ⟨mid', ⟨mid, href, hrest⟩, hrefs'⟩
      · rintro ⟨mid', ⟨mid, href, hrest⟩, hrefs'⟩
        exact ⟨mid, href, mid', hrest, hrefs'⟩

theorem compiles_of_shape {s : Schema} (h : CompilesShape defs s.kind r (wireShape s.kind) r') :
    Compiles defs s r (wireObject s) r' := by
  rw [wireObject_eq]
  exact .node h

/-- Schemas are compiled in turn if their references are. -/
theorem threads_of_linked {ss : List Schema}
    (h : ∀ s ∈ ss, ∀ r r', Linked defs (wireRefs s) r r' →
      CompilesShape defs s.kind r (wireShape s.kind) r')
    (hlinked : Linked defs (ss.flatMap wireRefs) r r') :
    Threads (Compiles defs) ss r (ss.map wireObject) r' := by
  induction ss generalizing r with
  | nil =>
      cases hlinked
      exact .nil
  | cons s rest ih =>
      obtain ⟨hs, hrest⟩ := List.forall_mem_cons.mp h
      rw [List.flatMap_cons, linked_append_iff] at hlinked
      obtain ⟨mid, hfirst, hothers⟩ := hlinked
      exact .cons (compiles_of_shape (hs _ _ hfirst)) (ih hrest hothers)

theorem propertyRefs_eq_flatMap (properties : List (String × Schema)) :
    propertyRefs properties = (properties.map Prod.snd).flatMap wireRefs := by
  rw [propertyRefs_eq, List.flatMap_map]

theorem zip_wireObject (properties : List (String × Schema)) :
    (properties.map Prod.fst).zip ((properties.map Prod.snd).map wireObject) =
      Entries.mapValues wireObject properties := by
  rw [List.map_map, List.zip_map', Entries.mapValues]
  rfl

theorem compilesShape_of_linked (s : Schema) : ∀ r r', Linked defs (wireRefs s) r r' →
    CompilesShape defs s.kind r (wireShape s.kind) r' := by
  induction s with
  | number => rintro r _ rfl; exact .number
  | string => rintro r _ rfl; exact .string
  | boolean => rintro r _ rfl; exact .boolean
  | any => rintro r _ rfl; exact .any
  | enum => rintro r _ rfl; exact .enum
  | oneOf options q f d ih =>
      intro r r' h
      change Linked defs (listRefs options) r r' at h
      rw [listRefs_eq] at h
      rw [wireShape_oneOf]
      exact .oneOf (threads_of_linked ih h)
  | array items q f d ih =>
      intro r r' h
      exact .array (compiles_of_shape (ih r r' h))
  | object properties q f d ih =>
      intro r r' h
      change Linked defs (propertyRefs properties) r r' at h
      have hall : ∀ s ∈ properties.map Prod.snd, ∀ r r', Linked defs (wireRefs s) r r' →
          CompilesShape defs s.kind r (wireShape s.kind) r' := by
        rintro s hs
        obtain ⟨property, hproperty, rfl⟩ := List.mem_map.mp hs
        exact ih property hproperty
      rw [propertyRefs_eq_flatMap] at h
      rw [wireShape_object, ← zip_wireObject]
      exact .object (threads_of_linked hall h)
  | map values q f d ih =>
      intro r r' h
      exact .map (compiles_of_shape (ih r r' h))
  | lazy name target =>
      rintro r r' ⟨_, hshape, rfl⟩
      exact hshape
  | transform encoded decoded dec enc q f d ih _ =>
      intro r r' h
      rw [wireShape_transform]
      exact .transform (ih r r' h)
  | custom name parent dec q f d ih =>
      intro r r' h
      rw [wireShape_custom]
      exact .custom (ih r r' h)

/-- **Between two references** compilation is recursion on the schema. -/
theorem compiles_of_linked {s : Schema} (h : Linked defs (wireRefs s) r r') :
    Compiles defs s r (wireObject s) r' :=
  compiles_of_shape (compilesShape_of_linked s r r' h)

/-- References that are followed to their ends are compiled. -/
theorem linked_of_follows {refs : List (String × String)}
    (h : Follows (bodies defs) refs r r') : Linked defs refs r r' := by
  induction h with
  | done => rfl
  | known hknows _ ih => exact ⟨_, .known hknows, ih⟩
  | new hnew _ _ ihbody ihrest => exact ⟨_, .new hnew (compiles_of_linked ihbody), ihrest⟩

/-! ## What a derivation says -/

theorem wireRefs_eq (s : Schema) : wireRefs s = shapeRefs s.kind := by
  cases s
  rfl

/-- What a shape is compiled to, and which references are followed. -/
private def ShapeSound (defs : Definitions) (kind : Kind Schema) (r : Registry SchemaObject)
    (shape : SchemaObject) (r' : Registry SchemaObject) : Prop :=
  shape = wireShape kind ∧ Follows (bodies defs) (shapeRefs kind) r r'

/-- **A derivation of a compilation** gives the object of the schema and follows its references. -/
theorem Compiles.sound {s : Schema} {object : SchemaObject} (h : Compiles defs s r object r') :
    object = wireObject s ∧ Follows (bodies defs) (wireRefs s) r r' := by
  refine @Compiles.rec defs
    (fun s r object r' _ => object = wireObject s ∧ Follows (bodies defs) (wireRefs s) r r')
    (fun kind r shape r' _ => ShapeSound defs kind r shape r')
    (fun ss r objects r' _ => objects = ss.map wireObject ∧
      Follows (bodies defs) (ss.flatMap wireRefs) r r')
    ?node ⟨rfl, .done⟩ ⟨rfl, .done⟩ ⟨rfl, .done⟩ ⟨rfl, .done⟩ ⟨rfl, .done⟩ ?oneOf ?array ?object ?map
    ?known ?new ?transform ?custom ⟨rfl, .done⟩ ?cons s r object r' h
  case node =>
    rintro s r _ r' _ ⟨rfl, hfollows⟩
    exact ⟨(wireObject_eq s).symm, wireRefs_eq s ▸ hfollows⟩
  case oneOf =>
    rintro options r _ r' _ ⟨rfl, hfollows⟩
    refine ⟨(wireShape_oneOf options).symm, ?_⟩
    rw [shapeRefs, listRefs_eq]
    exact hfollows
  case array =>
    rintro items r _ r' _ ⟨rfl, hfollows⟩
    exact ⟨rfl, hfollows⟩
  case object =>
    rintro properties r _ r' _ ⟨rfl, hfollows⟩
    refine ⟨?_, ?_⟩
    · rw [wireShape_object, ← zip_wireObject]
    · rw [shapeRefs, propertyRefs_eq_flatMap]
      exact hfollows
  case map =>
    rintro values r _ r' _ ⟨rfl, hfollows⟩
    exact ⟨rfl, hfollows⟩
  case known =>
    intro name target r hknows
    exact ⟨rfl, .known hknows .done⟩
  case new =>
    rintro name target r _ after hnew _ ⟨rfl, hfollows⟩
    exact ⟨rfl, .new hnew hfollows .done⟩
  case transform =>
    rintro encoded decoded _ _ r _ r' _ ⟨rfl, hfollows⟩
    refine ⟨(wireShape_transform ..).symm, ?_⟩
    rw [shapeRefs, wireRefs_eq]
    exact hfollows
  case custom =>
    rintro name parent _ r _ r' _ ⟨rfl, hfollows⟩
    refine ⟨(wireShape_custom ..).symm, ?_⟩
    rw [shapeRefs, wireRefs_eq]
    exact hfollows
  case cons =>
    rintro s rest _ _ r mid r' _ _ ⟨rfl, hfirst⟩ ⟨rfl, hothers⟩
    exact ⟨rfl, hfirst.append hothers⟩

/-- **Compilation has one outcome**: the rules derive it or nothing. -/
theorem compiles_iff {s : Schema} {object : SchemaObject} :
    Compiles defs s r object r' ↔
      object = wireObject s ∧ Follows (bodies defs) (wireRefs s) r r' := by
  constructor
  · exact Compiles.sound
  · rintro ⟨rfl, hfollows⟩
    exact compiles_of_linked (linked_of_follows hfollows)

/-- **Compilation ends**, whatever the definitions are, and a bounded one is no different. -/
theorem compile_compiles (s : Schema) (hidle : r.inProgress = []) :
    Compiles defs s r (compile defs s r).1 (compile defs s r).2 := by
  exact compiles_iff.mpr ⟨compile_fst defs s r, compile_follows hidle⟩

/-! ## Compiling in turn -/

/-- Compiles schemas one after the other. -/
def compileAll (defs : Definitions) (ss : List Schema) : Describe (List SchemaObject) :=
  ss.mapM (compile defs)

theorem compileAll_cons (defs : Definitions) (s : Schema) (rest : List Schema)
    (r : Registry SchemaObject) :
    compileAll defs (s :: rest) r =
      ((compile defs s r).1 :: (compileAll defs rest (compile defs s r).2).1,
        (compileAll defs rest (compile defs s r).2).2) := by
  rw [compileAll, List.mapM_cons]
  rfl

theorem compileAll_append (defs : Definitions) (ss ss' : List Schema)
    (r : Registry SchemaObject) :
    (compileAll defs (ss ++ ss') r).2 = (compileAll defs ss' (compileAll defs ss r).2).2 := by
  induction ss generalizing r with
  | nil => rfl
  | cons s rest ih => rw [List.cons_append, compileAll_cons, compileAll_cons, ih]

theorem compileAll_fst (defs : Definitions) (ss : List Schema) (r : Registry SchemaObject) :
    (compileAll defs ss r).1 = ss.map wireObject := by
  induction ss generalizing r with
  | nil => rfl
  | cons s rest ih => rw [compileAll_cons, ih, compile_fst, List.map_cons]

theorem compileAll_follows (ss : List Schema) (hidle : r.inProgress = []) :
    Follows (bodies defs) (ss.flatMap wireRefs) r (compileAll defs ss r).2 := by
  induction ss generalizing r with
  | nil => exact .done
  | cons s rest ih =>
      have hfirst : Follows (bodies defs) (wireRefs s) r (compile defs s r).2 :=
        compile_follows hidle
      rw [compileAll_cons, List.flatMap_cons]
      exact hfirst.append (ih (hfirst.inProgress.trans hidle))

/-- What the rules derive of a list. -/
theorem sound_of_threads {ss : List Schema} {objects : List SchemaObject}
    (h : Threads (Compiles defs) ss r objects r') :
    objects = ss.map wireObject ∧ Follows (bodies defs) (ss.flatMap wireRefs) r r' := by
  induction h with
  | nil => exact ⟨rfl, .done⟩
  | cons hfirst _ ih =>
      obtain ⟨rfl, hs⟩ := hfirst.sound
      obtain ⟨rfl, hrest⟩ := ih
      exact ⟨rfl, hs.append hrest⟩

/-- **Compilations in turn** have one outcome, and reach it. -/
theorem compileAll_threads_iff {ss : List Schema} {objects : List SchemaObject}
    (hidle : r.inProgress = []) : Threads (Compiles defs) ss r objects r' ↔
      objects = (compileAll defs ss r).1 ∧ r' = (compileAll defs ss r).2 := by
  have hfollows : Follows (bodies defs) (ss.flatMap wireRefs) r (compileAll defs ss r).2 :=
    compileAll_follows ss hidle
  rw [compileAll_fst]
  constructor
  · intro h
    obtain ⟨hobjects, hthreads⟩ := sound_of_threads h
    exact ⟨hobjects, hthreads.unique hfollows⟩
  · rintro ⟨rfl, rfl⟩
    exact threads_of_linked (fun s _ => compilesShape_of_linked s) (linked_of_follows hfollows)

theorem compileAll_distinct (defs : Definitions) (ss : List Schema) :
    Entries.Distinct (compileAll defs ss {}).2.entries :=
  (compileAll_follows ss rfl).distinct Entries.distinct_nil

/-! ## References of several schemas -/

/-- A reference that one of some schemas reaches on the wire side. -/
def RefersIn (defs : Definitions) (ss : List Schema) (ref : String × String) : Prop :=
  ∃ s ∈ ss, Refers defs s ref

/-- Following the references of schemas leads to references that they reach, whatever is made of the
definitions. -/
theorem registered_of_follows {β : Type} {bodies : Bodies β} {ss : List Schema} {q : Registry β}
    (hrefs : ∀ target, bodies.refs target = wireRefs (defs.resolve target))
    (h : Follows bodies (ss.flatMap wireRefs) {} q) : Registered bodies (RefersIn defs ss) q := by
  refine h.registered ?_ ?_ Registry.registered_empty
  · intro ref hmem
    obtain ⟨s, hs, href⟩ := List.mem_flatMap.mp hmem
    exact ⟨s, hs, .here href⟩
  · rintro ref ⟨s, hs, href⟩ ref' hmem
    rw [hrefs] at hmem
    exact ⟨s, hs, .there href hmem⟩

/-- What compilations leave behind that start with nothing: everything they referred to is known, and
every body is the object of a definition that they reached. -/
theorem compileAll_registered (defs : Definitions) (ss : List Schema) :
    (compileAll defs ss {}).2.inProgress = [] ∧
      Registered (bodies defs) (RefersIn defs ss) (compileAll defs ss {}).2 ∧
        ∀ s ∈ ss, ∀ ref ∈ wireRefs s, (compileAll defs ss {}).2.knows ref.1 = true := by
  have hfollows : Follows (bodies defs) (ss.flatMap wireRefs) {} (compileAll defs ss {}).2 :=
    compileAll_follows ss rfl
  exact ⟨hfollows.inProgress, registered_of_follows (fun _ => rfl) hfollows,
    fun s hs ref href => hfollows.knows ref (List.mem_flatMap.mpr ⟨s, hs, href⟩)⟩

end Describe

end RouteContract
