import Mathlib.Order.Lattice
import RouteContract.Proofs.Document.Compile

/-!
# Admits -- what a schema object says about a value

`SchemaObject.Admits` reads a schema object, with the definitions it refers to, as a condition on
values: `type`, `enum`, `properties`, `required`, `items` and `additionalProperties` as JSON Schema
has them, literals compared as the validator compares them, `allOf` for all of its parts, `oneOf` for
at least one, a reference for what the definition admits, and `nullable` for null. Definitions may
refer to each other in a circle; a value is admitted when finitely many steps show it.

For each form of schema object that a compilation makes there is one lemma that introduces it.
-/

namespace RouteContract

def Json.isNull : Json → Bool
  | .null => true
  | _ => false

namespace SchemaObject

/-! ## The reading -/

/-- The definition that a reference points to. -/
def definition? (definitions : Entries SchemaObject) (ref : String) : Option SchemaObject :=
  (definitions.find? fun definition => pointer definition.1 == ref).map Prod.snd

/-- Whether a value agrees with every keyword, given what the schema objects inside admit. -/
def agrees (definitions : Entries SchemaObject) (admits : SchemaObject → Json → Bool)
    (node : SchemaObject) (v : Json) : Bool :=
  node.type.all (· == v.typeName) &&
  node.enum.all (fun literals => literals.any (Json.literalsEqual · v)) &&
  node.properties.all (fun properties => v.members?.all fun ms =>
    properties.all fun p => (Entries.get? ms p.1).all (admits p.2)) &&
  v.members?.all (fun ms => node.required.all (Entries.has ms)) &&
  node.items.all (fun items => v.elements?.all fun xs => xs.all (admits items)) &&
  node.additionalProperties.all (fun values => v.members?.all fun ms =>
    ms.all fun m => node.properties.any (Entries.has · m.1) || admits values m.2) &&
  node.oneOf.all (fun options => options.any (admits · v)) &&
  node.allOf.all (fun parts => parts.all (admits · v)) &&
  node.ref.all (fun ref => (definition? definitions ref).any (admits · v))

/-- Whether at most the given number of steps, each into a schema object inside or into a definition,
show that a value is admitted. -/
def admitsUpTo (definitions : Entries SchemaObject) : Nat → SchemaObject → Json → Bool
  | 0, _, _ => false
  | steps + 1, node, v =>
    node.nullable && v.isNull || agrees definitions (admitsUpTo definitions steps) node v

/-- **The schema object admits the value.** -/
def Admits (definitions : Entries SchemaObject) (node : SchemaObject) (v : Json) : Prop :=
  ∃ steps, admitsUpTo definitions steps node v = true

variable {definitions : Entries SchemaObject} {node : SchemaObject} {v : Json}

/-! ## More steps show more -/

theorem agrees_mono {admits admits' : SchemaObject → Json → Bool}
    (h : ∀ node v, admits node v = true → admits' node v = true)
    (hk : agrees definitions admits node v = true) :
    agrees definitions admits' node v = true := by
  simp only [agrees, Bool.and_eq_true, Option.all_eq_true, List.all_eq_true, List.any_eq_true,
    Option.any_eq_true, Bool.or_eq_true] at hk ⊢
  obtain ⟨⟨⟨⟨⟨⟨⟨⟨htype, henum⟩, hproperties⟩, hrequired⟩, hitems⟩, hvalues⟩, honeOf⟩, hallOf⟩, href⟩ := hk
  refine ⟨⟨⟨⟨⟨⟨⟨⟨htype, henum⟩, ?_⟩, hrequired⟩, ?_⟩, ?_⟩, ?_⟩, ?_⟩, ?_⟩
  · exact fun properties hp ms hms p hmem x hx => h _ _ (hproperties properties hp ms hms p hmem x hx)
  · exact fun items hi xs hxs x hx => h _ _ (hitems items hi xs hxs x hx)
  · exact fun values hv ms hms m hm => (hvalues values hv ms hms m hm).imp_right (h _ _)
  · exact fun options ho => (honeOf options ho).imp fun _ ho => ⟨ho.1, h _ _ ho.2⟩
  · exact fun parts hp part hmem => h _ _ (hallOf parts hp part hmem)
  · exact fun ref hr => (href ref hr).imp fun _ hd => ⟨hd.1, h _ _ hd.2⟩

theorem admitsUpTo_mono {n m : Nat} (hle : n ≤ m) (h : admitsUpTo definitions n node v = true) :
    admitsUpTo definitions m node v = true := by
  induction n generalizing m node v with
  | zero => cases h
  | succ n ih =>
      obtain ⟨m, rfl⟩ : ∃ k, m = k + 1 := ⟨m - 1, by omega⟩
      rw [admitsUpTo, Bool.or_eq_true] at h ⊢
      exact h.imp_right (agrees_mono fun node v hn => ih (by omega) hn)

/-- What is shown pair by pair is shown of all pairs in one number of steps. -/
theorem exists_steps {pairs : List (SchemaObject × Json)}
    (h : ∀ pair ∈ pairs, Admits definitions pair.1 pair.2) :
    ∃ n, ∀ pair ∈ pairs, admitsUpTo definitions n pair.1 pair.2 = true := by
  induction pairs with
  | nil => exact ⟨0, by simp⟩
  | cons pair rest ih =>
      rw [List.forall_mem_cons] at h
      obtain ⟨n, hn⟩ := h.1
      obtain ⟨m, hm⟩ := ih h.2
      refine ⟨max n m, List.forall_mem_cons.mpr ⟨?_, fun other hother => ?_⟩⟩
      · exact admitsUpTo_mono (Nat.le_max_left n m) hn
      · exact admitsUpTo_mono (Nat.le_max_right n m) (hm other hother)

/-- A value that agrees with the keywords is admitted. -/
theorem Admits.of_agrees {n : Nat}
    (h : agrees definitions (admitsUpTo definitions n) node v = true) :
    Admits definitions node v :=
  ⟨n + 1, by rw [admitsUpTo, h, Bool.or_true]⟩

/-! ## Forms -/

/-- Null is admitted where it is said to be. -/
theorem Admits.null (h : node.nullable = true) : Admits definitions node .null :=
  ⟨1, by rw [admitsUpTo, h]; rfl⟩

theorem Admits.ofType {name : String} (h : v.typeName = name) :
    Admits definitions (.ofType name) v := by
  refine .of_agrees (n := 0) ?_
  -- no keyword but the type is set; the value decides which of the others could apply
  cases v <;> simp [agrees, SchemaObject.ofType, h.symm, Json.members?]

theorem Admits.empty : Admits definitions {} v := by
  refine .of_agrees (n := 0) ?_
  cases v <;> simp [agrees, Json.members?]

theorem Admits.enum {name : Option String} {literals : List Json}
    (hname : ∀ n, name = some n → v.typeName = n)
    (h : ∃ literal ∈ literals, Json.literalsEqual literal v = true) :
    Admits definitions { type := name, enum := some literals } v := by
  refine .of_agrees (n := 0) ?_
  have htype : name.all (· == v.typeName) = true := by
    cases name with
    | none => rfl
    | some n => simp [hname n rfl]
  have hany : literals.any (Json.literalsEqual · v) = true := List.any_eq_true.mpr h
  cases v <;> simp [agrees, Json.members?, htype, hany]

theorem Admits.oneOf {options : List SchemaObject} {key : Option String} {option : SchemaObject}
    (hmem : option ∈ options) (h : Admits definitions option v) :
    Admits definitions { oneOf := some options, discriminator := key } v := by
  obtain ⟨n, hn⟩ := h
  refine .of_agrees (n := n) ?_
  have hany : options.any (admitsUpTo definitions n · v) = true :=
    List.any_eq_true.mpr ⟨option, hmem, hn⟩
  cases v <;> simp [agrees, Json.members?, hany]

theorem Admits.array {items : SchemaObject} {xs : List Json}
    (h : ∀ x ∈ xs, Admits definitions items x) :
    Admits definitions { SchemaObject.ofType "array" with items := some items } (.arr xs) := by
  obtain ⟨n, hn⟩ := exists_steps (List.forall_mem_map.mpr h : ∀ pair ∈ xs.map (items, ·), _)
  rw [List.forall_mem_map] at hn
  refine .of_agrees (n := n) ?_
  have hall : xs.all (admitsUpTo definitions n items) = true := List.all_eq_true.mpr hn
  simp [agrees, SchemaObject.ofType, Json.elements?, Json.members?, Json.typeName, hall]

theorem Admits.object {properties : Entries SchemaObject} {required : List String}
    {ms : Entries Json} (hrequired : ∀ key ∈ required, Entries.has ms key = true)
    (h : ∀ p ∈ properties, ∀ x, Entries.get? ms p.1 = some x → Admits definitions p.2 x) :
    Admits definitions { SchemaObject.ofType "object" with properties := some properties, required }
      (.obj ms) := by
  -- only properties that have a member are looked at
  let pairs := properties.filterMap fun p => (Entries.get? ms p.1).map fun x => (p.2, x)
  have hpairs : ∀ pair ∈ pairs, Admits definitions pair.1 pair.2 := by
    intro pair hmem
    obtain ⟨p, hp, hpair⟩ := List.mem_filterMap.mp hmem
    obtain ⟨x, hx, rfl⟩ := Option.map_eq_some_iff.mp hpair
    exact h p hp x hx
  obtain ⟨n, hn⟩ := exists_steps hpairs
  refine .of_agrees (n := n) ?_
  have hproperties : properties.all (fun p =>
      (Entries.get? ms p.1).all (admitsUpTo definitions n p.2)) = true := by
    simp only [List.all_eq_true, Option.all_eq_true]
    intro p hp x hx
    exact hn (p.2, x) (List.mem_filterMap.mpr ⟨p, hp, by rw [hx]; rfl⟩)
  have hkeys : required.all (Entries.has ms) = true := List.all_eq_true.mpr hrequired
  simp [agrees, SchemaObject.ofType, Json.members?, Json.typeName, hproperties, hkeys]

theorem Admits.map {values : SchemaObject} {ms : Entries Json}
    (h : ∀ m ∈ ms, Admits definitions values m.2) :
    Admits definitions { SchemaObject.ofType "object" with additionalProperties := some values }
      (.obj ms) := by
  obtain ⟨n, hn⟩ := exists_steps (List.forall_mem_map.mpr h : ∀ pair ∈ ms.map (values, ·.2), _)
  rw [List.forall_mem_map] at hn
  refine .of_agrees (n := n) ?_
  have hall : ms.all (fun m => admitsUpTo definitions n values m.2) = true := List.all_eq_true.mpr hn
  simp [agrees, SchemaObject.ofType, Json.elements?, Json.members?, Json.typeName, hall]

theorem definition?_pointer {name : String} {body : SchemaObject}
    (h : Entries.get? definitions name = some body) :
    definition? definitions (pointer name) = some body := by
  induction definitions with
  | nil => cases h
  | cons e rest ih =>
      obtain ⟨k, other⟩ := e
      unfold definition? at ih ⊢
      rw [List.find?_cons]
      by_cases hk : k = name
      · subst hk
        rw [Entries.get?, if_pos rfl] at h
        simp [h]
      · rw [Entries.get?, if_neg hk] at h
        -- a pointer is a fixed text before the name, so other names have other pointers
        have hpointer : (pointer k == pointer name) = false :=
          beq_eq_false_iff_ne.mpr fun heq => hk ((String.append_right_inj _).mp heq)
        rw [hpointer]
        exact ih h

theorem Admits.reference {name : String} {body : SchemaObject}
    (hbody : Entries.get? definitions name = some body) (h : Admits definitions body v) :
    Admits definitions (.reference name) v := by
  obtain ⟨n, hn⟩ := h
  refine .of_agrees (n := n) ?_
  have hdefinition := definition?_pointer hbody
  cases v <;> simp [agrees, SchemaObject.reference, Json.members?, hdefinition, hn]

/-- The title says nothing about values. -/
theorem Admits.titled {title : Option String} (h : Admits definitions node v) :
    Admits definitions { node with title } v := by
  obtain ⟨n, hn⟩ := h
  refine ⟨n, ?_⟩
  cases n <;> exact hn

/-- Wrapping a reference keeps what it admits. -/
theorem Admits.allOf {description : Option String} {nullable : Bool}
    (h : Admits definitions node v) :
    Admits definitions { allOf := some [node], description, nullable } v := by
  obtain ⟨n, hn⟩ := h
  refine .of_agrees (n := n) ?_
  cases v <;> simp [agrees, Json.members?, hn]

/-- An object that is not said to be nullable admits what it admits by its keywords. -/
theorem Admits.agrees (h : Admits definitions node v) (hnullable : node.nullable = false) :
    ∃ n, agrees definitions (admitsUpTo definitions n) node v = true := by
  obtain ⟨n, hn⟩ := h
  cases n with
  | zero => cases hn
  | succ n =>
      rw [admitsUpTo, hnullable] at hn
      exact ⟨n, hn⟩

theorem Admits.annotated {description : Option String} {nullable : Bool}
    (h : Admits definitions node v) (hnullable : node.nullable = false) :
    Admits definitions { node with description, nullable } v := by
  obtain ⟨n, hn⟩ := h.agrees hnullable
  exact .of_agrees (n := n) hn

end SchemaObject

namespace Describe

open SchemaObject (Admits)

variable {definitions : Entries SchemaObject} {node : SchemaObject} {v : Json} {s : Schema}

/-! ## Nodes of a schema -/

/-- What is added to a shape takes nothing away from it. -/
theorem admits_annotate {required : Bool} {description : Option String}
    (hnullable : node.nullable = false) (h : Admits definitions node v) :
    Admits definitions (annotate required description node) v := by
  unfold annotate
  split
  · split
    · exact h
    · exact h.allOf
  · exact h.annotated hnullable

/-- A schema admits what its shape admits. -/
theorem admits_wireObject (h : Admits definitions (wireShape s.kind) v) :
    Admits definitions (wireObject s) v := by
  rw [wireObject_eq]
  exact admits_annotate (wireShape_nullable s) h

/-- An optional schema admits null. -/
theorem admits_null (hrequired : s.required = false) :
    Admits definitions (wireObject s) .null := by
  rw [wireObject_eq, annotate, hrequired]
  apply SchemaObject.Admits.null
  split <;> simp

/-- The common type of literals is the type of a value that equals one of them. -/
theorem typeName_of_literalType? {literals : List Json} {name : String}
    (hname : literalType? literals = some name) {literal : Json} (hmem : literal ∈ literals)
    (hequal : Json.literalsEqual literal v = true) : v.typeName = name := by
  -- values of different types are never equal as literals
  have hsame : literal.typeName = v.typeName := by
    cases literal <;> cases v <;> first | rfl | cases hequal
  rw [← hsame]
  unfold literalType? at hname
  split_ifs at hname with _ hstring hnumber hbool <;> cases hname
  · have h := List.all_eq_true.mp hstring literal hmem
    cases literal <;> first | rfl | cases h
  · have h := List.all_eq_true.mp hnumber literal hmem
    cases literal <;> first | rfl | cases h
  · have h := List.all_eq_true.mp hbool literal hmem
    cases literal <;> first | rfl | cases h

end Describe

end RouteContract
