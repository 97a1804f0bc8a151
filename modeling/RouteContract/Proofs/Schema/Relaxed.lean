import Mathlib.Data.List.Forall2
import RouteContract.Proofs.Schema.Discriminator
import RouteContract.Proofs.Schema.Reach

/-!
# Relaxed -- schemas that differ in cleared flags only

A schema is relaxed by clearing the required flag of some of its nodes, anywhere in it and in the
definitions it refers to. The two schemas are then related node by node (`Schema.Relaxed`): the same
shape, the same refinement, the same conversions, and a flag that is set after relaxing was set
before. Recursive definitions have no last node, so the relation is the largest one that passes from
nodes to the schemas inside (`Relaxing`), and one such relation is given where two schemas are shown
to be related.

Which option a tag selects is read off shapes and literals, so relaxed unions are discriminated by
the same key and dispatch the same way (`Relaxed.readsAlike`).
-/

namespace RouteContract

/-- The same shape, with related schemas inside. A lazy node stands for related definitions. -/
inductive Kind.Matches (defs defs' : Definitions) (R : Schema → Schema → Prop) :
    Kind Schema → Kind Schema → Prop
  | number : Matches defs defs' R .number .number
  | string : Matches defs defs' R .string .string
  | boolean : Matches defs defs' R .boolean .boolean
  | any : Matches defs defs' R .any .any
  | enum {options} : Matches defs defs' R (.enum options) (.enum options)
  | oneOf {options options'} (h : List.Forall₂ R options options') :
      Matches defs defs' R (.oneOf options) (.oneOf options')
  | array {items items'} (h : R items items') : Matches defs defs' R (.array items) (.array items')
  | object {properties properties' : Entries Schema}
      (h : List.Forall₂ (fun e e' => e.1 = e'.1 ∧ R e.2 e'.2) properties properties') :
      Matches defs defs' R (.object properties) (.object properties')
  | map {values values'} (h : R values values') : Matches defs defs' R (.map values) (.map values')
  | lazy {name target target'} (h : R (defs.resolve target) (defs'.resolve target')) :
      Matches defs defs' R (.lazy name target) (.lazy name target')
  | transform {encoded encoded' decoded decoded' decode encode} (he : R encoded encoded')
      (hd : R decoded decoded') :
      Matches defs defs' R (.transform encoded decoded decode encode)
        (.transform encoded' decoded' decode encode)
  | custom {name parent parent' decode} (h : R parent parent') :
      Matches defs defs' R (.custom name parent decode) (.custom name parent' decode)

namespace Kind.Matches

variable {defs defs' : Definitions} {R S : Schema → Schema → Prop} {k k' : Kind Schema}

theorem mono (h : k.Matches defs defs' R k') (hRS : ∀ s s', R s s' → S s s') :
    k.Matches defs defs' S k' := by
  cases h with
  | number => exact .number
  | string => exact .string
  | boolean => exact .boolean
  | any => exact .any
  | enum => exact .enum
  | oneOf h => exact .oneOf (h.imp hRS)
  | array h => exact .array (hRS _ _ h)
  | object h => exact .object (h.imp fun _ _ he => ⟨he.1, hRS _ _ he.2⟩)
  | map h => exact .map (hRS _ _ h)
  | lazy h => exact .lazy (hRS _ _ h)
  | transform he hd => exact .transform (hRS _ _ he) (hRS _ _ hd)
  | custom h => exact .custom (hRS _ _ h)

theorem refl (hR : ∀ s, R s s) (k : Kind Schema) : k.Matches defs defs R k := by
  cases k with
  | number => exact .number
  | string => exact .string
  | boolean => exact .boolean
  | any => exact .any
  | enum => exact .enum
  | oneOf options => exact .oneOf (List.forall₂_same.mpr fun s _ => hR s)
  | array => exact .array (hR _)
  | object properties => exact .object (List.forall₂_same.mpr fun e _ => ⟨rfl, hR e.2⟩)
  | map => exact .map (hR _)
  | lazy => exact .lazy (hR _)
  | transform => exact .transform (hR _) (hR _)
  | custom => exact .custom (hR _)

theorem isCodec_eq (h : k.Matches defs defs' R k') : k'.isCodec = k.isCodec := by cases h <;> rfl

end Kind.Matches

namespace Schema

variable {defs defs' : Definitions}

/-- A relation along which flags are only cleared, and nothing else changes. -/
structure Relaxing (defs defs' : Definitions) (R : Schema → Schema → Prop) : Prop where
  required : ∀ {s s'}, R s s' → s'.required = true → s.required = true
  refinement : ∀ {s s'}, R s s' → s'.refinement = s.refinement
  kind : ∀ {s s'}, R s s' → s.kind.Matches defs defs' R s'.kind

/-- **The second schema is the first one with some required flags cleared**, at any depth and in the
definitions. -/
def Relaxed (defs defs' : Definitions) (s s' : Schema) : Prop :=
  ∃ R, Relaxing defs defs' R ∧ R s s'

/-- Of all relations along which flags are only cleared this is the largest. -/
theorem relaxing_relaxed : Relaxing defs defs' (Relaxed defs defs') where
  required := fun ⟨_, hR, h⟩ => hR.required h
  refinement := fun ⟨_, hR, h⟩ => hR.refinement h
  kind := fun ⟨R, hR, h⟩ => (hR.kind h).mono fun _ _ h => ⟨R, hR, h⟩

theorem Relaxed.required {s s' : Schema} (h : Relaxed defs defs' s s') (hs' : s'.required = true) :
    s.required = true :=
  relaxing_relaxed.required h hs'

theorem Relaxed.refinement {s s' : Schema} (h : Relaxed defs defs' s s') :
    s'.refinement = s.refinement :=
  relaxing_relaxed.refinement h

theorem Relaxed.kind {s s' : Schema} (h : Relaxed defs defs' s s') :
    s.kind.Matches defs defs' (Relaxed defs defs') s'.kind :=
  relaxing_relaxed.kind h

/-- A node may be made optional. -/
theorem relaxed_asOptional (s : Schema) : Relaxed defs defs s s.asOptional := by
  refine ⟨fun t t' => t' = t ∨ t' = t.asOptional, ⟨?_, ?_, ?_⟩, .inr rfl⟩
  · rintro t _ (rfl | rfl) h
    · exact h
    · cases h
  · rintro t _ (rfl | rfl) <;> rfl
  · rintro t _ (rfl | rfl) <;> exact .refl (fun _ => .inl rfl) _

/-! ## Discrimination -/

/-- Every union in the schema goes by a tag. -/
def Discriminated (defs : Definitions) (s : Schema) : Prop :=
  Throughout defs (fun t => ∀ options, t.kind = .oneOf options → (discriminator? options).isSome) s

theorem Relaxed.singleLiteral?_eq {s s' : Schema} (h : Relaxed defs defs' s s') :
    s'.singleLiteral? = s.singleLiteral? := by
  have hkind := h.kind
  unfold singleLiteral?
  generalize s.kind = k at hkind
  generalize s'.kind = k' at hkind
  cases hkind <;> rfl

theorem Relaxed.properties? {s s' : Schema} (h : Relaxed defs defs' s s') :
    Option.Rel (List.Forall₂ fun e e' => e.1 = e'.1 ∧ Relaxed defs defs' e.2 e'.2)
      s.properties? s'.properties? := by
  have hkind := h.kind
  unfold Schema.properties?
  generalize s.kind = k at hkind
  generalize s'.kind = k' at hkind
  cases hkind with
  | object h => exact .some h
  | _ => exact .none

/-- Relaxed options declare the same names and the same tags. -/
theorem Relaxed.readsAlike {s s' : Schema} (h : Relaxed defs defs' s s') : ReadsAlike s s' := by
  refine ⟨?_, fun key => ?_⟩
  · obtain ⟨hnone, hnone'⟩ | ⟨properties, properties', hsome, hsome', hprops⟩ :=
      rel_cases h.properties?
    · rw [hnone, hnone']
    · rw [hsome, hsome', Option.map_some, Option.map_some, Entries.keys_eq_of_forall₂ hprops]
  · unfold tag? property?
    obtain ⟨hnone, hnone'⟩ | ⟨properties, properties', hsome, hsome', hprops⟩ :=
      rel_cases h.properties?
    · rw [hnone, hnone']
    · rw [hsome, hsome', Option.bind_some, Option.bind_some]
      obtain ⟨hget, hget'⟩ | ⟨t, t', hget, hget', ht⟩ :=
        rel_cases (Entries.get?_of_forall₂ hprops key)
      · rw [hget, hget']
      · rw [hget, hget']
        exact ht.singleLiteral?_eq

end Schema

end RouteContract
