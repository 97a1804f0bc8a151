import RouteContract.Schema.Basic

/-!
# Discriminated unions

A union is discriminated when every option is an object and all of them share a property that is an
enum with a single literal, a different one in each option. `Schema.discriminator?` finds the first
such property in the declaration order of the first option. The validator then goes straight to the
branch that a tag selects (`Schema.selects`) and the documentation names the property.
-/

namespace RouteContract.Schema

/-- The literal that an option declares for a key. -/
def tag? (option : Schema) (key : String) : Option Json :=
  (option.property? key).bind singleLiteral?

/-- The declared literals for a key, in option order. -/
def tags (options : List Schema) (key : String) : List Json :=
  options.filterMap (tag? · key)

/-- No two literals of the list are equal. -/
def pairwiseDistinct : List Json → Bool
  | [] => true
  | literal :: rest => !rest.any (Json.literalsEqual literal) && pairwiseDistinct rest

/-- Whether every option declares a literal for the key, all of them different. -/
def discriminates (options : List Schema) (key : String) : Bool :=
  options.all (fun option => (option.tag? key).isSome) && pairwiseDistinct (tags options key)

/-- The key by which a union is discriminated, if there is one. -/
def discriminator? (options : List Schema) : Option String :=
  match options with
  | [] => none
  | first :: _ =>
    if options.all (fun option => option.properties?.isSome) then
      (first.properties?.map Entries.keys).bind fun keys => keys.find? (discriminates options)
    else none

/-- Whether a tag selects an option. -/
def selects (option : Schema) (key : String) (tag : Json) : Bool :=
  match option.tag? key with
  | some literal => Json.literalsEqual literal tag
  | none => false

/-- The option that a tag selects, with its position. -/
def branch? (options : List Schema) (tag : Json) : Option (Nat × Schema) :=
  (discriminator? options).bind fun key =>
    (options.zipIdx.find? fun o => o.1.selects key tag).map fun o => (o.2, o.1)

/-! ## Laws -/

theorem discriminates_of_discriminator? {options : List Schema} {key : String}
    (h : discriminator? options = some key) : discriminates options key = true := by
  cases options with
  | nil => simp [discriminator?] at h
  | cons first rest =>
    simp only [discriminator?] at h
    split at h
    · obtain ⟨keys, _, hfind⟩ := Option.bind_eq_some_iff.1 h
      exact List.find?_some hfind
    · exact absurd h (by simp)

/-- In a discriminated union every option carries a tag. -/
theorem tag?_isSome_of_discriminator? {options : List Schema} {key : String}
    (h : discriminator? options = some key) : ∀ option ∈ options, (option.tag? key).isSome := by
  have hd := discriminates_of_discriminator? h
  simp only [discriminates, Bool.and_eq_true, List.all_eq_true] at hd
  exact hd.1

end RouteContract.Schema
