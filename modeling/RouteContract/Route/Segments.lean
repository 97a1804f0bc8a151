/-!
# Segments -- paths as lists of names between slashes

`Path.split` cuts a path at every slash and keeps empty parts, `Path.segments` drops them, and
`Path.join` puts the segments of two paths behind single slashes. Joining depends on the segments
alone, so how a path is divided between its two arguments does not matter.
-/

namespace RouteContract.Path

/-- The parts between separators; there is one more part than separators. -/
def splitChars (separator : Char) : List Char → List (List Char)
  | [] => [[]]
  | c :: rest =>
    if c = separator then [] :: splitChars separator rest
    else match splitChars separator rest with
      | [] => [[c]]
      | part :: parts => (c :: part) :: parts

/-- The parts of a path between slashes, empty ones included. -/
def split (path : String) : List String := (splitChars '/' path.toList).map String.ofList

/-- The non-empty parts of a path. -/
def segments (path : String) : List String := (split path).filter fun s => !s.isEmpty

/-- A path with the given segments. -/
def ofSegments (parts : List String) : String := "/" ++ "/".intercalate parts

/-- The path with the segments of `base` and then those of `fragment`. -/
def join (base fragment : String) : String := ofSegments (segments base ++ segments fragment)

/-! ## Laws -/

theorem splitChars_ne_nil (separator : Char) (cs : List Char) : splitChars separator cs ≠ [] := by
  cases cs with
  | nil => simp [splitChars]
  | cons c rest =>
    simp only [splitChars]
    split
    · simp
    · split <;> simp

/-- No part holds a separator. -/
theorem not_mem_of_mem_splitChars {separator : Char} {cs part : List Char}
    (h : part ∈ splitChars separator cs) : separator ∉ part := by
  induction cs generalizing part with
  | nil =>
    simp only [splitChars, List.mem_singleton] at h
    simp [h]
  | cons c rest ih =>
    simp only [splitChars] at h
    split at h
    · rcases List.mem_cons.1 h with rfl | h
      · simp
      · exact ih h
    · rename_i hc
      split at h
      · rename_i hnil
        exact absurd hnil (splitChars_ne_nil separator rest)
      · rename_i first others heq
        rcases List.mem_cons.1 h with rfl | h
        · intro hmem
          rcases List.mem_cons.1 hmem with rfl | hmem
          · exact hc rfl
          · exact ih (heq ▸ List.mem_cons_self) hmem
        · exact ih (heq ▸ List.mem_cons_of_mem _ h)

end RouteContract.Path
