/-!
# Entries -- named values in insertion order

JSON objects, property lists, shared definitions and document paths are all lists of named values
whose order shows. `Entries.put` keeps the first position of a name and its last value; the lemmas
say what it does to the two views, `Entries.get?` and `Entries.keys`.
-/

namespace RouteContract

/-- Named values in insertion order. -/
abbrev Entries (β : Type) := List (String × β)

namespace Entries

variable {β γ : Type}

/-- The first value with the given name. -/
def get? : Entries β → String → Option β
  | [], _ => none
  | (k, v) :: rest, key => if k = key then some v else get? rest key

/-- Whether a name is present. -/
def has (es : Entries β) (key : String) : Bool := (get? es key).isSome

/-- The names, in order. -/
def keys (es : Entries β) : List String := es.map Prod.fst

/-- The values, in order. -/
def values (es : Entries β) : List β := es.map Prod.snd

/-- Sets a value: an existing name keeps its position, a new one goes to the end. -/
def put : Entries β → String → β → Entries β
  | [], key, value => [(key, value)]
  | (k, v) :: rest, key, value =>
    if k = key then (k, value) :: rest else (k, v) :: put rest key value

/-- Entries from a list that may repeat names. -/
def ofList (es : List (String × β)) : Entries β :=
  es.foldl (fun acc e => put acc e.1 e.2) []

/-- Applies a function to every value. -/
def mapValues (f : β → γ) (es : Entries β) : Entries γ := es.map fun e => (e.1, f e.2)

/-- No name occurs twice. -/
def Distinct (es : Entries β) : Prop := (keys es).Nodup

/-! ## Laws of `put` -/

@[simp] theorem get?_nil (key : String) : get? ([] : Entries β) key = none := rfl

@[simp] theorem keys_nil : keys ([] : Entries β) = [] := rfl

@[simp] theorem keys_cons (e : String × β) (es : Entries β) : keys (e :: es) = e.1 :: keys es := rfl

theorem get?_put (es : Entries β) (key : String) (value : β) (other : String) :
    get? (put es key value) other = if key = other then some value else get? es other := by
  induction es with
  | nil => rfl
  | cons e rest ih =>
    obtain ⟨k, v⟩ := e
    by_cases hk : k = key
    · subst hk
      by_cases ho : k = other <;> simp [put, get?, ho]
    · by_cases ho : k = other
      · subst ho
        have : ¬key = k := fun h => hk h.symm
        simp [put, get?, hk, this]
      · simp [put, get?, hk, ho, ih]

theorem has_iff_mem_keys (es : Entries β) (key : String) : has es key = true ↔ key ∈ keys es := by
  induction es with
  | nil => simp [has]
  | cons e rest ih =>
    obtain ⟨k, v⟩ := e
    by_cases hk : k = key
    · simp [has, get?, hk]
    · have hk' : ¬key = k := fun h => hk h.symm
      simp only [has, get?, hk, if_false, keys_cons, List.mem_cons, hk', false_or]
      exact ih

theorem keys_put (es : Entries β) (key : String) (value : β) :
    keys (put es key value) = if key ∈ keys es then keys es else keys es ++ [key] := by
  induction es with
  | nil => rfl
  | cons e rest ih =>
    obtain ⟨k, v⟩ := e
    by_cases hk : k = key
    · subst hk
      simp [put]
    · have hk' : ¬key = k := fun h => hk h.symm
      simp only [put, hk, if_false, keys_cons, List.mem_cons, hk', false_or, ih]
      split <;> rfl

theorem Distinct.put {es : Entries β} (h : Distinct es) (key : String) (value : β) :
    Distinct (put es key value) := by
  unfold Distinct
  rw [keys_put]
  split
  · exact h
  · rename_i hmem
    rw [List.nodup_append]
    refine ⟨h, by simp, ?_⟩
    intro a ha b hb
    simp only [List.mem_singleton] at hb
    subst hb
    intro hab
    exact hmem (hab ▸ ha)

theorem distinct_nil : Distinct ([] : Entries β) := List.nodup_nil

end Entries

end RouteContract
