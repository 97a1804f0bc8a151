import RouteContract.Proofs.Validation.Places

/-!
# Paths -- moving paths under other paths

A visit says the same at every path, so what it says under a base can be written down from what it
says at the root, by moving every path under the base (`Placed.under`). Written paths lose the place
they came from, though, when a name is empty or looks like an element: names have to be plain.
-/

namespace RouteContract

namespace Visit

/-- Path of something below a base, from its path as seen from there: the root is the base itself, an
element follows directly, a member after a dot. -/
def pathUnder (base path : String) : String :=
  if path = "" then base
  else if path.toList.head? = some '[' then base ++ path
  else base ++ "." ++ path

/-- A name that cannot be taken for the root or for an element. -/
def PlainName (name : String) : Prop := name ≠ "" ∧ name.toList.head? ≠ some '['

/-- What a path adds to its base. -/
def underBase : List Char → List Char
  | [] => []
  | c :: rest => if c = '[' then c :: rest else '.' :: c :: rest

theorem toList_pathUnder (base path : String) :
    (pathUnder base path).toList = base.toList ++ underBase path.toList := by
  unfold pathUnder
  by_cases hempty : path = ""
  · subst hempty
    simp [underBase]
  · rw [if_neg hempty]
    cases hpath : path.toList with
    | nil => exact absurd (String.toList_eq_nil_iff.mp hpath) hempty
    | cons c rest =>
        simp only [List.head?_cons, Option.some.injEq]
        by_cases hc : c = '['
        · rw [if_pos hc, String.toList_append, hpath, underBase, if_pos hc]
        · rw [if_neg hc, String.toList_append, String.toList_append, hpath, underBase, if_neg hc,
            List.append_assoc]
          rfl

theorem underBase_injective : Function.Injective underBase := by
  intro l m h
  cases l with
  | nil => cases m with
    | nil => rfl
    | cons d m => simp only [underBase] at h; split at h <;> cases h
  | cons c l => cases m with
    | nil => simp only [underBase] at h; split at h <;> cases h
    | cons d m =>
        simp only [underBase] at h
        split at h <;> split at h
        · exact h
        · next hc _ => cases h; exact absurd hc (by decide)
        · next hd => cases h; exact absurd hd (by decide)
        · exact (List.cons.inj h).2

/-- Different paths stay different under a base. -/
theorem pathUnder_injective (base : String) : Function.Injective (pathUnder base) := by
  intro p q h
  have hlist := congrArg String.toList h
  rw [toList_pathUnder, toList_pathUnder] at hlist
  exact String.toList_injective (underBase_injective (List.append_cancel_left hlist))

theorem stepPath_ne_empty {path : String} (hpath : path ≠ "") (step : Step) :
    stepPath path step ≠ "" := by
  cases step with
  | key name => simp [stepPath, childPath, hpath]
  | index i => simp [stepPath, elementPath]

/-- What a step adds to a path that is not empty. -/
def stepText : Step → List Char
  | .key name => '.' :: name.toList
  | .index position => '[' :: ((toString position).toList ++ [']'])

theorem toList_stepPath {path : String} (hpath : path ≠ "") (step : Step) :
    (stepPath path step).toList = path.toList ++ stepText step := by
  cases step with
  | key name => simp [stepPath, childPath, hpath, stepText]
  | index position => simp [stepPath, elementPath, stepText]

theorem toList_placePath {path : String} (hpath : path ≠ "") (place : Place) :
    (placePath path place).toList = path.toList ++ place.flatMap stepText := by
  induction place generalizing path with
  | nil => exact (List.append_nil _).symm
  | cons step rest ih =>
      show (placePath (stepPath path step) rest).toList = _
      rw [ih (stepPath_ne_empty hpath step), toList_stepPath hpath, List.flatMap_cons,
        List.append_assoc]

/-- At the root the first dot is missing, and nothing else, if the first step is not to a name that is
empty or looks like an element. -/
theorem underBase_placePath {place : Place} (hplain : ∀ name, .key name ∈ place → PlainName name) :
    underBase (placePath "" place).toList = place.flatMap stepText := by
  cases place with
  | nil => rfl
  | cons step rest =>
      show underBase (placePath (stepPath "" step) rest).toList = _
      cases step with
      | index i =>
          have hfirst : (stepPath "" (.index i)).toList = stepText (.index i) := by
            simp [stepPath, elementPath, stepText]
          have hne : stepPath "" (.index i) ≠ "" := by simp [stepPath, elementPath]
          rw [toList_placePath hne, hfirst]
          rfl
      | key name =>
          obtain ⟨hname, hbracket⟩ := hplain name List.mem_cons_self
          obtain ⟨c, others, hlist⟩ : ∃ c others, name.toList = c :: others :=
            List.exists_cons_of_ne_nil fun hnil => hname (String.toList_eq_nil_iff.mp hnil)
          have hc : c ≠ '[' := fun heq => hbracket (by rw [hlist, heq]; rfl)
          show underBase (placePath name rest).toList = _
          rw [toList_placePath hname, List.flatMap_cons, stepText, hlist, List.cons_append, underBase,
            if_neg hc]
          rfl

/-- **The path of a place under a base** is the path of the place alone, moved under the base, if its
names are plain. -/
theorem placePath_eq_pathUnder {base : String} (hbase : base ≠ "") {place : Place}
    (hplain : ∀ name, .key name ∈ place → PlainName name) :
    placePath base place = pathUnder base (placePath "" place) := by
  refine String.toList_injective ?_
  rw [toList_placePath hbase, toList_pathUnder, underBase_placePath hplain]

end Visit

namespace Placed

variable {α : Type} {names : String → Prop}

/-- A visit under a base says what it says at the root, under the base. -/
theorem under {visit : String → Visit α} (h : Placed names visit)
    (hplain : ∀ name, names name → Visit.PlainName name) {base : String} (hbase : base ≠ "") :
    visit base = (visit "").mapReason (List.map (Finding.mapPath (Visit.pathUnder base))) := by
  obtain ⟨core, hcore, hcomplaints⟩ := h
  rw [hcore base, hcore ""]
  cases core with
  | failed complaints =>
      simp only [Outcome.mapReason, List.map_map, Outcome.failed.injEq]
      refine List.map_congr_left fun c hc => ?_
      have hpath := Visit.placePath_eq_pathUnder hbase fun name hname =>
        hplain name ((hcomplaints complaints rfl).named c hc name hname)
      simp only [Function.comp, Complaint.finding, Finding.mapPath, hpath]
  | _ => rfl

end Placed

end RouteContract
