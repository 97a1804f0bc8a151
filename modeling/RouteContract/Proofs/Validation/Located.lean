import RouteContract.Proofs.Decimal.Digits
import RouteContract.Proofs.Text.Runs
import RouteContract.Proofs.Validation.Grouping
import RouteContract.Proofs.Validation.Paths

/-!
# Located -- a path says which place it was written for

Behind a base, a step to a member is a dot and the name, and a step to an element is the index in
brackets. If no name holds a dot or an opening bracket, a name ends where the next step begins, so
the steps can be read off the path, also at the root, where the first dot is missing
(`Visit.placePath_injective`). Then every issue of a report belongs to one place
(`Validator.issues_identify_places`).
-/

namespace RouteContract

deriving instance DecidableEq for Step

namespace Visit

/-! ## Names that end where the next step begins -/

/-- A name without the characters that a step begins with. -/
def ClearName (name : String) : Prop := name ≠ "" ∧ '.' ∉ name.toList ∧ '[' ∉ name.toList

/-- A place that is reached by clear names. -/
def ClearPlace (place : Place) : Prop := ∀ name, .key name ∈ place → ClearName name

/-- A character that a clear name may hold. -/
def inName (c : Char) : Bool := c != '.' && c != '['

theorem ClearName.inName {name : String} (h : ClearName name) : ∀ c ∈ name.toList, inName c = true := by
  intro c hc
  have hdot : c ≠ '.' := fun heq => h.2.1 (heq ▸ hc)
  have hbracket : c ≠ '[' := fun heq => h.2.2 (heq ▸ hc)
  simp [Visit.inName, hdot, hbracket]

theorem ClearName.plain {name : String} (h : ClearName name) : PlainName name :=
  ⟨h.1, fun hhead => h.2.2 (List.mem_of_head? hhead)⟩

theorem ClearPlace.head {step : Step} {rest : Place} (h : ClearPlace (step :: rest)) :
    ∀ name, step = .key name → ClearName name :=
  fun name heq => h name (heq ▸ List.mem_cons_self)

theorem ClearPlace.tail {step : Step} {rest : Place} (h : ClearPlace (step :: rest)) :
    ClearPlace rest :=
  fun name hname => h name (List.mem_cons_of_mem _ hname)

/-! ## Steps behind a base -/

/-- A step does not begin with a character of a name. -/
theorem stops_flatMap (place : Place) : Text.Stops inName (place.flatMap stepText) := by
  intro c hc
  cases place with
  | nil => cases hc
  | cons step rest => cases step <;> cases hc <;> rfl

/-- The first of two steps ends where the next one begins. -/
theorem stepText_append_inj {step step' : Step} {r r' : List Char}
    (hstep : ∀ name, step = .key name → ClearName name)
    (hstep' : ∀ name, step' = .key name → ClearName name) (hr : Text.Stops inName r)
    (hr' : Text.Stops inName r') (h : stepText step ++ r = stepText step' ++ r') :
    step = step' ∧ r = r' := by
  cases step with
  | key name =>
      cases step' with
      | index position => cases (List.cons.inj h).1
      | key name' =>
          obtain ⟨hsame, hrests⟩ := Text.run_append_inj (hstep name rfl).inName
            (hstep' name' rfl).inName hr hr' (List.cons.inj h).2
          exact ⟨congrArg Step.key (String.toList_injective hsame), hrests⟩
  | index position =>
      cases step' with
      | key name => cases (List.cons.inj h).1
      | index position' =>
          have htext : ∀ position : Nat, (toString position).toList = Nat.toDigits 10 position :=
            fun position => Nat.toList_repr
          have hdigits : ∀ (position : Nat), ∀ c ∈ Nat.toDigits 10 position, c.isDigit = true :=
            fun position c => Nat.isDigit_of_mem_toDigits (by decide) (by decide)
          have hbracket : ∀ rest : List Char, Text.Stops Char.isDigit (']' :: rest) := by
            rintro rest _ ⟨⟩
            rfl
          have hbehind : (toString position).toList ++ [']'] ++ r =
              (toString position').toList ++ [']'] ++ r' := (List.cons.inj h).2
          rw [List.append_assoc, List.append_assoc, htext, htext] at hbehind
          obtain ⟨hsame, hrests⟩ := Text.run_append_inj (hdigits position) (hdigits position')
            (hbracket r) (hbracket r') hbehind
          have hposition := congrArg Decimal.natOfDigits hsame
          rw [Decimal.natOfDigits_toDigits, Decimal.natOfDigits_toDigits] at hposition
          exact ⟨congrArg Step.index hposition, (List.cons.inj hrests).2⟩

theorem flatMap_stepText_injective {p q : Place} (hp : ClearPlace p) (hq : ClearPlace q)
    (h : p.flatMap stepText = q.flatMap stepText) : p = q := by
  have hne : ∀ step, stepText step ≠ [] := by
    intro step
    cases step <;> exact nofun
  induction p generalizing q with
  | nil =>
      cases q with
      | nil => rfl
      | cons step rest =>
          rw [List.flatMap_nil, List.flatMap_cons] at h
          exact absurd (List.append_eq_nil_iff.mp h.symm).1 (hne step)
  | cons step rest ih =>
      cases q with
      | nil =>
          rw [List.flatMap_nil, List.flatMap_cons] at h
          exact absurd (List.append_eq_nil_iff.mp h).1 (hne step)
      | cons step' rest' =>
          rw [List.flatMap_cons, List.flatMap_cons] at h
          obtain ⟨rfl, hrests⟩ := stepText_append_inj hp.head hq.head (stops_flatMap rest)
            (stops_flatMap rest') h
          rw [ih hp.tail hq.tail hrests]

/-- **Clear places have different paths**, from the root as from any other value. -/
theorem placePath_injective {p q : Place} (hp : ClearPlace p) (hq : ClearPlace q)
    (h : placePath "" p = placePath "" q) : p = q := by
  have htext := congrArg (fun path => underBase path.toList) h
  simp only [underBase_placePath fun name hname => (hp name hname).plain,
    underBase_placePath fun name hname => (hq name hname).plain] at htext
  exact flatMap_stepText_injective hp hq htext

/-- Without clear names, a path does not tell whether it leads through one member or through two. -/
example : placePath "" [.key "a.b"] = placePath "" [.key "a", .key "b"] := by decide

end Visit

/-! ## Issues of one place -/

namespace Report

variable {complaints : List Complaint}

/-- The messages at the path of a clear place are those about the place. -/
theorem messagesAt_placePath (hclear : ∀ c ∈ complaints, Visit.ClearPlace c.place) {place : Place}
    (hplace : Visit.ClearPlace place) :
    messagesAt (Visit.placePath "" place) (complaints.map (Complaint.finding "")) =
      (complaints.filter fun c => c.place = place).map Complaint.message := by
  unfold messagesAt
  rw [List.filter_map, List.map_map]
  refine congrArg (List.map _) (List.filter_congr fun c hc => decide_eq_decide.mpr ?_)
  exact ⟨fun h => Visit.placePath_injective (hclear c hc) hplace h, fun h => h ▸ rfl⟩

/-- **One issue for each place**, if all places are clear: in the order in which the places came first,
each with the messages about it. -/
theorem issues_of_clear (hclear : ∀ c ∈ complaints, Visit.ClearPlace c.place) :
    (ofFindings (complaints.map (Complaint.finding ""))).issues =
      (complaints.map Complaint.place).eraseDups.map fun place =>
        ⟨Visit.placePath "" place, (complaints.filter fun c => c.place = place).map Complaint.message⟩ := by
  have hplaces : ∀ place ∈ complaints.map Complaint.place, Visit.ClearPlace place :=
    List.forall_mem_map.mpr hclear
  have hpaths : (complaints.map (Complaint.finding "")).map Finding.path =
      (complaints.map Complaint.place).map (Visit.placePath "") := by
    rw [List.map_map, List.map_map]
    rfl
  rw [issues_ofFindings, hpaths, Entries.eraseDups_map fun p hp q hq =>
    Visit.placePath_injective (hplaces p hp) (hplaces q hq), groups, List.map_map]
  refine List.map_congr_left fun place hplace => ?_
  simp only [Function.comp, messagesAt_placePath hclear (hplaces place (List.mem_eraseDups.mp hplace))]

/-- Every complaint is in the issue of its path. -/
theorem exists_issue_of_complaint {c : Complaint} (hc : c ∈ complaints) :
    ∃ issue ∈ (ofFindings (complaints.map (Complaint.finding ""))).issues,
      issue.path = Visit.placePath "" c.place ∧ c.message ∈ issue.errors := by
  have hfinding : c.finding "" ∈ complaints.map (Complaint.finding "") := List.mem_map_of_mem hc
  refine ⟨⟨Visit.placePath "" c.place,
    messagesAt (Visit.placePath "" c.place) (complaints.map (Complaint.finding ""))⟩, ?_, rfl, ?_⟩
  · rw [issues_ofFindings]
    exact List.mem_map.mpr ⟨_, List.mem_eraseDups.mpr (List.mem_map_of_mem hfinding), rfl⟩
  · exact List.mem_map.mpr ⟨_, List.mem_filter.mpr ⟨hfinding, decide_eq_true rfl⟩, rfl⟩

end Report

namespace Validator

variable {validator : Validator} {value : Option Json} {report : Report}

/-- What a validator has to say about a value, as complaints about places: the findings of its
traversal are these, wherever the value stands, and the places are reached by names in play. -/
structure Complains (validator : Validator) (value : Option Json) (complaints : List Complaint) :
    Prop where
  /-- The complaints, written as paths from where the value stands, are the findings. -/
  findings : ∀ path, Traversal.run validator.definitions validator.config validator.direction
    validator.schema path value = .failed (complaints.map (Complaint.finding path))
  /-- The names on the way are in play. -/
  named : ∀ c ∈ complaints, ∀ name, .key name ∈ c.place →
    Spot.InPlay validator.definitions validator.config validator.direction
      ⟨true, validator.schema, value⟩ name

theorem exists_complains (h : validator.validateOptional value = .failed report) :
    ∃ complaints, validator.Complains value complaints := by
  have hplaced : Placed (Spot.InPlay validator.definitions validator.config validator.direction
      ⟨true, validator.schema, value⟩) _ := Traversal.run_placed validator.schema value
  obtain ⟨core, hcore, hvoiced⟩ := hplaced
  have hrun : Traversal.run validator.definitions validator.config validator.direction
      validator.schema "" value = _ := hcore ""
  unfold validateOptional at h
  rw [hrun] at h
  cases core with
  | failed complaints => exact ⟨complaints, hcore, (hvoiced complaints rfl).named⟩
  | _ => cases h

theorem Complains.report_eq {complaints : List Complaint} (hcomplains : validator.Complains value complaints)
    (h : validator.validateOptional value = .failed report) :
    report = Report.ofFindings (complaints.map (Complaint.finding "")) := by
  unfold validateOptional at h
  rw [hcomplains.findings ""] at h
  cases h
  rfl

/-- **Issue paths identify places.** Two places that are reached by names without dot and opening
bracket have the same path only if they are the same. So of a rejected value no issue speaks of two
such places: complaints about different ones are in different issues, and if all places are like
that, there is one issue for each, in the order in which they came first, with what was said about
it. -/
theorem issues_identify_places (validator : Validator) (value : Option Json) :
    (∀ p q, Visit.ClearPlace p → Visit.ClearPlace q →
      Visit.placePath "" p = Visit.placePath "" q → p = q) ∧
    ∀ report, validator.validateOptional value = .failed report →
      (∃ complaints, validator.Complains value complaints) ∧
      ∀ complaints, validator.Complains value complaints →
        (∀ c ∈ complaints, ∀ c' ∈ complaints, Visit.ClearPlace c.place → Visit.ClearPlace c'.place →
          c.place ≠ c'.place → ∃ issue ∈ report.issues, ∃ issue' ∈ report.issues,
            issue.path = Visit.placePath "" c.place ∧ c.message ∈ issue.errors ∧
            issue'.path = Visit.placePath "" c'.place ∧ c'.message ∈ issue'.errors ∧
            issue.path ≠ issue'.path) ∧
        ((∀ c ∈ complaints, Visit.ClearPlace c.place) →
          report.issues = (complaints.map Complaint.place).eraseDups.map fun place =>
            ⟨Visit.placePath "" place,
              (complaints.filter fun c => c.place = place).map Complaint.message⟩) := by
  refine ⟨fun p q hp hq => Visit.placePath_injective hp hq, fun report hfailed =>
    ⟨exists_complains hfailed, fun complaints hcomplains => ?_⟩⟩
  obtain rfl := hcomplains.report_eq hfailed
  refine ⟨fun c hc c' hc' hplace hplace' hne => ?_, Report.issues_of_clear⟩
  obtain ⟨issue, hissue, hpath, hmessage⟩ := Report.exists_issue_of_complaint hc
  obtain ⟨issue', hissue', hpath', hmessage'⟩ := Report.exists_issue_of_complaint hc'
  refine ⟨issue, hissue, issue', hissue', hpath, hmessage, hpath', hmessage', fun heq => hne ?_⟩
  rw [hpath, hpath'] at heq
  exact Visit.placePath_injective hplace hplace' heq

end Validator

end RouteContract
