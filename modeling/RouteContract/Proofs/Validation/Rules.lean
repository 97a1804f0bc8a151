import RouteContract.Proofs.Entries
import RouteContract.Proofs.Validation.Verdict
import RouteContract.Validation.Validator

/-!
# Rules -- what it means for each rule of the traversal to succeed

One lemma for each rule of `Pass` says exactly when it succeeds and with which output, in terms of
the visitors of the parts (`node_eq_ok_iff`, `array_eq_ok_iff`, `object_eq_ok_iff`, ...). Everything
about accepted values is derived from these, so no later proof opens a rule.
-/

namespace RouteContract

namespace Visit

/-! ## Leaves -/

theorem expect_eq_ok_iff {ok : Bool} {expected path : String} {input output : Json} :
    expect ok expected path input = .ok output ↔ ok = true ∧ output = input := by
  cases ok <;> simp [expect, fail, eq_comm]

theorem present_eq_ok_iff {visit : Visitor} {path : String} {input output : Json} :
    present visit path input = .ok output ↔
      ∃ o, visit path (some input) = .ok o ∧ o.getD .null = output :=
  Outcome.map_eq_ok_iff

theorem present_eq_looping_iff {visit : Visitor} {path : String} {input : Json} :
    present visit path input = .looping ↔ visit path (some input) = .looping := by
  unfold present
  cases visit path (some input) <;> simp [Outcome.map]

@[simp] theorem verdict_present (visit : Visitor) (path : String) (input : Json) :
    (present visit path input).verdict = (visit path (some input)).verdict :=
  Outcome.verdict_map _ _

end Visit

/-- A value that is null or missing. -/
def Absent (value : Option Json) : Prop := value = none ∨ value = some .null

/-- A value is absent, or there and not null. -/
theorem absent_or_present (value : Option Json) :
    Absent value ∨ ∃ input, value = some input ∧ input ≠ .null := by
  match value with
  | none => exact .inl (.inl rfl)
  | some input =>
      by_cases h : input = .null
      · exact .inl (.inr (h ▸ rfl))
      · exact .inr ⟨input, rfl, h⟩

namespace Pass

variable {p : Pass} {isCodec required : Bool} {refinement : Option Refinement} {path : String}

/-! ## Nodes -/

/-- What a refinement makes of a visited node. -/
def judged (p : Pass) (isCodec : Bool) (refinement : Option Refinement) (path : String)
    (input output : Json) : Visit (Option Json) :=
  match p.programValue? isCodec input output, refinement with
  | some v, some refine =>
    match refine v with
    | .ok () => .ok (some output)
    | .error message => Visit.fail path message
  | _, _ => .ok (some output)

/-- The refinement of a node, if there is one and it has a value to judge, lets the node pass. -/
def Passes (p : Pass) (isCodec : Bool) (refinement : Option Refinement) (input output : Json) :
    Prop :=
  ∀ v refine, p.programValue? isCodec input output = some v → refinement = some refine →
    refine v = .ok ()

theorem judged_eq_ok_iff {input output : Json} {out : Option Json} :
    p.judged isCodec refinement path input output = .ok out ↔
      p.Passes isCodec refinement input output ∧ out = some output := by
  unfold judged Passes
  cases hv : p.programValue? isCodec input output with
  | none => simp [eq_comm]
  | some v =>
      cases refinement with
      | none => simp [eq_comm]
      | some refine => cases hr : refine v <;> simp [Visit.fail, hr, eq_comm]

theorem judged_ne_looping {input output : Json} :
    p.judged isCodec refinement path input output ≠ .looping := by
  unfold judged
  split
  · split <;> simp [Visit.fail]
  · simp

/-- A present value goes to the shape and then to the refinement. -/
theorem node_present {visit : String → Json → Visit Json} {input : Json} (h : input ≠ .null) :
    p.node isCodec required refinement visit path (some input) =
      (visit path input).bind (p.judged isCodec refinement path input) := by
  cases input <;> first | rfl | exact absurd rfl h

/-- An absent value is decided by the node alone. -/
theorem node_absent {visit : String → Json → Visit Json} {value : Option Json} (h : Absent value) :
    p.node isCodec required refinement visit path value =
      if required then Visit.fail path "is required" else .ok value := by
  rcases h with rfl | rfl <;> rfl

/-- A visitor is the rule of its node around that of its shape. -/
theorem visitor_eq (p : Pass) (s : Schema) :
    p.visitor s = p.node s.kind.isCodec s.required s.refinement (p.shape s.kind) := by
  cases s
  rfl

theorem node_eq_ok_iff {visit : String → Json → Visit Json} {value out : Option Json} :
    p.node isCodec required refinement visit path value = .ok out ↔
      (Absent value ∧ required = false ∧ out = value) ∨
        ∃ input output, value = some input ∧ input ≠ .null ∧ visit path input = .ok output ∧
          p.Passes isCodec refinement input output ∧ out = some output := by
  rcases absent_or_present value with hv | ⟨input, rfl, hne⟩
  · rw [node_absent hv]
    constructor
    · intro h
      cases required with
      | true => simp [Visit.fail] at h
      | false => exact .inl ⟨hv, rfl, by simpa [eq_comm] using h⟩
    · rintro (⟨_, rfl, rfl⟩ | ⟨input, _, rfl, hne, _⟩)
      · rfl
      · exact absurd hv (by simpa [Absent] using hne)
  · rw [node_present hne, Outcome.bind_eq_ok_iff]
    constructor
    · rintro ⟨output, hvisit, hjudged⟩
      exact .inr ⟨input, output, rfl, hne, hvisit, judged_eq_ok_iff.mp hjudged⟩
    · rintro (⟨hv, _⟩ | ⟨_, output, hsome, _, hvisit, hpass⟩)
      · exact absurd hv (by simpa [Absent] using hne)
      · cases hsome
        exact ⟨output, hvisit, judged_eq_ok_iff.mpr hpass⟩

/-- What a node makes of a present value, as a visit of the value itself. -/
theorem present_node_eq_ok_iff {visit : String → Json → Visit Json} {input output : Json}
    (hne : input ≠ .null) :
    Visit.present (p.node isCodec required refinement visit) path input = .ok output ↔
      visit path input = .ok output ∧ p.Passes isCodec refinement input output := by
  rw [Visit.present_eq_ok_iff]
  constructor
  · rintro ⟨o, hnode, rfl⟩
    rw [node_present hne, Outcome.bind_eq_ok_iff] at hnode
    obtain ⟨out, hvisit, hjudged⟩ := hnode
    obtain ⟨hpass, rfl⟩ := judged_eq_ok_iff.mp hjudged
    exact ⟨hvisit, hpass⟩
  · rintro ⟨hvisit, hpass⟩
    refine ⟨some output, ?_, rfl⟩
    rw [node_present hne, hvisit]
    exact judged_eq_ok_iff.mpr ⟨hpass, rfl⟩

/-! ## Containers -/

theorem enum_eq_ok_iff {options : List Json} {input output : Json} :
    enum options path input = .ok output ↔
      (∃ option ∈ options, Json.literalsEqual option input = true) ∧ output = input := by
  unfold enum
  rw [← List.any_eq_true]
  cases options.any fun option => Json.literalsEqual option input <;> simp [Visit.fail, eq_comm]

/-- An array succeeds element by element. -/
theorem array_eq_ok_iff {items : Visitor} {input output : Json} :
    array items path input = .ok output ↔
      ∃ xs ys, input = .arr xs ∧ output = .arr ys ∧
        List.Forall₂ (fun x y => Visit.present items (Visit.elementPath path x.2) x.1 = .ok y)
          xs.zipIdx ys := by
  unfold array
  cases input with
  | arr xs =>
      simp only [Json.elements?, Outcome.map_eq_ok_iff, Outcome.gather_map_eq_ok_iff]
      constructor
      · rintro ⟨ys, hys, rfl⟩
        exact ⟨xs, ys, rfl, rfl, hys⟩
      · rintro ⟨xs', ys, hxs, rfl, hys⟩
        cases hxs
        exact ⟨ys, hys, rfl⟩
  | _ => simp [Json.elements?, Visit.expect, Visit.fail]

/-- A relation along the positions of a list is one along its elements, each at some position. -/
theorem forall₂_of_zipIdx {α β : Type} {R : α × Nat → β → Prop} {xs : List α} {ys : List β}
    {start : Nat} (h : List.Forall₂ R (xs.zipIdx start) ys) :
    List.Forall₂ (fun x y => ∃ i, R (x, i) y) xs ys := by
  induction xs generalizing start ys with
  | nil => cases h; exact .nil
  | cons x xs ih =>
      rw [List.zipIdx_cons] at h
      cases h with
      | cons hx hxs => exact .cons ⟨start, hx⟩ (ih hxs)

/-- What a declared property makes of the members. -/
def DeclaredField (path : String) (ms : Entries Json) (property : String × Visitor)
    (field : String × Option Json) : Prop :=
  field.1 = property.1 ∧
    property.2 (Visit.childPath path property.1) (Entries.get? ms property.1) = .ok field.2

/-- The members that no property declares, carried through. -/
def carried (properties : List (String × Visitor)) (ms : Entries Json) :
    List (String × Option Json) :=
  (ms.filter fun m => !Entries.has properties m.1).map fun m => (m.1, some m.2)

/-- Unknown members are all carried through, or there are none. -/
def Admitted (p : Pass) (properties : List (String × Visitor)) (ms : Entries Json) : Prop :=
  p.config.strictObjects = true → ∀ m ∈ ms, Entries.has properties m.1 = true

private theorem declared_eq_map_ok_iff {properties : List (String × Visitor)} {ms : Entries Json}
    {fields : List (String × Option Json)} :
    (properties.map fun property =>
        (property.2 (Visit.childPath path property.1) (Entries.get? ms property.1)).map
          fun output => (property.1, output)) = fields.map .ok ↔
      List.Forall₂ (DeclaredField path ms) properties fields := by
  rw [← List.forall₂_eq_eq_eq, List.forall₂_map_left_iff, List.forall₂_map_right_iff]
  simp only [Outcome.map_label_eq_ok_iff]
  exact Iff.rfl

private theorem unknown_eq_map_ok_iff {properties : List (String × Visitor)} {ms : Entries Json}
    {fields : List (String × Option Json)} :
    ((ms.filter fun m => !Entries.has properties m.1).map fun m =>
        if p.config.strictObjects then
          Visit.fail (Visit.childPath path m.1) "is not a known property"
        else (.ok (m.1, some m.2) : Visit (String × Option Json))) = fields.map .ok ↔
      p.Admitted properties ms ∧ fields = carried properties ms := by
  unfold Admitted carried
  cases p.config.strictObjects with
  | false =>
      simp only [Bool.false_eq_true, if_false, false_implies, true_and]
      rw [← List.forall₂_eq_eq_eq, List.forall₂_map_left_iff, List.forall₂_map_right_iff,
        ← List.forall₂_eq_eq_eq, List.forall₂_map_right_iff]
      constructor
      · intro h
        exact (h.imp fun m field hf => (Outcome.ok.inj hf).symm).flip
      · intro h
        exact h.flip.imp fun m field hf => congrArg Outcome.ok hf.symm
  | true =>
      simp only [if_true, true_implies]
      constructor
      · intro h
        -- each unknown member fails, so if nothing failed there was none
        have hnil : (ms.filter fun m => !Entries.has properties m.1) = [] := by
          cases hf : ms.filter fun m => !Entries.has properties m.1 with
          | nil => rfl
          | cons m rest => rw [hf] at h; cases fields <;> simp [Visit.fail] at h
        rw [hnil] at h ⊢
        refine ⟨?_, by simpa using h.symm⟩
        intro m hm
        simpa using List.filter_eq_nil_iff.mp hnil m hm
      · rintro ⟨hall, rfl⟩
        have hnil : (ms.filter fun m => !Entries.has properties m.1) = [] := by
          rw [List.filter_eq_nil_iff]
          intro m hm
          simp [hall m hm]
        rw [hnil]
        rfl

/-- An object succeeds with its declared properties in declaration order, each decided on its own
member, followed by the other members as they are. -/
theorem object_eq_ok_iff {properties : List (String × Visitor)} {input output : Json} :
    p.object properties path input = .ok output ↔
      ∃ ms fields, input = .obj ms ∧ List.Forall₂ (DeclaredField path ms) properties fields ∧
        p.Admitted properties ms ∧ output = Json.ofFields (fields ++ carried properties ms) := by
  unfold object
  cases input with
  | obj ms =>
      simp only [Json.members?, Outcome.map_eq_ok_iff, Outcome.gather_eq_ok_iff]
      constructor
      · rintro ⟨all, hall, rfl⟩
        obtain ⟨fields, others, rfl, hdeclared, hunknown⟩ := List.map_eq_append_iff.mp hall.symm
        obtain ⟨hadmitted, rfl⟩ := unknown_eq_map_ok_iff.mp hunknown.symm
        exact ⟨ms, fields, rfl, declared_eq_map_ok_iff.mp hdeclared.symm, hadmitted, rfl⟩
      · rintro ⟨ms', fields, hms, hdeclared, hadmitted, rfl⟩
        cases hms
        refine ⟨fields ++ carried properties ms, ?_, rfl⟩
        rw [List.map_append, declared_eq_map_ok_iff.mpr hdeclared,
          unknown_eq_map_ok_iff.mpr ⟨hadmitted, rfl⟩]
  | _ => simp [Json.members?, Visit.expect, Visit.fail]

/-! ## Objects by name -/

theorem keys_of_declared {properties : List (String × Visitor)} {ms : Entries Json}
    {fields : List (String × Option Json)}
    (h : List.Forall₂ (DeclaredField path ms) properties fields) :
    Entries.keys fields = Entries.keys properties := by
  induction h with
  | nil => rfl
  | cons hfield _ ih => rw [Entries.keys_cons, Entries.keys_cons, ih, hfield.1]

theorem get?_of_declared {properties : List (String × Visitor)} {ms : Entries Json}
    {fields : List (String × Option Json)}
    (h : List.Forall₂ (DeclaredField path ms) properties fields) {key : String} {visit : Visitor}
    (hvisit : Entries.get? properties key = some visit) :
    ∃ o, Entries.get? fields key = some o ∧
      visit (Visit.childPath path key) (Entries.get? ms key) = .ok o := by
  induction h with
  | nil => cases hvisit
  | @cons property field _ _ hfield _ ih =>
      obtain ⟨k, u⟩ := property
      obtain ⟨l, o⟩ := field
      obtain ⟨rfl, hok⟩ := hfield
      by_cases hk : l = key
      · subst hk
        rw [Entries.get?, if_pos rfl] at hvisit
        cases hvisit
        exact ⟨o, by rw [Entries.get?, if_pos rfl], hok⟩
      · rw [Entries.get?, if_neg hk] at hvisit
        rw [Entries.get?, if_neg hk]
        exact ih hvisit

theorem get?_carried (properties : List (String × Visitor)) (ms : Entries Json) (key : String) :
    Entries.get? (carried properties ms) key =
      if Entries.has properties key then none else (Entries.get? ms key).map some := by
  unfold carried
  induction ms with
  | nil => simp
  | cons m rest ih =>
      obtain ⟨k, v⟩ := m
      by_cases hk : k = key
      · subst hk
        cases hhas : Entries.has properties k with
        | true => simpa [hhas] using ih
        | false => simp [hhas, Entries.get?]
      · cases hhas : Entries.has properties k <;> simp [hhas, Entries.get?, hk] <;> simpa using ih

theorem keys_carried (properties : List (String × Visitor)) (ms : Entries Json) :
    Entries.keys (carried properties ms) =
      (Entries.keys ms).filter fun key => !Entries.has properties key := by
  unfold carried Entries.keys
  rw [List.map_map, List.filter_map]
  rfl

/-- What an object makes of its members, by name: declared names hold what their properties make of
them, all others what they held. -/
structure ObjectResult (path : String) (properties : List (String × Visitor)) (ms out : Entries Json) :
    Prop where
  distinct : Entries.Distinct out
  declared : ∀ key visit, Entries.get? properties key = some visit →
    visit (Visit.childPath path key) (Entries.get? ms key) = .ok (Entries.get? out key)
  others : ∀ key, Entries.get? properties key = none → Entries.get? out key = Entries.get? ms key

/-- Fields without a value are left out, the others are looked up as they stand. -/
theorem get?_ofFields {fields : List (String × Option Json)} (h : Entries.Distinct fields) :
    ∃ out, Json.ofFields fields = .obj out ∧ Entries.Distinct out ∧
      ∀ key, Entries.get? out key = (Entries.get? fields key).join := by
  refine ⟨_, rfl, ?_, ?_⟩
  · refine List.Sublist.nodup ?_ h
    clear h
    induction fields with
    | nil => exact .refl _
    | cons field rest ih =>
        obtain ⟨k, _ | v⟩ := field
        · exact ih.cons k
        · exact ih.cons_cons k
  · intro key
    induction fields with
    | nil => rfl
    | cons field rest ih =>
        have hrest := ih h.tail
        obtain ⟨k, _ | v⟩ := field
        · by_cases hk : k = key
          · subst hk
            have hnone : Entries.get? rest k = none :=
              Entries.get?_eq_none_iff.mpr (List.nodup_cons.mp h).1
            rw [hnone] at hrest
            simpa [Entries.get?] using hrest
          · simpa [Entries.get?, hk] using hrest
        · by_cases hk : k = key
          · simp [Entries.get?, hk]
          · simpa [Entries.get?, hk] using hrest

/-- **An accepted object, by name.** -/
theorem object_result {properties : List (String × Visitor)} {input output : Json}
    (hp : Entries.Distinct properties) (h : p.object properties path input = .ok output)
    (hinput : ∀ ms, input = .obj ms → Entries.Distinct ms) :
    ∃ ms out, input = .obj ms ∧ output = .obj out ∧ p.Admitted properties ms ∧
      ObjectResult path properties ms out := by
  obtain ⟨ms, fields, rfl, hfields, hadmitted, rfl⟩ := object_eq_ok_iff.mp h
  have hm := hinput ms rfl
  -- declared names and carried names are distinct by themselves and have none in common
  have hall : Entries.Distinct (fields ++ carried properties ms) := by
    rw [Entries.Distinct, Entries.keys, List.map_append]
    show (Entries.keys fields ++ Entries.keys (carried properties ms)).Nodup
    rw [keys_of_declared hfields, keys_carried]
    exact Entries.nodup_append_others hp
      (fun key hkey => (Entries.has_iff_mem_keys properties key).mpr hkey) hm
  obtain ⟨out, hout, hdistinct, hget⟩ := get?_ofFields hall
  refine ⟨ms, out, rfl, hout, hadmitted, hdistinct, ?_, ?_⟩
  · intro key visit hvisit
    obtain ⟨o, ho, hok⟩ := get?_of_declared hfields hvisit
    rw [hget, Entries.get?_append, ho, hok]
    rfl
  · intro key hnone
    have hfield : Entries.get? fields key = none := by
      rw [Entries.get?_eq_none_iff, keys_of_declared hfields]
      exact Entries.get?_eq_none_iff.mp hnone
    have hhas : Entries.has properties key = false := by rw [Entries.has, hnone]; rfl
    rw [hget, Entries.get?_append, hfield, get?_carried, hhas]
    cases Entries.get? ms key <;> rfl

/-- An object is accepted when all of its properties accept and its other members are admitted. -/
theorem object_accepts {properties : List (String × Visitor)} {ms : Entries Json}
    (h : ∀ property ∈ properties, ∃ o,
      property.2 (Visit.childPath path property.1) (Entries.get? ms property.1) = .ok o)
    (hadmitted : p.Admitted properties ms) :
    ∃ output, p.object properties path (.obj ms) = .ok output := by
  have hfields : ∃ fields, List.Forall₂ (DeclaredField path ms) properties fields := by
    clear hadmitted
    induction properties with
    | nil => exact ⟨[], .nil⟩
    | cons property rest ih =>
        rw [List.forall_mem_cons] at h
        obtain ⟨o, ho⟩ := h.1
        obtain ⟨fields, hfields⟩ := ih h.2
        exact ⟨(property.1, o) :: fields, .cons ⟨rfl, ho⟩ hfields⟩
  obtain ⟨fields, hfields⟩ := hfields
  exact ⟨_, object_eq_ok_iff.mpr ⟨ms, fields, rfl, hfields, hadmitted, rfl⟩⟩

/-- What a map makes of one member. -/
def MappedField (values : Visitor) (path : String) (m n : String × Json) : Prop :=
  n.1 = m.1 ∧ Visit.present values (Visit.childPath path m.1) m.2 = .ok n.2

/-- A map succeeds member by member. -/
theorem map_eq_ok_iff {values : Visitor} {input output : Json} :
    map values path input = .ok output ↔
      ∃ ms ns, input = .obj ms ∧ output = .obj ns ∧ List.Forall₂ (MappedField values path) ms ns := by
  unfold map
  cases input with
  | obj ms =>
      show (Outcome.gather (ms.map fun m =>
        (Visit.present values (Visit.childPath path m.1) m.2).map fun output => (m.1, output))).map
          Json.obj = .ok output ↔ _
      rw [Outcome.map_eq_ok_iff]
      simp only [Outcome.gather_map_eq_ok_iff, Outcome.map_label_eq_ok_iff]
      constructor
      · rintro ⟨ns, hns, rfl⟩
        exact ⟨ms, ns, rfl, rfl, hns⟩
      · rintro ⟨ms', ns, hms, rfl, hns⟩
        cases hms
        exact ⟨ns, hns, rfl⟩
  | _ => simp [Json.members?, Visit.expect, Visit.fail]

/-! ## Unions -/

/-- Ordered trial succeeds with the first option that accepts, and every option before it fails. -/
theorem firstAccepting_eq_ok_iff {visitors : List Visitor} {input output : Json} :
    firstAccepting path input visitors = .ok output ↔
      ∃ before visit after, visitors = before ++ visit :: after ∧
        (∀ u ∈ before, ∃ reason, Visit.present u path input = .failed reason) ∧
        Visit.present visit path input = .ok output := by
  induction visitors with
  | nil => simp [firstAccepting]
  | cons u rest ih =>
      rw [firstAccepting]
      constructor
      · intro h
        cases hu : Visit.present u path input with
        | ok o =>
            rw [hu] at h
            cases h
            exact ⟨[], u, rest, rfl, by simp, hu⟩
        | looping => rw [hu] at h; cases h
        | failed reason =>
            rw [hu] at h
            obtain ⟨before, visit, after, rfl, hbefore, hvisit⟩ := ih.mp h
            refine ⟨u :: before, visit, after, rfl, ?_, hvisit⟩
            rw [List.forall_mem_cons]
            exact ⟨⟨reason, hu⟩, hbefore⟩
      · rintro ⟨before, visit, after, heq, hbefore, hvisit⟩
        cases before with
        | nil =>
            cases heq
            rw [hvisit]
        | cons b before =>
            cases heq
            rw [List.forall_mem_cons] at hbefore
            obtain ⟨reason, hfailed⟩ := hbefore.1
            rw [hfailed]
            exact ih.mpr ⟨before, visit, after, rfl, hbefore.2, hvisit⟩

theorem untagged_eq_ok_iff {visitors : List Visitor} {input output : Json} :
    untagged visitors path input = .ok output ↔
      firstAccepting path input visitors = .ok output := by
  unfold untagged
  cases firstAccepting path input visitors <;> simp [Visit.fail]

/-- The options of a union with what each makes of a value. -/
def branches (options : List Schema) (visit : Schema → Visitor) : List (Schema × Visitor) :=
  options.map fun option => (option, visit option)

theorem map_fst_branches (options : List Schema) (visit : Schema → Visitor) :
    (branches options visit).map Prod.fst = options := by
  rw [branches, List.map_map]
  exact List.map_id options

theorem zip_visitors (p : Pass) (options : List Schema) :
    options.zip (p.visitors options) = branches options p.visitor := by
  rw [visitors_eq_map, branches, List.map_prod_left_eq_zip]

theorem find?_branches (options : List Schema) (visit : Schema → Visitor) (key : String)
    (tag : Json) :
    (branches options visit).find? (fun option => option.1.selects key tag) =
      (options.find? fun option => option.selects key tag).map fun option =>
        (option, visit option) := by
  rw [branches, List.find?_map]
  rfl

/-- Dispatch succeeds with what the option that the tag selects makes of the value. -/
theorem tagged_eq_ok_iff {key : String} {options : List Schema} {visit : Schema → Visitor}
    {input output : Json} :
    tagged key (branches options visit) path input = .ok output ↔
      ∃ ms tag option, input = .obj ms ∧ Entries.get? ms key = some tag ∧
        options.find? (fun option => option.selects key tag) = some option ∧
        Visit.present (visit option) path input = .ok output := by
  unfold tagged
  cases input with
  | obj ms =>
      simp only [Json.members?, Json.obj.injEq, exists_and_left, exists_eq_left']
      cases htag : Entries.get? ms key with
      | none => simp [Visit.fail]
      | some tag =>
          simp only [Option.some.injEq, exists_eq_left', find?_branches]
          cases hopt : options.find? fun option => option.selects key tag with
          | none => simp [Visit.fail]
          | some option => simp
  | _ => simp [Json.members?, Visit.expect, Visit.fail]

/-- A union goes by its tag or by ordered trial. -/
theorem oneOf_eq (p : Pass) (options : List Schema) :
    oneOf options (p.visitors options) =
      match Schema.discriminator? options with
      | some key => tagged key (branches options p.visitor)
      | none => untagged (options.map p.visitor) := by
  unfold oneOf
  rewrite [zip_visitors, visitors_eq_map]
  cases Schema.discriminator? options <;> rfl

/-- What a union makes of a value is what one of its options makes of it. -/
theorem oneOf_result {options : List Schema} {input output : Json}
    (h : oneOf options (p.visitors options) path input = .ok output) :
    ∃ option ∈ options, Visit.present (p.visitor option) path input = .ok output := by
  rw [oneOf_eq] at h
  cases hdisc : Schema.discriminator? options with
  | none =>
      rw [hdisc] at h
      obtain ⟨before, visit, after, heq, _, hvisit⟩ :=
        firstAccepting_eq_ok_iff.mp (untagged_eq_ok_iff.mp h)
      have hmem : visit ∈ options.map p.visitor := by
        rw [heq]
        simp
      obtain ⟨option, hopt, rfl⟩ := List.mem_map.mp hmem
      exact ⟨option, hopt, hvisit⟩
  | some key =>
      rw [hdisc] at h
      obtain ⟨ms, tag, option, rfl, _, hfind, hvisit⟩ := tagged_eq_ok_iff.mp h
      exact ⟨option, List.mem_of_find?_eq_some hfind, hvisit⟩

/-! ## Codecs -/

theorem convert_eq_ok_iff {conversion : Conversion} {input output : Json} :
    convert conversion path input = .ok output ↔ conversion input = .ok output := by
  unfold convert
  cases conversion input <;> simp [Visit.fail]

theorem shape_transform_decode (hdir : p.direction = .decode) {encoded decoded : Schema}
    {decode encode : Conversion} :
    p.shape (.transform encoded decoded decode encode) =
      p.transform decoded (p.visitor encoded) (p.visitor decoded) decode := by
  rw [shape, hdir]

theorem shape_transform_encode (hdir : p.direction = .encode) {encoded decoded : Schema}
    {decode encode : Conversion} :
    p.shape (.transform encoded decoded decode encode) =
      p.transform encoded (p.visitor decoded) (p.visitor encoded) encode := by
  rw [shape, hdir]

/-- A transform that runs accepts on its input side, converts, and has the result verified. -/
theorem transform_run_eq_ok_iff {verify : Schema → String → Json → Visit Json}
    (hmode : p.mode = .run verify) {side : Schema} {input output : Visitor}
    {conversion : Conversion} {value out : Json} :
    p.transform side input output conversion path value = .ok out ↔
      ∃ accepted, Visit.present input path value = .ok accepted ∧ conversion accepted = .ok out ∧
        (p.config.verifyOutput = true → ∃ o, verify side path out = .ok o) := by
  unfold transform
  simp only [hmode, Outcome.bind_eq_ok_iff, convert_eq_ok_iff]
  refine exists_congr fun accepted => and_congr_right fun _ => ?_
  cases p.config.verifyOutput with
  | false => simp
  | true =>
      simp only [if_true, Outcome.map_eq_ok_iff, true_implies]
      constructor
      · rintro ⟨converted, hconv, o, hverify, rfl⟩
        exact ⟨hconv, o, hverify⟩
      · rintro ⟨hconv, o, hverify⟩
        exact ⟨out, hconv, o, hverify, rfl⟩

theorem transform_check (hmode : p.mode = .check) {side : Schema} {input output : Visitor}
    {conversion : Conversion} :
    p.transform side input output conversion path = Visit.present output path := by
  funext value
  simp [transform, hmode]

theorem custom_decode_run {verify : Schema → String → Json → Visit Json}
    (hdir : p.direction = .decode) (hmode : p.mode = .run verify) {parent : Visitor}
    {decode : Conversion} {value : Json} :
    p.custom parent decode path value =
      (Visit.present parent path value).bind fun accepted => convert decode path accepted := by
  rw [custom, hdir, hmode]

theorem custom_decode_check (hdir : p.direction = .decode) (hmode : p.mode = .check)
    {parent : Visitor} {decode : Conversion} {value : Json} :
    p.custom parent decode path value = .ok value := by
  rw [custom, hdir, hmode]

/-- Encoding by a custom codec is what the parent makes of the value, in either mode. -/
theorem custom_encode (hdir : p.direction = .encode) {parent : Visitor} {decode : Conversion} :
    p.custom parent decode path = Visit.present parent path := by
  funext value
  rw [custom, hdir]

end Pass

namespace Validator

/-! ## Validators -/

/-- A validator accepts what its run accepts, from the root on. -/
theorem validateOptional_eq_ok_iff {validator : Validator} {value out : Option Json} :
    validator.validateOptional value = .ok out ↔
      Traversal.run validator.definitions validator.config validator.direction validator.schema ""
        value = .ok out :=
  Outcome.mapReason_eq_ok_iff

/-- A present value that is validated is visited as one. -/
theorem validate_eq_ok_iff {validator : Validator} {v out : Json} :
    validator.validate v = .ok out ↔
      Visit.present (Traversal.run validator.definitions validator.config validator.direction
        validator.schema) "" v = .ok out := by
  unfold validate
  rw [Outcome.map_eq_ok_iff, Visit.present_eq_ok_iff]
  simp only [validateOptional_eq_ok_iff]

end Validator

end RouteContract
