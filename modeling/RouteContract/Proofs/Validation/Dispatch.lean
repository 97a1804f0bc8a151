import RouteContract.Proofs.Schema.Discriminator
import RouteContract.Proofs.Validation.Ends

/-!
# Dispatch -- a discriminated union against ordered trial

A discriminated union looks at one member and goes straight to the option that declares its value.
This module compares that with trying the options in order (`trialNode`). An option that declares
another tag does not accept the value, on account of the tag property alone, whatever refinements,
codecs or unknown members the rest of it has (`not_accepts_of_not_selects`); so the option that the
tag selects is also the first one that accepts (`untagged_of_tagged`).

The other options are visited all the same when they are tried, and the trial does not end if one of
them opens its definition without end, where dispatch never looks at it (`trial_endless`). By guarded
definitions every visit ends, and the two agree.
-/

namespace RouteContract

open Schema (discriminator?)

namespace Pass

variable {p : Pass} {path : String}

/-! ## What an option says about its tag -/

/-- An enum node hands out what it accepts: an absent value, or one of its literals. -/
theorem enum_accepts {s : Schema} {literals : List Json} (hkind : s.kind = .enum literals)
    {value out : Option Json} (hok : p.visitor s path value = .ok out) :
    out = value ∧ (Absent value ∧ s.required = false ∨
      ∃ v, value = some v ∧ v ≠ .null ∧
        ∃ literal ∈ literals, Json.literalsEqual literal v = true) := by
  rw [visitor_eq, hkind] at hok
  rcases node_eq_ok_iff.mp hok with
    ⟨habsent, hrequired, rfl⟩ | ⟨v, o, rfl, hne, hvisit, _, rfl⟩
  · exact ⟨rfl, .inl ⟨habsent, hrequired⟩⟩
  · obtain ⟨hany, rfl⟩ := enum_eq_ok_iff.mp hvisit
    exact ⟨rfl, .inr ⟨o, rfl, hne, hany⟩⟩

/-- An option with a tag accepts objects only, and those only whose tag property is accepted. -/
theorem option_accepts {option : Schema} {key : String} {literal : Json}
    (htag : option.tag? key = some literal) {input output : Json} (hne : input ≠ .null)
    (hok : Visit.present (p.visitor option) path input = .ok output) :
    ∃ ms s, input = .obj ms ∧ option.property? key = some s ∧
      (Absent (Entries.get? ms key) ∧ s.required = false ∨
        ∃ tag, Entries.get? ms key = some tag ∧ tag ≠ .null ∧
          Json.literalsEqual literal tag = true) := by
  obtain ⟨properties, s, hkind, hget, hs⟩ := Schema.tag?_eq_some_iff.mp htag
  rw [visitor_eq, hkind, present_node_eq_ok_iff hne] at hok
  have hobject : p.object (p.propertyVisitors properties) path input = .ok output := hok.1
  rw [propertyVisitors_eq_map] at hobject
  obtain ⟨ms, fields, rfl, hfields, _, _⟩ := object_eq_ok_iff.mp hobject
  have hvisit : Entries.get? (Entries.mapValues p.visitor properties) key = some (p.visitor s) := by
    rw [Entries.get?_mapValues, hget]
    rfl
  obtain ⟨o, _, hproperty⟩ := get?_of_declared hfields hvisit
  refine ⟨ms, s, rfl, ?_, ?_⟩
  · rw [Schema.property?, Schema.properties?, hkind]
    exact hget
  · simpa using (enum_accepts hs hproperty).2

/-- **An option refuses every tag that is not its own.** -/
theorem not_accepts_of_not_selects {option : Schema} {key : String} {ms : Entries Json} {tag : Json}
    (htag : (option.tag? key).isSome) (hget : Entries.get? ms key = some tag) (hne : tag ≠ .null)
    (hselects : option.selects key tag = false) (output : Json) :
    Visit.present (p.visitor option) path (.obj ms) ≠ .ok output := by
  intro hok
  obtain ⟨literal, hliteral⟩ := Option.isSome_iff_exists.mp htag
  obtain ⟨_, s, heq, _, hcase⟩ := option_accepts hliteral (by simp) hok
  cases heq
  rcases hcase with ⟨habsent, _⟩ | ⟨tag', hget', _, hequal⟩
  · rw [hget] at habsent
    simp [Absent, hne] at habsent
  · rw [hget] at hget'
    cases hget'
    have hyes : option.selects key tag = true := Schema.selects_iff.mpr ⟨literal, hliteral, hequal⟩
    rw [hselects] at hyes
    cases hyes

/-! ## Ordered trial -/

/-- The visitor of a union node that tries its options in order, discriminated or not. -/
def trialNode (p : Pass) (options : List Schema) (required : Bool)
    (refinement : Option Refinement) : Visitor :=
  p.node false required refinement (untagged (p.visitors options))

/-- A visitor that accepts decides, if none before it does and their visits end. -/
theorem firstAccepting_append_cons {before after : List Visitor} {visit : Visitor}
    {input output : Json} (hbefore : ∀ u ∈ before, ∀ o, Visit.present u path input ≠ .ok o)
    (hvisit : Visit.present visit path input = .ok output)
    (hends : firstAccepting path input (before ++ visit :: after) ≠ .looping) :
    firstAccepting path input (before ++ visit :: after) = .ok output := by
  induction before with
  | nil => rw [List.nil_append, firstAccepting, hvisit]
  | cons u rest ih =>
      rw [List.forall_mem_cons] at hbefore
      rw [List.cons_append, firstAccepting] at hends ⊢
      cases hu : Visit.present u path input with
      | ok o => exact absurd hu (hbefore.1 o)
      | looping => exact absurd (by rw [hu]) hends
      | failed reason =>
          rw [hu] at hends
          exact ih hbefore.2 hends

/-- The trial of a present value ends if that of the node does. -/
theorem untagged_ends_of_trialNode {options : List Schema} {required : Bool}
    {refinement : Option Refinement} {input : Json} (hne : input ≠ .null)
    (h : p.trialNode options required refinement path (some input) ≠ .looping) :
    untagged (p.visitors options) path input ≠ .looping := by
  intro hlooping
  rw [trialNode, node_present hne, hlooping] at h
  exact h rfl

/-- A trial ends if the visit of every option does. -/
theorem trialNode_ends {options : List Schema} {required : Bool} {refinement : Option Refinement}
    {value : Option Json} (h : ∀ option ∈ options, p.visitor option path value ≠ .looping) :
    p.trialNode options required refinement path value ≠ .looping := by
  refine node_ends fun v hv _ => untagged_ends ?_
  subst hv
  rw [visitors_eq_map]
  exact List.forall_mem_map.mpr h

/-- The passes that carry out the traversals by definitions: a check, or a run of the codecs. -/
inductive Carries (defs : Definitions) : Pass → Prop where
  /-- No codec is applied. -/
  | check (config : ValidationConfig) (direction : Direction) :
      Carries defs ((Traversal.checkPass config direction).followed defs)
  /-- Codecs are applied. -/
  | run (config : ValidationConfig) (direction : Direction) :
      Carries defs ((Traversal.runPass defs config direction).followed defs)

/-- By guarded definitions every visit of a traversal ends. -/
theorem Carries.ends {defs : Definitions} (h : Carries defs p) (hguarded : defs.Guarded)
    (s : Schema) (path : String) (value : Option Json) : p.visitor s path value ≠ .looping := by
  cases h with
  | check config direction =>
      rw [← Traversal.check_eq]
      exact Traversal.check_ends hguarded s path value
  | run config direction =>
      rw [← Traversal.run_eq]
      exact Traversal.run_ends hguarded s path value

/-! ## Dispatch and trial -/

section Dispatch

variable {options : List Schema} {key : String}

/-- The option that a tag selects is the first one that accepts. -/
theorem untagged_of_tagged (hkey : discriminator? options = some key)
    (hnull : ∀ option ∈ options, option.tag? key ≠ some .null) {input output : Json}
    (h : tagged key (branches options p.visitor) path input = .ok output)
    (hends : untagged (p.visitors options) path input ≠ .looping) :
    untagged (p.visitors options) path input = .ok output := by
  obtain ⟨ms, tag, option, rfl, hget, hfind, hvisit⟩ := tagged_eq_ok_iff.mp h
  obtain ⟨hselects, before, after, rfl, hbefore⟩ := List.find?_eq_some_iff_append.mp hfind
  have htags := Schema.tag?_isSome_of_discriminator? hkey
  -- a null tag would select an option with a null literal, and there is none
  have hne : tag ≠ .null := by
    rintro rfl
    obtain ⟨literal, hliteral, hequal⟩ := Schema.selects_iff.mp hselects
    have hnull' : literal = .null := by cases literal <;> first | rfl | cases hequal
    exact hnull option (by simp) (hnull' ▸ hliteral)
  have hrefuse : ∀ u ∈ before.map p.visitor, ∀ o, Visit.present u path (.obj ms) ≠ .ok o := by
    rw [List.forall_mem_map]
    intro o ho
    refine not_accepts_of_not_selects (htags o (List.mem_append_left _ ho)) hget hne ?_
    simpa using hbefore o ho
  rw [untagged_eq_ok_iff]
  rw [visitors_eq_map, List.map_append, List.map_cons] at hends ⊢
  refine firstAccepting_append_cons hrefuse hvisit fun hlooping => hends ?_
  rw [untagged, hlooping]

/-- If the tag is required everywhere and selects at most one option, an option that accepts is the
one that it selects. -/
theorem tagged_of_accepts (hkey : discriminator? options = some key)
    (hrequired : ∀ option ∈ options, ∀ s, option.property? key = some s → s.required = true)
    {input output : Json} (hne : input ≠ .null)
    (hone : ∀ ms tag, input = .obj ms → Entries.get? ms key = some tag →
      (options.filter (·.selects key tag)).length ≤ 1)
    {option : Schema} (hmem : option ∈ options)
    (hok : Visit.present (p.visitor option) path input = .ok output) :
    tagged key (branches options p.visitor) path input = .ok output := by
  obtain ⟨literal, hliteral⟩ := Option.isSome_iff_exists.mp
    (Schema.tag?_isSome_of_discriminator? hkey option hmem)
  obtain ⟨ms, s, rfl, hproperty, hcase⟩ := option_accepts hliteral hne hok
  rcases hcase with ⟨_, hoptional⟩ | ⟨tag, hget, _, hequal⟩
  · rw [hrequired option hmem s hproperty] at hoptional
    cases hoptional
  · have hselects := Schema.selects_iff.mpr ⟨literal, hliteral, hequal⟩
    -- the first option that the tag selects is the only one
    refine tagged_eq_ok_iff.mpr ⟨ms, tag, option, rfl, hget, ?_, hok⟩
    rw [← List.head?_filter]
    have hin : option ∈ options.filter (·.selects key tag) := List.mem_filter.mpr ⟨hmem, hselects⟩
    obtain ⟨o, ho⟩ := List.length_eq_one_iff.mp
      (Nat.le_antisymm (hone ms tag rfl hget) (List.length_pos_of_mem hin))
    rw [ho, List.mem_singleton] at hin
    rw [ho, hin]
    rfl

/-- **Discriminated dispatch agrees with ordered trial.** Of a union with a discriminator and no null
tag, in every pass: what the node accepts, the trial of its options in order accepts with the same
output, if it ends. It ends if the visit of every option does, and so by guarded definitions always.
And if the tag is required in every option and matches at most one, what the trial accepts the node
accepts with the same output. -/
theorem dispatch_agrees_with_trial (hkey : discriminator? options = some key)
    (hnull : ∀ option ∈ options, option.tag? key ≠ some .null) (required : Bool)
    (refinement : Option Refinement) (description : Option String) (path : String)
    (value : Option Json) :
    (∀ out, p.visitor ⟨.oneOf options, required, refinement, description⟩ path value = .ok out →
      p.trialNode options required refinement path value ≠ .looping →
        p.trialNode options required refinement path value = .ok out) ∧
    ((∀ option ∈ options, p.visitor option path value ≠ .looping) →
      p.trialNode options required refinement path value ≠ .looping) ∧
    (∀ defs, Carries defs p → defs.Guarded →
      p.trialNode options required refinement path value ≠ .looping) ∧
    ((∀ option ∈ options, ∀ s, option.property? key = some s → s.required = true) →
      (∀ ms tag, value = some (.obj ms) → Entries.get? ms key = some tag →
        (options.filter (·.selects key tag)).length ≤ 1) →
      ∀ out, p.trialNode options required refinement path value = .ok out →
        p.visitor ⟨.oneOf options, required, refinement, description⟩ path value = .ok out) := by
  have hshape : p.shape (.oneOf options) = tagged key (branches options p.visitor) := by
    show oneOf options (p.visitors options) = _
    rw [oneOf_eq, hkey]
  rw [visitor_eq]
  dsimp only
  rw [hshape]
  refine ⟨fun out hok hends => ?_, trialNode_ends, fun defs hcarries hguarded => ?_, ?_⟩
  · rcases node_eq_ok_iff.mp hok with habsent | ⟨input, output, rfl, hne, hvisit, hpass, rfl⟩
    · exact node_eq_ok_iff.mpr (.inl habsent)
    · have htrial := untagged_of_tagged hkey hnull hvisit (untagged_ends_of_trialNode hne hends)
      exact node_eq_ok_iff.mpr (.inr ⟨input, output, rfl, hne, htrial, hpass, rfl⟩)
  · exact trialNode_ends fun option _ => hcarries.ends hguarded option path value
  · intro hrequired hone out htrial
    rcases node_eq_ok_iff.mp htrial with habsent | ⟨input, output, rfl, hne, hfirst, hpass, rfl⟩
    · exact node_eq_ok_iff.mpr (.inl habsent)
    · obtain ⟨before, visit, after, heq, _, hvisit⟩ :=
        firstAccepting_eq_ok_iff.mp (untagged_eq_ok_iff.mp hfirst)
      have hmem : visit ∈ options.map p.visitor := by
        rw [← visitors_eq_map, heq]
        simp
      obtain ⟨option, hoption, rfl⟩ := List.mem_map.mp hmem
      have htagged := tagged_of_accepts hkey hrequired hne
        (fun ms tag hms => hone ms tag (congrArg some hms)) hoption hvisit
      exact node_eq_ok_iff.mpr (.inr ⟨input, output, rfl, hne, htagged, hpass, rfl⟩)

/-- A form that is answered or still open: the tag goes to the second option, which is the only one
that accepts. The trial opens the definition of the content first. -/
theorem dispatch_agrees_on_forms :
    let options := [
      Schema.object [("state", Schema.literal (.str "answered")),
        ("content", .lazy "Content" "Content")],
      Schema.object [("state", Schema.literal (.str "open"))]]
    let form := Json.obj [("state", .str "open"), ("content", .bool true)]
    let pass := (Traversal.runPass Traversal.boxes {} .decode).followed Traversal.boxes
    pass.trialNode options true none "" (some form) = .ok (some form) ∧
      pass.visitor (Schema.oneOf options) "" (some form) = .ok (some form) := by
  intro options form pass
  have hnull : ∀ option ∈ options, option.tag? "state" ≠ some .null := by
    rw [List.forall_mem_cons, List.forall_mem_singleton]
    exact ⟨nofun, nofun⟩
  have hrequired : ∀ option ∈ options, ∀ s, option.property? "state" = some s →
      s.required = true := by
    rw [List.forall_mem_cons, List.forall_mem_singleton]
    exact ⟨fun s hs => by cases hs; rfl, fun s hs => by cases hs; rfl⟩
  have hone : ∀ ms tag, some form = some (.obj ms) → Entries.get? ms "state" = some tag →
      (options.filter (·.selects "state" tag)).length ≤ 1 := by
    intro ms tag hms htag
    cases Json.obj.inj (Option.some.inj hms)
    cases htag
    decide
  obtain ⟨hfirst, _, hends, hback⟩ :=
    dispatch_agrees_with_trial (p := pass) (by decide) hnull true none none "" (some form)
  have htrial := hfirst (some form) rfl (hends _ (.run {} .decode) Traversal.guarded_boxes)
  exact ⟨htrial, hback hrequired hone _ htrial⟩

/-- Ordered trial may have no end where dispatch accepts: the first option opens a definition that
only opens itself, though it declares another tag than the value has. -/
theorem trial_endless :
    let options := [
      Schema.object [("state", Schema.literal (.str "answered")), ("text", .lazy "Circle" "Circle")],
      Schema.object [("state", Schema.literal (.str "open")), ("text", .any)]]
    let form := Json.obj [("state", .str "open"), ("text", .num (.int 1))]
    let pass := (Traversal.runPass .circle {} .decode).followed .circle
    discriminator? options = some "state" ∧
      (∀ option ∈ options, option.tag? "state" ≠ some .null) ∧
      Traversal.run .circle {} .decode (Schema.oneOf options) "" (some form) = .ok (some form) ∧
      pass.visitor (Schema.oneOf options) "" (some form) = .ok (some form) ∧
      pass.trialNode options true none "" (some form) = .looping := by
  intro options form pass
  have hnull : ∀ option ∈ options, option.tag? "state" ≠ some .null := by
    rw [List.forall_mem_cons, List.forall_mem_singleton]
    exact ⟨nofun, nofun⟩
  have hrun : Traversal.run .circle {} .decode (Schema.oneOf options) "" (some form) =
      .ok (some form) := rfl
  refine ⟨by decide, hnull, hrun, ?_, ?_⟩
  · rw [← Traversal.run_eq]
    exact hrun
  · rfl

end Dispatch

end Pass

end RouteContract
