import RouteContract.Proofs.Schema.Guarded
import RouteContract.Proofs.Validation.Places
import RouteContract.Schema.Cast

/-!
# Ends -- traversals of guarded definitions always end

A visit makes visits of its own: those it consists of, and those of the options that a union without
discriminator tries, given up or not (`Spot.Makes`). It has an end when all of these have one
(`Pass.traverse_ends`), so it has an end unless visits are made one inside the other without end.

With guarded definitions they are not (`Spot.wellFounded_makes`). Three things go down, the first one
before the second and the second before the third. A run is left for the check of what a codec made,
which may be as large as it likes, and a check never applies a codec. Parts of a value are smaller
than the value. And on one value definitions are opened one inside the other, which guarded ones are
not without end.
-/

namespace RouteContract

namespace Outcome

variable {ε α β : Type}

theorem map_ne_looping {f : α → β} {o : Outcome ε α} (h : o ≠ looping) : o.map f ≠ looping := by
  cases o with
  | looping => exact absurd rfl h
  | _ => exact nofun

theorem bind_ne_looping {o : Outcome ε α} {f : α → Outcome ε β} (h : o ≠ looping)
    (hf : ∀ a, o = ok a → f a ≠ looping) : o.bind f ≠ looping := by
  cases o with
  | ok a => exact hf a rfl
  | failed e => exact nofun
  | looping => exact absurd rfl h

theorem gather_ne_looping {os : List (Outcome (List ε) α)} (h : ∀ o ∈ os, o ≠ looping) :
    gather os ≠ looping := by
  rw [Ne, gather_eq_looping_iff]
  exact fun hmem => h _ hmem rfl

end Outcome

theorem Visit.fail_ne_looping {α : Type} {path message : String} :
    (Visit.fail path message : Visit α) ≠ .looping := by
  simp [Visit.fail]

theorem Visit.expect_ne_looping {test : Bool} {expected path : String} {v : Json} :
    Visit.expect test expected path v ≠ .looping := by
  cases test <;> exact nofun

theorem Visit.present_ne_looping {visit : Visitor} {path : String} {v : Json}
    (h : visit path (some v) ≠ .looping) : Visit.present visit path v ≠ .looping :=
  Outcome.map_ne_looping h

namespace Pass

variable {p : Pass} {path : String}

/-! ## One rule -/

theorem node_ends {isCodec required : Bool} {refinement : Option Refinement}
    {visit : String → Json → Visit Json} {value : Option Json}
    (h : ∀ v, value = some v → v ≠ .null → visit path v ≠ .looping) :
    p.node isCodec required refinement visit path value ≠ .looping := by
  rcases absent_or_present value with hv | ⟨v, rfl, hne⟩
  · rw [node_absent hv]
    cases required <;> exact nofun
  · rw [node_present hne]
    exact Outcome.bind_ne_looping (h v rfl hne) fun _ _ => judged_ne_looping

theorem enum_ends {options : List Json} {v : Json} : enum options path v ≠ .looping := by
  unfold enum
  split <;> exact nofun

theorem array_ends {items : Visitor} {v : Json}
    (h : ∀ xs, v = .arr xs → ∀ x ∈ xs, ∀ path', items path' (some x) ≠ .looping) :
    array items path v ≠ .looping := by
  cases v with
  | arr xs =>
      refine Outcome.map_ne_looping (Outcome.gather_ne_looping (List.forall_mem_map.mpr ?_))
      intro x hx
      exact Visit.present_ne_looping (h xs rfl x.1 (List.fst_mem_of_mem_zipIdx hx) _)
  | _ => exact nofun

theorem map_ends {values : Visitor} {v : Json}
    (h : ∀ ms, v = .obj ms → ∀ m ∈ ms, ∀ path', values path' (some m.2) ≠ .looping) :
    map values path v ≠ .looping := by
  cases v with
  | obj ms =>
      refine Outcome.map_ne_looping (Outcome.gather_ne_looping (List.forall_mem_map.mpr ?_))
      exact fun m hm => Outcome.map_ne_looping (Visit.present_ne_looping (h ms rfl m hm _))
  | _ => exact nofun

theorem object_ends {properties : List (String × Visitor)} {v : Json}
    (h : ∀ ms, v = .obj ms → ∀ property ∈ properties, ∀ path',
      property.2 path' (Entries.get? ms property.1) ≠ .looping) :
    p.object properties path v ≠ .looping := by
  cases v with
  | obj ms =>
      refine Outcome.map_ne_looping (Outcome.gather_ne_looping ?_)
      intro o ho
      rcases List.mem_append.mp ho with ho | ho
      · obtain ⟨property, hmem, rfl⟩ := List.mem_map.mp ho
        exact Outcome.map_ne_looping (h ms rfl property hmem _)
      · obtain ⟨m, _, rfl⟩ := List.mem_map.mp ho
        split <;> exact nofun
  | _ => exact nofun

theorem untagged_ends {visitors : List Visitor} {v : Json}
    (h : ∀ visit ∈ visitors, visit path (some v) ≠ .looping) :
    untagged visitors path v ≠ .looping := by
  have hfirst : firstAccepting path v visitors ≠ .looping := by
    induction visitors with
    | nil => simp [firstAccepting]
    | cons visit rest ih =>
        rw [List.forall_mem_cons] at h
        rw [firstAccepting]
        cases hv : Visit.present visit path v with
        | ok o => simp
        | failed reason => exact ih h.2
        | looping => exact absurd hv (Visit.present_ne_looping h.1)
  unfold untagged
  cases hv : firstAccepting path v visitors with
  | ok o => simp
  | failed reason => exact Visit.fail_ne_looping
  | looping => exact absurd hv hfirst

theorem tagged_ends {key : String} {options : List Schema} {visit : Schema → Visitor} {v : Json}
    (h : ∀ ms tag option, v = .obj ms → Entries.get? ms key = some tag →
      options.find? (fun option => option.selects key tag) = some option →
      visit option path (some v) ≠ .looping) :
    tagged key (branches options visit) path v ≠ .looping := by
  unfold tagged
  cases v with
  | obj ms =>
      simp only [Json.members?]
      cases htag : Entries.get? ms key with
      | none => exact Visit.fail_ne_looping
      | some tag =>
          simp only [find?_branches]
          cases hopt : options.find? fun option => option.selects key tag with
          | none => exact Visit.fail_ne_looping
          | some option => exact Visit.present_ne_looping (h ms tag option rfl htag hopt)
  | _ => exact Visit.fail_ne_looping

theorem convert_ends {conversion : Conversion} {v : Json} :
    convert conversion path v ≠ .looping := by
  unfold convert
  cases conversion v <;> exact nofun

theorem transform_ends {side : Schema} {input output : Visitor} {conversion : Conversion} {v : Json}
    (hcheck : p.mode = .check → output path (some v) ≠ .looping)
    (hrun : ∀ verify, p.mode = .run verify → input path (some v) ≠ .looping)
    (hverify : ∀ verify accepted converted, p.mode = .run verify → p.config.verifyOutput = true →
      Visit.present input path v = .ok accepted → conversion accepted = .ok converted →
      verify side path converted ≠ .looping) :
    p.transform side input output conversion path v ≠ .looping := by
  unfold transform
  cases hmode : p.mode with
  | check => exact Visit.present_ne_looping (hcheck hmode)
  | run verify =>
      refine Outcome.bind_ne_looping (Visit.present_ne_looping (hrun verify hmode)) ?_
      intro accepted haccepted
      refine Outcome.bind_ne_looping convert_ends fun converted hconverted => ?_
      cases hconfig : p.config.verifyOutput with
      | false => exact nofun
      | true =>
          exact Outcome.map_ne_looping (hverify verify accepted converted hmode hconfig haccepted
            (convert_eq_ok_iff.mp hconverted))

theorem custom_ends {parent : Visitor} {decode : Conversion} {v : Json}
    (h : (p.direction = .encode ∨ p.mode.running = true) → parent path (some v) ≠ .looping) :
    p.custom parent decode path v ≠ .looping := by
  cases hdir : p.direction with
  | encode =>
      rw [custom_encode hdir]
      exact Visit.present_ne_looping (h (.inl hdir))
  | decode =>
      cases hmode : p.mode with
      | check =>
          rw [custom_decode_check hdir hmode]
          exact nofun
      | run verify =>
          rw [custom_decode_run hdir hmode]
          refine Outcome.bind_ne_looping (Visit.present_ne_looping (h (.inr ?_))) fun _ _ =>
            convert_ends
          rw [hmode]
          rfl

end Pass

/-! ## Visits of a visit -/

namespace Spot

variable (defs : Definitions) (config : ValidationConfig) (direction : Direction)

/-- The visits that a visit makes: those it consists of, and the attempts of a union without
discriminator, of which at most the last one counts. -/
inductive Makes : Spot → Spot → Prop
  | leads {outer inner} (h : Leads defs config direction outer inner) : Makes outer inner
  | tries {running options r f d v option} (hv : v ≠ .null)
      (hkey : Schema.discriminator? options = none) (hoption : option ∈ options) :
      Makes ⟨running, ⟨.oneOf options, r, f, d⟩, some v⟩ ⟨running, option, some v⟩

/-- The visit of a spot at a path. -/
def visit (spot : Spot) (path : String) : Visit (Option Json) :=
  match spot.running with
  | true => Traversal.run defs config direction spot.schema path spot.value
  | false => Traversal.check defs config direction spot.schema path spot.value

/-- From the spot on, visits are not made one inside the other without end. -/
abbrev Grounded (spot : Spot) : Prop :=
  Acc (fun inner outer => Makes defs config direction outer inner) spot

variable {defs config direction}

/-- **A null or an absent value is not visited any further**: no definition is opened for it. -/
theorem not_makes_of_absent {running : Bool} {s : Schema} {value : Option Json} (h : Absent value)
    (inner : Spot) : ¬ Makes defs config direction ⟨running, s, value⟩ inner := by
  intro hmade
  rcases h with rfl | rfl
  · cases hmade with
    | leads h => cases h
  · cases hmade with
    | leads h => cases h <;> contradiction
    | tries hv => exact hv rfl

end Spot

namespace Pass

open Spot (Makes)

variable {p : Pass} {defs : Definitions}

/-- **A visit ends if every visit that it makes does.** -/
theorem traverse_ends
    (hvisit : ∀ s path value, Spot.visit defs p.config p.direction ⟨p.mode.running, s, value⟩ path =
      p.traverse defs s path value)
    (hverify : ∀ verify, p.mode = .run verify →
      verify = fun side => Visit.present (Traversal.check defs p.config p.direction side))
    {s : Schema} {value : Option Json}
    (h : ∀ inner, Makes defs p.config p.direction ⟨p.mode.running, s, value⟩ inner →
      ∀ path, inner.visit defs p.config p.direction path ≠ .looping) (path : String) :
    p.traverse defs s path value ≠ .looping := by
  have hpart : ∀ {t w}, Makes defs p.config p.direction ⟨p.mode.running, s, value⟩
      ⟨p.mode.running, t, w⟩ → ∀ path, (p.followed defs).visitor t path w ≠ .looping := by
    intro t w hmade path
    rw [← traverse_eq, ← hvisit]
    exact h _ hmade path
  obtain ⟨kind, r, f, d⟩ := s
  rw [traverse_eq]
  refine node_ends fun v hv hne => ?_
  subst hv
  cases kind with
  | number | string | boolean => exact Visit.expect_ne_looping
  | any => exact nofun
  | enum options => exact enum_ends
  | array items =>
      refine array_ends fun xs hxs x hx => ?_
      subst hxs
      exact hpart (.leads (.element hx))
  | map values =>
      refine map_ends fun ms hms m hm => ?_
      subst hms
      exact hpart (.leads (.member hm))
  | object properties =>
      show (p.followed defs).object ((p.followed defs).propertyVisitors properties) path v ≠ .looping
      rw [propertyVisitors_eq_map]
      refine object_ends fun ms hms => List.forall_mem_map.mpr fun property hmem => ?_
      subst hms
      exact hpart (.leads (.property hmem))
  | lazy name target =>
      refine Visit.present_ne_looping ?_
      rw [← hvisit]
      exact h _ (.leads (.target hne)) path
  | oneOf options =>
      show oneOf options ((p.followed defs).visitors options) path v ≠ .looping
      rw [oneOf_eq]
      cases hkey : Schema.discriminator? options with
      | none =>
          exact untagged_ends (List.forall_mem_map.mpr fun option hmem =>
            hpart (.tries hne hkey hmem) path)
      | some key =>
          refine tagged_ends fun ms tag option hms htag hoption => ?_
          subst hms
          exact hpart (.leads (.branch hkey htag hoption)) path
  | transform encoded decoded dec enc =>
      obtain ⟨conversion, hconversion, hshape⟩ :=
        (p.followed defs).shape_transform encoded decoded dec enc r f d
      rw [hshape]
      refine transform_ends (fun hmode => ?_) (fun verify hmode => ?_) ?_
      · refine hpart ?_ path
        rw [show p.mode = .check from hmode]
        exact .leads (.output hne)
      · refine hpart ?_ path
        rw [show p.mode = .run verify from hmode]
        exact .leads (.input hne)
      · intro verify accepted converted hmode hconfig haccepted hconverted
        have hmode : p.mode = .run verify := hmode
        -- what the input side accepts here, the full run accepts at the root
        have hruns : Visit.present (Traversal.run defs p.config p.direction
            (Schema.transformSides p.direction encoded decoded).1) "" v = .ok accepted := by
          obtain ⟨o, ho, rfl⟩ := Visit.present_eq_ok_iff.mp haccepted
          rw [← traverse_eq, ← hvisit, hmode] at ho
          exact Visit.present_eq_ok_iff.mpr ⟨o, (Traversal.run_placed _ _).ok_at ho "", rfl⟩
        rw [hverify verify hmode]
        refine Visit.present_ne_looping (h ⟨false, _, some converted⟩ ?_ path)
        rw [hmode]
        exact .leads (.converted hne hconfig hruns hconversion hconverted)
  | custom name parent dec =>
      exact custom_ends fun happlied => hpart (.leads (.parent hne happlied)) path

end Pass

namespace Spot

variable {defs : Definitions} {config : ValidationConfig} {direction : Direction}

/-- A visit ends unless visits are made one inside the other without end. -/
theorem visit_ends {spot : Spot} (h : Grounded defs config direction spot) (path : String) :
    spot.visit defs config direction path ≠ .looping := by
  induction h generalizing path with
  | intro spot _ ih =>
      obtain ⟨running, s, value⟩ := spot
      cases running with
      | false =>
          exact Pass.traverse_ends (p := Traversal.checkPass config direction) (fun _ _ _ => rfl)
            nofun ih path
      | true =>
          refine Pass.traverse_ends (p := Traversal.runPass defs config direction)
            (fun _ _ _ => rfl) ?_ ih path
          rintro _ ⟨⟩
          rfl

/-! ## Guarded definitions -/

theorem grounded_of_absent {running : Bool} {s : Schema} {value : Option Json} (h : Absent value) :
    Grounded defs config direction ⟨running, s, value⟩ :=
  .intro _ fun inner hmade => absurd hmade (not_makes_of_absent h inner)

/-- What a visit makes comes to an end if three kinds of visits do: of the definitions opened on the
same value, of smaller values, and, where codecs run, checks. -/
theorem grounded_of_opened {running : Bool} {v : Json}
    (hchecks : running = true → ∀ t w, Grounded defs config direction ⟨false, t, some w⟩)
    (hinside : ∀ t w, w.depth < v.depth → Grounded defs config direction ⟨running, t, some w⟩)
    (s : Schema) (hhere : ∀ target ∈ s.openTargets,
      Grounded defs config direction ⟨running, defs.resolve target, some v⟩) :
    Grounded defs config direction ⟨running, s, some v⟩ := by
  induction s with
  | number | string | boolean | any | enum =>
      refine .intro _ fun inner hmade => ?_
      cases hmade with
      | leads h => cases h
  | lazy name target =>
      refine .intro _ fun inner hmade => ?_
      cases hmade with
      | leads h => cases h with | target => exact hhere target List.mem_cons_self
  | oneOf options r f d ih =>
      have hoption : ∀ option ∈ options, Grounded defs config direction ⟨running, option, some v⟩ :=
        fun option hmem => ih option hmem fun target ht =>
          hhere target (Schema.mem_openTargetsList hmem ht)
      refine .intro _ fun inner hmade => ?_
      cases hmade with
      | leads h => cases h with | branch _ _ hfind => exact hoption _ (List.mem_of_find?_eq_some hfind)
      | tries _ _ hmem => exact hoption _ hmem
  -- what stands in a container is smaller, or it is not there
  | array items =>
      refine .intro _ fun inner hmade => ?_
      cases hmade with
      | leads h =>
          cases h with | element hx => exact hinside _ _ (Json.depth_lt_of_mem_elements hx)
  | map values =>
      refine .intro _ fun inner hmade => ?_
      cases hmade with
      | leads h => cases h with | member hm => exact hinside _ _ (Json.depth_lt_of_mem_members hm)
  | object properties =>
      refine .intro _ fun inner hmade => ?_
      cases hmade with
      | leads h =>
          cases h with
          | @property _ _ _ _ _ ms property _ =>
              cases hget : Entries.get? ms property.1 with
              | none => exact grounded_of_absent (.inl rfl)
              | some w =>
                  exact hinside _ _ (Json.depth_lt_of_mem_members (Entries.mem_of_get? hget))
  | transform encoded decoded dec enc r f d ihe ihc =>
      have he := ihe fun target ht => hhere target (List.mem_append_left _ ht)
      have hc := ihc fun target ht => hhere target (List.mem_append_right _ ht)
      have hsides :
          Grounded defs config direction
            ⟨running, (Schema.transformSides direction encoded decoded).1, some v⟩ ∧
          Grounded defs config direction
            ⟨running, (Schema.transformSides direction encoded decoded).2, some v⟩ := by
        rcases Pass.transformSides_cases direction encoded decoded with h | h <;> rw [h]
        · exact ⟨he, hc⟩
        · exact ⟨hc, he⟩
      refine .intro _ fun inner hmade => ?_
      cases hmade with
      | leads h =>
          cases h with
          | input => exact hsides.1
          | output => exact hsides.2
          | converted => exact hchecks rfl _ _
  | custom name parent dec r f d ih =>
      refine .intro _ fun inner hmade => ?_
      cases hmade with
      | leads h => cases h with | parent => exact ih hhere

/-- Visits in one mode come to an end if definitions are guarded and, where codecs run, checks come
to an end. -/
theorem grounded_of_guarded (hguarded : defs.Guarded) {running : Bool}
    (hchecks : running = true → ∀ t w, Grounded defs config direction ⟨false, t, some w⟩)
    (s : Schema) (v : Json) : Grounded defs config direction ⟨running, s, some v⟩ := by
  -- on the depth of the value; within one depth, on the definitions opened one inside the other
  induction hd : v.depth using Nat.strong_induction_on generalizing s v with
  | _ n ih =>
      have hinside : ∀ t w, w.depth < v.depth → Grounded defs config direction ⟨running, t, some w⟩ :=
        fun t w hlt => ih w.depth (hd ▸ hlt) t w rfl
      have htarget : ∀ target,
          Grounded defs config direction ⟨running, defs.resolve target, some v⟩ := by
        intro target
        induction hguarded.acc target with
        | intro target _ ihtarget => exact grounded_of_opened hchecks hinside _ ihtarget
      exact grounded_of_opened hchecks hinside s fun target _ => htarget target

/-- **Visits by guarded definitions are not made one inside the other without end.** -/
theorem wellFounded_makes (hguarded : defs.Guarded) :
    WellFounded fun inner outer => Makes defs config direction outer inner := by
  refine ⟨fun ⟨running, s, value⟩ => ?_⟩
  rcases absent_or_present value with hv | ⟨v, rfl, _⟩
  · exact grounded_of_absent hv
  · have hchecks : ∀ t w, Grounded defs config direction ⟨false, t, some w⟩ :=
      grounded_of_guarded hguarded fun h => absurd h Bool.false_ne_true
    exact grounded_of_guarded hguarded (fun _ => hchecks) s v

end Spot

namespace Traversal

open Spot (Makes)

variable {defs : Definitions} {config : ValidationConfig} {direction : Direction}

theorem check_ends (hguarded : defs.Guarded) (s : Schema) (path : String) (value : Option Json) :
    check defs config direction s path value ≠ .looping :=
  Spot.visit_ends ((Spot.wellFounded_makes hguarded).apply ⟨false, s, value⟩) path

theorem run_ends (hguarded : defs.Guarded) (s : Schema) (path : String) (value : Option Json) :
    run defs config direction s path value ≠ .looping :=
  Spot.visit_ends ((Spot.wellFounded_makes hguarded).apply ⟨true, s, value⟩) path

/-- On a null or an absent value no reference is needed. -/
theorem runUpTo_zero_of_absent {s : Schema} {path : String} {value : Option Json}
    (h : Absent value) : runUpTo defs config direction 0 s path value =
      run defs config direction s path value := by
  rw [run_eq, Pass.visitor_eq, Pass.node_absent h]
  show (runPass defs config direction).upTo defs 0 s path value = _
  rw [Pass.upTo_eq, Pass.visitor_eq, Pass.node_absent h]

/-- **Validation by guarded definitions ends.** If every cycle of references passes through a
property, an element or a map value, then visits are not made one inside the other without end,
whatever codecs make, unions try or verification checks on the way. So a run has a verdict, which it
reaches with a bounded number of references, and allowing more of them changes nothing. On a null or
an absent value, at the root or inside, nothing more is visited, and no reference is needed. -/
theorem run_terminates (hguarded : defs.Guarded) (config : ValidationConfig)
    (direction : Direction) :
    (WellFounded fun inner outer => Makes defs config direction outer inner) ∧
      (∀ s path value, run defs config direction s path value ≠ .looping ∧
        ∀ n, hopBudget defs value ≤ n →
          runUpTo defs config direction n s path value = run defs config direction s path value) ∧
      ∀ s value, Absent value →
        (∀ running inner, ¬ Makes defs config direction ⟨running, s, value⟩ inner) ∧
          ∀ path, runUpTo defs config direction 0 s path value =
            run defs config direction s path value := by
  refine ⟨Spot.wellFounded_makes hguarded, fun s path value => ⟨run_ends hguarded s path value, ?_⟩,
    fun s value habsent => ⟨?_, ?_⟩⟩
  · exact fun n hn => Pass.upTo_eq_traverse_of_le (p := runPass defs config direction) hn
  · exact fun running inner => Spot.not_makes_of_absent habsent inner
  · exact fun path => runUpTo_zero_of_absent habsent

/-- Boxes that hold a text or another box. The content opens the box on the value that it is given,
the box only opens its members. -/
def boxes : Definitions :=
  ⟨[("Box", .object [("sealed", .castBoolean), ("content", .lazy "Content" "Content")]),
    ("Content", .oneOf [.string, .lazy "Box" "Box"])]⟩

theorem guarded_boxes : boxes.Guarded := by
  have hopens : ∀ a b, boxes.Opens a b → a = "Content" ∧ b = "Box" := by
    intro a b h
    have hmem : a = "Box" ∨ a = "Content" := by
      simpa [boxes, Entries.keys] using h.mem_keys
    rcases hmem with rfl | rfl
    · cases h
    · exact ⟨rfl, List.mem_singleton.mp h⟩
  intro target hcycle
  obtain ⟨_, hfirst, _⟩ := Relation.TransGen.head'_iff.mp hcycle
  obtain ⟨_, _, hlast⟩ := Relation.TransGen.tail'_iff.mp hcycle
  have hbox := (hopens _ _ hlast).2
  rw [(hopens _ _ hfirst).1] at hbox
  exact absurd hbox (by decide)

/-- A box in a box; the unions try a text first. -/
theorem run_terminates_boxes :
    let box := Json.obj [("sealed", .str "true"), ("content",
      .obj [("sealed", .str "false"), ("content", .str "note")])]
    run boxes {} .decode (.lazy "Content" "Content") "" (some box) =
        .ok (some (.obj [("sealed", .bool true), ("content",
          .obj [("sealed", .bool false), ("content", .str "note")])])) ∧
      ∀ n, hopBudget boxes (some box) ≤ n →
        runUpTo boxes {} .decode n (.lazy "Content" "Content") "" (some box) =
          run boxes {} .decode (.lazy "Content" "Content") "" (some box) := by
  intro box
  exact ⟨rfl, ((run_terminates guarded_boxes {} .decode).2.1 _ "" (some box)).2⟩

end Traversal

/-- A validator with guarded definitions accepts or rejects every value. -/
theorem Validator.validateOptional_ends (validator : Validator)
    (hguarded : validator.definitions.Guarded) (value : Option Json) :
    validator.validateOptional value ≠ .looping := by
  rw [Ne, Validator.validateOptional_eq_looping_iff]
  exact Traversal.run_ends hguarded validator.schema "" value

end RouteContract
