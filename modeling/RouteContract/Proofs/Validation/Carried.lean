import RouteContract.Proofs.Schema.Reach
import RouteContract.Proofs.Validation.Places

/-!
# Carried -- only codecs change data

What a run puts out is tied to what it was given by `Traversal.Carries`: a relation between a schema
and the two values, with one clause for each shape. Scalars and values without a declared shape are
the same, elements keep their positions and members of a map their names and places, and an object
has the same names as before, declared ones first, with the other members as they were. A union
carries a value as the option that it takes does (`Takes`). A codec is the one clause that says
nothing about the output, except that it is what the run of the codec makes of the value.

`Carries.alike` is the reading where no codec is near: the two values differ in nothing but the order
of object members.
-/

namespace RouteContract

open Json (Alike)
open Schema (CodecFree WellFormed discriminator?)

/-- Shapes that hand out the value itself. -/
def Kind.isPlain {σ : Type} : Kind σ → Bool
  | number | string | boolean | any | enum _ => true
  | _ => false

namespace Traversal

section Relation

variable (defs : Definitions) (config : ValidationConfig) (direction : Direction)

/-- The option that a union takes for a value: the one that the tag selects, or without a tag the
first one that does not fail. -/
inductive Takes (options : List Schema) (v : Json) (option : Schema) : Prop
  | selected {key} {ms : Entries Json} {tag} (hkey : discriminator? options = some key)
      (hv : v = .obj ms) (htag : Entries.get? ms key = some tag)
      (hoption : options.find? (fun option => option.selects key tag) = some option)
  | tried {before after} (hkey : discriminator? options = none)
      (hoptions : options = before ++ option :: after)
      (hbefore : ∀ earlier ∈ before, ∃ findings,
        run defs config direction earlier "" (some v) = .failed findings)

/-- **The output carries the value**: it differs from it in the order of object members and where
codecs stand, and nowhere else. -/
inductive Carries : Schema → Option Json → Option Json → Prop
  | absent {s value} (h : Absent value) : Carries s value value
  | plain {s v} (hkind : s.kind.isPlain = true) : Carries s (some v) (some v)
  | array {items r f d} {xs ys : List Json} (hlength : ys.length = xs.length)
      (helements : ∀ (i : Nat) x y, xs[i]? = some x → ys[i]? = some y →
        Carries items (some x) (some y)) :
      Carries ⟨.array items, r, f, d⟩ (some (.arr xs)) (some (.arr ys))
  | map {values r f d ms ns} (hkeys : Entries.keys ns = Entries.keys ms)
      (hvalues : ∀ key v w, Entries.get? ms key = some v → Entries.get? ns key = some w →
        Carries values (some v) (some w)) :
      Carries ⟨.map values, r, f, d⟩ (some (.obj ms)) (some (.obj ns))
  | object {properties r f d ms ns}
      (hkeys : Entries.keys ns = (Entries.keys properties).filter (Entries.has ms) ++
        (Entries.keys ms).filter fun key => !Entries.has properties key)
      (hdeclared : ∀ key s, Entries.get? properties key = some s →
        Carries s (Entries.get? ms key) (Entries.get? ns key))
      (hothers : ∀ key, Entries.get? properties key = none →
        Entries.get? ns key = Entries.get? ms key) :
      Carries ⟨.object properties, r, f, d⟩ (some (.obj ms)) (some (.obj ns))
  | oneOf {options r f d v o option} (hv : v ≠ .null)
      (htakes : Takes defs config direction options v option)
      (hrun : run defs config direction option "" (some v) = .ok (some o))
      (h : Carries option (some v) (some o)) : Carries ⟨.oneOf options, r, f, d⟩ (some v) (some o)
  | lazy {name target r f d v o} (hv : v ≠ .null)
      (h : Carries (defs.resolve target) (some v) (some o)) :
      Carries ⟨.lazy name target, r, f, d⟩ (some v) (some o)
  | codec {s v o} (hkind : s.kind.isCodec = true) (hv : v ≠ .null)
      (hrun : run defs config direction s "" (some v) = .ok (some o)) : Carries s (some v) (some o)

end Relation

variable {defs : Definitions} {config : ValidationConfig} {direction : Direction}

/-! ## Reading it off -/

theorem Takes.mem {options : List Schema} {v : Json} {option : Schema}
    (h : Takes defs config direction options v option) : option ∈ options := by
  cases h with
  | selected _ _ _ hoption => exact List.mem_of_find?_eq_some hoption
  | tried _ hoptions =>
      rw [hoptions]
      exact List.mem_append_right _ List.mem_cons_self

/-- Without codecs the two values are alike. -/
theorem Carries.alike {s : Schema} {value out : Option Json}
    (h : Carries defs config direction s value out) (hs : WellFormed defs s)
    (hfree : CodecFree defs s) (hvalue : WellFormedOption value) : AlikeOption out value := by
  induction h with
  | absent h => exact .refl _
  | plain => exact .refl _
  | @array items r f d xs ys hlength _ ih =>
      refine .some (Json.alike_arr_iff.mpr ⟨xs, rfl, forall₂_iff_getElem?.mpr ⟨hlength.symm, ?_⟩⟩)
      intro i y x hy hx
      have hwf := (hvalue _ rfl).element (List.mem_of_getElem? hx)
      have hlike := ih i x y hx hy (hs.part .items) (hfree.part .items) (wellFormedOption_some hwf)
      cases hlike with
      | some h => exact h
  | @map values r f d ms ns hkeys _ ih =>
      have hwf := hvalue _ rfl
      have hdistinct : Entries.Distinct ns := by
        rw [Entries.Distinct, hkeys]
        exact hwf.distinct
      refine .some (Json.alike_obj_of_get? hdistinct hwf.distinct fun key => ?_)
      cases hv : Entries.get? ms key with
      | none =>
          have hnone : Entries.get? ns key = none := by
            rw [Entries.get?_eq_none_iff, hkeys]
            exact Entries.get?_eq_none_iff.mp hv
          rw [hnone]
          exact .none
      | some v =>
          obtain ⟨w, hw⟩ : ∃ w, Entries.get? ns key = some w := by
            rw [← Option.isSome_iff_exists, ← Entries.has, Entries.has_iff_mem_keys, hkeys,
              ← Entries.has_iff_mem_keys, Entries.has, hv]
            rfl
          rw [hw]
          exact ih key v w hv hw (hs.part .values) (hfree.part .values)
            (wellFormedOption_some (hwf.get? hv))
  | @object properties r f d ms ns hkeys _ hothers ih =>
      have hwf := hvalue _ rfl
      have hproperties := hs.self.distinct properties rfl
      have hdistinct : Entries.Distinct ns := by
        rw [Entries.Distinct, hkeys]
        refine Entries.nodup_append_others (hproperties.filter _) (fun key hkey => ?_) hwf.distinct
        exact (Entries.has_iff_mem_keys properties key).mpr (List.mem_filter.mp hkey).1
      refine .some (Json.alike_obj_of_get? hdistinct hwf.distinct fun key => ?_)
      cases hkey : Entries.get? properties key with
      | none =>
          rw [hothers key hkey]
          exact AlikeOption.refl _
      | some s =>
          have hmem := Entries.mem_of_get? hkey
          exact ih key s hkey (hs.part (.property hmem)) (hfree.part (.property hmem))
            fun v hv => hwf.get? hv
  | @oneOf options r f d v o option hv htakes _ _ ih =>
      exact ih (hs.part (.option htakes.mem)) (hfree.part (.option htakes.mem)) hvalue
  | lazy hv _ ih => exact ih (hs.part .target) (hfree.part .target) hvalue
  | codec hkind =>
      have hplain := hfree.self
      rw [hkind] at hplain
      cases hplain

/-- A value that is there is carried by one that is there. -/
theorem Carries.isSome_eq {s : Schema} {value out : Option Json}
    (h : Carries defs config direction s value out) : out.isSome = value.isSome := by
  cases h <;> rfl

end Traversal

namespace Pass

variable {p : Pass} {path : String}

/-! ## The names of an accepted object -/

theorem visitor_isSome {s : Schema} {value out : Option Json}
    (h : p.visitor s path value = .ok out) : out.isSome = value.isSome := by
  rw [visitor_eq] at h
  rcases node_eq_ok_iff.mp h with ⟨_, _, rfl⟩ | ⟨_, _, rfl, _, _, _, rfl⟩ <;> rfl

/-- Fields without a value are left out. -/
theorem keys_ofFields {fields : List (String × Option Json)} {ms : Entries Json}
    (h : Json.ofFields fields = .obj ms) :
    Entries.keys ms = (fields.filter fun field => field.2.isSome).map Prod.fst := by
  cases h
  induction fields with
  | nil => rfl
  | cons field rest ih =>
      obtain ⟨key, _ | v⟩ := field
      · exact ih
      · exact congrArg (key :: ·) ih

/-- **An accepted object lists the declared names that it was given in declaration order, and then
the other ones in input order.** -/
theorem keys_of_object {properties : Entries Schema} {ms ns : Entries Json}
    (h : p.object (Entries.mapValues p.visitor properties) path (.obj ms) = .ok (.obj ns)) :
    Entries.keys ns = (Entries.keys properties).filter (Entries.has ms) ++
      (Entries.keys ms).filter fun key => !Entries.has properties key := by
  obtain ⟨_, fields, ⟨⟩, hfields, hadmitted, hns⟩ := object_eq_ok_iff.mp h
  have hdeclared : (fields.filter fun field => field.2.isSome).map Prod.fst =
      (Entries.keys properties).filter (Entries.has ms) := by
    rw [Entries.mapValues, List.forall₂_map_left_iff] at hfields
    clear h hadmitted hns
    induction hfields with
    | nil => rfl
    | @cons property field _ _ hfield _ ih =>
        obtain ⟨hname, hvisit⟩ := hfield
        have hsome : field.2.isSome = Entries.has ms property.1 := visitor_isSome hvisit
        rw [List.filter_cons, Entries.keys_cons, List.filter_cons, hsome]
        split
        · rw [List.map_cons, ih, hname]
        · exact ih
  have hunknown : ((carried (Entries.mapValues p.visitor properties) ms).filter
      fun field => field.2.isSome).map Prod.fst =
        (Entries.keys ms).filter fun key => !Entries.has properties key := by
    have hall : ∀ field ∈ carried (Entries.mapValues p.visitor properties) ms,
        field.2.isSome = true := List.forall_mem_map.mpr fun _ _ => rfl
    rw [List.filter_eq_self.mpr hall]
    refine (keys_carried _ _).trans ?_
    simp only [Entries.has_mapValues]
  rw [keys_ofFields hns.symm, List.filter_append, List.map_append, hdeclared, hunknown]

end Pass

namespace Traversal

variable {defs : Definitions} {config : ValidationConfig} {direction : Direction} {path : String}

/-! ## What visitors carry -/

section Visitors

variable (defs config direction)

/-- Whatever the visitor accepts it carries over. -/
def Carrying (s : Schema) (visit : Visitor) : Prop :=
  ∀ path value out, WellFormedOption value → visit path value = .ok out →
    Carries defs config direction s value out

/-- The same for what is done with present values. -/
def CarryingShape (s : Schema) (visit : String → Json → Visit Json) : Prop :=
  ∀ path v o, v.WellFormed → v ≠ .null → visit path v = .ok o →
    Carries defs config direction s (some v) (some o)

end Visitors

variable {p : Pass} {r : Bool} {f : Option Refinement} {d : Option String}

theorem Carrying.present {s : Schema} {visit : Visitor} (h : Carrying defs config direction s visit)
    {v o : Json} (hv : v.WellFormed) (hok : Visit.present visit path v = .ok o) :
    Carries defs config direction s (some v) (some o) := by
  obtain ⟨out, hout, rfl⟩ := Visit.present_eq_ok_iff.mp hok
  have hcarries := h path (some v) out (wellFormedOption_some hv) hout
  obtain ⟨o, rfl⟩ := Option.isSome_iff_exists.mp hcarries.isSome_eq
  exact hcarries

theorem CarryingShape.visitor {s : Schema}
    (h : CarryingShape defs config direction s (p.shape s.kind)) :
    Carrying defs config direction s (p.visitor s) := by
  intro path value out hvalue hok
  rw [Pass.visitor_eq] at hok
  rcases Pass.node_eq_ok_iff.mp hok with ⟨habsent, _, rfl⟩ | ⟨v, o, rfl, hne, hvisit, _, rfl⟩
  · exact .absent habsent
  · exact h path v o (hvalue v rfl) hne hvisit

theorem array_carries {items : Schema} {visit : Visitor}
    (h : Carrying defs config direction items visit) :
    CarryingShape defs config direction ⟨.array items, r, f, d⟩ (Pass.array visit) := by
  intro path v o hv _ hok
  obtain ⟨xs, ys, rfl, rfl, hys⟩ := Pass.array_eq_ok_iff.mp hok
  obtain ⟨hlength, helements⟩ := forall₂_iff_getElem?.mp (Pass.forall₂_of_zipIdx hys)
  refine .array hlength fun i x y hx hy => ?_
  obtain ⟨_, hvisit⟩ := helements i x y hx hy
  exact h.present (hv.element (List.mem_of_getElem? hx)) hvisit

theorem map_carries {values : Schema} {visit : Visitor}
    (h : Carrying defs config direction values visit) :
    CarryingShape defs config direction ⟨.map values, r, f, d⟩ (Pass.map visit) := by
  intro path v o hv _ hok
  obtain ⟨ms, ns, rfl, rfl, hns⟩ := Pass.map_eq_ok_iff.mp hok
  let Visited (v w : Json) : Prop := ∃ path', Visit.present visit path' v = .ok w
  have hmembers : List.Forall₂ (fun m n : String × Json => m.1 = n.1 ∧ Visited m.2 n.2) ms ns :=
    hns.imp fun _ _ hn => ⟨hn.1.symm, _, hn.2⟩
  refine .map (Entries.keys_eq_of_forall₂ (R := Visited) hmembers).symm fun key v w hget hget' => ?_
  have hrel := Entries.get?_of_forall₂ (R := Visited) hmembers key
  rw [hget, hget'] at hrel
  cases hrel with
  | some hvisit =>
      obtain ⟨_, hvisit⟩ := hvisit
      exact h.present (hv.get? hget) hvisit

theorem object_carries {properties : Entries Schema} (hdistinct : Entries.Distinct properties)
    (h : ∀ property ∈ properties, Carrying defs config direction property.2 (p.visitor property.2)) :
    CarryingShape defs config direction ⟨.object properties, r, f, d⟩
      (p.object (Entries.mapValues p.visitor properties)) := by
  intro path v o hv _ hok
  obtain ⟨ms, ns, rfl, rfl, _, hns⟩ :=
    Pass.object_result (hdistinct.mapValues _) hok fun ms hms => (hms ▸ hv).distinct
  refine .object (Pass.keys_of_object hok) (fun key s hs => ?_) fun key hkey => ?_
  · have hvisit := hns.declared key (p.visitor s) (by rw [Entries.get?_mapValues, hs]; rfl)
    exact h _ (Entries.mem_of_get? hs) _ _ _ (fun v hget => hv.get? hget) hvisit
  · exact hns.others key (by rw [Entries.get?_mapValues, hkey]; rfl)

/-- Visitors that come to what the run comes to, as far as they end. -/
def FollowsRun (defs : Definitions) (config : ValidationConfig) (direction : Direction) (p : Pass) :
    Prop :=
  ∀ s path value, p.visitor s path value ≠ .looping →
    p.visitor s path value = run defs config direction s path value

theorem FollowsRun.ok (h : FollowsRun defs config direction p) {s : Schema} {value out : Option Json}
    (hok : p.visitor s path value = .ok out) : run defs config direction s "" value = .ok out := by
  rw [h s path value (by rw [hok]; exact nofun)] at hok
  exact (run_placed s value).ok_at hok ""

theorem FollowsRun.failed (h : FollowsRun defs config direction p) {s : Schema} {v : Json}
    {findings : List Finding} (hfailed : Visit.present (p.visitor s) path v = .failed findings) :
    ∃ findings', run defs config direction s "" (some v) = .failed findings' := by
  obtain ⟨reason, hvisit⟩ : ∃ reason, p.visitor s path (some v) = .failed reason := by
    rw [← Outcome.verdict_eq_failed_iff, ← Visit.verdict_present, hfailed]
    rfl
  rw [h s path (some v) (by rw [hvisit]; exact nofun)] at hvisit
  exact (run_placed s (some v)).failed_at hvisit ""

theorem oneOf_carries (hrun : FollowsRun defs config direction p) {options : List Schema}
    (h : ∀ option ∈ options, Carrying defs config direction option (p.visitor option)) :
    CarryingShape defs config direction ⟨.oneOf options, r, f, d⟩
      (Pass.oneOf options (p.visitors options)) := by
  intro path v o hv hne hok
  have htaken : ∀ option, Takes defs config direction options v option →
      Visit.present (p.visitor option) path v = .ok o →
      Carries defs config direction ⟨.oneOf options, r, f, d⟩ (some v) (some o) := by
    intro option htakes hvisit
    have hcarries := (h option htakes.mem).present hv hvisit
    obtain ⟨out, hout, rfl⟩ := Visit.present_eq_ok_iff.mp hvisit
    obtain ⟨o, rfl⟩ := Option.isSome_iff_exists.mp (Pass.visitor_isSome hout)
    exact .oneOf hne htakes (hrun.ok hout) hcarries
  rw [Pass.oneOf_eq] at hok
  cases hkey : discriminator? options with
  | some key =>
      rw [hkey] at hok
      obtain ⟨ms, tag, option, rfl, htag, hfind, hvisit⟩ := Pass.tagged_eq_ok_iff.mp hok
      exact htaken option (.selected hkey rfl htag hfind) hvisit
  | none =>
      rw [hkey] at hok
      obtain ⟨before, visit, after, hmap, hbefore, hvisit⟩ :=
        Pass.firstAccepting_eq_ok_iff.mp (Pass.untagged_eq_ok_iff.mp hok)
      obtain ⟨earlier, rest, rfl, rfl, hrest⟩ := List.map_eq_append_iff.mp hmap
      obtain ⟨option, later, rfl, rfl, _⟩ := List.map_eq_cons_iff.mp hrest
      refine htaken option (.tried hkey rfl fun s hs => ?_) hvisit
      obtain ⟨reason, hfailed⟩ := hbefore _ (List.mem_map_of_mem hs)
      exact hrun.failed hfailed

/-! ## All references -/

/-- What the visitors of the definitions carry over, the visitors of every schema do. -/
theorem visitor_carries (hrun : FollowsRun defs config direction p)
    (hfollow : ∀ target, WellFormed defs (defs.resolve target) →
      CarryingShape defs config direction (defs.resolve target) (p.follow target))
    (s : Schema) (hs : WellFormed defs s) : Carrying defs config direction s (p.visitor s) := by
  have hcodec : ∀ t : Schema, t.kind.isCodec = true →
      Carrying defs config direction t (p.visitor t) := by
    intro t hkind path value out _ hok
    have hnode := hok
    rw [Pass.visitor_eq] at hnode
    rcases Pass.node_eq_ok_iff.mp hnode with ⟨habsent, _, rfl⟩ | ⟨v, o, rfl, hne, _, _, rfl⟩
    · exact .absent habsent
    · exact .codec hkind hne (hrun.ok hok)
  induction s with
  | number | string | boolean =>
      refine CarryingShape.visitor fun path v o _ _ hok => ?_
      rw [(Visit.expect_eq_ok_iff.mp hok).2]
      exact .plain rfl
  | any =>
      refine CarryingShape.visitor fun path v o _ _ hok => ?_
      cases hok
      exact .plain rfl
  | enum options =>
      refine CarryingShape.visitor fun path v o _ _ hok => ?_
      rw [(Pass.enum_eq_ok_iff.mp hok).2]
      exact .plain rfl
  | lazy name target =>
      refine CarryingShape.visitor fun path v o hv hne hok => ?_
      exact .lazy hne (hfollow target (hs.part .target) path v o hv hne hok)
  | oneOf options r f d ih =>
      exact (oneOf_carries hrun fun option hmem => ih option hmem (hs.part (.option hmem))).visitor
  | array items r f d ih => exact (array_carries (ih (hs.part .items))).visitor
  | object properties r f d ih =>
      refine CarryingShape.visitor ?_
      show CarryingShape defs config direction _ (p.object (p.propertyVisitors properties))
      rw [Pass.propertyVisitors_eq_map]
      exact object_carries (hs.self.distinct properties rfl) fun property hmem =>
        ih property hmem (hs.part (.property hmem))
  | map values r f d ih => exact (map_carries (ih (hs.part .values))).visitor
  | transform => exact hcodec _ rfl
  | custom => exact hcodec _ rfl

/-- **What a run accepts it carries over.** -/
theorem run_carries {s : Schema} (hs : WellFormed defs s) :
    Carrying defs config direction s (run defs config direction s) := by
  have hrun : ∀ n, FollowsRun defs config direction ((runPass defs config direction).withFollow
      ((runPass defs config direction).followAt defs n)) := by
    intro n s path value hne
    rw [← Pass.upTo_eq] at hne ⊢
    exact Pass.upTo_eq_traverse hne
  have hcarries : ∀ n s, WellFormed defs s →
      Carrying defs config direction s ((runPass defs config direction).upTo defs n s) := by
    intro n
    -- on the number of references that may be followed
    induction n with
    | zero =>
        intro s hs
        rw [Pass.upTo_eq]
        exact visitor_carries (hrun 0) (fun _ _ _ _ _ _ _ hok => nomatch hok) s hs
    | succ n ih =>
        intro s hs
        rw [Pass.upTo_eq]
        refine visitor_carries (hrun (n + 1)) (fun target htarget path v o hv _ hok => ?_) s hs
        exact (ih _ htarget).present hv hok
  exact fun path value => hcarries (hopBudget defs value) s hs path value

end Traversal

namespace Validator

/-- **Only codecs change data.** Whatever a validator for a well-formed schema makes of a value, with
codecs anywhere in the schema, it carries the value: the same names in every object, declared ones
first, with the members that are not declared as they were, every element at its position, the
members of every map in their order, every scalar as it was, null and absence kept apart. The only
places where more may differ are those where the walk through the schema, by way of the union options
that were taken, arrives at a codec. -/
theorem accepted_carries (validator : Validator)
    (hwf : WellFormed validator.definitions validator.schema) {value out : Option Json}
    (hvalue : WellFormedOption value) (hok : validator.validateOptional value = .ok out) :
    Traversal.Carries validator.definitions validator.config validator.direction validator.schema
      value out :=
  Traversal.run_carries hwf "" value out hvalue (validateOptional_eq_ok_iff.mp hok)

/-- A switch with a null behind it and a note on it. -/
theorem accepted_carries_switch :
    let wire := Json.obj [("note", .obj [("b", .str "x"), ("a", .arr [.null, .bool false])]),
      ("next", .null), ("on", .str "true")]
    let decoded := Json.obj [("on", .bool true), ("next", .null),
      ("note", .obj [("b", .str "x"), ("a", .arr [.null, .bool false])])]
    let decoder : Validator := { schema := switch, definitions := switches }
    decoder.validateOptional (some wire) = .ok (some decoded) ∧
      Traversal.Carries switches {} .decode switch (some wire) (some decoded) := by
  intro wire decoded decoder
  have hwire : WellFormedOption (some wire) := by
    rintro _ ⟨⟩
    simp [wire, Entries.Distinct, Entries.keys, Json.WellFormed, Json.WellFormedMembers,
      Json.WellFormedElements]
  have hok : decoder.validateOptional (some wire) = .ok (some decoded) := rfl
  exact ⟨hok, accepted_carries decoder wellFormed_switch hwire hok⟩

end Validator

end RouteContract
