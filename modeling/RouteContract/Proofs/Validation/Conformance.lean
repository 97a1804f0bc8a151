import RouteContract.Proofs.Validation.Ends
import RouteContract.Proofs.Validation.RoundTrip

/-!
# Conformance -- what a run puts out, the check of the same schema accepts

A run applies codecs; a check looks at a value as it stands, on the output side of every codec. The
two treat codecs and refinements differently, a union without discriminator may settle for another
option on the way back, and objects come back with their members reordered. Still no check refuses
what the run of the same schema put out (`conforms_upTo`): codecs were verified by that very check,
tags survive, an option that made a value does not refuse it, and refinements cannot tell the order
of members.

A check may fail to end where the run ended, since the run stopped at the wire side of a codec whose
program side is opened without end (`check_endless`). Guarded definitions rule that out
(`run_conforms`).
-/

namespace RouteContract

open Json (Alike)
open Schema (WellFormed NeverNull OrderBlind)

namespace Outcome

variable {ε α β : Type}

/-- A computation that does not fail: it succeeds, or it has no end. -/
def Unrefused (o : Outcome ε α) : Prop := ∀ reason, o ≠ failed reason

theorem Unrefused.ok (a : α) : Unrefused (ok a : Outcome ε α) := nofun

theorem Unrefused.map {o : Outcome ε α} (f : α → β) (h : o.Unrefused) : (o.map f).Unrefused := by
  intro reason hfailed
  cases o with
  | failed e => exact h e rfl
  | _ => cases hfailed

theorem Unrefused.bind {o : Outcome ε α} {f : α → Outcome ε β} (h : o.Unrefused)
    (hf : ∀ a, o = .ok a → (f a).Unrefused) : (o.bind f).Unrefused := by
  intro reason hfailed
  cases o with
  | ok a => exact hf a rfl reason hfailed
  | failed e => exact h e rfl
  | looping => cases hfailed

theorem Unrefused.gather {os : List (Outcome (List ε) α)} (h : ∀ o ∈ os, o.Unrefused) :
    (gather os).Unrefused := by
  induction os with
  | nil => exact .ok _
  | cons o rest ih =>
      rw [List.forall_mem_cons] at h
      have hrest := ih h.2
      rw [Outcome.gather]
      intro reason
      cases o with
      | failed e => exact absurd rfl (h.1 e)
      | looping => simp [gatherCons]
      | ok a =>
          cases hr : Outcome.gather rest with
          | failed e => exact absurd hr (hrest e)
          | ok as => simp [gatherCons]
          | looping => simp [gatherCons]

/-- A computation that does not fail either succeeds or has no end. -/
theorem Unrefused.cases {o : Outcome ε α} (h : o.Unrefused) : (∃ a, o = .ok a) ∨ o = looping := by
  cases o with
  | ok a => exact .inl ⟨a, rfl⟩
  | failed e => exact absurd rfl (h e)
  | looping => exact .inr rfl

end Outcome

namespace Pass

variable {p q : Pass} {path : String}

/-! ## What goes out is not refused -/

/-- What the first visitor makes of a value is there and not null if the value is, and the second
one does not refuse it. -/
def Conforms (out chk : Visitor) : Prop :=
  ∀ path value o, WellFormedOption value → out path value = .ok o →
    WellFormedOption o ∧ (∀ v, value = some v → ∃ w, o = some w ∧ (v ≠ .null → w ≠ .null)) ∧
      (chk path o).Unrefused

/-- The same for what is done with present values. -/
def ConformsShape (out chk : String → Json → Visit Json) : Prop :=
  ∀ path v o, v.WellFormed → out path v = .ok o →
    o.WellFormed ∧ (v ≠ .null → o ≠ .null) ∧ (chk path o).Unrefused

theorem Conforms.present {out chk : Visitor} (h : Conforms out chk) :
    ConformsShape (Visit.present out) (Visit.present chk) := by
  intro path v d hwf hok
  obtain ⟨o, ho, rfl⟩ := Visit.present_eq_ok_iff.mp hok
  obtain ⟨hwfo, hsome, hchk⟩ := h path (some v) o (wellFormedOption_some hwf) ho
  obtain ⟨w, rfl, hne⟩ := hsome v rfl
  exact ⟨hwfo w rfl, hne, hchk.map _⟩

/-- A node conforms if its shape does and its refinement passes what the check hands out. -/
theorem ConformsShape.node {isCodec required : Bool} {refinement : Option Refinement}
    {out chk : String → Json → Visit Json} (h : ConformsShape out chk)
    (hjudge : ∀ path v o w, v.WellFormed → out path v = .ok o → chk path o = .ok w →
      p.Passes isCodec refinement v o → q.Passes isCodec refinement o w) :
    Conforms (p.node isCodec required refinement out) (q.node isCodec required refinement chk) := by
  intro path value d hwf hok
  rcases node_eq_ok_iff.mp hok with ⟨habsent, hrequired, rfl⟩ | ⟨v, o, rfl, hne, hvisit, hpass, rfl⟩
  · refine ⟨hwf, fun v hv => ⟨v, hv, id⟩, ?_⟩
    rw [node_absent habsent, hrequired]
    exact .ok d
  · obtain ⟨hwfo, hnull, hchk⟩ := h path v o (hwf v rfl) hvisit
    refine ⟨wellFormedOption_some hwfo, fun u hu => ⟨o, rfl, by cases hu; exact hnull⟩, ?_⟩
    rw [node_present (hnull hne)]
    refine hchk.bind fun w hw => ?_
    rw [judged_eq_ok_iff.mpr ⟨hjudge path v o w (hwf v rfl) hvisit hw hpass, rfl⟩]
    exact .ok _

/-- In a check the refinement of a node judges nothing, or a value like the one that the run put
out. -/
theorem passes_of_run {verify : Schema → String → Json → Visit Json} (hrun : p.mode = .run verify)
    (hcheck : q.mode = .check) (hdir : p.direction = q.direction) {isCodec : Bool}
    {refinement : Option Refinement} (hblind : ∀ judge, refinement = some judge → judge.OrderBlind)
    {v o w : Json} (hwf : o.WellFormed) (hlike : Alike o w)
    (hpass : p.Passes isCodec refinement v o) : q.Passes isCodec refinement o w := by
  intro x judge hx hjudge
  unfold Passes programValue? at *
  rw [hrun, hdir] at hpass
  rw [hcheck] at hx
  -- only a codec that encodes is judged by its input, and a check does not judge it at all
  cases hd : q.direction <;> cases isCodec <;> rw [hd] at hx hpass <;> cases hx <;>
    exact (hblind judge hjudge o _ hwf hlike).mp (hpass o judge rfl hjudge)

/-! ## Leaves and containers -/

theorem conformsShape_of_same {visit : String → Json → Visit Json}
    (h : ∀ path v o, visit path v = .ok o → o = v) : ConformsShape visit visit := by
  intro path v o hwf hok
  obtain rfl := h path v o hok
  exact ⟨hwf, id, hok ▸ .ok o⟩

theorem elements_conform {out chk : Visitor} (h : Conforms out chk) {path : String}
    {xs ys : List Json} {start : Nat} (hwf : ∀ x ∈ xs, x.WellFormed)
    (hys : List.Forall₂ (fun x y => Visit.present out (Visit.elementPath path x.2) x.1 = .ok y)
      (xs.zipIdx start) ys) :
    (∀ y ∈ ys, y.WellFormed) ∧ ∀ y ∈ ys.zipIdx start,
      (Visit.present chk (Visit.elementPath path y.2) y.1).Unrefused := by
  induction xs generalizing ys start with
  | nil => cases hys; simp
  | cons x xs ih =>
      rw [List.zipIdx_cons] at hys
      cases hys with
      | cons hx hrest =>
          rw [List.forall_mem_cons] at hwf
          obtain ⟨hy, _, hchk⟩ := h.present _ _ _ hwf.1 hx
          obtain ⟨hwfrest, hchks⟩ := ih hwf.2 hrest
          rw [List.zipIdx_cons]
          exact ⟨List.forall_mem_cons.mpr ⟨hy, hwfrest⟩, List.forall_mem_cons.mpr ⟨hchk, hchks⟩⟩

theorem array_conforms {out chk : Visitor} (h : Conforms out chk) :
    ConformsShape (array out) (array chk) := by
  intro path v o hwf hok
  obtain ⟨xs, ys, rfl, rfl, hys⟩ := array_eq_ok_iff.mp hok
  obtain ⟨hwfys, hchk⟩ := elements_conform h (fun x hx => hwf.element hx) hys
  refine ⟨Json.wellFormed_arr_iff.mpr hwfys, by simp, ?_⟩
  show (Outcome.map _ _).Unrefused
  exact (Outcome.Unrefused.gather (List.forall_mem_map.mpr hchk)).map _

theorem members_conform {out chk : Visitor} (h : Conforms out chk) {path : String}
    {ms ns : Entries Json} (hwf : ∀ m ∈ ms, m.2.WellFormed)
    (hns : List.Forall₂ (MappedField out path) ms ns) :
    Entries.keys ns = Entries.keys ms ∧ (∀ n ∈ ns, n.2.WellFormed) ∧
      ∀ n ∈ ns, (Visit.present chk (Visit.childPath path n.1) n.2).Unrefused := by
  induction hns with
  | nil => simp
  | @cons m n ms ns hmn _ ih =>
      rw [List.forall_mem_cons] at hwf
      obtain ⟨hname, hvisit⟩ := hmn
      obtain ⟨hn, _, hchk⟩ := h.present _ _ _ hwf.1 hvisit
      obtain ⟨hkeys, hwfns, hchks⟩ := ih hwf.2
      refine ⟨?_, List.forall_mem_cons.mpr ⟨hn, hwfns⟩, List.forall_mem_cons.mpr ⟨?_, hchks⟩⟩
      · rw [Entries.keys_cons, Entries.keys_cons, hkeys, hname]
      · rw [hname]
        exact hchk

theorem map_conforms {out chk : Visitor} (h : Conforms out chk) :
    ConformsShape (map out) (map chk) := by
  intro path v o hwf hok
  obtain ⟨ms, ns, rfl, rfl, hns⟩ := map_eq_ok_iff.mp hok
  obtain ⟨hkeys, hwfns, hchk⟩ := members_conform h (fun m hm => hwf.member hm) hns
  refine ⟨Json.wellFormed_obj_iff.mpr ⟨?_, hwfns⟩, by simp, ?_⟩
  · rw [Entries.Distinct, hkeys]
    exact hwf.distinct
  · show (Outcome.map _ _).Unrefused
    refine (Outcome.Unrefused.gather (List.forall_mem_map.mpr fun n hn => ?_)).map _
    exact (hchk n hn).map _

/-- An object is not refused if no property refuses its member and no other member is refused. -/
theorem object_unrefused {properties : List (String × Visitor)} {ms : Entries Json}
    (h : ∀ property ∈ properties,
      (property.2 (Visit.childPath path property.1) (Entries.get? ms property.1)).Unrefused)
    (hadmitted : p.Admitted properties ms) : (p.object properties path (.obj ms)).Unrefused := by
  show (Outcome.map _ _).Unrefused
  refine (Outcome.Unrefused.gather ?_).map _
  intro o ho
  rcases List.mem_append.mp ho with ho | ho
  · obtain ⟨property, hmem, rfl⟩ := List.mem_map.mp ho
    exact (h property hmem).map _
  · obtain ⟨m, hm, rfl⟩ := List.mem_map.mp ho
    obtain ⟨hm, hunknown⟩ := List.mem_filter.mp hm
    split
    · next hstrict => simp [hadmitted hstrict m hm] at hunknown
    · exact .ok _

theorem object_conforms {properties : Entries Schema} {out chk : Schema → Visitor}
    (hconfig : p.config = q.config) (hdistinct : Entries.Distinct properties)
    (h : ∀ property ∈ properties, Conforms (out property.2) (chk property.2)) :
    ConformsShape (p.object (Entries.mapValues out properties))
      (q.object (Entries.mapValues chk properties)) := by
  have hkeys : ∀ {f : Schema → Visitor} {key}, Entries.get? (Entries.mapValues f properties) key =
      (Entries.get? properties key).map f := Entries.get?_mapValues _ _ _
  intro path v o hwf hok
  obtain ⟨ms, ns, rfl, rfl, hadmitted, hns⟩ :=
    object_result (hdistinct.mapValues _) hok fun ms hms => (hms ▸ hwf).distinct
  -- what is known of a declared property, by name
  have hdeclared : ∀ key s, Entries.get? properties key = some s →
      WellFormedOption (Entries.get? ns key) ∧
        (chk s (Visit.childPath path key) (Entries.get? ns key)).Unrefused := by
    intro key s hs
    have hvisit := hns.declared key (out s) (by rw [hkeys, hs]; rfl)
    obtain ⟨hwfn, _, hchk⟩ :=
      h _ (Entries.mem_of_get? hs) _ _ _ (fun v hv => hwf.get? hv) hvisit
    exact ⟨hwfn, hchk⟩
  refine ⟨?_, by simp, object_unrefused (List.forall_mem_map.mpr fun property hmem => ?_) ?_⟩
  · refine hns.wellFormed hwf fun key visit hvisit => ?_
    rw [hkeys] at hvisit
    obtain ⟨s, hs, _⟩ := Option.map_eq_some_iff.mp hvisit
    exact (hdeclared key s hs).1
  · exact (hdeclared _ _ (hdistinct.get?_of_mem hmem)).2
  · refine hns.admitted hconfig (fun key => ?_) hadmitted
    rw [Entries.has, Entries.has, hkeys, hkeys, Option.isSome_map, Option.isSome_map]

/-! ## Unions -/

theorem firstAccepting_failed {visitors : List Visitor} {v : Json} {reason : List Finding}
    (h : firstAccepting path v visitors = .failed reason) :
    ∀ visit ∈ visitors, ∃ r, Visit.present visit path v = .failed r := by
  induction visitors with
  | nil => simp
  | cons visit rest ih =>
      rw [firstAccepting] at h
      rw [List.forall_mem_cons]
      cases hv : Visit.present visit path v with
      | ok o => rw [hv] at h; cases h
      | looping => rw [hv] at h; cases h
      | failed r =>
          rw [hv] at h
          exact ⟨⟨r, rfl⟩, ih h⟩

/-- Ordered trial does not refuse what one of the options does not refuse. -/
theorem untagged_unrefused {visitors : List Visitor} {visit : Visitor} (hmem : visit ∈ visitors)
    {v : Json} (h : (Visit.present visit path v).Unrefused) : (untagged visitors path v).Unrefused := by
  unfold untagged
  cases hv : firstAccepting path v visitors with
  | failed reason =>
      obtain ⟨r, hr⟩ := firstAccepting_failed hv visit hmem
      exact absurd hr (h r)
  | _ => exact nofun

theorem tagged_unrefused {options : List Schema} {visit : Schema → Visitor} {key : String}
    {ms : Entries Json} {tag : Json} {option : Schema} (hget : Entries.get? ms key = some tag)
    (hfind : options.find? (fun option => option.selects key tag) = some option)
    (h : (Visit.present (visit option) path (.obj ms)).Unrefused) :
    (tagged key (branches options visit) path (.obj ms)).Unrefused := by
  unfold tagged
  simp only [Json.members?, hget, find?_branches, hfind]
  exact h

theorem oneOf_conforms {options : List Schema}
    (hoptions : ∀ option ∈ options, Schema.WellFormedNode option)
    (h : ∀ option ∈ options, Conforms (p.visitor option) (q.visitor option)) :
    ConformsShape (oneOf options (p.visitors options)) (oneOf options (q.visitors options)) := by
  intro path v o hwf hok
  obtain ⟨option, hmem, hvisit⟩ := oneOf_result hok
  obtain ⟨hwfo, hnull, hchk⟩ := (h option hmem).present path _ _ hwf hvisit
  refine ⟨hwfo, hnull, ?_⟩
  rw [oneOf_eq] at hok ⊢
  cases hdisc : Schema.discriminator? options with
  | none => exact untagged_unrefused (List.mem_map_of_mem hmem) hchk
  | some key =>
      rw [hdisc] at hok
      obtain ⟨ms, tag, chosen, rfl, hget, hfind, hvisit⟩ := tagged_eq_ok_iff.mp hok
      have hchosen := List.mem_of_find?_eq_some hfind
      have htag := Schema.tag?_isSome_of_discriminator? hdisc chosen hchosen
      -- the tag is an enum member, which no codec touches, so it selects the same option again
      obtain ⟨ns, rfl, hkept⟩ := tag_kept htag (hoptions chosen hchosen) hwf.distinct hvisit
      exact tagged_unrefused (hkept.trans hget) hfind
        ((h chosen hchosen).present path _ _ hwf hvisit).2.2

end Pass

namespace Traversal

open Pass (Conforms ConformsShape)

variable {defs : Definitions} {config : ValidationConfig} {direction : Direction}

/-! ## The traversals -/

/-- A codec that runs: what comes out was accepted by the check of its output side. -/
theorem transform_conforms {p q : Pass} (hverify : p.config.verifyOutput = true)
    (hp : p.mode = .run fun side => Visit.present (check defs config direction side))
    (hq : q.mode = .check) {side : Schema} {input inputChk input' : Visitor} {conversion : Conversion}
    (hinput : Conforms input inputChk)
    (hwf : ∀ v o, v.WellFormed → conversion v = .ok o → o.WellFormed)
    (hnull : ∀ v, conversion v ≠ .ok .null) {output : Visitor} :
    ConformsShape (p.transform side input output conversion)
      (q.transform side input' (check defs config direction side) conversion) := by
  intro path v d hv hok
  obtain ⟨accepted, haccepted, hconv, hverified⟩ := (Pass.transform_run_eq_ok_iff hp).mp hok
  obtain ⟨o, ho⟩ := hverified hverify
  refine ⟨hwf accepted d (hinput.present path v accepted hv haccepted).1 hconv, ?_, ?_⟩
  · rintro - rfl
    exact hnull accepted hconv
  · rw [Pass.transform_check hq, ho]
    exact .ok o

/-- What the visitors of the definitions do not refuse, the visitors of every schema do not
refuse. -/
theorem conforms_of_follow (hverify : config.verifyOutput = true)
    {f : String → String → Json → Visit Json}
    (hf : ∀ target, WellFormed defs (defs.resolve target) → NeverNull defs (defs.resolve target) →
      OrderBlind defs (defs.resolve target) →
        ConformsShape (f target) (Visit.present (check defs config direction (defs.resolve target))))
    (s : Schema) (hs : WellFormed defs s) (hnull : NeverNull defs s) (hblind : OrderBlind defs s) :
    Conforms (((runPass defs config direction).withFollow f).visitor s)
      (check defs config direction s) := by
  let run := (runPass defs config direction).withFollow f
  let chk := (checkPass config direction).followed defs
  have hchk : check defs config direction = chk.visitor := funext (check_eq defs config direction)
  have hkeeps : ∀ {t : Schema}, WellFormed defs t → Pass.KeepsShape (chk.shape t.kind) :=
    fun {t} ht => Pass.keeps_shape (p := checkPass config direction) rfl
      (fun target htarget => (Pass.keeps_traverse (p := checkPass config direction) rfl
        htarget).present) t ht
  -- a refinement judges what the check hands out, which is like what the run put out
  have hnode : ∀ {t : Schema}, WellFormed defs t → OrderBlind defs t →
      ConformsShape (run.shape t.kind) (chk.shape t.kind) →
      Conforms (run.visitor t) (chk.visitor t) := by
    intro t ht hbt hshape
    rw [Pass.visitor_eq, Pass.visitor_eq]
    refine hshape.node fun path v o w hv ho hw hpass => ?_
    have hwfo := (hshape path v o hv ho).1
    exact Pass.passes_of_run (p := run) (q := chk) rfl rfl rfl hbt.self hwfo
      (hkeeps ht path o w hwfo hw).symm hpass
  show Conforms (run.visitor s) (check defs config direction s)
  rw [hchk]
  induction s with
  | number | string | boolean =>
      refine hnode hs hblind (Pass.conformsShape_of_same fun path v o hok => ?_)
      exact (Visit.expect_eq_ok_iff.mp hok).2
  | any =>
      refine hnode hs hblind (Pass.conformsShape_of_same fun path v o hok => ?_)
      cases hok
      rfl
  | enum options =>
      refine hnode hs hblind (Pass.conformsShape_of_same fun path v o hok => ?_)
      exact (Pass.enum_eq_ok_iff.mp hok).2
  | lazy name target =>
      exact hnode hs hblind (hf target (hs.part .target) (hnull.part .target) (hblind.part .target))
  | oneOf options r g d ih =>
      refine hnode hs hblind (Pass.oneOf_conforms ?_ ?_)
      · exact fun option hmem => (hs.part (.option hmem)).self
      · exact fun option hmem => ih option hmem (hs.part (.option hmem)) (hnull.part (.option hmem))
          (hblind.part (.option hmem))
  | array items r g d ih =>
      exact hnode hs hblind
        (Pass.array_conforms (ih (hs.part .items) (hnull.part .items) (hblind.part .items)))
  | object properties r g d ih =>
      refine hnode hs hblind ?_
      show ConformsShape (run.object (run.propertyVisitors properties))
        (chk.object (chk.propertyVisitors properties))
      rw [Pass.propertyVisitors_eq_map, Pass.propertyVisitors_eq_map]
      refine Pass.object_conforms rfl (hs.self.distinct properties rfl) fun property hmem => ?_
      exact ih property hmem (hs.part (.property hmem)) (hnull.part (.property hmem))
        (hblind.part (.property hmem))
  | map values r g d ih =>
      exact hnode hs hblind
        (Pass.map_conforms (ih (hs.part .values) (hnull.part .values) (hblind.part .values)))
  | transform e c dec enc r g d ihe ihc =>
      refine hnode hs hblind ?_
      have hwf := hs.self.conversion direction
      have hnull' := hnull.self direction
      cases hdir : direction with
      | decode =>
          subst hdir
          rw [Pass.shape_transform_decode rfl, Pass.shape_transform_decode rfl, ← hchk]
          exact transform_conforms hverify rfl rfl
            (ihe (hs.part .encoded) (hnull.part .encoded) (hblind.part .encoded)) (hwf dec rfl)
            (hnull' dec rfl)
      | encode =>
          subst hdir
          rw [Pass.shape_transform_encode rfl, Pass.shape_transform_encode rfl, ← hchk]
          exact transform_conforms hverify rfl rfl
            (ihc (hs.part .decoded) (hnull.part .decoded) (hblind.part .decoded)) (hwf enc rfl)
            (hnull' enc rfl)
  | custom name parent dec r g d ih =>
      refine hnode hs hblind ?_
      have hparent := ih (hs.part .parent) (hnull.part .parent) (hblind.part .parent)
      intro path v o hv hok
      show o.WellFormed ∧ _ ∧ (chk.custom (chk.visitor parent) dec path o).Unrefused
      change run.custom (run.visitor parent) dec path v = .ok o at hok
      cases hdir : direction with
      | decode =>
          rw [Pass.custom_decode_run hdir rfl, Outcome.bind_eq_ok_iff] at hok
          obtain ⟨accepted, haccepted, hconv⟩ := hok
          have hconv := Pass.convert_eq_ok_iff.mp hconv
          obtain ⟨hwfa, _⟩ := hparent.present path v accepted hv haccepted
          refine ⟨hs.self.conversion .decode dec rfl accepted o hwfa hconv, ?_, ?_⟩
          · rintro - rfl
            exact hnull.self .decode dec rfl accepted hconv
          · rw [Pass.custom_decode_check hdir rfl]
            exact .ok o
      | encode =>
          rw [Pass.custom_encode hdir] at hok ⊢
          exact hparent.present path v o hv hok

/-- What a run puts out, however many references it may follow, the check does not refuse. -/
theorem conforms_upTo (hverify : config.verifyOutput = true) (n : Nat) (s : Schema)
    (hs : WellFormed defs s) (hnull : NeverNull defs s) (hblind : OrderBlind defs s) :
    Conforms ((runPass defs config direction).upTo defs n s) (check defs config direction s) := by
  induction n generalizing s with
  | zero =>
      rw [Pass.upTo_eq]
      refine conforms_of_follow hverify (fun target _ _ _ path v o _ hok => ?_) s hs hnull hblind
      cases hok
  | succ n ih =>
      rw [Pass.upTo_eq]
      exact conforms_of_follow hverify (fun target hs hnull hblind => (ih _ hs hnull hblind).present)
        s hs hnull hblind

/-- **Output conformance.** Take a schema in which no codec function returns null and no refinement
tells the order of members, and a configuration that verifies the output of codecs. What a run in
either direction puts out for a value, present, null or absent, the check of the same schema and
direction accepts and hands out as it is, up to the order of members, if it ends; by guarded
definitions it always does. -/
theorem run_conforms (hverify : config.verifyOutput = true) {s : Schema} (hs : WellFormed defs s)
    (hnull : NeverNull defs s) (hblind : OrderBlind defs s) {path : String} {value out : Option Json}
    (hvalue : WellFormedOption value) (hok : run defs config direction s path value = .ok out)
    (hends : check defs config direction s path out ≠ .looping ∨ defs.Guarded) :
    ∃ w, check defs config direction s path out = .ok w ∧ AlikeOption w out := by
  obtain ⟨hwf, _, hchk⟩ := conforms_upTo hverify _ s hs hnull hblind path value out hvalue hok
  rcases hchk.cases with ⟨w, hw⟩ | hloop
  · exact ⟨w, hw, check_keeps hs path out w hwf hw⟩
  · rcases hends with hends | hguarded
    · exact absurd hloop hends
    · exact absurd hloop (check_ends hguarded s path out)

/-- A switch stands behind the property of another one. -/
theorem guarded_switches : switches.Guarded := by
  intro target hcycle
  obtain ⟨_, hopens, _⟩ := Relation.TransGen.head'_iff.mp hcycle
  have hname : target = "Switch" := by
    simpa [switches, Entries.keys] using hopens.mem_keys
  subst hname
  cases hopens

/-- Two switches, one behind the other: the words of the wire come out as truth values, and the check
of the program side takes those. -/
theorem run_conforms_switches :
    let wire := Json.obj [("next", .obj [("on", .str "false")]), ("on", .str "true")]
    let decoded := Json.obj [("on", .bool true), ("next", .obj [("on", .bool false)])]
    run switches {} .decode switch "" (some wire) = .ok (some decoded) ∧
      ∃ w, check switches {} .decode switch "" (some decoded) = .ok w ∧
        AlikeOption w (some decoded) := by
  intro wire decoded
  have hwire : WellFormedOption (some wire) := by
    rintro _ ⟨⟩
    simp [wire, Entries.Distinct, Entries.keys, Json.WellFormed, Json.WellFormedMembers]
  have hok : run switches {} .decode switch "" (some wire) = .ok (some decoded) := rfl
  exact ⟨hok, run_conforms rfl wellFormed_switch neverNull_switch invertible_switch.blind hwire hok
    (.inr guarded_switches)⟩

/-! ## A check without end -/

/-- Every value counts as one. -/
def tally : Conversion := fun _ => .ok (.num (.int 1))

/-- A count on the wire: a text, whose program side opens the circle, or a number. -/
def count : Schema :=
  .oneOf [.ofKind (.transform .string (.lazy "Circle" "Circle") tally tally),
    .ofKind (.transform .number .number tally tally)]

/-- Everything that stands in a count. -/
def InCount (s : Schema) : Prop :=
  s = count ∨ s = .ofKind (.transform .string (.lazy "Circle" "Circle") tally tally) ∨
    s = .ofKind (.transform .number .number tally tally) ∨ s = .string ∨ s = .number ∨
      s = .lazy "Circle" "Circle"

/-- No node of a count declares properties or has a refinement, and its codecs convert every value
into one. -/
theorem throughout_count : Schema.Throughout .circle (fun s =>
    (∀ properties, s.kind ≠ .object properties) ∧ s.refinement = none ∧
      ∀ direction convert, s.conversion? direction = some convert → convert = tally) count := by
  refine .of_closed (S := InCount) (fun s t hs h => ?_) (fun s hs => ?_) (.inl rfl)
  · rcases hs with rfl | rfl | rfl | rfl | rfl | rfl
    · unfold count at h
      cases h with
      | option hmem =>
          rcases List.mem_pair.mp hmem with rfl | rfl
          · exact .inr (.inl rfl)
          · exact .inr (.inr (.inl rfl))
    · cases h with
      | encoded => exact .inr (.inr (.inr (.inl rfl)))
      | decoded => exact .inr (.inr (.inr (.inr (.inr rfl))))
    · cases h <;> exact .inr (.inr (.inr (.inr (.inl rfl))))
    · cases h
    · cases h
    · cases h
      exact .inr (.inr (.inr (.inr (.inr rfl))))
  · rcases hs with rfl | rfl | rfl | rfl | rfl | rfl <;>
      refine ⟨nofun, rfl, fun direction convert hconvert => ?_⟩ <;>
      cases direction <;> cases hconvert <;> rfl

/-- The check of what a run put out may have no end, though no codec returns null and there are no
refinements: the run of a count leaves the text behind on the wire side, where the check goes by the
program side and opens the circle. -/
theorem check_endless :
    let one := Json.num (.int 1)
    WellFormed .circle count ∧ NeverNull .circle count ∧ OrderBlind .circle count ∧
      ({} : ValidationConfig).verifyOutput = true ∧ WellFormedOption (some one) ∧
      run .circle {} .decode count "" (some one) = .ok (some one) ∧
      check .circle {} .decode count "" (some one) = .looping := by
  intro one
  have hwf : one.WellFormed := by trivial
  refine ⟨throughout_count.imp fun s ⟨hkind, _, hconvert⟩ => ⟨?_, ?_⟩,
    throughout_count.imp fun s ⟨_, _, hconvert⟩ direction convert hconversion v => ?_,
    throughout_count.imp fun s ⟨_, hrefinement, _⟩ judge hjudge => ?_, rfl,
    wellFormedOption_some hwf, rfl, rfl⟩
  · exact fun properties hobject => absurd hobject (hkind properties)
  · intro direction convert hconversion v o _ hok
    rw [hconvert direction convert hconversion] at hok
    cases hok
    exact hwf
  · rw [hconvert direction convert hconversion]
    exact nofun
  · rw [hrefinement] at hjudge
    cases hjudge

end Traversal

end RouteContract
