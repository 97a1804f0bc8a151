import RouteContract.Proofs.Validation.Check
import RouteContract.Proofs.Validation.Dispatch

/-!
# RoundTrip -- encoding brings back what was decoded

A value that was decoded is accepted for encoding, and encoding it gives the value that it was
decoded from, up to the order of object members. This needs conditions on the schema
(`Schema.Invertible`): codecs have to be faithful and not nested, a union over codecs has to go by
its tag, and no refinement may judge a value that has a codec inside. Schemas may be recursive; the
induction is on the references that the decoding followed and then on the schema.

`Returns out back` is what is proved of the two visitors of a schema: whatever `out` accepts, `back`
brings back.
-/

namespace RouteContract

open Json (Alike)
open Schema (CodecFree WellFormed OrderBlind discriminator?)

/-- A codec is faithful when every value it decodes to is not null and encodes back, as it is or
with its members in another order, to the value it was decoded from. -/
def Faithful (decode encode : Conversion) : Prop :=
  ∀ w d, w.WellFormed → decode w = .ok d →
    d ≠ .null ∧ ∀ d', Alike d' d → ∃ w', encode d' = .ok w' ∧ Alike w' w

namespace Schema

/-- **What the round trip asks of one node.** -/
structure InvertibleNode (defs : Definitions) (t : Schema) : Prop where
  /-- A custom type has no way back. -/
  not_custom : ∀ name parent dec, t.kind ≠ .custom name parent dec
  /-- No codec stands on either side of a codec. -/
  plain_sides : ∀ e c dec enc, t.kind = .transform e c dec enc → CodecFree defs e ∧ CodecFree defs c
  /-- A codec encodes back what it decodes. -/
  faithful : ∀ e c dec enc, t.kind = .transform e c dec enc → Faithful dec enc
  /-- A union with a codec below it goes by a tag. -/
  discriminated : ∀ options, t.kind = .oneOf options → ¬ CodecFree defs t →
    (discriminator? options).isSome
  /-- A refinement sits on a codec or on a node with no codec below it. -/
  refinement : t.refinement ≠ none → t.kind.isCodec = true ∨ CodecFree defs t

/-- Every node of the schema can be brought back, and no refinement sees the order of members. -/
structure Invertible (defs : Definitions) (s : Schema) : Prop where
  nodes : Throughout defs (InvertibleNode defs) s
  blind : OrderBlind defs s

theorem Invertible.part {defs : Definitions} {s t : Schema} (h : Invertible defs s)
    (hpart : Part defs s t) : Invertible defs t :=
  ⟨h.nodes.part hpart, h.blind.part hpart⟩

end Schema

open Schema (Invertible InvertibleNode)

namespace Pass

variable {p q : Pass} {defs : Definitions} {config : ValidationConfig} {path : String}

/-! ## What goes out comes back -/

/-- What the first visitor makes of a value is there and not null if the value is, and the second
one makes the value of it again. -/
def Returns (out back : Visitor) : Prop :=
  ∀ path value d, WellFormedOption value → out path value = .ok d →
    WellFormedOption d ∧ (∀ v, value = some v → ∃ o, d = some o ∧ (v ≠ .null → o ≠ .null)) ∧
      ∃ w, back path d = .ok w ∧ AlikeOption w value

/-- The same for what is done with present values. -/
def ReturnsShape (out back : String → Json → Visit Json) : Prop :=
  ∀ path v d, v.WellFormed → out path v = .ok d →
    d.WellFormed ∧ (v ≠ .null → d ≠ .null) ∧ ∃ w, back path d = .ok w ∧ Alike w v

theorem Returns.present {out back : Visitor} (h : Returns out back) :
    ReturnsShape (Visit.present out) (Visit.present back) := by
  intro path v d hwf hok
  obtain ⟨o, ho, rfl⟩ := Visit.present_eq_ok_iff.mp hok
  obtain ⟨hd, hsome, w, hw, hlike⟩ := h path (some v) o (wellFormedOption_some hwf) ho
  obtain ⟨d, rfl, hne⟩ := hsome v rfl
  cases hlike with
  | @some w _ hlike =>
      refine ⟨hd d rfl, hne, w, ?_, hlike⟩
      exact Visit.present_eq_ok_iff.mpr ⟨some w, hw, rfl⟩

/-- A node brings back what its shape brings back, unless a refinement comes in between. A codec's
refinement does not: it judges the program value on both ways. -/
theorem ReturnsShape.node {isCodec required : Bool} {refinement : Option Refinement}
    {out back : String → Json → Visit Json} {verify : Schema → String → Json → Visit Json}
    (hdecode : p.direction = .decode) (hencode : q.direction = .encode) (hrun : q.mode = .run verify)
    (hplain : refinement = none ∨ isCodec = true) (h : ReturnsShape out back) :
    Returns (p.node isCodec required refinement out) (q.node isCodec required refinement back) := by
  intro path value d hwf hok
  rcases node_eq_ok_iff.mp hok with ⟨habsent, hrequired, rfl⟩ | ⟨v, d, rfl, hne, hvisit, hpass, rfl⟩
  · refine ⟨hwf, fun v hv => ⟨v, hv, id⟩, d, ?_, .refl d⟩
    exact node_eq_ok_iff.mpr (.inl ⟨habsent, hrequired, rfl⟩)
  · obtain ⟨hd, hnull, w, hw, hlike⟩ := h path v d (hwf v rfl) hvisit
    refine ⟨wellFormedOption_some hd, fun u hu => ⟨d, rfl, by cases hu; exact hnull⟩, some w, ?_,
      .some hlike⟩
    refine node_eq_ok_iff.mpr (.inr ⟨d, w, rfl, hnull hne, hw, ?_, rfl⟩)
    intro x judge hx hjudge
    rcases hplain with rfl | rfl
    · cases hjudge
    · refine hpass x judge ?_ hjudge
      unfold programValue? at hx ⊢
      rw [hencode, hrun] at hx
      rw [hdecode]
      exact hx

/-! ## Containers -/

theorem returnsShape_of_same {visit : String → Json → Visit Json}
    (h : ∀ path v d, visit path v = .ok d → d = v) : ReturnsShape visit visit := by
  intro path v d hwf hok
  obtain rfl := h path v d hok
  exact ⟨hwf, id, d, hok, .refl d⟩

/-- Elements come back one by one, each at its own position. -/
theorem elements_return {out back : Visitor} (h : Returns out back) {path : String}
    {xs ys : List Json} {start : Nat} (hwf : ∀ x ∈ xs, x.WellFormed)
    (hys : List.Forall₂ (fun x y => Visit.present out (Visit.elementPath path x.2) x.1 = .ok y)
      (xs.zipIdx start) ys) :
    (∀ y ∈ ys, y.WellFormed) ∧ ∃ zs, List.Forall₂ Alike zs xs ∧
      List.Forall₂ (fun y z => Visit.present back (Visit.elementPath path y.2) y.1 = .ok z)
        (ys.zipIdx start) zs := by
  induction xs generalizing ys start with
  | nil => cases hys; exact ⟨by simp, [], .nil, .nil⟩
  | cons x xs ih =>
      rw [List.zipIdx_cons] at hys
      cases hys with
      | cons hx hrest =>
          rw [List.forall_mem_cons] at hwf
          obtain ⟨hy, _, z, hz, hlike⟩ := h.present _ _ _ hwf.1 hx
          obtain ⟨hrest, zs, hlikes, hzs⟩ := ih hwf.2 hrest
          refine ⟨List.forall_mem_cons.mpr ⟨hy, hrest⟩, z :: zs, .cons hlike hlikes, ?_⟩
          rw [List.zipIdx_cons]
          exact .cons hz hzs

theorem array_returns {out back : Visitor} (h : Returns out back) :
    ReturnsShape (array out) (array back) := by
  intro path v d hwf hok
  obtain ⟨xs, ys, rfl, rfl, hys⟩ := array_eq_ok_iff.mp hok
  obtain ⟨hwfys, zs, hlike, hzs⟩ := elements_return h (fun x hx => hwf.element hx) hys
  refine ⟨Json.wellFormed_arr_iff.mpr hwfys, by simp, .arr zs, ?_, ?_⟩
  · exact array_eq_ok_iff.mpr ⟨ys, zs, rfl, rfl, hzs⟩
  · exact Json.alike_arr_iff.mpr ⟨xs, rfl, hlike⟩

/-- Members of a map come back one by one, under their names. -/
theorem members_return {out back : Visitor} (h : Returns out back) {path : String}
    {ms ns : Entries Json} (hwf : ∀ m ∈ ms, m.2.WellFormed)
    (hns : List.Forall₂ (MappedField out path) ms ns) :
    (∀ n ∈ ns, n.2.WellFormed) ∧ Entries.keys ns = Entries.keys ms ∧
      ∃ os, List.Forall₂ Json.AlikeMember os ms ∧ List.Forall₂ (MappedField back path) ns os := by
  induction hns with
  | nil => exact ⟨by simp, rfl, [], .nil, .nil⟩
  | @cons m n ms ns hmn _ ih =>
      rw [List.forall_mem_cons] at hwf
      obtain ⟨hname, hvisit⟩ := hmn
      obtain ⟨hn, _, o, ho, hlike⟩ := h.present _ _ _ hwf.1 hvisit
      obtain ⟨hns, hkeys, os, hlikes, hos⟩ := ih hwf.2
      refine ⟨List.forall_mem_cons.mpr ⟨hn, hns⟩, ?_, (n.1, o) :: os, ?_, ?_⟩
      · rw [Entries.keys_cons, Entries.keys_cons, hkeys, hname]
      · exact .cons ⟨hname, hlike⟩ hlikes
      · exact .cons ⟨rfl, hname ▸ ho⟩ hos

theorem map_returns {out back : Visitor} (h : Returns out back) :
    ReturnsShape (map out) (map back) := by
  intro path v d hwf hok
  obtain ⟨ms, ns, rfl, rfl, hns⟩ := map_eq_ok_iff.mp hok
  obtain ⟨hwfns, hkeys, os, hlike, hos⟩ := members_return h (fun m hm => hwf.member hm) hns
  refine ⟨Json.wellFormed_obj_iff.mpr ⟨?_, hwfns⟩, by simp, .obj os, ?_, ?_⟩
  · rw [Entries.Distinct, hkeys]
    exact hwf.distinct
  · exact map_eq_ok_iff.mpr ⟨ns, os, rfl, rfl, hos⟩
  · exact Json.alike_obj_iff.mpr ⟨ms, rfl, ms, hlike, .refl ms⟩

/-- An accepted object is well-formed if its declared members are. -/
theorem ObjectResult.wellFormed {properties : List (String × Visitor)} {ms out : Entries Json}
    (h : ObjectResult path properties ms out) (hwf : Json.WellFormed (.obj ms))
    (hdeclared : ∀ key visit, Entries.get? properties key = some visit →
      WellFormedOption (Entries.get? out key)) : Json.WellFormed (.obj out) := by
  refine Json.wellFormed_obj_iff.mpr ⟨h.distinct, fun n hn => ?_⟩
  have hget := h.distinct.get?_of_mem hn
  cases hkey : Entries.get? properties n.1 with
  | none => exact hwf.get? ((h.others n.1 hkey).symm.trans hget)
  | some visit => exact hdeclared n.1 visit hkey n.2 hget

/-- Members that were carried through are admitted again by the same names. -/
theorem ObjectResult.admitted {properties properties' : List (String × Visitor)}
    {ms out : Entries Json} (h : ObjectResult path properties ms out)
    (hconfig : p.config = q.config)
    (hkeys : ∀ key, Entries.has properties' key = Entries.has properties key)
    (hadmitted : p.Admitted properties ms) : q.Admitted properties' out := by
  intro hstrict n hn
  rw [← hconfig] at hstrict
  rw [hkeys]
  by_contra hunknown
  -- an unknown member of the output stood in the input, and was not admitted there
  have hnone : Entries.get? properties n.1 = none := by simpa [Entries.has] using hunknown
  have hget := (h.others n.1 hnone).symm.trans (h.distinct.get?_of_mem hn)
  exact hunknown (hadmitted hstrict _ (Entries.mem_of_get? hget))

/-- What an object makes of its members it makes back: declared ones by their properties, the others
are carried through both ways. -/
theorem object_returns {properties : Entries Schema} {out back : Schema → Visitor}
    (hconfig : p.config = q.config) (hdistinct : Entries.Distinct properties)
    (h : ∀ property ∈ properties, Returns (out property.2) (back property.2)) :
    ReturnsShape (p.object (Entries.mapValues out properties))
      (q.object (Entries.mapValues back properties)) := by
  have hkeys : ∀ {f : Schema → Visitor} {key}, Entries.get? (Entries.mapValues f properties) key =
      (Entries.get? properties key).map f := Entries.get?_mapValues _ _ _
  intro path v d hwf hok
  obtain ⟨ms, ns, rfl, rfl, hadmitted, hns⟩ :=
    object_result (hdistinct.mapValues _) hok fun ms hms => (hms ▸ hwf).distinct
  -- what is known of a declared property, by name
  have hdeclared : ∀ key s, Entries.get? properties key = some s →
      WellFormedOption (Entries.get? ns key) ∧ ∃ w,
        back s (Visit.childPath path key) (Entries.get? ns key) = .ok w ∧
          AlikeOption w (Entries.get? ms key) := by
    intro key s hs
    have hvisit := hns.declared key (out s) (by rw [hkeys, hs]; rfl)
    obtain ⟨hwfn, _, hback⟩ :=
      h _ (Entries.mem_of_get? hs) _ _ _ (fun v hv => hwf.get? hv) hvisit
    exact ⟨hwfn, hback⟩
  have hwfns : Json.WellFormed (.obj ns) := by
    refine hns.wellFormed hwf fun key visit hvisit => ?_
    rw [hkeys] at hvisit
    obtain ⟨s, hs, _⟩ := Option.map_eq_some_iff.mp hvisit
    exact (hdeclared key s hs).1
  have haccepts : ∃ w, q.object (Entries.mapValues back properties) path (.obj ns) = .ok w := by
    apply object_accepts
    · intro visit hvisit
      obtain ⟨⟨key, s⟩, hmem, rfl⟩ := List.mem_map.mp hvisit
      obtain ⟨_, w, hw, _⟩ := hdeclared key s (hdistinct.get?_of_mem hmem)
      exact ⟨w, hw⟩
    · refine hns.admitted hconfig (fun key => ?_) hadmitted
      rw [Entries.has, Entries.has, hkeys, hkeys, Option.isSome_map, Option.isSome_map]
  obtain ⟨w, hw⟩ := haccepts
  obtain ⟨_, os, hobj, rfl, _, hos⟩ := object_result (hdistinct.mapValues _) hw
    fun ns' hns' => (hns' ▸ hwfns).distinct
  cases hobj
  refine ⟨hwfns, by simp, .obj os, hw, ?_⟩
  -- both ways put declared members first, so the two ends can only be compared by name
  refine Json.alike_obj_of_get? hos.distinct hwf.distinct fun key => ?_
  cases hs : Entries.get? properties key with
  | none =>
      rw [hos.others key (by rw [hkeys, hs]; rfl), hns.others key (by rw [hkeys, hs]; rfl)]
      exact AlikeOption.refl _
  | some s =>
      obtain ⟨_, w, hw', hlike⟩ := hdeclared key s hs
      rw [hos.declared key (back s) (by rw [hkeys, hs]; rfl)] at hw'
      cases hw'
      exact hlike

/-! ## Unions -/

/-- The tag of an accepted object is still there. -/
theorem tag_kept {option : Schema} {key : String} (htag : (option.tag? key).isSome)
    (hoption : Schema.WellFormedNode option) {ms : Entries Json} {output : Json}
    (hms : Entries.Distinct ms)
    (hok : Visit.present (p.visitor option) path (.obj ms) = .ok output) :
    ∃ ns, output = .obj ns ∧ Entries.get? ns key = Entries.get? ms key := by
  obtain ⟨literal, hliteral⟩ := Option.isSome_iff_exists.mp htag
  obtain ⟨properties, s, hkind, hget, hs⟩ := Schema.tag?_eq_some_iff.mp hliteral
  rw [visitor_eq, hkind, present_node_eq_ok_iff (by simp)] at hok
  have hobject : p.object (p.propertyVisitors properties) path (.obj ms) = .ok output := hok.1
  rw [propertyVisitors_eq_map] at hobject
  obtain ⟨_, ns, heq, rfl, _, hns⟩ := object_result
    ((hoption.distinct properties hkind).mapValues _) hobject
    fun ms' hms' => by cases hms'; exact hms
  cases heq
  have hvisit := hns.declared key (p.visitor s) (by rw [Entries.get?_mapValues, hget]; rfl)
  exact ⟨ns, rfl, (enum_accepts hs hvisit).1⟩

/-- A union that goes by its tag takes the same option back. -/
theorem oneOf_returns {options : List Schema} {key : String}
    (hkey : discriminator? options = some key)
    (hoptions : ∀ option ∈ options, Schema.WellFormedNode option)
    (h : ∀ option ∈ options, Returns (p.visitor option) (q.visitor option)) :
    ReturnsShape (oneOf options (p.visitors options)) (oneOf options (q.visitors options)) := by
  rw [oneOf_eq, oneOf_eq, hkey]
  intro path v d hwf hok
  obtain ⟨ms, tag, option, rfl, hget, hfind, hvisit⟩ := tagged_eq_ok_iff.mp hok
  have hmem := List.mem_of_find?_eq_some hfind
  have htag := Schema.tag?_isSome_of_discriminator? hkey option hmem
  -- the tag is an enum member, which no codec touches, so it selects the same option again
  obtain ⟨ns, rfl, hkept⟩ := tag_kept htag (hoptions option hmem) hwf.distinct hvisit
  obtain ⟨hd, hne, w, hw, hlike⟩ := (h option hmem).present path _ _ hwf hvisit
  refine ⟨hd, hne, w, ?_, hlike⟩
  exact tagged_eq_ok_iff.mpr ⟨ns, tag, option, rfl, hkept.trans hget, hfind, hw⟩

end Pass

namespace Traversal

open Pass (Returns ReturnsShape)

variable {defs : Definitions} {config : ValidationConfig}

/-! ## Schemas without codecs, and codecs between such schemas -/

/-- Without codecs the direction of a check does not matter. -/
theorem check_eq_check (direction direction' : Direction) {s : Schema} (hs : CodecFree defs s) :
    check defs config direction s = check defs config direction' s := by
  have hrun : run defs config .decode s = check defs config direction s := run_eq_check direction hs
  rw [← hrun]
  exact run_eq_check direction' hs

/-- What a run that follows at most `n` references accepts, a check accepts as well. -/
theorem check_of_upTo {direction : Direction} {n : Nat} {s : Schema} (hs : CodecFree defs s)
    {path : String} {value out : Option Json}
    (hok : (runPass defs config direction).upTo defs n s path value = .ok out) :
    check defs config direction s path value = .ok out := by
  rw [← run_eq_check direction hs, run_eq_traverse, ← Pass.upTo_eq_traverse (by rw [hok]; simp), hok]

theorem codecFree_returns {n : Nat} {s : Schema} (hfree : CodecFree defs s)
    (hs : WellFormed defs s) (hblind : OrderBlind defs s) :
    Returns ((runPass defs config .decode).upTo defs n s) (run defs config .encode s) := by
  intro path value d hwf hok
  have hcheck := check_of_upTo hfree hok
  have hlike := check_keeps hs path value d hwf hcheck
  have hd := hlike.symm.wellFormed hwf
  rw [check_eq_check .decode .encode hfree] at hcheck
  obtain ⟨w, hw⟩ : ∃ w, check defs config .encode s path d = .ok w := by
    rw [← Outcome.verdict_eq_ok_iff, check_blind hs hblind path path d value hd hlike, hcheck]
    rfl
  refine ⟨hd, ?_, w, ?_, (check_keeps hs path d w hd hw).trans hlike⟩
  · rintro v rfl
    cases hlike with
    | @some o _ hlike =>
        refine ⟨o, rfl, ?_⟩
        rintro hne rfl
        exact hne (hlike.eq_of_scalar (by simp) (by simp))
  · rw [run_eq_check .encode hfree]
    exact hw

/-- **A faithful codec between schemas without codecs.** On the way back the decoded value is checked
as it was verified on the way out, and the encoded value is verified because it is like the one that
was accepted. -/
theorem transform_returns (hverify : config.verifyOutput = true) {p q : Pass}
    (hp : p.mode = .run fun side => Visit.present (check defs config .decode side))
    (hq : q.mode = .run fun side => Visit.present (check defs config .encode side))
    (hconfig : p.config = config)
    {e c : Schema} {dec enc : Conversion} (he : CodecFree defs e) (hc : CodecFree defs c)
    (hwfe : WellFormed defs e) (hwfc : WellFormed defs c) (hblind : OrderBlind defs e)
    (hfaithful : Faithful dec enc) (hdec : ∀ v o, v.WellFormed → dec v = .ok o → o.WellFormed)
    {outE outC : Visitor}
    (hout : ∀ path value o, outE path value = .ok o → check defs config .decode e path value = .ok o) :
    ReturnsShape (p.transform c outE outC dec)
      (q.transform e (run defs config .encode c) (run defs config .encode e) enc) := by
  intro path v d hwf hok
  -- `a` is what the wire side makes of `v`, and `o` what the verification makes of `d`
  obtain ⟨a, ha, hconv, hverified⟩ := (Pass.transform_run_eq_ok_iff hp).mp hok
  obtain ⟨o, ho⟩ := hverified (hconfig ▸ hverify)
  have hcheck : Visit.present (check defs config .encode e) path v = .ok a := by
    rw [check_eq_check .encode .decode he]
    exact Visit.present_eq_ok_iff.mpr <| (Visit.present_eq_ok_iff.mp ha).imp fun _ h =>
      ⟨hout _ _ _ h.1, h.2⟩
  have hav := (check_keeps hwfe).present path v a hwf hcheck
  have hwfa := hav.symm.wellFormed hwf
  have hwfd := hdec a d hwfa hconv
  have hod := (check_keeps hwfc).present path d o hwfd ho
  obtain ⟨hne, henc⟩ := hfaithful a d hwfa hconv
  obtain ⟨w, hw, hwa⟩ := henc o hod
  refine ⟨hwfd, fun _ => hne, w, ?_, hwa.trans hav⟩
  -- on the way back `o` is what is encoded, and `w` is verified because it is like `v`
  refine (Pass.transform_run_eq_ok_iff hq).mpr ⟨o, ?_, hw, fun _ => ?_⟩
  · rw [run_eq_check .decode hc]
    exact ho
  · rw [← Outcome.verdict_eq_ok_iff, (check_blind hwfe hblind).present path path w v
      (hwa.symm.wellFormed hwfa) (hwa.trans hav), hcheck]
    rfl

/-! ## The round trip -/

/-- What the visitors of the definitions bring back, the visitors of every schema do. -/
theorem returns_upTo_of_follow (hverify : config.verifyOutput = true) {n : Nat}
    (hf : ∀ target, WellFormed defs (defs.resolve target) → Invertible defs (defs.resolve target) →
      ReturnsShape ((runPass defs config .decode).followAt defs n target)
        (Visit.present (run defs config .encode (defs.resolve target))))
    (s : Schema) (hs : WellFormed defs s) (hi : Invertible defs s) :
    Returns ((runPass defs config .decode).upTo defs n s) (run defs config .encode s) := by
  let out := (runPass defs config .decode).withFollow ((runPass defs config .decode).followAt defs n)
  let back := (runPass defs config .encode).followed defs
  have hout : (runPass defs config .decode).upTo defs n = out.visitor := Pass.upTo_eq _ _ n
  have hback : run defs config .encode = back.visitor := funext (run_eq defs config .encode)
  -- with a codec below, the only refinement there can be is the one of the codec itself
  have hnode : ∀ {t : Schema}, WellFormed defs t → Invertible defs t →
      (¬ CodecFree defs t → ReturnsShape (out.shape t.kind) (back.shape t.kind)) →
      Returns (out.visitor t) (back.visitor t) := by
    intro t hs hi hshape
    by_cases hfree : CodecFree defs t
    · rw [← hout, ← hback]
      exact codecFree_returns hfree hs hi.blind
    · rw [Pass.visitor_eq, Pass.visitor_eq]
      refine (hshape hfree).node rfl rfl rfl ?_
      by_cases hnone : t.refinement = none
      · exact .inl hnone
      · exact .inr ((hi.nodes.self.refinement hnone).resolve_right hfree)
  rw [hout, hback]
  induction s with
  | number | string | boolean =>
      refine hnode hs hi fun _ => Pass.returnsShape_of_same fun path v d hok => ?_
      exact (Visit.expect_eq_ok_iff.mp hok).2
  | any =>
      refine hnode hs hi fun _ => Pass.returnsShape_of_same fun path v d hok => ?_
      cases hok
      rfl
  | enum options =>
      refine hnode hs hi fun _ => Pass.returnsShape_of_same fun path v d hok => ?_
      exact (Pass.enum_eq_ok_iff.mp hok).2
  | lazy name target =>
      exact hnode hs hi fun _ => hf target (hs.part .target) (hi.part .target)
  | oneOf options r g d ih =>
      refine hnode hs hi fun hfree => ?_
      obtain ⟨key, hkey⟩ :=
        Option.isSome_iff_exists.mp (hi.nodes.self.discriminated options rfl hfree)
      exact Pass.oneOf_returns hkey (fun option hmem => (hs.part (.option hmem)).self)
        fun option hmem => ih option hmem (hs.part (.option hmem)) (hi.part (.option hmem))
  | array items r g d ih =>
      exact hnode hs hi fun _ => Pass.array_returns (ih (hs.part .items) (hi.part .items))
  | object properties r g d ih =>
      refine hnode hs hi fun _ => ?_
      show ReturnsShape (out.object (out.propertyVisitors properties))
        (back.object (back.propertyVisitors properties))
      rw [Pass.propertyVisitors_eq_map, Pass.propertyVisitors_eq_map]
      refine Pass.object_returns rfl (hs.self.distinct properties rfl) fun property hmem => ?_
      exact ih property hmem (hs.part (.property hmem)) (hi.part (.property hmem))
  | map values r g d ih =>
      exact hnode hs hi fun _ => Pass.map_returns (ih (hs.part .values) (hi.part .values))
  | transform e c dec enc r g d ihe ihc =>
      refine hnode hs hi fun _ => ?_
      obtain ⟨he, hc⟩ := hi.nodes.self.plain_sides e c dec enc rfl
      show ReturnsShape (out.transform c (out.visitor e) (out.visitor c) dec)
        (back.transform e (back.visitor c) (back.visitor e) enc)
      rw [← hout, ← hback]
      exact transform_returns hverify rfl rfl rfl he hc (hs.part .encoded) (hs.part .decoded)
        (hi.part .encoded).blind (hi.nodes.self.faithful e c dec enc rfl)
        (hs.self.conversion .decode dec rfl) fun path value o => check_of_upTo he
  | custom name parent dec =>
      exact absurd rfl (hi.nodes.self.not_custom name parent dec)

/-- What a decoding run makes of a value, however many references it may follow, an encoding run
brings back. -/
theorem returns_upTo (hverify : config.verifyOutput = true) (n : Nat) (s : Schema)
    (hs : WellFormed defs s) (hi : Invertible defs s) :
    Returns ((runPass defs config .decode).upTo defs n s) (run defs config .encode s) := by
  induction n generalizing s with
  | zero =>
      refine returns_upTo_of_follow hverify (fun target _ _ path v d _ hok => ?_) s hs hi
      cases hok
  | succ n ih =>
      refine returns_upTo_of_follow hverify (fun target hs hi => ?_) s hs hi
      exact (ih _ hs hi).present

end Traversal

namespace Validator

/-- **Encoding brings back what was decoded.** Take a validator that decodes and verifies the output
of codecs, for a well-formed schema that can be inverted. Whatever it makes of a value, absent or
not, the validator of the other direction accepts, with the value itself as output, up to the order
of members. -/
theorem encode_decode (validator : Validator) (hdirection : validator.direction = .decode)
    (hverify : validator.config.verifyOutput = true)
    (hwf : WellFormed validator.definitions validator.schema)
    (hinvertible : Invertible validator.definitions validator.schema) {value d : Option Json}
    (hvalue : WellFormedOption value) (hok : validator.validateOptional value = .ok d) :
    ∃ w, { validator with direction := .encode }.validateOptional d = .ok w ∧
      AlikeOption w value := by
  rw [validateOptional_eq_ok_iff, hdirection] at hok
  obtain ⟨_, _, w, hw, hlike⟩ :=
    Traversal.returns_upTo hverify _ validator.schema hwf hinvertible "" value d hvalue hok
  exact ⟨w, validateOptional_eq_ok_iff.mpr hw, hlike⟩

end Validator

/-! ## A recursive schema with a cast -/

/-- **The boolean cast is faithful**: it writes the words that it reads. -/
theorem faithful_castBoolean : Faithful (Cast.onString Cast.readBoolean) Cast.writeBoolean := by
  intro w d _ hdecode
  obtain ⟨b, rfl, rfl⟩ := Cast.readBoolean_eq_ok hdecode
  refine ⟨by simp, fun d' hlike => ?_⟩
  rw [hlike.symm.eq_of_scalar (by simp) (by simp)]
  exact ⟨_, rfl, .refl _⟩

theorem codecFree_scalar {s : Schema} (hs : s = .string ∨ s = .boolean) :
    CodecFree switches s := by
  refine Schema.Throughout.of_closed (S := fun s => s = .string ∨ s = .boolean) ?_ ?_ hs
  · rintro s t (rfl | rfl) h <;> cases h
  · rintro s (rfl | rfl) <;> rfl

theorem invertible_switch : Invertible switches switch := by
  refine ⟨inSwitch.imp fun s hs => ?_, inSwitch.imp fun s hs judge hjudge => ?_⟩
  · constructor
    · rintro name parent dec hkind
      rcases hs with rfl | rfl | rfl | rfl | rfl <;> cases hkind
    · rintro e c dec enc hkind
      rcases hs with rfl | rfl | rfl | rfl | rfl <;> cases hkind
      exact ⟨codecFree_scalar (.inl rfl), codecFree_scalar (.inr rfl)⟩
    · rintro e c dec enc hkind
      rcases hs with rfl | rfl | rfl | rfl | rfl <;> cases hkind
      exact faithful_castBoolean
    · rintro options hkind
      rcases hs with rfl | rfl | rfl | rfl | rfl <;> cases hkind
    · rcases hs with rfl | rfl | rfl | rfl | rfl <;> exact fun h => absurd rfl h
  · rcases hs with rfl | rfl | rfl | rfl | rfl <;> cases hjudge

/-- Two switches, one behind the other. -/
theorem encode_decode_switches :
    let wire := Json.obj [("next", .obj [("on", .str "false")]), ("on", .str "true")]
    let decoded := Json.obj [("on", .bool true), ("next", .obj [("on", .bool false)])]
    let decoder : Validator := { schema := switch, definitions := switches }
    decoder.validateOptional (some wire) = .ok (some decoded) ∧
      ∃ w, { decoder with direction := .encode }.validateOptional (some decoded) = .ok w ∧
        AlikeOption w (some wire) := by
  intro wire decoded decoder
  have hwire : WellFormedOption (some wire) := by
    rintro _ ⟨⟩
    simp [wire, Entries.Distinct, Entries.keys, Json.WellFormed, Json.WellFormedMembers]
  have hok : decoder.validateOptional (some wire) = .ok (some decoded) := rfl
  exact ⟨hok, Validator.encode_decode decoder rfl rfl wellFormed_switch invertible_switch hwire hok⟩

end RouteContract
