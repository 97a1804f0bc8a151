import RouteContract.Proofs.Validation.Check

/-!
# Refinement -- which value a refinement judges

A refinement added to a schema is one more judge at its root: everything else is decided first, a
null is not shown to it, and its refusal is the only issue of the report
(`Validator.validate_refined`). Which value it is shown depends on the node alone. A codec that
encodes shows the value it was given, so a program value; every other node shows what comes out
(`Validator.shown`), and when codecs below the node encode, that is the wire value.

`Validator.encode_refined` is the consequence for a value that was decoded under a refinement and is
encoded again. A codec, and a null, always pass the refinement a second time; any other node passes
it exactly if the refinement also accepts the wire value. Where nothing below the node converts, the
two values are the same up to the order of members, and the second verdict is the first
(`Validator.encode_refined_of_codecFree`).
-/

namespace RouteContract

open Schema (WellFormed CodecFree)
open Json (Alike)

/-! ## Refined nodes -/

namespace Schema

@[simp] theorem kind_refine (s : Schema) (judge : Refinement) : (s.refine judge).kind = s.kind := rfl

@[simp] theorem required_refine (s : Schema) (judge : Refinement) :
    (s.refine judge).required = s.required := rfl

end Schema

namespace Pass

variable {p : Pass}

/-- Where codecs run, a refinement has a value to judge: what a codec encodes, and else the output. -/
theorem judged_run {verify : Schema → String → Json → Visit Json} (hmode : p.mode = .run verify)
    {isCodec : Bool} {judge : Refinement} {path : String} {input output : Json} :
    p.judged isCodec (some judge) path input output =
      match judge (if p.direction = .encode ∧ isCodec = true then input else output) with
      | .ok () => .ok (some output)
      | .error message => Visit.fail path message := by
  unfold judged programValue?
  rw [hmode]
  cases p.direction <;> cases isCodec <;> rfl

/-- The earlier refinement judges first, and the new one only if that accepts. -/
theorem judged_refine {isCodec : Bool} (s : Schema) (judge : Refinement) {path : String}
    {input output : Json} :
    p.judged isCodec (s.refine judge).refinement path input output =
      (p.judged isCodec s.refinement path input output).bind fun _ =>
        p.judged isCodec (some judge) path input output := by
  unfold judged Schema.refine
  cases p.programValue? isCodec input output with
  | none => rfl
  | some v =>
      cases s.refinement with
      | none => rfl
      | some earlier =>
          dsimp only
          cases hearlier : earlier v with
          | ok u => rfl
          | error message => simp [Visit.fail, Outcome.bind, bind, Except.bind]

/-- A refined node visits a present value as before, and then shows it to the new judge. -/
theorem present_visitor_refine (s : Schema) (judge : Refinement) {path : String} {input : Json}
    (hne : input ≠ .null) :
    Visit.present (p.visitor (s.refine judge)) path input =
      (Visit.present (p.visitor s) path input).bind fun output =>
        (p.judged s.kind.isCodec (some judge) path input output).map fun o => o.getD .null := by
  unfold Visit.present
  rw [visitor_eq, visitor_eq, node_present hne, node_present hne, Schema.kind_refine]
  cases p.shape s.kind path input with
  | failed reason => rfl
  | looping => rfl
  | ok output =>
      rw [Outcome.bind_ok, Outcome.bind_ok, judged_refine]
      -- an earlier refinement that accepts hands out the value that the node made
      cases hearlier : p.judged s.kind.isCodec s.refinement path input output with
      | failed reason => rfl
      | looping => rfl
      | ok o =>
          obtain ⟨_, rfl⟩ := judged_eq_ok_iff.mp hearlier
          rfl

/-- A null is no matter for refinements. -/
theorem present_visitor_refine_null (s : Schema) (judge : Refinement) {path : String} :
    Visit.present (p.visitor (s.refine judge)) path .null =
      Visit.present (p.visitor s) path .null := by
  unfold Visit.present
  rw [visitor_eq, visitor_eq, node_absent (.inr rfl), node_absent (.inr rfl),
    Schema.required_refine]

end Pass

/-! ## Refined validators -/

namespace Validator

/-- The same validator with one more refinement at its root. -/
def refined (validator : Validator) (judge : Refinement) : Validator :=
  { validator with schema := validator.schema.refine judge }

/-- The value that a refinement at the root is shown: what a codec was given to encode, and
otherwise what has come out. -/
def shown (validator : Validator) (input output : Json) : Json :=
  if validator.direction = .encode ∧ validator.schema.kind.isCodec = true then input else output

/-- What becomes of an output when a refinement at the root is shown a value. -/
def judgedAs (judge : Refinement) (value output : Json) : Outcome Report Json :=
  match judge value with
  | .ok () => .ok output
  | .error message => .failed ⟨[⟨"", [message]⟩]⟩

variable {judge : Refinement}

theorem judgedAs_eq_ok_iff {value output out : Json} :
    judgedAs judge value output = .ok out ↔ judge value = .ok () ∧ out = output := by
  unfold judgedAs
  cases judge value <;> simp [eq_comm]

/-- **A refinement is a last judge at the root.** Everything else is decided without it, it is shown
one value, and a refusal is reported at the root and nowhere else. -/
theorem validate_refined (validator : Validator) (judge : Refinement) {v : Json} (hne : v ≠ .null) :
    (validator.refined judge).validate v =
      (validator.validate v).bind fun output => judgedAs judge (validator.shown v output) output := by
  rw [validate_eq_visitor, validate_eq_visitor, refined, Pass.present_visitor_refine _ _ hne]
  generalize Visit.present (Pass.visitor _ validator.schema) "" v = outcome
  cases outcome with
  | failed reason => rfl
  | looping => rfl
  | ok output =>
      rw [Outcome.bind_ok, Pass.judged_run rfl]
      show _ = judgedAs judge (validator.shown v output) output
      unfold judgedAs
      change (Outcome.map _ (match judge (validator.shown v output) with
        | .ok () => _
        | .error message => _)).mapReason _ = _
      cases judge (validator.shown v output) <;> rfl

/-- A null is accepted or refused whatever refinements there are. -/
theorem validate_refined_null (validator : Validator) (judge : Refinement) :
    (validator.refined judge).validate .null = validator.validate .null := by
  rw [validate_eq_visitor, validate_eq_visitor, refined, Pass.present_visitor_refine_null]

section Again

variable {s : Schema} {defs : Definitions} {config : ValidationConfig} {wire decoded encoded : Json}

/-- What was decoded under a refinement was decoded without it, and has passed it unless it is
null. -/
theorem decode_of_refined
    (h : (Validator.mk (s.refine judge) defs .decode config).validate wire = .ok decoded) :
    (Validator.mk s defs .decode config).validate wire = .ok decoded ∧
      (decoded ≠ .null → judge decoded = .ok ()) := by
  by_cases hwire : wire = .null
  · subst hwire
    have hplain := (validate_refined_null ⟨s, defs, .decode, config⟩ judge).symm.trans h
    exact ⟨hplain, fun hne => absurd (validate_null_eq_ok_iff.mp h).2 hne⟩
  · have hjudged := validate_refined ⟨s, defs, .decode, config⟩ judge hwire
    rw [refined, h] at hjudged
    obtain ⟨output, hplain, hjudge⟩ := Outcome.bind_eq_ok_iff.mp hjudged.symm
    obtain ⟨hpasses, rfl⟩ := judgedAs_eq_ok_iff.mp hjudge
    rw [shown, if_neg (by simp)] at hpasses
    exact ⟨hplain, fun _ => hpasses⟩

/-- **A refinement judges program values at codecs only.** A value that was decoded under a
refinement, and that can be encoded without it, is encoded under it as well when the refined node is
a codec, or when the value is null and not judged at all. Any other node shows the encoded value to
the refinement, whose verdict on that decides. -/
theorem encode_refined
    (hdecode : (Validator.mk (s.refine judge) defs .decode config).validate wire = .ok decoded)
    (hencode : (Validator.mk s defs .encode config).validate decoded = .ok encoded) :
    (s.kind.isCodec = true ∨ decoded = .null →
      (Validator.mk (s.refine judge) defs .encode config).validate decoded = .ok encoded) ∧
    (s.kind.isCodec = false → decoded ≠ .null →
      (Validator.mk (s.refine judge) defs .encode config).validate decoded =
        judgedAs judge encoded encoded) := by
  by_cases hnull : decoded = .null
  · subst hnull
    refine ⟨fun _ => ?_, fun _ hne => absurd rfl hne⟩
    exact (validate_refined_null ⟨s, defs, .encode, config⟩ judge).trans hencode
  · have hagain := validate_refined ⟨s, defs, .encode, config⟩ judge hnull
    rw [hencode, Outcome.bind_ok] at hagain
    constructor
    · rintro (hcodec | hdecoded)
      · rw [shown, if_pos ⟨rfl, hcodec⟩] at hagain
        exact hagain.trans (judgedAs_eq_ok_iff.mpr ⟨(decode_of_refined hdecode).2 hnull, rfl⟩)
      · exact absurd hdecoded hnull
    · intro hcodec _
      rw [shown, if_neg (by simp [hcodec])] at hagain
      exact hagain

/-- **Without codecs the two values are one.** Where no codec stands below the refined node, and the
refinement cannot tell the order of members, what was decoded under it is encoded under it. -/
theorem encode_refined_of_codecFree (hwf : WellFormed defs s) (hfree : CodecFree defs s)
    (hblind : judge.OrderBlind) (hwire : wire.WellFormed)
    (hdecode : (Validator.mk (s.refine judge) defs .decode config).validate wire = .ok decoded)
    (hencode : (Validator.mk s defs .encode config).validate decoded = .ok encoded) :
    (Validator.mk (s.refine judge) defs .encode config).validate decoded = .ok encoded := by
  obtain ⟨hplain, hpasses⟩ := decode_of_refined hdecode
  by_cases hnull : decoded = .null
  · exact (encode_refined hdecode hencode).1 (.inr hnull)
  · rw [(encode_refined hdecode hencode).2 hfree.self hnull]
    -- both passes are checks, which hand out what they were given
    have hkeeps : ∀ {direction v out}, v.WellFormed →
        (Validator.mk s defs direction config).validate v = .ok out → Alike out v := by
      intro direction v out hv hok
      rw [validate_eq_ok_iff, Traversal.run_eq_check direction hfree] at hok
      exact (Traversal.check_keeps hwf).present "" v out hv hok
    have hdecoded := (hkeeps hwire hplain).symm.wellFormed hwire
    have hlike := (hkeeps hdecoded hencode).symm
    exact judgedAs_eq_ok_iff.mpr ⟨(hblind decoded encoded hdecoded hlike).mp (hpasses hnull), rfl⟩

end Again

end Validator

/-! ## A refined amount -/

/-- Refuses everything but positive numbers. -/
def positive : Refinement
  | .num n => if n.isPositive then .ok () else .error "must be positive"
  | _ => .error "must be positive"

/-- **A union over a cast loses its amounts.** It decodes a positive amount under the refinement, and
cannot encode it: the refinement is shown the string that is to be sent. -/
theorem encode_refined_union :
    let amount := Schema.oneOf [.castNumber]
    (Validator.mk (amount.refine positive) {} .decode {}).validate (.str "7") = .ok (.num (.int 7)) ∧
      (Validator.mk amount {} .encode {}).validate (.num (.int 7)) = .ok (.str "7") ∧
      (Validator.mk (amount.refine positive) {} .encode {}).validate (.num (.int 7)) =
        .failed ⟨[⟨"", ["must be positive"]⟩]⟩ := by
  intro amount
  exact ⟨rfl, rfl, rfl⟩

/-- The cast itself keeps its amounts, as the refinement is shown the number. -/
theorem encode_refined_cast :
    (Validator.mk (Schema.castNumber.refine positive) {} .decode {}).validate (.str "7") =
        .ok (.num (.int 7)) ∧
      (Validator.mk Schema.castNumber {} .encode {}).validate (.num (.int 7)) = .ok (.str "7") ∧
      (Validator.mk (Schema.castNumber.refine positive) {} .encode {}).validate (.num (.int 7)) =
        .ok (.str "7") := by
  have hdecode : (Validator.mk (Schema.castNumber.refine positive) {} .decode {}).validate
      (.str "7") = .ok (.num (.int 7)) := rfl
  have hencode : (Validator.mk Schema.castNumber {} .encode {}).validate (.num (.int 7)) =
      .ok (.str "7") := rfl
  exact ⟨hdecode, hencode, (Validator.encode_refined hdecode hencode).1 (.inl rfl)⟩

end RouteContract
