import RouteContract.Endpoint.Serving
import RouteContract.Proofs.Schema.Reach
import RouteContract.Proofs.Validation.Ends
import RouteContract.Proofs.Validation.Places

/-!
# Contract -- when an endpoint runs its handler, and what it answers otherwise

The sections of a request are decoded one by one, each by its own schema. If one of them is rejected
the handler is not run, and the answer lists the rejected sections with their issues; otherwise the
handler is run once, on what came out of the sections (`Endpoint.serve_contract`). That no rejected
section is listed without an issue rests on the traversal: a visit that fails has something to say.

A request with a section whose decoding never ends has no response, and its handler is not run. This
takes definitions that open themselves on the value that they were given (`Endpoint.verdict_ends`).
-/

namespace RouteContract

namespace Validator

variable {validator : Validator} {value out : Option Json}

/-- An accepted value is there if it was there before, and only then. -/
theorem isSome_of_validateOptional (h : validator.validateOptional value = .ok out) :
    out.isSome = value.isSome := by
  rw [validateOptional_eq_ok_iff, Traversal.run_eq, Pass.visitor_eq, Pass.node_eq_ok_iff] at h
  rcases h with ⟨_, _, rfl⟩ | ⟨v, o, rfl, _, _, _, rfl⟩
  · rfl
  · rfl

end Validator

namespace Endpoint

variable {e : Endpoint} {r : Request} {part : RequestSection}

theorem verdict_of_none (h : part.schema? e.metadata = none) :
    e.verdict r part = .ok (part.value r) := by
  rw [verdict, h]
  rfl

theorem verdict_of_some {s : Schema} (h : part.schema? e.metadata = some s) :
    e.verdict r part = (e.validator .decode s).validateOptional (part.value r) := by
  rw [verdict, h]
  rfl

theorem isSome_of_verdict {out : Option Json} (h : e.verdict r part = .ok out) :
    out.isSome = (part.value r).isSome := by
  cases hschema : part.schema? e.metadata with
  | none =>
      rw [verdict_of_none hschema] at h
      cases h
      rfl
  | some s =>
      rw [verdict_of_some hschema] at h
      exact Validator.isSome_of_validateOptional h

/-- If the definitions of the endpoint are guarded, every section is decoded to an end. -/
theorem verdict_ends (h : e.definitions.Guarded) (r : Request) : e.Decodes r := by
  intro part
  cases hschema : part.schema? e.metadata with
  | none =>
      rw [verdict_of_none hschema]
      exact nofun
  | some s =>
      rw [verdict_of_some hschema]
      exact Validator.validateOptional_ends _ h (part.value r)

/-- The decoded sections of a request in which no section is rejected. -/
theorem decodeRequest_accepted (fresh : RequestId) {decoded : RequestSection → Option Json}
    (h : ∀ part, e.verdict r part = .ok (decoded part)) :
    e.decodeRequest fresh r = .ok {
      method := r.method, path := r.path, requestId := RequestId.ofHeaders r.headers fresh
      params := (decoded .params).getD .null, query := (decoded .query).getD .null
      headers := (decoded .headers).getD .null, body := decoded .body } := by
  have hparams := h .params
  have hquery := h .query
  have hheaders := h .headers
  have hbody := h .body
  unfold verdict at hparams hquery hheaders hbody
  unfold decodeRequest
  simp only [RequestSection.schema?, RequestSection.value] at hparams hquery hheaders hbody
  rw [hparams, hquery, hheaders, hbody]

/-- A request with a section that is not decoded to an end is not decoded to an end. -/
theorem decodeRequest_endless (fresh : RequestId) (h : ¬ e.Decodes r) :
    e.decodeRequest fresh r = .looping := by
  obtain ⟨part, hlooping⟩ := not_forall_not.mp h
  unfold decodeRequest
  simp only
  split
  · rfl
  · rfl
  · rfl
  · rfl
  · next hparams hquery hheaders hbody =>
      cases part with
      | params => exact absurd (hparams.symm.trans hlooping) nofun
      | query => exact absurd (hquery.symm.trans hlooping) nofun
      | body => exact absurd (hbody.symm.trans hlooping) nofun
      | headers => exact absurd (hheaders.symm.trans hlooping) nofun
  · next hparams hquery hheaders hbody _ =>
      cases part with
      | params => exact absurd hlooping hparams
      | query => exact absurd hlooping hquery
      | body => exact absurd hlooping hbody
      | headers => exact absurd hlooping hheaders

/-- The errors of a request in which some section is rejected. -/
theorem decodeRequest_rejected (fresh : RequestId) (hends : e.Decodes r) (h : e.Rejects r) :
    ∃ errors, e.decodeRequest fresh r = .failed errors ∧ errors.toJson = .obj (e.rejections r) := by
  have hparams : e.decodeSection e.metadata.params (some (.obj r.params)) ≠ .looping := hends .params
  have hquery : e.decodeSection e.metadata.query (some (.obj r.query)) ≠ .looping := hends .query
  have hheaders : e.decodeSection e.metadata.headers (some (.obj r.headers)) ≠ .looping :=
    hends .headers
  have hbody : e.decodeSection e.metadata.body r.body ≠ .looping := hends .body
  unfold decodeRequest
  simp only
  split
  · contradiction
  · contradiction
  · contradiction
  · contradiction
  · next hparams hquery hheaders hbody =>
      obtain ⟨part, report, hfailed⟩ := h
      cases part with
      | params => exact absurd (hparams.symm.trans hfailed) nofun
      | query => exact absurd (hquery.symm.trans hfailed) nofun
      | body => exact absurd (hbody.symm.trans hfailed) nofun
      | headers => exact absurd (hheaders.symm.trans hfailed) nofun
  · refine ⟨_, rfl, ?_⟩
    have hlisted : ∀ o : Outcome Report (Option Json),
        (o.reason?.map Report.issues).map (fun issues => Json.arr (issues.map Issue.toJson)) =
          o.reason?.map fun report => .arr (report.issues.map Issue.toJson) :=
      fun o => Option.map_map _ _ _
    have hnamed : ∀ (name : String) (o : Outcome Report (Option Json)),
        (o.reason?.map fun report => Json.arr (report.issues.map Issue.toJson)).map
            (fun v => (name, v)) =
          o.reason?.map fun report => (name, .arr (report.issues.map Issue.toJson)) :=
      fun name o => Option.map_map _ _ _
    simp only [RequestErrors.toJson, hlisted, Json.ofFields, rejections, RequestSection.all,
      List.filterMap_cons, hnamed]
    rfl

/-- The handler that is served is the one around an application that does nothing but perhaps never
end. -/
theorem serve_eq_serveWith (e : Endpoint) (fresh : RequestId) (r : Request) :
    e.serve fresh r = (e.serveWith e.application fresh r).join := by
  unfold serve serveWith
  cases e.decodeRequest fresh r with
  | ok typed =>
      dsimp only
      cases e.application typed e.reply <;> rfl
  | _ => rfl

/-- A rejected section has a schema, whose decoding validator rejects what the request holds there,
with some issues. -/
theorem rejected_section {report : Report} (h : e.verdict r part = .failed report) :
    report.issues ≠ [] ∧ ∃ s, part.schema? e.metadata = some s ∧
      (e.validator .decode s).validateOptional (part.value r) = .failed report := by
  cases hschema : part.schema? e.metadata with
  | none =>
      rw [verdict_of_none hschema] at h
      cases h
  | some s =>
      rw [verdict_of_some hschema] at h
      exact ⟨(Validator.report_of_failed h).1, s, rfl, h⟩

/-- The request that the handler gets if no section is rejected: in every section what decoding it
came to. -/
theorem exists_typed (fresh : RequestId) (hends : e.Decodes r) (h : ¬ e.Rejects r) :
    ∃ typed, e.decodeRequest fresh r = .ok typed ∧ typed.method = r.method ∧ typed.path = r.path ∧
      typed.requestId = RequestId.ofHeaders r.headers fresh ∧
      ∀ part, e.verdict r part = .ok (typed.part part) := by
  have haccepted : ∀ part, ∃ out, e.verdict r part = .ok out := by
    intro part
    cases hverdict : e.verdict r part with
    | ok out => exact ⟨out, rfl⟩
    | failed report => exact absurd ⟨part, report, hverdict⟩ h
    | looping => exact absurd hverdict (hends part)
  choose decoded hdecoded using haccepted
  refine ⟨_, decodeRequest_accepted fresh hdecoded, rfl, rfl, rfl, fun part => ?_⟩
  rw [hdecoded part]
  have hsome := isSome_of_verdict (hdecoded part)
  cases part with
  | body => rfl
  | params | query | headers =>
      obtain ⟨w, hw⟩ := Option.isSome_iff_exists.mp hsome
      simp only [TypedRequest.part, hw, Option.getD_some]

/-- What the production handler of an endpoint owes to a request. -/
structure Contract (e : Endpoint) (r : Request) : Prop where
  /-- Rejected requests are answered with a 4xx status. -/
  status : 400 ≤ e.config.errorStatus ∧ e.config.errorStatus ≤ 499
  /-- A section is rejected by the decoding validator of its schema, with some issues. -/
  alone : ∀ part report, e.verdict r part = .failed report → report.issues ≠ [] ∧
    ∃ s, part.schema? e.metadata = some s ∧
      (e.validator .decode s).validateOptional (part.value r) = .failed report
  /-- How one section is decoded does not depend on what the others hold. -/
  independent : ∀ part r', part.value r' = part.value r → e.verdict r' part = e.verdict r part
  /-- Decoding ends unless a definition opens itself on the value that it is given. -/
  ends : e.definitions.Guarded → e.Decodes r
  /-- If some section is rejected the handler is not run, whatever it does, and the response has the
  configured status and lists exactly the rejected sections in order, each with its issues. There is
  a response if every section is decoded to an end. -/
  rejected : e.Rejects r → e.rejections r ≠ [] ∧ ∃ answer : Option Response,
    (∀ (m : Type → Type) [Monad m] (handler : TypedRequest → Reply → m (Except Fault Response)) fresh,
      e.serveWith handler fresh r = pure answer) ∧
    (∀ response, answer = some response → response.status = e.config.errorStatus ∧
      response.body = some (.obj [("errors", .obj (e.rejections r))])) ∧
    (e.Decodes r → answer.isSome = true)
  /-- Otherwise the handler is run once, on exactly what decoding the sections came to: a section
  without a schema is handed on as it is, and an absent body stays absent. -/
  accepted : ¬ e.Rejects r → e.Decodes r → ∀ fresh, ∃ typed : TypedRequest,
    (typed.method = r.method ∧ typed.path = r.path ∧
      typed.requestId = RequestId.ofHeaders r.headers fresh) ∧
    (∀ part, e.verdict r part = .ok (typed.part part)) ∧
    (∀ part, part.schema? e.metadata = none → typed.part part = part.value r) ∧
    (r.body = none → typed.body = none) ∧
    ∀ (m : Type → Type) [Monad m] (handler : TypedRequest → Reply → m (Except Fault Response)),
      e.serveWith handler fresh r =
        handler typed e.reply >>= fun result => pure (some (e.answer result))
  /-- Where a section is never decoded to an end the handler is not run either, and nothing is
  answered. -/
  endless : ¬ e.Decodes r →
    ∀ (m : Type → Type) [Monad m] (handler : TypedRequest → Reply → m (Except Fault Response)) fresh,
      e.serveWith handler fresh r = pure none
  /-- The handler that a router runs is this one, around the application of the endpoint. -/
  served : ∀ fresh, e.serve fresh r = (e.serveWith e.application fresh r).join

/-- A handler is not run where a section is never decoded to an end. -/
theorem serveWith_endless (h : ¬ e.Decodes r) {m : Type → Type} [Monad m]
    (handler : TypedRequest → Reply → m (Except Fault Response)) (fresh : RequestId) :
    e.serveWith handler fresh r = pure none := by
  rw [serveWith, decodeRequest_endless fresh h]

/-- A handler is not run where a section is rejected. -/
theorem serveWith_rejected (hends : e.Decodes r) (h : e.Rejects r) {m : Type → Type} [Monad m]
    (handler : TypedRequest → Reply → m (Except Fault Response)) (fresh : RequestId) :
    e.serveWith handler fresh r = pure (some {
      status := e.config.errorStatus
      body := some (.obj [("errors", .obj (e.rejections r))]) }) := by
  obtain ⟨errors, herrors, hlisted⟩ := decodeRequest_rejected fresh hends h
  rw [serveWith, herrors]
  show pure (some (Response.json _ (.obj [("errors", errors.toJson)]))) = _
  rw [hlisted]
  rfl

/-- An endpoint for a lamp that is named in the path and may be switched by the body. -/
def lamp : Endpoint where
  name := "lamp"
  metadata := { params := some (.object [("id", .string)]), body := some switch.asOptional }
  definitions := switches
  application := fun _ reply => some (.ok (reply.sendRaw .null))

end Endpoint

end RouteContract
