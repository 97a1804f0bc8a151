import RouteContract.Proofs.Endpoint.Contract

/-!
# Sealed -- what a client can tell about an error

Outside development mode the answer to a server error is determined by its code, and the answer to a
client error shows all of it (`Fault.sanitized_eq_iff`). There are four ways for a server error to
leave an endpoint: the handler returns it, the response schema refuses a value, a value cannot be
written as JSON, or a section cannot be read as what the handler expects. All of them end in
`Fault.sanitize`, so two runs that differ only in what such an error says are answered alike
(`Endpoint.sealed_of_accepted`).
-/

namespace RouteContract

/-! ## Faults -/

namespace FaultCode

/-- The answer to a server error whose internals are kept inside. -/
def sealedResponse (code : FaultCode) : Response where
  status := code.status
  body := some (.obj [("error", .obj [("code", .str code.name),
    ("message", .str "An internal error occurred")])])

theorem isServerError_iff {code : FaultCode} : code.isServerError = true ↔ 500 ≤ code.status :=
  decide_eq_true_iff

theorem name_injective : Function.Injective name := by
  intro a b h
  revert h
  cases a <;> cases b <;> decide

end FaultCode

namespace Fault

variable {f f₁ f₂ : Fault}

/-- **A server error is answered by its code.** -/
theorem toResponse_sanitize_server (h : 500 ≤ f.code.status) :
    (f.sanitize false).toResponse = f.code.sealedResponse := by
  rw [sanitize, FaultCode.isServerError_iff.mpr h]
  rfl

/-- A client error is answered as it is. -/
theorem sanitize_client (h : f.code.status < 500) (developmentMode : Bool) :
    f.sanitize developmentMode = f :=
  f.sanitize_of_client developmentMode (decide_eq_false (Nat.not_le.mpr h))

/-- An error as stored: code, message and, if there are any, details. -/
theorem toJson_eq (f : Fault) :
    f.toJson = .obj ([("code", .str f.code.name), ("message", .str f.message)] ++
      f.details.toList.map fun details => ("details", details)) := by
  obtain ⟨code, message, details⟩ := f
  cases details <;> rfl

/-- A stored error shows all of the error. -/
theorem toJson_injective : Function.Injective toJson := by
  rintro ⟨code, message, details⟩ ⟨code', message', details'⟩ h
  rw [toJson_eq, toJson_eq] at h
  simp only [List.cons_append, List.nil_append, Json.obj.injEq, List.cons.injEq, Prod.mk.injEq,
    Json.str.injEq, true_and] at h
  obtain ⟨hcode, hmessage, hdetails⟩ := h
  have hlists : details.toList = details'.toList :=
    (List.map_inj_right fun _ _ heq => (Prod.mk.inj heq).2).mp hdetails
  have hoptions := congrArg List.head? hlists
  rw [Option.head?_toList, Option.head?_toList] at hoptions
  rw [FaultCode.name_injective hcode, hmessage, hoptions]

/-- So does the response that carries it. -/
theorem toResponse_injective : Function.Injective toResponse := by
  intro f₁ f₂ h
  have hbody : Json.obj [("error", f₁.toJson)] = Json.obj [("error", f₂.toJson)] :=
    Option.some.inj (congrArg Response.body h)
  rw [Json.obj.injEq, List.cons.injEq, Prod.mk.injEq] at hbody
  exact toJson_injective hbody.1.2

/-- **What a client can tell**: two errors are answered alike exactly if they are the same, or are
server errors of the same code. -/
theorem sanitized_eq_iff :
    (f₁.sanitize false).toResponse = (f₂.sanitize false).toResponse ↔
      f₁ = f₂ ∨ f₁.code = f₂.code ∧ 500 ≤ f₁.code.status := by
  constructor
  · intro h
    have hfault := toResponse_injective h
    have hcode : f₁.code = f₂.code := by
      rw [← f₁.sanitize_code false, hfault, f₂.sanitize_code]
    by_cases hserver : 500 ≤ f₁.code.status
    · exact .inr ⟨hcode, hserver⟩
    · rw [sanitize_client (Nat.not_le.mp hserver), sanitize_client (hcode ▸ Nat.not_le.mp hserver)]
        at hfault
      exact .inl hfault
  · rintro (rfl | ⟨hcode, hserver⟩)
    · rfl
    · rw [toResponse_sanitize_server hserver, toResponse_sanitize_server (hcode ▸ hserver), hcode]

end Fault

/-- A section that cannot be read is a server error. -/
theorem TypedRequest.code_of_readSection {α : Type} {read : Json → Except String α} {value : Json}
    {fault : Fault} (h : readSection read value = .error fault) : fault.code = .serializationError := by
  unfold readSection at h
  cases hread : read value with
  | ok a =>
      rw [hread] at h
      cases h
  | error reason =>
      rw [hread] at h
      cases h
      rfl

/-! ## Replies -/

namespace Reply

/-- The response schema rejects the value. -/
def Refuses (reply : Reply) (value : Json) : Prop :=
  ∃ validator report, reply.response = some validator ∧ validator.validate value = .failed report

variable {reply : Reply} {value : Json}

/-- **A refused value is answered by a server error**, whatever it is, whatever the schema has to say
about it, and whatever status was to be sent. -/
theorem sendTransformed_refused (hmode : reply.developmentMode = false) (h : reply.Refuses value)
    (status : Nat) : (reply.withStatus status).sendTransformed value =
      some FaultCode.responseValidationError.sealedResponse := by
  obtain ⟨validator, report, hresponse, hfailed⟩ := h
  unfold sendTransformed withStatus
  dsimp only
  rw [hresponse, hmode]
  dsimp only
  rw [hfailed]
  have hserver : 500 ≤ FaultCode.responseValidationError.status := by decide
  exact congrArg some (Fault.toResponse_sanitize_server (f := mismatch report) hserver)

/-- So is a value that cannot be written. -/
theorem sendTyped_error (hmode : reply.developmentMode = false) (reason : String) (status : Nat) :
    (reply.withStatus status).sendTyped (.error reason) =
      some FaultCode.serializationError.sealedResponse := by
  show some ((Fault.ofJsonError reason).sanitize reply.developmentMode).toResponse = _
  rw [hmode]
  have hserver : 500 ≤ FaultCode.serializationError.status := by decide
  exact congrArg some (Fault.toResponse_sanitize_server (f := Fault.ofJsonError reason) hserver)

end Reply

/-! ## Endpoints -/

namespace Endpoint

variable {e : Endpoint} {r : Request}

section Handlers

variable {m : Type → Type} [Monad m]

/-- A handler that does something and then returns an error that may depend on what came of it. -/
def failing {α : Type} (act : m α) (fault : α → Fault) : m (Except Fault Response) :=
  (fun a => .error (fault a)) <$> act

/-- A handler that fails is answered after everything it does. -/
theorem serveWith_failing [LawfulMonad m] {handler : TypedRequest → Reply → m (Except Fault Response)}
    {fresh : RequestId} {typed : TypedRequest} (htyped : e.decodeRequest fresh r = .ok typed) {α : Type}
    {act : m α} {fault : α → Fault} (h : handler typed e.reply = failing act fault) :
    e.serveWith handler fresh r =
      (fun a => some ((fault a).sanitize e.config.developmentMode).toResponse) <$> act := by
  unfold serveWith
  rw [htyped]
  dsimp only
  rw [h, failing, bind_map_left, map_eq_pure_bind]
  rfl

end Handlers

/-- What an endpoint owes to its operator: outside development mode, server errors say nothing but
their code. -/
structure Sealed (e : Endpoint) (r : Request) : Prop where
  /-- The request reaches the handler. -/
  reached : ∀ fresh, ∃ typed, e.decodeRequest fresh r = .ok typed
  /-- There is one response to all handlers that return a server error of a code, whatever else they
  do, and whatever the messages and details of the errors. -/
  faults : ∀ code : FaultCode, 500 ≤ code.status → ∃ response : Response,
    ∀ (m : Type → Type) [Monad m] [LawfulMonad m]
      (handler : TypedRequest → Reply → m (Except Fault Response)) (α : Type) (act : m α)
      (fault : α → Fault) fresh typed, e.decodeRequest fresh r = .ok typed →
      handler typed e.reply = failing act fault → (∀ a, (fault a).code = code) →
      e.serveWith handler fresh r = (fun _ => some response) <$> act
  /-- Values that the response schema refuses are answered alike, through either way of sending,
  whatever the values, the issues and the status that was set. -/
  refused : ∀ value₁ value₂ status₁ status₂, e.reply.Refuses value₁ → e.reply.Refuses value₂ →
    (e.reply.withStatus status₁).sendTransformed value₁ =
      (e.reply.withStatus status₂).sendTransformed value₂ ∧
    (e.reply.withStatus status₁).sendTyped (.ok value₁) =
      (e.reply.withStatus status₂).sendTyped (.ok value₂) ∧
    (e.reply.withStatus status₁).sendTransformed value₁ =
      (e.reply.withStatus status₂).sendTyped (.ok value₂)
  /-- Values that cannot be written are answered alike, whatever the reasons and the status. -/
  unwritten : ∀ reason₁ reason₂ status₁ status₂,
    (e.reply.withStatus status₁).sendTyped (.error reason₁) =
      (e.reply.withStatus status₂).sendTyped (.error reason₂)
  /-- Sections that cannot be read are answered alike once the handler returns the error, whatever
  they hold and whatever was expected. -/
  unread : ∀ (α β : Type) (read₁ : Json → Except String α) (read₂ : Json → Except String β) value₁
    value₂ fault₁ fault₂, TypedRequest.readSection read₁ value₁ = .error fault₁ →
    TypedRequest.readSection read₂ value₂ = .error fault₂ →
    e.answer (.error fault₁) = e.answer (.error fault₂)
  /-- A client error that a handler returns reaches the client as it is, under the status of its
  code and with its message and details. -/
  client : ∀ (m : Type → Type) [Monad m] [LawfulMonad m]
    (handler : TypedRequest → Reply → m (Except Fault Response)) (α : Type) (act : m α)
    (fault : α → Fault) fresh typed, e.decodeRequest fresh r = .ok typed →
    handler typed e.reply = failing act fault → (∀ a, (fault a).code.status < 500) →
    e.serveWith handler fresh r = (fun a => some {
      status := (fault a).code.status
      body := some (.obj [("error", .obj (
        [("code", .str (fault a).code.name), ("message", .str (fault a).message)] ++
          (fault a).details.toList.map fun details => ("details", details)))]) }) <$> act
  /-- The handler that a router runs is this one, around the application of the endpoint. -/
  served : ∀ fresh, e.serve fresh r = (e.serveWith e.application fresh r).join

/-- **Server errors leak nothing.** Outside development mode an endpoint is sealed for every request
that it lets through to its handler. -/
theorem sealed_of_accepted (e : Endpoint) (r : Request) (hmode : e.config.developmentMode = false)
    (haccepted : ∀ part, ∃ out, e.verdict r part = .ok out) : e.Sealed r where
  reached fresh := by
    choose decoded hdecoded using haccepted
    exact ⟨_, decodeRequest_accepted fresh hdecoded⟩
  faults code hserver := by
    refine ⟨code.sealedResponse, fun m _ _ handler α act fault fresh typed htyped h hcode => ?_⟩
    rw [serveWith_failing htyped h, hmode]
    congr 1
    funext a
    rw [Fault.toResponse_sanitize_server (hcode a ▸ hserver), hcode a]
  refused value₁ value₂ status₁ status₂ h₁ h₂ := by
    have hreply : e.reply.developmentMode = false := hmode
    have hsent₁ := Reply.sendTransformed_refused hreply h₁ status₁
    have hsent₂ := Reply.sendTransformed_refused hreply h₂ status₂
    exact ⟨hsent₁.trans hsent₂.symm, hsent₁.trans hsent₂.symm, hsent₁.trans hsent₂.symm⟩
  unwritten reason₁ reason₂ status₁ status₂ := by
    have hreply : e.reply.developmentMode = false := hmode
    rw [Reply.sendTyped_error hreply, Reply.sendTyped_error hreply]
  unread α β read₁ read₂ value₁ value₂ fault₁ fault₂ h₁ h₂ := by
    have hcode₁ := TypedRequest.code_of_readSection h₁
    have hcode₂ := TypedRequest.code_of_readSection h₂
    show (fault₁.sanitize e.config.developmentMode).toResponse =
      (fault₂.sanitize e.config.developmentMode).toResponse
    rw [hmode]
    exact Fault.sanitized_eq_iff.mpr (.inr ⟨hcode₁.trans hcode₂.symm, by rw [hcode₁]; decide⟩)
  client m _ _ handler α act fault fresh typed htyped h hclient := by
    rw [serveWith_failing htyped h]
    congr 1
    funext a
    rw [Fault.sanitize_client (hclient a), Fault.toResponse, Fault.toJson_eq]
    rfl
  served fresh := serve_eq_serveWith e fresh r

/-- An endpoint that should answer a number, and fails to. -/
def counter : Endpoint :=
  { lamp with
    name := "counter"
    metadata := { params := some (.object [("id", .string)]), response := some .number }
    application := fun _ _ => some (.error (.internal "no connection to 10.0.0.7")) }

/-- Two values that are no numbers, sent under two statuses; an error with an address in it, and one
that the client is to blame for. -/
theorem sealed_counter :
    let r : Request := { method := .get, path := "/counters", params := [("id", .str "a")] }
    let taken : Fault := { code := .conflict, message := "counted twice", details := some (.str "a") }
    counter.config.developmentMode = false ∧ (∀ part, ∃ out, counter.verdict r part = .ok out) ∧
      counter.Sealed r ∧
      (counter.reply.withStatus 200).sendTransformed (.str "secret") =
        (counter.reply.withStatus 202).sendTransformed (.bool true) ∧
      (∀ fresh, counter.serve fresh r = some {
        status := 500
        body := some (.obj [("error", .obj [("code", .str "INTERNAL_ERROR"),
          ("message", .str "An internal error occurred")])]) }) ∧
      ∀ fresh, counter.serveWith (fun _ _ => some (.error taken)) fresh r = some (some {
        status := 409
        body := some (.obj [("error", .obj [("code", .str "CONFLICT"),
          ("message", .str "counted twice"), ("details", .str "a")])]) }) := by
  intro r taken
  have haccepted : ∀ part, ∃ out, counter.verdict r part = .ok out := by
    intro part
    cases part <;> exact ⟨_, rfl⟩
  have hsealed : counter.Sealed r := sealed_of_accepted counter r rfl haccepted
  refine ⟨rfl, haccepted, hsealed, ?_, fun fresh => ?_, fun fresh => ?_⟩
  · exact (hsealed.refused _ _ 200 202 ⟨_, _, rfl, rfl⟩ ⟨_, _, rfl, rfl⟩).1
  · rw [hsealed.served]
    rfl
  · obtain ⟨typed, htyped⟩ := hsealed.reached fresh
    exact hsealed.client Option _ Unit (some ()) (fun _ => taken) fresh typed htyped rfl
      fun _ => by decide

end Endpoint

end RouteContract
