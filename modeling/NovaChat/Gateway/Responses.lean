import NovaChat.Gateway
import NovaChat.Gateway.Conversations

/-!
# The response endpoints

Creating a turn and following it, asking for it, cancelling and deleting it.  Each handler
establishes the tenant, reads the id and the body, hands over to the service and renders what comes
back; only creating refuses while the node drains.
-/

namespace NovaChat

open Interact

namespace Gateway

/-- What the handlers of responses know besides: the configuration of the service, the addresses a
reference may name, and how a number is read as a float. -/
structure ResponsesState extends AppState where
  cfg : Config
  urlGuard : UrlGuard
  asF64 : Number → FloatValue

namespace ResponseRoutes

variable (app : ResponsesState)

/-- A malformed id reads as one that does not exist. -/
def parseId (raw : String) : Except HttpResponse ResponseId :=
  match ResponseId.parse app.parseStr raw with
  | .ok id => .ok id
  | .error _ => .error notFound

/-- Which context a turn inherits.  A body that names both was rejected before. -/
def contextAnchor (request : CreateResponseRequest) : Except HttpResponse ContextAnchor :=
  match request.conversation, request.previousResponseId with
  | some reference, _ =>
    match ConversationId.parse app.parseStr reference.named with
    | .error _ =>
      .error (badRequest "invalid_request" "conversation is not a valid conversation id")
    | .ok id => .ok (.conversation id)
  | none, none => .ok .root
  | none, some raw =>
    match ResponseId.parse app.parseStr raw with
    | .error _ =>
      .error (badRequest "chain_broken" "previous_response_id is not a valid response id")
    | .ok id => .ok (.previous id)

/-- The request a body carries with its items, or the answer that rejects it. -/
def readRequest (raw : Value) :
    Except HttpResponse (CreateResponseRequest × List ResponseItem) :=
  match CreateResponseRequest.preflightUnsupported raw with
  | some (field, hint) => .error (badRequest "unsupported_parameter" ("`" ++ field ++ "` " ++ hint))
  | none =>
    match CreateResponseRequest.ofValue app.asF64 raw with
    | none => .error (badRequest "invalid_request" (app.bodyError raw))
    | some request =>
      match request.validate app.urlGuard app.limits with
      | .error e => .error (badRequest "invalid_request" e.text)
      | .ok items => .ok (request, items)

/-- The key becomes part of a lookup, so that it is checked like an id. -/
def readIdempotencyKey (headers : Headers) : Except HttpResponse (Option IdempotencyKey) :=
  match headers.idempotencyKey with
  | none => .ok none
  | some value =>
    match value.map IdempotencyKey.parse with
    | some (.ok key) => .ok (some key)
    | _ => .error (badRequest "invalid_request"
        "idempotency-key header is empty, too long, or contains whitespace")

/-- How long a request is willing to look: the reads of a stream, the reads of a wait, and the
rounds of a replay. -/
structure Patience where
  reads : ℕ
  looks : ℕ
  rounds : ℕ

/-- What becomes of an accepted turn: it is streamed, acknowledged, or waited for. -/
def deliver (p : Patience) (request : CreateResponseRequest) (record : ResponseRecord) :
    Service HttpResponse :=
  if request.stream then
    (responseSource record.responseId).openSse responseBatch p.reads none
  else if request.background then return ⟨.accepted, .response (.withoutOutput record)⟩
  else do
    match ← ResponsesService.waitTerminal app.cfg p.looks p.rounds record with
    | .ok object => return ⟨.ok, .response object⟩
    | .error e => return mapServiceError e

/-- What a create comes to. -/
def settle (p : Patience) (request : CreateResponseRequest) :
    Except ServiceError CreateOutcome → Service HttpResponse
  | .error e => return mapServiceError e
  | .ok (.accepted record) => deliver app p request record
  | .ok (.duplicate existing) => return ⟨.ok, .response (.withoutOutput existing)⟩
  | .ok .readOnly => return apiError .serviceUnavailable "read_only" "service is read-only"
  | .ok .overloaded =>
    return apiError .tooManyRequests "overloaded" "too many in-flight responses; retry later"

/-- `POST /v1/responses` -/
def create (p : Patience) (uuid : Uuid) (accepting : Bool) (headers : Headers) (raw : Value) :
    Service HttpResponse :=
  ConversationRoutes.orReject do
    let tenant ← tenantOrReject app.keys headers
    if !accepting then .error draining
    else
      let (request, items) ← readRequest app raw
      let anchor ← contextAnchor app request
      let key ← readIdempotencyKey headers
      return do
        let outcome ← ResponsesService.create app.cfg p.rounds tenant
          (request.turnSpec items anchor) key uuid
        settle app p request outcome

/-- Ownership is verified through the ledger record, if there is one. -/
def streamImpl (reads : ℕ) (id : ResponseId) (startingAfter : Option ℕ) (headers : Headers)
    (tenant : TenantId) : Service HttpResponse := do
  let cursor := resolveCursor startingAfter headers.lastEventId
  match ← Ledger.get id with
  | .ok (some record) =>
    if record.tenantId ≠ tenant then return notFound
    else (responseSource id).openSse responseBatch reads cursor
  | _ => (responseSource id).openSse responseBatch reads cursor

/-- `GET /v1/responses/{id}` -/
def retrieve (p : Patience) (id : String) (stream : Option Bool) (startingAfter : Option ℕ)
    (headers : Headers) : Service HttpResponse :=
  ConversationRoutes.orReject do
    let tenant ← tenantOrReject app.keys headers
    let id ← parseId app id
    if stream.getD false then return streamImpl p.reads id startingAfter headers tenant
    else
      return do
        match ← ResponsesService.retrieve app.cfg p.rounds tenant id with
        | .ok (some object) => return ⟨.ok, .response object⟩
        | .ok none => return notFound
        | .error e => return mapServiceError e

/-- `POST /v1/responses/{id}/cancel` -/
def cancel (p : Patience) (id : String) (headers : Headers) : Service HttpResponse :=
  ConversationRoutes.orReject do
    let tenant ← tenantOrReject app.keys headers
    let id ← parseId app id
    return do
      match ← ResponsesService.cancel app.cfg p.rounds tenant id with
      | .ok object => return ⟨.ok, .response object⟩
      | .error e => return mapServiceError e

/-- `DELETE /v1/responses/{id}` -/
def delete (id : String) (headers : Headers) : Service HttpResponse :=
  ConversationRoutes.orReject do
    let tenant ← tenantOrReject app.keys headers
    let id ← parseId app id
    return do
      match ← ResponsesService.delete tenant id with
      | .ok true => return ⟨.ok, .deleted { id := id.text, object := "response.deleted" }⟩
      | .ok false => return notFound
      | .error e => return mapServiceError e

end ResponseRoutes

end Gateway

end NovaChat
