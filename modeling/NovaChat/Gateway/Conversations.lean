import NovaChat.Gateway.Sse
import NovaChat.Service.Conversations

/-!
# The conversation endpoints

Each handler establishes the tenant, reads the id and the body, hands over to the service and
renders what comes back.  A writing handler refuses while the node drains.
-/

namespace NovaChat

open Interact

namespace ConversationId

/-- `conv_` and a uuid. -/
def parse (parseStr : String → Option Uuid) (raw : String) : Except IdError ConversationId :=
  match ResponseId.stripPrefix "conv_".toList raw.toList with
  | none => .error ⟨"conversation id", "conv_<uuid>"⟩
  | some rest =>
    match parseStr (String.ofList rest) with
    | none => .error ⟨"conversation id", "conv_<uuid>"⟩
    | some uuid => .ok ⟨uuid⟩

end ConversationId

namespace Gateway

/-- What the handlers of a gateway share: its credentials, its bounds, and how it reads uuids and
words what is wrong with a body. -/
structure AppState where
  keys : KeyTable := {}
  limits : ProtocolLimits := {}
  conversationEventsPage : ℕ := 256
  parseStr : String → Option Uuid
  bodyError : Value → String

namespace ConversationRoutes

variable (app : AppState)

def parseId (raw : String) : Except HttpResponse ConversationId :=
  parseOrNotFound (ConversationId.parse app.parseStr raw) "conversation"

/-- The metadata a body carries, or the answer that rejects it. -/
def readMetadata (raw : Value) : Except HttpResponse Metadata :=
  match ConversationMetadataRequest.ofValue raw with
  | none => .error (badRequest "invalid_request" (app.bodyError raw))
  | some request =>
    match request.validate app.limits with
    | .error e => .error (badRequest "invalid_request" e.text)
    | .ok () => .ok request.stored

/-- The business event a body carries, or the answer that rejects it. -/
def readEvent (raw : Value) : Except HttpResponse ConversationEventKind :=
  match AppendBusinessEventRequest.ofValue raw with
  | none => .error (badRequest "invalid_request" (app.bodyError raw))
  | some request =>
    match request.validate app.limits with
    | .error e => .error (badRequest "invalid_request" e.text)
    | .ok () => .ok (.business request.kind request.payload)

def shown : Except ConversationError Conversation → HttpResponse
  | .ok conversation => ⟨.ok, .conversation (.new conversation)⟩
  | .error e => mapConversationError e

/-- The answer of a handler whose preliminaries may already have one. -/
def orReject (p : Except HttpResponse (Service HttpResponse)) : Service HttpResponse :=
  match p with
  | .ok handler => handler
  | .error rejection => return rejection

/-- `POST /v1/conversations` -/
def create (uuid : Uuid) (accepting : Bool) (headers : Headers) (raw : Value) :
    Service HttpResponse :=
  orReject do
    let tenant ← tenantOrReject app.keys headers
    if !accepting then .error draining
    else
      let metadata ← readMetadata app raw
      return do
        let reply ← ConversationsService.create uuid tenant metadata
        return shown reply

/-- `GET /v1/conversations/{id}` -/
def retrieve (id : String) (headers : Headers) : Service HttpResponse :=
  orReject do
    let tenant ← tenantOrReject app.keys headers
    let id ← parseId app id
    return do
      match ← ConversationsService.retrieve tenant id with
      | .ok (some conversation) => return ⟨.ok, .conversation (.new conversation)⟩
      | .ok none => return notFoundKind "conversation"
      | .error e => return mapConversationError e

/-- `POST /v1/conversations/{id}` -/
def update (accepting : Bool) (id : String) (headers : Headers) (raw : Value) :
    Service HttpResponse :=
  orReject do
    let tenant ← tenantOrReject app.keys headers
    if !accepting then .error draining
    else
      let id ← parseId app id
      let metadata ← readMetadata app raw
      return do
        let reply ← ConversationsService.updateMetadata tenant id metadata
        return shown reply

/-- `DELETE /v1/conversations/{id}` -/
def delete (id : String) (headers : Headers) : Service HttpResponse :=
  orReject do
    let tenant ← tenantOrReject app.keys headers
    let id ← parseId app id
    return do
      match ← ConversationsService.delete tenant id with
      | .ok true => return ⟨.ok, .deleted { id := id.text, object := "conversation.deleted" }⟩
      | .ok false => return notFoundKind "conversation"
      | .error e => return mapConversationError e

/-- `GET /v1/conversations` -/
def list (headers : Headers) : Service HttpResponse :=
  orReject do
    let tenant ← tenantOrReject app.keys headers
    return do
      match ← ConversationsService.list tenant with
      | .ok conversations =>
        return ⟨.ok, .list "list" (conversations.map ConversationObject.withActivity)⟩
      | .error e => return mapConversationError e

/-- `GET /v1/conversations/{id}/events` -/
def events (reads : ℕ) (id : String) (startingAfter : Option ℕ) (headers : Headers) :
    Service HttpResponse :=
  orReject do
    let tenant ← tenantOrReject app.keys headers
    let id ← parseId app id
    return (conversationSource tenant id).openSse app.conversationEventsPage reads
      (resolveCursor startingAfter headers.lastEventId)

/-- `POST /v1/conversations/{id}/events` -/
def appendEvent (accepting : Bool) (id : String) (headers : Headers) (raw : Value) :
    Service HttpResponse :=
  orReject do
    let tenant ← tenantOrReject app.keys headers
    if !accepting then .error draining
    else
      let id ← parseId app id
      let kind ← readEvent app raw
      return do
        match ← ConversationsService.appendEvent tenant id kind with
        | .ok seq => return ⟨.ok, .appended { conversationId := id.text, seq := seq }⟩
        | .error e => return mapConversationError e

/-- The history in its protocol shape, reasoning before the item it belongs to. -/
def transcriptObject (id : ConversationId) (context : ResolvedContext) : TranscriptObject where
  conversationId := id.text
  data := context.entries.flatMap fun entry ↦
    (entry.reasoning.map (TranscriptEntry.reasoning "reasoning")).toList ++ [.item entry.item]

/-- `GET /v1/conversations/{id}/transcript` -/
def transcript (id : String) (headers : Headers) : Service HttpResponse :=
  orReject do
    let tenant ← tenantOrReject app.keys headers
    let id ← parseId app id
    return do
      match ← ConversationsService.readSnapshot tenant id with
      | .ok context => return ⟨.ok, .transcript (transcriptObject id context)⟩
      | .error e => return mapConversationError e

end ConversationRoutes

/-- A request to one of the conversation endpoints. -/
inductive ConversationRequest
  | create (uuid : Uuid) (accepting : Bool) (raw : Value)
  | retrieve (id : String)
  | update (accepting : Bool) (id : String) (raw : Value)
  | delete (id : String)
  | list
  | events (reads : ℕ) (id : String) (startingAfter : Option ℕ)
  | appendEvent (accepting : Bool) (id : String) (raw : Value)
  | transcript (id : String)

/-- The handler a request is routed to. -/
def ConversationRequest.handle (app : AppState) (headers : Headers) :
    ConversationRequest → Service HttpResponse
  | create uuid accepting raw => ConversationRoutes.create app uuid accepting headers raw
  | retrieve id => ConversationRoutes.retrieve app id headers
  | update accepting id raw => ConversationRoutes.update app accepting id headers raw
  | delete id => ConversationRoutes.delete app id headers
  | list => ConversationRoutes.list app headers
  | events reads id startingAfter => ConversationRoutes.events app reads id startingAfter headers
  | appendEvent accepting id raw => ConversationRoutes.appendEvent app accepting id headers raw
  | transcript id => ConversationRoutes.transcript app id headers

end Gateway

end NovaChat
