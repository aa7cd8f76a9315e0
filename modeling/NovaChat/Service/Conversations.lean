import NovaChat.Service.Config

/-!
# The conversations service

The operations on a conversation that pass straight through to its port, and the tail of its chain.
-/

namespace NovaChat

open Interact Prog

namespace ConversationsService

def retrieve (tenant : TenantId) (id : ConversationId) :
    Service (Except ConversationError (Option Conversation)) :=
  perform (Call.conversations (.get tenant id))

def updateMetadata (tenant : TenantId) (id : ConversationId) (metadata : Metadata) :
    Service (Except ConversationError Conversation) :=
  perform (Call.conversations (.updateMetadata tenant id metadata))

/-- The snapshot and the event stream go with the conversation; response records stay. -/
def delete (tenant : TenantId) (id : ConversationId) : Service (Except ConversationError Bool) :=
  Conversations.delete tenant id

def list (tenant : TenantId) : Service (Except ConversationError (List Conversation)) :=
  perform (Call.conversations (.list tenant))

def readSnapshot (tenant : TenantId) (id : ConversationId) :
    Service (Except ConversationError ResolvedContext) :=
  Conversations.readSnapshot tenant id

end ConversationsService

end NovaChat
