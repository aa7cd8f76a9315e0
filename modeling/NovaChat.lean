import NovaChat.Admission.Faults
import NovaChat.Admission.Idempotency
import NovaChat.Admission.Pending
import NovaChat.Agentd.Assembly
import NovaChat.Agentd.Completions
import NovaChat.Agentd.Cutting
import NovaChat.Agentd.Forthcoming
import NovaChat.Agentd.Http
import NovaChat.Agentd.Recording
import NovaChat.Agentd.Runner
import NovaChat.Agentd.Scripted
import NovaChat.Agentd.Steadfast
import NovaChat.Agentd.Tool
import NovaChat.Agentd.Translation
import NovaChat.Carrier.Deployment
import NovaChat.Context.Agreement
import NovaChat.Context.Bounds
import NovaChat.Context.Order
import NovaChat.Context.Pairing
import NovaChat.Context.Predecessor
import NovaChat.Context.Produced
import NovaChat.Context.Rereading
import NovaChat.Context.Streamed
import NovaChat.Gateway.Conversations
import NovaChat.Gateway.Serving
import NovaChat.Interact.Guard
import NovaChat.Interact.Unwinding
import NovaChat.Lifecycle.Draining
import NovaChat.Lifecycle.Ending
import NovaChat.Lifecycle.Recovery
import NovaChat.Lifecycle.Sweeping
import NovaChat.Storage.Gate
import NovaChat.Storage.Tampering
import NovaChat.Storage.Turns
import NovaChat.Stream.Archive
import NovaChat.Stream.Finished
import NovaChat.Stream.Lock
import NovaChat.Stream.Paging
import NovaChat.Stream.Restart
import NovaChat.Stream.Resumption
import NovaChat.Stream.Retention
import NovaChat.Stream.Subscription
import NovaChat.Tenancy.Deletion
import NovaChat.Tenancy.Endpoints
import NovaChat.Tenancy.Isolation
import NovaChat.Tenancy.Streams
import NovaChat.Turn.Billing
import NovaChat.Turn.Busy
import NovaChat.Turn.Commits
import NovaChat.Turn.Endings
import NovaChat.Turn.Markers
import NovaChat.Turn.Opening
import NovaChat.Turn.Predecessors
import NovaChat.Turn.Tail
import NovaChat.Wire.Canonical
import NovaChat.Wire.Carrier
import NovaChat.Wire.Compact
import NovaChat.Wire.Depth
import NovaChat.Wire.Envelope
import NovaChat.Wire.Equivalent
import NovaChat.Wire.Fields
import NovaChat.Wire.Identifiers
import NovaChat.Wire.Limits
import NovaChat.Wire.Request
import NovaChat.Wire.Reread
import NovaChat.Wire.Sizes
import NovaChat.Wire.UrlGuard
