import NovaChat.Gateway.Http
import NovaChat.Store
import NovaChat.Wire.Bodies
import NovaChat.Wire.Envelope
import Mathlib.Data.List.DropRight

/-!
# Credentials

Which tenant a request speaks for: the one its bearer key was configured for.  A table without keys
lets everybody in as one local tenant.
-/

namespace NovaChat

def IdError.text (e : IdError) : String := s!"invalid {e.kind}: expected {e.expected}"

namespace Gateway

/-- `str::trim`. -/
def trim (s : String) : String :=
  String.ofList ((s.toList.dropWhile isWhitespace).rdropWhile isWhitespace)

inductive AuthError
  | missing
  | invalid
  deriving DecidableEq

structure KeyTable where
  keys : HashMap String TenantId := ∅

theorem localTenant_valid : ("local" ≠ "" ∧ "local".utf8ByteSize ≤ 64) ∧
    "local".toList.all (fun b ↦ b.isAlphanum || b == '.' || b == '_' || b == '-') = true := by
  decide

def localTenant : TenantId := ⟨"local", localTenant_valid⟩

namespace KeyTable

def isSeparator (c : Char) : Bool := c == ',' || c == ' ' || c == '\n' || c == '\t'

/-- The pairs of a specification, each a `key:tenant`. -/
def pieces (spec : String) : List (List Char) :=
  (spec.toList.splitOnP isSeparator).filter fun s ↦ !s.isEmpty

def parseEntry (entry : List Char) : Except String (String × TenantId) :=
  match entry.dropWhile (· != ':') with
  | [] => .error "api key entry must be `key:tenant`"
  | _ :: tenant =>
    let key := String.ofList (entry.takeWhile (· != ':'))
    if key.utf8ByteSize < 8 then .error "api keys must be at least 8 characters"
    else
      match TenantId.parse (String.ofList tenant) with
      | .error e => .error (IdError.text e)
      | .ok tenant => .ok (key, tenant)

def insertAll (keys : HashMap String TenantId) :
    List (List Char) → Except String (HashMap String TenantId)
  | [] => .ok keys
  | entry :: entries =>
    match parseEntry entry with
    | .error e => .error e
    | .ok (key, tenant) => insertAll (keys.insert key tenant) entries

/-- Parse `key:tenant` pairs. -/
def parse (spec : String) : Except String KeyTable :=
  match insertAll ∅ (pieces spec) with
  | .error e => .error e
  | .ok keys => .ok { keys := keys }

def isEmpty (table : KeyTable) : Bool := table.keys.entries.isEmpty

/-- The key a request presents. -/
def bearer (headers : Headers) : Option String :=
  headers.authorization.bind fun v ↦
    (ResponseId.stripPrefix "Bearer ".toList v.toList).map fun rest ↦ trim (String.ofList rest)

/-- The tenant of a request. -/
def resolve (table : KeyTable) (headers : Headers) : Except AuthError TenantId :=
  if table.isEmpty then .ok localTenant
  else
    match bearer headers with
    | none => .error .missing
    | some key =>
      match table.keys.lookup key with
      | none => .error .invalid
      | some tenant => .ok tenant

end KeyTable

/-- Which tenant a request acts for, or the answer that rejects it. -/
def tenantOrReject (keys : KeyTable) (headers : Headers) : Except HttpResponse TenantId :=
  match keys.resolve headers with
  | .ok tenant => .ok tenant
  | .error .missing =>
    .error (apiError .unauthorized "missing_credentials" "provide `Authorization: Bearer <key>`")
  | .error .invalid =>
    .error (apiError .unauthorized "invalid_credentials" "credentials were rejected")

/-- An id that does not parse reads as one that does not exist. -/
def parseOrNotFound {α : Type} (parsed : Except IdError α) (kind : String) :
    Except HttpResponse α :=
  match parsed with
  | .ok id => .ok id
  | .error _ => .error (notFoundKind kind)

end Gateway

end NovaChat
