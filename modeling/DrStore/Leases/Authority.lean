import DrStore.Leases.Models
import DrStore.Base.Runs

/-! # The lease authority (lease/authority.py, lease/_memory.py)

Each public call checks its arguments and hands a transition to the store, which runs it on
the row of one semantic key at one authority time. `Call.prepare` is the part before the
store, the `…Transition` functions are the closures, and `MemoryStore.transaction` is the
in-memory store; `authority` is the machine of whole calls over it. A call that raises,
before or inside the transaction, leaves the rows alone. -/
namespace DrStore.Leases.Authority
open DrStore.Base.Calendar DrStore.Base.PyJson DrStore.Base.Runs
open DrStore.Store.ContentAddressing DrStore.Leases.Models

/-- What the authority takes from outside the repository: the text of a float, SHA-256 of a
UTF-8 text, and pydantic's JSON writer and reader for terminals. -/
structure Host where
  floatRepr : Double → List Char
  sha256 : String → Digest
  modelDumpJson : Terminal → String
  modelValidateJson : String → Except String Terminal

/-- `Terminal.model_validate_json(terminal.model_dump_json())`; a validation error is a
`ValueError`. -/
def Host.validateTerminal (host : Host) (terminal : Terminal) : Except LeaseError Terminal :=
  match host.modelValidateJson (host.modelDumpJson terminal) with
  | .ok validated => .ok validated
  | .error message => .error (.valueError message)

def recoveryMessage : String :=
  "the non-redrivable effect lease expired without a terminal outcome"
def missingRowMessage : String := "effect lease row no longer exists"
def foreignRowMessage : String := "effect lease is held by a different request (foreign writer)"

abbrev Transition (α : Type) := Option LeaseRow → Datetime → Except LeaseError (Option LeaseRow × α)

def Transition.map {α β : Type} (tr : Transition α) (f : α → β) : Transition β :=
  fun row now => (tr row now).map fun (updated, result) => (updated, f result)

/-! ## Acquire -/

/-- The details of a recovery failure, in key order. -/
def recoveryDetails (row : LeaseRow) (expiresAt : Datetime) : JsonObject where
  fields := [("attempt_id", .str row.attemptId), ("expires_at", .str expiresAt.isoformat),
    ("fence", .int row.fence), ("owner_id", .str row.ownerId),
    ("request_hash", .str row.request.requestHash),
    ("semantic_key", .str row.request.semanticKey)]
  canonical := by
    have h : sortedKeys ["attempt_id", "expires_at", "fence", "owner_id", "request_hash",
      "semantic_key"] = true := by decide
    simp [Json.canonical, canonicalFields, h]

def recoveryFailure (host : Host) (row : LeaseRow) : Except LeaseError TerminalFailure :=
  match row.expiresAt with
  | none => .error (.corruption "expired lease has no expiration")
  | some expiresAt =>
    let payload := recoveryDetails row expiresAt
    let digest := host.sha256 (dumps host.floatRepr (.obj payload.fields))
    TerminalFailure.make ("effect-recovery:" ++ digest.text) recoveryMessage payload

def acquireTerminal (request : LeaseRequest) (terminal : Terminal) :
    Except LeaseError AcquireResult :=
  AcquireResult.make ⟨request, .ofTerminal terminal.outcome, none, some terminal, none, none, none⟩

def acquiredResult (request : LeaseRequest) (lease : Lease) : Except LeaseError AcquireResult :=
  AcquireResult.make ⟨request, .acquired, some lease, none, none, none, none⟩

def acquireTransition (host : Host) (request : LeaseRequest) (ownerId attemptId : String)
    (duration : Timedelta) : Transition AcquireResult := fun row now => do
  let leaseExpiresAt ← addDuration now duration
  match row with
  | none => do
    let lease ← Lease.make request ownerId attemptId 1 leaseExpiresAt
    let result ← acquiredResult request lease
    return (some (.leased lease), result)
  | some row =>
    if row.request ≠ request then do
      let result ← AcquireResult.make ⟨request, .requestConflict, none, none, none,
        some row.request.requestHash, some row.request.replayPolicy⟩
      return (some row, result)
    else match row.terminal with
    | some terminal => do
      let result ← acquireTerminal request terminal
      return (some row, result)
    | none => do
      let lease ← row.lease
      if now < lease.expiresAt then
        if lease.ownerId = ownerId ∧ lease.attemptId = attemptId then do
          let result ← acquiredResult request lease
          return (some row, result)
        else do
          let result ← AcquireResult.make ⟨request, .busy, none, none, some lease.expiresAt, none,
            none⟩
          return (some row, result)
      else if request.replayPolicy = .noRedrive then do
        let failure ← recoveryFailure host row
        let terminal ← Terminal.make request .recoveryRequired lease.ownerId lease.attemptId
          lease.fence none (some failure)
        let result ← acquireTerminal request terminal
        return (some (.terminalized terminal), result)
      else if lease.fence = maxFence then
        throw (.authority "effect fence exhausted the signed 64-bit range")
      else do
        let takeover ← Lease.make request ownerId attemptId (lease.fence + 1) leaseExpiresAt
        let result ← acquiredResult request takeover
        return (some (.leased takeover), result)

/-! ## Renew and terminalize -/

/-- `current` is not the lease value the caller holds, or has expired. -/
def isStale (current lease : Lease) (now : Datetime) : Bool :=
  current.ownerId != lease.ownerId || current.attemptId != lease.attemptId ||
    current.fence != lease.fence || current.expiresAt != lease.expiresAt ||
    current.expiresAt ≤ now

def renewTransition (lease : Lease) (duration : Timedelta) : Transition Lease := fun row now =>
  match row with
  | none => throw (.stale missingRowMessage)
  | some row =>
    if row.request ≠ lease.request then throw (.stale foreignRowMessage)
    else match row.terminal with
    | some _ => throw (.stale "effect lease is stale")
    | none => do
      let current ← row.lease
      if isStale current lease now then throw (.stale "effect lease is stale")
      else do
        let leaseExpiresAt ← addDuration now duration
        if leaseExpiresAt ≤ current.expiresAt then return (some row, current)
        else do
          let renewed ← Lease.make current.request current.ownerId current.attemptId current.fence
            leaseExpiresAt
          return (some (.leased renewed), renewed)

/-- `_terminalize`: idempotent on an equal terminal, otherwise by the live lease only. -/
def terminalizeTransition (lease : Lease) (terminal : Terminal) : Transition Terminal :=
  fun row now => match row with
  | none => throw (.stale missingRowMessage)
  | some row =>
    if row.request ≠ lease.request then throw (.stale foreignRowMessage)
    else match row.terminal with
    | some stored =>
      if stored.pyEq terminal then return (some row, stored)
      else throw (.terminalConflict "a different terminal outcome is already authoritative")
    | none => do
      let current ← row.lease
      if isStale current lease now then throw (.stale "effect lease is stale")
      else return (some (.terminalized terminal), terminal)

def verifyTransition (validated : Terminal) : Transition Terminal := fun row _ =>
  match row.bind LeaseRow.terminal with
  | none => .error (.terminalConflict "the supplied effect terminal is not authoritative")
  | some authoritative =>
    if authoritative.pyEq validated then .ok (row, authoritative)
    else .error (.terminalConflict "the supplied effect terminal is not authoritative")

/-! ## Calls -/

inductive StoreKind where
  | memory
  | sqlite
  | postgresql
deriving DecidableEq

/-- `_require_lease_duration`, then the store's own check: only SQLite has one. -/
def validateLeaseDuration (kind : StoreKind) (value : Timedelta) : Except LeaseError Timedelta := do
  let duration ← requireLeaseDuration value
  match kind with
  | .sqlite =>
    if duration.micros < 1000 then
      throw (.valueError
        "lease_duration must be at least 1 millisecond for SQLite authority clock precision")
    else return duration
  | _ => return duration

inductive Call where
  | acquire (request : LeaseRequest) (ownerId attemptId : String) (duration : Timedelta)
  | renew (lease : Lease) (duration : Timedelta)
  | succeed (lease : Lease) (resultRef : ObjectReference)
  | fail (lease : Lease) (resultRef : ObjectReference) (failure : TerminalFailure)
  | verifyTerminal (terminal : Terminal)

inductive Reply where
  | acquired (result : AcquireResult)
  | renewed (lease : Lease)
  | terminal (terminal : Terminal)

/-- A call up to the store: the key and the transition of its transaction. -/
def Call.prepare (host : Host) (kind : StoreKind) :
    Call → Except LeaseError (String × Transition Reply)
  | .acquire request ownerId attemptId duration => do
    let _ ← requireText ownerId "owner_id" 255
    let _ ← requireText attemptId "attempt_id" 255
    let duration ← validateLeaseDuration kind duration
    return (request.semanticKey,
      (acquireTransition host request ownerId attemptId duration).map .acquired)
  | .renew lease duration => do
    let duration ← validateLeaseDuration kind duration
    return (lease.request.semanticKey, (renewTransition lease duration).map .renewed)
  | .succeed lease resultRef => do
    let terminal ← Terminal.make lease.request .succeeded lease.ownerId lease.attemptId lease.fence
      (some resultRef) none
    return (lease.request.semanticKey, (terminalizeTransition lease terminal).map .terminal)
  | .fail lease resultRef failure => do
    let terminal ← Terminal.make lease.request .failed lease.ownerId lease.attemptId lease.fence
      (some resultRef) (some failure)
    return (lease.request.semanticKey, (terminalizeTransition lease terminal).map .terminal)
  | .verifyTerminal terminal => do
    let validated ← host.validateTerminal terminal
    return (validated.request.semanticKey, (verifyTransition validated).map .terminal)

/-! ## The in-memory store and the machine of calls -/

abbrev Rows := String → Option LeaseRow

def Rows.set (rows : Rows) (key : String) (row : Option LeaseRow) : Rows :=
  fun k => if k = key then row else rows k

@[simp] theorem Rows.set_self (rows : Rows) (key : String) (row : Option LeaseRow) :
    rows.set key row key = row := if_pos rfl

theorem Rows.set_ne {rows : Rows} {key k : String} (row : Option LeaseRow) (h : k ≠ key) :
    rows.set key row k = rows k := if_neg h

/-- `_MemoryStore.transaction`. -/
def MemoryStore.transaction {α : Type} (rows : Rows) (clock : ClockReading) (key : String)
    (tr : Transition α) : Rows × Except LeaseError α :=
  match requireUtc clock "authority clock" with
  | .error e => (rows, .error e)
  | .ok now =>
    match tr (rows key) now with
    | .error e => (rows, .error e)
    | .ok (updated, result) => (rows.set key updated, .ok result)

/-- One call at one clock reading. -/
structure Event where
  call : Call
  clock : ClockReading

/-- Calls over a store that applies each transition atomically. -/
def authority (host : Host) (kind : StoreKind) : Machine Rows Event (Except LeaseError Reply) where
  step rows e :=
    match e.call.prepare host kind with
    | .error err => (rows, .error err)
    | .ok (key, tr) => MemoryStore.transaction rows e.clock key tr

def noRows : Rows := fun _ => none

end DrStore.Leases.Authority
