import DrStore.Base.Calendar
import DrStore.Base.PyJson
import DrStore.Store.ContentAddressing

/-! # Lease records (lease/models.py)

The frozen pydantic models carry their validators as fields, so a `Lease` or a `Terminal`
that exists is valid; `make` is the validating constructor call. `LeaseRow` is a plain
dataclass in the source and stays one here: its two legal shapes are `leased` and
`terminalized`. `==` on terminals and rows is Python's, which compares failure details by
value (`pyEq`). -/
namespace DrStore.Leases.Models
open DrStore.Base.PyText (pyRepr)
open DrStore.Base.Calendar DrStore.Base.PyJson DrStore.Store.ContentAddressing

/-! ## Errors and text checks -/

inductive LeaseError where
  | valueError (message : String)
  | overflowError
  | keyError (key : String)
  /-- An error of `ObjectReference`, which is no `ValueError`. -/
  | reference (e : StoreError)
  | stale (message : String)
  | terminalConflict (message : String)
  | authority (message : String)
  | corruption (message : String)
  | database (message : String)
deriving DecidableEq

def maxFence : Int := 2 ^ 63 - 1

/-- `str.isspace`, the characters `str.strip` removes. -/
def isSpace (c : Char) : Bool :=
  let n := c.toNat
  (9 ≤ n && n ≤ 13) || (28 ≤ n && n ≤ 32) || n == 0x85 || n == 0xa0 || n == 0x1680 ||
    (0x2000 ≤ n && n ≤ 0x200a) || n == 0x2028 || n == 0x2029 || n == 0x202f || n == 0x205f ||
    n == 0x3000

def isText (maximum : Nat) (value : String) : Bool :=
  value.toList.any (fun c => !isSpace c) && !value.toList.contains '\x00' &&
    value.length ≤ maximum

def textError (value field : String) (maximum : Nat) : LeaseError :=
  if value.toList.all isSpace then .valueError (field ++ " must be non-empty")
  else if value.toList.contains '\x00' then .valueError (field ++ " cannot contain NUL")
  else .valueError (field ++ " cannot exceed " ++ toString maximum ++ " characters")

def requireText (value field : String) (maximum : Nat) : Except LeaseError String :=
  if isText maximum value then .ok value else .error (textError value field maximum)

def isRequestHash (value : String) : Bool :=
  value.length == 64 && value.toList.all (hexDigits.contains ·)

def requestHashError (value : String) : LeaseError :=
  .valueError ("request_hash must be a full 64-char lowercase SHA-256 hash, got " ++ pyRepr value)

/-- A clock reading: local fields and the offset of its timezone, absent when naive. -/
structure ClockReading where
  wall : Datetime
  utcoffset : Option Int
deriving DecidableEq

def requireUtc (value : ClockReading) (field : String) : Except LeaseError Datetime :=
  match value.utcoffset with
  | none => .error (.valueError (field ++ " must be timezone-aware"))
  | some offset =>
    if offset = 0 then .ok value.wall else .error (.valueError (field ++ " must use UTC"))

/-- `timedelta`, in microseconds. -/
structure Timedelta where
  micros : Int
deriving DecidableEq

def requireLeaseDuration (value : Timedelta) : Except LeaseError Timedelta :=
  if value.micros ≤ 0 then .error (.valueError "lease_duration must be positive") else .ok value

def addDuration (now : Datetime) (duration : Timedelta) : Except LeaseError Datetime :=
  match now.add? duration.micros with
  | some t => .ok t
  | none => .error .overflowError

/-! ## Enumerations -/

inductive ReplayPolicy where
  | idempotent
  | durableWorkflow
  | noRedrive
deriving DecidableEq

inductive TerminalOutcome where
  | succeeded
  | failed
  | recoveryRequired
deriving DecidableEq

inductive AcquireOutcome where
  | acquired
  | busy
  | succeeded
  | failed
  | requestConflict
  | recoveryRequired
deriving DecidableEq

inductive StoredState where
  | leased
  | succeeded
  | failed
  | recoveryRequired
deriving DecidableEq

/-- `AcquireOutcome(outcome.value)`. -/
def AcquireOutcome.ofTerminal : TerminalOutcome → AcquireOutcome
  | .succeeded => .succeeded
  | .failed => .failed
  | .recoveryRequired => .recoveryRequired

/-- `_StoredState(outcome.value)`. -/
def StoredState.ofTerminal : TerminalOutcome → StoredState
  | .succeeded => .succeeded
  | .failed => .failed
  | .recoveryRequired => .recoveryRequired

/-! ## Requests, leases and terminals -/

structure LeaseRequest where
  semanticKey : String
  requestHash : String
  replayPolicy : ReplayPolicy
  hash_valid : isRequestHash requestHash = true
  key_valid : isText 1024 semanticKey = true
deriving DecidableEq

def LeaseRequest.make (semanticKey requestHash : String) (replayPolicy : ReplayPolicy) :
    Except LeaseError LeaseRequest :=
  if hh : isRequestHash requestHash = true then
    if hk : isText 1024 semanticKey = true then .ok ⟨semanticKey, requestHash, replayPolicy, hh, hk⟩
    else .error (textError semanticKey "semantic_key" 1024)
  else .error (requestHashError requestHash)

structure Lease where
  request : LeaseRequest
  ownerId : String
  attemptId : String
  fence : Int
  expiresAt : Datetime
  owner_valid : isText 255 ownerId = true
  attempt_valid : isText 255 attemptId = true
  fence_valid : 1 ≤ fence ∧ fence ≤ maxFence
deriving DecidableEq

def fenceError : LeaseError := .valueError "fence must be a positive signed 64-bit integer"

def Lease.make (request : LeaseRequest) (ownerId attemptId : String) (fence : Int)
    (expiresAt : Datetime) : Except LeaseError Lease :=
  if ho : isText 255 ownerId = true then
    if ha : isText 255 attemptId = true then
      if hf : 1 ≤ fence ∧ fence ≤ maxFence then
        .ok ⟨request, ownerId, attemptId, fence, expiresAt, ho, ha, hf⟩
      else .error fenceError
    else .error (textError attemptId "attempt_id" 255)
  else .error (textError ownerId "owner_id" 255)

structure TerminalFailure where
  code : String
  message : String
  details : JsonObject
  code_valid : isText 1024 code = true
  message_valid : isText 1024 message = true

def TerminalFailure.make (code message : String) (details : JsonObject) :
    Except LeaseError TerminalFailure :=
  if hc : isText 1024 code = true then
    if hm : isText 1024 message = true then .ok ⟨code, message, details, hc, hm⟩
    else .error (textError message "message" 1024)
  else .error (textError code "code" 1024)

def TerminalFailure.pyEq (a b : TerminalFailure) : Bool :=
  a.code == b.code && a.message == b.message &&
    DrStore.Base.PyJson.pyEq (.obj a.details.fields) (.obj b.details.fields)

/-- Which of `result_ref` and `failure` an outcome carries. -/
def terminalShape : TerminalOutcome → Bool → Bool → Bool
  | .succeeded, hasRef, hasFailure => hasRef && !hasFailure
  | .failed, hasRef, hasFailure => hasRef && hasFailure
  | .recoveryRequired, hasRef, hasFailure => hasFailure && !hasRef

def terminalShapeError : TerminalOutcome → LeaseError
  | .succeeded => .valueError "a succeeded terminal requires only result_ref"
  | .failed => .valueError "a failed terminal requires result_ref and failure"
  | .recoveryRequired => .valueError "a recovery-required terminal requires only failure"

structure Terminal where
  request : LeaseRequest
  outcome : TerminalOutcome
  ownerId : String
  attemptId : String
  fence : Int
  resultRef : Option ObjectReference
  failure : Option TerminalFailure
  owner_valid : isText 255 ownerId = true
  attempt_valid : isText 255 attemptId = true
  fence_valid : 1 ≤ fence ∧ fence ≤ maxFence
  shape_valid : terminalShape outcome resultRef.isSome failure.isSome = true

def Terminal.make (request : LeaseRequest) (outcome : TerminalOutcome) (ownerId attemptId : String)
    (fence : Int) (resultRef : Option ObjectReference) (failure : Option TerminalFailure) :
    Except LeaseError Terminal :=
  if ho : isText 255 ownerId = true then
    if ha : isText 255 attemptId = true then
      if hf : 1 ≤ fence ∧ fence ≤ maxFence then
        if hs : terminalShape outcome resultRef.isSome failure.isSome = true then
          .ok ⟨request, outcome, ownerId, attemptId, fence, resultRef, failure, ho, ha, hf, hs⟩
        else .error (terminalShapeError outcome)
      else .error fenceError
    else .error (textError attemptId "attempt_id" 255)
  else .error (textError ownerId "owner_id" 255)

/-- Pydantic's `==`: the fields, with failure details compared by value. -/
def Terminal.pyEq (a b : Terminal) : Bool :=
  a.request == b.request && a.outcome == b.outcome && a.ownerId == b.ownerId &&
    a.attemptId == b.attemptId && a.fence == b.fence && a.resultRef == b.resultRef &&
    match a.failure, b.failure with
    | none, none => true
    | some f, some g => f.pyEq g
    | _, _ => false

theorem TerminalFailure.pyEq_refl (f : TerminalFailure) : f.pyEq f = true := by
  simp [TerminalFailure.pyEq, DrStore.Base.PyJson.pyEq_refl]

theorem Terminal.pyEq_refl (t : Terminal) : t.pyEq t = true := by
  simp only [Terminal.pyEq, beq_self_eq_true, Bool.true_and]
  cases t.failure with
  | none => rfl
  | some f => exact f.pyEq_refl

/-! ## Acquire results -/

structure AcquireFields where
  request : LeaseRequest
  outcome : AcquireOutcome
  lease : Option Lease
  terminal : Option Terminal
  busyExpiresAt : Option Datetime
  existingRequestHash : Option String
  existingReplayPolicy : Option ReplayPolicy

def AcquireFields.populated (r : AcquireFields) : List Bool :=
  [r.lease.isSome, r.terminal.isSome, r.busyExpiresAt.isSome, r.existingRequestHash.isSome,
    r.existingReplayPolicy.isSome]

/-- The terminal outcome that a terminal acquire outcome stands for. -/
def AcquireOutcome.expected : AcquireOutcome → Option TerminalOutcome
  | .succeeded => some .succeeded
  | .failed => some .failed
  | .recoveryRequired => some .recoveryRequired
  | _ => none

/-- `AcquireResult._validate`, with the validator of `existing_request_hash` before it. -/
def AcquireFields.error? (r : AcquireFields) : Option LeaseError :=
  if r.existingRequestHash.any (fun h => !isRequestHash h) then
    r.existingRequestHash.map requestHashError
  else match r.outcome with
  | .acquired =>
    if r.populated ≠ [true, false, false, false, false] then
      some (.valueError "ACQUIRED requires only a lease")
    else if r.lease.any (fun l => l.request != r.request) then
      some (.valueError "acquired lease must match the request")
    else none
  | .busy =>
    if r.populated ≠ [false, false, true, false, false] then
      some (.valueError "BUSY requires only busy_expires_at")
    else none
  | .requestConflict =>
    if r.populated ≠ [false, false, false, true, true] then
      some (.valueError "REQUEST_CONFLICT requires the existing identity and policy")
    else none
  | _ =>
    if r.populated ≠ [false, true, false, false, false] then
      some (.valueError "terminal acquisition outcomes require only terminal")
    else if r.terminal.any (fun t => t.request != r.request) then
      some (.valueError "terminal must match the request")
    else if r.terminal.any (fun t => some t.outcome != r.outcome.expected) then
      some (.valueError "terminal outcome does not match result")
    else none

structure AcquireResult extends AcquireFields where
  valid : toAcquireFields.error? = none

def AcquireResult.make (r : AcquireFields) : Except LeaseError AcquireResult :=
  match h : r.error? with
  | none => .ok ⟨r, h⟩
  | some e => .error e

/-! ## Rows -/

structure LeaseRow where
  request : LeaseRequest
  state : StoredState
  ownerId : String
  attemptId : String
  fence : Int
  expiresAt : Option Datetime
  terminal : Option Terminal

def LeaseRow.leased (lease : Lease) : LeaseRow where
  request := lease.request
  state := .leased
  ownerId := lease.ownerId
  attemptId := lease.attemptId
  fence := lease.fence
  expiresAt := some lease.expiresAt
  terminal := none

def LeaseRow.terminalized (terminal : Terminal) : LeaseRow where
  request := terminal.request
  state := .ofTerminal terminal.outcome
  ownerId := terminal.ownerId
  attemptId := terminal.attemptId
  fence := terminal.fence
  expiresAt := none
  terminal := some terminal

/-- `_LeaseRow.lease()`: the row as an active lease, re-validated. -/
def LeaseRow.lease (row : LeaseRow) : Except LeaseError Lease :=
  match row.state, row.expiresAt with
  | .leased, some expiresAt =>
    Lease.make row.request row.ownerId row.attemptId row.fence expiresAt
  | _, _ => .error (.corruption "row is not an active lease")

def LeaseRow.pyEq (a b : LeaseRow) : Bool :=
  a.request == b.request && a.state == b.state && a.ownerId == b.ownerId &&
    a.attemptId == b.attemptId && a.fence == b.fence && a.expiresAt == b.expiresAt &&
    match a.terminal, b.terminal with
    | none, none => true
    | some t, some u => t.pyEq u
    | _, _ => false

/-- `==` on `_LeaseRow | None`. -/
def rowEq : Option LeaseRow → Option LeaseRow → Bool
  | none, none => true
  | some a, some b => a.pyEq b
  | _, _ => false

theorem LeaseRow.pyEq_refl (row : LeaseRow) : row.pyEq row = true := by
  simp only [LeaseRow.pyEq, beq_self_eq_true, Bool.true_and]
  cases row.terminal with
  | none => rfl
  | some t => exact t.pyEq_refl

theorem rowEq_refl : ∀ row : Option LeaseRow, rowEq row row = true
  | none => rfl
  | some row => row.pyEq_refl

theorem Lease.make_self (l : Lease) :
    Lease.make l.request l.ownerId l.attemptId l.fence l.expiresAt = .ok l := by
  rw [Lease.make, dif_pos l.owner_valid, dif_pos l.attempt_valid, dif_pos l.fence_valid]

@[simp] theorem LeaseRow.lease_leased (l : Lease) : (LeaseRow.leased l).lease = .ok l :=
  l.make_self

theorem LeaseRow.leased_inj {a b : Lease} (h : LeaseRow.leased a = LeaseRow.leased b) : a = b := by
  have := congrArg LeaseRow.lease h
  simpa using this

theorem LeaseRow.terminalized_inj {t u : Terminal}
    (h : LeaseRow.terminalized t = LeaseRow.terminalized u) : t = u :=
  Option.some.inj (congrArg LeaseRow.terminal h)

theorem LeaseRow.leased_ne_terminalized (l : Lease) (t : Terminal) :
    LeaseRow.leased l ≠ LeaseRow.terminalized t := by
  intro h
  cases congrArg LeaseRow.terminal h

end DrStore.Leases.Models
