import DrStore.Base.Fallible
import DrStore.Base.JsonText
import DrStore.Leases.Models

/-! # Rows as persisted (lease/_storage.py)

The persistent stores keep a row as eight columns of text, integers and nulls: enumerations by
value, the expiry as ISO text, the terminal record as sorted-key JSON. `decodeRow` reads the
columns back through every check of the source. What lies outside the repository (the strict
JSON decoder, pydantic's JSON reader, `validate_strict_json`) is a `Codec`; `Codec.Faithful`
says that it reads back the texts written here. `decodeRow_columns` is the round trip. -/
namespace DrStore.Leases.RowEncoding
open DrStore.Base.PyText (pyRepr)
open DrStore.Base.Calendar DrStore.Base.Fallible DrStore.Base.PyJson DrStore.Base.JsonText
open DrStore.Store.ContentAddressing DrStore.Leases.Models

/-- A column value; `other` is of a type that no column may have, such as `float` or `bytes`. -/
inductive SqlValue where
  | null
  | integer (n : Int)
  | text (s : String)
  | other (typeName : String)
deriving DecidableEq

/-- The columns of a row other than its key. -/
structure RawRow where
  requestHash : SqlValue
  replayPolicy : SqlValue
  state : SqlValue
  ownerId : SqlValue
  attemptId : SqlValue
  fence : SqlValue
  expiresAt : SqlValue
  terminalJson : SqlValue
deriving DecidableEq

structure Codec where
  floatRepr : Double → List Char
  decodeStrictJson : String → Except LeaseError Unit
  readJson : String → Except LeaseError Json
  validateStrictJson : Json → Except LeaseError JsonObject
  /-- `datetime.fromisoformat` on texts that `isoformat` does not write. -/
  otherIso : String → Except LeaseError ClockReading

/-! ## Enumerations by value -/

def replayPolicyValue : ReplayPolicy → String
  | .idempotent => "idempotent"
  | .durableWorkflow => "durable_workflow"
  | .noRedrive => "no_redrive"

def outcomeValue : TerminalOutcome → String
  | .succeeded => "succeeded"
  | .failed => "failed"
  | .recoveryRequired => "recovery_required"

def stateValue : StoredState → String
  | .leased => "leased"
  | .succeeded => "succeeded"
  | .failed => "failed"
  | .recoveryRequired => "recovery_required"

/-- `Enum(value)`: the member with that value. -/
def ofValue {α : Type} (value : α → String) (members : List α) (name text : String) :
    Except LeaseError α :=
  match members.find? (fun m => value m == text) with
  | some m => .ok m
  | none => .error (.valueError (pyRepr text ++ " is not a valid " ++ name))

def replayPolicyOf : String → Except LeaseError ReplayPolicy :=
  ofValue replayPolicyValue [.idempotent, .durableWorkflow, .noRedrive] "ReplayPolicy"

def outcomeOf : String → Except LeaseError TerminalOutcome :=
  ofValue outcomeValue [.succeeded, .failed, .recoveryRequired] "TerminalOutcome"

def stateOf : String → Except LeaseError StoredState :=
  ofValue stateValue [.leased, .succeeded, .failed, .recoveryRequired] "_StoredState"

@[simp] theorem replayPolicyOf_value (p : ReplayPolicy) :
    replayPolicyOf (replayPolicyValue p) = .ok p := by cases p <;> rfl

@[simp] theorem outcomeOf_value (o : TerminalOutcome) : outcomeOf (outcomeValue o) = .ok o := by
  cases o <;> rfl

@[simp] theorem stateOf_value (s : StoredState) : stateOf (stateValue s) = .ok s := by
  cases s <;> rfl

theorem stateValue_inj {a b : StoredState} (h : stateValue a = stateValue b) : a = b := by
  have hof := stateOf_value a
  rw [h, stateOf_value] at hof
  exact (Except.ok.inj hof).symm

theorem ofTerminal_ne_leased (o : TerminalOutcome) : StoredState.ofTerminal o ≠ .leased := by
  cases o <;> simp [StoredState.ofTerminal]

theorem stateValue_ofTerminal (o : TerminalOutcome) :
    stateValue (.ofTerminal o) = outcomeValue o := by cases o <;> rfl

/-! ## Terminal records as JSON -/

def requestJson (r : LeaseRequest) : Json :=
  .obj [("replay_policy", .str (replayPolicyValue r.replayPolicy)),
    ("request_hash", .str r.requestHash), ("semantic_key", .str r.semanticKey)]

def referenceJson : Option ObjectReference → Json
  | none => .null
  | some r => .obj [("content_hash", .str r.contentHash), ("schema", .str r.schema)]

def failureJson : Option TerminalFailure → Json
  | none => .null
  | some f => .obj [("code", .str f.code), ("details", .obj f.details.fields),
      ("message", .str f.message)]

/-- `Terminal.model_dump(mode="json")`, in key order. -/
def modelDump (t : Terminal) : Json :=
  .obj [("attempt_id", .str t.attemptId), ("failure", failureJson t.failure),
    ("fence", .int t.fence), ("outcome", .str (outcomeValue t.outcome)),
    ("owner_id", .str t.ownerId), ("request", requestJson t.request),
    ("result_ref", referenceJson t.resultRef)]

/-! ### Model validation of a parsed value -/

abbrev Fields := List (String × Json)

def lookupField (fs : Fields) (name : String) : Option Json :=
  (fs.find? (fun f => f.1 == name)).map Prod.snd

def requireField (fs : Fields) (name : String) : Except LeaseError Json :=
  match lookupField fs name with
  | some v => .ok v
  | none => .error (.valueError (name ++ ": Field required"))

def requireString (fs : Fields) (name : String) : Except LeaseError String := do
  match ← requireField fs name with
  | .str s => return s
  | _ => throw (.valueError (name ++ ": Input should be a valid string"))

/-- `StrictInt`: booleans and floats are refused. -/
def requireInt (fs : Fields) (name : String) : Except LeaseError Int := do
  match ← requireField fs name with
  | .int n => return n
  | _ => throw (.valueError (name ++ ": Input should be a valid integer"))

/-- `extra="forbid"`. -/
def forbidExtra (fs : Fields) (names : List String) : Except LeaseError Unit :=
  match fs.find? (fun f => !names.contains f.1) with
  | none => .ok ()
  | some f => .error (.valueError (f.1 ++ ": Extra inputs are not permitted"))

def requireObject (name : String) : Json → Except LeaseError Fields
  | .obj fs => .ok fs
  | _ => .error (.valueError (name ++ ": Input should be an object"))

def validateRequest (v : Json) : Except LeaseError LeaseRequest := do
  let fs ← requireObject "request" v
  forbidExtra fs ["semantic_key", "request_hash", "replay_policy"]
  let semanticKey ← requireString fs "semantic_key"
  let requestHash ← requireString fs "request_hash"
  let policyText ← requireString fs "replay_policy"
  let replayPolicy ← replayPolicyOf policyText
  LeaseRequest.make semanticKey requestHash replayPolicy

/-- `value[name]`. -/
def subscript (fs : Fields) (name : String) : Except LeaseError Json :=
  match lookupField fs name with
  | some v => .ok v
  | none => .error (.keyError name)

/-- `ObjectReference(schema=..., content_hash=...)` of any two values. -/
def makeReference (codec : Codec) : Json → Json → Except LeaseError ObjectReference
  | .str schema, .str contentHash => (ObjectReference.make schema contentHash).mapError .reference
  | .str schema, contentHash =>
    if isReferenceSchema schema then
      .error (.reference (invalidContentHash (reprValue codec.floatRepr contentHash)))
    else .error (.reference (schemaError schema))
  | _, _ => .error (.reference (schemaError ""))

/-- `Terminal._parse_result_ref`: only the two keys it names are read. -/
def parseResultRef (codec : Codec) : Json → Except LeaseError (Option ObjectReference)
  | .null => .ok none
  | .obj fs => do
    let schema ← subscript fs "schema"
    let contentHash ← subscript fs "content_hash"
    let reference ← makeReference codec schema contentHash
    return some reference
  | _ => .error (.valueError "result_ref must be an ObjectReference or mapping")

def validateFailure (codec : Codec) : Json → Except LeaseError (Option TerminalFailure)
  | .null => .ok none
  | v => do
    let fs ← requireObject "failure" v
    forbidExtra fs ["code", "message", "details"]
    let code ← requireString fs "code"
    let message ← requireString fs "message"
    let raw ← requireField fs "details"
    let details ← codec.validateStrictJson raw
    let failure ← TerminalFailure.make code message details
    return some failure

/-- A missing optional field is `None`. -/
def optionalField (fs : Fields) (name : String) : Json := (lookupField fs name).getD .null

/-- `Terminal.model_validate_json`, after the text has been read as JSON. -/
def modelValidate (codec : Codec) (v : Json) : Except LeaseError Terminal := do
  let fs ← requireObject "Terminal" v
  -- what is no `ValueError` is raised at once, whatever is wrong with the other fields
  let resultRef ← parseResultRef codec (optionalField fs "result_ref")
  forbidExtra fs ["request", "outcome", "owner_id", "attempt_id", "fence", "result_ref", "failure"]
  let rawRequest ← requireField fs "request"
  let request ← validateRequest rawRequest
  let outcomeText ← requireString fs "outcome"
  let outcome ← outcomeOf outcomeText
  let ownerId ← requireString fs "owner_id"
  let attemptId ← requireString fs "attempt_id"
  let fence ← requireInt fs "fence"
  let failure ← validateFailure codec (optionalField fs "failure")
  Terminal.make request outcome ownerId attemptId fence resultRef failure

/-! ## Encoding a row -/

def timestampText : Option Datetime → SqlValue
  | none => .null
  | some t => .text t.isoformat

def terminalText (codec : Codec) : Option Terminal → SqlValue
  | none => .null
  | some t => .text (dumps codec.floatRepr (modelDump t))

/-- `_row_insert_values`: the key and the other columns. -/
def rowInsertValues (codec : Codec) (row : LeaseRow) : String × RawRow :=
  (row.request.semanticKey,
    { requestHash := .text row.request.requestHash
      replayPolicy := .text (replayPolicyValue row.request.replayPolicy)
      state := .text (stateValue row.state)
      ownerId := .text row.ownerId
      attemptId := .text row.attemptId
      fence := .integer row.fence
      expiresAt := timestampText row.expiresAt
      terminalJson := terminalText codec row.terminal })

def rowUpdateValues (codec : Codec) (row : LeaseRow) : RawRow := (rowInsertValues codec row).2

def rowMatchValues (codec : Codec) (row : LeaseRow) : RawRow where
  requestHash := .text row.request.requestHash
  replayPolicy := .text (replayPolicyValue row.request.replayPolicy)
  state := .text (stateValue row.state)
  ownerId := .text row.ownerId
  attemptId := .text row.attemptId
  fence := .integer row.fence
  expiresAt := timestampText row.expiresAt
  terminalJson := terminalText codec row.terminal

/-- An update writes the columns that a later match expects. -/
theorem rowMatchValues_eq (codec : Codec) (row : LeaseRow) :
    rowMatchValues codec row = rowUpdateValues codec row := rfl

/-! ## Decoding a row -/

def requirePersistedText (value : SqlValue) (field : String) : Except LeaseError String :=
  match value with
  | .text s => .ok s
  | _ => .error (.corruption ("persisted " ++ field ++ " must have text storage"))

def requirePersistedInteger (value : SqlValue) (field : String) : Except LeaseError Int :=
  match value with
  | .integer n => .ok n
  | _ => .error (.corruption ("persisted " ++ field ++ " must have integer storage"))

def optionalPersistedText (value : SqlValue) (field : String) :
    Except LeaseError (Option String) :=
  match value with
  | .null => .ok none
  | value => (requirePersistedText value field).map some

def fromisoformat (codec : Codec) (text : String) : Except LeaseError ClockReading :=
  match readIso text with
  | some t => .ok ⟨t, some 0⟩
  | none => codec.otherIso text

def parseTimestamp (codec : Codec) : Option String → Except LeaseError (Option ClockReading)
  | none => .ok none
  | some text => (fromisoformat codec text).map some

def parseTerminal (codec : Codec) : Option String → Except LeaseError (Option Terminal)
  | none => .ok none
  | some text => do
    codec.decodeStrictJson text
    let v ← codec.readJson text
    let terminal ← modelValidate codec v
    return some terminal

/-- `row.lease()` on a decoded row, whose expiry may still be naive or not UTC. -/
def activeLease (request : LeaseRequest) (ownerId attemptId : String) (fence : Int) :
    Option ClockReading → Except LeaseError Lease
  | none => .error (.corruption "row is not an active lease")
  | some reading => do
    let expiresAt ← requireUtc reading "expires_at"
    Lease.make request ownerId attemptId fence expiresAt

def decodeRow (codec : Codec) (semanticKey : String) :
    Option RawRow → Except LeaseError (Option LeaseRow)
  | none => .ok none
  | some raw => do
    let requestHash ← requirePersistedText raw.requestHash "request_hash"
    let policyText ← requirePersistedText raw.replayPolicy "replay_policy"
    let stateText ← requirePersistedText raw.state "state"
    let ownerId ← requirePersistedText raw.ownerId "owner_id"
    let attemptId ← requirePersistedText raw.attemptId "attempt_id"
    let fence ← requirePersistedInteger raw.fence "fence"
    let expiresText ← optionalPersistedText raw.expiresAt "expires_at"
    let terminalText ← optionalPersistedText raw.terminalJson "terminal_json"
    let replayPolicy ← replayPolicyOf policyText
    let request ← LeaseRequest.make semanticKey requestHash replayPolicy
    let expiresAt ← parseTimestamp codec expiresText
    let terminal ← parseTerminal codec terminalText
    let state ← stateOf stateText
    if state = .leased then
      match terminal with
      | some _ => throw (.corruption "persisted lease contains a terminal record")
      | none => do
        let lease ← activeLease request ownerId attemptId fence expiresAt
        return some (.leased lease)
    else if expiresAt.isSome then
      throw (.corruption "persisted terminal contains a lease expiration")
    else match terminal with
    | none => throw (.corruption "persisted terminal state and record disagree")
    | some t =>
      if outcomeValue t.outcome ≠ stateValue state then
        throw (.corruption "persisted terminal state and record disagree")
      else if t.request ≠ request ∨ t.ownerId ≠ ownerId ∨ t.attemptId ≠ attemptId ∨
          t.fence ≠ fence then
        throw (.corruption "persisted terminal metadata and row disagree")
      else return some ⟨request, state, ownerId, attemptId, fence, none, some t⟩

/-! ## Round trips -/

/-- The codec reads back the texts of terminal records, and leaves validated details as they
are. -/
structure Codec.Faithful (codec : Codec) : Prop where
  decodes : ∀ t, codec.decodeStrictJson (dumps codec.floatRepr (modelDump t)) = .ok ()
  reads : ∀ t, codec.readJson (dumps codec.floatRepr (modelDump t)) = .ok (modelDump t)
  details : ∀ o : JsonObject, codec.validateStrictJson (.obj o.fields) = .ok o

theorem LeaseRequest.make_self (r : LeaseRequest) :
    LeaseRequest.make r.semanticKey r.requestHash r.replayPolicy = .ok r := by
  rw [LeaseRequest.make, dif_pos r.hash_valid, dif_pos r.key_valid]

theorem TerminalFailure.make_self (f : TerminalFailure) :
    TerminalFailure.make f.code f.message f.details = .ok f := by
  rw [TerminalFailure.make, dif_pos f.code_valid, dif_pos f.message_valid]

theorem Terminal.make_self (t : Terminal) :
    Terminal.make t.request t.outcome t.ownerId t.attemptId t.fence t.resultRef t.failure =
      .ok t := by
  rw [Terminal.make, dif_pos t.owner_valid, dif_pos t.attempt_valid, dif_pos t.fence_valid,
    dif_pos t.shape_valid]

theorem validateRequest_json (r : LeaseRequest) : validateRequest (requestJson r) = .ok r := by
  have h : validateRequest (requestJson r) = (do
      let replayPolicy ← replayPolicyOf (replayPolicyValue r.replayPolicy)
      LeaseRequest.make r.semanticKey r.requestHash replayPolicy) := rfl
  rw [h, replayPolicyOf_value]
  exact LeaseRequest.make_self r

variable {codec : Codec}

theorem parseResultRef_json (r : Option ObjectReference) :
    parseResultRef codec (referenceJson r) = .ok r := by
  cases r with
  | none => rfl
  | some r =>
    have h : parseResultRef codec (referenceJson (some r)) =
        ((ObjectReference.make r.schema r.contentHash).mapError .reference).map some := rfl
    rw [h, ObjectReference.make_self]
    rfl

theorem validateFailure_json (hc : codec.Faithful) (f : Option TerminalFailure) :
    validateFailure codec (failureJson f) = .ok f := by
  cases f with
  | none => rfl
  | some f =>
    have h : validateFailure codec (failureJson (some f)) = (do
        let details ← codec.validateStrictJson (.obj f.details.fields)
        let failure ← TerminalFailure.make f.code f.message details
        return some failure) := rfl
    rw [h, hc.details, ok_bind, TerminalFailure.make_self]
    rfl

theorem modelValidate_modelDump (hc : codec.Faithful) (t : Terminal) :
    modelValidate codec (modelDump t) = .ok t := by
  have h : modelValidate codec (modelDump t) = (do
      let resultRef ← parseResultRef codec (referenceJson t.resultRef)
      let request ← validateRequest (requestJson t.request)
      let outcome ← outcomeOf (outcomeValue t.outcome)
      let failure ← validateFailure codec (failureJson t.failure)
      Terminal.make request outcome t.ownerId t.attemptId t.fence resultRef failure) := rfl
  rw [h, parseResultRef_json, ok_bind, validateRequest_json, ok_bind, outcomeOf_value, ok_bind,
    validateFailure_json hc, ok_bind]
  exact Terminal.make_self t

theorem parseTerminal_text (hc : codec.Faithful) (t : Terminal) :
    parseTerminal codec (some (dumps codec.floatRepr (modelDump t))) = .ok (some t) := by
  rw [parseTerminal, hc.decodes, ok_bind, hc.reads, ok_bind, modelValidate_modelDump hc, ok_bind]
  rfl

theorem fromisoformat_isoformat (t : Datetime) :
    fromisoformat codec t.isoformat = .ok ⟨t, some 0⟩ := by
  rw [fromisoformat, readIso_isoformat]

theorem decodeRow_leased (l : Lease) :
    decodeRow codec l.request.semanticKey (some (rowUpdateValues codec (.leased l))) =
      .ok (some (.leased l)) := by
  have h : decodeRow codec l.request.semanticKey (some (rowUpdateValues codec (.leased l))) = (do
      let replayPolicy ← replayPolicyOf (replayPolicyValue l.request.replayPolicy)
      let request ← LeaseRequest.make l.request.semanticKey l.request.requestHash replayPolicy
      let expiresAt ← (fromisoformat codec l.expiresAt.isoformat).map some
      let lease ← activeLease request l.ownerId l.attemptId l.fence expiresAt
      return some (.leased lease)) := rfl
  rw [h, replayPolicyOf_value, ok_bind, LeaseRequest.make_self, ok_bind, fromisoformat_isoformat]
  have hlease : activeLease l.request l.ownerId l.attemptId l.fence (some ⟨l.expiresAt, some 0⟩) =
      Lease.make l.request l.ownerId l.attemptId l.fence l.expiresAt := rfl
  simp only [Except.map, ok_bind, hlease, Lease.make_self]
  rfl

theorem decodeRow_terminalized (hc : codec.Faithful) (t : Terminal) :
    decodeRow codec t.request.semanticKey (some (rowUpdateValues codec (.terminalized t))) =
      .ok (some (.terminalized t)) := by
  have h : decodeRow codec t.request.semanticKey
      (some (rowUpdateValues codec (.terminalized t))) = (do
      let replayPolicy ← replayPolicyOf (replayPolicyValue t.request.replayPolicy)
      let request ← LeaseRequest.make t.request.semanticKey t.request.requestHash replayPolicy
      let terminal ← parseTerminal codec (some (dumps codec.floatRepr (modelDump t)))
      let state ← stateOf (stateValue (.ofTerminal t.outcome))
      if state = .leased then
        match terminal with
        | some _ => throw (.corruption "persisted lease contains a terminal record")
        | none => do
          let lease ← activeLease request t.ownerId t.attemptId t.fence none
          return some (.leased lease)
      else match terminal with
      | none => throw (.corruption "persisted terminal state and record disagree")
      | some u =>
        if outcomeValue u.outcome ≠ stateValue state then
          throw (.corruption "persisted terminal state and record disagree")
        else if u.request ≠ request ∨ u.ownerId ≠ t.ownerId ∨ u.attemptId ≠ t.attemptId ∨
            u.fence ≠ t.fence then
          throw (.corruption "persisted terminal metadata and row disagree")
        else return some ⟨request, state, t.ownerId, t.attemptId, t.fence, none, some u⟩) := rfl
  have hstate := ofTerminal_ne_leased t.outcome
  rw [h, replayPolicyOf_value, ok_bind, LeaseRequest.make_self, ok_bind, parseTerminal_text hc,
    ok_bind, stateOf_value, ok_bind, if_neg hstate]
  simp only [stateValue_ofTerminal, ne_eq, not_true_eq_false, or_self, if_false]
  rfl

/-! ## What decodes at all -/

/-- **Only the two legal shapes decode**: everything else raises. -/
theorem decodeRow_shape {key : String} {raw : RawRow} {out : Option LeaseRow}
    (h : decodeRow codec key (some raw) = .ok out) :
    (∃ l, out = some (.leased l)) ∨ ∃ t, out = some (.terminalized t) := by
  obtain ⟨requestHash, _, h⟩ := bind_ok h
  obtain ⟨policyText, _, h⟩ := bind_ok h
  obtain ⟨stateText, _, h⟩ := bind_ok h
  obtain ⟨ownerId, _, h⟩ := bind_ok h
  obtain ⟨attemptId, _, h⟩ := bind_ok h
  obtain ⟨fence, _, h⟩ := bind_ok h
  obtain ⟨expiresText, _, h⟩ := bind_ok h
  obtain ⟨terminalText, _, h⟩ := bind_ok h
  obtain ⟨replayPolicy, _, h⟩ := bind_ok h
  obtain ⟨request, _, h⟩ := bind_ok h
  obtain ⟨expiresAt, _, h⟩ := bind_ok h
  obtain ⟨terminal, _, h⟩ := bind_ok h
  obtain ⟨state, _, h⟩ := bind_ok h
  split at h
  · cases terminal with
    | some t => cases h
    | none =>
      obtain ⟨lease, _, h⟩ := bind_ok h
      exact .inl ⟨lease, (pure_ok h).symm⟩
  · split at h
    · cases h
    · cases terminal with
      | none => cases h
      | some t =>
        simp only at h
        split at h
        · cases h
        · rename_i houtcome
          split at h
          · cases h
          · rename_i hmetadata
            simp only [not_or, not_not] at houtcome hmetadata
            obtain ⟨rfl, rfl, rfl, rfl⟩ := hmetadata
            have hstate : state = .ofTerminal t.outcome := by
              rw [← stateValue_ofTerminal] at houtcome
              exact (stateValue_inj houtcome).symm
            subst hstate
            exact .inr ⟨t, (pure_ok h).symm⟩

/-- What a row that decodes is like. -/
structure WellShaped (row : LeaseRow) : Prop where
  expiry : row.state = .leased ↔ row.expiresAt.isSome = true
  active : row.state = .leased ↔ row.terminal = none
  outcome : ∀ t, row.terminal = some t → outcomeValue t.outcome = stateValue row.state
  metadata : ∀ t, row.terminal = some t → t.request = row.request ∧ t.ownerId = row.ownerId ∧
    t.attemptId = row.attemptId ∧ t.fence = row.fence

theorem wellShaped_leased (l : Lease) : WellShaped (.leased l) := by
  refine ⟨by simp [LeaseRow.leased], by simp [LeaseRow.leased], ?_, ?_⟩ <;>
    · intro t ht
      cases ht

theorem wellShaped_terminalized (t : Terminal) : WellShaped (.terminalized t) := by
  have hstate : StoredState.ofTerminal t.outcome ≠ .leased := ofTerminal_ne_leased t.outcome
  refine ⟨by simp [LeaseRow.terminalized, hstate], by simp [LeaseRow.terminalized, hstate], ?_, ?_⟩
  · intro t' ht
    cases ht
    exact (stateValue_ofTerminal t.outcome).symm
  · intro t' ht
    cases ht
    exact ⟨rfl, rfl, rfl, rfl⟩

/-- A row as the constructors build it. -/
def Built (row : LeaseRow) : Prop :=
  (∃ lease, row = .leased lease) ∨ ∃ terminal, row = .terminalized terminal

/-- **Rows survive their encoding, and malformed columns are refused.** A built row is read back
from its insert values, and matches what is stored; whatever decodes is of a legal shape. -/
theorem lease_rows_round_trip (hc : codec.Faithful) :
    (∀ row, Built row →
      decodeRow codec (rowInsertValues codec row).1 (some (rowInsertValues codec row).2) =
        .ok (some row) ∧
      rowUpdateValues codec row = (rowInsertValues codec row).2 ∧
      ∀ decoded, decodeRow codec (rowInsertValues codec row).1
        (some (rowInsertValues codec row).2) = .ok (some decoded) →
        rowMatchValues codec decoded = (rowInsertValues codec row).2) ∧
    (∀ key raw out, decodeRow codec key (some raw) = .ok out →
      ∃ row, out = some row ∧ Built row ∧ WellShaped row) := by
  refine ⟨?_, ?_⟩
  · intro row hrow
    have hdecode : decodeRow codec (rowInsertValues codec row).1
        (some (rowInsertValues codec row).2) = .ok (some row) := by
      rcases hrow with ⟨l, rfl⟩ | ⟨t, rfl⟩
      · exact decodeRow_leased l
      · exact decodeRow_terminalized hc t
    refine ⟨hdecode, rfl, ?_⟩
    intro decoded hdecoded
    rw [hdecode] at hdecoded
    cases hdecoded
    rfl
  · intro key raw out h
    rcases decodeRow_shape h with ⟨l, rfl⟩ | ⟨t, rfl⟩
    · exact ⟨_, rfl, .inl ⟨l, rfl⟩, wellShaped_leased l⟩
    · exact ⟨_, rfl, .inr ⟨t, rfl⟩, wellShaped_terminalized t⟩

/-- A codec that reads JSON text with the parser of `JsonText`. -/
def parserCodec : Codec where
  floatRepr := binaryRepr
  decodeStrictJson text :=
    match parse binaryRead text with
    | some _ => .ok ()
    | none => .error (.valueError "Invalid JSON")
  readJson text :=
    match parse binaryRead text with
    | some v => .ok v
    | none => .error (.valueError "Invalid JSON")
  validateStrictJson v :=
    match v with
    | .obj fields =>
      if h : (Json.obj fields).canonical = true then .ok ⟨fields, h⟩
      else .error (.valueError "details must be in key order")
    | _ => .error (.valueError "details must be a JSON object")
  otherIso _ := .error (.valueError "Invalid isoformat string")

theorem parserCodec_faithful : parserCodec.Faithful where
  decodes := by
    intro t
    have h := parse_dumps binaryText (modelDump t)
    simp only [parserCodec, h]
  reads := by
    intro t
    have h := parse_dumps binaryText (modelDump t)
    simp only [parserCodec, h]
  details := by
    intro o
    simp only [parserCodec, o.canonical, dite_true]

theorem lease_rows_round_trip_parsed : parserCodec.Faithful ∧ ∀ terminal : Terminal,
    decodeRow parserCodec terminal.request.semanticKey
      (some (rowInsertValues parserCodec (.terminalized terminal)).2) =
        .ok (some (.terminalized terminal)) :=
  ⟨parserCodec_faithful, fun terminal =>
    ((lease_rows_round_trip parserCodec_faithful).1 _ (.inr ⟨terminal, rfl⟩)).1⟩

/-- A hash that is no text is refused. -/
example : decodeRow parserCodec "job" (some ⟨.integer 1, .text "idempotent", .text "leased",
    .text "owner", .text "attempt", .integer 1, .text "1970-01-01T00:00:00.000000+00:00", .null⟩) =
      .error (.corruption "persisted request_hash must have text storage") := rfl

end DrStore.Leases.RowEncoding
