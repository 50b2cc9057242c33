import DrStore.Store.Contract

/-! # The object store (object_store.py)

Every method checks its arguments, makes at most one backend call and works on the reply: its
model is a `Plan`. The serializer is a parameter, and so is SHA-256. A backend call may raise,
with or without having taken effect. The enlisted variants are the same methods on a caller's
connection and are left out. -/
namespace DrStore.Store.ObjectStore
open DrStore.Base.Collections DrStore.Base.Runs DrStore.Store.ContentAddressing
open DrStore.Store.Contract

/-! ## The serializer -/

/-- dr-serialize, `json.loads` and SHA-256; `none` where the original raises. -/
structure DrSerialize where
  Jsonable : Type
  validateStrictJson : Jsonable → Option Jsonable
  canonicalJson : Jsonable → Option String
  loads : String → Option Jsonable
  sha256 : String → Digest

/-- Parsing the canonical text of a validated record yields the record. -/
structure DrSerialize.Lawful (D : DrSerialize) : Prop where
  parses : ∀ {record validated : D.Jsonable} {canonical : String},
    D.validateStrictJson record = some validated → D.canonicalJson validated = some canonical →
    (D.loads canonical).bind D.validateStrictJson = some validated

variable (D : DrSerialize)

structure PreparedRecord where
  canonical : String
  contentHash : Digest

def prepareRecord (record : D.Jsonable) : Except StoreError PreparedRecord :=
  match D.validateStrictJson record with
  | none => .error .strictJson
  | some validated => match D.canonicalJson validated with
    | none => .error .jsonEncode
    | some canonical => .ok ⟨canonical, D.sha256 canonical⟩

/-! ## Operations -/

inductive PutStatus where
  | stored
  | idempotent
deriving DecidableEq

inductive BindStatus where
  | bound
  | idempotent
deriving DecidableEq

inductive EvictStatus where
  | evicted
  | absent
deriving DecidableEq

/-- A call of a public method. A `put_many` mapping has distinct keys. -/
inductive Op where
  | put (schema : String) (record : D.Jsonable)
  | get (reference : ObjectReference)
  | getMany (keys : List String) (schema : String)
  | putMany (entries : Dict String (String × D.Jsonable))
  | bind (key : String) (reference : ObjectReference)
  | resolve (key : String)
  | evictBindings (keys : List String)

/-- What it returns. A `StoreHit` is its record. -/
inductive Result where
  | put (reference : ObjectReference) (status : PutStatus)
  | get (record : D.Jsonable)
  | getMany (hits : Dict String (Option D.Jsonable))
  | putMany (winners : Dict String ObjectReference)
  | bind (status : BindStatus)
  | resolve (reference : Option ObjectReference)
  | evictBindings (statuses : Dict String EvictStatus)

/-- A method after its checks: done, or one backend call and what to make of the reply. -/
inductive Plan where
  | done (result : Result D)
  | ask (call : Call) (finish : Reply → Except StoreError (Result D))

variable {D}

def putFromPrepared (schema : String) (prepared : PreparedRecord) (outcome : PutOutcome) :
    Except StoreError (Result D) := do
  let reference ← ObjectReference.make schema prepared.contentHash.text
  if outcome.inserted then return .put reference .stored
  if outcome.storedCanonical = prepared.canonical then return .put reference .idempotent
  throw (.objectConflict schema reference.contentHash)

/-- A reply of another kind than the call's does not occur; it is an assertion failure here. -/
def put (schema : String) (record : D.Jsonable) : Except StoreError (Plan D) := do
  let _ ← validateReferenceSchema schema
  let prepared ← prepareRecord D record
  return .ask (.putObject schema prepared.contentHash.text prepared.canonical) fun
    | .put outcome => putFromPrepared schema prepared outcome
    | _ => .error .assertionError

def verifyStoredRecord (reference : ObjectReference) (storedSchema canonical : String) :
    Except StoreError D.Jsonable :=
  if storedSchema ≠ reference.schema then
    .error (.schemaMismatch reference.schema storedSchema)
  else match (D.loads canonical).bind D.validateStrictJson with
  | none => .error (.contentHashMismatch reference.contentHash reference.schema .invalidJson none)
  | some record => match D.canonicalJson record with
    | none => .error (.contentHashMismatch reference.contentHash reference.schema
        .nonCanonicalProfile none)
    | some verifiedCanonical =>
      let actualHash := (D.sha256 verifiedCanonical).text
      if actualHash ≠ reference.contentHash then
        .error (.contentHashMismatch reference.contentHash reference.schema .hashMismatch
          (some actualHash))
      else if verifiedCanonical ≠ canonical then
        .error (.contentHashMismatch reference.contentHash reference.schema .nonCanonicalForm none)
      else .ok record

def get (reference : ObjectReference) : Except StoreError (Plan D) :=
  return .ask (.getObject reference.schema reference.contentHash) fun
    | .object none => .error (.objectNotFound reference)
    | .object (some (storedSchema, canonical)) => do
      return .get (← verifyStoredRecord reference storedSchema canonical)
    | _ => .error .assertionError

def verifiedHits (validatedSchema : String) (rows : Dict String BoundObjectRow) : List String →
    Dict String (Option D.Jsonable) → Except StoreError (Dict String (Option D.Jsonable))
  | [], results => .ok results
  | key :: distinct, results => match rows.get? key with
    | none => verifiedHits validatedSchema rows distinct (results.set key none)
    | some row => do
      let reference ← ObjectReference.make row.bindingSchema row.bindingContentHash
      if reference.schema ≠ validatedSchema then
        throw (.schemaMismatch validatedSchema reference.schema)
      match row.canonical with
      | none => throw (.objectNotFound reference)
      | some canonical =>
        let record ← verifyStoredRecord reference row.bindingSchema canonical
        verifiedHits validatedSchema rows distinct (results.set key (some record))

def getMany (keys : List String) (schema : String) : Except StoreError (Plan D) := do
  let validatedSchema ← validateReferenceSchema schema
  let distinct := keys.eraseDups
  validateKeys distinct
  return .ask (.getBoundObjects distinct) fun
    | .rows rows => do return .getMany (← verifiedHits validatedSchema rows distinct Dict.empty)
    | _ => .error .assertionError

/-- The rows of a batch, in the order of the mapping. -/
def prepareWrites : List (String × String × D.Jsonable) → Except StoreError (List BoundObjectWrite)
  | [] => return []
  | (key, schema, record) :: entries => do
    let _ ← validateBindingKey key
    let prepared ← prepareRecord D record
    let reference ← ObjectReference.make schema prepared.contentHash.text
    let writes ← prepareWrites entries
    return ⟨key, reference.schema, reference.contentHash, prepared.canonical⟩ :: writes

def winners : List (String × BindOutcome) → Dict String ObjectReference →
    Except StoreError (Dict String ObjectReference)
  | [], results => return results
  | (key, outcome) :: outcomes, results => do
    let reference ← ObjectReference.make outcome.existingSchema outcome.existingContentHash
    winners outcomes (results.set key reference)

def putMany (entries : Dict String (String × D.Jsonable)) : Except StoreError (Plan D) := do
  let writes ← prepareWrites entries.items
  return .ask (.putBoundObjects writes) fun
    | .outcomes outcomes => do return .putMany (← winners outcomes.items Dict.empty)
    | _ => .error .assertionError

def bind (key : String) (reference : ObjectReference) : Except StoreError (Plan D) := do
  let _ ← validateBindingKey key
  return .ask (.bind key reference.schema reference.contentHash) fun
    | .bind outcome => do
      if outcome.bound then return .bind .bound
      let existing ← ObjectReference.make outcome.existingSchema outcome.existingContentHash
      if existing = reference then return .bind .idempotent
      throw (.bindingConflict key existing reference)
    | _ => .error .assertionError

def resolve (key : String) : Except StoreError (Plan D) := do
  let _ ← validateBindingKey key
  return .ask (.getBinding key) fun
    | .binding none => return .resolve none
    | .binding (some bound) => do
      return .resolve (some (← ObjectReference.make bound.1 bound.2))
    | _ => .error .assertionError

def evictBindings (keys : List String) : Except StoreError (Plan D) := do
  let distinct := keys.eraseDups
  validateKeys distinct
  if distinct = [] then return .done (.evictBindings Dict.empty)
  return .ask (.deleteBindings distinct) fun
    | .deleted deleted => return .evictBindings (Dict.collect distinct fun key =>
        some (if key ∈ deleted then .evicted else .absent))
    | _ => .error .assertionError

def plan : Op D → Except StoreError (Plan D)
  | .put schema record => put schema record
  | .get reference => get reference
  | .getMany keys schema => getMany keys schema
  | .putMany entries => putMany entries
  | .bind key reference => bind key reference
  | .resolve key => resolve key
  | .evictBindings keys => evictBindings keys

/-! ## Runs over a backend -/

/-- What may go wrong with a backend call: it never took effect, or it did and still raised. -/
inductive Fault where
  | none
  | lost
  | raised
deriving DecidableEq

structure Event (D : DrSerialize) where
  op : Op D
  fault : Fault

def ask (B : Backend) (s : B.State) (call : Call) : Fault → B.State × Except StoreError Reply
  | .none => B.step s call
  | .lost => (s, .error .backend)
  | .raised => ((B.step s call).1, .error .backend)

def step (B : Backend) (s : B.State) (e : Event D) : B.State × Except StoreError (Result D) :=
  match plan e.op with
  | .error err => (s, .error err)
  | .ok (.done result) => (s, .ok result)
  | .ok (.ask call finish) =>
    let (s', out) := ask B s call e.fault
    (s', out.bind finish)

def machine (D : DrSerialize) (B : Backend) :
    Machine B.State (Event D) (Except StoreError (Result D)) := ⟨step B⟩

end DrStore.Store.ObjectStore
