import DrStore.Store.ObjectStore

/-! # The record cache (record_cache/cache.py)

Memoization over the object store: reads turn whatever is absent, of another schema or
unverifiable into a miss and count the last kind, writes keep the first winner of a key. A
backend call may raise, with or without having taken effect. Key derivation and logging are left
out. -/
namespace DrStore.Store.RecordCache
open DrStore.Base.Collections DrStore.Base.Runs DrStore.Store.ContentAddressing
open DrStore.Store.Contract DrStore.Store.ObjectStore

variable {D : DrSerialize}

/-- The calls of the cache, and the store's `evict_bindings`. -/
inductive CacheOp (D : DrSerialize) where
  | get (key schema : String)
  | getMany (keys : List String) (schema : String)
  | put (key schema : String) (record : D.Jsonable)
  | putMany (entries : Dict String (String × D.Jsonable))
  | evictBindings (keys : List String)

/-- What they return. A `CacheHit` is its record. -/
inductive CacheResult (D : DrSerialize) where
  | get (hit : Option D.Jsonable)
  | getMany (hits : Dict String (Option D.Jsonable))
  | put (reference : ObjectReference)
  | putMany (winners : Dict String ObjectReference)
  | evictBindings (statuses : Dict String EvictStatus)

/-- A call, and what goes wrong with its backend call. -/
structure CacheEvent (D : DrSerialize) where
  op : CacheOp D
  fault : Fault

structure Cache (B : Backend) where
  store : B.State
  corruptionCount : Nat

/-! ## Reads -/

/-- The errors a read takes for corruption of the stored data. -/
def isCorruption : StoreError → Bool
  | .contentHashMismatch .. | .objectNotFound _ | .referenceValidation _
  | .schemaMismatch .. => true
  | _ => false

/-- The body of the `try`: a hit, a miss, or an error. -/
def readRow (validatedSchema : String) (row : BoundObjectRow) :
    Except StoreError (Option D.Jsonable) := do
  let reference ← ObjectReference.make row.bindingSchema row.bindingContentHash
  if reference.schema ≠ validatedSchema then return none
  match row.canonical with
  | none => return none
  | some canonical =>
    let record ← verifyStoredRecord reference row.bindingSchema canonical
    return some record

/-- The loop over the keys, with the corruption count. -/
def readRows (validatedSchema : String) (rows : Dict String BoundObjectRow) : List String →
    Nat → Dict String (Option D.Jsonable) →
    Nat × Except StoreError (Dict String (Option D.Jsonable))
  | [], count, results => (count, .ok results)
  | key :: keys, count, results => match rows.get? key with
    | none => readRows validatedSchema rows keys count (results.set key none)
    | some row => match readRow validatedSchema row with
      | .ok hit => readRows validatedSchema rows keys count (results.set key hit)
      | .error e =>
        if isCorruption e then
          readRows validatedSchema rows keys (count + 1) (results.set key none)
        else (count, .error e)

/-- `ObjectStore.get_bound_objects`. -/
def getBoundObjects (B : Backend) (s : B.State) (keys : List String) (fault : Fault) :
    B.State × Except StoreError (Dict String BoundObjectRow) :=
  let distinct := keys.eraseDups
  match validateKeys distinct with
  | .error e => (s, .error e)
  | .ok _ =>
    let (s', out) := ask B s (.getBoundObjects distinct) fault
    (s', out.bind fun
      | .rows rows => .ok rows
      | _ => .error .assertionError)

/-- `_get_many`. -/
def readMany (B : Backend) (c : Cache B) (keys : List String) (schema : String) (fault : Fault) :
    Cache B × Except StoreError (Dict String (Option D.Jsonable)) :=
  match (do let validatedSchema ← validateReferenceSchema schema
            validateKeys keys
            return validatedSchema) with
  | .error e => (c, .error e)
  | .ok validatedSchema => match getBoundObjects B c.store keys fault with
    | (s, .error e) => ({ c with store := s }, .error e)
    | (s, .ok rows) =>
      let (count, out) := readRows validatedSchema rows keys c.corruptionCount Dict.empty
      (⟨s, count⟩, out)

/-- `mapping[key]`. A missing key does not occur; it is an assertion failure here. -/
def subscript {ν : Type} (mapping : Dict String ν) (key : String) : Except StoreError ν :=
  match mapping.get? key with
  | some v => .ok v
  | none => .error .assertionError

/-! ## Calls -/

/-- A call of the store below, and what to make of its result. -/
def storeCall (B : Backend) (c : Cache B) (op : Op D) (fault : Fault)
    (finish : Result D → Except StoreError (CacheResult D)) :
    Cache B × Except StoreError (CacheResult D) :=
  let (s, out) := ObjectStore.step B c.store ⟨op, fault⟩
  ({ c with store := s }, out.bind finish)

def cacheStep (B : Backend) (c : Cache B) (e : CacheEvent D) :
    Cache B × Except StoreError (CacheResult D) :=
  match e.op with
  | .get key schema =>
    let (c', out) := readMany B c [key] schema e.fault
    (c', do return .get (← subscript (← out) key))
  | .getMany keys schema =>
    let (c', out) := readMany B c keys.eraseDups schema e.fault
    (c', do return .getMany (← out))
  | .put key schema record =>
    storeCall B c (.putMany (Dict.empty.set key (schema, record))) e.fault fun
      | .putMany winners => do return .put (← subscript winners key)
      | _ => .error .assertionError
  | .putMany entries => storeCall B c (.putMany entries) e.fault fun
      | .putMany winners => .ok (.putMany winners)
      | _ => .error .assertionError
  | .evictBindings keys => storeCall B c (.evictBindings keys) e.fault fun
      | .evictBindings statuses => .ok (.evictBindings statuses)
      | _ => .error .assertionError

def cache (D : DrSerialize) (B : Backend) :
    Machine (Cache B) (CacheEvent D) (Except StoreError (CacheResult D)) := ⟨cacheStep B⟩

end DrStore.Store.RecordCache
