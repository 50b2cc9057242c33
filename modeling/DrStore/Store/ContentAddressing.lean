import DrStore.Base.PyText
import Mathlib.Algebra.Ring.Int.Defs
import Mathlib.Algebra.Ring.Nat
import Mathlib.Order.Lattice

/-! # References and their validation (content_addressing.py, store_errors.py)

An object reference is a schema name and a 64-digit lowercase hex hash; the structure carries
both checks, so an unvalidated reference cannot be built. Python strings may hold unpaired
surrogates, Lean strings may not: of the storage-text check only the NUL test remains. -/
namespace DrStore.Store.ContentAddressing
open DrStore.Base.PyText (pyRepr)

def contentHashLength : Nat := 64

def hexDigits : List Char := "0123456789abcdef".toList

def isContentHash (value : String) : Bool :=
  value.length == contentHashLength && value.toList.all (hexDigits.contains ·)

def isStorageText (value : String) : Bool := !value.toList.contains '\x00'

def isReferenceSchema (schema : String) : Bool := schema != "" && isStorageText schema

structure ObjectReference where
  schema : String
  contentHash : String
  schema_valid : isReferenceSchema schema = true
  hash_valid : isContentHash contentHash = true
deriving DecidableEq

/-- A SHA-256 hexdigest. -/
structure Digest where
  text : String
  valid : isContentHash text = true
deriving DecidableEq

theorem Digest.text_inj {a b : Digest} (h : a.text = b.text) : a = b := by
  cases a
  cases b
  cases h
  rfl

inductive ContentMismatchReason where
  | hashMismatch
  | invalidJson
  | nonCanonicalProfile
  | nonCanonicalForm
deriving DecidableEq

/-- Everything the store raises about references, content and bindings, and what passes through
it: a failed `assert`, the serializer's two errors, a backend that is out of order. -/
inductive StoreError where
  | referenceValidation (message : String)
  | contentHashMismatch (expected schema : String) (reason : ContentMismatchReason)
      (actual : Option String)
  | schemaMismatch (expected actual : String)
  | objectNotFound (reference : ObjectReference)
  | objectConflict (schema contentHash : String)
  | bindingConflict (key : String) (existing requested : ObjectReference)
  | assertionError
  | strictJson
  | jsonEncode
  | backend
deriving DecidableEq

def storageTextError (name : String) : StoreError :=
  .referenceValidation (name ++ " must not contain NUL or unpaired surrogate code points")

/-- What an invalid schema raises: the empty string first, then the storage-text check. -/
def schemaError (schema : String) : StoreError :=
  if schema = "" then .referenceValidation "ObjectReference schema must be a non-empty string"
  else storageTextError "ObjectReference schema"

/-- With the `repr` of what is no content hash. -/
def invalidContentHash (got : String) : StoreError :=
  .referenceValidation ("content hash must be a 64-character lowercase hex SHA-256 hash, got " ++ got)

def contentHashError (contentHash : String) : StoreError := invalidContentHash (pyRepr contentHash)

def validateReferenceSchema (schema : String) : Except StoreError String :=
  if isReferenceSchema schema then .ok schema else .error (schemaError schema)

def validateBindingKey (key : String) : Except StoreError String :=
  if isStorageText key then .ok key else .error (storageTextError "binding key")

def validateContentHash (contentHash : String) : Except StoreError String :=
  if isContentHash contentHash then .ok contentHash else .error (contentHashError contentHash)

/-- `ObjectReference(schema=..., content_hash=...)`, which validates in `__post_init__`. -/
def ObjectReference.make (schema contentHash : String) : Except StoreError ObjectReference :=
  if hs : isReferenceSchema schema = true then
    if hh : isContentHash contentHash = true then .ok ⟨schema, contentHash, hs, hh⟩
    else .error (contentHashError contentHash)
  else .error (schemaError schema)

@[simp] theorem ObjectReference.make_self (r : ObjectReference) :
    make r.schema r.contentHash = .ok r := by
  rw [make, dif_pos r.schema_valid, dif_pos r.hash_valid]

end DrStore.Store.ContentAddressing
