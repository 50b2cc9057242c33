import DrStore.Base.PyJson
import DrStore.Documents.CanonicalJson

/-! # Documents and their bytes (document_file/canonical_json.py, `publish` and `read`)

What stands before the bytes in `publish` and after them in `read`. The serializer is a parameter:
documents of any type are validated to JSON values, values have canonical bytes, and decoding is
bounded by a number of bytes and a nesting depth. -/
namespace DrStore.Documents.Decoding
open DrStore.Base.PyJson DrStore.Base.Programs DrStore.Documents.FileSystem
open DrStore.Documents.CanonicalJson

/-- Why decoding raises: a byte or depth limit, or anything else. -/
inductive DecodeFailure where
  | limit
  | invalid
deriving DecidableEq

def DecodeFailure.reason : DecodeFailure → RegularChildFailureReason
  | .limit => .boundsExceeded
  | .invalid => .mismatch

/-- The serializer; `document` is a decoded value as a document. -/
structure Serialization (D : Type) where
  document : Json → D
  validateStrictJson : D → Option Json
  canonicalJsonBytes : Json → Option Bytes
  decodeStrictJsonBytes : Bytes → (maxBytes maxDepth : Nat) → Except DecodeFailure Json

variable {T D : Type}

/-- A configured file with both bounds. -/
structure BoundedFile extends CanonicalJsonFile where
  maxDepth : Nat

/-- The encode stage of `publish`. -/
def encodeDocument (S : Serialization D) (file : BoundedFile) (document : D) : Option Bytes := do
  let validated ← S.validateStrictJson document
  let encoded ← S.canonicalJsonBytes validated
  match S.decodeStrictJsonBytes encoded file.maxBytes file.maxDepth with
  | .ok _ => some encoded
  | .error _ => none

def publishDocument (S : Serialization D) (file : BoundedFile) (supported : Bool)
    (temporary : String) (document : D) : Script T DocumentError Answer :=
  publish file.toCanonicalJsonFile supported temporary (encodeDocument S file document)

inductive DocumentReadStage where
  | bytes (stage : ReadStage)
  | decode
  | verifyCanonicality
deriving DecidableEq

structure DocumentReadError where
  stage : DocumentReadStage
  reason : RegularChildFailureReason
deriving DecidableEq

/-- What `read` does with the bytes. -/
def decodeStored (S : Serialization D) (file : BoundedFile) (raw : Bytes) :
    Except DocumentReadError Json :=
  match S.decodeStrictJsonBytes raw file.maxBytes file.maxDepth with
  | .error failure => .error ⟨.decode, failure.reason⟩
  | .ok document =>
    if S.canonicalJsonBytes document = some raw then .ok document
    else .error ⟨.verifyCanonicality, .mismatch⟩

def readDocument (S : Serialization D) (file : BoundedFile) (supported : Bool) :
    Script T DocumentReadError Json :=
  (readBytes file.toCanonicalJsonFile supported).settle fun
    | .ok (.document raw) => .ofExcept (decodeStored S file raw)
    | .error (.read stage reason) => .fail ⟨.bytes stage, reason⟩
    -- `_read_bytes` neither publishes nor answers so
    | .ok .published | .error (.publish _ _) => .fail ⟨.bytes .openDirectory, .mismatch⟩

theorem encodeDocument_ok {S : Serialization D} {file : BoundedFile} {document : D}
    {encoded : Bytes} (h : encodeDocument S file document = some encoded) :
    ∃ validated decoded, S.validateStrictJson document = some validated ∧
      S.canonicalJsonBytes validated = some encoded ∧
      S.decodeStrictJsonBytes encoded file.maxBytes file.maxDepth = .ok decoded := by
  unfold encodeDocument at h
  cases hvalid : S.validateStrictJson document with
  | none =>
    rw [hvalid] at h
    cases h
  | some validated =>
    rw [hvalid] at h
    cases hbytes : S.canonicalJsonBytes validated with
    | none => simp [hbytes] at h
    | some bytes =>
      simp only [hbytes, Option.bind_eq_bind, Option.bind_some] at h
      split at h
      · rename_i decoded hdecoded
        cases h
        exact ⟨validated, decoded, rfl, hbytes, hdecoded⟩
      · cases h

theorem encodeDocument_of_decodes {S : Serialization D} {file : BoundedFile} {document : D}
    {validated decoded : Json} {encoded : Bytes} (hvalid : S.validateStrictJson document = some validated)
    (hbytes : S.canonicalJsonBytes validated = some encoded)
    (hdecoded : S.decodeStrictJsonBytes encoded file.maxBytes file.maxDepth = .ok decoded) :
    encodeDocument S file document = some encoded := by
  simp only [encodeDocument, hvalid, hbytes, hdecoded, Option.bind_eq_bind, Option.bind_some]

theorem decodeStored_ok {S : Serialization D} {file : BoundedFile} {raw : Bytes} {document : Json}
    (h : decodeStored S file raw = .ok document) :
    S.decodeStrictJsonBytes raw file.maxBytes file.maxDepth = .ok document ∧
      S.canonicalJsonBytes document = some raw := by
  unfold decodeStored at h
  split at h
  · cases h
  · rename_i decoded hdecoded
    split at h
    · rename_i hcanonical
      cases h
      exact ⟨hdecoded, hcanonical⟩
    · cases h

end DrStore.Documents.Decoding
