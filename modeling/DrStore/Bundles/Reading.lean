import DrStore.Bundles.Publication
import DrStore.Documents.VerifiedRead

/-! # Bundle reading (artifact_bundle/reading.py)

A reader loads the manifest through the document file, checks its limits, and recovers every
declared artifact by one bounded read that is verified against its descriptor. `consume_and_verify`
hands the bytes to a callback through a facade that has to see the end of them. The model
validation of pydantic is written out for the two models; its JSON parser is a parameter. -/
namespace DrStore.Bundles.Reading
open DrStore.Base.PyJson DrStore.Base.Programs DrStore.Documents.FileSystem
open DrStore.Documents.CanonicalJson DrStore.Documents.Decoding DrStore.Documents.VerifiedRead
open DrStore.Bundles.Models DrStore.Bundles.Publication DrStore.Store.ContentAddressing

abbrev ReadScript (T ε α : Type) := DrStore.Documents.CanonicalJson.Script T ε α

/-! ## Model validation -/

/-- `ArtifactDescriptor.model_validate`: strict types, no other fields, the name check. -/
def ArtifactDescriptor.validate : Json → Option ArtifactDescriptor
  | .obj [("byte_length", .int n), ("name", .str name), ("sha256", .str sha256)] =>
    if h : 0 ≤ n ∧ validateArtifactName name = .ok () ∧ isContentHash sha256 = true then
      some ⟨⟨name, h.2.1⟩, ⟨sha256, h.2.2⟩, n.toNat⟩
    else none
  | _ => none

def BundleManifest.validateFields (artifacts : List Json) (format : String) (payload : Json) :
    Option BundleManifest := do
  if format ≠ bundleFormat then none
  else
    let descriptors ← artifacts.mapM ArtifactDescriptor.validate
    if h : Ordered descriptors then some ⟨descriptors, payload, h⟩ else none

/-- `BundleManifest.model_validate`; the format has a default. -/
def BundleManifest.validate : Json → Option BundleManifest
  | .obj [("artifacts", .arr artifacts), ("format", .str format), ("payload", payload)] =>
    validateFields artifacts format payload
  | .obj [("artifacts", .arr artifacts), ("payload", payload)] =>
    validateFields artifacts bundleFormat payload
  | _ => none

theorem ArtifactDescriptor.validate_dump (d : ArtifactDescriptor) :
    ArtifactDescriptor.validate d.dump = some d := by
  simp only [ArtifactDescriptor.dump, ArtifactDescriptor.validate]
  rw [dif_pos ⟨Int.natCast_nonneg _, d.name.valid, d.sha256.valid⟩]
  rfl

/-- What is dumped is validated back. -/
theorem BundleManifest.validate_dump (m : BundleManifest) :
    BundleManifest.validate m.dump = some m := by
  have hartifacts : (m.artifacts.map ArtifactDescriptor.dump).mapM ArtifactDescriptor.validate =
      some m.artifacts := by
    induction m.artifacts with
    | nil => rfl
    | cons d rest ih => simp [ArtifactDescriptor.validate_dump, ih]
  simp only [BundleManifest.dump, BundleManifest.validate, validateFields, ne_eq, not_true_eq_false,
    if_false, hartifacts, Option.bind_eq_bind, Option.bind_some]
  rw [dif_pos m.ordered]

/-! ## Limits and errors -/

structure BundleReadLimits where
  manifestMaxBytes : Nat
  manifestMaxDepth : Nat
  maxArtifacts : Nat
  maxBytesPerArtifact : Nat
  maxTotalArtifactBytes : Nat

inductive BundleVerificationReason where
  | missing
  | notRegular
  | mismatch
  | boundsExceeded
  | incompleteConsumption
deriving DecidableEq

/-- All carry the bundle's path as well; `os` passes through from `os.fstat`. -/
inductive BundleReadError where
  | read (detail : String)
  | incomplete
  | verification (artifactName : String) (reason : BundleVerificationReason) (detail : String)
  | os (e : OsError)
deriving DecidableEq

def boundsError (artifactName detail : String) : BundleReadError :=
  .verification artifactName .boundsExceeded detail

/-- The stages and reasons that mean that there is no valid manifest. -/
def manifestFailureIsIncomplete (e : DocumentReadError) : Bool :=
  e.stage = .decode || e.stage = .verifyCanonicality || e.reason = .missing ||
    e.reason = .notRegular || e.reason = .boundsExceeded

def verificationReason : RegularChildFailureReason → BundleVerificationReason
  | .missing => .missing
  | .notRegular => .notRegular
  | .mismatch => .mismatch
  | .boundsExceeded => .boundsExceeded

def validateDeclared (limits : BundleReadLimits) :
    Nat → List ArtifactDescriptor → Except BundleReadError Unit
  | _, [] => .ok ()
  | total, d :: rest =>
    if limits.maxBytesPerArtifact < d.byteLength then
      .error (boundsError d.name.text "declared byte length exceeds max_bytes_per_artifact")
    else if limits.maxTotalArtifactBytes < total + d.byteLength then
      .error (boundsError d.name.text "declared total exceeds max_total_artifact_bytes")
    else validateDeclared limits (total + d.byteLength) rest

def validateManifestLimits (manifest : BundleManifest) (limits : BundleReadLimits) :
    Except BundleReadError Unit :=
  match manifest.artifacts[limits.maxArtifacts]? with
  | some firstExcess =>
    .error (boundsError firstExcess.name.text "declared artifact count exceeds max_artifacts")
  | none => validateDeclared limits 0 manifest.artifacts

/-! ## What the bundle takes from elsewhere -/

/-- `textBytes` is UTF-8, `parseJson` pydantic's parser, `depth` what the decoder counts. -/
structure Codec (P : Type) where
  fold : Char → List Char
  textBytes : String → Bytes
  sha256 : Bytes → Digest
  validatePayload : P → Option Json
  serialization : Serialization Json
  depth : Json → Nat
  maxContainerDepth : Nat
  parseJson : Bytes → Option Json

variable {T P : Type}

/-- `CanonicalJsonFile(path, MANIFEST_NAME, ...)`, unless the name is reserved. -/
def manifestFile (L : Codec P) (maxBytes maxDepth : Nat) : Option BoundedFile :=
  if h : isReservedDocumentTempName L.fold manifestName = false then
    some ⟨⟨L.fold, manifestName,
      String.ofList ((L.sha256 (L.textBytes manifestName)).text.toList.take 16), maxBytes, h⟩, maxDepth⟩
  else none

def manifestPublicationMaxBytes : Nat := 1073741824

/-- The publication with this codec. -/
def Codec.environment (L : Codec P) : Environment P where
  fold := L.fold
  sha256 := L.sha256
  validatePayload := L.validatePayload
  validateDocument := L.serialization.validateStrictJson
  encode document := do
    let file ← manifestFile L manifestPublicationMaxBytes L.maxContainerDepth
    encodeDocument L.serialization file document

/-! ## The manifest -/

def loadManifest (L : Codec P) (limits : BundleReadLimits) (supported : Bool) :
    ReadScript T BundleReadError BundleManifest :=
  match manifestFile L limits.manifestMaxBytes limits.manifestMaxDepth with
  | none => .fail (.read "the bundle directory could not be opened")
  | some file => (readDocument L.serialization file supported).settle fun
    | .error e =>
      if manifestFailureIsIncomplete e then .fail .incomplete
      else .fail (.read "the terminal manifest could not be read")
    | .ok document =>
      match ((L.serialization.canonicalJsonBytes document).bind L.parseJson).bind
          BundleManifest.validate with
      | none => .fail .incomplete
      | some manifest => .pure manifest

/-! ## Artifacts -/

def readVerifiedArtifact (L : Codec P) (supported : Bool) (descriptor : ArtifactDescriptor)
    (maxBytes : Nat) : ReadScript T BundleReadError Bytes :=
  if maxBytes < descriptor.byteLength then
    .fail (boundsError descriptor.name.text "the declared child exceeds the remaining byte bound")
  else (readVerifiedRegularChild L.sha256 maxBytes descriptor.byteLength descriptor.sha256.text
      supported descriptor.name.text).settle fun
    | .ok raw => .pure raw
    | .error (.os e) => .fail (.os e)
    | .error .unsupportedPlatform =>
      .fail (.read ("artifact " ++ descriptor.name.text ++ " could not be read"))
    | .error (.reason reason) => .fail (.verification descriptor.name.text
        (verificationReason reason) "the declared child did not verify against the manifest")

def auditArtifacts (L : Codec P) (limits : BundleReadLimits) (supported : Bool) :
    Nat → List ArtifactDescriptor → ReadScript T BundleReadError Unit
  | _, [] => .pure ()
  | verifiedTotal, d :: rest =>
    readVerifiedArtifact L supported d
      (min limits.maxBytesPerArtifact (limits.maxTotalArtifactBytes - verifiedTotal)) >>= fun _ =>
    auditArtifacts L limits supported (verifiedTotal + d.byteLength) rest

def audit (L : Codec P) (limits : BundleReadLimits) (supported : Bool) :
    ReadScript T BundleReadError BundleManifest := do
  let manifest ← loadManifest L limits supported
  Prog.ofExcept (validateManifestLimits manifest limits)
  auditArtifacts L limits supported 0 manifest.artifacts
  return manifest

/-! ## Consumption -/

/-- `VerifyingArtifactReader`, with what its hasher has seen. -/
structure VerifyingArtifactReader where
  content : Bytes
  position : Nat
  hashed : Bytes
  byteLength : Nat
  eof : Bool
  active : Bool

namespace VerifyingArtifactReader

def create (content : Bytes) : VerifyingArtifactReader := ⟨content, 0, [], 0, false, true⟩

def readOnce (r : VerifyingArtifactReader) (requested : Nat) : Bytes × VerifyingArtifactReader :=
  let chunk := (r.content.drop r.position).take requested
  if chunk = [] then ([], { r with eof := true })
  else (chunk, { r with
    position := r.position + chunk.length
    hashed := r.hashed ++ chunk
    byteLength := r.byteLength + chunk.length })

theorem readOnce_remaining (r : VerifyingArtifactReader) (requested : Nat)
    (h : (r.readOnce requested).1 ≠ []) :
    (r.readOnce requested).2.content.length - (r.readOnce requested).2.position <
      r.content.length - r.position := by
  unfold readOnce at h ⊢
  simp only at h ⊢
  split
  · rename_i hnil
    rw [if_pos hnil] at h
    exact absurd rfl h
  · rename_i hchunk
    have hpos : 0 < ((r.content.drop r.position).take requested).length :=
      List.length_pos_iff.mpr hchunk
    have hle := List.length_take_le requested (r.content.drop r.position)
    rw [List.length_take, List.length_drop] at hpos
    simp only [List.length_take, List.length_drop]
    omega

/-- The loop of `read(-1)`. -/
def readToEnd (r : VerifyingArtifactReader) : Bytes × VerifyingArtifactReader :=
  if _ : r.eof = false ∧ (r.readOnce readChunkBytes).1 ≠ [] then
    ((r.readOnce readChunkBytes).1 ++ (r.readOnce readChunkBytes).2.readToEnd.1,
      (r.readOnce readChunkBytes).2.readToEnd.2)
  else if r.eof then ([], r)
  else ([], (r.readOnce readChunkBytes).2)
termination_by r.content.length - r.position
decreasing_by
  all_goals
    rename_i h
    exact readOnce_remaining r readChunkBytes h.2

inductive ReadRefusal where
  | inactive
  | size
deriving DecidableEq

def read (r : VerifyingArtifactReader) (size : Int) :
    Except ReadRefusal Bytes × VerifyingArtifactReader :=
  if r.active = false then (.error .inactive, r)
  else if size < -1 then (.error .size, r)
  else if size = 0 then (.ok [], r)
  else if r.eof then (.ok [], r)
  else if size = -1 then (.ok r.readToEnd.1, r.readToEnd.2)
  else (.ok (r.readOnce size.toNat).1, (r.readOnce size.toNat).2)

end VerifyingArtifactReader

/-- A callback: it reads as it likes, and returns or raises. -/
abbrev Consumer := Prog Int (fun _ => Except VerifyingArtifactReader.ReadRefusal Bytes) Unit Unit

/-- The facade's answer to one read, and all that was handed over by then. -/
def answerRead (s : VerifyingArtifactReader × Bytes) (size : Int) :
    Except VerifyingArtifactReader.ReadRefusal Bytes × VerifyingArtifactReader × Bytes :=
  match s.1.read size with
  | (.ok chunk, r) => (.ok chunk, r, s.2 ++ chunk)
  | (.error e, r) => (.error e, r, s.2)

def requireVerified (L : Codec P) (descriptor : ArtifactDescriptor) (r : VerifyingArtifactReader) :
    Except BundleReadError Unit :=
  if r.eof = false then .error (.verification descriptor.name.text .incompleteConsumption
    "the consumer returned before observing EOF")
  else if r.byteLength ≠ descriptor.byteLength ∨ L.sha256 r.hashed ≠ descriptor.sha256 then
    .error (.verification descriptor.name.text .mismatch
      "consumed length or SHA-256 disagrees with the manifest")
  else .ok ()

/-- `_deliver_artifact`; the result is what the consumer was handed. -/
def deliverArtifact (L : Codec P) (descriptor : ArtifactDescriptor) (content : Bytes)
    (consumer : Consumer) : Except BundleReadError Bytes :=
  match consumer.run answerRead (.create content, []) with
  | (.error _, _) =>
    .error (.read ("artifact " ++ descriptor.name.text ++ " consumer failed"))
  | (.ok _, r, delivered) => do
    requireVerified L descriptor r
    return delivered

/-- The descriptor, and what the consumer was handed. -/
def consumeAndVerifyArtifact (L : Codec P) (limits : BundleReadLimits) (supported : Bool)
    (name : String) (consumer : Consumer) :
    ReadScript T BundleReadError (ArtifactDescriptor × Bytes) := do
  let manifest ← loadManifest L limits supported
  Prog.ofExcept (validateManifestLimits manifest limits)
  match manifest.artifacts.find? fun candidate => candidate.name.text = name with
  | none => .fail (.verification name .missing "the manifest declares no artifact with this name")
  | some descriptor =>
    let content ← readVerifiedArtifact L supported descriptor
      (min limits.maxBytesPerArtifact limits.maxTotalArtifactBytes)
    let delivered ← Prog.ofExcept (deliverArtifact L descriptor content consumer)
    return (descriptor, delivered)

end DrStore.Bundles.Reading
