import DrStore.Base.PyJson
import DrStore.Documents.CanonicalJson
import DrStore.Store.ContentAddressing
import Mathlib.Data.String.Basic

/-! # Names, descriptors and manifests (artifact_bundle/names.py, models.py, _wire.py)

A name that a descriptor carries has passed the check of the recorded format, and a manifest's
descriptors are in strictly increasing order of their names; both structures carry the proof. -/
namespace DrStore.Bundles.Models
open DrStore.Base.PyJson DrStore.Documents.CanonicalJson DrStore.Documents.FileSystem
open DrStore.Store.ContentAddressing

def bundleFormat : String := "dr-store-artifact-bundle-v1"

def manifestName : String := "manifest.json"

def bundleTempPrefix : String := ".dr-store-artifact-bundle-"

/-! ## Names -/

def unsafeNameCharacters : List Char := ['/', '\\', '\x00']

def reservedNames : List String := ["", ".", ".."]

inductive NameError where
  | notSafe (role name : String)
  | notOneSegment (role name : String)
  | reserved (name : String)
deriving DecidableEq

def validateSingleSegment (name role : String) : Except NameError Unit :=
  if name ∈ reservedNames then .error (.notSafe role name)
  else if name.toList.any (· ∈ unsafeNameCharacters) then .error (.notOneSegment role name)
  else .ok ()

def validateArtifactName (name : String) : Except NameError Unit := do
  validateSingleSegment name "artifact name"
  if name = manifestName ∨ bundleTempPrefix.toList.isPrefixOf name.toList then
    .error (.reserved name)

/-- Admission refuses the namespace of temporary documents as well. -/
def validateAdmissibleArtifactName (fold : Char → List Char) (name : String) :
    Except NameError Unit := do
  validateArtifactName name
  if isReservedDocumentTempName fold name then .error (.reserved name)

/-- A name that the recorded format accepts. -/
structure ArtifactName where
  text : String
  valid : validateArtifactName text = .ok ()
deriving DecidableEq

/-- What admission lets through, the recorded format accepts. -/
theorem validateArtifactName_of_admissible {fold : Char → List Char} {name : String}
    (h : validateAdmissibleArtifactName fold name = .ok ()) : validateArtifactName name = .ok () := by
  unfold validateAdmissibleArtifactName at h
  cases hname : validateArtifactName name with
  | ok _ => rfl
  | error e =>
    rw [hname] at h
    cases h

/-! ## Descriptors -/

structure ArtifactDescriptor where
  name : ArtifactName
  sha256 : Digest
  byteLength : Nat
deriving DecidableEq

/-- Ordered by exact name, and unique by it. -/
def Ordered (artifacts : List ArtifactDescriptor) : Prop :=
  (artifacts.map fun d => d.name.text).Pairwise (· < ·)

instance (artifacts : List ArtifactDescriptor) : Decidable (Ordered artifacts) :=
  inferInstanceAs (Decidable (List.Pairwise _ _))

structure BundleManifest where
  artifacts : List ArtifactDescriptor
  payload : Json
  ordered : Ordered artifacts

/-- `model_dump(mode="json", by_alias=True)`, with the fields in key order. -/
def ArtifactDescriptor.dump (d : ArtifactDescriptor) : Json :=
  .obj [("byte_length", .int d.byteLength), ("name", .str d.name.text), ("sha256", .str d.sha256.text)]

def BundleManifest.dump (m : BundleManifest) : Json :=
  .obj [("artifacts", .arr (m.artifacts.map ArtifactDescriptor.dump)), ("format", .str bundleFormat),
    ("payload", m.payload)]

end DrStore.Bundles.Models
