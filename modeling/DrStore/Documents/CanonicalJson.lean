import DrStore.Documents.FileSystem

/-! # Canonical document files (document_file/canonical_json.py)

`publish` encodes a document, writes it to a temporary file beside the target and replaces the
target with it; `_read_bytes` pins the directory and the child and reads up to the limit. Both
are scripts of system calls, and both release what they hold on every path. The locals that the
`finally` blocks look at are carried by the failures. The encoder, the check for descriptor
support and case folding are parameters; decoding what was read is left out. -/
namespace DrStore.Documents.CanonicalJson
open DrStore.Base.Programs DrStore.Documents.FileSystem

variable {T : Type}

abbrev Script (T ε α : Type) := Prog (Syscall T) SysReply ε α

/-! ## Names -/

def reservedTempPrefix : String := ".dr-store-document-"

/-- Case folding maps every character to a text of its own. -/
def casefold (fold : Char → List Char) (s : String) : List Char := s.toList.flatMap fold

def isReservedDocumentTempName (fold : Char → List Char) (name : String) : Bool :=
  (casefold fold reservedTempPrefix).isPrefixOf (casefold fold name)

/-- The key is the start of the target's hash, the suffix a random UUID. -/
def temporaryName (targetKey uuid : String) : String :=
  reservedTempPrefix ++ targetKey ++ "-" ++ uuid ++ ".tmp"

/-- A configured file. The constructor refuses names of the reserved namespace. -/
structure CanonicalJsonFile where
  fold : Char → List Char
  name : String
  targetKey : String
  maxBytes : Nat
  unreserved : isReservedDocumentTempName fold name = false

theorem temporaryName_reserved (fold : Char → List Char) (targetKey uuid : String) :
    isReservedDocumentTempName fold (temporaryName targetKey uuid) = true := by
  simp [isReservedDocumentTempName, casefold, temporaryName]

theorem CanonicalJsonFile.temporaryName_ne (file : CanonicalJsonFile) (uuid : String) :
    temporaryName file.targetKey uuid ≠ file.name := by
  intro h
  have hreserved := temporaryName_reserved file.fold file.targetKey uuid
  rw [h, file.unreserved] at hreserved
  cases hreserved

/-! ## Errors -/

inductive PublicationStage where
  | encode
  | createTemp
  | writeTemp
  | replaceTarget
deriving DecidableEq

inductive ReplacementState where
  | notReplaced
  | replaced
  | unknown
deriving DecidableEq

inductive ReadStage where
  | openDirectory
  | openChild
  | readBytes
deriving DecidableEq

inductive RegularChildFailureReason where
  | missing
  | notRegular
  | mismatch
  | boundsExceeded
deriving DecidableEq

/-- Both errors carry the file's path as well. -/
inductive DocumentError where
  | publish (stage : PublicationStage) (replacementState : ReplacementState)
  | read (stage : ReadStage) (reason : RegularChildFailureReason)
deriving DecidableEq

/-- What a call returns: nothing, or the bytes of a document. -/
inductive Answer where
  | published
  | document (raw : Bytes)

def failed {α : Type} : Except OsError α → Bool
  | .ok _ => false
  | .error _ => true

/-! ## Publication -/

structure Locals (T : Type) where
  stage : PublicationStage
  replacementState : ReplacementState
  directoryDescriptor : Option (Descriptor T)
  temporaryDescriptor : Option (Descriptor T)
  temporaryName : Option String
  ownsTemporary : Bool

def Locals.start : Locals T := ⟨.createTemp, .notReplaced, none, none, none, false⟩

/-- Go on with the result of a call, or fail with the locals as they are. -/
def orFail {α ε : Type} (l : ε) : Except OsError α → Script T ε α
  | .ok a => .pure a
  | .error _ => .fail l

/-- Write until nothing remains; a write of no bytes is a failure. -/
def writeAll (l : Locals T) (fd : Descriptor T) (data : Bytes) : Script T (Locals T) Unit :=
  if data = [] then .pure ()
  else .exec (.write fd data) fun
    | .error _ => .fail l
    | .ok written =>
      if 0 < written ∧ data ≠ [] then writeAll l fd (data.drop written) else .fail l
termination_by data.length
decreasing_by
  rename_i h
  have hlen : 0 < data.length := List.length_pos_iff.mpr h.2
  rw [List.length_drop]
  omega

/-- The `try` block of `_publish_bytes`. -/
def publishSteps (file : CanonicalJsonFile) (supported : Bool) (temporary : String)
    (encoded : Bytes) : Script T (Locals T) (Locals T) := do
  let l := Locals.start
  if supported = false then .fail l
  else
    let directory ← orFail l (← .perform .openDirectory)
    let l := { l with directoryDescriptor := some directory, temporaryName := some temporary }
    let descriptor ← orFail l (← .perform (.createTemp directory temporary))
    let l := { l with
      temporaryDescriptor := some descriptor
      ownsTemporary := true
      stage := .writeTemp }
    writeAll l descriptor encoded
    let l := { l with temporaryDescriptor := none }
    orFail l (← .perform (.close descriptor))
    let l := { l with stage := .replaceTarget, replacementState := .unknown }
    orFail l (← .perform (.replace directory temporary file.name))
    return { l with replacementState := .replaced, ownsTemporary := false }

/-- Close a descriptor if there is one, and whether something has failed by then. -/
def closing {ε : Type} (failure : Bool) : Option (Descriptor T) → Script T ε Bool
  | none => .pure failure
  | some fd => .exec (.close fd) fun r => .pure (failure || failed r)

def finalizePublicationResources {ε : Type} (l : Locals T) (failure : Bool) : Script T ε Bool := do
  let failure ← closing failure l.temporaryDescriptor
  match failure && l.ownsTemporary, l.temporaryName, l.directoryDescriptor with
  | true, some name, some directory =>
    let _ ← Prog.perform (.unlink directory name)
    closing failure l.directoryDescriptor
  | _, _, _ => closing failure l.directoryDescriptor

def publishBytes (file : CanonicalJsonFile) (supported : Bool) (temporary : String)
    (encoded : Bytes) : Script T DocumentError Answer :=
  (publishSteps file supported temporary encoded).settle fun out => do
    let (l, failure) := match out with
      | .ok l => (l, false)
      | .error l => (l, true)
    let failure ← finalizePublicationResources l failure
    if failure then .fail (.publish l.stage l.replacementState) else return .published

/-- `encoded` is `none` when the document is refused or exceeds the file's limits. -/
def publish (file : CanonicalJsonFile) (supported : Bool) (temporary : String) :
    Option Bytes → Script T DocumentError Answer
  | none => .fail (.publish .encode .notReplaced)
  | some encoded => publishBytes file supported temporary encoded

/-! ## Reading -/

def readChunkBytes : Nat := 65536

structure ReadLocals (T : Type) where
  stage : ReadStage
  directoryDescriptor : Option (Descriptor T)
  childDescriptor : Option (Descriptor T)

inductive ReadCause where
  | os (e : OsError)
  | notRegular
  | boundsExceeded
deriving DecidableEq

def ReadCause.reason : ReadCause → RegularChildFailureReason
  | .os .missing => .missing
  | .os .loop => .notRegular
  | .os .other => .mismatch
  | .notRegular => .notRegular
  | .boundsExceeded => .boundsExceeded

abbrev ReadFailure (T : Type) := ReadLocals T × ReadCause

def orReadFail {α : Type} (l : ReadLocals T) : Except OsError α → Script T (ReadFailure T) α
  | .ok a => .pure a
  | .error e => .fail (l, .os e)

/-- Read up to the limit, in chunks, to the end of the file at most. -/
def readBoundedChildDescriptor (l : ReadLocals T) (fd : Descriptor T) (limit : Nat)
    (chunks : Bytes) : Script T (ReadFailure T) Bytes :=
  if chunks.length < limit then
    .exec (.read fd (min readChunkBytes (limit - chunks.length))) fun
      | .error e => .fail (l, .os e)
      | .ok chunk =>
        if 0 < chunk.length ∧ chunks.length < limit then
          readBoundedChildDescriptor l fd limit (chunks ++ chunk)
        else .pure chunks
  else .pure chunks
termination_by limit - chunks.length
decreasing_by
  rename_i h
  rw [List.length_append]
  omega

/-- The `try` block of `_read_bytes`. -/
def readSteps (file : CanonicalJsonFile) : Script T (ReadFailure T) (ReadLocals T × Bytes) := do
  let l : ReadLocals T := ⟨.openDirectory, none, none⟩
  let directory ← orReadFail l (← .perform .openDirectory)
  let l := { l with directoryDescriptor := some directory, stage := .openChild }
  let child ← orReadFail l (← .perform (.openChild directory file.name))
  let l := { l with childDescriptor := some child, stage := .readBytes }
  let regular ← orReadFail l (← .perform (.fstat child))
  if regular = false then .fail (l, .notRegular)
  else
    let raw ← readBoundedChildDescriptor l child (file.maxBytes + 1) []
    if file.maxBytes < raw.length then .fail (l, .boundsExceeded)
    else return (l, raw)

/-- Close a descriptor if there is one; the first failure is kept. -/
def closingRead {ε : Type} (cause : Option ReadCause) :
    Option (Descriptor T) → Script T ε (Option ReadCause)
  | none => .pure cause
  | some fd => .exec (.close fd) fun
    | .ok _ => .pure cause
    | .error e => .pure (cause.or (some (.os e)))

def readBytes (file : CanonicalJsonFile) (supported : Bool) : Script T DocumentError Answer :=
  if supported = false then .fail (.read .openDirectory .mismatch)
  else readSteps file |>.settle fun out => do
    let (l, raw, cause) := match out with
      | .ok (l, raw) => (l, some raw, none)
      | .error (l, cause) => (l, none, some cause)
    let cause ← closingRead cause l.childDescriptor
    let cause ← closingRead cause l.directoryDescriptor
    match cause, raw with
    | none, some raw => return .document raw
    | none, none => .fail (.read l.stage .mismatch)
    | some cause, _ => .fail (.read l.stage cause.reason)

end DrStore.Documents.CanonicalJson
