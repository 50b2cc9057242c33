import DrStore.Base.Collections
import DrStore.Base.Pool
import DrStore.Bundles.Models

/-! # Bundle publication (artifact_bundle/publication.py)

Threads open artifacts, write to them, finalize them and publish on one publication. A step is
one section under the lock or one call on a file handle; every file call may fail, and a failing
write may have taken part of its data. A file holds what its handle took once a flush has
succeeded, and some of it before. `opening`, `publisher`, `attempts` and a writer's `returned` are
the history that the results speak of: who has reserved a name without an answer yet, who made the
publication terminal, the manifests handed to the directory, and the data of the writes that have
returned, as their caller notes it. -/
namespace DrStore.Bundles.Publication
open DrStore.Base.PyJson DrStore.Base.Collections DrStore.Base.Programs DrStore.Base.Pool
open DrStore.Documents.CanonicalJson DrStore.Documents.FileSystem DrStore.Bundles.Models
open DrStore.Store.ContentAddressing

variable {T : Type}

inductive PublicationState where
  | «open»
  | poisoned
  | terminal
deriving DecidableEq

inductive WriterState where
  | active
  | finalized
  | failed
deriving DecidableEq

inductive BundlePublicationPhase where
  | precondition
  | encodeManifest
  | createTemp
  | writeTemp
  | replaceManifest
deriving DecidableEq

def publicationPhaseByStage : PublicationStage → BundlePublicationPhase
  | .encode => .encodeManifest
  | .createTemp => .createTemp
  | .writeTemp => .writeTemp
  | .replaceTarget => .replaceManifest

/-- The errors with what tells them apart; the refusals carry the failure they are raised from. -/
inductive BundleError where
  | invalidName (name : String)
  | alreadyReserved (name : String)
  | couldNotCreate (name : String)
  | failedWriter (cause : Option BundleError)
  | terminalAdmission
  | couldNotWrite (name : String)
  | couldNotFinalize (name : String)
  | notActive (name : String)
  | publish (phase : BundlePublicationPhase) (replacementState : Option ReplacementState)
      (detail : String)

def refusal (detail : String) : BundleError := .publish .precondition none detail

/-! ## The state -/

/-- The writer that a thread's `index`-th call opened. -/
structure WriterId (T : Type) where
  opener : T
  index : Nat
deriving DecidableEq

/-- A writer object, what its hasher and its counter have seen, what its handle has taken, and the
data of the writes that have returned. -/
structure BundleArtifactWriter where
  name : ArtifactName
  hashed : Bytes
  byteLength : Nat
  taken : Bytes
  returned : List Bytes

/-- A writer that has just been opened. -/
def BundleArtifactWriter.create (name : ArtifactName) : BundleArtifactWriter :=
  ⟨name, [], 0, [], []⟩

structure Bundle (T : Type) where
  state : PublicationState
  writers : Dict ArtifactName WriterState
  descriptors : Dict ArtifactName ArtifactDescriptor
  writerFailure : Option BundleError
  objects : WriterId T → Option BundleArtifactWriter
  children : String → Option Bytes
  opening : T → Option ArtifactName
  publisher : Option T
  attempts : List BundleManifest

/-- `sorted(self._descriptors)`, with their descriptors. -/
def sortedDescriptors (d : Dict ArtifactName ArtifactDescriptor) : List ArtifactDescriptor :=
  (d.keys.mergeSort fun a b => decide (a.text ≤ b.text)).filterMap d.get?

namespace Bundle

/-- A freshly allocated directory. -/
def allocate : Bundle T where
  state := .open
  writers := .empty
  descriptors := .empty
  writerFailure := none
  objects _ := none
  children _ := none
  opening _ := none
  publisher := none
  attempts := []

def requireOpenForAdmission (s : Bundle T) : Except BundleError Unit :=
  match s.state with
  | .poisoned => .error (.failedWriter s.writerFailure)
  | .terminal => .error .terminalAdmission
  | .open => .ok ()

def checkPublishPreconditions (s : Bundle T) : Except BundleError Unit :=
  match s.state with
  | .poisoned => .error (refusal "an admitted artifact writer failed")
  | .terminal => .error (refusal "publication is terminal")
  | .open =>
    if s.writers.values.any (· = .active) then
      .error (refusal "an admitted artifact writer is still active")
    else .ok ()

def poison (s : Bundle T) (name : ArtifactName) (error : BundleError) : Bundle T :=
  { s with
    writers := s.writers.set name .failed
    state := .poisoned
    writerFailure := some error }

def attempt (s : Bundle T) (manifest : BundleManifest) : Bundle T :=
  { s with attempts := s.attempts ++ [manifest] }

def setDocument (s : Bundle T) (data : Bytes) : Bundle T :=
  { s with children := Function.update s.children manifestName (some data) }

variable [DecidableEq T]

def setOpening (s : Bundle T) (t : T) (name : Option ArtifactName) : Bundle T :=
  { s with opening := Function.update s.opening t name }

def setObject (s : Bundle T) (id : WriterId T) (w : BundleArtifactWriter) : Bundle T :=
  { s with objects := Function.update s.objects id (some w) }

def setChild (s : Bundle T) (name : ArtifactName) (data : Bytes) : Bundle T :=
  { s with children := Function.update s.children name.text (some data) }

end Bundle

/-! ## Steps -/

inductive Op (T : Type) where
  | reserve (name : ArtifactName)
  | openExclusiveBinary (name : ArtifactName)
  | creationFailed (name : ArtifactName)
  | admitWriter (id : WriterId T) (name : ArtifactName)
  | writer (id : WriterId T)
  | requireActiveWriter (name : ArtifactName)
  | handleWrite (id : WriterId T) (data : Bytes)
  | handleFlush (id : WriterId T)
  | handleClose (id : WriterId T)
  | account (id : WriterId T) (data : Bytes)
  | returned (id : WriterId T) (data : Bytes)
  | writerFailed (name : ArtifactName) (error : BundleError)
  | writerFinalized (name : ArtifactName) (descriptor : ArtifactDescriptor)
  | checkPreconditions
  | terminate
  | publishManifest (manifest : BundleManifest) (encoded : Option Bytes)

abbrev Reply : Op T → Type
  | .reserve _ | .admitWriter _ _ | .writerFinalized _ _ | .checkPreconditions => Except BundleError Unit
  | .openExclusiveBinary _ | .handleFlush _ | .handleClose _ | .requireActiveWriter _ => Bool
  | .creationFailed _ | .account _ _ | .returned _ _ | .writerFailed _ _ => Unit
  | .writer _ => Option BundleArtifactWriter
  | .handleWrite _ _ => Option Nat
  | .terminate => Except BundleError (List ArtifactDescriptor)
  | .publishManifest _ _ => Except (PublicationStage × ReplacementState) Unit

variable [DecidableEq T]

/-- What one step of `t` may answer and do. -/
def Effect (s : Bundle T) (t : T) : (op : Op T) → Reply op → Bundle T → Prop
  | .reserve name, r, s' =>
      match s.requireOpenForAdmission with
      | .error e => r = .error e ∧ s' = s
      | .ok _ =>
        if s.writers.contains name then r = .error (.alreadyReserved name.text) ∧ s' = s
        else r = .ok () ∧
          s' = { s with writers := s.writers.set name .active }.setOpening t (some name)
  | .openExclusiveBinary name, r, s' =>
      -- mode "xb": the child must be new
      (r = true ∧ s.children name.text = none ∧ s' = s.setChild name []) ∨ (r = false ∧ s' = s)
  | .creationFailed name, _, s' =>
      s' = (s.poison name (.couldNotCreate name.text)).setOpening t none
  | .admitWriter id name, r, s' =>
      match s.requireOpenForAdmission with
      | .error e => r = .error e ∧
          s' = { s with writers := s.writers.erase name }.setOpening t none
      | .ok _ => r = .ok () ∧ s' = (s.setObject id (.create name)).setOpening t none
  | .writer id, r, s' => r = s.objects id ∧ s' = s
  | .requireActiveWriter name, r, s' => r = decide (s.writers.get? name = some .active) ∧ s' = s
  | .handleWrite id data, r, s' => ∃ w n m, s.objects id = some w ∧ n ≤ data.length ∧
      (r = some n ∨ r = none) ∧ s' = (s.setObject id { w with taken := w.taken ++ data.take n }).setChild
        w.name ((w.taken ++ data.take n).take m)
  | .handleFlush id, r, s' => ∃ w m, s.objects id = some w ∧
      s' = s.setChild w.name (w.taken.take m) ∧ (r = true → w.taken.length ≤ m)
  | .handleClose _, _, s' => s' = s
  | .account id data, _, s' => ∃ w, s.objects id = some w ∧
      s' = s.setObject id { w with
        hashed := w.hashed ++ data, byteLength := w.byteLength + data.length }
  | .returned id data, _, s' => ∃ w, s.objects id = some w ∧
      s' = s.setObject id { w with returned := w.returned ++ [data] }
  | .writerFailed name error, _, s' =>
      s' = if s.writers.get? name = some .active then s.poison name error else s
  | .writerFinalized name descriptor, r, s' =>
      if s.writers.get? name = some .active then r = .ok () ∧ s' = { s with
        descriptors := s.descriptors.set name descriptor
        writers := s.writers.set name .finalized }
      else r = .error (.notActive name.text) ∧ s' = s
  | .checkPreconditions, r, s' => r = s.checkPublishPreconditions ∧ s' = s
  | .terminate, r, s' =>
      match s.checkPublishPreconditions with
      | .error e => r = .error e ∧ s' = s
      | .ok _ => r = .ok (sortedDescriptors s.descriptors) ∧
          s' = { s with state := .terminal, publisher := some t }
  | .publishManifest manifest encoded, r, s' =>
      match encoded with
      | none => r = .error (.encode, .notReplaced) ∧ s' = s.attempt manifest
      | some data =>
        -- a failing publication may have replaced the document
        s' = (s.attempt manifest).setDocument data ∨ ((∃ e, r = .error e) ∧ s' = s.attempt manifest)

/-- Threads on one publication; a thread that dies leaves it as it is. -/
def publicationSystem : System T (Bundle T) (Op T) Reply where
  step t s op r s' := Effect s t op r s'
  kill _ s s' := s' = s

/-! ## The calls -/

abbrev Script (T ε α : Type) := Prog (Op T) Reply ε α

/-- What the publication gets from elsewhere: `hashlib`, case folding, `validate_strict_json` for
payloads of any type and for documents, and the bytes of a document within the limits. -/
structure Environment (P : Type) where
  fold : Char → List Char
  sha256 : Bytes → Digest
  validatePayload : P → Option Json
  validateDocument : Json → Option Json
  encode : Json → Option Bytes

variable {P : Type} (E : Environment P)

def openArtifact (id : WriterId T) (name : String) : Script T BundleError Unit :=
  if h : validateAdmissibleArtifactName E.fold name = .ok () then do
    let name : ArtifactName := ⟨name, validateArtifactName_of_admissible h⟩
    Prog.ofExcept (← .perform (Op.reserve name))
    if ← .perform (Op.openExclusiveBinary name) then
      Prog.ofExcept (← .perform (Op.admitWriter id name))
    else
      .perform (Op.creationFailed name)
      .fail (.couldNotCreate name.text)
  else .fail (.invalidName name)

/-- Write until nothing remains; no progress is a failure. -/
def writeAll (id : WriterId T) (data : Bytes) : Script T Unit Unit :=
  if data = [] then .pure ()
  else .exec (.handleWrite id data) fun
    | none => .fail ()
    | some written =>
      if 0 < written ∧ data ≠ [] then writeAll id (data.drop written) else .fail ()
termination_by data.length
decreasing_by
  rename_i h
  have hlen : 0 < data.length := List.length_pos_iff.mpr h.2
  rw [List.length_drop]
  omega

def write (id : WriterId T) (name : ArtifactName) (data : Bytes) : Script T BundleError Unit := do
  if ← .perform (Op.requireActiveWriter name) then
    (writeAll id data).settle fun
      | .error _ => do
        let _ ← Prog.perform (Op.handleClose id)
        .perform (Op.writerFailed name (.couldNotWrite name.text))
        .fail (.couldNotWrite name.text)
      | .ok _ => .perform (Op.account id data)
  else .fail (.notActive name.text)

def finalize (id : WriterId T) (name : ArtifactName) : Script T BundleError ArtifactDescriptor := do
  if ← .perform (Op.requireActiveWriter name) then
    let flushed ← .perform (Op.handleFlush id)
    let closed ← .perform (Op.handleClose id)
    if flushed && closed then
      match ← .perform (Op.writer id) with
      | none => .fail (.notActive name.text)
      | some w =>
        let descriptor : ArtifactDescriptor := ⟨name, E.sha256 w.hashed, w.byteLength⟩
        Prog.ofExcept (← .perform (Op.writerFinalized name descriptor))
        return descriptor
    else
      .perform (Op.writerFailed name (.couldNotFinalize name.text))
      .fail (.couldNotFinalize name.text)
  else .fail (.notActive name.text)

def encodingFailed : BundleError :=
  .publish .encodeManifest (some .notReplaced) "manifest encoding failed"

def publishManifest (manifest : BundleManifest) (document : Json) : Script T BundleError Unit := do
  match ← .perform (Op.publishManifest manifest (E.encode document)) with
  | .ok _ => return ()
  | .error (stage, replacementState) =>
    .fail (.publish (publicationPhaseByStage stage) (some replacementState)
      "terminal manifest attempt failed")

/-- What `publish` does once the publication is terminal. -/
def encodeAndPublish (descriptors : List ArtifactDescriptor) (payload : Json) :
    Script T BundleError Unit :=
  if h : Ordered descriptors then
    match E.validateDocument (BundleManifest.mk descriptors payload h).dump with
    | none => .fail encodingFailed
    | some document => publishManifest E ⟨descriptors, payload, h⟩ document
  else .fail encodingFailed

def publish (payload : P) : Script T BundleError Unit := do
  Prog.ofExcept (← .perform Op.checkPreconditions)
  match E.validatePayload payload with
  | none => .fail (refusal "payload is not one strict JSON value")
  | some validated =>
    let descriptors ← Prog.ofExcept (← .perform Op.terminate)
    encodeAndPublish E descriptors validated

/-! ## Threads -/

inductive Action (T P : Type) where
  | openArtifact (name : String)
  | write (id : WriterId T) (data : Bytes)
  | finalize (id : WriterId T)
  | publish (payload : P)

/-- The writer that an action uses. -/
def Action.writer? : Action T P → Option (WriterId T)
  | .write id _ | .finalize id => some id
  | .openArtifact _ | .publish _ => none

/-- The `index`-th call of `t`, which notes a write that returns; nobody can use a writer that there
is not. -/
def Action.script (t : T) (index : Nat) : Action T P → Script T BundleError Unit
  | .openArtifact name => Publication.openArtifact E ⟨t, index⟩ name
  | .write id data => do
    match ← .perform (Op.writer id) with
    | none => return ()
    | some w =>
      Publication.write id w.name data
      .perform (Op.returned id data)
  | .finalize id => do
    match ← .perform (Op.writer id) with
    | none => return ()
    | some w =>
      let _ ← Publication.finalize E id w.name
      return ()
  | .publish payload => Publication.publish E payload

/-- One call after the other, whatever they raise. -/
def client (t : T) : Nat → List (Action T P) → Script T BundleError Unit
  | _, [] => .pure ()
  | index, action :: rest => (action.script E t index).settle fun _ => client t (index + 1) rest

/-- Any number of threads with any calls; a writer may be handed over, but only one thread uses
it. -/
structure Clients (T P : Type) where
  actions : T → List (Action T P)
  user : WriterId T → T
  oneThread : ∀ t, ∀ a ∈ actions t, ∀ id, a.writer? = some id → user id = t

end DrStore.Bundles.Publication
