import DrStore.Documents.RoundTrip
import DrStore.Store.ContentAddressing

/-! # Verified reads of regular children (core/verified_read.py, core/filesystem.py)

One bounded read of a direct child through pinned descriptors, checked against an expected length
and hash. On a healthy disk the answer depends on the stored bytes only. -/
namespace DrStore.Documents.VerifiedRead
open DrStore.Base.Programs DrStore.Documents.FileSystem DrStore.Documents.CanonicalJson
open DrStore.Documents.RoundTrip DrStore.Store.ContentAddressing

variable {U : Type}

/-! ## Names -/

def unsafeNameCharacters : List Char := ['/', '\\', '\x00']

def reservedNames : List String := ["", ".", ".."]

inductive UnsafeNameError where
  | notSafe (role name : String)
  | notOneSegment (role name : String)
deriving DecidableEq

def checkSafeName (name role : String) : Except UnsafeNameError Unit :=
  if name ∈ reservedNames then .error (.notSafe role name)
  else if name.toList.any (· ∈ unsafeNameCharacters) then .error (.notOneSegment role name)
  else .ok ()

def checkRegularChildName (name : String) : Except UnsafeNameError Unit :=
  checkSafeName name "child name"

/-! ## Reading -/

/-- The reasons that a read fails for; `os` passes through from `os.fstat`. -/
inductive ChildReadFailure where
  | reason (reason : RegularChildFailureReason)
  | unsupportedPlatform
  | os (e : OsError)

def directoryOpenReason : OsError → RegularChildFailureReason
  | .missing => .missing
  | .loop | .other => .mismatch

def childOpenReason : OsError → RegularChildFailureReason
  | .missing => .missing
  | .loop => .notRegular
  | .other => .mismatch

section

variable (sha256 : Bytes → Digest) (maxBytes expectedByteLength : Nat) (expectedSha256 : String)

/-- The checks of what was read. -/
def verifyRaw (raw : Bytes) : Except ChildReadFailure Bytes :=
  if maxBytes < raw.length then .error (.reason .boundsExceeded)
  else if raw.length ≠ expectedByteLength then .error (.reason .mismatch)
  else if (sha256 raw).text ≠ expectedSha256 then .error (.reason .mismatch)
  else .ok raw

def readVerifiedChild (child : Descriptor U) : Script U ChildReadFailure Bytes :=
  .exec (.fstat child) fun
    | .error e => .fail (.os e)
    | .ok false => .fail (.reason .notRegular)
    | .ok true =>
      (readBoundedChildDescriptor ⟨.readBytes, none, some child⟩ child (maxBytes + 1) []).settle fun
        | .error _ => .fail (.reason .mismatch)
        | .ok raw => .ofExcept (verifyRaw sha256 maxBytes expectedByteLength expectedSha256 raw)

/-- Both descriptors are closed on every path, and a failing close is suppressed. -/
def readVerifiedRegularChild (supported : Bool) (name : String) : Script U ChildReadFailure Bytes :=
  if maxBytes < expectedByteLength then .fail (.reason .boundsExceeded)
  else if isContentHash expectedSha256 = false then .fail (.reason .mismatch)
  else if checkRegularChildName name ≠ .ok () then .fail (.reason .boundsExceeded)
  else if supported = false then .fail .unsupportedPlatform
  else .exec .openDirectory fun
    | .error e => .fail (.reason (directoryOpenReason e))
    | .ok directory => Prog.settle (.exec (.openChild directory name) fun
        | .error e => .fail (.reason (childOpenReason e))
        | .ok child => (readVerifiedChild sha256 maxBytes expectedByteLength expectedSha256
            child).settle (Prog.closing (.close child)))
        (Prog.closing (.close directory))

end

/-! ## On a healthy disk -/

section Healthy

/-- Names and files are as they were. -/
def Untouched (s s' : Fs U) : Prop := s'.names = s.names ∧ s'.bytes = s.bytes

theorem Untouched.content {s s' : Fs U} (h : Untouched s s') (name : String) :
    s'.content name = s.content name := by
  rw [Fs.content, Fs.content, h.1, h.2]

theorem Untouched.trans {s s' s'' : Fs U} (h : Untouched s s') (h' : Untouched s' s'') :
    Untouched s s'' :=
  ⟨h'.1.trans h.1, h'.2.trans h.2⟩

variable {sha256 : Bytes → Digest} {maxBytes expectedByteLength : Nat} {expectedSha256 : String}

/-- As much of a file as is read is judged like the file. -/
theorem verifyRaw_scanned {b raw : Bytes} (h : Scanned (maxBytes + 1) b raw) :
    verifyRaw sha256 maxBytes expectedByteLength expectedSha256 raw =
      verifyRaw sha256 maxBytes expectedByteLength expectedSha256 b := by
  by_cases hlong : maxBytes < b.length
  · have hraw : maxBytes < raw.length := by
      rw [h.length_of_le hlong]
      exact Nat.lt_succ_self maxBytes
    rw [verifyRaw, verifyRaw, if_pos hraw, if_pos hlong]
  · rw [h.eq_of_lt (by omega)]

variable [DecidableEq U] {u : U} {s : Fs U}

/-- **A healthy read**: the checks of the stored bytes, however the reads are cut. -/
theorem readVerifiedRegularChild_healthy {name : String} {b : Bytes}
    (hlength : expectedByteLength ≤ maxBytes) (hhash : isContentHash expectedSha256 = true)
    (hname : checkRegularChildName name = .ok ()) (hcontent : s.content name = some b) :
    (readVerifiedRegularChild sha256 maxBytes expectedByteLength expectedSha256 true name).ensures
      (healthy u) (fun out s' =>
        out = verifyRaw sha256 maxBytes expectedByteLength expectedSha256 b ∧ Untouched s s') s := by
  obtain ⟨i, hi, hbytes⟩ : ∃ i, s.names name = some i ∧ s.bytes i = b := by
    simpa [Fs.content] using hcontent
  unfold readVerifiedRegularChild
  rw [if_neg (Nat.not_lt.mpr hlength), if_neg (by rw [hhash]; decide), if_neg (not_not.mpr hname),
    if_neg (by decide)]
  intro r s₁ hdoes
  obtain ⟨heffect, directory, rfl⟩ := hdoes
  obtain ⟨_, rfl⟩ := heffect
  refine (Prog.ensures_settle _ _ _ _).mpr ?_
  intro r s₂ hdoes
  obtain ⟨heffect, hopen⟩ := hdoes
  have hhandle : (s.pin u directory .directory).handles directory = some .directory := by
    simp [Fs.pin, Fs.note]
  have hnames : (s.pin u directory .directory).names = s.names := rfl
  obtain ⟨child, rfl⟩ := hopen hhandle (by rw [hnames, hi]; rfl)
  obtain ⟨_, _, j, hj, rfl⟩ := heffect
  rw [hnames, hi] at hj
  cases hj
  refine (Prog.ensures_settle _ _ _ _).mpr ?_
  intro r s₃ hdoes
  obtain ⟨heffect, hregular⟩ := hdoes
  have hreading : ((s.pin u directory .directory).pin u child (.reading i)).handles child =
      some (.reading i) := by simp [Fs.pin, Fs.note]
  have hstart : ((s.pin u directory .directory).pin u child (.reading i)).offset child = 0 := by
    simp [Fs.pin, Fs.note]
  obtain rfl := hregular i hreading
  obtain rfl : s₃ = _ := heffect
  have hscan := @readBounded_scans U _ u
    ((s.pin u directory .directory).pin u child (.reading i)) ⟨.readBytes, none, some child⟩ child i
    b (maxBytes + 1) hbytes hreading hstart [] List.nil_prefix (Nat.zero_le _)
  simp only [List.length_nil, advance_zero] at hscan
  refine (Prog.ensures_settle _ _ _ _).mpr (Prog.ensures_mono hscan ?_)
  intro out s₄ hraw
  obtain ⟨raw, rfl, rfl, hscanned⟩ := hraw
  simp only [verifyRaw_scanned hscanned]
  cases verifyRaw sha256 maxBytes expectedByteLength expectedSha256 b with
  | ok raw' =>
    intro r s₅ hdoes
    obtain ⟨rfl, rfl⟩ := hdoes
    intro r s₆ hdoes
    obtain ⟨rfl, rfl⟩ := hdoes
    exact ⟨rfl, rfl, rfl⟩
  | error e =>
    intro r s₅ hdoes
    obtain ⟨rfl, rfl⟩ := hdoes
    intro r s₆ hdoes
    obtain ⟨rfl, rfl⟩ := hdoes
    exact ⟨rfl, rfl, rfl⟩

end Healthy

end DrStore.Documents.VerifiedRead
