import DrStore.Documents.VerifiedRead
import Mathlib.Data.List.DropRight

/-! # Sidecar retention (document_directory/sidecar.py)

A writer stores the head of a stream as it comes, keeps a sliding tail in memory and counts what it
drops. Whatever the chunks, the file ends as two slices of the stream. -/
namespace DrStore.Documents.Sidecar
open DrStore.Base.Programs DrStore.Documents.FileSystem DrStore.Documents.CanonicalJson
open DrStore.Documents.RoundTrip DrStore.Documents.VerifiedRead DrStore.Store.ContentAddressing

/-! ## The writer -/

/-- Calls on the file; a failing `write` or `flush` may be a closed handle. -/
inductive HandleOp where
  | openFile
  | write (data : Bytes)
  | flush
  | close

/-- Whether the call succeeds. -/
abbrev HandleReply (_ : HandleOp) : Type := Bool

inductive SidecarError where
  | negativeCap (role : String) (cap : Int)
  | couldNotOpen
  | couldNotWrite
  | couldNotFlush
  | couldNotClose
deriving DecidableEq

abbrev HandleScript (α : Type) := Prog HandleOp HandleReply SidecarError α

structure SidecarSummary where
  headLength : Nat
  tailLength : Nat
  produced : Nat
  dropped : Nat
  sidecarHash : Digest

/-- `hashed` is what the hasher has seen. -/
structure SidecarWriter where
  headCap : Option Nat
  tailCap : Nat
  headLength : Nat
  produced : Nat
  tail : Bytes
  dropped : Nat
  hashed : Bytes

def validateCap (cap : Option Int) (role : String) : Except SidecarError Unit :=
  match cap with
  | none => .ok ()
  | some c => if c < 0 then .error (.negativeCap role c) else .ok ()

namespace SidecarWriter

def create (headCap tailCap : Option Int) : HandleScript SidecarWriter := do
  Prog.ofExcept (validateCap headCap "head_cap")
  Prog.ofExcept (validateCap tailCap "tail_cap")
  if ← .perform .openFile then
    return ⟨headCap.map Int.toNat, (tailCap.getD 0).toNat, 0, 0, [], 0, []⟩
  else .fail .couldNotOpen

def storeHead (w : SidecarWriter) (part : Bytes) : HandleScript SidecarWriter := do
  if ← .perform (.write part) then
    return { w with hashed := w.hashed ++ part, headLength := w.headLength + part.length }
  else .fail .couldNotWrite

/-- What `write` does with the bytes past the head. -/
def retain (w : SidecarWriter) (remainder : Bytes) : SidecarWriter :=
  if remainder = [] then w
  else if w.tailCap = 0 then { w with dropped := w.dropped + remainder.length }
  else
    let tail := w.tail ++ remainder
    let overflow := tail.length - w.tailCap
    if 0 < overflow then { w with tail := tail.drop overflow, dropped := w.dropped + overflow }
    else { w with tail }

def write (w : SidecarWriter) (chunk : Bytes) : HandleScript SidecarWriter :=
  let w := { w with produced := w.produced + chunk.length }
  match w.headCap with
  | none => w.storeHead chunk
  | some headCap =>
    let room := headCap - w.headLength
    if 0 < room then do
      let w ← w.storeHead (chunk.take room)
      return w.retain (chunk.drop room)
    else return w.retain chunk

/-- The handle is closed on every path, and a close that fails raises. -/
def finalize (sha256 : Bytes → Digest) (w : SidecarWriter) : HandleScript SidecarSummary := do
  let written ← .perform (.write w.tail)
  let flushed ← if written then .perform .flush else pure false
  if ← .perform .close then
    if flushed then
      return ⟨w.headLength, w.tail.length, w.produced, w.dropped, sha256 (w.hashed ++ w.tail)⟩
    else .fail .couldNotFlush
  else .fail .couldNotClose

def writeChunks : List Bytes → SidecarWriter → HandleScript SidecarWriter
  | [], w => .pure w
  | chunk :: chunks, w => do
    let w ← w.write chunk
    writeChunks chunks w

end SidecarWriter

/-- A sidecar from its first to its last call. -/
def session (sha256 : Bytes → Digest) (headCap tailCap : Option Int) (chunks : List Bytes) :
    HandleScript SidecarSummary := do
  let w ← SidecarWriter.create headCap tailCap
  let w ← SidecarWriter.writeChunks chunks w
  w.finalize sha256

/-- A file on which no call fails. -/
def plainHandle (file : Bytes) : (op : HandleOp) → HandleReply op × Bytes
  | .openFile => (true, [])
  | .write data => (true, file ++ data)
  | .flush | .close => (true, file)

variable {U : Type}

/-- Errors keep the reason of the read. -/
def verifySidecar (sha256 : Bytes → Digest) (supported : Bool) (name expectedSidecarHash : String)
    (expectedHeadLength expectedTailLength : Int) : Script U ChildReadFailure Unit :=
  if expectedHeadLength < 0 ∨ expectedTailLength < 0 then .fail (.reason .boundsExceeded)
  else do
    let expectedLength := (expectedHeadLength + expectedTailLength).toNat
    let _ ← readVerifiedRegularChild sha256 expectedLength expectedLength expectedSidecarHash
      supported name
    return ()

/-! ## Two slices -/

def headPart : Option Nat → Bytes → Bytes
  | none, stream => stream
  | some cap, stream => stream.take cap

def restPart : Option Nat → Bytes → Bytes
  | none, _ => []
  | some cap, stream => stream.drop cap

@[simp] theorem headPart_nil (cap : Option Nat) : headPart cap [] = [] := by
  cases cap <;> simp [headPart]

@[simp] theorem restPart_nil (cap : Option Nat) : restPart cap [] = [] := by
  cases cap <;> simp [restPart]

theorem headPart_length_add (cap : Option Nat) (stream : Bytes) :
    (headPart cap stream).length + (restPart cap stream).length = stream.length := by
  cases cap with
  | none => rfl
  | some cap => rw [← List.length_append, headPart, restPart, List.take_append_drop]

/-- Sliding the window before or after more bytes come makes no difference. -/
theorem rtake_append_rtake (rest more : Bytes) (k : Nat) :
    (rest.rtake k ++ more).rtake k = (rest ++ more).rtake k := by
  unfold List.rtake
  rw [← List.drop_append_of_le_length (Nat.sub_le _ _), List.drop_drop]
  congr 1
  simp only [List.length_drop, List.length_append]
  omega

theorem length_rtake (bytes : Bytes) (k : Nat) : (bytes.rtake k).length = min k bytes.length := by
  rw [List.rtake, List.length_drop]
  omega

/-! ## One write -/

/-- What the writer and the file hold of the stream so far. -/
structure Holds (w : SidecarWriter) (stream file : Bytes) : Prop where
  stored : file = headPart w.headCap stream
  hashed : w.hashed = file
  headLength : w.headLength = file.length
  produced : w.produced = stream.length
  tail : w.tail = (restPart w.headCap stream).rtake w.tailCap
  dropped : w.dropped + w.tail.length = (restPart w.headCap stream).length

section

variable {w : SidecarWriter} {stream file : Bytes}

open SidecarWriter

theorem storeHead_run (part : Bytes) : (w.storeHead part).run plainHandle file =
    (.ok { w with hashed := w.hashed ++ part, headLength := w.headLength + part.length },
      file ++ part) := rfl

/-- The tail slides on, and what falls out of it is counted. -/
theorem retain_spec {rest : Bytes} (remainder : Bytes) (htail : w.tail = rest.rtake w.tailCap) :
    ∃ tail dropped, w.retain remainder = { w with tail, dropped } ∧
      tail = (rest ++ remainder).rtake w.tailCap ∧
      dropped + tail.length = w.dropped + w.tail.length + remainder.length := by
  unfold retain
  by_cases hnil : remainder = []
  · rw [if_pos hnil]
    refine ⟨w.tail, w.dropped, rfl, ?_, ?_⟩
    · rw [hnil, List.append_nil, htail]
    · rw [hnil]
      rfl
  rw [if_neg hnil]
  by_cases hzero : w.tailCap = 0
  · rw [if_pos hzero]
    have hempty : w.tail = [] := by rw [htail, hzero, List.rtake_zero]
    refine ⟨w.tail, _, rfl, ?_, ?_⟩
    · rw [hempty, hzero, List.rtake_zero]
    · rw [hempty]
      rfl
  rw [if_neg hzero]
  have hslide : (w.tail ++ remainder).drop ((w.tail ++ remainder).length - w.tailCap) =
      (rest ++ remainder).rtake w.tailCap := by
    rw [← rtake_append_rtake, ← htail]
    rfl
  by_cases hover : 0 < (w.tail ++ remainder).length - w.tailCap
  · simp only [if_pos hover]
    refine ⟨_, _, rfl, hslide, ?_⟩
    rw [List.length_drop]
    simp only [List.length_append] at hover ⊢
    omega
  · simp only [if_neg hover]
    refine ⟨_, w.dropped, rfl, ?_, ?_⟩
    · rw [← hslide, Nat.eq_zero_of_not_pos hover, List.drop_zero]
    · rw [List.length_append]
      omega

/-- **One chunk, whatever it fills**: what is held of the stream is held of the longer one. -/
theorem write_holds (h : Holds w stream file) (chunk : Bytes) :
    ∃ w' file', (w.write chunk).run plainHandle file = (.ok w', file') ∧
      Holds w' (stream ++ chunk) file' ∧ w'.headCap = w.headCap ∧ w'.tailCap = w.tailCap := by
  obtain ⟨headCap, tailCap, headLength, produced, tail, dropped, hashed⟩ := w
  obtain ⟨hstored, hhashed, hlength, hproduced, htail, hdropped⟩ := h
  simp only at hstored hhashed hlength hproduced htail hdropped
  unfold SidecarWriter.write
  cases headCap with
  | none =>
    refine ⟨_, _, storeHead_run chunk, ⟨?_, ?_, ?_, ?_, htail, hdropped⟩, rfl, rfl⟩
    · rw [hstored]
      rfl
    · rw [← hhashed]
    · rw [List.length_append, ← hlength]
    · rw [List.length_append, ← hproduced]
  | some cap =>
    have hroom : cap - headLength = cap - stream.length := by
      rw [hlength, hstored, headPart, List.length_take]
      omega
    simp only [hroom]
    by_cases hpos : 0 < cap - stream.length
    · obtain ⟨tail', dropped', hretain, hslide, hcount⟩ := @retain_spec
        ⟨some cap, tailCap, headLength + (chunk.take (cap - stream.length)).length,
          produced + chunk.length, tail, dropped, hashed ++ chunk.take (cap - stream.length)⟩
        (stream.drop cap) (chunk.drop (cap - stream.length)) htail
      rw [if_pos hpos, Prog.run_bind, storeHead_run]
      refine ⟨_, _, congrArg (fun w => (Except.ok w, _)) hretain, ⟨?_, ?_, ?_, ?_, ?_, ?_⟩, rfl,
        rfl⟩ <;> simp only [headPart, restPart, List.take_append, List.drop_append]
      · rw [hstored, headPart]
      · rw [hhashed]
      · rw [hlength, List.length_append]
      · rw [hproduced, List.length_append]
      · exact hslide
      · rw [hcount, hdropped, restPart, List.length_append]
    · obtain ⟨tail', dropped', hretain, hslide, hcount⟩ := @retain_spec
        ⟨some cap, tailCap, headLength, produced + chunk.length, tail, dropped, hashed⟩
        (stream.drop cap) chunk htail
      have hfull : cap - stream.length = 0 := Nat.eq_zero_of_not_pos hpos
      rw [if_neg hpos]
      refine ⟨_, _, congrArg (fun w => (Except.ok w, _)) hretain, ⟨?_, ?_, ?_, ?_, ?_, ?_⟩, rfl,
        rfl⟩ <;> simp only [headPart, restPart, List.take_append, List.drop_append, hfull,
          List.take_zero, List.drop_zero, List.append_nil]
      · exact hstored
      · exact hhashed
      · exact hlength
      · rw [hproduced, List.length_append]
      · exact hslide
      · rw [hcount, hdropped, restPart, List.length_append]

/-- So it is after all chunks. -/
theorem writeChunks_holds (chunks : List Bytes) (h : Holds w stream file) :
    ∃ w' file', (writeChunks chunks w).run plainHandle file = (.ok w', file') ∧
      Holds w' (stream ++ chunks.flatten) file' ∧ w'.headCap = w.headCap ∧
      w'.tailCap = w.tailCap := by
  induction chunks generalizing w stream file with
  | nil =>
    rw [List.flatten_nil, List.append_nil]
    exact ⟨w, file, rfl, h, rfl, rfl⟩
  | cons chunk chunks ih =>
    obtain ⟨w₁, file₁, hrun, hholds, hhead, htail⟩ := write_holds h chunk
    obtain ⟨w₂, file₂, hrest, hall, hhead', htail'⟩ := ih hholds
    rw [List.flatten_cons, ← List.append_assoc]
    refine ⟨w₂, file₂, ?_, hall, hhead'.trans hhead, htail'.trans htail⟩
    rw [writeChunks, Prog.run_bind, hrun]
    exact hrest

theorem finalize_run (sha256 : Bytes → Digest) : (w.finalize sha256).run plainHandle file =
    (.ok ⟨w.headLength, w.tail.length, w.produced, w.dropped, sha256 (w.hashed ++ w.tail)⟩,
      file ++ w.tail) := rfl

end

/-! ## Whole sidecars -/

/-- How much of `n` bytes the head keeps. -/
def headLength (headCap : Option Int) (n : Nat) : Nat :=
  match headCap with
  | none => n
  | some cap => min cap.toNat n

/-- How much of the rest the tail keeps; no cap is a cap of zero. -/
def tailLength (headCap tailCap : Option Int) (n : Nat) : Nat :=
  min (tailCap.getD 0).toNat (n - headLength headCap n)

/-- What is stored of a stream. -/
def retained (headCap tailCap : Option Int) (stream : Bytes) : Bytes :=
  stream.take (headLength headCap stream.length) ++
    (stream.drop (headLength headCap stream.length)).rtake (tailLength headCap tailCap stream.length)

/-- A cap that the constructor accepts. -/
def Acceptable (cap : Option Int) : Prop := ∀ c, cap = some c → 0 ≤ c

theorem validateCap_ok {cap : Option Int} (h : Acceptable cap) (role : String) :
    validateCap cap role = .ok () := by
  cases cap with
  | none => rfl
  | some c => exact if_neg (Int.not_lt.mpr (h c rfl))

theorem create_run {headCap tailCap : Option Int} (hhead : Acceptable headCap)
    (htail : Acceptable tailCap) (file : Bytes) :
    ∃ w, (SidecarWriter.create headCap tailCap).run plainHandle file = (.ok w, []) ∧
      Holds w [] [] ∧ w.headCap = headCap.map Int.toNat ∧ w.tailCap = (tailCap.getD 0).toNat := by
  refine ⟨⟨headCap.map Int.toNat, (tailCap.getD 0).toNat, 0, 0, [], 0, []⟩, ?_, ?_, rfl, rfl⟩
  · rw [SidecarWriter.create, validateCap_ok hhead, validateCap_ok htail]
    rfl
  · refine ⟨(headPart_nil _).symm, rfl, rfl, rfl, ?_, ?_⟩
    · rw [restPart_nil, List.rtake_nil]
    · rw [restPart_nil]
      rfl

/-- The two slices, by their lengths. -/
theorem headPart_append_rtake (headCap tailCap : Option Int) (stream : Bytes) :
    headPart (headCap.map Int.toNat) stream = stream.take (headLength headCap stream.length) ∧
    (restPart (headCap.map Int.toNat) stream).rtake (tailCap.getD 0).toNat =
      (stream.drop (headLength headCap stream.length)).rtake
        (tailLength headCap tailCap stream.length) := by
  cases headCap with
  | none => simp [headPart, restPart, headLength, tailLength, List.rtake]
  | some c =>
    have hdrop : stream.drop (min c.toNat stream.length) = stream.drop c.toNat := by
      rcases Nat.le_total c.toNat stream.length with hle | hle
      · rw [Nat.min_eq_left hle]
      · rw [Nat.min_eq_right hle, List.drop_of_length_le hle, List.drop_length]
    simp only [Option.map_some, headPart, restPart, headLength, tailLength, hdrop]
    refine ⟨List.take_eq_take_min .., ?_⟩
    unfold List.rtake
    rw [List.length_drop]
    congr 1
    omega

/-- A summary is right about a stream. -/
structure Exact (sha256 : Bytes → Digest) (headCap tailCap : Option Int) (stream : Bytes)
    (summary : SidecarSummary) : Prop where
  head : summary.headLength = headLength headCap stream.length
  tail : summary.tailLength = tailLength headCap tailCap stream.length
  produced : summary.produced = stream.length
  balance : summary.produced = summary.headLength + summary.tailLength + summary.dropped
  sidecarHash : summary.sidecarHash = sha256 (retained headCap tailCap stream)

theorem length_retained (headCap tailCap : Option Int) (stream : Bytes) :
    (retained headCap tailCap stream).length =
      headLength headCap stream.length + tailLength headCap tailCap stream.length := by
  have hle : headLength headCap stream.length ≤ stream.length := by
    cases headCap with
    | none => exact Nat.le_refl _
    | some c => exact Nat.min_le_right _ _
  have htail : tailLength headCap tailCap stream.length ≤
      stream.length - headLength headCap stream.length := Nat.min_le_right _ _
  rw [retained, List.length_append, List.length_take, length_rtake, List.length_drop]
  omega

theorem session_run (sha256 : Bytes → Digest) {headCap tailCap : Option Int} (chunks : List Bytes)
    (hhead : Acceptable headCap) (htail : Acceptable tailCap) (file : Bytes) :
    ∃ summary, (session sha256 headCap tailCap chunks).run plainHandle file =
      (.ok summary, retained headCap tailCap chunks.flatten) ∧
      Exact sha256 headCap tailCap chunks.flatten summary := by
  obtain ⟨w₀, hcreate, hstart, hcap₀, hcap₀'⟩ := create_run hhead htail file
  obtain ⟨w, file', hwrites, hholds, hcap, hcap'⟩ := writeChunks_holds chunks hstart
  rw [List.nil_append] at hholds
  obtain ⟨hheadPart, htailPart⟩ := headPart_append_rtake headCap tailCap chunks.flatten
  have hfile : file' = chunks.flatten.take (headLength headCap chunks.flatten.length) := by
    rw [hholds.stored, hcap, hcap₀, hheadPart]
  have htail : w.tail = (chunks.flatten.drop (headLength headCap chunks.flatten.length)).rtake
      (tailLength headCap tailCap chunks.flatten.length) := by
    rw [hholds.tail, hcap, hcap₀, hcap', hcap₀', htailPart]
  have hretained : file' ++ w.tail = retained headCap tailCap chunks.flatten := by
    rw [retained, ← hfile, ← htail]
  have hlengths := length_retained headCap tailCap chunks.flatten
  have hheadLength : file'.length = headLength headCap chunks.flatten.length := by
    have hle := Nat.min_le_right
    rw [hfile, List.length_take, Nat.min_eq_left]
    cases headCap with
    | none => exact Nat.le_refl _
    | some c => exact hle _ _
  rw [← hretained, List.length_append, hheadLength] at hlengths
  refine ⟨⟨w.headLength, w.tail.length, w.produced, w.dropped, sha256 (w.hashed ++ w.tail)⟩, ?_,
    ?_, ?_, hholds.produced, ?_, ?_⟩
  · rw [session, Prog.run_bind, hcreate]
    simp only [Prog.run_bind, hwrites]
    rw [finalize_run, hretained]
  · exact hholds.headLength.trans hheadLength
  · show w.tail.length = _
    omega
  · have hall := headPart_length_add w.headCap chunks.flatten
    have hdropped := hholds.dropped
    have hstored := congrArg List.length hholds.stored
    show w.produced = w.headLength + w.tail.length + w.dropped
    rw [hholds.produced, hholds.headLength]
    omega
  · show sha256 (w.hashed ++ w.tail) = _
    rw [hholds.hashed, hretained]

/-- What a verification on a healthy disk comes to. -/
theorem verifySidecar_healthy [DecidableEq U] {u : U} (sha256 : Bytes → Digest) {s : Fs U}
    {name : String} {b : Bytes} (hash : Digest) (head tail : Nat)
    (hname : checkRegularChildName name = .ok ()) (hcontent : s.content name = some b) :
    (verifySidecar sha256 true name hash.text head tail).ensures (healthy u) (fun out _ =>
      (out = .ok () ↔ b.length = head + tail ∧ sha256 b = hash)) s := by
  have hsum : ((head : Int) + tail).toNat = head + tail := by omega
  unfold verifySidecar
  rw [if_neg (by omega)]
  simp only [hsum]
  refine Prog.ensures_bind _ (readVerifiedRegularChild_healthy (Nat.le_refl _) hash.valid hname
    hcontent) ?_ ?_
  · intro raw s' hread
    obtain ⟨hraw, _⟩ := hread
    refine iff_of_true rfl ?_
    unfold verifyRaw at hraw
    split at hraw
    · cases hraw
    split at hraw
    · cases hraw
    · rename_i hlength
      split at hraw
      · cases hraw
      · rename_i hhash
        exact ⟨not_not.mp hlength, Digest.text_inj (not_not.mp hhash)⟩
  · intro e s' hread
    obtain ⟨hraw, _⟩ := hread
    refine iff_of_false (by intro h; cases h) ?_
    intro hverified
    obtain ⟨hlength, rfl⟩ := hverified
    simp [verifyRaw, hlength] at hraw

/-- **Sidecar retention is exact and independent of chunking.** However the stream is cut, the file
ends as its two slices and the summary tells their lengths and hash; a verification with these
values accepts a child with just these bytes and no child of another length. -/
theorem sidecar_retention_exact (sha256 : Bytes → Digest) (chunks : List Bytes)
    (headCap tailCap : Option Int) (hhead : Acceptable headCap) (htail : Acceptable tailCap)
    (file : Bytes) :
    ∃ summary, (session sha256 headCap tailCap chunks).run plainHandle file =
        (.ok summary, retained headCap tailCap chunks.flatten) ∧
      Exact sha256 headCap tailCap chunks.flatten summary ∧
      ∀ (U : Type) [DecidableEq U] (u : U) (disk : Disk u) (s : disk.State) name b, disk.Healthy →
        checkRegularChildName name = .ok () → (disk.files s).content name = some b →
        let verified := ((verifySidecar sha256 true name summary.sidecarHash.text summary.headLength
          summary.tailLength).run disk.answer s).1
        (b = retained headCap tailCap chunks.flatten → verified = .ok ()) ∧
        (b.length ≠ (retained headCap tailCap chunks.flatten).length → ∃ e, verified = .error e) := by
  obtain ⟨summary, hrun, hexact⟩ := session_run sha256 chunks hhead htail file
  refine ⟨summary, hrun, hexact, ?_⟩
  intro U _ u disk s name b hhealthy hname hcontent
  have hverified := Disk.run_healthy hhealthy (verifySidecar_healthy sha256 summary.sidecarHash
    summary.headLength summary.tailLength hname hcontent)
  have hlength := length_retained headCap tailCap chunks.flatten
  rw [← hexact.head, ← hexact.tail] at hlength
  refine ⟨?_, ?_⟩
  · intro hb
    subst hb
    exact hverified.mpr ⟨hlength, hexact.sidecarHash.symm⟩
  · intro hother
    generalize ((verifySidecar sha256 true name summary.sidecarHash.text summary.headLength
      summary.tailLength).run disk.answer s).1 = verified at hverified ⊢
    cases verified with
    | error e => exact ⟨e, rfl⟩
    | ok _ =>
      obtain ⟨hsame, _⟩ := hverified.mp rfl
      exact absurd (hsame.trans hlength.symm) hother

/-- The SHA-256 of the text `abe`. -/
def abeDigest : Digest :=
  ⟨"d81a65c1de02e17d9cfd88d68a8768fd1e3262f5e2fb859382fe33734b3f3ca8", by decide⟩

/-- The text `abcde` in three chunks, with room for two bytes and one. -/
theorem sidecar_retention_exact_abcde : ∃ summary,
    (session (fun _ => abeDigest) (some 2) (some 1) [[97, 98, 99], [], [100, 101]]).run plainHandle
      [] = (.ok summary, [97, 98, 101]) ∧
    ((verifySidecar (fun _ => abeDigest) true "log.bin" summary.sidecarHash.text summary.headLength
      summary.tailLength).run (plainDisk ()).answer
        (Fs.boot (fun _ => some 0) fun _ => [97, 98, 101])).1 = .ok () := by
  obtain ⟨summary, hrun, _, hverify⟩ := sidecar_retention_exact (fun _ => abeDigest)
    [[97, 98, 99], [], [100, 101]] (some 2) (some 1) (fun c hc => by cases hc; decide)
    (fun c hc => by cases hc; decide) []
  exact ⟨summary, hrun, (hverify Unit () (plainDisk ()) _ "log.bin" [97, 98, 101]
    (plainDisk_healthy ()) (by decide) rfl).1 rfl⟩

end DrStore.Documents.Sidecar
