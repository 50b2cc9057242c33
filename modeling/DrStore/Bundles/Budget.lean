import DrStore.Bundles.Audit
import DrStore.Documents.BoundedRead

/-! # The byte budget of an audit (artifact_bundle/reading.py, `audit`)

The remainder that `audit` hands to each read follows the sums of the declared lengths that
`_validate_manifest_limits` has checked. What is read is counted on any disk, whatever the
children hold and however the reads are cut. -/
namespace DrStore.Bundles.Budget
open DrStore.Base.Programs DrStore.Documents.FileSystem DrStore.Documents.CanonicalJson
open DrStore.Documents.Decoding DrStore.Documents.RoundTrip DrStore.Documents.VerifiedRead
open DrStore.Documents.BoundedRead
open DrStore.Bundles.Models DrStore.Bundles.Contents DrStore.Bundles.Reading DrStore.Bundles.Audit
open DrStore.Bundles.OneShot DrStore.Store.ContentAddressing

variable {T P D : Type}

/-! ## The calls of an audit -/

/-- Each artifact with the bound that its read is given, in Python's integers. -/
def auditCalls (limits : BundleReadLimits) :
    Nat → List ArtifactDescriptor → List (ArtifactDescriptor × Int)
  | _, [] => []
  | verifiedTotal, d :: rest =>
    (d, min (limits.maxBytesPerArtifact : Int)
      (limits.maxTotalArtifactBytes - (verifiedTotal : Int))) ::
        auditCalls limits (verifiedTotal + d.byteLength) rest

def performCalls (L : Codec P) (supported : Bool) :
    List (ArtifactDescriptor × Int) → ReadScript T BundleReadError Unit
  | [] => .pure ()
  | (d, maxBytes) :: rest =>
    readVerifiedArtifact L supported d maxBytes.toNat >>= fun _ => performCalls L supported rest

theorem validateDeclared_cons {limits : BundleReadLimits} {total : Nat} {d : ArtifactDescriptor}
    {rest : List ArtifactDescriptor} (h : validateDeclared limits total (d :: rest) = .ok ()) :
    d.byteLength ≤ limits.maxBytesPerArtifact ∧
      total + d.byteLength ≤ limits.maxTotalArtifactBytes ∧
      validateDeclared limits (total + d.byteLength) rest = .ok () := by
  rw [validateDeclared] at h
  split at h
  · cases h
  · rename_i heach
    split at h
    · cases h
    · rename_i htotal
      exact ⟨Nat.le_of_not_lt heach, Nat.le_of_not_lt htotal, h⟩

/-- The bounds cover the declared lengths, and are never negative. -/
theorem auditCalls_bounded {limits : BundleReadLimits} (ds : List ArtifactDescriptor) {total : Nat}
    (h : validateDeclared limits total ds = .ok ()) :
    ∀ d maxBytes, (d, maxBytes) ∈ auditCalls limits total ds → (d.byteLength : Int) ≤ maxBytes := by
  induction ds generalizing total with
  | nil => exact fun _ _ hmem => by cases hmem
  | cons d₀ rest ih =>
    obtain ⟨heach, htotal, hrest⟩ := validateDeclared_cons h
    intro d maxBytes hmem
    obtain heq | hmem := List.mem_cons.mp hmem
    · cases heq
      omega
    · exact ih hrest d maxBytes hmem

/-- The audit makes these calls. -/
theorem auditArtifacts_calls {L : Codec P} {limits : BundleReadLimits} {supported : Bool}
    (ds : List ArtifactDescriptor) {total : Nat} (h : validateDeclared limits total ds = .ok ()) :
    (auditArtifacts L limits supported total ds : ReadScript T BundleReadError Unit) =
      performCalls L supported (auditCalls limits total ds) := by
  induction ds generalizing total with
  | nil => rfl
  | cons d rest ih =>
    obtain ⟨_, htotal, hrest⟩ := validateDeclared_cons h
    have hbound : (min (limits.maxBytesPerArtifact : Int)
        (limits.maxTotalArtifactBytes - (total : Int))).toNat =
          min limits.maxBytesPerArtifact (limits.maxTotalArtifactBytes - total) := by omega
    rw [auditArtifacts, auditCalls, performCalls, hbound, ih hrest]

/-! ## What is read -/

variable [DecidableEq T]

/-- For which child each descriptor was opened, what was read of each child, and of all but the
manifest. -/
structure Meter (T : Type) where
  child : Descriptor T → Option String
  bytes : String → Nat
  total : Nat

def Meter.zero : Meter T := ⟨fun _ => none, fun _ => 0, 0⟩

def Meter.after (m : Meter T) : (op : Syscall T) → SysReply op → Meter T
  | .openChild _ name, .ok fd => { m with child := Function.update m.child fd (some name) }
  | .read fd _, .ok chunk => { m with
      bytes := fun name =>
        if m.child fd = some name then m.bytes name + chunk.length else m.bytes name
      total := if m.child fd = some manifestName then m.total else m.total + chunk.length }
  | _, _ => m

/-- Any disk, failures included, with the meter. -/
def metered (t : T) (s : Fs T × Meter T) (op : Syscall T) (r : SysReply op)
    (s' : Fs T × Meter T) : Prop :=
  lawful t s.1 op r s'.1 ∧ s'.2 = s.2.after op r

/-- Any run on a disk can be metered. -/
theorem ensures_of_metered {t : T} {ε α : Type} {p : Script T ε α}
    {Q : Except ε α → Fs T × Meter T → Prop} {s : Fs T} {m : Meter T}
    (h : p.ensures (metered t) Q (s, m)) :
    p.ensures (lawful t) (fun out s' => ∃ m', Q out (s', m')) s := by
  induction p generalizing s m with
  | pure a => exact ⟨m, h⟩
  | fail e => exact ⟨m, h⟩
  | exec op k ih => exact fun r s' hdoes => ih r (h r (s', m.after op r) ⟨hdoes, rfl⟩)

/-- What was read meanwhile: `n` bytes of one child. -/
structure Adds (name : String) (n : Nat) (m m' : Meter T) : Prop where
  bytes : ∀ other, m'.bytes other = m.bytes other + if other = name then n else 0
  total : m'.total = m.total + n

omit [DecidableEq T] in
theorem Adds.refl (name : String) (m m' : Meter T) (hbytes : m'.bytes = m.bytes)
    (htotal : m'.total = m.total) : Adds name 0 m m' :=
  ⟨fun other => by rw [hbytes]; simp, by rw [htotal, Nat.add_zero]⟩

/-- One more read of the child. -/
theorem Adds.read {name : String} {n : Nat} {m m' : Meter T} {fd : Descriptor T}
    (h : Adds name n m m') (k : Nat) (chunk : Bytes) (hname : name ≠ manifestName) (hchild : m'.child fd = some name) :
    Adds name (n + chunk.length) m (m'.after (.read fd k) (.ok chunk)) := by
  refine ⟨fun other => ?_, ?_⟩
  · simp only [Meter.after, hchild, h.bytes, Option.some.injEq]
    by_cases hother : other = name
    · subst hother
      simp [Nat.add_assoc]
    · simp [hother, Ne.symm hother]
  · have hmanifest : ¬ m'.child fd = some manifestName := by
      rw [hchild]
      exact fun h => hname (Option.some.inj h)
    simp only [Meter.after, if_neg hmanifest, h.total, Nat.add_assoc]

variable {t : T} {s : Fs T} {m : Meter T}

/-- However the reads go, no more than the limit is read; what is returned was read. -/
theorem readUpTo_metered {fd : Descriptor T} {i : Inode T} {name : String} (limit : Nat)
    (hhandle : s.handles fd = some (.reading i)) (hstart : s.offset fd = 0) (chunks : Bytes)
    (hchunks : chunks <+: s.bytes i) (hbounded : chunks.length ≤ limit)
    (hname : name ≠ manifestName) {m' : Meter T}
    (hadds : Adds name chunks.length m m') (hchild : m'.child fd = some name) :
    (readUpTo fd readChunkBytes limit chunks).ensures (metered t) (fun out s' =>
      ∃ n, n ≤ limit ∧ Adds name n m s'.2 ∧ (∃ k, s'.1 = s.advance fd k) ∧
        ∀ raw, out = .ok raw → n = raw.length ∧ Scanned limit (s.bytes i) raw)
      (s.advance fd chunks.length, m') := by
  induction chunks using readUpTo.induct limit generalizing m' with
  | case1 chunks hlimit ih =>
    rw [readUpTo, dif_pos hlimit]
    intro r s' hdoes
    obtain ⟨s', m''⟩ := s'
    obtain ⟨heffect, hmeter⟩ := hdoes
    obtain rfl : m'' = _ := hmeter
    cases r with
    | error e =>
      obtain rfl : s' = s.advance fd chunks.length := heffect
      exact ⟨chunks.length, hbounded, hadds, ⟨_, rfl⟩, fun _ hraw => by cases hraw⟩
    | ok chunk =>
      obtain ⟨j, hj, ⟨k, hk, hpart⟩, hend, rfl⟩ := heffect
      have hj : s.handles fd = some (.reading j) := hj
      rw [hhandle] at hj
      cases hj
      have hoffset : (s.advance fd chunks.length).offset fd = chunks.length := by
        simp [Fs.advance, hstart]
      have hbytes : (s.advance fd chunks.length).bytes i = s.bytes i := rfl
      rw [hoffset, hbytes] at hpart hend
      have hread : chunk.length ≤ k := by
        rw [hpart]
        exact List.length_take_le _ _
      have hadds' := hadds.read (min readChunkBytes (limit - chunks.length)) chunk hname hchild
      obtain ⟨rest, hrest⟩ := hchunks
      by_cases hnil : chunk = []
      · subst hnil
        simp only [↓reduceDIte]
        refine ⟨chunks.length, hbounded, hadds', ⟨_, by rw [advance_advance]⟩, ?_⟩
        intro raw hraw
        cases hraw
        refine ⟨rfl, ⟨rest, hrest⟩, hbounded, fun _ => ?_⟩
        have hshort := (hend rfl).resolve_left (by simp only [readChunkBytes]; omega)
        exact List.IsPrefix.eq_of_length_le ⟨rest, hrest⟩ hshort
      · rw [← hrest, List.drop_left] at hpart
        simp only [dif_neg hnil, advance_advance, ← List.length_append]
        rw [← List.length_append] at hadds'
        refine ih chunk hnil ⟨rest.drop k, ?_⟩ ?_ hadds' hchild
        · rw [hpart, List.append_assoc, List.take_append_drop, hrest]
        · rw [List.length_append]
          omega
  | case2 chunks hlimit =>
    rw [readUpTo, dif_neg hlimit]
    refine ⟨chunks.length, hbounded, hadds, ⟨_, rfl⟩, fun raw hraw => ?_⟩
    cases hraw
    exact ⟨rfl, hchunks, hbounded, fun h => absurd h hlimit⟩

/-- What a verified read comes to: at most one byte more than the bound is read of the child, and
what it returns is all of it. -/
def Verified (sha256 : Bytes → Digest) (maxBytes expectedByteLength : Nat)
    (expectedSha256 name : String) (s : Fs T) (m : Meter T) {ε : Type} (out : Except ε Bytes)
    (s' : Fs T × Meter T) : Prop :=
  Untouched s s'.1 ∧ ∃ n, n ≤ maxBytes + 1 ∧ Adds name n m s'.2 ∧
    ∀ raw, out = .ok raw → n = expectedByteLength ∧ s.content name = some raw ∧
      raw.length = expectedByteLength ∧ (sha256 raw).text = expectedSha256

section

variable {sha256 : Bytes → Digest} {maxBytes expectedByteLength : Nat} {expectedSha256 : String}

omit [DecidableEq T] in
theorem verified_nothing {name : String} {ε : Type} {e : ε} {s' : Fs T} {m' : Meter T}
    (hsame : Untouched s s') (hbytes : m'.bytes = m.bytes) (htotal : m'.total = m.total) :
    Verified sha256 maxBytes expectedByteLength expectedSha256 name s m
      (.error e : Except ε Bytes) (s', m') :=
  ⟨hsame, 0, Nat.zero_le _, .refl name m m' hbytes htotal, fun _ hraw => by cases hraw⟩

theorem readVerifiedChild_metered {child : Descriptor T} {i : Inode T} {name : String}
    (hhandle : s.handles child = some (.reading i)) (hstart : s.offset child = 0)
    (hname : s.names name = some i) (hartifact : name ≠ manifestName)
    (hchild : m.child child = some name) :
    (readVerifiedChild sha256 maxBytes expectedByteLength expectedSha256 child).ensures (metered t)
      (Verified sha256 maxBytes expectedByteLength expectedSha256 name s m) (s, m) := by
  intro r s' hdoes
  obtain ⟨s', m'⟩ := s'
  obtain ⟨heffect, hmeter⟩ := hdoes
  obtain rfl : s' = s := heffect
  obtain rfl : m' = m := hmeter
  match r with
  | .error e => exact verified_nothing ⟨rfl, rfl⟩ rfl rfl
  | .ok false => exact verified_nothing ⟨rfl, rfl⟩ rfl rfl
  | .ok true =>
    have hread := readUpTo_metered (t := t) (maxBytes + 1) hhandle hstart []
      List.nil_prefix (Nat.zero_le _) hartifact (.refl name m' m' rfl rfl) hchild
    rw [List.length_nil, advance_zero] at hread
    show ((DrStore.Documents.CanonicalJson.readBoundedChildDescriptor ⟨.readBytes, none, some child⟩
      child (maxBytes + 1) []).settle _).ensures _ _ _
    rw [readUpTo_default]
    refine (Prog.ensures_settle _ _ _ _).mpr ((Prog.ensures_settle _ _ _ _).mpr
      (Prog.ensures_mono hread ?_))
    intro out s₁ h
    obtain ⟨n, hn, hadds, ⟨k, hk⟩, hraw⟩ := h
    have hsame : Untouched s' s₁.1 := by rw [hk]; exact ⟨rfl, rfl⟩
    cases out with
    | error e => exact ⟨hsame, n, hn, hadds, fun _ hraw => by cases hraw⟩
    | ok raw =>
      obtain ⟨rfl, hscanned⟩ := hraw raw rfl
      show (Prog.ofExcept (verifyRaw sha256 maxBytes expectedByteLength expectedSha256
        raw)).ensures _ _ _
      cases hverify : verifyRaw sha256 maxBytes expectedByteLength expectedSha256 raw with
      | error e => exact ⟨hsame, raw.length, hn, hadds, fun _ hraw => by cases hraw⟩
      | ok raw' =>
        refine ⟨hsame, raw.length, hn, hadds, fun raw'' hraw => ?_⟩
        cases hraw
        rw [verifyRaw] at hverify
        split at hverify
        · cases hverify
        rename_i hlong
        split at hverify
        · cases hverify
        rename_i hlength
        split at hverify
        · cases hverify
        rename_i hhash
        cases hverify
        obtain rfl := hscanned.le hlong
        have hcontent : s'.content name = some (s'.bytes i) := by rw [Fs.content, hname]; rfl
        exact ⟨not_not.mp hlength, hcontent, not_not.mp hlength, not_not.mp hhash⟩

theorem readVerifiedRegularChild_metered {supported : Bool} {name : String}
    (hartifact : name ≠ manifestName) :
    (readVerifiedRegularChild sha256 maxBytes expectedByteLength expectedSha256 supported
      name).ensures (metered t)
      (Verified sha256 maxBytes expectedByteLength expectedSha256 name s m) (s, m) := by
  have hnothing : ∀ e : ChildReadFailure, Verified sha256 maxBytes expectedByteLength
      expectedSha256 name s m (.error e : Except ChildReadFailure Bytes) (s, m) :=
    fun e => verified_nothing ⟨rfl, rfl⟩ rfl rfl
  unfold readVerifiedRegularChild
  split
  · exact hnothing _
  split
  · exact hnothing _
  split
  · exact hnothing _
  split
  · exact hnothing _
  intro r s' hdoes
  obtain ⟨s', m'⟩ := s'
  obtain ⟨heffect, hmeter⟩ := hdoes
  cases r with
  | error e =>
    obtain rfl : s' = s := heffect
    obtain rfl : m' = m := hmeter
    exact verified_nothing ⟨rfl, rfl⟩ rfl rfl
  | ok directory =>
    obtain ⟨_, rfl⟩ := heffect
    obtain rfl : m' = m := hmeter
    have hclose : ∀ (fd : Descriptor T) (out : Except ChildReadFailure Bytes) (s' : Fs T × Meter T),
        Verified sha256 maxBytes expectedByteLength expectedSha256 name s m' out s' →
        (Prog.closing (.close fd) out : Script T ChildReadFailure Bytes).ensures (metered t)
          (Verified sha256 maxBytes expectedByteLength expectedSha256 name s m') s' := by
      intro fd out s' h r s'' hdoes
      obtain ⟨s'', m''⟩ := s''
      obtain ⟨heffect, hmeter⟩ := hdoes
      obtain rfl : s'' = s'.1.release t fd := heffect
      obtain rfl : m'' = s'.2 := by cases r <;> exact hmeter
      have hsame : Untouched s (s'.1.release t fd) := h.1
      have hend : Verified sha256 maxBytes expectedByteLength expectedSha256 name s m' out
          (s'.1.release t fd, s'.2) := ⟨hsame, h.2⟩
      cases out with
      | ok raw => exact hend
      | error e => exact hend
    refine (Prog.ensures_settle _ _ _ _).mpr ?_
    intro r s'' hdoes
    obtain ⟨s'', m''⟩ := s''
    obtain ⟨heffect, hmeter⟩ := hdoes
    cases r with
    | error e =>
      obtain rfl : s'' = s.pin t directory .directory := heffect
      obtain rfl : m'' = m' := hmeter
      exact hclose directory _ _ (verified_nothing ⟨rfl, rfl⟩ rfl rfl)
    | ok child =>
      obtain ⟨_, _, i, hname, rfl⟩ := heffect
      obtain rfl : m'' = _ := hmeter
      have hreading : ((s.pin t directory .directory).pin t child (.reading i)).handles child =
          some (.reading i) := by simp [Fs.pin, Fs.note]
      have hstart : ((s.pin t directory .directory).pin t child (.reading i)).offset child = 0 := by
        simp [Fs.pin, Fs.note]
      have hopened : (m'.after (.openChild directory name) (.ok child)).child child = some name := by
        simp [Meter.after]
      refine (Prog.ensures_settle _ _ _ _).mpr (Prog.ensures_mono
        (readVerifiedChild_metered hreading hstart hname hartifact hopened) ?_)
      intro out s₁ h
      obtain ⟨hsame, n, hn, hadds, hraw⟩ := h
      have hverified : Verified sha256 maxBytes expectedByteLength expectedSha256 name s m' out s₁ :=
        ⟨hsame, n, hn, ⟨hadds.bytes, hadds.total⟩, hraw⟩
      refine Prog.ensures_mono (hclose child out s₁ hverified) fun out s₂ h => ?_
      exact hclose directory out s₂ h

end

/-! ## The manifest -/

omit [DecidableEq T] in
/-- Only what writes, replaces or removes changes the files. -/
def readsOnly : Syscall T → Prop
  | .createTemp _ _ | .write _ _ | .replace _ _ _ | .unlink _ _ => False
  | _ => True

theorem untouched_of_readsOnly {s' : Fs T} {op : Syscall T} {r : SysReply op} (hop : readsOnly op)
    (h : lawful t s op r s') : Untouched s s' := by
  cases op with
  | createTemp => exact hop.elim
  | write => exact hop.elim
  | replace => exact hop.elim
  | unlink => exact hop.elim
  | openDirectory =>
    cases r with
    | error e =>
      obtain rfl : s' = s := h
      exact ⟨rfl, rfl⟩
    | ok fd =>
      obtain ⟨_, rfl⟩ := h
      exact ⟨rfl, rfl⟩
  | close fd =>
    obtain rfl : s' = s.release t fd := h
    exact ⟨rfl, rfl⟩
  | openChild directory name =>
    cases r with
    | error e =>
      obtain rfl : s' = s := h
      exact ⟨rfl, rfl⟩
    | ok fd =>
      obtain ⟨_, _, i, _, rfl⟩ := h
      exact ⟨rfl, rfl⟩
  | fstat fd =>
    obtain rfl : s' = s := h
    exact ⟨rfl, rfl⟩
  | read fd n =>
    cases r with
    | error e =>
      obtain rfl : s' = s := h
      exact ⟨rfl, rfl⟩
    | ok chunk =>
      obtain ⟨i, _, _, _, rfl⟩ := h
      exact ⟨rfl, rfl⟩

/-- The files are as they were, and no artifact was read. -/
structure Unread (s : Fs T) (m : Meter T) (s' : Fs T × Meter T) : Prop where
  files : Untouched s s'.1
  bytes : ∀ name, name ≠ manifestName → s'.2.bytes name = m.bytes name
  total : s'.2.total = m.total

omit [DecidableEq T] in
theorem Unread.refl (s : Fs T) (m : Meter T) : Unread s m (s, m) := ⟨⟨rfl, rfl⟩, fun _ _ => rfl, rfl⟩

/-- A call that reads nothing, or reads of the manifest. -/
theorem Unread.call {s₁ s₂ : Fs T × Meter T} (h : Unread s m s₁) {op : Syscall T} {r : SysReply op}
    (hdoes : metered t s₁ op r s₂) (hop : readsOnly op)
    (hmanifest : ∀ fd n, op = .read fd n → s₁.2.child fd = some manifestName) : Unread s m s₂ := by
  obtain ⟨heffect, hmeter⟩ := hdoes
  have hfiles := h.files.trans (untouched_of_readsOnly hop heffect)
  have hsame : (∀ name, name ≠ manifestName → (s₁.2.after op r).bytes name = s₁.2.bytes name) ∧
      (s₁.2.after op r).total = s₁.2.total := by
    cases op with
    | read fd n =>
      cases r with
      | error e => exact ⟨fun _ _ => rfl, rfl⟩
      | ok chunk =>
        have hchild := hmanifest fd n rfl
        refine ⟨fun name hname => ?_, if_pos hchild⟩
        refine if_neg ?_
        rw [hchild]
        exact fun h => hname (Option.some.inj h).symm
    | openChild directory name => cases r <;> exact ⟨fun _ _ => rfl, rfl⟩
    | openDirectory => exact ⟨fun _ _ => rfl, rfl⟩
    | createTemp => exact ⟨fun _ _ => rfl, rfl⟩
    | write => exact ⟨fun _ _ => rfl, rfl⟩
    | close => exact ⟨fun _ _ => rfl, rfl⟩
    | replace => exact ⟨fun _ _ => rfl, rfl⟩
    | unlink => exact ⟨fun _ _ => rfl, rfl⟩
    | fstat => exact ⟨fun _ _ => rfl, rfl⟩
  rw [← hmeter] at hsame
  exact ⟨hfiles, fun name hname => (hsame.1 name hname).trans (h.bytes name hname),
    hsame.2.trans h.total⟩

theorem readBounded_unread {l : ReadLocals T} {fd : Descriptor T} {limit : Nat} (chunks : Bytes)
    {s₁ : Fs T × Meter T} (h : Unread s m s₁) (hchild : s₁.2.child fd = some manifestName) :
    (DrStore.Documents.CanonicalJson.readBoundedChildDescriptor l fd limit chunks).ensures (metered t)
      (fun _ s' => Unread s m s') s₁ := by
  induction chunks using DrStore.Documents.CanonicalJson.readBoundedChildDescriptor.induct limit generalizing s₁ with
  | case1 chunks hlimit ih =>
    rw [DrStore.Documents.CanonicalJson.readBoundedChildDescriptor, if_pos hlimit]
    intro r s₂ hdoes
    have hread : ∀ fd' n, Syscall.read fd (min readChunkBytes (limit - chunks.length)) =
        .read fd' n → s₁.2.child fd' = some manifestName := by
      intro fd' n heq
      cases heq
      exact hchild
    have hnext := h.call hdoes trivial hread
    have hchild' : s₂.2.child fd = some manifestName := by
      rw [hdoes.2]
      cases r <;> exact hchild
    cases r with
    | error e => exact hnext
    | ok chunk =>
      by_cases hmore : 0 < chunk.length ∧ chunks.length < limit
      · simp only [if_pos hmore]
        exact ih chunk hmore hnext hchild'
      · simp only [if_neg hmore]
        exact hnext
  | case2 chunks hlimit =>
    rw [DrStore.Documents.CanonicalJson.readBoundedChildDescriptor, if_neg hlimit]
    exact h

theorem closingRead_unread {cause : Option ReadCause} {fd : Option (Descriptor T)}
    {s₁ : Fs T × Meter T} (h : Unread s m s₁) :
    (closingRead cause fd : Script T DocumentError _).ensures (metered t)
      (fun _ s' => Unread s m s') s₁ := by
  cases fd with
  | none => exact h
  | some fd =>
    intro r s₂ hdoes
    have h₂ := h.call hdoes trivial (fun _ _ h => by cases h)
    cases r <;> exact h₂

theorem closings_unread {l : ReadLocals T} {cause : Option ReadCause} {s₁ : Fs T × Meter T}
    {k : Option ReadCause → Script T DocumentError Answer} (h : Unread s m s₁)
    (hk : ∀ cause s₂, Unread s m s₂ →
      (k cause).ensures (metered t) (fun _ s' => Unread s m s') s₂) :
    (closingRead cause l.childDescriptor >>= fun cause =>
      closingRead cause l.directoryDescriptor >>= k).ensures (metered t)
      (fun _ s' => Unread s m s') s₁ := by
  refine Prog.ensures_bind _ (closingRead_unread h) ?_ (fun _ _ h => h)
  intro cause s₂ h₂
  exact Prog.ensures_bind _ (closingRead_unread h₂) hk (fun _ _ h => h)


theorem readBytes_unread {file : CanonicalJsonFile} {supported : Bool}
    (hname : file.name = manifestName) :
    (readBytes file supported).ensures (metered t) (fun _ s' => Unread s m s') (s, m) := by
  unfold readBytes
  split
  · exact .refl s m
  refine (Prog.ensures_settle _ _ _ _).mpr (Prog.ensures_mono (Q := fun _ s' => Unread s m s') ?_ ?_)
  · intro r s₁ hdoes
    have h₁ := (Unread.refl s m).call hdoes trivial (fun _ _ h => by cases h)
    cases r with
    | error e => exact h₁
    | ok directory =>
      intro r s₂ hdoes
      have h₂ := h₁.call hdoes trivial (fun _ _ h => by cases h)
      cases r with
      | error e => exact h₂
      | ok child =>
        have hchild : s₂.2.child child = some manifestName := by
          rw [hdoes.2, ← hname]
          exact Function.update_self ..
        intro r s₃ hdoes
        have h₃ := h₂.call hdoes trivial (fun _ _ h => by cases h)
        have hchild₃ : s₃.2.child child = some manifestName := by
          rw [hdoes.2]
          exact hchild
        cases r with
        | error e => exact h₃
        | ok regular =>
          cases regular with
          | false => exact h₃
          | true =>
            show Prog.ensures (metered t) (DrStore.Documents.CanonicalJson.readBoundedChildDescriptor
              ⟨.readBytes, some directory, some child⟩ child (file.maxBytes + 1) [] >>= _) _ _
            refine Prog.ensures_bind (fun _ s' => Unread s m s') (readBounded_unread [] h₃ hchild₃) ?_
              (fun _ _ h => h)
            intro raw s₄ h₄
            split
            · exact h₄
            · exact h₄
  · intro out s₁ h
    cases out with
    | ok ended => exact closings_unread h fun cause s₂ h₂ => by cases cause <;> exact h₂
    | error failure => exact closings_unread h fun cause s₂ h₂ => by cases cause <;> exact h₂

theorem readDocument_unread {S : Serialization D} {file : BoundedFile} {supported : Bool}
    (hname : file.name = manifestName) :
    (readDocument S file supported).ensures (metered t) (fun _ s' => Unread s m s') (s, m) := by
  refine (Prog.ensures_settle _ _ _ _).mpr (Prog.ensures_mono (readBytes_unread hname) ?_)
  intro out s₁ h
  match out with
  | .ok (.document raw) =>
    show (Prog.ofExcept (decodeStored S file raw)).ensures _ _ _
    cases decodeStored S file raw with
    | ok document => exact h
    | error e => exact h
  | .ok .published => exact h
  | .error (.read _ _) => exact h
  | .error (.publish _ _) => exact h

/-- Loading the manifest reads no artifact, and its errors are not about one. -/
theorem loadManifest_unread {L : Codec P} {limits : BundleReadLimits} {supported : Bool} :
    (loadManifest L limits supported).ensures (metered t) (fun out s' => Unread s m s' ∧
      ∀ name reason detail, out ≠ .error (.verification name reason detail)) (s, m) := by
  unfold loadManifest
  split
  · exact ⟨.refl s m, fun _ _ _ h => by cases h⟩
  · rename_i file hfile
    have hname : file.name = manifestName := by
      unfold manifestFile at hfile
      split at hfile
      · cases hfile
        rfl
      · cases hfile
    refine (Prog.ensures_settle _ _ _ _).mpr (Prog.ensures_mono (readDocument_unread hname) ?_)
    intro out s₁ h
    cases out with
    | error e =>
      dsimp only
      split
      · exact ⟨h, fun _ _ _ h => by cases h⟩
      · exact ⟨h, fun _ _ _ h => by cases h⟩
    | ok document =>
      dsimp only
      split
      · exact ⟨h, fun _ _ _ h => by cases h⟩
      · exact ⟨h, fun _ _ _ h => by cases h⟩

/-! ## The artifacts -/

variable {L : Codec P} {limits : BundleReadLimits} {supported : Bool}

def exceedsBound (name : String) : BundleReadError :=
  boundsError name "the declared child exceeds the remaining byte bound"

theorem readVerifiedArtifact_metered {d : ArtifactDescriptor} {maxBytes : Nat}
    (hbound : d.byteLength ≤ maxBytes) :
    (readVerifiedArtifact L supported d maxBytes).ensures (metered t) (fun out s' =>
      Verified L.sha256 maxBytes d.byteLength d.sha256.text d.name.text s m out s' ∧
        ∀ name, out ≠ .error (exceedsBound name)) (s, m) := by
  unfold readVerifiedArtifact
  rw [if_neg (Nat.not_lt.mpr hbound)]
  refine (Prog.ensures_settle _ _ _ _).mpr (Prog.ensures_mono
    (readVerifiedRegularChild_metered (text_ne_manifestName d.name)) ?_)
  intro out s₁ h
  obtain ⟨hsame, n, hn, hadds, hraw⟩ := h
  have hnoraw : ∀ e : BundleReadError, Verified L.sha256 maxBytes d.byteLength d.sha256.text
      d.name.text s m (.error e) s₁ := fun e => ⟨hsame, n, hn, hadds, fun _ h => by cases h⟩
  match out with
  | .ok raw =>
    refine ⟨⟨hsame, n, hn, hadds, fun raw' h => ?_⟩, fun _ h => by cases h⟩
    cases h
    exact hraw raw rfl
  | .error (.os e) => exact ⟨hnoraw _, fun _ h => by cases h⟩
  | .error .unsupportedPlatform => exact ⟨hnoraw _, fun _ h => by cases h⟩
  | .error (.reason reason) =>
    refine ⟨hnoraw _, fun name h => ?_⟩
    injection h with h
    injection h with _ _ hdetail
    exact absurd hdetail (by decide)

/-- What the audit of these artifacts comes to. -/
structure Audited (L : Codec P) (limits : BundleReadLimits) (total : Nat)
    (ds : List ArtifactDescriptor) (s : Fs T) (m : Meter T) (out : Except BundleReadError Unit)
    (s' : Fs T × Meter T) : Prop where
  files : Untouched s s'.1
  others : ∀ name, name ∉ ds.map (fun d => d.name.text) → s'.2.bytes name = m.bytes name
  each : ∀ name, s'.2.bytes name ≤ m.bytes name + (limits.maxBytesPerArtifact + 1)
  sum : s'.2.total + total ≤ m.total + limits.maxTotalArtifactBytes + 1
  covered : ∀ name, out ≠ .error (exceedsBound name)
  content : out = .ok () → ∀ d ∈ ds, ∃ raw, s.content d.name.text = some raw ∧
    raw.length = d.byteLength ∧ (L.sha256 raw).text = d.sha256.text

/-- The remainder before each read is what the bound on all leaves. -/
theorem auditArtifacts_metered (ds : List ArtifactDescriptor) {total : Nat}
    (htotal : total ≤ limits.maxTotalArtifactBytes)
    (hnames : (ds.map fun d => d.name.text).Nodup)
    (hdeclared : validateDeclared limits total ds = .ok ()) :
    (auditArtifacts L limits supported total ds).ensures (metered t)
      (Audited L limits total ds s m) (s, m) := by
  induction ds generalizing total s m with
  | nil =>
    refine ⟨⟨rfl, rfl⟩, fun _ _ => rfl, fun _ => Nat.le_add_right _ _, ?_, (fun _ h => by cases h),
      ?_⟩
    · show m.total + total ≤ _
      omega
    · intro _ d hd
      cases hd
  | cons d rest ih =>
    obtain ⟨heach, hsum, hrest⟩ := validateDeclared_cons hdeclared
    obtain ⟨hfirst, hnodup⟩ := List.nodup_cons.mp hnames
    refine Prog.ensures_bind _ (readVerifiedArtifact_metered (t := t) (by omega)) ?_ ?_
    · intro raw s₁ hread
      obtain ⟨⟨hfiles, n, hn, hadds, hraw⟩, _⟩ := hread
      obtain ⟨rfl, hcontent, hlength, hhash⟩ := hraw raw rfl
      obtain ⟨s₁, m₁⟩ := s₁
      refine Prog.ensures_mono (ih (s := s₁) (m := m₁) hsum hnodup hrest) ?_
      intro out s₂ h
      refine ⟨hfiles.trans h.files, ?_, ?_, ?_, h.covered, ?_⟩
      · intro name hname
        obtain ⟨hne, hother⟩ := not_or.mp (List.mem_cons.not.mp hname)
        rw [h.others name hother, hadds.bytes, if_neg hne, Nat.add_zero]
      · intro name
        by_cases hname : name = d.name.text
        · have hthis : s₂.2.bytes d.name.text = m₁.bytes d.name.text := h.others _ hfirst
          rw [hname, hthis, hadds.bytes, if_pos rfl]
          omega
        · have := h.each name
          rwa [hadds.bytes, if_neg hname, Nat.add_zero] at this
      · have hcount := h.sum
        rw [hadds.total] at hcount
        omega
      · intro hok d' hd'
        obtain rfl | hd' := List.mem_cons.mp hd'
        · exact ⟨raw, hcontent, hlength, hhash⟩
        · obtain ⟨raw', hcontent', hrest'⟩ := h.content hok d' hd'
          exact ⟨raw', (hfiles.content _).symm.trans hcontent', hrest'⟩
    · intro e s₁ hread
      obtain ⟨⟨hfiles, n, hn, hadds, _⟩, hcovered⟩ := hread
      refine ⟨hfiles, ?_, ?_, ?_, fun name h => ?_, fun h => by cases h⟩
      · intro name hname
        obtain ⟨hne, _⟩ := not_or.mp (List.mem_cons.not.mp hname)
        rw [hadds.bytes, if_neg hne, Nat.add_zero]
      · intro name
        rw [hadds.bytes]
        split <;> omega
      · rw [hadds.total]
        omega
      · cases h
        exact hcovered name rfl

omit [DecidableEq T] in
theorem validateDeclared_covered (ds : List ArtifactDescriptor) {total : Nat} (name : String) :
    validateDeclared limits total ds ≠ .error (exceedsBound name) := by
  have hdetail : ∀ artifactName detail,
      detail ≠ "the declared child exceeds the remaining byte bound" →
      (.error (boundsError artifactName detail) : Except BundleReadError Unit) ≠
        .error (exceedsBound name) := by
    intro artifactName detail hne h
    injection h with h
    injection h with _ _ h
    exact hne h
  induction ds generalizing total with
  | nil => exact fun h => by cases h
  | cons d rest ih =>
    rw [validateDeclared]
    split
    · exact hdetail _ _ (by decide)
    split
    · exact hdetail _ _ (by decide)
    exact ih

omit [DecidableEq T] in
theorem validateManifestLimits_covered (manifest : BundleManifest) (name : String) :
    validateManifestLimits manifest limits ≠ .error (exceedsBound name) := by
  unfold validateManifestLimits
  split
  · intro h
    injection h with h
    injection h with _ _ h
    exact absurd h (by decide)
  · exact validateDeclared_covered _ name

theorem validateDeclared_of_limits {manifest : BundleManifest}
    (h : validateManifestLimits manifest limits = .ok ()) :
    validateDeclared limits 0 manifest.artifacts = .ok () := by
  unfold validateManifestLimits at h
  split at h
  · cases h
  · exact h

/-- **Audits respect their byte budget.** Once the limits are validated, each artifact is read with
a bound that covers its declared length. Whatever the disk holds and however it answers, that error
does not occur, all artifacts together are read for at most one byte more than the total, each for
at most one more than its own limit, and a manifest is returned only if every child it declares
holds content of that length and hash. -/
theorem audits_respect_budget (L : Codec P) (limits : BundleReadLimits) (supported : Bool) (t : T) :
    (∀ manifest, validateManifestLimits manifest limits = .ok () →
      (auditArtifacts L limits supported 0 manifest.artifacts : ReadScript T BundleReadError Unit) =
        performCalls L supported (auditCalls limits 0 manifest.artifacts) ∧
      ∀ d maxBytes, (d, maxBytes) ∈ auditCalls limits 0 manifest.artifacts →
        (0 : Int) ≤ d.byteLength ∧ (d.byteLength : Int) ≤ maxBytes) ∧
    ∀ s : Fs T, (audit L limits supported).ensures (metered t) (fun out s' =>
      (∀ name, out ≠ .error (exceedsBound name)) ∧
      s'.2.total ≤ limits.maxTotalArtifactBytes + 1 ∧
      (∀ name, name ≠ manifestName → s'.2.bytes name ≤ limits.maxBytesPerArtifact + 1) ∧
      ∀ manifest, out = .ok manifest → validateManifestLimits manifest limits = .ok () ∧
        ∀ d ∈ manifest.artifacts, ∃ raw, s.content d.name.text = some raw ∧
          raw.length = d.byteLength ∧ L.sha256 raw = d.sha256) (s, .zero) := by
  refine ⟨?_, ?_⟩
  · intro manifest hlimits
    have hdeclared := validateDeclared_of_limits hlimits
    refine ⟨auditArtifacts_calls _ hdeclared, fun d maxBytes hmem => ?_⟩
    exact ⟨Int.natCast_nonneg _, auditCalls_bounded _ hdeclared d maxBytes hmem⟩
  · intro s
    have hnothing : ∀ s' : Fs T × Meter T, Unread s .zero s' →
        s'.2.total ≤ limits.maxTotalArtifactBytes + 1 ∧
        ∀ name, name ≠ manifestName → s'.2.bytes name ≤ limits.maxBytesPerArtifact + 1 := by
      intro s' h
      refine ⟨?_, fun name hname => ?_⟩
      · rw [h.total]
        exact Nat.zero_le _
      · rw [h.bytes name hname]
        exact Nat.zero_le _
    refine Prog.ensures_bind _ loadManifest_unread ?_ ?_
    · intro manifest s₁ h
      obtain ⟨hunread, _⟩ := h
      cases hlimits : validateManifestLimits manifest limits with
      | error e =>
        refine ⟨fun name h => ?_, (hnothing s₁ hunread).1, (hnothing s₁ hunread).2,
          fun _ h => by cases h⟩
        cases h
        exact validateManifestLimits_covered manifest name hlimits
      | ok _ =>
        have hnames : (manifest.artifacts.map fun d => d.name.text).Nodup :=
          manifest.ordered.imp fun h => ne_of_lt h
        obtain ⟨s₁, m₁⟩ := s₁
        have haudited : (auditArtifacts L limits supported 0 manifest.artifacts).ensures (metered t)
            (Audited L limits 0 manifest.artifacts s₁ m₁) (s₁, m₁) :=
          auditArtifacts_metered manifest.artifacts (Nat.zero_le _) hnames
            (validateDeclared_of_limits hlimits)
        show (auditArtifacts L limits supported 0 manifest.artifacts >>= fun _ =>
          (.pure manifest : ReadScript T BundleReadError BundleManifest)).ensures _ _ _
        have hbudget : ∀ out s₂, Audited L limits 0 manifest.artifacts s₁ m₁ out s₂ →
            s₂.2.total ≤ limits.maxTotalArtifactBytes + 1 ∧
            ∀ name, name ≠ manifestName → s₂.2.bytes name ≤ limits.maxBytesPerArtifact + 1 := by
          intro out s₂ h
          refine ⟨?_, fun name hname => ?_⟩
          · have hsum := h.sum
            have hstart : m₁.total = 0 := hunread.total
            omega
          · have heach := h.each name
            have hstart : m₁.bytes name = 0 := hunread.bytes name hname
            omega
        refine Prog.ensures_bind _ haudited ?_ ?_
        · intro _ s₂ h
          refine ⟨(fun _ h => by cases h), (hbudget _ s₂ h).1, (hbudget _ s₂ h).2, ?_⟩
          intro manifest' hok
          cases hok
          refine ⟨hlimits, fun d hd => ?_⟩
          obtain ⟨raw, hcontent, hlength, hhash⟩ := h.content rfl d hd
          refine ⟨raw, (hunread.files.content _).symm.trans hcontent, hlength, ?_⟩
          exact Digest.text_inj hhash
        · intro e s₂ h
          refine ⟨fun name heq => ?_, (hbudget _ s₂ h).1, (hbudget _ s₂ h).2, fun _ h => by cases h⟩
          cases heq
          exact h.covered name rfl
    · intro e s₁ h
      obtain ⟨hunread, hother⟩ := h
      refine ⟨fun name heq => ?_, (hnothing s₁ hunread).1, (hnothing s₁ hunread).2,
        fun _ h => by cases h⟩
      cases heq
      exact hother name .boundsExceeded _ rfl

/-! A bundle of two artifacts of two bytes each, which may hold anything by now: the second may
take only what the first leaves of the four bytes. -/

def otherName : ArtifactName := ⟨"extra.bin", by decide⟩

def pairManifest : BundleManifest :=
  ⟨[⟨otherName, sampleDigest, 2⟩, ⟨sampleName, sampleDigest, 2⟩], .null, by decide⟩

def pairLimits : BundleReadLimits := ⟨1000, 8, 2, 3, 4⟩

theorem audits_respect_budget_report :
    validateManifestLimits pairManifest pairLimits = .ok () ∧
    auditCalls pairLimits 0 pairManifest.artifacts =
      [(⟨otherName, sampleDigest, 2⟩, 3), (⟨sampleName, sampleDigest, 2⟩, 2)] ∧
    (∀ d maxBytes, (d, maxBytes) ∈ auditCalls pairLimits 0 pairManifest.artifacts →
      (0 : Int) ≤ d.byteLength ∧ (d.byteLength : Int) ≤ maxBytes) ∧
    ∀ s : Fs Unit, (audit sampleCodec pairLimits true).ensures (metered ())
      (fun _ s' => s'.2.total ≤ 5 ∧ ∀ name, name ≠ manifestName → s'.2.bytes name ≤ 4) (s, .zero) := by
  have hlimits : validateManifestLimits pairManifest pairLimits = .ok () := by decide
  obtain ⟨hcalls, haudit⟩ := audits_respect_budget sampleCodec pairLimits true ()
  refine ⟨hlimits, by decide, (hcalls pairManifest hlimits).2, fun s => ?_⟩
  refine Prog.ensures_mono (haudit s) ?_
  rintro _ _ ⟨_, htotal, heach, _⟩
  exact ⟨htotal, heach⟩

end DrStore.Bundles.Budget
