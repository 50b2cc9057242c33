import DrStore.Base.JsonText
import DrStore.Documents.Decoding

/-! # What was published is what is read

One thread at a time on a directory. A publication may run into any failure; a reader is given a
disk that answers what it can, in pieces of any size. -/
namespace DrStore.Documents.RoundTrip
open DrStore.Base.PyJson DrStore.Base.JsonText DrStore.Base.Programs
open DrStore.Documents.FileSystem
open DrStore.Documents.CanonicalJson DrStore.Documents.Decoding

variable {T D : Type} [DecidableEq T]

/-! ## Disks -/

/-- A call that can succeed does; a child that is there is a regular file. -/
def Healthy (s : Fs T) : (op : Syscall T) → SysReply op → Prop
  | .openDirectory, r => ∃ fd, r = .ok fd
  | .openChild directory name, r => s.handles directory = some .directory →
      (s.names name).isSome = true → ∃ fd, r = .ok fd
  | .fstat fd, r => ∀ i, s.handles fd = some (.reading i) → r = .ok true
  | .read fd _, r => ∀ i, s.handles fd = some (.reading i) → ∃ chunk, r = .ok chunk
  | .close _, r => r = .ok ()
  | _, _ => True

/-- What a healthy disk may answer `t`, with nobody else around. -/
def healthy (t : T) (s : Fs T) (op : Syscall T) (r : SysReply op) (s' : Fs T) : Prop :=
  s.Effect t op r s' ∧ Healthy s op r

/-- What a disk may answer `t`, failures included, with nobody else around. -/
def lawful (t : T) (s : Fs T) (op : Syscall T) (r : SysReply op) (s' : Fs T) : Prop :=
  s.Effect t op r s'

/-- A disk that answers every call of `t`, by a state of its own that the files are part of. -/
structure Disk (t : T) where
  State : Type
  files : State → Fs T
  answer : State → (op : Syscall T) → SysReply op × State
  lawful : ∀ s op, (files s).Effect t op (answer s op).1 (files (answer s op).2)

def Disk.Healthy {t : T} (disk : Disk t) : Prop :=
  ∀ s op, RoundTrip.Healthy (disk.files s) op (disk.answer s op).1

theorem Disk.run_healthy {t : T} {disk : Disk t} (h : disk.Healthy) {ε α : Type}
    {p : Script T ε α} {Q : Except ε α → Fs T → Prop} {s : disk.State}
    (hp : p.ensures (healthy t) Q (disk.files s)) :
    Q (p.run disk.answer s).1 (disk.files (p.run disk.answer s).2) :=
  Prog.run_ensures (fun s op => ⟨disk.lawful s op, h s op⟩) hp

theorem Disk.run_lawful {t : T} (disk : Disk t) {ε α : Type} {p : Script T ε α}
    {Q : Except ε α → Fs T → Prop} {s : disk.State}
    (hp : p.ensures (RoundTrip.lawful t) Q (disk.files s)) :
    Q (p.run disk.answer s).1 (disk.files (p.run disk.answer s).2) :=
  Prog.run_ensures (fun s op => disk.lawful s op) hp

/-! ### A disk that reads all it is asked for -/

/-- An index above all that were opened. -/
def freshIndex : List (Entry T) → Nat
  | [] => 0
  | .opened fd :: log => max (fd.index + 1) (freshIndex log)
  | _ :: log => freshIndex log

omit [DecidableEq T] in
theorem lt_freshIndex {log : List (Entry T)} {fd : Descriptor T} (h : .opened fd ∈ log) :
    fd.index < freshIndex log := by
  induction log with
  | nil => cases h
  | cons e log ih =>
    rcases List.mem_cons.mp h with rfl | htail
    · exact Nat.lt_of_lt_of_le (Nat.lt_succ_self _) (Nat.le_max_left _ _)
    · cases e with
      | opened fd' => exact Nat.lt_of_lt_of_le (ih htail) (Nat.le_max_right _ _)
      | closed | created | replacing | unlinkFailed => exact ih htail

def freshDescriptor (s : Fs T) (t : T) : Descriptor T := ⟨t, freshIndex (s.log t)⟩

omit [DecidableEq T] in
theorem fresh_freshDescriptor (s : Fs T) (t : T) : s.Fresh t (freshDescriptor s t) :=
  ⟨rfl, fun h => Nat.lt_irrefl _ (lt_freshIndex h)⟩

def plainAnswer (t : T) (s : Fs T) : (op : Syscall T) → SysReply op × Fs T
  | .openDirectory => (.ok (freshDescriptor s t), s.pin t (freshDescriptor s t) .directory)
  | .openChild directory name =>
    match s.handles directory, s.names name with
    | some .directory, some i =>
      (.ok (freshDescriptor s t), s.pin t (freshDescriptor s t) (.reading i))
    | _, _ => (.error .missing, s)
  | .fstat fd => match s.handles fd with
    | some (.reading _) => (.ok true, s)
    | _ => (.error .other, s)
  | .read fd n => match s.handles fd with
    | some (.reading i) =>
      (.ok (((s.bytes i).drop (s.offset fd)).take n),
        s.advance fd (((s.bytes i).drop (s.offset fd)).take n).length)
    | _ => (.error .other, s)
  | .close fd => (.ok (), s.release t fd)
  | .createTemp _ _ => (.error .other, s)
  | .write _ _ => (.error .other, s)
  | .replace _ _ _ => (.error .other, s.note t .replacing)
  | .unlink _ _ => (.error .other, s.note t .unlinkFailed)

def plainDisk (t : T) : Disk t where
  State := Fs T
  files := id
  answer := plainAnswer t
  lawful s op := by
    cases op with
    | openDirectory => exact ⟨fresh_freshDescriptor s t, rfl⟩
    | openChild directory name =>
      simp only [plainAnswer]
      split
      · rename_i i hdirectory hname
        exact ⟨hdirectory, fresh_freshDescriptor s t, i, hname, rfl⟩
      · rfl
    | fstat fd =>
      simp only [plainAnswer]
      split <;> rfl
    | read fd n =>
      simp only [plainAnswer]
      split
      · rename_i i hhandle
        refine ⟨i, hhandle, ⟨n, Nat.le_refl n, rfl⟩, ?_, rfl⟩
        intro hnil
        rcases List.take_eq_nil_iff.mp hnil with hzero | hdrop
        · exact .inl hzero
        · exact .inr (List.drop_eq_nil_iff.mp hdrop)
      · rfl
    | close fd => rfl
    | createTemp directory name => rfl
    | write fd data => exact .inl rfl
    | replace | unlink => exact .inl rfl

theorem plainAnswer_healthy (t : T) (s : Fs T) (op : Syscall T) :
    Healthy s op (plainAnswer t s op).1 := by
  cases op with
  | openDirectory => exact ⟨_, rfl⟩
  | openChild directory name =>
    intro hdirectory hname
    obtain ⟨i, hi⟩ := Option.isSome_iff_exists.mp hname
    exact ⟨freshDescriptor s t, by simp only [plainAnswer, hdirectory, hi]⟩
  | fstat fd =>
    intro i hi
    simp only [plainAnswer, hi]
  | read fd n =>
    intro i hi
    exact ⟨((s.bytes i).drop (s.offset fd)).take n, by simp only [plainAnswer, hi]⟩
  | close fd => rfl
  | createTemp | write | replace | unlink => trivial

theorem plainDisk_healthy (t : T) : (plainDisk t).Healthy := plainAnswer_healthy t

/-! ## Reading -/

section Reading

variable {t : T} {s : Fs T}

@[simp] theorem advance_advance (fd : Descriptor T) (m n : Nat) :
    (s.advance fd m).advance fd n = s.advance fd (m + n) := by
  simp [Fs.advance, Nat.add_assoc]

@[simp] theorem advance_zero (fd : Descriptor T) : s.advance fd 0 = s := by
  simp [Fs.advance]

/-- What the loop has read: a part of the file up to the limit, or all of it. -/
structure Scanned (limit : Nat) (b raw : Bytes) : Prop where
  part : raw <+: b
  bounded : raw.length ≤ limit
  all : raw.length < limit → raw = b

/-- However the reads are cut, the loop ends with as much of the file as the limit allows. -/
theorem readBounded_scans {l : ReadLocals T} {fd : Descriptor T} {i : Inode T} {b : Bytes}
    {limit : Nat} (hbytes : s.bytes i = b) (hhandle : s.handles fd = some (.reading i))
    (hstart : s.offset fd = 0) (chunks : Bytes) (hchunks : chunks <+: b)
    (hbounded : chunks.length ≤ limit) :
    (readBoundedChildDescriptor l fd limit chunks).ensures (healthy t) (fun out s' =>
      ∃ raw, out = .ok raw ∧ s' = s.advance fd raw.length ∧ Scanned limit b raw)
      (s.advance fd chunks.length) := by
  induction chunks using readBoundedChildDescriptor.induct limit with
  | case1 chunks hlimit ih =>
    rw [readBoundedChildDescriptor, if_pos hlimit]
    intro r s' hdoes
    obtain ⟨heffect, hhealthy⟩ := hdoes
    have hhandle' : (s.advance fd chunks.length).handles fd = some (.reading i) := hhandle
    have hoffset : (s.advance fd chunks.length).offset fd = chunks.length := by
      simp [Fs.advance, hstart]
    obtain ⟨chunk, rfl⟩ := hhealthy i hhandle'
    obtain ⟨j, hj, ⟨m, hm, hchunk⟩, hend, rfl⟩ := heffect
    rw [hhandle'] at hj
    cases hj
    rw [hoffset, show (s.advance fd chunks.length).bytes i = b from hbytes] at hchunk hend
    obtain ⟨rest, hrest⟩ := hchunks
    rw [← hrest, List.drop_left] at hchunk
    by_cases hmore : 0 < chunk.length ∧ chunks.length < limit
    · simp only [if_pos hmore, advance_advance]
      rw [← List.length_append]
      refine ih chunk hmore ⟨rest.drop m, ?_⟩ ?_
      · rw [hchunk, List.append_assoc, List.take_append_drop, hrest]
      · rw [List.length_append, hchunk, List.length_take]
        omega
    · simp only [if_neg hmore]
      have hnil : chunk = [] := List.length_eq_zero_iff.mp (by omega)
      subst hnil
      refine ⟨chunks, rfl, by simp, ⟨rest, hrest⟩, hbounded, ?_⟩
      intro _
      rcases hend rfl with hzero | hall
      · simp only [readChunkBytes] at hzero
        omega
      · exact List.IsPrefix.eq_of_length_le ⟨rest, hrest⟩ hall
  | case2 chunks hlimit =>
    rw [readBoundedChildDescriptor, if_neg hlimit]
    exact ⟨chunks, rfl, rfl, hchunks, hbounded, fun h => absurd h hlimit⟩

theorem Scanned.eq_of_lt {limit : Nat} {b raw : Bytes} (h : Scanned limit b raw)
    (hlt : b.length < limit) : raw = b :=
  h.all (Nat.lt_of_le_of_lt h.part.length_le hlt)

theorem Scanned.length_of_le {limit : Nat} {b raw : Bytes} (h : Scanned limit b raw)
    (hle : limit ≤ b.length) : raw.length = limit := by
  by_contra hne
  have hlt : raw.length < limit := Nat.lt_of_le_of_ne h.bounded hne
  rw [h.all hlt] at hlt
  omega

/-- Names and files are as they were, and no descriptor opened by `t` meanwhile was read past the
limit. -/
structure Frame (t : T) (limit : Nat) (s s' : Fs T) : Prop where
  names : s'.names = s.names
  bytes : s'.bytes = s.bytes
  read : ∀ fd, .opened fd ∈ s'.log t → .opened fd ∉ s.log t → s'.offset fd ≤ limit

omit [DecidableEq T] in
theorem Frame.content {limit : Nat} {s' : Fs T} (h : Frame t limit s s') (name : String) :
    s'.content name = s.content name := by
  rw [Fs.content, Fs.content, h.names, h.bytes]

/-- Both descriptors opened, the child read so far and both closed again. -/
theorem frame_closed {directory child : Descriptor T} {i : Inode T} {n limit : Nat}
    (hdirectory : s.Fresh t directory)
    (hchild : (s.pin t directory .directory).Fresh t child) (hn : n ≤ limit) :
    Frame t limit s (((((s.pin t directory .directory).pin t child (.reading i)).advance child
      n).release t child).release t directory) := by
  have hne : directory ≠ child := by
    intro heq
    refine hchild.2 ?_
    rw [← heq]
    simp [Fs.pin, Fs.note]
  refine ⟨rfl, rfl, ?_⟩
  intro fd hfd hnew
  simp only [Fs.pin, Fs.note, Fs.advance, Fs.release, Function.update_self,
    List.mem_cons, reduceCtorEq, false_or, Entry.opened.injEq] at hfd
  simp only [Fs.pin, Fs.note, Fs.advance, Fs.release]
  rcases hfd with rfl | rfl | hold
  · simpa using hn
  · simp [Function.update_of_ne hne]
  · exact absurd hold hnew

theorem Scanned.le {limit : Nat} {b raw : Bytes} (h : Scanned (limit + 1) b raw)
    (hraw : ¬ limit < raw.length) : raw = b := h.all (by omega)

/-- **A healthy read**: the whole file, or a refusal of one that is too long. -/
theorem readBytes_healthy {file : CanonicalJsonFile} {b : Bytes}
    (hcontent : s.content file.name = some b) :
    (readBytes file true : Script T DocumentError Answer).ensures (healthy t) (fun out s' =>
      out = (if file.maxBytes < b.length then .error (.read .readBytes .boundsExceeded)
        else .ok (.document b)) ∧ Frame t (file.maxBytes + 1) s s') s := by
  obtain ⟨i, hi, hbytes⟩ : ∃ i, s.names file.name = some i ∧ s.bytes i = b := by
    simpa [Fs.content] using hcontent
  simp only [readBytes, Bool.true_eq_false, if_false]
  rw [Prog.ensures_settle]
  intro r s₁ hdoes
  obtain ⟨heffect, directory, rfl⟩ := hdoes
  obtain ⟨hdirectory, rfl⟩ := heffect
  intro r s₂ hdoes
  obtain ⟨heffect, hopen⟩ := hdoes
  have hhandle : (s.pin t directory .directory).handles directory = some .directory := by
    simp [Fs.pin, Fs.note]
  obtain ⟨child, rfl⟩ := hopen hhandle (by
    rw [show (s.pin t directory .directory).names = s.names from rfl, hi]
    rfl)
  obtain ⟨_, hchild, j, hj, rfl⟩ := heffect
  rw [show (s.pin t directory .directory).names = s.names from rfl, hi] at hj
  cases hj
  intro r s₃ hdoes
  obtain ⟨heffect, hregular⟩ := hdoes
  have hreading : ((s.pin t directory .directory).pin t child (.reading i)).handles child =
      some (.reading i) := by simp [Fs.pin, Fs.note]
  have hstart : ((s.pin t directory .directory).pin t child (.reading i)).offset child = 0 := by
    simp [Fs.pin, Fs.note]
  obtain rfl := hregular i hreading
  obtain rfl : s₃ = _ := heffect
  have hscan := @readBounded_scans T _ t
    ((s.pin t directory .directory).pin t child (.reading i))
    ⟨.readBytes, some directory, some child⟩ child i b (file.maxBytes + 1) hbytes hreading hstart []
    List.nil_prefix (Nat.zero_le _)
  simp only [List.length_nil, advance_zero] at hscan
  show Prog.ensures (healthy t) (readBoundedChildDescriptor
    ⟨.readBytes, some directory, some child⟩ child (file.maxBytes + 1) [] >>= _) _ _
  refine Prog.ensures_bind _ hscan ?_ ?_
  · intro raw s₄ hraw
    obtain ⟨raw', hok, rfl, hscanned⟩ := hraw
    cases hok
    by_cases hlong : file.maxBytes < raw.length
    · simp only [if_pos hlong]
      have hb : file.maxBytes < b.length := Nat.lt_of_lt_of_le hlong hscanned.part.length_le
      intro r s₅ hdoes
      obtain ⟨rfl, rfl⟩ := hdoes
      intro r s₆ hdoes
      obtain ⟨rfl, rfl⟩ := hdoes
      exact ⟨(if_pos hb).symm, frame_closed hdirectory hchild hscanned.bounded⟩
    · simp only [if_neg hlong]
      obtain rfl := hscanned.le hlong
      intro r s₅ hdoes
      obtain ⟨rfl, rfl⟩ := hdoes
      intro r s₆ hdoes
      obtain ⟨rfl, rfl⟩ := hdoes
      exact ⟨(if_neg hlong).symm, frame_closed hdirectory hchild hscanned.bounded⟩
  · intro e s₄ hraw
    obtain ⟨raw', hok, _⟩ := hraw
    cases hok

/-! ## Any disk -/

theorem readBounded_part {l : ReadLocals T} {fd : Descriptor T} {i : Inode T} {b : Bytes}
    {limit : Nat} (hbytes : s.bytes i = b) (hhandle : s.handles fd = some (.reading i))
    (hstart : s.offset fd = 0) (chunks : Bytes) (hchunks : chunks <+: b) :
    (readBoundedChildDescriptor l fd limit chunks).ensures (lawful t) (fun out _ =>
      ∀ raw, out = .ok raw → raw.length < limit → raw = b) (s.advance fd chunks.length) := by
  induction chunks using readBoundedChildDescriptor.induct limit with
  | case1 chunks hlimit ih =>
    rw [readBoundedChildDescriptor, if_pos hlimit]
    intro r s' heffect
    cases r with
    | error e =>
      intro raw hok
      cases hok
    | ok chunk =>
      have hoffset : (s.advance fd chunks.length).offset fd = chunks.length := by
        simp [Fs.advance, hstart]
      obtain ⟨j, hj, ⟨m, _, hchunk⟩, hend, rfl⟩ := heffect
      rw [show (s.advance fd chunks.length).handles fd = some (.reading i) from hhandle] at hj
      cases hj
      rw [hoffset, show (s.advance fd chunks.length).bytes i = b from hbytes] at hchunk hend
      obtain ⟨rest, hrest⟩ := hchunks
      rw [← hrest, List.drop_left] at hchunk
      by_cases hmore : 0 < chunk.length ∧ chunks.length < limit
      · simp only [if_pos hmore, advance_advance]
        rw [← List.length_append]
        refine ih chunk hmore ⟨rest.drop m, ?_⟩
        rw [hchunk, List.append_assoc, List.take_append_drop, hrest]
      · simp only [if_neg hmore]
        intro raw hok _
        cases hok
        have hnil : chunk = [] := List.length_eq_zero_iff.mp (by omega)
        rcases hend hnil with hzero | hall
        · simp only [readChunkBytes] at hzero
          omega
        · exact List.IsPrefix.eq_of_length_le ⟨rest, hrest⟩ hall
  | case2 chunks hlimit =>
    rw [readBoundedChildDescriptor, if_neg hlimit]
    intro raw hok hlt
    cases hok
    exact absurd hlt hlimit

/-- The `try` block returns only a whole file that is not too long. -/
theorem readSteps_returns {file : CanonicalJsonFile} {b : Bytes}
    (hcontent : s.content file.name = some b) :
    (readSteps file : Script T (ReadFailure T) _).ensures (lawful t) (fun out _ =>
      ∀ l raw, out = .ok (l, raw) → raw = b ∧ raw.length ≤ file.maxBytes) s := by
  obtain ⟨i, hi, hbytes⟩ : ∃ i, s.names file.name = some i ∧ s.bytes i = b := by
    simpa [Fs.content] using hcontent
  intro r s₁ heffect
  cases r with
  | error e =>
    intro l raw hok
    cases hok
  | ok directory =>
    obtain ⟨_, rfl⟩ := heffect
    intro r s₂ heffect
    cases r with
    | error e =>
      intro l raw hok
      cases hok
    | ok child =>
      obtain ⟨_, _, j, hj, rfl⟩ := heffect
      rw [show (s.pin t directory .directory).names = s.names from rfl, hi] at hj
      cases hj
      intro r s₃ heffect
      obtain rfl : s₃ = _ := heffect
      match r with
      | .error e =>
        intro l raw hok
        cases hok
      | .ok false =>
        intro l raw hok
        cases hok
      | .ok true =>
        have hpart := @readBounded_part T _ t
          ((s.pin t directory .directory).pin t child (.reading i))
          ⟨.readBytes, some directory, some child⟩ child i b (file.maxBytes + 1) hbytes
          (by simp [Fs.pin, Fs.note]) (by simp [Fs.pin, Fs.note]) [] List.nil_prefix
        simp only [List.length_nil, advance_zero] at hpart
        show Prog.ensures (lawful t) (readBoundedChildDescriptor
          ⟨.readBytes, some directory, some child⟩ child (file.maxBytes + 1) [] >>= _) _ _
        refine Prog.ensures_bind _ hpart ?_ ?_
        · intro raw s₄ hraw
          by_cases hlong : file.maxBytes < raw.length
          · simp only [if_pos hlong]
            intro l raw hok
            cases hok
          · simp only [if_neg hlong]
            intro l raw' hok
            cases hok
            exact ⟨hraw raw rfl (by omega), by omega⟩
        · intro e s₄ _ l raw hok
          cases hok

/-- A read that returns has read the whole file, and it was not too long. -/
theorem readBytes_returns {file : CanonicalJsonFile} {supported : Bool} {b : Bytes}
    (hcontent : s.content file.name = some b) :
    (readBytes file supported : Script T DocumentError Answer).ensures (lawful t) (fun out _ =>
      ∀ raw, out = .ok (.document raw) → raw = b ∧ raw.length ≤ file.maxBytes) s := by
  unfold readBytes
  split
  · intro raw hok
    cases hok
  · refine (Prog.ensures_settle _ _ _ s).mpr (Prog.ensures_mono (readSteps_returns hcontent) ?_)
    intro out s' hout
    -- only the block's own bytes are ever returned
    refine Prog.ensures_bind _ (Prog.ensures_true _ s') ?_ ?_
    · intro cause s₁ _
      refine Prog.ensures_bind _ (Prog.ensures_true _ s₁) ?_ ?_
      · intro cause s₂ _
        match out, cause with
        | .ok (l, raw), none =>
          intro raw' hok
          cases hok
          exact hout l raw rfl
        | .ok (l, raw), some cause =>
          intro raw' hok
          cases hok
        | .error (l, cause'), none =>
          intro raw' hok
          cases hok
        | .error (l, cause'), some cause =>
          intro raw' hok
          cases hok
      · intro e s₂ _ raw hok
        cases hok
    · intro e s₁ _ raw hok
      cases hok

end Reading

/-! ## Publishing -/

section Publishing

variable {t : T} {s : Fs T}

/-- A loop that returns has written all of the data. -/
theorem writeAll_returns {l : Locals T} {fd : Descriptor T} {i : Inode T} {done : Bytes}
    (data : Bytes) (hhandle : s.handles fd = some (.writing i)) (hbytes : s.bytes i = done) :
    (writeAll l fd data).ensures (lawful t) (fun out s' => ∀ u, out = .ok u →
      s'.names = s.names ∧ s'.bytes i = done ++ data) s := by
  induction data using writeAll.induct generalizing done s with
  | case1 =>
    rw [writeAll, if_pos rfl]
    intro u _
    exact ⟨rfl, by rw [hbytes, List.append_nil]⟩
  | case2 data hdata ih =>
    rw [writeAll, if_neg hdata]
    intro r s' heffect
    cases r with
    | error e =>
      intro u hok
      cases hok
    | ok n =>
      obtain ⟨_, j, hj, rfl⟩ := heffect
      rw [hhandle] at hj
      cases hj
      by_cases hn : 0 < n ∧ data ≠ []
      · simp only [if_pos hn]
        have hwritten : (s.append i (data.take n)).bytes i = done ++ data.take n := by
          simp [Fs.append, hbytes]
        refine Prog.ensures_mono (ih n hn hhandle hwritten) ?_
        intro out s' h u hok
        obtain ⟨hnames, hall⟩ := h u hok
        rw [List.append_assoc, List.take_append_drop] at hall
        exact ⟨hnames, hall⟩
      · simp only [if_neg hn]
        intro u hok
        cases hok

/-- The `try` block returns once the target holds the bytes. -/
theorem publishSteps_returns {file : CanonicalJsonFile} {supported : Bool} {temporary : String}
    {encoded : Bytes} :
    (publishSteps file supported temporary encoded).ensures (lawful t) (fun out s' =>
      ∀ l, out = .ok l → s'.content file.name = some encoded ∧ l.temporaryDescriptor = none) s := by
  unfold publishSteps
  simp only
  split
  · intro l hok
    cases hok
  intro r s₁ heffect
  cases r with
  | error e =>
    intro l hok
    cases hok
  | ok directory =>
    obtain ⟨_, rfl⟩ := heffect
    intro r s₂ heffect
    cases r with
    | error e =>
      intro l hok
      cases hok
    | ok fd =>
      obtain ⟨_, _, _, n, _, rfl⟩ := heffect
      let l : Locals T := ⟨.writeTemp, .notReplaced, some directory, some fd, some temporary, true⟩
      have hwrite := @writeAll_returns T _ t (((s.pin t directory .directory).create t temporary
        (.made t n)).pin t fd (.writing (.made t n))) l fd (.made t n) [] encoded
        (by simp [Fs.pin, Fs.note]) (by simp [Fs.pin, Fs.note, Fs.create])
      show Prog.ensures (lawful t) (writeAll l fd encoded >>= _) _ _
      refine Prog.ensures_bind _ hwrite ?_ ?_
      · intro _ s₃ hwritten
        obtain ⟨hnames, hbytes⟩ := hwritten () rfl
        intro r s₄ heffect
        obtain rfl : s₄ = s₃.release t fd := heffect
        cases r with
        | error e =>
          intro l hok
          cases hok
        | ok _ =>
          intro r s₅ heffect
          cases r with
          | error e =>
            intro l hok
            cases hok
          | ok _ =>
            obtain ⟨_, i, hi, rfl⟩ := heffect
            have hmade : s₃.names temporary = some (.made t n) := by
              rw [hnames]
              simp [Fs.pin, Fs.note, Fs.create]
            rw [show (s₃.release t fd).names = s₃.names from rfl, hmade] at hi
            cases hi
            intro l hok
            cases hok
            refine ⟨?_, rfl⟩
            simp only [Fs.content, Fs.rename, Fs.note, Fs.release, Function.update_self,
              Option.map_some, hbytes, List.nil_append]
      · intro e s₃ _ l hok
        cases hok

/-- Closing leaves names and files as they are, and a failure stays one. -/
theorem closing_keeps {ε : Type} (failure : Bool) (fd? : Option (Descriptor T)) :
    (closing failure fd? : Script T ε Bool).ensures (lawful t) (fun out s' => ∃ f, out = .ok f ∧
      (failure = true → f = true) ∧ s'.names = s.names ∧ s'.bytes = s.bytes) s := by
  cases fd? with
  | none => exact ⟨failure, rfl, id, rfl, rfl⟩
  | some fd =>
    intro r s' heffect
    obtain rfl : s' = s.release t fd := heffect
    exact ⟨_, rfl, fun h => by rw [h]; rfl, rfl, rfl⟩

theorem finalize_fails {ε : Type} (l : Locals T) :
    (finalizePublicationResources l true : Script T ε Bool).ensures (lawful t)
      (fun out _ => ∃ f, out = .ok f ∧ f = true) s := by
  unfold finalizePublicationResources
  refine Prog.ensures_after (fun f _ => f = true) (Prog.ensures_mono (closing_keeps true _) ?_) ?_
  · intro out s' h
    obtain ⟨f, hout, hf, _⟩ := h
    exact ⟨f, hout, hf rfl⟩
  have hlast : ∀ (fd? : Option (Descriptor T)) (s : Fs T),
      (closing true fd? : Script T ε Bool).ensures (lawful t)
        (fun out _ => ∃ f, out = .ok f ∧ f = true) s := by
    intro fd? s
    refine Prog.ensures_mono (closing_keeps true fd?) ?_
    intro out s' h
    obtain ⟨f, hout, hf, _⟩ := h
    exact ⟨f, hout, hf rfl⟩
  intro f s' hf
  subst hf
  split
  · intro r s'' _
    exact hlast _ s''
  · exact hlast _ s'

/-- A publication that returns has put the bytes in place. -/
theorem publishBytes_returns {file : CanonicalJsonFile} {supported : Bool} {temporary : String}
    {encoded : Bytes} :
    (publishBytes file supported temporary encoded).ensures (lawful t) (fun out s' =>
      ∀ a, out = .ok a → s'.content file.name = some encoded) s := by
  unfold publishBytes
  refine (Prog.ensures_settle _ _ _ s).mpr (Prog.ensures_mono publishSteps_returns ?_)
  intro out s' hout
  cases out with
  | error l =>
    refine Prog.ensures_after (fun f _ => f = true) (finalize_fails l) ?_
    intro f s'' hf
    subst hf
    intro a hok
    cases hok
  | ok l =>
    obtain ⟨hcontent, htemporary⟩ := hout l rfl
    have hfinal : (finalizePublicationResources l false : Script T DocumentError Bool).ensures
        (lawful t) (fun out s'' => ∃ f, out = .ok f ∧ s''.content file.name = some encoded) s' := by
      unfold finalizePublicationResources
      rw [htemporary]
      refine Prog.ensures_mono (closing_keeps false l.directoryDescriptor) ?_
      intro out s'' h
      obtain ⟨f, hout, _, hnames, hbytes⟩ := h
      refine ⟨f, hout, ?_⟩
      rw [Fs.content, hnames, hbytes]
      exact hcontent
    refine Prog.ensures_after (fun _ s'' => s''.content file.name = some encoded) hfinal ?_
    intro f s'' hcontent
    cases f with
    | false => exact fun a _ => hcontent
    | true =>
      intro a hok
      cases hok

end Publishing

/-! ## Both ways -/

/-- What is assumed of the serializer: decoding keeps to its byte bound, validation is the identity
on decoded values, and decoding the canonical bytes of a value yields that value. -/
structure Lawful (S : Serialization D) : Prop where
  bounded : ∀ raw maxBytes maxDepth v, S.decodeStrictJsonBytes raw maxBytes maxDepth = .ok v →
    raw.length ≤ maxBytes
  validated : ∀ raw maxBytes maxDepth v, S.decodeStrictJsonBytes raw maxBytes maxDepth = .ok v →
    S.validateStrictJson (S.document v) = some v
  decoded : ∀ v raw maxBytes maxDepth v', S.canonicalJsonBytes v = some raw →
    S.decodeStrictJsonBytes raw maxBytes maxDepth = .ok v' → v' = v

section

variable {S : Serialization D} {file : BoundedFile} {t : T} {s : Fs T}

/-- What passed the encode stage is decoded back. -/
theorem decodeStored_encoded (hS : Lawful S) {document : D} {encoded : Bytes}
    (h : encodeDocument S file document = some encoded) :
    ∃ v, S.validateStrictJson document = some v ∧ decodeStored S file encoded = .ok v ∧
      encoded.length ≤ file.maxBytes := by
  obtain ⟨v, decoded, hvalid, hbytes, hdecoded⟩ := encodeDocument_ok h
  obtain rfl := hS.decoded v encoded _ _ decoded hbytes hdecoded
  refine ⟨decoded, hvalid, ?_, hS.bounded encoded _ _ decoded hdecoded⟩
  rw [decodeStored, hdecoded]
  exact if_pos hbytes

/-- What is decoded would pass the encode stage. -/
theorem encodeDocument_decoded (hS : Lawful S) {raw : Bytes} {document : Json}
    (h : decodeStored S file raw = .ok document) :
    encodeDocument S file (S.document document) = some raw := by
  obtain ⟨hdecoded, hcanonical⟩ := decodeStored_ok h
  exact encodeDocument_of_decodes (hS.validated raw _ _ document hdecoded) hcanonical hdecoded

theorem readDocument_healthy {b : Bytes} (hcontent : s.content file.name = some b) :
    (readDocument S file true : Script T DocumentReadError Json).ensures (healthy t) (fun out s' =>
      out = (if file.maxBytes < b.length then .error ⟨.bytes .readBytes, .boundsExceeded⟩
        else decodeStored S file b) ∧ Frame t (file.maxBytes + 1) s s') s := by
  unfold readDocument
  refine (Prog.ensures_settle _ _ _ s).mpr (Prog.ensures_mono (readBytes_healthy hcontent) ?_)
  intro out s' h
  obtain ⟨rfl, hframe⟩ := h
  by_cases hlong : file.maxBytes < b.length
  · simp only [if_pos hlong]
    exact ⟨rfl, hframe⟩
  · simp only [if_neg hlong]
    cases decodeStored S file b with
    | ok v => exact ⟨rfl, hframe⟩
    | error e => exact ⟨rfl, hframe⟩

theorem readDocument_returns {b : Bytes} {supported : Bool}
    (hcontent : s.content file.name = some b) :
    (readDocument S file supported : Script T DocumentReadError Json).ensures (lawful t)
      (fun out _ => ∀ d, out = .ok d → decodeStored S file b = .ok d ∧ b.length ≤ file.maxBytes)
      s := by
  unfold readDocument
  refine (Prog.ensures_settle _ _ _ s).mpr (Prog.ensures_mono (readBytes_returns hcontent) ?_)
  intro out s' h
  match out with
  | .ok (.document raw) =>
    obtain ⟨rfl, hlength⟩ := h raw rfl
    simp only
    cases hdecoded : decodeStored S file raw with
    | ok v =>
      intro d hok
      cases hok
      exact ⟨rfl, hlength⟩
    | error e =>
      intro d hok
      cases hok
  | .ok .published | .error (.read stage reason) | .error (.publish stage state) =>
    intro d hok
    cases hok

/-- A publication that returns has encoded the document and put the bytes in place. -/
theorem publishDocument_returns {supported : Bool} {temporary : String} {document : D} :
    (publishDocument S file supported temporary document : Script T DocumentError Answer).ensures
      (lawful t) (fun out s' => ∀ a, out = .ok a → ∃ encoded,
        encodeDocument S file document = some encoded ∧ s'.content file.name = some encoded) s := by
  unfold publishDocument
  cases hencoded : encodeDocument S file document with
  | none =>
    intro a hok
    cases hok
  | some encoded =>
    refine Prog.ensures_mono publishBytes_returns ?_
    intro out s' h a hok
    exact ⟨encoded, rfl, h a hok⟩

end

/-- **Publishing and reading are inverse within their bounds.** On any disk, a publication that
returns is read back by a reader on a healthy disk with the same file there; a read that returns
found exactly the canonical bytes of what it returns, which publishing would write again; and what
is too long is refused after one byte too many. -/
theorem documents_round_trip {S : Serialization D} (hS : Lawful S) (file : BoundedFile) :
    (∀ (t : T) (disk : Disk t) supported temporary document (s : disk.State) answer,
      ((publishDocument S file supported temporary document).run disk.answer s).1 = .ok answer →
      ∀ (u : T) (reader : Disk u) (s' : reader.State), reader.Healthy →
        (reader.files s').content file.name = (disk.files ((publishDocument S file supported
          temporary document).run disk.answer s).2).content file.name →
        ∃ v, S.validateStrictJson document = some v ∧
          ((readDocument S file true).run reader.answer s').1 = .ok v) ∧
    (∀ (u : T) (reader : Disk u) (s : reader.State) supported b d,
      (reader.files s).content file.name = some b →
      ((readDocument S file supported).run reader.answer s).1 = .ok d →
      S.canonicalJsonBytes d = some b ∧ b.length ≤ file.maxBytes ∧
        ∀ supported temporary, (publishDocument S file supported temporary (S.document d) :
          Script T DocumentError Answer) =
            publishBytes file.toCanonicalJsonFile supported temporary b) ∧
    (∀ (u : T) (reader : Disk u) (s : reader.State) b, reader.Healthy →
      (reader.files s).content file.name = some b → file.maxBytes < b.length →
      ((readDocument S file true).run reader.answer s).1 =
          .error ⟨.bytes .readBytes, .boundsExceeded⟩ ∧
        Frame u (file.maxBytes + 1) (reader.files s)
          (reader.files ((readDocument S file true).run reader.answer s).2)) := by
  refine ⟨?_, ?_, ?_⟩
  · intro t disk supported temporary document s answer hreturned u reader s' hhealthy hsame
    obtain ⟨encoded, hencoded, hcontent⟩ :=
      disk.run_lawful publishDocument_returns answer hreturned
    obtain ⟨v, hvalid, hdecoded, hlength⟩ := decodeStored_encoded hS hencoded
    refine ⟨v, hvalid, ?_⟩
    have hread := Disk.run_healthy hhealthy (readDocument_healthy (S := S) (hsame.trans hcontent))
    rw [hread.1, if_neg (Nat.not_lt.mpr hlength)]
    exact hdecoded
  · intro u reader s supported b d hcontent hreturned
    obtain ⟨hdecoded, hlength⟩ := reader.run_lawful (readDocument_returns hcontent) d hreturned
    refine ⟨(decodeStored_ok hdecoded).2, hlength, ?_⟩
    intro supported temporary
    rw [publishDocument, encodeDocument_decoded hS hdecoded]
    rfl
  · intro u reader s b hhealthy hcontent hlong
    have hread := Disk.run_healthy hhealthy (readDocument_healthy (S := S) hcontent)
    rw [if_pos hlong] at hread
    exact hread

/-! ## JSON text as the serializer -/

def textBytes (text : String) : Bytes := text.toUTF8.data.toList

def bytesText (raw : Bytes) : Option String := String.fromUTF8? ⟨⟨raw⟩⟩

theorem bytesText_textBytes (text : String) : bytesText (textBytes text) = some text := by
  have hvalid : ByteArray.IsValidUTF8 ⟨⟨textBytes text⟩⟩ := text.isValidUTF8
  rw [bytesText, String.fromUTF8?, dif_pos hvalid]
  rfl

mutual

/-- How deep lists and dicts are nested. -/
def containerDepth : Json → Nat
  | .arr items => itemsDepth items + 1
  | .obj fields => fieldsDepth fields + 1
  | .null | .bool _ | .int _ | .float _ | .str _ => 0

def itemsDepth : List Json → Nat
  | [] => 0
  | v :: items => max (containerDepth v) (itemsDepth items)

def fieldsDepth : List (String × Json) → Nat
  | [] => 0
  | (_, v) :: fields => max (containerDepth v) (fieldsDepth fields)

end

/-- Compact text with sorted keys, in UTF-8; floats by an exact binary notation. -/
def textSerialization : Serialization Json where
  document := id
  validateStrictJson := some
  canonicalJsonBytes v := some (textBytes (dumps binaryRepr v))
  decodeStrictJsonBytes raw maxBytes maxDepth :=
    match (bytesText raw).bind (parse binaryRead) with
    | none => .error .invalid
    | some v =>
      if raw.length ≤ maxBytes ∧ containerDepth v ≤ maxDepth then .ok v else .error .limit

theorem textSerialization_decode {raw : Bytes} {maxBytes maxDepth : Nat} {v : Json}
    (h : textSerialization.decodeStrictJsonBytes raw maxBytes maxDepth = .ok v) :
    (bytesText raw).bind (parse binaryRead) = some v ∧ raw.length ≤ maxBytes := by
  simp only [textSerialization] at h
  split at h
  · cases h
  · rename_i hparsed
    split at h
    · rename_i hbounds
      cases h
      exact ⟨hparsed, hbounds.1⟩
    · cases h

theorem parse_textBytes (v : Json) :
    (bytesText (textBytes (dumps binaryRepr v))).bind (parse binaryRead) = some v := by
  rw [bytesText_textBytes]
  exact parse_dumps binaryText v

theorem textSerialization_lawful : Lawful textSerialization where
  bounded raw _ _ v h := (textSerialization_decode h).2
  validated _ _ _ _ _ := rfl
  decoded v raw _ _ v' hcanonical h := by
    obtain ⟨hparsed, _⟩ := textSerialization_decode h
    cases hcanonical
    rw [parse_textBytes] at hparsed
    exact (Option.some.inj hparsed).symm

def twoBytes : BoundedFile where
  fold c := [c.toLower]
  name := "report.json"
  targetKey := "9dbd938021609755"
  maxBytes := 2
  unreserved := by decide
  maxDepth := 0

/-! ## A directory in which everything succeeds, one byte at a time -/

def bytewiseAnswer (t : T) (s : Fs T) : (op : Syscall T) → SysReply op × Fs T
  | .createTemp directory name =>
    match s.handles directory, s.names name with
    | some .directory, none =>
      if .created (.made t 0) ∈ s.log t then (.error .other, s)
      else (.ok (freshDescriptor s t),
        (s.create t name (.made t 0)).pin t (freshDescriptor s t) (.writing (.made t 0)))
    | _, _ => (.error .other, s)
  | .write fd data =>
    match s.handles fd with
    | some (.writing i) => (.ok (min 1 data.length), s.append i (data.take (min 1 data.length)))
    | _ => (.error .other, s)
  | .read fd n =>
    match s.handles fd with
    | some (.reading i) =>
      (.ok (((s.bytes i).drop (s.offset fd)).take (min 1 n)),
        s.advance fd (((s.bytes i).drop (s.offset fd)).take (min 1 n)).length)
    | _ => (.error .other, s)
  | .replace directory source target =>
    match s.handles directory, s.names source with
    | some .directory, some i => (.ok (), s.rename t source target i)
    | _, _ => (.error .other, s.note t .replacing)
  | op => plainAnswer t s op

def bytewiseDisk (t : T) : Disk t where
  State := Fs T
  files := id
  answer := bytewiseAnswer t
  lawful s op := by
    cases op with
    | createTemp directory name =>
      simp only [bytewiseAnswer]
      split
      · rename_i hdirectory hname
        split
        · rfl
        · rename_i hmade
          exact ⟨hdirectory, hname, fresh_freshDescriptor s t, 0, hmade, rfl⟩
      · rfl
    | write fd data =>
      simp only [bytewiseAnswer]
      split
      · rename_i i hhandle
        exact ⟨Nat.min_le_right _ _, i, hhandle, rfl⟩
      · exact .inl rfl
    | read fd n =>
      simp only [bytewiseAnswer]
      split
      · rename_i i hhandle
        refine ⟨i, hhandle, ⟨min 1 n, Nat.min_le_right _ _, rfl⟩, ?_, rfl⟩
        intro hnil
        rcases List.take_eq_nil_iff.mp hnil with hzero | hdrop
        · exact .inl (by omega)
        · exact .inr (List.drop_eq_nil_iff.mp hdrop)
      · rfl
    | replace directory source target =>
      simp only [bytewiseAnswer]
      split
      · rename_i i hdirectory hname
        exact ⟨hdirectory, i, hname, rfl⟩
      · exact .inl rfl
    | openDirectory | openChild | fstat | close | unlink => exact (plainDisk t).lawful s _

theorem bytewiseDisk_healthy (t : T) : (bytewiseDisk t).Healthy := by
  intro s op
  cases op with
  | openDirectory | openChild | fstat | close => exact plainAnswer_healthy t s _
  | read fd n =>
    intro i hi
    have hhandle : s.handles fd = some (.reading i) := hi
    exact ⟨((s.bytes i).drop (s.offset fd)).take (min 1 n), by
      simp only [bytewiseDisk, bytewiseAnswer, hhandle]⟩
  | createTemp | write | replace | unlink => trivial


theorem writeAll_bytewise (l : Locals T) {fd : Descriptor T} {i : Inode T} {t : T} (data : Bytes)
    {s : Fs T} (hs : s.handles fd = some (.writing i)) :
    (writeAll l fd data).run (bytewiseAnswer t) s = (.ok (), s.append i data) := by
  induction data generalizing s with
  | nil =>
    rw [writeAll, if_pos rfl]
    simp [Fs.append]
  | cons b rest ih =>
    have hstep : bytewiseAnswer t s (.write fd (b :: rest)) = (.ok 1, s.append i [b]) := by
      simp [bytewiseAnswer, hs]
    have happend : (s.append i [b]).append i rest = s.append i (b :: rest) := by
      simp [Fs.append]
    rw [writeAll, if_neg (List.cons_ne_nil b rest), Prog.run_exec, hstep, ← happend]
    exact ih hs

/-- A publication whose temporary name is free completes. -/
theorem publishBytes_bytewise (file : CanonicalJsonFile) (temporary : String) (encoded : Bytes)
    {t : T} {s : Fs T} (hfree : s.names temporary = none) (hmade : .created (.made t 0) ∉ s.log t) :
    ∃ s', (publishBytes file true temporary encoded).run (bytewiseAnswer t) s =
      (.ok .published, s') ∧ s'.content file.name = some encoded := by
  let d := freshDescriptor s t
  let s₁ := s.pin t d .directory
  let w := freshDescriptor s₁ t
  let s₂ := (s₁.create t temporary (.made t 0)).pin t w (.writing (.made t 0))
  let s₃ := (s₂.append (.made t 0) encoded).release t w
  have hopened : .opened d ∈ s₁.log t := by simp [s₁, Fs.pin, Fs.note]
  have hfresh : .opened w ∉ s₁.log t := (fresh_freshDescriptor s₁ t).2
  have hne : d ≠ w := fun h => hfresh (h ▸ hopened)
  have hcreate : bytewiseAnswer t s₁ (.createTemp d temporary) = (.ok w, s₂) := by
    simp [bytewiseAnswer, s₁, Fs.pin, Fs.note, hfree, hmade, s₂, w]
  have hwrite (l : Locals T) : (writeAll l w encoded).run (bytewiseAnswer t) s₂ =
      (.ok (), s₂.append (.made t 0) encoded) :=
    writeAll_bytewise l encoded (by simp [s₂, Fs.pin, Fs.note])
  have hreplace : bytewiseAnswer t s₃ (.replace d temporary file.name) =
      (.ok (), s₃.rename t temporary file.name (.made t 0)) := by
    simp [bytewiseAnswer, s₃, s₂, s₁, Fs.release, Fs.append, Fs.pin, Fs.create, Fs.note, hne]
  have hbytes : s₃.bytes (.made t 0) = encoded := by
    simp [s₃, s₂, s₁, Fs.release, Fs.append, Fs.pin, Fs.create, Fs.note]
  refine ⟨(s₃.rename t temporary file.name (.made t 0)).release t d, ?_, ?_⟩
  · have hopen : bytewiseAnswer t s .openDirectory = (.ok d, s₁) := rfl
    have hclose : bytewiseAnswer t (s₂.append (.made t 0) encoded) (.close w) = (.ok (), s₃) := rfl
    have hsteps : (publishSteps file true temporary encoded).run (bytewiseAnswer t) s =
        (.ok ⟨.replaceTarget, .replaced, some d, none, some temporary, false⟩,
          s₃.rename t temporary file.name (.made t 0)) := by
      simp [publishSteps, orFail, hopen, hcreate, hwrite, hclose, hreplace]
      rfl
    rw [publishBytes, Prog.run_settle, hsteps]
    rfl
  · simp [Fs.content, Fs.rename, Fs.release, Fs.note, hbytes]


theorem ten_encoded : encodeDocument textSerialization twoBytes (.int 10) = some [49, 48] := by
  have hbytes : textBytes (dumps binaryRepr (.int 10)) = [49, 48] := by decide +kernel
  have hparsed := parse_textBytes (.int 10)
  rw [hbytes] at hparsed
  have hdecoded : textSerialization.decodeStrictJsonBytes [49, 48] twoBytes.maxBytes
      twoBytes.maxDepth = .ok (.int 10) := by
    simp only [textSerialization, hparsed]
    exact if_pos (by decide)
  exact encodeDocument_of_decodes rfl (congrArg some hbytes) hdecoded

/-- The number 10 is published and read back; the number 100 is a byte too long. -/
theorem documents_round_trip_hundred :
    Lawful textSerialization ∧
    (∃ s, (publishDocument textSerialization twoBytes true "report.tmp" (.int 10)).run
        (bytewiseDisk ()).answer (Fs.boot (fun _ => none) fun _ => []) = (.ok .published, s) ∧
      ((readDocument textSerialization twoBytes true).run (bytewiseDisk ()).answer s).1 =
        .ok (.int 10)) ∧
    ((readDocument textSerialization twoBytes true).run (bytewiseDisk ()).answer
      (Fs.boot (fun _ => some 0) fun _ => [49, 48, 48])).1 =
        .error ⟨.bytes .readBytes, .boundsExceeded⟩ := by
  obtain ⟨hpublished, _, hrefused⟩ :=
    documents_round_trip (T := Unit) textSerialization_lawful twoBytes
  refine ⟨textSerialization_lawful, ?_, ?_⟩
  · obtain ⟨s, hrun, _⟩ := publishBytes_bytewise twoBytes.toCanonicalJsonFile "report.tmp" [49, 48]
      (t := ()) (s := Fs.boot (fun _ => none) fun _ => []) rfl List.not_mem_nil
    have hreturned : (publishDocument textSerialization twoBytes true "report.tmp" (.int 10)).run
        (bytewiseDisk ()).answer (Fs.boot (fun _ => none) fun _ => []) = (.ok .published, s) := by
      rw [publishDocument, ten_encoded]
      exact hrun
    obtain ⟨v, hvalid, hread⟩ := hpublished () (bytewiseDisk ()) true "report.tmp" (.int 10) _
      .published (congrArg Prod.fst hreturned) () (bytewiseDisk ()) s (bytewiseDisk_healthy ())
      (by rw [hreturned])
    cases hvalid
    exact ⟨s, hreturned, hread⟩
  · exact (hrefused () (bytewiseDisk ()) _ [49, 48, 48] (bytewiseDisk_healthy ()) rfl (by decide)).1

end DrStore.Documents.RoundTrip
