import DrStore.Documents.VerifiedRead

/-! # Bounded reads (core/descriptor_io.py, `read_bounded_child_descriptor`)

The loop with its chunk size. On a disk that answers reads in pieces of any size it returns as
much of the file as one byte more than the bound, and never asks for more than is left of that. -/
namespace DrStore.Documents.BoundedRead
open DrStore.Base.Programs DrStore.Documents.FileSystem DrStore.Documents.CanonicalJson
open DrStore.Documents.RoundTrip DrStore.Documents.VerifiedRead DrStore.Store.ContentAddressing

variable {T : Type}

/-! ## The loop -/

def readUpTo (fd : Descriptor T) (chunkBytes limit : Nat) (chunks : Bytes) :
    Script T OsError Bytes :=
  if _ : chunks.length < limit then
    .exec (.read fd (min chunkBytes (limit - chunks.length))) fun
      | .error e => .fail e
      | .ok chunk => if _ : chunk = [] then .pure chunks else readUpTo fd chunkBytes limit
          (chunks ++ chunk)
  else .pure chunks
termination_by limit - chunks.length
decreasing_by
  rename_i hlimit hchunk
  have hpos := List.length_pos_iff.mpr hchunk
  rw [List.length_append]
  omega

def readBoundedChildDescriptor (fd : Descriptor T) (maxBytes chunkBytes : Nat) :
    Script T OsError Bytes :=
  readUpTo fd chunkBytes (maxBytes + 1) []

/-- The loop as the document file and the verified read use it, with the default chunk size. -/
theorem readUpTo_default (l : ReadLocals T) (fd : Descriptor T) (limit : Nat) (chunks : Bytes) :
    CanonicalJson.readBoundedChildDescriptor l fd limit chunks =
      (readUpTo fd readChunkBytes limit chunks).settle fun
        | .ok raw => .pure raw
        | .error e => .fail (l, .os e) := by
  induction chunks using CanonicalJson.readBoundedChildDescriptor.induct limit with
  | case1 chunks hlimit ih =>
    rw [CanonicalJson.readBoundedChildDescriptor, readUpTo, if_pos hlimit, dif_pos hlimit]
    refine congrArg (Prog.exec _) (funext fun r => ?_)
    cases r with
    | error e => rfl
    | ok chunk =>
      by_cases hchunk : chunk = []
      · subst hchunk
        simp [Prog.settle]
      · have hmore : 0 < chunk.length ∧ chunks.length < limit :=
          ⟨List.length_pos_iff.mpr hchunk, hlimit⟩
        simp only [if_pos hmore, dif_neg hchunk]
        exact ih chunk hmore
  | case2 chunks hlimit =>
    rw [CanonicalJson.readBoundedChildDescriptor, readUpTo, if_neg hlimit, dif_neg hlimit]
    rfl

/-! ## What is asked for, and what is returned -/

variable [DecidableEq T]

/-- A healthy disk, with where each read of the descriptor started and how much it asked for. -/
def counted (t : T) (fd : Descriptor T) (s : Fs T × List (Nat × Nat)) (op : Syscall T)
    (r : SysReply op) (s' : Fs T × List (Nat × Nat)) : Prop :=
  healthy t s.1 op r s'.1 ∧ s'.2 = match op with
    | .read fd' n => if fd' = fd then s.2 ++ [(s.1.offset fd, n)] else s.2
    | _ => s.2

/-- Every request asks for something, and for no more than is left of the limit. -/
def Requested (limit : Nat) (requests : List (Nat × Nat)) : Prop :=
  ∀ offset n, (offset, n) ∈ requests → 0 < n ∧ offset + n ≤ limit

theorem readUpTo_exact {t : T} {fd : Descriptor T} {i : Inode T} {s : Fs T} {chunkBytes : Nat}
    (limit : Nat) (hchunk : 0 < chunkBytes) (hhandle : s.handles fd = some (.reading i))
    (hstart : s.offset fd = 0) (chunks : Bytes) (hchunks : chunks <+: s.bytes i)
    (hbounded : chunks.length ≤ limit) (requests : List (Nat × Nat))
    (hrequests : Requested limit requests) (hcount : requests.length ≤ chunks.length) :
    (readUpTo fd chunkBytes limit chunks).ensures (counted t fd) (fun out s' =>
      out = .ok ((s.bytes i).take limit) ∧ Requested limit s'.2 ∧
        s'.1.offset fd = ((s.bytes i).take limit).length ∧
        s'.2.length ≤ ((s.bytes i).take limit).length + 1)
      (s.advance fd chunks.length, requests) := by
  induction chunks using readUpTo.induct limit generalizing requests with
  | case1 chunks hlimit ih =>
    rw [readUpTo, dif_pos hlimit]
    intro r s' hdoes
    obtain ⟨s', requests'⟩ := s'
    obtain ⟨⟨heffect, hhealthy⟩, hlog⟩ := hdoes
    obtain rfl : requests' = _ := hlog
    have hoffset : (s.advance fd chunks.length).offset fd = chunks.length := by
      simp [Fs.advance, hstart]
    simp only [hoffset, if_true]
    obtain ⟨chunk, rfl⟩ := hhealthy i hhandle
    obtain ⟨j, hj, ⟨m, hm, hpart⟩, hend, rfl⟩ := heffect
    have hj : s.handles fd = some (.reading j) := hj
    rw [hhandle] at hj
    cases hj
    have hbytes : (s.advance fd chunks.length).bytes i = s.bytes i := rfl
    rw [hoffset, hbytes] at hpart hend
    obtain ⟨rest, hrest⟩ := hchunks
    have hnew : Requested limit
        (requests ++ [(chunks.length, min chunkBytes (limit - chunks.length))]) := by
      intro offset n hmem
      obtain hold | hlast := List.mem_append.mp hmem
      · exact hrequests offset n hold
      · cases List.mem_singleton.mp hlast
        omega
    by_cases hnil : chunk = []
    · subst hnil
      have hshort : (s.bytes i).length ≤ chunks.length := (hend rfl).resolve_left (by omega)
      have hall : chunks = s.bytes i := List.IsPrefix.eq_of_length_le ⟨rest, hrest⟩ hshort
      have htake : (s.bytes i).take limit = chunks := by
        rw [← hall]
        exact List.take_of_length_le hbounded
      simp only [↓reduceDIte, htake]
      refine ⟨rfl, hnew, by simp [hoffset], ?_⟩
      simp only [List.length_append, List.length_singleton]
      omega
    · have hread := List.length_pos_iff.mpr hnil
      rw [← hrest, List.drop_left] at hpart
      simp only [dif_neg hnil, advance_advance, ← List.length_append]
      refine ih chunk hnil ⟨rest.drop m, ?_⟩ ?_ _ hnew ?_
      · rw [hpart, List.append_assoc, List.take_append_drop, hrest]
      · rw [List.length_append, hpart, List.length_take]
        omega
      · simp only [List.length_append, List.length_singleton]
        omega
  | case2 chunks hlimit =>
    rw [readUpTo, dif_neg hlimit]
    have hlength : chunks.length = limit := by omega
    have htake : (s.bytes i).take limit = chunks := by
      rw [← hlength]
      exact (List.prefix_iff_eq_take.mp hchunks).symm
    rw [htake]
    exact ⟨rfl, hrequests, by simp [Fs.advance, hstart], Nat.le_succ_of_le hcount⟩

theorem verifyRaw_ok {sha256 : Bytes → Digest} {maxBytes expectedByteLength : Nat}
    {expectedSha256 : String} (hlength : expectedByteLength ≤ maxBytes) (b raw : Bytes) :
    verifyRaw sha256 maxBytes expectedByteLength expectedSha256 b = .ok raw ↔
      raw = b ∧ b.length = expectedByteLength ∧ (sha256 b).text = expectedSha256 := by
  unfold verifyRaw
  split
  · rename_i hlong
    refine ⟨(fun h => by cases h), fun h => ?_⟩
    omega
  · split
    · rename_i hother
      exact ⟨(fun h => by cases h), fun h => absurd h.2.1 hother⟩
    · rename_i hsame
      split
      · rename_i hother
        exact ⟨(fun h => by cases h), fun h => absurd h.2.2 hother⟩
      · rename_i hhash
        refine ⟨fun h => ?_, fun h => by rw [h.1]⟩
        cases h
        exact ⟨rfl, not_not.mp hsame, not_not.mp hhash⟩

/-- **A bounded read returns the file up to one byte past the bound, whatever the chunk size and
however short the reads; each asks for something, and all together for no more than that. A
verified read returns exactly the content that has the expected length and hash.** -/
theorem bounded_reads_exact (t : T) (s : Fs T) :
    (∀ (fd : Descriptor T) (i : Inode T) (maxBytes chunkBytes : Nat), 0 < chunkBytes →
      s.handles fd = some (.reading i) → s.offset fd = 0 →
      (readBoundedChildDescriptor fd maxBytes chunkBytes).ensures (counted t fd) (fun out s' =>
        out = .ok ((s.bytes i).take (maxBytes + 1)) ∧ Requested (maxBytes + 1) s'.2 ∧
          s'.1.offset fd = ((s.bytes i).take (maxBytes + 1)).length ∧
          s'.2.length ≤ ((s.bytes i).take (maxBytes + 1)).length + 1) (s, [])) ∧
    ∀ (sha256 : Bytes → Digest) (maxBytes expectedByteLength : Nat) (expectedSha256 name : String)
      (b : Bytes), expectedByteLength ≤ maxBytes → isContentHash expectedSha256 = true →
      checkRegularChildName name = .ok () → s.content name = some b →
      (readVerifiedRegularChild sha256 maxBytes expectedByteLength expectedSha256 true
        name).ensures (healthy t) (fun out _ => ∀ raw, out = .ok raw ↔
          raw = b ∧ b.length = expectedByteLength ∧ (sha256 b).text = expectedSha256) s := by
  refine ⟨?_, ?_⟩
  · intro fd i maxBytes chunkBytes hchunk hhandle hstart
    have hexact := readUpTo_exact (t := t) (maxBytes + 1) hchunk hhandle hstart []
      List.nil_prefix (Nat.zero_le _) [] (fun _ _ hmem => by cases hmem) (Nat.le_refl _)
    rwa [List.length_nil, advance_zero] at hexact
  · intro sha256 maxBytes expectedByteLength expectedSha256 name b hlength hhash hname hcontent
    refine Prog.ensures_mono
      (readVerifiedRegularChild_healthy (u := t) hlength hhash hname hcontent) ?_
    intro out s' h raw
    rw [h.1]
    exact verifyRaw_ok hlength b raw

/-- The SHA-256 of `ab`. -/
def abDigest : Digest :=
  ⟨"fb8e20fc2e4c3f248c60c39bd652f3c1347298bb977b8b4d5903b85055620603", by decide⟩

/-- A file that holds `ab` is read back. -/
theorem bounded_reads_exact_ab :
    ((readVerifiedRegularChild (fun _ => abDigest) 5 2 abDigest.text true "a.txt" :
      Script Unit ChildReadFailure Bytes).run (plainDisk ()).answer
        (Fs.boot (fun name => if name = "a.txt" then some 0 else none) fun _ => [97, 98])).1 =
      .ok [97, 98] := by
  have h := (bounded_reads_exact () (Fs.boot
    (fun name => if name = "a.txt" then some 0 else none) fun _ => [97, 98])).2
    (fun _ => abDigest) 5 2 abDigest.text "a.txt" [97, 98] (by decide) abDigest.valid (by decide) rfl
  exact (Disk.run_healthy (plainDisk_healthy ()) h [97, 98]).mpr ⟨rfl, rfl, rfl⟩

end DrStore.Documents.BoundedRead
