import DrStore.Documents.Publishing

/-! # What a reader sees (document_file/canonical_json.py, `_read_bytes`)

The child that a reader opens is sealed, so its bytes stay as they are while it is read, whatever
the target points to by then. -/
namespace DrStore.Documents.Reading
open DrStore.Base.Programs DrStore.Base.Pool DrStore.Documents.FileSystem
open DrStore.Documents.CanonicalJson DrStore.Documents.Sharing DrStore.Documents.Publishing

variable {T : Type} [DecidableEq T] {W : Callers T} {t : T} {s : Fs T}

/-- A sealed file is open, and read as far as these chunks. -/
def Pinned (W : Callers T) (fd : Descriptor T) (i : Inode T) (b chunks : Bytes) (s : Fs T) : Prop :=
  s.handles fd = some (.reading i) ∧ s.offset fd = chunks.length ∧ Sealed W s i ∧ s.bytes i = b

omit [DecidableEq T] in
theorem stable_pinned {fd : Descriptor T} {i : Inode T} {b chunks : Bytes} (hfd : fd.owner = t) :
    Stable (rules W) t (Pinned W fd i b chunks) := by
  have hoffset : Private W t (fun s => s.offset fd = chunks.length) :=
    fun _ _ hsame h => (hsame.offset fd hfd).trans h
  exact (private_handle hfd).stable.and (hoffset.stable.and (stable_sealed t i b))

omit [DecidableEq T] in
theorem stable_complete (raw : Bytes) : Stable (rules W) t (fun s => Complete W s raw) := by
  rintro s s' ⟨_, _, u, _, hg⟩ (h | ⟨v, hv, hraw⟩)
  · exact .inl h
  · exact .inr ⟨v, Guarantee.mem_log hg hv, hraw⟩

theorem complete_release {raw : Bytes} (fd : Descriptor T) (h : Complete W s raw) :
    Complete W (s.release t fd) raw := by
  obtain h | ⟨u, hu, hraw⟩ := h
  · exact .inl h
  · refine .inr ⟨u, ?_, hraw⟩
    by_cases hut : u = t
    · subst hut
      simp [Fs.release, Fs.note, hu]
    · simp [Fs.release, Fs.note, hut, hu]

/-! ## The loop -/

/-- What the loop ends with: fewer bytes than the limit are all of them. -/
def Loaded (W : Callers T) (t : T) (l : ReadLocals T) (held : List (Descriptor T)) (limit : Nat)
    (b : Bytes) (i : Inode T) : Except (ReadFailure T) Bytes → Fs T → Prop
  | .ok raw, s => Books t .unknown held s ∧ (Sealed W s i ∧ s.bytes i = b) ∧
      (raw.length < limit → raw = b)
  | .error (l', _), s => Books t .unknown held s ∧ l' = l

theorem wp_readBounded {l : ReadLocals T} {held : List (Descriptor T)} {limit : Nat}
    {fd : Descriptor T} {i : Inode T} {b : Bytes} (hfd : fd.owner = t) (chunks : Bytes)
    (hchunks : chunks <+: b) (hbooks : Books t .unknown held s)
    (hpinned : Pinned W fd i b chunks s) :
    wp directorySystem (rules W) t (readBoundedChildDescriptor l fd limit chunks)
      (Loaded W t l held limit b i) s := by
  have hreturn {chunks : Bytes} {s : Fs T} (hbooks : Books t .unknown held s)
      (hsealed : Sealed W s i ∧ s.bytes i = b) (hall : chunks.length < limit → chunks = b) :
      wp directorySystem (rules W) t (.pure chunks) (Loaded W t l held limit b i) s :=
    wp_pure ((private_books _ _).stable.and (stable_sealed t i b)) ⟨hbooks, hsealed⟩
      fun _ _ h => ⟨h.1, h.2, hall⟩
  induction chunks using readBoundedChildDescriptor.induct limit generalizing s with
  | case1 chunks hlimit ih =>
    rw [readBoundedChildDescriptor, if_pos hlimit]
    refine wp_call ((private_books _ _).stable.and (stable_pinned hfd)) ⟨hbooks, hpinned⟩
      (fun _ _ => hfd) ?_
    rintro s (e | chunk) s' _ ⟨hbooks, hhandle, hoffset, hsealed, hbytes⟩ heffect _
    · obtain rfl : s' = s := heffect
      exact wp_fail (private_books _ _).stable hbooks fun _ _ h => ⟨h, rfl⟩
    obtain ⟨j, hj, ⟨m, _, hchunk⟩, hend, rfl⟩ := heffect
    rw [hhandle] at hj
    cases hj
    rw [hoffset, hbytes] at hchunk hend
    have hbooks : Books t .unknown held (s.advance fd chunk.length) :=
      ⟨hbooks.accounted, hbooks.owned, hbooks.notReplaced, hbooks.replaced⟩
    by_cases hmore : 0 < chunk.length ∧ chunks.length < limit
    · simp only [if_pos hmore]
      refine ih chunk hmore ?_ hbooks ⟨hhandle, ?_, hsealed, hbytes⟩
      · obtain ⟨rest, hrest⟩ := hchunks
        rw [← hrest, List.drop_left] at hchunk
        refine ⟨rest.drop m, ?_⟩
        rw [hchunk, List.append_assoc, List.take_append_drop, hrest]
      · simp [Fs.advance, hoffset]
    · simp only [if_neg hmore]
      refine hreturn hbooks ⟨hsealed, hbytes⟩ fun _ => ?_
      have hnil : chunk = [] := List.length_eq_zero_iff.mp (by omega)
      rcases hend hnil with hzero | hall
      · simp only [readChunkBytes] at hzero
        omega
      · exact hchunks.eq_of_length_le hall
  | case2 chunks hlimit =>
    rw [readBoundedChildDescriptor, if_neg hlimit]
    exact hreturn hbooks hpinned.2.2 fun h => absurd h hlimit

/-! ## The `try` block -/

/-- What the `try` block ends with. -/
def ReadAttempted (W : Callers T) (t : T) :
    Except (ReadFailure T) (ReadLocals T × Bytes) → Fs T → Prop
  | .ok (l, raw), s =>
      Books t .unknown (l.childDescriptor.toList ++ l.directoryDescriptor.toList) s ∧
        Complete W s raw
  | .error (l, _), s =>
      Books t .unknown (l.childDescriptor.toList ++ l.directoryDescriptor.toList) s

theorem readAttempted_fail {l : ReadLocals T} {cause : ReadCause}
    (h : Books t .unknown (l.childDescriptor.toList ++ l.directoryDescriptor.toList) s) :
    wp directorySystem (rules W) t (.fail (l, cause)) (ReadAttempted W t) s :=
  wp_fail (private_books _ _).stable h fun _ _ h => h

theorem wp_readSteps {file : CanonicalJsonFile} (hfile : file.name = W.target)
    (hbooks : Books t .unknown [] s) :
    wp directorySystem (rules W) t (readSteps file) (ReadAttempted W t) s := by
  refine wp_call (private_books _ _).stable hbooks (fun _ _ => trivial) ?_
  rintro s (e | directory) s' _ hbooks heffect _
  · obtain rfl : s' = s := heffect
    exact readAttempted_fail hbooks
  obtain ⟨hfresh, rfl⟩ := heffect
  refine wp_call (private_books _ _).stable (hbooks.pin hfresh .directory) (fun _ _ => trivial) ?_
  rintro s (e | child) s' hinv hbooks heffect _
  · obtain rfl : s' = s := heffect
    exact readAttempted_fail hbooks
  obtain ⟨_, hfresh, i, hi, rfl⟩ := heffect
  rw [hfile] at hi
  have hpinned : Pinned W child i (s.bytes i) [] (s.pin t child (.reading i)) := by
    refine ⟨Function.update_self .., Function.update_self .., ?_, rfl⟩
    exact (Kept.pin hinv hfresh.1).2.keeps_sealed (hinv.settled i hi)
  refine wp_call ((private_books _ _).stable.and (stable_pinned hfresh.1))
    ⟨hbooks.pin hfresh (.reading i), hpinned⟩ (fun _ _ => trivial) ?_
  rintro s (e | regular) s' _ ⟨hbooks, hpinned⟩ heffect hkept
  · obtain rfl : s' = s := heffect
    exact readAttempted_fail hbooks
  obtain rfl : s' = s := heffect
  cases regular with
  | false => exact readAttempted_fail hbooks
  | true =>
    let l : ReadLocals T := ⟨.readBytes, some directory, some child⟩
    show wp directorySystem (rules W) t
      (readBoundedChildDescriptor l child (file.maxBytes + 1) [] >>= _) _ _
    refine wp_bind hkept.1 (wp_mono ?_ (wp_readBounded hfresh.1 [] List.nil_prefix hbooks hpinned))
    rintro (⟨l', cause⟩ | raw) s hinv hloaded
    · obtain ⟨hbooks, rfl⟩ := hloaded
      exact readAttempted_fail hbooks
    obtain ⟨hbooks, ⟨hsealed, hbytes⟩, hall⟩ := hloaded
    by_cases hbounds : file.maxBytes < raw.length
    · simp only [if_pos hbounds]
      exact readAttempted_fail hbooks
    · simp only [if_neg hbounds]
      have hcomplete : Complete W s raw := by
        rw [hall (by omega), ← hbytes]
        exact hinv.complete hsealed
      exact wp_pure ((private_books _ _).stable.and (stable_complete raw)) ⟨hbooks, hcomplete⟩
        fun _ _ h => h

/-! ## What a reader reports -/

/-- A document that is returned is a complete one, and every descriptor is closed. -/
structure ReadReported (W : Callers T) (t : T) (out : Except DocumentError Answer) (s : Fs T) :
    Prop where
  complete : ∀ raw, out = .ok (.document raw) → Complete W s raw
  accounted : Accounted (s.log t) []

theorem wp_closingRead {ε : Type} {held : List (Descriptor T)} {P : Fs T → Prop}
    {fd? : Option (Descriptor T)} {cause : Option ReadCause}
    {Q : Except ε (Option ReadCause) → Fs T → Prop} (hP : Stable (rules W) t P)
    (hrelease : ∀ s fd, P s → P (s.release t fd)) (h : Books t .unknown (fd?.toList ++ held) s)
    (hp : P s)
    (hQ : ∀ cause' s', Consistent W s' → Books t .unknown held s' → P s' → Q (.ok cause') s') :
    wp directorySystem (rules W) t (closingRead cause fd?) Q s := by
  have hend {cause' : Option ReadCause} {s' : Fs T} (hbooks : Books t .unknown held s')
      (hp : P s') : wp directorySystem (rules W) t (.pure cause') Q s' :=
    wp_pure ((private_books _ _).stable.and hP) ⟨hbooks, hp⟩
      fun s'' hinv h => hQ cause' s'' hinv h.1 h.2
  cases fd? with
  | none => exact hend h hp
  | some fd =>
    refine wp_close hP hrelease h hp ?_
    rintro (e | _) s' _ hbooks hp'
    · exact hend hbooks hp'
    · exact hend hbooks hp'

/-- Both descriptors are closed, then the outcome is reported. -/
theorem wp_closingReads {l : ReadLocals T} {raw : Option Bytes} {cause : Option ReadCause}
    (hinv : Consistent W s)
    (hbooks : Books t .unknown (l.childDescriptor.toList ++ l.directoryDescriptor.toList) s)
    (hraw : ∀ r, raw = some r → Complete W s r) :
    wp directorySystem (rules W) t (closingRead cause l.childDescriptor >>= fun cause =>
        closingRead cause l.directoryDescriptor >>= fun cause =>
          match cause, raw with
          | none, some raw => .pure (.document raw)
          | none, none => .fail (.read l.stage .mismatch)
          | some cause, _ => .fail (.read l.stage cause.reason))
      (ReadReported W t) s := by
  have hstable : Stable (rules W) t (fun s => ∀ r, raw = some r → Complete W s r) :=
    fun s s' ho h r hr => stable_complete r s s' ho (h r hr)
  have hrelease : ∀ (s : Fs T) (fd : Descriptor T), (∀ r, raw = some r → Complete W s r) →
      ∀ r, raw = some r → Complete W (s.release t fd) r :=
    fun s fd h r hr => complete_release fd (h r hr)
  refine wp_bind hinv (wp_closingRead hstable hrelease hbooks hraw ?_)
  intro cause s hinv hbooks hraw
  rw [← List.append_nil l.directoryDescriptor.toList] at hbooks
  refine wp_bind hinv (wp_closingRead hstable hrelease hbooks hraw ?_)
  intro cause s _ hbooks hraw
  have hfail {e : DocumentError} : wp directorySystem (rules W) t (.fail e) (ReadReported W t) s :=
    wp_fail (private_books _ _).stable hbooks fun _ _ h => ⟨by simp, h.accounted⟩
  match cause, raw with
  | some _, _ => exact hfail
  | none, none => exact hfail
  | none, some raw =>
    refine wp_pure ((private_books _ _).stable.and (stable_complete raw)) ⟨hbooks, hraw raw rfl⟩ ?_
    intro s' _ h
    refine ⟨?_, h.1.accounted⟩
    intro raw' heq
    cases heq
    exact h.2

theorem wp_readBytes {file : CanonicalJsonFile} {supported : Bool} (hinv : Consistent W s)
    (hfile : file.name = W.target) (hidle : Idle t s) :
    wp directorySystem (rules W) t (readBytes file supported) (ReadReported W t) s := by
  have hbooks : Books t .unknown [] s := ⟨hidle.books.accounted, by simp, by simp, by simp⟩
  unfold readBytes
  cases supported with
  | false =>
    exact wp_fail (private_books _ _).stable hbooks fun _ _ h => ⟨by simp, h.accounted⟩
  | true =>
    simp only [Bool.true_eq_false, if_false]
    refine wp_settle hinv (wp_mono ?_ (wp_readSteps hfile hbooks))
    rintro (⟨l, cause⟩ | ⟨l, raw⟩) s hinv hattempted
    · exact wp_closingReads hinv hattempted (by simp)
    · refine wp_closingReads hinv hattempted.1 ?_
      intro r hr
      cases hr
      exact hattempted.2

end DrStore.Documents.Reading
