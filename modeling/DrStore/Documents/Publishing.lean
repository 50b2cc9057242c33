import DrStore.Documents.Sharing

/-! # What a publisher does (document_file/canonical_json.py, `publish`)

A publisher keeps books of its descriptors and of its temporary file on every path, and what it
reports agrees with whether its replacement took effect. -/
namespace DrStore.Documents.Publishing
open DrStore.Base.Programs DrStore.Base.Pool DrStore.Documents.FileSystem
open DrStore.Documents.CanonicalJson DrStore.Documents.Sharing

variable {T : Type} [DecidableEq T]

/-! ## Descriptors -/

/-- Every descriptor was opened once at most, and is held or was closed, once, if it was. -/
def Accounted (log : List (Entry T)) (held : List (Descriptor T)) : Prop :=
  ∀ fd, log.count (.opened fd) ≤ 1 ∧
    log.count (.closed fd) + held.count fd = log.count (.opened fd)

namespace Accounted

variable {log : List (Entry T)} {held : List (Descriptor T)} {fd : Descriptor T}

theorem nil : Accounted ([] : List (Entry T)) [] := fun _ => by simp

theorem opened (h : Accounted log held) (hfd : .opened fd ∉ log) :
    Accounted (.opened fd :: log) (fd :: held) := by
  intro fd'
  obtain ⟨hle, heq⟩ := h fd'
  by_cases hne : fd = fd'
  · subst hne
    have hzero : log.count (.opened fd) = 0 := List.count_eq_zero.mpr hfd
    simp
    omega
  · simp [hne, hle, heq]

theorem closed (h : Accounted log (fd :: held)) : Accounted (.closed fd :: log) held := by
  intro fd'
  obtain ⟨hle, heq⟩ := h fd'
  by_cases hne : fd = fd'
  · subst hne
    simp at heq ⊢
    omega
  · simp [hne] at heq ⊢
    exact ⟨hle, heq⟩

theorem other {e : Entry T} (h : Accounted log held) (hopened : ∀ fd, e ≠ .opened fd)
    (hclosed : ∀ fd, e ≠ .closed fd) : Accounted (e :: log) held := by
  intro fd
  rw [List.count_cons_of_ne (hopened fd), List.count_cons_of_ne (hclosed fd)]
  exact h fd

theorem closed_once (h : Accounted log []) (fd : Descriptor T)
    (hfd : .opened fd ∈ log) : log.count (.closed fd) = 1 := by
  obtain ⟨hle, heq⟩ := h fd
  have hpos : 0 < log.count (.opened fd) := List.count_pos_iff.mpr hfd
  simp only [List.count_nil] at heq
  omega

end Accounted

/-! ## Books -/

variable {W : Callers T} {t : T} {s : Fs T}

/-- The descriptors that `t` holds, and whether its replacement has taken effect. -/
structure Books (t : T) (state : ReplacementState) (held : List (Descriptor T)) (s : Fs T) :
    Prop where
  accounted : Accounted (s.log t) held
  owned : ∀ fd ∈ held, fd.owner = t
  notReplaced : state = .notReplaced → t ∉ s.installs
  replaced : state = .replaced → t ∈ s.installs

/-- No file that `t` made is at its temporary name. -/
def Tidy (W : Callers T) (t : T) (s : Fs T) : Prop :=
  ∀ x i, (W.calls t).temporary = some x → .created i ∈ s.log t → s.names x ≠ some i

theorem private_books (state : ReplacementState) (held : List (Descriptor T)) :
    Private W t (Books t state held) := by
  intro s s' hsame h
  refine ⟨hsame.log ▸ h.accounted, h.owned, ?_, ?_⟩
  · exact fun hstate => mt hsame.installs.mp (h.notReplaced hstate)
  · exact fun hstate => hsame.installs.mpr (h.replaced hstate)

omit [DecidableEq T] in
theorem private_tidy : Private W t (Tidy W t) := by
  intro s s' hsame h x i hx hi
  rw [hsame.log] at hi
  rw [hsame.temporary x hx]
  exact h x i hx hi

namespace Books

variable {state : ReplacementState} {held : List (Descriptor T)} {fd : Descriptor T}

theorem pin (h : Books t state held s) (hfresh : s.Fresh t fd) (handle : Handle T) :
    Books t state (fd :: held) (s.pin t fd handle) := by
  refine ⟨?_, ?_, h.notReplaced, h.replaced⟩
  · have hlog : (s.pin t fd handle).log t = .opened fd :: s.log t := by simp [Fs.pin, Fs.note]
    exact hlog ▸ h.accounted.opened hfresh.2
  · exact List.forall_mem_cons.mpr ⟨hfresh.1, h.owned⟩

theorem release (h : Books t state (fd :: held) s) : Books t state held (s.release t fd) := by
  refine ⟨?_, fun fd' hfd' => h.owned fd' (.tail _ hfd'), h.notReplaced, h.replaced⟩
  have hlog : (s.release t fd).log t = .closed fd :: s.log t := by simp [Fs.release, Fs.note]
  exact hlog ▸ h.accounted.closed

/-- An entry that is about no descriptor, with no replacement. -/
theorem note {e : Entry T} {s' : Fs T} (h : Books t state held s)
    (hlog : s'.log t = e :: s.log t) (hinstalls : s'.installs = s.installs)
    (hopened : ∀ fd, e ≠ .opened fd) (hclosed : ∀ fd, e ≠ .closed fd) :
    Books t state held s' := by
  refine ⟨hlog ▸ h.accounted.other hopened hclosed, h.owned, ?_, ?_⟩
  · exact fun hstate => hinstalls ▸ h.notReplaced hstate
  · exact fun hstate => hinstalls ▸ h.replaced hstate

end Books

theorem Tidy.release {fd : Descriptor T} (h : Tidy W t s) : Tidy W t (s.release t fd) := by
  intro x i hx hi
  exact h x i hx (by simpa [Fs.release, Fs.note] using hi)

/-! ## Releasing -/

section Releasing

variable {ε : Type} {state : ReplacementState} {held : List (Descriptor T)} {P : Fs T → Prop}

/-- One `close`, whatever it answers. -/
theorem wp_close {α : Type} {fd : Descriptor T} {Q : Except ε α → Fs T → Prop}
    {k : Except OsError Unit → Script T ε α} (hP : Stable (rules W) t P)
    (hrelease : ∀ s fd, P s → P (s.release t fd)) (h : Books t state (fd :: held) s) (hp : P s)
    (hk : ∀ r s', Consistent W s' → Books t state held s' → P s' →
      wp directorySystem (rules W) t (k r) Q s') :
    wp directorySystem (rules W) t (.exec (.close fd) k) Q s := by
  refine wp_call ((private_books state (fd :: held)).stable.and hP) ⟨h, hp⟩ ?_ ?_
  · exact fun s hs => hs.1.owned fd (.head _)
  · intro s r s' _ hs heffect hkept
    obtain rfl : s' = s.release t fd := heffect
    exact hk r _ hkept.1 hs.1.release (hrelease s fd hs.2)

theorem wp_closing {fd? : Option (Descriptor T)} {failure : Bool}
    {Q : Except ε Bool → Fs T → Prop} (hP : Stable (rules W) t P)
    (hrelease : ∀ s fd, P s → P (s.release t fd)) (h : Books t state (fd?.toList ++ held) s)
    (hp : P s)
    (hQ : ∀ failure' s', Consistent W s' → (failure' = false → failure = false) →
      Books t state held s' → P s' → Q (.ok failure') s') :
    wp directorySystem (rules W) t (closing failure fd?) Q s := by
  cases fd? with
  | none =>
    refine wp_pure ((private_books state held).stable.and hP) ⟨h, hp⟩ ?_
    exact fun s' hinv hs' => hQ failure s' hinv id hs'.1 hs'.2
  | some fd =>
    refine wp_close hP hrelease h hp ?_
    intro r s' _ hbooks hp'
    refine wp_pure ((private_books state held).stable.and hP) ⟨hbooks, hp'⟩ ?_
    intro s'' hinv hs''
    refine hQ _ s'' hinv ?_ hs''.1 hs''.2
    cases failure <;> simp

/-- The locals at the end of the `try` block, and what they say of the directory. -/
structure Held (W : Callers T) (t : T) (l : Locals T) (s : Fs T) : Prop where
  books : Books t l.replacementState
    (l.temporaryDescriptor.toList ++ l.directoryDescriptor.toList) s
  owns : l.ownsTemporary = true → ∃ x directory, l.temporaryName = some x ∧
    (W.calls t).temporary = some x ∧ l.directoryDescriptor = some directory
  tidy : l.ownsTemporary = false → Tidy W t s

/-- Nothing is left behind, if no `unlink` failed. -/
def Cleaned (W : Callers T) (t : T) (s : Fs T) : Prop := .unlinkFailed ∉ s.log t → Tidy W t s

omit [DecidableEq T] in
theorem private_cleaned : Private W t (Cleaned W t) := by
  intro s s' hsame h hlog
  rw [hsame.log] at hlog
  exact private_tidy s s' hsame (h hlog)

theorem Cleaned.release (s : Fs T) (fd : Descriptor T) (h : Cleaned W t s) :
    Cleaned W t (s.release t fd) := by
  intro hlog
  refine (h ?_).release
  simpa [Fs.release, Fs.note] using hlog

/-- After an `unlink` the temporary file is gone, or the log says that it failed. -/
theorem cleaned_of_unlink {x : String} {directory : Descriptor T} {r : Except OsError Unit}
    {s' : Fs T} (hx : (W.calls t).temporary = some x)
    (h : s.Effect t (.unlink directory x) r s') : Cleaned W t s' := by
  intro hlog y i hy _
  rw [hx] at hy
  cases hy
  cases r with
  | ok _ =>
    obtain ⟨_, _, rfl⟩ := h
    simp [Fs.remove]
  | error e =>
    refine absurd ?_ hlog
    obtain rfl | rfl := h
    · simp [Fs.note]
    · simp [Fs.note]

theorem Books.unlink {x : String} {directory : Descriptor T} {r : Except OsError Unit}
    {s' : Fs T} (hbooks : Books t state held s) (h : s.Effect t (.unlink directory x) r s') :
    Books t state held s' := by
  cases r with
  | ok _ =>
    obtain ⟨_, _, rfl⟩ := h
    exact ⟨hbooks.accounted, hbooks.owned, hbooks.notReplaced, hbooks.replaced⟩
  | error e =>
    obtain rfl | rfl := h
    · exact hbooks.note (Function.update_self ..) rfl (by simp) (by simp)
    · exact hbooks.note (Function.update_self ..) rfl (by simp) (by simp)

/-- A temporary file is removed on every failing path that still owns one. -/
theorem wp_finalize {l : Locals T} {failure : Bool} {Q : Except ε Bool → Fs T → Prop}
    (hinv : Consistent W s) (h : Held W t l s) (howns : l.ownsTemporary = true → failure = true)
    (hQ : ∀ failure' s', Consistent W s' → (failure' = false → failure = false) →
      Books t l.replacementState [] s' → Cleaned W t s' → Q (.ok failure') s') :
    wp directorySystem (rules W) t (finalizePublicationResources l failure) Q s := by
  have hlast {failure' : Bool} {s' : Fs T} (hf : failure' = false → failure = false)
      (hbooks : Books t l.replacementState l.directoryDescriptor.toList s')
      (hcleaned : Cleaned W t s') :
      wp directorySystem (rules W) t (closing failure' l.directoryDescriptor) Q s' := by
    rw [← List.append_nil l.directoryDescriptor.toList] at hbooks
    refine wp_closing private_cleaned.stable Cleaned.release hbooks hcleaned ?_
    exact fun failure'' s'' hinv hf' => hQ failure'' s'' hinv (hf ∘ hf')
  have hprivate : Private W t (fun s => l.ownsTemporary = false → Tidy W t s) :=
    fun s s' hsame hs ho => private_tidy s s' hsame (hs ho)
  refine wp_bind hinv ?_
  refine wp_closing hprivate.stable (fun s fd hs ho => (hs ho).release) h.books h.tidy ?_
  intro failure' s' hinv' hf hbooks htidy
  cases ho : l.ownsTemporary with
  | false =>
    simp only [Bool.and_false]
    exact hlast hf hbooks fun _ => htidy ho
  | true =>
    have hfailure : failure' = true := by
      cases failure' with
      | true => rfl
      | false => exact absurd (howns ho) (by rw [hf rfl]; exact Bool.false_ne_true)
    obtain ⟨x, directory, hname, hx, hdirectory⟩ := h.owns ho
    simp only [hfailure, hname, Bool.and_true]
    rw [hdirectory] at hbooks hlast ⊢
    refine wp_call (private_books _ _).stable hbooks (fun _ _ => hx) ?_
    intro s r s' _ hs heffect _
    exact hlast (fun hfalse => by cases hfalse) (hs.unlink heffect) (cleaned_of_unlink hx heffect)

end Releasing

/-! ## Writing -/

/-- The file that `t` made, as far as it is written. -/
structure Draft (t : T) (x : String) (n : Nat) (written : Bytes) (s : Fs T) : Prop where
  name : s.names x = some (.made t n)
  bytes : s.bytes (.made t n) = written
  unreplaced : .replacing ∉ s.log t

section Writing

variable {l : Locals T} {fd : Descriptor T} {x : String} {n : Nat}

theorem private_held : Private W t (Held W t l) :=
  fun s s' hsame h => ⟨private_books _ _ s s' hsame h.books, h.owns,
    fun ho => private_tidy s s' hsame (h.tidy ho)⟩

omit [DecidableEq T] in
theorem private_draft {written : Bytes} (hx : (W.calls t).temporary = some x) :
    Private W t (Draft t x n written) :=
  fun _ _ hsame h => ⟨(hsame.temporary x hx).trans h.name, (hsame.bytes n).trans h.bytes,
    hsame.log ▸ h.unreplaced⟩

omit [DecidableEq T] in
theorem private_handle {handle : Handle T} (hfd : fd.owner = t) :
    Private W t (fun s => s.handles fd = some handle) :=
  fun _ _ hsame h => (hsame.handles fd hfd).trans h

theorem Held.append {i : Inode T} {data : Bytes} (h : Held W t l s) : Held W t l (s.append i data) :=
  ⟨⟨h.books.accounted, h.books.owned, h.books.notReplaced, h.books.replaced⟩, h.owns, h.tidy⟩

theorem Draft.append {written : Bytes} (h : Draft t x n written s) (data : Bytes) :
    Draft t x n (written ++ data) (s.append (.made t n) data) := by
  refine ⟨h.name, ?_, h.unreplaced⟩
  simp [Fs.append, h.bytes]

/-- The file is written as far as this, or the loop has failed with its locals. -/
def Written (W : Callers T) (t : T) (l : Locals T) (x : String) (n : Nat) (written : Bytes) :
    Except (Locals T) Unit → Fs T → Prop
  | .ok _, s => Held W t l s ∧ Draft t x n written s
  | .error l', s => l' = l ∧ Held W t l s

/-- However short the writes are, a loop that ends has written everything. -/
theorem wp_writeAll (hfd : fd.owner = t) (hx : (W.calls t).temporary = some x) (data : Bytes)
    {written : Bytes} (hheld : Held W t l s) (hdraft : Draft t x n written s)
    (hhandle : s.handles fd = some (.writing (.made t n))) :
    wp directorySystem (rules W) t (writeAll l fd data) (Written W t l x n (written ++ data)) s := by
  induction data using writeAll.induct generalizing written s with
  | case1 =>
    rw [writeAll, if_pos rfl]
    refine wp_pure (private_held.stable.and (private_draft hx).stable) ⟨hheld, hdraft⟩ ?_
    intro s' _ hs'
    rwa [List.append_nil]
  | case2 data hdata ih =>
    have hfail {s' : Fs T} (h : Held W t l s') :
        wp directorySystem (rules W) t (.fail l) (Written W t l x n (written ++ data)) s' :=
      wp_fail private_held.stable h fun _ _ h => ⟨rfl, h⟩
    rw [writeAll, if_neg hdata]
    refine wp_call (private_held.stable.and ((private_draft hx).stable.and
      (private_handle hfd).stable)) ⟨hheld, hdraft, hhandle⟩ ?_ ?_
    · rintro s ⟨_, hdraft, hhandle⟩ i hi
      rw [hhandle] at hi
      cases hi
      exact ⟨⟨n, rfl⟩, hdraft.unreplaced⟩
    · rintro s r s' _ ⟨hheld, hdraft, hhandle⟩ heffect _
      cases r with
      | error e =>
        obtain rfl | ⟨i, m, _, rfl⟩ := heffect
        · exact hfail hheld
        · exact hfail hheld.append
      | ok m =>
        obtain ⟨_, i, hi, rfl⟩ := heffect
        rw [hhandle] at hi
        cases hi
        by_cases hm : 0 < m ∧ data ≠ []
        · simp only [if_pos hm]
          have hrest := ih m hm hheld.append (hdraft.append (data.take m)) hhandle
          rwa [List.append_assoc, List.take_append_drop] at hrest
        · simp only [if_neg hm]
          exact hfail hheld.append

end Writing

/-! ## The `try` block -/

/-- What the `try` block ends with. -/
def Attempted (W : Callers T) (t : T) : Except (Locals T) (Locals T) → Fs T → Prop
  | .ok l, s => l.replacementState = .replaced ∧ l.ownsTemporary = false ∧ Held W t l s
  | .error l, s => Held W t l s

/-- Neither a file made nor a replacement tried. -/
structure Blank (t : T) (s : Fs T) : Prop where
  uncreated : ∀ i, .created i ∉ s.log t
  unreplaced : .replacing ∉ s.log t

omit [DecidableEq T] in
theorem private_blank : Private W t (Blank t) :=
  fun _ _ hsame h => ⟨hsame.log ▸ h.uncreated, hsame.log ▸ h.unreplaced⟩

omit [DecidableEq T] in
theorem Blank.tidy (h : Blank t s) : Tidy W t s := fun _ i _ hi => absurd hi (h.uncreated i)

theorem Blank.pin {fd : Descriptor T} {handle : Handle T} (h : Blank t s) :
    Blank t (s.pin t fd handle) := by
  refine ⟨?_, ?_⟩
  · intro i hi
    exact h.uncreated i (by simpa [Fs.pin, Fs.note] using hi)
  · intro hr
    exact h.unreplaced (by simpa [Fs.pin, Fs.note] using hr)

section Steps

variable {l : Locals T} {x : String} {n : Nat} {directory : Descriptor T} {encoded : Bytes}

theorem attempted_fail (h : Held W t l s) :
    wp directorySystem (rules W) t (.fail l) (Attempted W t) s :=
  wp_fail private_held.stable h fun _ _ h => h

/-- The replacement, of a file that is written to its end. -/
theorem wp_replace (hx : (W.calls t).temporary = some x)
    (hencoded : (W.calls t).encoded = some encoded) (hheld : Held W t l s)
    (hstate : l.replacementState = .unknown) (howns : l.ownsTemporary = true)
    (hdraft : Draft t x n encoded s) :
    wp directorySystem (rules W) t
      (.exec (.replace directory x W.target) fun r => orFail l r >>= fun _ =>
        .pure { l with replacementState := .replaced, ownsTemporary := false })
      (Attempted W t) s := by
  refine wp_call (private_held.stable.and (private_draft hx).stable) ⟨hheld, hdraft⟩ ?_ ?_
  · rintro s ⟨_, hdraft⟩
    refine ⟨rfl, hx, ?_⟩
    intro i hi
    rw [hdraft.name] at hi
    cases hi
    exact ⟨⟨n, rfl⟩, hencoded.trans (congrArg some hdraft.bytes.symm)⟩
  · rintro s r s' _ ⟨hheld, _⟩ heffect _
    have haccounted : Accounted (.replacing :: s.log t)
        (l.temporaryDescriptor.toList ++ l.directoryDescriptor.toList) :=
      hheld.books.accounted.other (by simp) (by simp)
    cases r with
    | error e =>
      -- the file may be at either name, and the state says so
      refine attempted_fail ⟨⟨?_, hheld.books.owned, ?_, ?_⟩, hheld.owns, ?_⟩
      · obtain rfl | ⟨i, _, rfl⟩ := heffect
        · simpa [Fs.note] using haccounted
        · simpa [Fs.rename, Fs.note] using haccounted
      · simp [hstate]
      · simp [hstate]
      · simp [howns]
    | ok _ =>
      obtain ⟨_, i, _, rfl⟩ := heffect
      have hne := W.temporary_ne_target hx
      refine wp_pure (A := Held W t { l with replacementState := .replaced, ownsTemporary := false })
        private_held.stable ⟨⟨?_, hheld.books.owned, ?_, ?_⟩, ?_, ?_⟩ ?_
      · simpa [Fs.rename, Fs.note] using haccounted
      · simp
      · simp [Fs.rename, Fs.note]
      · simp
      · intro _ y i hy _
        rw [hx] at hy
        cases hy
        simp [Fs.rename, Fs.note, hne]
      · exact fun s' _ hs' => ⟨rfl, rfl, hs'⟩

theorem Draft.release {fd : Descriptor T} {written : Bytes} (s : Fs T) (h : Draft t x n written s) :
    Draft t x n written (s.release t fd) := by
  refine ⟨h.name, h.bytes, ?_⟩
  intro hr
  exact h.unreplaced (by simpa [Fs.release, Fs.note] using hr)

/-- A new file, empty and at its temporary name. -/
theorem draft_of_create {fd : Descriptor T} (h : Blank t s) :
    Draft t x n [] ((s.create t x (.made t n)).pin t fd (.writing (.made t n))) := by
  refine ⟨?_, ?_, ?_⟩
  · simp [Fs.pin, Fs.create, Fs.note]
  · simp [Fs.pin, Fs.create, Fs.note]
  · intro hr
    exact h.unreplaced (by simpa [Fs.pin, Fs.create, Fs.note] using hr)

theorem Books.create {state : ReplacementState} {held : List (Descriptor T)} {fd : Descriptor T}
    {i : Inode T} {handle : Handle T} (h : Books t state held s) (hfresh : s.Fresh t fd) :
    Books t state (fd :: held) ((s.create t x i).pin t fd handle) := by
  have hcreate : Books t state held (s.create t x i) :=
    h.note (Function.update_self ..) rfl (by simp) (by simp)
  refine hcreate.pin ⟨hfresh.1, ?_⟩ handle
  intro ho
  exact hfresh.2 (by simpa [Fs.create, Fs.note] using ho)

/-- The locals from the creation of the temporary file on. -/
def writingLocals (directory fd : Descriptor T) (x : String) : Locals T :=
  ⟨.writeTemp, .notReplaced, some directory, some fd, some x, true⟩

omit [DecidableEq T] in
theorem writing_owns {fd : Descriptor T} (hx : (W.calls t).temporary = some x) :
    (writingLocals directory fd x).ownsTemporary = true → ∃ y d,
      (writingLocals directory fd x).temporaryName = some y ∧ (W.calls t).temporary = some y ∧
        (writingLocals directory fd x).directoryDescriptor = some d :=
  fun _ => ⟨x, directory, rfl, hx, rfl⟩

/-- All is written and closed, then replaced. -/
theorem wp_writeTemp {fd : Descriptor T} (hinv : Consistent W s) (hfd : fd.owner = t)
    (hx : (W.calls t).temporary = some x) (hencoded : (W.calls t).encoded = some encoded)
    (hheld : Held W t (writingLocals directory fd x) s) (hdraft : Draft t x n [] s)
    (hhandle : s.handles fd = some (.writing (.made t n))) :
    wp directorySystem (rules W) t (do
      let l := writingLocals directory fd x
      writeAll l fd encoded
      let l := { l with temporaryDescriptor := none }
      orFail l (← .perform (.close fd))
      let l := { l with stage := .replaceTarget, replacementState := .unknown }
      orFail l (← .perform (.replace directory x W.target))
      return { l with replacementState := .replaced, ownsTemporary := false })
      (Attempted W t) s := by
  refine wp_bind hinv (wp_mono ?_ (wp_writeAll hfd hx encoded hheld hdraft hhandle))
  intro out s _ hwritten
  cases out with
  | error l =>
    obtain ⟨rfl, hheld⟩ := hwritten
    exact attempted_fail hheld
  | ok _ =>
    obtain ⟨hheld, hdraft⟩ := hwritten
    refine wp_close (private_draft hx).stable (fun s _ h => h.release) hheld.books hdraft ?_
    intro r s _ hbooks hdraft
    cases r with
    | error e =>
      exact attempted_fail ⟨hbooks, @writing_owns T W t x directory fd hx, by simp [writingLocals]⟩
    | ok _ =>
      have hbooks : Books t .unknown [directory] s :=
        ⟨hbooks.accounted, hbooks.owned, by simp, by simp⟩
      exact wp_replace hx hencoded ⟨hbooks, @writing_owns T W t x directory fd hx,
        by simp [writingLocals]⟩ rfl rfl hdraft

theorem wp_publishSteps {file : CanonicalJsonFile} {supported : Bool}
    (hx : (W.calls t).temporary = some x) (hfile : file.name = W.target)
    (hencoded : (W.calls t).encoded = some encoded) (hheld : Held W t Locals.start s)
    (hblank : Blank t s) :
    wp directorySystem (rules W) t (publishSteps file supported x encoded) (Attempted W t) s := by
  unfold publishSteps
  rw [hfile]
  cases supported with
  | false => exact attempted_fail hheld
  | true =>
    simp only [Bool.true_eq_false, if_false]
    refine wp_call (private_held.stable.and private_blank.stable) ⟨hheld, hblank⟩
      (fun _ _ => trivial) ?_
    intro s r s' _ hs heffect _
    obtain ⟨hheld, hblank⟩ := hs
    cases r with
    | error e =>
      obtain rfl : s' = s := heffect
      exact attempted_fail hheld
    | ok directory =>
      obtain ⟨hfresh, rfl⟩ := heffect
      have hheld : Held W t { Locals.start with
          directoryDescriptor := some directory, temporaryName := some x }
          (s.pin t directory .directory) :=
        ⟨hheld.books.pin hfresh .directory, by simp [Locals.start], fun _ => hblank.pin.tidy⟩
      refine wp_call (private_held.stable.and private_blank.stable) ⟨hheld, hblank.pin⟩
        (fun _ h => ⟨hx, h.2.unreplaced⟩) ?_
      intro s r s' _ hs heffect hkept
      obtain ⟨hheld, hblank⟩ := hs
      cases r with
      | error e =>
        obtain rfl : s' = s := heffect
        exact attempted_fail hheld
      | ok fd =>
        obtain ⟨_, _, hfresh, n, _, rfl⟩ := heffect
        exact wp_writeTemp hkept.1 hfresh.1 hx hencoded
          ⟨hheld.books.create hfresh, writing_owns hx, by simp [writingLocals]⟩
          (draft_of_create hblank) (Function.update_self ..)

end Steps

/-! ## What a publisher reports -/

/-- The outcome of a publication against what happened. -/
structure Reported (W : Callers T) (t : T) (out : Except DocumentError Answer) (s : Fs T) : Prop where
  returned : ∀ a, out = .ok a → t ∈ s.installs
  replaced : ∀ stage, out = .error (.publish stage .replaced) → t ∈ s.installs
  notReplaced : ∀ stage, out = .error (.publish stage .notReplaced) → t ∉ s.installs
  accounted : Accounted (s.log t) []
  cleaned : Cleaned W t s

/-- Nothing done yet. -/
structure Idle (t : T) (s : Fs T) : Prop where
  log : s.log t = []
  installs : t ∉ s.installs

omit [DecidableEq T] in
theorem private_idle : Private W t (Idle t) :=
  fun _ _ hsame h => ⟨hsame.log.trans h.log, mt hsame.installs.mp h.installs⟩

omit [DecidableEq T] in
theorem Idle.blank (h : Idle t s) : Blank t s := by
  refine ⟨?_, ?_⟩
  · simp [h.log]
  · simp [h.log]

theorem Idle.books (h : Idle t s) : Books t .notReplaced [] s :=
  ⟨h.log ▸ .nil, by simp, fun _ => h.installs, by simp⟩

theorem Idle.held (h : Idle t s) : Held W t Locals.start s :=
  ⟨h.books, by simp [Locals.start], fun _ => h.blank.tidy⟩

/-- The books that are closed say what the outcome says. -/
theorem reported_of_books {l : Locals T} {failure : Bool}
    (hreturned : failure = false → l.replacementState = .replaced)
    (hbooks : Books t l.replacementState [] s) (hcleaned : Cleaned W t s) :
    Reported W t (if failure then .error (.publish l.stage l.replacementState)
      else .ok .published) s := by
  refine ⟨?_, ?_, ?_, hbooks.accounted, hcleaned⟩
  · intro a ha
    cases failure with
    | true => cases ha
    | false => exact hbooks.replaced (hreturned rfl)
  · intro stage hstage
    cases failure with
    | true => exact hbooks.replaced (by injection hstage with h; injection h)
    | false => cases hstage
  · intro stage hstage
    cases failure with
    | true => exact hbooks.notReplaced (by injection hstage with h; injection h)
    | false => cases hstage

theorem private_reported {out : Except DocumentError Answer} : Private W t (Reported W t out) :=
  fun s s' hsame h => ⟨fun a ha => hsame.installs.mpr (h.returned a ha),
    fun stage hs => hsame.installs.mpr (h.replaced stage hs),
    fun stage hs => mt hsame.installs.mp (h.notReplaced stage hs),
    hsame.log ▸ h.accounted, private_cleaned s s' hsame h.cleaned⟩

theorem wp_publishBytes {file : CanonicalJsonFile} {supported : Bool} {x : String}
    {encoded : Bytes} (hinv : Consistent W s) (hx : (W.calls t).temporary = some x)
    (hfile : file.name = W.target) (hencoded : (W.calls t).encoded = some encoded)
    (hidle : Idle t s) :
    wp directorySystem (rules W) t (publishBytes file supported x encoded) (Reported W t) s := by
  have hfinal {l : Locals T} {failure : Bool} {s : Fs T} (hinv : Consistent W s)
      (hheld : Held W t l s) (howns : l.ownsTemporary = true → failure = true)
      (hreturned : failure = false → l.replacementState = .replaced) :
      wp directorySystem (rules W) t (finalizePublicationResources l failure >>= fun failure =>
        if failure then .fail (.publish l.stage l.replacementState) else .pure .published)
        (Reported W t) s := by
    refine wp_bind hinv (wp_finalize hinv hheld howns ?_)
    intro failure' s' _ hf hbooks hcleaned
    have hreported := reported_of_books (hreturned ∘ hf) hbooks hcleaned
    cases failure' with
    | true => exact wp_fail private_reported.stable hreported fun _ _ h => h
    | false => exact wp_pure private_reported.stable hreported fun _ _ h => h
  refine wp_settle hinv (wp_mono ?_ (wp_publishSteps hx hfile hencoded hidle.held hidle.blank))
  rintro (l | l) s hinv hattempted
  · exact hfinal hinv hattempted (fun _ => rfl) (fun h => by cases h)
  · obtain ⟨hstate, howns, hheld⟩ := hattempted
    exact hfinal hinv hheld (fun h => by rw [howns] at h; cases h) (fun _ => hstate)

theorem wp_publish {file : CanonicalJsonFile} {supported : Bool} {x : String}
    {encoded : Option Bytes} (hinv : Consistent W s) (hx : (W.calls t).temporary = some x)
    (hfile : file.name = W.target) (hencoded : (W.calls t).encoded = encoded) (hidle : Idle t s) :
    wp directorySystem (rules W) t (CanonicalJson.publish file supported x encoded)
      (Reported W t) s := by
  cases encoded with
  | some encoded => exact wp_publishBytes hinv hx hfile hencoded hidle
  | none =>
    refine wp_fail private_idle.stable hidle fun s' _ h => ?_
    exact @reported_of_books T _ W t s' { Locals.start with stage := .encode } true
      (fun hf => by cases hf) h.books fun _ => h.blank.tidy

end DrStore.Documents.Publishing
