import DrStore.Documents.CanonicalJson

/-! # Callers that share a target

Any number of threads publish to one file or read it. The invariant says that what the target
holds is decided by the last replacement that took effect, and that the file it points to is
sealed: nobody writes to it again. The guarantee says what one caller leaves alone; both hold of
every call that `Permitted` allows. -/
namespace DrStore.Documents.Sharing
open DrStore.Base.Pool DrStore.Documents.FileSystem DrStore.Documents.CanonicalJson

variable {T : Type}

inductive Call where
  | publish (file : CanonicalJsonFile) (supported : Bool) (uuid : String) (encoded : Option Bytes)
  | read (file : CanonicalJsonFile) (supported : Bool)

namespace Call

def file : Call → CanonicalJsonFile
  | .publish file _ _ _ => file
  | .read file _ => file

def temporary : Call → Option String
  | .publish file _ uuid _ => some (temporaryName file.targetKey uuid)
  | .read _ _ => none

def encoded : Call → Option Bytes
  | .publish _ _ _ encoded => encoded
  | .read _ _ => none

def script : Call → Script T DocumentError Answer
  | .publish file supported uuid encoded =>
    CanonicalJson.publish file supported (temporaryName file.targetKey uuid) encoded
  | .read file supported => readBytes file supported

theorem temporary_ne {call : Call} {x : String} (h : call.temporary = some x) :
    x ≠ call.file.name := by
  cases call with
  | publish file supported uuid encoded =>
    cases h
    exact file.temporaryName_ne uuid
  | read file supported => cases h

end Call

/-- What the directory holds at first, and who calls what; every call is for one target, and no
two publishers use the same temporary name. -/
structure Callers (T : Type) where
  target : String
  files : String → Option Nat
  contents : Nat → Bytes
  calls : T → Call
  onTarget : ∀ t, (calls t).file.name = target
  distinct : ∀ t u x, (calls t).temporary = some x → (calls u).temporary = some x → t = u

variable (W : Callers T)

namespace Callers

def initial : Option Bytes := (W.files W.target).map W.contents

/-- What the target holds after these replacements. -/
def shown (installs : List T) : Option Bytes :=
  match installs.getLast? with
  | none => W.initial
  | some t => (W.calls t).encoded

@[simp] theorem shown_concat (installs : List T) (t : T) :
    W.shown (installs ++ [t]) = (W.calls t).encoded := by
  rw [shown, List.getLast?_concat]

theorem temporary_ne_target {t : T} {x : String} (h : (W.calls t).temporary = some x) :
    x ≠ W.target :=
  W.onTarget t ▸ Call.temporary_ne h

end Callers

/-- A file that the target has pointed to. -/
def Sealed (s : Fs T) : Inode T → Prop
  | .initial n => W.files W.target = some n
  | .made t n => .replacing ∈ s.log t ∧ (W.calls t).encoded = some (s.bytes (.made t n))

/-- The first content of the target, or all that a publisher encoded that has called `replace`. -/
def Complete (s : Fs T) (document : Bytes) : Prop :=
  W.initial = some document ∨
    ∃ t, .replacing ∈ s.log t ∧ (W.calls t).encoded = some document

structure Consistent (s : Fs T) : Prop where
  content : s.content W.target = W.shown s.installs
  settled : ∀ i, s.names W.target = some i → Sealed W s i
  originals : ∀ n, s.bytes (.initial n) = W.contents n
  installers : ∀ t ∈ s.installs, .replacing ∈ s.log t ∧ ∃ b, (W.calls t).encoded = some b
  created : ∀ t i, .created i ∈ s.log t → ∃ n, i = .made t n
  placed : ∀ x t n, s.names x = some (.made t n) → x = W.target ∨ (W.calls t).temporary = some x

/-- What a step of `t` leaves alone. -/
structure Guarantee (t : T) (s s' : Fs T) : Prop where
  logs : ∀ u, u ≠ t → s'.log u = s.log u
  grows : ∀ e ∈ s.log t, e ∈ s'.log t
  names : ∀ x, x ≠ W.target → (W.calls t).temporary ≠ some x → s'.names x = s.names x
  bytes : ∀ i, (∀ n, i = .made t n → .replacing ∈ s.log t) → s'.bytes i = s.bytes i
  handles : ∀ fd, fd.owner ≠ t → s'.handles fd = s.handles fd
  offset : ∀ fd, fd.owner ≠ t → s'.offset fd = s.offset fd
  installs : ∀ u, u ≠ t → (u ∈ s'.installs ↔ u ∈ s.installs)

variable {W}

namespace Guarantee

theorem refl (t : T) (s : Fs T) : Guarantee W t s s :=
  ⟨fun _ _ => rfl, fun _ h => h, fun _ _ _ => rfl, fun _ _ => rfl, fun _ _ => rfl, fun _ _ => rfl,
    fun _ _ => Iff.rfl⟩

theorem trans {t : T} {s s' s'' : Fs T} (h : Guarantee W t s s') (h' : Guarantee W t s' s'') :
    Guarantee W t s s'' where
  logs u hu := (h'.logs u hu).trans (h.logs u hu)
  grows e he := h'.grows e (h.grows e he)
  names x hx hx' := (h'.names x hx hx').trans (h.names x hx hx')
  bytes i hi := (h'.bytes i fun n hn => h.grows _ (hi n hn)).trans (h.bytes i hi)
  handles fd hfd := (h'.handles fd hfd).trans (h.handles fd hfd)
  offset fd hfd := (h'.offset fd hfd).trans (h.offset fd hfd)
  installs u hu := (h'.installs u hu).trans (h.installs u hu)

theorem mem_log {t u : T} {s s' : Fs T} (h : Guarantee W t s s') {e : Entry T}
    (he : e ∈ s.log u) : e ∈ s'.log u := by
  by_cases hu : u = t
  · subst hu
    exact h.grows e he
  · rwa [h.logs u hu]

/-- Nobody writes to a sealed file. -/
theorem bytes_sealed {t : T} {s s' : Fs T} (h : Guarantee W t s s') {i : Inode T}
    (hi : Sealed W s i) : s'.bytes i = s.bytes i := by
  refine h.bytes i fun n hn => ?_
  subst hn
  exact hi.1

theorem keeps_sealed {t : T} {s s' : Fs T} (h : Guarantee W t s s') {i : Inode T}
    (hi : Sealed W s i) : Sealed W s' i := by
  have hbytes := h.bytes_sealed hi
  cases i with
  | initial n => exact hi
  | made u n => exact ⟨h.mem_log hi.1, hbytes ▸ hi.2⟩

end Guarantee

namespace Consistent

theorem complete {s : Fs T} (h : Consistent W s) {i : Inode T} (hi : Sealed W s i) :
    Complete W s (s.bytes i) := by
  cases i with
  | initial n => exact .inl (by rw [Callers.initial, hi, h.originals]; rfl)
  | made t n => exact .inr ⟨t, hi.1, hi.2⟩

/-- The target is as it was at first, or holds all of a document. -/
theorem content_complete {s : Fs T} (h : Consistent W s) :
    s.content W.target = W.initial ∨
      ∃ t b, .replacing ∈ s.log t ∧ (W.calls t).encoded = some b ∧
        s.content W.target = some b := by
  rw [h.content, Callers.shown]
  cases hlast : s.installs.getLast? with
  | none => exact .inl rfl
  | some t =>
    obtain ⟨hreplacing, b, hb⟩ := h.installers t (List.mem_of_getLast? hlast)
    exact .inr ⟨t, b, hreplacing, hb, hb⟩

/-- A step that leaves the target's name alone. -/
theorem of_guarantee {t : T} {s s' : Fs T} (h : Consistent W s) (hg : Guarantee W t s s')
    (htarget : s'.names W.target = s.names W.target) (hinstalls : s'.installs = s.installs)
    (hcreated : ∀ i, .created i ∈ s'.log t → ∃ n, i = .made t n)
    (hplaced : ∀ x u n, s'.names x = some (.made u n) →
      x = W.target ∨ (W.calls u).temporary = some x) : Consistent W s' where
  content := by
    rw [hinstalls, ← h.content, Fs.content, Fs.content, htarget]
    cases hi : s.names W.target with
    | none => rfl
    | some i => exact congrArg some (hg.bytes_sealed (h.settled i hi))
  settled i hi := hg.keeps_sealed (h.settled i (htarget ▸ hi))
  originals n := (hg.bytes _ fun _ hn => by cases hn).trans (h.originals n)
  installers u hu := by
    rw [hinstalls] at hu
    exact ⟨hg.mem_log (h.installers u hu).1, (h.installers u hu).2⟩
  created u i hi := by
    by_cases hu : u = t
    · subst hu
      exact hcreated i hi
    · exact h.created u i (hg.logs u hu ▸ hi)
  placed := hplaced

end Consistent

/-- The state after a step is as the rules want it. -/
def Kept (W : Callers T) (t : T) (s s' : Fs T) : Prop := Consistent W s' ∧ Guarantee W t s s'

namespace Kept

variable {t : T} {s s' s'' : Fs T}

theorem refl (h : Consistent W s) : Kept W t s s := ⟨h, .refl t s⟩

theorem trans (h : Kept W t s s') (h' : Kept W t s' s'') : Kept W t s s'' :=
  ⟨h'.1, h.2.trans h'.2⟩

end Kept

/-! ## System calls -/

variable [DecidableEq T]

/-- The calls that a caller may make, on the state it makes them in. -/
def Permitted (W : Callers T) (t : T) (s : Fs T) : Syscall T → Prop
  | .createTemp _ name => (W.calls t).temporary = some name ∧ .replacing ∉ s.log t
  | .write fd _ => ∀ i, s.handles fd = some (.writing i) →
      (∃ n, i = .made t n) ∧ .replacing ∉ s.log t
  | .replace _ source target => target = W.target ∧ (W.calls t).temporary = some source ∧
      ∀ i, s.names source = some i → (∃ n, i = .made t n) ∧ (W.calls t).encoded = some (s.bytes i)
  | .unlink _ name => (W.calls t).temporary = some name
  | .close fd | .read fd _ => fd.owner = t
  | .openDirectory | .openChild _ _ | .fstat _ => True

namespace Kept

variable {t : T} {s : Fs T}

/-- A step that touches only descriptors of `t` and notes it. -/
theorem quiet {e : Entry T} {handles : Descriptor T → Option (Handle T)}
    {offset : Descriptor T → Nat} (h : Consistent W s) (he : ∀ i, e ≠ .created i)
    (hhandles : ∀ fd, fd.owner ≠ t → handles fd = s.handles fd)
    (hoffset : ∀ fd, fd.owner ≠ t → offset fd = s.offset fd) :
    Kept W t s ({ s with handles := handles, offset := offset }.note t e) := by
  have hg : Guarantee W t s ({ s with handles := handles, offset := offset }.note t e) := by
    refine ⟨?_, ?_, fun _ _ _ => rfl, fun _ _ => rfl, hhandles, hoffset, fun _ _ => Iff.rfl⟩
    · intro u hu
      simp [Fs.note, hu]
    · intro e' he'
      simp [Fs.note, he']
  refine ⟨h.of_guarantee hg rfl rfl ?_ h.placed, hg⟩
  intro i hi
  simp only [Fs.note, Function.update_self, List.mem_cons] at hi
  rcases hi with hi | hi
  · exact absurd hi.symm (he i)
  · exact h.created t i hi

theorem note {e : Entry T} (h : Consistent W s) (he : ∀ i, e ≠ .created i) :
    Kept W t s (s.note t e) :=
  quiet h he (fun _ _ => rfl) (fun _ _ => rfl)

theorem pin {fd : Descriptor T} {handle : Handle T} (h : Consistent W s) (hfd : fd.owner = t) :
    Kept W t s (s.pin t fd handle) := by
  refine quiet h (fun _ he => by cases he) ?_ ?_
  · intro fd' hfd'
    exact Function.update_of_ne (Descriptor.ne_of_owner hfd' hfd) _ _
  · intro fd' hfd'
    exact Function.update_of_ne (Descriptor.ne_of_owner hfd' hfd) _ _

theorem release {fd : Descriptor T} (h : Consistent W s) (hfd : fd.owner = t) :
    Kept W t s (s.release t fd) := by
  refine quiet h (fun _ he => by cases he) ?_ (fun _ _ => rfl)
  intro fd' hfd'
  exact Function.update_of_ne (Descriptor.ne_of_owner hfd' hfd) _ _

theorem advance {fd : Descriptor T} {n : Nat} (h : Consistent W s) (hfd : fd.owner = t) :
    Kept W t s (s.advance fd n) := by
  have hg : Guarantee W t s (s.advance fd n) := by
    refine ⟨fun _ _ => rfl, fun _ he => he, fun _ _ _ => rfl, fun _ _ => rfl, fun _ _ => rfl, ?_,
      fun _ _ => Iff.rfl⟩
    intro fd' hfd'
    exact Function.update_of_ne (Descriptor.ne_of_owner hfd' hfd) _ _
  exact ⟨h.of_guarantee hg rfl rfl (h.created t) h.placed, hg⟩

theorem create {x : String} {n : Nat} (h : Consistent W s) (hx : (W.calls t).temporary = some x)
    (hreplacing : .replacing ∉ s.log t) : Kept W t s (s.create t x (.made t n)) := by
  have hg : Guarantee W t s (s.create t x (.made t n)) := by
    refine ⟨?_, ?_, ?_, ?_, fun _ _ => rfl, fun _ _ => rfl, fun _ _ => Iff.rfl⟩
    · intro u hu
      simp [Fs.create, Fs.note, hu]
    · intro e he
      simp [Fs.create, Fs.note, he]
    · intro y _ hy
      have hne : y ≠ x := fun he => hy (he ▸ hx)
      exact Function.update_of_ne hne _ _
    · intro i hi
      exact Function.update_of_ne (fun he => hreplacing (hi n he)) _ _
  refine ⟨h.of_guarantee hg ?_ rfl ?_ ?_, hg⟩
  · exact Function.update_of_ne (W.temporary_ne_target hx).symm _ _
  · intro i hi
    simp only [Fs.create, Fs.note, Function.update_self, List.mem_cons, Entry.created.injEq] at hi
    rcases hi with hi | hi
    · exact ⟨n, hi⟩
    · exact h.created t i hi
  · intro y u m hy
    by_cases hyx : y = x
    · subst hyx
      simp only [Fs.create, Fs.note, Function.update_self, Option.some.injEq, Inode.made.injEq] at hy
      exact .inr (hy.1 ▸ hx)
    · exact h.placed y u m (by simpa [Fs.create, Fs.note, hyx] using hy)

theorem append {n : Nat} {data : Bytes} (h : Consistent W s) (hreplacing : .replacing ∉ s.log t) :
    Kept W t s (s.append (.made t n) data) := by
  have hg : Guarantee W t s (s.append (.made t n) data) := by
    refine ⟨fun _ _ => rfl, fun _ he => he, fun _ _ _ => rfl, ?_, fun _ _ => rfl, fun _ _ => rfl,
      fun _ _ => Iff.rfl⟩
    intro i hi
    exact Function.update_of_ne (fun he => hreplacing (hi n he)) _ _
  exact ⟨h.of_guarantee hg rfl rfl (h.created t) h.placed, hg⟩

omit [DecidableEq T] in
theorem remove {x : String} (h : Consistent W s) (hx : (W.calls t).temporary = some x) :
    Kept W t s (s.remove x) := by
  have hg : Guarantee W t s (s.remove x) := by
    refine ⟨fun _ _ => rfl, fun _ he => he, ?_, fun _ _ => rfl, fun _ _ => rfl, fun _ _ => rfl,
      fun _ _ => Iff.rfl⟩
    intro y _ hy
    have hne : y ≠ x := fun he => hy (he ▸ hx)
    exact Function.update_of_ne hne _ _
  refine ⟨h.of_guarantee hg ?_ rfl (h.created t) ?_, hg⟩
  · exact Function.update_of_ne (W.temporary_ne_target hx).symm _ _
  · intro y u m hy
    by_cases hyx : y = x
    · subst hyx
      simp [Fs.remove] at hy
    · exact h.placed y u m (by simpa [Fs.remove, hyx] using hy)

/-- The file that becomes the target is complete, so the target changes from one document to
another. -/
theorem rename {x : String} {n : Nat} (h : Consistent W s)
    (hx : (W.calls t).temporary = some x) (hencoded : (W.calls t).encoded = some (s.bytes (.made t n))) :
    Kept W t s (s.rename t x W.target (.made t n)) := by
  have hg : Guarantee W t s (s.rename t x W.target (.made t n)) := by
    refine ⟨?_, ?_, ?_, fun _ _ => rfl, fun _ _ => rfl, fun _ _ => rfl, ?_⟩
    · intro u hu
      simp [Fs.rename, Fs.note, hu]
    · intro e he
      simp [Fs.rename, Fs.note, he]
    · intro y hy hyx
      have hne : y ≠ x := fun he => hyx (he ▸ hx)
      simp [Fs.rename, Fs.note, hy, hne]
    · intro u hu
      simp [Fs.rename, Fs.note, hu]
  have hreplacing : .replacing ∈ (s.rename t x W.target (.made t n)).log t := by
    simp [Fs.rename, Fs.note]
  have htarget : (s.rename t x W.target (.made t n)).names W.target = some (.made t n) :=
    Function.update_self ..
  refine ⟨⟨?_, ?_, h.originals, ?_, ?_, ?_⟩, hg⟩
  · simp [Fs.content, Fs.rename, Fs.note, hencoded]
  · intro i hi
    rw [htarget] at hi
    cases hi
    exact ⟨hreplacing, hencoded⟩
  · intro u hu
    by_cases hut : u = t
    · subst hut
      exact ⟨hreplacing, _, hencoded⟩
    · have hold := h.installers u ((hg.installs u hut).mp hu)
      exact ⟨hg.mem_log hold.1, hold.2⟩
  · intro u i hi
    by_cases hut : u = t
    · subst hut
      exact h.created u i (by simpa [Fs.rename, Fs.note] using hi)
    · exact h.created u i (hg.logs u hut ▸ hi)
  · intro y u m hy
    by_cases hyt : y = W.target
    · exact .inl hyt
    · by_cases hyx : y = x
      · subst hyx
        simp [Fs.rename, Fs.note, hyt] at hy
      · exact h.placed y u m (by simpa [Fs.rename, Fs.note, hyt, hyx] using hy)

end Kept

/-- **A permitted call keeps the invariant and the guarantee, whatever it answers.** -/
theorem effect_kept {t : T} {s s' : Fs T} {op : Syscall T} {r : SysReply op}
    (h : Consistent W s) (hop : Permitted W t s op) (heffect : s.Effect t op r s') :
    Kept W t s s' := by
  cases op with
  | openDirectory =>
    cases r with
    | error e =>
      obtain rfl : s' = s := heffect
      exact .refl h
    | ok fd =>
      obtain ⟨hfresh, rfl⟩ := heffect
      exact .pin h hfresh.1
  | createTemp directory name =>
    cases r with
    | error e =>
      obtain rfl : s' = s := heffect
      exact .refl h
    | ok fd =>
      obtain ⟨_, _, hfresh, n, _, rfl⟩ := heffect
      have hcreate : Kept W t s (s.create t name (.made t n)) := .create h hop.1 hop.2
      exact hcreate.trans (.pin hcreate.1 hfresh.1)
  | write fd data =>
    have happend {i : Inode T} {m : Nat} (hi : s.handles fd = some (.writing i)) :
        Kept W t s (s.append i (data.take m)) := by
      obtain ⟨⟨n, rfl⟩, hreplacing⟩ := hop i hi
      exact .append h hreplacing
    cases r with
    | error e =>
      obtain rfl | ⟨i, n, hi, rfl⟩ := heffect
      · exact .refl h
      · exact happend hi
    | ok n =>
      obtain ⟨_, i, hi, rfl⟩ := heffect
      exact happend hi
  | close fd =>
    obtain rfl : s' = s.release t fd := heffect
    exact .release h hop
  | replace directory source target =>
    obtain ⟨rfl, hsource, hcomplete⟩ := hop
    have hrename {i : Inode T} (hi : s.names source = some i) :
        Kept W t s (s.rename t source W.target i) := by
      obtain ⟨⟨n, rfl⟩, hencoded⟩ := hcomplete i hi
      exact .rename h hsource hencoded
    cases r with
    | error e =>
      obtain rfl | ⟨i, hi, rfl⟩ := heffect
      · exact .note h fun _ he => by cases he
      · exact hrename hi
    | ok _ =>
      obtain ⟨_, i, hi, rfl⟩ := heffect
      exact hrename hi
  | unlink directory name =>
    have hremove : Kept W t s (s.remove name) := .remove h hop
    cases r with
    | error e =>
      obtain rfl | rfl := heffect
      · exact .note h fun _ he => by cases he
      · exact hremove.trans (.note hremove.1 fun _ he => by cases he)
    | ok _ =>
      obtain ⟨_, _, rfl⟩ := heffect
      exact hremove
  | openChild directory name =>
    cases r with
    | error e =>
      obtain rfl : s' = s := heffect
      exact .refl h
    | ok fd =>
      obtain ⟨_, hfresh, i, _, rfl⟩ := heffect
      exact .pin h hfresh.1
  | fstat fd =>
    obtain rfl : s' = s := heffect
    exact .refl h
  | read fd n =>
    cases r with
    | error e =>
      obtain rfl : s' = s := heffect
      exact .refl h
    | ok chunk =>
      obtain ⟨i, _, _, _, rfl⟩ := heffect
      exact .advance h hop

/-! ## Rules -/

/-- The rules of the pool: the invariant of the directory and every caller's guarantee. -/
def rules (W : Callers T) : Rules T (Fs T) where
  inv := Consistent W
  guar := Guarantee W

/-- What the others leave alone of what `t` looks at. -/
structure Same (W : Callers T) (t : T) (s s' : Fs T) : Prop where
  log : s'.log t = s.log t
  temporary : ∀ x, (W.calls t).temporary = some x → s'.names x = s.names x
  bytes : ∀ n, s'.bytes (.made t n) = s.bytes (.made t n)
  handles : ∀ fd, fd.owner = t → s'.handles fd = s.handles fd
  offset : ∀ fd, fd.owner = t → s'.offset fd = s.offset fd
  installs : t ∈ s'.installs ↔ t ∈ s.installs

omit [DecidableEq T] in
theorem same_of_others {t : T} {s s' : Fs T} (h : Others (rules W) t s s') : Same W t s s' := by
  obtain ⟨_, _, u, hu, hg⟩ := h
  have hg : Guarantee W u s s' := hg
  refine ⟨hg.logs t hu.symm, ?_, ?_, ?_, ?_, hg.installs t hu.symm⟩
  · intro x hx
    refine hg.names x (W.temporary_ne_target hx) fun hux => ?_
    exact hu (W.distinct u t x hux hx)
  · intro n
    refine hg.bytes _ fun m hm => ?_
    cases hm
    exact absurd rfl hu
  · intro fd hfd
    exact hg.handles fd fun hfd' => hu (hfd' ▸ hfd)
  · intro fd hfd
    exact hg.offset fd fun hfd' => hu (hfd' ▸ hfd)

/-- An assertion about what only `t` changes. -/
def Private (W : Callers T) (t : T) (A : Fs T → Prop) : Prop := ∀ s s', Same W t s s' → A s → A s'

omit [DecidableEq T] in
theorem Private.stable {t : T} {A : Fs T → Prop} (h : Private W t A) : Stable (rules W) t A :=
  fun s s' ho hs => h s s' (same_of_others ho) hs

omit [DecidableEq T] in
theorem stable_sealed (t : T) (i : Inode T) (b : Bytes) :
    Stable (rules W) t (fun s => Sealed W s i ∧ s.bytes i = b) := by
  rintro s s' ⟨_, _, u, _, hg⟩ ⟨hi, hb⟩
  have hg : Guarantee W u s s' := hg
  exact ⟨hg.keeps_sealed hi, (hg.bytes_sealed hi).trans hb⟩

/-- One call of `t`: an assertion that the others keep allows it, and what follows is right after
any of its effects. -/
theorem wp_call {ε α : Type} {t : T} {s : Fs T} {op : Syscall T} {k : SysReply op → Script T ε α}
    {Q : Except ε α → Fs T → Prop} {A : Fs T → Prop} (hA : Stable (rules W) t A) (hs : A s)
    (hop : ∀ s, A s → Permitted W t s op)
    (h : ∀ s r s', Consistent W s → A s → s.Effect t op r s' → Kept W t s s' →
      wp directorySystem (rules W) t (k r) Q s') :
    wp directorySystem (rules W) t (.exec op k) Q s := by
  refine wp_exec hA hs ?_
  intro s' r s'' hinv ha heffect
  have hkept := effect_kept hinv (hop s' ha) heffect
  exact ⟨hkept.1, hkept.2, h s' r s'' hinv ha heffect hkept⟩

end DrStore.Documents.Sharing
