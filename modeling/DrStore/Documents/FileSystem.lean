import DrStore.Base.Pool

/-! # System calls on one directory

Names point to files, descriptors pin them. Any call may fail; a failing `write` may have
written part of its data, a failing `replace` or `unlink` may have taken effect, a failing
`close` releases the descriptor, every other failing call does nothing. A file and a
descriptor carry the thread that made them, and `log` what each thread has done; `installs`
is the order in which replacements took effect. -/
namespace DrStore.Documents.FileSystem
open DrStore.Base.Pool

abbrev Bytes := List UInt8

variable {T : Type} [DecidableEq T]

/-- A file that was there, or one that a thread made. -/
inductive Inode (T : Type) where
  | initial (n : Nat)
  | made (t : T) (n : Nat)
deriving DecidableEq

structure Descriptor (T : Type) where
  owner : T
  index : Nat
deriving DecidableEq

omit [DecidableEq T] in
theorem Descriptor.ne_of_owner {t : T} {fd fd' : Descriptor T} (h : fd.owner ≠ t)
    (h' : fd'.owner = t) : fd ≠ fd' :=
  fun he => h (he ▸ h')

inductive Handle (T : Type) where
  | directory
  | writing (i : Inode T)
  | reading (i : Inode T)

inductive Entry (T : Type) where
  | opened (fd : Descriptor T)
  | closed (fd : Descriptor T)
  | created (i : Inode T)
  | replacing
  | unlinkFailed
deriving DecidableEq

structure Fs (T : Type) where
  names : String → Option (Inode T)
  bytes : Inode T → Bytes
  handles : Descriptor T → Option (Handle T)
  offset : Descriptor T → Nat
  log : T → List (Entry T)
  installs : List T

/-- The errors that a caller tells apart: `ENOENT`, `ELOOP`, any other. -/
inductive OsError where
  | missing
  | loop
  | other
deriving DecidableEq

inductive Syscall (T : Type) where
  | openDirectory
  | createTemp (directory : Descriptor T) (name : String)
  | write (fd : Descriptor T) (data : Bytes)
  | close (fd : Descriptor T)
  | replace (directory : Descriptor T) (source target : String)
  | unlink (directory : Descriptor T) (name : String)
  | openChild (directory : Descriptor T) (name : String)
  | fstat (fd : Descriptor T)
  | read (fd : Descriptor T) (n : Nat)

abbrev SysReply : Syscall T → Type
  | .openDirectory | .createTemp _ _ | .openChild _ _ => Except OsError (Descriptor T)
  | .write _ _ => Except OsError Nat
  | .read _ _ => Except OsError Bytes
  | .fstat _ => Except OsError Bool
  | .close _ | .replace _ _ _ | .unlink _ _ => Except OsError Unit

namespace Fs

/-- A directory with these files, before anyone runs. -/
def boot (files : String → Option Nat) (contents : Nat → Bytes) : Fs T where
  names name := (files name).map .initial
  bytes
    | .initial n => contents n
    | .made _ _ => []
  handles _ := none
  offset _ := 0
  log _ := []
  installs := []

/-- What a reader of the name would see, if it read all at once. -/
def content (s : Fs T) (name : String) : Option Bytes := (s.names name).map s.bytes

def note (s : Fs T) (t : T) (e : Entry T) : Fs T :=
  { s with log := Function.update s.log t (e :: s.log t) }

/-- A descriptor of `t` that `t` has not had before. -/
def Fresh (s : Fs T) (t : T) (fd : Descriptor T) : Prop := fd.owner = t ∧ .opened fd ∉ s.log t

def pin (s : Fs T) (t : T) (fd : Descriptor T) (h : Handle T) : Fs T :=
  { s with
    handles := Function.update s.handles fd (some h)
    offset := Function.update s.offset fd 0 }.note t (.opened fd)

def release (s : Fs T) (t : T) (fd : Descriptor T) : Fs T :=
  { s with handles := Function.update s.handles fd none }.note t (.closed fd)

def create (s : Fs T) (t : T) (name : String) (i : Inode T) : Fs T :=
  { s with
    names := Function.update s.names name (some i)
    bytes := Function.update s.bytes i [] }.note t (.created i)

def append (s : Fs T) (i : Inode T) (data : Bytes) : Fs T :=
  { s with bytes := Function.update s.bytes i (s.bytes i ++ data) }

/-- The one step in which the target changes. -/
def rename (s : Fs T) (t : T) (source target : String) (i : Inode T) : Fs T :=
  { s with
    names := Function.update (Function.update s.names source none) target (some i)
    installs := s.installs ++ [t] }.note t .replacing

def remove (s : Fs T) (name : String) : Fs T :=
  { s with names := Function.update s.names name none }

def advance (s : Fs T) (fd : Descriptor T) (n : Nat) : Fs T :=
  { s with offset := Function.update s.offset fd (s.offset fd + n) }

def Effect (s : Fs T) (t : T) : (op : Syscall T) → SysReply op → Fs T → Prop
  | .openDirectory, .ok fd, s' => s.Fresh t fd ∧ s' = s.pin t fd .directory
  | .openDirectory, .error _, s' => s' = s
  | .createTemp directory name, .ok fd, s' => s.handles directory = some .directory ∧
      -- O_EXCL: the name is free, and the file is a new one
      s.names name = none ∧ s.Fresh t fd ∧ ∃ n, .created (.made t n) ∉ s.log t ∧
      s' = (s.create t name (.made t n)).pin t fd (.writing (.made t n))
  | .createTemp _ _, .error _, s' => s' = s
  | .write fd data, .ok n, s' => n ≤ data.length ∧
      ∃ i, s.handles fd = some (.writing i) ∧ s' = s.append i (data.take n)
  | .write fd data, .error _, s' => s' = s ∨
      ∃ i n, s.handles fd = some (.writing i) ∧ s' = s.append i (data.take n)
  | .close fd, _, s' => s' = s.release t fd
  | .replace directory source target, .ok _, s' => s.handles directory = some .directory ∧
      ∃ i, s.names source = some i ∧ s' = s.rename t source target i
  | .replace _ source target, .error _, s' => s' = s.note t .replacing ∨
      ∃ i, s.names source = some i ∧ s' = s.rename t source target i
  | .unlink directory name, .ok _, s' => s.handles directory = some .directory ∧
      (s.names name).isSome = true ∧ s' = s.remove name
  | .unlink _ name, .error _, s' => s' = s.note t .unlinkFailed ∨
      s' = (s.remove name).note t .unlinkFailed
  | .openChild directory name, .ok fd, s' => s.handles directory = some .directory ∧
      s.Fresh t fd ∧ ∃ i, s.names name = some i ∧ s' = s.pin t fd (.reading i)
  | .openChild _ _, .error _, s' => s' = s
  | .fstat _, _, s' => s' = s
  | .read fd n, .ok chunk, s' => ∃ i, s.handles fd = some (.reading i) ∧
      -- any part of what was asked for, and nothing only at the end of the file
      (∃ m, m ≤ n ∧ chunk = ((s.bytes i).drop (s.offset fd)).take m) ∧
      (chunk = [] → n = 0 ∨ (s.bytes i).length ≤ s.offset fd) ∧
      s' = s.advance fd chunk.length
  | .read _ _, .error _, s' => s' = s

/-- Only a replacement adds to `installs`, and it adds its own thread. -/
theorem installs_effect {t : T} {s s' : Fs T} {op : Syscall T} {r : SysReply op}
    (h : s.Effect t op r s') : s'.installs = s.installs ∨ s'.installs = s.installs ++ [t] := by
  cases op with
  | openDirectory =>
    cases r with
    | error e => exact .inl (congrArg installs h)
    | ok fd =>
      obtain ⟨_, rfl⟩ := h
      exact .inl rfl
  | createTemp directory name =>
    cases r with
    | error e => exact .inl (congrArg installs h)
    | ok fd =>
      obtain ⟨_, _, _, n, _, rfl⟩ := h
      exact .inl rfl
  | write fd data =>
    cases r with
    | error e =>
      obtain rfl | ⟨i, n, _, rfl⟩ := h
      · exact .inl rfl
      · exact .inl rfl
    | ok n =>
      obtain ⟨_, i, _, rfl⟩ := h
      exact .inl rfl
  | close fd =>
    obtain rfl : s' = s.release t fd := h
    exact .inl rfl
  | replace directory source target =>
    cases r with
    | error e =>
      obtain rfl | ⟨i, _, rfl⟩ := h
      · exact .inl rfl
      · exact .inr rfl
    | ok _ =>
      obtain ⟨_, i, _, rfl⟩ := h
      exact .inr rfl
  | unlink directory name =>
    cases r with
    | error e =>
      obtain rfl | rfl := h
      · exact .inl rfl
      · exact .inl rfl
    | ok _ =>
      obtain ⟨_, _, rfl⟩ := h
      exact .inl rfl
  | openChild directory name =>
    cases r with
    | error e => exact .inl (congrArg installs h)
    | ok fd =>
      obtain ⟨_, _, i, _, rfl⟩ := h
      exact .inl rfl
  | fstat fd => exact .inl (congrArg installs h)
  | read fd n =>
    cases r with
    | error e => exact .inl (congrArg installs h)
    | ok chunk =>
      obtain ⟨i, _, _, _, rfl⟩ := h
      exact .inl rfl

end Fs

/-- Threads on one directory; a thread that dies leaves the directory as it is. -/
def directorySystem : System T (Fs T) (Syscall T) SysReply where
  step t s op r s' := s.Effect t op r s'
  kill _ s s' := s' = s

end DrStore.Documents.FileSystem
