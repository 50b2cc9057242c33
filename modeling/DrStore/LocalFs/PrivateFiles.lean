import DrStore.Base.Programs

/-! # Private directories and file locks (localfs/_fs.py)

The functions as scripts of system calls, any of which may fail. Descriptors are of any type `F`; a
path is the list of its components below the root, as `os.path.abspath` gives them. -/
namespace DrStore.LocalFs.PrivateFiles
open DrStore.Base.Programs

/-! ## System calls -/

inductive FileType where
  | directory
  | regular
  | symlink
  | other
deriving DecidableEq

/-- `os.stat_result`, as far as it is looked at; `mode` is its `S_IMODE`. -/
structure Stat where
  type : FileType
  uid : Nat
  mode : Nat
  nlink : Nat

/-- `ENOENT`, `EEXIST`, `ELOOP`, any other. -/
inductive Errno where
  | noEntry
  | exists
  | loop
  | other
deriving DecidableEq

/-- The `os.close` calls of the source. -/
inductive CloseSite where
  | handle
  | finishRegular
  | openChild
  | component
  | handOver
  | walk
  | lockEnter
  | lockExit
deriving DecidableEq

inductive LockMode where
  | shared
  | exclusive
deriving DecidableEq

structure OpenFlags where
  create : Bool
  truncate : Bool

/-- With the flags of the source: nothing follows a symlink. -/
inductive Call (F : Type) where
  | openRoot
  | openDirectory (parent : F) (name : String)
  | mkdir (parent : F) (name : String) (mode : Nat)
  | chmod (parent : F) (name : String) (mode : Nat)
  | lstat (place : Option (F × String))
  | fstat (fd : F)
  | fchmod (fd : F) (mode : Nat)
  | fsync (fd : F)
  | openRegular (parent : F) (name : String) (create : Bool) (mode : Nat)
  | ftruncate (fd : F)
  | flock (fd : F) (mode : LockMode)
  | unlock (fd : F)
  | replace (directory : F) (source destination : String)
  | unlink (directory : F) (name : String)
  | close (site : CloseSite) (fd : F)

abbrev Reply {F : Type} : Call F → Type
  | .openRoot | .openDirectory _ _ | .openRegular _ _ _ _ => Except Errno F
  | .lstat _ | .fstat _ => Except Errno Stat
  | _ => Except Errno Unit

inductive PrivatePathReason where
  | filesystemRoot
  | symlinked
  | wrongType
  | notOwned
  | hardLinked
deriving DecidableEq

abbrev Path := List String

inductive Raised where
  | os (e : Errno)
  | unsupported
  | violation (path : Path) (reason : PrivatePathReason)
  | notFound (path : Path)
  | badName (name : String)
  | directoryClosed
  | lockHeld
  | lockNotHeld

abbrev Script (F α : Type) := Prog (Call F) Reply Raised α

variable {F α : Type}

/-- `_require_posix_support` and `os.geteuid`. -/
structure Platform where
  supported : Bool
  euid : Nat

def privateFileMode : Nat := 0o600

def privateDirectoryMode : Nat := 0o700

def orRaise : Except Errno α → Script F α
  | .ok a => .pure a
  | .error e => .fail (.os e)

/-- `except BaseException: os.close(fd); raise`. -/
def raiseClosing (site : CloseSite) (fd : F) (e : Raised) : Script F α :=
  .exec (.close site fd) fun
    | .ok _ => .fail e
    | .error e' => .fail (.os e')

/-! ## Checks -/

/-- Why the call was refused, if `lstat` tells; it always raises. -/
def reraiseOpenPolicy (exc : Errno) (path : Path) (expectedType : FileType)
    (place : Option (F × String)) : Script F α :=
  if exc = .loop then .fail (.violation path .symlinked)
  else .exec (.lstat place) fun
    | .error _ => .fail (.os exc)
    | .ok status =>
      if status.type = .symlink then .fail (.violation path .symlinked)
      else if status.type ≠ expectedType then .fail (.violation path .wrongType)
      else .fail (.os exc)

def validateOwnedDescriptor (euid : Nat) (fd : F) (path : Path) (expectedType : FileType) :
    Script F Stat := do
  let status ← orRaise (← .perform (.fstat fd))
  if status.type ≠ expectedType then .fail (.violation path .wrongType)
  else if status.uid ≠ euid then .fail (.violation path .notOwned)
  else if expectedType = .regular ∧ status.nlink ≠ 1 then .fail (.violation path .hardLinked)
  else return status

def validateComponentName (name : String) : Except Raised Unit :=
  if name ∈ ["", ".", ".."] ∨ name.toList.contains '/' then .error (.badName name) else .ok ()

/-! ## Directories -/

structure PrivateDirectory (F : Type) where
  path : Path
  fd : F
  closed : Bool

def reopenDirectory (parent : F) (name : String) (path : Path) (created : Bool) :
    Script F (F × Bool × Bool) :=
  .exec (.openDirectory parent name) fun
    | .ok fd => .pure (fd, created, true)
    | .error exc => reraiseOpenPolicy exc path .directory (some (parent, name))

/-- The descriptor, whether the directory was created, and whether it was missing. -/
def openOrCreateDirectory (parent : F) (name : String) (path : Path) (create : Bool) :
    Script F (F × Bool × Bool) :=
  .exec (.openDirectory parent name) fun
    | .ok fd => .pure (fd, false, false)
    | .error .noEntry =>
      if create = false then .fail (.os .noEntry)
      else .exec (.mkdir parent name privateDirectoryMode) fun
        | .ok _ => .exec (.chmod parent name privateDirectoryMode) fun
          | .ok _ => reopenDirectory parent name path true
          | .error e => .fail (.os e)
        | .error .exists => reopenDirectory parent name path false
        | .error e => .fail (.os e)
    | .error exc => reraiseOpenPolicy exc path .directory (some (parent, name))

/-- Check the owner and repair the mode. -/
def privatize (euid : Nat) (fd : F) (path : Path) : Script F Unit := do
  let status ← validateOwnedDescriptor euid fd path .directory
  if status.mode ≠ privateDirectoryMode then
    orRaise (← .perform (.fchmod fd privateDirectoryMode))
    orRaise (← .perform (.fsync fd))

/-- Child first, then parent. -/
def persist (created : Bool) (child parent : F) : Script F Unit := do
  if created then
    orRaise (← .perform (.fsync child))
    orRaise (← .perform (.fsync parent))

/-- The loop of `open_private_directory`; what is raised comes with `current_fd`. -/
def walk (euid : Nat) (create : Bool) :
    F → Path → Bool → List String → Prog (Call F) Reply (F × Raised) F
  | current, _, _, [] => .pure current
  | current, currentPath, privateChain, component :: rest =>
    (openOrCreateDirectory current component (currentPath ++ [component]) create).settle fun
      | .error e => .fail (current, e)
      | .ok (next, created, wasMissing) =>
        (do
          if privateChain || wasMissing || rest.isEmpty then
            privatize euid next (currentPath ++ [component])
          persist created next current : Script F Unit).settle fun
          | .error e => (raiseClosing .component next e : Script F F).settle fun
            | .ok fd => .pure fd
            | .error e' => .fail (current, e')
          | .ok _ => .exec (.close .handOver current) fun
            | .ok _ =>
              walk euid create next (currentPath ++ [component]) (privateChain || wasMissing) rest
            | .error e => .fail (current, .os e)

def openPrivateDirectory (P : Platform) (path : Path) (create : Bool) :
    Script F (PrivateDirectory F) :=
  if P.supported = false then .fail .unsupported
  else if path = [] then .fail (.violation [] .filesystemRoot)
  else .exec .openRoot fun
    | .error exc => reraiseOpenPolicy exc [] .directory none
    | .ok root => (walk P.euid create root [] false path).settle fun
      | .error (current, e) => raiseClosing .walk current e
      | .ok fd => .pure ⟨path, fd, false⟩

/-! ## Regular files -/

def finishPrivateRegularFd (euid : Nat) (fd : F) (path : Path) (truncate : Bool) : Script F F :=
  (do
    let status ← validateOwnedDescriptor euid fd path .regular
    if status.mode ≠ privateFileMode then
      orRaise (← .perform (.fchmod fd privateFileMode))
    if truncate then
      orRaise (← .perform (.ftruncate fd)) : Script F Unit).settle fun
    | .ok _ => .pure fd
    | .error e => raiseClosing .finishRegular fd e

/-- The `for` loop, with so many attempts left. -/
def openAttempts (directory : F) (name : String) (path : Path) (flags : OpenFlags) (mode : Nat) :
    Nat → Script F F
  | 0 => .fail (.notFound path)
  | attempts + 1 => .exec (.openRegular directory name flags.create mode) fun
    | .ok fd => .pure fd
    | .error .noEntry =>
      if attempts = 0 then .fail (.os .noEntry)
      else openAttempts directory name path flags mode attempts
    | .error exc => reraiseOpenPolicy exc path .regular (some (directory, name))

def openPrivateRegularAt (euid : Nat) (directory : F) (name : String) (path : Path)
    (flags : OpenFlags) (mode : Nat) : Script F F := do
  Prog.ofExcept (validateComponentName name)
  let fd ← openAttempts directory name path flags mode (if flags.create then 4 else 1)
  finishPrivateRegularFd euid fd path flags.truncate

/-! ## Handles -/

namespace PrivateDirectory

def close (d : PrivateDirectory F) : Script F Unit :=
  if d.closed then .pure () else .exec (.close .handle d.fd) orRaise

def activeFd (d : PrivateDirectory F) : Except Raised F :=
  if d.closed then .error .directoryClosed else .ok d.fd

def openRegular (P : Platform) (d : PrivateDirectory F) (name : String) (flags : OpenFlags)
    (mode : Nat) : Script F F := do
  let fd ← Prog.ofExcept d.activeFd
  openPrivateRegularAt P.euid fd name (d.path ++ [name]) flags mode

def openChild (P : Platform) (d : PrivateDirectory F) (name : String) (create : Bool) :
    Script F (PrivateDirectory F) := do
  Prog.ofExcept (validateComponentName name)
  let parentFd ← Prog.ofExcept d.activeFd
  let (childFd, created, _) ← openOrCreateDirectory parentFd name (d.path ++ [name]) create
  (do
    privatize P.euid childFd (d.path ++ [name])
    persist created childFd parentFd : Script F Unit).settle fun
    | .ok _ => .pure ⟨d.path ++ [name], childFd, false⟩
    | .error e => raiseClosing .openChild childFd e

def replace (d : PrivateDirectory F) (source destination : String) : Script F Unit := do
  Prog.ofExcept (validateComponentName source)
  Prog.ofExcept (validateComponentName destination)
  let fd ← Prog.ofExcept d.activeFd
  orRaise (← .perform (.replace fd source destination))

def unlink (d : PrivateDirectory F) (name : String) : Script F Unit := do
  Prog.ofExcept (validateComponentName name)
  let fd ← Prog.ofExcept d.activeFd
  orRaise (← .perform (.unlink fd name))

end PrivateDirectory

/-! ## Locks -/

/-- A lock on the file of this name in this directory. -/
structure FileLock (F : Type) where
  parent : Path
  name : String
  shared : Bool
  fd : Option F
  directory : Option (PrivateDirectory F)

namespace FileLock

def create (parent : Path) (name : String) (shared : Bool) : FileLock F :=
  ⟨parent, name, shared, none, none⟩

def mode (lock : FileLock F) : LockMode := if lock.shared then .shared else .exclusive

/-- The property `directory`. -/
def heldDirectory (lock : FileLock F) : Except Raised (PrivateDirectory F) :=
  match lock.directory with
  | none => .error .lockNotHeld
  | some directory => .ok directory

/-- `__enter__`. -/
def enter (P : Platform) (lock : FileLock F) : Script F (FileLock F) :=
  if lock.fd.isSome then .fail .lockHeld
  else do
    let directory ← openPrivateDirectory P lock.parent true
    (directory.openRegular P lock.name ⟨true, false⟩ privateFileMode).settle fun
      | .error e => directory.close >>= fun _ => .fail e
      | .ok fd => .exec (.flock fd lock.mode) fun
        | .ok _ => .pure { lock with fd := some fd, directory := some directory }
        | .error e => .exec (.close .lockEnter fd) fun
          | .ok _ => directory.close >>= fun _ => .fail (.os e)
          -- raised before `directory.close()`
          | .error e' => .fail (.os e')

/-- `__exit__`; the lock is released in its fields before anything can fail. -/
def exit (lock : FileLock F) : Script F (FileLock F) :=
  match lock.fd with
  | none => .pure lock
  | some fd => .exec (.unlock fd) fun unlocked => .exec (.close .lockExit fd) fun closed =>
    (match lock.directory with
      | some directory => directory.close
      | none => .pure () : Script F Unit).settle fun
      | .error e => .fail e
      | .ok _ => (do
        orRaise closed
        orRaise unlocked
        return { lock with fd := none, directory := none })

end FileLock

end DrStore.LocalFs.PrivateFiles
