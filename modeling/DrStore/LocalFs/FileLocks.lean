import DrStore.Base.Pool
import DrStore.LocalFs.Walk

/-! # File locks among parties (localfs/_fs.py, `FileLock`)

Any number of parties, each with descriptors of its own, take a lock on one path, unlink or
replace names in its directory while they hold it, and release it. A lock of the kernel is on an
inode: `flock` waits while a descriptor of the same inode has a lock that conflicts. Any call may
fail without an effect, and a party may die at any point. -/
namespace DrStore.LocalFs.FileLocks
open DrStore.Base.Programs DrStore.Base.Pool DrStore.LocalFs.PrivateFiles DrStore.LocalFs.Walk

variable {T F : Type}

/-! ## What the parties share -/

structure Shared (T F : Type) extends Files where
  handles : T → F → Option Inode
  locks : T → F → Option LockMode

def conflict : LockMode → LockMode → Bool
  | .shared, .shared => false
  | _, _ => true

variable [DecidableEq T] [DecidableEq F]

/-- One entry of the table of one party. -/
def setAt {α : Type} (table : T → F → Option α) (t : T) (fd : F) (a : Option α) :
    T → F → Option α :=
  Function.update table t (Function.update (table t) fd a)

namespace Shared

def pin (s : Shared T F) (t : T) (fd : F) (i : Inode) : Shared T F :=
  { s with handles := setAt s.handles t fd (some i) }

/-- A descriptor takes its lock with it. -/
def release (s : Shared T F) (t : T) (fd : F) : Shared T F :=
  { s with handles := setAt s.handles t fd none, locks := setAt s.locks t fd none }

def lock (s : Shared T F) (t : T) (fd : F) (mode : LockMode) : Shared T F :=
  { s with locks := setAt s.locks t fd (some mode) }

def unlock (s : Shared T F) (t : T) (fd : F) : Shared T F :=
  { s with locks := setAt s.locks t fd none }

omit [DecidableEq T] [DecidableEq F] in
/-- The name in the directory denotes `i`, or nothing. -/
def denote (s : Shared T F) (d : Inode) (name : String) (i : Option Inode) : Shared T F :=
  { s with entries := Function.update s.entries d (Function.update (s.entries d) name i) }

omit [DecidableEq T] [DecidableEq F] in
theorem denote_entries (s : Shared T F) (d : Inode) (name : String) (i : Option Inode) :
    (s.denote d name i).entries =
      Function.update s.entries d (Function.update (s.entries d) name i) := rfl

def die (s : Shared T F) (t : T) : Shared T F :=
  { s with
    handles := Function.update s.handles t fun _ => none
    locks := Function.update s.locks t fun _ => none }

end Shared

/-- What a call of a party does; without a step, the party waits. -/
def Does (t : T) (s : Shared T F) : (op : Call F) → Reply op → Shared T F → Prop
  | .openRoot, .ok fd, s' =>
    s.isDirectory root = true ∧ s.handles t fd = none ∧ s' = s.pin t fd root
  | .openDirectory parent name, .ok fd, s' => ∃ d i, s.handles t parent = some d ∧
      s.entries d name = some i ∧ s.isDirectory i = true ∧ s.handles t fd = none ∧
      s' = s.pin t fd i
  | .mkdir parent name _, .ok _, s' => ∃ d i n, s.handles t parent = some d ∧
      s.entries d name = none ∧ s.node i = none ∧ n.type = .directory ∧
      s' = { s with toFiles := s.toFiles.make ⟨d, name, i⟩ n }
  | .chmod parent name mode, .ok _, s' => ∃ d i, s.handles t parent = some d ∧
      s.entries d name = some i ∧ s' = { s with toFiles := s.toFiles.setMode i mode }
  | .fstat fd, .ok status, s' => s' = s ∧ ∃ i n, s.handles t fd = some i ∧ s.node i = some n ∧
      status.type = n.type ∧ status.uid = n.uid ∧ status.mode = n.mode
  | .fchmod fd mode, .ok _, s' => ∃ i, s.handles t fd = some i ∧
      s' = { s with toFiles := s.toFiles.setMode i mode }
  | .openRegular parent name create _, .ok fd, s' => ∃ d, s.handles t parent = some d ∧
      s.handles t fd = none ∧
      -- O_NOFOLLOW, and for writing
      ((∃ i n, s.entries d name = some i ∧ s.node i = some n ∧ n.type ≠ .symlink ∧
          n.type ≠ .directory ∧ s' = s.pin t fd i) ∨
        ∃ i n, create = true ∧ s.entries d name = none ∧ s.node i = none ∧ n.type = .regular ∧
          s' = ({ s with toFiles := s.toFiles.make ⟨d, name, i⟩ n } : Shared T F).pin t fd i)
  | .flock fd mode, .ok _, s' => ∃ i, s.handles t fd = some i ∧
      (∀ u fd' other, ¬ (u = t ∧ fd' = fd) → s.handles u fd' = some i →
        s.locks u fd' = some other → conflict mode other = false) ∧
      s' = s.lock t fd mode
  | .unlock fd, .ok _, s' => s' = s.unlock t fd
  | .replace directory source destination, .ok _, s' => ∃ d i, s.handles t directory = some d ∧
      s.entries d source = some i ∧
      -- a file replaces a file
      s.isDirectory i = false ∧ (∀ j, s.entries d destination = some j → s.isDirectory j = false) ∧
      -- two names of one file both stay
      s' = if s.entries d destination = some i then s
        else (s.denote d source none).denote d destination (some i)
  | .unlink directory name, .ok _, s' => ∃ d i, s.handles t directory = some d ∧
      s.entries d name = some i ∧ s.isDirectory i = false ∧ s' = s.denote d name none
  | .close _ fd, _, s' => s' = s.release t fd
  | _, _, s' => s' = s

def system : System T (Shared T F) (Call F) Reply := ⟨Does, fun t s s' => s' = s.die t⟩

/-! ## The parties -/

/-- What a holder does with names in the directory of the lock, whether or not it succeeds. -/
inductive Action where
  | unlink (name : String)
  | replace (source destination : String)

def Action.perform (directory : PrivateDirectory F) : Action → Script F Unit
  | .unlink name => directory.unlink name
  | .replace source destination => directory.replace source destination

def perform (directory : PrivateDirectory F) : List Action → Script F Unit
  | [] => .pure ()
  | action :: rest => (action.perform directory).settle fun _ => perform directory rest

/-- `with FileLock(path) as lock: …`. -/
def withLock (P : Platform) (lock : FileLock F) (actions : List Action) : Script F Unit := do
  let held ← lock.enter P
  (do
    let directory ← Prog.ofExcept held.heldDirectory
    perform directory actions : Script F Unit).settle fun out =>
      held.exit >>= fun _ => Prog.ofExcept out

/-- A party on the way between a granted `flock` and the release. -/
def Holds (s : Shared T F) (t : T) (mode : LockMode) : Prop := ∃ fd, s.locks t fd = some mode

/-- An exclusive holder, and another one. -/
def Overlap (s : Shared T F) : Prop :=
  ∃ t u mode, t ≠ u ∧ Holds s t .exclusive ∧ Holds s u mode

/-- The step leaves the name alone. -/
def Spares (name : String) (_ : T) (_ : Shared T F) : Call F → Prop
  | .unlink _ name' => name' ≠ name
  | .replace _ source destination => source ≠ name ∧ destination ≠ name
  | _ => True

/-! ## What a step keeps -/

section

variable {α : Type} {table : T → F → Option α} {t u : T} {fd fd' : F} {a : Option α} {b : α}

theorem setAt_self : setAt table t fd a t fd = a := by
  rw [setAt, Function.update_self, Function.update_self]

theorem setAt_of_ne (h : fd' ≠ fd) : setAt table t fd a t fd' = table t fd' := by
  rw [setAt, Function.update_self, Function.update_of_ne h]

/-- What is there after an entry is cleared was there before, elsewhere. -/
theorem setAt_none (h : setAt table t fd none t fd' = some b) :
    fd' ≠ fd ∧ table t fd' = some b := by
  by_cases hfd : fd' = fd
  · rw [hfd, setAt_self] at h
    cases h
  · rw [setAt_of_ne hfd] at h
    exact ⟨hfd, h⟩

theorem of_setAt_none (h : setAt table t fd none u fd' = some b) : table u fd' = some b := by
  by_cases hu : u = t
  · subst hu
    exact (setAt_none h).2
  · rwa [setAt, Function.update_of_ne hu] at h

theorem setAt_other (h : u ≠ t) : setAt table t fd a u = table u := by
  rw [setAt, Function.update_of_ne h]

end

/-- The others' tables, the directories and the name are left alone. -/
structure Guarantee (name : String) (t : T) (s s' : Shared T F) : Prop where
  others : ∀ u, u ≠ t → s'.handles u = s.handles u ∧ s'.locks u = s.locks u
  grows : Grows s.toFiles s'.toFiles
  named : ∀ d i, s.entries d name = some i → s'.entries d name = some i

/-- Locks on one inode are compatible, and a lock is on the file that the path denotes. -/
structure Inv (parent : Path) (name : String) (s : Shared T F) : Prop where
  compatible : ∀ t fd u fd' i mode other, ¬ (u = t ∧ fd' = fd) → s.handles t fd = some i →
    s.handles u fd' = some i → s.locks t fd = some mode → s.locks u fd' = some other →
    conflict mode other = false
  onPath : ∀ t fd mode, s.locks t fd = some mode → ∃ d i, s.resolve parent = some d ∧
    s.entries d name = some i ∧ s.handles t fd = some i

/-- A step that takes no lock; a descriptor is kept unless it is closed. -/
structure Moves (name : String) (t : T) (op : Call F) (s s' : Shared T F) : Prop where
  guarantee : Guarantee name t s s'
  locks : ∀ fd mode, s'.locks t fd = some mode → s.locks t fd = some mode ∧
    s'.handles t fd = s.handles t fd
  handles : ∀ fd i, s.handles t fd = some i → (∀ site, op ≠ .close site fd) →
    s'.handles t fd = some i

section

variable {parent : Path} {name : String} {t : T} {op : Call F} {s s' : Shared T F}

omit [DecidableEq F] [DecidableEq T] in
/-- With no new lock, and every lock where it was. -/
theorem Inv.shrinks (hinv : Inv parent name s) (hguar : Guarantee name t s s')
    (hlocks : ∀ u fd mode, s'.locks u fd = some mode → s.locks u fd = some mode ∧
      s'.handles u fd = s.handles u fd) : Inv parent name s' := by
  refine ⟨?_, ?_⟩
  · intro u fd v fd' i mode other hne hi hi' hmode hother
    obtain ⟨hmode, hhandle⟩ := hlocks u fd mode hmode
    obtain ⟨hother, hhandle'⟩ := hlocks v fd' other hother
    exact hinv.compatible u fd v fd' i mode other hne (hhandle ▸ hi) (hhandle' ▸ hi') hmode hother
  · intro u fd mode hmode
    obtain ⟨hmode, hhandle⟩ := hlocks u fd mode hmode
    obtain ⟨d, i, hd, hi, hfd⟩ := hinv.onPath u fd mode hmode
    exact ⟨d, i, hguar.grows.resolve hd, hguar.named d i hi, hhandle ▸ hfd⟩

omit [DecidableEq F] [DecidableEq T] in
theorem Moves.keeps (h : Moves name t op s s') (hinv : Inv parent name s) : Inv parent name s' := by
  refine hinv.shrinks h.guarantee fun u fd mode hlock => ?_
  by_cases hu : u = t
  · subst hu
    exact h.locks fd mode hlock
  · obtain ⟨hhandles, hsame⟩ := h.guarantee.others u hu
    rw [hsame] at hlock
    exact ⟨hlock, congrFun hhandles fd⟩

omit [DecidableEq F] [DecidableEq T] in
/-- Only the files are changed. -/
theorem moves_files {files : Files} (hgrows : Grows s.toFiles files)
    (hnamed : ∀ d i, s.entries d name = some i → files.entries d name = some i) :
    Moves name t op s { s with toFiles := files } :=
  ⟨⟨fun _ _ => ⟨rfl, rfl⟩, hgrows, hnamed⟩, fun _ _ h => ⟨h, rfl⟩, fun _ _ h _ => h⟩

omit [DecidableEq F] [DecidableEq T] in
theorem grows_self (files : Files) : Grows files files := ⟨fun _ _ _ _ h => h, fun _ h => h⟩

/-- A descriptor that was free is opened. -/
theorem moves_pin (hinv : Inv parent name s) {files : Files} {fd : F} {i : Inode}
    (hfree : s.handles t fd = none) (hgrows : Grows s.toFiles files)
    (hnamed : ∀ d i, s.entries d name = some i → files.entries d name = some i) :
    Moves name t op s (({ s with toFiles := files } : Shared T F).pin t fd i) := by
  have hother : ∀ fd' j, s.handles t fd' = some j →
      setAt s.handles t fd (some i) t fd' = some j := by
    intro fd' j hj
    rw [setAt_of_ne, hj]
    intro heq
    rw [heq, hfree] at hj
    cases hj
  refine ⟨⟨fun u hu => ⟨setAt_other hu, rfl⟩, hgrows, hnamed⟩, ?_, fun fd' j hj _ => hother fd' j hj⟩
  intro fd' mode hmode
  obtain ⟨_, j, _, _, hj⟩ := hinv.onPath t fd' mode hmode
  exact ⟨hmode, (hother fd' j hj).trans hj.symm⟩

theorem moves_unlock (fd : F) : Moves name t op s (s.unlock t fd) := by
  refine ⟨⟨fun u hu => ⟨rfl, setAt_other hu⟩, grows_self _, fun _ _ h => h⟩, ?_, fun _ _ h _ => h⟩
  intro fd' mode hmode
  exact ⟨(setAt_none hmode).2, rfl⟩

theorem moves_release {site : CloseSite} (fd : F) :
    Moves name t (.close site fd) s (s.release t fd) := by
  refine ⟨⟨fun u hu => ⟨setAt_other hu, setAt_other hu⟩, grows_self _, fun _ _ h => h⟩, ?_, ?_⟩
  · intro fd' mode hmode
    obtain ⟨hfd, hmode⟩ := setAt_none hmode
    exact ⟨hmode, setAt_of_ne hfd⟩
  · intro fd' i hi hop
    have hfd : fd' ≠ fd := fun heq => hop site (heq ▸ rfl)
    exact (setAt_of_ne hfd).trans hi

omit [DecidableEq F] [DecidableEq T] in
/-- Another name for files only. -/
theorem moves_denote {d : Inode} {name' : String} {i : Option Inode} (hname : name' ≠ name)
    (hfile : ∀ j, s.entries d name' = some j → s.isDirectory j = false) :
    Grows s.toFiles (s.denote d name' i).toFiles ∧
      ∀ d' j, s.entries d' name = some j → (s.denote d name' i).entries d' name = some j := by
  have hentries : ∀ d' name'' j, ¬ (d' = d ∧ name'' = name') → s.entries d' name'' = some j →
      (s.denote d name' i).entries d' name'' = some j := by
    intro d' name'' j hne hj
    rw [Shared.denote_entries]
    by_cases hd : d' = d
    · subst hd
      have hname'' : name'' ≠ name' := fun heq => hne ⟨rfl, heq⟩
      rw [Function.update_self, Function.update_of_ne hname'', hj]
    · rw [Function.update_of_ne hd, hj]
  refine ⟨⟨fun d' name'' j hj hentry => hentries d' name'' j ?_ hentry, fun _ h => h⟩, ?_⟩
  · intro heq
    obtain ⟨rfl, rfl⟩ := heq
    rw [hfile j hentry] at hj
    cases hj
  · exact fun d' j hj => hentries d' name j (fun heq => hname heq.2.symm) hj

/-- Not a call that takes a lock. -/
def noFlock : Call F → Prop
  | .flock _ _ => False
  | _ => True

theorem Does.moves {r : Reply op} (h : Does t s op r s') (hinv : Inv parent name s)
    (hspares : Spares name t s op) (hop : noFlock op) : Moves name t op s s' := by
  have hsame : s' = s → Moves name t op s s' := by
    intro heq
    subst heq
    exact moves_files (grows_self _) fun _ _ h => h
  cases op with
  | flock fd mode => exact hop.elim
  | lstat place => exact hsame h
  | fsync fd => exact hsame h
  | ftruncate fd => exact hsame h
  | close site fd =>
    obtain rfl : s' = s.release t fd := h
    exact moves_release fd
  | openRoot =>
    cases r with
    | error e => exact hsame h
    | ok fd =>
      obtain ⟨_, hfree, rfl⟩ := h
      exact moves_pin hinv hfree (grows_self _) fun _ _ h => h
  | openDirectory parent' name' =>
    cases r with
    | error e => exact hsame h
    | ok fd =>
      obtain ⟨d, i, _, _, _, hfree, rfl⟩ := h
      exact moves_pin hinv hfree (grows_self _) fun _ _ h => h
  | mkdir parent' name' mode =>
    cases r with
    | error e => exact hsame h
    | ok _ =>
      obtain ⟨d, i, n, _, hentry, hnode, _, rfl⟩ := h
      exact moves_files (grows_make hentry hnode) fun _ _ h => make_keeps hentry h
  | chmod parent' name' mode =>
    cases r with
    | error e => exact hsame h
    | ok _ =>
      obtain ⟨d, i, _, _, rfl⟩ := h
      exact moves_files (grows_setMode i mode) fun _ _ h => h
  | fstat fd =>
    cases r with
    | error e => exact hsame h
    | ok status => exact hsame h.1
  | fchmod fd mode =>
    cases r with
    | error e => exact hsame h
    | ok _ =>
      obtain ⟨i, _, rfl⟩ := h
      exact moves_files (grows_setMode i mode) fun _ _ h => h
  | openRegular parent' name' create mode =>
    cases r with
    | error e => exact hsame h
    | ok fd =>
      obtain ⟨d, _, hfree, ⟨i, n, _, _, _, _, rfl⟩ | ⟨i, n, _, hentry, hnode, _, rfl⟩⟩ := h
      · exact moves_pin hinv hfree (grows_self _) fun _ _ h => h
      · exact moves_pin hinv hfree (grows_make hentry hnode) fun _ _ h => make_keeps hentry h
  | unlock fd =>
    cases r with
    | error e => exact hsame h
    | ok _ =>
      obtain rfl : s' = s.unlock t fd := h
      exact moves_unlock fd
  | replace directory source destination =>
    cases r with
    | error e => exact hsame h
    | ok _ =>
      obtain ⟨d, i, _, hsource, hfile, hdestination, heq⟩ := h
      split at heq
      · exact hsame heq
      · subst heq
        obtain ⟨hsource', hdestination'⟩ := hspares
        have hgone := moves_denote (d := d) (i := none) hsource' fun j hj => by
          rw [hsource] at hj
          cases hj
          exact hfile
        have hthere := moves_denote (s := s.denote d source none) (d := d) (i := some i)
          hdestination' fun j hj => by
            rw [Shared.denote_entries, Function.update_self] at hj
            by_cases hname : destination = source
            · rw [hname, Function.update_self] at hj
              cases hj
            · rw [Function.update_of_ne hname] at hj
              exact hdestination j hj
        refine moves_files ⟨fun d' n j hj hentry => ?_, fun j hj => ?_⟩ fun d' j hj => ?_
        · exact hthere.1.entries d' n j (hgone.1.directories j hj)
            (hgone.1.entries d' n j hj hentry)
        · exact hthere.1.directories j (hgone.1.directories j hj)
        · exact hthere.2 d' j (hgone.2 d' j hj)
  | unlink directory name' =>
    cases r with
    | error e => exact hsame h
    | ok _ =>
      obtain ⟨d, i, _, hentry, hfile, rfl⟩ := h
      have hgone := moves_denote (d := d) (i := none) hspares fun j hj => by
        rw [hentry] at hj
        cases hj
        exact hfile
      exact moves_files hgone.1 hgone.2

/-- A lock that conflicts with none on the file that the path denotes. -/
theorem flock_keeps {fd : F} {mode : LockMode} {r : Reply (.flock fd mode : Call F)}
    (h : Does t s (.flock fd mode) r s') (hinv : Inv parent name s)
    (hfile : ∃ d i, s.resolve parent = some d ∧ s.entries d name = some i ∧
      s.handles t fd = some i) : Inv parent name s' ∧ Guarantee name t s s' := by
  cases r with
  | error e =>
    obtain rfl : s' = s := h
    exact ⟨hinv, fun _ _ => ⟨rfl, rfl⟩, grows_self _, fun _ _ h => h⟩
  | ok _ =>
    obtain ⟨i, hi, hwaits, rfl⟩ := h
    have hconflict : ∀ a b, conflict a b = conflict b a := fun a b => by cases a <;> cases b <;> rfl
    have hlock : ∀ u fd' m, (s.lock t fd mode).locks u fd' = some m → (u = t ∧ fd' = fd) ∧ m = mode ∨
        ¬ (u = t ∧ fd' = fd) ∧ s.locks u fd' = some m := by
      intro u fd' m hm
      have hm : setAt s.locks t fd (some mode) u fd' = some m := hm
      by_cases hu : u = t
      · subst hu
        by_cases hfd : fd' = fd
        · subst hfd
          rw [setAt_self] at hm
          exact .inl ⟨⟨rfl, rfl⟩, (Option.some.inj hm).symm⟩
        · rw [setAt_of_ne hfd] at hm
          exact .inr ⟨fun heq => hfd heq.2, hm⟩
      · rw [setAt_other hu] at hm
        exact .inr ⟨fun heq => hu heq.1, hm⟩
    refine ⟨⟨?_, ?_⟩, fun u hu => ⟨rfl, setAt_other hu⟩, grows_self _, fun _ _ h => h⟩
    · intro u fd₁ v fd₂ j m other hne hj hj' hm hother
      rcases hlock u fd₁ m hm with ⟨⟨rfl, rfl⟩, rfl⟩ | ⟨hmine, hold⟩
      · rcases hlock v fd₂ other hother with ⟨heq, _⟩ | ⟨hmine', hother⟩
        · exact absurd heq hne
        · have hj : s.handles u fd₁ = some j := hj
          rw [hi] at hj
          cases hj
          exact hwaits v fd₂ other hmine' hj' hother
      · rcases hlock v fd₂ other hother with ⟨⟨rfl, rfl⟩, rfl⟩ | ⟨_, hother⟩
        · have hj' : s.handles v fd₂ = some j := hj'
          rw [hi] at hj'
          cases hj'
          rw [hconflict]
          exact hwaits u fd₁ m hmine hj hold
        · exact hinv.compatible u fd₁ v fd₂ j m other hne hj hj' hold hother
    · intro u fd' m hm
      rcases hlock u fd' m hm with ⟨⟨rfl, rfl⟩, _⟩ | ⟨_, hm⟩
      · exact hfile
      · exact hinv.onPath u fd' m hm

omit [DecidableEq F] in
/-- A party that dies leaves nothing open. -/
theorem die_keeps (hinv : Inv parent name s) :
    Inv parent name (s.die t) ∧ Guarantee name t s (s.die t) := by
  have hguar : Guarantee name t s (s.die t) :=
    ⟨fun u hu => ⟨Function.update_of_ne hu _ _, Function.update_of_ne hu _ _⟩, grows_self _,
      fun _ _ h => h⟩
  refine ⟨hinv.shrinks hguar fun u fd mode hmode => ?_, hguar⟩
  have hmode : Function.update s.locks t (fun _ => none) u fd = some mode := hmode
  by_cases hu : u = t
  · subst hu
    rw [Function.update_self] at hmode
    cases hmode
  · rw [Function.update_of_ne hu] at hmode
    exact ⟨hmode, congrFun (Function.update_of_ne hu _ _) fd⟩

end

/-! ## Scripts that take no lock -/

section

variable {α : Type}

/-- Nor one that closes anything. -/
def holding : Call F → Prop
  | .flock _ _ | .close _ _ => False
  | _ => True

abbrev Within (ok : Call F → Prop) (p : Script F α) (Q : Except Raised α → Prop) : Prop :=
  p.follows ok (fun _ _ => True) Q

omit [DecidableEq F]

theorem noFlock_of_holding (op : Call F) (h : holding op) : noFlock op := by
  cases op with
  | flock fd mode => exact h
  | _ => trivial

theorem Within.noFlock {p : Script F α} {Q : Except Raised α → Prop} (h : Within holding p Q) :
    Within noFlock p Q :=
  Prog.follows_mono noFlock_of_holding (fun _ h => h) h

theorem Within.bind {β : Type} {ok : Call F → Prop} {p : Script F α} {f : α → Script F β}
    (hp : Within ok p fun _ => True) (hf : ∀ a, Within ok (f a) fun _ => True) :
    Within ok (p >>= f) fun _ => True :=
  Prog.follows_bind _ hp (fun a _ => hf a) fun _ h => h

theorem orRaise_within {ok : Call F → Prop} (r : Except Errno α) :
    Within ok (orRaise r : Script F α) fun _ => True := by
  cases r with
  | ok a => trivial
  | error e => trivial

theorem reraise_within {exc : Errno} {path : Path} {type : FileType}
    {place : Option (F × String)} : Within holding
      (reraiseOpenPolicy exc path type place : Script F α) fun out => ∃ e, out = .error e := by
  unfold reraiseOpenPolicy
  split
  · exact ⟨_, rfl⟩
  · refine ⟨trivial, fun r _ => ?_⟩
    cases r with
    | error e => exact ⟨_, rfl⟩
    | ok status =>
      dsimp only
      split
      · exact ⟨_, rfl⟩
      split
      · exact ⟨_, rfl⟩
      · exact ⟨_, rfl⟩

theorem validate_within {euid : Nat} {fd : F} {path : Path} {type : FileType} :
    Within holding (validateOwnedDescriptor euid fd path type) fun _ => True := by
  refine ⟨trivial, fun r _ => ?_⟩
  cases r with
  | error e => trivial
  | ok status =>
    show Prog.follows holding _ (ite _ _ _) _
    split
    · trivial
    split
    · trivial
    split
    · trivial
    · trivial

theorem privatize_within {euid : Nat} {fd : F} {path : Path} :
    Within holding (privatize euid fd path) fun _ => True := by
  refine Within.bind validate_within fun status => ?_
  split
  · refine ⟨trivial, fun r _ => ?_⟩
    exact Within.bind (orRaise_within r) fun _ => ⟨trivial, fun r _ => orRaise_within r⟩
  · trivial

theorem persist_within {created : Bool} {child parent : F} :
    Within holding (persist created child parent) fun _ => True := by
  unfold persist
  split
  · refine ⟨trivial, fun r _ => ?_⟩
    exact Within.bind (orRaise_within r) fun _ => ⟨trivial, fun r _ => orRaise_within r⟩
  · trivial

theorem raiseClosing_within {site : CloseSite} {fd : F} {e : Raised} :
    Within noFlock (raiseClosing site fd e : Script F α) fun out => ∃ e, out = .error e := by
  refine ⟨trivial, fun r _ => ?_⟩
  cases r with
  | ok _ => exact ⟨_, rfl⟩
  | error e' => exact ⟨_, rfl⟩

theorem close_within (directory : PrivateDirectory F) :
    Within noFlock directory.close fun _ => True := by
  unfold PrivateDirectory.close
  split
  · trivial
  · exact ⟨trivial, fun r _ => orRaise_within r⟩

theorem ofExcept_within {ok : Call F → Prop} (r : Except Raised α) :
    Within ok (Prog.ofExcept r : Script F α) fun _ => True := by
  cases r with
  | ok a => trivial
  | error e => trivial

theorem action_within (directory : PrivateDirectory F) (action : Action) :
    Within noFlock (action.perform directory) fun _ => True := by
  cases action with
  | unlink name =>
    refine Within.bind (ofExcept_within _) fun _ => ?_
    refine Within.bind (ofExcept_within _) fun fd => ?_
    exact ⟨trivial, fun r _ => orRaise_within r⟩
  | replace source destination =>
    refine Within.bind (ofExcept_within _) fun _ => ?_
    refine Within.bind (ofExcept_within _) fun _ => ?_
    refine Within.bind (ofExcept_within _) fun fd => ?_
    exact ⟨trivial, fun r _ => orRaise_within r⟩

theorem perform_within (directory : PrivateDirectory F) (actions : List Action) :
    Within noFlock (perform directory actions) fun _ => True := by
  induction actions with
  | nil => trivial
  | cons action rest ih =>
    exact Prog.follows_settle (fun _ => True) (action_within directory action) fun _ _ => ih

theorem exit_within (lock : FileLock F) : Within noFlock lock.exit fun _ => True := by
  unfold FileLock.exit
  split
  · trivial
  · refine ⟨trivial, fun unlocked _ => ⟨trivial, fun closed _ => ?_⟩⟩
    refine Prog.follows_settle (fun _ => True) ?_ fun out _ => ?_
    · split
      · exact close_within _
      · trivial
    · cases out with
      | error e => trivial
      | ok _ =>
        exact Within.bind (orRaise_within _) fun _ => Within.bind (orRaise_within _) fun _ => trivial

end

/-! ## What a party knows of its descriptors -/

/-- The descriptor is of the directory at the path. -/
def At (q : Path) (t : T) (fd : F) (s : Shared T F) : Prop :=
  ∃ d, s.handles t fd = some d ∧ s.resolve q = some d

/-- The descriptor is of the file that the path denotes. -/
def OnFile (parent : Path) (name : String) (t : T) (fd : F) (s : Shared T F) : Prop :=
  ∃ d i, s.resolve parent = some d ∧ s.entries d name = some i ∧ s.handles t fd = some i

abbrev rules (parent : Path) (name : String) : Rules T (Shared T F) :=
  ⟨Inv parent name, Guarantee name⟩

abbrev sparing (name : String) : System T (Shared T F) (Call F) Reply :=
  system.restrict (Spares name)

section

variable {parent : Path} {name : String} {t : T} {s s' : Shared T F} {q : Path} {fd : F}

omit [DecidableEq T] [DecidableEq F]

theorem at_stable : Stable (rules parent name) t (At q t fd) := by
  intro s s' hothers h
  obtain ⟨_, _, u, hu, hguar⟩ := hothers
  obtain ⟨d, hd, hq⟩ := h
  exact ⟨d, (congrFun (hguar.others t hu.symm).1 fd).trans hd, hguar.grows.resolve hq⟩

theorem onFile_stable : Stable (rules parent name) t (OnFile parent name t fd) := by
  intro s s' hothers h
  obtain ⟨_, _, u, hu, hguar⟩ := hothers
  obtain ⟨d, i, hd, hi, hfd⟩ := h
  exact ⟨d, i, hguar.grows.resolve hd, hguar.named d i hi,
    (congrFun (hguar.others t hu.symm).1 fd).trans hfd⟩

theorem true_stable : Stable (rules parent name) t fun _ : Shared T F => True :=
  fun _ _ _ _ => trivial

theorem At.moves {op : Call F} (h : At q t fd s) (hm : Moves name t op s s')
    (hop : ∀ site, op ≠ .close site fd) : At q t fd s' := by
  obtain ⟨d, hd, hq⟩ := h
  exact ⟨d, hm.handles fd d hd hop, hm.guarantee.grows.resolve hq⟩

theorem OnFile.moves {op : Call F} (h : OnFile parent name t fd s) (hm : Moves name t op s s')
    (hop : ∀ site, op ≠ .close site fd) : OnFile parent name t fd s' := by
  obtain ⟨d, i, hd, hi, hfd⟩ := h
  exact ⟨d, i, hm.guarantee.grows.resolve hd, hm.guarantee.named d i hi, hm.handles fd i hfd hop⟩

end

section

variable {parent : Path} {name : String} {t : T} {s s' : Shared T F} {q : Path} {fd : F}
variable {ε α : Type}

/-- One call that takes no lock. -/
theorem wp_call {A : Shared T F → Prop} {op : Call F} {k : Reply op → Prog (Call F) Reply ε α}
    {Q : Except ε α → Shared T F → Prop} (hA : Stable (rules parent name) t A) (hs : A s)
    (hop : noFlock op) (h : ∀ s r s', A s → Does t s op r s' → Moves name t op s s' →
      Inv parent name s' → wp (sparing name) (rules parent name) t (k r) Q s') :
    wp (sparing name) (rules parent name) t (.exec op k) Q s := by
  refine wp_exec hA hs ?_
  intro s r s' hinv ha hstep
  obtain ⟨hdoes, hspares⟩ := hstep
  have hmoves := hdoes.moves hinv hspares hop
  exact ⟨hmoves.keeps hinv, hmoves.guarantee, h s r s' ha hdoes hmoves (hmoves.keeps hinv)⟩

theorem wp_noFlock {p : Script F α} {Q : Except Raised α → Prop} (hp : Within noFlock p Q) :
    wp (sparing name) (rules parent name) t p (fun out _ => Q out) s := by
  refine wp_mono (fun _ _ _ h => h.1) (wp_follows true_stable ?_ hp trivial)
  intro s op r s' hop hinv _ hstep
  have hmoves := hstep.1.moves hinv hstep.2 hop
  exact ⟨hmoves.keeps hinv, hmoves.guarantee, trivial⟩

/-- Nothing is closed, and what is known stays known. -/
theorem wp_holding {B : Shared T F → Prop} (hB : Stable (rules parent name) t B)
    (hmoves : ∀ op s s', (∀ site fd, op ≠ .close site fd) → Moves name t op s s' → B s → B s')
    {p : Script F α} {Q : Except Raised α → Prop} (hp : Within holding p Q) (hs : B s) :
    wp (sparing name) (rules parent name) t p (fun out s' => Q out ∧ B s') s := by
  refine wp_follows hB ?_ hp hs
  intro s op r s' hop hinv hb hstep
  have hmoved := hstep.1.moves hinv hstep.2 (noFlock_of_holding op hop)
  refine ⟨hmoved.keeps hinv, hmoved.guarantee, hmoves op s s' ?_ hmoved hb⟩
  intro site fd heq
  subst heq
  exact hop

theorem wp_raised {p : Script F α} {Q : Except Raised α → Shared T F → Prop}
    (hp : Within noFlock p fun out => ∃ e, out = .error e) (hQ : ∀ e s', Q (.error e) s') :
    wp (sparing name) (rules parent name) t p Q s := by
  refine wp_mono ?_ (wp_noFlock hp)
  intro out s' _ hout
  obtain ⟨e, rfl⟩ := hout
  exact hQ e s'

/-! ## The scripts -/

/-- A directory that is opened below one that is. -/
theorem opened_below {component : String} {current next : F} (hcurrent : At q t current s)
    (h : Does t s (.openDirectory current component) (.ok next) s') :
    At (q ++ [component]) t next s' ∧ next ≠ current := by
  obtain ⟨d, hd, hq⟩ := hcurrent
  obtain ⟨d', i, hd', hentry, hi, hfree, rfl⟩ := h
  rw [hd] at hd'
  cases hd'
  refine ⟨⟨i, setAt_self, ?_⟩, ?_⟩
  · exact resolve_concat.mpr ⟨d, hq, hentry, hi⟩
  · intro heq
    rw [heq, hd] at hfree
    cases hfree

/-- What `_open_or_create_directory` finds. -/
def FoundBelow (q : Path) (component : String) (t : T) (current : F) (found : F × Bool × Bool)
    (s : Shared T F) : Prop :=
  At (q ++ [component]) t found.1 s ∧ found.1 ≠ current

theorem reopenDirectory_wp {component : String} {current : F} {path : Path} {created : Bool}
    (hcurrent : At q t current s) :
    wp (sparing name) (rules parent name) t (reopenDirectory current component path created)
      (fun out s' => ∀ found, out = .ok found → FoundBelow q component t current found s') s := by
  refine wp_call at_stable hcurrent trivial ?_
  intro s r s' hat hdoes hmoves hinv
  cases r with
  | error exc => exact wp_raised reraise_within.noFlock fun _ _ _ h => by cases h
  | ok fd =>
    obtain ⟨hbelow, hne⟩ := opened_below hat hdoes
    refine wp_pure at_stable hbelow fun s _ hat found h => ?_
    cases h
    exact ⟨hat, hne⟩

theorem openOrCreateDirectory_wp {component : String} {current : F} {path : Path} {create : Bool}
    (hcurrent : At q t current s) :
    wp (sparing name) (rules parent name) t (openOrCreateDirectory current component path create)
      (fun out s' => ∀ found, out = .ok found → FoundBelow q component t current found s') s := by
  have hfailed : ∀ (e : Raised) (s : Shared T F), wp (sparing name) (rules parent name) t
      (.fail e : Script F (F × Bool × Bool))
      (fun out s' => ∀ found, out = .ok found → FoundBelow q component t current found s') s :=
    fun e s => wp_fail true_stable trivial fun _ _ _ _ h => by cases h
  refine wp_call at_stable hcurrent trivial ?_
  intro s r s' hat hdoes hmoves hinv
  match r with
  | .ok fd =>
    obtain ⟨hbelow, hne⟩ := opened_below hat hdoes
    refine wp_pure at_stable hbelow fun s _ hat found h => ?_
    cases h
    exact ⟨hat, hne⟩
  | .error .noEntry =>
    have hat := hat.moves hmoves fun _ h => by cases h
    show wp _ _ t (ite _ _ _) _ s'
    split
    · exact hfailed _ _
    refine wp_call at_stable hat trivial ?_
    intro s r s' hat hdoes hmoves hinv
    have hat := hat.moves hmoves fun _ h => by cases h
    match r with
    | .ok _ =>
      refine wp_call at_stable hat trivial ?_
      intro s r s' hat hdoes hmoves hinv
      have hat := hat.moves hmoves fun _ h => by cases h
      cases r with
      | ok _ => exact reopenDirectory_wp hat
      | error e => exact hfailed _ _
    | .error .exists => exact reopenDirectory_wp hat
    | .error .noEntry => exact hfailed _ _
    | .error .loop => exact hfailed _ _
    | .error .other => exact hfailed _ _
  | .error .exists => exact wp_raised reraise_within.noFlock fun _ _ _ h => by cases h
  | .error .loop => exact wp_raised reraise_within.noFlock fun _ _ _ h => by cases h
  | .error .other => exact wp_raised reraise_within.noFlock fun _ _ _ h => by cases h

/-- However the others interleave, the walk ends at the directory that the path denotes. -/
theorem walk_wp {euid : Nat} {create : Bool} (rest : List String) {current : F} {path : Path}
    {privateChain : Bool} (hinv : Inv parent name s) (hcurrent : At q t current s) :
    wp (sparing name) (rules parent name) t (walk euid create current path privateChain rest)
      (fun out s' => ∀ fd, out = .ok fd → At (q ++ rest) t fd s') s := by
  induction rest generalizing q current path privateChain s with
  | nil =>
    refine wp_pure at_stable hcurrent fun s _ hat fd h => ?_
    cases h
    rw [List.append_nil]
    exact hat
  | cons component rest ih =>
    rw [walk]
    refine wp_settle hinv (wp_mono ?_ (openOrCreateDirectory_wp hcurrent))
    intro out s₁ hinv₁ hfound
    cases out with
    | error e => exact wp_fail true_stable trivial fun _ _ _ _ h => by cases h
    | ok found =>
      obtain ⟨next, created, wasMissing⟩ := found
      obtain ⟨hnext, hne⟩ := hfound _ rfl
      have hprivate : Within holding (do
          if privateChain || wasMissing || rest.isEmpty then
            privatize euid next (path ++ [component])
          persist created next current : Script F Unit) fun _ => True := by
        split
        · exact Within.bind privatize_within fun _ => persist_within
        · exact persist_within
      refine wp_settle hinv₁ (wp_mono ?_ (wp_holding at_stable ?_ hprivate hnext))
      · intro out s₂ hinv₂ hat
        cases out with
        | error e =>
          refine wp_call true_stable trivial trivial ?_
          intro s r s' _ _ _ _
          cases r with
          | ok _ => exact wp_fail true_stable trivial fun _ _ _ _ h => by cases h
          | error e' => exact wp_fail true_stable trivial fun _ _ _ _ h => by cases h
        | ok _ =>
          refine wp_call at_stable hat.2 trivial ?_
          intro s r s' hat _ hmoves hinv
          cases r with
          | error e => exact wp_fail true_stable trivial fun _ _ _ _ h => by cases h
          | ok _ =>
            have hat := hat.moves hmoves fun _ h => hne (by cases h; rfl)
            refine wp_mono ?_ (ih hinv hat)
            intro out s _ h fd hfd
            simpa using h fd hfd
      · exact fun op s s' hop hmoves hat => hat.moves hmoves fun site => hop site next

theorem openPrivateDirectory_wp {P : Platform} {path : Path} {create : Bool} :
    wp (sparing name) (rules parent name) t (openPrivateDirectory P path create)
      (fun out s' => ∀ d, out = .ok d → d.closed = false ∧ At path t d.fd s') s := by
  unfold openPrivateDirectory
  split
  · exact wp_fail true_stable trivial fun _ _ _ _ h => by cases h
  split
  · exact wp_fail true_stable trivial fun _ _ _ _ h => by cases h
  refine wp_call true_stable trivial trivial ?_
  intro s r s' _ hdoes _ hinv
  cases r with
  | error exc => exact wp_raised reraise_within.noFlock fun _ _ _ h => by cases h
  | ok fd =>
    obtain ⟨hroot, _, rfl⟩ := hdoes
    have hat : At [] t fd (s.pin t fd root) := ⟨root, setAt_self, if_pos hroot⟩
    refine wp_settle hinv (wp_mono ?_ (walk_wp path hinv hat))
    intro out s hinv hend
    cases out with
    | error e => exact wp_raised raiseClosing_within fun _ _ _ h => by cases h
    | ok leaf =>
      refine wp_pure at_stable (hend leaf rfl) fun s _ hat d h => ?_
      cases h
      exact ⟨rfl, hat⟩

theorem openAttempts_wp {directory : F} {path : Path} {flags : OpenFlags} {mode : Nat}
    (attempts : Nat) (hdirectory : At parent t directory s) :
    wp (sparing name) (rules parent name) t (openAttempts directory name path flags mode attempts)
      (fun out s' => ∀ fd, out = .ok fd → OnFile parent name t fd s') s := by
  induction attempts generalizing s with
  | zero => exact wp_fail true_stable trivial fun _ _ _ _ h => by cases h
  | succ attempts ih =>
    refine wp_call at_stable hdirectory trivial ?_
    intro s r s' hat hdoes hmoves hinv
    match r with
    | .ok fd =>
      obtain ⟨d, hd, hparent⟩ := hat
      have hopened : OnFile parent name t fd s' := by
        obtain ⟨d', hd', hfree, ⟨i, n, hentry, _, _, _, rfl⟩ | ⟨i, n, _, hentry, hnode, _, rfl⟩⟩ :=
          hdoes
        · rw [hd] at hd'
          cases hd'
          exact ⟨d, i, hparent, hentry, setAt_self⟩
        · rw [hd] at hd'
          cases hd'
          have hgrows : Grows s.toFiles (s.toFiles.make ⟨d, name, i⟩ n) := grows_make hentry hnode
          refine ⟨d, i, hgrows.resolve hparent, ?_, setAt_self⟩
          show (s.toFiles.make ⟨d, name, i⟩ n).entries d name = some i
          rw [Files.make_entries, Function.update_self, Function.update_self]
      refine wp_pure onFile_stable hopened fun s _ hfile fd' h => ?_
      cases h
      exact hfile
    | .error .noEntry =>
      show wp _ _ t (ite _ _ _) _ s'
      split
      · exact wp_fail true_stable trivial fun _ _ _ _ h => by cases h
      · exact ih (hat.moves hmoves fun _ h => by cases h)
    | .error .exists => exact wp_raised reraise_within.noFlock fun _ _ _ h => by cases h
    | .error .loop => exact wp_raised reraise_within.noFlock fun _ _ _ h => by cases h
    | .error .other => exact wp_raised reraise_within.noFlock fun _ _ _ h => by cases h

omit [DecidableEq F] in
theorem finish_within {euid : Nat} {fd : F} {path : Path} {truncate : Bool} :
    Within holding (do
      let status ← validateOwnedDescriptor euid fd path .regular
      if status.mode ≠ privateFileMode then
        orRaise (← .perform (.fchmod fd privateFileMode))
      if truncate then
        orRaise (← .perform (.ftruncate fd)) : Script F Unit) fun _ => True := by
  refine Within.bind validate_within fun status => ?_
  have htruncate : Within holding (do
      orRaise (← .perform (.ftruncate fd)) : Script F Unit) fun _ => True :=
    ⟨trivial, fun r _ => orRaise_within r⟩
  split
  · split
    · exact ⟨trivial, fun r _ => Within.bind (orRaise_within r) fun _ => htruncate⟩
    · exact htruncate
  · split
    · exact ⟨trivial, fun r _ => Within.bind (orRaise_within r) fun _ => trivial⟩
    · trivial

/-- The lock file is opened under the name, in the directory of the path. -/
theorem openRegular_wp {P : Platform} {directory : PrivateDirectory F} {flags : OpenFlags}
    {mode : Nat} (hinv : Inv parent name s) (hopen : directory.closed = false)
    (hdirectory : At parent t directory.fd s) :
    wp (sparing name) (rules parent name) t (directory.openRegular P name flags mode)
      (fun out s' => ∀ fd, out = .ok fd → OnFile parent name t fd s') s := by
  have hactive : directory.activeFd = .ok directory.fd := by
    rw [PrivateDirectory.activeFd, if_neg (by simp [hopen])]
  unfold PrivateDirectory.openRegular openPrivateRegularAt
  rw [hactive, Prog.ofExcept_ok, Prog.pure_bind]
  cases validateComponentName name with
  | error e => exact wp_fail true_stable trivial fun _ _ _ _ h => by cases h
  | ok _ =>
    rw [Prog.ofExcept_ok, Prog.pure_bind]
    refine wp_bind hinv (wp_mono ?_ (openAttempts_wp _ hdirectory))
    intro out s₁ hinv₁ hopened
    cases out with
    | error e => exact wp_fail true_stable trivial fun _ _ _ _ h => by cases h
    | ok fd =>
      refine wp_settle hinv₁ (wp_mono ?_ (wp_holding onFile_stable ?_ finish_within
        (hopened fd rfl)))
      · intro out s₂ _ hend
        cases out with
        | error e => exact wp_raised raiseClosing_within fun _ _ _ h => by cases h
        | ok _ =>
          refine wp_pure onFile_stable hend.2 fun s _ hfile fd' h => ?_
          cases h
          exact hfile
      · exact fun op s s' hop hmoves hfile => hfile.moves hmoves fun site => hop site fd

omit [DecidableEq T] [DecidableEq F] in
theorem lock_stable {mode : LockMode} :
    Stable (rules parent name) t fun s => s.locks t fd = some mode := by
  intro s s' hothers h
  obtain ⟨_, _, u, hu, hguar⟩ := hothers
  rw [(hguar.others t hu.symm).2, h]

/-- `__enter__` takes a lock on the file that the path denotes, and returns with it. -/
theorem enter_wp {P : Platform} {shared : Bool} (hinv : Inv parent name s) :
    wp (sparing name) (rules parent name) t ((FileLock.create parent name shared).enter P)
      (fun out s' => ∀ held, out = .ok held → Holds s' t held.mode) s := by
  show wp _ _ t (_ >>= _) _ s
  refine wp_bind hinv (wp_mono ?_ openPrivateDirectory_wp)
  intro out s₁ hinv₁ hopened
  cases out with
  | error e => exact wp_fail true_stable trivial fun _ _ _ _ h => by cases h
  | ok directory =>
    obtain ⟨hopen, hat⟩ := hopened directory rfl
    have hclosed : ∀ e : Raised, Within noFlock (directory.close >>= fun _ => .fail e :
        Script F (FileLock F)) fun out => ∃ e, out = .error e :=
      fun e => Prog.follows_bind (fun _ => True) (close_within directory) (fun _ _ => ⟨e, rfl⟩)
        fun e' _ => ⟨e', rfl⟩
    refine wp_settle hinv₁ (wp_mono ?_ (openRegular_wp hinv₁ hopen hat))
    intro out s₂ _ hfile
    cases out with
    | error e => exact wp_raised (hclosed e) fun _ _ _ h => by cases h
    | ok fd =>
      refine wp_exec onFile_stable (hfile fd rfl) ?_
      intro s r s' hinv hfile hstep
      obtain ⟨hinv', hguar⟩ := flock_keeps hstep.1 hinv hfile
      refine ⟨hinv', hguar, ?_⟩
      cases r with
      | ok _ =>
        obtain ⟨_, _, _, rfl⟩ := hstep.1
        refine wp_pure lock_stable setAt_self fun s _ hlock held h => ?_
        cases h
        exact ⟨fd, hlock⟩
      | error e =>
        refine wp_raised ⟨trivial, fun r _ => ?_⟩ fun _ _ _ h => by cases h
        cases r with
        | ok _ => exact hclosed (.os e)
        | error e' => exact ⟨_, rfl⟩

theorem withLock_wp {P : Platform} {shared : Bool} {actions : List Action}
    (hinv : Inv parent name s) :
    wp (sparing name) (rules parent name) t
      (withLock P (FileLock.create parent name shared) actions) (fun _ _ => True) s := by
  refine wp_bind hinv (wp_mono ?_ (enter_wp hinv))
  intro out s₁ _ _
  cases out with
  | error e => exact wp_fail true_stable trivial fun _ _ _ => trivial
  | ok held =>
    refine wp_noFlock (Prog.follows_settle (fun _ => True) ?_ fun out _ => ?_)
    · exact Within.bind (ofExcept_within _) fun directory => perform_within directory actions
    · exact Within.bind (exit_within held) fun _ => ofExcept_within out

end

/-! ## Exclusion -/

/-- No party has anything open. -/
def Fresh (s : Shared T F) : Prop := ∀ t fd, s.handles t fd = none ∧ s.locks t fd = none

/-- **Exclusion on the path.** While no holder unlinks the name of the lock file or replaces it,
an exclusive holder is alone. -/
theorem exclusive_while_spared (parent : Path) (name : String) (P : T → Platform)
    (shared : T → Bool) (actions : T → List Action) (s : Shared T F) (hs : Fresh s)
    (c : Config T (Shared T F) (Call F) Reply Raised Unit)
    (hc : Reachable (system.restrict (Spares name)) s
      (fun t => withLock (P t) (FileLock.create parent name (shared t)) (actions t)) c) :
    ¬ Overlap c.state := by
  have hstart : Inv parent name s := by
    refine ⟨?_, ?_⟩
    · intro t fd _ _ _ mode _ _ _ _ hmode
      rw [(hs t fd).2] at hmode
      cases hmode
    · intro t fd mode hmode
      rw [(hs t fd).2] at hmode
      cases hmode
  have hkill : ∀ t (s s' : Shared T F), Inv parent name s → s' = s.die t →
      Inv parent name s' ∧ Guarantee name t s s' := by
    intro t s s' hinv heq
    subst heq
    exact die_keeps hinv
  have hinv := (reachable_wp (R := rules parent name) hstart hkill
    (fun t => withLock_wp hstart) hc).1
  intro hoverlap
  obtain ⟨t, u, mode, hne, ⟨fd, hexclusive⟩, fd', hmode⟩ := hoverlap
  obtain ⟨d, i, hd, hi, hfd⟩ := hinv.onPath t fd _ hexclusive
  obtain ⟨d', i', hd', hi', hfd'⟩ := hinv.onPath u fd' _ hmode
  obtain rfl : d = d' := Option.some.inj (hd.symm.trans hd')
  obtain rfl : i = i' := Option.some.inj (hi.symm.trans hi')
  have hcompatible := hinv.compatible t fd u fd' i _ mode (fun h => hne h.1.symm) hfd hfd'
    hexclusive hmode
  cases mode with
  | shared => cases hcompatible
  | exclusive => cases hcompatible

/-! ## Two parties -/

/-- A private directory with the lock file in it. -/
def shelf : Shared Bool Nat where
  node
    | 0 => some ⟨.directory, 0, 0o755⟩
    | 1 => some ⟨.directory, 1000, 0o700⟩
    | 2 => some ⟨.regular, 1000, 0o600⟩
    | _ => none
  entries d name :=
    if d = 0 ∧ name = "work" then some 1 else if d = 1 ∧ name = "lock" then some 2 else none
  handles _ _ := none
  locks _ _ := none

def user : Platform := ⟨true, 1000⟩

/-- Both lock exclusively; the first removes the lock file. -/
def removing : Bool → List Action
  | true => [.unlink "lock"]
  | false => []

def party (actions : Bool → List Action) (t : Bool) : Script Nat Unit :=
  withLock user (FileLock.create ["work"] "lock" false) (actions t)

/-- One more call of a party. -/
theorem next {S : System Bool (Shared Bool Nat) (Call Nat) Reply} {progs : Bool → Script Nat Unit}
    {c : Config Bool (Shared Bool Nat) (Call Nat) Reply Raised Unit}
    (hc : Reachable S shelf progs c) (t : Bool) (op : Call Nat) (r : Reply op)
    {k : Reply op → Script Nat Unit} {s' : Shared Bool Nat} (hp : c.prog t = some (.exec op k))
    (hstep : S.step t c.state op r s') :
    Reachable S shelf progs ⟨s', Function.update c.prog t (some (k r))⟩ := hc.exec hp hstep

/-- The first party holds the lock, and nobody else. -/
theorem exclusive_while_spared_first :
    ∃ c : Config Bool (Shared Bool Nat) (Call Nat) Reply Raised Unit,
      Reachable (system.restrict (Spares "lock")) shelf (party removing) c ∧
        Holds c.state true .exclusive ∧ ¬ Overlap c.state := by
  have h0 : Reachable (system.restrict (Spares "lock")) shelf (party removing)
      (start shelf (party removing)) := .refl
  have h1 := next h0 true .openRoot (.ok 0) rfl ⟨⟨rfl, rfl, rfl⟩, trivial⟩
  have h2 := next h1 true (.openDirectory 0 "work") (.ok 1) rfl
    ⟨⟨0, 1, rfl, rfl, rfl, rfl, rfl⟩, trivial⟩
  have h3 := next h2 true (.fstat 1) (.ok ⟨.directory, 1000, 0o700, 2⟩) rfl
    ⟨⟨rfl, 1, _, rfl, rfl, rfl, rfl, rfl⟩, trivial⟩
  have h4 := next h3 true (.close .handOver 0) (.ok ()) rfl ⟨rfl, trivial⟩
  have h5 := next h4 true (.openRegular 1 "lock" true 0o600) (.ok 2) rfl
    ⟨⟨1, rfl, rfl, .inl ⟨2, _, rfl, rfl, by decide, by decide, rfl⟩⟩, trivial⟩
  have h6 := next h5 true (.fstat 2) (.ok ⟨.regular, 1000, 0o600, 1⟩) rfl
    ⟨⟨rfl, 2, _, rfl, rfl, rfl, rfl, rfl⟩, trivial⟩
  have h7 := next h6 true (.flock 2 .exclusive) (.ok ()) rfl ⟨⟨2, rfl, (by
    intro u fd other _ _ hlock
    have hlock : setAt shelf.locks true 0 none u fd = some other := hlock
    have hnone : none = some other := of_setAt_none hlock
    cases hnone), rfl⟩, trivial⟩
  exact ⟨_, h7, ⟨2, rfl⟩, exclusive_while_spared ["work"] "lock" (fun _ => user) (fun _ => false)
    removing shelf (fun _ _ => ⟨rfl, rfl⟩) _ h7⟩

/-- The first party locks the file and unlinks its name; the second creates another file under
the name and locks that. -/
theorem unlinked_lock_overlaps :
    ∃ c : Config Bool (Shared Bool Nat) (Call Nat) Reply Raised Unit,
      Reachable system shelf (party removing) c ∧ Overlap c.state := by
  have h0 : Reachable system shelf (party removing) (start shelf (party removing)) := .refl
  have h1 := next h0 true .openRoot (.ok 0) rfl ⟨rfl, rfl, rfl⟩
  have h2 := next h1 true (.openDirectory 0 "work") (.ok 1) rfl ⟨0, 1, rfl, rfl, rfl, rfl, rfl⟩
  have h3 := next h2 true (.fstat 1) (.ok ⟨.directory, 1000, 0o700, 2⟩) rfl
    ⟨rfl, 1, _, rfl, rfl, rfl, rfl, rfl⟩
  have h4 := next h3 true (.close .handOver 0) (.ok ()) rfl rfl
  have h5 := next h4 true (.openRegular 1 "lock" true 0o600) (.ok 2) rfl
    ⟨1, rfl, rfl, .inl ⟨2, _, rfl, rfl, by decide, by decide, rfl⟩⟩
  have h6 := next h5 true (.fstat 2) (.ok ⟨.regular, 1000, 0o600, 1⟩) rfl
    ⟨rfl, 2, _, rfl, rfl, rfl, rfl, rfl⟩
  have h7 := next h6 true (.flock 2 .exclusive) (.ok ()) rfl ⟨2, rfl, (by
    intro u fd other _ _ hlock
    have hlock : setAt shelf.locks true 0 none u fd = some other := hlock
    have hnone : none = some other := of_setAt_none hlock
    cases hnone), rfl⟩
  have h8 := next h7 true (.unlink 1 "lock") (.ok ()) rfl ⟨1, 2, rfl, rfl, rfl, rfl⟩
  have h9 := next h8 false .openRoot (.ok 0) rfl ⟨rfl, rfl, rfl⟩
  have h10 := next h9 false (.openDirectory 0 "work") (.ok 1) rfl ⟨0, 1, rfl, rfl, rfl, rfl, rfl⟩
  have h11 := next h10 false (.fstat 1) (.ok ⟨.directory, 1000, 0o700, 2⟩) rfl
    ⟨rfl, 1, _, rfl, rfl, rfl, rfl, rfl⟩
  have h12 := next h11 false (.close .handOver 0) (.ok ()) rfl rfl
  have h13 := next h12 false (.openRegular 1 "lock" true 0o600) (.ok 2) rfl
    ⟨1, rfl, rfl, .inr ⟨3, ⟨.regular, 1000, 0o600⟩, rfl, rfl, rfl, rfl, rfl⟩⟩
  have h14 := next h13 false (.fstat 2) (.ok ⟨.regular, 1000, 0o600, 1⟩) rfl
    ⟨rfl, 3, _, rfl, rfl, rfl, rfl, rfl⟩
  have h15 := next h14 false (.flock 2 .exclusive) (.ok ()) rfl ⟨3, rfl, (by
    intro u fd other _ hi hlock
    have hlock : setAt (setAt (setAt shelf.locks true 0 none) true 2 (some .exclusive)) false 0
        none u fd = some other := hlock
    have hlock := of_setAt_none hlock
    cases u with
    | false =>
      have hnone : none = some other := hlock
      cases hnone
    | true =>
      by_cases hfd : fd = 2
      · subst hfd
        -- the first party has locked the file that is gone
        cases hi
      · rw [setAt_of_ne hfd] at hlock
        have hnone : none = some other := of_setAt_none hlock
        cases hnone), rfl⟩
  exact ⟨_, h15, true, false, .exclusive, by decide, ⟨2, rfl⟩, 2, rfl⟩

end DrStore.LocalFs.FileLocks
