import DrStore.LocalFs.PrivateFiles
import Mathlib.Logic.Function.Basic
import Mathlib.Data.List.Infix
import Mathlib.Data.List.Induction

/-! # The private-directory walk (localfs/_fs.py, `open_private_directory`)

The walk on a filesystem tree that nobody else changes. Any call may fail without an effect; that a
name is missing, or there already, is reported only when it is. The log holds what was created and
what was synced, in order. -/
namespace DrStore.LocalFs.Walk
open DrStore.Base.Programs DrStore.LocalFs.PrivateFiles

/-! ## Trees -/

abbrev Inode := Nat

def root : Inode := 0

structure Node where
  type : FileType
  uid : Nat
  mode : Nat

/-- A directory that was created. -/
structure Made where
  parent : Inode
  name : String
  child : Inode

inductive Event where
  | mkdir (made : Made)
  | fsync (i : Inode)

/-- What is on the disk. -/
structure Files where
  node : Inode → Option Node
  entries : Inode → String → Option Inode

namespace Files

def isDirectory (s : Files) (i : Inode) : Bool := (s.node i).any fun n => n.type = .directory

def resolveFrom (s : Files) : Inode → List String → Option Inode
  | d, [] => some d
  | d, name :: rest => match s.entries d name with
    | some i => if s.isDirectory i then s.resolveFrom i rest else none
    | none => none

/-- The directory at a path, through real directories only. -/
def resolve (s : Files) (path : Path) : Option Inode :=
  if s.isDirectory root then s.resolveFrom root path else none

def make (s : Files) (m : Made) (n : Node) : Files where
  node := Function.update s.node m.child (some n)
  entries := Function.update s.entries m.parent
    (Function.update (s.entries m.parent) m.name (some m.child))

def setMode (s : Files) (i : Inode) (mode : Nat) : Files :=
  { s with node := Function.update s.node i ((s.node i).map fun n => { n with mode }) }

theorem make_node (s : Files) (m : Made) (n : Node) :
    (s.make m n).node = Function.update s.node m.child (some n) := rfl

theorem make_entries (s : Files) (m : Made) (n : Node) :
    (s.make m n).entries = Function.update s.entries m.parent
      (Function.update (s.entries m.parent) m.name (some m.child)) := rfl

theorem setMode_node (s : Files) (i : Inode) (mode : Nat) : (s.setMode i mode).node =
    Function.update s.node i ((s.node i).map fun n => { n with mode }) := rfl

end Files

structure Disk (F : Type) extends Files where
  handles : F → Option Inode
  log : List Event

variable {F : Type}

namespace Disk

def note (s : Disk F) (e : Event) : Disk F := { s with log := s.log ++ [e] }

def make (s : Disk F) (m : Made) (n : Node) : Disk F :=
  { s with toFiles := s.toFiles.make m n }.note (.mkdir m)

def setMode (s : Disk F) (i : Inode) (mode : Nat) : Disk F :=
  { s with toFiles := s.toFiles.setMode i mode }

variable [DecidableEq F]

def pin (s : Disk F) (fd : F) (i : Inode) : Disk F :=
  { s with handles := Function.update s.handles fd (some i) }

def release (s : Disk F) (fd : F) : Disk F :=
  { s with handles := Function.update s.handles fd none }

end Disk

variable [DecidableEq F]

/-- What a call of the walk does; the calls that it does not make are left out. -/
def Does (s : Disk F) : (op : Call F) → Reply op → Disk F → Prop
  | .openRoot, .ok fd, s' =>
    s.isDirectory root = true ∧ s.handles fd = none ∧ s' = s.pin fd root
  | .openRoot, .error _, s' => s' = s
  | .openDirectory parent name, .ok fd, s' => ∃ d i, s.handles parent = some d ∧
      -- O_DIRECTORY and O_NOFOLLOW
      s.entries d name = some i ∧ s.isDirectory i = true ∧ s.handles fd = none ∧ s' = s.pin fd i
  | .openDirectory parent name, .error e, s' => s' = s ∧
      (e = .noEntry → ∀ d, s.handles parent = some d → s.entries d name = none)
  | .mkdir parent name _, .ok _, s' => ∃ d i n, s.handles parent = some d ∧
      -- the mode is masked, and the owner is for the file system to say
      s.entries d name = none ∧ s.node i = none ∧ n.type = .directory ∧ s' = s.make ⟨d, name, i⟩ n
  | .mkdir parent name _, .error e, s' => s' = s ∧
      (e = .exists → ∀ d, s.handles parent = some d → (s.entries d name).isSome = true)
  | .chmod parent name mode, .ok _, s' => ∃ d i, s.handles parent = some d ∧
      s.entries d name = some i ∧ s' = s.setMode i mode
  | .chmod _ _ _, .error _, s' => s' = s
  | .lstat _, _, s' => s' = s
  | .fstat fd, .ok status, s' => s' = s ∧ ∃ i n, s.handles fd = some i ∧ s.node i = some n ∧
      status.type = n.type ∧ status.uid = n.uid ∧ status.mode = n.mode
  | .fstat _, .error _, s' => s' = s
  | .fchmod fd mode, .ok _, s' => ∃ i, s.handles fd = some i ∧ s' = s.setMode i mode
  | .fchmod _ _, .error _, s' => s' = s
  | .fsync fd, .ok _, s' => ∃ i, s.handles fd = some i ∧ s' = s.note (.fsync i)
  | .fsync _, .error _, s' => s' = s
  | .close _ fd, _, s' => s' = s.release fd
  | _, _, _ => False

/-! ## Resolving -/

section

variable {s s' : Files}

theorem resolveFrom_append (p q : List String) (d : Inode) :
    s.resolveFrom d (p ++ q) = (s.resolveFrom d p).bind fun i => s.resolveFrom i q := by
  induction p generalizing d with
  | nil => rfl
  | cons name p ih =>
    rw [List.cons_append, Files.resolveFrom, Files.resolveFrom]
    cases s.entries d name with
    | none => rfl
    | some i =>
      dsimp only
      split
      · exact ih i
      · rfl

theorem resolve_append (p q : List String) :
    s.resolve (p ++ q) = (s.resolve p).bind fun i => s.resolveFrom i q := by
  unfold Files.resolve
  split
  · exact resolveFrom_append p q root
  · rfl

/-- One more component. -/
theorem resolve_concat {p : List String} {name : String} {i : Inode} :
    s.resolve (p ++ [name]) = some i ↔
      ∃ d, s.resolve p = some d ∧ s.entries d name = some i ∧ s.isDirectory i = true := by
  rw [resolve_append, Option.bind_eq_some_iff]
  refine exists_congr fun d => and_congr_right fun _ => ?_
  rw [Files.resolveFrom]
  cases s.entries d name with
  | none => simp
  | some j =>
    simp only [Files.resolveFrom, Option.some.injEq]
    split
    · rename_i hj
      refine ⟨fun h => ?_, fun h => congrArg some h.1⟩
      cases h
      exact ⟨rfl, hj⟩
    · rename_i hj
      refine ⟨(fun h => by cases h), fun h => ?_⟩
      rw [← h.1] at h
      exact absurd h.2 hj

theorem resolve_prefix {p q : List String} {i : Inode} (hp : p <+: q) (h : s.resolve q = some i) :
    ∃ j, s.resolve p = some j := by
  obtain ⟨rest, rfl⟩ := hp
  rw [resolve_append] at h
  obtain ⟨j, hj, _⟩ := Option.bind_eq_some_iff.mp h
  exact ⟨j, hj⟩

/-- No directory is renamed, removed or made a file. -/
structure Grows (s s' : Files) : Prop where
  entries : ∀ d name i, s.isDirectory i = true → s.entries d name = some i →
    s'.entries d name = some i
  directories : ∀ i, s.isDirectory i = true → s'.isDirectory i = true

theorem Grows.resolve (h : Grows s s') {p : List String} {i : Inode} (hp : s.resolve p = some i) :
    s'.resolve p = some i := by
  induction p using List.reverseRecOn generalizing i with
  | nil =>
    unfold Files.resolve at hp ⊢
    split at hp
    · rename_i hroot
      rw [if_pos (h.directories root hroot)]
      exact hp
    · cases hp
  | append_singleton p name ih =>
    obtain ⟨d, hd, hentry, hi⟩ := resolve_concat.mp hp
    exact resolve_concat.mpr ⟨d, ih hd, h.entries d name i hi hentry, h.directories i hi⟩

/-- A new name is put beside those that are there. -/
theorem make_keeps {m : Made} {n : Node} (hentry : s.entries m.parent m.name = none)
    {d : Inode} {name : String} {i : Inode} (h : s.entries d name = some i) :
    (s.make m n).entries d name = some i := by
  rw [Files.make_entries]
  by_cases hd : d = m.parent
  · subst hd
    by_cases hname : name = m.name
    · rw [hname, hentry] at h
      cases h
    · rw [Function.update_self, Function.update_of_ne hname, h]
  · rw [Function.update_of_ne hd, h]

theorem grows_make {m : Made} {n : Node} (hentry : s.entries m.parent m.name = none)
    (hnode : s.node m.child = none) : Grows s (s.make m n) := by
  refine ⟨fun _ _ _ _ h => make_keeps hentry h, fun i hi => ?_⟩
  have hne : i ≠ m.child := by
    intro heq
    rw [heq, Files.isDirectory, hnode] at hi
    cases hi
  rw [Files.isDirectory, Files.make_node, Function.update_of_ne hne]
  exact hi

theorem isDirectory_setMode (s : Files) (i : Inode) (mode : Nat) (j : Inode) :
    (s.setMode i mode).isDirectory j = s.isDirectory j := by
  rw [Files.isDirectory, Files.isDirectory, Files.setMode_node]
  by_cases hj : j = i
  · subst hj
    rw [Function.update_self]
    cases s.node j <;> rfl
  · rw [Function.update_of_ne hj]

theorem grows_setMode (i : Inode) (mode : Nat) : Grows s (s.setMode i mode) :=
  ⟨fun _ _ _ _ h => h, fun j hj => by rw [isDirectory_setMode, hj]⟩

theorem isDirectory_of_resolve {p : List String} {i : Inode} (h : s.resolve p = some i) :
    s.isDirectory i = true := by
  rcases List.eq_nil_or_concat p with rfl | ⟨p, name, rfl⟩
  · unfold Files.resolve at h
    split at h
    · rename_i hroot
      cases h
      exact hroot
    · cases h
  · rw [List.concat_eq_append] at h
    obtain ⟨_, _, _, hi⟩ := resolve_concat.mp h
    exact hi

/-- A tree: a directory has one name, the root none, and what is not there has no entries. -/
structure Tree (s : Files) : Prop where
  unique : ∀ d d' name name' i, s.isDirectory i = true → s.entries d name = some i →
    s.entries d' name' = some i → d = d' ∧ name = name'
  rooted : ∀ d name, s.entries d name ≠ some root
  absent : ∀ d name, s.node d = none → s.entries d name = none

/-- Different paths lead to different directories. -/
theorem resolve_injective (ht : Tree s) {p q : List String} {i : Inode}
    (hp : s.resolve p = some i) (hq : s.resolve q = some i) : p = q := by
  have hnil : ∀ {p : List String} {j : Inode}, s.resolve ([] : List String) = some j →
      s.resolve p = some j → p = [] := by
    intro p j hnil hp
    have hroot : j = root := by
      unfold Files.resolve at hnil
      split at hnil
      · cases hnil
        rfl
      · cases hnil
    rcases List.eq_nil_or_concat p with rfl | ⟨p, name, rfl⟩
    · rfl
    · rw [List.concat_eq_append] at hp
      obtain ⟨d, _, hentry, _⟩ := resolve_concat.mp hp
      exact absurd (hroot ▸ hentry) (ht.rooted d name)
  induction p using List.reverseRecOn generalizing q i with
  | nil => exact (hnil hp hq).symm
  | append_singleton p name ih =>
    rcases List.eq_nil_or_concat q with rfl | ⟨q, name', rfl⟩
    · exact hnil hq hp
    · rw [List.concat_eq_append] at hq ⊢
      obtain ⟨d, hd, hentry, hi⟩ := resolve_concat.mp hp
      obtain ⟨d', hd', hentry', _⟩ := resolve_concat.mp hq
      obtain ⟨rfl, rfl⟩ := ht.unique d d' name name' i hi hentry hentry'
      rw [ih hd hd']

end

/-! ## The parts of one step -/

section

variable {s : Disk F} {α : Type} {euid : Nat} {path : Path}

/-- Looking why a call was refused changes nothing. -/
theorem reraise_same {exc : Errno} {type : FileType} {place : Option (F × String)} :
    (reraiseOpenPolicy exc path type place : Script F α).ensures Does
      (fun out s' => (∃ e, out = .error e) ∧ s' = s) s := by
  unfold reraiseOpenPolicy
  split
  · exact ⟨⟨_, rfl⟩, rfl⟩
  · intro r s' h
    obtain rfl : s' = s := h
    cases r with
    | error e => exact ⟨⟨_, rfl⟩, rfl⟩
    | ok status =>
      dsimp only
      split
      · exact ⟨⟨_, rfl⟩, rfl⟩
      split
      · exact ⟨⟨_, rfl⟩, rfl⟩
      · exact ⟨⟨_, rfl⟩, rfl⟩

/-- A component that was there and is a directory, or one that was missing and is one now. -/
inductive Entered (s : Disk F) (d : Inode) (name : String) :
    F × Bool × Bool → Inode → Disk F → Prop where
  | existing (fd : F) (i : Inode) (hentry : s.entries d name = some i)
      (hdirectory : s.isDirectory i = true) : Entered s d name (fd, false, false) i (s.pin fd i)
  | created (fd : F) (i : Inode) (n : Node) (hentry : s.entries d name = none)
      (hfresh : s.node i = none) (hdirectory : n.type = .directory)
      (hmode : n.mode = privateDirectoryMode) :
      Entered s d name (fd, true, true) i ((s.make ⟨d, name, i⟩ n).pin fd i)

/-- Nothing but the name is looked at, and only a missing one is created. -/
theorem openOrCreateDirectory_enters {parent : F} {name : String} {create : Bool} {d : Inode}
    (hparent : s.handles parent = some d) :
    (openOrCreateDirectory parent name path create).ensures Does (fun out s' =>
      match out with
      | .ok found => s.handles found.1 = none ∧ ∃ i, Entered s d name found i s'
      | .error _ => (s.entries d name).isSome = true → s' = s) s := by
  have hrefused : ∀ {exc : Errno} {s' : Disk F}, s' = s →
      (reraiseOpenPolicy exc path .directory (some (parent, name)) :
        Script F (F × Bool × Bool)).ensures Does (fun out s' =>
        match out with
        | .ok found => s.handles found.1 = none ∧ ∃ i, Entered s d name found i s'
        | .error _ => (s.entries d name).isSome = true → s' = s) s' := by
    intro exc s' hsame
    subst hsame
    refine Prog.ensures_mono reraise_same ?_
    intro out s'' h
    obtain ⟨⟨e, rfl⟩, rfl⟩ := h
    exact fun _ => rfl
  intro r s₁ h
  match r with
  | .ok fd =>
    obtain ⟨d', i, hd, hentry, hi, hfree, rfl⟩ := h
    rw [hparent] at hd
    cases hd
    exact ⟨hfree, i, .existing fd i hentry hi⟩
  | .error .noEntry =>
    obtain ⟨rfl, hmissing⟩ := h
    have hmissing := hmissing rfl d hparent
    have hnone : ∀ s' : Disk F, (s₁.entries d name).isSome = true → s' = s₁ := by
      intro s' hsome
      rw [hmissing] at hsome
      cases hsome
    show Prog.ensures Does (ite _ _ _) _ _
    split
    · exact hnone _
    intro r s₂ h
    match r with
    | .ok _ =>
      obtain ⟨d', i, n, hd, hentry, hfresh, hn, rfl⟩ := h
      rw [hparent] at hd
      cases hd
      intro r s₃ h
      cases r with
      | error e => exact hnone _
      | ok _ =>
        obtain ⟨d', i', hd, hentry', rfl⟩ := h
        have hd' : s₁.handles parent = some d' := hd
        rw [hparent] at hd'
        cases hd'
        have hchild : (s₁.make ⟨d, name, i⟩ n).entries d name = some i := by
          simp [Disk.make, Files.make, Disk.note]
        rw [hchild] at hentry'
        cases hentry'
        have hmade : (s₁.make ⟨d, name, i⟩ n).setMode i privateDirectoryMode =
            s₁.make ⟨d, name, i⟩ { n with mode := privateDirectoryMode } := by
          simp [Disk.make, Files.make, Disk.note, Disk.setMode, Files.setMode]
        rw [hmade]
        intro r s₄ h
        cases r with
        | error e =>
          refine Prog.ensures_mono reraise_same ?_
          intro out s₅ h
          obtain ⟨⟨e', rfl⟩, _⟩ := h
          exact hnone _
        | ok fd =>
          obtain ⟨d', i', hd, hentry', _, hfree, rfl⟩ := h
          have hd' : s₁.handles parent = some d' := hd
          rw [hparent] at hd'
          cases hd'
          have hchild' : (s₁.make ⟨d, name, i⟩ { n with mode := privateDirectoryMode }).entries d
              name = some i := by simp [Disk.make, Files.make, Disk.note]
          rw [hchild'] at hentry'
          cases hentry'
          exact ⟨hfree, i, .created fd i _ hmissing hfresh hn rfl⟩
    | .error .exists =>
      obtain ⟨_, hexists⟩ := h
      have hsome := hexists rfl d hparent
      rw [hmissing] at hsome
      cases hsome
    | .error .noEntry => exact hnone _
    | .error .loop => exact hnone _
    | .error .other => exact hnone _
  | .error .exists => exact hrefused h.1
  | .error .loop => exact hrefused h.1
  | .error .other => exact hrefused h.1

/-- The owner is checked before anything is changed. -/
theorem privatize_repairs {fd : F} {i : Inode} {n : Node} (hfd : s.handles fd = some i)
    (hn : s.node i = some n) : (privatize euid fd path).ensures Does (fun out s' =>
      (n.uid ≠ euid → (∃ e, out = .error e) ∧ s' = s) ∧
      (out = .ok () → n.type = .directory ∧ n.uid = euid ∧
        s' = if n.mode = privateDirectoryMode then s
          else (s.setMode i privateDirectoryMode).note (.fsync i))) s := by
  intro r s₁ h
  cases r with
  | error e =>
    obtain rfl : s₁ = s := h
    exact ⟨fun _ => ⟨⟨_, rfl⟩, rfl⟩, fun h => by cases h⟩
  | ok status =>
    obtain ⟨rfl, i', n', hi, hn', htype, huid, hmode⟩ := h
    rw [hfd] at hi
    cases hi
    rw [hn] at hn'
    cases hn'
    show Prog.ensures Does ((ite _ _ _ : Script F Stat) >>= _) _ _
    split
    · exact ⟨fun _ => ⟨⟨_, rfl⟩, rfl⟩, fun h => by cases h⟩
    rename_i hdirectory
    split
    · exact ⟨fun _ => ⟨⟨_, rfl⟩, rfl⟩, fun h => by cases h⟩
    rename_i howner
    have howner : n.uid = euid := by rw [← huid]; exact not_not.mp howner
    have hdirectory : n.type = .directory := by rw [← htype]; exact not_not.mp hdirectory
    rw [if_neg (by simp)]
    show Prog.ensures Does (ite _ _ _) _ _
    rw [hmode]
    split
    · rename_i hdrift
      intro r s₂ h
      cases r with
      | error e => exact ⟨fun hnot => absurd howner hnot, fun h => by cases h⟩
      | ok _ =>
        obtain ⟨i', hi, rfl⟩ := h
        rw [hfd] at hi
        cases hi
        intro r s₃ h
        cases r with
        | error e => exact ⟨fun hnot => absurd howner hnot, fun h => by cases h⟩
        | ok _ =>
          obtain ⟨i', hi, rfl⟩ := h
          have hi' : s₁.handles fd = some i' := hi
          rw [hfd] at hi'
          cases hi'
          exact ⟨fun hnot => absurd howner hnot, fun _ => ⟨hdirectory, howner, rfl⟩⟩
    · rename_i hmode'
      refine ⟨fun hnot => absurd howner hnot, fun _ => ⟨hdirectory, howner, ?_⟩⟩
      rw [if_pos (not_not.mp hmode')]

theorem persist_syncs {created : Bool} {child parent : F} {i d : Inode}
    (hchild : s.handles child = some i) (hparent : s.handles parent = some d) :
    (persist created child parent).ensures Does (fun out s' => (created = false → s' = s) ∧
      (out = .ok () → s' = if created = true then (s.note (.fsync i)).note (.fsync d) else s)) s := by
  unfold persist
  cases created with
  | false => exact ⟨fun _ => rfl, fun _ => rfl⟩
  | true =>
    intro r s₁ h
    cases r with
    | error e => exact ⟨(fun h => by cases h), fun h => by cases h⟩
    | ok _ =>
      obtain ⟨i', hi, rfl⟩ := h
      rw [hchild] at hi
      cases hi
      intro r s₂ h
      cases r with
      | error e => exact ⟨(fun h => by cases h), fun h => by cases h⟩
      | ok _ =>
        obtain ⟨d', hd, rfl⟩ := h
        have hd' : s.handles parent = some d' := hd
        rw [hparent] at hd'
        cases hd'
        exact ⟨(fun h => by cases h), fun _ => rfl⟩

end

/-! ## Along the path -/

section

/-- A new directory is synced, and then its parent, before anything else happens. -/
def Made.events (m : Made) : List Event := [.mkdir m, .fsync m.child, .fsync m.parent]

/-- Private, and a directory. -/
def Owned (euid : Nat) (s : Disk F) (i : Inode) : Prop :=
  ∃ n, s.node i = some n ∧ n.type = .directory ∧ n.uid = euid ∧ n.mode = privateDirectoryMode

omit [DecidableEq F]

/-- At the directory `i`, after these components that existed and those that were created. -/
structure Along (euid : Nat) (s₀ : Disk F) (existing : List String) (made : List Made) (i : Inode)
    (s : Disk F) : Prop where
  resolved : s.resolve (existing ++ made.map Made.name) = some i
  existed : ∃ d, s₀.resolve existing = some d
  missing : ∀ m rest, made = m :: rest →
    s₀.resolve existing = some m.parent ∧ s₀.entries m.parent m.name = none
  entries : ∀ d name, s.entries d name = s₀.entries d name ∨ ∃ m ∈ made, m.parent = d ∧
    m.name = name ∧ s.entries d name = some m.child ∧ s₀.entries d name = none
  nodes : ∀ j, (∀ m ∈ made, j ≠ m.child) → s.node j = s₀.node j
  fresh : ∀ m ∈ made, s₀.node m.child = none
  parents : ∀ m ∈ made, s.isDirectory m.parent = true ∧ m.parent ≠ i
  owned : ∀ m ∈ made, Owned euid s m.child
  places : ∀ before m after, made = before ++ m :: after →
    s.resolve (existing ++ (before ++ [m]).map Made.name) = some m.child
  last : made ≠ [] → ∃ m ∈ made, m.child = i
  log : s.log = s₀.log ++ made.flatMap Made.events

variable {euid : Nat} {s₀ s s' : Disk F} {existing : List String} {made : List Made} {i : Inode}

theorem Along.start (h : s₀.isDirectory root = true) (hnode : s.node = s₀.node)
    (hentries : s.entries = s₀.entries) (hlog : s.log = s₀.log) : Along euid s₀ [] [] root s where
  resolved := by
    show (if s.isDirectory root = true then some root else none) = _
    rw [Files.isDirectory, hnode]
    exact if_pos h
  existed := ⟨root, if_pos h⟩
  missing m rest h := by cases h
  entries d name := .inl (by rw [hentries])
  nodes j _ := by rw [hnode]
  fresh m hm := by cases hm
  parents m hm := by cases hm
  owned m hm := by cases hm
  places before m after h := by simp at h
  last h := absurd rfl h
  log := by rw [hlog, List.flatMap_nil, List.append_nil]

/-- What was there is there. -/
theorem Along.grows (h : Along euid s₀ existing made i s) : Grows s₀.toFiles s.toFiles := by
  refine ⟨fun d name j _ hj => ?_, fun j hj => ?_⟩
  · obtain heq | ⟨m, _, _, _, _, hnone⟩ := h.entries d name
    · rw [heq, hj]
    · rw [hnone] at hj
      cases hj
  · rw [Files.isDirectory, h.nodes j ?_]
    · exact hj
    · intro m hm heq
      rw [heq, Files.isDirectory, h.fresh m hm] at hj
      cases hj

/-- In a directory that was created there is nothing. -/
theorem Along.empty (ht : Tree s₀.toFiles) (h : Along euid s₀ existing made i s) (hmade : made ≠ [])
    (name : String) : s.entries i name = none := by
  obtain ⟨m, hm, rfl⟩ := h.last hmade
  obtain heq | ⟨m', hm', hparent, _⟩ := h.entries m.child name
  · rw [heq, ht.absent _ name (h.fresh m hm)]
  · exact absurd hparent (h.parents m' hm').2

/-- One more component that was there, with nothing changed. -/
theorem Along.descend (h : Along euid s₀ existing [] i s) {name : String} {j : Inode}
    (hentry : s.entries i name = some j) (hj : s.isDirectory j = true) (hnode : s'.node = s.node)
    (hentries : s'.entries = s.entries) (hlog : s'.log = s.log) :
    Along euid s₀ (existing ++ [name]) [] j s' := by
  have hnode₀ : s.node = s₀.node := funext fun k => h.nodes k fun _ hm => by cases hm
  have hentries₀ : s.entries = s₀.entries := by
    funext d name'
    obtain heq | ⟨m, hm, _⟩ := h.entries d name'
    · exact heq
    · cases hm
  have hsame : ∀ p, s'.resolve p = s.resolve p := by
    have hdirectory : s'.isDirectory = s.isDirectory := by
      funext k
      rw [Files.isDirectory, Files.isDirectory, hnode]
    intro p
    have hfrom : ∀ d, s'.resolveFrom d p = s.resolveFrom d p := by
      induction p with
      | nil => exact fun d => rfl
      | cons c p ih =>
        intro d
        rw [Files.resolveFrom, Files.resolveFrom, hentries, hdirectory]
        cases s.entries d c with
        | none => rfl
        | some k => simp only [ih k]
    rw [Files.resolve, Files.resolve, hdirectory, hfrom]
  have hresolved : s.resolve existing = some i := by simpa using h.resolved
  obtain ⟨d, hd⟩ := h.existed
  have hd' : d = i := Option.some.inj ((h.grows.resolve hd).symm.trans hresolved)
  refine ⟨?_, ⟨j, ?_⟩, (fun _ _ h => by cases h), ?_, ?_, (fun _ h => by cases h),
    (fun _ h => by cases h), (fun _ h => by cases h), (fun _ _ _ h => by simp at h),
    fun h => absurd rfl h, ?_⟩
  · rw [List.map_nil, List.append_nil, hsame]
    exact resolve_concat.mpr ⟨i, hresolved, hentry, hj⟩
  · refine resolve_concat.mpr ⟨i, hd' ▸ hd, hentries₀ ▸ hentry, ?_⟩
    rw [Files.isDirectory, ← hnode₀]
    exact hj
  · intro d' name'
    rw [hentries, hentries₀]
    exact .inl rfl
  · intro k _
    rw [hnode, hnode₀]
  · rw [hlog, h.log]

/-- One more component, created in `i`. -/
theorem Along.create (h : Along euid s₀ existing made i s) {name : String} {j : Inode} {n : Node}
    (hentry : s.entries i name = none) (hfresh : s.node j = none) (htype : n.type = .directory)
    (huid : n.uid = euid) (hmode : n.mode = privateDirectoryMode)
    (hnode : s'.node = Function.update s.node j (some n))
    (hentries : s'.entries = Function.update s.entries i
      (Function.update (s.entries i) name (some j)))
    (hlog : s'.log = s.log ++ Made.events ⟨i, name, j⟩) :
    Along euid s₀ existing (made ++ [⟨i, name, j⟩]) j s' := by
  have hat := isDirectory_of_resolve h.resolved
  have hne : ∀ {k}, s.isDirectory k = true → k ≠ j := by
    intro k hk heq
    rw [heq, Files.isDirectory, hfresh] at hk
    cases hk
  have hkeep : ∀ {k}, s.isDirectory k = true → s'.node k = s.node k := by
    intro k hk
    rw [hnode, Function.update_of_ne (hne hk)]
  have hgrows : Grows s.toFiles s'.toFiles := by
    refine ⟨fun d name' k _ hk => ?_, fun k hk => ?_⟩
    · rw [hentries]
      by_cases hd : d = i
      · subst hd
        by_cases hname : name' = name
        · rw [hname, hentry] at hk
          cases hk
        · rw [Function.update_self, Function.update_of_ne hname, hk]
      · rw [Function.update_of_ne hd, hk]
    · rw [Files.isDirectory, hkeep hk]
      exact hk
  have hchild : s'.isDirectory j = true := by
    rw [Files.isDirectory, hnode, Function.update_self]
    simp [htype]
  have hedge : s'.entries i name = some j := by
    rw [hentries, Function.update_self, Function.update_self]
  have hplace : s'.resolve (existing ++ (made ++ [(⟨i, name, j⟩ : Made)]).map Made.name) =
      some j := by
    rw [List.map_append, ← List.append_assoc]
    exact resolve_concat.mpr ⟨i, hgrows.resolve h.resolved, hedge, hchild⟩
  have howned : ∀ {k}, Owned euid s k → Owned euid s' k := by
    intro k hk
    obtain ⟨n', hn', hrest⟩ := hk
    refine ⟨n', ?_, hrest⟩
    rw [hkeep (by simp [Files.isDirectory, hn', hrest.1]), hn']
  have hnew : ∀ m ∈ made ++ [(⟨i, name, j⟩ : Made)], m ∈ made ∨ m = ⟨i, name, j⟩ := by
    intro m hm
    rcases List.mem_append.mp hm with hm | hm
    · exact .inl hm
    · exact .inr (List.mem_singleton.mp hm)
  refine ⟨hplace, h.existed, ?_, ?_, ?_, ?_, ?_, ?_, ?_, fun _ => ⟨⟨i, name, j⟩, by simp, rfl⟩, ?_⟩
  · intro m rest heq
    cases made with
    | cons m' made' =>
      cases heq
      exact h.missing m made' rfl
    | nil =>
      cases heq
      obtain ⟨d, hd⟩ := h.existed
      have hresolved : s.resolve existing = some i := by simpa using h.resolved
      have hd' : d = i := Option.some.inj ((h.grows.resolve hd).symm.trans hresolved)
      refine ⟨hd' ▸ hd, ?_⟩
      obtain heq | ⟨_, hm, _⟩ := h.entries i name
      · rw [← heq, hentry]
      · cases hm
  · intro d name'
    by_cases hd : d = i ∧ name' = name
    · obtain ⟨rfl, rfl⟩ := hd
      refine .inr ⟨⟨d, name', j⟩, by simp, rfl, rfl, hedge, ?_⟩
      obtain heq | ⟨m, _, _, _, hsome, _⟩ := h.entries d name'
      · rw [← heq, hentry]
      · rw [hentry] at hsome
        cases hsome
    · have hsame : s'.entries d name' = s.entries d name' := by
        rw [hentries]
        by_cases hdi : d = i
        · subst hdi
          have hname : name' ≠ name := fun hname => hd ⟨rfl, hname⟩
          rw [Function.update_self, Function.update_of_ne hname]
        · rw [Function.update_of_ne hdi]
      rw [hsame]
      obtain heq | ⟨m, hm, hrest⟩ := h.entries d name'
      · exact .inl heq
      · exact .inr ⟨m, List.mem_append_left _ hm, hrest⟩
  · intro k hk
    have hkj : k ≠ j := hk ⟨i, name, j⟩ (by simp)
    rw [hnode, Function.update_of_ne hkj]
    exact h.nodes k fun m hm => hk m (List.mem_append_left _ hm)
  · intro m hm
    rcases hnew m hm with hm | rfl
    · exact h.fresh m hm
    · show s₀.node j = none
      by_cases hmem : ∃ m ∈ made, j = m.child
      · obtain ⟨m', hm', heq⟩ := hmem
        rw [heq]
        exact h.fresh m' hm'
      · rw [← h.nodes j fun m hm heq => hmem ⟨m, hm, heq⟩, hfresh]
  · intro m hm
    rcases hnew m hm with hm | rfl
    · have hparent := (h.parents m hm).1
      exact ⟨hgrows.directories _ hparent, hne hparent⟩
    · exact ⟨hgrows.directories _ hat, hne hat⟩
  · intro m hm
    rcases hnew m hm with hm | rfl
    · exact howned (h.owned m hm)
    · exact ⟨n, by rw [hnode, Function.update_self], htype, huid, hmode⟩
  · intro before m after heq
    rcases List.eq_nil_or_concat after with rfl | ⟨after, m', rfl⟩
    · obtain ⟨rfl, heq'⟩ := List.append_inj' heq rfl
      cases heq'
      exact hplace
    · have hmade : made = before ++ m :: after := by
        have hlast : made ++ [(⟨i, name, j⟩ : Made)] = (before ++ m :: after) ++ [m'] := by
          rw [heq]
          simp
        exact (List.append_inj' hlast rfl).1
      exact hgrows.resolve (h.places before m after hmade)
  · rw [hlog, h.log, List.flatMap_append, List.append_assoc]
    simp

/-! ## The end of the walk -/

/-- What the walk has come to. -/
structure Walked (euid : Nat) (s₀ : Disk F) (path : Path) (s : Disk F) (existing : List String)
    (made : List Made) (leaf : Inode) : Prop where
  components : path = existing ++ made.map Made.name
  -- every component is a real directory
  reached : s.resolve path = some leaf ∧ ∀ q, q <+: path → ∃ i, s.resolve q = some i
  -- the suffix that was missing, and nothing else, was created
  existed : ∃ d, s₀.resolve existing = some d
  missing : ∀ m rest, made = m :: rest →
    s₀.resolve existing = some m.parent ∧ s₀.entries m.parent m.name = none
  places : ∀ before m after, made = before ++ m :: after →
    s.resolve (existing ++ (before ++ [m]).map Made.name) = some m.child
  entries : ∀ d name, s.entries d name = s₀.entries d name ∨ ∃ m ∈ made, m.parent = d ∧
    m.name = name ∧ s.entries d name = some m.child ∧ s₀.entries d name = none
  -- the leaf and all that was created is private
  owned : ∀ i, i = leaf ∨ (∃ m ∈ made, i = m.child) → Owned euid s i
  -- nothing else that was there has changed, least of all an ancestor
  kept : ∀ i n, s₀.node i = some n → i ≠ leaf → s.node i = some n
  ancestors : ∀ q i n, q <+: path → q ≠ path → s₀.resolve q = some i → s₀.node i = some n →
    s.node i = some n
  -- each was synced, child first, before the next was created
  log : ∃ repaired, s.log = s₀.log ++ made.flatMap Made.events ++ repaired ∧
    (repaired = [] ∨ made = [] ∧ repaired = [.fsync leaf])

/-- The leaf was created. -/
theorem Along.walked (h : Along euid s₀ existing made i s) (hmade : made ≠ []) :
    Walked euid s₀ (existing ++ made.map Made.name) s existing made i := by
  have hkept : ∀ j n, s₀.node j = some n → s.node j = some n := by
    intro j n hj
    rw [h.nodes j, hj]
    intro m hm heq
    rw [heq, h.fresh m hm] at hj
    cases hj
  obtain ⟨m, hm, rfl⟩ := h.last hmade
  refine ⟨rfl, ⟨h.resolved, fun q hq => resolve_prefix hq h.resolved⟩, h.existed, h.missing, h.places,
    h.entries, ?_, fun j n hj _ => hkept j n hj, fun q j n _ _ _ hj => hkept j n hj,
    ⟨[], by rw [h.log, List.append_nil], .inl rfl⟩⟩
  intro j hj
  rcases hj with rfl | ⟨m', hm', rfl⟩
  · exact h.owned m hm
  · exact h.owned m' hm'

/-- The leaf was there, and is repaired if its mode has drifted. -/
theorem Along.repaired (ht : Tree s₀.toFiles) (h : Along euid s₀ existing [] i s) {n : Node}
    (hn : s.node i = some n) (htype : n.type = .directory) (huid : n.uid = euid)
    (hrepair : s'.node = (if n.mode = privateDirectoryMode then s
      else (s.setMode i privateDirectoryMode).note (.fsync i)).node)
    (hentries : s'.entries = s.entries)
    (hlog : s'.log = (if n.mode = privateDirectoryMode then s
      else (s.setMode i privateDirectoryMode).note (.fsync i)).log) :
    Walked euid s₀ existing s' existing [] i := by
  have hresolved : s.resolve existing = some i := by simpa using h.resolved
  have hnode₀ : ∀ j, s.node j = s₀.node j := fun j => h.nodes j fun _ hm => by cases hm
  have hother : ∀ j, j ≠ i → s'.node j = s.node j := by
    intro j hj
    rw [hrepair]
    split
    · rfl
    · exact Function.update_of_ne hj _ _
  have hleaf : Owned euid s' i := by
    rw [Owned, hrepair]
    split
    · rename_i hmode
      exact ⟨n, hn, htype, huid, hmode⟩
    · refine ⟨{ n with mode := privateDirectoryMode }, ?_, htype, huid, rfl⟩
      simp [Disk.setMode, Files.setMode, Disk.note, hn]
  have hgrows : Grows s.toFiles s'.toFiles := by
    refine ⟨fun d name j _ hj => by rw [hentries, hj], fun j hj => ?_⟩
    by_cases hji : j = i
    · obtain ⟨n', hn', htype', _⟩ := hleaf
      rw [hji, Files.isDirectory, hn']
      simp [htype']
    · rw [Files.isDirectory, hother j hji]
      exact hj
  have hkept : ∀ j n, s₀.node j = some n → j ≠ i → s'.node j = some n := by
    intro j n hj hji
    rw [hother j hji, hnode₀, hj]
  have hreached : s'.resolve existing = some i := hgrows.resolve hresolved
  refine ⟨by simp, ⟨hreached, fun q hq => resolve_prefix hq hreached⟩, h.existed, h.missing,
    fun _ _ _ h => by simp at h, ?_, ?_, hkept, ?_, ?_⟩
  · intro d name
    rw [hentries]
    exact h.entries d name
  · intro j hj
    rcases hj with rfl | ⟨_, hm, _⟩
    · exact hleaf
    · cases hm
  · intro q j n _ hne hq hj
    refine hkept j n hj fun heq => hne ?_
    obtain ⟨d, hd⟩ := h.existed
    have hd' : d = i := Option.some.inj ((h.grows.resolve hd).symm.trans hresolved)
    exact resolve_injective ht (heq ▸ hq) (hd' ▸ hd)
  · rw [hlog]
    split
    · exact ⟨[], by simp [h.log], .inl rfl⟩
    · refine ⟨[.fsync i], ?_, .inr ⟨rfl, rfl⟩⟩
      simp [Disk.note, Disk.setMode, Files.setMode, h.log]

end

/-! ## All steps -/

section

variable {euid : Nat} {s₀ s : Disk F} {existing : List String} {made : List Made} {i : Inode}

/-- What the handler guards: the repair if it is due, and the syncs of a new directory. -/
theorem component_ends {due created : Bool} {next current : F} {path : Path} {j : Inode} {n : Node}
    (hnext : s.handles next = some j) (hcurrent : s.handles current = some i)
    (hn : s.node j = some n) :
    (do
      if due then privatize euid next path
      persist created next current : Script F Unit).ensures Does (fun out s' => out = .ok () →
        (due = true → n.type = .directory ∧ n.uid = euid) ∧
        ∃ repaired, repaired = (if due = true ∧ n.mode ≠ privateDirectoryMode then
            (s.setMode j privateDirectoryMode).note (.fsync j) else s) ∧
          s' = if created = true then (repaired.note (.fsync j)).note (.fsync i) else repaired) s := by
  have hpersist : ∀ s₁ : Disk F, s₁.handles = s.handles →
      (persist created next current).ensures Does (fun out s' => out = .ok () →
        s' = if created = true then (s₁.note (.fsync j)).note (.fsync i) else s₁) s₁ := by
    intro s₁ hsame
    refine Prog.ensures_mono (persist_syncs (hsame ▸ hnext) (hsame ▸ hcurrent)) ?_
    exact fun _ _ h => h.2
  cases due with
  | false =>
    refine Prog.ensures_mono (hpersist s rfl) ?_
    intro out s' h hok
    exact ⟨(fun h => by cases h), s, by simp, h hok⟩
  | true =>
    refine Prog.ensures_bind _ (privatize_repairs hnext hn) ?_ ?_
    · intro _ s₁ h
      obtain ⟨htype, huid, hrepaired⟩ := h.2 rfl
      have hsame : s₁.handles = s.handles := by
        rw [hrepaired]
        split <;> rfl
      refine Prog.ensures_mono (hpersist s₁ hsame) ?_
      intro out s' h hok
      refine ⟨fun _ => ⟨htype, huid⟩, s₁, ?_, h hok⟩
      rw [hrepaired]
      by_cases hmode : n.mode = privateDirectoryMode
      · simp [hmode]
      · simp [hmode]
    · intro e s₁ _ h
      cases h

/-- The handler raises. -/
theorem handler_raises {next current : F} {e : Raised} {Q : Except (F × Raised) F → Disk F → Prop}
    (hQ : ∀ e s', Q (.error e) s') :
    ((raiseClosing .component next e : Script F F).settle fun
      | .ok fd => .pure fd
      | .error e' => .fail (current, e') : Prog (Call F) Reply (F × Raised) F).ensures Does Q s := by
  intro r s₁ _
  cases r with
  | ok _ => exact hQ _ _
  | error e' => exact hQ _ _

theorem walk_returns (ht : Tree s₀.toFiles) {create : Bool} (rest : List String) (hrest : rest ≠ [])
    {current : F} {path : Path} {privateChain : Bool} (hcurrent : s.handles current = some i)
    (h : Along euid s₀ existing made i s) (hchain : privateChain = true ↔ made ≠ []) :
    (walk euid create current path privateChain rest).ensures Does (fun out s' => ∀ fd,
      out = .ok fd → ∃ existing' made' leaf, Walked euid s₀ (existing ++ made.map Made.name ++ rest)
        s' existing' made' leaf ∧ s'.handles fd = some leaf) s := by
  induction rest generalizing current path privateChain existing made i s with
  | nil => exact absurd rfl hrest
  | cons component rest ih =>
    rw [walk]
    refine (Prog.ensures_settle _ _ _ _).mpr (Prog.ensures_mono
      (openOrCreateDirectory_enters hcurrent) ?_)
    intro out s₁ hentered
    match out with
    | .error e => exact fun _ h => by cases h
    | .ok found =>
      obtain ⟨hfree, j, hentered⟩ := hentered
      cases hentered with
      | existing next j hentry hj =>
        have hnil : made = [] := by
          by_contra hmade
          rw [h.empty ht hmade component] at hentry
          cases hentry
        subst hnil
        have hopen : privateChain = false := by simpa using hchain
        subst hopen
        have hne : next ≠ current := by
          intro heq
          rw [heq, hcurrent] at hfree
          cases hfree
        obtain ⟨n, hn, htype⟩ : ∃ n, s.node j = some n ∧ n.type = .directory := by
          simpa [Files.isDirectory, Option.any_eq_true] using hj
        refine (Prog.ensures_settle _ _ _ _).mpr (Prog.ensures_mono (component_ends (j := j) (i := i)
          (n := n) (by simp [Disk.pin]) (by simp [Disk.pin, hne.symm, hcurrent]) hn) ?_)
        intro out s₂ hended
        cases out with
        | error e => exact handler_raises fun _ _ _ h => by cases h
        | ok _ =>
          obtain ⟨hdue, _, hrepaired, rfl⟩ := hended rfl
          intro r s₃ hclosed
          obtain rfl : s₃ = _ := hclosed
          cases r with
          | error e => exact fun _ h => by cases h
          | ok _ =>
            cases rest with
            | nil =>
              obtain ⟨htype, huid⟩ := hdue rfl
              intro fd hfd
              cases hfd
              have halong : Along euid s₀ (existing ++ [component]) [] j (s.pin next j) :=
                h.descend hentry hj rfl rfl rfl
              refine ⟨existing ++ [component], [], j, ?_, ?_⟩
              · have hwalked : Walked euid s₀ (existing ++ [component]) (s₂.release current)
                    (existing ++ [component]) [] j := by
                  refine halong.repaired ht hn htype huid ?_ ?_ ?_
                  · rw [hrepaired]
                    by_cases hmode : n.mode = privateDirectoryMode <;> simp [Disk.release, hmode]
                  · rw [hrepaired]
                    split <;> rfl
                  · rw [hrepaired]
                    by_cases hmode : n.mode = privateDirectoryMode <;> simp [Disk.release, hmode]
                simpa using hwalked
              · have hhandle : s₂.handles next = some j := by
                  rw [hrepaired]
                  split <;> simp [Disk.note, Disk.setMode, Files.setMode, Disk.pin]
                simp [Disk.release, hne, hhandle]
            | cons component' rest =>
              have hsame : s₂ = s.pin next j := by
                rw [hrepaired]
                exact if_neg fun h => by cases h.1
              rw [hsame]
              have hnext : ((s.pin next j).release current).handles next = some j := by
                simp [Disk.release, Disk.pin, hne]
              have halong : Along euid s₀ (existing ++ [component]) []
                  j ((s.pin next j).release current) := h.descend hentry hj rfl rfl rfl
              refine Prog.ensures_mono (ih (List.cons_ne_nil _ _) hnext halong (by simp)) ?_
              intro out s' hends fd hfd
              simpa using hends fd hfd
      | created next j n hentry hfresh htype hmode =>
        have hne : next ≠ current := by
          intro heq
          rw [heq, hcurrent] at hfree
          cases hfree
        refine (Prog.ensures_settle _ _ _ _).mpr (Prog.ensures_mono (component_ends (j := j) (i := i)
          (n := n) (by simp [Disk.pin]) (by simp [Disk.pin, Disk.make, Files.make, Disk.note, hne.symm, hcurrent])
          (by simp [Disk.pin, Disk.make, Files.make, Disk.note])) ?_)
        intro out s₂ hended
        cases out with
        | error e => exact handler_raises fun _ _ _ h => by cases h
        | ok _ =>
          obtain ⟨hdue, s₂', hrepaired, rfl⟩ := hended rfl
          obtain ⟨_, huid⟩ := hdue (by simp)
          have hsame : s₂' = (s.make ⟨i, component, j⟩ n).pin next j := by
            rw [hrepaired]
            exact if_neg fun h => h.2 hmode
          rw [hsame]
          intro r s₃ hclosed
          obtain rfl : s₃ = _ := hclosed
          cases r with
          | error e => exact fun _ h => by cases h
          | ok _ =>
            have halong : Along euid s₀ existing (made ++ [⟨i, component, j⟩]) j
                (((((s.make ⟨i, component, j⟩ n).pin next j).note
                  (.fsync j)).note (.fsync i)).release current) := by
              refine h.create hentry hfresh htype huid hmode rfl rfl ?_
              simp [Disk.release, Disk.note, Disk.pin, Disk.make, Files.make, Made.events]
            have hhandle : (((((s.make ⟨i, component, j⟩ n).pin next j).note
                (.fsync j)).note (.fsync i)).release current).handles next = some j := by
              simp [Disk.release, Disk.note, Disk.pin, hne]
            cases rest with
            | nil =>
              intro fd hfd
              cases hfd
              refine ⟨existing, made ++ [⟨i, component, j⟩], j, ?_, hhandle⟩
              simpa using halong.walked (by simp)
            | cons component' rest =>
              refine Prog.ensures_mono (ih (List.cons_ne_nil _ _) hhandle halong (by simp)) ?_
              intro out s' hends fd hfd
              simpa using hends fd hfd

/-! ## Refused paths -/

/-- A component below `d` that is there is no directory, or is the leaf and somebody else's. -/
def BlockedFrom (euid : Nat) (s : Disk F) : Inode → List String → Prop
  | _, [] => False
  | d, name :: rest => ∃ i, s.entries d name = some i ∧ (s.isDirectory i = false ∨
      (rest = [] ∧ ∃ n, s.node i = some n ∧ n.uid ≠ euid) ∨
      s.isDirectory i = true ∧ BlockedFrom euid s i rest)

/-- The same on the path: a symlink or a file along it, or a leaf with a foreign owner. -/
def Blocked (euid : Nat) (s : Disk F) (path : Path) : Prop :=
  ∃ p name rest d i, path = p ++ name :: rest ∧ s.resolve p = some d ∧ s.entries d name = some i ∧
    (s.isDirectory i = false ∨ rest = [] ∧ ∃ n, s.node i = some n ∧ n.uid ≠ euid)

omit [DecidableEq F] in
theorem blockedFrom_root {path : Path} (h : Blocked euid s path) :
    BlockedFrom euid s root path := by
  obtain ⟨p, name, rest, d, i, rfl, hp, hentry, hblocked⟩ := h
  have hfrom : ∀ (p : List String) (d₀ : Inode), s.resolveFrom d₀ p = some d →
      BlockedFrom euid s d₀ (p ++ name :: rest) := by
    intro p
    induction p with
    | nil =>
      intro d₀ hd
      cases hd
      exact ⟨i, hentry, hblocked.imp id .inl⟩
    | cons c p ih =>
      intro d₀ hd
      rw [Files.resolveFrom] at hd
      cases hc : s.entries d₀ c with
      | none =>
        rw [hc] at hd
        cases hd
      | some j =>
        rw [hc] at hd
        dsimp only at hd
        split at hd
        · rename_i hj
          exact ⟨j, hc, .inr (.inr ⟨hj, ih j hd⟩)⟩
        · cases hd
  unfold Files.resolve at hp
  split at hp
  · exact hfrom p root hp
  · cases hp

/-- Nothing in the tree has changed, and nothing was synced. -/
structure Unchanged (s s' : Disk F) : Prop where
  node : s'.node = s.node
  entries : s'.entries = s.entries
  log : s'.log = s.log

omit [DecidableEq F] in
theorem Unchanged.trans {s s' s'' : Disk F} (h : Unchanged s s') (h' : Unchanged s' s'') :
    Unchanged s s'' :=
  ⟨h'.node.trans h.node, h'.entries.trans h.entries, h'.log.trans h.log⟩

omit [DecidableEq F] in
theorem BlockedFrom.unchanged {s s' : Disk F} (hsame : Unchanged s s') (rest : List String)
    {d : Inode} (h : BlockedFrom euid s d rest) : BlockedFrom euid s' d rest := by
  induction rest generalizing d with
  | nil => exact h
  | cons name rest ih =>
    obtain ⟨i, hentry, hblocked⟩ := h
    have hdirectory : s'.isDirectory i = s.isDirectory i := by
      rw [Files.isDirectory, Files.isDirectory, hsame.node]
    refine ⟨i, by rw [hsame.entries, hentry], ?_⟩
    rw [hdirectory, hsame.node]
    exact hblocked.imp id (.imp id fun h => ⟨h.1, ih h.2⟩)

theorem walk_refused {create : Bool} (rest : List String) {current : F} {path : Path}
    (hcurrent : s.handles current = some i) (h : BlockedFrom euid s i rest) :
    (walk euid create current path false rest).ensures Does
      (fun out s' => (∃ e, out = .error e) ∧ Unchanged s s') s := by
  induction rest generalizing current path i s with
  | nil => exact h.elim
  | cons component rest ih =>
    obtain ⟨j, hentry, hblocked⟩ := h
    rw [walk]
    refine (Prog.ensures_settle _ _ _ _).mpr (Prog.ensures_mono
      (openOrCreateDirectory_enters hcurrent) ?_)
    intro out s₁ hentered
    match out with
    | .error e =>
      obtain rfl := hentered (by rw [hentry]; rfl)
      exact ⟨⟨_, rfl⟩, rfl, rfl, rfl⟩
    | .ok found =>
      obtain ⟨hfree, k, hentered⟩ := hentered
      cases hentered with
      | created next k n hmissing _ _ _ =>
        rw [hentry] at hmissing
        cases hmissing
      | existing next k hentry' hj =>
        rw [hentry] at hentry'
        cases hentry'
        have hne : next ≠ current := by
          intro heq
          rw [heq, hcurrent] at hfree
          cases hfree
        rcases hblocked with hno | ⟨rfl, n, hn, howner⟩ | ⟨_, hbelow⟩
        · rw [hno] at hj
          cases hj
        · refine (Prog.ensures_settle _ _ _ _).mpr (Prog.ensures_mono
            (Q := fun out s' => (∃ e, out = .error e) ∧ s' = s.pin next j) ?_ ?_)
          · have hpinned : (s.pin next j).handles next = some j := by simp [Disk.pin]
            refine Prog.ensures_bind _ (privatize_repairs hpinned hn) ?_ ?_
            · intro _ s₂ h
              obtain ⟨⟨_, heq⟩, _⟩ := h.1 howner
              cases heq
            · intro e s₂ h
              exact ⟨⟨e, rfl⟩, (h.1 howner).2⟩
          · intro out s₂ h
            obtain ⟨⟨e, rfl⟩, rfl⟩ := h
            intro r s₃ hclosed
            obtain rfl : s₃ = _ := hclosed
            cases r with
            | ok _ => exact ⟨⟨_, rfl⟩, rfl, rfl, rfl⟩
            | error e' => exact ⟨⟨_, rfl⟩, rfl, rfl, rfl⟩
        · have hmore : rest.isEmpty = false := by
            cases rest with
            | nil => exact hbelow.elim
            | cons => rfl
          rw [hmore]
          intro r s₂ hclosed
          obtain rfl : s₂ = _ := hclosed
          cases r with
          | error e => exact ⟨⟨_, rfl⟩, rfl, rfl, rfl⟩
          | ok _ =>
            have hsame : Unchanged s ((s.pin next j).release current) := ⟨rfl, rfl, rfl⟩
            have hnext : ((s.pin next j).release current).handles next = some j := by
              simp [Disk.release, Disk.pin, hne]
            refine Prog.ensures_mono (ih hnext (hbelow.unchanged hsame rest)) ?_
            intro out s' h
            exact ⟨h.1, hsame.trans h.2⟩

end

/-! ## The function -/

section

variable {s : Disk F} {path : Path}

/-- Closing what is held changes nothing else. -/
theorem raiseClosing_unchanged {s₀ : Disk F} {α : Type} {fd : F} {e : Raised}
    (h : Unchanged s₀ s) : (raiseClosing .walk fd e : Script F α).ensures Does
      (fun out s' => (∃ e, out = .error e) ∧ Unchanged s₀ s') s := by
  intro r s' hclosed
  obtain rfl : s' = s.release fd := hclosed
  cases r with
  | ok _ => exact ⟨⟨_, rfl⟩, h.node, h.entries, h.log⟩
  | error e' => exact ⟨⟨_, rfl⟩, h.node, h.entries, h.log⟩

theorem open_refused {P : Platform} {create : Bool} (h : Blocked P.euid s path) :
    (openPrivateDirectory P path create : Script F (PrivateDirectory F)).ensures Does
      (fun out s' => (∃ e, out = .error e) ∧ Unchanged s s') s := by
  unfold openPrivateDirectory
  split
  · exact ⟨⟨_, rfl⟩, rfl, rfl, rfl⟩
  split
  · exact ⟨⟨_, rfl⟩, rfl, rfl, rfl⟩
  intro r s₁ hopened
  cases r with
  | error exc =>
    obtain rfl : s₁ = s := hopened
    refine Prog.ensures_mono reraise_same ?_
    intro out s' hsame
    obtain ⟨hraised, rfl⟩ := hsame
    exact ⟨hraised, rfl, rfl, rfl⟩
  | ok fd =>
    obtain ⟨_, _, rfl⟩ := hopened
    have hpinned : Unchanged s (s.pin fd root) := ⟨rfl, rfl, rfl⟩
    have hbelow := (blockedFrom_root h).unchanged hpinned path
    refine (Prog.ensures_settle _ _ _ _).mpr (Prog.ensures_mono
      (walk_refused path (by simp [Disk.pin]) hbelow) ?_)
    intro out s₂ hend
    obtain ⟨⟨e, rfl⟩, hsame⟩ := hend
    exact raiseClosing_unchanged ⟨hsame.node, hsame.entries, hsame.log⟩

theorem open_returns {P : Platform} {create : Bool} (ht : Tree s.toFiles) :
    (openPrivateDirectory P path create : Script F (PrivateDirectory F)).ensures Does
      (fun out s' => ∀ d, out = .ok d → d.path = path ∧ ∃ existing made leaf,
        Walked P.euid s path s' existing made leaf ∧ s'.handles d.fd = some leaf) s := by
  unfold openPrivateDirectory
  split
  · intro d h
    cases h
  split
  · intro d h
    cases h
  rename_i hpath
  intro r s₁ hopened
  cases r with
  | error exc =>
    refine Prog.ensures_mono reraise_same ?_
    intro out s' hraised d hd
    obtain ⟨⟨e, rfl⟩, _⟩ := hraised
    cases hd
  | ok fd =>
    obtain ⟨hroot, _, rfl⟩ := hopened
    have halong : Along P.euid s [] [] root (s.pin fd root) := .start hroot rfl rfl rfl
    refine (Prog.ensures_settle _ _ _ _).mpr (Prog.ensures_mono
      (walk_returns ht path hpath (by simp [Disk.pin]) halong (by simp)) ?_)
    intro out s₂ hend
    cases out with
    | ok leafFd =>
      intro d hd
      cases hd
      exact ⟨rfl, hend leafFd rfl⟩
    | error e =>
      intro r s₃ _
      cases r with
      | ok _ => exact fun d hd => by cases hd
      | error e' => exact fun d hd => by cases hd

/-- **The private walk.** It returns with every component a real directory, the missing suffix
and nothing else created and synced, and what it should be private private; a blocked path is
refused, and nothing is changed. -/
theorem private_walk_exact (P : Platform) (path : Path) (create : Bool) (s : Disk F)
    (ht : Tree s.toFiles) :
    (openPrivateDirectory P path create : Script F (PrivateDirectory F)).ensures Does
      (fun out s' =>
        (∀ d, out = .ok d → d.path = path ∧ ∃ existing made leaf,
          Walked P.euid s path s' existing made leaf ∧ s'.handles d.fd = some leaf) ∧
        (Blocked P.euid s path → (∃ e, out = .error e) ∧ Unchanged s s')) s := by
  by_cases hblocked : Blocked P.euid s path
  · refine Prog.ensures_mono (open_refused hblocked) ?_
    intro out s' h
    refine ⟨fun d hd => ?_, fun _ => h⟩
    obtain ⟨⟨e, rfl⟩, _⟩ := h
    cases hd
  · refine Prog.ensures_mono (open_returns ht) ?_
    intro out s' h
    exact ⟨h, fun hb => absurd hb hblocked⟩

end

/-! Root directories with one entry: a directory below which two components are missing, and a
symlink. -/

def single (name : String) (child : Node) : Disk Nat where
  node
    | 0 => some ⟨.directory, 0, 0o755⟩
    | 1 => some child
    | _ => none
  entries d name' := if d = 0 ∧ name' = name then some 1 else none
  handles _ := none
  log := []

theorem single_tree (name : String) (child : Node) : Tree (single name child).toFiles where
  unique d d' name₁ name₂ i _ h h' := by
    simp only [single, Option.ite_none_right_eq_some] at h h'
    obtain ⟨⟨rfl, rfl⟩, _⟩ := h
    exact ⟨h'.1.1.symm, h'.1.2.symm⟩
  rooted d name h := by
    simp only [single, Option.ite_none_right_eq_some] at h
    obtain ⟨_, h⟩ := h
    cases h
  absent d name h := by
    cases d with
    | zero => simp [single] at h
    | succ d => simp [single]

def served : Disk Nat := single "srv" ⟨.directory, 0, 0o755⟩

def linked : Disk Nat := single "link" ⟨.symlink, 0, 0o777⟩

theorem served_walk : (openPrivateDirectory ⟨true, 1000⟩ ["srv", "app", "private"] true :
    Script Nat (PrivateDirectory Nat)).allows Does
      (fun out s' => out = .ok ⟨["srv", "app", "private"], 3, false⟩ ∧
        s'.log = [.mkdir ⟨1, "app", 2⟩, .fsync 2, .fsync 1,
          .mkdir ⟨2, "private", 3⟩, .fsync 3, .fsync 2]) served := by
  refine Prog.allows_exec (.ok 0) ⟨rfl, rfl, rfl⟩ ?_
  refine Prog.allows_exec (.ok 1) ⟨_, _, rfl, rfl, rfl, rfl, rfl⟩ ?_
  refine Prog.allows_exec (.ok ()) rfl ?_
  -- `app` is missing
  refine Prog.allows_exec (.error .noEntry) ⟨rfl, fun _ d hd => by cases hd; rfl⟩ ?_
  refine Prog.allows_exec (.ok ()) ⟨1, 2, ⟨.directory, 1000, 0o700⟩, rfl, rfl, rfl, rfl, rfl⟩ ?_
  refine Prog.allows_exec (.ok ()) ⟨_, _, rfl, rfl, rfl⟩ ?_
  refine Prog.allows_exec (.ok 2) ⟨_, _, rfl, rfl, rfl, rfl, rfl⟩ ?_
  refine Prog.allows_exec (.ok ⟨.directory, 1000, 0o700, 2⟩) ⟨rfl, _, _, rfl, rfl, rfl, rfl, rfl⟩ ?_
  refine Prog.allows_exec (.ok ()) ⟨_, rfl, rfl⟩ ?_
  refine Prog.allows_exec (.ok ()) ⟨_, rfl, rfl⟩ ?_
  refine Prog.allows_exec (.ok ()) rfl ?_
  -- and so is `private`
  refine Prog.allows_exec (.error .noEntry) ⟨rfl, fun _ d hd => by cases hd; rfl⟩ ?_
  refine Prog.allows_exec (.ok ()) ⟨2, 3, ⟨.directory, 1000, 0o700⟩, rfl, rfl, rfl, rfl, rfl⟩ ?_
  refine Prog.allows_exec (.ok ()) ⟨_, _, rfl, rfl, rfl⟩ ?_
  refine Prog.allows_exec (.ok 3) ⟨_, _, rfl, rfl, rfl, rfl, rfl⟩ ?_
  refine Prog.allows_exec (.ok ⟨.directory, 1000, 0o700, 2⟩) ⟨rfl, _, _, rfl, rfl, rfl, rfl, rfl⟩ ?_
  refine Prog.allows_exec (.ok ()) ⟨_, rfl, rfl⟩ ?_
  refine Prog.allows_exec (.ok ()) ⟨_, rfl, rfl⟩ ?_
  refine Prog.allows_exec (.ok ()) rfl ?_
  exact ⟨rfl, rfl⟩

theorem private_walk_exact_sample :
    (openPrivateDirectory ⟨true, 1000⟩ ["srv", "app", "private"] true :
      Script Nat (PrivateDirectory Nat)).allows Does
      (fun out s' => ∃ d, out = .ok d ∧
        s'.log = [.mkdir ⟨1, "app", 2⟩, .fsync 2, .fsync 1,
          .mkdir ⟨2, "private", 3⟩, .fsync 3, .fsync 2] ∧
        ∃ existing made leaf, Walked 1000 served ["srv", "app", "private"] s' existing made leaf ∧
          s'.handles d.fd = some leaf) served ∧
    Blocked 1000 linked ["link", "private"] ∧
    (openPrivateDirectory ⟨true, 1000⟩ ["link", "private"] true :
      Script Nat (PrivateDirectory Nat)).ensures Does
      (fun out s' => (∃ e, out = .error e) ∧ Unchanged linked s') linked := by
  have hblocked : Blocked 1000 linked ["link", "private"] :=
    ⟨[], "link", ["private"], 0, 1, rfl, rfl, by simp [linked, single], .inl rfl⟩
  have hserved := private_walk_exact ⟨true, 1000⟩ ["srv", "app", "private"] true served
    (single_tree _ _)
  have hlinked := private_walk_exact ⟨true, 1000⟩ ["link", "private"] true linked (single_tree _ _)
  refine ⟨?_, hblocked, ?_⟩
  · refine Prog.allows_mono (Prog.ensures_allows hserved served_walk) ?_
    rintro out s' ⟨⟨hreturned, _⟩, hout, hlog⟩
    exact ⟨_, hout, hlog, (hreturned _ hout).2⟩
  · exact Prog.ensures_mono hlinked fun out s' h => h.2 hblocked

end DrStore.LocalFs.Walk
