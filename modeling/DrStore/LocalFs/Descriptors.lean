import DrStore.LocalFs.PrivateFiles
import Mathlib.Logic.Function.Basic
import Mathlib.Data.List.Basic

/-! # Descriptors (localfs/_fs.py)

Any system call may fail, and a failing close releases its descriptor all the same. The kernel gives
a number that is not in use; it may be one that was closed before. -/
namespace DrStore.LocalFs.Descriptors
open DrStore.Base.Programs DrStore.LocalFs.PrivateFiles

variable {F : Type}

/-! ## The table -/

/-- What is open, whether something was closed that was not, and the calls that failed. -/
structure Table (F : Type) where
  opened : F → Bool
  misclosed : Bool
  failed : List (Call F)

def isError {α : Type} : Except Errno α → Bool
  | .ok _ => false
  | .error _ => true

def refused : (op : Call F) → Reply op → Bool
  | .openRoot, r => isError r
  | .openDirectory _ _, r => isError r
  | .mkdir _ _ _, r => isError r
  | .chmod _ _ _, r => isError r
  | .lstat _, r => isError r
  | .fstat _, r => isError r
  | .fchmod _ _, r => isError r
  | .fsync _, r => isError r
  | .openRegular _ _ _ _, r => isError r
  | .ftruncate _, r => isError r
  | .flock _ _, r => isError r
  | .unlock _, r => isError r
  | .replace _ _ _, r => isError r
  | .unlink _ _, r => isError r
  | .close _ _, r => isError r

/-- The descriptor that a call opens, or the one that it closes. -/
def opens : (op : Call F) → Reply op → Option F
  | .openRoot, .ok fd => some fd
  | .openDirectory _ _, .ok fd => some fd
  | .openRegular _ _ _ _, .ok fd => some fd
  | _, _ => none

def closes : Call F → Option F
  | .close _ fd => some fd
  | _ => none

variable [DecidableEq F]

/-- Any call may fail. -/
structure Does (s : Table F) (op : Call F) (r : Reply op) (s' : Table F) : Prop where
  failed : s'.failed = if refused op r then op :: s.failed else s.failed
  fresh : ∀ fd, opens op r = some fd → s.opened fd = false
  opened : s'.opened = match opens op r, closes op with
    | some fd, _ => Function.update s.opened fd true
    | none, some fd => Function.update s.opened fd false
    | none, none => s.opened
  misclosed : s'.misclosed = (s.misclosed || (closes op).any fun fd => !s.opened fd)

/-- The close of a parent that the walk has left failed, or that of a lock file not locked. -/
def Slipped (s : Table F) : Prop :=
  ∃ fd, .close .handOver fd ∈ s.failed ∨ .close .lockEnter fd ∈ s.failed

/-- Just these are open, and nothing has gone wrong. -/
structure Has (opened : F → Bool) (s : Table F) : Prop where
  opened : s.opened = opened
  misclosed : s.misclosed = false
  unslipped : ¬ Slipped s

variable {o : F → Bool} {s s' : Table F}

def slipSite : Call F → Bool
  | .close .handOver _ => true
  | .close .lockEnter _ => true
  | _ => false

/-- Only two of the closes matter. -/
theorem Does.slipped {op : Call F} {r : Reply op} (h : Does s op r s')
    (hop : slipSite op = false ∨ refused op r = false) (hs : ¬ Slipped s) : ¬ Slipped s' := by
  intro hslipped
  obtain ⟨fd, hfd⟩ := hslipped
  rw [h.failed] at hfd
  split at hfd
  · rename_i hrefused
    have hsite := hop.resolve_right (by simp [hrefused])
    rcases hfd with hfd | hfd
    · rcases List.mem_cons.mp hfd with heq | hfd
      · rw [← heq] at hsite
        cases hsite
      · exact hs ⟨fd, .inl hfd⟩
    · rcases List.mem_cons.mp hfd with heq | hfd
      · rw [← heq] at hsite
        cases hsite
      · exact hs ⟨fd, .inr hfd⟩
  · exact hs ⟨fd, hfd⟩

/-- A call that neither opens nor closes. -/
theorem Has.call (hs : Has o s) {op : Call F} {r : Reply op} (h : Does s op r s')
    (hopens : opens op r = none) (hcloses : closes op = none) : Has o s' := by
  refine ⟨?_, ?_, h.slipped (.inl ?_) hs.unslipped⟩
  · rw [h.opened, hopens, hcloses]
    exact hs.opened
  · rw [h.misclosed, hcloses, hs.misclosed]
    rfl
  · cases op with
    | close site fd => cases hcloses
    | _ => rfl

theorem Has.openedBy (hs : Has o s) {op : Call F} {r : Reply op} {fd : F} (h : Does s op r s')
    (hopens : opens op r = some fd) (hcloses : closes op = none) :
    o fd = false ∧ Has (Function.update o fd true) s' := by
  refine ⟨hs.opened ▸ h.fresh fd hopens, ?_, ?_, h.slipped (.inl ?_) hs.unslipped⟩
  · rw [h.opened, hopens, hs.opened]
  · rw [h.misclosed, hcloses, hs.misclosed]
    rfl
  · cases op with
    | close site fd => cases hcloses
    | _ => rfl

theorem Has.closed {site : CloseSite} {fd : F} {r : Reply (.close site fd)}
    (hs : Has (Function.update o fd true) s) (hfd : o fd = false) (h : Does s (.close site fd) r s')
    (hsite : slipSite (.close site fd) = false ∨ refused (.close site fd) r = false) :
    Has o s' := by
  have hback : Function.update (Function.update o fd true) fd false = o := by
    rw [Function.update_idem, ← hfd, Function.update_eq_self]
  refine ⟨?_, ?_, h.slipped hsite hs.unslipped⟩
  · have hnone : opens (.close site fd) r = none := rfl
    rw [h.opened, hnone, hs.opened]
    exact hback
  · rw [h.misclosed, hs.misclosed, hs.opened]
    simp [closes]

/-- After the slip, the descriptor is closed, and closing it again closes it twice. -/
theorem Does.slips {site : CloseSite} {fd : F} {r : Reply (.close site fd)}
    (h : Does s (.close site fd) r s') (hsite : site = .handOver ∨ site = .lockEnter)
    (hr : refused (.close site fd) r = true) : Slipped s' ∧ s'.opened fd = false := by
  refine ⟨⟨fd, ?_⟩, ?_⟩
  · rw [h.failed, if_pos hr]
    rcases hsite with rfl | rfl
    · exact .inl List.mem_cons_self
    · exact .inr List.mem_cons_self
  · have hnone : opens (.close site fd) r = none := rfl
    rw [h.opened, hnone]
    exact Function.update_self ..

theorem Does.stillSlipped {op : Call F} {r : Reply op} (h : Does s op r s') (hs : Slipped s) :
    Slipped s' := by
  obtain ⟨fd, hfd⟩ := hs
  refine ⟨fd, ?_⟩
  rw [h.failed]
  split
  · exact hfd.imp (List.mem_cons_of_mem _) (List.mem_cons_of_mem _)
  · exact hfd

/-! ## Scripts that open nothing -/

variable {α : Type}

theorem reraise_has {exc : Errno} {path : Path} {type : FileType} {place : Option (F × String)}
    (hs : Has o s) : (reraiseOpenPolicy exc path type place : Script F α).ensures Does
      (fun out s' => (∃ e, out = .error e) ∧ Has o s') s := by
  unfold reraiseOpenPolicy
  split
  · exact ⟨⟨_, rfl⟩, hs⟩
  · intro r s' h
    have hs' := hs.call h rfl rfl
    cases r with
    | error e => exact ⟨⟨_, rfl⟩, hs'⟩
    | ok status =>
      dsimp only
      split
      · exact ⟨⟨_, rfl⟩, hs'⟩
      split
      · exact ⟨⟨_, rfl⟩, hs'⟩
      · exact ⟨⟨_, rfl⟩, hs'⟩

theorem validate_has {euid : Nat} {fd : F} {path : Path} {type : FileType} (hs : Has o s) :
    (validateOwnedDescriptor euid fd path type).ensures Does (fun _ s' => Has o s') s := by
  intro r s' h
  have hs' := hs.call h rfl rfl
  cases r with
  | error e => exact hs'
  | ok status =>
    show Prog.ensures Does (ite _ _ _) _ _
    split
    · exact hs'
    split
    · exact hs'
    split
    · exact hs'
    · exact hs'

theorem privatize_has {euid : Nat} {fd : F} {path : Path} (hs : Has o s) :
    (privatize euid fd path).ensures Does (fun _ s' => Has o s') s := by
  refine Prog.ensures_bind (fun _ s' => Has o s') (validate_has hs) ?_ (fun _ _ h => h)
  intro status s₁ h₁
  split
  · intro r s₂ h
    have h₂ := h₁.call h rfl rfl
    cases r with
    | error e => exact h₂
    | ok _ =>
      intro r s₃ h
      have h₃ := h₂.call h rfl rfl
      cases r with
      | error e => exact h₃
      | ok _ => exact h₃
  · exact h₁

theorem persist_has {created : Bool} {child parent : F} (hs : Has o s) :
    (persist created child parent).ensures Does (fun _ s' => Has o s') s := by
  unfold persist
  split
  · intro r s₁ h
    have h₁ := hs.call h rfl rfl
    cases r with
    | error e => exact h₁
    | ok _ =>
      intro r s₂ h
      have h₂ := h₁.call h rfl rfl
      cases r with
      | error e => exact h₂
      | ok _ => exact h₂
  · exact hs

/-! ## Scripts that open one descriptor -/

/-- The descriptor that is returned is open beside what was, and on a failure none is. -/
def OpensOne (o : F → Bool) (fd : α → F) (out : Except Raised α) (s' : Table F) : Prop :=
  match out with
  | .ok a => o (fd a) = false ∧ Has (Function.update o (fd a) true) s'
  | .error _ => Has o s'

theorem opensOne_of_error {fd : α → F} {out : Except Raised α}
    (h : (∃ e, out = .error e) ∧ Has o s') : OpensOne o fd out s' := by
  obtain ⟨⟨e, rfl⟩, hs⟩ := h
  exact hs

theorem reopenDirectory_opens {parent : F} {name : String} {path : Path} {created : Bool}
    (hs : Has o s) : (reopenDirectory parent name path created).ensures Does
      (OpensOne o fun found => found.1) s := by
  intro r s' h
  cases r with
  | ok fd => exact hs.openedBy h rfl rfl
  | error e =>
    exact Prog.ensures_mono (reraise_has (hs.call h rfl rfl)) fun _ _ h => opensOne_of_error h

theorem openOrCreateDirectory_opens {parent : F} {name : String} {path : Path} {create : Bool}
    (hs : Has o s) : (openOrCreateDirectory parent name path create).ensures Does
      (OpensOne o fun found => found.1) s := by
  intro r s₁ h
  match r with
  | .ok fd => exact hs.openedBy h rfl rfl
  | .error .noEntry =>
    have hs₁ := hs.call h rfl rfl
    show Prog.ensures Does (ite _ _ _) _ _
    split
    · exact hs₁
    intro r s₂ h
    have hs₂ := hs₁.call h rfl rfl
    match r with
    | .ok _ =>
      intro r s₃ h
      have hs₃ := hs₂.call h rfl rfl
      cases r with
      | ok _ => exact reopenDirectory_opens hs₃
      | error e => exact hs₃
    | .error .exists => exact reopenDirectory_opens hs₂
    | .error .noEntry => exact hs₂
    | .error .loop => exact hs₂
    | .error .other => exact hs₂
  | .error .exists =>
    exact Prog.ensures_mono (reraise_has (hs.call h rfl rfl)) fun _ _ h => opensOne_of_error h
  | .error .loop =>
    exact Prog.ensures_mono (reraise_has (hs.call h rfl rfl)) fun _ _ h => opensOne_of_error h
  | .error .other =>
    exact Prog.ensures_mono (reraise_has (hs.call h rfl rfl)) fun _ _ h => opensOne_of_error h

/-- The handler of a descriptor that nothing has closed yet. -/
theorem raiseClosing_has {site : CloseSite} {fd : F} {e : Raised} (hfd : o fd = false)
    (hsite : slipSite (.close site fd) = false) (hs : Has (Function.update o fd true) s) :
    (raiseClosing site fd e : Script F α).ensures Does
      (fun out s' => (∃ e, out = .error e) ∧ Has o s') s := by
  intro r s' h
  have hs' := hs.closed hfd h (.inl hsite)
  cases r with
  | ok _ => exact ⟨⟨_, rfl⟩, hs'⟩
  | error e' => exact ⟨⟨_, rfl⟩, hs'⟩

/-! ## The walk -/

/-- With what the loop leaves to its handler: `current_fd`, open unless a slip has closed it. -/
def WalkEnds (o : F → Bool) (out : Except (F × Raised) F) (s' : Table F) : Prop :=
  match out with
  | .ok fd => o fd = false ∧ Has (Function.update o fd true) s'
  | .error (current, _) => (o current = false ∧ Has (Function.update o current true) s') ∨
      Slipped s' ∧ s'.opened current = false

/-- From one component to the next, one descriptor is open beside what was. -/
theorem walk_ends {euid : Nat} {create : Bool} (rest : List String) {current : F} {path : Path}
    {privateChain : Bool} (hcurrent : o current = false)
    (hs : Has (Function.update o current true) s) :
    (walk euid create current path privateChain rest).ensures Does (WalkEnds o) s := by
  induction rest generalizing current path privateChain s with
  | nil => exact ⟨hcurrent, hs⟩
  | cons component rest ih =>
    rw [walk]
    refine (Prog.ensures_settle _ _ _ _).mpr (Prog.ensures_mono (openOrCreateDirectory_opens hs) ?_)
    intro out s₁ h
    match out with
    | .error e => exact .inl ⟨hcurrent, h⟩
    | .ok (next, created, wasMissing) =>
      have hopened : Function.update o current true next = false := h.1
      have h₁ : Has (Function.update (Function.update o current true) next true) s₁ := h.2
      have hne : next ≠ current := by
        intro heq
        rw [heq, Function.update_self] at hopened
        cases hopened
      have hnext : o next = false := by rwa [Function.update_of_ne hne] at hopened
      refine (Prog.ensures_settle _ _ _ _).mpr (Prog.ensures_mono
        (Q := fun _ s' => Has (Function.update (Function.update o current true) next true) s') ?_ ?_)
      · dsimp only
        split
        · refine Prog.ensures_bind (fun _ s' => Has _ s') (privatize_has h₁) ?_ (fun _ _ h => h)
          intro _ s₂ h₂
          exact persist_has h₂
        · exact persist_has h₁
      · intro out s₂ h₂
        cases out with
        | error e =>
          refine (Prog.ensures_settle _ _ _ _).mpr (Prog.ensures_mono
            (raiseClosing_has (α := F) hopened rfl h₂) ?_)
          intro out s₃ h₃
          obtain ⟨⟨e', rfl⟩, h₃⟩ := h₃
          exact .inl ⟨hcurrent, h₃⟩
        | ok _ =>
          rw [Function.update_comm hne.symm] at h₂
          have hbelow : Function.update o next true current = false := by
            rwa [Function.update_of_ne hne.symm]
          intro r s₃ h
          cases r with
          | ok _ => exact ih hnext (h₂.closed hbelow h (.inr rfl))
          -- closed already, and closed again by the handler; `next_fd` stays open
          | error e => exact .inr (h.slips (.inl rfl) rfl)

/-- A slip ends in an exception, with a descriptor closed twice. -/
def DirectoryEnds (o : F → Bool) (out : Except Raised (PrivateDirectory F)) (s' : Table F) : Prop :=
  (OpensOne o PrivateDirectory.fd out s' ∧ ∀ d, out = .ok d → d.closed = false) ∨
    (∃ e, out = .error e) ∧ Slipped s' ∧ s'.misclosed = true

theorem openPrivateDirectory_ends {P : Platform} {path : Path} {create : Bool} (hs : Has o s) :
    (openPrivateDirectory P path create).ensures Does (DirectoryEnds o) s := by
  unfold openPrivateDirectory
  split
  · exact .inl ⟨hs, fun _ h => by cases h⟩
  split
  · exact .inl ⟨hs, fun _ h => by cases h⟩
  intro r s₁ h
  cases r with
  | error exc =>
    refine Prog.ensures_mono (reraise_has (hs.call h rfl rfl)) ?_
    intro out s₂ h₂
    obtain ⟨⟨e, rfl⟩, h₂⟩ := h₂
    exact .inl ⟨h₂, fun _ h => by cases h⟩
  | ok root =>
    obtain ⟨hroot, h₁⟩ := hs.openedBy h rfl rfl
    refine (Prog.ensures_settle _ _ _ _).mpr (Prog.ensures_mono (walk_ends path hroot h₁) ?_)
    intro out s₂ h₂
    match out with
    | .ok fd =>
      refine .inl ⟨h₂, fun d hd => ?_⟩
      cases hd
      rfl
    | .error (current, e) =>
      obtain ⟨hcurrent, h₂⟩ | ⟨hslipped, hclosed⟩ := h₂
      · refine Prog.ensures_mono (raiseClosing_has (α := PrivateDirectory F) hcurrent rfl h₂) ?_
        intro out s₃ h₃
        obtain ⟨⟨e', rfl⟩, h₃⟩ := h₃
        exact .inl ⟨h₃, fun _ h => by cases h⟩
      · intro r s₃ h
        have hmisclosed : s₃.misclosed = true := by
          rw [h.misclosed]
          simp [closes, hclosed]
        cases r with
        | ok _ => exact .inr ⟨⟨_, rfl⟩, h.stillSlipped hslipped, hmisclosed⟩
        | error e' => exact .inr ⟨⟨_, rfl⟩, h.stillSlipped hslipped, hmisclosed⟩

/-! ## Handles -/

theorem openChild_opens {P : Platform} {d : PrivateDirectory F} {name : String} {create : Bool}
    (hs : Has o s) : (d.openChild P name create).ensures Does
      (OpensOne o PrivateDirectory.fd) s := by
  unfold PrivateDirectory.openChild
  cases validateComponentName name with
  | error e => exact hs
  | ok _ =>
    cases hactive : d.activeFd with
    | error e => exact hs
    | ok parentFd =>
      simp only [Prog.ofExcept_ok, Prog.pure_bind]
      refine Prog.ensures_bind (OpensOne o fun found => found.1) (openOrCreateDirectory_opens hs) ?_
        (fun _ _ h => h)
      intro found s₁ h
      obtain ⟨childFd, created, wasMissing⟩ := found
      have hchild : o childFd = false := h.1
      have h₁ : Has (Function.update o childFd true) s₁ := h.2
      refine (Prog.ensures_settle _ _ _ _).mpr (Prog.ensures_mono
        (Q := fun _ s' => Has (Function.update o childFd true) s') ?_ ?_)
      · refine Prog.ensures_bind (fun _ s' => Has _ s') (privatize_has h₁) ?_ (fun _ _ h => h)
        intro _ s₂ h₂
        exact persist_has h₂
      · intro out s₂ h₂
        cases out with
        | ok _ => exact ⟨hchild, h₂⟩
        | error e =>
          exact Prog.ensures_mono (raiseClosing_has hchild rfl h₂) fun _ _ h => opensOne_of_error h

theorem finishPrivateRegularFd_opens {euid : Nat} {fd : F} {path : Path} {truncate : Bool}
    (hfd : o fd = false) (hs : Has (Function.update o fd true) s) :
    (finishPrivateRegularFd euid fd path truncate).ensures Does (OpensOne o id) s := by
  refine (Prog.ensures_settle _ _ _ _).mpr (Prog.ensures_mono
    (Q := fun _ s' => Has (Function.update o fd true) s') ?_ ?_)
  · have htruncate : ∀ s₁, Has (Function.update o fd true) s₁ →
        (if truncate = true then (Prog.perform (.ftruncate fd) >>= fun r => orRaise r)
          else pure () : Script F Unit).ensures Does
          (fun _ s' => Has (Function.update o fd true) s') s₁ := by
      intro s₁ h₁
      split
      · intro r s₂ h
        have h₂ := h₁.call h rfl rfl
        cases r with
        | error e => exact h₂
        | ok _ => exact h₂
      · exact h₁
    refine Prog.ensures_bind (fun _ s' => Has _ s') (validate_has hs) ?_ (fun _ _ h => h)
    intro status s₁ h₁
    dsimp only
    split
    · intro r s₂ h
      have h₂ := h₁.call h rfl rfl
      cases r with
      | error e => exact h₂
      | ok _ => exact htruncate s₂ h₂
    · exact htruncate s₁ h₁
  · intro out s₂ h₂
    cases out with
    | ok _ => exact ⟨hfd, h₂⟩
    | error e => exact Prog.ensures_mono (raiseClosing_has hfd rfl h₂) fun _ _ h => opensOne_of_error h

theorem openAttempts_opens {directory : F} {name : String} {path : Path} {flags : OpenFlags}
    {mode : Nat} (attempts : Nat) (hs : Has o s) :
    (openAttempts directory name path flags mode attempts).ensures Does (OpensOne o id) s := by
  induction attempts generalizing s with
  | zero => exact hs
  | succ attempts ih =>
    intro r s₁ h
    match r with
    | .ok fd => exact hs.openedBy h rfl rfl
    | .error .noEntry =>
      have hs₁ := hs.call h rfl rfl
      show Prog.ensures Does (ite _ _ _) _ _
      split
      · exact hs₁
      · exact ih hs₁
    | .error .exists =>
      exact Prog.ensures_mono (reraise_has (hs.call h rfl rfl)) fun _ _ h => opensOne_of_error h
    | .error .loop =>
      exact Prog.ensures_mono (reraise_has (hs.call h rfl rfl)) fun _ _ h => opensOne_of_error h
    | .error .other =>
      exact Prog.ensures_mono (reraise_has (hs.call h rfl rfl)) fun _ _ h => opensOne_of_error h

theorem openRegular_opens {P : Platform} {d : PrivateDirectory F} {name : String}
    {flags : OpenFlags} {mode : Nat} (hs : Has o s) :
    (d.openRegular P name flags mode).ensures Does (OpensOne o id) s := by
  unfold PrivateDirectory.openRegular
  cases d.activeFd with
  | error e => exact hs
  | ok directory =>
    show (openPrivateRegularAt P.euid directory name (d.path ++ [name]) flags mode).ensures _ _ _
    unfold openPrivateRegularAt
    cases validateComponentName name with
    | error e => exact hs
    | ok _ =>
      simp only [Prog.ofExcept_ok, Prog.pure_bind]
      refine Prog.ensures_bind (OpensOne o id) (openAttempts_opens _ hs) ?_ (fun _ _ h => h)
      intro fd s₁ h
      exact finishPrivateRegularFd_opens h.1 h.2

/-! ## Locks -/

theorem close_has {d : PrivateDirectory F} (hopen : d.closed = false) (hfd : o d.fd = false)
    (hs : Has (Function.update o d.fd true) s) : d.close.ensures Does (fun _ s' => Has o s') s := by
  unfold PrivateDirectory.close
  rw [if_neg (by simp [hopen])]
  intro r s' h
  have hs' := hs.closed hfd h (.inl rfl)
  cases r with
  | ok _ => exact hs'
  | error e => exact hs'

/-- A lock that is held owns two descriptors; a slip leaves the directory's open, or closes one
twice. -/
def EnterEnds (o : F → Bool) (out : Except Raised (FileLock F)) (s' : Table F) : Prop :=
  (match out with
    | .ok lock => ∃ fd d, lock.fd = some fd ∧ lock.directory = some d ∧ d.closed = false ∧
        o d.fd = false ∧ o fd = false ∧ fd ≠ d.fd ∧
        Has (Function.update (Function.update o d.fd true) fd true) s'
    | .error _ => Has o s') ∨
  (∃ e, out = .error e) ∧ Slipped s' ∧
    (s'.misclosed = true ∨ ∃ fd, o fd = false ∧ s'.opened fd = true)

theorem enter_ends {P : Platform} {lock : FileLock F} (hs : Has o s) :
    (lock.enter P).ensures Does (EnterEnds o) s := by
  unfold FileLock.enter
  split
  · exact .inl hs
  refine Prog.ensures_bind _ (openPrivateDirectory_ends hs) ?_ ?_
  · intro d s₁ h
    obtain ⟨⟨hd, h₁⟩, hclosed⟩ | ⟨⟨_, heq⟩, _⟩ := h
    · have hclosed := hclosed d rfl
      have hraise : ∀ (e : Raised) (s' : Table F), Has (Function.update o d.fd true) s' →
          (d.close >>= fun _ => .fail e : Script F (FileLock F)).ensures Does (EnterEnds o) s' := by
        intro e s' h
        refine Prog.ensures_bind (fun _ s' => Has o s') (close_has hclosed hd h) ?_ ?_
        · intro _ s'' h''
          exact .inl h''
        · intro e' s'' h''
          exact .inl h''
      refine (Prog.ensures_settle _ _ _ _).mpr (Prog.ensures_mono (openRegular_opens h₁) ?_)
      intro out s₂ h₂
      cases out with
      | error e => exact hraise e s₂ h₂
      | ok fd =>
        have hopened : Function.update o d.fd true fd = false := h₂.1
        have hheld : Has (Function.update (Function.update o d.fd true) fd true) s₂ := h₂.2
        have hne : fd ≠ d.fd := by
          intro heq
          rw [heq, Function.update_self] at hopened
          cases hopened
        intro r s₃ h
        have h₃ := hheld.call h rfl rfl
        cases r with
        | ok _ =>
          rw [Function.update_of_ne hne] at hopened
          exact .inl ⟨fd, d, rfl, rfl, hclosed, hd, hopened, hne, h₃⟩
        | error e =>
          intro r s₄ h
          cases r with
          | ok _ => exact hraise _ s₄ (h₃.closed hopened h (.inr rfl))
          | error e' =>
            obtain ⟨hslipped, _⟩ := h.slips (.inr rfl) rfl
            refine .inr ⟨⟨_, rfl⟩, hslipped, .inr ⟨d.fd, hd, ?_⟩⟩
            have hnone : opens (.close .lockEnter fd) (.error e') = none := rfl
            rw [h.opened, hnone, h₃.opened]
            simp [closes, Function.update_of_ne hne.symm]
    · cases heq
  · intro e s₁ h
    obtain ⟨hopened, _⟩ | ⟨_, hslipped, hmisclosed⟩ := h
    · exact .inl hopened
    · exact .inr ⟨⟨_, rfl⟩, hslipped, .inl hmisclosed⟩

/-- Raising or not, the lock's descriptors are closed. -/
theorem exit_closes {lock : FileLock F} {fd : F} {d : PrivateDirectory F} (hfd : lock.fd = some fd)
    (hdirectory : lock.directory = some d) (hopen : d.closed = false) (hd : o d.fd = false)
    (hfree : o fd = false) (hne : fd ≠ d.fd)
    (hs : Has (Function.update (Function.update o d.fd true) fd true) s) :
    lock.exit.ensures Does (fun _ s' => Has o s') s := by
  unfold FileLock.exit
  simp only [hfd, hdirectory]
  intro unlocked s₁ h
  have h₁ := hs.call h rfl rfl
  intro closed s₂ h
  have hbelow : Function.update o d.fd true fd = false := by rwa [Function.update_of_ne hne]
  have h₂ := h₁.closed hbelow h (.inl rfl)
  refine (Prog.ensures_settle _ _ _ _).mpr (Prog.ensures_mono (close_has hopen hd h₂) ?_)
  intro out s₃ h₃
  cases out with
  | error e => exact h₃
  | ok _ =>
    cases closed with
    | error e => exact h₃
    | ok _ =>
      cases unlocked with
      | error e => exact h₃
      | ok _ => exact h₃

/-! ## Every descriptor once -/

/-- Nothing was closed that was not open, and what is open is what was, and what is owned now. -/
structure Balanced (s : Table F) (owned : List F) (s' : Table F) : Prop where
  opened : ∀ fd, s'.opened fd = true ↔ s.opened fd = true ∨ fd ∈ owned
  new : ∀ fd ∈ owned, s.opened fd = false
  distinct : owned.Nodup
  misclosed : s'.misclosed = false

/-- What a returned handle owns; an exception owns nothing. -/
def owned (fds : α → List F) : Except Raised α → List F
  | .ok a => fds a
  | .error _ => []

def lockFds (lock : FileLock F) : List F :=
  lock.fd.toList ++ (lock.directory.map PrivateDirectory.fd).toList

/-- A table that nothing has gone wrong with. -/
structure Sound (s : Table F) : Prop where
  misclosed : s.misclosed = false
  failed : s.failed = []

/-- What `enter` returns. -/
structure Held (s : Table F) (lock : FileLock F) (fd : F) (d : PrivateDirectory F) : Prop where
  lockFd : lock.fd = some fd
  directory : lock.directory = some d
  active : d.closed = false
  opened : s.opened fd = true ∧ s.opened d.fd = true
  distinct : fd ≠ d.fd

omit [DecidableEq F] in
theorem Sound.has (h : Sound s) : Has s.opened s := by
  refine ⟨rfl, h.misclosed, ?_⟩
  intro hslipped
  obtain ⟨fd, hfd⟩ := hslipped
  rw [h.failed] at hfd
  rcases hfd with hfd | hfd <;> cases hfd

omit [DecidableEq F] in
theorem balanced_none (h : Has s.opened s') : Balanced s [] s' :=
  ⟨fun fd => by simp [h.opened], (fun _ h => by cases h), List.nodup_nil, h.misclosed⟩

theorem balanced_one {fd : F} (hfd : s.opened fd = false)
    (h : Has (Function.update s.opened fd true) s') : Balanced s [fd] s' := by
  refine ⟨fun fd' => ?_, ?_, by simp, h.misclosed⟩
  · rw [h.opened, List.mem_singleton]
    by_cases heq : fd' = fd
    · simp [heq]
    · simp [heq]
  · intro fd' hmem
    rwa [List.mem_singleton.mp hmem]

theorem balanced_opensOne {fd : α → F} {out : Except Raised α} (h : OpensOne s.opened fd out s') :
    Balanced s (owned (fun a => [fd a]) out) s' ∧ ¬ Slipped s' := by
  cases out with
  | ok a => exact ⟨balanced_one h.1 h.2, h.2.unslipped⟩
  | error e => exact ⟨balanced_none h, Has.unslipped h⟩

theorem balanced_lock {lock : FileLock F} {fd : F} {d : PrivateDirectory F}
    (hlock : lock.fd = some fd) (hdirectory : lock.directory = some d)
    (hd : s.opened d.fd = false) (hfd : s.opened fd = false) (hne : fd ≠ d.fd)
    (h : Has (Function.update (Function.update s.opened d.fd true) fd true) s') :
    Balanced s (lockFds lock) s' := by
  have hfds : lockFds lock = [fd, d.fd] := by simp [lockFds, hlock, hdirectory]
  rw [hfds]
  refine ⟨fun fd' => ?_, ?_, by simp [hne], h.misclosed⟩
  · rw [h.opened]
    by_cases heq : fd' = fd
    · simp [heq]
    by_cases heq' : fd' = d.fd
    · simp [heq', hne.symm]
    · simp [heq, heq']
  · intro fd' hmem
    rcases List.mem_pair.mp hmem with rfl | rfl
    · exact hfd
    · exact hd

/-- **Descriptors are closed exactly once, unless one of two closes fails.** Whatever calls fail:
opening a directory or entering a lock leaves open what the returned handle owns and closes nothing
twice if and only if neither the close of a parent that the walk has left nor, after a failed
`flock`, the close of the lock file has failed. Opening a child or a regular file and leaving a lock
always do. -/
theorem descriptors_closed_once_iff (P : Platform) :
    (∀ path create (s : Table F), Sound s → (openPrivateDirectory P path create).ensures Does
      (fun out s' => Balanced s (owned (fun d => [d.fd]) out) s' ↔ ¬ Slipped s') s) ∧
    (∀ (lock : FileLock F) s, Sound s → (lock.enter P).ensures Does
      (fun out s' => Balanced s (owned lockFds out) s' ↔ ¬ Slipped s') s) ∧
    (∀ (d : PrivateDirectory F) name create s, Sound s → (d.openChild P name create).ensures Does
      (fun out s' => Balanced s (owned (fun d => [d.fd]) out) s' ∧ ¬ Slipped s') s) ∧
    (∀ (d : PrivateDirectory F) name flags mode s, Sound s →
      (d.openRegular P name flags mode).ensures Does
        (fun out s' => Balanced s (owned (fun fd => [fd]) out) s' ∧ ¬ Slipped s') s) ∧
    ∀ (lock : FileLock F) fd d s, Sound s → Held s lock fd d → lock.exit.ensures Does
      (fun _ s' => (∀ fd', s'.opened fd' = true ↔ s.opened fd' = true ∧ fd' ∉ lockFds lock) ∧
        s'.misclosed = false ∧ ¬ Slipped s') s := by
  refine ⟨?_, ?_, ?_, ?_, ?_⟩
  · intro path create s hs
    refine Prog.ensures_mono (openPrivateDirectory_ends hs.has) ?_
    intro out s' h
    obtain ⟨hopened, _⟩ | ⟨_, hslipped, hmisclosed⟩ := h
    · obtain ⟨hbalanced, hunslipped⟩ := balanced_opensOne hopened
      exact ⟨fun _ => hunslipped, fun _ => hbalanced⟩
    · refine ⟨fun hbalanced => ?_, fun hnot => absurd hslipped hnot⟩
      rw [hbalanced.misclosed] at hmisclosed
      cases hmisclosed
  · intro lock s hs
    refine Prog.ensures_mono (enter_ends hs.has) ?_
    intro out s' h
    obtain hopened | ⟨⟨e, rfl⟩, hslipped, hbroken⟩ := h
    · cases out with
      | ok lock' =>
        obtain ⟨fd, d, hlock, hdirectory, _, hd, hfd, hne, hhas⟩ := hopened
        exact ⟨fun _ => hhas.unslipped,
          fun _ => balanced_lock hlock hdirectory hd hfd hne hhas⟩
      | error e => exact ⟨fun _ => Has.unslipped hopened, fun _ => balanced_none hopened⟩
    · refine ⟨fun hbalanced => ?_, fun hnot => absurd hslipped hnot⟩
      obtain hmisclosed | ⟨fd, hfree, hleft⟩ := hbroken
      · rw [hbalanced.misclosed] at hmisclosed
        cases hmisclosed
      · rcases (hbalanced.opened fd).mp hleft with hopen | hmem
        · rw [hfree] at hopen
          cases hopen
        · cases hmem
  · intro d name create s hs
    exact Prog.ensures_mono (openChild_opens hs.has) fun _ _ h => balanced_opensOne h
  · intro d name flags mode s hs
    exact Prog.ensures_mono (openRegular_opens hs.has) fun _ _ h => balanced_opensOne h
  · intro lock fd d s hs hheld
    obtain ⟨hfd, hd⟩ := hheld.opened
    have hfds : lockFds lock = [fd, d.fd] := by simp [lockFds, hheld.lockFd, hheld.directory]
    have hne := hheld.distinct
    have hback : s.opened = Function.update (Function.update (Function.update (Function.update
        s.opened d.fd false) fd false) d.fd true) fd true := by
      funext fd'
      by_cases h : fd' = fd
      · simp [h, hfd]
      by_cases h' : fd' = d.fd
      · simp [h', hne.symm, hd]
      · simp [h, h']
    refine Prog.ensures_mono (exit_closes hheld.lockFd hheld.directory hheld.active ?_ ?_ hne
      (hback ▸ hs.has)) ?_
    · simp [hne.symm]
    · simp
    · intro out s' h
      refine ⟨fun fd' => ?_, h.misclosed, h.unslipped⟩
      rw [h.opened, hfds]
      by_cases heq : fd' = fd
      · simp [heq]
      by_cases heq' : fd' = d.fd
      · simp [heq', hne.symm]
      · simp [heq, heq']

/-! ### A close that fails -/

def noDescriptors : Table Nat := ⟨fun _ => false, false, []⟩

/-- The table after this call, which is allowed to go so. -/
def Table.after (s : Table F) (op : Call F) (r : Reply op) : Table F where
  opened := match opens op r, closes op with
    | some fd, _ => Function.update s.opened fd true
    | none, some fd => Function.update s.opened fd false
    | none, none => s.opened
  misclosed := s.misclosed || (closes op).any fun fd => !s.opened fd
  failed := if refused op r then op :: s.failed else s.failed

theorem does_after {op : Call F} {r : Reply op}
    (hfresh : ∀ fd, opens op r = some fd → s.opened fd = false) : Does s op r (s.after op r) :=
  ⟨rfl, hfresh, rfl, rfl⟩

/-- The root is 3 and the directory 4; then the close of 3 fails, once for the walk and once for its
handler, and 4 stays open. -/
theorem handOver_fails_closes_twice : Sound noDescriptors ∧
    ¬ (openPrivateDirectory ⟨true, 0⟩ ["a"] true : Script Nat _).ensures Does
      (fun out s' => Balanced noDescriptors (owned (fun d => [d.fd]) out) s') noDescriptors := by
  refine ⟨⟨rfl, rfl⟩, ?_⟩
  intro h
  have h := h (.ok 3) _ (does_after fun _ _ => rfl)
  have h := h (.ok 4) _ (does_after fun fd heq => by cases heq; rfl)
  have h := h (.ok ⟨.directory, 0, 0o700, 2⟩) _ (does_after fun _ heq => by cases heq)
  have h := h (.error .other) _ (does_after fun _ heq => by cases heq)
  have h := h (.error .other) _ (does_after fun _ heq => by cases heq)
  have hmisclosed : true = false := h.misclosed
  cases hmisclosed

/-- From an empty table: a directory, and a lock that is entered and left. -/
theorem descriptors_closed_once_iff_empty : Sound noDescriptors ∧
    (openPrivateDirectory ⟨true, 0⟩ ["a"] true : Script Nat _).ensures Does
      (fun out s' => Balanced noDescriptors (owned (fun d => [d.fd]) out) s' ↔ ¬ Slipped s')
      noDescriptors ∧
    ((FileLock.create ["a"] ".lock" false : FileLock Nat).enter ⟨true, 0⟩).ensures Does
      (fun out s' => Balanced noDescriptors (owned lockFds out) s' ↔ ¬ Slipped s')
      noDescriptors ∧
    ∃ (lock : FileLock Nat) (s : Table Nat), Sound s ∧ Held s lock 4 ⟨["a"], 3, false⟩ ∧
      lock.exit.ensures Does (fun _ s' => s'.misclosed = false ∧ ¬ Slipped s') s := by
  have hempty : Sound noDescriptors := ⟨rfl, rfl⟩
  obtain ⟨hdirectory, henter, _, _, hexit⟩ := @descriptors_closed_once_iff Nat _ ⟨true, 0⟩
  refine ⟨hempty, hdirectory ["a"] true _ hempty, henter _ _ hempty, ?_⟩
  refine ⟨⟨["a"], ".lock", false, some 4, some ⟨["a"], 3, false⟩⟩,
    ⟨fun fd => fd = 3 || fd = 4, false, []⟩, ⟨rfl, rfl⟩, ⟨rfl, rfl, rfl, ⟨rfl, rfl⟩, by decide⟩, ?_⟩
  exact Prog.ensures_mono (hexit _ 4 ⟨["a"], 3, false⟩ _ ⟨rfl, rfl⟩
    ⟨rfl, rfl, rfl, ⟨rfl, rfl⟩, by decide⟩) fun _ _ h => h.2

end DrStore.LocalFs.Descriptors
