import DrStore.Store.Admission
import Mathlib.Data.Finset.Insert
import Mathlib.Data.Finset.Erase

/-! # The lifecycle of a cache (record_cache/sqlite.py, `SqliteRecordCache`)

Any number of tasks use one cache, and the cache owns one backend: its close task is a client of
that backend like the tasks it admitted. As for the backend, a step is what a task does from one
await to the next, and an await may reply with a cancellation. The log is no part of the cache. -/
namespace DrStore.Store.CacheLifecycle
open DrStore.Base.Programs DrStore.Base.Pool
open DrStore.Store.Admission (Lifecycle Party Raised CloseTask Backend awaitSettled)

/-- Who uses the backend: a task, or the close task of the cache. -/
inductive Caller (I : Type) where
  | task (i : I)
  | cleanup
deriving DecidableEq

inductive Event (I : Type) where
  | operated (i : I) (out : Except Raised Unit)
  | closed (i : I) (out : Except Raised Unit)

/-- The future that a wait for the drained event makes, once the event was not set. -/
inductive Waiter where
  | absent
  | pending
  | woken
deriving DecidableEq

def Waiter.set : Waiter → Waiter
  | .absent => .absent
  | _ => .woken

structure Cache (I V : Type) where
  backend : Backend (Caller I) V
  state : Lifecycle
  operationTasks : Finset I
  drained : Bool
  waiter : Waiter
  closeTask : CloseTask
  log : List (Event I)

def Cache.init (I V : Type) : Cache I V where
  backend := .init (Caller I) V
  state := .opened
  operationTasks := ∅
  drained := true
  waiter := .absent
  closeTask := .absent
  log := []

variable {I V : Type}

/-! ## Steps -/

inductive Op (I : Type) where
  | backend (op : Admission.Op)
  | admitOperation
  | exitOperation
  | aclose
  | closeSettled
  | ended (e : Event I)
  | begin
  | waitDrained
  | wokenDrained
  | closed (out : Except Raised Unit)
  | sleep

inductive Closing where
  | returned
  | inside
  | failedBefore
  | waits

abbrev Reply (I V : Type) : Op I → Type
  | .backend op => Admission.Reply V op
  | .admitOperation | .begin | .waitDrained | .wokenDrained => Bool
  | .aclose => Closing
  | .closeSettled => Option (Except Raised Unit)
  | .sleep => Empty
  | _ => Unit

/-- How the close task ends: only an `Exception` of what it awaits makes the cache `FAILED`. -/
def closeOutcome : Except Raised Unit → Except Raised Unit
  | .ok _ => .ok ()
  | .error e =>
    if e.isCancelled then .error e
    else .error (.cacheCloseFrom "failed to close SQLite record cache" e)

def closeState (state : Lifecycle) : Except Raised Unit → Lifecycle
  | .ok _ => .closed
  | .error e => if e.isCancelled then state else .failed

def Uses [DecidableEq I] (s : Cache I V) (i : I) : (op : Op I) → Reply I V op → Cache I V → Prop
  | .admitOperation, r, s' =>
      if s.state = .opened then r = true ∧
        s' = { s with operationTasks := insert i s.operationTasks, drained := false }
      else r = false ∧ s' = s
  | .exitOperation, _, s' =>
      if s.operationTasks.erase i = ∅ then
        s' = { s with operationTasks := ∅, drained := true, waiter := s.waiter.set }
      else s' = { s with operationTasks := s.operationTasks.erase i }
  | .aclose, r, s' =>
      if s.state = .closed then r = .returned ∧ s' = s
      else if i ∈ s.operationTasks then r = .inside ∧ s' = s
      else match s.closeTask, s.state with
        | .absent, .opened => r = .waits ∧ s' = { s with state := .closing, closeTask := .created }
        | .absent, .closing => r = .waits ∧ s' = { s with closeTask := .created }
        | .absent, _ => r = .failedBefore ∧ s' = s
        | _, _ => r = .waits ∧ s' = s
  | .closeSettled, r, s' => s' = s ∧
      (r = none ∨ ∃ out, s.closeTask = .done out ∧ r = some out ∧
        ∀ e, out = .error e → e.isCancelled = false)
  | .ended e, _, s' => s' = { s with log := s.log ++ [e] }
  | _, _, _ => False

def Cleans (s : Cache I V) : (op : Op I) → Reply I V op → Cache I V → Prop
  -- false for a close task that is cancelled, before it has run or as it waits
  | .begin, _, s' => s.closeTask = .created ∧ s' = s
  | .waitDrained, r, s' => r = s.drained ∧ s' = if s.drained then s else { s with waiter := .pending }
  | .wokenDrained, r, s' => (r = false ∨ r = true ∧ s.waiter = .woken) ∧ s' = s
  | .closed out, _, s' =>
      s' = { s with state := closeState s.state out, closeTask := .done (closeOutcome out) }
  | _, _, _ => False

/-- The parties of the backend; those that are no task of the cache only work on the backend. -/
def Effect [DecidableEq I] (s : Cache I V) (t : Party (Caller I)) :
    (op : Op I) → Reply I V op → Cache I V → Prop
  | .backend op, r, s' => ∃ b, Admission.Effect s.backend t op r b ∧ s' = { s with backend := b }
  | op, r, s' => match t with
    | .client (.task i) => Uses s i op r s'
    | .client .cleanup => Cleans s op r s'
    | _ => False

def cacheSystem [DecidableEq I] : System (Party (Caller I)) (Cache I V) (Op I) (Reply I V) where
  step t s op r s' := Effect s t op r s'
  kill _ _ _ := False

/-! ## The tasks -/

abbrev Script (I V α : Type) := Prog (Op I) (Reply I V) Raised α

/-- A script of the backend. -/
def onBackend {α : Type} (p : Admission.Script V α) : Script I V α :=
  p.translate fun op => .perform (Op.backend op)

def sleep {α : Type} : Script I V α := .exec .sleep Empty.elim

def aclose (cancellations : Nat) : Script I V Unit := do
  match ← .perform Op.aclose with
  | .returned => return ()
  | .inside => .fail (.cacheClose "cannot close SQLite record cache from an active operation")
  | .failedBefore => .fail (.cacheClose "SQLite record cache close previously failed")
  | .waits => awaitSettled sleep (.perform Op.closeSettled) cancellations false

/-- What an operation of the cache awaits: operations of the backend, and any `aclose` that
something it calls makes and whose failure is caught there. -/
inductive Await where
  | operation
  | close

def body (cancellations : Nat) : List Await → Script I V Unit
  | [] => .pure ()
  | .operation :: rest => do
    let _ ← onBackend (Admission.operation cancellations)
    body cancellations rest
  | .close :: rest => (aclose cancellations).settle fun _ => body cancellations rest

/-- `get`, `put`, `get_many` and `put_many`, each within `_admit_operation`. -/
def operate (cancellations : Nat) (awaits : List Await) : Script I V Unit := do
  if ← .perform Op.admitOperation then
    (body cancellations awaits).settle fun out => do
      .perform Op.exitOperation
      .ofExcept out
  else .fail (.cacheClosed "SQLite record cache is closed")

/-- `self._drained.wait()`, which does not look at the event again once it was woken. -/
def waitDrained : Script I V Unit := do
  if ← .perform Op.waitDrained then return ()
  else if ← .perform Op.wokenDrained then return ()
  else .fail .cancelled

/-- `_close_resources`. -/
def closeResources (cancellations : Nat) : Script I V Unit :=
  let cleanup : Script I V Unit := do
    waitDrained
    onBackend (Admission.aclose cancellations)
  cleanup.settle fun out => do
    .perform (Op.closed out)
    .ofExcept (closeOutcome out)

def closeTask (cancellations : Nat) : Script I V Unit := do
  if ← .perform Op.begin then closeResources cancellations
  else .perform (Op.closed (.error .cancelled))

inductive Action where
  | operate (awaits : List Await)
  | close

/-- One operation or `aclose` after the other, whatever they raise. -/
def task (i : I) (cancellations : Nat) : List Action → Script I V Unit
  | [] => .pure ()
  | .operate awaits :: rest => (operate cancellations awaits).settle fun out => do
    .perform (Op.ended (.operated i out))
    task i cancellations rest
  | .close :: rest => (aclose cancellations).settle fun out => do
    .perform (Op.ended (.closed i out))
    task i cancellations rest

/-- Any actions of any tasks, and any number of cancellations and steps of the worker. -/
structure Setting (I : Type) where
  actions : I → List Action
  cancellations : Party (Caller I) → Nat
  calls : Nat

def Setting.script (setting : Setting I) : Party (Caller I) → Script I V Unit
  | .client (.task i) => task i (setting.cancellations (.client (.task i))) (setting.actions i)
  | .client .cleanup => closeTask (setting.cancellations (.client .cleanup))
  | .closing => onBackend (Admission.closeTask (setting.cancellations .closing))
  | .worker => onBackend (Admission.repeated .work setting.calls)
  | .loop => onBackend (Admission.repeated .deliver setting.calls)

abbrev Run (I V : Type) := Config (Party (Caller I)) (Cache I V) (Op I) (Reply I V) Raised Unit

def Runs [DecidableEq I] (setting : Setting I) (c : Run I V) : Prop :=
  Reachable cacheSystem (.init I V) setting.script c

/-! ## The invariant -/

def Moves (state state' : Lifecycle) : Prop :=
  state' = state ∨ state = .opened ∧ state' = .closing ∨
    state = .closing ∧ (state' = .closed ∨ state' = .failed)

structure Sound (s : Cache I V) : Prop where
  drained : s.drained = true ↔ s.operationTasks = ∅
  backend : s.backend.state ≠ .opened → s.operationTasks = ∅ ∧ s.state ≠ .opened
  started : s.backend.closeTask ≠ .absent → s.backend.state ≠ .opened
  waiting : s.waiter ≠ .absent → s.state ≠ .opened
  woken : s.waiter = .woken → s.operationTasks = ∅
  absent : s.closeTask = .absent ↔ s.state = .opened
  created : s.closeTask = .created → s.state = .closing
  closed : s.state = .closed → s.closeTask = .done (.ok ())
  outcome : ∀ i out, Event.closed i out ∈ s.log →
    s.closeTask = .done out ∨ ∃ e, out = .error e ∧ e.isCancelled = true
  operated : ∀ i m, Event.operated i (.error (.closed m)) ∉ s.log

structure Guarantee (t : Party (Caller I)) (s s' : Cache I V) : Prop where
  own : ∀ i, t ≠ .client (.task i) → (i ∈ s'.operationTasks ↔ i ∈ s.operationTasks)
  left : s.state ≠ .opened → s'.state ≠ .opened ∧ s'.operationTasks ⊆ s.operationTasks
  moves : Moves s.state s'.state
  created : t ≠ .client .cleanup → s.closeTask = .created → s'.closeTask = .created
  done : ∀ out, s.closeTask = .done out → s'.closeTask = .done out
  backend : s.backend.state ≠ .opened → s'.backend.state ≠ .opened

def rules : Rules (Party (Caller I)) (Cache I V) := ⟨Sound, Guarantee⟩

/-- Before the backend is closed: the close task runs, and nothing is admitted any more. -/
def Drained (s : Cache I V) : Prop := s.closeTask = .created ∧ s.operationTasks = ∅

/-- What may be done to the backend. -/
def BackendPermitted (s : Cache I V) (t : Party (Caller I)) : Admission.Op → Prop
  | .aclose => t = .client .cleanup ∧ Drained s
  | .shutdown _ => s.backend.state ≠ .opened
  | .abandon => s.backend.state ≠ .opened
  | _ => True

def Permitted (s : Cache I V) (t : Party (Caller I)) : Op I → Prop
  | .backend op => BackendPermitted s t op
  | .aclose => True
  | .ended (.closed _ out) =>
      s.closeTask = .done out ∨ ∃ e, out = .error e ∧ e.isCancelled = true
  | .ended (.operated _ out) => ∀ m, out ≠ .error (.closed m)
  | .waitDrained | .closed _ => s.closeTask = .created
  | _ => True

theorem sound_init : Sound (.init I V) where
  drained := ⟨fun _ => rfl, fun _ => rfl⟩
  backend := fun h => absurd rfl h
  started := fun h => absurd rfl h
  waiting := fun h => absurd rfl h
  woken := fun h => by cases h
  absent := ⟨fun _ => rfl, fun _ => rfl⟩
  created := fun h => by cases h
  closed := fun h => by cases h
  outcome := fun _ _ h => by cases h
  operated := fun _ _ h => by cases h

/-! ### What the others keep -/

theorem stable_true (t : Party (Caller I)) : Stable (rules (V := V)) t (fun _ => True) :=
  fun _ _ _ _ => trivial

theorem stable_member (i : I) :
    Stable (rules (V := V)) (.client (.task i)) (fun s => i ∈ s.operationTasks) := by
  intro s s' hothers h
  obtain ⟨_, _, u, hu, hguar⟩ := hothers
  have hguar : Guarantee u s s' := hguar
  exact (hguar.own i hu).mpr h

theorem stable_outside (i : I) :
    Stable (rules (V := V)) (.client (.task i)) (fun s => i ∉ s.operationTasks) := by
  intro s s' hothers h
  obtain ⟨_, _, u, hu, hguar⟩ := hothers
  have hguar : Guarantee u s s' := hguar
  exact fun hin => h ((hguar.own i hu).mp hin)

theorem stable_outcome (t : Party (Caller I)) (out : Except Raised Unit) :
    Stable (rules (V := V)) t
      (fun s => s.closeTask = .done out ∨ ∃ e, out = .error e ∧ e.isCancelled = true) := by
  intro s s' hothers h
  obtain ⟨_, _, u, _, hguar⟩ := hothers
  have hguar : Guarantee u s s' := hguar
  exact h.imp_left (hguar.done out)

theorem stable_created :
    Stable (rules (I := I) (V := V)) (.client .cleanup) (fun s => s.closeTask = .created) := by
  intro s s' hothers h
  obtain ⟨_, _, u, hu, hguar⟩ := hothers
  have hguar : Guarantee u s s' := hguar
  exact hguar.created hu h

theorem stable_drained : Stable (rules (I := I) (V := V)) (.client .cleanup) Drained := by
  intro s s' hothers h
  obtain ⟨hinv, _, u, hu, hguar⟩ := hothers
  have hguar : Guarantee u s s' := hguar
  have hinv : Sound s := hinv
  refine ⟨hguar.created hu h.1, ?_⟩
  have hleft := (hguar.left (fun hopen => ?_)).2
  · rw [h.2] at hleft
    exact Finset.subset_empty.mp hleft
  · rw [hinv.created h.1] at hopen
    cases hopen

theorem stable_closing (t : Party (Caller I)) :
    Stable (rules (V := V)) t (fun s => s.backend.state ≠ .opened) := by
  intro s s' hothers h
  obtain ⟨_, _, u, _, hguar⟩ := hothers
  have hguar : Guarantee u s s' := hguar
  exact hguar.backend h

/-- What a run of steps within the guarantees does to the states. -/
theorem guarantee_moves {s s' : Cache I V}
    (h : Relation.ReflTransGen (fun s s' => ∃ t, (rules (I := I) (V := V)).guar t s s') s s') :
    (s.backend.state ≠ .opened → s'.backend.state ≠ .opened) ∧
      Relation.ReflTransGen Moves s.state s'.state := by
  induction h with
  | refl => exact ⟨fun h => h, .refl⟩
  | tail _ hlast ih =>
    obtain ⟨t, hguar⟩ := hlast
    have hguar : Guarantee t _ _ := hguar
    exact ⟨fun h => hguar.backend (ih.1 h), ih.2.tail hguar.moves⟩

/-! ### Steps of a task and of the close task -/

theorem idle_kept {s : Cache I V} (h : Sound s) (t : Party (Caller I)) :
    Sound s ∧ Guarantee t s s :=
  ⟨h, fun _ _ => Iff.rfl, fun hs => ⟨hs, subset_rfl⟩, .inl rfl, fun _ hs => hs, fun _ hs => hs,
    fun hs => hs⟩

theorem ended_kept {s : Cache I V} {i : I} {e : Event I} (h : Sound s)
    (hp : Permitted s (.client (.task i)) (.ended e)) :
    Sound { s with log := s.log ++ [e] } ∧
      Guarantee (.client (.task i)) s { s with log := s.log ++ [e] } := by
  refine ⟨⟨h.drained, h.backend, h.started, h.waiting, h.woken, h.absent, h.created, h.closed, ?_,
    ?_⟩, ⟨fun _ _ => Iff.rfl, fun hs => ⟨hs, subset_rfl⟩, .inl rfl, fun _ hs => hs,
      fun _ hs => hs, fun hs => hs⟩⟩
  · intro j out hev
    obtain hold | hnew := List.mem_append.mp hev
    · exact h.outcome j out hold
    · obtain rfl := List.mem_singleton.mp hnew
      exact hp
  · intro j m hev
    obtain hold | hnew := List.mem_append.mp hev
    · exact h.operated j m hold
    · obtain rfl := List.mem_singleton.mp hnew
      exact hp m rfl

theorem waitDrained_kept {s : Cache I V} (h : Sound s) (hcreated : s.closeTask = .created) :
    Sound { s with waiter := .pending } ∧
      Guarantee (.client .cleanup) s { s with waiter := .pending } := by
  refine ⟨⟨h.drained, h.backend, h.started, ?_, (fun hs => by cases hs), h.absent, h.created,
    h.closed, h.outcome, h.operated⟩, ⟨fun _ _ => Iff.rfl, fun hs => ⟨hs, subset_rfl⟩, .inl rfl,
      fun _ hs => hs, fun _ hs => hs, fun hs => hs⟩⟩
  intro _
  rw [h.created hcreated]
  exact fun hs => by cases hs

/-- The close task ends once. -/
theorem closed_kept {s : Cache I V} (h : Sound s) (hcreated : s.closeTask = .created)
    (out : Except Raised Unit) :
    Sound { s with state := closeState s.state out, closeTask := .done (closeOutcome out) } ∧
      Guarantee (.client .cleanup) s
        { s with state := closeState s.state out, closeTask := .done (closeOutcome out) } := by
  have hclosing := h.created hcreated
  have hopen : s.state ≠ .opened := by
    rw [hclosing]
    exact fun hs => by cases hs
  have hstate : closeState s.state out ≠ .opened ∧ Moves s.state (closeState s.state out) ∧
      (closeState s.state out = .closed → closeOutcome out = .ok ()) := by
    rw [hclosing]
    cases out with
    | ok a => exact ⟨(fun hs => by cases hs), .inr (.inr ⟨rfl, .inl rfl⟩), fun _ => rfl⟩
    | error e =>
      cases hcancelled : e.isCancelled with
      | true =>
        simp only [closeState, hcancelled, if_true]
        exact ⟨(fun hs => by cases hs), .inl rfl, fun hs => by cases hs⟩
      | false =>
        simp only [closeState, hcancelled, Bool.false_eq_true, if_false]
        exact ⟨(fun hs => by cases hs), .inr (.inr ⟨rfl, .inr rfl⟩), fun hs => by cases hs⟩
  refine ⟨⟨h.drained, fun hs => ⟨(h.backend hs).1, hstate.1⟩, h.started, fun _ => hstate.1, h.woken,
    ?_, (fun hs => by cases hs), ?_, ?_, h.operated⟩,
    ⟨fun _ _ => Iff.rfl, fun _ => ⟨hstate.1, subset_rfl⟩, hstate.2.1, fun hs => absurd rfl hs, ?_,
      fun hs => hs⟩⟩
  · exact ⟨(fun hs => by cases hs), fun hs => absurd hs hstate.1⟩
  · exact fun hs => congrArg CloseTask.done (hstate.2.2 hs)
  · intro i out' hev
    obtain hdone | hcancelled := h.outcome i out' hev
    · rw [hcreated] at hdone
      cases hdone
    · exact .inr hcancelled
  · intro out' hs
    rw [hcreated] at hs
    cases hs

theorem cleans_kept {s s' : Cache I V} {op : Op I} {r : Reply I V op} (h : Sound s)
    (hp : Permitted s (.client .cleanup) op) (hstep : Cleans s op r s') :
    Sound s' ∧ Guarantee (.client .cleanup) s s' := by
  cases op with
  | begin =>
    obtain ⟨_, rfl⟩ := hstep
    exact idle_kept h _
  | waitDrained =>
    obtain ⟨_, rfl⟩ := hstep
    split
    · exact idle_kept h _
    · exact waitDrained_kept h hp
  | wokenDrained =>
    obtain ⟨_, rfl⟩ := hstep
    exact idle_kept h _
  | closed out =>
    obtain rfl : s' = _ := hstep
    exact closed_kept h hp out
  | _ => exact hstep.elim

variable [DecidableEq I]

/-! ### Steps of the backend -/

/-- The state of a backend changes when it is closed. -/
theorem backend_state {b b' : Backend (Caller I) V} {t : Party (Caller I)} {op : Admission.Op}
    {r : Admission.Reply V op} (hstep : Admission.Effect b t op r b') :
    b'.state = b.state ∧ b'.closeTask = b.closeTask ∨
    op = .aclose ∧ b'.state = .closing ∧ b'.closeTask = .created ∨
    (∃ out, op = .shutdown out) ∧ b'.state ≠ .opened ∨
    op = .abandon ∧ b'.state = b.state := by
  cases t with
  | client c =>
    cases op with
    | checkOperation =>
      simp only [Admission.Effect, Admission.Operates] at hstep
      split at hstep
      · obtain ⟨_, rfl⟩ := hstep
        exact .inl ⟨rfl, rfl⟩
      · obtain ⟨_, rfl⟩ := hstep
        exact .inl ⟨rfl, rfl⟩
    | admitTask =>
      obtain ⟨_, rfl⟩ | ⟨_, hstep⟩ := hstep
      · exact .inl ⟨rfl, rfl⟩
      · split at hstep
        · obtain ⟨_, rfl⟩ := hstep
          exact .inl ⟨rfl, rfl⟩
        · obtain ⟨_, rfl⟩ := hstep
          exact .inl ⟨rfl, rfl⟩
    | settled job =>
      obtain ⟨_, rfl⟩ := hstep
      exact .inl ⟨rfl, rfl⟩
    | release | ended =>
      obtain rfl : b' = _ := hstep
      exact .inl ⟨rfl, rfl⟩
    | closeSettled =>
      obtain ⟨rfl, _⟩ := hstep
      exact .inl ⟨rfl, rfl⟩
    | aclose =>
      simp only [Admission.Effect, Admission.Operates] at hstep
      split at hstep
      · obtain ⟨_, rfl⟩ := hstep
        exact .inl ⟨rfl, rfl⟩
      · obtain ⟨_, hstep⟩ := hstep
        split at hstep
        · subst hstep
          exact .inr (.inl ⟨rfl, rfl, rfl⟩)
        · subst hstep
          exact .inl ⟨rfl, rfl⟩
    | _ => exact hstep.elim
  | closing =>
    cases op with
    | begin =>
      obtain ⟨_, rfl⟩ := hstep
      exact .inl ⟨rfl, rfl⟩
    | admitClose =>
      obtain ⟨_, rfl⟩ | ⟨_, _, rfl⟩ := hstep
      · exact .inl ⟨rfl, rfl⟩
      · exact .inl ⟨rfl, rfl⟩
    | settled job =>
      obtain ⟨_, rfl⟩ := hstep
      exact .inl ⟨rfl, rfl⟩
    | release =>
      obtain rfl : b' = _ := hstep
      exact .inl ⟨rfl, rfl⟩
    | shutdown out =>
      obtain ⟨_, rfl⟩ := hstep
      refine .inr (.inr (.inl ⟨⟨out, rfl⟩, ?_⟩))
      cases out <;> simp
    | abandon =>
      obtain rfl : b' = _ := hstep
      exact .inr (.inr (.inr ⟨rfl, rfl⟩))
    | _ => exact hstep.elim
  | worker =>
    cases op with
    | work =>
      obtain ⟨k, call, out, _, _, rfl⟩ := hstep
      exact .inl ⟨rfl, rfl⟩
    | _ => exact hstep.elim
  | loop =>
    cases op with
    | deliver =>
      obtain ⟨k, call, out, _, rfl⟩ := hstep
      exact .inl ⟨rfl, rfl⟩
    | _ => exact hstep.elim

theorem backend_kept {s : Cache I V} {t : Party (Caller I)} {op : Admission.Op}
    {r : Admission.Reply V op} {b : Backend (Caller I) V} (h : Sound s)
    (hp : BackendPermitted s t op) (hstep : Admission.Effect s.backend t op r b) :
    Sound { s with backend := b } ∧ Guarantee t s { s with backend := b } := by
  have hnext : (b.state ≠ .opened → s.operationTasks = ∅ ∧ s.state ≠ .opened) ∧
      (b.closeTask ≠ .absent → b.state ≠ .opened) ∧
      (s.backend.state ≠ .opened → b.state ≠ .opened) := by
    obtain ⟨hstate, htask⟩ | ⟨rfl, hstate, _⟩ | ⟨⟨out, rfl⟩, hstate⟩ | ⟨rfl, hstate⟩ :=
      backend_state hstep
    · rw [hstate, htask]
      exact ⟨h.backend, h.started, fun hs => hs⟩
    · rw [hstate]
      obtain ⟨_, hcreated, hnone⟩ := hp
      refine ⟨fun _ => ⟨hnone, ?_⟩, (fun _ hs => by cases hs), (fun _ hs => by cases hs)⟩
      rw [h.created hcreated]
      exact fun hs => by cases hs
    · exact ⟨fun _ => h.backend hp, fun _ => hstate, fun _ => hstate⟩
    · rw [hstate]
      exact ⟨h.backend, fun _ => hp, fun hs => hs⟩
  refine ⟨⟨h.drained, hnext.1, hnext.2.1, h.waiting, h.woken, h.absent, h.created, h.closed,
    h.outcome, h.operated⟩, ⟨fun _ _ => Iff.rfl, fun hs => ⟨hs, subset_rfl⟩, .inl rfl,
      fun _ hs => hs, fun _ hs => hs, hnext.2.2⟩⟩

/-! ### Steps that admit, leave and close -/

theorem admitOperation_kept {s : Cache I V} {i : I} (h : Sound s) (hopen : s.state = .opened) :
    Sound { s with operationTasks := insert i s.operationTasks, drained := false } ∧
      Guarantee (.client (.task i)) s
        { s with operationTasks := insert i s.operationTasks, drained := false } := by
  refine ⟨⟨?_, ?_, h.started, h.waiting, ?_, h.absent, h.created, h.closed, h.outcome, h.operated⟩,
    ⟨?_, fun hs => absurd hopen hs, .inl rfl, fun _ hs => hs, fun _ hs => hs, fun hs => hs⟩⟩
  · simp
  · exact fun hs => absurd hopen (h.backend hs).2
  · intro hs
    refine absurd hopen (h.waiting ?_)
    rw [hs]
    exact fun hs => by cases hs
  · intro j hj
    have hne : j ≠ i := fun hji => hj (by rw [hji])
    simp [hne]

theorem Waiter.set_eq {w : Waiter} (h : w.set ≠ .absent) : w ≠ .absent := by
  intro habsent
  exact h (by rw [habsent]; rfl)

theorem exitOperation_kept {s s' : Cache I V} {i : I} (h : Sound s)
    (hstep : Uses s i .exitOperation () s') :
    Sound s' ∧ Guarantee (.client (.task i)) s s' ∧ i ∉ s'.operationTasks := by
  have hother : ∀ j, Party.client (Caller.task i) ≠ .client (.task j) →
      (j ∈ s.operationTasks.erase i ↔ j ∈ s.operationTasks) := by
    intro j hj
    have hne : j ≠ i := fun hji => hj (by rw [hji])
    simp [hne]
  simp only [Uses] at hstep
  split at hstep
  · rename_i hlast
    subst hstep
    rw [hlast] at hother
    refine ⟨⟨?_, ?_, h.started, ?_, fun _ => rfl, h.absent, h.created, h.closed, h.outcome,
      h.operated⟩, ⟨hother, fun hs => ⟨hs, by simp⟩, .inl rfl, fun _ hs => hs, fun _ hs => hs,
        fun hs => hs⟩, by simp⟩
    · simp
    · exact fun hs => ⟨rfl, (h.backend hs).2⟩
    · exact fun hs => h.waiting (Waiter.set_eq hs)
  · rename_i hlast
    subst hstep
    have hnonempty : s.operationTasks ≠ ∅ := fun hnone => hlast (by rw [hnone]; rfl)
    refine ⟨⟨?_, ?_, h.started, h.waiting, ?_, h.absent, h.created, h.closed, h.outcome,
      h.operated⟩, ⟨hother, fun hs => ⟨hs, Finset.erase_subset _ _⟩, .inl rfl, fun _ hs => hs,
        fun _ hs => hs, fun hs => hs⟩, by simp⟩
    · constructor
      · exact fun hs => absurd (h.drained.mp hs) hnonempty
      · exact fun hs => absurd hs hlast
    · exact fun hs => absurd (h.backend hs).1 hnonempty
    · exact fun hs => absurd (h.woken hs) hnonempty

/-- The first `aclose` creates the close task. -/
theorem aclose_kept {s s' : Cache I V} {i : I} {r : Closing} (h : Sound s)
    (hstep : Uses s i .aclose r s') : Sound s' ∧ Guarantee (.client (.task i)) s s' := by
  simp only [Uses] at hstep
  split at hstep
  · obtain ⟨_, rfl⟩ := hstep
    exact idle_kept h _
  · split at hstep
    · obtain ⟨_, rfl⟩ := hstep
      exact idle_kept h _
    · split at hstep
      · rename_i habsent hopen
        obtain ⟨_, rfl⟩ := hstep
        refine ⟨⟨h.drained, ?_, h.started, ?_, h.woken, ?_, fun _ => rfl, ?_, ?_, h.operated⟩,
          ⟨fun _ _ => Iff.rfl, fun hs => absurd hopen hs, .inr (.inl ⟨hopen, rfl⟩), fun _ _ => rfl,
            ?_, fun hs => hs⟩⟩
        · exact fun hs => absurd hopen (h.backend hs).2
        · exact fun _ hs => by cases hs
        · exact ⟨(fun hs => by cases hs), fun hs => by cases hs⟩
        · exact fun hs => by cases hs
        · intro j out hev
          obtain hdone | hcancelled := h.outcome j out hev
          · rw [habsent] at hdone
            cases hdone
          · exact .inr hcancelled
        · intro out hs
          rw [habsent] at hs
          cases hs
      · rename_i habsent hclosing
        rw [h.absent.mp habsent] at hclosing
        cases hclosing
      · obtain ⟨_, rfl⟩ := hstep
        exact idle_kept h _
      · obtain ⟨_, rfl⟩ := hstep
        exact idle_kept h _

theorem uses_kept {s s' : Cache I V} {i : I} {op : Op I} {r : Reply I V op} (h : Sound s)
    (hp : Permitted s (.client (.task i)) op) (hstep : Uses s i op r s') :
    Sound s' ∧ Guarantee (.client (.task i)) s s' := by
  cases op with
  | admitOperation =>
    simp only [Uses] at hstep
    split at hstep
    · rename_i hopen
      obtain ⟨_, rfl⟩ := hstep
      exact admitOperation_kept h hopen
    · obtain ⟨_, rfl⟩ := hstep
      exact idle_kept h _
  | exitOperation =>
    obtain ⟨hsound, hguar, _⟩ := exitOperation_kept h hstep
    exact ⟨hsound, hguar⟩
  | aclose => exact aclose_kept h hstep
  | closeSettled =>
    obtain ⟨rfl, _⟩ := hstep
    exact idle_kept h _
  | ended e =>
    obtain rfl : s' = _ := hstep
    exact ended_kept h hp
  | _ => exact hstep.elim

/-- **What one step keeps**, given what its party knows. -/
theorem step_kept {s s' : Cache I V} {t : Party (Caller I)} {op : Op I} {r : Reply I V op}
    (h : Sound s) (hp : Permitted s t op) (hstep : Effect s t op r s') :
    Sound s' ∧ Guarantee t s s' := by
  by_cases hbackend : ∃ op', op = .backend op'
  · obtain ⟨op', rfl⟩ := hbackend
    obtain ⟨b, hstep, rfl⟩ := hstep
    exact backend_kept h hp hstep
  · match t with
    | .client (.task i) =>
      have huses : Uses s i op r s' := by
        cases op with
        | backend op' => exact absurd ⟨op', rfl⟩ hbackend
        | _ => exact hstep
      exact uses_kept h hp huses
    | .client .cleanup =>
      have hcleans : Cleans s op r s' := by
        cases op with
        | backend op' => exact absurd ⟨op', rfl⟩ hbackend
        | _ => exact hstep
      exact cleans_kept h hp hcleans
    | .closing | .worker | .loop =>
      cases op with
      | backend op' => exact absurd ⟨op', rfl⟩ hbackend
      | _ => exact hstep.elim

/-! ## Whole runs -/

abbrev Keeps {α : Type} (t : Party (Caller I)) (p : Script I V α)
    (Q : Except Raised α → Cache I V → Prop) (s : Cache I V) : Prop :=
  wp cacheSystem rules t p Q s

theorem wp_step {α : Type} {t : Party (Caller I)} {op : Op I} {k : Reply I V op → Script I V α}
    {Q : Except Raised α → Cache I V → Prop} {B : Cache I V → Prop} {s : Cache I V}
    (hB : Stable rules t B) (hs : B s) (hop : ∀ s, Sound s → B s → Permitted s t op)
    (h : ∀ s r s', Sound s → B s → Effect s t op r s' → Sound s' → Guarantee t s s' →
      Keeps t (k r) Q s') : Keeps t (.exec op k) Q s := by
  refine wp_exec hB hs ?_
  intro s r s' hinv hb hstep
  have hkept := step_kept hinv (hop s hinv hb) hstep
  exact ⟨hkept.1, hkept.2, h s r s' hinv hb hstep hkept.1 hkept.2⟩

/-- Work on the backend, by operations that `B` permits and that keep it. -/
theorem wp_onBackend {α : Type} {t : Party (Caller I)} {B : Cache I V → Prop}
    {ok : Admission.Op → Prop} {replies : (op : Admission.Op) → Admission.Reply V op → Prop}
    (hB : Stable rules t B) (hop : ∀ s op, ok op → Sound s → B s → BackendPermitted s t op)
    (hstep : ∀ s op r b, ok op → Sound s → B s → Admission.Effect s.backend t op r b →
      Guarantee t s { s with backend := b } → replies op r ∧ B { s with backend := b })
    {p : Admission.Script V α} {Q : Except Raised α → Prop} (hp : p.follows ok replies Q)
    {s : Cache I V} (hinv : Sound s) (hs : B s) :
    Keeps t (onBackend p) (fun out s => Q out ∧ B s) s := by
  refine wp_translate hB ?_ hp hinv hs
  intro op s hok _ hs
  refine wp_step hB hs (fun s hinv hb => hop s op hok hinv hb) ?_
  intro s r s' hinv hb heffect _ hguar
  obtain ⟨b, heffect, rfl⟩ := heffect
  obtain ⟨hreplies, hb'⟩ := hstep s op r b hok hinv hb heffect hguar
  exact wp_pure hB hb' fun s _ hb => ⟨r, rfl, hreplies, hb⟩

/-! ### What an operation of the backend replies while it is open -/

def readsAndWrites : Admission.Op → Prop
  | .checkOperation | .admitTask | .settled _ | .release | .sleep => True
  | _ => False

/-- No refusal, and no `SqliteBackendClosedError` of a worker. -/
def openReplies : (op : Admission.Op) → Admission.Reply V op → Prop
  | .checkOperation, r => r = true
  | .admitTask, r => r ≠ .refused
  | .settled _, r => ∀ m, r ≠ some (.error (.closed m))
  | _, _ => True

def NotClosed {α : Type} (out : Except Raised α) : Prop := ∀ m, out ≠ .error (.closed m)

theorem follows_awaitSettled (job n : Nat) (cancelled : Bool) :
    (awaitSettled Admission.sleep (.perform (Admission.Op.settled job)) n cancelled :
      Admission.Script V V).follows readsAndWrites openReplies NotClosed := by
  induction n generalizing cancelled with
  | zero => exact ⟨trivial, fun r => r.elim⟩
  | succ n ih =>
    refine ⟨trivial, fun r hr => ?_⟩
    match r, cancelled with
    | none, _ => exact ih true
    | some (.error e), true => exact fun m h => by cases h
    | some (.error e), false =>
      intro m h
      cases h
      exact hr m rfl
    | some (.ok v), true => exact fun m h => by cases h
    | some (.ok v), false => exact fun m h => by cases h

theorem follows_operation (n : Nat) :
    (Admission.operation n : Admission.Script V V).follows readsAndWrites openReplies NotClosed := by
  refine ⟨trivial, fun r hr => ?_⟩
  obtain rfl : r = true := hr
  refine ⟨trivial, fun r hr => ?_⟩
  match r with
  | .cancelled => exact fun m h => by cases h
  | .refused => exact absurd rfl hr
  | .submitted job =>
    show (Admission.admitted n job).follows _ _ _
    refine Prog.follows_settle NotClosed (follows_awaitSettled job n false) ?_
    intro out hout
    refine ⟨trivial, fun _ _ => ?_⟩
    cases out with
    | ok v => exact hout
    | error e => exact hout

/-- The backend is open for a task that is admitted. -/
theorem open_replies {s : Cache I V} {i : I} {op : Admission.Op} {r : Admission.Reply V op}
    {b : Backend (Caller I) V} (hinv : Sound s) (hin : i ∈ s.operationTasks)
    (hstep : Admission.Effect s.backend (.client (.task i)) op r b) : openReplies op r := by
  have hopen : s.backend.state = .opened := by
    cases hstate : s.backend.state with
    | opened => rfl
    | _ =>
      have hnone := (hinv.backend (by simp [hstate])).1
      rw [hnone] at hin
      cases hin
  cases op with
  | checkOperation =>
    simp only [Admission.Effect, Admission.Operates, if_pos hopen] at hstep
    exact hstep.1
  | admitTask =>
    obtain ⟨rfl, _⟩ | ⟨_, hstep⟩ := hstep
    · exact fun h => by cases h
    · rw [if_pos hopen] at hstep
      obtain ⟨rfl, _⟩ := hstep
      exact fun h => by cases h
  | settled job =>
    obtain ⟨hsettles, _⟩ := hstep
    obtain rfl | ⟨call, out, _, rfl⟩ := hsettles
    · exact fun m h => by cases h
    · cases out with
      | ok v => exact fun m h => by cases h
      | error e => exact fun m h => by cases h
  | _ => trivial

theorem wp_operation {i : I} {n : Nat} {s : Cache I V} (hinv : Sound s)
    (hs : i ∈ s.operationTasks) :
    Keeps (.client (.task i)) (onBackend (Admission.operation n))
      (fun out s => NotClosed out ∧ i ∈ s.operationTasks) s := by
  refine wp_onBackend (stable_member i) ?_ ?_ (follows_operation n) hinv hs
  · intro s op hok _ _
    cases op with
    | aclose | shutdown _ | abandon => exact hok.elim
    | _ => trivial
  · intro s op r b _ hinv hin heffect _
    exact ⟨open_replies hinv hin heffect, hin⟩

/-! ### Tasks -/

/-- The outcome of the close task, or the caller's cancellation. -/
def Observed (out : Except Raised Unit) (s : Cache I V) : Prop :=
  s.closeTask = .done out ∨ ∃ e, out = .error e ∧ e.isCancelled = true

theorem wp_awaitClose {i : I} {n : Nat} {cancelled : Bool} {s : Cache I V}
    (hs : i ∉ s.operationTasks) :
    Keeps (.client (.task i)) (awaitSettled sleep (.perform Op.closeSettled) n cancelled)
      (fun out s => Observed out s ∧ i ∉ s.operationTasks) s := by
  have hstable : ∀ out, Stable (rules (V := V)) (.client (.task i))
      (fun s => Observed out s ∧ i ∉ s.operationTasks) :=
    fun out => (stable_outcome _ out).and (stable_outside i)
  induction n generalizing cancelled s with
  | zero => exact wp_step (stable_true _) trivial (fun _ _ _ => trivial) (fun _ r => r.elim)
  | succ n ih =>
    refine wp_step (stable_outside i) hs (fun _ _ _ => trivial) ?_
    intro s r s' _ hs hstep _ _
    obtain ⟨rfl, rfl | ⟨out, hdone, rfl, _⟩⟩ := hstep
    · exact ih hs
    · match out, cancelled with
      | .error e, true => exact wp_fail (hstable _) ⟨.inr ⟨_, rfl, rfl⟩, hs⟩ fun _ _ h => h
      | .error e, false => exact wp_fail (hstable _) ⟨.inl hdone, hs⟩ fun _ _ h => h
      | .ok _, true => exact wp_fail (hstable _) ⟨.inr ⟨_, rfl, rfl⟩, hs⟩ fun _ _ h => h
      | .ok _, false => exact wp_pure (hstable _) ⟨.inl hdone, hs⟩ fun _ _ h => h

/-- Outside of operations `aclose` ends as the close task does. -/
theorem wp_aclose {i : I} {n : Nat} {s : Cache I V} (hs : i ∉ s.operationTasks) :
    Keeps (.client (.task i)) (aclose n) (fun out s => Observed out s ∧ i ∉ s.operationTasks) s := by
  refine wp_step (stable_outside i) hs (fun _ _ _ => trivial) ?_
  intro s r s' hinv hs hstep _ _
  simp only [Effect, Uses, if_neg hs] at hstep
  split at hstep
  · rename_i hclosed
    obtain ⟨rfl, rfl⟩ := hstep
    exact wp_pure ((stable_outcome _ _).and (stable_outside i)) ⟨.inl (hinv.closed hclosed), hs⟩
      fun _ _ h => h
  · split at hstep
    · obtain ⟨rfl, rfl⟩ := hstep
      exact wp_awaitClose hs
    · obtain ⟨rfl, rfl⟩ := hstep
      exact wp_awaitClose hs
    · rename_i habsent hopen _
      exact absurd (hinv.absent.mp habsent) hopen
    · obtain ⟨rfl, rfl⟩ := hstep
      exact wp_awaitClose hs

/-- Within an operation it fails at once. -/
theorem wp_acloseInside {i : I} {n : Nat} {s : Cache I V} (hs : i ∈ s.operationTasks) :
    Keeps (.client (.task i)) (aclose n) (fun _ s => i ∈ s.operationTasks) s := by
  refine wp_step (stable_member i) hs (fun _ _ _ => trivial) ?_
  intro s r s' _ hs hstep _ _
  simp only [Effect, Uses, if_pos hs] at hstep
  split at hstep
  · obtain ⟨rfl, rfl⟩ := hstep
    exact wp_pure (stable_member i) hs fun _ _ h => h
  · obtain ⟨rfl, rfl⟩ := hstep
    exact wp_fail (stable_member i) hs fun _ _ h => h

theorem wp_body {i : I} {n : Nat} (awaits : List Await) {s : Cache I V} (hinv : Sound s)
    (hs : i ∈ s.operationTasks) :
    Keeps (.client (.task i)) (body n awaits) (fun out s => NotClosed out ∧ i ∈ s.operationTasks)
      s := by
  induction awaits generalizing s with
  | nil => exact wp_pure (stable_member i) hs fun _ _ h => ⟨(fun m heq => by cases heq), h⟩
  | cons await rest ih =>
    cases await with
    | operation =>
      refine wp_bind hinv (wp_mono ?_ (wp_operation hinv hs))
      intro out s hinv hout
      obtain ⟨hout, hin⟩ := hout
      cases out with
      | ok v => exact ih hinv hin
      | error e =>
        refine wp_fail (stable_member i) hin fun _ _ h => ⟨fun m heq => ?_, h⟩
        cases heq
        exact hout m rfl
    | close =>
      refine wp_settle hinv (wp_mono ?_ (wp_acloseInside hs))
      exact fun _ s hinv hin => ih hinv hin

theorem wp_operate {i : I} {n : Nat} (awaits : List Await) {s : Cache I V}
    (hs : i ∉ s.operationTasks) :
    Keeps (.client (.task i)) (operate n awaits)
      (fun out s => NotClosed out ∧ i ∉ s.operationTasks) s := by
  refine wp_step (stable_outside i) hs (fun _ _ _ => trivial) ?_
  intro s r s' _ hs hstep hinv _
  simp only [Effect, Uses] at hstep
  split at hstep
  · obtain ⟨rfl, rfl⟩ := hstep
    show Keeps _ ((body n awaits).settle _) _ _
    refine wp_settle hinv (wp_mono ?_ (wp_body awaits hinv (Finset.mem_insert_self i _)))
    intro out s _ hout
    refine wp_step (stable_member i) hout.2 (fun _ _ _ => trivial) ?_
    intro s r s' hinv _ hstep _ _
    have hoff := (exitOperation_kept hinv hstep).2.2
    cases out with
    | ok a => exact wp_pure (stable_outside i) hoff fun _ _ h => ⟨hout.1, h⟩
    | error e => exact wp_fail (stable_outside i) hoff fun _ _ h => ⟨hout.1, h⟩
  · obtain ⟨rfl, rfl⟩ := hstep
    exact wp_fail (stable_outside i) hs fun _ _ h => ⟨(fun m heq => by cases heq), h⟩

theorem wp_task {i : I} {n : Nat} (actions : List Action) {s : Cache I V} (hinv : Sound s)
    (hs : i ∉ s.operationTasks) :
    Keeps (.client (.task i)) (task i n actions) (fun _ _ => True) s := by
  induction actions generalizing s with
  | nil => exact wp_pure (stable_true _) trivial fun _ _ _ => trivial
  | cons action rest ih =>
    cases action with
    | operate awaits =>
      refine wp_settle hinv (wp_mono ?_ (wp_operate awaits hs))
      intro out s _ hout
      refine wp_step (stable_outside i) hout.2 (fun _ _ _ => hout.1) ?_
      intro s r s' _ hs hstep hinv _
      obtain rfl : s' = _ := hstep
      exact ih hinv hs
    | close =>
      refine wp_settle hinv (wp_mono ?_ (wp_aclose hs))
      intro out s _ hout
      refine wp_step ((stable_outcome _ out).and (stable_outside i)) hout (fun _ _ h => h.1) ?_
      intro s r s' _ hs hstep hinv _
      obtain rfl : s' = _ := hstep
      exact ih hinv hs.2

/-! ### The close tasks -/

def closesBackend : Admission.Op → Prop
  | .aclose | .closeSettled | .sleep => True
  | _ => False

theorem follows_aclose (n : Nat) : (Admission.aclose n : Admission.Script V Unit).follows
    closesBackend (fun _ _ => True) (fun _ => True) := by
  have hawait : ∀ n cancelled, (awaitSettled Admission.sleep
      (.perform Admission.Op.closeSettled) n cancelled : Admission.Script V Unit).follows
        closesBackend (fun _ _ => True) (fun _ => True) := by
    intro n
    induction n with
    | zero => exact fun _ => ⟨trivial, fun r => r.elim⟩
    | succ n ih =>
      refine fun cancelled => ⟨trivial, fun r _ => ?_⟩
      match r, cancelled with
      | none, _ => exact ih true
      | some (.error e), _ => exact trivial
      | some (.ok _), true => exact trivial
      | some (.ok _), false => exact trivial
  refine ⟨trivial, fun r _ => ?_⟩
  cases r with
  | true => exact hawait n false
  | false => trivial

/-- The cache closes its backend once it is drained. -/
theorem wp_closeBackend {n : Nat} {s : Cache I V} (hinv : Sound s) (hs : Drained s) :
    Keeps (.client .cleanup) (onBackend (Admission.aclose n)) (fun _ s => s.closeTask = .created)
      s := by
  refine wp_mono (fun _ _ _ h => h.2.1) (wp_onBackend stable_drained ?_ ?_ (follows_aclose n) hinv hs)
  · intro s op hok _ hs
    cases op with
    | aclose => exact ⟨rfl, hs⟩
    | shutdown _ | abandon => exact hok.elim
    | _ => trivial
  · exact fun _ _ _ _ _ _ hs _ _ => ⟨trivial, hs⟩

theorem wp_waitDrained {s : Cache I V} (hs : s.closeTask = .created) :
    Keeps (.client .cleanup) (waitDrained : Script I V Unit)
      (fun out s => s.closeTask = .created ∧ ∀ a, out = .ok a → Drained s) s := by
  refine wp_step stable_created hs (fun _ _ h => h) ?_
  intro s r s' hinv hcreated hstep _ _
  obtain ⟨rfl, rfl⟩ := hstep
  cases hset : s.drained with
  | true =>
    exact wp_pure stable_drained ⟨hcreated, hinv.drained.mp hset⟩ fun _ _ h => ⟨h.1, fun _ _ => h⟩
  | false =>
    refine wp_step stable_created hcreated (fun _ _ _ => trivial) ?_
    intro s r s' hinv hcreated hstep _ _
    obtain ⟨rfl | ⟨rfl, hwoken⟩, rfl⟩ := hstep
    · exact wp_fail stable_created hcreated fun _ _ h => ⟨h, fun _ heq => by cases heq⟩
    · exact wp_pure stable_drained ⟨hcreated, hinv.woken hwoken⟩
        fun _ _ h => ⟨h.1, fun _ _ => h⟩

theorem wp_closed {out : Except Raised Unit} {k : Script I V Unit} {s : Cache I V}
    (hs : s.closeTask = .created)
    (hk : ∀ s, Keeps (.client .cleanup) k (fun _ _ => True) s) :
    Keeps (.client .cleanup) (.exec (.closed out) fun _ => k) (fun _ _ => True) s := by
  refine wp_step stable_created hs (fun _ _ h => h) ?_
  exact fun _ _ s' _ _ _ _ _ => hk s'

theorem wp_cleanup {n : Nat} {s : Cache I V} :
    Keeps (.client .cleanup) (closeTask n : Script I V Unit) (fun _ _ => True) s := by
  refine wp_step (stable_true _) trivial (fun _ _ _ => trivial) ?_
  intro s r s' _ _ hstep hinv _
  obtain ⟨hcreated, rfl⟩ := hstep
  have hends : ∀ (out : Except Raised Unit) (s : Cache I V),
      Keeps (.client .cleanup) (.ofExcept out : Script I V Unit) (fun _ _ => True) s := by
    intro out s
    cases out with
    | ok a => exact wp_pure (stable_true _) trivial fun _ _ _ => trivial
    | error e => exact wp_fail (stable_true _) trivial fun _ _ _ => trivial
  cases r with
  | true =>
    show Keeps _ (closeResources n) _ _
    have hcleanup : Keeps (.client .cleanup) (do
        waitDrained
        onBackend (Admission.aclose n)) (fun _ s => s.closeTask = .created) s' := by
      refine wp_bind hinv (wp_mono ?_ (wp_waitDrained hcreated))
      intro out s hinv hout
      cases out with
      | ok a => exact wp_closeBackend hinv (hout.2 a rfl)
      | error e => exact wp_fail stable_created hout.1 fun _ _ h => h
    refine wp_settle hinv (wp_mono ?_ hcleanup)
    exact fun out s _ hcreated => wp_closed hcreated (hends _)
  | false => exact wp_closed hcreated fun s => hends (.ok ()) s

/-! ### The parties that only work on the backend -/

def closesConnection : Admission.Op → Prop
  | .admitClose | .settled _ | .release | .shutdown _ | .sleep => True
  | _ => False

theorem follows_ofExcept {α : Type} (out : Except Raised α) :
    (Prog.ofExcept out : Admission.Script V α).follows closesConnection (fun _ _ => True)
      (fun _ => True) := by
  cases out with
  | ok a => trivial
  | error e => trivial

theorem follows_admitted (n job : Nat) : (Admission.admitted n job : Admission.Script V V).follows
    closesConnection (fun _ _ => True) (fun _ => True) := by
  have hawait : ∀ n cancelled, (awaitSettled Admission.sleep
      (.perform (Admission.Op.settled job)) n cancelled : Admission.Script V V).follows
        closesConnection (fun _ _ => True) (fun _ => True) := by
    intro n
    induction n with
    | zero => exact fun _ => ⟨trivial, fun r => r.elim⟩
    | succ n ih =>
      refine fun cancelled => ⟨trivial, fun r _ => ?_⟩
      match r, cancelled with
      | none, _ => exact ih true
      | some (.error e), _ => exact trivial
      | some (.ok _), true => exact trivial
      | some (.ok _), false => exact trivial
  refine Prog.follows_settle (fun _ => True) (hawait n false) ?_
  exact fun out _ => ⟨trivial, fun _ _ => follows_ofExcept out⟩

theorem follows_closeConnection (n : Nat) :
    (Admission.closeConnection n : Admission.Script V Unit).follows closesConnection
      (fun _ _ => True) (fun _ => True) := by
  refine ⟨trivial, fun r _ => ?_⟩
  cases r with
  | none => trivial
  | some job =>
    show (Admission.admitted n job >>= fun _ => .pure ()).follows _ _ _
    refine Prog.follows_settle (fun _ => True) (follows_admitted n job) ?_
    intro out _
    cases out with
    | ok v => trivial
    | error e => trivial

theorem follows_closeResources (n : Nat) :
    (Admission.closeResources n : Admission.Script V Unit).follows closesConnection
      (fun _ _ => True) (fun _ => True) := by
  refine Prog.follows_settle (fun _ => True) (follows_closeConnection n) ?_
  exact fun out _ => ⟨trivial, fun _ _ => follows_ofExcept out⟩

theorem wp_closing {n : Nat} {s : Cache I V} :
    Keeps .closing (onBackend (Admission.closeTask n) : Script I V Unit) (fun _ _ => True) s := by
  refine wp_step (stable_true _) trivial (fun _ _ _ => trivial) ?_
  intro s r s' hinv _ hstep hinv' _
  obtain ⟨b, ⟨hcreated, rfl⟩, rfl⟩ := hstep
  have hclosing : s.backend.state ≠ .opened := by
    refine hinv.started ?_
    rw [hcreated]
    exact fun h => by cases h
  cases r with
  | true =>
    refine wp_mono (fun _ _ _ _ => trivial) (wp_onBackend (stable_closing _) ?_ ?_
      (follows_closeResources n) hinv hclosing)
    · intro s op hok _ hs
      cases op with
      | shutdown _ => exact hs
      | aclose | abandon => exact hok.elim
      | _ => trivial
    · exact fun _ _ _ _ _ _ hs _ hguar => ⟨trivial, hguar.backend hs⟩
  | false =>
    refine wp_step (stable_closing _) hclosing (fun _ _ hs => hs) ?_
    exact fun _ _ _ _ _ _ _ _ => wp_pure (stable_true _) trivial fun _ _ _ => trivial

theorem wp_repeated {t : Party (Caller I)} (op : Admission.Op)
    (hop : ∀ s : Cache I V, BackendPermitted s t op) (n : Nat) {s : Cache I V} :
    Keeps t (onBackend (Admission.repeated op n) : Script I V Unit) (fun _ _ => True) s := by
  induction n generalizing s with
  | zero => exact wp_pure (stable_true _) trivial fun _ _ _ => trivial
  | succ n ih =>
    exact wp_step (stable_true _) trivial (fun s _ _ => hop s) fun _ _ _ _ _ _ _ _ => ih

/-! ## Closing and operations -/

theorem wp_parties (setting : Setting I) (t : Party (Caller I)) :
    Keeps t (setting.script t) (fun _ _ => True) (.init I V) := by
  match t with
  | .client (.task i) => exact wp_task _ sound_init (Finset.notMem_empty i)
  | .client .cleanup => exact wp_cleanup
  | .closing => exact wp_closing
  | .worker => exact wp_repeated .work (fun _ => trivial) _
  | .loop => exact wp_repeated .deliver (fun _ => trivial) _

/-- **Admitted operations finish before the backend closes.** The event says whether one is
admitted; once the close of the backend has begun none is, and so none fails because the backend
is closed; every step moves the state forward; and whoever waits for the close without being
cancelled sees its one outcome. -/
theorem operations_finish_before_close (setting : Setting I) (c : Run I V)
    (hc : Runs setting c) :
    (c.state.drained = true ↔ c.state.operationTasks = ∅) ∧
    (c.state.backend.state ≠ .opened → c.state.operationTasks = ∅) ∧
    (∀ i m, Event.operated i (.error (.closed m)) ∉ c.state.log) ∧
    (∀ c', Relation.ReflTransGen (Step cacheSystem) c c' →
      (c.state.backend.state ≠ .opened → c'.state.backend.state ≠ .opened) ∧
      Relation.ReflTransGen Moves c.state.state c'.state.state) ∧
    (∀ i j out out', Event.closed i out ∈ c.state.log → Event.closed j out' ∈ c.state.log →
      (∀ e, out = .error e → e.isCancelled = false) →
      (∀ e, out' = .error e → e.isCancelled = false) → out = out') := by
  have hkill : ∀ (t : Party (Caller I)) (s s' : Cache I V), Sound s → cacheSystem.kill t s s' →
      Sound s' ∧ Guarantee t s s' := fun _ _ _ _ (h : False) => h.elim
  obtain ⟨hsound, _⟩ := reachable_wp (R := rules) sound_init hkill (wp_parties setting) hc
  have hsound : Sound c.state := hsound
  refine ⟨hsound.drained, fun h => (hsound.backend h).1, hsound.operated, ?_, ?_⟩
  · intro c' hsteps
    exact guarantee_moves (reachable_guar (R := rules) sound_init hkill (wp_parties setting) hc hsteps)
  · intro i j out out' hi hj hout hout'
    have hdone : ∀ k o, Event.closed k o ∈ c.state.log →
        (∀ e, o = .error e → e.isCancelled = false) → c.state.closeTask = .done o := by
      intro k o hev hlive
      obtain hdone | ⟨e, he, hcancelled⟩ := hsound.outcome k o hev
      · exact hdone
      · rw [hlive e he] at hcancelled
        cases hcancelled
    have heq := (hdone i out hi hout).symm.trans (hdone j out' hj hout')
    simpa only [CloseTask.done.injEq] using heq

/-! ### A close while an operation is admitted -/

theorem Runs.step {setting : Setting I} {c : Run I V} (hc : Runs setting c)
    (t : Party (Caller I)) (op : Op I) (r : Reply I V op) {k : Reply I V op → Script I V Unit}
    {s' : Cache I V} (hp : c.prog t = some (.exec op k)) (hs : Effect c.state t op r s') :
    Runs setting ⟨s', Function.update c.prog t (some (k r))⟩ :=
  Reachable.exec hc hp hs

theorem effect_last {s : Cache I V} {i : I} (h : s.operationTasks.erase i = ∅) :
    Effect s (.client (.task i)) .exitOperation ()
      { s with operationTasks := ∅, drained := true, waiter := s.waiter.set } := by
  simp only [Effect, Uses, if_pos h]

def sampleSetting : Setting Nat where
  actions i := match i with
    | 0 => [.operate [.operation]]
    | 1 => [.close]
    | _ => []
  cancellations _ := 3
  calls := 1

/-- The backend's close begins after the operation that was admitted before `aclose`. -/
theorem operations_finish_before_close_waiting : ∃ c : Run Nat Unit, Runs sampleSetting c ∧
    c.state.log = [.operated 0 (.ok ())] ∧ c.state.backend.state = .closing ∧
    c.state.operationTasks = ∅ := by
  have hzero : ∀ {P : Nat → Prop}, ∀ j < 0, P j := fun _ hj => absurd hj (Nat.not_lt_zero _)
  have h : Runs sampleSetting (start (.init Nat Unit) _) := .refl
  have h := Runs.step h (.client (.task 0)) .admitOperation true rfl ⟨rfl, rfl⟩
  have h := Runs.step h (.client (.task 0)) (.backend .checkOperation) true rfl
    ⟨_, ⟨rfl, rfl⟩, rfl⟩
  have h := Runs.step h (.client (.task 0)) (.backend .admitTask) (.submitted 0) rfl
    ⟨_, .inr ⟨rfl, rfl, rfl⟩, rfl⟩
  have h := Runs.step h (.client (.task 1)) .aclose .waits rfl ⟨rfl, rfl⟩
  have h := Runs.step h (.client .cleanup) .begin true rfl ⟨rfl, rfl⟩
  have h := Runs.step h (.client .cleanup) .waitDrained false rfl ⟨rfl, rfl⟩
  have h := Runs.step h .worker (.backend .work) () rfl ⟨_, ⟨0, _, .ok (), rfl, hzero, rfl⟩, rfl⟩
  have h := Runs.step h .loop (.backend .deliver) () rfl ⟨_, ⟨0, _, .ok (), rfl, rfl⟩, rfl⟩
  have h := Runs.step h (.client (.task 0)) (.backend (.settled 0)) (some (.ok ())) rfl
    ⟨_, ⟨.inr ⟨_, _, rfl, rfl⟩, rfl⟩, rfl⟩
  have h := Runs.step h (.client (.task 0)) (.backend .release) () rfl ⟨_, rfl, rfl⟩
  have h := Runs.step h (.client (.task 0)) .exitOperation () rfl (effect_last (by decide))
  have h := Runs.step h (.client (.task 0)) (.ended (.operated 0 (.ok ()))) () rfl rfl
  have h := Runs.step h (.client .cleanup) .wokenDrained true rfl ⟨.inr ⟨rfl, rfl⟩, rfl⟩
  have h := Runs.step h (.client .cleanup) (.backend .aclose) true rfl ⟨_, ⟨rfl, rfl⟩, rfl⟩
  have hnone := (operations_finish_before_close sampleSetting _ h).2.1 (fun hs => by cases hs)
  exact ⟨_, h, rfl, rfl, hnone⟩

end DrStore.Store.CacheLifecycle
