import DrStore.Base.Collections
import DrStore.Base.Pool

/-! # Admission of operations (storage_backends/sqlite.py, `SqliteBackend._run` and `aclose`)

The tasks of one event loop share one worker. A step is what a task does from one await to the
next; an await may reply with a cancellation, as often as someone cancels. `asyncio.Lock` is its
holder, and nothing cancels what `asyncio.shield` guards. The log and the turns are no part of
the backend: they say what was submitted for which operation, and when. -/
namespace DrStore.Store.Admission
open DrStore.Base.Collections DrStore.Base.Programs DrStore.Base.Pool

/-! ## The backend -/

inductive Lifecycle where
  | opened
  | closing
  | closed
  | failed
deriving DecidableEq

/-- The tasks that use the backend, its close task, its worker thread and the event loop. -/
inductive Party (C : Type) where
  | client (c : C)
  | closing
  | worker
  | loop
deriving DecidableEq

/-- What the worker is called for: a client's operation, by its turn, or `connection.close`. -/
inductive Call (C : Type) where
  | operation (c : C) (turn : Nat)
  | close
deriving DecidableEq

def Call.owner {C : Type} : Call C → Party C
  | .operation c _ => .client c
  | .close => .closing

/-- What a function of the worker raises. -/
structure WorkerError where
  typeName : String
  message : String

/-- Exceptions, by what the backend and the cache that owns it tell apart. -/
inductive Raised where
  | closed (message : String)
  | cacheClosed (message : String)
  | cacheClose (message : String)
  | cacheCloseFrom (message : String) (cause : Raised)
  | cancelled
  | cancelledFrom (cause : Raised)
  | worker (e : WorkerError)

def Raised.isCancelled : Raised → Bool
  | .cancelled | .cancelledFrom _ => true
  | _ => false

/-- A call of the worker: submitted, executed by its thread, settled on the event loop. -/
inductive Status (V : Type) where
  | submitted
  | executed (out : Except WorkerError V)
  | settled (out : Except WorkerError V)

def Status.isSettled {V : Type} : Status V → Bool
  | .settled _ => true
  | _ => false

structure Job (C V : Type) where
  call : Call C
  status : Status V

inductive CloseTask where
  | absent
  | created
  | done (out : Except Raised Unit)

inductive Event (C : Type) where
  | submitted (call : Call C)
  | left
  | withdrew (c : C) (turn : Nat)

def Event.call {C : Type} : Event C → Option (Call C)
  | .submitted call => some call
  | _ => none

structure Backend (C V : Type) where
  state : Lifecycle
  admission : Option (Party C)
  closeTask : CloseTask
  jobs : List (Job C V)
  log : List (Event C)
  turn : C → Nat

def Backend.init (C V : Type) : Backend C V where
  state := .opened
  admission := none
  closeTask := .absent
  jobs := []
  log := []
  turn _ := 0

variable {C V : Type}

def Backend.note (s : Backend C V) (e : Event C) : Backend C V := { s with log := s.log ++ [e] }

/-- The lock is taken, and the worker called. -/
def Backend.submit (s : Backend C V) (call : Call C) : Backend C V where
  state := s.state
  admission := some call.owner
  closeTask := s.closeTask
  jobs := s.jobs ++ [⟨call, .submitted⟩]
  log := s.log ++ [.submitted call]
  turn := s.turn

/-! ## Steps -/

inductive Op where
  | checkOperation
  | admitTask
  | settled (job : Nat)
  | release
  | aclose
  | closeSettled
  | ended
  | begin
  | admitClose
  | shutdown (out : Except Raised Unit)
  | abandon
  | work
  | deliver
  | sleep

inductive Admitted where
  | cancelled
  | refused
  | submitted (job : Nat)

/-- Of an await `none` is a cancellation, of the task or of what it awaits. -/
abbrev Reply (V : Type) : Op → Type
  | .checkOperation | .aclose | .begin => Bool
  | .admitTask => Admitted
  | .settled _ => Option (Except Raised V)
  | .closeSettled => Option (Except Raised Unit)
  | .admitClose => Option Nat
  | .sleep => Empty
  | _ => Unit

/-- The reply of `asyncio.shield` on the future of a call. -/
def Settles (s : Backend C V) (job : Nat) (r : Option (Except Raised V)) : Prop :=
  r = none ∨ ∃ call out, s.jobs[job]? = some ⟨call, .settled out⟩ ∧ r = some (out.mapError .worker)

def Operates [DecidableEq C] (s : Backend C V) (c : C) : (op : Op) → Reply V op → Backend C V → Prop
  | .checkOperation, r, s' =>
      if s.state = .opened then r = true ∧ s' = s
      else r = false ∧ s' = s.note (.withdrew c (s.turn c))
  | .admitTask, r, s' =>
      r = .cancelled ∧ s' = s.note (.withdrew c (s.turn c)) ∨
      -- the state is checked again and the worker called before the next await
      s.admission = none ∧
        if s.state = .opened then
          r = .submitted s.jobs.length ∧ s' = s.submit (.operation c (s.turn c))
        else r = .refused ∧ s' = s.note (.withdrew c (s.turn c))
  | .settled job, r, s' => Settles s job r ∧ s' = s
  | .release, _, s' => s' = { s with admission := none }
  | .aclose, r, s' =>
      if s.state = .closed then r = false ∧ s' = s
      else r = true ∧ match s.closeTask with
        | .absent => s' = { s with state := .closing, closeTask := .created }.note .left
        | _ => s' = s
  | .closeSettled, r, s' => s' = s ∧
      (r = none ∨ ∃ out, s.closeTask = .done out ∧ r = some out ∧
        ∀ e, out = .error e → e.isCancelled = false)
  | .ended, _, s' => s' = { s with turn := Function.update s.turn c (s.turn c + 1) }
  | _, _, _ => False

def Closes (s : Backend C V) : (op : Op) → Reply V op → Backend C V → Prop
  -- false for a task that is cancelled before it has run
  | .begin, _, s' => s.closeTask = .created ∧ s' = s
  | .admitClose, r, s' =>
      r = none ∧ s' = s ∨ s.admission = none ∧ r = some s.jobs.length ∧ s' = s.submit .close
  | .settled job, r, s' => Settles s job r ∧ s' = s
  | .release, _, s' => s' = { s with admission := none }
  | .shutdown out, _, s' =>
      -- waits for the worker to execute what it was called for
      (∀ job ∈ s.jobs, job.status ≠ .submitted) ∧
        s' = { s with state := (match out with | .ok _ => .closed | .error _ => .failed),
                      closeTask := .done out }
  | .abandon, _, s' => s' = { s with closeTask := .done (.error .cancelled) }
  | _, _, _ => False

def Effect [DecidableEq C] (s : Backend C V) : Party C → (op : Op) → Reply V op → Backend C V → Prop
  | .client c => Operates s c
  | .closing => Closes s
  | .worker => fun op _ s' => match op with
    | .work => ∃ k call out, s.jobs[k]? = some ⟨call, .submitted⟩ ∧
        (∀ j < k, ∀ job, s.jobs[j]? = some job → job.status ≠ .submitted) ∧
        s' = { s with jobs := s.jobs.set k ⟨call, .executed out⟩ }
    | _ => False
  | .loop => fun op _ s' => match op with
    | .deliver => ∃ k call out, s.jobs[k]? = some ⟨call, .executed out⟩ ∧
        s' = { s with jobs := s.jobs.set k ⟨call, .settled out⟩ }
    | _ => False

def admissionSystem [DecidableEq C] : System (Party C) (Backend C V) Op (Reply V) where
  step t s op r s' := Effect s t op r s'
  kill _ _ _ := False

/-! ## The tasks -/

abbrev Script (V α : Type) := Prog Op (Reply V) Raised α

/-- `_await_settled`, in a run with at most so many cancellations of it. -/
def awaitSettled {O : Type} {R : O → Type} {α : Type} (sleep : Prog O R Raised α)
    (future : Prog O R Raised (Option (Except Raised α))) : Nat → Bool → Prog O R Raised α
  | 0, _ => sleep
  | n + 1, cancelled => do
    match ← future with
    | none => awaitSettled sleep future n true
    | some (.error e) => .fail (if cancelled then .cancelledFrom e else e)
    | some (.ok a) => if cancelled then .fail .cancelled else return a

def sleep {α : Type} : Script V α := .exec .sleep Empty.elim

/-- The end of `async with self._admission`, once the call is submitted. -/
def admitted (cancellations job : Nat) : Script V V :=
  (awaitSettled sleep (.perform (Op.settled job)) cancellations false).settle fun out => do
    .perform Op.release
    .ofExcept out

def run (cancellations : Nat) : Script V V := do
  match ← .perform Op.admitTask with
  | .cancelled => .fail .cancelled
  | .refused => .fail (.closed "SQLite backend is closed")
  | .submitted job => admitted cancellations job

/-- A read or a write, which checks its arguments between the two. -/
def operation (cancellations : Nat) : Script V V := do
  if ← .perform Op.checkOperation then run cancellations
  else .fail (.closed "SQLite backend is closed")

def aclose (cancellations : Nat) : Script V Unit := do
  if ← .perform Op.aclose then awaitSettled sleep (.perform Op.closeSettled) cancellations false
  else return ()

/-- The `try` of `_close_resources`. -/
def closeConnection (cancellations : Nat) : Script V Unit := do
  match ← .perform Op.admitClose with
  | none => .fail .cancelled
  | some job => do
    let _ ← admitted cancellations job
    return ()

def closeResources (cancellations : Nat) : Script V Unit :=
  (closeConnection cancellations).settle fun out => do
    .perform (Op.shutdown out)
    .ofExcept out

/-- The close task, which may be cancelled like any other. -/
def closeTask (cancellations : Nat) : Script V Unit := do
  if ← .perform Op.begin then closeResources cancellations else .perform Op.abandon

inductive Action where
  | operate
  | close

/-- One operation or `aclose` after the other, whatever they raise. -/
def client (cancellations : Nat) : List Action → Script V Unit
  | [] => .pure ()
  | .operate :: rest => (operation cancellations).settle fun _ => do
    .perform Op.ended
    client cancellations rest
  | .close :: rest => (aclose cancellations).settle fun _ => do
    .perform Op.ended
    client cancellations rest

def repeated (op : Op) : Nat → Script V Unit
  | 0 => .pure ()
  | n + 1 => .exec op fun _ => repeated op n

/-- Any actions of any clients, and any number of cancellations and steps of the worker. -/
structure Setting (C : Type) where
  actions : C → List Action
  cancellations : Party C → Nat
  calls : Nat

def Setting.script (setting : Setting C) : Party C → Script V Unit
  | .client c => client (setting.cancellations (.client c)) (setting.actions c)
  | .closing => closeTask (setting.cancellations .closing)
  | .worker => repeated .work setting.calls
  | .loop => repeated .deliver setting.calls

abbrev Run (C V : Type) := Config (Party C) (Backend C V) Op (Reply V) Raised Unit

def Runs [DecidableEq C] (setting : Setting C) (c : Run C V) : Prop :=
  Reachable admissionSystem (.init C V) setting.script c

/-! ## The invariant -/

def Unsettled (s : Backend C V) (k : Nat) (call : Call C) : Prop :=
  ∃ status, s.jobs[k]? = some ⟨call, status⟩ ∧ status.isSettled = false

def Called (s : Backend C V) (call : Call C) : Prop :=
  ∃ (k : Nat) (status : Status V), s.jobs[k]? = some ⟨call, status⟩

/-- No operation is submitted after the state left `OPEN`. -/
def Late (e e' : Event C) : Prop := e = .left → ∀ c n, e' ≠ .submitted (.operation c n)

structure Sound (s : Backend C V) : Prop where
  held : ∀ k call, Unsettled s k call → s.admission = some call.owner
  single : ∀ j k call call', Unsettled s j call → Unsettled s k call' → j = k
  opened : s.state = .opened ↔ s.closeTask = .absent
  unleft : s.closeTask = .absent → Event.left ∉ s.log ∧ ¬ Called s .close
  left : s.closeTask ≠ .absent → Event.left ∈ s.log
  logged : s.log.filterMap Event.call = s.jobs.map Job.call
  last : ∀ k status, s.jobs[k]? = some ⟨.close, status⟩ →
    k + 1 = s.jobs.length ∧ ∀ j < k, ∀ call, ¬ Unsettled s j call
  late : s.log.Pairwise Late
  turns : ∀ c n, Called s (.operation c n) ∨ Event.withdrew c n ∈ s.log → n ≤ s.turn c
  apart : ∀ c n, Event.withdrew c n ∈ s.log → ¬ Called s (.operation c n)

structure Guarantee (t : Party C) (s s' : Backend C V) : Prop where
  settled : ∀ k call, Unsettled s' k call → k < s.jobs.length → Unsettled s k call
  held : ∀ u, s.admission = some u → u ≠ t →
    s'.admission = some u ∧ s'.jobs.length = s.jobs.length
  own : ∀ c, t ≠ .client c → s'.turn c = s.turn c ∧ ∀ n,
    (Called s' (.operation c n) → Called s (.operation c n)) ∧
      (Event.withdrew c n ∈ s'.log → Event.withdrew c n ∈ s.log)
  close : t ≠ .closing → Called s' .close → Called s .close
  started : s.closeTask ≠ .absent → s'.closeTask ≠ .absent

def rules : Rules (Party C) (Backend C V) := ⟨Sound, Guarantee⟩

/-- Nothing was submitted for the next operation of a client, nor did it withdraw. -/
def Fresh (c : C) (s : Backend C V) : Prop :=
  ¬ Called s (.operation c (s.turn c)) ∧ Event.withdrew c (s.turn c) ∉ s.log

/-- The admission lock is held, and only a call with `P` is not settled. -/
def Holding (t : Party C) (P : Nat → Prop) (s : Backend C V) : Prop :=
  s.admission = some t ∧ ∀ k call, Unsettled s k call → P k

/-- The close task is running, and has not called the worker. -/
def Closing (s : Backend C V) : Prop := s.closeTask ≠ .absent ∧ ¬ Called s .close

def Permitted (s : Backend C V) (t : Party C) : Op → Prop
  | .checkOperation | .admitTask => ∀ c, t = .client c → Fresh c s
  | .release => Holding t (fun _ => False) s
  | .admitClose => Closing s
  | .shutdown _ | .abandon => s.closeTask ≠ .absent
  | _ => True

/-! ### Steps that leave the calls of the worker alone -/

theorem Unsettled.lt {s : Backend C V} {k : Nat} {call : Call C} (h : Unsettled s k call) :
    k < s.jobs.length := by
  obtain ⟨status, hk, _⟩ := h
  exact (List.getElem?_eq_some_iff.mp hk).1

theorem sound_idle {s : Backend C V} (h : Sound s) (t : Party C) : Sound s ∧ Guarantee t s s :=
  ⟨h, fun _ _ h _ => h, fun _ h _ => ⟨h, rfl⟩, fun _ _ => ⟨rfl, fun _ => ⟨id, id⟩⟩, fun _ => id, id⟩

theorem late_note {log : List (Event C)} {e : Event C} (h : log.Pairwise Late)
    (he : Event.left ∈ log → ∀ c n, e ≠ .submitted (.operation c n)) :
    (log ++ [e]).Pairwise Late := by
  refine List.pairwise_append.mpr ⟨h, List.pairwise_singleton _ _, ?_⟩
  intro a ha b hb hleft
  obtain rfl := List.mem_singleton.mp hb
  exact he (hleft ▸ ha)

/-- An operation that withdraws is noted. -/
theorem withdrew_kept {s : Backend C V} {c : C} (h : Sound s) (hfresh : Fresh c s) :
    Sound (s.note (.withdrew c (s.turn c))) ∧
      Guarantee (.client c) s (s.note (.withdrew c (s.turn c))) := by
  have hlog : ∀ d n, Event.withdrew d n ∈ (s.note (.withdrew c (s.turn c))).log →
      Event.withdrew d n ∈ s.log ∨ d = c ∧ n = s.turn c := by
    intro d n hev
    obtain hold | hnew := List.mem_append.mp hev
    · exact .inl hold
    · have hnew := List.mem_singleton.mp hnew
      simp only [Event.withdrew.injEq] at hnew
      exact .inr hnew
  refine ⟨⟨h.held, h.single, h.opened, ?_, ?_, ?_, h.last, ?_, ?_, ?_⟩,
    ⟨fun _ _ h _ => h, fun _ h _ => ⟨h, rfl⟩, ?_, fun _ h => h, fun h => h⟩⟩
  · intro habsent
    refine ⟨?_, (h.unleft habsent).2⟩
    intro hleft
    obtain hold | hnew := List.mem_append.mp hleft
    · exact (h.unleft habsent).1 hold
    · cases List.mem_singleton.mp hnew
  · exact fun hstarted => List.mem_append_left _ (h.left hstarted)
  · simpa [Backend.note, List.filterMap_cons, Event.call] using h.logged
  · exact late_note h.late fun _ d n heq => by cases heq
  · intro d n hmention
    obtain hcalled | hev := hmention
    · exact h.turns d n (.inl hcalled)
    · obtain hold | ⟨rfl, rfl⟩ := hlog d n hev
      · exact h.turns d n (.inr hold)
      · exact Nat.le_refl _
  · intro d n hev
    obtain hold | ⟨rfl, rfl⟩ := hlog d n hev
    · exact h.apart d n hold
    · exact hfresh.1
  · intro d hd
    refine ⟨rfl, fun n => ⟨fun h => h, ?_⟩⟩
    intro hev
    obtain hold | ⟨rfl, _⟩ := hlog d n hev
    · exact hold
    · exact absurd rfl hd

/-- The lock is released once every call is settled. -/
theorem release_kept {s : Backend C V} {t : Party C} (h : Sound s)
    (hholding : Holding t (fun _ => False) s) :
    Sound { s with admission := none } ∧ Guarantee t s { s with admission := none } := by
  refine ⟨⟨?_, h.single, h.opened, h.unleft, h.left, h.logged, h.last, h.late, h.turns, h.apart⟩,
    ⟨fun _ _ h _ => h, ?_, fun _ _ => ⟨rfl, fun _ => ⟨fun h => h, fun h => h⟩⟩, fun _ h => h,
      fun h => h⟩⟩
  · intro k call hunsettled
    exact (hholding.2 k call hunsettled).elim
  · intro u hu hut
    have hut : some t = some u := hholding.1.symm.trans hu
    exact absurd (Option.some.inj hut).symm ‹_›

/-- The state leaves `OPEN` when the close task is created. -/
theorem aclose_kept {s : Backend C V} {c : C} (h : Sound s) (habsent : s.closeTask = .absent) :
    Sound ({ s with state := .closing, closeTask := .created }.note .left) ∧
      Guarantee (.client c) s ({ s with state := .closing, closeTask := .created }.note .left) := by
  have hlog : ∀ d n, Event.withdrew d n ∈ s.log ++ [.left] → Event.withdrew d n ∈ s.log := by
    intro d n hev
    obtain hold | hnew := List.mem_append.mp hev
    · exact hold
    · cases List.mem_singleton.mp hnew
  refine ⟨⟨h.held, h.single, ?_, ?_, ?_, ?_, h.last, ?_, ?_, ?_⟩,
    ⟨fun _ _ h _ => h, fun _ h _ => ⟨h, rfl⟩, ?_, fun _ h => h, ?_⟩⟩
  · exact ⟨fun hs => (by cases hs), fun hs => (by cases hs)⟩
  · intro hs
    cases hs
  · exact fun _ => List.mem_append_right _ (List.mem_singleton.mpr rfl)
  · simpa [Backend.note, List.filterMap_cons, Event.call] using h.logged
  · exact late_note h.late fun hleft => absurd hleft (h.unleft habsent).1
  · intro d n hmention
    exact h.turns d n (hmention.imp_right (hlog d n))
  · exact fun d n hev => h.apart d n (hlog d n hev)
  · exact fun d _ => ⟨rfl, fun n => ⟨fun h => h, hlog d n⟩⟩
  · exact fun _ hs => by cases hs

theorem ended_kept [DecidableEq C] {s : Backend C V} {c : C} (h : Sound s) :
    Sound { s with turn := Function.update s.turn c (s.turn c + 1) } ∧
      Guarantee (.client c) s { s with turn := Function.update s.turn c (s.turn c + 1) } := by
  refine ⟨⟨h.held, h.single, h.opened, h.unleft, h.left, h.logged, h.last, h.late, ?_, h.apart⟩,
    ⟨fun _ _ h _ => h, fun _ h _ => ⟨h, rfl⟩, ?_, fun _ h => h, fun h => h⟩⟩
  · intro d n hmention
    have hle : n ≤ s.turn d := h.turns d n hmention
    by_cases hd : d = c
    · subst hd
      simp only [Function.update_self]
      exact Nat.le_succ_of_le hle
    · simpa only [Function.update_of_ne hd] using hle
  · intro d hd
    have hd : d ≠ c := fun hdc => hd (congrArg Party.client hdc.symm)
    exact ⟨Function.update_of_ne hd _ _, fun n => ⟨fun h => h, fun h => h⟩⟩

/-- The close task ends, with or without having closed the connection. -/
theorem done_kept {s : Backend C V} (h : Sound s) (hstarted : s.closeTask ≠ .absent)
    (state : Lifecycle) (hstate : state ≠ .opened) (out : Except Raised Unit) :
    Sound { s with state := state, closeTask := .done out } ∧
      Guarantee .closing s { s with state := state, closeTask := .done out } := by
  refine ⟨⟨h.held, h.single, ?_, ?_, fun _ => h.left hstarted, h.logged, h.last, h.late, h.turns,
    h.apart⟩,
    ⟨fun _ _ h _ => h, fun _ h _ => ⟨h, rfl⟩, fun _ _ => ⟨rfl, fun _ => ⟨fun h => h, fun h => h⟩⟩,
      fun _ h => h, ?_⟩⟩
  · exact ⟨fun hs => absurd hs hstate, fun hs => (by cases hs)⟩
  · intro hs
    cases hs
  · exact fun _ hs => by cases hs

/-! ### Steps that submit, execute and settle -/

theorem submit_job {s : Backend C V} {call call' : Call C} {k : Nat} {status : Status V}
    (h : (s.submit call).jobs[k]? = some ⟨call', status⟩) :
    s.jobs[k]? = some ⟨call', status⟩ ∨ k = s.jobs.length ∧ call' = call := by
  obtain hold | ⟨hk, hjob⟩ := getElem?_concat_cases h
  · exact .inl hold
  · exact .inr ⟨hk, congrArg Job.call hjob⟩

theorem submit_called {s : Backend C V} {call call' : Call C} (h : Called (s.submit call) call') :
    Called s call' ∨ call' = call := by
  obtain ⟨k, status, hk⟩ := h
  obtain hold | ⟨_, hcall⟩ := submit_job hk
  · exact .inl ⟨k, status, hold⟩
  · exact .inr hcall

theorem submit_log {s : Backend C V} {call : Call C} {c : C} {n : Nat}
    (h : Event.withdrew c n ∈ (s.submit call).log) : Event.withdrew c n ∈ s.log := by
  obtain hold | hnew := List.mem_append.mp h
  · exact hold
  · cases List.mem_singleton.mp hnew

/-- A task that got the lock calls the worker: for its next operation while the backend is open,
or once to close the connection. -/
theorem submit_kept {s : Backend C V} (call : Call C) (h : Sound s) (hfree : s.admission = none)
    (hoperation : ∀ c n, call = .operation c n → n = s.turn c ∧ Fresh c s ∧ s.closeTask = .absent)
    (hclose : call = .close → Closing s) :
    Sound (s.submit call) ∧ Guarantee call.owner s (s.submit call) ∧
      Holding call.owner (· = s.jobs.length) (s.submit call) := by
  have hsettled : ∀ k call', ¬ Unsettled s k call' := by
    intro k call' hunsettled
    have hheld := h.held k call' hunsettled
    rw [hfree] at hheld
    cases hheld
  have hunsettled : ∀ k call', Unsettled (s.submit call) k call' →
      k = s.jobs.length ∧ call' = call := by
    intro k call' hunsettled
    obtain ⟨status, hk, hstatus⟩ := hunsettled
    obtain hold | hnew := submit_job hk
    · exact absurd ⟨status, hold, hstatus⟩ (hsettled k call')
    · exact hnew
  have hlength : (s.submit call).jobs.length = s.jobs.length + 1 := by simp [Backend.submit]
  refine ⟨⟨?_, ?_, h.opened, ?_, ?_, ?_, ?_, ?_, ?_, ?_⟩, ⟨?_, ?_, ?_, ?_, fun hs => hs⟩, rfl, ?_⟩
  · intro k call' hk
    obtain ⟨_, rfl⟩ := hunsettled k call' hk
    rfl
  · intro j k call' call'' hj hk
    exact (hunsettled j call' hj).1.trans (hunsettled k call'' hk).1.symm
  · intro habsent
    refine ⟨?_, ?_⟩
    · intro hleft
      obtain hold | hnew := List.mem_append.mp hleft
      · exact (h.unleft habsent).1 hold
      · cases List.mem_singleton.mp hnew
    · intro hcalled
      obtain hold | hnew := submit_called hcalled
      · exact (h.unleft habsent).2 hold
      · exact (hclose hnew.symm).1 habsent
  · exact fun hstarted => List.mem_append_left _ (h.left hstarted)
  · simp [Backend.submit, Event.call, h.logged]
  · intro k status hk
    obtain hold | ⟨rfl, hcall⟩ := submit_job hk
    · -- the connection was not closed before
      have hcalled : Called s .close := ⟨k, status, hold⟩
      cases hcall : call with
      | close => exact absurd hcalled (hclose hcall).2
      | operation c n => exact absurd hcalled (h.unleft (hoperation c n hcall).2.2).2
    · refine ⟨hlength.symm, ?_⟩
      intro j hj call' hj'
      have := (hunsettled j call' hj').1
      omega
  · refine late_note h.late ?_
    intro hleft c n hsubmitted
    have hcall : call = .operation c n := by
      simpa only [Event.submitted.injEq] using hsubmitted
    exact (h.unleft (hoperation c n hcall).2.2).1 hleft
  · intro c n hmention
    obtain hcalled | hev := hmention
    · obtain hold | hnew := submit_called hcalled
      · exact h.turns c n (.inl hold)
      · exact Nat.le_of_eq (hoperation c n hnew.symm).1
    · exact h.turns c n (.inr (submit_log hev))
  · intro c n hev hcalled
    have hev := submit_log hev
    obtain hold | hnew := submit_called hcalled
    · exact h.apart c n hev hold
    · obtain ⟨rfl, hfresh, _⟩ := hoperation c n hnew.symm
      exact hfresh.2 hev
  · intro k call' hk hlt
    have := (hunsettled k call' hk).1
    omega
  · intro u hu
    rw [hfree] at hu
    cases hu
  · intro c hc
    refine ⟨rfl, fun n => ⟨?_, submit_log⟩⟩
    intro hcalled
    obtain hold | hnew := submit_called hcalled
    · exact hold
    · exact absurd (congrArg Call.owner hnew.symm) hc
  · intro hc hcalled
    obtain hold | hnew := submit_called hcalled
    · exact hold
    · exact absurd (congrArg Call.owner hnew.symm) hc
  · exact fun k call' hk => (hunsettled k call' hk).1

/-- A call that is not settled yet goes on, or settles. -/
theorem progress_kept {s : Backend C V} {t : Party C} {k : Nat} {call : Call C}
    {status status' : Status V} (h : Sound s) (hk : s.jobs[k]? = some ⟨call, status⟩)
    (hstatus : status.isSettled = false) :
    Sound { s with jobs := s.jobs.set k ⟨call, status'⟩ } ∧
      Guarantee t s { s with jobs := s.jobs.set k ⟨call, status'⟩ } := by
  have hjob : ∀ (j : Nat) (call' : Call C) (status'' : Status V), (s.jobs.set k ⟨call, status'⟩)[j]? =
      some ⟨call', status''⟩ → ∃ old, s.jobs[j]? = some ⟨call', old⟩ ∧
        (status''.isSettled = false → old.isSettled = false) := by
    intro j call' status'' hj
    obtain ⟨rfl, hnew⟩ | ⟨_, hold⟩ := getElem?_set_cases hj
    · cases hnew
      exact ⟨status, hk, fun _ => hstatus⟩
    · exact ⟨status'', hold, fun h => h⟩
  have hunsettled : ∀ j call', Unsettled { s with jobs := s.jobs.set k ⟨call, status'⟩ } j call' →
      Unsettled s j call' := by
    intro j call' hj
    obtain ⟨status'', hj, hno⟩ := hj
    obtain ⟨old, hold, hbefore⟩ := hjob j call' status'' hj
    exact ⟨old, hold, hbefore hno⟩
  have hcalled : ∀ call', Called { s with jobs := s.jobs.set k ⟨call, status'⟩ } call' →
      Called s call' := by
    intro call' hcalled
    obtain ⟨j, status'', hj⟩ := hcalled
    obtain ⟨old, hold, _⟩ := hjob j call' status'' hj
    exact ⟨j, old, hold⟩
  refine ⟨⟨?_, ?_, h.opened, ?_, h.left, ?_, ?_, h.late, ?_, ?_⟩, ⟨?_, ?_, ?_, ?_, fun hs => hs⟩⟩
  · exact fun j call' hj => h.held j call' (hunsettled j call' hj)
  · exact fun i j call' call'' hi hj =>
      h.single i j call' call'' (hunsettled i call' hi) (hunsettled j call'' hj)
  · exact fun habsent => ⟨(h.unleft habsent).1, fun hc => (h.unleft habsent).2 (hcalled _ hc)⟩
  · have hcalls : (s.jobs.map Job.call)[k]? = some call := by simp [hk]
    obtain ⟨_, hcall⟩ := List.getElem?_eq_some_iff.mp hcalls
    rw [List.map_set]
    rw [← hcall, List.set_getElem_self]
    exact h.logged
  · intro j status'' hj
    obtain ⟨old, hold, _⟩ := hjob j .close status'' hj
    obtain ⟨hlast, hbefore⟩ := h.last j old hold
    simp only [List.length_set]
    exact ⟨hlast, fun i hi call' hi' => hbefore i hi call' (hunsettled i call' hi')⟩
  · exact fun c n hmention => h.turns c n (hmention.imp_left (hcalled _))
  · exact fun c n hev hc => h.apart c n hev (hcalled _ hc)
  · exact fun j call' hj _ => hunsettled j call' hj
  · exact fun u hu _ => ⟨hu, by simp⟩
  · exact fun c _ => ⟨rfl, fun n => ⟨hcalled _, fun h => h⟩⟩
  · exact fun _ => hcalled _

/-- **What one step keeps**, given what its party knows. -/
theorem step_kept [DecidableEq C] {s s' : Backend C V} {t : Party C} {op : Op} {r : Reply V op}
    (h : Sound s) (hp : Permitted s t op) (hstep : Effect s t op r s') :
    Sound s' ∧ Guarantee t s s' := by
  cases t with
  | client c =>
    cases op with
    | checkOperation =>
      simp only [Effect, Operates] at hstep
      split at hstep
      · obtain ⟨_, rfl⟩ := hstep
        exact sound_idle h _
      · obtain ⟨_, rfl⟩ := hstep
        exact withdrew_kept h (hp c rfl)
    | admitTask =>
      obtain ⟨_, rfl⟩ | ⟨hfree, hstep⟩ := hstep
      · exact withdrew_kept h (hp c rfl)
      · split at hstep
        · rename_i hopen
          obtain ⟨_, rfl⟩ := hstep
          obtain ⟨hsound, hguar, _⟩ := submit_kept (.operation c (s.turn c)) h hfree
            (fun d n hcall => by cases hcall; exact ⟨rfl, hp c rfl, h.opened.mp hopen⟩)
            (fun hcall => by cases hcall)
          exact ⟨hsound, hguar⟩
        · obtain ⟨_, rfl⟩ := hstep
          exact withdrew_kept h (hp c rfl)
    | settled job =>
      obtain ⟨_, rfl⟩ := hstep
      exact sound_idle h _
    | release =>
      obtain rfl : s' = _ := hstep
      exact release_kept h hp
    | aclose =>
      simp only [Effect, Operates] at hstep
      split at hstep
      · obtain ⟨_, rfl⟩ := hstep
        exact sound_idle h _
      · obtain ⟨_, hstep⟩ := hstep
        split at hstep
        · rename_i habsent
          subst hstep
          exact aclose_kept h habsent
        · subst hstep
          exact sound_idle h _
    | closeSettled =>
      obtain ⟨rfl, _⟩ := hstep
      exact sound_idle h _
    | ended =>
      obtain rfl : s' = _ := hstep
      exact ended_kept h
    | _ => exact hstep.elim
  | closing =>
    cases op with
    | begin =>
      obtain ⟨_, rfl⟩ := hstep
      exact sound_idle h _
    | admitClose =>
      obtain ⟨_, rfl⟩ | ⟨hfree, _, rfl⟩ := hstep
      · exact sound_idle h _
      · obtain ⟨hsound, hguar, _⟩ := submit_kept .close h hfree
          (fun _ _ hcall => by cases hcall) (fun _ => hp)
        exact ⟨hsound, hguar⟩
    | settled job =>
      obtain ⟨_, rfl⟩ := hstep
      exact sound_idle h _
    | release =>
      obtain rfl : s' = _ := hstep
      exact release_kept h hp
    | shutdown out =>
      obtain ⟨_, rfl⟩ := hstep
      refine done_kept h hp _ ?_ out
      cases out <;> simp
    | abandon =>
      obtain rfl : s' = _ := hstep
      exact done_kept h hp s.state (fun hopen => hp (h.opened.mp hopen)) _
    | _ => exact hstep.elim
  | worker =>
    cases op with
    | work =>
      obtain ⟨k, call, out, hk, _, rfl⟩ := hstep
      exact progress_kept h hk rfl
    | _ => exact hstep.elim
  | loop =>
    cases op with
    | deliver =>
      obtain ⟨k, call, out, hk, rfl⟩ := hstep
      exact progress_kept h hk rfl
    | _ => exact hstep.elim

/-! ## Whole runs -/

theorem stable_true (t : Party C) : Stable (rules (V := V)) t (fun _ => True) :=
  fun _ _ _ _ => trivial

theorem stable_fresh (c : C) : Stable (rules (V := V)) (.client c) (Fresh c) := by
  intro s s' hothers h
  obtain ⟨_, _, u, hu, hguar⟩ := hothers
  have hguar : Guarantee u s s' := hguar
  obtain ⟨hturn, hold⟩ := hguar.own c hu
  obtain ⟨hcalled, hwithdrew⟩ := h
  unfold Fresh
  rw [hturn]
  exact ⟨fun hc => hcalled ((hold _).1 hc), fun hev => hwithdrew ((hold _).2 hev)⟩

theorem stable_holding (t : Party C) (P : Nat → Prop) :
    Stable (rules (V := V)) t (Holding t P) := by
  intro s s' hothers h
  obtain ⟨_, _, u, hu, hguar⟩ := hothers
  have hguar : Guarantee u s s' := hguar
  obtain ⟨hheld, hlength⟩ := hguar.held t h.1 (Ne.symm hu)
  refine ⟨hheld, fun k call hk => h.2 k call (hguar.settled k call hk ?_)⟩
  rw [← hlength]
  exact hk.lt

theorem stable_closing : Stable (rules (C := C) (V := V)) .closing Closing := by
  intro s s' hothers h
  obtain ⟨_, _, u, hu, hguar⟩ := hothers
  have hguar : Guarantee u s s' := hguar
  exact ⟨hguar.started h.1, fun hc => h.2 (hguar.close hu hc)⟩

theorem stable_unclosed : Stable (rules (C := C) (V := V)) .closing
    (fun s => ¬ Called s .close) := by
  intro s s' hothers h
  obtain ⟨_, _, u, hu, hguar⟩ := hothers
  have hguar : Guarantee u s s' := hguar
  exact fun hc => h (hguar.close hu hc)

theorem stable_started (t : Party C) :
    Stable (rules (V := V)) t (fun s => s.closeTask ≠ .absent) := by
  intro s s' hothers h
  obtain ⟨_, _, u, _, hguar⟩ := hothers
  have hguar : Guarantee u s s' := hguar
  exact hguar.started h

theorem called_init (call : Call C) : ¬ Called (.init C V) call := by
  intro h
  obtain ⟨k, status, hk⟩ := h
  cases hk

theorem sound_init : Sound (.init C V) where
  held := fun k call h => absurd ⟨k, h.choose, h.choose_spec.1⟩ (called_init call)
  single := fun j k call call' h => absurd ⟨j, h.choose, h.choose_spec.1⟩ (called_init call)
  opened := ⟨fun _ => rfl, fun _ => rfl⟩
  unleft := fun _ => ⟨by simp [Backend.init], called_init _⟩
  left := fun h => absurd rfl h
  logged := rfl
  last := fun k status h => absurd ⟨k, status, h⟩ (called_init _)
  late := List.Pairwise.nil
  turns := by
    intro c n h
    obtain hcalled | hev := h
    · exact absurd hcalled (called_init _)
    · cases hev
  apart := fun _ _ hev => by cases hev

variable [DecidableEq C]

abbrev Keeps {α : Type} (t : Party C) (p : Script V α)
    (Q : Except Raised α → Backend C V → Prop) (s : Backend C V) : Prop :=
  wp admissionSystem rules t p Q s

theorem wp_step {α : Type} {t : Party C} {op : Op} {k : Reply V op → Script V α}
    {Q : Except Raised α → Backend C V → Prop} {B : Backend C V → Prop} {s : Backend C V}
    (hB : Stable rules t B) (hs : B s) (hop : ∀ s, Sound s → B s → Permitted s t op)
    (h : ∀ s r s', Sound s → B s → Effect s t op r s' → Sound s' → Keeps t (k r) Q s') :
    Keeps t (.exec op k) Q s := by
  refine wp_exec hB hs ?_
  intro s r s' hinv hb hstep
  have hkept := step_kept hinv (hop s hinv hb) hstep
  exact ⟨hkept.1, hkept.2, h s r s' hinv hb hstep hkept.1⟩

/-! ### One operation, one close -/

theorem settled_effect {s s' : Backend C V} {t : Party C} {job : Nat}
    {r : Option (Except Raised V)} (h : Effect s t (.settled job) r s') :
    Settles s job r ∧ s' = s := by
  cases t with
  | client c => exact h
  | closing => exact h
  | worker => exact h.elim
  | loop => exact h.elim

/-- However often it is cancelled, a task that waits for its call keeps the lock until the call
is settled. -/
theorem wp_awaitSettled {t : Party C} {job n : Nat} {cancelled : Bool} {s : Backend C V}
    (hs : Holding t (· = job) s) :
    Keeps t (awaitSettled sleep (.perform (Op.settled job)) n cancelled)
      (fun _ => Holding t (fun _ => False)) s := by
  induction n generalizing cancelled s with
  | zero => exact wp_step (stable_true t) trivial (fun _ _ _ => trivial) (fun _ r => r.elim)
  | succ n ih =>
    refine wp_step (stable_holding t _) hs (fun _ _ _ => trivial) ?_
    intro s r s' _ hs hstep _
    obtain ⟨hsettles, rfl⟩ := settled_effect hstep
    obtain rfl | ⟨call, out, hjob, rfl⟩ := hsettles
    · exact ih hs
    · have hnone : Holding t (fun _ => False) s' := by
        refine ⟨hs.1, fun k call' hk => ?_⟩
        obtain rfl := hs.2 k call' hk
        obtain ⟨status, hstatus, hno⟩ := hk
        rw [hjob] at hstatus
        cases hstatus
        cases hno
      cases out with
      | error e => exact wp_fail (stable_holding t _) hnone fun _ _ h => h
      | ok v =>
        cases cancelled with
        | true => exact wp_fail (stable_holding t _) hnone fun _ _ h => h
        | false => exact wp_pure (stable_holding t _) hnone fun _ _ h => h

theorem wp_ofExcept {α : Type} {t : Party C} (out : Except Raised α) {s : Backend C V} :
    Keeps t (.ofExcept out) (fun _ _ => True) s := by
  cases out with
  | ok a => exact wp_pure (stable_true t) trivial fun _ _ _ => trivial
  | error e => exact wp_fail (stable_true t) trivial fun _ _ _ => trivial

theorem wp_admitted {t : Party C} {job n : Nat} {s : Backend C V} (hinv : Sound s)
    (hs : Holding t (· = job) s) : Keeps t (admitted n job) (fun _ _ => True) s := by
  refine wp_settle hinv (wp_mono ?_ (wp_awaitSettled hs))
  intro out s _ hs
  refine wp_step (stable_holding t _) hs (fun _ _ h => h) ?_
  intro _ _ s' _ _ _ _
  exact wp_ofExcept out

theorem wp_run {c : C} {n : Nat} {s : Backend C V} (hs : Fresh c s) :
    Keeps (.client c) (run n) (fun _ _ => True) s := by
  refine wp_step (stable_fresh c) hs ?_ ?_
  · intro s _ hfresh d hd
    cases hd
    exact hfresh
  · intro s r s' hinv hfresh hstep hinv'
    obtain ⟨rfl, rfl⟩ | ⟨hfree, hstep⟩ := hstep
    · exact wp_fail (stable_true _) trivial fun _ _ _ => trivial
    · split at hstep
      · rename_i hopen
        obtain ⟨rfl, rfl⟩ := hstep
        have hholding := (submit_kept (.operation c (s.turn c)) hinv hfree
          (fun d n hcall => by cases hcall; exact ⟨rfl, hfresh, hinv.opened.mp hopen⟩)
          (fun hcall => by cases hcall)).2.2
        exact wp_admitted hinv' hholding
      · obtain ⟨rfl, rfl⟩ := hstep
        exact wp_fail (stable_true _) trivial fun _ _ _ => trivial

theorem wp_operation {c : C} {n : Nat} {s : Backend C V} (hs : Fresh c s) :
    Keeps (.client c) (operation n) (fun _ _ => True) s := by
  refine wp_step (stable_fresh c) hs ?_ ?_
  · intro s _ hfresh d hd
    cases hd
    exact hfresh
  · intro s r s' _ hfresh hstep _
    simp only [Effect, Operates] at hstep
    split at hstep
    · obtain ⟨rfl, rfl⟩ := hstep
      exact wp_run hfresh
    · obtain ⟨rfl, rfl⟩ := hstep
      exact wp_fail (stable_true _) trivial fun _ _ _ => trivial

theorem wp_awaitClose {t : Party C} {n : Nat} {cancelled : Bool} {s : Backend C V} :
    Keeps t (awaitSettled sleep (.perform Op.closeSettled) n cancelled) (fun _ _ => True) s := by
  induction n generalizing cancelled s with
  | zero => exact wp_step (stable_true t) trivial (fun _ _ _ => trivial) (fun _ r => r.elim)
  | succ n ih =>
    refine wp_step (stable_true t) trivial (fun _ _ _ => trivial) ?_
    intro s r s' _ _ _ _
    match r, cancelled with
    | none, _ => exact ih
    | some (.error e), _ => exact wp_fail (stable_true t) trivial fun _ _ _ => trivial
    | some (.ok _), true => exact wp_fail (stable_true t) trivial fun _ _ _ => trivial
    | some (.ok _), false => exact wp_pure (stable_true t) trivial fun _ _ _ => trivial

theorem wp_aclose {t : Party C} {n : Nat} {s : Backend C V} :
    Keeps t (aclose n) (fun _ _ => True) s := by
  refine wp_step (stable_true t) trivial (fun _ _ _ => trivial) ?_
  intro s r s' _ _ _ _
  cases r with
  | true => exact wp_awaitClose
  | false => exact wp_pure (stable_true t) trivial fun _ _ _ => trivial

/-- The turn of an operation that has ended is over. -/
theorem ended_fresh {c : C} {s : Backend C V} (h : Sound s) :
    Fresh c { s with turn := Function.update s.turn c (s.turn c + 1) } := by
  unfold Fresh
  simp only [Function.update_self]
  refine ⟨fun hcalled => ?_, fun hev => ?_⟩
  · exact absurd (h.turns c _ (.inl hcalled)) (Nat.not_succ_le_self _)
  · exact absurd (h.turns c _ (.inr hev)) (Nat.not_succ_le_self _)

theorem wp_client {c : C} {n : Nat} (actions : List Action) {s : Backend C V} (hinv : Sound s)
    (hs : Fresh c s) : Keeps (.client c) (client n actions) (fun _ _ => True) s := by
  induction actions generalizing s with
  | nil => exact wp_pure (stable_true _) trivial fun _ _ _ => trivial
  | cons action rest ih =>
    have hended : ∀ s : Backend C V, Keeps (.client c)
        (.exec .ended fun _ => client n rest) (fun _ _ => True) s := by
      intro s
      refine wp_step (stable_true _) trivial (fun _ _ _ => trivial) ?_
      intro s r s' hinv _ hstep hinv'
      obtain rfl : s' = _ := hstep
      exact ih hinv' (ended_fresh hinv)
    cases action with
    | operate => exact wp_settle hinv (wp_mono (fun _ s _ _ => hended s) (wp_operation hs))
    | close => exact wp_settle hinv (wp_mono (fun _ s _ _ => hended s) wp_aclose)

/-! ### The close task -/

theorem wp_closeConnection {n : Nat} {s : Backend C V} (hs : Closing s) :
    Keeps .closing (closeConnection n) (fun _ s => s.closeTask ≠ .absent) s := by
  have hstarted : ∀ (u : Party C) (s s' : Backend C V), Guarantee u s s' →
      s.closeTask ≠ .absent → s'.closeTask ≠ .absent := fun _ _ _ hguar => hguar.started
  refine wp_mono (fun _ _ _ h => h.2) (wp_frame (Q := fun _ _ => True) hstarted hs.1 ?_)
  refine wp_step stable_closing hs (fun _ _ h => h) ?_
  intro s r s' hinv hs hstep hinv'
  obtain ⟨rfl, rfl⟩ | ⟨hfree, rfl, rfl⟩ := hstep
  · exact wp_fail (stable_true _) trivial fun _ _ _ => trivial
  · have hholding := (submit_kept .close hinv hfree (fun _ _ hcall => by cases hcall)
      (fun _ => hs)).2.2
    refine wp_bind hinv' (wp_mono ?_ (wp_admitted hinv' hholding))
    intro out s _ _
    cases out with
    | ok v => exact wp_pure (stable_true _) trivial fun _ _ _ => trivial
    | error e => exact wp_fail (stable_true _) trivial fun _ _ _ => trivial

theorem wp_closeTask {n : Nat} {s : Backend C V} (hs : ¬ Called s .close) :
    Keeps .closing (closeTask n) (fun _ _ => True) s := by
  refine wp_step stable_unclosed hs (fun _ _ _ => trivial) ?_
  intro s r s' hinv hs hstep _
  obtain ⟨hcreated, rfl⟩ := hstep
  have hstarted : s'.closeTask ≠ .absent := by
    rw [hcreated]
    exact fun h => by cases h
  cases r with
  | true =>
    show Keeps _ (closeResources n) _ _
    refine wp_settle hinv (wp_mono ?_ (wp_closeConnection ⟨hstarted, hs⟩))
    intro out s _ hstarted
    refine wp_step (stable_started _) hstarted (fun _ _ h => h) ?_
    intro _ _ s' _ _ _ _
    exact wp_ofExcept out
  | false =>
    refine wp_step (stable_started _) hstarted (fun _ _ h => h) ?_
    intro _ _ s' _ _ _ _
    exact wp_pure (stable_true _) trivial fun _ _ _ => trivial

theorem wp_repeated {t : Party C} (op : Op) (hop : ∀ s : Backend C V, Permitted s t op) (n : Nat)
    {s : Backend C V} : Keeps t (repeated op n) (fun _ _ => True) s := by
  induction n generalizing s with
  | zero => exact wp_pure (stable_true _) trivial fun _ _ _ => trivial
  | succ n ih => exact wp_step (stable_true _) trivial (fun s _ _ => hop s) fun _ _ _ _ _ _ _ => ih

/-! ## Admission is serialized -/

theorem wp_tasks (setting : Setting C) (t : Party C) :
    Keeps t (setting.script t) (fun _ _ => True) (.init C V) := by
  cases t with
  | client c =>
    exact wp_client _ sound_init ⟨called_init _, by simp [Backend.init]⟩
  | closing => exact wp_closeTask (called_init _)
  | worker => exact wp_repeated .work (fun _ => trivial) _
  | loop => exact wp_repeated .deliver (fun _ => trivial) _

/-- **At most one call of the worker is not settled, and its task holds the lock, cancelled or
not. What withdrew while it waited submits nothing. The connection is closed at most once, as the
last call and with every other one settled, and no operation is submitted after the state left
`OPEN`.** -/
theorem admission_serialized (setting : Setting C) (c : Run C V) (hc : Runs setting c) :
    (∀ j k call call', Unsettled c.state j call → Unsettled c.state k call' → j = k) ∧
    (∀ k call, Unsettled c.state k call → c.state.admission = some call.owner) ∧
    (∀ d n, Event.withdrew d n ∈ c.state.log → ¬ Called c.state (.operation d n)) ∧
    (∀ k status, c.state.jobs[k]? = some ⟨.close, status⟩ → k + 1 = c.state.jobs.length ∧
      ∀ j < k, ∀ call, ¬ Unsettled c.state j call) ∧
    (c.state.state ≠ .opened → Event.left ∈ c.state.log) ∧
    c.state.log.filterMap Event.call = c.state.jobs.map Job.call ∧
    (∀ before after, c.state.log = before ++ .left :: after →
      ∀ d n, Event.submitted (.operation d n) ∉ after) := by
  obtain ⟨hsound, _⟩ := reachable_wp (R := rules) sound_init (fun _ _ _ _ (h : False) => h.elim)
    (wp_tasks setting) hc
  have hsound : Sound c.state := hsound
  refine ⟨hsound.single, hsound.held, hsound.apart, hsound.last, ?_, hsound.logged, ?_⟩
  · exact fun hleft => hsound.left fun habsent => hleft (hsound.opened.mpr habsent)
  intro before after hsplit d n hev
  have hlate := hsound.late
  rw [hsplit] at hlate
  have hafter := (List.pairwise_cons.mp (List.pairwise_append.mp hlate).2.1).1
  exact hafter _ hev rfl d n rfl

/-! ### A run with a cancellation, a refusal and a close -/

theorem Runs.step {setting : Setting C} {c : Run C V} (hc : Runs setting c) (t : Party C) (op : Op)
    (r : Reply V op) {k : Reply V op → Script V Unit} {s' : Backend C V}
    (hp : c.prog t = some (.exec op k)) (hs : Effect c.state t op r s') :
    Runs setting ⟨s', Function.update c.prog t (some (k r))⟩ :=
  Reachable.exec hc hp hs

def sampleSetting : Setting Nat where
  actions c := match c with
    | 0 | 1 => [.operate]
    | 2 => [.close]
    | _ => []
  cancellations _ := 3
  calls := 2

/-- The first operation is cancelled and still holds the lock until it settles; the second waits
for the lock and is refused, since the close began meanwhile. -/
theorem admission_serialized_cancelled : ∃ c : Run Nat Unit, Runs sampleSetting c ∧
    c.state.log = [.submitted (.operation 0 0), .left, .withdrew 1 0, .submitted .close] ∧
    c.state.admission = some .closing := by
  have h : Runs sampleSetting (start (.init Nat Unit) _) := .refl
  have h := Runs.step h (.client 0) .checkOperation true rfl ⟨rfl, rfl⟩
  have h := Runs.step h (.client 0) .admitTask (.submitted 0) rfl (.inr ⟨rfl, rfl, rfl⟩)
  have h := Runs.step h (.client 1) .checkOperation true rfl ⟨rfl, rfl⟩
  have h := Runs.step h (.client 0) (.settled 0) none rfl ⟨.inl rfl, rfl⟩
  have h := Runs.step h (.client 2) .aclose true rfl ⟨rfl, rfl⟩
  have h := Runs.step h .closing .begin true rfl ⟨rfl, rfl⟩
  have h := Runs.step h .worker .work () rfl
    ⟨0, _, .ok (), rfl, fun _ hj => absurd hj (Nat.not_lt_zero _), rfl⟩
  have h := Runs.step h .loop .deliver () rfl ⟨0, _, .ok (), rfl, rfl⟩
  have h := Runs.step h (.client 0) (.settled 0) (some (.ok ())) rfl
    ⟨.inr ⟨_, _, rfl, rfl⟩, rfl⟩
  have h := Runs.step h (.client 0) .release () rfl rfl
  have h := Runs.step h (.client 1) .admitTask .refused rfl (.inr ⟨rfl, rfl, rfl⟩)
  have h := Runs.step h .closing .admitClose (some 1) rfl (.inr ⟨rfl, rfl, rfl⟩)
  have hheld := (admission_serialized sampleSetting _ h).2.1 1 .close ⟨.submitted, rfl, rfl⟩
  exact ⟨_, h, rfl, hheld⟩

end DrStore.Store.Admission
