import DrStore.Base.Collections
import DrStore.Base.Pool
import Mathlib.Data.Finset.Insert
import Mathlib.Data.Finset.Erase

/-! # Blocking sessions (sync/blocking.py, `BlockingObjectStore._run` and `_StoreSession`)

Threads share a session, whose event loop runs in a thread of its own. A step is a section under
the futures lock, one operation on the open lock, on a future or on the loop, or one read or write
of a field. What an operation of the store does is left open; it fails as closed only once the
backend's `aclose` has begun. The turns and the log are no part of the session. -/
namespace DrStore.Sync.Sessions
open DrStore.Base.Collections DrStore.Base.Programs DrStore.Base.Pool

/-! ## The session -/

inductive Raised where
  | sessionClosed
  | backendClosed (message : String)
  | cancelled
  | other (typeName message : String)
deriving DecidableEq

/-- `str(exc)`. -/
def Raised.message : Raised → String
  | .sessionClosed => "persistent SQLite session was closed; open a new handle"
  | .backendClosed message => message
  | .cancelled => ""
  | .other _ message => message

/-- An operation that was submitted to the loop, by a call of a thread, and its future. -/
structure Job (T V : Type) where
  caller : T
  turn : Nat
  out : Option (Except Raised V)

inductive Aclose where
  | absent
  | submitted
  | begun
  | done (out : Except Raised Unit)
deriving DecidableEq

inductive Event (T V : Type) where
  | submitted (t : T) (turn : Nat)
  | closed
  | closeReturned
  | ended (t : T) (turn : Nat) (late : Bool) (out : Except Raised V)

def Event.call {T V : Type} : Event T V → Option (T × Nat)
  | .submitted t turn => some (t, turn)
  | _ => none

structure Session (T V : Type) where
  openLock : Option T
  closed : Bool
  futures : Finset Nat
  jobs : List (Job T V)
  aclose : Aclose
  backend : Bool
  store : Bool
  openFailure : Option Raised
  started : Bool
  alive : Bool
  stopping : Bool
  loopClosed : Bool
  opens : Nat
  log : List (Event T V)
  turn : T → Nat

def Session.init (T V : Type) : Session T V where
  openLock := none
  closed := false
  futures := ∅
  jobs := []
  aclose := .absent
  backend := false
  store := false
  openFailure := none
  started := false
  alive := false
  stopping := false
  loopClosed := false
  opens := 0
  log := []
  turn _ := 0

/-- A session that was opened. -/
def Session.opened (T V : Type) : Session T V :=
  { Session.init T V with
    backend := true, store := true, started := true, alive := true, opens := 1 }

variable {T V : Type}

def Session.note (s : Session T V) (e : Event T V) : Session T V := { s with log := s.log ++ [e] }

/-- `run_coroutine_threadsafe`, and the future in the set of the session. -/
def Session.submit (s : Session T V) (t : T) : Session T V :=
  let job : Job T V := ⟨t, s.turn t, none⟩
  ({ s with jobs := s.jobs ++ [job], futures := insert s.jobs.length s.futures }).note
    (.submitted t (s.turn t))

/-- The call of a thread has ended. -/
def Session.next [DecidableEq T] (s : Session T V) (t : T) : Session T V :=
  { s with turn := Function.update s.turn t (s.turn t + 1) }

/-- The future of a job is not done. -/
def Pending (s : Session T V) (job : Nat) : Prop :=
  ∃ (caller : T) (turn : Nat), s.jobs[job]? = some ⟨caller, turn, none⟩

/-! ## Steps -/

inductive Op (V : Type) where
  | readClosed
  | register
  | result (job : Nat)
  | discard (job : Nat)
  | lockOpen
  | unlockOpen
  | readStore
  | readFailure
  | reraise (e : Raised)
  | startThread
  | openBackend
  | setFailure (e : Raised)
  | setStore
  | tornDown
  | markClosed
  | drain (snapshot : Finset Nat)
  | submitAclose
  | acloseResult
  | isAlive
  | stopLoop
  | join
  | tearDown
  | called
  | ended (late : Bool) (out : Except Raised V)
  | closeEnded (out : Except Raised Unit)
  | execute
  | beginAclose
  | finishAclose
  | stop

abbrev Reply (V : Type) : Op V → Type
  | .readClosed | .readStore | .tornDown | .submitAclose | .isAlive | .called => Bool
  | .register => Option Nat
  | .result _ => Except Raised V
  | .readFailure => Option Raised
  | .reraise _ => Raised
  | .openBackend | .acloseResult => Except Raised Unit
  | .markClosed => Finset Nat
  | _ => Unit

/-- What a step of a calling thread does. -/
def Calls [DecidableEq T] (s : Session T V) (t : T) : (op : Op V) → Reply V op → Session T V → Prop
  | .readClosed, r, s' => r = s.closed ∧ s' = s
  | .register, r, s' =>
      if s.closed then r = none ∧ s' = s else r = some s.jobs.length ∧ s' = s.submit t
  | .result job, r, s' =>
      (∃ (caller : T) (turn : Nat), s.jobs[job]? = some ⟨caller, turn, some r⟩) ∧ s' = s
  | .discard job, _, s' => s' = { s with futures := s.futures.erase job }
  | .lockOpen, _, s' => s.openLock = none ∧ s' = { s with openLock := some t }
  | .unlockOpen, _, s' => s' = { s with openLock := none }
  | .readStore, r, s' => r = s.store ∧ s' = s
  | .readFailure, r, s' => r = s.openFailure ∧ s' = s
  -- a constructor that refuses its own arguments is replaced by `RuntimeError`
  | .reraise e, r, s' => (r = e ∨ r = .other "RuntimeError" e.message) ∧ s' = s
  | .startThread, _, s' => s' = if s.started then s else { s with started := true, alive := true }
  | .openBackend, r, s' =>
      s' = match r with
        | .ok _ => { s with opens := s.opens + 1 }
        | .error _ => s
  | .setFailure e, _, s' => s' = { s with openFailure := some e }
  | .setStore, _, s' => s' = { s with backend := true, store := true }
  | .tornDown, r, s' => r = (s.closed && !s.alive && !s.backend) ∧ s' = s
  | .markClosed, r, s' => r = s.futures ∧ s' = ({ s with closed := true }).note .closed
  | .drain snapshot, _, s' => (∀ job ∈ snapshot, ¬ Pending s job) ∧ s' = s
  | .submitAclose, r, s' =>
      r = s.backend ∧ s' = if s.backend then { s with aclose := .submitted } else s
  | .acloseResult, r, s' => s.aclose = .done r ∧ s' = s
  | .isAlive, r, s' => r = s.alive ∧ s' = s
  | .stopLoop, _, s' => s' = { s with stopping := true }
  -- waits for a limited time
  | .join, _, s' => s' = s
  | .tearDown, _, s' =>
      s' = { s with loopClosed := s.loopClosed || !s.alive, backend := false, store := false }
  | .called, r, s' => (r = true ↔ Event.closeReturned ∈ s.log) ∧ s' = s
  | .ended late out, _, s' => s' = (s.note (.ended t (s.turn t) late out)).next t
  | .closeEnded out, _, s' => s' = match out with
      | .ok _ => (s.note .closeReturned).next t
      | .error _ => s.next t
  | _, _, _ => False

/-- How an operation of the store may end. -/
def Ends (s : Session T V) (out : Except Raised V) : Prop :=
  ∀ e, out = .error e → (∃ typeName message, e = .other typeName message) ∨
    (∃ message, e = .backendClosed message) ∧ s.aclose ≠ .absent ∧ s.aclose ≠ .submitted

/-- What a step of the event loop does. -/
def Loops (s : Session T V) : Op V → Session T V → Prop
  | .execute, s' => s.alive = true ∧ ∃ job caller turn out,
      s.jobs[job]? = some (⟨caller, turn, none⟩ : Job T V) ∧ Ends s out ∧
        s' = { s with jobs := s.jobs.set job ⟨caller, turn, some out⟩ }
  | .beginAclose, s' => s.alive = true ∧ s.aclose = .submitted ∧ s' = { s with aclose := .begun }
  | .finishAclose, s' => s.alive = true ∧ s.aclose = .begun ∧
      ∃ out, s' = { s with aclose := .done out }
  | .stop, s' => s.stopping = true ∧ s' = { s with alive := false }
  | _, _ => False

inductive Party (T : Type) where
  | client (t : T)
  | loop
deriving DecidableEq

def Effect [DecidableEq T] (s : Session T V) :
    Party T → (op : Op V) → Reply V op → Session T V → Prop
  | .client t => Calls s t
  | .loop => fun op _ s' => Loops s op s'

def sessionSystem [DecidableEq T] : System (Party T) (Session T V) (Op V) (Reply V) where
  step t s op r s' := Effect s t op r s'
  kill _ _ _ := False

/-! ## The calls -/

abbrev Script (V α : Type) := Prog (Op V) (Reply V) Raised α

/-- The `try` of `_run`. -/
def deliver (job : Nat) : Script V V := do
  match ← .perform (Op.result job) with
  | .ok v => return v
  | .error .cancelled =>
    if ← .perform Op.readClosed then .fail .sessionClosed else .fail .cancelled
  | .error (.backendClosed message) =>
    if ← .perform Op.readClosed then .fail .sessionClosed else .fail (.backendClosed message)
  | .error e => .fail e

def register : Script V V := do
  match ← .perform Op.register with
  | none => .fail .sessionClosed
  | some job => (deliver job).settle fun out => do
    .perform (Op.discard job)
    .ofExcept out

/-- `_run` of a store that has a session. -/
def run : Script V V := do
  if ← .perform Op.readClosed then .fail .sessionClosed else register

def withOpenLock {α : Type} (p : Script V α) : Script V α := do
  .perform Op.lockOpen
  p.settle fun out => do
    .perform Op.unlockOpen
    .ofExcept out

def raiseIfClosedDuringOpen : Script V Unit := do
  if ← .perform Op.readClosed then
    if ← .perform Op.readStore then .fail .sessionClosed
    else match ← .perform Op.readFailure with
      | some e => do .fail (← .perform (Op.reraise e))
      | none => .fail .sessionClosed
  else return ()

def openBackend : Script V Unit := do
  .perform Op.startThread
  match ← .perform Op.openBackend with
  | .error e => do
    .perform (Op.setFailure e)
    .fail e
  | .ok _ => .perform Op.setStore

/-- `open`, which returns the one store of the session. -/
def openSession : Script V Unit := do
  if ← .perform Op.readClosed then raiseIfClosedDuringOpen
  withOpenLock do
    if ← .perform Op.readStore then return ()
    else
      if ← .perform Op.readClosed then raiseIfClosedDuringOpen
      match ← .perform Op.readFailure with
      | some e => do .fail (← .perform (Op.reraise e))
      | none => openBackend

def acloseBackend : Script V Unit := do
  if ← .perform Op.submitAclose then .ofExcept (← .perform Op.acloseResult) else return ()

/-- The `finally` of `close`. -/
def tearDown : Script V Unit := do
  if ← .perform Op.isAlive then
    .perform Op.stopLoop
    .perform Op.join
  .perform Op.tearDown

def close : Script V Unit :=
  withOpenLock do
    if ← .perform Op.tornDown then return ()
    else
      let snapshot ← .perform Op.markClosed
      .perform (Op.drain snapshot)
      acloseBackend.settle fun out => do
        tearDown
        .ofExcept out

/-! ## Threads on one opened session -/

inductive Action where
  | run
  | close

/-- One call after the other, whatever they raise. -/
def client : List Action → Script V Unit
  | [] => .pure ()
  | .run :: rest => do
    let late ← .perform Op.called
    run.settle fun out => do
      .perform (Op.ended late out)
      client rest
  | .close :: rest => close.settle fun out => do
    .perform (Op.closeEnded out)
    client rest

def performAll : List (Op V) → Script V Unit
  | [] => .pure ()
  | op :: rest => .exec op fun _ => performAll rest

/-- Any calls of any threads, and the steps of the loop in any order. -/
structure Setting (T V : Type) where
  actions : T → List Action
  loop : List (Op V)

def Setting.script (setting : Setting T V) : Party T → Script V Unit
  | .client t => client (setting.actions t)
  | .loop => performAll setting.loop

abbrev Run (T V : Type) := Config (Party T) (Session T V) (Op V) (Reply V) Raised Unit

def Runs [DecidableEq T] (setting : Setting T V) (c : Run T V) : Prop :=
  Reachable sessionSystem (.opened T V) setting.script c

/-! ## The invariant of an opened session -/

/-- No operation is submitted after the closed flag was set. -/
def Late (e e' : Event T V) : Prop := e = .closed → ∀ t turn, e' ≠ .submitted t turn

/-- An operation was submitted for a call. -/
def Called (s : Session T V) (t : T) (turn : Nat) : Prop :=
  ∃ (job : Nat) (out : Option (Except Raised V)), s.jobs[job]? = some ⟨t, turn, out⟩

/-- What a call of `_run` may end with: its operation's result or error, or that the session is
closed, and then nothing was submitted for it. -/
def Reported (s : Session T V) (t : T) (turn : Nat) (out : Except Raised V) : Prop :=
  out = .error .sessionClosed ∧ ¬ Called s t turn ∨
    out ≠ .error .sessionClosed ∧ ∃ job : Nat, s.jobs[job]? = some ⟨t, turn, some out⟩

structure Sound (s : Session T V) : Prop where
  registered : ∀ job, Pending s job → job ∈ s.futures
  drained : s.aclose ≠ .absent → s.closed = true ∧ ∀ job, ¬ Pending s job
  running : s.closed = false ∨ (∃ job, Pending s job) → s.alive = true ∧ s.stopping = false
  unclosed : s.closed = false → Event.closed ∉ s.log
  late : s.log.Pairwise Late
  logged : s.log.filterMap Event.call = s.jobs.map fun job => (job.caller, job.turn)
  ends : ∀ (job : Nat) (t : T) (turn : Nat) (e : Raised),
    s.jobs[job]? = some ⟨t, turn, some (.error e)⟩ → ∃ typeName message, e = .other typeName message
  returned : Event.closeReturned ∈ s.log → s.closed = true
  ended : ∀ t turn late out, Event.ended t turn late out ∈ s.log → Reported s t turn out ∧
    (late = true → out = .error .sessionClosed) ∧ turn < s.turn t
  turns : ∀ t turn, Called s t turn → turn ≤ s.turn t

structure Guarantee (t : Party T) (s s' : Session T V) : Prop where
  jobs : ∀ (job : Nat) (u : T) (turn : Nat) (out : Option (Except Raised V)),
    s.jobs[job]? = some ⟨u, turn, out⟩ → ∃ out', s'.jobs[job]? = some ⟨u, turn, out'⟩ ∧
      (out ≠ none → out' = out)
  closed : s.closed = true → s'.closed = true ∧ s'.jobs.length = s.jobs.length
  own : ∀ u, t ≠ .client u → s'.turn u = s.turn u ∧ ∀ turn, Called s' u turn → Called s u turn

def rules : Rules (Party T) (Session T V) := ⟨Sound, Guarantee⟩

/-- Nothing was submitted for the present call of a thread. -/
def Fresh (t : T) (s : Session T V) : Prop := ¬ Called s t (s.turn t)

/-- The session is closed, and only a job with `P` is not done. -/
def Drained (P : Nat → Prop) (s : Session T V) : Prop :=
  s.closed = true ∧ ∀ job, Pending s job → P job

/-- What a thread knows when it takes a step. -/
def Permitted (s : Session T V) (t : T) : Op V → Prop
  | .register => Fresh t s
  | .discard job => ¬ Pending s job
  | .submitAclose | .stopLoop => Drained (fun _ => False) s
  | .ended late out => Reported s t (s.turn t) out ∧
      (late = true → out = .error .sessionClosed)
  | .closeEnded _ => s.closed = true
  | .startThread | .openBackend | .setFailure _ | .setStore => False
  | _ => True

/-! ### Steps that leave the jobs alone -/

theorem idle_kept {s : Session T V} (h : Sound s) (t : Party T) : Sound s ∧ Guarantee t s s :=
  ⟨h, fun _ _ _ out hjob => ⟨out, hjob, fun _ => rfl⟩, fun hs => ⟨hs, rfl⟩,
    fun _ _ => ⟨rfl, fun _ hs => hs⟩⟩

/-- What an event that is no submission must not say too early. -/
structure Timely (s s' : Session T V) (e : Event T V) : Prop where
  call : e.call = none
  closed : e = .closed ∨ e = .closeReturned → s'.closed = true
  ended : ∀ t turn late out, e = .ended t turn late out → Reported s t turn out ∧
    (late = true → out = .error .sessionClosed) ∧ turn < s'.turn t

theorem jobs_kept {s s' : Session T V} {t : Party T} (events : List (Event T V)) (h : Sound s)
    (hjobs : s'.jobs = s.jobs) (hclosed : s.closed = true → s'.closed = true)
    (hlog : s'.log = s.log ++ events) (hevents : ∀ e ∈ events, Timely s s' e)
    (hfutures : ∀ job, Pending s job → job ∈ s'.futures)
    (haclose : s'.aclose ≠ .absent → s'.closed = true ∧ ∀ job, ¬ Pending s job)
    (hrunning : s'.closed = false ∨ (∃ job, Pending s job) →
      s'.alive = true ∧ s'.stopping = false)
    (hturn : ∀ u, s.turn u ≤ s'.turn u) (hown : ∀ u, t ≠ .client u → s'.turn u = s.turn u) :
    Sound s' ∧ Guarantee t s s' := by
  have hpending : ∀ job, Pending s' job ↔ Pending s job := by
    intro job
    unfold Pending
    rw [hjobs]
  have hcalled : ∀ u turn, Called s' u turn ↔ Called s u turn := by
    intro u turn
    unfold Called
    rw [hjobs]
  have hreported : ∀ u turn out, Reported s' u turn out ↔ Reported s u turn out := by
    intro u turn out
    unfold Reported
    rw [hcalled, hjobs]
  have hsilent : ∀ e ∈ events, ∀ u turn, e ≠ .submitted u turn := by
    intro e he u turn heq
    have hnone := (hevents e he).call
    rw [heq] at hnone
    cases hnone
  refine ⟨⟨?_, ?_, ?_, ?_, ?_, ?_, ?_, ?_, ?_, ?_⟩, ⟨?_, ?_, ?_⟩⟩
  · exact fun job hp => hfutures job ((hpending job).mp hp)
  · exact fun hs => ⟨(haclose hs).1, fun job hp => (haclose hs).2 job ((hpending job).mp hp)⟩
  · intro hs
    refine hrunning (hs.imp_right fun hp => ?_)
    obtain ⟨job, hp⟩ := hp
    exact ⟨job, (hpending job).mp hp⟩
  · intro hs hev
    rw [hlog] at hev
    obtain hev | hev := List.mem_append.mp hev
    · have hopen : s.closed = false := by
        cases hold : s.closed with
        | false => rfl
        | true => exact absurd (hclosed hold) (by simp [hs])
      exact h.unclosed hopen hev
    · have hclosing := (hevents _ hev).closed (.inl rfl)
      rw [hs] at hclosing
      cases hclosing
  · rw [hlog]
    refine List.pairwise_append.mpr ⟨h.late, ?_, ?_⟩
    · exact List.pairwise_of_forall_mem_list fun _ _ e' he' _ => hsilent e' he'
    · exact fun _ _ e' he' _ => hsilent e' he'
  · have hnone : events.filterMap Event.call = [] :=
      List.filterMap_eq_nil_iff.mpr fun e he => (hevents e he).call
    rw [hlog, hjobs, List.filterMap_append, hnone, List.append_nil]
    exact h.logged
  · rw [hjobs]
    exact h.ends
  · intro hev
    rw [hlog] at hev
    obtain hev | hev := List.mem_append.mp hev
    · exact hclosed (h.returned hev)
    · exact (hevents _ hev).closed (.inr rfl)
  · intro u turn late out hev
    rw [hreported]
    rw [hlog] at hev
    obtain hev | hev := List.mem_append.mp hev
    · obtain ⟨hout, hlate, hlt⟩ := h.ended u turn late out hev
      exact ⟨hout, hlate, Nat.lt_of_lt_of_le hlt (hturn u)⟩
    · exact (hevents _ hev).ended u turn late out rfl
  · exact fun u turn hc => Nat.le_trans (h.turns u turn ((hcalled u turn).mp hc)) (hturn u)
  · rw [hjobs]
    exact fun _ _ _ out hjob => ⟨out, hjob, fun _ => rfl⟩
  · rw [hjobs]
    exact fun hs => ⟨hclosed hs, rfl⟩
  · exact fun u hu => ⟨hown u hu, fun turn hc => (hcalled u turn).mp hc⟩

/-- A step that neither notes an event nor closes. -/
theorem fields_kept {s s' : Session T V} {t : Party T} (h : Sound s) (hjobs : s'.jobs = s.jobs)
    (hclosed : s'.closed = s.closed) (hlog : s'.log = s.log) (hturn : s'.turn = s.turn)
    (hfutures : ∀ job, Pending s job → job ∈ s'.futures)
    (haclose : s'.aclose ≠ .absent → s.closed = true ∧ ∀ job, ¬ Pending s job)
    (hrunning : s.closed = false ∨ (∃ job, Pending s job) →
      s'.alive = true ∧ s'.stopping = false) :
    Sound s' ∧ Guarantee t s s' := by
  rw [← hclosed] at haclose hrunning
  refine jobs_kept [] h hjobs (fun hs => by rw [hclosed, hs]) ?_ ?_ hfutures haclose
    hrunning ?_ ?_
  · rw [hlog, List.append_nil]
  · exact fun e he => by cases he
  · exact fun u => by rw [hturn]
  · exact fun u _ => by rw [hturn]

theorem markClosed_kept {s : Session T V} {t : Party T} (h : Sound s) :
    Sound (({ s with closed := true }).note .closed) ∧
      Guarantee t s (({ s with closed := true }).note .closed) := by
  refine jobs_kept [.closed] h rfl (fun _ => rfl) rfl ?_ h.registered ?_ ?_
    (fun _ => Nat.le_refl _) (fun _ _ => rfl)
  · intro e he
    obtain rfl := List.mem_singleton.mp he
    exact ⟨rfl, fun _ => rfl, fun _ _ _ _ heq => by cases heq⟩
  · exact fun hs => ⟨rfl, (h.drained hs).2⟩
  · intro hs
    obtain hopen | hp := hs
    · cases hopen
    · exact h.running (.inr hp)

theorem next_kept [DecidableEq T] {s s' : Session T V} {t : T} (events : List (Event T V))
    (h : Sound s) (hs' : s' = ({ s with log := s.log ++ events }).next t)
    (hevents : ∀ e ∈ events, Timely s s' e) : Sound s' ∧ Guarantee (.client t) s s' := by
  subst hs'
  refine jobs_kept events h rfl (fun hs => hs) rfl hevents h.registered h.drained h.running ?_ ?_
  · intro u
    by_cases hu : u = t
    · subst hu
      simp [Session.next]
    · simp [Session.next, Function.update_of_ne hu]
  · intro u hu
    have hne : u ≠ t := fun heq => hu (by rw [heq])
    simp [Session.next, Function.update_of_ne hne]

/-! ### Steps that submit and execute -/

theorem submit_job {s : Session T V} {t : T} {k : Nat} {job : Job T V}
    (h : (s.submit t).jobs[k]? = some job) :
    s.jobs[k]? = some job ∨ k = s.jobs.length ∧ job = ⟨t, s.turn t, none⟩ :=
  getElem?_concat_cases h

theorem submit_called {s : Session T V} {t u : T} {turn : Nat} (h : Called (s.submit t) u turn) :
    Called s u turn ∨ u = t ∧ turn = s.turn t := by
  obtain ⟨k, out, hk⟩ := h
  obtain hold | ⟨_, hjob⟩ := submit_job hk
  · exact .inl ⟨k, out, hold⟩
  · cases hjob
    exact .inr ⟨rfl, rfl⟩

theorem submit_kept {s : Session T V} {t : T} (h : Sound s) (hopen : s.closed = false)
    (hfresh : Fresh t s) : Sound (s.submit t) ∧ Guarantee (.client t) s (s.submit t) := by
  have habsent : s.aclose = .absent := by
    by_contra hs
    have hclosed := (h.drained hs).1
    rw [hopen] at hclosed
    cases hclosed
  have hlog : ∀ e ∈ (s.submit t).log, e ∈ s.log ∨ e = .submitted t (s.turn t) := by
    intro e he
    obtain hold | hnew := List.mem_append.mp he
    · exact .inl hold
    · exact .inr (List.mem_singleton.mp hnew)
  have hold : ∀ (k : Nat) (job : Job T V), s.jobs[k]? = some job →
      (s.submit t).jobs[k]? = some job := by
    intro k job hk
    have hlt := (List.getElem?_eq_some_iff.mp hk).1
    exact (List.getElem?_append_left hlt).trans hk
  refine ⟨⟨?_, ?_, ?_, ?_, ?_, ?_, ?_, ?_, ?_, ?_⟩, ⟨?_, ?_, ?_⟩⟩
  · intro k hp
    obtain ⟨u, turn, hk⟩ := hp
    obtain hk | ⟨rfl, _⟩ := submit_job hk
    · exact Finset.mem_insert_of_mem (h.registered k ⟨u, turn, hk⟩)
    · exact Finset.mem_insert_self _ _
  · exact fun hs => absurd habsent hs
  · exact fun _ => h.running (.inl hopen)
  · intro _ hev
    obtain hev | hev := hlog _ hev
    · exact h.unclosed hopen hev
    · cases hev
  · refine List.pairwise_append.mpr ⟨h.late, List.pairwise_singleton _ _, ?_⟩
    intro e he e' _ hclosed
    exact absurd (hclosed ▸ he) (h.unclosed hopen)
  · simp [Session.submit, Session.note, Event.call, h.logged]
  · intro k u turn e hk
    obtain hk | ⟨_, hjob⟩ := submit_job hk
    · exact h.ends k u turn e hk
    · cases hjob
  · intro hev
    obtain hev | hev := hlog _ hev
    · exact h.returned hev
    · cases hev
  · intro u turn late out hev
    obtain hev | hev := hlog _ hev
    · obtain ⟨hout, hlate, hlt⟩ := h.ended u turn late out hev
      refine ⟨?_, hlate, hlt⟩
      obtain ⟨hout, hcalled⟩ | ⟨hout, k, hk⟩ := hout
      · refine .inl ⟨hout, fun hc => ?_⟩
        obtain hc | ⟨rfl, rfl⟩ := submit_called hc
        · exact hcalled hc
        · exact absurd hlt (Nat.lt_irrefl _)
      · exact .inr ⟨hout, k, hold k _ hk⟩
    · cases hev
  · intro u turn hc
    obtain hc | ⟨rfl, rfl⟩ := submit_called hc
    · exact h.turns u turn hc
    · exact Nat.le_refl _
  · exact fun k u turn out hk => ⟨out, hold k _ hk, fun _ => rfl⟩
  · intro hs
    rw [hopen] at hs
    cases hs
  · intro u hu
    refine ⟨rfl, fun turn hc => ?_⟩
    obtain hc | ⟨rfl, _⟩ := submit_called hc
    · exact hc
    · exact absurd rfl hu

theorem execute_kept {s : Session T V} {t : Party T} {k : Nat} {u : T} {turn : Nat}
    {out : Except Raised V} (h : Sound s) (hk : s.jobs[k]? = some ⟨u, turn, none⟩)
    (hends : Ends s out) :
    Sound { s with jobs := s.jobs.set k ⟨u, turn, some out⟩ } ∧
      Guarantee t s { s with jobs := s.jobs.set k ⟨u, turn, some out⟩ } := by
  have hlt := (List.getElem?_eq_some_iff.mp hk).1
  have hpending : ∀ j, Pending { s with jobs := s.jobs.set k ⟨u, turn, some out⟩ } j →
      Pending s j := by
    intro j hj
    obtain ⟨u', turn', hj⟩ := hj
    obtain ⟨_, hjob⟩ | ⟨_, hold⟩ := getElem?_set_cases hj
    · cases hjob
    · exact ⟨u', turn', hold⟩
  have hforth : ∀ (j : Nat) (u' : T) (turn' : Nat) (out' : Option (Except Raised V)),
      s.jobs[j]? = some ⟨u', turn', out'⟩ → ∃ out'',
        (s.jobs.set k ⟨u, turn, some out⟩)[j]? = some ⟨u', turn', out''⟩ ∧
          (out' ≠ none → out'' = out') := by
    intro j u' turn' out' hj
    by_cases hjk : j = k
    · subst hjk
      rw [hk] at hj
      cases hj
      exact ⟨some out, List.getElem?_set_self hlt, fun hs => absurd rfl hs⟩
    · exact ⟨out', by rw [List.getElem?_set_ne (Ne.symm hjk), hj], fun _ => rfl⟩
  have hcalled : ∀ u' turn', Called { s with jobs := s.jobs.set k ⟨u, turn, some out⟩ } u' turn' →
      Called s u' turn' := by
    intro u' turn' hc
    obtain ⟨j, out', hj⟩ := hc
    obtain ⟨_, hjob⟩ | ⟨_, hold⟩ := getElem?_set_cases hj
    · cases hjob
      exact ⟨k, none, hk⟩
    · exact ⟨j, out', hold⟩
  refine ⟨⟨?_, ?_, ?_, h.unclosed, h.late, ?_, ?_, h.returned, ?_, ?_⟩, ⟨hforth, ?_, ?_⟩⟩
  · exact fun j hj => h.registered j (hpending j hj)
  · exact fun hs => ⟨(h.drained hs).1, fun j hj => (h.drained hs).2 j (hpending j hj)⟩
  · intro hs
    exact h.running (hs.imp_right fun ⟨j, hj⟩ => ⟨j, hpending j hj⟩)
  · have hcall : (s.jobs.map fun job => (job.caller, job.turn))[k]? = some (u, turn) := by simp [hk]
    obtain ⟨_, hcall⟩ := List.getElem?_eq_some_iff.mp hcall
    rw [List.map_set]
    rw [← hcall, List.set_getElem_self]
    exact h.logged
  · intro j u' turn' e hj
    obtain ⟨_, hjob⟩ | ⟨_, hold⟩ := getElem?_set_cases hj
    · cases hjob
      obtain hother | ⟨_, habsent, _⟩ := hends e rfl
      · exact hother
      -- the backend is not closed while an operation is pending
      · exact absurd ⟨u, turn, hk⟩ ((h.drained habsent).2 k)
    · exact h.ends j u' turn' e hold
  · intro u' turn' late out' hev
    obtain ⟨hout, hrest⟩ := h.ended u' turn' late out' hev
    refine ⟨?_, hrest⟩
    obtain ⟨hout, hnone⟩ | ⟨hout, j, hj⟩ := hout
    · exact .inl ⟨hout, fun hc => hnone (hcalled _ _ hc)⟩
    · obtain ⟨out'', hj, hsame⟩ := hforth j u' turn' _ hj
      rw [hsame (by simp)] at hj
      exact .inr ⟨hout, j, hj⟩
  · exact fun u' turn' hc => h.turns u' turn' (hcalled u' turn' hc)
  · exact fun hs => ⟨hs, by simp⟩
  · exact fun u' _ => ⟨rfl, fun turn' => hcalled u' turn'⟩

/-- **What a step of a thread keeps**, given what it knows. -/
theorem calls_kept [DecidableEq T] {s s' : Session T V} {t : T} {op : Op V} {r : Reply V op}
    (h : Sound s) (hp : Permitted s t op) (hstep : Calls s t op r s') :
    Sound s' ∧ Guarantee (.client t) s s' := by
  cases op with
  | register =>
    simp only [Calls] at hstep
    split at hstep
    · obtain ⟨_, rfl⟩ := hstep
      exact idle_kept h _
    · rename_i hopen
      obtain ⟨_, rfl⟩ := hstep
      exact submit_kept h (by simpa using hopen) hp
  | discard job =>
    obtain rfl : s' = _ := hstep
    refine fields_kept h rfl rfl rfl rfl ?_ h.drained h.running
    intro k hk
    have hne : k ≠ job := fun heq => hp (heq ▸ hk)
    exact Finset.mem_erase.mpr ⟨hne, h.registered k hk⟩
  | lockOpen =>
    obtain ⟨_, rfl⟩ := hstep
    exact fields_kept h rfl rfl rfl rfl h.registered h.drained h.running
  | unlockOpen =>
    obtain rfl : s' = _ := hstep
    exact fields_kept h rfl rfl rfl rfl h.registered h.drained h.running
  | readClosed | result job | readStore | readFailure | reraise e | tornDown | drain snapshot
  | acloseResult | isAlive | called =>
    obtain ⟨_, rfl⟩ := hstep
    exact idle_kept h _
  | startThread | openBackend | setFailure e | setStore => exact hp.elim
  | markClosed =>
    obtain ⟨_, rfl⟩ := hstep
    exact markClosed_kept h
  | submitAclose =>
    obtain ⟨_, rfl⟩ := hstep
    split
    · exact fields_kept h rfl rfl rfl rfl h.registered (fun _ => hp) h.running
    · exact idle_kept h _
  | stopLoop =>
    obtain rfl : s' = _ := hstep
    refine fields_kept h rfl rfl rfl rfl h.registered h.drained ?_
    intro hs
    obtain hopen | ⟨job, hpending⟩ := hs
    · exact absurd (hp.1.symm.trans hopen) (by simp)
    · exact (hp.2 job hpending).elim
  | join =>
    obtain rfl : s' = s := hstep
    exact idle_kept h _
  | tearDown =>
    obtain rfl : s' = _ := hstep
    exact fields_kept h rfl rfl rfl rfl h.registered h.drained h.running
  | ended late out =>
    obtain rfl : s' = _ := hstep
    refine next_kept [.ended t (s.turn t) late out] h rfl ?_
    intro e he
    obtain rfl := List.mem_singleton.mp he
    refine ⟨rfl, fun hs => by cases hs <;> contradiction, ?_⟩
    intro u turn late' out' heq
    cases heq
    exact ⟨hp.1, hp.2, by simp [Session.next, Session.note]⟩
  | closeEnded out =>
    cases out with
    | ok a =>
      obtain rfl : s' = _ := hstep
      refine next_kept [.closeReturned] h rfl ?_
      intro e he
      obtain rfl := List.mem_singleton.mp he
      exact ⟨rfl, fun _ => hp, fun _ _ _ _ heq => by cases heq⟩
    | error e =>
      obtain rfl : s' = _ := hstep
      exact next_kept [] h (by rw [List.append_nil]) fun e he => by cases he
  | execute | beginAclose | finishAclose | stop => exact hstep.elim

theorem loops_kept {s s' : Session T V} {op : Op V} (h : Sound s) (hstep : Loops s op s') :
    Sound s' ∧ Guarantee .loop s s' := by
  cases op with
  | execute =>
    obtain ⟨_, k, u, turn, out, hk, hends, rfl⟩ := hstep
    exact execute_kept h hk hends
  | beginAclose =>
    obtain ⟨_, hsubmitted, rfl⟩ := hstep
    refine fields_kept h rfl rfl rfl rfl h.registered (fun _ => h.drained ?_) h.running
    rw [hsubmitted]
    exact fun hs => by cases hs
  | finishAclose =>
    obtain ⟨_, hbegun, out, rfl⟩ := hstep
    refine fields_kept h rfl rfl rfl rfl h.registered (fun _ => h.drained ?_) h.running
    rw [hbegun]
    exact fun hs => by cases hs
  | stop =>
    obtain ⟨hstopping, rfl⟩ := hstep
    refine fields_kept h rfl rfl rfl rfl h.registered h.drained ?_
    intro hs
    have hrunning := (h.running hs).2
    rw [hstopping] at hrunning
    cases hrunning
  | _ => exact hstep.elim

/-! ## Whole runs -/

theorem stable_true (t : Party T) : Stable (rules (V := V)) t (fun _ => True) :=
  fun _ _ _ _ => trivial

theorem pending_back {s s' : Session T V} {u : Party T} {job : Nat} (h : Guarantee u s s')
    (hclosed : s.closed = true) (hp : Pending s' job) : Pending s job := by
  obtain ⟨t, turn, hjob⟩ := hp
  have hlt := (List.getElem?_eq_some_iff.mp hjob).1
  rw [(h.closed hclosed).2] at hlt
  obtain ⟨out, hout⟩ : ∃ out, out = (s.jobs[job]).out := ⟨_, rfl⟩
  have hold : s.jobs[job]? = some ⟨(s.jobs[job]).caller, (s.jobs[job]).turn, out⟩ := by
    rw [List.getElem?_eq_getElem hlt, hout]
  obtain ⟨out', hnew, hsame⟩ := h.jobs job _ _ _ hold
  rw [hjob] at hnew
  cases out with
  | none => exact ⟨_, _, hold⟩
  | some r =>
    cases hnew
    exact absurd (hsame (by simp)) (by simp)

theorem stable_fresh (t : T) : Stable (rules (V := V)) (.client t) (Fresh t) := by
  intro s s' hothers h
  obtain ⟨_, _, u, hu, hguar⟩ := hothers
  have hguar : Guarantee u s s' := hguar
  obtain ⟨hturn, hback⟩ := hguar.own t hu
  intro hc
  rw [hturn] at hc
  exact h (hback _ hc)

theorem stable_closed (t : Party T) :
    Stable (rules (V := V)) t (fun s => s.closed = true) := by
  intro s s' hothers h
  obtain ⟨_, _, u, _, hguar⟩ := hothers
  have hguar : Guarantee u s s' := hguar
  exact (hguar.closed h).1

theorem stable_drained (t : Party T) (P : Nat → Prop) :
    Stable (rules (V := V)) t (Drained P) := by
  intro s s' hothers h
  obtain ⟨_, _, u, _, hguar⟩ := hothers
  have hguar : Guarantee u s s' := hguar
  exact ⟨(hguar.closed h.1).1, fun job hp => h.2 job (pending_back hguar h.1 hp)⟩

theorem stable_reported (t : T) (out : Except Raised V) :
    Stable (rules (V := V)) (.client t) (fun s => Reported s t (s.turn t) out) := by
  intro s s' hothers h
  obtain ⟨_, _, u, hu, hguar⟩ := hothers
  have hguar : Guarantee u s s' := hguar
  obtain ⟨hturn, hback⟩ := hguar.own t hu
  rw [hturn]
  obtain ⟨hout, hnone⟩ | ⟨hout, job, hjob⟩ := h
  · exact .inl ⟨hout, fun hc => hnone (hback _ hc)⟩
  · obtain ⟨out', hjob, hsame⟩ := hguar.jobs job t _ _ hjob
    rw [hsame (by simp)] at hjob
    exact .inr ⟨hout, job, hjob⟩

/-- The job of the present call of a thread. -/
def Mine (t : T) (job : Nat) (s : Session T V) : Prop :=
  ∃ out : Option (Except Raised V), s.jobs[job]? = some ⟨t, s.turn t, out⟩

def Done (t : T) (job : Nat) (out : Except Raised V) (s : Session T V) : Prop :=
  s.jobs[job]? = some ⟨t, s.turn t, some out⟩

theorem stable_mine (t : T) (job : Nat) : Stable (rules (V := V)) (.client t) (Mine t job) := by
  intro s s' hothers h
  obtain ⟨_, _, u, hu, hguar⟩ := hothers
  have hguar : Guarantee u s s' := hguar
  obtain ⟨out, hjob⟩ := h
  obtain ⟨out', hjob, _⟩ := hguar.jobs job t _ out hjob
  exact ⟨out', by rw [(hguar.own t hu).1, hjob]⟩

theorem stable_done (t : T) (job : Nat) (out : Except Raised V) :
    Stable (rules (V := V)) (.client t) (Done t job out) := by
  intro s s' hothers h
  obtain ⟨_, _, u, hu, hguar⟩ := hothers
  have hguar : Guarantee u s s' := hguar
  obtain ⟨out', hjob, hsame⟩ := hguar.jobs job t _ _ h
  rw [hsame (by simp)] at hjob
  exact (congrArg (fun turn => s'.jobs[job]? = some ⟨t, turn, some out⟩)
    (hguar.own t hu).1).mpr hjob

theorem Done.settled {t : T} {job : Nat} {out : Except Raised V} {s : Session T V}
    (h : Done t job out s) : ¬ Pending s job := by
  intro hp
  obtain ⟨u, turn, hp⟩ := hp
  rw [Done, hp] at h
  cases h

theorem Done.reported {t : T} {job : Nat} {out : Except Raised V} {s : Session T V}
    (h : Done t job out s) (hinv : Sound s) : Reported s t (s.turn t) out := by
  refine .inr ⟨?_, job, h⟩
  intro hout
  subst hout
  obtain ⟨_, _, hother⟩ := hinv.ends job t _ _ h
  cases hother

theorem next_fresh {t : T} {s s' : Session T V} (h : Sound s) (hjobs : s'.jobs = s.jobs)
    (hturn : s'.turn t = s.turn t + 1) : Fresh t s' := by
  intro hc
  unfold Called at hc
  rw [hjobs, hturn] at hc
  exact Nat.not_succ_le_self _ (h.turns t _ hc)

theorem sound_opened : Sound (.opened T V) where
  registered := fun job hp => by
    obtain ⟨_, _, hjob⟩ := hp
    cases hjob
  drained := fun hs => absurd rfl hs
  running := fun _ => ⟨rfl, rfl⟩
  unclosed := fun _ hev => by cases hev
  late := List.Pairwise.nil
  logged := rfl
  ends := fun _ _ _ _ hjob => by cases hjob
  returned := fun hev => by cases hev
  ended := fun _ _ _ _ hev => by cases hev
  turns := fun _ _ hc => by
    obtain ⟨_, _, hjob⟩ := hc
    cases hjob

section

variable [DecidableEq T]

abbrev Keeps {α : Type} (t : T) (p : Script V α) (Q : Except Raised α → Session T V → Prop)
    (s : Session T V) : Prop :=
  wp sessionSystem rules (.client t) p Q s

theorem wp_step {α : Type} {t : T} {op : Op V} {k : Reply V op → Script V α}
    {Q : Except Raised α → Session T V → Prop} {B : Session T V → Prop} {s : Session T V}
    (hB : Stable rules (.client t) B) (hs : B s) (hop : ∀ s, Sound s → B s → Permitted s t op)
    (h : ∀ s r s', Sound s → B s → Calls s t op r s' → Sound s' → Keeps t (k r) Q s') :
    Keeps t (.exec op k) Q s := by
  refine wp_exec hB hs ?_
  intro s r s' hinv hb hstep
  have hkept := calls_kept hinv (hop s hinv hb) hstep
  exact ⟨hkept.1, hkept.2, h s r s' hinv hb hstep hkept.1⟩

theorem wp_ofExcept {α : Type} {t : T} {B : Session T V → Prop} (out : Except Raised α)
    {s : Session T V} (hB : Stable rules (.client t) B) (hs : B s) :
    Keeps t (.ofExcept out) (fun out' s => out' = out ∧ B s) s := by
  cases out with
  | ok a => exact wp_pure hB hs fun _ _ h => ⟨rfl, h⟩
  | error e => exact wp_fail hB hs fun _ _ h => ⟨rfl, h⟩

/-! ### One operation -/

theorem wp_deliver {t : T} {job : Nat} {s : Session T V} (hs : Mine t job s) :
    Keeps t (deliver job) (fun out => Done t job out) s := by
  refine wp_step (stable_mine t job) hs (fun _ _ _ => trivial) ?_
  intro s out s' hinv hs hstep _
  obtain ⟨⟨caller, turn, hjob⟩, rfl⟩ := hstep
  have hdone : Done t job out s' := by
    obtain ⟨out', hmine⟩ := hs
    rw [hjob] at hmine
    cases hmine
    exact hjob
  match out, hdone with
  | .ok v, hdone => exact wp_pure (stable_done t job _) hdone fun _ _ h => h
  | .error e, hdone =>
    obtain ⟨typeName, message, rfl⟩ := hinv.ends job t _ e hdone
    exact wp_fail (stable_done t job _) hdone fun _ _ h => h

theorem wp_register {t : T} {s : Session T V} (hs : Fresh t s) :
    Keeps t register (fun out s => Reported s t (s.turn t) out) s := by
  refine wp_step (stable_fresh t) hs (fun _ _ h => h) ?_
  intro s r s' hinv hs hstep hinv'
  simp only [Calls] at hstep
  split at hstep
  · obtain ⟨rfl, rfl⟩ := hstep
    exact wp_fail (stable_fresh t) hs fun _ _ h => .inl ⟨rfl, h⟩
  · obtain ⟨rfl, rfl⟩ := hstep
    have hmine : Mine t s.jobs.length (s.submit t) :=
      ⟨none, by simp [Session.submit, Session.note]⟩
    show Keeps t ((deliver s.jobs.length).settle _) _ _
    refine wp_settle hinv' (wp_mono ?_ (wp_deliver hmine))
    intro out s _ hdone
    refine wp_step (stable_done t _ out) hdone (fun _ _ h => h.settled) ?_
    intro s r s' hinv hdone hstep _
    obtain rfl : s' = _ := hstep
    refine wp_mono ?_ (wp_ofExcept out (stable_reported t out) (hdone.reported hinv))
    intro out' s _ h
    obtain ⟨rfl, h⟩ := h
    exact h

/-- A call that started after a close had returned finds the session closed. -/
theorem wp_run {t : T} {late : Bool} {s : Session T V} (hs : Fresh t s)
    (hlate : late = true → s.closed = true) :
    Keeps t run (fun out s => Reported s t (s.turn t) out ∧
      (late = true → out = .error .sessionClosed)) s := by
  have hstable : Stable (rules (V := V)) (.client t)
      (fun s => Fresh t s ∧ (late = true → s.closed = true)) := by
    refine (stable_fresh t).and ?_
    exact fun s s' hothers h hl => stable_closed _ s s' hothers (h hl)
  refine wp_step hstable ⟨hs, hlate⟩ (fun _ _ _ => trivial) ?_
  intro s closed s' _ hs hstep _
  obtain ⟨rfl, rfl⟩ := hstep
  cases hclosed : s'.closed with
  | true => exact wp_fail (stable_fresh t) hs.1 fun _ _ h => ⟨.inl ⟨rfl, h⟩, fun _ => rfl⟩
  | false =>
    have hearly : late ≠ true := by
      intro hl
      have htrue := hs.2 hl
      rw [hclosed] at htrue
      cases htrue
    exact wp_mono (fun _ _ _ h => ⟨h, fun hl => absurd hl hearly⟩) (wp_register hs.1)

/-! ### One close -/

theorem wp_acloseBackend {t : T} {s : Session T V} (hs : Drained (fun _ => False) s) :
    Keeps t acloseBackend (fun _ => Drained (fun _ => False)) s := by
  have hstable := stable_drained (V := V) (.client t) (fun _ => False)
  refine wp_step hstable hs (fun _ _ h => h) ?_
  intro s submitted s' _ hs hstep _
  obtain ⟨_, rfl⟩ := hstep
  have hs : Drained (fun _ => False)
      (if s.backend then { s with aclose := .submitted } else s) := by
    split <;> exact hs
  cases submitted with
  | false => exact wp_pure hstable hs fun _ _ h => h
  | true =>
    refine wp_step hstable hs (fun _ _ _ => trivial) ?_
    intro s out s' _ hs hstep _
    obtain ⟨_, rfl⟩ := hstep
    exact wp_mono (fun _ _ _ h => h.2) (wp_ofExcept out hstable hs)

theorem wp_tearDown {t : T} {s : Session T V} (hs : Drained (fun _ => False) s) :
    Keeps t tearDown (fun _ s => s.closed = true) s := by
  have hstable := stable_drained (V := V) (.client t) (fun _ => False)
  have hlast : ∀ s : Session T V, s.closed = true →
      Keeps t (.perform .tearDown) (fun _ s => s.closed = true) s := by
    intro s hs
    refine wp_step (stable_closed _) hs (fun _ _ _ => trivial) ?_
    intro s r s' _ hs hstep _
    obtain rfl : s' = _ := hstep
    exact wp_pure (stable_closed _) hs fun _ _ h => h
  refine wp_step hstable hs (fun _ _ _ => trivial) ?_
  intro s alive s' _ hs hstep _
  obtain ⟨_, rfl⟩ := hstep
  cases alive with
  | false => exact hlast s' hs.1
  | true =>
    refine wp_step hstable hs (fun _ _ h => h) ?_
    intro s r s' _ hs hstep _
    obtain rfl : s' = _ := hstep
    refine wp_step (stable_closed _) hs.1 (fun _ _ _ => trivial) ?_
    intro s r s' _ hs hstep _
    obtain rfl : s' = s := hstep
    exact hlast s' hs

/-- After the flag is set, only the futures of the snapshot may be pending. -/
theorem wp_close {t : T} {s : Session T V} :
    Keeps t close (fun _ s => s.closed = true) s := by
  refine wp_step (stable_true _) trivial (fun _ _ _ => trivial) ?_
  intro s r s' _ _ _ hinv
  have hunlock : ∀ (out : Except Raised Unit) (s : Session T V), s.closed = true →
      Keeps t (.exec .unlockOpen fun _ => .ofExcept out) (fun _ s => s.closed = true) s := by
    intro out s hs
    refine wp_step (stable_closed _) hs (fun _ _ _ => trivial) ?_
    intro s r s' _ hs hstep _
    obtain rfl : s' = _ := hstep
    exact wp_mono (fun _ _ _ h => h.2) (wp_ofExcept out (stable_closed _) hs)
  show Keeps t (Prog.settle _ fun out => .exec .unlockOpen fun _ => .ofExcept out) _ _
  refine wp_settle hinv (wp_mono (fun out s _ h => hunlock out s h) ?_)
  refine wp_step (stable_true _) trivial (fun _ _ _ => trivial) ?_
  intro s tornDown s' _ _ hstep _
  obtain ⟨rfl, rfl⟩ := hstep
  cases htorn : s'.closed && !s'.alive && !s'.backend with
  | true =>
    simp only [Bool.and_eq_true] at htorn
    exact wp_pure (stable_closed _) htorn.1.1 fun _ _ h => h
  | false =>
    refine wp_step (stable_true _) trivial (fun _ _ _ => trivial) ?_
    intro s snapshot s' hinv _ hstep _
    obtain ⟨rfl, rfl⟩ := hstep
    have hmarked : Drained (· ∈ s.futures) (({ s with closed := true }).note Event.closed) :=
      ⟨rfl, hinv.registered⟩
    refine wp_step (stable_drained _ _) hmarked (fun _ _ _ => trivial) ?_
    intro s' r s'' _ hmarked hstep hinv
    obtain ⟨hdone, rfl⟩ := hstep
    have hdrained : Drained (fun _ => False) s'' :=
      ⟨hmarked.1, fun job hp => hdone job (hmarked.2 job hp) hp⟩
    show Keeps t (acloseBackend.settle _) _ _
    refine wp_settle hinv (wp_mono ?_ (wp_acloseBackend hdrained))
    intro out s hinv hs
    refine wp_bind hinv (wp_mono ?_ (wp_tearDown hs))
    intro out' s _ hs
    cases out' with
    | ok a => exact wp_mono (fun _ _ _ h => h.2) (wp_ofExcept out (stable_closed _) hs)
    | error e => exact wp_fail (stable_closed _) hs fun _ _ h => h

/-! ### All parties -/

theorem wp_client {t : T} (actions : List Action) {s : Session T V} (hinv : Sound s)
    (hs : Fresh t s) : Keeps t (client actions) (fun _ _ => True) s := by
  induction actions generalizing s with
  | nil => exact wp_pure (stable_true _) trivial fun _ _ _ => trivial
  | cons action rest ih =>
    cases action with
    | run =>
      refine wp_step (stable_fresh t) hs (fun _ _ _ => trivial) ?_
      intro s late s' hinv hs hstep _
      obtain ⟨hreturned, rfl⟩ := hstep
      have hlate : late = true → s'.closed = true :=
        fun hl => hinv.returned (hreturned.mp hl)
      show Keeps t (run.settle _) _ _
      refine wp_settle hinv (wp_mono ?_ (wp_run hs hlate))
      intro out s _ h
      obtain ⟨hreported, hout⟩ := h
      refine wp_step (stable_reported t out) hreported (fun _ _ h => ⟨h, hout⟩) ?_
      intro s r s' hinv _ hstep hinv'
      obtain rfl : s' = _ := hstep
      exact ih hinv' (next_fresh hinv rfl (Function.update_self _ _ _))
    | close =>
      refine wp_settle hinv (wp_mono ?_ wp_close)
      intro out s _ hs
      refine wp_step (stable_closed _) hs (fun _ _ h => h) ?_
      intro s r s' hinv _ hstep hinv'
      have hnext : s'.jobs = s.jobs ∧ s'.turn t = s.turn t + 1 := by
        cases out with
        | ok a =>
          obtain rfl : s' = _ := hstep
          exact ⟨rfl, Function.update_self _ _ _⟩
        | error e =>
          obtain rfl : s' = _ := hstep
          exact ⟨rfl, Function.update_self _ _ _⟩
      exact ih hinv' (next_fresh hinv hnext.1 hnext.2)

theorem wp_performAll (ops : List (Op V)) {s : Session T V} :
    wp sessionSystem rules .loop (performAll ops) (fun _ _ => True) s := by
  induction ops generalizing s with
  | nil => exact wp_pure (stable_true _) trivial fun _ _ _ => trivial
  | cons op rest ih =>
    refine wp_exec (stable_true _) trivial ?_
    intro s r s' hinv _ hstep
    have hkept := loops_kept hinv hstep
    exact ⟨hkept.1, hkept.2, ih⟩

theorem wp_parties (setting : Setting T V) (t : Party T) :
    wp sessionSystem rules t (setting.script t) (fun _ _ => True) (.opened T V) := by
  cases t with
  | client t =>
    refine wp_client _ sound_opened ?_
    intro hc
    obtain ⟨_, _, hjob⟩ := hc
    cases hjob
  | loop => exact wp_performAll _

/-- **No operation is submitted after the closed flag was set, the backend's `aclose` only when
every operation that ever was is done. A call ends with what its own operation ended with, or as
closed, and then it had none; one that started after a `close` returned ends as closed. What is
pending has a running loop.** -/
theorem close_loses_no_operation (setting : Setting T V) (c : Run T V) (hc : Runs setting c) :
    (∀ before after, c.state.log = before ++ .closed :: after →
      ∀ t turn, Event.submitted t turn ∉ after) ∧
    (c.state.aclose ≠ .absent → ∀ job, ¬ Pending c.state job) ∧
    (∀ t turn late out, Event.ended t turn late out ∈ c.state.log →
      Reported c.state t turn out ∧ (late = true → out = .error .sessionClosed)) ∧
    c.state.log.filterMap Event.call = (c.state.jobs.map fun job => (job.caller, job.turn)) ∧
    ((∃ job, Pending c.state job) → c.state.alive = true ∧ c.state.stopping = false) := by
  obtain ⟨hsound, _⟩ := reachable_wp (R := rules) sound_opened (fun _ _ _ _ (h : False) => h.elim)
    (wp_parties setting) hc
  have hsound : Sound c.state := hsound
  refine ⟨?_, fun hs => (hsound.drained hs).2, ?_, hsound.logged,
    fun hp => hsound.running (.inr hp)⟩
  · intro before after hsplit t turn hev
    have hlate := hsound.late
    rw [hsplit] at hlate
    have hafter := (List.pairwise_cons.mp (List.pairwise_append.mp hlate).2.1).1
    exact hafter _ hev rfl t turn rfl
  · intro t turn late out hev
    obtain ⟨hout, hlate, _⟩ := hsound.ended t turn late out hev
    exact ⟨hout, hlate⟩

/-! ### A run in which a call comes too late -/

theorem Runs.step {setting : Setting T V} {c : Run T V} (hc : Runs setting c) (t : Party T)
    (op : Op V) (r : Reply V op) {k : Reply V op → Script V Unit} {s' : Session T V}
    (hp : c.prog t = some (.exec op k)) (hs : Effect c.state t op r s') :
    Runs setting ⟨s', Function.update c.prog t (some (k r))⟩ :=
  Reachable.exec hc hp hs

end

def sampleSetting : Setting Nat Unit where
  actions t := match t with
    | 0 | 1 => [.run]
    | 2 => [.close]
    | _ => []
  loop := [.execute, .beginAclose, .finishAclose, .stop]

theorem called_opened {T V : Type} [DecidableEq T] (t : T) :
    Calls (.opened T V) t .called false (.opened T V) :=
  ⟨⟨(fun h => by cases h), (fun h => by cases h)⟩, rfl⟩

/-- Both calls find the session open; one is submitted before the close, one comes after it. -/
theorem close_loses_no_operation_straggler : ∃ c : Run Nat Unit, Runs sampleSetting c ∧
    c.state.log = [.submitted 0 0, .closed, .ended 1 0 false (.error .sessionClosed),
      .ended 0 0 false (.ok ())] ∧
    c.state.aclose = .submitted ∧ Reported c.state 0 0 (.ok ()) ∧
      Reported c.state 1 0 (.error .sessionClosed) := by
  have h : Runs sampleSetting (start (.opened Nat Unit) _) := .refl
  have h := Runs.step h (.client 0) .called false rfl (called_opened 0)
  have h := Runs.step h (.client 0) .readClosed false rfl ⟨rfl, rfl⟩
  have h := Runs.step h (.client 1) .called false rfl (called_opened 1)
  have h := Runs.step h (.client 1) .readClosed false rfl ⟨rfl, rfl⟩
  have h := Runs.step h (.client 0) .register (some 0) rfl ⟨rfl, rfl⟩
  have h := Runs.step h (.client 2) .lockOpen () rfl ⟨rfl, rfl⟩
  have h := Runs.step h (.client 2) .tornDown false rfl ⟨rfl, rfl⟩
  have h := Runs.step h (.client 2) .markClosed {0} rfl ⟨rfl, rfl⟩
  have h := Runs.step h (.client 1) .register none rfl ⟨rfl, rfl⟩
  have h := Runs.step h (.client 1) (.ended false (.error .sessionClosed)) () rfl rfl
  have h := Runs.step h .loop .execute () rfl
    ⟨rfl, 0, 0, 0, .ok (), rfl, fun _ he => (by cases he), rfl⟩
  have h := Runs.step h (.client 2) (.drain {0}) () rfl ⟨fun job hj hp => (by
    obtain rfl := Finset.mem_singleton.mp hj
    obtain ⟨_, _, hjob⟩ := hp
    cases Option.some.inj hjob), rfl⟩
  have h := Runs.step h (.client 2) .submitAclose true rfl ⟨rfl, rfl⟩
  have h := Runs.step h (.client 0) (.result 0) (.ok ()) rfl ⟨⟨0, 0, rfl⟩, rfl⟩
  have h := Runs.step h (.client 0) (.discard 0) () rfl rfl
  have h := Runs.step h (.client 0) (.ended false (.ok ())) () rfl rfl
  obtain ⟨c, h, hlog, haclose⟩ : ∃ c : Run Nat Unit, Runs sampleSetting c ∧
      c.state.log = [.submitted 0 0, .closed, .ended 1 0 false (.error .sessionClosed),
        .ended 0 0 false (.ok ())] ∧ c.state.aclose = .submitted := ⟨_, h, rfl, rfl⟩
  have hended := (close_loses_no_operation sampleSetting c h).2.2.1
  rw [hlog] at hended
  have hfirst := (hended 0 0 false (.ok ()) (by simp)).1
  have hsecond := (hended 1 0 false (.error .sessionClosed) (by simp)).1
  exact ⟨c, h, hlog, haclose, hfirst, hsecond⟩

end DrStore.Sync.Sessions
