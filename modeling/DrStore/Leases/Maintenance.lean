import DrStore.Base.Pool
import DrStore.Leases.Models

/-! # Lease maintenance (lease/authority.py, `LeaseMaintenance`)

One thread calls the handle; a renewer thread, started again with every generation, renews the
lease. A step is one section under the handle's lock, one operation on the stop event or on a
thread, or the call or the answer of the authority; the authority is a parameter that may answer
anything. The log is no part of the handle: it says what was called and what came back. -/
namespace DrStore.Leases.Maintenance
open DrStore.Base.Programs DrStore.Base.Pool
open DrStore.Store.ContentAddressing DrStore.Leases.Models

/-! ## Exceptions -/

/-- An exception, by the classes that the handle tells apart. -/
inductive Raised where
  | stale (message : String)
  | terminalConflict (message : String)
  | authority (message : String)
  | runtimeError (message : String)
  | other (typeName message : String)
deriving DecidableEq

/-- `isinstance(error, (StaleLeaseError, TerminalConflictError))`. -/
def Raised.definitive : Raised → Bool
  | .stale _ | .terminalConflict _ => true
  | _ => false

/-- What `check` raises for a recorded loss. -/
def Raised.surfaced : Raised → Raised
  | .runtimeError message => .authority ("lease maintenance failed: RuntimeError: " ++ message)
  | .other typeName message =>
      .authority ("lease maintenance failed: " ++ typeName ++ ": " ++ message)
  | loss => loss

/-! ## The handle -/

/-- Where a renewer thread is. -/
inductive Renewer where
  | unstarted
  | waiting
  | awake
  | renewing
  | storing (renewed : Lease)
  | losing (error : Raised)
  | leaving
  | ended
deriving DecidableEq

/-- Where the renewer is once the authority has answered. -/
def Renewer.answered : Except Raised Lease → Renewer
  | .ok renewed => .storing renewed
  | .error e => .losing e

structure Handle where
  lease : Lease
  stop : Bool
  loss : Option Raised
  renewerGeneration : Nat
  thread : Renewer
  entered : Bool
  exited : Bool
  terminalizing : Bool
  terminalizationStarted : Bool
  terminalized : Bool

def Handle.init (lease : Lease) : Handle where
  lease := lease
  stop := false
  loss := none
  renewerGeneration := 0
  thread := .unstarted
  entered := false
  exited := false
  terminalizing := false
  terminalizationStarted := false
  terminalized := false

inductive Publication where
  | succeed (resultRef : ObjectReference)
  | fail (resultRef : ObjectReference) (failure : TerminalFailure)

inductive Call where
  | enter
  | publish (p : Publication)
  | check
  | exit (clean : Bool)

/-- What happened; the authority's states are those before and after it answered. -/
inductive Event (A : Type) where
  | entered
  | exiting
  | renewing (lease : Lease)
  | renewed (lease : Lease) (r : Except Raised Lease) (before : A)
  | publishing (lease : Lease) (p : Publication)
  | published (turn : Nat) (lease : Lease) (p : Publication) (r : Except Raised Terminal)
      (before after : A)
  | ended (turn : Nat) (call : Call) (out : Except Raised (Option Terminal)) (authority : A)

/-- The handle, the authority, the log and the number of calls that have ended. -/
structure World (A : Type) where
  handle : Handle
  authority : A
  log : List (Event A)
  turn : Nat

def World.note {A : Type} (s : World A) (e : Event A) : World A := { s with log := s.log ++ [e] }

/-- What an authority may answer, and what may happen to it elsewhere. -/
structure Service (A : Type) where
  renew : A → Lease → Except Raised Lease → A → Prop
  publish : A → Lease → Publication → Except Raised Terminal → A → Prop
  elsewhere : A → A → Prop

/-! ## Steps -/

inductive Op where
  | enter
  | startThread
  | prepare
  | join
  | readLoss
  | readLease
  | callPublish (lease : Lease) (p : Publication)
  | publish (lease : Lease) (p : Publication)
  | abort (error : Raised)
  | newThread
  | commit
  | exit
  | readTerminalized
  | ended (call : Call) (out : Except Raised (Option Terminal))
  | begin
  | wait
  | callRenew (lease : Lease)
  | renew (lease : Lease)
  | recordLoss (error : Raised)
  | stopRenewer
  | storeLease (renewed : Lease)
  | finish
  | sleep
  | elsewhere

abbrev Reply : Op → Type
  | .enter => Except Raised Unit
  | .prepare => Except Raised (Option Raised)
  | .join | .abort _ | .readTerminalized | .wait => Bool
  | .readLoss => Option Raised
  | .readLease => Lease
  | .publish _ _ => Except Raised Terminal
  | .renew _ => Except Raised Lease
  | _ => Unit

inductive Party where
  | main
  | renewer (generation : Nat)
  | other
deriving DecidableEq

variable {A : Type} (S : Service A)

/-- The locked section of `_prepare_for_terminalization`. -/
def Handle.prepare (h : Handle) : Except Raised (Option Raised) × Handle :=
  if h.terminalizationStarted then
    (.error (.runtimeError "lease maintenance is already terminalized"), h)
  else if h.terminalizing then (.error (.runtimeError "terminalization already in progress"), h)
  else match h.loss with
    | some loss => (.ok (some loss), h)
    | none =>
      if !h.entered || h.exited || h.stop then
        (.error (.runtimeError "terminal publication requires an active maintenance context"), h)
      else (.ok none, { h with terminalizing := true, stop := true })

/-- The locked section of `_abort_terminalization`, and whether the renewer starts again. -/
def Handle.abort (h : Handle) (error : Raised) : Bool × Handle :=
  if h.terminalizationStarted then (false, h)
  else
    let loss := if error.definitive && h.loss.isNone then some error else h.loss
    let aborted := { h with terminalizing := false, loss := loss }
    if !h.terminalizing || loss.isSome || h.exited then (false, aborted)
    else (true, { aborted with stop := false })

/-- What one step of a party may answer and do. -/
def Effect (s : World A) (t : Party) : (op : Op) → Reply op → World A → Prop
  | .enter, r, s' =>
      if s.handle.entered then
        r = .error (.runtimeError "lease maintenance cannot be re-entered") ∧ s' = s
      else r = .ok () ∧ s' = ({ s with handle.entered := true }).note .entered
  | .startThread, _, s' => s' = { s with handle.thread := .waiting }
  | .prepare, r, s' => r = s.handle.prepare.1 ∧ s' = { s with handle := s.handle.prepare.2 }
  | .join, r, s' =>
      (s.handle.thread = .ended ∧ r = true ∨ s.handle.thread = .unstarted ∧ r = false) ∧ s' = s
  | .readLoss, r, s' => r = s.handle.loss ∧ s' = s
  | .readLease, r, s' => r = s.handle.lease ∧ s' = s
  | .callPublish lease p, _, s' => s' = s.note (.publishing lease p)
  | .publish lease p, r, s' => ∃ a, S.publish s.authority lease p r a ∧
      s' = ({ s with authority := a }).note (.published s.turn lease p r s.authority a)
  | .abort error, r, s' =>
      r = (s.handle.abort error).1 ∧ s' = { s with handle := (s.handle.abort error).2 }
  | .newThread, _, s' => s' = { s with
      handle.renewerGeneration := s.handle.renewerGeneration + 1, handle.thread := .unstarted }
  | .commit, _, s' => s' = { s with handle := { s.handle with
      terminalizationStarted := true, terminalized := true, terminalizing := false } }
  | .exit, _, s' => s' = ({ s with handle := { s.handle with
      exited := true, stop := true } }).note .exiting
  | .readTerminalized, r, s' => r = s.handle.terminalized ∧ s' = s
  | .ended call out, _, s' =>
      s' = ({ s with turn := s.turn + 1 }).note (.ended s.turn call out s.authority)
  | .begin, _, s' =>
      -- the thread of this generation is running
      t = .renewer s.handle.renewerGeneration ∧ s.handle.thread = .waiting ∧ s' = s
  | .wait, r, s' => r = s.handle.stop ∧
      s' = { s with handle.thread := if s.handle.stop then .leaving else .awake }
  | .callRenew lease, _, s' => s' = ({ s with handle.thread := .renewing }).note (.renewing lease)
  | .renew lease, r, s' => ∃ a, S.renew s.authority lease r a ∧
      s' = ({ s with authority := a, handle.thread := .answered r }).note
        (.renewed lease r s.authority)
  | .recordLoss error, _, s' =>
      s' = { s with handle := { s.handle with loss := some error, thread := .leaving } }
  | .stopRenewer, _, s' => s' = { s with handle.stop := true }
  | .storeLease renewed, _, s' =>
      s' = { s with handle := { s.handle with lease := renewed, thread := .waiting } }
  | .finish, _, s' => s' = { s with handle.thread := .ended }
  | .sleep, _, _ => False
  | .elsewhere, _, s' => ∃ a, S.elsewhere s.authority a ∧ s' = { s with authority := a }

/-- Threads end only by returning. -/
def maintenanceSystem : System Party (World A) Op Reply where
  step t s op r s' := Effect S s t op r s'
  kill _ _ _ := False

/-! ## The calls -/

abbrev Script (α : Type) := Prog Op Reply Raised α

def check : Script Unit := do
  match ← .perform Op.readLoss with
  | none => return ()
  | some loss => .fail loss.surfaced

def restartRenewer : Script Unit := do
  .perform Op.newThread
  .perform Op.startThread

def abortTerminalization (error : Raised) : Script Unit := do
  if ← .perform (Op.abort error) then restartRenewer else return ()

/-- `self._thread.join()`. -/
def joinThread : Script Unit := do
  if ← .perform Op.join then return ()
  else .fail (.runtimeError "cannot join thread before it is started")

def prepareForTerminalization : Script Lease := do
  let loss ← Prog.ofExcept (← .perform Op.prepare)
  let body : Script Lease := match loss with
    | some _ => do
      check
      .fail (.other "AssertionError" "lease loss check returned unexpectedly")
    | none => do
      joinThread
      check
      .perform Op.readLease
  body.settle fun
    | .ok lease => .pure lease
    | .error e => do
      abortTerminalization e
      .fail e

/-- `succeed` and `fail`, which differ in the call of the authority only. -/
def publish (p : Publication) : Script Terminal := do
  let lease ← prepareForTerminalization
  .perform (Op.callPublish lease p)
  match ← .perform (Op.publish lease p) with
  | .error e => do
    abortTerminalization e
    .fail e
  | .ok terminal => do
    .perform Op.commit
    return terminal

def succeed (resultRef : ObjectReference) : Script Terminal := publish (.succeed resultRef)

def fail (resultRef : ObjectReference) (failure : TerminalFailure) : Script Terminal :=
  publish (.fail resultRef failure)

/-- `_run`, which wakes up at most so often in a run. -/
def run : Nat → Script Unit
  | 0 => .perform Op.sleep
  | wakeups + 1 => do
    if ← .perform Op.wait then .perform Op.finish
    else
      let current ← .perform Op.readLease
      .perform (Op.callRenew current)
      match ← .perform (Op.renew current) with
      | .error e => do
        .perform (Op.recordLoss e)
        .perform Op.stopRenewer
        .perform Op.finish
      | .ok renewed => do
        .perform (Op.storeLease renewed)
        run wakeups

def enter : Script Unit := do
  Prog.ofExcept (← .perform Op.enter)
  .perform Op.startThread

/-- `__exit__`; clean with no exception in flight. -/
def exit (clean : Bool) : Script Unit := do
  .perform Op.exit
  joinThread
  let terminalized ← .perform Op.readTerminalized
  if clean then
    check
    if terminalized then return ()
    else .fail (.runtimeError "clean lease maintenance exit requires terminal publication")
  else return ()

/-! ## Threads -/

def Call.script : Call → Script (Option Terminal)
  | .enter => do
    Maintenance.enter
    return none
  | .publish (.succeed resultRef) => return some (← succeed resultRef)
  | .publish (.fail resultRef failure) => return some (← fail resultRef failure)
  | .check => do
    Maintenance.check
    return none
  | .exit clean => do
    Maintenance.exit clean
    return none

/-- One call after the other, whatever they raise. -/
def client : List Call → Script Unit
  | [] => .pure ()
  | call :: rest => call.script.settle fun out => do
    .perform (Op.ended call out)
    client rest

def others : Nat → Script Unit
  | 0 => .pure ()
  | n + 1 => do
    .perform Op.elsewhere
    others n

/-- Any calls, any number of wake-ups of every generation, and any number of steps elsewhere. -/
structure Setting where
  calls : List Call
  wakeups : Nat → Nat
  elsewhere : Nat

def Setting.script (setting : Setting) : Party → Script Unit
  | .main => client setting.calls
  | .renewer generation => do
    .perform Op.begin
    run (setting.wakeups generation)
  | .other => others setting.elsewhere

def World.init (lease : Lease) (a : A) : World A := ⟨.init lease, a, [], 0⟩

abbrev Run (A : Type) := Config Party (World A) Op Reply Raised Unit

/-- The runs of one handle. -/
def Runs (lease : Lease) (a : A) (setting : Setting) (c : Run A) : Prop :=
  Reachable (maintenanceSystem S) (.init lease a) setting.script c

end DrStore.Leases.Maintenance
