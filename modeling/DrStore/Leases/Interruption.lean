import DrStore.Leases.Maintenance
import DrStore.Leases.History

/-! # A handle whose calls may be cut short (lease/authority.py, `LeaseMaintenance`)

Here any call the handle makes may raise anything, the join of the renewer included, so that a
renewer can be replaced while it is still running. The state keeps every thread the handle has
created; there is no authority in it, since an authority may answer anything. -/
namespace DrStore.Leases.Interruption
open DrStore.Base.Programs DrStore.Base.Pool
open DrStore.Store.ContentAddressing DrStore.Leases.Models DrStore.Leases.Maintenance
open DrStore.Leases.History (sampleLease sampleReference)

/-! ## The threads of a handle -/

def Running (thread : Renewer) : Prop := thread ≠ .unstarted ∧ thread ≠ .ended

/-- The handle, whose thread is the one numbered `current`, and the threads it had before. -/
structure Crew where
  handle : Handle
  current : Nat
  earlier : Nat → Renewer
  exitReturned : Bool

def Crew.init (lease : Lease) : Crew := ⟨.init lease, 0, fun _ => .unstarted, false⟩

def Crew.thread (s : Crew) (g : Nat) : Renewer :=
  if g = s.current then s.handle.thread else s.earlier g

def Crew.setThread (s : Crew) (g : Nat) (thread : Renewer) : Crew :=
  if g = s.current then { s with handle.thread := thread }
  else { s with earlier := Function.update s.earlier g thread }

/-- `self._thread = Thread(...)`, under the next generation. -/
def Crew.replace (s : Crew) : Crew where
  handle := { s.handle with
    renewerGeneration := s.handle.renewerGeneration + 1, thread := .unstarted }
  current := s.handle.renewerGeneration + 1
  earlier := Function.update s.earlier s.current s.handle.thread
  exitReturned := s.exitReturned

/-! ## Steps -/

/-- What an operation replies unless it raises. -/
abbrev Value : Op → Type
  | .prepare | .readLoss => Option Raised
  | .abort _ | .readTerminalized | .wait => Bool
  | .readLease | .renew _ => Lease
  | .publish _ _ => Terminal
  | _ => Unit

abbrev Answer (op : Op) : Type := Except Raised (Value op)

/-- The operations that stand for no call of the code cannot be cut short. -/
def interruptible : Op → Bool
  | .callPublish _ _ | .callRenew _ | .ended _ _ | .begin | .finish | .sleep | .elsewhere => false
  | _ => true

def leaves : Call → Except Raised (Option Terminal) → Bool
  | .exit _, .ok _ => true
  | _, _ => false

/-- What the caller's thread does. -/
def Calls (s : Crew) : (op : Op) → Answer op → Crew → Prop
  | .enter, r, s' =>
      if s.handle.entered then
        r = .error (.runtimeError "lease maintenance cannot be re-entered") ∧ s' = s
      else r = .ok () ∧ s' = { s with handle.entered := true }
  | .startThread, r, s' =>
      -- `Thread.start` waits for the thread it has started, and may be interrupted there
      if s.handle.thread = .unstarted then s' = { s with handle.thread := .waiting }
      else r = .error (.runtimeError "threads can only be started once") ∧ s' = s
  | .prepare, r, s' =>
      -- setting the event or waking the renewer up raises at the end of the section
      r = s.handle.prepare.1 ∧ s' = { s with handle := s.handle.prepare.2 } ∨
      s.handle.prepare.1 = .ok none ∧ (∃ e, r = .error e) ∧
        (s' = { s with handle := s.handle.prepare.2 } ∨ s' = { s with handle.terminalizing := true })
  | .join, r, s' => s.handle.thread = .ended ∧ r = .ok () ∧ s' = s
  | .readLoss, r, s' => r = .ok s.handle.loss ∧ s' = s
  | .readLease, r, s' => r = .ok s.handle.lease ∧ s' = s
  | .callPublish _ _, r, s' => r = .ok () ∧ s' = s
  | .publish _ _, _, s' => s' = s
  | .abort error, r, s' =>
      r = .ok (s.handle.abort error).1 ∧ s' = { s with handle := (s.handle.abort error).2 } ∨
      (∃ e, r = .error e) ∧
        s' = { s with handle := { (s.handle.abort error).2 with stop := s.handle.stop } }
  | .newThread, r, s' =>
      r = .ok () ∧ s' = s.replace ∨ (∃ e, r = .error e) ∧
        s' = { s with handle.renewerGeneration := s.handle.renewerGeneration + 1 }
  | .commit, r, s' => r = .ok () ∧ s' = { s with handle := { s.handle with
      terminalizationStarted := true, terminalized := true, terminalizing := false } }
  | .exit, r, s' => s' = { s with handle := { s.handle with exited := true, stop := true } } ∨
      (∃ e, r = .error e) ∧ s' = { s with handle.exited := true }
  | .readTerminalized, r, s' => r = .ok s.handle.terminalized ∧ s' = s
  | .ended call out, r, s' =>
      r = .ok () ∧ s' = { s with exitReturned := s.exitReturned || leaves call out }
  | _, _, _ => False

/-- What the renewer thread numbered `g` does. -/
def Renews (s : Crew) (g : Nat) : (op : Op) → Answer op → Crew → Prop
  | .begin, r, s' => s.thread g = .waiting ∧ r = .ok () ∧ s' = s
  | .wait, r, s' => r = .ok s.handle.stop ∧
      s' = s.setThread g (if s.handle.stop then .leaving else .awake)
  | .readLease, r, s' => r = .ok s.handle.lease ∧ s' = s
  | .callRenew _, r, s' => r = .ok () ∧ s' = s.setThread g .renewing
  | .renew _, r, s' => s' = s.setThread g (.answered r)
  | .recordLoss error, r, s' =>
      r = .ok () ∧ s' = { s with handle.loss := some error }.setThread g .leaving
  | .stopRenewer, _, s' => s' = { s with handle.stop := true }
  | .storeLease renewed, r, s' =>
      r = .ok () ∧ s' = { s with handle.lease := renewed }.setThread g .waiting
  | .finish, r, s' => r = .ok () ∧ s' = s.setThread g .ended
  | _, _, _ => False

def Effect (s : Crew) : Party → (op : Op) → Answer op → Crew → Prop
  | .main => Calls s
  | .renewer g => Renews s g
  | .other => fun _ _ _ => False

/-- A step has its effect, or it is a call that raises before it had any. -/
def crewSystem : System Party Crew Op Answer where
  step t s op r s' :=
    Effect s t op r s' ∨ interruptible op = true ∧ (∃ e, r = .error e) ∧ s' = s
  kill _ _ _ := False

/-! ## The calls -/

abbrev Script (α : Type) := Prog Op Answer Raised α

def attempt (op : Op) : Script (Value op) := .exec op .ofExcept

def check : Script Unit := do
  match ← attempt .readLoss with
  | none => return ()
  | some loss => .fail loss.surfaced

def restartRenewer : Script Unit := do
  attempt .newThread
  attempt .startThread

def abortTerminalization (error : Raised) : Script Unit := do
  if ← attempt (.abort error) then restartRenewer else return ()

/-- The `try` of `_prepare_for_terminalization`, for the loss read before. -/
def prepared : Option Raised → Script Lease
  | some _ => do
    check
    .fail (.other "AssertionError" "lease loss check returned unexpectedly")
  | none => do
    attempt .join
    check
    attempt .readLease

def prepareForTerminalization : Script Lease := do
  let loss ← attempt .prepare
  (prepared loss).settle fun
    | .ok lease => .pure lease
    | .error e => do
      abortTerminalization e
      .fail e

/-- `succeed` and `fail`, which differ in the call of the authority only. -/
def publish (p : Publication) : Script Terminal := do
  let lease ← prepareForTerminalization
  (attempt (.publish lease p)).settle fun
    | .error e => do
      abortTerminalization e
      .fail e
    | .ok terminal => do
      attempt .commit
      return terminal

def enter : Script Unit := do
  attempt .enter
  attempt .startThread

def exit (clean : Bool) : Script Unit := do
  attempt .exit
  attempt .join
  let terminalized ← attempt .readTerminalized
  if clean then
    check
    if terminalized then return ()
    else .fail (.runtimeError "clean lease maintenance exit requires terminal publication")
  else return ()

def script : Call → Script (Option Terminal)
  | .enter => do
    enter
    return none
  | .publish p => return some (← publish p)
  | .check => do
    check
    return none
  | .exit clean => do
    exit clean
    return none

/-- `_run`, which wakes up at most so often in a run. -/
def run : Nat → Script Unit
  | 0 => attempt .sleep
  | wakeups + 1 => do
    if ← attempt .wait then return ()
    else
      let current ← attempt .readLease
      attempt (.callRenew current)
      (attempt (.renew current)).settle fun
        | .error e => do
          attempt (.recordLoss e)
          attempt .stopRenewer
        | .ok renewed => do
          attempt (.storeLease renewed)
          run wakeups

/-- One call after the other, whatever they raise. -/
def client : List Call → Script Unit
  | [] => .pure ()
  | call :: rest => (script call).settle fun out => do
    attempt (.ended call out)
    client rest

/-- The caller's thread, and for each thread the handle may start its loop: a thread whose loop
raises has ended like any other. -/
def threads (setting : Setting) : Party → Script Unit
  | .main => client setting.calls
  | .renewer g => do
    attempt .begin
    (run (setting.wakeups g)).settle fun _ => attempt .finish
  | .other => .pure ()

abbrev Run := Config Party Crew Op Answer Raised Unit

def Runs (S : System Party Crew Op Answer) (lease : Lease) (setting : Setting) (c : Run) : Prop :=
  Reachable S (.init lease) (threads setting) c

/-! ## When the renewer is replaced -/

/-- `_abort_terminalization` with this error starts a renewer. -/
def Restarts (h : Handle) (error : Raised) : Prop :=
  h.terminalizing = true ∧ h.terminalizationStarted = false ∧ h.loss = none ∧
    error.definitive = false ∧ h.exited = false

/-- A renewer is not replaced before it has ended. -/
def Patient (_ : Party) (s : Crew) : Op → Prop
  | .abort error => Restarts s.handle error → ¬ Running s.handle.thread
  | _ => True

theorem abort_restarts {h : Handle} {error : Raised} :
    (h.abort error).1 = true ↔ Restarts h error := by
  unfold Handle.abort Restarts
  cases hstarted : h.terminalizationStarted
  · cases hterminalizing : h.terminalizing
    · simp
    · cases hexited : h.exited
      · cases hloss : h.loss with
        | none =>
          cases hdefinitive : error.definitive
          · simp
          · simp
        | some loss => simp
      · simp
  · simp

/-- Whether or not a renewer is started, only the flags of the publication change. -/
theorem abort_keeps (h : Handle) (error : Raised) :
    (h.abort error).2.thread = h.thread ∧ (h.abort error).2.entered = h.entered ∧
      (h.abort error).2.exited = h.exited ∧
      ((h.abort error).2.terminalizing = true → h.terminalizing = true) := by
  unfold Handle.abort
  cases hstarted : h.terminalizationStarted
  · simp only [Bool.false_eq_true, if_false]
    generalize (if (error.definitive && h.loss.isNone) = true then some error else h.loss) = loss
    split
    · exact ⟨rfl, rfl, rfl, fun h => by cases h⟩
    · exact ⟨rfl, rfl, rfl, fun h => by cases h⟩
  · exact ⟨rfl, rfl, rfl, fun h => h⟩

theorem prepare_keeps (h : Handle) :
    h.prepare.2.thread = h.thread ∧ h.prepare.2.entered = h.entered ∧
      h.prepare.2.exited = h.exited ∧ (h.prepare.1 = .ok none → h.entered = true) ∧
      (h.prepare.2.terminalizing = true → h.terminalizing = true ∨ h.prepare.1 = .ok none) := by
  unfold Handle.prepare
  split
  · exact ⟨rfl, rfl, rfl, (fun h => by cases h), .inl⟩
  · split
    · exact ⟨rfl, rfl, rfl, (fun h => by cases h), .inl⟩
    · split
      · exact ⟨rfl, rfl, rfl, (fun h => by cases h), .inl⟩
      · split
        · exact ⟨rfl, rfl, rfl, (fun h => by cases h), .inl⟩
        · rename_i hactive
          refine ⟨rfl, rfl, rfl, fun _ => ?_, fun _ => .inr rfl⟩
          simp only [Bool.or_eq_true, Bool.not_eq_true', not_or, Bool.not_eq_false] at hactive
          exact hactive.1.1

/-! ## The invariant -/

structure Sound (s : Crew) : Prop where
  others : ∀ g, g ≠ s.current → ¬ Running (s.thread g)
  unentered : s.handle.entered = false → s.handle.thread = .unstarted
  preparing : s.handle.terminalizing = true → s.handle.entered = true
  left : s.exitReturned = true → s.handle.exited = true ∧ s.handle.thread = .ended

def Guarantee : Party → Crew → Crew → Prop
  | .main, s, s' => ∀ g, Running (s.thread g) → s'.thread g = s.thread g
  | .renewer g, s, s' => Running (s.thread g) ∧ (∀ k, k ≠ g → s'.thread k = s.thread k) ∧
      s'.current = s.current ∧ s'.exitReturned = s.exitReturned ∧
      s'.handle.entered = s.handle.entered ∧ s'.handle.exited = s.handle.exited
  | .other, s, s' => s' = s

def rules : Rules Party Crew := ⟨Sound, Guarantee⟩

/-- A renewer may be created and started. -/
def Startable (s : Crew) : Prop :=
  ¬ Running s.handle.thread ∧ s.exitReturned = false ∧ s.handle.entered = true

def Left (s : Crew) : Prop := s.handle.exited = true ∧ s.handle.thread = .ended

/-- What a party knows when it performs an operation. -/
def Permitted (s : Crew) : Party → Op → Prop
  | .main, .startThread | .main, .newThread => Startable s
  | .main, .ended call out => leaves call out = true → Left s
  | .main, _ => True
  | .renewer _, .begin => True
  | .renewer g, _ => Running (s.thread g)
  | .other, _ => True

/-- The states of a sound crew with the same threads. -/
theorem Sound.same {s s' : Crew} (h : Sound s) (hcurrent : s'.current = s.current)
    (hearlier : s'.earlier = s.earlier) (hthread : s'.handle.thread = s.handle.thread)
    (hentered : s.handle.entered = true → s'.handle.entered = true)
    (hpreparing : s'.handle.terminalizing = true → s'.handle.entered = true)
    (hleft : s'.exitReturned = true → Left s') :
    Sound s' ∧ ∀ g, s'.thread g = s.thread g := by
  have hsame : ∀ g, s'.thread g = s.thread g := by
    intro g
    simp only [Crew.thread, hcurrent, hearlier, hthread]
  refine ⟨⟨?_, ?_, hpreparing, hleft⟩, hsame⟩
  · intro g hg
    rw [hsame]
    exact h.others g (hcurrent ▸ hg)
  · intro hno
    rw [hthread]
    refine h.unentered ?_
    cases hwas : s.handle.entered with
    | false => rfl
    | true => rw [hentered hwas] at hno; cases hno

/-- The only thread that can be running is the current one. -/
theorem Sound.here {s : Crew} (h : Sound s) {g : Nat} (hrunning : Running (s.thread g)) :
    g = s.current ∧ Running s.handle.thread := by
  by_cases hg : g = s.current
  · refine ⟨hg, ?_⟩
    simpa only [Crew.thread, if_pos hg] using hrunning
  · exact absurd hrunning (h.others g hg)

theorem Sound.entered {s : Crew} (h : Sound s) (hrunning : Running s.handle.thread) :
    s.handle.entered = true := by
  cases he : s.handle.entered with
  | true => rfl
  | false => exact absurd (h.unentered he) hrunning.1

/-! ### Steps of the caller's thread -/

/-- A section of the caller's thread, which does not touch the threads. -/
theorem section_kept {s s' : Crew} (h : Sound s) (hcurrent : s'.current = s.current)
    (hearlier : s'.earlier = s.earlier) (hthread : s'.handle.thread = s.handle.thread)
    (hentered : s.handle.entered = true → s'.handle.entered = true)
    (hpreparing : s'.handle.terminalizing = true → s'.handle.entered = true)
    (hleft : s'.exitReturned = true → Left s') : Sound s' ∧ Guarantee .main s s' := by
  obtain ⟨hsound, hsame⟩ := h.same hcurrent hearlier hthread hentered hpreparing hleft
  exact ⟨hsound, fun g _ => hsame g⟩

theorem startThread_kept {s s' : Crew} {r : Answer .startThread} (h : Sound s)
    (hs : Startable s) (heffect : Calls s .startThread r s') : Sound s' ∧ Guarantee .main s s' := by
  obtain ⟨hidle, hreturned, hentered⟩ := hs
  simp only [Calls] at heffect
  split at heffect
  · obtain rfl : s' = _ := heffect
    refine ⟨⟨?_, ?_, fun _ => hentered, ?_⟩, ?_⟩
    · intro g hg
      have hother := h.others g hg
      simp only [Crew.thread, if_neg hg] at hother ⊢
      exact hother
    · intro hno
      exact absurd (hno.symm.trans hentered) (by simp)
    · intro hyes
      exact absurd (hyes.symm.trans hreturned) (by simp)
    · intro g hrunning
      exact absurd (h.here hrunning).2 hidle
  · obtain ⟨_, rfl⟩ := heffect
    exact ⟨h, fun _ _ => rfl⟩

theorem newThread_kept {s s' : Crew} {r : Answer .newThread} (h : Sound s) (hs : Startable s)
    (heffect : Calls s .newThread r s') :
    (Sound s' ∧ Guarantee .main s s') ∧ Startable s' := by
  obtain ⟨hidle, hreturned, hentered⟩ := hs
  obtain ⟨_, rfl⟩ | ⟨_, rfl⟩ := heffect
  · refine ⟨⟨⟨?_, fun _ => rfl, fun _ => hentered, ?_⟩, ?_⟩, ?_, hreturned, hentered⟩
    · intro g hg
      have hg : g ≠ s.replace.current := hg
      simp only [Crew.thread, if_neg hg]
      by_cases hold : g = s.current
      · simp only [Crew.replace, hold, Function.update_self]
        exact hidle
      · have hother := h.others g hold
        simp only [Crew.thread, if_neg hold] at hother
        simp only [Crew.replace, Function.update_of_ne hold]
        exact hother
    · intro hyes
      exact absurd (hyes.symm.trans hreturned) (by simp)
    · intro g hrunning
      exact absurd (h.here hrunning).2 hidle
    · exact fun hrunning => hrunning.1 rfl
  · exact ⟨section_kept h rfl rfl rfl (fun h => h) h.preparing h.left, hidle, hreturned, hentered⟩

theorem calls_kept {s s' : Crew} {op : Op} {r : Answer op} (h : Sound s)
    (hp : Permitted s .main op) (heffect : Calls s op r s') : Sound s' ∧ Guarantee .main s s' := by
  cases op with
  | enter =>
    simp only [Calls] at heffect
    split at heffect
    · obtain ⟨_, rfl⟩ := heffect
      exact ⟨h, fun _ _ => rfl⟩
    · obtain ⟨_, rfl⟩ := heffect
      exact section_kept h rfl rfl rfl (fun _ => rfl) (fun _ => rfl) h.left
  | startThread => exact startThread_kept h hp heffect
  | prepare =>
    obtain ⟨hthread, hentered, hexited, hok, hpreparing⟩ := prepare_keeps s.handle
    have hactive : s.handle.prepare.2.terminalizing = true →
        s.handle.prepare.2.entered = true := by
      intro hyes
      rw [hentered]
      exact (hpreparing hyes).elim h.preparing hok
    have hleft : s.exitReturned = true → Left { s with handle := s.handle.prepare.2 } := by
      intro hyes
      exact ⟨hexited.trans (h.left hyes).1, hthread.trans (h.left hyes).2⟩
    obtain ⟨_, rfl⟩ | ⟨hprepared, _, rfl | rfl⟩ := heffect
    · exact section_kept h rfl rfl hthread (hentered.trans ·) hactive hleft
    · exact section_kept h rfl rfl hthread (hentered.trans ·) hactive hleft
    · exact section_kept h rfl rfl rfl (fun h => h) (fun _ => hok hprepared) h.left
  | newThread => exact (newThread_kept h hp heffect).1
  | abort error =>
    obtain ⟨hthread, hentered, hexited, hpreparing⟩ := abort_keeps s.handle error
    obtain ⟨_, rfl⟩ | ⟨_, rfl⟩ := heffect
    · exact section_kept h rfl rfl hthread (hentered.trans ·)
        (fun hyes => hentered.trans (h.preparing (hpreparing hyes)))
        (fun hyes => ⟨hexited.trans (h.left hyes).1, hthread.trans (h.left hyes).2⟩)
    · exact section_kept h rfl rfl hthread (hentered.trans ·)
        (fun hyes => hentered.trans (h.preparing (hpreparing hyes)))
        (fun hyes => ⟨hexited.trans (h.left hyes).1, hthread.trans (h.left hyes).2⟩)
  | commit =>
    obtain ⟨_, rfl⟩ := heffect
    exact section_kept h rfl rfl rfl (fun h => h) (fun hyes => by cases hyes) h.left
  | exit =>
    obtain rfl | ⟨_, rfl⟩ := heffect
    · exact section_kept h rfl rfl rfl (fun h => h) h.preparing fun hyes => ⟨rfl, (h.left hyes).2⟩
    · exact section_kept h rfl rfl rfl (fun h => h) h.preparing fun hyes => ⟨rfl, (h.left hyes).2⟩
  | ended call out =>
    obtain ⟨_, rfl⟩ := heffect
    refine section_kept h rfl rfl rfl (fun h => h) h.preparing fun hyes => ?_
    obtain hbefore | hnow := Bool.or_eq_true_iff.mp hyes
    · exact h.left hbefore
    · exact hp hnow
  | join =>
    obtain ⟨_, _, rfl⟩ := heffect
    exact ⟨h, fun _ _ => rfl⟩
  | publish lease p =>
    obtain rfl : s' = s := heffect
    exact ⟨h, fun _ _ => rfl⟩
  | readLoss | readLease | callPublish _ _ | readTerminalized =>
    obtain ⟨_, rfl⟩ := heffect
    exact ⟨h, fun _ _ => rfl⟩
  | _ => exact heffect.elim

/-! ### Steps of a renewer -/

/-- A renewer, which is the current one, changes its own thread and what it shares. -/
theorem renewer_kept {s : Crew} {g : Nat} (h : Sound s) (hrunning : Running (s.thread g))
    (lease : Lease) (stop : Bool) (loss : Option Raised) (thread : Renewer)
    {s' : Crew} (hs' : s' = { s with handle := { s.handle with
      lease := lease, stop := stop, loss := loss, thread := thread } }) :
    Sound s' ∧ Guarantee (.renewer g) s s' := by
  obtain ⟨rfl, hcurrent⟩ := h.here hrunning
  have hentered := h.entered hcurrent
  subst hs'
  have hothers : ∀ k, k ≠ s.current → Crew.thread { s with handle := { s.handle with
      lease := lease, stop := stop, loss := loss, thread := thread } } k = s.thread k := by
    intro k hk
    simp only [Crew.thread, if_neg hk]
  refine ⟨⟨?_, ?_, h.preparing, ?_⟩, hrunning, hothers, rfl, rfl, rfl, rfl⟩
  · intro k hk
    rw [hothers k hk]
    exact h.others k hk
  · intro hno
    exact absurd (hno.symm.trans hentered) (by simp)
  · intro hyes
    exact absurd (h.left hyes).2 hcurrent.2

theorem setThread_here {s : Crew} {g : Nat} (h : Sound s) (hrunning : Running (s.thread g))
    (thread : Renewer) : s.setThread g thread = { s with handle.thread := thread } := by
  obtain ⟨rfl, _⟩ := h.here hrunning
  simp only [Crew.setThread, if_pos]

theorem setThread_thread (s : Crew) (g : Nat) (thread : Renewer) :
    (s.setThread g thread).thread g = thread := by
  unfold Crew.setThread Crew.thread
  by_cases hg : g = s.current
  · simp only [if_pos hg]
  · simp only [if_neg hg, Function.update_self]

theorem renews_kept {s s' : Crew} {g : Nat} {op : Op} {r : Answer op} (h : Sound s)
    (hp : Permitted s (.renewer g) op) (heffect : Renews s g op r s') :
    Sound s' ∧ Guarantee (.renewer g) s s' := by
  cases op with
  | begin =>
    obtain ⟨hwaiting, _, rfl⟩ := heffect
    have hrunning : Running (s'.thread g) := by simp [Running, hwaiting]
    exact ⟨h, hrunning, fun _ _ => rfl, rfl, rfl, rfl, rfl⟩
  | wait =>
    obtain ⟨_, rfl⟩ := heffect
    exact renewer_kept h hp _ _ _ _ (setThread_here h hp _)
  | readLease =>
    obtain ⟨_, rfl⟩ := heffect
    exact ⟨h, hp, fun _ _ => rfl, rfl, rfl, rfl, rfl⟩
  | callRenew lease =>
    obtain ⟨_, rfl⟩ := heffect
    exact renewer_kept h hp _ _ _ _ (setThread_here h hp _)
  | renew lease =>
    obtain rfl : s' = _ := heffect
    exact renewer_kept h hp _ _ _ _ (setThread_here h hp _)
  | recordLoss error =>
    obtain ⟨_, rfl⟩ := heffect
    obtain ⟨rfl, _⟩ := h.here hp
    exact renewer_kept h hp s.handle.lease s.handle.stop (some error) .leaving
      (by simp only [Crew.setThread, if_pos])
  | stopRenewer =>
    obtain rfl : s' = _ := heffect
    exact renewer_kept h hp s.handle.lease true s.handle.loss s.handle.thread rfl
  | storeLease renewed =>
    obtain ⟨_, rfl⟩ := heffect
    obtain ⟨rfl, _⟩ := h.here hp
    exact renewer_kept h hp renewed s.handle.stop s.handle.loss .waiting
      (by simp only [Crew.setThread, if_pos])
  | finish =>
    obtain ⟨_, rfl⟩ := heffect
    exact renewer_kept h hp _ _ _ _ (setThread_here h hp _)
  | _ => exact heffect.elim

/-- One step of a party that knows what it must. -/
theorem step_kept {s s' : Crew} {t : Party} {op : Op} {r : Answer op} (h : Sound s)
    (hp : Permitted s t op) (hstep : crewSystem.step t s op r s') : Sound s' ∧ Guarantee t s s' := by
  obtain heffect | ⟨hcall, _, rfl⟩ := hstep
  · cases t with
    | main => exact calls_kept h hp heffect
    | renewer g => exact renews_kept h hp heffect
    | other => exact heffect.elim
  · refine ⟨h, ?_⟩
    cases t with
    | main => exact fun _ _ => rfl
    | renewer g =>
      have hrunning : Running (s'.thread g) := by
        cases op with
        | begin => cases hcall
        | _ => exact hp
      exact ⟨hrunning, fun _ _ => rfl, rfl, rfl, rfl, rfl⟩
    | other => rfl

/-! ## Whole runs -/

/-- Where no renewer is replaced before it has ended. -/
abbrev patientSystem : System Party Crew Op Answer := crewSystem.restrict Patient

abbrev Keeps {α : Type} (t : Party) (p : Script α) (Q : Except Raised α → Crew → Prop) (s : Crew) :
    Prop := wp patientSystem rules t p Q s

theorem wp_step {α : Type} {t : Party} {op : Op} {k : Answer op → Script α}
    {Q : Except Raised α → Crew → Prop} {B : Crew → Prop} {s : Crew} (hB : Stable rules t B)
    (hs : B s) (hop : ∀ s, Sound s → B s → Permitted s t op)
    (h : ∀ s r s', Sound s → B s → patientSystem.step t s op r s' → Sound s' →
      Keeps t (k r) Q s') : Keeps t (.exec op k) Q s := by
  refine wp_exec hB hs ?_
  intro s r s' hinv hb hstep
  have hkept := step_kept hinv (hop s hinv hb) hstep.1
  exact ⟨hkept.1, hkept.2, h s r s' hinv hb hstep hkept.1⟩

theorem stable_true (t : Party) : Stable rules t (fun _ => True) := fun _ _ _ _ => trivial

/-- A call that raises ends what it is part of. -/
theorem wp_attempt {α : Type} {t : Party} {op : Op} {f : Value op → Script α}
    {Q : Except Raised α → Crew → Prop} {B : Crew → Prop} {s : Crew} (hB : Stable rules t B)
    (hs : B s) (hop : ∀ s, Sound s → B s → Permitted s t op) (hfail : ∀ e s, Q (.error e) s)
    (h : ∀ s a s', Sound s → B s → patientSystem.step t s op (.ok a) s' → Sound s' →
      Keeps t (f a) Q s') : Keeps t (attempt op >>= f) Q s := by
  refine wp_step hB hs hop ?_
  intro s r s' hinv hb hstep hinv'
  cases r with
  | error e => exact wp_fail (stable_true t) trivial fun s _ _ => hfail e s
  | ok a => exact h s a s' hinv hb hstep hinv'

/-- A script of operations that anyone may perform at any time. -/
theorem wp_last {t : Party} {op : Op} {B : Crew → Prop} {s : Crew} (hB : Stable rules t B)
    (hs : B s) (hop : ∀ s, Sound s → B s → Permitted s t op) :
    Keeps t (attempt op) (fun _ _ => True) s := by
  refine wp_step hB hs hop ?_
  intro s r s' _ _ _ _
  cases r with
  | error e => exact wp_fail (stable_true t) trivial fun _ _ _ => trivial
  | ok a => exact wp_pure (stable_true t) trivial fun _ _ _ => trivial

/-! ### The caller's thread -/

theorem stable_startable : Stable rules .main Startable := by
  intro s s' hothers h
  obtain ⟨hinv, _, u, hu, hguar⟩ := hothers
  cases u with
  | main => exact absurd rfl hu
  | renewer g =>
    exact absurd (Sound.here hinv hguar.1).2 h.1
  | other =>
    obtain rfl : s' = s := hguar
    exact h

theorem stable_left : Stable rules .main Left := by
  intro s s' hothers h
  obtain ⟨hinv, _, u, hu, hguar⟩ := hothers
  cases u with
  | main => exact absurd rfl hu
  | renewer g => exact absurd h.2 (Sound.here hinv hguar.1).2.2
  | other =>
    obtain rfl : s' = s := hguar
    exact h

theorem stable_exited : Stable rules .main (fun s => s.handle.exited = true) := by
  intro s s' hothers h
  obtain ⟨_, _, u, hu, hguar⟩ := hothers
  cases u with
  | main => exact absurd rfl hu
  | renewer g => exact hguar.2.2.2.2.2.trans h
  | other =>
    obtain rfl : s' = s := hguar
    exact h

theorem stable_unstarted : Stable rules .main
    (fun s => s.handle.thread = .unstarted ∧ s.handle.entered = true) := by
  intro s s' hothers h
  obtain ⟨hinv, _, u, hu, hguar⟩ := hothers
  cases u with
  | main => exact absurd rfl hu
  | renewer g => exact absurd h.1 (Sound.here hinv hguar.1).2.1
  | other =>
    obtain rfl : s' = s := hguar
    exact h

theorem wp_check {B : Crew → Prop} {s : Crew} (hB : Stable rules .main B)
    (hs : B s) : Keeps .main check (fun _ s => B s) s := by
  refine wp_step hB hs (fun _ _ _ => trivial) ?_
  intro s r s' _ hb hstep _
  have hb' : B s' := by
    obtain ⟨_, rfl⟩ | ⟨_, _, rfl⟩ := hstep.1
    · exact hb
    · exact hb
  match r with
  | .error e => exact wp_fail hB hb' fun _ _ h => h
  | .ok none => exact wp_pure hB hb' fun _ _ h => h
  | .ok (some loss) => exact wp_fail hB hb' fun _ _ h => h

theorem wp_restartRenewer {s : Crew} (hs : Startable s) :
    Keeps .main restartRenewer (fun _ _ => True) s := by
  refine wp_step stable_startable hs (fun _ _ h => h) ?_
  intro s r s' hinv hs hstep _
  have hs' : Startable s' := by
    obtain heffect | ⟨_, _, rfl⟩ := hstep.1
    · exact (newThread_kept hinv hs heffect).2
    · exact hs
  match r with
  | .error e => exact wp_fail (stable_true _) trivial fun _ _ _ => trivial
  | .ok _ => exact wp_last stable_startable hs' fun _ _ h => h

theorem wp_abortTerminalization (error : Raised) {s : Crew} :
    Keeps .main (abortTerminalization error) (fun _ _ => True) s := by
  refine wp_attempt (stable_true _) trivial (fun _ _ _ => trivial) (fun _ _ => trivial) ?_
  intro s restart s' hinv _ hstep _
  cases restart with
  | false => exact wp_pure (stable_true _) trivial fun _ _ _ => trivial
  | true =>
    refine wp_restartRenewer ?_
    obtain ⟨hstep, hpatient⟩ := hstep
    obtain (⟨hrestart, rfl⟩ | ⟨⟨e, he⟩, _⟩) | ⟨_, ⟨e, he⟩, _⟩ := hstep
    · have hrestarts := abort_restarts.mp (Except.ok.inj hrestart).symm
      obtain ⟨hthread, hentered, _⟩ := abort_keeps s.handle error
      refine ⟨?_, ?_, hentered.trans (hinv.preparing hrestarts.1)⟩
      · rw [hthread]
        exact hpatient hrestarts
      · cases hreturned : s.exitReturned with
        | false => rfl
        | true => exact absurd ((hinv.left hreturned).1.symm.trans hrestarts.2.2.2.2) (by simp)
    · cases he
    · cases he

/-- A failed publication is aborted and reported. -/
theorem wp_aborting {α : Type} (error : Raised) {s : Crew} (hinv : Sound s) :
    Keeps .main (abortTerminalization error >>= fun _ => .fail error : Script α)
      (fun _ _ => True) s := by
  refine wp_bind hinv (wp_mono ?_ (wp_abortTerminalization error))
  intro out s _ _
  cases out with
  | ok a => exact wp_fail (stable_true _) trivial fun _ _ _ => trivial
  | error e => exact wp_fail (stable_true _) trivial fun _ _ _ => trivial

theorem wp_prepared (loss : Option Raised) {s : Crew} (hinv : Sound s) :
    Keeps .main (prepared loss) (fun _ _ => True) s := by
  cases loss with
  | some loss =>
    refine wp_bind hinv (wp_mono ?_ (wp_check (stable_true _) trivial))
    intro out s _ _
    cases out with
    | ok a => exact wp_fail (stable_true _) trivial fun _ _ _ => trivial
    | error e => exact wp_fail (stable_true _) trivial fun _ _ _ => trivial
  | none =>
    refine wp_attempt (stable_true _) trivial (fun _ _ _ => trivial) (fun _ _ => trivial) ?_
    intro s _ s' _ _ _ hinv
    refine wp_bind hinv (wp_mono ?_ (wp_check (stable_true _) trivial))
    intro out s _ _
    cases out with
    | ok a => exact wp_last (stable_true _) trivial fun _ _ _ => trivial
    | error e => exact wp_fail (stable_true _) trivial fun _ _ _ => trivial

theorem wp_prepareForTerminalization {s : Crew} :
    Keeps .main prepareForTerminalization (fun _ _ => True) s := by
  refine wp_attempt (stable_true _) trivial (fun _ _ _ => trivial) (fun _ _ => trivial) ?_
  intro s loss s' _ _ _ hinv
  refine wp_settle hinv (wp_mono ?_ (wp_prepared loss hinv))
  intro out s hinv _
  cases out with
  | ok lease => exact wp_pure (stable_true _) trivial fun _ _ _ => trivial
  | error e => exact wp_aborting e hinv

theorem wp_publish (p : Publication) {s : Crew} (hinv : Sound s) :
    Keeps .main (publish p) (fun _ _ => True) s := by
  refine wp_bind hinv (wp_mono ?_ wp_prepareForTerminalization)
  intro out s hinv _
  cases out with
  | error e => exact wp_fail (stable_true _) trivial fun _ _ _ => trivial
  | ok lease =>
    refine wp_settle hinv (wp_mono ?_ (wp_last (stable_true _) trivial fun _ _ _ => trivial))
    intro out s hinv _
    cases out with
    | error e => exact wp_aborting e hinv
    | ok terminal =>
      refine wp_attempt (stable_true _) trivial (fun _ _ _ => trivial) (fun _ _ => trivial) ?_
      intro s _ s' _ _ _ _
      exact wp_pure (stable_true _) trivial fun _ _ _ => trivial

theorem wp_enter {s : Crew} : Keeps .main enter (fun _ _ => True) s := by
  refine wp_attempt (stable_true _) trivial (fun _ _ _ => trivial) (fun _ _ => trivial) ?_
  intro s _ s' hinv _ hstep hinv'
  have hunstarted : s'.handle.thread = .unstarted ∧ s'.handle.entered = true := by
    obtain heffect | ⟨_, ⟨e, he⟩, _⟩ := hstep.1
    · simp only [Effect, Calls] at heffect
      split at heffect
      · cases heffect.1
      · rename_i hentered
        obtain ⟨_, rfl⟩ := heffect
        exact ⟨hinv.unentered (Bool.not_eq_true _ ▸ hentered), rfl⟩
    · cases he
  refine wp_last stable_unstarted hunstarted ?_
  intro s hinv h
  refine ⟨fun hrunning => hrunning.1 h.1, ?_, h.2⟩
  cases hreturned : s.exitReturned with
  | false => rfl
  | true => exact absurd (h.1.symm.trans (hinv.left hreturned).2) (by simp)

/-- `__exit__` returns only with the renewer joined. -/
theorem wp_exit (clean : Bool) {s : Crew} :
    Keeps .main (exit clean) (fun out s => ∀ a, out = .ok a → Left s) s := by
  have hraises : ∀ e (s : Crew), ∀ a, (.error e : Except Raised Unit) = .ok a → Left s := by
    intro e s a h
    cases h
  refine wp_attempt (stable_true _) trivial (fun _ _ _ => trivial) hraises ?_
  intro s _ s' _ _ hstep _
  have hexited : s'.handle.exited = true := by
    obtain (rfl | ⟨⟨e, he⟩, _⟩) | ⟨_, ⟨e, he⟩, _⟩ := hstep.1
    · rfl
    · cases he
    · cases he
  refine wp_attempt stable_exited hexited (fun _ _ _ => trivial) hraises ?_
  intro s _ s' _ hexited hstep _
  have hleft : Left s' := by
    obtain ⟨hthread, _, rfl⟩ | ⟨_, ⟨e, he⟩, _⟩ := hstep.1
    · exact ⟨hexited, hthread⟩
    · cases he
  refine wp_attempt stable_left hleft (fun _ _ _ => trivial) hraises ?_
  intro s terminalized s' _ hleft hstep hinv
  have hleft : Left s' := by
    obtain ⟨_, rfl⟩ | ⟨_, ⟨e, he⟩, _⟩ := hstep.1
    · exact hleft
    · cases he
  cases clean with
  | false => exact wp_pure stable_left hleft fun _ _ h _ _ => h
  | true =>
    refine wp_bind hinv (wp_mono ?_ (wp_check stable_left hleft))
    intro out s _ hleft
    cases out with
    | error e => exact wp_fail (stable_true _) trivial fun s _ _ => hraises e s
    | ok _ =>
      cases terminalized with
      | true => exact wp_pure stable_left hleft fun _ _ h _ _ => h
      | false => exact wp_fail (stable_true _) trivial fun s _ _ => hraises _ s

theorem wp_script (call : Call) {s : Crew} (hinv : Sound s) :
    Keeps .main (script call) (fun out s => leaves call out = true → Left s) s := by
  have hother : ∀ {α : Type} (p : Script α) (a : α → Option Terminal),
      (∀ out, leaves call out = false) → Keeps .main p (fun _ _ => True) s →
      Keeps .main (p >>= fun x => .pure (a x)) (fun out s => leaves call out = true → Left s) s := by
    intro α p a hleaves hp
    refine wp_bind hinv (wp_mono ?_ hp)
    intro out s _ _
    cases out with
    | ok x => exact wp_pure (stable_true _) trivial fun _ _ _ h => by rw [hleaves] at h; cases h
    | error e => exact wp_fail (stable_true _) trivial fun _ _ _ h => by rw [hleaves] at h; cases h
  cases call with
  | enter => exact hother _ _ (fun _ => rfl) wp_enter
  | publish p => exact hother _ _ (fun _ => rfl) (wp_publish p hinv)
  | check => exact hother _ _ (fun _ => rfl) (wp_check (stable_true _) trivial)
  | exit clean =>
    refine wp_bind hinv (wp_mono ?_ (wp_exit clean))
    intro out s _ hout
    cases out with
    | ok a => exact wp_pure stable_left (hout a rfl) fun _ _ h _ => h
    | error e => exact wp_fail (stable_true _) trivial fun _ _ _ h => by cases h

theorem wp_client (calls : List Call) {s : Crew} (hinv : Sound s) :
    Keeps .main (client calls) (fun _ _ => True) s := by
  induction calls generalizing s with
  | nil => exact wp_pure (stable_true _) trivial fun _ _ _ => trivial
  | cons call rest ih =>
    refine wp_settle hinv (wp_mono ?_ (wp_script call hinv))
    intro out s _ hleft
    have hstable : Stable rules .main fun s => leaves call out = true → Left s :=
      fun s s' ho h hleaves => stable_left s s' ho (h hleaves)
    refine wp_attempt hstable hleft (fun _ _ h => h) (fun _ _ => trivial) ?_
    intro s _ s' _ _ _ hinv
    exact ih hinv

/-! ### Renewers -/

def Alive (g : Nat) (s : Crew) : Prop := Running (s.thread g)

theorem stable_alive (g : Nat) : Stable rules (.renewer g) (Alive g) := by
  intro s s' hothers h
  obtain ⟨hinv, _, u, hu, hguar⟩ := hothers
  unfold Alive at h ⊢
  cases u with
  | main =>
    rw [hguar g h]
    exact h
  | renewer k =>
    have hk : g ≠ k := fun hgk => hu (congrArg Party.renewer hgk.symm)
    rw [hguar.2.1 g hk]
    exact h
  | other =>
    obtain rfl : s' = s := hguar
    exact h

/-- Whatever a renewer does before it finishes, it is running afterwards. -/
theorem renews_alive {s s' : Crew} {g : Nat} {op : Op} {r : Answer op} (h : Alive g s)
    (hop : op ≠ .finish) (hstep : crewSystem.step (.renewer g) s op r s') : Alive g s' := by
  unfold Alive at h ⊢
  obtain heffect | ⟨_, _, rfl⟩ := hstep
  · cases op with
    | wait =>
      obtain ⟨_, rfl⟩ := heffect
      rw [setThread_thread]
      cases s.handle.stop
      · exact ⟨by simp, by simp⟩
      · exact ⟨by simp, by simp⟩
    | callRenew _ | recordLoss _ | storeLease _ =>
      obtain ⟨_, rfl⟩ := heffect
      rw [setThread_thread]
      exact ⟨by simp, by simp⟩
    | renew _ =>
      obtain rfl : s' = _ := heffect
      rw [setThread_thread]
      cases r with
      | ok renewed => exact ⟨by simp [Renewer.answered], by simp [Renewer.answered]⟩
      | error e => exact ⟨by simp [Renewer.answered], by simp [Renewer.answered]⟩
    | stopRenewer =>
      obtain rfl : s' = _ := heffect
      exact h
    | begin =>
      obtain ⟨_, _, rfl⟩ := heffect
      exact h
    | readLease =>
      obtain ⟨_, rfl⟩ := heffect
      exact h
    | finish => exact absurd rfl hop
    | _ => exact heffect.elim
  · exact h

theorem permitted_renewer {s : Crew} {g : Nat} (op : Op) (h : Alive g s) :
    Permitted s (.renewer g) op := by
  cases op with
  | begin => trivial
  | _ => exact h

/-- One operation of a running renewer, which goes on running. -/
theorem wp_renews {α : Type} {g : Nat} {op : Op} {f : Value op → Script α} {s : Crew}
    (hs : Alive g s) (hop : op ≠ .finish)
    (h : ∀ a s, Sound s → Alive g s → Keeps (.renewer g) (f a) (fun _ => Alive g) s) :
    Keeps (.renewer g) (attempt op >>= f) (fun _ => Alive g) s := by
  refine wp_step (stable_alive g) hs (fun _ _ h => permitted_renewer op h) ?_
  intro s r s' _ hs hstep hinv'
  have hs' := renews_alive hs hop hstep.1
  cases r with
  | error e => exact wp_fail (stable_alive g) hs' fun _ _ h => h
  | ok a => exact h a s' hinv' hs'

theorem wp_renews_last {g : Nat} {op : Op} {s : Crew} (hs : Alive g s) (hop : op ≠ .finish) :
    Keeps (.renewer g) (attempt op) (fun _ => Alive g) s := by
  refine wp_step (stable_alive g) hs (fun _ _ h => permitted_renewer op h) ?_
  intro s r s' _ hs hstep _
  have hs' := renews_alive hs hop hstep.1
  cases r with
  | error e => exact wp_fail (stable_alive g) hs' fun _ _ h => h
  | ok a => exact wp_pure (stable_alive g) hs' fun _ _ h => h

theorem wp_run (wakeups g : Nat) {s : Crew} (hs : Alive g s) :
    Keeps (.renewer g) (run wakeups) (fun _ => Alive g) s := by
  induction wakeups generalizing s with
  | zero => exact wp_renews_last hs (by simp)
  | succ wakeups ih =>
    refine wp_renews hs (by simp) ?_
    intro stop s _ hs
    cases stop with
    | true => exact wp_pure (stable_alive g) hs fun _ _ h => h
    | false =>
      refine wp_renews hs (by simp) ?_
      intro current s _ hs
      refine wp_renews hs (by simp) ?_
      intro _ s hinv hs
      refine wp_settle hinv (wp_mono ?_ (wp_renews_last hs (by simp)))
      intro out s _ hs
      cases out with
      | ok renewed => exact wp_renews hs (by simp) fun _ s _ hs => ih hs
      | error e =>
        refine wp_renews hs (by simp) ?_
        intro _ s _ hs
        exact wp_renews_last hs (by simp)

theorem wp_renewer (wakeups g : Nat) {s : Crew} :
    Keeps (.renewer g) (attempt .begin >>= fun _ => (run wakeups).settle fun _ => attempt .finish)
      (fun _ _ => True) s := by
  refine wp_step (stable_true _) trivial (fun _ _ _ => trivial) ?_
  intro s r s' _ _ hstep hinv
  obtain ⟨hwaiting, rfl, rfl⟩ | ⟨hcall, _⟩ := hstep.1
  · have halive : Alive g s' := by
      unfold Alive
      rw [hwaiting]
      exact ⟨by simp, by simp⟩
    show Keeps _ ((run wakeups).settle _) _ _
    refine wp_settle hinv (wp_mono ?_ (wp_run wakeups g halive))
    intro out s _ hs
    exact wp_last (stable_alive g) hs fun _ _ h => h
  · cases hcall

/-! ## At most one renewer -/

theorem sound_init (lease : Lease) : Sound (.init lease) where
  others := by
    intro g hg
    simp only [Crew.thread, if_neg hg]
    exact fun hrunning => hrunning.1 rfl
  unentered := fun _ => rfl
  preparing := fun h => by cases h
  left := fun h => by cases h

theorem wp_threads (lease : Lease) (setting : Setting) (t : Party) :
    Keeps t (threads setting t) (fun _ _ => True) (.init lease) := by
  cases t with
  | main => exact wp_client _ (sound_init lease)
  | renewer g => exact wp_renewer _ g
  | other => exact wp_pure (stable_true _) trivial fun _ _ _ => trivial

/-- **As long as no renewer is replaced before it has ended, at most one is running, and none
after the context was left.** -/
theorem at_most_one_renewer (lease : Lease) (setting : Setting) (c : Run)
    (hc : Runs patientSystem lease setting c) :
    (∀ g k, Running (c.state.thread g) → Running (c.state.thread k) → g = k) ∧
      (c.state.exitReturned = true → ∀ g, ¬ Running (c.state.thread g)) := by
  obtain ⟨hsound, _⟩ := reachable_wp (R := rules) (sound_init lease)
    (fun _ _ _ _ (h : False) => h.elim)
    (wp_threads lease setting) hc
  have hsound : Sound c.state := hsound
  refine ⟨?_, ?_⟩
  · intro g k hg hk
    exact (hsound.here hg).1.trans (hsound.here hk).1.symm
  · intro hreturned g hg
    exact (hsound.here hg).2.2 (hsound.left hreturned).2

/-! ### Two runs -/

def retryingSetting : Setting where
  calls := [.enter, .publish (.succeed sampleReference), .exit false]
  wakeups _ := 1
  elsewhere := 0

theorem Runs.step {S : System Party Crew Op Answer} {setting : Setting} {lease : Lease} {c : Run}
    (hc : Runs S lease setting c) (t : Party) (op : Op) (r : Answer op)
    {k : Answer op → Script Unit} {s' : Crew} (hp : c.prog t = some (.exec op k))
    (hs : S.step t c.state op r s') :
    Runs S lease setting ⟨s', Function.update c.prog t (some (k r))⟩ :=
  Reachable.exec hc hp hs

/-- A publication that fails once its renewer was joined starts the next renewer. -/
theorem at_most_one_renewer_retrying : ∃ c,
    Runs patientSystem sampleLease retryingSetting c ∧ c.state.current = 1 ∧
      c.state.thread 1 = .renewing ∧ ¬ Running (c.state.thread 0) := by
  have h : Runs patientSystem sampleLease retryingSetting (start _ _) := .refl
  have h := Runs.step h .main .enter (.ok ()) rfl ⟨.inl ⟨rfl, rfl⟩, trivial⟩
  have h := Runs.step h .main .startThread (.ok ()) rfl ⟨.inl rfl, trivial⟩
  have h := Runs.step h .main (.ended .enter (.ok none)) (.ok ()) rfl ⟨.inl ⟨rfl, rfl⟩, trivial⟩
  have h := Runs.step h (.renewer 0) .begin (.ok ()) rfl ⟨.inl ⟨rfl, rfl, rfl⟩, trivial⟩
  have h := Runs.step h .main .prepare (.ok none) rfl ⟨.inl (.inl ⟨rfl, rfl⟩), trivial⟩
  have h := Runs.step h (.renewer 0) .wait (.ok true) rfl ⟨.inl ⟨rfl, rfl⟩, trivial⟩
  have h := Runs.step h (.renewer 0) .finish (.ok ()) rfl ⟨.inl ⟨rfl, rfl⟩, trivial⟩
  have h := Runs.step h .main .join (.ok ()) rfl ⟨.inl ⟨rfl, rfl, rfl⟩, trivial⟩
  have h := Runs.step h .main .readLoss (.ok none) rfl ⟨.inl ⟨rfl, rfl⟩, trivial⟩
  have h := Runs.step h .main .readLease (.ok sampleLease) rfl ⟨.inl ⟨rfl, rfl⟩, trivial⟩
  have h := Runs.step h .main (.publish sampleLease (.succeed sampleReference))
    (.error (.authority "unavailable")) rfl ⟨.inl rfl, trivial⟩
  have h := Runs.step h .main (.abort (.authority "unavailable")) (.ok true) rfl
    ⟨.inl (.inl ⟨rfl, rfl⟩), fun _ hrunning => hrunning.2 rfl⟩
  have h := Runs.step h .main .newThread (.ok ()) rfl ⟨.inl (.inl ⟨rfl, rfl⟩), trivial⟩
  have h := Runs.step h .main .startThread (.ok ()) rfl ⟨.inl rfl, trivial⟩
  have h := Runs.step h (.renewer 1) .begin (.ok ()) rfl ⟨.inl ⟨rfl, rfl, rfl⟩, trivial⟩
  have h := Runs.step h (.renewer 1) .wait (.ok false) rfl ⟨.inl ⟨rfl, rfl⟩, trivial⟩
  have h := Runs.step h (.renewer 1) .readLease (.ok sampleLease) rfl ⟨.inl ⟨rfl, rfl⟩, trivial⟩
  have h := Runs.step h (.renewer 1) (.callRenew sampleLease) (.ok ()) rfl
    ⟨.inl ⟨rfl, rfl⟩, trivial⟩
  have hone := (at_most_one_renewer _ _ _ h).1
  refine ⟨_, h, rfl, rfl, fun hrunning => ?_⟩
  exact absurd (hone 0 1 hrunning ⟨by decide, by decide⟩) (by decide)

/-- A join that is interrupted while the renewer is inside `authority.renew` leaves it there
beside the next one. -/
theorem at_most_one_renewer_fails : ¬ ∀ c, Runs crewSystem sampleLease retryingSetting c →
    ∀ g k, Running (c.state.thread g) → Running (c.state.thread k) → g = k := by
  have h : Runs crewSystem sampleLease retryingSetting (start _ _) := .refl
  have h := Runs.step h .main .enter (.ok ()) rfl (.inl ⟨rfl, rfl⟩)
  have h := Runs.step h .main .startThread (.ok ()) rfl (.inl rfl)
  have h := Runs.step h .main (.ended .enter (.ok none)) (.ok ()) rfl (.inl ⟨rfl, rfl⟩)
  have h := Runs.step h (.renewer 0) .begin (.ok ()) rfl (.inl ⟨rfl, rfl, rfl⟩)
  have h := Runs.step h (.renewer 0) .wait (.ok false) rfl (.inl ⟨rfl, rfl⟩)
  have h := Runs.step h (.renewer 0) .readLease (.ok sampleLease) rfl (.inl ⟨rfl, rfl⟩)
  have h := Runs.step h (.renewer 0) (.callRenew sampleLease) (.ok ()) rfl (.inl ⟨rfl, rfl⟩)
  have h := Runs.step h .main .prepare (.ok none) rfl (.inl (.inl ⟨rfl, rfl⟩))
  have h := Runs.step h .main .join (.error (.other "KeyboardInterrupt" "")) rfl
    (.inr ⟨rfl, ⟨_, rfl⟩, rfl⟩)
  have h := Runs.step h .main (.abort (.other "KeyboardInterrupt" "")) (.ok true) rfl
    (.inl (.inl ⟨rfl, rfl⟩))
  have h := Runs.step h .main .newThread (.ok ()) rfl (.inl (.inl ⟨rfl, rfl⟩))
  have h := Runs.step h .main .startThread (.ok ()) rfl (.inl rfl)
  have h := Runs.step h (.renewer 1) .begin (.ok ()) rfl (.inl ⟨rfl, rfl, rfl⟩)
  have h := Runs.step h (.renewer 1) .wait (.ok false) rfl (.inl ⟨rfl, rfl⟩)
  have h := Runs.step h (.renewer 1) .readLease (.ok sampleLease) rfl (.inl ⟨rfl, rfl⟩)
  have h := Runs.step h (.renewer 1) (.callRenew sampleLease) (.ok ()) rfl (.inl ⟨rfl, rfl⟩)
  intro hone
  exact absurd (hone _ h 0 1 ⟨by decide, by decide⟩ ⟨by decide, by decide⟩) (by decide)

end DrStore.Leases.Interruption
