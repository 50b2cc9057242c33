import DrStore.Store.Settlement

/-! # Opening a backend (storage_backends/sqlite.py, `SqliteBackend.open`)

The worker opens the connection while the coroutine waits for it; a coroutine that was cancelled
meanwhile has the worker close what it opened. The coroutine is cancelled as often as someone likes,
at either await, and the jobs of the worker end as they like. Nobody else has their futures, so
these are not cancelled themselves. -/
namespace DrStore.Store.Opening
open DrStore.Store.Settlement

variable {α E X : Type}

/-! ## The coroutine and its worker -/

/-- At the await of the connection; at the await of its close, with the cancellation that is being
handled; or out. -/
inductive Stage (α E X : Type) where
  | opening (m : Machine α E X)
  | closing (m : Machine Unit E X) (cancellation : X) (cause : Option E)
  | ended (out : Ended α E X)

structure Coroutine (α E X : Type) where
  stage : Stage α E X
  /-- The connection, from when it is opened until it is closed. -/
  connection : Option α
  /-- The worker has not been shut down. -/
  worker : Bool
  /-- How the jobs have ended. -/
  opened : Option (Except E α)
  closed : Option (Except E Unit)
  /-- The last cancellation at each await. -/
  cancelled : Option X
  cancelledAgain : Option X

def Coroutine.start : Coroutine α E X := ⟨.opening .start, none, true, none, none, none, none⟩

inductive Event (α E X : Type) where
  | cancel (x : X)
  | opened (out : Except E α)
  | closed (out : Except E Unit)
  | resume

/-- What a job does to its future. -/
def settled {β : Type} : Except E β → Outcome β E X
  | .ok b => .value b
  | .error e => .exception e

/-- A close that raises has not closed. -/
def leftOpen (connection : Option α) : Except E Unit → Option α
  | .ok _ => none
  | .error _ => connection

/-- After an iteration of the first wait. -/
def Coroutine.afterOpening (o : Coroutine α E X) (m : Machine α E X) : Coroutine α E X :=
  match m.waiter with
  | .waiting _ => { o with stage := .opening m }
  | .ended (.returned a) => { o with stage := .ended (.returned a) }
  | .ended (.raised (.exception e) cause) =>
    { o with stage := .ended (.raised (.exception e) cause), worker := false }
  | .ended (.raised (.cancellation x) cause) =>
    match m.future with
    -- `ready` has the connection: the second wait for it ends at once
    | some (.value _) => { o with stage := .closing .start x cause }
    | _ => { o with stage := .ended (.raised (.cancellation x) cause), worker := false }

/-- After an iteration of the wait for the close: cancellations are suppressed, a failed close is
not, and the worker is not shut down then. -/
def Coroutine.afterClosing (o : Coroutine α E X) (x : X) (cause : Option E) (m : Machine Unit E X) :
    Coroutine α E X :=
  match m.waiter with
  | .waiting _ => { o with stage := .closing m x cause }
  | .ended (.raised (.exception e) cause') =>
    { o with stage := .ended (.raised (.exception e) cause') }
  | .ended _ => { o with stage := .ended (.raised (.cancellation x) cause), worker := false }

def Coroutine.step (o : Coroutine α E X) : Event α E X → Option (Coroutine α E X)
  | .cancel x =>
    match o.stage with
    | .opening m => (m.step (.cancelWaiter x)).map { o with cancelled := some x }.afterOpening
    | .closing m y cause => (m.step (.cancelWaiter x)).map
        ({ o with cancelledAgain := some x }.afterClosing y cause)
    | .ended _ => none
  | .opened out =>
    match o.stage with
    | .opening m => (m.step (.settle (settled out))).map fun m' =>
        { o with stage := .opening m', opened := some out, connection := out.toOption }
    | _ => none
  | .closed out =>
    match o.stage with
    | .closing m y cause => (m.step (.settle (settled out))).map fun m' =>
        { o with
          stage := .closing m' y cause
          closed := some out
          connection := leftOpen o.connection out }
    | _ => none
  | .resume =>
    match o.stage with
    | .opening m => (m.step .resume).map o.afterOpening
    | .closing m y cause => (m.step .resume).map (o.afterClosing y cause)
    | .ended _ => none

def Coroutine.run (o : Coroutine α E X) : List (Event α E X) → Option (Coroutine α E X)
  | [] => some o
  | e :: events => (o.step e).bind fun o' => o'.run events

/-! ## All runs -/

/-- The close was asked for and raised. -/
def CloseRaised (o : Coroutine α E X) : Prop := ∃ e, o.closed = some (.error e)

/-- What is left when `open` has raised: the worker goes on exactly when a failed close was raised
itself. -/
structure Left (o : Coroutine α E X) (thrown : Thrown E X) (cause : Option E) : Prop where
  connection : o.connection.isSome = true ↔ CloseRaised o
  worker : o.worker = true ↔ CloseRaised o ∧ o.cancelledAgain = none
  raised : (∃ e, o.opened = some (.error e) ∧
      .raised thrown cause = (required o.cancelled (.exception e) : Ended α E X)) ∨
    ∃ a x, o.opened = some (.ok a) ∧ o.cancelled = some x ∧ cause = none ∧
      ((∃ e, o.closed = some (.error e) ∧ o.cancelledAgain = none ∧ thrown = .exception e) ∨
        ((CloseRaised o → o.cancelledAgain ≠ none) ∧ thrown = .cancellation x))

/-- Each wait has seen its last cancellation and its future. -/
def Sound (o : Coroutine α E X) : Prop :=
  match o.stage with
  | .opening m => m = ⟨o.opened.map settled, .waiting o.cancelled⟩ ∧
      o.connection = o.opened.bind Except.toOption ∧ o.worker = true ∧ o.closed = none ∧
      o.cancelledAgain = none
  | .closing m x cause => ∃ a, o.opened = some (.ok a) ∧ o.cancelled = some x ∧ cause = none ∧
      m = ⟨o.closed.map settled, .waiting o.cancelledAgain⟩ ∧
      o.connection = o.closed.elim (some a) (leftOpen (some a)) ∧ o.worker = true
  | .ended (.returned a) => o.opened = some (.ok a) ∧ o.cancelled = none ∧ o.connection = some a ∧
      o.worker = true
  | .ended (.raised thrown cause) => Left o thrown cause

theorem sound_start : Sound (Coroutine.start : Coroutine α E X) := ⟨rfl, rfl, rfl, rfl, rfl⟩

/-- A wait whose future is settled ends with the next iteration. -/
theorem resume_settled {β : Type} (out : Except E β) (last : Option X) :
    Machine.step ⟨some (settled out), .waiting last⟩ (.resume : Settlement.Event β E X) =
      some ⟨some (settled out), .ended (required last (settled out))⟩ := by
  cases out with
  | ok b => cases last <;> rfl
  | error e => cases last <;> rfl

theorem Sound.cancel {o o' : Coroutine α E X} {x : X} (h : Sound o)
    (hstep : o.step (.cancel x) = some o') : Sound o' := by
  cases hstage : o.stage with
  | opening m =>
    rw [Sound, hstage] at h
    rw [Coroutine.step, hstage] at hstep
    obtain ⟨rfl, hrest⟩ := h
    cases hstep
    exact ⟨rfl, hrest⟩
  | closing m y cause =>
    rw [Sound, hstage] at h
    rw [Coroutine.step, hstage] at hstep
    obtain ⟨a, hopened, hcancelled, hcause, rfl, hrest⟩ := h
    cases hstep
    exact ⟨a, hopened, hcancelled, hcause, rfl, hrest⟩
  | ended out =>
    rw [Coroutine.step, hstage] at hstep
    cases hstep

theorem Sound.opened {o o' : Coroutine α E X} {out : Except E α} (h : Sound o)
    (hstep : o.step (.opened out) = some o') : Sound o' := by
  cases hstage : o.stage with
  | opening m =>
    rw [Sound, hstage] at h
    rw [Coroutine.step, hstage] at hstep
    obtain ⟨rfl, _, hrest⟩ := h
    cases hopened : o.opened with
    | some _ =>
      rw [hopened] at hstep
      cases hstep
    | none =>
      rw [hopened] at hstep
      cases hstep
      exact ⟨rfl, rfl, hrest⟩
  | closing m y cause =>
    rw [Coroutine.step, hstage] at hstep
    cases hstep
  | ended out =>
    rw [Coroutine.step, hstage] at hstep
    cases hstep

theorem Sound.closed {o o' : Coroutine α E X} {out : Except E Unit} (h : Sound o)
    (hstep : o.step (.closed out) = some o') : Sound o' := by
  cases hstage : o.stage with
  | opening m =>
    rw [Coroutine.step, hstage] at hstep
    cases hstep
  | closing m y cause =>
    rw [Sound, hstage] at h
    rw [Coroutine.step, hstage] at hstep
    obtain ⟨a, hopened, hcancelled, hcause, rfl, hconnection, hworker⟩ := h
    cases hclosed : o.closed with
    | some _ =>
      rw [hclosed] at hstep
      cases hstep
    | none =>
      rw [hclosed] at hstep hconnection
      cases hstep
      refine ⟨a, hopened, hcancelled, hcause, rfl, ?_, hworker⟩
      exact congrArg (leftOpen · out) hconnection
  | ended out =>
    rw [Coroutine.step, hstage] at hstep
    cases hstep

/-- Nothing is left when no close has failed and the worker was shut down. -/
theorem Left.of_quiet {o : Coroutine α E X} {thrown : Thrown E X} {cause : Option E}
    (hquiet : ∀ e, o.closed ≠ some (.error e)) (hconnection : o.connection = none)
    (hworker : o.worker = false)
    (hraised : (∃ e, o.opened = some (.error e) ∧
        .raised thrown cause = (required o.cancelled (.exception e) : Ended α E X)) ∨
      ∃ a x, o.opened = some (.ok a) ∧ o.cancelled = some x ∧ cause = none ∧
        thrown = .cancellation x) : Left o thrown cause := by
  have hnot : ¬ CloseRaised o := by
    rintro ⟨e, hclosed⟩
    exact hquiet e hclosed
  refine ⟨?_, ?_, ?_⟩
  · rw [hconnection]
    exact iff_of_false Bool.false_ne_true hnot
  · rw [hworker]
    exact iff_of_false Bool.false_ne_true fun h => hnot h.1
  · rcases hraised with hfailed | ⟨a, x, hopened, hcancelled, hcause, hthrown⟩
    · exact .inl hfailed
    · exact .inr ⟨a, x, hopened, hcancelled, hcause, .inr ⟨fun h => absurd h hnot, hthrown⟩⟩

/-- The first wait is over: `open` returns, or raises, or closes what was opened. -/
theorem sound_afterOpening {o : Coroutine α E X} {out : Except E α} (hopened : o.opened = some out)
    (hconnection : o.connection = out.toOption) (hworker : o.worker = true)
    (hclosed : o.closed = none) (hagain : o.cancelledAgain = none) :
    Sound (o.afterOpening
      ⟨some (settled out), .ended (required o.cancelled (settled out))⟩) := by
  obtain ⟨stage, connection, worker, opened, closed, cancelled, cancelledAgain⟩ := o
  cases hopened
  cases hconnection
  cases hworker
  cases hclosed
  cases hagain
  cases out with
  | ok a =>
    cases cancelled with
    | none => exact ⟨rfl, rfl, rfl, rfl⟩
    | some x => exact ⟨a, rfl, rfl, rfl, rfl, rfl, rfl⟩
  | error e =>
    cases cancelled with
    | none => exact .of_quiet (fun _ h => by cases h) rfl rfl (.inl ⟨e, rfl, rfl⟩)
    | some x => exact .of_quiet (fun _ h => by cases h) rfl rfl (.inl ⟨e, rfl, rfl⟩)

/-- The second is over. -/
theorem sound_afterClosing {o : Coroutine α E X} {x : X} {a : α} {out : Except E Unit}
    (hopened : o.opened = some (.ok a)) (hcancelled : o.cancelled = some x)
    (hclosed : o.closed = some out) (hconnection : o.connection = leftOpen (some a) out)
    (hworker : o.worker = true) :
    Sound (o.afterClosing x none
      ⟨some (settled out), .ended (required o.cancelledAgain (settled out))⟩) := by
  obtain ⟨stage, connection, worker, opened, closed, cancelled, cancelledAgain⟩ := o
  cases hopened
  cases hcancelled
  cases hclosed
  cases hconnection
  cases hworker
  cases out with
  | ok _ =>
    cases cancelledAgain with
    | none => exact .of_quiet (fun _ h => by cases h) rfl rfl (.inr ⟨a, x, rfl, rfl, rfl, rfl⟩)
    | some y => exact .of_quiet (fun _ h => by cases h) rfl rfl (.inr ⟨a, x, rfl, rfl, rfl, rfl⟩)
  | error e =>
    cases cancelledAgain with
    | none =>
      refine ⟨?_, ?_, .inr ⟨a, x, rfl, rfl, rfl, .inl ⟨e, rfl, rfl, rfl⟩⟩⟩
      · exact iff_of_true rfl ⟨e, rfl⟩
      · exact iff_of_true rfl ⟨⟨e, rfl⟩, rfl⟩
    | some y =>
      refine ⟨?_, ?_, .inr ⟨a, x, rfl, rfl, rfl, .inr ⟨(fun _ h => by cases h), rfl⟩⟩⟩
      · exact iff_of_true rfl ⟨e, rfl⟩
      · exact iff_of_false Bool.false_ne_true fun h => by cases h.2

theorem Sound.resume {o o' : Coroutine α E X} (h : Sound o) (hstep : o.step .resume = some o') :
    Sound o' := by
  cases hstage : o.stage with
  | opening m =>
    rw [Sound, hstage] at h
    rw [Coroutine.step, hstage] at hstep
    obtain ⟨rfl, hconnection, hworker, hclosed, hagain⟩ := h
    cases hopened : o.opened with
    | none =>
      rw [hopened] at hstep
      cases hstep
    | some out =>
      simp only [hopened, Option.map_some, resume_settled, Option.some.injEq] at hstep
      rw [hopened] at hconnection
      rw [← hstep]
      exact sound_afterOpening hopened hconnection hworker hclosed hagain
  | closing m x cause =>
    rw [Sound, hstage] at h
    rw [Coroutine.step, hstage] at hstep
    obtain ⟨a, hopened, hcancelled, rfl, rfl, hconnection, hworker⟩ := h
    cases hclosed : o.closed with
    | none =>
      rw [hclosed] at hstep
      cases hstep
    | some out =>
      simp only [hclosed, Option.map_some, resume_settled, Option.some.injEq] at hstep
      rw [hclosed] at hconnection
      rw [← hstep]
      exact sound_afterClosing hopened hcancelled hclosed hconnection hworker
  | ended out =>
    rw [Coroutine.step, hstage] at hstep
    cases hstep

theorem Sound.run {o o' : Coroutine α E X} (events : List (Event α E X)) (h : Sound o)
    (hrun : o.run events = some o') : Sound o' := by
  induction events generalizing o with
  | nil =>
    cases hrun
    exact h
  | cons e events ih =>
    obtain ⟨o₁, hstep, hrest⟩ := Option.bind_eq_some_iff.mp hrun
    cases e with
    | cancel x => exact ih (h.cancel hstep) hrest
    | opened out => exact ih (h.opened hstep) hrest
    | closed out => exact ih (h.closed hstep) hrest
    | resume => exact ih (h.resume hstep) hrest

/-! ## The way out -/

/-- It gets out once its jobs end like this, if nobody cancels it. -/
def Finishes (out : Except E α) (out' : Except E Unit) (o : Coroutine α E X) : Prop :=
  ∃ events o', o.run events = some o' ∧
    (∀ e ∈ events, e = .opened out ∨ e = .closed out' ∨ e = .resume) ∧ ∃ r, o'.stage = .ended r

variable {out : Except E α} {out' : Except E Unit}

theorem Finishes.before {o o' : Coroutine α E X} {e : Event α E X} (hstep : o.step e = some o')
    (he : e = .opened out ∨ e = .closed out' ∨ e = .resume) (h : Finishes out out' o') :
    Finishes out out' o := by
  obtain ⟨events, o₂, hrun, hevents, hended⟩ := h
  refine ⟨e :: events, o₂, ?_, ?_, hended⟩
  · rw [Coroutine.run, hstep]
    exact hrun
  · intro e' he'
    rcases List.mem_cons.mp he' with rfl | he'
    · exact he
    · exact hevents e' he'

theorem finishes_closing {o : Coroutine α E X} (h : Sound o) {m : Machine Unit E X} {x : X}
    {cause : Option E} (hstage : o.stage = .closing m x cause) : Finishes out out' o := by
  rw [Sound, hstage] at h
  obtain ⟨a, _, _, rfl, rfl, _, _⟩ := h
  have hresume : ∀ {o : Coroutine α E X} {ended : Except E Unit}, o.stage =
      .closing ⟨some (settled ended), .waiting o.cancelledAgain⟩ x none → Finishes out out' o := by
    intro o ended hstage
    have hstep : o.step .resume = some (o.afterClosing x none
        ⟨some (settled ended), .ended (required o.cancelledAgain (settled ended))⟩) := by
      rw [Coroutine.step, hstage]
      simp only [resume_settled, Option.map_some]
    refine .before hstep (.inr (.inr rfl)) ⟨[], _, rfl, fun _ he => (List.not_mem_nil he).elim, ?_⟩
    cases ended <;> cases hagain : o.cancelledAgain <;> exact ⟨_, rfl⟩
  cases hclosed : o.closed with
  | some ended =>
    rw [hclosed] at hstage
    exact hresume hstage
  | none =>
    rw [hclosed] at hstage
    have hstep : o.step (.closed out') = some { o with
        stage := .closing ⟨some (settled out'), .waiting o.cancelledAgain⟩ x none
        closed := some out'
        connection := leftOpen o.connection out' } := by
      rw [Coroutine.step, hstage]
      rfl
    exact .before hstep (.inr (.inl rfl)) (hresume rfl)

theorem Sound.finishes {o : Coroutine α E X} (h : Sound o) : Finishes out out' o := by
  have hresume : ∀ {o : Coroutine α E X} {ended : Except E α}, Sound o → o.stage =
      .opening ⟨some (settled ended), .waiting o.cancelled⟩ → Finishes out out' o := by
    intro o ended h hstage
    have hstep : o.step .resume = some (o.afterOpening
        ⟨some (settled ended), .ended (required o.cancelled (settled ended))⟩) := by
      rw [Coroutine.step, hstage]
      simp only [resume_settled, Option.map_some]
    refine .before hstep (.inr (.inr rfl)) ?_
    have hsound := h.resume hstep
    cases hnext : (o.afterOpening
        ⟨some (settled ended), .ended (required o.cancelled (settled ended))⟩).stage with
    | closing m x cause => exact finishes_closing hsound hnext
    | ended r => exact ⟨[], _, rfl, fun _ he => (List.not_mem_nil he).elim, r, hnext⟩
    | opening m =>
      cases ended <;> cases hcancelled : o.cancelled <;>
        simp [Coroutine.afterOpening, required, settled, hcancelled] at hnext
  cases hstage : o.stage with
  | ended r => exact ⟨[], o, rfl, fun _ he => (List.not_mem_nil he).elim, r, hstage⟩
  | closing m x cause => exact finishes_closing h hstage
  | opening m =>
    have hsound := h
    rw [Sound, hstage] at hsound
    obtain ⟨rfl, _⟩ := hsound
    cases hopened : o.opened with
    | some ended =>
      rw [hopened] at hstage
      exact hresume h hstage
    | none =>
      rw [hopened] at hstage
      have hstep : o.step (.opened out) = some { o with
          stage := .opening ⟨some (settled out), .waiting o.cancelled⟩
          opened := some out
          connection := out.toOption } := by
        rw [Coroutine.step, hstage]
        rfl
      exact .before hstep (.inl rfl) (hresume (h.opened hstep) rfl)

/-- **Opening leaves nothing behind**, however often it is cancelled and however its jobs end: it
returns only when it was not cancelled, with the connection that the worker opened; when it raises,
what it raises is accounted for, the connection is left open only by a close that failed, and the
worker goes on only when that failure was raised in place of the cancellation. Whatever has
happened, it comes to an end once its jobs do. -/
theorem open_leaves_nothing {o : Coroutine α E X} (events : List (Event α E X))
    (hrun : Coroutine.start.run events = some o) :
    (∀ a, o.stage = .ended (.returned a) → o.opened = some (.ok a) ∧ o.cancelled = none ∧
      o.connection = some a ∧ o.worker = true) ∧
    (∀ thrown cause, o.stage = .ended (.raised thrown cause) → Left o thrown cause) ∧
    ∀ out out', Finishes out out' o := by
  have hsound := sound_start.run events hrun
  refine ⟨?_, ?_, fun out out' => hsound.finishes⟩
  · intro a hstage
    rw [Sound, hstage] at hsound
    exact hsound
  · intro thrown cause hstage
    rw [Sound, hstage] at hsound
    exact hsound

/-- A cancelled call whose close fails: the failure is raised, and the worker goes on. -/
theorem open_leaves_nothing_failed_close : ∃ o : Coroutine Unit String Nat,
    Coroutine.start.run [.cancel 1, .opened (.ok ()), .resume, .closed (.error "busy"), .resume] =
      some o ∧
    o.stage = .ended (.raised (.exception "busy") none) ∧ o.worker = true ∧
      Left o (.exception "busy") none :=
  ⟨_, rfl, rfl, rfl, (open_leaves_nothing
    [.cancel 1, .opened (.ok ()), .resume, .closed (.error "busy"), .resume] rfl).2.1 _ _ rfl⟩

end DrStore.Store.Opening
