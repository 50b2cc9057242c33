import DrStore.Store.Admission

/-! # Waiting for settlement (storage_backends/sqlite.py, `_await_settled`)

The awaited future settles once, with a value, an exception or its own cancellation, and the waiter
is cancelled as often as someone likes, at any of its awaits. Every await of a settled future is
answered at once and in the same way, so an iteration that does not end the loop is repeated without
an await in between. -/
namespace DrStore.Store.Settlement
open DrStore.Base.Programs DrStore.Store.Admission

/-- `α` are values, `E` exceptions other than `CancelledError`, and `X` the cancellations. -/
inductive Outcome (α E X : Type) where
  | value (a : α)
  | exception (e : E)
  | cancelled (x : X)

inductive Thrown (E X : Type) where
  | exception (e : E)
  | cancellation (x : X)

/-- How `_await_settled` ends; a raised cancellation may have a cause. -/
inductive Ended (α E X : Type) where
  | returned (a : α)
  | raised (thrown : Thrown E X) (cause : Option E)

/-- In the loop, with the local `cancellation`, or out of it. -/
inductive Waiter (α E X : Type) where
  | waiting (cancellation : Option X)
  | ended (out : Ended α E X)

variable {α E X : Type}

def Outcome.isCancelled : Outcome α E X → Bool
  | .cancelled _ => true
  | _ => false

/-- What `await asyncio.shield(future)` gives once the future is done. -/
def Outcome.answer : Outcome α E X → Except (Thrown E X) α
  | .value a => .ok a
  | .exception e => .error (.exception e)
  | .cancelled x => .error (.cancellation x)

/-- One iteration of the loop, by what its await gives. -/
def afterAwait (cancellation : Option X) : Except (Thrown E X) α → Waiter α E X
  | .error (.cancellation error) => .waiting (some error)
  | .error (.exception error) =>
    match cancellation with
    | some x => .ended (.raised (.cancellation x) (some error))
    | none => .ended (.raised (.exception error) none)
  | .ok result =>
    match cancellation with
    | some x => .ended (.raised (.cancellation x) none)
    | none => .ended (.returned result)

/-! ## The future and its waiter -/

structure Machine (α E X : Type) where
  future : Option (Outcome α E X)
  waiter : Waiter α E X

def Machine.start : Machine α E X := ⟨none, .waiting none⟩

inductive Event (α E X : Type) where
  | cancelWaiter (x : X)
  | settle (outcome : Outcome α E X)
  | resume

/-- A cancellation reaches the waiter at its await, also when the future has been settled meanwhile
and the waiter has not gone on yet. -/
def Machine.step (m : Machine α E X) : Event α E X → Option (Machine α E X)
  | .cancelWaiter x =>
    match m.waiter with
    | .waiting cancellation =>
      some { m with waiter := afterAwait cancellation (.error (.cancellation x)) }
    | .ended _ => none
  | .settle outcome =>
    match m.future with
    | none => some { m with future := some outcome }
    | some _ => none
  | .resume =>
    match m.future, m.waiter with
    | some outcome, .waiting cancellation =>
      some { m with waiter := afterAwait cancellation outcome.answer }
    | _, _ => none

def Machine.run (m : Machine α E X) : List (Event α E X) → Option (Machine α E X)
  | [] => some m
  | e :: events => (m.step e).bind fun m' => m'.run events

/-- The last cancellation of the waiter. -/
def lastCancellation (last : Option X) : List (Event α E X) → Option X
  | [] => last
  | .cancelWaiter x :: events => lastCancellation (some x) events
  | _ :: events => lastCancellation last events

/-- What the waiter is to end with. -/
def required (last : Option X) : Outcome α E X → Ended α E X
  | .value a =>
    match last with
    | some x => .raised (.cancellation x) none
    | none => .returned a
  | .exception e =>
    match last with
    | some x => .raised (.cancellation x) (some e)
    | none => .raised (.exception e) none
  | .cancelled own => .raised (.cancellation (last.getD own)) none

/-- The waiter goes on from here until it has left the loop as required. -/
def LeavesLoop (m : Machine α E X) (last : Option X) (outcome : Outcome α E X) : Prop :=
  ∃ n m', m.run (List.replicate n .resume) = some m' ∧ m'.waiter = .ended (required last outcome)

/-! ## All runs -/

/-- The local `cancellation` is the last one of the waiter, unless the future was cancelled; and only
a future that was not cancelled lets the waiter leave. -/
def Tracks (last : Option X) (m : Machine α E X) : Prop :=
  match m.waiter with
  | .waiting cancellation =>
    (∀ outcome, m.future = some outcome → outcome.isCancelled = false) → cancellation = last
  | .ended out => ∃ outcome, m.future = some outcome ∧ outcome.isCancelled = false ∧
      out = required last outcome

/-- Once the future is settled otherwise than by a cancellation, the next iteration is the last. -/
theorem afterAwait_settled {last : Option X} {outcome : Outcome α E X}
    (h : outcome.isCancelled = false) :
    afterAwait last outcome.answer = .ended (required last outcome) := by
  cases outcome with
  | value a => cases last <;> rfl
  | exception e => cases last <;> rfl
  | cancelled x => cases h

theorem tracks_cancelWaiter {m m' : Machine α E X} {x : X}
    (hstep : m.step (.cancelWaiter x) = some m') : Tracks (some x) m' := by
  obtain ⟨future, waiter⟩ := m
  cases waiter with
  | waiting cancellation =>
    cases hstep
    exact fun _ => rfl
  | ended out => cases hstep

theorem Tracks.settle {last : Option X} {m m' : Machine α E X} {outcome : Outcome α E X}
    (h : Tracks last m) (hstep : m.step (.settle outcome) = some m') : Tracks last m' := by
  obtain ⟨future, waiter⟩ := m
  cases future with
  | some _ => cases hstep
  | none =>
    cases hstep
    cases waiter with
    | waiting cancellation => exact fun _ => h fun _ heq => by cases heq
    | ended out =>
      obtain ⟨_, heq, _⟩ := h
      cases heq

theorem Tracks.resume {last : Option X} {m m' : Machine α E X} (h : Tracks last m)
    (hstep : m.step .resume = some m') : Tracks last m' := by
  obtain ⟨future, waiter⟩ := m
  cases future with
  | none => cases hstep
  | some outcome =>
    cases waiter with
    | ended out => cases hstep
    | waiting cancellation =>
      cases hstep
      by_cases hcancelled : outcome.isCancelled = false
      · have hlast : cancellation = last := h fun _ heq => Option.some.inj heq ▸ hcancelled
        show Tracks last ⟨some outcome, afterAwait cancellation outcome.answer⟩
        rw [hlast, afterAwait_settled hcancelled]
        exact ⟨outcome, rfl, hcancelled, rfl⟩
      · cases outcome with
        | value a => exact absurd rfl hcancelled
        | exception e => exact absurd rfl hcancelled
        | cancelled x => exact fun hnot => absurd (hnot _ rfl) hcancelled

theorem Tracks.run {last : Option X} {m m' : Machine α E X} (events : List (Event α E X))
    (h : Tracks last m) (hrun : m.run events = some m') :
    Tracks (lastCancellation last events) m' := by
  induction events generalizing m last with
  | nil =>
    cases hrun
    exact h
  | cons e events ih =>
    obtain ⟨m₁, hstep, hrest⟩ := Option.bind_eq_some_iff.mp hrun
    cases e with
    | cancelWaiter x => exact ih (tracks_cancelWaiter hstep) hrest
    | settle outcome => exact ih (h.settle hstep) hrest
    | resume => exact ih (h.resume hstep) hrest

/-- On a cancelled future the loop goes round forever. -/
theorem spins {x : X} {cancellation : Option X} (n : Nat) {m' : Machine α E X}
    (hrun : Machine.run ⟨some (.cancelled x), .waiting cancellation⟩
      (List.replicate n (.resume : Event α E X)) = some m') :
    ∃ cancellation', m'.waiter = .waiting cancellation' := by
  induction n generalizing cancellation with
  | zero =>
    cases hrun
    exact ⟨cancellation, rfl⟩
  | succ n ih =>
    obtain ⟨m₁, hstep, hrest⟩ := Option.bind_eq_some_iff.mp hrun
    cases hstep
    exact ih hrest

/-- **The loop is left exactly when the future was not cancelled itself.** In every run, with any
cancellations of the waiter before and after the settlement, the waiter of a settled future comes to
end as required if and only if the future has a value or an exception. -/
theorem await_settled_ends_iff (events : List (Event α E X)) (m : Machine α E X)
    (outcome : Outcome α E X) (hrun : Machine.start.run events = some m)
    (hsettled : m.future = some outcome) :
    LeavesLoop m (lastCancellation none events) outcome ↔ outcome.isCancelled = false := by
  have hstart : Tracks none (Machine.start : Machine α E X) := fun _ => rfl
  have htracks := hstart.run events hrun
  obtain ⟨future, waiter⟩ := m
  obtain rfl : future = some outcome := hsettled
  refine ⟨?_, ?_⟩
  · intro hleaves
    obtain ⟨n, m', hresumed, hended⟩ := hleaves
    cases outcome with
    | value a => rfl
    | exception e => rfl
    | cancelled x =>
      cases waiter with
      | waiting cancellation =>
        obtain ⟨_, hwaiting⟩ := spins n hresumed
        rw [hended] at hwaiting
        cases hwaiting
      | ended out =>
        obtain ⟨_, heq, hnot, _⟩ := htracks
        cases heq
        cases hnot
  · intro hnot
    cases waiter with
    | waiting cancellation =>
      obtain rfl := htracks fun _ heq => Option.some.inj heq ▸ hnot
      exact ⟨1, _, rfl, afterAwait_settled hnot⟩
    | ended out =>
      obtain ⟨_, heq, _, rfl⟩ := htracks
      cases heq
      exact ⟨0, _, rfl, rfl⟩

/-- The close task is cancelled, as its waiter is, when the event loop cancels all tasks. -/
def teardown : List (Event Unit Unit String) :=
  [.cancelWaiter "waiter", .settle (.cancelled "close task")]

/-- The waiter of the cancelled close task never leaves the loop. -/
theorem teardown_spins : ∃ m, Machine.start.run teardown = some m ∧
    m.future = some (.cancelled "close task") ∧
    ¬ LeavesLoop m (lastCancellation none teardown) (.cancelled "close task") := by
  refine ⟨_, rfl, rfl, ?_⟩
  intro hleaves
  obtain ⟨n, m', hresumed, hended⟩ := hleaves
  obtain ⟨_, hwaiting⟩ := spins n hresumed
  rw [hended] at hwaiting
  cases hwaiting

/-- Two cancellations, one of them after a failure: the second is raised, from the failure. -/
theorem await_settled_ends_twice_cancelled : ∃ m,
    (Machine.start : Machine Unit String Nat).run
      [.cancelWaiter 1, .settle (.exception "disk"), .cancelWaiter 2] = some m ∧
    LeavesLoop m (some 2) (.exception "disk") ∧
    required (some 2) (.exception "disk" : Outcome Unit String Nat) =
      .raised (.cancellation 2) (some "disk") :=
  ⟨_, rfl, (await_settled_ends_iff [.cancelWaiter 1, .settle (.exception "disk"), .cancelWaiter 2] _
    (.exception "disk") rfl rfl).mpr rfl, rfl⟩

/-! ## The script of the backend -/

/-- The loop on these answers of its awaits. -/
def Waiter.after : Waiter α E X → List (Except (Thrown E X) α) → Waiter α E X
  | w, [] => w
  | .ended out, _ => .ended out
  | .waiting cancellation, answer :: answers => (afterAwait cancellation answer).after answers

theorem after_ended (out : Ended α E X) (answers : List (Except (Thrown E X) α)) :
    (Waiter.ended out).after answers = .ended out := by
  cases answers <;> rfl

/-- An await as the backend's scripts see it, where a cancellation is nobody's in particular. -/
def reply : Except (Thrown Raised X) α → Option (Except Raised α)
  | .error (.cancellation _) => none
  | .error (.exception e) => some (.error e)
  | .ok a => some (.ok a)

def Ended.toExcept : Ended α Raised X → Except Raised α
  | .returned a => .ok a
  | .raised (.exception e) _ => .error e
  | .raised (.cancellation _) (some e) => .error (.cancelledFrom e)
  | .raised (.cancellation _) none => .error .cancelled

/-- An engine that gives these answers one after the other. -/
def nextReply (answers : List (Option (Except Raised α))) (_ : Unit) :
    Option (Except Raised α) × List (Option (Except Raised α)) :=
  (answers.head?.join, answers.tail)

/-- `awaitSettled` of the backend's scripts is this loop, with a bound on its rounds. -/
theorem awaitSettled_run {out : Ended α Raised X} (sleep : Prog Unit (fun _ => _) Raised α)
    (answers : List (Except (Thrown Raised X) α)) {cancellation : Option X}
    (h : (Waiter.waiting cancellation).after answers = .ended out) {n : Nat}
    (hn : answers.length ≤ n) :
    ((awaitSettled sleep (.perform ()) n cancellation.isSome).run nextReply
      (answers.map reply)).1 = out.toExcept := by
  induction answers generalizing cancellation n with
  | nil => cases h
  | cons answer answers ih =>
    obtain ⟨n, rfl⟩ : ∃ k, n = k + 1 := ⟨n - 1, by simp at hn; omega⟩
    have hrest : answers.length ≤ n := Nat.le_of_succ_le_succ hn
    have hends : ∀ out', Waiter.ended out' = .ended out → out' = out := fun _ h => Waiter.ended.inj h
    rw [Waiter.after] at h
    match answer, cancellation with
    | .error (.cancellation x), _ => exact ih h hrest
    | .error (.exception e), some x =>
      obtain rfl := hends _ ((after_ended _ answers).symm.trans h)
      rfl
    | .error (.exception e), none =>
      obtain rfl := hends _ ((after_ended _ answers).symm.trans h)
      rfl
    | .ok a, some x =>
      obtain rfl := hends _ ((after_ended _ answers).symm.trans h)
      rfl
    | .ok a, none =>
      obtain rfl := hends _ ((after_ended _ answers).symm.trans h)
      rfl

end DrStore.Store.Settlement
