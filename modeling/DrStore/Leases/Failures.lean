import DrStore.Leases.Protocol

/-! # What a call may raise

Corruption and database errors are the stores' own: they say that persisted data is not what
the store wrote. No call raises one by itself, on rows of a legal shape. -/
namespace DrStore.Leases.Failures
open DrStore.Base.Calendar DrStore.Base.Fallible
open DrStore.Store.ContentAddressing DrStore.Leases.Models DrStore.Leases.Authority
open DrStore.Leases.Protocol

/-- The errors that report damaged or lost persisted data. -/
def internal : LeaseError → Bool
  | .corruption _ | .database _ | .keyError _ | .reference _ => true
  | _ => false

/-- A computation that raises no internal error. -/
structure Clean {α : Type} (x : Except LeaseError α) : Prop where
  raises : ∀ e, x = .error e → internal e = false

section
variable {α β : Type}

theorem clean_ok (a : α) : Clean (.ok a) := by
  refine ⟨?_⟩
  intro e h
  cases h

theorem clean_error {e : LeaseError} (h : internal e = false) : Clean (.error e : Except _ α) := by
  refine ⟨?_⟩
  intro e' he
  cases he
  exact h

theorem Clean.bind {x : Except LeaseError α} {f : α → Except LeaseError β} (hx : Clean x)
    (hf : ∀ a, x = .ok a → Clean (f a)) : Clean (x >>= f) := by
  cases x with
  | error e => exact clean_error (hx.raises e rfl)
  | ok a => exact hf a rfl

theorem Clean.map {x : Except LeaseError α} (hx : Clean x) (f : α → β) : Clean (x.map f) := by
  cases x with
  | error e => exact clean_error (hx.raises e rfl)
  | ok a => exact clean_ok _

theorem clean_dite {P : Prop} [Decidable P] {x : P → Except LeaseError α}
    {y : ¬ P → Except LeaseError α} (hx : ∀ h, Clean (x h)) (hy : ∀ h, Clean (y h)) :
    Clean (if h : P then x h else y h) := by
  by_cases h : P
  · rw [dif_pos h]; exact hx h
  · rw [dif_neg h]; exact hy h

theorem clean_ite {P : Prop} [Decidable P] {x y : Except LeaseError α} (hx : P → Clean x)
    (hy : ¬ P → Clean y) : Clean (if P then x else y) := by
  by_cases h : P
  · rw [if_pos h]; exact hx h
  · rw [if_neg h]; exact hy h

end

/-! ## Constructors -/

theorem textError_clean (value field : String) (maximum : Nat) :
    internal (textError value field maximum) = false := by
  unfold textError
  split
  · rfl
  · split <;> rfl

theorem clean_requireText (value field : String) (maximum : Nat) :
    Clean (requireText value field maximum) :=
  clean_ite (fun _ => clean_ok _) fun _ => clean_error (textError_clean ..)

theorem clean_leaseMake (request : LeaseRequest) (ownerId attemptId : String) (fence : Int)
    (expiresAt : Datetime) : Clean (Lease.make request ownerId attemptId fence expiresAt) :=
  clean_dite (fun _ => clean_dite (fun _ => clean_dite (fun _ => clean_ok _)
    fun _ => clean_error rfl) fun _ => clean_error (textError_clean ..))
    fun _ => clean_error (textError_clean ..)

theorem clean_failureMake (code message : String) (details) :
    Clean (TerminalFailure.make code message details) :=
  clean_dite (fun _ => clean_dite (fun _ => clean_ok _) fun _ => clean_error (textError_clean ..))
    fun _ => clean_error (textError_clean ..)

theorem clean_terminalMake (request : LeaseRequest) (outcome : TerminalOutcome)
    (ownerId attemptId : String) (fence : Int) (resultRef : Option ObjectReference)
    (failure : Option TerminalFailure) :
    Clean (Terminal.make request outcome ownerId attemptId fence resultRef failure) :=
  clean_dite (fun _ => clean_dite (fun _ => clean_dite (fun _ => clean_dite (fun _ => clean_ok _)
    fun _ => clean_error (by cases outcome <;> rfl)) fun _ => clean_error rfl)
    fun _ => clean_error (textError_clean ..)) fun _ => clean_error (textError_clean ..)

theorem error?_clean {r : AcquireFields} {e : LeaseError} (h : r.error? = some e) :
    internal e = false := by
  unfold AcquireFields.error? at h
  split at h
  · obtain ⟨hash, -, rfl⟩ := Option.map_eq_some_iff.mp h
    rfl
  · split at h <;> split at h <;> try (cases h; rfl)
    · split at h <;> cases h
      rfl
    · cases h
    · cases h
    · split at h <;> try (cases h; rfl)
      split at h <;> cases h
      rfl

theorem clean_acquireMake (r : AcquireFields) : Clean (AcquireResult.make r) := by
  unfold AcquireResult.make
  split
  · exact clean_ok _
  · rename_i h
    exact clean_error (error?_clean h)

theorem clean_addDuration (now : Datetime) (duration : Timedelta) :
    Clean (addDuration now duration) := by
  unfold addDuration
  split
  · exact clean_ok _
  · exact clean_error rfl

theorem clean_validateLeaseDuration (kind : StoreKind) (duration : Timedelta) :
    Clean (validateLeaseDuration kind duration) := by
  refine Clean.bind (clean_ite (fun _ => clean_error rfl) fun _ => clean_ok _) fun d _ => ?_
  cases kind with
  | memory => exact clean_ok _
  | postgresql => exact clean_ok _
  | sqlite => exact clean_ite (fun _ => clean_error rfl) fun _ => clean_ok _

/-! ## Transitions -/

section
variable {row : Option LeaseRow} {now : Datetime}

/-- A transition that first runs a clean step and returns its result with a row is clean. -/
theorem clean_return {α β : Type} {x : Except LeaseError α} (hx : Clean x) (f : α → β) :
    Clean (x >>= fun a => pure (f a)) :=
  hx.bind fun _ _ => clean_ok _

theorem clean_acquireTransition (host : Host) (request : LeaseRequest) (ownerId attemptId : String)
    (duration : Timedelta) (hrow : ∀ x ∈ row, Shape x) :
    Clean (acquireTransition host request ownerId attemptId duration row now) := by
  refine (clean_addDuration now duration).bind fun expiry _ => ?_
  match row, hrow with
  | none, _ =>
    exact (clean_leaseMake ..).bind fun l _ => clean_return (clean_acquireMake _) _
  | some row, hrow =>
    refine clean_ite (fun _ => clean_return (clean_acquireMake _) _) fun _ => ?_
    cases hrow row rfl with
    | terminalized t => exact clean_return (clean_acquireMake _) _
    | leased l =>
      show Clean ((LeaseRow.leased l).lease >>= _)
      rw [LeaseRow.lease_leased, ok_bind]
      refine clean_ite (fun _ => ?_) fun _ => ?_
      · exact clean_ite (fun _ => clean_return (clean_acquireMake _) _)
          fun _ => clean_return (clean_acquireMake _) _
      · refine clean_ite (fun _ => ?_) fun _ => ?_
        · refine Clean.bind (clean_failureMake ..) fun failure _ => ?_
          exact (clean_terminalMake ..).bind fun t _ => clean_return (clean_acquireMake _) _
        · refine clean_ite (fun _ => clean_error rfl) fun _ => ?_
          exact (clean_leaseMake ..).bind fun l' _ => clean_return (clean_acquireMake _) _

theorem clean_renewTransition (lease : Lease) (duration : Timedelta)
    (hrow : ∀ x ∈ row, Shape x) : Clean (renewTransition lease duration row now) := by
  match row, hrow with
  | none, _ => exact clean_error rfl
  | some row, hrow =>
    refine clean_ite (fun _ => clean_error rfl) fun _ => ?_
    cases hrow row rfl with
    | terminalized t => exact clean_error rfl
    | leased l =>
      show Clean ((LeaseRow.leased l).lease >>= _)
      rw [LeaseRow.lease_leased, ok_bind]
      refine clean_ite (fun _ => clean_error rfl) fun _ => ?_
      refine (clean_addDuration ..).bind fun expiry _ => ?_
      exact clean_ite (fun _ => clean_ok _) fun _ => clean_return (clean_leaseMake ..) _

theorem clean_terminalizeTransition (lease : Lease) (terminal : Terminal)
    (hrow : ∀ x ∈ row, Shape x) : Clean (terminalizeTransition lease terminal row now) := by
  match row, hrow with
  | none, _ => exact clean_error rfl
  | some row, hrow =>
    refine clean_ite (fun _ => clean_error rfl) fun _ => ?_
    cases hrow row rfl with
    | terminalized t => exact clean_ite (fun _ => clean_ok _) fun _ => clean_error rfl
    | leased l =>
      show Clean ((LeaseRow.leased l).lease >>= _)
      rw [LeaseRow.lease_leased, ok_bind]
      exact clean_ite (fun _ => clean_error rfl) fun _ => clean_ok _

theorem clean_verifyTransition (validated : Terminal) : Clean (verifyTransition validated row now) := by
  unfold verifyTransition
  split
  · exact clean_error rfl
  · exact clean_ite (fun _ => clean_ok _) fun _ => clean_error rfl

end

/-! ## Calls -/

theorem clean_prepare (host : Host) (kind : StoreKind) (call : Call) :
    Clean (call.prepare host kind) := by
  cases call with
  | acquire request ownerId attemptId duration =>
    refine (clean_requireText ..).bind fun _ _ => (clean_requireText ..).bind fun _ _ => ?_
    exact clean_return (clean_validateLeaseDuration ..) _
  | renew lease duration => exact clean_return (clean_validateLeaseDuration ..) _
  | succeed lease resultRef => exact clean_return (clean_terminalMake ..) _
  | fail lease resultRef failure => exact clean_return (clean_terminalMake ..) _
  | verifyTerminal terminal =>
    refine clean_return ?_ _
    unfold Host.validateTerminal
    split
    · exact clean_ok _
    · exact clean_error rfl

/-- The transition of a prepared call raises no internal error on a legal row. -/
theorem clean_transition {host : Host} {kind : StoreKind} {call : Call} {key : String}
    {tr : Transition Reply} {row : Option LeaseRow} {now : Datetime}
    (hp : call.prepare host kind = .ok (key, tr)) (hrow : ∀ x ∈ row, Shape x) :
    Clean (tr row now) := by
  cases call with
  | acquire request ownerId attemptId duration =>
    obtain ⟨_, _, hp⟩ := bind_ok hp
    obtain ⟨_, _, hp⟩ := bind_ok hp
    obtain ⟨d, _, hp⟩ := bind_ok hp
    cases pure_ok hp
    exact (clean_acquireTransition host request ownerId attemptId d hrow).map _
  | renew lease duration =>
    obtain ⟨d, _, hp⟩ := bind_ok hp
    cases pure_ok hp
    exact (clean_renewTransition lease d hrow).map _
  | succeed lease resultRef =>
    obtain ⟨terminal, _, hp⟩ := bind_ok hp
    cases pure_ok hp
    exact (clean_terminalizeTransition lease terminal hrow).map _
  | fail lease resultRef failure =>
    obtain ⟨terminal, _, hp⟩ := bind_ok hp
    cases pure_ok hp
    exact (clean_terminalizeTransition lease terminal hrow).map _
  | verifyTerminal terminal =>
    obtain ⟨validated, _, hp⟩ := bind_ok hp
    cases pure_ok hp
    exact (clean_verifyTransition validated).map _

end DrStore.Leases.Failures
