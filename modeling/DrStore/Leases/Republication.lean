import DrStore.Leases.Terminalization

/-! # Publishing again through the handle

The authority behind the handle is the lease authority, whose store may lose the connection before
or after a commit, and which other clients use too. A publication that committed and raised starts
the renewer again; as long as no renewal meets the terminal row, the publication can be repeated. -/
namespace DrStore.Leases.Republication
open DrStore.Base.Calendar DrStore.Base.Fallible DrStore.Base.FencedLease DrStore.Base.Programs
open DrStore.Base.Pool
open DrStore.Base.PyText (pyRepr)
open DrStore.Store.ContentAddressing DrStore.Leases.Models
open DrStore.Leases.Authority (Host StoreKind Rows noRows isStale)
open DrStore.Leases.Protocol
open DrStore.Leases.History (RowsOk step_rowsOk step_move reply_step changed_step after_rowsOk
  sampleHost sampleClock sampleLease sampleReference sampleTerminal sampleAcquire)
open DrStore.Leases.Maintenance DrStore.Leases.Renewal DrStore.Leases.Terminalization

/-! ## The authority as a service -/

/-- The rows, and what the authority's clock shows. -/
structure Backend where
  rows : Rows
  clock : ClockReading
  rows_ok : RowsOk rows

/-- The text of what `ObjectReference` raises, which is a `ReferenceValidationError`. -/
def validationMessage : StoreError → String
  | .referenceValidation message => message
  | _ => ""

/-- An error of the authority, as the handle sees it. -/
def raisedOf : LeaseError → Raised
  | .stale message => .stale message
  | .terminalConflict message => .terminalConflict message
  | .authority message | .corruption message => .authority message
  | .valueError message => .other "ValueError" message
  | .overflowError => .other "OverflowError" "date value out of range"
  | .keyError key => .other "KeyError" (pyRepr key)
  | .reference e => .other "ReferenceValidationError" (validationMessage e)
  | .database message => .other "OperationalError" message

variable (host : Host) (kind : StoreKind) (duration : Timedelta)

def transact (a : Backend) (call : Authority.Call) : Except LeaseError Authority.Reply :=
  ((Authority.authority host kind).step a.rows ⟨call, a.clock⟩).2

/-- The rows after a transaction. -/
def Backend.commit (a : Backend) (call : Authority.Call) : Backend where
  rows := ((Authority.authority host kind).step a.rows ⟨call, a.clock⟩).1
  clock := a.clock
  rows_ok := step_rowsOk _ a.rows_ok

/-- A transaction returns or raises, or the connection is lost before or after its commit. -/
inductive Answers (a : Backend) (call : Authority.Call) :
    Except Raised Authority.Reply → Backend → Prop
  | returned {reply : Authority.Reply} : transact host kind a call = .ok reply →
      Answers a call (.ok reply) (a.commit host kind call)
  | raised {e : LeaseError} : transact host kind a call = .error e →
      Answers a call (.error (raisedOf e)) a
  | failed {e : Raised} : e.definitive = false → Answers a call (.error e) a
  | lost {e : Raised} {reply : Authority.Reply} : e.definitive = false →
      transact host kind a call = .ok reply → Answers a call (.error e) (a.commit host kind call)

def publicationCall (lease : Lease) : Publication → Authority.Call
  | .succeed resultRef => .succeed lease resultRef
  | .fail resultRef failure => .fail lease resultRef failure

variable (adjust : ClockReading → ClockReading → Prop)

/-- The handle's authority, among any other clients. `adjust` says how its clock may be moved. -/
def service : Service Backend where
  renew a lease r a' :=
    Answers host kind a (.renew lease duration) (r.map .renewed) a'
  publish a lease p r a' :=
    Answers host kind a (publicationCall lease p) (r.map .terminal) a'
  elsewhere a a' := (∃ call, a' = a.commit host kind call) ∨
    ∃ clock, adjust a.clock clock ∧ a' = { a with clock }

/-- The terminal that a publication asks for. -/
def publicationTerminal (lease : Lease) : Publication → Except LeaseError Terminal
  | .succeed resultRef => Terminal.make lease.request .succeeded lease.ownerId lease.attemptId
      lease.fence (some resultRef) none
  | .fail resultRef failure => Terminal.make lease.request .failed lease.ownerId lease.attemptId
      lease.fence (some resultRef) (some failure)

/-! ## What the rows do -/

section Rows

variable {host kind duration adjust} {a a' b : Backend}

theorem answers_rows {call : Authority.Call} {r : Except Raised Authority.Reply}
    (h : Answers host kind a call r a') : a' = a ∨ a' = a.commit host kind call := by
  cases h with
  | returned | lost => exact .inr rfl
  | raised | failed => exact .inl rfl

theorem move_rows (h : Renewal.Move (service host kind duration adjust) a a') :
    (∃ clock, (clock = a.clock ∨ adjust a.clock clock) ∧ a' = { a with clock }) ∨
      ∃ call, a' = a.commit host kind call := by
  obtain (hcall | ⟨clock, hadjust, rfl⟩) | ⟨lease, r, h⟩ | ⟨lease, p, r, h⟩ := h
  · exact .inr hcall
  · exact .inl ⟨clock, .inr hadjust, rfl⟩
  · exact (answers_rows h).imp (fun h => ⟨a.clock, .inl rfl, h⟩) fun h => ⟨_, h⟩
  · exact (answers_rows h).imp (fun h => ⟨a.clock, .inl rfl, h⟩) fun h => ⟨_, h⟩

/-- Every key climbs. -/
theorem moves_below (h : Moves (service host kind duration adjust) a b) (key : String) :
    Below (cellOf (a.rows key)) (cellOf (b.rows key)) := by
  induction h with
  | refl => exact Below.refl _
  | @tail b c _ hmove ih =>
    obtain ⟨clock, _, rfl⟩ | ⟨call, rfl⟩ := move_rows hmove
    · exact ih
    · exact ih.trans (step_move b.rows_ok _ key).below

theorem terminal_stays {key : String} {t : Terminal}
    (h : Moves (service host kind duration adjust) a b)
    (hrow : a.rows key = some (.terminalized t)) :
    b.rows key = some (.terminalized t) := by
  have hbelow := moves_below h key
  rw [hrow, cellOf_terminalized] at hbelow
  refine cellOf_inj (fun x hx => (b.rows_ok key x hx).1) ?_ hbelow
  intro x hx
  cases hx
  exact .terminalized t

end Rows

/-! ## Leases that are held, and leases that are gone -/

/-- The row is leased to exactly this lease, which has not expired. -/
def Held (a : Backend) (lease : Lease) : Prop :=
  ∃ current, a.rows lease.request.semanticKey = some (.leased current) ∧
    current.request = lease.request ∧
    ∀ now, requireUtc a.clock "authority clock" = .ok now → isStale current lease now = false

/-- No terminal of this lease can become authoritative any more. -/
def Gone (a : Backend) (lease : Lease) : Prop :=
  ∃ row, a.rows lease.request.semanticKey = some row ∧
    (row.request ≠ lease.request ∨ lease.fence < row.fence ∨
      ∃ t, row.terminal = some t ∧ t.outcome = .recoveryRequired)

/-- The row is still leased at this fence, and the lease has run out. -/
def Lapsed (a : Backend) (lease : Lease) : Prop :=
  ∃ current, a.rows lease.request.semanticKey = some (.leased current) ∧
    current.request = lease.request ∧ current.fence = lease.fence ∧
    current.expiresAt ≤ a.clock.wall

/-- The clock of the authority is never set back. -/
def Forward : Prop := ∀ c c', adjust c c' → c.wall ≤ c'.wall

/-- The lease is gone; or it has lapsed, on a clock that is never set back. -/
def Over (a : Backend) (lease : Lease) : Prop := Gone a lease ∨ Forward adjust ∧ Lapsed a lease

/-- What a transaction of the handle may meet: its lease held, or over; and for a publication, a
terminal. -/
def Fit : Event Backend → Prop
  | .renewed lease _ a => Held a lease ∨ Over adjust a lease
  | .published _ lease _ _ a _ => Held a lease ∨ Over adjust a lease ∨
      ∃ t, a.rows lease.request.semanticKey = some (.terminalized t)
  | _ => True

section Leases

variable {host kind duration adjust} {a a' b : Backend} {lease : Lease}

theorem gone_stays (h : Moves (service host kind duration adjust) a b)
    (hgone : Gone a lease) : Gone b lease := by
  obtain ⟨row, hrow, hreason⟩ := hgone
  have hbelow := moves_below h lease.request.semanticKey
  have hshape := (a.rows_ok _ row (by rw [hrow]; rfl)).1
  cases hshape with
  | terminalized t => exact ⟨_, terminal_stays h hrow, hreason⟩
  | leased l =>
    rw [hrow, cellOf_leased] at hbelow
    cases hrowb : b.rows lease.request.semanticKey with
    | none =>
      rw [hrowb] at hbelow
      exact hbelow.elim
    | some row' =>
      rw [hrowb] at hbelow
      refine ⟨row', hrowb, ?_⟩
      have hfence : l.fence ≤ row'.fence ∧ row'.request = l.request := by
        have hshape' := (b.rows_ok _ row' (by rw [hrowb]; rfl)).1
        cases hshape' with
        | leased l' => exact ⟨Below.fence_le hbelow, hbelow.1.symm⟩
        | terminalized t => exact ⟨hbelow.2, hbelow.1.symm⟩
      obtain hrequest | hlt | ⟨t, ht, _⟩ := hreason
      · exact .inl (by rw [hfence.2]; exact hrequest)
      · exact .inr (.inl (lt_of_lt_of_le hlt hfence.1))
      · cases ht

/-- A transaction on a row whose lease has lapsed leaves it alone, or the lease is gone. -/
theorem lapsed_step {call : Authority.Call} {key : String} {row' : Option LeaseRow}
    {reply : Authority.Reply} {current : Lease} {now : Datetime} (hlapsed : current.expiresAt ≤ now)
    (h : CallStep host call key now (some (.leased current)) row' reply) :
    row' = some (.leased current) ∨
      (∃ l, row' = some (.leased l) ∧ l.fence = current.fence + 1) ∨
      ∃ t, row' = some (.terminalized t) ∧ t.outcome = .recoveryRequired := by
  generalize hrow : some (LeaseRow.leased current) = row at h
  have hexpired : ∀ l, some (LeaseRow.leased current) = some (.leased l) → ¬ now < l.expiresAt := by
    intro l hl
    rw [← LeaseRow.leased_inj (Option.some.inj hl)]
    exact not_lt.mpr hlapsed
  cases h with
  | acquire h =>
    cases h with
    | granted => cases hrow
    | conflict | reacquired | busy | replayed => exact .inl rfl
    | @recovered l t r _ _ _ _ houtcome => exact .inr (.inr ⟨t, rfl, houtcome⟩)
    | @takenOver l l' r _ _ _ _ _ _ hfence =>
      rw [LeaseRow.leased_inj (Option.some.inj hrow)]
      exact .inr (.inl ⟨l', rfl, hfence⟩)
  | renew h =>
    cases h with
    | kept hlive | extended hlive => exact absurd hlive (hexpired _ hrow)
  | succeed _ h | fail _ h =>
    cases h with
    | replayed => exact .inl rfl
    | installed hlive => exact absurd hlive (hexpired _ hrow)
  | verify _ h =>
    cases h with
    | verified => exact .inl rfl

/-- A lease that has lapsed stays so until it is gone. -/
theorem lapsed_move (hforward : Forward adjust)
    (h : Renewal.Move (service host kind duration adjust) a a') (hlapsed : Lapsed a lease) :
    Gone a' lease ∨ Lapsed a' lease := by
  obtain ⟨current, hrow, hrequest, hfence, hexpired⟩ := hlapsed
  obtain ⟨clock, hclock, rfl⟩ | ⟨call, rfl⟩ := move_rows h
  · refine .inr ⟨current, hrow, hrequest, hfence, hexpired.trans ?_⟩
    obtain rfl | hadjust := hclock
    · exact le_refl _
    · exact hforward _ _ hadjust
  · obtain hsame | hchanged := eq_or_ne
      ((a.commit host kind call).rows lease.request.semanticKey) (a.rows lease.request.semanticKey)
    · exact .inr ⟨current, hsame.trans hrow, hrequest, hfence, hexpired⟩
    · obtain ⟨_, reply, _, hstep⟩ := changed_step a.rows_ok (e := ⟨call, a.clock⟩) hchanged
      rw [hrow] at hstep
      obtain hkept | ⟨l, hl, hnext⟩ | ⟨t, ht, houtcome⟩ := lapsed_step hexpired hstep
      · exact .inr ⟨current, hkept, hrequest, hfence, hexpired⟩
      · refine .inl ⟨_, hl, .inr (.inl ?_)⟩
        rw [← hfence]
        show current.fence < l.fence
        omega
      · exact .inl ⟨_, ht, .inr (.inr ⟨t, rfl, houtcome⟩)⟩

/-- What is over stays over. -/
theorem over_stays (h : Moves (service host kind duration adjust) a b)
    (hover : Over adjust a lease) : Over adjust b lease := by
  induction h with
  | refl => exact hover
  | tail _ hmove ih =>
    obtain hgone | ⟨hforward, hlapsed⟩ := ih
    · exact .inl (gone_stays (.single hmove) hgone)
    · exact (lapsed_move hforward hmove hlapsed).imp_right fun hlapsed => ⟨hforward, hlapsed⟩

theorem publicationTerminal_ok (lease : Lease) (p : Publication) :
    ∃ t, publicationTerminal lease p = .ok t := by
  cases p <;> simp [publicationTerminal, Terminal.make, lease.owner_valid, lease.attempt_valid,
    lease.fence_valid, terminalShape]

theorem terminal_names {p : Publication} {t : Terminal} (h : publicationTerminal lease p = .ok t) :
    Names t lease ∧ t.outcome ≠ .recoveryRequired := by
  cases p with
  | succeed resultRef =>
    obtain ⟨h1, h2, h3, h4, h5, _, _⟩ := terminalMake_ok h
    exact ⟨⟨h1, h3, h4, h5⟩, by rw [h2]; decide⟩
  | fail resultRef failure =>
    obtain ⟨h1, h2, h3, h4, h5, _, _⟩ := terminalMake_ok h
    exact ⟨⟨h1, h3, h4, h5⟩, by rw [h2]; decide⟩

theorem pyEq_fields {s t : Terminal} (h : s.pyEq t = true) :
    s.request = t.request ∧ s.outcome = t.outcome ∧ s.fence = t.fence := by
  simp only [Terminal.pyEq, Bool.and_eq_true, beq_iff_eq] at h
  exact ⟨h.1.1.1.1.1.1, h.1.1.1.1.1.2, h.1.1.2⟩

/-- What a lease that is gone asks for is not authoritative. -/
theorem gone_not_authoritative {p : Publication} {s t : Terminal} (hgone : Gone a lease)
    (hterminal : publicationTerminal lease p = .ok t)
    (hrow : a.rows lease.request.semanticKey = some (.terminalized s)) : s.pyEq t = false := by
  obtain ⟨row, hrow', hreason⟩ := hgone
  cases hrow.symm.trans hrow'
  obtain ⟨hnames, houtcome⟩ := terminal_names hterminal
  cases hpy : s.pyEq t with
  | false => rfl
  | true =>
    obtain ⟨hrequest, hsame, hfence⟩ := pyEq_fields hpy
    obtain hne | hlt | ⟨t', ht', hrecovery⟩ := hreason
    · exact absurd (hrequest.trans hnames.request) hne
    · have hlt : lease.fence < s.fence := hlt
      rw [hfence, hnames.fence] at hlt
      exact absurd hlt (lt_irrefl _)
    · cases ht'
      exact absurd (hsame.symm.trans hrecovery) houtcome

/-! ### Single transactions -/

theorem leaseMake_current (current : Lease) (expiresAt : Datetime) :
    ∃ l, Lease.make current.request current.ownerId current.attemptId current.fence expiresAt =
      .ok l := by
  simp [Lease.make, current.owner_valid, current.attempt_valid, current.fence_valid]

/-- A transaction that raises, with arguments that pass, raised at its authority time. -/
theorem transact_error {call : Authority.Call} {key : String}
    {tr : Authority.Transition Authority.Reply} {e : LeaseError}
    (hp : call.prepare host kind = .ok (key, tr)) (h : transact host kind a call = .error e) :
    requireUtc a.clock "authority clock" = .error e ∨
    ∃ now, requireUtc a.clock "authority clock" = .ok now ∧ tr (a.rows key) now = .error e := by
  unfold transact Authority.authority at h
  simp only [hp, Authority.MemoryStore.transaction] at h
  cases hu : requireUtc a.clock "authority clock" with
  | error e' =>
    rw [hu] at h
    cases h
    exact .inl rfl
  | ok now =>
    rw [hu] at h
    refine .inr ⟨now, rfl, ?_⟩
    cases htr : tr (a.rows key) now with
    | error e' =>
      simp only [htr] at h
      cases h
      rfl
    | ok out =>
      simp only [htr] at h
      cases h

theorem requireUtc_error {e : LeaseError} (h : requireUtc a.clock "authority clock" = .error e) :
    ∃ message, e = .valueError message := by
  unfold requireUtc at h
  split at h
  · exact ⟨_, (Except.error.inj h).symm⟩
  · split at h
    · cases h
    · exact ⟨_, (Except.error.inj h).symm⟩

theorem raisedOf_stale {e : LeaseError} {message : String} (h : raisedOf e = .stale message) :
    e = .stale message := by
  cases e <;> cases h
  rfl

/-- A call that the authority answers as stale ran a transaction that raised so. -/
theorem answers_stale {call : Authority.Call} {message : String}
    (h : Answers host kind a call (.error (.stale message)) a') :
    transact host kind a call = .error (.stale message) := by
  generalize hr : (Except.error (.stale message) : Except Raised Authority.Reply) = r at h
  cases h with
  | returned => cases hr
  | raised ht =>
    rw [ht, raisedOf_stale (Except.error.inj hr).symm]
  | failed hd =>
    cases hr
    cases hd
  | lost hd =>
    cases hr
    cases hd

theorem validateLeaseDuration_error {e : LeaseError}
    (h : Authority.validateLeaseDuration kind duration = .error e) :
    ∃ message, e = .valueError message := by
  obtain h | ⟨d, _, h⟩ := bind_error h
  · unfold requireLeaseDuration at h
    split at h
    · exact ⟨_, (Except.error.inj h).symm⟩
    · cases h
  · cases kind with
    | memory | postgresql => cases h
    | sqlite =>
      simp only at h
      split at h
      · exact ⟨_, (Except.error.inj h).symm⟩
      · cases h

/-- A held lease is not stale for a renewal. -/
theorem renew_stale {message : String} (hheld : Held a lease) :
    ¬ Answers host kind a (.renew lease duration) (.error (.stale message)) a' := by
  intro h
  have h := answers_stale h
  obtain ⟨current, hrow, hrequest, hlive⟩ := hheld
  cases hd : Authority.validateLeaseDuration kind duration with
  | error e =>
    have hp : (Authority.Call.renew lease duration).prepare host kind = .error e := by
      simp [Authority.Call.prepare, hd]
    obtain ⟨_, rfl⟩ := validateLeaseDuration_error hd
    unfold transact Authority.authority at h
    simp only [hp] at h
    cases h
  | ok d =>
    have hp : (Authority.Call.renew lease duration).prepare host kind =
        .ok (lease.request.semanticKey, (Authority.renewTransition lease d).map .renewed) := by
      simp [Authority.Call.prepare, hd]
    obtain hclock | ⟨now, hnow, htr⟩ := transact_error hp h
    · obtain ⟨_, he⟩ := requireUtc_error hclock
      cases he
    · have htr := map_error htr
      rw [hrow, Authority.renewTransition] at htr
      simp only [show (LeaseRow.leased current).request = current.request from rfl, hrequest,
        ne_eq, not_true_eq_false, if_false, LeaseRow.lease_leased, ok_bind, hlive now hnow,
        show (LeaseRow.leased current).terminal = none from rfl, Bool.false_eq_true] at htr
      obtain hadd | ⟨expiry, _, htr⟩ := bind_error htr
      · unfold addDuration at hadd
        split at hadd <;> cases hadd
      · split at htr
        · cases htr
        · obtain ⟨l, hl⟩ := leaseMake_current current expiry
          rw [← hrequest, hl] at htr
          cases htr

theorem publication_prepare {p : Publication} {t : Terminal}
    (h : publicationTerminal lease p = .ok t) :
    (publicationCall lease p).prepare host kind = .ok (lease.request.semanticKey,
      (Authority.terminalizeTransition lease t).map .terminal) := by
  cases p with
  | succeed resultRef =>
    have h : Terminal.make lease.request .succeeded lease.ownerId lease.attemptId lease.fence
        (some resultRef) none = .ok t := h
    simp [publicationCall, Authority.Call.prepare, h]
  | fail resultRef failure =>
    have h : Terminal.make lease.request .failed lease.ownerId lease.attemptId lease.fence
        (some resultRef) (some failure) = .ok t := h
    simp [publicationCall, Authority.Call.prepare, h]

/-- A publication is stale only where its lease is not held, and no terminal of its request is
there. -/
theorem publish_stale {p : Publication} {message : String}
    (h : Answers host kind a (publicationCall lease p) (.error (.stale message)) a') :
    ¬ Held a lease ∧ ∀ s, a.rows lease.request.semanticKey = some (.terminalized s) →
      s.request ≠ lease.request := by
  obtain ⟨t, hterminal⟩ := publicationTerminal_ok lease p
  obtain hclock | ⟨now, hnow, htr⟩ :=
    transact_error (publication_prepare hterminal) (answers_stale h)
  · obtain ⟨_, he⟩ := requireUtc_error hclock
    cases he
  have htr := map_error htr
  constructor
  · intro hheld
    obtain ⟨current, hrow, hrequest, hlive⟩ := hheld
    rw [hrow, Authority.terminalizeTransition] at htr
    simp only [show (LeaseRow.leased current).request = current.request from rfl, hrequest,
      ne_eq, not_true_eq_false, if_false, LeaseRow.lease_leased, ok_bind, hlive now hnow,
      show (LeaseRow.leased current).terminal = none from rfl, Bool.false_eq_true] at htr
    cases htr
  · intro s hrow hrequest
    rw [hrow, Authority.terminalizeTransition] at htr
    simp only [LeaseRow.terminalized, hrequest, ne_eq, not_true_eq_false, if_false] at htr
    split at htr <;> cases htr

/-- **A terminal is published again.** Where the authoritative terminal is the one asked for, the
authority returns it, unless the store fails. -/
theorem publish_replayed {p : Publication} {s t : Terminal} {r : Except Raised Terminal}
    (hterminal : publicationTerminal lease p = .ok t)
    (hrow : a.rows lease.request.semanticKey = some (.terminalized s)) (hsame : s.pyEq t = true)
    (h : (service host kind duration adjust).publish a lease p r a') :
    r = .ok s ∨ ∃ e, r = .error e ∧ e.definitive = false := by
  have h : Answers host kind a (publicationCall lease p) (r.map .terminal) a' := h
  have hnames := (terminal_names hterminal).1
  have hrequest : s.request = lease.request := (pyEq_fields hsame).1.trans hnames.request
  cases r with
  | error e =>
    refine .inr ⟨e, rfl, ?_⟩
    generalize hr : (Except.map Authority.Reply.terminal (.error e) :
      Except Raised Authority.Reply) = r at h
    cases h with
    | returned => cases hr
    | @raised e' ht =>
      cases hr
      obtain hclock | ⟨now, _, htr⟩ := transact_error (publication_prepare hterminal) ht
      · obtain ⟨_, rfl⟩ := requireUtc_error hclock
        rfl
      · have htr := map_error htr
        rw [hrow, Authority.terminalizeTransition] at htr
        simp only [LeaseRow.terminalized, hrequest, ne_eq, not_true_eq_false, if_false, hsame,
          if_true] at htr
        cases htr
    | failed hd =>
      cases hr
      exact hd
    | lost hd =>
      cases hr
      exact hd
  | ok x =>
    refine .inl ?_
    generalize hr : (Except.map Authority.Reply.terminal (.ok x) :
      Except Raised Authority.Reply) = r at h
    cases h with
    | returned ht =>
      cases hr
      obtain ⟨key, _, hstep⟩ := reply_step a.rows_ok ht
      have hstep : ∃ t', TerminalizeStep lease t' a.clock.wall
          (a.rows lease.request.semanticKey)
          ((a.commit host kind (publicationCall lease p)).rows lease.request.semanticKey) x := by
        cases p with
        | succeed => cases hstep with | succeed _ hstep => exact ⟨_, hstep⟩
        | fail => cases hstep with | fail _ hstep => exact ⟨_, hstep⟩
      obtain ⟨t', hstep⟩ := hstep
      rw [hrow] at hstep
      generalize hstored : some (LeaseRow.terminalized s) = row at hstep
      generalize (a.commit host kind (publicationCall lease p)).rows _ = row' at hstep
      cases hstep with
      | replayed => rw [LeaseRow.terminalized_inj (Option.some.inj hstored)]
      | installed =>
        exact absurd (Option.some.inj hstored).symm (LeaseRow.leased_ne_terminalized _ _)
    | raised => cases hr
    | failed => cases hr
    | lost => cases hr

/-- A renewal changes the expiry only. -/
theorem renewTransition_fields {d : Timedelta} {row row' : Option LeaseRow} {now : Datetime}
    {r : Lease} (h : Authority.renewTransition lease d row now = .ok (row', r)) :
    r.request = lease.request ∧ r.ownerId = lease.ownerId ∧ r.attemptId = lease.attemptId ∧
      r.fence = lease.fence := by
  unfold Authority.renewTransition at h
  cases row with
  | none => cases h
  | some row =>
    simp only at h
    split at h
    · cases h
    · rename_i hrequest
      have hrequest := not_ne_iff.mp hrequest
      split at h
      · cases h
      · obtain ⟨current, hcurrent, h⟩ := bind_ok h
        have hsame : current.request = row.request := by
          unfold LeaseRow.lease at hcurrent
          split at hcurrent
          · exact (leaseMake_ok hcurrent).1
          · cases hcurrent
        split at h
        · cases h
        · rename_i hstale
          have hfields : current.ownerId = lease.ownerId ∧ current.attemptId = lease.attemptId ∧
              current.fence = lease.fence := by
            simp only [isStale, Bool.or_eq_true, bne_iff_ne, decide_eq_true_eq, not_or,
              not_not] at hstale
            exact ⟨hstale.1.1.1.1, hstale.1.1.1.2, hstale.1.1.2⟩
          obtain ⟨expiry, _, h⟩ := bind_ok h
          split at h
          · cases pure_ok h
            exact ⟨hsame.trans hrequest, hfields⟩
          · obtain ⟨l, hl, h⟩ := bind_ok h
            cases pure_ok h
            obtain ⟨h1, h2, h3, h4, _⟩ := leaseMake_ok hl
            exact ⟨h1.trans (hsame.trans hrequest), h2.trans hfields.1, h3.trans hfields.2.1,
              h4.trans hfields.2.2⟩

theorem renew_fields {r : Lease}
    (h : (service host kind duration adjust).renew a lease (.ok r) a') :
    r.request = lease.request ∧ r.ownerId = lease.ownerId ∧ r.attemptId = lease.attemptId ∧
      r.fence = lease.fence := by
  have h : Answers host kind a (.renew lease duration) (.ok (.renewed r)) a' := h
  cases h with
  | returned ht =>
    unfold transact Authority.authority at ht
    simp only at ht
    split at ht
    · cases ht
    · rename_i key tr hp
      obtain ⟨d, _, hp⟩ := bind_ok hp
      cases pure_ok hp
      unfold Authority.MemoryStore.transaction at ht
      split at ht
      · cases ht
      · split at ht
        · cases ht
        · rename_i htr
          cases ht
          obtain ⟨l, hl, heq⟩ := transitionMap_ok htr
          cases heq
          exact renewTransition_fields hl

/-- All leases of a handle ask for the same terminals. -/
theorem renewals_terminal {initial : Lease}
    (h : Renewals (service host kind duration adjust) initial lease) (p : Publication) :
    lease.request = initial.request ∧ lease.fence = initial.fence ∧
      publicationTerminal lease p = publicationTerminal initial p := by
  have hfields : lease.request = initial.request ∧ lease.ownerId = initial.ownerId ∧
      lease.attemptId = initial.attemptId ∧ lease.fence = initial.fence := by
    induction h with
    | refl => exact ⟨rfl, rfl, rfl, rfl⟩
    | tail _ hrenew ih =>
      obtain ⟨_, _, hrenew⟩ := hrenew
      obtain ⟨h1, h2, h3, h4⟩ := renew_fields hrenew
      exact ⟨h1.trans ih.1, h2.trans ih.2.1, h3.trans ih.2.2.1, h4.trans ih.2.2.2⟩
  obtain ⟨h1, h2, h3, h4⟩ := hfields
  refine ⟨h1, h4, ?_⟩
  cases p <;> simp only [publicationTerminal, h1, h2, h3, h4]

end Leases

/-! ## Runs -/

/-- The publication asks for this terminal. -/
def Asks (lease : Lease) (p : Publication) (t : Terminal) : Prop :=
  ∃ asked, publicationTerminal lease p = .ok asked ∧ t.pyEq asked = true

/-- The authoritative terminal is the one that the publication asks for. -/
def Committed (a : Backend) (lease : Lease) (p : Publication) (t : Terminal) : Prop :=
  a.rows lease.request.semanticKey = some (.terminalized t) ∧ Asks lease p t

/-- Between the two calls the handle has asked the authority for the same terminal only, and no call
has returned it. -/
structure Undisturbed (log : List (Event Backend)) (i j : Nat) (t : Terminal) : Prop where
  same : ∀ k l q r a a', i < k → k < j → .published k l q r a a' ∈ log → Asks l q t
  unreturned : ∀ k q x a, i < k → k < j → .ended k (.publish q) (.ok x) a ∉ log

section Runs

variable {host kind duration adjust} {a b : Backend} {lease lease' initial : Lease}
  {p : Publication} {t : Terminal} {setting : Setting} {authority : Backend} {turn : Nat}
  {log : List (Event Backend)}

theorem Committed.stays (h : Committed a lease p t)
    (hmoves : Moves (service host kind duration adjust) a b) : Committed b lease p t :=
  ⟨terminal_stays hmoves h.1, h.2⟩

/-- All leases of a handle see the same terminal. -/
theorem Committed.renewals (h : Committed a lease p t)
    (hl : Renewals (service host kind duration adjust) initial lease)
    (hl' : Renewals (service host kind duration adjust) initial lease') :
    Committed a lease' p t := by
  obtain ⟨hrequest, _, hterminal⟩ := renewals_terminal hl p
  obtain ⟨hrequest', _, hterminal'⟩ := renewals_terminal hl' p
  obtain ⟨hrow, asked, hasked, hsame⟩ := h
  refine ⟨?_, asked, ?_, hsame⟩
  · rw [hrequest', ← hrequest]
    exact hrow
  · rw [hterminal', ← hterminal]
    exact hasked

/-- A lease whose terminal is authoritative is neither held nor over. -/
theorem Committed.not_fit (h : Committed a lease p t) : ¬ (Held a lease ∨ Over adjust a lease) := by
  obtain ⟨hrow, asked, hasked, hsame⟩ := h
  have hunleased : ∀ l, a.rows lease.request.semanticKey ≠ some (.leased l) := fun l hleased =>
    LeaseRow.leased_ne_terminalized l t (Option.some.inj (hleased.symm.trans hrow))
  intro hfit
  obtain ⟨current, hleased, _⟩ | hgone | ⟨_, current, hleased, _⟩ := hfit
  · exact hunleased current hleased
  · rw [gone_not_authoritative hgone hasked hrow] at hsame
    cases hsame
  · exact hunleased current hleased

section Retry

variable (h : Ledger (service host kind duration adjust) initial setting authority turn log)
  {i : Nat} {e : Raised} {b₁ b₂ : Backend} (hi : .published i lease p (.error e) b₁ b₂ ∈ log)

include h hi

/-- Up to a publication that failed for now, they all have. -/
theorem failed_published (he : e.definitive = false) {k : Nat} {l : Lease} {q : Publication}
    {r : Except Raised Terminal} {b₃ b₄ : Backend} (hk : .published k l q r b₃ b₄ ∈ log)
    (hki : k ≤ i) :
    ∃ e', r = .error e' ∧ e'.definitive = false := by
  obtain hlt | rfl := hki.lt_or_eq
  · exact (h.ordered k l q r b₃ b₄ i lease p (.error e) b₁ b₂ hk hi hlt).2
  · exact ⟨e, h.unique k l q r b₃ b₄ lease p (.error e) b₁ b₂ hk hi, he⟩

/-- After it, what asks for the committed terminal gets it, or fails for now. -/
theorem asked_published (hcommitted : Committed b₂ lease p t) {k : Nat} {l : Lease}
    {q : Publication} {r : Except Raised Terminal} {b₃ b₄ : Backend}
    (hk : .published k l q r b₃ b₄ ∈ log) (hik : i < k) (hasks : Asks l q t) :
    r = .ok t ∨ ∃ e', r = .error e' ∧ e'.definitive = false := by
  obtain ⟨_, hlease, _⟩ := h.published _ _ _ _ _ _ hi
  obtain ⟨hpublish, hl, _⟩ := h.published _ _ _ _ _ _ hk
  have hmoves := (h.ordered i lease p (.error e) b₁ b₂ k l q r b₃ b₄ hi hk hik).1
  have hrow := ((hcommitted.stays hmoves).renewals hlease hl).1
  obtain ⟨asked, hasked, hsame⟩ := hasks
  exact publish_replayed hasked hrow hsame hpublish

theorem republished (he : e.definitive = false) (hfit : ∀ ev ∈ log, Fit adjust ev)
    (hcommitted : Committed b₂ lease p t) {j : Nat} {d : Backend}
    {out : Except Raised (Option Terminal)} (hj : .ended j (.publish p) out d ∈ log) (hij : i < j)
    (hbetween : Undisturbed log i j t)
    (hopen : ∀ k < j, ∀ clean, setting.calls[k]? ≠ some (.exit clean)) :
    out = .ok (some t) ∨ ∃ l' e' b₃ b₄, .published j l' p (.error e') b₃ b₄ ∈ log ∧
      e'.definitive = false ∧ out = .error e' := by
  obtain ⟨_, hlease, _⟩ := h.published _ _ _ _ _ _ hi
  obtain houtcome := (h.ended _ _ _ _ hj).2.2.2 p rfl
  cases houtcome with
  | refused message hrefused =>
    obtain ⟨k, hk, q, x, b, hended⟩ | ⟨k, hk, clean, hexit⟩ | hnone := hrefused
    · -- a publication that returned was not before the failed one, nor after it
      obtain hki | hik := le_or_gt k i
      · generalize hok : (Except.ok x : Except Raised (Option Terminal)) = r at hended
        cases (h.ended _ _ _ _ hended).2.2.2 q rfl with
        | refused | lost => cases hok
        | asked l r b₃ b₄ hpublished =>
          obtain ⟨e', rfl, _⟩ := failed_published h hi he hpublished hki
          cases hok
      · exact absurd hended (hbetween.unreturned k q x b hik hk)
    · exact absurd hexit (hopen k hk clean)
    · exact absurd (hnone i lease p (.error e) b₁ b₂ hi) (by omega)
  | lost loss ev hev hloss hearlier =>
    exfalso
    cases ev with
    | renewed l r b =>
      cases r with
      | ok r => cases hloss
      | error e' =>
        obtain ⟨_, _, hl, _⟩ := h.renewed l (.error e') b hev
        have hmoves := h.before i lease p (.error e) b₁ b₂ l e' b hi hev
        exact ((hcommitted.stays hmoves).renewals hlease hl).not_fit (hfit _ hev)
    | published k l q r b₃ b₄ =>
      have hkj := hearlier k l q r b₃ b₄ rfl
      have hfailed : r = .ok t ∨ ∃ e', r = .error e' ∧ e'.definitive = false := by
        obtain hki | hik := le_or_gt k i
        · exact .inr (failed_published h hi he hev hki)
        · exact asked_published h hi hcommitted hev hik
            (hbetween.same k l q r b₃ b₄ hik hkj hev)
      obtain rfl | ⟨e', rfl, htransient⟩ := hfailed
      · cases hloss
      · simp [loss?, htransient] at hloss
    | entered | exiting | renewing | publishing | ended => cases hloss
  | asked l r b₃ b₄ hpublished =>
    obtain ⟨_, hl, _⟩ := h.published _ _ _ _ _ _ hpublished
    have hasks := (hcommitted.renewals hlease hl).2
    obtain rfl | ⟨e', rfl, he'⟩ := asked_published h hi hcommitted hpublished hij hasks
    · exact .inl rfl
    · exact .inr ⟨l, e', b₃, b₄, hpublished, he', rfl⟩

end Retry

/-- A publication that was stale had a lease that was over. -/
theorem published_over
    (h : Ledger (service host kind duration adjust) initial setting authority turn log)
    (hfit : ∀ ev ∈ log, Fit adjust ev) {k : Nat} {message : String} {b₁ b₂ : Backend}
    (hk : .published k lease p (.error (.stale message)) b₁ b₂ ∈ log) :
    Renewals (service host kind duration adjust) initial lease ∧
      Moves (service host kind duration adjust) b₁ authority ∧ Over adjust b₁ lease := by
  obtain ⟨hpublish, hl, hmoves, _⟩ := h.published _ _ _ _ _ _ hk
  refine ⟨hl, .head (.inr (.inr ⟨_, _, _, hpublish⟩)) hmoves, ?_⟩
  obtain ⟨hheld, hforeign⟩ := publish_stale hpublish
  obtain hfit | hover | ⟨s, hrow⟩ := hfit _ hk
  · exact absurd hfit hheld
  · exact hover
  · exact .inl ⟨_, hrow, .inl (hforeign s hrow)⟩

theorem stale_not_authoritative
    (h : Ledger (service host kind duration adjust) initial setting authority turn log)
    (hfit : ∀ ev ∈ log, Fit adjust ev) {j : Nat} {message : String} {d : Backend}
    (hj : .ended j (.publish p) (.error (.stale message)) d ∈ log) : ¬ Committed d initial p t := by
  intro hcommitted
  obtain ⟨_, _, hd, houtcome⟩ := h.ended _ _ _ _ hj
  have hnow := hcommitted.stays hd
  -- whatever was stale, its lease is over by now
  have hover : ∃ l b, Renewals (service host kind duration adjust) initial l ∧
      Moves (service host kind duration adjust) b authority ∧ Over adjust b l := by
    have hasked := houtcome p rfl
    generalize hout : (Except.error (.stale message) : Except Raised (Option Terminal)) = out
      at hasked
    cases hasked with
    | refused => cases hout
    | lost loss ev hev hloss _ =>
      have hstale : loss = .stale message := by
        cases loss <;> cases hout
        rfl
      subst hstale
      cases ev with
      | renewed l r b =>
        cases r with
        | ok r => cases hloss
        | error e' =>
          cases hloss
          obtain ⟨b', hrenew, hl, hmoves⟩ := h.renewed l (.error (.stale message)) b hev
          refine ⟨l, b, hl, .head (.inr (.inl ⟨_, _, hrenew⟩)) hmoves, ?_⟩
          exact (hfit _ hev).resolve_left fun hheld => renew_stale hheld hrenew
      | published k l q r b₃ b₄ =>
        cases r with
        | ok r => cases hloss
        | error e' =>
          have hloss : (if e'.definitive = true then some e' else none) = some (.stale message) :=
            hloss
          split at hloss
          · cases hloss
            obtain ⟨hl, hmoves, hover⟩ := published_over h hfit hev
            exact ⟨l, b₃, hl, hmoves, hover⟩
          · cases hloss
      | entered | exiting | renewing | publishing | ended => cases hloss
    | asked l r b₃ b₄ hpublished =>
      cases r with
      | ok r => cases hout
      | error e' =>
        cases hout
        obtain ⟨hl, hmoves, hover⟩ := published_over h hfit hpublished
        exact ⟨l, b₃, hl, hmoves, hover⟩
  obtain ⟨l, b, hl, hmoves, hover⟩ := hover
  exact (hnow.renewals .refl hl).not_fit (.inr (over_stays hmoves hover))

end Runs

/-- **A committed terminal is published again**, in every run whose transactions all meet the
handle's lease held or over, or a terminal in the case of a publication. The same publication after
one that committed and raised, undisturbed and in the open context, returns the committed terminal,
unless the store fails again; and no publication is stale while what it asks for is
authoritative. -/
theorem committed_terminal_republished (host : Host) (kind : StoreKind) (duration : Timedelta)
    (adjust : ClockReading → ClockReading → Prop) (initial : Lease) (a : Backend)
    (setting : Setting) (c : Run Backend)
    (hc : Runs (service host kind duration adjust) initial a setting c)
    (hfit : ∀ ev ∈ c.state.log, Fit adjust ev) :
    (∀ i lease p e b₁ b₂ t j out d, .published i lease p (.error e) b₁ b₂ ∈ c.state.log →
      e.definitive = false → Committed b₂ lease p t →
      .ended j (.publish p) out d ∈ c.state.log → i < j → Undisturbed c.state.log i j t →
      (∀ k < j, ∀ clean, setting.calls[k]? ≠ some (.exit clean)) →
      out = .ok (some t) ∨ ∃ l' e' b₃ b₄, .published j l' p (.error e') b₃ b₄ ∈ c.state.log ∧
        e'.definitive = false ∧ out = .error e') ∧
    (∀ j p message d t, .ended j (.publish p) (.error (.stale message)) d ∈ c.state.log →
      ¬ Committed d initial p t) := by
  have hledger := (runs_sound hc).ledger
  refine ⟨?_, ?_⟩
  · intro i lease p e b₁ b₂ t j out d hi he hcommitted hj hij hbetween hopen
    exact republished hledger hi he hfit hcommitted hj hij hbetween hopen
  · exact fun j p message d t hj => stale_not_authoritative hledger hfit hj

/-! ## Retries after a lost connection -/

def sampleBackend : Backend where
  rows := (Authority.authority sampleHost .postgresql).after noRows [sampleAcquire "a" 0]
  clock := sampleClock 5000
  rows_ok := after_rowsOk _

/-- A clock that is never set back. -/
def sampleAdjust (c c' : ClockReading) : Prop := c.wall ≤ c'.wall

def sampleService : Service Backend := service sampleHost .postgresql ⟨10000⟩ sampleAdjust

def samplePublication : Publication := .succeed sampleReference

def sampleError : Raised := .other "OperationalError" "the connection is lost"

def sampleRetry : Setting where
  calls := [.enter, .publish samplePublication, .publish samplePublication]
  wakeups _ := 1
  elsewhere := 0

/-- The authority after the publication has committed. -/
def samplePublished : Backend :=
  sampleBackend.commit sampleHost .postgresql (publicationCall sampleLease samplePublication)

/-- The publication has committed, its connection was lost, and the renewer runs again. -/
def sampleFailed : Run Backend where
  state :=
    { handle := { Handle.init sampleLease with
        entered := true, renewerGeneration := 1, thread := .waiting }
      authority := samplePublished
      log := [.entered, .ended 0 .enter (.ok none) sampleBackend,
        .publishing sampleLease samplePublication,
        .published 1 sampleLease samplePublication (.error sampleError) sampleBackend
          samplePublished,
        .ended 1 (.publish samplePublication) (.error sampleError) samplePublished]
      turn := 2 }
  prog := Function.update (Function.update (fun t => some (sampleRetry.script t)) (.renewer 0)
    (some (.pure ()))) .main (some (client [.publish samplePublication]))

theorem runs_sampleFailed :
    Runs sampleService sampleLease sampleBackend sampleRetry sampleFailed := by
  have h : Runs sampleService sampleLease sampleBackend sampleRetry (start _ _) := .refl
  have h := Runs.step h .main .enter (.ok ()) rfl ⟨rfl, rfl⟩
  have h := Runs.step h .main .startThread () rfl rfl
  have h := Runs.step h .main (.ended .enter (.ok none)) () rfl rfl
  have h := Runs.step h .main .prepare (.ok none) rfl ⟨rfl, rfl⟩
  have h := Runs.step h (.renewer 0) .begin () rfl ⟨rfl, rfl, rfl⟩
  have h := Runs.step h (.renewer 0) .wait true rfl ⟨rfl, rfl⟩
  have h := Runs.step h (.renewer 0) .finish () rfl rfl
  have h := Runs.step h .main .join true rfl ⟨.inl ⟨rfl, rfl⟩, rfl⟩
  have h := Runs.step h .main .readLoss none rfl ⟨rfl, rfl⟩
  have h := Runs.step h .main .readLease sampleLease rfl ⟨rfl, rfl⟩
  have h := Runs.step h .main (.callPublish sampleLease samplePublication) () rfl rfl
  have h := Runs.step h .main (.publish sampleLease samplePublication) (.error sampleError)
    rfl ⟨_, .lost rfl (show transact _ _ _ _ = .ok (.terminal sampleTerminal) from rfl), rfl⟩
  have h := Runs.step h .main (.abort sampleError) true rfl ⟨rfl, rfl⟩
  have h := Runs.step h .main .newThread () rfl rfl
  have h := Runs.step h .main .startThread () rfl rfl
  have h := Runs.step h .main (.ended (.publish samplePublication) (.error sampleError)) () rfl rfl
  convert h using 1
  refine congrArg (Config.mk sampleFailed.state) ?_
  funext t
  cases t with
  | main | other => rfl
  | renewer n => cases n <;> rfl

theorem samplePublished_committed :
    Committed samplePublished sampleLease samplePublication sampleTerminal :=
  ⟨rfl, sampleTerminal, rfl, sampleTerminal.pyEq_refl⟩

/-- Without another renewal the retry returns the committed terminal. -/
theorem committed_terminal_republished_sample : ∃ c,
    Runs sampleService sampleLease sampleBackend sampleRetry c ∧
    (∀ ev ∈ c.state.log, Fit sampleAdjust ev) ∧
    c.state.turn = 3 ∧ ∀ out d, .ended 2 (.publish samplePublication) out d ∈ c.state.log →
      out = .ok (some sampleTerminal) ∨ ∃ l' e' b₃ b₄,
        .published 2 l' samplePublication (.error e') b₃ b₄ ∈ c.state.log ∧
        e'.definitive = false ∧ out = .error e' := by
  have h := runs_sampleFailed
  have h := Runs.step h .main .prepare (.ok none) rfl ⟨rfl, rfl⟩
  have h := Runs.step h (.renewer 1) .begin () rfl ⟨rfl, rfl, rfl⟩
  have h := Runs.step h (.renewer 1) .wait true rfl ⟨rfl, rfl⟩
  have h := Runs.step h (.renewer 1) .finish () rfl rfl
  have h := Runs.step h .main .join true rfl ⟨.inl ⟨rfl, rfl⟩, rfl⟩
  have h := Runs.step h .main .readLoss none rfl ⟨rfl, rfl⟩
  have h := Runs.step h .main .readLease sampleLease rfl ⟨rfl, rfl⟩
  have h := Runs.step h .main (.callPublish sampleLease samplePublication) () rfl rfl
  have h := Runs.step h .main (.publish sampleLease samplePublication) (.ok sampleTerminal)
    rfl ⟨_, .returned (show transact _ _ _ _ = .ok (.terminal sampleTerminal) from rfl), rfl⟩
  have h := Runs.step h .main .commit () rfl rfl
  have h := Runs.step h .main (.ended (.publish samplePublication) (.ok (some sampleTerminal))) ()
    rfl rfl
  obtain ⟨c, hc, hturn, hlog⟩ : ∃ c, Runs sampleService sampleLease sampleBackend sampleRetry c ∧
      c.state.turn = 3 ∧ ∃ d, c.state.log = sampleFailed.state.log ++
        [.publishing sampleLease samplePublication,
          .published 2 sampleLease samplePublication (.ok sampleTerminal) samplePublished d,
          .ended 2 (.publish samplePublication) (.ok (some sampleTerminal)) d] :=
    ⟨_, h, rfl, _, rfl⟩
  have hfit : ∀ ev ∈ c.state.log, Fit sampleAdjust ev := by
    have hheld : Held sampleBackend sampleLease :=
      ⟨sampleLease, rfl, rfl, fun now hnow => by cases hnow; rfl⟩
    obtain ⟨d, hlog⟩ := hlog
    rw [hlog]
    simp only [sampleFailed, List.cons_append, List.nil_append, List.forall_mem_cons, Fit]
    exact ⟨trivial, trivial, trivial, .inl hheld, trivial, trivial,
      .inr (.inr ⟨sampleTerminal, rfl⟩), trivial, fun _ hev => by cases hev⟩
  refine ⟨c, hc, hfit, hturn, ?_⟩
  intro out d hj
  refine (committed_terminal_republished sampleHost .postgresql ⟨10000⟩ sampleAdjust sampleLease
    sampleBackend sampleRetry c hc hfit).1 1 sampleLease samplePublication sampleError sampleBackend
    samplePublished sampleTerminal 2 out d ?_ rfl samplePublished_committed hj (by decide) ?_ ?_
  · obtain ⟨_, hlog⟩ := hlog
    rw [hlog]
    simp [sampleFailed]
  · exact ⟨fun k _ _ _ _ _ hk hk' => by omega, fun k _ _ _ hk hk' => by omega⟩
  · intro k hk clean hexit
    obtain rfl | rfl : k = 0 ∨ k = 1 := by omega
    · cases hexit
    · cases hexit

/-- One renewal in between, and the retry is stale while what it asks for is authoritative. -/
theorem renewal_breaks_retry : ∃ c, Runs sampleService sampleLease sampleBackend sampleRetry c ∧
    .published 1 sampleLease samplePublication (.error sampleError) sampleBackend samplePublished ∈
      c.state.log ∧
    sampleError.definitive = false ∧
    Committed samplePublished sampleLease samplePublication sampleTerminal ∧
    c.state.handle.exited = false ∧
    .ended 2 (.publish samplePublication) (.error (.stale "effect lease is stale"))
      samplePublished ∈ c.state.log := by
  have h := runs_sampleFailed
  have h := Runs.step h (.renewer 1) .begin () rfl ⟨rfl, rfl, rfl⟩
  have h := Runs.step h (.renewer 1) .wait false rfl ⟨rfl, rfl⟩
  have h := Runs.step h (.renewer 1) .readLease sampleLease rfl ⟨rfl, rfl⟩
  have h := Runs.step h (.renewer 1) (.callRenew sampleLease) () rfl rfl
  have h := Runs.step h (.renewer 1) (.renew sampleLease)
    (.error (.stale "effect lease is stale")) rfl
    ⟨_, .raised (show transact _ _ _ _ = .error (.stale "effect lease is stale") from rfl), rfl⟩
  have h := Runs.step h (.renewer 1) (.recordLoss (.stale "effect lease is stale")) () rfl rfl
  have h := Runs.step h .main .prepare (.ok (some (.stale "effect lease is stale"))) rfl ⟨rfl, rfl⟩
  have h := Runs.step h .main .readLoss (some (.stale "effect lease is stale")) rfl ⟨rfl, rfl⟩
  have h := Runs.step h .main (.abort (.stale "effect lease is stale")) false rfl ⟨rfl, rfl⟩
  have h := Runs.step h .main (.ended (.publish samplePublication)
    (.error (.stale "effect lease is stale"))) () rfl rfl
  refine ⟨_, h, ?_, rfl, samplePublished_committed, rfl, ?_⟩
  · exact .tail _ (.tail _ (.tail _ (.head _)))
  · exact List.mem_append_right _ (.head _)

end DrStore.Leases.Republication
