import DrStore.Leases.Fencing

/-! # Work that must not be redriven is granted once

A row whose request is NO_REDRIVE is never taken over: its owner, attempt and fence are those
of the first grant for good. Once its lease has expired, and the clock does not go back, the
only change left is the recovery terminal that names that grant. -/
namespace DrStore.Leases.Recovery
open DrStore.Base.Calendar DrStore.Base.Fallible DrStore.Base.Runs DrStore.Leases.Models
open DrStore.Leases.Authority DrStore.Leases.Protocol DrStore.Leases.History
open DrStore.Leases.Fencing

section
variable {host : Host} {kind : StoreKind} {key : String}

/-! ## One grant -/

/-- The same grant, perhaps extended. -/
structure SameGrant (l lease : Lease) : Prop where
  request : l.request = lease.request
  owner : l.ownerId = lease.ownerId
  attempt : l.attemptId = lease.attemptId
  fence : l.fence = lease.fence

theorem SameGrant.trans {a b c : Lease} (h : SameGrant a b) (h' : SameGrant b c) :
    SameGrant a c :=
  ⟨h.request.trans h'.request, h.owner.trans h'.owner, h.attempt.trans h'.attempt,
    h.fence.trans h'.fence⟩

/-- The row is leased under the grant, or terminal. -/
def Granted (lease : Lease) (row : Option LeaseRow) : Prop :=
  (∃ l, row = some (.leased l) ∧ SameGrant l lease) ∨ ∃ t, row = some (.terminalized t)

/-- A call keeps the grant: a takeover would need another policy. -/
theorem callStep_granted {call now row row' reply} {lease : Lease}
    (hpolicy : lease.request.replayPolicy = .noRedrive)
    (h : CallStep host call key now row row' reply) (hrow : Granted lease row) :
    Granted lease row' := by
  obtain ⟨l, hleased, hsame⟩ | ⟨t, ht⟩ := hrow
  · cases h with
    | acquire h =>
      cases h with
      | granted => cases hleased
      | conflict => exact .inl ⟨l, hleased, hsame⟩
      | replayed => exact .inr ⟨_, rfl⟩
      | reacquired => exact .inl ⟨l, hleased, hsame⟩
      | busy => exact .inl ⟨l, hleased, hsame⟩
      | recovered => exact .inr ⟨_, rfl⟩
      | takenOver hreq _ hother =>
        cases LeaseRow.leased_inj (Option.some.inj hleased)
        rw [← hreq, hsame.request] at hother
        exact absurd hpolicy hother
    | renew h =>
      cases h with
      | kept => exact .inl ⟨l, hleased, hsame⟩
      | @extended l' _ h1 h2 h3 h4 _ =>
        cases LeaseRow.leased_inj (Option.some.inj hleased)
        exact .inl ⟨_, rfl, SameGrant.trans ⟨h1, h2, h3, h4⟩ hsame⟩
    | succeed _ h | fail _ h =>
      cases h with
      | replayed => exact .inr ⟨_, rfl⟩
      | installed => exact .inr ⟨_, rfl⟩
    | verify _ h =>
      cases h
      exact .inr ⟨_, rfl⟩
  · rw [(callStep_terminalized h ht).1]
    exact .inr ⟨t, ht⟩

theorem step_granted {rows : Rows} (hs : RowsOk rows) {lease : Lease}
    (hpolicy : lease.request.replayPolicy = .noRedrive) (h : Granted lease (rows key)) (e : Event) :
    Granted lease (((authority host kind).step rows e).1 key) := by
  by_cases hne : ((authority host kind).step rows e).1 key = rows key
  · rw [hne]
    exact h
  · obtain ⟨_, reply, _, hstep⟩ := changed_step hs hne
    exact callStep_granted hpolicy hstep h

theorem run_granted {rows : Rows} (hs : RowsOk rows) {lease : Lease}
    (hpolicy : lease.request.replayPolicy = .noRedrive) (h : Granted lease (rows key))
    (evs : List Event) : Granted lease ((authority host kind).after rows evs key) := by
  induction evs generalizing rows with
  | nil => exact h
  | cons e evs ih => exact ih (step_rowsOk e hs) (step_granted hs hpolicy h e)

/-! ## After expiry -/

/-- The row holds the expired lease, or the recovery terminal that names it. -/
def Abandoned (l : Lease) (row : Option LeaseRow) : Prop :=
  row = some (.leased l) ∨
    ∃ t, row = some (.terminalized t) ∧ Names t l ∧ t.outcome = .recoveryRequired

/-- The lease value a call presents. -/
def presented : Call → Option Lease
  | .renew l _ | .succeed l _ | .fail l _ _ => some l
  | .acquire _ _ _ _ | .verifyTerminal _ => none

/-- An expired lease is presented in vain, and what becomes of it is its recovery. -/
theorem callStep_expired {call now row row' reply} {l : Lease}
    (hpolicy : l.request.replayPolicy = .noRedrive) (hlate : l.expiresAt ≤ now)
    (h : CallStep host call key now row row' reply) (hrow : row = some (.leased l)) :
    Abandoned l row' ∧ presented call = none := by
  have hlive : ∀ {l' : Lease}, some (LeaseRow.leased l') = some (.leased l) →
      ¬ now < l'.expiresAt := by
    intro l' heq
    cases LeaseRow.leased_inj (Option.some.inj heq)
    exact not_lt.mpr hlate
  have hnot : ∀ {t : Terminal}, some (LeaseRow.terminalized t) ≠ some (.leased l) :=
    fun heq => LeaseRow.leased_ne_terminalized _ _ (Option.some.inj heq).symm
  cases h with
  | acquire h =>
    refine ⟨?_, rfl⟩
    cases h with
    | granted => cases hrow
    | conflict => exact .inl hrow
    | replayed => exact absurd hrow hnot
    | reacquired _ _ _ hbefore => exact absurd hbefore (hlive hrow)
    | busy _ _ hbefore => exact absurd hbefore (hlive hrow)
    | recovered hreq _ _ h1 h2 h3 h4 h5 =>
      cases LeaseRow.leased_inj (Option.some.inj hrow)
      exact .inr ⟨_, rfl, ⟨h1.trans hreq.symm, h3, h4, h5⟩, h2⟩
    | takenOver hreq _ hother =>
      cases LeaseRow.leased_inj (Option.some.inj hrow)
      rw [← hreq] at hother
      exact absurd hpolicy hother
  | renew h =>
    cases h with
    | kept hbefore => exact absurd hbefore (hlive hrow)
    | extended hbefore => exact absurd hbefore (hlive hrow)
  | succeed _ h | fail _ h =>
    cases h with
    | replayed => exact absurd hrow hnot
    | installed hbefore => exact absurd hbefore (hlive hrow)
  | verify _ h =>
    cases h
    exact absurd hrow hnot

/-- A terminal equal to a recovery terminal is one too. -/
theorem pyEq_outcome {a b : Terminal} (h : a.pyEq b = true) : a.outcome = b.outcome := by
  simp only [Terminal.pyEq, Bool.and_eq_true, beq_iff_eq] at h
  exact h.1.1.1.1.1.2

/-- Only the same terminal is published over a terminal. -/
theorem terminalizeStep_outcome {lease : Lease} {terminal t t' : Terminal} {now row row'}
    (h : TerminalizeStep lease terminal now row row' t') (hrow : row = some (.terminalized t)) :
    terminal.outcome = t.outcome := by
  cases h with
  | replayed hsame =>
    cases LeaseRow.terminalized_inj (Option.some.inj hrow)
    exact (pyEq_outcome hsame).symm
  | installed => exact absurd (Option.some.inj hrow) (LeaseRow.leased_ne_terminalized _ _)

/-- Holders publish SUCCEEDED or FAILED, so none of them is accepted over a recovery. -/
theorem prepare_recovered {call : Call} {k : String} {tr : Transition Reply} {now : Datetime}
    {row row' : Option LeaseRow} {reply : Reply} {t : Terminal}
    (hp : call.prepare host kind = .ok (k, tr)) (hshape : ∀ x ∈ row, Shape x)
    (h : tr row now = .ok (row', reply)) (hrow : row = some (.terminalized t))
    (ht : t.outcome = .recoveryRequired) : presented call = none := by
  cases call with
  | acquire | verifyTerminal => rfl
  | renew lease duration =>
    obtain ⟨d, _, hp⟩ := bind_ok hp
    cases pure_ok hp
    obtain ⟨r, hr, _⟩ := transitionMap_ok h
    have hstep := renewTransition_step hshape hr
    cases hstep with
    | kept | extended => exact absurd (Option.some.inj hrow) (LeaseRow.leased_ne_terminalized _ _)
  | succeed lease resultRef | fail lease resultRef failure =>
    obtain ⟨terminal, hterminal, hp⟩ := bind_ok hp
    cases pure_ok hp
    obtain ⟨r, hr, _⟩ := transitionMap_ok h
    have houtcome := terminalizeStep_outcome (terminalizeTransition_step hshape hr) hrow
    rw [(terminalMake_ok hterminal).2.1, ht] at houtcome
    cases houtcome

/-! ## Authority time -/

/-- The authority time of an event's transaction on the key: none when the event is rejected
before the store, goes to another key, or reads a clock that is not UTC. -/
def authorityTime (host : Host) (kind : StoreKind) (key : String) (e : Event) : Option Datetime :=
  if target host kind e.call = some key then
    match requireUtc e.clock "authority clock" with
    | .ok now => some now
    | .error _ => none
  else none

/-- An event that returns ran its transition at its authority time. -/
theorem step_ok {rows rows' : Rows} {e : Event} {reply : Reply}
    (h : (authority host kind).step rows e = (rows', .ok reply)) :
    ∃ k tr row', e.call.prepare host kind = .ok (k, tr) ∧
      authorityTime host kind k e = some e.clock.wall ∧
      tr (rows k) e.clock.wall = .ok (row', reply) ∧ rows' = rows.set k row' := by
  simp only [authority] at h
  cases hp : e.call.prepare host kind with
  | error err =>
    rw [hp] at h
    cases h
  | ok prepared =>
    obtain ⟨k, tr⟩ := prepared
    rw [hp] at h
    simp only [MemoryStore.transaction] at h
    have htarget : target host kind e.call = some k := by simp only [target, hp]
    cases hu : requireUtc e.clock "authority clock" with
    | error err =>
      rw [hu] at h
      cases h
    | ok now =>
      rw [hu] at h
      have hnow : now = e.clock.wall := by
        unfold requireUtc at hu
        split at hu
        · cases hu
        · split at hu
          · exact (Except.ok.inj hu).symm
          · cases hu
      subst hnow
      cases htr : tr (rows k) e.clock.wall with
      | error err =>
        simp only [htr] at h
        cases h
      | ok out =>
        obtain ⟨row', r⟩ := out
        simp only [htr] at h
        cases h
        refine ⟨k, tr, row', rfl, ?_, htr, rfl⟩
        rw [authorityTime, if_pos htarget, hu]

theorem presented_key {call k now row row' reply} {L : Lease}
    (h : CallStep host call k now row row' reply) (hL : presented call = some L) :
    L.request.semanticKey = k := by
  cases h with
  | acquire | verify => cases hL
  | renew | succeed | fail =>
    cases hL
    rfl

/-- The event is at or after `expiry`, if it is a transaction on the key. -/
def Late (host : Host) (kind : StoreKind) (key : String) (expiry : Datetime) (e : Event) : Prop :=
  ∀ now, authorityTime host kind key e = some now → expiry ≤ now

/-- The event presents a lease for the key and raises. -/
def Refused (host : Host) (kind : StoreKind) (key : String) (rows : Rows) (e : Event) : Prop :=
  ∀ L, presented e.call = some L → L.request.semanticKey = key →
    ∃ err, ((authority host kind).step rows e).2 = .error err

theorem late_step {rows : Rows} (hs : RowsOk rows) {l : Lease} {e : Event}
    (hpolicy : l.request.replayPolicy = .noRedrive) (hlate : Late host kind key l.expiresAt e)
    (h : Abandoned l (rows key)) :
    Abandoned l (((authority host kind).step rows e).1 key) ∧ Refused host kind key rows e := by
  rcases step_cases hs e with ⟨err, he⟩ | ⟨_, _, reply, _, _, he⟩
  · rw [he]
    refine ⟨h, ?_⟩
    intro L _ _
    exact ⟨err, by rw [he]⟩
  · obtain ⟨k, tr, row', hp, htime, htr, hrows⟩ := step_ok he
    have hshape : ∀ x ∈ rows k, Shape x := fun x hx => (hs k x hx).1
    have hstep := prepare_step hp hshape htr
    rw [he, hrows]
    by_cases hk : key = k
    · subst hk
      simp only [Rows.set_self]
      obtain ⟨hrow', hnone⟩ : Abandoned l row' ∧ presented e.call = none := by
        obtain hleased | ⟨t, ht, hnames, hout⟩ := h
        · exact callStep_expired hpolicy (hlate _ htime) hstep hleased
        · refine ⟨?_, prepare_recovered hp hshape htr ht hout⟩
          rw [(callStep_terminalized hstep ht).1]
          exact .inr ⟨t, ht, hnames, hout⟩
      refine ⟨hrow', ?_⟩
      intro L hL
      rw [hnone] at hL
      cases hL
    · simp only [Rows.set_ne row' hk]
      refine ⟨h, ?_⟩
      intro L hL hkey
      exact absurd (hkey.symm.trans (presented_key hstep hL)) hk

theorem late_run {rows : Rows} (hs : RowsOk rows) {l : Lease}
    (hpolicy : l.request.replayPolicy = .noRedrive) (h : Abandoned l (rows key)) (evs : List Event)
    (hlate : ∀ e ∈ evs, Late host kind key l.expiresAt e) :
    Abandoned l ((authority host kind).after rows evs key) := by
  induction evs generalizing rows with
  | nil => exact h
  | cons e evs ih =>
    exact ih (step_rowsOk e hs) (late_step hs hpolicy (hlate e List.mem_cons_self) h).1
      (fun e' he' => hlate e' (List.mem_cons_of_mem e he'))

/-! ## The run -/

/-- The authority times of the transactions on the key do not decrease. -/
def Steady (host : Host) (kind : StoreKind) (key : String) (evs : List Event) : Prop :=
  (evs.filterMap (authorityTime host kind key)).Pairwise (· ≤ ·)

theorem steady_late {pre post : List Event} {x : Event} {now expiry : Datetime}
    (h : Steady host kind key (pre ++ x :: post)) (hx : authorityTime host kind key x = some now)
    (hexp : expiry ≤ now) : ∀ e ∈ x :: post, Late host kind key expiry e := by
  intro e he t ht
  rw [Steady, List.filterMap_append, List.filterMap_cons_some hx, List.pairwise_append,
    List.pairwise_cons] at h
  rcases List.mem_cons.mp he with rfl | he
  · cases hx.symm.trans ht
    exact hexp
  · exact le_trans hexp (h.2.1.1 t (List.mem_filterMap.mpr ⟨e, he, ht⟩))

/-- A row seen in a run that creates it at `c` is seen after `c`. -/
theorem created_before {pre₀ rest pre post : List Event} {c : Event} {row : LeaseRow}
    (hnone : (authority host kind).after noRows pre₀ key = none)
    (hrow : (authority host kind).after noRows pre key = some row)
    (heq : pre₀ ++ c :: rest = pre ++ post) : ∃ mid, pre = pre₀ ++ [c] ++ mid := by
  rcases List.append_eq_append_iff.mp heq with ⟨mid, hpre, hpost⟩ | ⟨mid, hpre₀, -⟩
  · cases mid with
    | nil =>
      rw [List.append_nil] at hpre
      rw [hpre, hnone] at hrow
      cases hrow
    | cons d mid =>
      cases hpost
      exact ⟨mid, by rw [hpre]; simp⟩
  · obtain ⟨row', hrow'⟩ := @run_row_kept host kind pre mid key row hrow
    rw [← hpre₀, hnone] at hrow'
    cases hrow'

/-- What a run owes the lease first granted on a key. -/
structure GrantedOnce (host : Host) (kind : StoreKind) (key : String) (evs : List Event)
    (lease : Lease) : Prop where
  fence : lease.fence = 1
  /-- Every ACQUIRED carries this grant. -/
  acquired : ∀ pre e post ownerId attemptId r, evs = pre ++ e :: post →
    Acquires host kind pre e key ownerId attemptId r → ∃ l, r.lease = some l ∧ SameGrant l lease
  /-- A transaction that finds the row still leased and expired finds this grant. -/
  expired : ∀ pre x post l now, evs = pre ++ x :: post →
    (authority host kind).after noRows pre key = some (.leased l) →
    authorityTime host kind key x = some now → l.expiresAt ≤ now → SameGrant l lease
  /-- From there on a call that presents a lease for the key raises. -/
  refused : ∀ pre x post l now, evs = pre ++ x :: post →
    (authority host kind).after noRows pre key = some (.leased l) →
    authorityTime host kind key x = some now → l.expiresAt ≤ now →
    ∀ mid e rest, x :: post = mid ++ e :: rest →
      Refused host kind key ((authority host kind).after noRows (pre ++ mid)) e
  /-- From there on the only terminal is the recovery of this grant. -/
  recovered : ∀ pre x post l now, evs = pre ++ x :: post →
    (authority host kind).after noRows pre key = some (.leased l) →
    authorityTime host kind key x = some now → l.expiresAt ≤ now →
    ∀ mid rest row t, x :: post = mid ++ rest →
      (authority host kind).after noRows (pre ++ mid) key = some row → row.terminal = some t →
      t.outcome = .recoveryRequired ∧ Names t lease

/-- The first row of a key is a lease. -/
theorem created_leased {pre : List Event} {c : Event} {row : LeaseRow}
    (hnone : (authority host kind).after noRows pre key = none)
    (hrow : (authority host kind).after noRows (pre ++ [c]) key = some row) :
    ∃ lease, row = .leased lease := by
  have hmove := @step_move host kind _ (@after_rowsOk host kind pre) c key
  rw [← Machine.after_concat, hnone, hrow, cellOf_none] at hmove
  cases (after_rowsOk _ key row hrow).1 with
  | leased lease => exact ⟨lease, rfl⟩
  | terminalized t => cases hmove

section
variable {pre₀ rest : List Event} {c : Event} {lease : Lease}

/-- Every lease the row ever holds is the grant it was created with. -/
theorem run_sameGrant (hnone : (authority host kind).after noRows pre₀ key = none)
    (hrow : (authority host kind).after noRows (pre₀ ++ [c]) key = some (.leased lease))
    (hpolicy : lease.request.replayPolicy = .noRedrive) {pre post : List Event} {l : Lease}
    (heq : pre₀ ++ c :: rest = pre ++ post)
    (hl : (authority host kind).after noRows pre key = some (.leased l)) : SameGrant l lease := by
  obtain ⟨mid, rfl⟩ := created_before hnone hl heq
  have hgranted : Granted lease ((authority host kind).after noRows (pre₀ ++ [c]) key) :=
    .inl ⟨lease, hrow, rfl, rfl, rfl, rfl⟩
  have hkept := @run_granted host kind key _ (after_rowsOk (pre₀ ++ [c])) lease hpolicy hgranted mid
  rw [← Machine.after_append, hl] at hkept
  obtain ⟨l', hl', hsame⟩ | ⟨t, ht⟩ := hkept
  · rw [LeaseRow.leased_inj (Option.some.inj hl')]
    exact hsame
  · exact absurd (Option.some.inj ht) (LeaseRow.leased_ne_terminalized _ _)

/-- From a transaction at or after the expiry on, the row is abandoned and every event late. -/
theorem run_abandoned {pre post mid rest : List Event} {x : Event} {l : Lease} {now : Datetime}
    (hsteady : Steady host kind key (pre ++ x :: post))
    (hl : (authority host kind).after noRows pre key = some (.leased l))
    (hpolicy : l.request.replayPolicy = .noRedrive)
    (hx : authorityTime host kind key x = some now) (hexp : l.expiresAt ≤ now)
    (hmid : x :: post = mid ++ rest) :
    Abandoned l ((authority host kind).after noRows (pre ++ mid) key) ∧
      ∀ e ∈ rest, Late host kind key l.expiresAt e := by
  have hlate := steady_late hsteady hx hexp
  rw [hmid] at hlate
  refine ⟨?_, fun e he => hlate e (List.mem_append_right mid he)⟩
  rw [Machine.after_append]
  exact late_run (after_rowsOk pre) hpolicy (.inl hl) mid
    (fun e he => hlate e (List.mem_append_left rest he))

end

/-- **Work that must not be redriven is granted once.** A run whose authority times on the key
do not decrease, and whose row for the key was created by a NO_REDRIVE request, owes everything
to the lease it was created with. -/
theorem no_redrive_granted_once {pre₀ rest : List Event} {c : Event} {row : LeaseRow}
    (hsteady : Steady host kind key (pre₀ ++ c :: rest))
    (hnone : (authority host kind).after noRows pre₀ key = none)
    (hrow : (authority host kind).after noRows (pre₀ ++ [c]) key = some row)
    (hpolicy : row.request.replayPolicy = .noRedrive) :
    ∃ lease, row = .leased lease ∧ GrantedOnce host kind key (pre₀ ++ c :: rest) lease := by
  obtain ⟨lease, rfl⟩ := created_leased hnone hrow
  have hsame : ∀ {pre post l}, pre₀ ++ c :: rest = pre ++ post →
      (authority host kind).after noRows pre key = some (.leased l) → SameGrant l lease :=
    fun heq hl => run_sameGrant hnone hrow hpolicy heq hl
  have hpolicies : ∀ {pre post l}, pre₀ ++ c :: rest = pre ++ post →
      (authority host kind).after noRows pre key = some (.leased l) →
      l.request.replayPolicy = .noRedrive := by
    intro pre post l heq hl
    rw [(hsame heq hl).request]
    exact hpolicy
  refine ⟨lease, rfl, ?_, ?_, ?_, ?_, ?_⟩
  · exact first_fence hnone hrow
  · intro pre e post ownerId attemptId r heq hacquires
    obtain ⟨l, hl, _, _, hissues, _⟩ := acquires_step hacquires
    have heq' : pre₀ ++ c :: rest = pre ++ [e] ++ post := by
      rw [heq, List.append_assoc]
      rfl
    exact ⟨l, hl, hsame heq' (issues_row hissues)⟩
  · intro pre x post l now heq hl _ _
    exact hsame heq hl
  · intro pre x post l now heq hl hx hexp mid e rest' hmid
    obtain ⟨habandoned, hlate⟩ :=
      run_abandoned (heq ▸ hsteady) hl (hpolicies heq hl) hx hexp hmid
    exact (late_step (after_rowsOk _) (hpolicies heq hl) (hlate e List.mem_cons_self)
      habandoned).2
  · intro pre x post l now heq hl hx hexp mid rest' row' t hmid hrow' ht
    obtain ⟨habandoned, _⟩ := run_abandoned (heq ▸ hsteady) hl (hpolicies heq hl) hx hexp hmid
    rw [hrow', shape_terminal (after_rowsOk _ key row' hrow').1 ht] at habandoned
    obtain hleased | ⟨t', ht', hnames, hout⟩ := habandoned
    · exact absurd (Option.some.inj hleased).symm (LeaseRow.leased_ne_terminalized _ _)
    · cases LeaseRow.terminalized_inj (Option.some.inj ht')
      have hgrant := hsame heq hl
      exact ⟨hout, hnames.request.trans hgrant.request, hnames.owner.trans hgrant.owner,
        hnames.attempt.trans hgrant.attempt, hnames.fence.trans hgrant.fence⟩

end

/-! The first holder expires, and another client's acquire recovers its work. -/

def onceAcquire (ownerId : String) (micros : Fin 100000) : Event :=
  ⟨.acquire (sampleRequest .noRedrive) ownerId "1" ⟨10000⟩, sampleClock micros⟩

def onceLease : Lease := { sampleLease with request := sampleRequest .noRedrive }

theorem no_redrive_recovered_sample :
    Steady sampleHost .memory "job" ([] ++ onceAcquire "a" 0 :: [onceAcquire "b" 10000]) ∧
    (∃ t, (authority sampleHost .memory).after noRows [onceAcquire "a" 0, onceAcquire "b" 10000]
      "job" = some (.terminalized t)) ∧
    GrantedOnce sampleHost .memory "job" ([] ++ onceAcquire "a" 0 :: [onceAcquire "b" 10000])
      onceLease := by
  have hsteady : Steady sampleHost .memory "job"
      ([] ++ onceAcquire "a" 0 :: [onceAcquire "b" 10000]) := by
    have htimes : ([] ++ onceAcquire "a" 0 :: [onceAcquire "b" 10000]).filterMap
        (authorityTime sampleHost .memory "job") =
        [(sampleClock 0).wall, (sampleClock 10000).wall] := rfl
    rw [Steady, htimes]
    decide
  obtain ⟨lease, hlease, honce⟩ := @no_redrive_granted_once sampleHost .memory "job" []
    [onceAcquire "b" 10000] (onceAcquire "a" 0) (.leased onceLease) hsteady rfl rfl rfl
  cases LeaseRow.leased_inj hlease
  exact ⟨hsteady, ⟨_, rfl⟩, honce⟩

end DrStore.Leases.Recovery
