import DrStore.Leases.History

/-! # Fences, exclusion and superseded leases

Readings of the run climbed by every key: what the fence and the expiry can do, which attempts
can be told ACQUIRED, and which lease values are still accepted. A clock that steps back lets
the current holder re-acquire at a time before an older holder's expiry; `Fenced.exclusive`
says that nothing else can. -/
namespace DrStore.Leases.Fencing
open DrStore.Base.Calendar DrStore.Base.FencedLease DrStore.Base.Runs
open DrStore.Store.ContentAddressing DrStore.Leases.Models DrStore.Leases.Authority
open DrStore.Leases.Protocol DrStore.Leases.History

variable (host : Host) (kind : StoreKind)

/-- The lease a reply carries, if any. -/
def Reply.lease? : Reply → Option Lease
  | .acquired r => r.lease
  | .renewed l => some l
  | .terminal _ => none

/-- The call `e`, made after the run `evs`, returned the lease `l` for `key`. -/
def Issues (evs : List Event) (e : Event) (key : String) (l : Lease) : Prop :=
  target host kind e.call = some key ∧
    ∃ reply, (authority host kind).reply noRows evs e = .ok reply ∧ Reply.lease? reply = some l

/-- The call `e`, made after the run `evs`, is an acquire of `key` that returned ACQUIRED. -/
def Acquires (evs : List Event) (e : Event) (key ownerId attemptId : String)
    (r : AcquireResult) : Prop :=
  (∃ request duration, e.call = .acquire request ownerId attemptId duration ∧
    request.semanticKey = key) ∧
  (authority host kind).reply noRows evs e = .ok (.acquired r) ∧ r.outcome = .acquired

/-! ## What one call says about the row it leaves -/

section
variable {host kind}

/-- A lease is returned only when it is, after the call, the stored one. -/
theorem callStep_lease {call key now row row' reply l}
    (h : CallStep host call key now row row' reply) (hl : Reply.lease? reply = some l) :
    row' = some (.leased l) := by
  cases h with
  | acquire h =>
    cases h with
    | granted _ _ _ _ _ hr | reacquired _ _ _ _ hr | takenOver _ _ _ _ _ _ _ _ hr =>
      simp only [Reply.lease?, hr, Option.some.injEq] at hl
      rw [hl]
    | conflict _ hr | replayed _ hr | busy _ _ _ hr | recovered _ _ _ _ _ _ _ _ hr =>
      simp [Reply.lease?, hr] at hl
  | renew h => cases h <;> cases hl <;> rfl
  | succeed | fail | verify => cases hl

theorem issues_row {evs : List Event} {e : Event} {key : String} {l : Lease}
    (h : Issues host kind evs e key l) :
    (authority host kind).after noRows (evs ++ [e]) key = some (.leased l) := by
  obtain ⟨htarget, reply, hreply, hl⟩ := h
  obtain ⟨k, hk, hstep⟩ := reply_step (after_rowsOk evs) hreply
  cases htarget.symm.trans hk
  rw [Machine.after_concat]
  exact callStep_lease hstep hl

/-- ACQUIRED means a first grant, a repeated acquire of the live lease, or a takeover. -/
theorem acquireStep_acquired {request ownerId attemptId now row row' r}
    (h : AcquireStep request ownerId attemptId now row row' r) (hout : r.outcome = .acquired) :
    ∃ l, r.lease = some l ∧ l.ownerId = ownerId ∧ l.attemptId = attemptId ∧
      (row = none ∨ row = some (.leased l) ∨
        ∃ g, row = some (.leased g) ∧ g.expiresAt ≤ now) := by
  cases h with
  | @granted l _ _ h2 h3 _ _ hr => exact ⟨l, by rw [hr], h2, h3, Or.inl rfl⟩
  | @reacquired l _ _ h2 h3 _ hr => exact ⟨l, by rw [hr], h2, h3, Or.inr (Or.inl rfl)⟩
  | @takenOver g l _ _ hexp _ _ h2 h3 _ _ hr =>
    exact ⟨l, by rw [hr], h2, h3, Or.inr (Or.inr ⟨g, rfl, hexp⟩)⟩
  | replayed _ hr =>
    simp only [hr, AcquireOutcome.ofTerminal] at hout
    split at hout <;> cases hout
  | conflict _ hr | busy _ _ _ hr | recovered _ _ _ _ _ _ _ _ hr => simp [hr] at hout

theorem acquires_step {evs : List Event} {e : Event} {key ownerId attemptId : String}
    {r : AcquireResult} (h : Acquires host kind evs e key ownerId attemptId r) :
    ∃ l, r.lease = some l ∧ l.ownerId = ownerId ∧ l.attemptId = attemptId ∧
      Issues host kind evs e key l ∧
      ((authority host kind).after noRows evs key = none ∨
        (authority host kind).after noRows evs key = some (.leased l) ∨
        ∃ g, (authority host kind).after noRows evs key = some (.leased g) ∧
          g.expiresAt ≤ e.clock.wall) := by
  obtain ⟨⟨request, duration, hcall, rfl⟩, hreply, hout⟩ := h
  obtain ⟨k, hk, hstep⟩ := reply_step (after_rowsOk evs) hreply
  rw [hcall] at hstep
  obtain ⟨rfl, r', hr', -, hstep⟩ := callStep_acquire hstep
  cases hr'
  obtain ⟨l, hl, howner, hattempt, hrow⟩ := acquireStep_acquired hstep hout
  exact ⟨l, hl, howner, hattempt, ⟨hk, _, hreply, hl⟩, hrow⟩

/-! ## Fences along a run -/

theorem run_fence_le {pre post : List Event} {key : String} {row row' : LeaseRow}
    (h : (authority host kind).after noRows pre key = some row)
    (h' : (authority host kind).after noRows (pre ++ post) key = some row') :
    row.fence ≤ row'.fence := by
  have hb := below_run host kind pre post key
  rw [h, h'] at hb
  have hs := (after_rowsOk pre key row h).1
  have hs' := (after_rowsOk (pre ++ post) key row' h').1
  cases hs <;> cases hs' <;> exact Below.fence_le hb

theorem run_expiry_le {pre post : List Event} {key : String} {l l' : Lease}
    (h : (authority host kind).after noRows pre key = some (.leased l))
    (h' : (authority host kind).after noRows (pre ++ post) key = some (.leased l')) :
    l.expiresAt ≤ l'.expiresAt := by
  have hb := below_run host kind pre post key
  rw [h, h', cellOf_leased, cellOf_leased] at hb
  exact hb.expiry_le

theorem run_holder_eq {pre post : List Event} {key : String} {l l' : Lease}
    (h : (authority host kind).after noRows pre key = some (.leased l))
    (h' : (authority host kind).after noRows (pre ++ post) key = some (.leased l'))
    (hf : l.fence = l'.fence) : l.ownerId = l'.ownerId ∧ l.attemptId = l'.attemptId := by
  have hb := below_run host kind pre post key
  rw [h, h', cellOf_leased, cellOf_leased] at hb
  exact Prod.mk.inj (hb.holder_eq hf)

theorem run_row_kept {pre post : List Event} {key : String} {row : LeaseRow}
    (h : (authority host kind).after noRows pre key = some row) :
    ∃ row', (authority host kind).after noRows (pre ++ post) key = some row' := by
  have hb := below_run host kind pre post key
  rw [h] at hb
  have hs := (after_rowsOk pre key row h).1
  match h' : (authority host kind).after noRows (pre ++ post) key with
  | some row' => exact ⟨row', rfl⟩
  | none =>
    rw [h'] at hb
    cases hs with
    | leased => exact hb.elim
    | terminalized => cases hb

/-- A fence changes only when an acquire takes over an expired lease: it goes up by one. -/
theorem fence_change_step {evs : List Event} {e : Event} {key : String} {row row' : LeaseRow}
    (h : (authority host kind).after noRows evs key = some row)
    (h' : (authority host kind).after noRows (evs ++ [e]) key = some row')
    (hf : row.fence ≠ row'.fence) :
    ∃ g l request ownerId attemptId duration r, row = .leased g ∧ row' = .leased l ∧
      l.fence = g.fence + 1 ∧ g.expiresAt ≤ e.clock.wall ∧
      e.call = .acquire request ownerId attemptId duration ∧
      l.ownerId = ownerId ∧ l.attemptId = attemptId ∧
      Acquires host kind evs e key ownerId attemptId r := by
  rw [Machine.after_concat] at h'
  have hne : ((authority host kind).step ((authority host kind).after noRows evs) e).1 key ≠
      (authority host kind).after noRows evs key := by
    rw [h, h']
    rintro heq
    cases heq
    exact hf rfl
  obtain ⟨htarget, reply, hreply, hstep⟩ := changed_step (after_rowsOk evs) hne
  rw [h, h'] at hstep
  generalize hcall : e.call = call at hstep
  generalize hbefore : some row = before at hstep
  generalize hafter : some row' = after' at hstep
  cases hstep with
  | @acquire _ _ _ _ _ _ _ r hstep =>
    cases hstep with
    | granted => cases hbefore
    | conflict | replayed | reacquired | busy => cases hbefore; cases hafter; exact absurd rfl hf
    | recovered _ _ _ _ _ _ _ h8 =>
      cases hbefore; cases hafter
      exact absurd h8.symm hf
    | @takenOver g l _ h1 h2 h3 h4 h5 h6 h7 h8 hr =>
      cases hbefore; cases hafter
      refine ⟨g, l, _, _, _, _, r, rfl, rfl, h7, h2, rfl, h5, h6, ⟨⟨_, _, hcall, rfl⟩, hreply, ?_⟩⟩
      rw [hr]
  | renew hstep =>
    cases hstep with
    | kept => cases hbefore; cases hafter; exact absurd rfl hf
    | extended _ _ _ _ h5 => cases hbefore; cases hafter; exact absurd h5.symm hf
  | succeed hn hstep | fail hn hstep =>
    cases hstep with
    | replayed => cases hbefore; cases hafter; exact absurd rfl hf
    | installed => cases hbefore; cases hafter; exact absurd hn.fence.symm hf
  | verify _ hstep => cases hstep; cases hbefore; cases hafter; exact absurd rfl hf

/-- Who is told ACQUIRED after another attempt was issued a lease to `l.expiresAt`: an attempt
that comes at or after that time, or one that took the key over at or after that time and
acquires again. -/
theorem issued_then_acquired {pre mid : List Event} {e e' : Event}
    {key ownerId attemptId : String} {l : Lease} {r : AcquireResult}
    (hi : Issues host kind pre e key l)
    (ha : Acquires host kind (pre ++ e :: mid) e' key ownerId attemptId r)
    (hne : ¬ (ownerId = l.ownerId ∧ attemptId = l.attemptId)) :
    l.expiresAt ≤ e'.clock.wall ∨
    ∃ m₁ w m₂ r', mid = m₁ ++ w :: m₂ ∧ l.expiresAt ≤ w.clock.wall ∧
      Acquires host kind (pre ++ e :: m₁) w key ownerId attemptId r' := by
  have hrow := issues_row hi
  obtain ⟨l', -, rfl, rfl, -, hcase⟩ := acquires_step ha
  rw [show pre ++ e :: mid = pre ++ [e] ++ mid by simp] at hcase
  rcases hcase with hnone | hsame | ⟨g, hg, hexp⟩
  · obtain ⟨row', hrow'⟩ := @run_row_kept host kind _ mid _ _ hrow
    rw [hnone] at hrow'
    cases hrow'
  · right
    have hfence : l.fence ≠ l'.fence := by
      intro hf
      obtain ⟨h1, h2⟩ := run_holder_eq hrow hsame hf
      exact hne ⟨h1.symm, h2.symm⟩
    -- the event at which the stored fence became that of `l'`
    let P : Rows → Prop := fun rows => ∃ row, rows key = some row ∧ row.fence = l'.fence
    have hnP : ¬ P ((authority host kind).after noRows (pre ++ [e])) := by
      rintro ⟨row, h1, h2⟩
      rw [hrow] at h1
      cases h1
      exact hfence h2
    have hP : P ((authority host kind).after ((authority host kind).after noRows (pre ++ [e]))
        mid) := by
      rw [← Machine.after_append]
      exact ⟨_, hsame, rfl⟩
    obtain ⟨m₁, w, m₂, rfl, hbefore, row₂, hrow₂, hf₂⟩ := Machine.crossing _ mid hnP hP
    rw [← Machine.after_append] at hbefore hrow₂
    obtain ⟨row₁, hrow₁⟩ := @run_row_kept host kind _ m₁ _ _ hrow
    have hf₁ : row₁.fence ≠ row₂.fence := by
      rw [hf₂]
      exact fun hf => hbefore ⟨row₁, hrow₁, hf⟩
    rw [← List.append_assoc] at hrow₂
    obtain ⟨g, lw, _, _, _, _, r', rfl, rfl, -, hexp, -, rfl, rfl, hacq⟩ :=
      fence_change_step hrow₁ hrow₂ hf₁
    rw [show pre ++ [e] ++ (m₁ ++ w :: m₂) = pre ++ [e] ++ m₁ ++ [w] ++ m₂ by simp] at hsame
    obtain ⟨h1, h2⟩ := run_holder_eq hrow₂ hsame hf₂
    rw [show pre ++ [e] ++ m₁ = pre ++ e :: m₁ by simp, h1, h2] at hacq
    exact ⟨m₁, w, m₂, r', rfl, le_trans (run_expiry_le hrow hrow₁) hexp, hacq⟩
  · exact Or.inl (le_trans (run_expiry_le hrow hg) hexp)

/-- Two leases issued for one key at one fence name one attempt. -/
theorem issued_same_fence {evs evs' : List Event} {e e' : Event} {key : String} {l l' : Lease}
    (hpre : evs ++ [e] <+: evs' ++ [e']) (hi : Issues host kind evs e key l)
    (hi' : Issues host kind evs' e' key l') (hf : l.fence = l'.fence) :
    l.ownerId = l'.ownerId ∧ l.attemptId = l'.attemptId := by
  obtain ⟨post, hpost⟩ := hpre
  have hrow' := issues_row hi'
  rw [← hpost] at hrow'
  exact run_holder_eq (issues_row hi) hrow' hf

theorem row_fence_valid {evs : List Event} {key : String} {row : LeaseRow}
    (h : (authority host kind).after noRows evs key = some row) :
    1 ≤ row.fence ∧ row.fence ≤ maxFence := by
  cases (after_rowsOk evs key row h).1 with
  | leased l => exact l.fence_valid
  | terminalized t => exact t.fence_valid

theorem first_fence {evs : List Event} {e : Event} {key : String} {row : LeaseRow}
    (h : (authority host kind).after noRows evs key = none)
    (h' : (authority host kind).after noRows (evs ++ [e]) key = some row) : row.fence = 1 := by
  have hmove := @step_move host kind _ (@after_rowsOk host kind evs) e key
  rw [← Machine.after_concat, h, h', cellOf_none] at hmove
  cases (after_rowsOk _ key row h').1 with
  | leased l => exact hmove.first_fence
  | terminalized t => exact hmove.first_fence

end

/-! ## Fencing and mutual exclusion -/

/-- No acquire by another attempt is told ACQUIRED before an issued lease's expiry. This is
too strong: a clock may step back (`exclusive_fails`). -/
def Exclusive (key : String) : Prop :=
  ∀ pre mid e e' l ownerId attemptId r, Issues host kind pre e key l →
    Acquires host kind (pre ++ e :: mid) e' key ownerId attemptId r →
    ¬ (ownerId = l.ownerId ∧ attemptId = l.attemptId) → l.expiresAt ≤ e'.clock.wall

structure Fenced (key : String) : Prop where
  starts_at_one : ∀ evs e row, (authority host kind).after noRows evs key = none →
    (authority host kind).after noRows (evs ++ [e]) key = some row → row.fence = 1
  in_range : ∀ evs row, (authority host kind).after noRows evs key = some row →
    1 ≤ row.fence ∧ row.fence ≤ maxFence
  never_decreases : ∀ evs post row, (authority host kind).after noRows evs key = some row →
    ∃ row', (authority host kind).after noRows (evs ++ post) key = some row' ∧
      row.fence ≤ row'.fence
  changes_by_one : ∀ evs e row row', (authority host kind).after noRows evs key = some row →
    (authority host kind).after noRows (evs ++ [e]) key = some row' → row.fence ≠ row'.fence →
    row'.fence = row.fence + 1 ∧
      (∃ request ownerId attemptId duration,
        e.call = .acquire request ownerId attemptId duration) ∧
      ∃ expiry, row.expiresAt = some expiry ∧ expiry ≤ e.clock.wall
  expiry_grows : ∀ evs post row row', (authority host kind).after noRows evs key = some row →
    (authority host kind).after noRows (evs ++ post) key = some row' → row.state = .leased →
    row'.state = .leased →
    ∃ expiry expiry', row.expiresAt = some expiry ∧ row'.expiresAt = some expiry' ∧
      expiry ≤ expiry'
  exclusive : ∀ pre mid e e' l ownerId attemptId r, Issues host kind pre e key l →
    Acquires host kind (pre ++ e :: mid) e' key ownerId attemptId r →
    ¬ (ownerId = l.ownerId ∧ attemptId = l.attemptId) →
    l.expiresAt ≤ e'.clock.wall ∨
    ∃ m₁ w m₂ r', mid = m₁ ++ w :: m₂ ∧ l.expiresAt ≤ w.clock.wall ∧
      Acquires host kind (pre ++ e :: m₁) w key ownerId attemptId r'
  exclusive_in_order : ∀ pre mid e e' l ownerId attemptId r, Issues host kind pre e key l →
    Acquires host kind (pre ++ e :: mid) e' key ownerId attemptId r →
    ¬ (ownerId = l.ownerId ∧ attemptId = l.attemptId) →
    (∀ w ∈ mid, w.clock.wall ≤ e'.clock.wall) → l.expiresAt ≤ e'.clock.wall
  one_attempt_per_fence : ∀ run evs e evs' e' ownerId attemptId ownerId' attemptId' r r' l l',
    evs ++ [e] <+: run → evs' ++ [e'] <+: run → Acquires host kind evs e key ownerId attemptId r →
    Acquires host kind evs' e' key ownerId' attemptId' r' → r.lease = some l →
    r'.lease = some l' → l.fence = l'.fence → l.ownerId = l'.ownerId ∧ l.attemptId = l'.attemptId

theorem shape_leased {row : LeaseRow} (hs : Shape row) (h : row.state = .leased) :
    ∃ l, row = .leased l := by
  cases hs with
  | leased l => exact ⟨l, rfl⟩
  | terminalized t =>
    simp only [LeaseRow.terminalized, StoredState.ofTerminal] at h
    split at h <;> cases h

/-- **Fencing and mutual exclusion**, along every run of calls on every key. -/
theorem fencing_run (key : String) : Fenced host kind key where
  starts_at_one _ _ _ := first_fence
  in_range _ _ := row_fence_valid
  never_decreases evs post row h := by
    obtain ⟨row', h'⟩ := @run_row_kept host kind evs post key row h
    exact ⟨row', h', run_fence_le h h'⟩
  changes_by_one evs e row row' h h' hf := by
    obtain ⟨g, l, request, ownerId, attemptId, duration, r, rfl, rfl, hfence, hexp, hcall, -⟩ :=
      fence_change_step h h' hf
    exact ⟨hfence, ⟨request, ownerId, attemptId, duration, hcall⟩, g.expiresAt, rfl, hexp⟩
  expiry_grows evs post row row' h h' hl hl' := by
    obtain ⟨l, rfl⟩ := shape_leased (after_rowsOk evs key row h).1 hl
    obtain ⟨l', rfl⟩ := shape_leased (after_rowsOk (evs ++ post) key row' h').1 hl'
    exact ⟨l.expiresAt, l'.expiresAt, rfl, rfl, run_expiry_le h h'⟩
  exclusive _ _ _ _ _ _ _ _ := issued_then_acquired
  exclusive_in_order pre mid e e' l ownerId attemptId r hi ha hne horder := by
    rcases issued_then_acquired hi ha hne with h | ⟨m₁, w, m₂, r', rfl, hw, -⟩
    · exact h
    · exact le_trans hw (horder w (by simp))
  one_attempt_per_fence run evs e evs' e' _ _ _ _ r r' l l' hpre hpre' ha ha' hl hl' hf := by
    obtain ⟨g, hg, -, -, hi, -⟩ := acquires_step ha
    obtain ⟨g', hg', -, -, hi', -⟩ := acquires_step ha'
    cases hl.symm.trans hg
    cases hl'.symm.trans hg'
    rcases List.prefix_or_prefix_of_prefix hpre hpre' with h | h
    · exact issued_same_fence h hi hi' hf
    · obtain ⟨howner, hattempt⟩ := issued_same_fence h hi' hi hf.symm
      exact ⟨howner.symm, hattempt.symm⟩

/-- `a` is issued a lease to 10 ms, `b` takes over at 10 ms, and the clock steps back: at 5 ms
`b` acquires again, before the expiry `a` was issued. -/
theorem exclusive_fails : ¬ Exclusive sampleHost .memory "job" := by
  intro h
  have hacq : ∃ r, Acquires sampleHost .memory
      ([] ++ sampleAcquire "a" 0 :: [sampleAcquire "b" 10000]) (sampleAcquire "b" 5000) "job" "b"
      "1" r := ⟨_, ⟨_, _, rfl, rfl⟩, rfl, rfl⟩
  obtain ⟨r, hr⟩ := hacq
  have := h [] [sampleAcquire "b" 10000] (sampleAcquire "a" 0) (sampleAcquire "b" 5000) sampleLease
    "b" "1" r ⟨rfl, _, rfl, rfl⟩ hr (by decide)
  exact absurd this (by decide)

/-! ## Superseded leases are shut out -/

/-- `e` renews with lease value `L`, or installs a terminal with it. -/
def Uses (evs : List Event) (e : Event) (L : Lease) : Prop :=
  ((∃ duration, e.call = .renew L duration) ∧
    ∃ l, (authority host kind).reply noRows evs e = .ok (.renewed l)) ∨
  (((∃ resultRef, e.call = .succeed L resultRef) ∨
      ∃ resultRef failure, e.call = .fail L resultRef failure) ∧
    (authority host kind).after noRows (evs ++ [e]) L.request.semanticKey ≠
      (authority host kind).after noRows evs L.request.semanticKey)

/-- After the run `evs`, `L` is the stored lease, it was written by the call that issued it and
the row has not changed since. -/
structure Current (evs : List Event) (now : Datetime) (L : Lease) : Prop where
  stored : (authority host kind).after noRows evs L.request.semanticKey = some (.leased L)
  live : now < L.expiresAt
  written : ∃ pre w mid, evs = pre ++ w :: mid ∧
    Issues host kind pre w L.request.semanticKey L ∧
    (authority host kind).after noRows pre L.request.semanticKey ≠
      (authority host kind).after noRows (pre ++ [w]) L.request.semanticKey ∧
    ∀ m₁ m₂, mid = m₁ ++ m₂ → (authority host kind).after noRows (pre ++ w :: m₁)
      L.request.semanticKey = some (.leased L)
  undisturbed : ∀ pre c mid, evs = pre ++ c :: mid →
    Issues host kind pre c L.request.semanticKey L →
    ∀ m₁ m₂, mid = m₁ ++ m₂ → (authority host kind).after noRows (pre ++ c :: m₁)
      L.request.semanticKey = some (.leased L)
  fenced : ∀ pre post row, evs = pre ++ post →
    (authority host kind).after noRows pre L.request.semanticKey = some row →
    row.fence ≤ L.fence
  not_renewed : ∀ pre w post duration l, evs = pre ++ w :: post → w.call = .renew L duration →
    (authority host kind).reply noRows pre w = .ok (.renewed l) → l = L

section
variable {host kind}

/-- A row that a call made `leased L` carries the lease its reply carries. -/
theorem callStep_wrote {call key now row row' reply L}
    (h : CallStep host call key now row row' reply) (hrow' : row' = some (.leased L))
    (hne : row ≠ row') : Reply.lease? reply = some L := by
  cases h with
  | acquire h =>
    cases h with
    | granted _ _ _ _ _ hr | takenOver _ _ _ _ _ _ _ _ hr =>
      cases LeaseRow.leased_inj (Option.some.inj hrow')
      simp [Reply.lease?, hr]
    | conflict | replayed | reacquired | busy => exact absurd rfl hne
    | recovered =>
      exact absurd (Option.some.inj hrow').symm (LeaseRow.leased_ne_terminalized _ _)
  | renew h =>
    cases h with
    | kept => exact absurd rfl hne
    | extended =>
      cases LeaseRow.leased_inj (Option.some.inj hrow')
      rfl
  | succeed _ h | fail _ h =>
    cases h with
    | replayed => exact absurd rfl hne
    | installed => exact absurd (Option.some.inj hrow').symm (LeaseRow.leased_ne_terminalized _ _)
  | verify _ h => cases h; exact absurd rfl hne

theorem terminalizeStep_wrote {lease terminal now row row' t}
    (h : TerminalizeStep lease terminal now row row' t) (hne : row' ≠ row) :
    row = some (.leased lease) ∧ now < lease.expiresAt := by
  cases h with
  | replayed => exact absurd rfl hne
  | installed h => exact ⟨rfl, h⟩

/-- A lease value that is used is the stored one, and the time is before its expiry. -/
theorem uses_stored {evs : List Event} {e : Event} {L : Lease} (h : Uses host kind evs e L) :
    (authority host kind).after noRows evs L.request.semanticKey = some (.leased L) ∧
      e.clock.wall < L.expiresAt := by
  rcases h with ⟨⟨duration, hcall⟩, l, hreply⟩ | ⟨hcall, hne⟩
  · obtain ⟨k, -, hstep⟩ := reply_step (after_rowsOk evs) hreply
    rw [hcall] at hstep
    generalize ((authority host kind).step ((authority host kind).after noRows evs) e).1 k = row'
      at hstep
    generalize hrow : (authority host kind).after noRows evs k = row at hstep
    cases hstep with
    | renew h =>
      cases h with
      | kept hlive | extended hlive => exact ⟨hrow, hlive⟩
  · rw [Machine.after_concat] at hne
    obtain ⟨-, reply, -, hstep⟩ := changed_step (after_rowsOk evs) hne
    generalize e.call = call at hcall hstep
    rcases hcall with ⟨resultRef, rfl⟩ | ⟨resultRef, failure, rfl⟩
    · cases hstep with
      | succeed _ h => exact terminalizeStep_wrote h hne
    · cases hstep with
      | fail _ h => exact terminalizeStep_wrote h hne

/-- A lease stored at two points of a run was stored in between. -/
theorem stored_between {pre m₁ m₂ : List Event} {c : Event} {key : String} {L : Lease}
    (h : (authority host kind).after noRows (pre ++ [c]) key = some (.leased L))
    (h' : (authority host kind).after noRows (pre ++ c :: (m₁ ++ m₂)) key = some (.leased L)) :
    (authority host kind).after noRows (pre ++ c :: m₁) key = some (.leased L) := by
  rw [show pre ++ c :: (m₁ ++ m₂) = pre ++ [c] ++ m₁ ++ m₂ by simp] at h'
  rw [show pre ++ c :: m₁ = pre ++ [c] ++ m₁ by simp, ← h]
  exact sandwich host kind (h.trans h'.symm)

/-- A stored lease was written by the call that issued it. -/
theorem stored_written {evs : List Event} {key : String} {L : Lease}
    (h : (authority host kind).after noRows evs key = some (.leased L)) :
    ∃ pre w mid, evs = pre ++ w :: mid ∧ Issues host kind pre w key L ∧
      (authority host kind).after noRows pre key ≠
        (authority host kind).after noRows (pre ++ [w]) key ∧
      (authority host kind).after noRows (pre ++ [w]) key = some (.leased L) := by
  let P : Rows → Prop := fun rows => rows key = some (.leased L)
  have hnP : ¬ P noRows := by
    intro hP
    cases hP
  obtain ⟨pre, w, mid, heq, hbefore, hafter⟩ := Machine.crossing (authority host kind) evs hnP h
  have hne : (authority host kind).after noRows pre key ≠
      (authority host kind).after noRows (pre ++ [w]) key := by
    intro hsame
    exact hbefore (hsame.trans hafter)
  rw [Machine.after_concat] at hne
  obtain ⟨htarget, reply, hreply, hstep⟩ := changed_step (after_rowsOk pre) hne.symm
  have hrow' := hafter
  simp only [P, Machine.after_concat] at hrow'
  exact ⟨pre, w, mid, heq, ⟨htarget, reply, hreply, callStep_wrote hstep hrow' hne⟩,
    by rwa [Machine.after_concat], hafter⟩

end

/-- **Superseded leases are shut out.** A call that renews, or installs a terminal, with lease
value `L` finds `L` stored and unexpired; `L` was written by the call that issued it, no call
changed the row since, no higher fence was ever granted, and `L` was not renewed to another
lease. -/
theorem superseded_leases_shut_out {evs : List Event} {e : Event} {L : Lease}
    (h : Uses host kind evs e L) : Current host kind evs e.clock.wall L where
  stored := (uses_stored h).1
  live := (uses_stored h).2
  written := by
    have hstored := (uses_stored h).1
    obtain ⟨pre, w, mid, rfl, hi, hne, hrow⟩ := stored_written hstored
    refine ⟨pre, w, mid, rfl, hi, hne, ?_⟩
    rintro m₁ m₂ rfl
    exact stored_between hrow hstored
  undisturbed := by
    rintro pre c mid rfl hi m₁ m₂ rfl
    exact stored_between (issues_row hi) (uses_stored h).1
  fenced := by
    rintro pre post row rfl hrow
    exact run_fence_le hrow (uses_stored h).1
  not_renewed := by
    rintro pre w post duration l rfl hcall hreply
    have hstored := (uses_stored h).1
    have hbefore := (uses_stored (Or.inl ⟨⟨duration, hcall⟩, l, hreply⟩ : Uses host kind pre w L)).1
    -- the row is `L` before the renewal and now, so it is `L` right after it
    rw [show pre ++ w :: post = pre ++ [w] ++ post by simp] at hstored
    have hafter := sandwich host kind (hbefore.trans hstored.symm)
    obtain ⟨k, hk, hstep⟩ := reply_step (after_rowsOk pre) hreply
    rw [hcall] at hstep
    have hkey : k = L.request.semanticKey := by cases hstep; rfl
    have hnew := callStep_lease hstep rfl
    rw [← Machine.after_concat, hkey, hafter, hbefore] at hnew
    exact (LeaseRow.leased_inj (Option.some.inj hnew)).symm

theorem superseded_leases_shut_out_sample :
    Uses sampleHost .memory [sampleAcquire "a" 0] sampleSucceed sampleLease ∧
    Current sampleHost .memory [sampleAcquire "a" 0] sampleSucceed.clock.wall sampleLease := by
  have h : Uses sampleHost .memory [sampleAcquire "a" 0] sampleSucceed sampleLease := by
    refine Or.inr ⟨Or.inl ⟨_, rfl⟩, ?_⟩
    intro heq
    exact LeaseRow.leased_ne_terminalized sampleLease sampleTerminal (Option.some.inj heq.symm)
  exact ⟨h, superseded_leases_shut_out sampleHost .memory h⟩

end DrStore.Leases.Fencing
