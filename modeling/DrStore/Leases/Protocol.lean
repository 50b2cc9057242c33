import DrStore.Base.Fallible
import DrStore.Base.FencedLease
import DrStore.Leases.Authority

/-! # What one call does to its row

One relation per transition says everything a call that returns can have done, guards
included; the `…_step` theorems derive them from the code. They are the only place where the
transitions are unfolded. `CallStep.move` is the refinement: whatever the call, the row makes
one move of the abstract fenced lease, at the authority time of the call. -/
namespace DrStore.Leases.Protocol
open DrStore.Base.Calendar DrStore.Base.Fallible DrStore.Base.FencedLease DrStore.Base.Runs
open DrStore.Store.ContentAddressing DrStore.Leases.Models DrStore.Leases.Authority

/-- The two shapes of a stored row. -/
inductive Shape : LeaseRow → Prop
  | leased (l : Lease) : Shape (.leased l)
  | terminalized (t : Terminal) : Shape (.terminalized t)

/-! ## Step relations -/

inductive AcquireStep (request : LeaseRequest) (ownerId attemptId : String) (now : Datetime) :
    Option LeaseRow → Option LeaseRow → AcquireResult → Prop
  | granted {l : Lease} {r : AcquireResult} : l.request = request → l.ownerId = ownerId →
      l.attemptId = attemptId → l.fence = 1 → now < l.expiresAt →
      r.toAcquireFields = ⟨request, .acquired, some l, none, none, none, none⟩ →
      AcquireStep request ownerId attemptId now none (some (.leased l)) r
  | conflict {row : LeaseRow} {r : AcquireResult} : row.request ≠ request →
      r.toAcquireFields = ⟨request, .requestConflict, none, none, none,
        some row.request.requestHash, some row.request.replayPolicy⟩ →
      AcquireStep request ownerId attemptId now (some row) (some row) r
  | replayed {t : Terminal} {r : AcquireResult} : t.request = request →
      r.toAcquireFields = ⟨request, .ofTerminal t.outcome, none, some t, none, none, none⟩ →
      AcquireStep request ownerId attemptId now (some (.terminalized t)) (some (.terminalized t)) r
  | reacquired {l : Lease} {r : AcquireResult} : l.request = request → l.ownerId = ownerId →
      l.attemptId = attemptId → now < l.expiresAt →
      r.toAcquireFields = ⟨request, .acquired, some l, none, none, none, none⟩ →
      AcquireStep request ownerId attemptId now (some (.leased l)) (some (.leased l)) r
  | busy {l : Lease} {r : AcquireResult} : l.request = request →
      ¬ (l.ownerId = ownerId ∧ l.attemptId = attemptId) → now < l.expiresAt →
      r.toAcquireFields = ⟨request, .busy, none, none, some l.expiresAt, none, none⟩ →
      AcquireStep request ownerId attemptId now (some (.leased l)) (some (.leased l)) r
  | recovered {l : Lease} {t : Terminal} {r : AcquireResult} : l.request = request →
      l.expiresAt ≤ now → request.replayPolicy = .noRedrive → t.request = request →
      t.outcome = .recoveryRequired → t.ownerId = l.ownerId → t.attemptId = l.attemptId →
      t.fence = l.fence →
      r.toAcquireFields = ⟨request, .recoveryRequired, none, some t, none, none, none⟩ →
      AcquireStep request ownerId attemptId now (some (.leased l)) (some (.terminalized t)) r
  | takenOver {l l' : Lease} {r : AcquireResult} : l.request = request → l.expiresAt ≤ now →
      request.replayPolicy ≠ .noRedrive → l'.request = request → l'.ownerId = ownerId →
      l'.attemptId = attemptId → l'.fence = l.fence + 1 → now < l'.expiresAt →
      r.toAcquireFields = ⟨request, .acquired, some l', none, none, none, none⟩ →
      AcquireStep request ownerId attemptId now (some (.leased l)) (some (.leased l')) r

/-- A renewal that returns held exactly the stored lease, unexpired. -/
inductive RenewStep (lease : Lease) (now : Datetime) :
    Option LeaseRow → Option LeaseRow → Lease → Prop
  | kept : now < lease.expiresAt →
      RenewStep lease now (some (.leased lease)) (some (.leased lease)) lease
  | extended {l' : Lease} : now < lease.expiresAt → l'.request = lease.request →
      l'.ownerId = lease.ownerId → l'.attemptId = lease.attemptId → l'.fence = lease.fence →
      lease.expiresAt < l'.expiresAt →
      RenewStep lease now (some (.leased lease)) (some (.leased l')) l'

inductive TerminalizeStep (lease : Lease) (terminal : Terminal) (now : Datetime) :
    Option LeaseRow → Option LeaseRow → Terminal → Prop
  | replayed {t : Terminal} : t.pyEq terminal = true → t.request = lease.request →
      TerminalizeStep lease terminal now (some (.terminalized t)) (some (.terminalized t)) t
  | installed : now < lease.expiresAt →
      TerminalizeStep lease terminal now (some (.leased lease)) (some (.terminalized terminal))
        terminal

inductive VerifyStep (validated : Terminal) :
    Option LeaseRow → Option LeaseRow → Terminal → Prop
  | verified {t : Terminal} : t.pyEq validated = true →
      VerifyStep validated (some (.terminalized t)) (some (.terminalized t)) t

/-! ## The code takes these steps -/

theorem make_fields {f : AcquireFields} {r : AcquireResult} (h : AcquireResult.make f = .ok r) :
    r.toAcquireFields = f := by
  unfold AcquireResult.make at h
  split at h
  · cases h; rfl
  · cases h

theorem leaseMake_ok {request : LeaseRequest} {ownerId attemptId : String} {fence : Int}
    {expiresAt : Datetime} {l : Lease}
    (h : Lease.make request ownerId attemptId fence expiresAt = .ok l) :
    l.request = request ∧ l.ownerId = ownerId ∧ l.attemptId = attemptId ∧ l.fence = fence ∧
      l.expiresAt = expiresAt := by
  unfold Lease.make at h
  split at h
  · split at h
    · split at h
      · cases h; exact ⟨rfl, rfl, rfl, rfl, rfl⟩
      · cases h
    · cases h
  · cases h

theorem terminalMake_ok {request : LeaseRequest} {outcome : TerminalOutcome}
    {ownerId attemptId : String} {fence : Int} {resultRef : Option ObjectReference}
    {failure : Option TerminalFailure} {t : Terminal}
    (h : Terminal.make request outcome ownerId attemptId fence resultRef failure = .ok t) :
    t.request = request ∧ t.outcome = outcome ∧ t.ownerId = ownerId ∧ t.attemptId = attemptId ∧
      t.fence = fence ∧ t.resultRef = resultRef ∧ t.failure = failure := by
  unfold Terminal.make at h
  split at h
  · split at h
    · split at h
      · split at h
        · cases h; exact ⟨rfl, rfl, rfl, rfl, rfl, rfl, rfl⟩
        · cases h
      · cases h
    · cases h
  · cases h

theorem addDuration_lt {now t : Datetime} {duration : Timedelta} (hd : 0 < duration.micros)
    (h : addDuration now duration = .ok t) : now < t := by
  unfold addDuration at h
  split at h
  · rename_i hadd; cases h; exact Datetime.add?_lt hadd hd
  · cases h

theorem acquireTransition_step {host : Host} {request : LeaseRequest} {ownerId attemptId : String}
    {duration : Timedelta} {row row' : Option LeaseRow} {now : Datetime} {r : AcquireResult}
    (hd : 0 < duration.micros) (hrow : ∀ x ∈ row, Shape x)
    (h : acquireTransition host request ownerId attemptId duration row now = .ok (row', r)) :
    AcquireStep request ownerId attemptId now row row' r := by
  unfold acquireTransition at h
  obtain ⟨expiry, hexp, h⟩ := bind_ok h
  have hlive := addDuration_lt hd hexp
  match row, hrow with
  | none, _ =>
    obtain ⟨l, hl, h⟩ := bind_ok h
    obtain ⟨res, hres, h⟩ := bind_ok h
    cases pure_ok h
    obtain ⟨h1, h2, h3, h4, h5⟩ := leaseMake_ok hl
    exact .granted h1 h2 h3 h4 (h5 ▸ hlive) (make_fields hres)
  | some row, hrow =>
    simp only at h
    split at h
    · rename_i hne
      obtain ⟨res, hres, h⟩ := bind_ok h
      cases pure_ok h
      exact .conflict hne (make_fields hres)
    · rename_i heq
      have heq := not_ne_iff.mp heq
      cases hrow row rfl with
      | terminalized t =>
        obtain ⟨res, hres, h⟩ := bind_ok h
        cases pure_ok h
        exact .replayed heq (make_fields hres)
      | leased l =>
        simp only [LeaseRow.lease_leased, ok_bind, show (LeaseRow.leased l).terminal = none from rfl]
          at h
        split at h
        · rename_i hbefore
          split at h
          · rename_i hsame
            obtain ⟨res, hres, h⟩ := bind_ok h
            cases pure_ok h
            exact .reacquired heq hsame.1 hsame.2 hbefore (make_fields hres)
          · rename_i hother
            obtain ⟨res, hres, h⟩ := bind_ok h
            cases pure_ok h
            exact .busy heq hother hbefore (make_fields hres)
        · rename_i hafter
          have hafter := not_lt.mp hafter
          split at h
          · rename_i hpolicy
            obtain ⟨failure, _, h⟩ := bind_ok h
            obtain ⟨t, ht, h⟩ := bind_ok h
            obtain ⟨res, hres, h⟩ := bind_ok h
            cases pure_ok h
            obtain ⟨h1, h2, h3, h4, h5, _, _⟩ := terminalMake_ok ht
            refine .recovered heq hafter hpolicy h1 h2 h3 h4 h5 ?_
            rw [make_fields hres, h2]
            rfl
          · rename_i hpolicy
            split at h
            · cases h
            · obtain ⟨l', hl', h⟩ := bind_ok h
              obtain ⟨res, hres, h⟩ := bind_ok h
              cases pure_ok h
              obtain ⟨h1, h2, h3, h4, h5⟩ := leaseMake_ok hl'
              exact .takenOver heq hafter hpolicy h1 h2 h3 h4 (h5 ▸ hlive) (make_fields hres)

/-- A lease that is not stale is the stored one, and the time is before its expiry. -/
theorem not_stale {current lease : Lease} {now : Datetime} (hreq : current.request = lease.request)
    (h : ¬ isStale current lease now = true) : current = lease ∧ now < lease.expiresAt := by
  simp only [isStale, Bool.or_eq_true, bne_iff_ne, ne_eq, decide_eq_true_eq, not_or, not_not,
    not_le] at h
  obtain ⟨⟨⟨⟨h1, h2⟩, h3⟩, h4⟩, h5⟩ := h
  have heq : current = lease := by cases current; cases lease; simp_all
  exact ⟨heq, heq ▸ h5⟩

theorem renewTransition_step {lease result : Lease} {duration : Timedelta}
    {row row' : Option LeaseRow} {now : Datetime} (hrow : ∀ x ∈ row, Shape x)
    (h : renewTransition lease duration row now = .ok (row', result)) :
    RenewStep lease now row row' result := by
  unfold renewTransition at h
  match row, hrow with
  | none, _ => cases h
  | some row, hrow =>
    simp only at h
    split at h
    · cases h
    · rename_i heq
      have heq := not_ne_iff.mp heq
      cases hrow row rfl with
      | terminalized t => cases h
      | leased l =>
        simp only [LeaseRow.lease_leased, ok_bind, show (LeaseRow.leased l).terminal = none from rfl]
          at h
        split at h
        · cases h
        · rename_i hstale
          obtain ⟨rfl, hlive⟩ := not_stale heq hstale
          obtain ⟨expiry, hexp, h⟩ := bind_ok h
          split at h
          · cases pure_ok h
            exact .kept hlive
          · rename_i hlater
            obtain ⟨l', hl', h⟩ := bind_ok h
            cases pure_ok h
            obtain ⟨h1, h2, h3, h4, h5⟩ := leaseMake_ok hl'
            exact .extended hlive h1 h2 h3 h4 (h5 ▸ not_le.mp hlater)

theorem terminalizeTransition_step {lease : Lease} {terminal result : Terminal}
    {row row' : Option LeaseRow} {now : Datetime} (hrow : ∀ x ∈ row, Shape x)
    (h : terminalizeTransition lease terminal row now = .ok (row', result)) :
    TerminalizeStep lease terminal now row row' result := by
  unfold terminalizeTransition at h
  match row, hrow with
  | none, _ => cases h
  | some row, hrow =>
    simp only at h
    split at h
    · cases h
    · rename_i heq
      have heq := not_ne_iff.mp heq
      cases hrow row rfl with
      | terminalized t =>
        simp only [LeaseRow.terminalized] at h
        split at h
        · rename_i hsame
          cases pure_ok h
          exact .replayed hsame heq
        · cases h
      | leased l =>
        simp only [LeaseRow.lease_leased, ok_bind, show (LeaseRow.leased l).terminal = none from rfl]
          at h
        split at h
        · cases h
        · rename_i hstale
          obtain ⟨rfl, hlive⟩ := not_stale heq hstale
          cases pure_ok h
          exact .installed hlive

theorem verifyTransition_step {validated result : Terminal} {row row' : Option LeaseRow}
    {now : Datetime} (hrow : ∀ x ∈ row, Shape x)
    (h : verifyTransition validated row now = .ok (row', result)) :
    VerifyStep validated row row' result := by
  unfold verifyTransition at h
  match row, hrow with
  | none, _ => cases h
  | some row, hrow =>
    cases hrow row rfl with
    | leased l => cases h
    | terminalized t =>
      simp only [LeaseRow.terminalized, Option.bind_some] at h
      split at h
      · rename_i hsame
        cases h
        exact .verified hsame
      · cases h

/-! ## Calls -/

/-- The terminal a `succeed` or `fail` call builds names the lease it is made with. -/
structure Names (terminal : Terminal) (lease : Lease) : Prop where
  request : terminal.request = lease.request
  owner : terminal.ownerId = lease.ownerId
  attempt : terminal.attemptId = lease.attemptId
  fence : terminal.fence = lease.fence

/-- A call that returns, with the key and the authority time of its transaction, the row
before and after, and the reply. -/
inductive CallStep (host : Host) :
    Call → String → Datetime → Option LeaseRow → Option LeaseRow → Reply → Prop
  | acquire {request ownerId attemptId duration now row row' r} :
      AcquireStep request ownerId attemptId now row row' r →
      CallStep host (.acquire request ownerId attemptId duration) request.semanticKey now row row'
        (.acquired r)
  | renew {lease duration now row row' l} : RenewStep lease now row row' l →
      CallStep host (.renew lease duration) lease.request.semanticKey now row row' (.renewed l)
  | succeed {lease resultRef terminal now row row' t} : Names terminal lease →
      TerminalizeStep lease terminal now row row' t →
      CallStep host (.succeed lease resultRef) lease.request.semanticKey now row row' (.terminal t)
  | fail {lease resultRef failure terminal now row row' t} : Names terminal lease →
      TerminalizeStep lease terminal now row row' t →
      CallStep host (.fail lease resultRef failure) lease.request.semanticKey now row row'
        (.terminal t)
  | verify {terminal validated now row row' t} :
      host.validateTerminal terminal = .ok validated →
      VerifyStep validated row row' t →
      CallStep host (.verifyTerminal terminal) validated.request.semanticKey now row row'
        (.terminal t)

theorem validateLeaseDuration_ok {kind : StoreKind} {value duration : Timedelta}
    (h : validateLeaseDuration kind value = .ok duration) : 0 < duration.micros := by
  unfold validateLeaseDuration at h
  obtain ⟨d, hd, h⟩ := bind_ok h
  have hpos : 0 < d.micros := by
    unfold requireLeaseDuration at hd
    split at hd
    · cases hd
    · cases hd; omega
  cases kind with
  | memory => cases pure_ok h; exact hpos
  | postgresql => cases pure_ok h; exact hpos
  | sqlite =>
    simp only at h
    split at h
    · cases h
    · cases pure_ok h; exact hpos

theorem transitionMap_ok {α β : Type} {tr : Transition α} {f : α → β} {row row' : Option LeaseRow}
    {now : Datetime} {b : β} (h : tr.map f row now = .ok (row', b)) :
    ∃ a, tr row now = .ok (row', a) ∧ f a = b := by
  obtain ⟨⟨u, a⟩, htr, he⟩ := map_ok h
  cases he
  exact ⟨a, htr, rfl⟩

/-- Every call whose transaction returns takes one of these steps. -/
theorem prepare_step {host : Host} {kind : StoreKind} {call : Call} {key : String}
    {tr : Transition Reply} {now : Datetime} {row row' : Option LeaseRow} {reply : Reply}
    (hp : call.prepare host kind = .ok (key, tr)) (hrow : ∀ x ∈ row, Shape x)
    (h : tr row now = .ok (row', reply)) : CallStep host call key now row row' reply := by
  cases call with
  | acquire request ownerId attemptId duration =>
    obtain ⟨_, _, hp⟩ := bind_ok hp
    obtain ⟨_, _, hp⟩ := bind_ok hp
    obtain ⟨d, hd, hp⟩ := bind_ok hp
    cases pure_ok hp
    obtain ⟨r, hr, rfl⟩ := transitionMap_ok h
    exact .acquire (acquireTransition_step (validateLeaseDuration_ok hd) hrow hr)
  | renew lease duration =>
    obtain ⟨d, _, hp⟩ := bind_ok hp
    cases pure_ok hp
    obtain ⟨r, hr, rfl⟩ := transitionMap_ok h
    exact .renew (renewTransition_step hrow hr)
  | succeed lease resultRef =>
    obtain ⟨terminal, ht, hp⟩ := bind_ok hp
    cases pure_ok hp
    obtain ⟨r, hr, rfl⟩ := transitionMap_ok h
    obtain ⟨h1, _, h3, h4, h5, _, _⟩ := terminalMake_ok ht
    exact .succeed ⟨h1, h3, h4, h5⟩ (terminalizeTransition_step hrow hr)
  | fail lease resultRef failure =>
    obtain ⟨terminal, ht, hp⟩ := bind_ok hp
    cases pure_ok hp
    obtain ⟨r, hr, rfl⟩ := transitionMap_ok h
    obtain ⟨h1, _, h3, h4, h5, _, _⟩ := terminalMake_ok ht
    exact .fail ⟨h1, h3, h4, h5⟩ (terminalizeTransition_step hrow hr)
  | verifyTerminal terminal =>
    obtain ⟨validated, hv, hp⟩ := bind_ok hp
    cases pure_ok hp
    obtain ⟨r, hr, rfl⟩ := transitionMap_ok h
    exact .verify hv (verifyTransition_step hrow hr)

/-! ## Refinement of the abstract fenced lease -/

abbrev LeaseCell := Cell LeaseRequest (String × String) Datetime Terminal

def grantOf (l : Lease) : Grant LeaseRequest (String × String) Datetime :=
  ⟨l.request, (l.ownerId, l.attemptId), l.fence, l.expiresAt⟩

/-- The cell a row stands for; rows of neither shape stand for none. -/
def cellOf (row : Option LeaseRow) : Option LeaseCell :=
  row.bind fun row => match row.terminal, row.expiresAt with
  | some t, _ => some (.done row.request row.fence t)
  | none, some e => some (.held ⟨row.request, (row.ownerId, row.attemptId), row.fence, e⟩)
  | none, none => none

@[simp] theorem cellOf_none : cellOf none = none := rfl

@[simp] theorem cellOf_leased (l : Lease) : cellOf (some (.leased l)) = some (.held (grantOf l)) :=
  rfl

@[simp] theorem cellOf_terminalized (t : Terminal) :
    cellOf (some (.terminalized t)) = some (.done t.request t.fence t) := rfl

theorem grantOf_inj {a b : Lease} (h : grantOf a = grantOf b) : a = b := by
  cases a; cases b
  simp only [grantOf, Grant.mk.injEq, Prod.mk.injEq] at h
  simp_all

/-- A row of either shape is determined by its cell. -/
theorem cellOf_inj {a b : Option LeaseRow} (ha : ∀ x ∈ a, Shape x) (hb : ∀ x ∈ b, Shape x)
    (h : cellOf a = cellOf b) : a = b := by
  match a, b, ha, hb with
  | none, none, _, _ => rfl
  | none, some b, _, hb => cases hb b rfl <;> cases h
  | some a, none, ha, _ => cases ha a rfl <;> cases h
  | some a, some b, ha, hb =>
    cases ha a rfl <;> cases hb b rfl <;> simp at h
    · rw [grantOf_inj h]
    · rw [h.2.2]

theorem AcquireStep.move {request ownerId attemptId now row row' r}
    (h : AcquireStep request ownerId attemptId now row row' r) :
    Move now (cellOf row) (cellOf row') := by
  cases h with
  | @granted l _ h1 h2 h3 h4 h5 hr =>
    rw [cellOf_none, cellOf_leased, grantOf, h4]
    exact .grant ..
  | conflict | replayed | reacquired | busy => exact .stay _
  | @recovered l t _ h1 h2 h3 h4 h5 h6 h7 h8 hr =>
    rw [cellOf_leased, cellOf_terminalized, h4, ← h1, h8]
    exact .finish (grantOf l) t
  | @takenOver l l' _ h1 h2 h3 h4 h5 h6 h7 h8 hr =>
    rw [cellOf_leased, cellOf_leased, show grantOf l' =
      ⟨l.request, (l'.ownerId, l'.attemptId), l.fence + 1, l'.expiresAt⟩ by
        simp only [grantOf, h4, h1, h7]]
    exact .takeover (grantOf l) _ _ h2 h8

theorem RenewStep.move {lease now row row' l} (h : RenewStep lease now row row' l) :
    Move now (cellOf row) (cellOf row') := by
  cases h with
  | kept => exact .stay _
  | extended h1 h2 h3 h4 h5 h6 =>
    rw [cellOf_leased, cellOf_leased, show grantOf l =
      { grantOf lease with expiry := l.expiresAt } by simp only [grantOf, h2, h3, h4, h5]]
    exact .extend (grantOf lease) _ h1 h6

theorem TerminalizeStep.move {lease terminal now row row' t} (hn : Names terminal lease)
    (h : TerminalizeStep lease terminal now row row' t) :
    Move now (cellOf row) (cellOf row') := by
  cases h with
  | replayed => exact .stay _
  | installed h1 =>
    rw [cellOf_leased, cellOf_terminalized, hn.request, hn.fence]
    exact .finish (grantOf lease) terminal

/-- **One call is one move of the fenced lease.** -/
theorem CallStep.move {host call key now row row' reply}
    (h : CallStep host call key now row row' reply) : Move now (cellOf row) (cellOf row') := by
  cases h with
  | acquire h => exact h.move
  | renew h => exact h.move
  | succeed hn h => exact h.move hn
  | fail hn h => exact h.move hn
  | verify _ h => cases h; exact .stay _

/-- The shape of rows, and the key they are stored under, are kept. -/
def RowOk (key : String) (row : Option LeaseRow) : Prop :=
  ∀ x ∈ row, Shape x ∧ x.request.semanticKey = key

theorem rowOk_none (key : String) : RowOk key none := by
  intro x hx; cases hx

theorem rowOk_leased {key : String} {l : Lease} (h : l.request.semanticKey = key) :
    RowOk key (some (.leased l)) := by
  intro x hx; cases hx; exact ⟨.leased l, h⟩

theorem rowOk_terminalized {key : String} {t : Terminal} (h : t.request.semanticKey = key) :
    RowOk key (some (.terminalized t)) := by
  intro x hx; cases hx; exact ⟨.terminalized t, h⟩

theorem CallStep.rowOk {host call key now row row' reply}
    (h : CallStep host call key now row row' reply) (hrow : RowOk key row) : RowOk key row' := by
  cases h with
  | acquire h =>
    cases h with
    | granted h1 => exact rowOk_leased (by rw [h1])
    | conflict | replayed | reacquired | busy => exact hrow
    | recovered _ _ _ h4 => exact rowOk_terminalized (by rw [h4])
    | takenOver _ _ _ h4 => exact rowOk_leased (by rw [h4])
  | renew h =>
    cases h with
    | kept => exact hrow
    | extended _ h2 => exact rowOk_leased (by rw [h2])
  | succeed hn h | fail hn h =>
    cases h with
    | replayed => exact hrow
    | installed => exact rowOk_terminalized (by rw [hn.request])
  | verify _ h => cases h; exact hrow

end DrStore.Leases.Protocol
