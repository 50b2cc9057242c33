import DrStore.Leases.Protocol

/-! # Whole runs of the authority

A run is any list of calls with their clock readings, by any clients, from the empty store;
readings need not be monotone. From `CallStep.move` every run climbs the order `Below` on each
key, and the three safety statements are read off it: terminal outcomes are absorbing and
unique, fences and expiries only grow, and a lease value that has been superseded is never
accepted again. -/
namespace DrStore.Leases.History
open DrStore.Base.Calendar DrStore.Base.FencedLease DrStore.Base.Runs
open DrStore.Store.ContentAddressing DrStore.Leases.Models DrStore.Leases.Authority
open DrStore.Leases.Protocol

section
variable {host : Host} {kind : StoreKind}

def RowsOk (rows : Rows) : Prop := ∀ key, RowOk key (rows key)

theorem rowsOk_noRows : RowsOk noRows := fun key => rowOk_none key

/-- The key of the transaction a call runs, if its arguments pass. -/
def target (host : Host) (kind : StoreKind) (call : Call) : Option String :=
  match call.prepare host kind with
  | .ok (key, _) => some key
  | .error _ => none

/-! ## One event -/

/-- An event raises and changes nothing, or one key makes one step and the others none. -/
theorem step_cases {rows : Rows} (hs : RowsOk rows) (e : Event) :
    (∃ err, (authority host kind).step rows e = (rows, .error err)) ∨
    ∃ key row' reply, target host kind e.call = some key ∧
      CallStep host e.call key e.clock.wall (rows key) row' reply ∧
      (authority host kind).step rows e = (rows.set key row', .ok reply) := by
  unfold authority target
  simp only
  cases hp : e.call.prepare host kind with
  | error err => exact Or.inl ⟨err, rfl⟩
  | ok prepared =>
    obtain ⟨key, tr⟩ := prepared
    simp only [MemoryStore.transaction]
    cases hu : requireUtc e.clock "authority clock" with
    | error err => exact Or.inl ⟨err, rfl⟩
    | ok now =>
      have hnow : now = e.clock.wall := by
        unfold requireUtc at hu
        split at hu
        · cases hu
        · split at hu
          · exact (Except.ok.inj hu).symm
          · cases hu
      simp only
      cases htr : tr (rows key) now with
      | error err => exact Or.inl ⟨err, rfl⟩
      | ok out =>
        obtain ⟨row', reply⟩ := out
        refine Or.inr ⟨key, row', reply, rfl, ?_, rfl⟩
        rw [← hnow]
        exact prepare_step hp (fun x hx => (hs key x hx).1) htr

theorem step_rowsOk {rows : Rows} (e : Event) (hs : RowsOk rows) :
    RowsOk ((authority host kind).step rows e).1 := by
  rcases step_cases hs e with ⟨err, he⟩ | ⟨key, row', reply, _, hstep, he⟩ <;> rw [he]
  · exact hs
  · intro k
    by_cases hk : k = key
    · subst hk
      simpa using hstep.rowOk (hs k)
    · simpa [Rows.set_ne row' hk] using hs k

theorem after_rowsOk (evs : List Event) : RowsOk ((authority host kind).after noRows evs) :=
  (authority host kind).invariant (fun _ e h => step_rowsOk e h) evs rowsOk_noRows

theorem step_move {rows : Rows} (hs : RowsOk rows) (e : Event) (key : String) :
    Move e.clock.wall (cellOf (rows key)) (cellOf (((authority host kind).step rows e).1 key)) := by
  rcases step_cases hs e with ⟨err, he⟩ | ⟨k, row', reply, _, hstep, he⟩ <;> rw [he]
  · exact .stay _
  · by_cases hk : key = k
    · subst hk
      simpa using hstep.move
    · simpa [Rows.set_ne row' hk] using Move.stay _

/-- A reply is the reply of the step its target key made. -/
theorem reply_step {rows : Rows} (hs : RowsOk rows) {e : Event} {reply : Reply}
    (h : ((authority host kind).step rows e).2 = .ok reply) :
    ∃ key, target host kind e.call = some key ∧
      CallStep host e.call key e.clock.wall (rows key) (((authority host kind).step rows e).1 key)
        reply := by
  rcases step_cases hs e with ⟨err, he⟩ | ⟨key, row', reply', ht, hstep, he⟩ <;> rw [he] at h
  · cases h
  · cases h
    refine ⟨key, ht, ?_⟩
    rw [he]
    simpa using hstep

/-- A row that an event changes is the row of its target key. -/
theorem changed_step {rows : Rows} (hs : RowsOk rows) {e : Event} {key : String}
    (h : ((authority host kind).step rows e).1 key ≠ rows key) :
    target host kind e.call = some key ∧ ∃ reply,
      ((authority host kind).step rows e).2 = .ok reply ∧
      CallStep host e.call key e.clock.wall (rows key) (((authority host kind).step rows e).1 key)
        reply := by
  rcases step_cases hs e with ⟨err, he⟩ | ⟨k, row', reply, ht, hstep, he⟩ <;> rw [he] at h ⊢
  · exact absurd rfl h
  · by_cases hk : key = k
    · subst hk
      exact ⟨ht, reply, rfl, by simpa using hstep⟩
    · exact absurd (Rows.set_ne row' hk) h

end

/-! ## Runs -/

section
variable (host : Host) (kind : StoreKind)

/-- Every run climbs on every key. -/
theorem after_below {rows : Rows} (hs : RowsOk rows) (evs : List Event) (key : String) :
    Below (cellOf (rows key)) (cellOf ((authority host kind).after rows evs key)) :=
  @Machine.climbs _ _ _ (authority host kind) RowsOk
    (fun a b => Below (cellOf (a key)) (cellOf (b key)))
    (fun _ => Below.refl _) Below.trans (fun _ e h => step_rowsOk e h)
    (fun _ e h => (step_move h e key).below) rows evs hs

theorem below_run (pre post : List Event) (key : String) :
    Below (cellOf ((authority host kind).after noRows pre key))
      (cellOf ((authority host kind).after noRows (pre ++ post) key)) := by
  rw [Machine.after_append]
  exact after_below host kind (after_rowsOk pre) post key

theorem rows_eq_of_cell {evs evs' : List Event} {key : String}
    (h : cellOf ((authority host kind).after noRows evs key) =
      cellOf ((authority host kind).after noRows evs' key)) :
    (authority host kind).after noRows evs key = (authority host kind).after noRows evs' key :=
  cellOf_inj (fun x hx => (after_rowsOk evs key x hx).1) (fun x hx => (after_rowsOk evs' key x hx).1)
    h

/-- A row value seen twice was there all the time in between. -/
theorem sandwich {pre mid post : List Event} {key : String}
    (h : (authority host kind).after noRows pre key =
      (authority host kind).after noRows (pre ++ mid ++ post) key) :
    (authority host kind).after noRows (pre ++ mid) key =
      (authority host kind).after noRows pre key := by
  have h1 := below_run host kind pre mid key
  have h2 := below_run host kind (pre ++ mid) post key
  rw [← h] at h2
  exact rows_eq_of_cell host kind (Below.antisymm h2 h1)

/-! ## Terminal outcomes are absorbing and unique -/

theorem shape_terminal {row : LeaseRow} {t : Terminal} (hs : Shape row)
    (h : row.terminal = some t) : row = .terminalized t := by
  cases hs with
  | leased l => cases h
  | terminalized u => cases h; rfl

theorem terminalized_stays {pre : List Event} {key : String} {t : Terminal} (post : List Event)
    (h : (authority host kind).after noRows pre key = some (.terminalized t)) :
    (authority host kind).after noRows (pre ++ post) key = some (.terminalized t) := by
  have hb := below_run host kind pre post key
  rw [h, cellOf_terminalized] at hb
  rw [← h]
  exact rows_eq_of_cell host kind (by rw [h, cellOf_terminalized]; exact hb)

/-- The terminal a reply carries, if any. -/
def Reply.terminal? : Reply → Option Terminal
  | .acquired r => r.terminal
  | .renewed _ => none
  | .terminal t => some t

/-- A terminal is returned only when it is, after the call, the stored one. -/
theorem callStep_terminal {host : Host} {call key now row row' reply t}
    (h : CallStep host call key now row row' reply) (ht : Reply.terminal? reply = some t) :
    row' = some (.terminalized t) := by
  cases h with
  | acquire h =>
    cases h with
    | granted _ _ _ _ _ hr | conflict _ hr | reacquired _ _ _ _ hr | busy _ _ _ hr
    | takenOver _ _ _ _ _ _ _ _ hr =>
      simp [Reply.terminal?, hr] at ht
    | replayed _ hr | recovered _ _ _ _ _ _ _ _ hr =>
      simp only [Reply.terminal?, hr, Option.some.injEq] at ht
      rw [ht]
  | renew h => cases ht
  | succeed _ h | fail _ h | verify _ h => cases h <;> cases ht <;> rfl

/-- A terminal row is left as it is by every call, and replayed to its own request. -/
theorem callStep_terminalized {host : Host} {call key now row row' reply t}
    (h : CallStep host call key now row row' reply) (hrow : row = some (.terminalized t)) :
    row' = row ∧ (∀ r, reply = .acquired r → r.request = t.request →
      r.terminal = some t ∧ r.outcome = .ofTerminal t.outcome) := by
  cases h with
  | acquire h =>
    cases h with
    | granted => cases hrow
    | conflict hne hr =>
      cases hrow
      refine ⟨rfl, fun r he hreq => ?_⟩
      cases he
      rw [hr] at hreq
      exact absurd hreq.symm hne
    | replayed _ hr =>
      cases LeaseRow.terminalized_inj (Option.some.inj hrow)
      refine ⟨rfl, fun r he _ => ?_⟩
      cases he
      simp [hr]
    | reacquired | busy | recovered | takenOver =>
      exact absurd (Option.some.inj hrow) (LeaseRow.leased_ne_terminalized _ _)
  | renew h =>
    cases h with
    | kept | extended => exact absurd (Option.some.inj hrow) (LeaseRow.leased_ne_terminalized _ _)
  | succeed _ h | fail _ h =>
    cases h with
    | replayed => exact ⟨rfl, fun r he _ => by cases he⟩
    | installed => exact absurd (Option.some.inj hrow) (LeaseRow.leased_ne_terminalized _ _)
  | verify _ h =>
    cases h
    exact ⟨rfl, fun r he _ => by cases he⟩

/-- The reply to an acquire carries the request it was made with. -/
theorem callStep_acquire {host : Host} {request ownerId attemptId duration key now row row' reply}
    (h : CallStep host (.acquire request ownerId attemptId duration) key now row row' reply) :
    key = request.semanticKey ∧ ∃ r, reply = .acquired r ∧ r.request = request ∧
      AcquireStep request ownerId attemptId now row row' r := by
  cases h with
  | @acquire _ _ _ _ _ _ _ r h =>
    refine ⟨rfl, r, rfl, ?_, h⟩
    cases h with
    | granted _ _ _ _ _ hr | conflict _ hr | replayed _ hr | reacquired _ _ _ _ hr | busy _ _ _ hr
    | recovered _ _ _ _ _ _ _ _ hr | takenOver _ _ _ _ _ _ _ _ hr => rw [hr]

/-- Some call of the run returned terminal `t` from a transaction on `key`. -/
def Returned (evs : List Event) (key : String) (t : Terminal) : Prop :=
  ∃ pre e post reply, evs = pre ++ e :: post ∧ target host kind e.call = some key ∧
    (authority host kind).reply noRows pre e = .ok reply ∧ Reply.terminal? reply = some t

theorem returned_stored {evs : List Event} {key : String} {t : Terminal}
    (h : Returned host kind evs key t) :
    (authority host kind).after noRows evs key = some (.terminalized t) := by
  obtain ⟨pre, e, post, reply, rfl, htarget, hreply, ht⟩ := h
  obtain ⟨k, hk, hstep⟩ := reply_step (after_rowsOk pre) hreply
  cases htarget.symm.trans hk
  have hafter := callStep_terminal hstep ht
  rw [← Machine.after_concat] at hafter
  simpa using terminalized_stays host kind post hafter

/-- **Terminal outcomes are absorbing and unique.** Once a prefix of the run left a terminal in
the key's row, the row stays as it is; an acquire with the row's request that returns replays
that terminal; any other call that returns a terminal for the key returns that one. All terminals
returned for one key in one run are equal. -/
theorem terminal_absorbing_unique (key : String) (evs : List Event) :
    (∀ pre post row t, evs = pre ++ post →
      (authority host kind).after noRows pre key = some row → row.terminal = some t →
      (authority host kind).after noRows evs key = some row ∧
      (∀ ownerId attemptId duration clock reply,
        (authority host kind).reply noRows evs
          ⟨.acquire row.request ownerId attemptId duration, clock⟩ = .ok reply →
        ∃ r, reply = .acquired r ∧ r.terminal = some t ∧ r.outcome = .ofTerminal t.outcome) ∧
      (∀ e t', target host kind e.call = some key →
        (authority host kind).reply noRows evs e = .ok (.terminal t') → t' = t)) ∧
    ∀ t t', Returned host kind evs key t → Returned host kind evs key t' → t = t' := by
  refine ⟨?_, ?_⟩
  · rintro pre post row t rfl hrow ht
    obtain ⟨hshape, hkey⟩ := after_rowsOk pre key row hrow
    cases shape_terminal hshape ht
    have hnow := terminalized_stays host kind post hrow
    refine ⟨hnow, ?_, ?_⟩
    · intro ownerId attemptId duration clock reply hreply
      obtain ⟨k, _, hstep⟩ := reply_step (after_rowsOk (pre ++ post)) hreply
      obtain ⟨hk, r, hr, hreq, _⟩ := callStep_acquire hstep
      have hrow : (authority host kind).after noRows (pre ++ post) k = some (.terminalized t) := by
        rw [hk, show (LeaseRow.terminalized t).request.semanticKey = key from hkey]
        exact hnow
      exact ⟨r, hr, (callStep_terminalized hstep hrow).2 r hr hreq⟩
    · intro e t' htarget hreply
      obtain ⟨k, hk, hstep⟩ := reply_step (after_rowsOk (pre ++ post)) hreply
      cases htarget.symm.trans hk
      have hstored := callStep_terminal hstep rfl
      rw [(callStep_terminalized hstep hnow).1, hnow] at hstored
      exact (LeaseRow.terminalized_inj (Option.some.inj hstored)).symm
  · intro t t' h h'
    have := (returned_stored host kind h).symm.trans (returned_stored host kind h')
    exact LeaseRow.terminalized_inj (Option.some.inj this)

end

/-! A concrete run: one attempt acquires and succeeds, another one comes too late, and the success
is replayed. -/

def sampleHost : Host where
  floatRepr _ := "0.0".toList
  sha256 _ := ⟨"e3b0c44298fc1c149afbf4c8996fb92427ae41e4649b934ca495991b7852b855", by decide⟩
  modelDumpJson t := t.attemptId
  modelValidateJson _ := .error "Invalid JSON"

def sampleRequest (policy : ReplayPolicy) : LeaseRequest where
  semanticKey := "job"
  requestHash := "aaaaaaaaaaaaaaaaaaaaaaaaaaaaaaaaaaaaaaaaaaaaaaaaaaaaaaaaaaaaaaaa"
  replayPolicy := policy
  hash_valid := by decide
  key_valid := by decide

instance micros_neZero : NeZero 100000 := ⟨by decide⟩

def sampleClock (micros : Fin 100000) : ClockReading :=
  ⟨⟨micros.val, Nat.lt_trans micros.isLt (by decide)⟩, some 0⟩

def sampleLease : Lease where
  request := sampleRequest .idempotent
  ownerId := "a"
  attemptId := "1"
  fence := 1
  expiresAt := ⟨10000, by decide⟩
  owner_valid := by decide
  attempt_valid := by decide
  fence_valid := by decide

def sampleReference : ObjectReference where
  schema := "result"
  contentHash := "e3b0c44298fc1c149afbf4c8996fb92427ae41e4649b934ca495991b7852b855"
  schema_valid := by decide
  hash_valid := by decide

def sampleTerminal : Terminal where
  request := sampleRequest .idempotent
  outcome := .succeeded
  ownerId := "a"
  attemptId := "1"
  fence := 1
  resultRef := some sampleReference
  failure := none
  owner_valid := by decide
  attempt_valid := by decide
  fence_valid := by decide
  shape_valid := by decide

def sampleAcquire (ownerId : String) (micros : Fin 100000) : Event :=
  ⟨.acquire (sampleRequest .idempotent) ownerId "1" ⟨10000⟩, sampleClock micros⟩

def sampleSucceed : Event := ⟨.succeed sampleLease sampleReference, sampleClock 5000⟩

def sampleEvents : List Event :=
  [sampleAcquire "a" 0, sampleSucceed, sampleAcquire "b" 6000, sampleSucceed]

theorem terminal_absorbing_unique_sample :
    (authority sampleHost .memory).after noRows sampleEvents "job" =
      some (.terminalized sampleTerminal) ∧
    (authority sampleHost .memory).reply noRows (sampleEvents.take 3) sampleSucceed =
      .ok (.terminal sampleTerminal) ∧
    ∀ t, Returned sampleHost .memory sampleEvents "job" t → t = sampleTerminal := by
  obtain ⟨hstays, hunique⟩ := terminal_absorbing_unique sampleHost .memory "job" sampleEvents
  have hreplayed : (authority sampleHost .memory).reply noRows (sampleEvents.take 3) sampleSucceed =
      .ok (.terminal sampleTerminal) := rfl
  refine ⟨?_, hreplayed, ?_⟩
  · exact (hstays (sampleEvents.take 2) (sampleEvents.drop 2) _ sampleTerminal rfl rfl rfl).1
  · intro t h
    exact hunique t sampleTerminal h
      ⟨sampleEvents.take 3, sampleSucceed, [], .terminal sampleTerminal, rfl, rfl, hreplayed, rfl⟩

end DrStore.Leases.History
