import DrStore.Leases.Failures
import DrStore.Leases.History
import DrStore.Leases.SqlStores

/-! # The persistent stores refine the in-memory one

`Encodes` relates the rows of the in-memory store to a table of encoded columns. Each call, run
as a transaction of statements against the table, keeps the relation and gives the in-memory
store's reply; by lockstep so does every sequence of calls. -/
namespace DrStore.Leases.Refinement
open DrStore.Base.Calendar DrStore.Base.Fallible DrStore.Base.Programs DrStore.Base.Runs
open DrStore.Leases.Models DrStore.Leases.Authority DrStore.Leases.Protocol DrStore.Leases.History
open DrStore.Leases.RowEncoding DrStore.Leases.SqlStores DrStore.Leases.Failures

/-! ## What a call may write -/

/-- A call leaves the row as it is, or replaces it by a present row that compares unequal. -/
def Writes (row row' : Option LeaseRow) : Prop :=
  row' = row ∨ (rowEq row' row = false ∧ ∃ new, row' = some new)

theorem leased_pyEq_ne {l l' : Lease} (h : l'.expiresAt ≠ l.expiresAt) :
    (LeaseRow.leased l').pyEq (.leased l) = false := by
  simp [LeaseRow.pyEq, LeaseRow.leased, h]

theorem terminalized_pyEq_leased (t : Terminal) (l : Lease) :
    (LeaseRow.terminalized t).pyEq (.leased l) = false := by
  simp [LeaseRow.pyEq, LeaseRow.leased, LeaseRow.terminalized]

theorem CallStep.writes {host call key now row row' reply}
    (h : CallStep host call key now row row' reply) : Writes row row' := by
  cases h with
  | acquire h =>
    cases h with
    | granted => exact Or.inr ⟨rfl, _, rfl⟩
    | conflict | replayed | reacquired | busy => exact Or.inl rfl
    | recovered => exact Or.inr ⟨terminalized_pyEq_leased _ _, _, rfl⟩
    | takenOver _ hexp _ _ _ _ _ hlive =>
      refine Or.inr ⟨leased_pyEq_ne ?_, _, rfl⟩
      exact ne_of_gt (lt_of_le_of_lt hexp hlive)
  | renew h =>
    cases h with
    | kept => exact Or.inl rfl
    | extended _ _ _ _ _ hlater => exact Or.inr ⟨leased_pyEq_ne (ne_of_gt hlater), _, rfl⟩
  | succeed _ h | fail _ h =>
    cases h with
    | replayed => exact Or.inl rfl
    | installed => exact Or.inr ⟨terminalized_pyEq_leased _ _, _, rfl⟩
  | verify _ h => cases h; exact Or.inl rfl

/-! ## Rows and their columns -/

variable {codec : Codec}

theorem replayPolicy_listed (p : ReplayPolicy) :
    ["idempotent", "durable_workflow", "no_redrive"].contains (replayPolicyValue p) = true := by
  cases p <;> decide

theorem fence_listed {fence : Int} (h : 1 ≤ fence ∧ fence ≤ maxFence) :
    decide (0 < fence ∧ fence ≤ maxFence) = true := by
  simp only [decide_eq_true_eq]
  omega

/-- Rows of either shape satisfy the table's constraints. -/
theorem checkRow_columns {row : LeaseRow} (h : Shape row) :
    checkRow (rowUpdateValues codec row) = true := by
  cases h with
  | leased l =>
    show (["idempotent", "durable_workflow", "no_redrive"].contains
        (replayPolicyValue l.request.replayPolicy) && true &&
      decide (0 < l.fence ∧ l.fence ≤ maxFence) && true) = true
    rw [replayPolicy_listed, fence_listed l.fence_valid]
    rfl
  | terminalized t =>
    show (["idempotent", "durable_workflow", "no_redrive"].contains
        (replayPolicyValue t.request.replayPolicy) &&
      ["leased", "succeeded", "failed", "recovery_required"].contains
        (stateValue (.ofTerminal t.outcome)) &&
      decide (0 < t.fence ∧ t.fence ≤ maxFence) &&
      (stateValue (.ofTerminal t.outcome) != "leased")) = true
    rw [replayPolicy_listed, fence_listed t.fence_valid]
    cases t.outcome <;> rfl

/-- The table holds the columns of the rows, which are of a legal shape. -/
structure Encodes (codec : Codec) (rows : Rows) (table : Table) : Prop where
  rows_ok : RowsOk rows
  columns : ∀ key, table key = (rows key).map (rowUpdateValues codec)

theorem decodeRow_columns (hc : codec.Faithful) {key : String} {row : Option LeaseRow}
    (h : RowOk key row) : decodeRow codec key (row.map (rowUpdateValues codec)) = .ok row := by
  cases row with
  | none => rfl
  | some row =>
    obtain ⟨hshape, rfl⟩ := h row rfl
    cases hshape with
    | leased l => exact decodeRow_leased l
    | terminalized t => exact decodeRow_terminalized hc t

theorem Encodes.decode (hc : codec.Faithful) {rows : Rows} {table : Table}
    (h : Encodes codec rows table) (key : String) : decodeRow codec key (table key) = .ok (rows key) := by
  rw [h.columns key]
  exact decodeRow_columns hc (h.rows_ok key)

/-- The table after a call wrote `updated` under `key`. -/
def write (codec : Codec) (table : Table) (key : String) : Option LeaseRow → Table
  | none => table
  | some row => table.set key (rowUpdateValues codec row)

/-- What is left of a database after a transition: a returned row is written, an error is not. -/
def settled {α : Type} (codec : Codec) (db : Db) (key : String) :
    Except LeaseError (Option LeaseRow × α) → Except LeaseError α × Db
  | .ok (updated, result) => (.ok result, ⟨write codec db.table key updated, db.saved⟩)
  | .error e => (.error e, db)

theorem write_same {table : Table} {key : String} {row : Option LeaseRow}
    (h : table key = row.map (rowUpdateValues codec)) : write codec table key row = table := by
  cases row with
  | none => rfl
  | some row =>
    funext k
    by_cases hk : k = key
    · subst hk
      simp [write, Table.set, h]
    · simp [write, Table.set, hk]

theorem Rows.set_id (rows : Rows) (key : String) : rows.set key (rows key) = rows := by
  funext k
  by_cases hk : k = key
  · subst hk
    exact Rows.set_self rows k _
  · exact Rows.set_ne _ hk

theorem Encodes.write {rows : Rows} {table : Table} (h : Encodes codec rows table) {key : String}
    {row : Option LeaseRow} (hrow : RowOk key row) (hw : Writes (rows key) row) :
    Encodes codec (rows.set key row) (write codec table key row) := by
  rcases hw with rfl | ⟨-, new, rfl⟩
  · rw [write_same (h.columns key), Rows.set_id]
    exact h
  · refine ⟨?_, ?_⟩
    · intro k
      by_cases hk : k = key
      · subst hk
        simpa using hrow
      · simpa [Rows.set_ne _ hk] using h.rows_ok k
    · intro k
      by_cases hk : k = key
      · subst hk
        simp [Refinement.write, Table.set]
      · simpa [Refinement.write, Table.set, hk, Rows.set_ne _ hk] using h.columns k

/-! ## One transaction -/

section
variable {α : Type} {rows : Rows} {table : Table} {saved : Option Table} {key : String}
variable {tr : Transition α} {now : Datetime} {original updated : Option LeaseRow} {result : α}

theorem requireUtc_utc (now : Datetime) (field : String) :
    requireUtc ⟨now, some 0⟩ field = .ok now := rfl

theorem begin_run : Sql.begin.run (answer now) ⟨table, saved⟩ = (.ok (), ⟨table, some table⟩) := rfl

theorem commit_run : Sql.commit.run (answer now) ⟨table, saved⟩ = (.ok (), ⟨table, none⟩) := rfl

theorem selectNow_run (db : Db) :
    Sql.selectNow.run (answer now) db = (.ok (some (.text now.isoformat)), db) := rfl

theorem selectRow_run (db : Db) :
    (Sql.selectRow key).run (answer now) db = (.ok (db.table key), db) := rfl

theorem sqlite_databaseNow_run (db : Db) :
    (SQLiteStore.databaseNow codec).run (answer now) db = (.ok now, db) := by
  rw [SQLiteStore.databaseNow, Prog.run_bind, selectNow_run]
  simp only [Prog.run_ofExcept, readNow_isoformat]

theorem postgresql_databaseNow_run (db : Db) :
    (PostgreSQLStore.databaseNow codec).run (answer now) db = (.ok now, db) := by
  rw [PostgreSQLStore.databaseNow, Prog.run_bind, selectNow_run]
  simp only [Prog.run_ofExcept, readNow_isoformat]

/-- A row of the right key is inserted where there is none. -/
theorem insert_run {row : LeaseRow} (hrow : RowOk key (some row)) (habsent : table key = none) :
    (Sql.insertRow (rowInsertValues codec row)).run (answer now) ⟨table, saved⟩ =
        (.ok (), ⟨write codec table key (some row), saved⟩) ∧
    (Sql.insertIfAbsent (rowInsertValues codec row)).run (answer now) ⟨table, saved⟩ =
        (.ok true, ⟨write codec table key (some row), saved⟩) := by
  obtain ⟨hshape, rfl⟩ := hrow row rfl
  have hcheck : checkRow (rowInsertValues codec row).2 = true := checkRow_columns hshape
  have hkey : (rowInsertValues codec row).1 = row.request.semanticKey := rfl
  constructor
  · rw [Sql.insertRow, Prog.run_exec, Prog.run_ofExcept, answer, hcheck, if_neg (by decide), hkey]
    simp only [habsent]
    rfl
  · rw [Sql.insertIfAbsent, Prog.run_exec, Prog.run_ofExcept, answer, hcheck, if_neg (by decide),
      hkey]
    simp only [habsent]
    rfl

/-- An update that expects the columns of the stored row takes effect. -/
theorem update_run {old row : LeaseRow} (hrow : RowOk key (some row))
    (hold : table key = some (rowUpdateValues codec old)) :
    (Sql.updateRow key (rowUpdateValues codec row) (rowMatchValues codec old)).run (answer now)
      ⟨table, saved⟩ = (.ok 1, ⟨write codec table key (some row), saved⟩) := by
  have hcheck := @checkRow_columns codec row (hrow row rfl).1
  rw [Sql.updateRow, Prog.run_exec, Prog.run_ofExcept, answer, rowMatchValues_eq,
    if_neg (by simp [hold]), hcheck, if_neg (by decide)]
  rfl

theorem sqlite_writeRow_run (horiginal : table key = original.map (rowUpdateValues codec))
    (hrow : RowOk key updated) (hw : Writes original updated) :
    (SQLiteStore.writeRow codec key original updated).run (answer now) ⟨table, saved⟩ =
      (.ok (), ⟨write codec table key updated, saved⟩) := by
  unfold SQLiteStore.writeRow
  rcases hw with rfl | ⟨hne, row, rfl⟩
  · rw [rowEq_refl, if_pos rfl, write_same horiginal]
    rfl
  · rw [hne, if_neg (by decide)]
    cases original with
    | none => exact (insert_run hrow horiginal).1
    | some old =>
      simp only [Prog.run_bind, update_run hrow horiginal]
      rfl

theorem sqlite_transaction_run (hdecode : decodeRow codec key (table key) = .ok original)
    (horiginal : table key = original.map (rowUpdateValues codec))
    (hstep : ∀ updated result, tr original now = .ok (updated, result) →
      RowOk key updated ∧ Writes original updated) :
    (SQLiteStore.transaction codec key tr).run (answer now) ⟨table, none⟩ =
      settled codec ⟨table, none⟩ key (tr original now) := by
  rw [SQLiteStore.transaction, Prog.run_settle, SQLiteStore.body]
  simp only [Prog.run_bind, begin_run, sqlite_databaseNow_run, selectRow_run, hdecode,
    Prog.run_ofExcept]
  cases htr : tr original now with
  | error e => rfl
  | ok out =>
    obtain ⟨updated, result⟩ := out
    obtain ⟨hrow, hw⟩ := hstep updated result htr
    simp only [sqlite_writeRow_run horiginal hrow hw, commit_run]
    rfl

theorem postgresql_updateRow_run {old : LeaseRow} {row : LeaseRow} (hrow : RowOk key (some row))
    (hold : table key = some (rowUpdateValues codec old)) :
    (PostgreSQLStore.updateRow codec key old (some row) result).run (answer now) ⟨table, saved⟩ =
      (.ok result, ⟨write codec table key (some row), saved⟩) := by
  simp only [PostgreSQLStore.updateRow, Prog.run_bind, update_run hrow hold]
  rfl

theorem postgresql_body_run (hdecode : decodeRow codec key (table key) = .ok original)
    (horiginal : table key = original.map (rowUpdateValues codec))
    (hstep : ∀ updated result, tr original now = .ok (updated, result) →
      RowOk key updated ∧ Writes original updated) :
    (PostgreSQLStore.body codec key tr).run (answer now) ⟨table, saved⟩ =
      settled codec ⟨table, saved⟩ key (tr original now) := by
  rw [PostgreSQLStore.body]
  simp only [Prog.run_bind, selectRow_run, hdecode, Prog.run_ofExcept, postgresql_databaseNow_run]
  cases htr : tr original now with
  | error e => rfl
  | ok out =>
    obtain ⟨updated, result⟩ := out
    obtain ⟨hrow, hw⟩ := hstep updated result htr
    simp only [settled]
    rcases hw with rfl | ⟨hne, row, rfl⟩
    · rw [rowEq_refl, if_pos rfl, write_same horiginal]
      rfl
    · rw [hne, if_neg (by decide)]
      cases original with
      | none =>
        simp only [Prog.run_bind, (insert_run hrow horiginal).2]
        rfl
      | some old => exact postgresql_updateRow_run hrow horiginal

theorem postgresql_transaction_run (hdecode : decodeRow codec key (table key) = .ok original)
    (horiginal : table key = original.map (rowUpdateValues codec))
    (hstep : ∀ updated result, tr original now = .ok (updated, result) →
      RowOk key updated ∧ Writes original updated) :
    (PostgreSQLStore.transaction codec key tr).run (answer now) ⟨table, none⟩ =
      settled codec ⟨table, none⟩ key (tr original now) := by
  rw [PostgreSQLStore.transaction, Prog.run_bind, begin_run]
  simp only [Prog.run_settle, postgresql_body_run hdecode horiginal hstep]
  cases tr original now with
  | error e => rfl
  | ok out => rfl

end

/-! ## Whole calls -/

/-- One call at one time of the database, a whole number of microseconds in UTC. -/
structure TimedCall where
  call : Call
  now : Datetime

def TimedCall.event (c : TimedCall) : Event := ⟨c.call, ⟨c.now, some 0⟩⟩

/-- Calls over a store whose transactions are programs run against the table. -/
def sqlAuthority (host : Host) (kind : StoreKind)
    (transaction : String → Transition Reply → SqlProg Reply) :
    Machine Table TimedCall (Except LeaseError Reply) where
  step table c :=
    match c.call.prepare host kind with
    | .error e => (table, .error e)
    | .ok (key, tr) =>
      let (out, db) := (transaction key tr).run (answer c.now) ⟨table, none⟩
      (db.table, out)

def sqliteAuthority (host : Host) (codec : Codec) :
    Machine Table TimedCall (Except LeaseError Reply) :=
  sqlAuthority host .sqlite (SQLiteStore.transaction codec)

def postgresqlAuthority (host : Host) (codec : Codec) :
    Machine Table TimedCall (Except LeaseError Reply) :=
  sqlAuthority host .postgresql (PostgreSQLStore.transaction codec)

def noTable : Table := fun _ => none

/-- Durations are at least one millisecond. -/
def AtLeastMillisecond : Call → Prop
  | .acquire _ _ _ duration => 1000 ≤ duration.micros
  | .renew _ duration => 1000 ≤ duration.micros
  | _ => True

theorem validateLeaseDuration_kind (kind : StoreKind) {duration : Timedelta}
    (h : 1000 ≤ duration.micros) : validateLeaseDuration kind duration = .ok duration := by
  have hpos : requireLeaseDuration duration = .ok duration := by
    rw [requireLeaseDuration, if_neg (by omega)]
  cases kind with
  | memory => rw [validateLeaseDuration, hpos]; rfl
  | postgresql => rw [validateLeaseDuration, hpos]; rfl
  | sqlite =>
    rw [validateLeaseDuration, hpos, ok_bind]
    simp only [if_neg (show ¬ duration.micros < 1000 by omega)]
    rfl

/-- From one millisecond on, all stores prepare a call alike. -/
theorem prepare_kind (host : Host) (kind : StoreKind) {call : Call} (h : AtLeastMillisecond call) :
    call.prepare host kind = call.prepare host .memory := by
  cases call with
  | acquire request ownerId attemptId duration =>
    simp only [Call.prepare, validateLeaseDuration_kind _ h]
  | renew lease duration => simp only [Call.prepare, validateLeaseDuration_kind _ h]
  | succeed | fail | verifyTerminal => rfl

variable {host : Host}

/-- What a store has to do with one transaction to be a refinement. -/
def RunsTransition (codec : Codec) (transaction : String → Transition Reply → SqlProg Reply) :
    Prop :=
  ∀ (key : String) (tr : Transition Reply) (now : Datetime) (table : Table)
    (original : Option LeaseRow),
    decodeRow codec key (table key) = .ok original →
    table key = original.map (rowUpdateValues codec) →
    (∀ updated result, tr original now = .ok (updated, result) →
      RowOk key updated ∧ Writes original updated) →
    (transaction key tr).run (answer now) ⟨table, none⟩ =
      settled codec ⟨table, none⟩ key (tr original now)

/-- The in-memory store at the database's time. -/
def memoryAuthority (host : Host) : Machine Rows TimedCall (Except LeaseError Reply) where
  step rows c := (authority host .memory).step rows c.event

/-- One call: same reply, and the relation is kept; a call that raises changes nothing. -/
theorem sqlAuthority_step {kind : StoreKind}
    {transaction : String → Transition Reply → SqlProg Reply} (hc : codec.Faithful)
    (hrun : RunsTransition codec transaction) {rows : Rows} {table : Table}
    (henc : Encodes codec rows table) (c : TimedCall) (hd : AtLeastMillisecond c.call) :
    Encodes codec ((memoryAuthority host).step rows c).1
        ((sqlAuthority host kind transaction).step table c).1 ∧
      ((memoryAuthority host).step rows c).2 =
        ((sqlAuthority host kind transaction).step table c).2 ∧
      ∀ e, ((memoryAuthority host).step rows c).2 = .error e →
        ((memoryAuthority host).step rows c).1 = rows ∧
          ((sqlAuthority host kind transaction).step table c).1 = table := by
  simp only [memoryAuthority, authority, sqlAuthority, TimedCall.event, prepare_kind host kind hd]
  cases hp : c.call.prepare host .memory with
  | error e => exact ⟨henc, rfl, fun _ _ => ⟨rfl, rfl⟩⟩
  | ok prepared =>
    obtain ⟨key, tr⟩ := prepared
    have hstep : ∀ updated result, tr (rows key) c.now = .ok (updated, result) →
        RowOk key updated ∧ Writes (rows key) updated := by
      intro updated result htr
      have hcall := prepare_step hp (fun x hx => (henc.rows_ok key x hx).1) htr
      exact ⟨hcall.rowOk (henc.rows_ok key), CallStep.writes hcall⟩
    have hsql := hrun key tr c.now table (rows key) (henc.decode hc key) (henc.columns key) hstep
    simp only [MemoryStore.transaction, requireUtc_utc, hsql]
    cases htr : tr (rows key) c.now with
    | error e => exact ⟨henc, rfl, fun _ _ => ⟨rfl, rfl⟩⟩
    | ok out =>
      obtain ⟨updated, result⟩ := out
      obtain ⟨hrow, hw⟩ := hstep updated result htr
      exact ⟨henc.write hrow hw, rfl, fun _ h => by cases h⟩

/-- Calls raise no internal error. -/
theorem memoryAuthority_clean {rows : Rows} (hrows : RowsOk rows) (c : TimedCall) :
    Clean ((memoryAuthority host).step rows c).2 := by
  simp only [memoryAuthority, authority, TimedCall.event]
  cases hp : c.call.prepare host .memory with
  | error e => exact clean_error ((clean_prepare host .memory c.call).raises e hp)
  | ok prepared =>
    obtain ⟨key, tr⟩ := prepared
    simp only [MemoryStore.transaction, requireUtc_utc]
    cases htr : tr (rows key) c.now with
    | error e =>
      exact clean_error ((clean_transition hp fun x hx => (hrows key x hx).1).raises e htr)
    | ok out => exact clean_ok _

theorem encodes_noRows : Encodes codec noRows noTable := ⟨rowsOk_noRows, fun _ => rfl⟩

/-- After the same calls, a persistent store holds the rows of the in-memory one and answers the
next call as it does; a call that raises raises no internal error and changes nothing. -/
structure Agrees (host : Host) (codec : Codec)
    (store : Machine Table TimedCall (Except LeaseError Reply)) (calls : List TimedCall) :
    Prop where
  rows : ∀ key, decodeRow codec key (store.after noTable calls key) =
    .ok ((memoryAuthority host).after noRows calls key)
  reply : ∀ c, AtLeastMillisecond c.call →
    store.reply noTable calls c = (memoryAuthority host).reply noRows calls c
  raises : ∀ c e, AtLeastMillisecond c.call → store.reply noTable calls c = .error e →
    internal e = false ∧
      store.after noTable (calls ++ [c]) = store.after noTable calls ∧
      (memoryAuthority host).after noRows (calls ++ [c]) =
        (memoryAuthority host).after noRows calls

theorem sqlAuthority_agrees {kind : StoreKind}
    {transaction : String → Transition Reply → SqlProg Reply} (hc : codec.Faithful)
    (hrun : RunsTransition codec transaction) (calls : List TimedCall)
    (hd : ∀ c ∈ calls, AtLeastMillisecond c.call) :
    Agrees host codec (sqlAuthority host kind transaction) calls := by
  have hstep := fun rows table c hd henc =>
    @sqlAuthority_step codec host kind transaction hc hrun rows table henc c hd
  obtain ⟨henc, hreply⟩ := @Machine.lockstep _ _ _ _ _ (memoryAuthority host)
    (sqlAuthority host kind transaction) (Encodes codec) (fun c => AtLeastMillisecond c.call)
    (fun _ r r' => r = r') (fun rows table c hd henc => by
      obtain ⟨hnext, heq, -⟩ := hstep rows table c hd henc
      exact ⟨hnext, heq⟩) noRows noTable calls hd encodes_noRows
  refine ⟨henc.decode hc, fun c hc' => (hreply c hc').symm, ?_⟩
  intro c e hc' he
  rw [← hreply c hc'] at he
  obtain ⟨-, -, hkeep⟩ := hstep _ _ c hc' henc
  obtain ⟨hrows, htable⟩ := hkeep e he
  rw [Machine.after_concat, Machine.after_concat]
  exact ⟨(memoryAuthority_clean henc.rows_ok c).raises e he, htable, hrows⟩

/-- **The persistent stores refine the in-memory one**, for every sequence of calls with
durations of at least one millisecond and every sequence of clock readings. -/
theorem persistent_stores_refine_memory (host : Host) (codec : Codec) (hc : codec.Faithful)
    (calls : List TimedCall) (hd : ∀ c ∈ calls, AtLeastMillisecond c.call) :
    Agrees host codec (sqliteAuthority host codec) calls ∧
      Agrees host codec (postgresqlAuthority host codec) calls :=
  ⟨sqlAuthority_agrees hc (fun _ _ _ _ _ => sqlite_transaction_run) calls hd,
    sqlAuthority_agrees hc (fun _ _ _ _ _ => postgresql_transaction_run) calls hd⟩

theorem persistent_stores_refine_memory_sample :
    Agrees sampleHost parserCodec (sqliteAuthority sampleHost parserCodec)
        [⟨(sampleAcquire "a" 0).call, ⟨0, by decide⟩⟩, ⟨sampleSucceed.call, ⟨5000, by decide⟩⟩] ∧
      Agrees sampleHost parserCodec (postgresqlAuthority sampleHost parserCodec)
        [⟨(sampleAcquire "a" 0).call, ⟨0, by decide⟩⟩, ⟨sampleSucceed.call, ⟨5000, by decide⟩⟩] := by
  refine persistent_stores_refine_memory sampleHost parserCodec parserCodec_faithful _ ?_
  intro c hc
  simp only [List.mem_cons, List.not_mem_nil, or_false] at hc
  rcases hc with rfl | rfl
  · show (1000 : Int) ≤ 10000
    decide
  · exact trivial

end DrStore.Leases.Refinement
