import DrStore.Base.Histories
import DrStore.Leases.Fencing
import DrStore.Leases.Refinement

/-! # Lease transactions of many processes on one SQLite file (lease/_sqlite.py)

Every call opens a connection, runs its transition in `BEGIN IMMEDIATE`, and closes the connection.
Any statement may raise, and any process may die. `statements` are those between the lock and the
commit; on their own they do what the in-memory store does at some time (`statements_ensures`), and
the histories of `Base.Histories` carry this over to all processes. Opening the connection is left
out, a rollback and a close go through. -/
namespace DrStore.Leases.Processes
open DrStore.Base.Calendar DrStore.Base.Exclusive DrStore.Base.Fallible DrStore.Base.Histories
open DrStore.Base.Pool DrStore.Base.Programs DrStore.Base.Runs
open DrStore.Leases.Models DrStore.Leases.Authority DrStore.Leases.Protocol DrStore.Leases.History
open DrStore.Leases.RowEncoding DrStore.Leases.SqlStores DrStore.Leases.Refinement
open DrStore.Leases.Fencing

/-! ## Programs -/

abbrev Script := Prog (Op Stmt) (OpReply StmtReply) (Option LeaseError)

/-- A statement on the table of its transaction, at a time of `A`. -/
def DoesAt (A : Datetime → Prop) (table : Table) (stmt : Stmt) (r : StmtReply stmt)
    (table' : Table) : Prop :=
  ∃ now saved, A now ∧ answer now ⟨table, none⟩ stmt = (r, ⟨table', saved⟩)

/-- The time is whatever the database says. -/
abbrev Does : (table : Table) → (stmt : Stmt) → StmtReply stmt → Table → Prop := DoesAt fun _ => True

namespace SQLiteStore

variable {α : Type}

/-- `transaction` between `BEGIN IMMEDIATE` and the commit. -/
def statements (codec : Codec) (key : String) (tr : Transition α) : SqlProg α := do
  let now ← SqlStores.SQLiteStore.databaseNow codec
  let raw ← Sql.selectRow key
  let original ← Prog.ofExcept (decodeRow codec key raw)
  let (updated, result) ← Prog.ofExcept (tr original now)
  SqlStores.SQLiteStore.writeRow codec key original updated
  return result

/-- These are the statements of the transaction that is run alone. -/
theorem body_eq (codec : Codec) (key : String) (tr : Transition α) :
    SqlStores.SQLiteStore.body codec key tr = do
      Sql.begin
      let result ← statements codec key tr
      Sql.commit
      return result := by
  simp only [SqlStores.SQLiteStore.body, statements, Prog.bind_assoc]
  rfl

/-- The handlers of `transaction`: roll back what raised, and close. -/
def ending : Except (Option LeaseError) α → Script α
  | .ok result => .closing .close (.ok result)
  | .error e => .exec .rollback fun _ => .closing .close (.error e)

def transaction (codec : Codec) (key : String) (tr : Transition α) : Script α :=
  transact (statements codec key tr) (ending (.error none)) ending

end SQLiteStore

/-- A public method over the SQLite store. -/
def program (host : Host) (codec : Codec) (call : Call) : Script Reply :=
  match call.prepare host .sqlite with
  | .error e => .fail (some e)
  | .ok (key, tr) => SQLiteStore.transaction codec key tr

/-! ## What the statements do -/

section Statements

variable {α : Type} {codec : Codec} {rows : Rows} {table : Table} {key : String}
  {original updated : Option LeaseRow} {A : Datetime → Prop}

/-- One write, of a row that the table's constraints allow. -/
theorem writeRow_ensures (horiginal : table key = original.map (rowUpdateValues codec))
    (hrow : RowOk key updated) (hw : Writes original updated) :
    (SqlStores.SQLiteStore.writeRow codec key original updated).ensures (DoesAt A) (fun out table' =>
      out = .ok () ∧ table' = write codec table key updated) table := by
  unfold SqlStores.SQLiteStore.writeRow
  rcases hw with rfl | ⟨hne, row, rfl⟩
  · rw [rowEq_refl, if_pos rfl, write_same horiginal]
    exact ⟨rfl, rfl⟩
  · rw [hne, if_neg (by decide)]
    cases original with
    | none =>
      rintro r table' ⟨now, saved, _, heq⟩
      have hrun : (Sql.insertRow (rowInsertValues codec row)).run (answer now) ⟨table, none⟩ = _ :=
        (insert_run hrow horiginal).1
      rw [Sql.insertRow, Prog.run_exec, Prog.run_ofExcept, heq] at hrun
      cases hrun
      exact ⟨rfl, rfl⟩
    | some old =>
      rintro r table' ⟨now, saved, _, heq⟩
      have hrun : (Sql.updateRow key (rowUpdateValues codec row) (rowMatchValues codec old)).run
          (answer now) ⟨table, none⟩ = _ := update_run hrow horiginal
      rw [Sql.updateRow, Prog.run_exec, Prog.run_ofExcept, heq] at hrun
      cases hrun
      exact ⟨rfl, rfl⟩

/-- The row is read, moved by the transition at some time, and written. -/
theorem statements_ensures {tr : Transition α}
    (hdecode : decodeRow codec key (table key) = .ok original)
    (horiginal : table key = original.map (rowUpdateValues codec))
    (hstep : ∀ now updated result, tr original now = .ok (updated, result) →
      RowOk key updated ∧ Writes original updated) :
    (SQLiteStore.statements codec key tr).ensures (DoesAt A) (fun out table' => ∃ now, A now ∧
      ((∃ updated result, tr original now = .ok (updated, result) ∧ out = .ok result ∧
        table' = write codec table key updated) ∨
      ∃ e, tr original now = .error e ∧ out = .error e)) table := by
  rintro _ _ ⟨now, _, hnow, heq⟩
  cases heq
  show (Prog.ofExcept (readNow codec "SQLite" (some (.text now.isoformat))) >>= _).ensures
    (DoesAt A) _ _
  rw [readNow_isoformat]
  rintro _ _ ⟨_, _, _, heq⟩
  cases heq
  show (Prog.ofExcept (decodeRow codec key (table key)) >>= fun original =>
    Prog.ofExcept (tr original now) >>= _).ensures (DoesAt A) _ _
  rw [hdecode]
  show (Prog.ofExcept (tr original now) >>= fun out : Option LeaseRow × α =>
    SqlStores.SQLiteStore.writeRow codec key original out.1 >>= fun _ =>
      Prog.pure out.2).ensures (DoesAt A) _ _
  cases htr : tr original now with
  | error e => exact ⟨now, hnow, .inr ⟨e, htr, rfl⟩⟩
  | ok out =>
    obtain ⟨updated, result⟩ := out
    obtain ⟨hrow, hw⟩ := hstep now updated result htr
    show (SqlStores.SQLiteStore.writeRow codec key original updated >>= fun _ =>
      Prog.pure result).ensures (DoesAt A) _ _
    refine Prog.ensures_bind _ (writeRow_ensures horiginal hrow hw) ?_ ?_
    · rintro _ _ ⟨_, rfl⟩
      exact ⟨now, hnow, .inl ⟨updated, result, htr, rfl, rfl⟩⟩
    · rintro _ _ ⟨heq, _⟩
      cases heq

end Statements

/-! ## The transaction of a call -/

section Clients

variable {T : Type} {host : Host} {codec : Codec} {calls : T → Call} {t : T}

/-- A call at a time of the database. -/
def event (call : Call) (now : Datetime) : Event := TimedCall.event ⟨call, now⟩

/-- What a call does to a table that encodes rows, by what the machine does to the rows. -/
def ServesAt (host : Host) (codec : Codec) (A : Datetime → Prop) (call : Call) (table : Table)
    (out : Except LeaseError Reply) (table' : Table) : Prop :=
  ∀ rows, Encodes codec rows table → ∃ now, A now ∧
    ((authority host .sqlite).step rows (event call now)).2 = out ∧
    ∀ reply, out = .ok reply →
      Encodes codec ((authority host .sqlite).step rows (event call now)).1 table'

abbrev Serves (host : Host) (codec : Codec) : Call → Table → Except LeaseError Reply → Table → Prop :=
  ServesAt host codec fun _ => True

theorem Encodes.unique (hc : codec.Faithful) {rows rows' : Rows} {table : Table}
    (h : Encodes codec rows table) (h' : Encodes codec rows' table) : rows' = rows := by
  funext key
  exact Except.ok.inj ((h'.decode hc key).symm.trans (h.decode hc key))

theorem transaction_does (hc : codec.Faithful) {A : Datetime → Prop} {call : Call} {key : String}
    {tr : Transition Reply} (hp : call.prepare host .sqlite = .ok (key, tr)) (table : Table) :
    (SQLiteStore.statements codec key tr).ensures (DoesAt A) (ServesAt host codec A call table)
      table := by
  by_cases hencoded : ∃ rows, Encodes codec rows table
  · obtain ⟨rows, henc⟩ := hencoded
    have hstep : ∀ now updated result, tr (rows key) now = .ok (updated, result) →
        RowOk key updated ∧ Writes (rows key) updated := by
      intro now updated result htr
      have hcall := prepare_step hp (fun x hx => (henc.rows_ok key x hx).1) htr
      exact ⟨hcall.rowOk (henc.rows_ok key), CallStep.writes hcall⟩
    refine Prog.ensures_mono (statements_ensures (henc.decode hc key) (henc.columns key) hstep) ?_
    rintro out table' ⟨now, hnow, h⟩ rows' henc'
    rw [Encodes.unique hc henc henc']
    refine ⟨now, hnow, ?_⟩
    simp only [authority, event, TimedCall.event, hp, MemoryStore.transaction, requireUtc_utc]
    rcases h with ⟨updated, result, htr, rfl, rfl⟩ | ⟨e, htr, rfl⟩
    · obtain ⟨hrow, hw⟩ := hstep now updated result htr
      simp only [htr]
      exact ⟨trivial, fun _ _ => henc.write hrow hw⟩
    · simp only [htr]
      exact ⟨trivial, fun _ h => by cases h⟩
  · -- a table that encodes nothing is never met
    refine Prog.ensures_mono (Prog.ensures_true _ _) ?_
    exact fun _ _ _ rows henc => absurd ⟨rows, henc⟩ hencoded

/-- What a call that has committed did. -/
def Ran (host : Host) (codec : Codec) (calls : T → Call) (t : T) (table table' : Table) : Prop :=
  ∃ reply, Serves host codec (calls t) table (.ok reply) table'

def order (s : Shared T Table) : List T := s.log.map Prod.fst

section Threads

variable [DecidableEq T] {s : Shared T Table}

/-- Every call has its place. -/
theorem wp_program (hc : codec.Faithful) (hs : Free t s) (hnew : t ∉ s.log.map Prod.fst) :
    wp (system Does) (histories (Ran host codec calls) noTable) t (program host codec (calls t))
      (fun out s' => Ended (Serves host codec (calls t)) noTable t s.log s'.log out) s := by
  unfold program
  cases hp : (calls t).prepare host .sqlite with
  | error e =>
    refine wp_mono ?_ (just_ofExcept (.error (some e)) (fun log => s.log <:+ log ∧
      t ∉ log.map Prod.fst) s (suffix_stable.and unlogged_stable) ⟨List.suffix_rfl, hnew⟩)
    rintro _ s' _ ⟨rfl, hsince, hnew⟩
    refine ⟨hnew, s'.log, noTable, hsince, List.suffix_rfl, ?_⟩
    intro rows _
    refine ⟨⟨0, by decide⟩, trivial, ?_, fun _ h => by cases h⟩
    simp only [authority, event, TimedCall.event, hp]
  | ok prepared =>
    obtain ⟨key, tr⟩ := prepared
    have hending : ∀ out, Just Does (Ran host codec calls) noTable t out
        (SQLiteStore.ending out : Script Reply) := by
      intro out
      cases out with
      | ok reply => exact just_closing (.ok reply)
      | error e => exact just_rollback (just_closing (.error e))
    exact wp_transact (transaction_does hc hp) (fun _ reply _ h => ⟨reply, h⟩)
      (hending (.error none)) hending hs hnew

end Threads

/-! ## The order as a run of the machine -/

/-- The calls of an order at their times, the first one first. -/
def run (calls : T → Call) (nows : T → Datetime) (order : List T) : List Event :=
  (order.map fun t => event (calls t) (nows t)).reverse

theorem run_cons (nows : T → Datetime) (t : T) (order : List T) :
    run calls nows (t :: order) = run calls nows order ++ [event (calls t) (nows t)] := by
  simp [run]

theorem run_congr {nows nows' : T → Datetime} {order : List T}
    (h : ∀ t ∈ order, nows' t = nows t) : run calls nows' order = run calls nows order := by
  rw [run, run, List.map_congr_left fun t ht => by rw [h t ht]]

/-- The machine replied to a call on the log, at its place, as the call returned. -/
def Replies (host : Host) (calls : T → Call) (nows : T → Datetime) (returned : T → Reply → Prop)
    (t : T) (pre : List T) : Prop :=
  ∃ reply, (authority host .sqlite).reply noRows (run calls nows pre) (event (calls t) (nows t)) =
    .ok reply ∧ ∀ reply', returned t reply' → reply' = reply

/-- The times at which the calls of a serial history did what they did. -/
theorem exists_times [DecidableEq T] {returned : T → Reply → Prop} {log : List (T × Table)}
    (hserial : Serial (fun t table table' => ∃ reply,
      Serves host codec (calls t) table (.ok reply) table' ∧
        ∀ reply', returned t reply' → reply' = reply) noTable log)
    (honce : (log.map Prod.fst).Nodup) :
    ∃ nows : T → Datetime, ∀ pre, pre <:+ log →
      Encodes codec ((authority host .sqlite).after noRows (run calls nows (pre.map Prod.fst)))
        (latest noTable pre) ∧
      ∀ t table pre', pre = (t, table) :: pre' →
        Replies host calls nows returned t (pre'.map Prod.fst) := by
  induction log with
  | nil =>
    refine ⟨fun _ => ⟨0, by decide⟩, ?_⟩
    intro pre hpre
    cases List.suffix_nil.mp hpre
    exact ⟨encodes_noRows, fun _ _ _ h => by cases h⟩
  | cons p log ih =>
    obtain ⟨t, table⟩ := p
    obtain ⟨hnew, honce⟩ := List.nodup_cons.mp honce
    obtain ⟨nows, htimes⟩ := ih hserial.2 honce
    obtain ⟨reply, hserves, hreturned⟩ := hserial.1
    obtain ⟨now, _, hreply, hencodes⟩ := hserves _ (htimes log List.suffix_rfl).1
    have hothers : ∀ u ∈ log.map Prod.fst, Function.update nows t now u = nows u := by
      intro u hu
      refine Function.update_of_ne ?_ ..
      rintro rfl
      exact hnew hu
    have hrun : ∀ pre, pre <:+ log → run calls (Function.update nows t now) (pre.map Prod.fst) =
        run calls nows (pre.map Prod.fst) := fun pre hpre =>
      run_congr fun u hu => hothers u ((hpre.map Prod.fst).mem hu)
    refine ⟨Function.update nows t now, ?_⟩
    intro pre hpre
    rcases List.suffix_cons_iff.mp hpre with rfl | hpre
    · refine ⟨?_, ?_⟩
      · rw [List.map_cons, run_cons, hrun log List.suffix_rfl, Function.update_self,
          Machine.after_concat]
        exact hencodes reply rfl
      · rintro _ _ _ heq
        cases heq
        refine ⟨reply, ?_, hreturned⟩
        rw [hrun log List.suffix_rfl, Function.update_self]
        exact hreply
    · obtain ⟨henc, hreplies⟩ := htimes pre hpre
      refine ⟨?_, ?_⟩
      · rw [hrun pre hpre]
        exact henc
      · rintro u table' pre' rfl
        obtain ⟨reply', hreply', hreturned'⟩ := hreplies u table' pre' rfl
        refine ⟨reply', ?_, hreturned'⟩
        rw [hrun pre' ((List.suffix_cons ..).trans hpre),
          hothers u (List.mem_map_of_mem (hpre.mem List.mem_cons_self))]
        exact hreply'

/-! ## Every interleaving -/

/-- How a call ends that begins after `since`: with the machine's reply at its place and time; an
error of the authority is the machine's at some place and time, and leaves no trace. -/
def Placed (host : Host) (calls : T → Call) (nows : T → Datetime) (since order : List T) (t : T) :
    Except (Option LeaseError) Reply → Prop
  | .ok reply => ∃ pre, since <:+ pre ∧ t :: pre <:+ order ∧
    (authority host .sqlite).reply noRows (run calls nows pre) (event (calls t) (nows t)) = .ok reply
  | .error (some e) => t ∉ order ∧ ∃ pre now, Between since order pre ∧
    (authority host .sqlite).reply noRows (run calls nows pre) (event (calls t) now) = .error e
  | .error none => True

section Runs

variable [DecidableEq T]
  {c₁ c : Config T (Shared T Table) (Op Stmt) (OpReply StmtReply) (Option LeaseError) Reply}

/-- What a call that begins after `c₁` has done by `c`. -/
theorem ended_later (hc : codec.Faithful)
    (h₁ : Reachable (system Does) ⟨noTable, none, []⟩ (fun t => program host codec (calls t)) c₁)
    (h : Relation.ReflTransGen (Step (system Does)) c₁ c) :
    History (Ran host codec calls) noTable c.state.committed c.state.log ∧
      c₁.state.log <:+ c.state.log ∧
      ∀ t out, c₁.prog t = some (program host codec (calls t)) →
        c.prog t = some (.ofExcept out) →
          Ended (Serves host codec (calls t)) noTable t c₁.state.log c.state.log out :=
  later_history (Q := fun t since out log => Ended (Serves host codec (calls t)) noTable t since log out)
    (fun _ _ _ hs hnew => wp_program hc hs hnew) h₁ h

/-- The times of a run, at which the calls did what they returned. -/
theorem reachable_times (hc : codec.Faithful)
    (h : Reachable (system Does) ⟨noTable, none, []⟩ (fun t => program host codec (calls t)) c) :
    ∃ nows : T → Datetime, ∀ pre, pre <:+ c.state.log →
      Encodes codec ((authority host .sqlite).after noRows (run calls nows (pre.map Prod.fst)))
        (latest noTable pre) ∧
      ∀ t table pre', pre = (t, table) :: pre' →
        Replies host calls nows (fun t reply => c.prog t = some (.pure reply)) t
          (pre'.map Prod.fst) := by
  obtain ⟨hhistory, _, hended⟩ := ended_later hc .refl h
  refine exists_times ?_ hhistory.once
  rw [serial_iff]
  intro t table pre hplace
  by_cases hreturned : ∃ reply, c.prog t = some (.pure reply)
  · obtain ⟨reply, hreturned⟩ := hreturned
    obtain ⟨pre', table', _, hplace', hserves⟩ := hended t (.ok reply) rfl hreturned
    obtain ⟨rfl, rfl⟩ := place_unique hhistory.once hplace hplace'
    refine ⟨reply, hserves, ?_⟩
    intro reply' hreturned'
    rw [hreturned] at hreturned'
    cases hreturned'
    rfl
  · obtain ⟨reply, hserves⟩ := serial_iff.mp hhistory.serial t table pre hplace
    exact ⟨reply, hserves, fun reply' h => absurd ⟨reply', h⟩ hreturned⟩

/-- **Lease transactions of any number of processes on one SQLite file are strictly serializable.**
However many calls there are, in whatever order their statements run, whichever raise and whoever
dies: there are times at which the committed calls, each once, one after another, take the
in-memory authority to the rows that the file encodes; every call that returned had its reply
there; and what begins after `c₁` comes after all that had committed by then. -/
theorem lease_processes_serializable (hc : codec.Faithful)
    (h₁ : Reachable (system Does) ⟨noTable, none, []⟩ (fun t => program host codec (calls t)) c₁)
    (h : Relation.ReflTransGen (Step (system Does)) c₁ c) :
    (order c.state).Nodup ∧ order c₁.state <:+ order c.state ∧
    ∃ nows : T → Datetime,
      Encodes codec ((authority host .sqlite).after noRows (run calls nows (order c.state)))
        c.state.committed ∧
      ∀ t out, c₁.prog t = some (program host codec (calls t)) →
        c.prog t = some (.ofExcept out) →
          Placed host calls nows (order c₁.state) (order c.state) t out := by
  obtain ⟨hhistory, hlog, hended⟩ := ended_later hc h₁ h
  obtain ⟨nows, htimes⟩ := reachable_times hc (h₁.trans h)
  refine ⟨hhistory.once, hlog.map _, nows, ?_, ?_⟩
  · rw [hhistory.committed]
    exact (htimes _ List.suffix_rfl).1
  · intro t out hbegun hp
    have hend := hended t out hbegun hp
    cases out with
    | ok reply =>
      obtain ⟨pre, table, hsince, hplace, _⟩ := hend
      obtain ⟨reply', hreply, heq⟩ := (htimes _ hplace).2 t table pre rfl
      cases heq reply hp
      exact ⟨pre.map Prod.fst, hsince.map _, hplace.map Prod.fst, hreply⟩
    | error e =>
      cases e with
      | none => trivial
      | some e =>
        obtain ⟨hnew, pre, table, hsince, hpre, hserves⟩ := hend
        obtain ⟨now, _, hreply, _⟩ := hserves _ (htimes pre hpre).1
        exact ⟨hnew, pre.map Prod.fst, now, ⟨hsince.map _, hpre.map _⟩, hreply⟩

end Runs

/-! ## A call alone -/

/-- A database that says `now`. -/
def answerAt (now : Datetime) (table : Table) (stmt : Stmt) : StmtReply stmt × Table :=
  ((answer now ⟨table, none⟩ stmt).1, (answer now ⟨table, none⟩ stmt).2.table)

variable (calls) in
/-- **Nobody has to be waited for but the holder of the lock.** Where the lock is free a call can
run to its end at any time, with the machine's reply at this time. -/
theorem returns_alone [DecidableEq T] (hc : codec.Faithful)
    {c : Config T (Shared T Table) (Op Stmt) (OpReply StmtReply) (Option LeaseError) Reply}
    {rows : Rows} (hfree : c.state.holder = none) (hencodes : Encodes codec rows c.state.committed)
    (hp : c.prog t = some (program host codec (calls t))) (now : Datetime) {reply : Reply}
    (hreply : ((authority host .sqlite).step rows (event (calls t) now)).2 = .ok reply) :
    ∃ c', Relation.ReflTransGen (Step (system Does)) c c' ∧ c'.state.holder = none ∧
      Encodes codec ((authority host .sqlite).step rows (event (calls t) now)).1
        c'.state.committed ∧
      c'.prog = Function.update c.prog t (some (.pure reply)) := by
  unfold program at hp
  cases hprepare : (calls t).prepare host .sqlite with
  | error e => simp only [authority, event, TimedCall.event, hprepare, reduceCtorEq] at hreply
  | ok prepared =>
    obtain ⟨key, tr⟩ := prepared
    simp only [hprepare] at hp
    have hanswer : ∀ table stmt, DoesAt (· = now) table stmt (answerAt now table stmt).1
        (answerAt now table stmt).2 := fun table stmt => ⟨now, _, rfl, rfl⟩
    obtain ⟨_, hnow, hrun, henc⟩ := @Prog.run_ensures _ _ _ _ _ _ _ (answerAt now) id hanswer _ _ _
      (transaction_does hc hprepare c.state.committed) rows hencodes
    rw [hnow] at hrun henc
    rw [hreply] at hrun
    have hruns : (SQLiteStore.transaction codec key tr).allows ((system Does).step t)
        (fun out s' => out = .ok reply ∧ s' = ⟨_, none, _⟩) c.state :=
      allows_transact (g := answerAt now) (fun table stmt => ⟨now, _, trivial, rfl⟩) hfree
        (Prod.ext hrun.symm rfl) (Prog.allows_exec () rfl ⟨rfl, rfl⟩)
    obtain ⟨_, _, ⟨rfl, rfl⟩, hsteps⟩ := runs_alone hruns hp
    exact ⟨_, hsteps, rfl, henc reply hrun.symm, rfl⟩

/-! ## Fences and terminals of all processes -/

/-- The row that a reply is about, after the call. -/
theorem reply_row {nows : T → Datetime} {pre : List T} {reply : Reply}
    (h : (authority host .sqlite).reply noRows (run calls nows pre) (event (calls t) (nows t)) =
      .ok reply) :
    (∀ l, Reply.lease? reply = some l → (authority host .sqlite).after noRows
      (run calls nows (t :: pre)) l.request.semanticKey = some (.leased l)) ∧
    ∀ x, Reply.terminal? reply = some x → (authority host .sqlite).after noRows
      (run calls nows (t :: pre)) x.request.semanticKey = some (.terminalized x) := by
  obtain ⟨key, _, hstep⟩ := reply_step (after_rowsOk _) h
  have hafter := Machine.after_concat (authority host .sqlite) noRows (run calls nows pre)
    (event (calls t) (nows t))
  rw [← run_cons] at hafter
  rw [← hafter] at hstep
  refine ⟨?_, ?_⟩
  · intro l hl
    have hrow := callStep_lease hstep hl
    have hkey : l.request.semanticKey = key := (after_rowsOk _ key _ hrow).2
    rwa [hkey]
  · intro x hx
    have hrow := callStep_terminal hstep hx
    have hkey : x.request.semanticKey = key := (after_rowsOk _ key _ hrow).2
    rwa [hkey]

theorem run_suffix (nows : T → Datetime) {pre order : List T} (h : pre <:+ order) :
    ∃ post, run calls nows order = run calls nows pre ++ post := by
  obtain ⟨later, rfl⟩ := h
  exact ⟨run calls nows later, by simp [run]⟩

/-- What two calls, one on the log before the other, can have been told. -/
def Agree (reply reply' : Reply) : Prop :=
  (∀ l l', Reply.lease? reply = some l → Reply.lease? reply' = some l' →
    l.request.semanticKey = l'.request.semanticKey → l.fence = l'.fence →
      l.ownerId = l'.ownerId ∧ l.attemptId = l'.attemptId) ∧
  ∀ x x', Reply.terminal? reply = some x → Reply.terminal? reply' = some x' →
    x.request.semanticKey = x'.request.semanticKey → x = x'

theorem agree_earlier {nows : T → Datetime} {u : T} {pre pre' : List T} {reply reply' : Reply}
    (h : (authority host .sqlite).reply noRows (run calls nows pre) (event (calls t) (nows t)) =
      .ok reply)
    (h' : (authority host .sqlite).reply noRows (run calls nows pre') (event (calls u) (nows u)) =
      .ok reply') (hsuffix : t :: pre <:+ u :: pre') : Agree reply reply' := by
  obtain ⟨post, hrun⟩ : ∃ post, run calls nows (u :: pre') = run calls nows (t :: pre) ++ post :=
    run_suffix nows hsuffix
  obtain ⟨hlease, hterminal⟩ := reply_row h
  obtain ⟨hlease', hterminal'⟩ := reply_row h'
  rw [hrun] at hlease' hterminal'
  refine ⟨?_, ?_⟩
  · intro l l' hl hl' hkey hfence
    have hrow := hlease l hl
    rw [hkey] at hrow
    exact run_holder_eq hrow (hlease' l' hl') hfence
  · intro x x' hx hx' hkey
    have hrow := hterminal x hx
    rw [hkey] at hrow
    have hkept := (terminalized_stays host .sqlite post hrow).symm.trans (hterminal' x' hx')
    exact LeaseRow.terminalized_inj (Option.some.inj hkept)

/-- **Processes agree on who holds a fence and on how an effect has ended.** Whatever else runs,
raises or dies: two calls of any processes that were told of a lease on one key with one fence were
told of one attempt, and two that were told of a terminal of one key were told of the same. -/
theorem processes_agree [DecidableEq T] (hc : codec.Faithful)
    {c : Config T (Shared T Table) (Op Stmt) (OpReply StmtReply) (Option LeaseError) Reply}
    (h : Reachable (system Does) ⟨noTable, none, []⟩ (fun t => program host codec (calls t)) c)
    {t u : T} {reply reply' : Reply} (ht : c.prog t = some (.pure reply))
    (hu : c.prog u = some (.pure reply')) : Agree reply reply' := by
  obtain ⟨_, _, hended⟩ := ended_later hc .refl h
  obtain ⟨nows, htimes⟩ := reachable_times hc h
  have hplaced : ∀ {t reply}, c.prog t = some (.pure reply) → ∃ pre : List T,
      t :: pre <:+ order c.state ∧ (authority host .sqlite).reply noRows (run calls nows pre)
        (event (calls t) (nows t)) = .ok reply := by
    intro t reply ht
    obtain ⟨pre, table, _, hplace, _⟩ := hended t (.ok reply) rfl ht
    obtain ⟨reply', hreply, heq⟩ := (htimes _ hplace).2 t table pre rfl
    cases heq reply ht
    exact ⟨pre.map Prod.fst, hplace.map Prod.fst, hreply⟩
  obtain ⟨pre, hpre, hreply⟩ := hplaced ht
  obtain ⟨pre', hpre', hreply'⟩ := hplaced hu
  rcases List.suffix_or_suffix_of_suffix hpre hpre' with hsuffix | hsuffix
  · exact agree_earlier hreply hreply' hsuffix
  · obtain ⟨hlease, hterminal⟩ := agree_earlier hreply' hreply hsuffix
    refine ⟨?_, ?_⟩
    · intro l l' hl hl' hkey hfence
      obtain ⟨howner, hattempt⟩ := hlease l' l hl' hl hkey.symm hfence.symm
      exact ⟨howner.symm, hattempt.symm⟩
    · exact fun x x' hx hx' hkey => (hterminal x' x hx' hx hkey.symm).symm

end Clients

/-! ### One process acquires, another one renews -/

def sampleCalls : Bool → Call
  | true => (sampleAcquire "a" 0).call
  | false => .renew sampleLease ⟨20000⟩

def sampleNow : Datetime := ⟨0, by decide⟩

/-- Each runs alone, and has its reply. -/
theorem sample_runs :
    ∃ (c₁ c : Config Bool (Shared Bool Table) (Op Stmt) (OpReply StmtReply) (Option LeaseError) Reply)
      (r : AcquireResult) (l : Lease),
      Reachable (system Does) ⟨noTable, none, []⟩
        (fun t => program sampleHost parserCodec (sampleCalls t)) c₁ ∧
      Relation.ReflTransGen (Step (system Does)) c₁ c ∧
      c₁.prog false = some (program sampleHost parserCodec (sampleCalls false)) ∧
      c.prog true = some (.pure (.acquired r)) ∧ c.prog false = some (.pure (.renewed l)) ∧
      r.lease = some sampleLease ∧ l.fence = 1 ∧ l.request = sampleLease.request := by
  have hacquires : ∃ r, ((authority sampleHost .sqlite).step noRows
      (event (sampleCalls true) sampleNow)).2 = .ok (.acquired r) ∧ r.lease = some sampleLease :=
    ⟨_, rfl, rfl⟩
  obtain ⟨r, hr, hlease⟩ := hacquires
  obtain ⟨c₁, h₁, hfree, hencodes, hprog⟩ := returns_alone sampleCalls (t := true)
    (c := start ⟨noTable, none, []⟩ fun t => program sampleHost parserCodec (sampleCalls t))
    parserCodec_faithful rfl encodes_noRows rfl sampleNow hr
  have hrenews : ∃ l, ((authority sampleHost .sqlite).step ((authority sampleHost .sqlite).step noRows
      (event (sampleCalls true) sampleNow)).1 (event (sampleCalls false) sampleNow)).2 =
        .ok (.renewed l) ∧ l.fence = 1 ∧ l.request = sampleLease.request := ⟨_, rfl, rfl, rfl⟩
  obtain ⟨l, hl, hfence, hrequest⟩ := hrenews
  have hbegun : c₁.prog false = some (program sampleHost parserCodec (sampleCalls false)) := by
    rw [hprog]
    rfl
  obtain ⟨c, h, _, _, hprog'⟩ := returns_alone sampleCalls (t := false)
    parserCodec_faithful hfree hencodes hbegun sampleNow hl
  refine ⟨c₁, c, r, l, h₁, h, hbegun, ?_, ?_, hlease, hfence, hrequest⟩
  · rw [hprog', hprog]
    rfl
  · rw [hprog']
    rfl

/-- The renewal comes after the acquisition, which had committed when it began. -/
theorem lease_processes_serializable_sample :
    ∃ (c : Config Bool (Shared Bool Table) (Op Stmt) (OpReply StmtReply) (Option LeaseError) Reply)
      (l : Lease), c.prog false = some (.pure (.renewed l)) ∧ ∃ since nows,
        Placed sampleHost sampleCalls nows since (order c.state) false (.ok (.renewed l)) := by
  obtain ⟨c₁, c, r, l, h₁, h, hbegun, _, hfalse, _⟩ := sample_runs
  obtain ⟨_, _, nows, _, hplaced⟩ := lease_processes_serializable parserCodec_faithful h₁ h
  exact ⟨c, l, hfalse, order c₁.state, nows, hplaced false (.ok (.renewed l)) hbegun hfalse⟩

/-- Both hold the first fence of one key: they speak of one attempt. -/
theorem processes_agree_sample :
    ∃ l : Lease, l.fence = sampleLease.fence ∧ sampleLease.ownerId = l.ownerId ∧
      sampleLease.attemptId = l.attemptId := by
  obtain ⟨c₁, c, r, l, h₁, h, _, htrue, hfalse, hlease, hfence, hrequest⟩ := sample_runs
  have hagree := processes_agree parserCodec_faithful (h₁.trans h) htrue hfalse
  exact ⟨l, hfence, hagree.1 sampleLease l hlease rfl (by rw [hrequest]) hfence.symm⟩

end DrStore.Leases.Processes
