import DrStore.Store.Enlisted
import DrStore.Store.Sqlite

/-! # What one statement carries (storage_backends/postgresql.py, storage_backends/sqlite.py)

`batch_chunk_size` keeps the parameters of a statement below the limit of the driver, and
`_KEY_QUERY_CHUNK_SIZE` below that of SQLite. A statement is a slice of its list: not empty, no
longer than the bound, and without repetitions where the list has none. The second list that is read
back, the references of the bindings that were found, is as long as the server's reply makes it; the
bounds hold whatever that is. -/
namespace DrStore.Store.StatementSizes
open DrStore.Base.Collections DrStore.Base.Programs DrStore.Store.Contract DrStore.Store.Enlisted
open DrStore.Store.ObjectStore DrStore.Store.Postgres DrStore.Store.Sqlite DrStore.Store.Statements

variable {α κ : Type} {ok : Query → Prop}

/-! ## Slices -/

/-- What one statement may carry of a list. -/
structure Slice (n : Nat) (distinct : Prop) (xs : List κ) : Prop where
  nonempty : xs ≠ []
  bounded : xs.length ≤ n
  nodup : distinct → xs.Nodup

/-- A chunk, by what its rows are told apart by. -/
theorem slice_map {n : Nat} (hn : 0 < n) {f : α → κ} {xs chunk : List α}
    (hchunk : chunk ∈ chunks n xs) {distinct : Prop} (hdistinct : distinct → (xs.map f).Nodup) :
    Slice n distinct (chunk.map f) := by
  obtain ⟨hnonempty, hbounded, hsublist⟩ := mem_chunks hn hchunk
  refine ⟨?_, ?_, fun h => (hdistinct h).sublist (hsublist.map f)⟩
  · exact fun h => hnonempty (List.map_eq_nil_iff.mp h)
  · rw [List.length_map]
    exact hbounded

theorem slice_chunk {n : Nat} (hn : 0 < n) {xs chunk : List α} (hchunk : chunk ∈ chunks n xs)
    {distinct : Prop} (hdistinct : distinct → xs.Nodup) : Slice n distinct chunk := by
  have h : Slice n distinct (chunk.map id) := slice_map hn hchunk (by simpa using hdistinct)
  rwa [List.map_id] at h

/-- The bound of each query. -/
def Carries (n : Nat) (distinct : Prop) : Query → Prop
  | .insertObjects rows => Slice n distinct (rows.map Prod.fst)
  | .selectObjects references => Slice n distinct references
  | .insertBindings rows => Slice n distinct (rows.map Prod.fst)
  | .selectBindings keys | .selectBound keys | .deleteBindings keys => Slice n distinct keys
  | .insertObject _ _ | .selectObject _ | .selectByHash _ _ | .insertBinding _ _
  | .selectBinding _ => True

/-- The statements of a call carry what `ok` allows. -/
def Within (ok : Query → Prop) (p : Prog Stmt StmtReply ContentAddressing.StoreError α) : Prop :=
  p.follows (fun op => ∀ q, op = .query q → ok q) (fun _ _ => True) fun _ => True

theorem within_onConnection {p : Program α} (hp : Sends ok p) : Within ok (onConnection p) := by
  induction p with
  | pure a => trivial
  | fail e => trivial
  | exec q k ih => exact ⟨(fun _ h => by cases h; exact hp.1), fun r _ => ih r (hp.2 r trivial)⟩

theorem within_transaction {p : Program α} (hp : Sends ok p) : Within ok (transaction p) := by
  refine ⟨(fun _ h => by cases h), fun _ _ => ?_⟩
  refine Prog.follows_settle (fun _ => True) (within_onConnection hp) ?_
  intro out _
  cases out with
  | ok a => exact ⟨(fun _ h => by cases h), fun _ _ => trivial⟩
  | error e => exact ⟨(fun _ h => by cases h), fun _ _ => trivial⟩

/-! ## PostgreSQL -/

section Postgres

variable {n : Nat} (hn : 0 < n)
include hn

theorem sends_getBoundObjects {keys : List String} (hkeys : keys.Nodup) :
    Sends (Carries n True) (PostgresBackend.getBoundObjectsOnConnection n keys) := by
  refine sends_bind (sends_fetchAll (fun chunk hchunk => ?_) _) fun bindings => ?_
  · exact sends_query (q := .selectBindings chunk) (slice_chunk hn hchunk fun _ => hkeys)
  refine sends_bind (sends_fetchAll (fun chunk hchunk => ?_) _) fun objects => trivial
  -- however many bindings the server has reported
  exact sends_query (q := .selectObjects chunk)
    (slice_chunk hn hchunk fun _ => nodup_eraseDups _)

theorem sends_deleteBindings {keys : List String} (hkeys : keys.Nodup) :
    Sends (Carries n True) (PostgresBackend.deleteBindingsOnConnection n keys) :=
  sends_gather (fun chunk hchunk => sends_query (q := .deleteBindings chunk)
    (slice_chunk hn hchunk fun _ => hkeys)) _

theorem sends_storeObjects (objects : Dict RowKey String) :
    Sends (Carries n True) (PostgresBackend.storeObjects n objects) := by
  have hinsert : ∀ chunks' : List (List (RowKey × String)),
      (∀ chunk ∈ chunks', Slice n True (chunk.map Prod.fst)) →
      Sends (Carries n True) (PostgresBackend.insertObjects chunks') := by
    intro chunks' h
    induction chunks' with
    | nil => trivial
    | cons chunk rest ih =>
      refine sends_bind (sends_query (q := .insertObjects chunk) (h chunk List.mem_cons_self)) ?_
      exact fun _ => ih fun chunk hchunk => h chunk (List.mem_cons_of_mem _ hchunk)
  refine sends_bind (hinsert _ fun chunk hchunk => slice_map hn hchunk fun _ => objects.nodup) ?_
  intro _
  refine sends_bind (sends_fetchAll (fun chunk hchunk => ?_) _) fun stored => sends_ofExcept _
  exact sends_query (q := .selectObjects chunk) (slice_chunk hn hchunk fun _ => objects.nodup)

theorem sends_storeBindings {entries : List BoundObjectWrite} {objects : Dict RowKey String}
    {writes : Dict String BoundObjectWrite}
    (hd : PostgresBackend.Distinct entries objects writes) :
    Sends (Carries n True) (PostgresBackend.storeBindings n writes) := by
  have hkeys : (writes.values.map BoundObjectWrite.key).Nodup := by
    rw [hd.keys_eq]
    exact writes.nodup
  refine sends_bind (sends_gather (fun chunk hchunk => ?_) _) fun inserted => ?_
  · refine sends_query (q := .insertBindings (bindingPairs chunk)) ?_
    show Slice n True ((bindingPairs chunk).map Prod.fst)
    rw [bindingPairs, List.map_map]
    exact slice_map hn hchunk fun _ => hkeys
  refine sends_bind (sends_fetchAll (fun chunk hchunk => ?_) _) fun stored => ?_
  · exact sends_query (q := .selectBindings chunk) (slice_chunk hn hchunk fun _ => writes.nodup)
  · split <;> trivial

theorem sends_putBoundObjects (entries : List BoundObjectWrite) :
    Sends (Carries n True) (PostgresBackend.putBoundObjectsOnConnection n entries) := by
  unfold PostgresBackend.putBoundObjectsOnConnection
  cases hd : PostgresBackend.distinctWrites entries Dict.empty Dict.empty with
  | error e => trivial
  | ok d =>
    obtain ⟨objects, writes⟩ := d
    show Sends _ (PostgresBackend.storeObjects n objects >>= fun _ =>
      PostgresBackend.storeBindings n writes)
    exact sends_bind (sends_storeObjects hn objects) fun _ =>
      sends_storeBindings hn (PostgresBackend.distinctWrites_ok hd)

end Postgres

theorem sends_insertThenRead {n : Nat} {distinct : Prop} (key : String) (reference : RowKey) :
    Sends (Carries n distinct) (insertThenRead key reference) := by
  refine sends_bind (sends_query (q := .insertBinding key reference) trivial) fun inserted => ?_
  refine sends_bind (sends_query (q := .selectBinding key) trivial) fun row => ?_
  cases row <;> trivial

theorem sends_putObject {n : Nat} (schema contentHash canonical : String) :
    Sends (Carries n True)
      (PostgresBackend.putObjectOnConnection schema contentHash canonical) := by
  refine sends_bind (sends_query (q := .insertObject _ _) trivial) fun inserted => ?_
  cases inserted with
  | some _ => trivial
  | none =>
    refine sends_bind (sends_query (q := .selectObject _) trivial) fun stored => ?_
    cases stored <;> trivial

theorem postgres_within (b : PostgresBackend) (call : Call) :
    Within (Carries b.batchChunkSize True) (b.program call) := by
  cases call with
  | putObject schema contentHash canonical =>
    exact within_transaction (sends_bind (sends_putObject ..) fun _ => trivial)
  | getObject schema contentHash =>
    exact within_onConnection
      (sends_bind (sends_query (q := .selectByHash _ _) trivial) fun _ => trivial)
  | bind key schema contentHash =>
    exact within_transaction (sends_bind (sends_insertThenRead ..) fun _ => trivial)
  | getBinding key =>
    exact within_onConnection
      (sends_bind (sends_query (q := .selectBinding _) trivial) fun _ => trivial)
  | getBoundObjects keys =>
    simp only [PostgresBackend.program]
    split
    · trivial
    · exact within_onConnection
        (sends_bind (sends_getBoundObjects b.positive (nodup_eraseDups _)) fun _ => trivial)
  | putBoundObjects entries =>
    simp only [PostgresBackend.program]
    split
    · trivial
    · exact within_transaction
        (sends_bind (sends_putBoundObjects b.positive entries) fun _ => trivial)
  | deleteBindings keys =>
    simp only [PostgresBackend.program]
    split
    · trivial
    · exact within_transaction
        (sends_bind (sends_deleteBindings b.positive (nodup_eraseDups _)) fun _ => trivial)

/-! ## Enlisted operations -/

variable {D : DrSerialize}

theorem sends_enlisted (b : PostgresBackend) (op : EnlistedOp D) :
    Sends (Carries b.batchChunkSize True) (enlisted b op) := by
  cases op with
  | put schema record =>
    refine sends_bind (sends_ofExcept _) fun _ => sends_bind (sends_ofExcept _) fun prepared => ?_
    refine sends_bind ?_ fun outcome => sends_ofExcept _
    exact sends_bind (sends_ofExcept _) fun _ => sends_putObject ..
  | get reference =>
    refine sends_bind (sends_bind (sends_ofExcept _) fun _ => ?_) fun stored => sends_ofExcept _
    exact sends_query (q := .selectByHash _ _) trivial
  | getMany keys schema =>
    refine sends_bind (sends_ofExcept _) fun validatedSchema => ?_
    refine sends_bind ?_ fun rows => sends_ofExcept _
    refine sends_bind (sends_ofExcept _) fun _ => sends_bind (sends_ofExcept _) fun _ => ?_
    show Sends _ (if _ then _ else _)
    split
    · trivial
    · exact sends_getBoundObjects b.positive (nodup_eraseDups _)
  | putMany entries =>
    refine sends_bind (sends_ofExcept _) fun writes => ?_
    refine sends_bind (sends_bind (sends_ofExcept _) fun _ => ?_) fun outcomes => sends_ofExcept _
    show Sends _ (if _ then _ else _)
    split
    · trivial
    · exact sends_putBoundObjects b.positive writes
  | bind key reference =>
    refine sends_bind (sends_ofExcept _) fun _ => sends_bind ?_ fun outcome => sends_ofExcept _
    refine sends_bind (sends_ofExcept _) fun _ => sends_bind (sends_ofExcept _) fun _ => ?_
    exact sends_insertThenRead ..
  | resolve key =>
    refine sends_bind (sends_ofExcept _) fun _ => sends_bind ?_ fun bound => sends_ofExcept _
    refine sends_bind (sends_ofExcept _) fun _ => ?_
    exact sends_query (q := .selectBinding _) trivial

/-! ## SQLite -/

/-- The list that a call asks about; the backend does not look for repetitions in it. -/
def keyList : Call → List String
  | .getBoundObjects keys | .deleteBindings keys => keys
  | .putObject _ _ _ | .getObject _ _ | .bind _ _ _ | .getBinding _ | .putBoundObjects _ => []

/-- Objects are inserted row by row (`executemany`). -/
def CarriesKeys (keys : List String) (q : Query) : Prop :=
  (∃ rows, q = .insertObjects rows) ∨ Carries keyQueryChunkSize keys.Nodup q

theorem sends_bindEntries {keys : List String} (entries : List BoundObjectWrite)
    (outcomes : Dict String BindOutcome) :
    Sends (CarriesKeys keys) (SqliteBackend.bindEntries entries outcomes) := by
  induction entries generalizing outcomes with
  | nil => trivial
  | cons e entries ih =>
    rw [SqliteBackend.bindEntries]
    split
    · exact ih outcomes
    refine sends_bind (sends_query (q := .insertBinding _ _) (.inr trivial)) fun bound => ?_
    refine sends_bind (sends_query (q := .selectBinding _) (.inr trivial)) fun row => ?_
    cases row with
    | none => trivial
    | some existing => exact ih _

theorem sends_compareObjects {keys : List String} (entries : List BoundObjectWrite) :
    Sends (CarriesKeys keys) (SqliteBackend.compareObjects entries) := by
  induction entries with
  | nil => trivial
  | cons e entries ih =>
    refine sends_bind (sends_query (q := .selectObject _) (.inr trivial)) fun row => ?_
    cases row with
    | none => trivial
    | some stored =>
      show Sends _ (if _ then _ else _)
      split
      · trivial
      · exact ih

theorem sqlite_within (call : Call) :
    Within (CarriesKeys (keyList call)) (SqliteBackend.program call) := by
  cases call with
  | putObject schema contentHash canonical =>
    refine within_transaction (sends_bind ?_ fun _ => trivial)
    refine sends_bind (sends_query (q := .insertObject _ _) (.inr trivial)) fun inserted => ?_
    refine sends_bind (sends_query (q := .selectObject _) (.inr trivial)) fun row => ?_
    cases row <;> trivial
  | getObject schema contentHash =>
    exact within_onConnection
      (sends_bind (sends_query (q := .selectByHash _ _) (.inr trivial)) fun _ => trivial)
  | bind key schema contentHash =>
    refine within_transaction (sends_bind ?_ fun _ => trivial)
    exact Prog.follows_mono (fun q hq => .inr hq) (fun _ _ => trivial) (sends_insertThenRead ..)
  | getBinding key =>
    exact within_onConnection
      (sends_bind (sends_query (q := .selectBinding _) (.inr trivial)) fun _ => trivial)
  | getBoundObjects keys =>
    simp only [SqliteBackend.program]
    split
    · trivial
    refine within_onConnection (sends_bind ?_ fun _ => trivial)
    refine sends_fetchAll (fun chunk hchunk => ?_) _
    have hquery : Sends (CarriesKeys keys) (query (.selectBound chunk)) :=
      sends_query (.inr (slice_chunk SqliteBackend.keyQueryChunkSize_pos hchunk id))
    exact sends_bind hquery fun rows => trivial
  | putBoundObjects entries =>
    simp only [SqliteBackend.program]
    split
    · trivial
    refine within_transaction (sends_bind ?_ fun _ => trivial)
    refine sends_bind (sends_query (q := .insertObjects _) (.inl ⟨_, rfl⟩)) fun _ => ?_
    exact sends_bind (sends_compareObjects entries) fun _ => sends_bindEntries entries _
  | deleteBindings keys =>
    simp only [SqliteBackend.program]
    split
    · trivial
    refine within_transaction (sends_bind ?_ fun _ => trivial)
    refine sends_gather (fun chunk hchunk => ?_) _
    exact sends_query (q := .deleteBindings chunk)
      (.inr (slice_chunk SqliteBackend.keyQueryChunkSize_pos hchunk id))

/-- **No statement carries more than its bound**, whatever the database replies: of no call of a
PostgreSQL backend, of no operation enlisted in a caller's transaction, and of no call of an SQLite
backend. None is empty, and on PostgreSQL none names a key or a reference twice. -/
theorem statements_bounded :
    (∀ (b : PostgresBackend) (call : Call),
      Within (Carries b.batchChunkSize True) (b.program call)) ∧
    (∀ (b : PostgresBackend) (op : EnlistedOp D),
      Sends (Carries b.batchChunkSize True) (enlisted b op)) ∧
    ∀ call, Within (CarriesKeys (keyList call)) (SqliteBackend.program call) :=
  ⟨postgres_within, sends_enlisted, sqlite_within⟩

end DrStore.Store.StatementSizes
