import DrStore.Relational.Contract

/-! # Setting up the lease tables (lease/_sqlite.py, lease/_postgres.py, lease/_schema.py)

`initialize` creates the two tables in a database that has neither, and then checks what is there
against the pinned contract, in one transaction that takes a lock first: `BEGIN IMMEDIATE`, or an
advisory lock. Any number of authorities may start on one database at once, and die at any
point. What a `CREATE TABLE` makes is a parameter, with what the code relies on as a hypothesis. -/
namespace DrStore.Leases.Initialization
open DrStore.Base.Exclusive DrStore.Base.Pool DrStore.Base.Programs DrStore.Base.PyText
open DrStore.Leases.RowEncoding DrStore.Relational.Contract

/-! ## What the code pins -/

def tableName : String := "dr_store_lease_authority"

def metadataTableName : String := "dr_store_lease_authority_metadata"

def component : String := "dr_store.lease"

def schemaVersion : Int := 1

def ownedTables : List String := [tableName, metadataTableName]

/-- The statement, from the name of the table on. -/
def sqliteTableText : String :=
  "dr_store_lease_authority (\n" ++
  "    semantic_key TEXT PRIMARY KEY CHECK (typeof(semantic_key) = 'text'),\n" ++
  "    request_hash TEXT NOT NULL CHECK (\n" ++
  "        typeof(request_hash) = 'text'\n" ++
  "    ),\n" ++
  "    replay_policy TEXT NOT NULL CHECK (\n" ++
  "        typeof(replay_policy) = 'text'\n" ++
  "        AND replay_policy IN ('idempotent', 'durable_workflow', 'no_redrive')\n" ++
  "    ),\n" ++
  "    state TEXT NOT NULL CHECK (\n" ++
  "        typeof(state) = 'text'\n" ++
  "        AND state IN (\n" ++
  "            'leased', 'succeeded', 'failed', 'recovery_required'\n" ++
  "        )\n" ++
  "    ),\n" ++
  "    owner_id TEXT NOT NULL CHECK (typeof(owner_id) = 'text'),\n" ++
  "    attempt_id TEXT NOT NULL CHECK (typeof(attempt_id) = 'text'),\n" ++
  "    fence INTEGER NOT NULL CHECK (typeof(fence) = 'integer' AND fence > 0),\n" ++
  "    expires_at TEXT CHECK (\n" ++
  "        expires_at IS NULL OR typeof(expires_at) = 'text'\n" ++
  "    ),\n" ++
  "    terminal_json TEXT CHECK (\n" ++
  "        terminal_json IS NULL OR typeof(terminal_json) = 'text'\n" ++
  "    ),\n" ++
  "    CHECK (\n" ++
  "        (state = 'leased' AND expires_at IS NOT NULL\n" ++
  "            AND terminal_json IS NULL)\n" ++
  "        OR\n" ++
  "        (state != 'leased' AND expires_at IS NULL\n" ++
  "            AND terminal_json IS NOT NULL)\n" ++
  "    )\n" ++
  ")"

def sqliteMetadataTableText : String :=
  "dr_store_lease_authority_metadata (\n" ++
  "    component TEXT NOT NULL PRIMARY KEY CHECK (typeof(component) = 'text'),\n" ++
  "    version INTEGER NOT NULL CHECK (\n" ++
  "        typeof(version) = 'integer' AND version > 0\n" ++
  "    )\n" ++
  ")"

def sqliteCreateTable : String := "\nCREATE TABLE IF NOT EXISTS " ++ sqliteTableText ++ "\n"

def sqliteCreateMetadataTable : String :=
  "\nCREATE TABLE IF NOT EXISTS " ++ sqliteMetadataTableText ++ "\n"

def sqliteTableColumns : List SqliteColumn :=
  [⟨"semantic_key", "TEXT", false, 1⟩, ⟨"request_hash", "TEXT", true, 0⟩,
    ⟨"replay_policy", "TEXT", true, 0⟩, ⟨"state", "TEXT", true, 0⟩, ⟨"owner_id", "TEXT", true, 0⟩,
    ⟨"attempt_id", "TEXT", true, 0⟩, ⟨"fence", "INTEGER", true, 0⟩,
    ⟨"expires_at", "TEXT", false, 0⟩, ⟨"terminal_json", "TEXT", false, 0⟩]

def sqliteMetadataColumns : List SqliteColumn :=
  [⟨"component", "TEXT", true, 1⟩, ⟨"version", "INTEGER", true, 0⟩]

def postgresCreateTable : String :=
  "\n" ++
  "CREATE TABLE dr_store_lease_authority (\n" ++
  "    semantic_key TEXT COLLATE \"C\" PRIMARY KEY,\n" ++
  "    request_hash TEXT COLLATE \"C\" NOT NULL,\n" ++
  "    replay_policy TEXT COLLATE \"C\" NOT NULL CHECK (\n" ++
  "        replay_policy IN ('idempotent', 'durable_workflow', 'no_redrive')\n" ++
  "    ),\n" ++
  "    state TEXT COLLATE \"C\" NOT NULL CHECK (\n" ++
  "        state IN (\n" ++
  "            'leased', 'succeeded', 'failed', 'recovery_required'\n" ++
  "        )\n" ++
  "    ),\n" ++
  "    owner_id TEXT COLLATE \"C\" NOT NULL,\n" ++
  "    attempt_id TEXT COLLATE \"C\" NOT NULL,\n" ++
  "    fence BIGINT NOT NULL CHECK (fence > 0),\n" ++
  "    expires_at TEXT COLLATE \"C\",\n" ++
  "    terminal_json TEXT COLLATE \"C\",\n" ++
  "    CHECK (\n" ++
  "        (state = 'leased' AND expires_at IS NOT NULL\n" ++
  "            AND terminal_json IS NULL)\n" ++
  "        OR\n" ++
  "        (state != 'leased' AND expires_at IS NULL\n" ++
  "            AND terminal_json IS NOT NULL)\n" ++
  "    )\n" ++
  ")\n"

def postgresCreateMetadataTable : String :=
  "\n" ++
  "CREATE TABLE dr_store_lease_authority_metadata (\n" ++
  "    component TEXT COLLATE \"C\" PRIMARY KEY,\n" ++
  "    version INTEGER NOT NULL\n" ++
  ")\n"

/-- A text column with the C collation. -/
def textColumn (name : String) (notNull : Bool) (ordinalPosition : Int) : PostgresColumn :=
  ⟨name, "text", notNull, ordinalPosition, "pg_catalog", "C", "c", true, some (-1)⟩

def plainColumn (name columnType : String) (ordinalPosition : Int) : PostgresColumn :=
  ⟨name, columnType, true, ordinalPosition, none, none, none, none, none⟩

def postgresTableColumns : List PostgresColumn :=
  [textColumn "semantic_key" true 1, textColumn "request_hash" true 2,
    textColumn "replay_policy" true 3, textColumn "state" true 4, textColumn "owner_id" true 5,
    textColumn "attempt_id" true 6, plainColumn "fence" "bigint" 7,
    textColumn "expires_at" false 8, textColumn "terminal_json" false 9]

def postgresMetadataColumns : List PostgresColumn :=
  [textColumn "component" true 1, plainColumn "version" "integer" 2]

def checkConstraint (columns : List String) (expression : String) : PostgresConstraint :=
  ⟨tableName, "c", columns, expression, false, false, true, false⟩

def primaryKey (table column : String) : PostgresConstraint :=
  ⟨table, "p", [column], none, false, false, true, true⟩

def postgresTableConstraints : List PostgresConstraint :=
  [checkConstraint ["state", "expires_at", "terminal_json"]
      ("state = 'leased'::text AND expires_at IS NOT NULL AND " ++
        "terminal_json IS NULL OR state <> 'leased'::text AND " ++
        "expires_at IS NULL AND terminal_json IS NOT NULL"),
    checkConstraint ["fence"] "fence > 0",
    checkConstraint ["replay_policy"]
      ("replay_policy = ANY (ARRAY['idempotent'::text, " ++
        "'durable_workflow'::text, 'no_redrive'::text])"),
    checkConstraint ["state"]
      ("state = ANY (ARRAY['leased'::text, 'succeeded'::text, " ++
        "'failed'::text, 'recovery_required'::text])"),
    primaryKey tableName "semantic_key"]

def postgresMetadataConstraints : List PostgresConstraint :=
  [primaryKey metadataTableName "component"]

/-! ## Errors -/

structure LeaseAuthoritySchemaMismatchError where
  table : String
  aspect : String
  expected : Detail
  actual : Detail

inductive InitializeError where
  | schemaMismatch (e : LeaseAuthoritySchemaMismatchError)
  | raised

/-- `reraise_schema_mismatch`, and everything else as it is. -/
def reraiseSchemaMismatch : Failure → InitializeError
  | .mismatch e => .schemaMismatch ⟨e.table, e.aspect, e.expected, e.actual⟩
  | .raised => .raised

/-- The two names, in either order. -/
def isInventory (tables : List String) : Bool :=
  tables.all ownedTables.contains && ownedTables.all tables.contains

/-- What both stores do under the lock: create where nothing is there, then check. -/
def setUp {Query : Type} {Reply : Query → Type} (owned : Body Query Reply (List String))
    (expected : Detail) (create verify : Body Query Reply Unit) : Body Query Reply Unit := do
  let tables ← owned
  if tables = [] then create
  else if isInventory tables then pure ()
  else .fail (.mismatch ⟨"<database>", "owned table inventory", expected, .tables tables⟩)
  verify

/-! ## SQLite -/

def sqliteCreate : SqliteBody Unit := do
  Sqlite.query (.execute sqliteCreateTable)
  Sqlite.query (.execute sqliteCreateMetadataTable)
  Sqlite.createMetadata metadataTableName component schemaVersion

def sqliteVerify : SqliteBody Unit := do
  Sqlite.verifySqliteTable tableName sqliteCreateTable sqliteTableColumns
  Sqlite.verifySqliteTable metadataTableName sqliteCreateMetadataTable sqliteMetadataColumns
  Sqlite.verifyMetadata metadataTableName component schemaVersion

def sqliteBody : SqliteBody Unit :=
  setUp (Sqlite.sqliteOwnedTables ownedTables) (.inventories [ownedTables]) sqliteCreate sqliteVerify

/-- `_SQLiteStore.initialize`, on an open connection. -/
def sqliteInitialize : Prog (Op SqliteQuery) (OpReply SqliteReply) InitializeError Unit :=
  (Prog.exec .lock fun locked =>
    if locked then
      onConnection sqliteBody >>= fun _ => .exec .commit fun committed =>
        if committed then .pure () else .fail .raised
    else (.fail .raised : Prog (Op SqliteQuery) (OpReply SqliteReply) Failure Unit)).settle fun
    | .ok _ => .closing .close (.ok ())
    | .error e => .exec .rollback fun _ => .closing .close (.error (reraiseSchemaMismatch e))

/-! ## PostgreSQL -/

def checkEncoding : PostgresBody Unit := do
  let encoding ← Postgres.query .serverEncoding
  if encoding = some [.text "UTF8"] then return ()
  else .fail (.mismatch ⟨"<database>", "server_encoding", .text "UTF8", .row encoding⟩)

def postgresCreate : PostgresBody Unit := do
  Postgres.query (.execute postgresCreateTable)
  Postgres.query (.execute postgresCreateMetadataTable)
  Postgres.createMetadata metadataTableName component schemaVersion

def postgresVerify : PostgresBody Unit := do
  Postgres.verifyPostgresTable tableName postgresTableColumns postgresTableConstraints
  Postgres.verifyPostgresTable metadataTableName postgresMetadataColumns
    postgresMetadataConstraints
  Postgres.verifyMetadata metadataTableName component schemaVersion

def postgresBody : PostgresBody Unit :=
  setUp (Postgres.query (.selectTables ownedTables)) (.tables ownedTables) postgresCreate
    postgresVerify

/-- `_PostgreSQLStore.initialize`: the encoding is read before the advisory lock, and the `with`
block of the connection commits or rolls back. -/
def postgresInitialize : Prog (Op PostgresQuery) (OpReply PostgresReply) InitializeError Unit :=
  (onConnection checkEncoding >>= fun _ => .exec .lock fun locked =>
    if locked then onConnection postgresBody
    else (.fail .raised : Prog (Op PostgresQuery) (OpReply PostgresReply) Failure Unit)).settle fun
    | .ok _ => .exec .commit fun committed =>
      .closing .close (if committed then .ok () else .error .raised)
    | .error e => .exec .rollback fun _ => .closing .close (.error (reraiseSchemaMismatch e))

theorem tables_ne : metadataTableName ≠ tableName := by decide

/-! ## What setting up means -/

/-- A schema on a database: when it is absent, when it is as pinned, and its installation. -/
structure Schema (C : Type) where
  Fresh : C → Prop
  Pinned : C → Prop
  install : C → C
  pinned_install : ∀ c, Fresh c → Pinned (install c)
  not_fresh : ∀ c, Pinned c → ¬ Fresh c

namespace Schema

variable {C Query : Type} {Reply : Query → Type} (S : Schema C)
  {does : C → (q : Query) → Reply q → C → Prop}

/-- A body installs the schema where it is absent, accepts it where it is as pinned, and reports
a mismatch elsewhere; or it raises what the database raised. -/
def SetUp (does : C → (q : Query) → Reply q → C → Prop) (body : Body Query Reply Unit) (c : C) :
    Prop :=
  body.ensures (mayRaise does) (fun out c' => out = .error .raised ∨
    (out = .ok () ∧ ((S.Fresh c ∧ c' = S.install c) ∨ (S.Pinned c ∧ c' = c))) ∨
    ((∃ e, out = .error (.mismatch e)) ∧ ¬ S.Fresh c ∧ ¬ S.Pinned c)) c

variable {S} in
theorem inventory_spec {tables : List String} {present : String → Prop}
    (h : ∀ name, name ∈ tables ↔ name ∈ ownedTables ∧ present name) :
    (tables = [] ↔ ∀ name ∈ ownedTables, ¬ present name) ∧
      (isInventory tables = true ↔ ∀ name ∈ ownedTables, present name) := by
  refine ⟨?_, ?_⟩
  · rw [List.eq_nil_iff_forall_not_mem]
    exact forall_congr' fun name => by rw [h]; tauto
  · simp only [isInventory, Bool.and_eq_true, List.all_eq_true, List.contains_iff_mem, h]
    constructor
    · exact fun hall name hname => (hall.2 name hname).2
    · exact fun hall => ⟨fun name hname => hname.1, fun name hname => ⟨hname, hall name hname⟩⟩

/-- The three parts together: the inventory tells a fresh database, creating installs the schema,
and the checks decide whether it is there. -/
theorem setUp_spec {owned : Body Query Reply (List String)} {expected : Detail}
    {create verify : Body Query Reply Unit} {present : String → Prop} {c : C}
    (howned : owned.ensures (mayRaise does) (fun out c' => c' = c ∧ (out = .error .raised ∨
      ∃ tables, out = .ok tables ∧ ∀ name, name ∈ tables ↔ name ∈ ownedTables ∧ present name)) c)
    (hfresh : S.Fresh c ↔ ∀ name ∈ ownedTables, ¬ present name)
    (hpinned : S.Pinned c → ∀ name ∈ ownedTables, present name)
    (hcreate : S.Fresh c → create.ensures (mayRaise does)
      (fun out c' => out = .error .raised ∨ (out = .ok () ∧ c' = S.install c)) c)
    (hverify : ∀ c', c' = c ∨ c' = S.install c → Decides does verify (S.Pinned c') c') :
    S.SetUp does (setUp owned expected create verify) c := by
  refine Prog.ensures_bind _ howned ?_ ?_
  · rintro tables d ⟨rfl, heq | ⟨_, heq, hmem⟩⟩
    · cases heq
    · cases heq
      obtain ⟨hempty, hboth⟩ := inventory_spec hmem
      by_cases htables : tables = []
      · have hnew : S.Fresh d := hfresh.mpr (hempty.mp htables)
        rw [if_pos htables]
        refine Prog.ensures_bind _ (hcreate hnew) ?_ ?_
        · rintro _ e (heq | ⟨_, rfl⟩)
          · cases heq
          · refine Prog.ensures_mono (hverify _ (.inr rfl)) ?_
            rintro out _ ⟨rfl, hraised | ⟨hok, _⟩ | ⟨_, hnot⟩⟩
            · exact .inl hraised
            · exact .inr (.inl ⟨hok, .inl ⟨hnew, rfl⟩⟩)
            · exact absurd (S.pinned_install d hnew) hnot
        · rintro e _ (heq | ⟨heq, _⟩)
          · cases heq
            exact .inl rfl
          · cases heq
      · have hold : ¬ S.Fresh d := fun h => htables (hempty.mpr (hfresh.mp h))
        rw [if_neg htables]
        by_cases hall : isInventory tables = true
        · rw [if_pos hall]
          show Prog.ensures (mayRaise does) verify _ d
          refine Prog.ensures_mono (hverify d (.inl rfl)) ?_
          rintro out _ ⟨rfl, hraised | ⟨hok, hp⟩ | ⟨hmismatch, hnot⟩⟩
          · exact .inl hraised
          · exact .inr (.inl ⟨hok, .inr ⟨hp, rfl⟩⟩)
          · exact .inr (.inr ⟨hmismatch, hold, hnot⟩)
        · rw [if_neg hall]
          exact .inr (.inr ⟨⟨_, rfl⟩, hold, fun hp => hall (hboth.mpr (hpinned hp))⟩)
  · rintro e _ ⟨rfl, heq | ⟨_, heq, _⟩⟩
    · cases heq
      exact .inl rfl
    · cases heq

/-- Where the schema is absent or as pinned, nothing but the database keeps a body from its end. -/
def Succeeds (does : C → (q : Query) → Reply q → C → Prop) (body : Body Query Reply Unit) (c : C) :
    Prop :=
  body.allows (mayRaise does) (fun out c' => out = .ok () ∧
    ((S.Fresh c ∧ c' = S.install c) ∨ (S.Pinned c ∧ c' = c))) c

theorem setUp_succeeds {owned : Body Query Reply (List String)} {expected : Detail}
    {create verify : Body Query Reply Unit} {present : String → Prop} {c : C}
    (howned : owned.allows (mayRaise does) (fun out c' => ∃ tables, out = .ok tables ∧
      (∀ name, name ∈ tables ↔ name ∈ ownedTables ∧ present name) ∧ c' = c) c)
    (hfresh : S.Fresh c ↔ ∀ name ∈ ownedTables, ¬ present name)
    (hpinned : S.Pinned c → ∀ name ∈ ownedTables, present name)
    (hcreate : S.Fresh c → create.allows (mayRaise does)
      (fun out c' => out = .ok () ∧ c' = S.install c) c)
    (hverify : ∀ c', S.Pinned c' → Accepts does verify c') (hc : S.Fresh c ∨ S.Pinned c) :
    S.Succeeds does (setUp owned expected create verify) c := by
  refine Prog.allows_after _ howned ?_
  rintro tables d ⟨hmem, rfl⟩
  obtain ⟨hempty, hboth⟩ := inventory_spec hmem
  by_cases hnew : S.Fresh d
  · rw [if_pos (hempty.mpr (hfresh.mp hnew))]
    refine Prog.allows_after (fun _ c' => c' = S.install d)
      (Prog.allows_mono (hcreate hnew) ?_) ?_
    · rintro _ _ ⟨rfl, rfl⟩
      exact ⟨(), rfl, rfl⟩
    · rintro _ _ rfl
      refine Prog.allows_mono (hverify _ (S.pinned_install d hnew)) ?_
      rintro _ _ ⟨rfl, rfl⟩
      exact ⟨rfl, .inl ⟨hnew, rfl⟩⟩
  · have hp : S.Pinned d := hc.resolve_left hnew
    rw [if_neg fun h => hnew (hfresh.mpr (hempty.mp h)), if_pos (hboth.mpr (hpinned hp))]
    refine Prog.allows_mono (hverify d hp) ?_
    rintro _ _ ⟨rfl, rfl⟩
    exact ⟨rfl, .inr ⟨hp, rfl⟩⟩

/-! ### Any number of initializers -/

section Initializers

variable {T : Type} [DecidableEq T] (c₀ : C)

/-- What may be committed: what was there at the start, or that with the schema installed. -/
def Stays (c : C) : Prop := c = c₀ ∨ (S.Fresh c₀ ∧ c = S.install c₀)

/-- The only change. -/
def Installs (c c' : C) : Prop := S.Fresh c ∧ c' = S.install c

abbrev initializing : Rules T (Shared T C) := rules (fun c _ => S.Stays c₀ c) S.Installs

/-- How an initializer ends: with the pinned schema in place, or with a mismatch that was there
from the start. -/
def Ends (out : Except InitializeError Unit) (c : C) : Prop :=
  (out = .ok () → S.Pinned c) ∧
    ∀ e, out = .error (.schemaMismatch e) → ¬ S.Fresh c₀ ∧ ¬ S.Pinned c₀

variable {S c₀}

theorem pinned_kept (c c' : C) (h : S.Installs c c') (hc : S.Pinned c) : S.Pinned c' :=
  absurd h.1 (S.not_fresh c hc)

/-- A mismatch found at any time was there from the start. -/
theorem mismatch_start {c : C} (hc : S.Stays c₀ c) (hfresh : ¬ S.Fresh c) (hpinned : ¬ S.Pinned c) :
    ¬ S.Fresh c₀ ∧ ¬ S.Pinned c₀ := by
  rcases hc with rfl | ⟨hnew, rfl⟩
  · exact ⟨hfresh, hpinned⟩
  · exact absurd (S.pinned_install c₀ hnew) hpinned

/-- What a body that set up commits. -/
theorem setUp_commits {c c' : C} (hc : S.Stays c₀ c)
    (h : (S.Fresh c ∧ c' = S.install c) ∨ (S.Pinned c ∧ c' = c)) :
    S.Stays c₀ c' ∧ (c' = c ∨ S.Installs c c') ∧ S.Pinned c' := by
  rcases h with ⟨hnew, rfl⟩ | ⟨hp, rfl⟩
  · refine ⟨?_, .inr ⟨hnew, rfl⟩, S.pinned_install c hnew⟩
    rcases hc with rfl | ⟨hfresh, rfl⟩
    · exact .inr ⟨hnew, rfl⟩
    · exact absurd hnew (S.not_fresh _ (S.pinned_install c₀ hfresh))
  · exact ⟨hc, .inl rfl, hp⟩

/-- Closing the connection, with the schema in place if it ends so. -/
theorem wp_close {t : T} {s : Shared T C} {out : Except InitializeError Unit}
    (hs : out = .ok () → S.Pinned s.committed)
    (hmismatch : ∀ e, out = .error (.schemaMismatch e) → ¬ S.Fresh c₀ ∧ ¬ S.Pinned c₀) :
    wp (system does) (S.initializing c₀) t (Prog.closing .close out)
      (fun out s => S.Ends c₀ out s.committed) s := by
  have hkept : ∀ c c', S.Installs c c' → (out = .ok () → S.Pinned c) → out = .ok () → S.Pinned c' :=
    fun c c' h hc hout => pinned_kept c c' h (hc hout)
  refine wp_mono ?_ (wp_closing (P := fun c _ => out = .ok () → S.Pinned c)
    (committed_stable hkept) hs)
  rintro _ s _ ⟨rfl, hp⟩
  exact ⟨hp, hmismatch⟩

/-- Rolling back, then closing. -/
theorem wp_abandon {t : T} {s : Shared T C} {e : Failure}
    (hmismatch : (∃ e', e = .mismatch e') → ¬ S.Fresh c₀ ∧ ¬ S.Pinned c₀) :
    wp (system does) (S.initializing c₀) t (.exec .rollback fun _ =>
      .closing .close (.error (reraiseSchemaMismatch e)))
      (fun out s => S.Ends c₀ out s.committed) s := by
  refine wp_mono ?_ wp_abandoning
  rintro _ s _ rfl
  refine ⟨(fun h => by cases h), ?_⟩
  intro e' he'
  cases e with
  | mismatch e => exact hmismatch ⟨e, rfl⟩
  | raised => cases he'

/-- The database raised: there is nothing to say. -/
theorem wp_raised {t : T} {s : Shared T C} :
    wp (system does) (S.initializing c₀) t (.exec .rollback fun _ =>
      .closing .close (.error .raised)) (fun out s => S.Ends c₀ out s.committed) s := by
  refine wp_abandon (e := .raised) ?_
  rintro ⟨e, he⟩
  cases he

/-- A commit after a body that set up. -/
theorem wp_commits {t : T} {s : Shared T C} {c c' : C} {ε : Type}
    {k : Bool → Prog (Op Query) (OpReply Reply) ε Unit} {Q : Except ε Unit → Shared T C → Prop}
    (hc : S.Stays c₀ c) (h : (S.Fresh c ∧ c' = S.install c) ∨ (S.Pinned c ∧ c' = c))
    {log : List (T × C)} (hs : Holds t c' c log s)
    (hdone : ∀ s', S.Pinned s'.committed →
      wp (system does) (S.initializing c₀) t (k true) Q s')
    (hraised : ∀ s', wp (system does) (S.initializing c₀) t (k false) Q s') :
    wp (system does) (S.initializing c₀) t (.exec .commit k) Q s := by
  obtain ⟨hstays, hchange, hpinned⟩ := setUp_commits hc h
  refine wp_commit hs (fun _ => hstays) hchange ?_ ?_
  · intro r s' _ _ hcommitted _
    cases r with
    | true =>
      refine hdone s' ?_
      rw [hcommitted]
      exact hpinned
    | false => exact hraised s'
  · exact fun s' _ => hraised s'

/-- **Initializers agree.** What is committed is what was there or that with the schema installed,
and every initializer that has ended did so as it should. -/
theorem initializers_agree
    {progs : T → Prog (Op Query) (OpReply Reply) InitializeError Unit}
    (hwp : ∀ t s, Free t s → S.Stays c₀ s.committed →
      wp (system does) (S.initializing c₀) t (progs t)
        (fun out s => S.Ends c₀ out s.committed) s)
    {c : Config T (Shared T C) (Op Query) (OpReply Reply) InitializeError Unit}
    (hc : Reachable (system does) ⟨c₀, none, []⟩ progs c) :
    S.Stays c₀ c.state.committed ∧
      ∀ t, (c.prog t = some (.pure ()) → S.Pinned c.state.committed) ∧
        ∀ e, c.prog t = some (.fail (.schemaMismatch e)) → ¬ S.Fresh c₀ ∧ ¬ S.Pinned c₀ := by
  obtain ⟨hstays, hends⟩ := reachable_committed
    (Q := fun _ out c _ => S.Ends c₀ out c) (.inl rfl)
    (fun t => hwp t ⟨c₀, none, []⟩ (fun _ h => by cases h) (.inl rfl)) hc
  refine ⟨hstays, fun t => ⟨?_, ?_⟩⟩
  · exact fun h => (hends t (.ok ()) h).1 rfl
  · exact fun e h => (hends t (.error (.schemaMismatch e)) h).2 e rfl

end Initializers

end Schema

/-! ## SQLite initializers -/

/-- What a SQLite database makes of the two statements: the declared columns, and the text of the
statement less `IF NOT EXISTS`. -/
structure SqliteDatabase where
  create : String → Option (String × SqliteTable)
  table : SqliteTable
  metadata : SqliteTable
  creates_table : create sqliteCreateTable = some (tableName, table)
  creates_metadata : create sqliteCreateMetadataTable = some (metadataTableName, metadata)
  table_columns : Sqlite.sqliteTableColumns table.info = sqliteTableColumns
  table_sql : Sqlite.actualSql (some table.sql) = some (Sqlite.expectedSql sqliteCreateTable)
  metadata_columns : Sqlite.sqliteTableColumns metadata.info = sqliteMetadataColumns
  metadata_sql : Sqlite.actualSql (some metadata.sql) =
    some (Sqlite.expectedSql sqliteCreateMetadataTable)
  metadata_rows : metadata.rows = []

namespace SqliteDatabase

def Pinned (c : SqliteCatalog) : Prop :=
  Sqlite.Conforms c tableName sqliteCreateTable sqliteTableColumns ∧
    Sqlite.Conforms c metadataTableName sqliteCreateMetadataTable sqliteMetadataColumns ∧
    ∃ metadata, c metadataTableName = some metadata ∧
      versionRow metadata.rows component = some [.text component, .integer schemaVersion]

def Fresh (c : SqliteCatalog) : Prop := ∀ name ∈ ownedTables, c name = none

theorem conforms_present {c : SqliteCatalog} {name createSql : String}
    {columns : List SqliteColumn} (h : Sqlite.Conforms c name createSql columns) :
    ∃ table, c name = some table := by
  obtain ⟨_, hsql⟩ := h
  cases hc : c name with
  | none =>
    rw [hc] at hsql
    cases hsql
  | some table => exact ⟨table, rfl⟩

variable (db : SqliteDatabase)

def install (c : SqliteCatalog) : SqliteCatalog :=
  Function.update (Function.update c tableName (some db.table)) metadataTableName
    (some { db.metadata with rows := [[.text component, .integer schemaVersion]] })

def schema : Schema SqliteCatalog where
  Fresh := Fresh
  Pinned := Pinned
  install := db.install
  pinned_install c _ := by
    have htable : db.install c tableName = some db.table := by
      rw [install, Function.update_of_ne tables_ne.symm, Function.update_self]
    have hmetadata : db.install c metadataTableName = some { db.metadata with
        rows := [[.text component, .integer schemaVersion]] } := Function.update_self ..
    refine ⟨⟨?_, ?_⟩, ⟨?_, ?_⟩, _, hmetadata, versionRow_self component schemaVersion⟩
    · rw [htable]
      exact db.table_columns
    · rw [htable]
      exact db.table_sql
    · rw [hmetadata]
      exact db.metadata_columns
    · rw [hmetadata]
      exact db.metadata_sql
  not_fresh c h hfresh := by
    obtain ⟨table, htable⟩ := conforms_present h.1
    rw [hfresh tableName (by simp [ownedTables])] at htable
    cases htable

theorem ownedTables_ensures (c : SqliteCatalog) (names : List String) :
    (Sqlite.sqliteOwnedTables names).ensures (mayRaise (SqliteQuery.Does db.create))
      (fun out c' => c' = c ∧ (out = .error .raised ∨ ∃ owned, out = .ok owned ∧
        ∀ name, name ∈ owned ↔ name ∈ names ∧ (c name).isSome = true)) c := by
  refine ensures_ask ⟨rfl, .inl rfl⟩ ?_
  rintro rows c ⟨rfl, hrows⟩
  have hparse : ∀ rows : List (List SqlValue), (∀ row ∈ rows, ∃ name, row = [.text name]) →
      ∃ owned, rows.mapM Sqlite.tableName? = some owned ∧
        ∀ name, name ∈ owned ↔ [SqlValue.text name] ∈ rows := by
    intro rows
    induction rows with
    | nil => exact fun _ => ⟨[], rfl, by simp⟩
    | cons row rows ih =>
      intro h
      obtain ⟨name, rfl⟩ := h row List.mem_cons_self
      obtain ⟨owned, hmap, howned⟩ := ih fun r hr => h r (List.mem_cons_of_mem _ hr)
      refine ⟨name :: owned, by simp [List.mapM_cons, Sqlite.tableName?, hmap], ?_⟩
      intro name'
      rw [List.mem_cons, List.mem_cons, howned]
      simp
  obtain ⟨owned, hmap, howned⟩ := hparse rows fun row hrow => by
    obtain ⟨name, _, _, heq⟩ := (hrows row).mp hrow
    exact ⟨name, heq⟩
  rw [hmap]
  refine ⟨rfl, .inr ⟨owned, rfl, ?_⟩⟩
  intro name
  rw [howned, hrows]
  constructor
  · rintro ⟨name', hname, hsome, heq⟩
    cases heq
    exact ⟨hname, hsome⟩
  · rintro ⟨hname, hsome⟩
    exact ⟨name, hname, hsome, rfl⟩

theorem select_ensures {c : SqliteCatalog} {table : SqliteTable}
    (h : c metadataTableName = some table) :
    (Sqlite.query (.selectVersion metadataTableName component)).ensures
      (mayRaise (SqliteQuery.Does db.create)) (fun out c' => c' = c ∧
        (out = .error .raised ∨ out = .ok (versionRow table.rows component))) c := by
  rintro r c' (⟨row, rfl, rfl, table', htable, hrow⟩ | ⟨rfl, rfl⟩)
  · rw [h] at htable
    cases htable
    exact ⟨rfl, .inr (congrArg Except.ok hrow)⟩
  · exact ⟨rfl, .inl rfl⟩

/-- The three checks accept what is pinned. -/
theorem verify_decides (c : SqliteCatalog) :
    Decides (SqliteQuery.Does db.create) sqliteVerify (Pinned c) c := by
  refine (Sqlite.verifySqliteTable_decides _ c _ _ _).and fun _ => ?_
  refine (Sqlite.verifySqliteTable_decides _ c _ _ _).and fun hmetadata => ?_
  obtain ⟨table, htable⟩ := conforms_present hmetadata
  refine (decides_metadata (db.select_ensures htable)).congr ?_
  constructor
  · exact fun h => ⟨table, htable, h⟩
  · rintro ⟨table', htable', h⟩
    rw [htable] at htable'
    cases htable'
    exact h

theorem create_ensures {c : SqliteCatalog} (hfresh : Fresh c) :
    sqliteCreate.ensures (mayRaise (SqliteQuery.Does db.create)) (fun out c' =>
      out = .error .raised ∨ (out = .ok () ∧ c' = db.install c)) c := by
  refine ensures_ask (.inl rfl) ?_
  rintro _ c₁ ⟨name, table, hcreate, rfl⟩
  rw [db.creates_table] at hcreate
  cases hcreate
  rw [hfresh tableName (by simp [ownedTables]), if_neg (by simp)]
  refine ensures_ask (.inl rfl) ?_
  rintro _ c₂ ⟨name, table, hcreate, rfl⟩
  rw [db.creates_metadata] at hcreate
  cases hcreate
  rw [Function.update_of_ne tables_ne, hfresh metadataTableName (by simp [ownedTables]),
    if_neg (by simp)]
  have hmetadata : Function.update (Function.update c tableName (some db.table)) metadataTableName
      (some db.metadata) metadataTableName = some db.metadata := Function.update_self ..
  refine ensures_ask (.inl rfl) ?_
  rintro row c₃ ⟨rfl, table, htable, rfl⟩
  rw [hmetadata] at htable
  cases htable
  rw [db.metadata_rows]
  -- the new metadata table is empty
  rintro _ c₄ (⟨_, rfl, table, htable, rfl⟩ | ⟨rfl, rfl⟩)
  · rw [hmetadata] at htable
    cases htable
    refine .inr ⟨rfl, ?_⟩
    rw [Function.update_idem, db.metadata_rows]
    rfl
  · exact .inl rfl

omit db in
theorem fresh_iff {c : SqliteCatalog} : Fresh c ↔ ∀ name ∈ ownedTables, ¬ (c name).isSome = true := by
  refine forall_congr' fun name => imp_congr_right fun _ => ?_
  rw [Bool.not_eq_true, Option.isSome_eq_false_iff, Option.isNone_iff_eq_none]

omit db in
theorem pinned_present {c : SqliteCatalog} (h : Pinned c) :
    ∀ name ∈ ownedTables, (c name).isSome = true := by
  obtain ⟨htable, hmetadata, _⟩ := h
  simp only [ownedTables, List.forall_mem_cons, Option.isSome_iff_exists]
  exact ⟨conforms_present htable, conforms_present hmetadata, by simp⟩

/-- **Under the lock, `initialize` sets the schema up.** -/
theorem body_setUp (c : SqliteCatalog) :
    db.schema.SetUp (SqliteQuery.Does db.create) sqliteBody c :=
  db.schema.setUp_spec (db.ownedTables_ensures c ownedTables) fresh_iff pinned_present
    (fun h => db.create_ensures h) (fun c' _ => db.verify_decides c')

/-- One initializer among any others. -/
theorem wp_initialize {T : Type} [DecidableEq T] {c₀ : SqliteCatalog} (t : T)
    (s : Shared T SqliteCatalog) (hs : Free t s) :
    wp (system (SqliteQuery.Does db.create)) (db.schema.initializing c₀) t
      sqliteInitialize (fun out s => db.schema.Ends c₀ out s.committed) s := by
  refine wp_lock (P := fun _ => True) true_stable hs trivial ?_ fun s _ _ => Schema.wp_raised
  intro c s hc _ hs
  have hinv : db.schema.Stays c₀ s.committed := by rwa [hs.committed]
  show wp _ _ t (Prog.settle (onConnection sqliteBody >>= fun _ => _) _) _ s
  refine wp_settle hinv (wp_bind hinv ?_)
  refine wp_mono ?_ (wp_body (db.body_setUp c) hs)
  rintro out s hinv ⟨c', heq | ⟨heq, hset⟩ | ⟨⟨e, heq⟩, hfresh, hpinned⟩, hs⟩
  · cases heq
    exact fun s' _ _ => Schema.wp_raised
  · cases heq
    refine Schema.wp_commits hc hset hs ?_ fun s' s'' _ _ => Schema.wp_raised
    intro s' hp
    refine wp_pure (committed_stable Schema.pinned_kept) hp fun s'' _ hp => ?_
    exact Schema.wp_close (fun _ => hp) fun e h => by cases h
  · cases heq
    exact fun s' _ _ => Schema.wp_abandon fun _ => Schema.mismatch_start hc hfresh hpinned

/-- **Initializers of one SQLite file agree.** However many start on it, in whatever order their
statements run, whichever raise and whoever dies: the file holds what it held, or that with the
two tables if neither was there; whoever returned finds the pinned schema; and a mismatch is
reported only if the file held something else from the start. -/
theorem sqlite_initializers_agree {T : Type} [DecidableEq T] {c₀ : SqliteCatalog}
    {c : Config T (Shared T SqliteCatalog) (Op SqliteQuery) (OpReply SqliteReply) InitializeError
      Unit}
    (hc : Reachable (system (SqliteQuery.Does db.create)) ⟨c₀, none, []⟩ (fun _ => sqliteInitialize) c) :
    (c.state.committed = c₀ ∨ (Fresh c₀ ∧ c.state.committed = db.install c₀)) ∧
      ∀ t, (c.prog t = some (.pure ()) → Pinned c.state.committed) ∧
        ∀ e, c.prog t = some (.fail (.schemaMismatch e)) → ¬ Fresh c₀ ∧ ¬ Pinned c₀ :=
  db.schema.initializers_agree (fun t s hs _ => db.wp_initialize t s hs) hc

/-! ### An initializer alone -/

theorem ownedTables_allows (c : SqliteCatalog) (names : List String) :
    (Sqlite.sqliteOwnedTables names).allows (mayRaise (SqliteQuery.Does db.create))
      (fun out c' => ∃ owned, out = .ok owned ∧
        (∀ name, name ∈ owned ↔ name ∈ names ∧ (c name).isSome = true) ∧ c' = c) c := by
  have hparse : ∀ owned : List String,
      (owned.map fun name => [SqlValue.text name]).mapM Sqlite.tableName? = some owned := by
    intro owned
    induction owned with
    | nil => rfl
    | cons name owned ih => simp [Sqlite.tableName?, ih]
  let owned := names.filter fun name => (c name).isSome
  refine allows_ask (owned.map fun name => [SqlValue.text name]) ⟨rfl, ?_⟩ ?_
  · intro row
    simp only [owned, List.mem_map, List.mem_filter]
    constructor
    · rintro ⟨name, ⟨hname, hsome⟩, rfl⟩
      exact ⟨name, hname, hsome, rfl⟩
    · rintro ⟨name, hname, hsome, rfl⟩
      exact ⟨name, ⟨hname, hsome⟩, rfl⟩
  · rw [hparse]
    exact ⟨owned, rfl, fun name => List.mem_filter, rfl⟩

theorem create_allows {c : SqliteCatalog} (hfresh : Fresh c) :
    sqliteCreate.allows (mayRaise (SqliteQuery.Does db.create))
      (fun out c' => out = .ok () ∧ c' = db.install c) c := by
  have hmetadata : Function.update (Function.update c tableName (some db.table)) metadataTableName
      (some db.metadata) metadataTableName = some db.metadata := Function.update_self ..
  refine allows_ask () ⟨_, _, db.creates_table, rfl⟩ ?_
  rw [hfresh tableName (by simp [ownedTables]), if_neg (by simp)]
  refine allows_ask () ⟨_, _, db.creates_metadata, rfl⟩ ?_
  rw [Function.update_of_ne tables_ne, hfresh metadataTableName (by simp [ownedTables]),
    if_neg (by simp)]
  refine allows_ask _ ⟨rfl, _, hmetadata, rfl⟩ ?_
  rw [db.metadata_rows]
  refine Prog.allows_exec (some ()) (.inl ⟨(), rfl, _, hmetadata, rfl⟩) ⟨rfl, ?_⟩
  rw [Function.update_idem, db.metadata_rows]
  rfl

theorem verify_accepts {c : SqliteCatalog} (h : Pinned c) :
    Accepts (SqliteQuery.Does db.create) sqliteVerify c := by
  obtain ⟨htable, hmetadata, table, hpresent, hrow⟩ := h
  refine (Sqlite.verifySqliteTable_accepts htable).and
    ((Sqlite.verifySqliteTable_accepts hmetadata).and (accepts_metadata ?_))
  exact Prog.allows_exec (some _) (.inl ⟨_, rfl, rfl, table, hpresent, rfl⟩) ⟨_, rfl, hrow, rfl⟩

theorem body_succeeds {c : SqliteCatalog} (hc : Fresh c ∨ Pinned c) :
    db.schema.Succeeds (SqliteQuery.Does db.create) sqliteBody c := by
  refine db.schema.setUp_succeeds (db.ownedTables_allows c ownedTables) fresh_iff pinned_present
    (fun h => db.create_allows h) (fun _ h => db.verify_accepts h) hc

/-- **An initializer that finds the lock free can return**, where the tables are absent or as
pinned. -/
theorem initializer_returns {T : Type} [DecidableEq T] {t : T}
    {c : Config T (Shared T SqliteCatalog) (Op SqliteQuery) (OpReply SqliteReply) InitializeError
      Unit}
    (hfree : c.state.holder = none) (hc : Fresh c.state.committed ∨ Pinned c.state.committed)
    (hp : c.prog t = some sqliteInitialize) :
    ∃ s', s'.holder = none ∧ Pinned s'.committed ∧
      Relation.ReflTransGen (Step (system (SqliteQuery.Does db.create))) c
        ⟨s', Function.update c.prog t (some (.pure ()))⟩ := by
  have hruns : sqliteInitialize.allows ((system (SqliteQuery.Does db.create)).step t)
      (fun out s' => out = .ok () ∧ s'.holder = none ∧ Pinned s'.committed) c.state := by
    refine allows_lock hfree ((Prog.allows_settle _ _ _ _).mpr ?_)
    refine (Prog.allows_settle _ _ _ _).mpr
      (Prog.allows_mono (allows_body (db.body_succeeds hc) rfl) ?_)
    rintro _ _ ⟨c', ⟨rfl, hset⟩, rfl⟩
    have hpinned : Pinned c' := by
      rcases hset with ⟨hnew, rfl⟩ | ⟨hp, rfl⟩
      · exact db.schema.pinned_install _ hnew
      · exact hp
    exact Prog.allows_exec true (.inl ⟨c', rfl, .inl rfl⟩)
      (Prog.allows_exec () rfl ⟨rfl, rfl, hpinned⟩)
  obtain ⟨_, s', ⟨rfl, hfree', hpinned⟩, hsteps⟩ := runs_alone hruns hp
  exact ⟨s', hfree', hpinned, hsteps⟩

end SqliteDatabase

/-! ### Two initializers -/

theorem sqlite_creates_differ : sqliteCreateMetadataTable ≠ sqliteCreateTable := by decide

/-- A table as created: no row, and the text from `CREATE TABLE` to the last bracket. -/
def createdSqlite (columns : List SqliteColumn) (text : String) : SqliteTable :=
  ⟨columns.map fun c => ⟨c.name, c.columnType, if c.notNull then 1 else 0, c.primaryKey⟩,
    .text ("CREATE TABLE " ++ text), []⟩

def sampleSqlite : SqliteDatabase where
  create sql :=
    if sql = sqliteCreateTable then
      some (tableName, createdSqlite sqliteTableColumns sqliteTableText)
    else if sql = sqliteCreateMetadataTable then
      some (metadataTableName, createdSqlite sqliteMetadataColumns sqliteMetadataTableText)
    else none
  table := createdSqlite sqliteTableColumns sqliteTableText
  metadata := createdSqlite sqliteMetadataColumns sqliteMetadataTableText
  creates_table := if_pos rfl
  creates_metadata := (if_neg sqlite_creates_differ).trans (if_pos rfl)
  table_columns := rfl
  table_sql := Sqlite.actualSql_created sqliteTableText
  metadata_columns := rfl
  metadata_sql := Sqlite.actualSql_created sqliteMetadataTableText
  metadata_rows := rfl

/-- One installs the tables, and then the other returns on the pinned schema. -/
theorem sqlite_initializers_agree_sample :
    ∃ c : Config Bool (Shared Bool SqliteCatalog) (Op SqliteQuery) (OpReply SqliteReply)
        InitializeError Unit,
      c.prog true = some (.pure ()) ∧ c.prog false = some (.pure ()) ∧
      SqliteDatabase.Pinned c.state.committed ∧
      c.state.committed = sampleSqlite.install fun _ => none := by
  let c₀ : Config Bool (Shared Bool SqliteCatalog) (Op SqliteQuery) (OpReply SqliteReply)
      InitializeError Unit := start ⟨fun _ => none, none, []⟩ fun _ => sqliteInitialize
  obtain ⟨s₁, hfree, hpinned, h₁⟩ := sampleSqlite.initializer_returns (t := true) (c := c₀) rfl
    (.inl fun _ _ => rfl) rfl
  obtain ⟨s₂, _, _, h₂⟩ := sampleSqlite.initializer_returns (t := false)
    (c := ⟨s₁, Function.update c₀.prog true (some (.pure ()))⟩) hfree (.inr hpinned) rfl
  obtain ⟨hcommitted, hends⟩ := sampleSqlite.sqlite_initializers_agree (h₁.trans h₂)
  have hinstalled := (hends false).1 rfl
  refine ⟨_, rfl, rfl, hinstalled, ?_⟩
  rcases hcommitted with hsame | ⟨_, hcommitted⟩
  · exact absurd (fun name _ => congrFun hsame name) (sampleSqlite.schema.not_fresh _ hinstalled)
  · exact hcommitted

/-! ## PostgreSQL initializers -/

/-- What a PostgreSQL database makes of the two statements: the declared columns, and the declared
constraints. -/
structure PostgresDatabase where
  create : String → Option (String × PostgresTable)
  table : PostgresTable
  metadata : PostgresTable
  creates_table : create postgresCreateTable = some (tableName, table)
  creates_metadata : create postgresCreateMetadataTable = some (metadataTableName, metadata)
  table_columns : Postgres.postgresTableColumns table.columns = postgresTableColumns
  table_constraints : ∃ actual, Postgres.parsePostgresConstraints table.constraints = .ok actual ∧
    postgresTableConstraints.Perm actual
  metadata_columns : Postgres.postgresTableColumns metadata.columns = postgresMetadataColumns
  metadata_constraints : ∃ actual,
    Postgres.parsePostgresConstraints metadata.constraints = .ok actual ∧
      postgresMetadataConstraints.Perm actual
  metadata_rows : metadata.rows = []

namespace PostgresDatabase

def utf8 : Option (List SqlValue) := some [.text "UTF8"]

def Pinned (c : PostgresCatalog) : Prop :=
  c.encoding = utf8 ∧
    Postgres.Conforms c tableName postgresTableColumns postgresTableConstraints ∧
    Postgres.Conforms c metadataTableName postgresMetadataColumns postgresMetadataConstraints ∧
    ∃ metadata, c.tables metadataTableName = some metadata ∧
      versionRow metadata.rows component = some [.text component, .integer schemaVersion]

def Fresh (c : PostgresCatalog) : Prop :=
  c.encoding = utf8 ∧ ∀ name ∈ ownedTables, c.tables name = none

/-- A table without columns is none of the pinned ones. -/
theorem conforms_present {c : PostgresCatalog} {name : String} {column : PostgresColumn}
    {columns : List PostgresColumn} {constraints : List PostgresConstraint}
    (h : Postgres.Conforms c name (column :: columns) constraints) :
    ∃ table, c.tables name = some table := by
  obtain ⟨hcolumns, _⟩ := h
  cases hc : c.tables name with
  | none =>
    rw [hc] at hcolumns
    cases hcolumns
  | some table => exact ⟨table, rfl⟩

variable (db : PostgresDatabase)

def install (c : PostgresCatalog) : PostgresCatalog :=
  ⟨c.encoding, Function.update (Function.update c.tables tableName (some db.table))
    metadataTableName
    (some { db.metadata with rows := [[.text component, .integer schemaVersion]] })⟩

def schema : Schema PostgresCatalog where
  Fresh := Fresh
  Pinned := Pinned
  install := db.install
  pinned_install c hfresh := by
    have htable : (db.install c).tables tableName = some db.table := by
      simp only [install, Function.update_of_ne tables_ne.symm, Function.update_self]
    have hmetadata : (db.install c).tables metadataTableName = some { db.metadata with
        rows := [[.text component, .integer schemaVersion]] } := by
      simp only [install, Function.update_self]
    refine ⟨hfresh.1, ⟨?_, ?_⟩, ⟨?_, ?_⟩, _, hmetadata, versionRow_self component schemaVersion⟩
    · rw [htable]
      exact db.table_columns
    · rw [htable]
      exact db.table_constraints
    · rw [hmetadata]
      exact db.metadata_columns
    · rw [hmetadata]
      exact db.metadata_constraints
  not_fresh c h hfresh := by
    obtain ⟨table, htable⟩ := conforms_present h.2.1
    rw [hfresh.2 tableName (by simp [ownedTables])] at htable
    cases htable

theorem ownedTables_ensures (c : PostgresCatalog) (names : List String) :
    (Postgres.query (.selectTables names)).ensures (mayRaise (PostgresQuery.Does db.create))
      (fun out c' => c' = c ∧ (out = .error .raised ∨ ∃ tables, out = .ok tables ∧
        ∀ name, name ∈ tables ↔ name ∈ names ∧ (c.tables name).isSome = true)) c := by
  rintro r c' (⟨found, rfl, rfl, hfound⟩ | ⟨rfl, rfl⟩)
  · exact ⟨rfl, .inr ⟨found, rfl, hfound⟩⟩
  · exact ⟨rfl, .inl rfl⟩

theorem select_ensures {c : PostgresCatalog} {table : PostgresTable}
    (h : c.tables metadataTableName = some table) :
    (Postgres.query (.selectVersion metadataTableName component)).ensures
      (mayRaise (PostgresQuery.Does db.create)) (fun out c' => c' = c ∧
        (out = .error .raised ∨ out = .ok (versionRow table.rows component))) c := by
  rintro r c' (⟨row, rfl, rfl, table', htable, hrow⟩ | ⟨rfl, rfl⟩)
  · rw [h] at htable
    cases htable
    exact ⟨rfl, .inr (congrArg Except.ok hrow)⟩
  · exact ⟨rfl, .inl rfl⟩

theorem verify_decides {c : PostgresCatalog} (hutf8 : c.encoding = utf8) :
    Decides (PostgresQuery.Does db.create) postgresVerify (Pinned c) c := by
  suffices h : Decides (PostgresQuery.Does db.create) postgresVerify _ c from
    h.congr ⟨fun h => ⟨hutf8, h⟩, fun h => h.2⟩
  refine (Postgres.verifyPostgresTable_decides _ c _ _ _).and fun _ => ?_
  refine (Postgres.verifyPostgresTable_decides _ c _ _ _).and fun hmetadata => ?_
  obtain ⟨table, htable⟩ := conforms_present hmetadata
  refine (decides_metadata (db.select_ensures htable)).congr ?_
  constructor
  · exact fun h => ⟨table, htable, h⟩
  · rintro ⟨table', htable', h⟩
    rw [htable] at htable'
    cases htable'
    exact h

theorem create_ensures (c : PostgresCatalog) :
    postgresCreate.ensures (mayRaise (PostgresQuery.Does db.create)) (fun out c' =>
      out = .error .raised ∨ (out = .ok () ∧ c' = db.install c)) c := by
  refine ensures_ask (.inl rfl) ?_
  rintro _ c₁ ⟨name, table, hcreate, _, rfl⟩
  rw [db.creates_table] at hcreate
  cases hcreate
  refine ensures_ask (.inl rfl) ?_
  rintro _ c₂ ⟨name, table, hcreate, _, rfl⟩
  rw [db.creates_metadata] at hcreate
  cases hcreate
  have hmetadata : Function.update (Function.update c.tables tableName (some db.table))
      metadataTableName (some db.metadata) metadataTableName = some db.metadata :=
    Function.update_self ..
  refine ensures_ask (.inl rfl) ?_
  rintro row c₃ ⟨rfl, table, htable, rfl⟩
  cases hmetadata.symm.trans htable
  rw [db.metadata_rows]
  -- the new metadata table is empty
  rintro _ c₄ (⟨_, rfl, table, htable, rfl⟩ | ⟨rfl, rfl⟩)
  · cases hmetadata.symm.trans htable
    refine .inr ⟨rfl, ?_⟩
    simp only [Function.update_idem, db.metadata_rows]
    rfl
  · exact .inl rfl

omit db in
theorem fresh_iff {c : PostgresCatalog} (hutf8 : c.encoding = utf8) :
    Fresh c ↔ ∀ name ∈ ownedTables, ¬ (c.tables name).isSome = true := by
  refine (and_iff_right hutf8).trans (forall_congr' fun name => imp_congr_right fun _ => ?_)
  rw [Bool.not_eq_true, Option.isSome_eq_false_iff, Option.isNone_iff_eq_none]

omit db in
theorem pinned_present {c : PostgresCatalog} (h : Pinned c) :
    ∀ name ∈ ownedTables, (c.tables name).isSome = true := by
  obtain ⟨_, htable, hmetadata, _⟩ := h
  simp only [ownedTables, List.forall_mem_cons, Option.isSome_iff_exists]
  exact ⟨conforms_present htable, conforms_present hmetadata, by simp⟩

/-- **Under the lock, `initialize` sets the schema up**, in a database of the right encoding. -/
theorem body_setUp {c : PostgresCatalog} (hutf8 : c.encoding = utf8) :
    db.schema.SetUp (PostgresQuery.Does db.create) postgresBody c := by
  refine db.schema.setUp_spec (db.ownedTables_ensures c ownedTables) (fresh_iff hutf8)
    pinned_present (fun _ => db.create_ensures c) ?_
  rintro c' (rfl | rfl)
  · exact db.verify_decides hutf8
  · exact db.verify_decides hutf8

/-- Nobody changes the encoding. -/
theorem stays_encoding {c₀ c : PostgresCatalog} (h : db.schema.Stays c₀ c) :
    c.encoding = c₀.encoding := by
  rcases h with rfl | ⟨_, rfl⟩
  · rfl
  · rfl

section Initializers

variable {T : Type} [DecidableEq T] {c₀ : PostgresCatalog} {t : T}

theorem wp_checkEncoding {s : Shared T PostgresCatalog} (hs : Free t s) :
    wp (system (PostgresQuery.Does db.create)) (db.schema.initializing c₀) t
      (onConnection checkEncoding) (fun out s' => Free t s' ∧ (out = .error .raised ∨
        (out = .ok () ∧ c₀.encoding = utf8) ∨
        ((∃ e, out = .error (.mismatch e)) ∧ c₀.encoding ≠ utf8))) s := by
  refine wp_read (P := fun _ => True) true_stable hs trivial ?_
  rintro r s hinv hs _ (⟨encoding, rfl, _, rfl⟩ | ⟨rfl, _⟩)
  · rw [db.stays_encoding hinv]
    show wp _ _ t (onConnection (if c₀.encoding = utf8 then _ else _)) _ s
    by_cases hutf8 : c₀.encoding = utf8
    · rw [if_pos hutf8]
      exact wp_pure free_stable hs fun s' _ hs => ⟨hs, .inr (.inl ⟨rfl, hutf8⟩)⟩
    · rw [if_neg hutf8]
      exact wp_fail free_stable hs fun s' _ hs => ⟨hs, .inr (.inr ⟨⟨_, rfl⟩, hutf8⟩)⟩
  · exact wp_fail free_stable hs fun s' _ hs => ⟨hs, .inl rfl⟩

/-- One initializer among any others. -/
theorem wp_initialize (s : Shared T PostgresCatalog) (hs : Free t s)
    (hinv : db.schema.Stays c₀ s.committed) :
    wp (system (PostgresQuery.Does db.create)) (db.schema.initializing c₀) t
      postgresInitialize (fun out s => db.schema.Ends c₀ out s.committed) s := by
  refine wp_settle hinv (wp_bind hinv ?_)
  refine wp_mono ?_ (db.wp_checkEncoding hs)
  rintro out s _ ⟨hs, heq | ⟨heq, hutf8⟩ | ⟨⟨e, heq⟩, hutf8⟩⟩
  · cases heq
    exact fun s' _ _ => Schema.wp_raised
  · cases heq
    refine wp_lock (P := fun _ => True) true_stable hs trivial ?_ fun s _ _ s' _ _ =>
      Schema.wp_raised
    intro c s hc _ hs
    have hbody := db.body_setUp ((db.stays_encoding hc).trans hutf8)
    refine wp_mono ?_ (wp_body hbody hs)
    rintro out s _ ⟨c', heq | ⟨heq, hset⟩ | ⟨⟨e, heq⟩, hfresh, hpinned⟩, hs⟩
    · cases heq
      exact Schema.wp_raised
    · cases heq
      refine Schema.wp_commits hc hset hs ?_ ?_
      · exact fun s' hp => Schema.wp_close (fun _ => hp) fun e h => by cases h
      · exact fun s' => Schema.wp_close (fun h => by cases h) fun e h => by cases h
    · cases heq
      exact Schema.wp_abandon fun _ => Schema.mismatch_start hc hfresh hpinned
  · cases heq
    exact fun s' _ _ => Schema.wp_abandon fun _ =>
      ⟨fun hfresh => hutf8 hfresh.1, fun hpinned => hutf8 hpinned.1⟩

/-- **Initializers of one PostgreSQL database agree.** However many start on it, in whatever order
their statements run, whichever raise and whoever dies: the database holds what it held, or that
with the two tables if neither was there; whoever returned finds the pinned schema; and a mismatch
is reported only if the database held something else, or had another encoding, from the start. -/
theorem postgres_initializers_agree {c : Config T (Shared T PostgresCatalog) (Op PostgresQuery)
      (OpReply PostgresReply) InitializeError Unit}
    (hc : Reachable (system (PostgresQuery.Does db.create)) ⟨c₀, none, []⟩
      (fun _ => postgresInitialize) c) :
    (c.state.committed = c₀ ∨ (Fresh c₀ ∧ c.state.committed = db.install c₀)) ∧
      ∀ t, (c.prog t = some (.pure ()) → Pinned c.state.committed) ∧
        ∀ e, c.prog t = some (.fail (.schemaMismatch e)) → ¬ Fresh c₀ ∧ ¬ Pinned c₀ :=
  db.schema.initializers_agree (fun _ s hs hinv => db.wp_initialize s hs hinv) hc

end Initializers

/-! ### An initializer alone -/

theorem create_allows {c : PostgresCatalog} (hfresh : Fresh c) :
    postgresCreate.allows (mayRaise (PostgresQuery.Does db.create))
      (fun out c' => out = .ok () ∧ c' = db.install c) c := by
  have hmetadata : Function.update (Function.update c.tables tableName (some db.table))
      metadataTableName (some db.metadata) metadataTableName = some db.metadata :=
    Function.update_self ..
  have habsent : Function.update c.tables tableName (some db.table) metadataTableName = none := by
    rw [Function.update_of_ne tables_ne, hfresh.2 metadataTableName (by simp [ownedTables])]
  refine allows_ask () ⟨_, _, db.creates_table, hfresh.2 _ (by simp [ownedTables]), rfl⟩ ?_
  refine allows_ask () ⟨_, _, db.creates_metadata, habsent, rfl⟩ ?_
  refine allows_ask _ ⟨rfl, _, hmetadata, rfl⟩ ?_
  rw [db.metadata_rows]
  refine Prog.allows_exec (some ()) (.inl ⟨(), rfl, _, hmetadata, rfl⟩) ⟨rfl, ?_⟩
  simp only [Function.update_idem, db.metadata_rows]
  rfl

theorem verify_accepts {c : PostgresCatalog} (h : Pinned c) :
    Accepts (PostgresQuery.Does db.create) postgresVerify c := by
  obtain ⟨_, htable, hmetadata, table, hpresent, hrow⟩ := h
  refine (Postgres.verifyPostgresTable_accepts htable).and
    ((Postgres.verifyPostgresTable_accepts hmetadata).and (accepts_metadata ?_))
  exact Prog.allows_exec (some _) (.inl ⟨_, rfl, rfl, table, hpresent, rfl⟩) ⟨_, rfl, hrow, rfl⟩

theorem body_succeeds {c : PostgresCatalog} (hutf8 : c.encoding = utf8) (hc : Fresh c ∨ Pinned c) :
    db.schema.Succeeds (PostgresQuery.Does db.create) postgresBody c := by
  let present := ownedTables.filter fun name => (c.tables name).isSome
  have howned : (Postgres.query (.selectTables ownedTables)).allows
      (mayRaise (PostgresQuery.Does db.create)) (fun out c' => ∃ tables, out = .ok tables ∧
        (∀ name, name ∈ tables ↔ name ∈ ownedTables ∧ (c.tables name).isSome = true) ∧ c' = c) c :=
    Prog.allows_exec (some present)
      (.inl ⟨present, rfl, rfl, fun name => List.mem_filter⟩)
      ⟨present, rfl, fun name => List.mem_filter, rfl⟩
  exact db.schema.setUp_succeeds howned (fresh_iff hutf8) pinned_present
    (fun h => db.create_allows h) (fun _ h => db.verify_accepts h) hc

/-- **An initializer that finds the lock free can return**, where the tables are absent or as
pinned. -/
theorem initializer_returns {T : Type} [DecidableEq T] {t : T}
    {c : Config T (Shared T PostgresCatalog) (Op PostgresQuery) (OpReply PostgresReply)
      InitializeError Unit}
    (hfree : c.state.holder = none) (hc : Fresh c.state.committed ∨ Pinned c.state.committed)
    (hp : c.prog t = some postgresInitialize) :
    ∃ s', s'.holder = none ∧ Pinned s'.committed ∧
      Relation.ReflTransGen (Step (system (PostgresQuery.Does db.create))) c
        ⟨s', Function.update c.prog t (some (.pure ()))⟩ := by
  have hutf8 : c.state.committed.encoding = utf8 := hc.elim (fun h => h.1) fun h => h.1
  have hnobody : ∀ d, c.state.holder ≠ some (t, d) := by simp [hfree]
  have hruns : postgresInitialize.allows ((system (PostgresQuery.Does db.create)).step t)
      (fun out s' => out = .ok () ∧ s'.holder = none ∧ Pinned s'.committed) c.state := by
    -- the encoding is read without the lock
    refine Prog.allows_exec (some utf8) (.inr ⟨hnobody, .inl ⟨_, rfl, rfl, hutf8.symm⟩, rfl⟩) ?_
    refine allows_lock hfree ((Prog.allows_settle _ _ _ _).mpr ?_)
    refine Prog.allows_mono (allows_body (db.body_succeeds hutf8 hc) rfl) ?_
    rintro _ _ ⟨c', ⟨rfl, hset⟩, rfl⟩
    have hpinned : Pinned c' := by
      rcases hset with ⟨hnew, rfl⟩ | ⟨hp, rfl⟩
      · exact db.schema.pinned_install _ hnew
      · exact hp
    exact Prog.allows_exec true (.inl ⟨c', rfl, .inl rfl⟩)
      (Prog.allows_exec () rfl ⟨rfl, rfl, hpinned⟩)
  obtain ⟨_, s', ⟨rfl, hfree', hpinned⟩, hsteps⟩ := runs_alone hruns hp
  exact ⟨s', hfree', hpinned, hsteps⟩

end PostgresDatabase

/-! ### Two initializers -/

theorem postgres_creates_differ : postgresCreateMetadataTable ≠ postgresCreateTable := by decide

/-- A table as created: no row, the columns and constraints as the catalog shows them. -/
def createdPostgres (columns : List PostgresColumn) (constraints : List PostgresConstraint) :
    PostgresTable :=
  ⟨columns.map fun c => ⟨c.name, c.columnType, if c.notNull then "NO" else "YES", c.ordinalPosition,
      c.collationSchema, c.collationName, c.collationProvider, c.collationIsDeterministic,
      c.collationEncoding⟩,
    constraints.map fun c => [.str c.table, .str c.constraintType,
      .seq (c.columns.map some) "", c.expression.elim .null .str, .bool c.deferrable,
      .bool c.deferred, .bool c.validated, .bool c.noInherit], []⟩

def samplePostgres : PostgresDatabase where
  create sql :=
    if sql = postgresCreateTable then
      some (tableName, createdPostgres postgresTableColumns postgresTableConstraints)
    else if sql = postgresCreateMetadataTable then
      some (metadataTableName, createdPostgres postgresMetadataColumns postgresMetadataConstraints)
    else none
  table := createdPostgres postgresTableColumns postgresTableConstraints
  metadata := createdPostgres postgresMetadataColumns postgresMetadataConstraints
  creates_table := if_pos rfl
  creates_metadata := (if_neg postgres_creates_differ).trans (if_pos rfl)
  table_columns := rfl
  table_constraints := ⟨_, rfl, .refl _⟩
  metadata_columns := rfl
  metadata_constraints := ⟨_, rfl, .refl _⟩
  metadata_rows := rfl

/-- One installs the tables, and then the other returns on the pinned schema. -/
theorem postgres_initializers_agree_sample :
    ∃ c : Config Bool (Shared Bool PostgresCatalog) (Op PostgresQuery) (OpReply PostgresReply)
        InitializeError Unit,
      c.prog true = some (.pure ()) ∧ c.prog false = some (.pure ()) ∧
      PostgresDatabase.Pinned c.state.committed ∧
      c.state.committed = samplePostgres.install ⟨PostgresDatabase.utf8, fun _ => none⟩ := by
  let c₀ : Config Bool (Shared Bool PostgresCatalog) (Op PostgresQuery) (OpReply PostgresReply)
      InitializeError Unit :=
    start ⟨⟨PostgresDatabase.utf8, fun _ => none⟩, none, []⟩ fun _ => postgresInitialize
  obtain ⟨s₁, hfree, hpinned, h₁⟩ := samplePostgres.initializer_returns (t := true) (c := c₀) rfl
    (.inl ⟨rfl, fun _ _ => rfl⟩) rfl
  obtain ⟨s₂, _, _, h₂⟩ := samplePostgres.initializer_returns (t := false)
    (c := ⟨s₁, Function.update c₀.prog true (some (.pure ()))⟩) hfree (.inr hpinned) rfl
  obtain ⟨hcommitted, hends⟩ := samplePostgres.postgres_initializers_agree (h₁.trans h₂)
  have hinstalled := (hends false).1 rfl
  refine ⟨_, rfl, rfl, hinstalled, ?_⟩
  rcases hcommitted with hsame | ⟨_, hcommitted⟩
  · have hfresh : PostgresDatabase.Fresh s₂.committed := by
      rw [show s₂.committed = _ from hsame]
      exact ⟨rfl, fun _ _ => rfl⟩
    exact absurd hfresh (samplePostgres.schema.not_fresh _ hinstalled)
  · exact hcommitted

end DrStore.Leases.Initialization
