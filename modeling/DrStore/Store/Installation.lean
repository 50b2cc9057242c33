import DrStore.Base.Exclusive
import DrStore.Leases.RowEncoding
import DrStore.Store.Postgres

/-! # Installing and opening the PostgreSQL schema (storage_backends/postgresql.py)

`install_postgres` makes the schema `dr_store` with its tables and its format marker in one
transaction, and `PostgresBackend.open` accepts a database by its marker. A `CREATE SCHEMA` waits
for the transaction of another one: it is what takes the lock. The columns of the tables are left
out. -/
namespace DrStore.Store.Installation
open DrStore.Base.Exclusive DrStore.Base.Pool DrStore.Base.Programs
open DrStore.Leases.RowEncoding (SqlValue)
open DrStore.Store.Postgres

/-! ## The database -/

def postgresSchemaFormat : String := "dr-store-postgresql-v1"

def schemaFormat : String := "schema_format"

/-- The tables of `POSTGRES_METADATA`. -/
def metadataTables : List String := [schemaFormat, "objects", "bindings"]

structure Catalog where
  versionNum : Int
  serverEncoding : String
  /-- The schema `dr_store`: the rows of its tables, of `schema_format` the formats. -/
  schema : Option (String → Option (List SqlValue))

/-- The schema with other tables. -/
def Catalog.set (c : Catalog) (tables : String → Option (List SqlValue)) : Catalog :=
  { c with schema := some tables }

inductive Query where
  | requirements
  | createSchema
  | createTable (name : String)
  | insertFormat (format : String)
  | selectFormats

abbrev QueryReply : Query → Type
  | .requirements => Int × String
  | .createSchema => Unit
  | .createTable _ => Unit
  | .insertFormat _ => Unit
  | .selectFormats => List SqlValue

/-- `create_all` leaves a table that is there; the marker table takes one row. -/
def Does (c : Catalog) : (q : Query) → QueryReply q → Catalog → Prop
  | .requirements, r, c' => c' = c ∧ r = (c.versionNum, c.serverEncoding)
  | .createSchema, _, c' => c.schema = none ∧ c' = c.set fun _ => none
  | .createTable name, _, c' => ∃ tables, c.schema = some tables ∧
    c' = c.set (if (tables name).isSome = true then tables
      else Function.update tables name (some []))
  | .insertFormat format, _, c' => ∃ tables, c.schema = some tables ∧
    tables schemaFormat = some [] ∧
    c' = c.set (Function.update tables schemaFormat (some [.text format]))
  | .selectFormats, rows, c' => c' = c ∧ ∃ tables, c.schema = some tables ∧
    tables schemaFormat = some rows

/-! ## Programs -/

inductive InstallError where
  | runtimeError (message : String)
  | valueError (message : String)
  /-- Whatever the database raised. -/
  | raised
deriving DecidableEq

abbrev Body (α : Type) := Prog Query (fun q => Option (QueryReply q)) InstallError α

abbrev Script (α : Type) := Prog (Op Query) (OpReply QueryReply) InstallError α

def send (q : Query) : Body (QueryReply q) := ask .raised q

def validateDatabase (versionNum : Int) (serverEncoding : String) : Except InstallError Unit :=
  let major := versionNum / 10000
  if ¬ (16 ≤ major ∧ major ≤ 18) then
    .error (.runtimeError "PostgreSQL 16 through 18 is required")
  else if serverEncoding ≠ "UTF8" then
    .error (.runtimeError "PostgreSQL server encoding must be UTF-8")
  else .ok ()

def validateSchemaFormat (formats : List SqlValue) : Except InstallError Unit :=
  if formats ≠ [.text postgresSchemaFormat] then
    .error (.runtimeError
      "PostgreSQL schema format marker is missing, malformed, or unsupported")
  else .ok ()

def checkRequirements : Body Unit := do
  let requirements ← send .requirements
  Prog.ofExcept (validateDatabase requirements.1 requirements.2)

def createAll : List String → Body Unit
  | [] => pure ()
  | name :: names => do
    send (.createTable name)
    createAll names

def createStorageTables : Body Unit := do
  send .createSchema
  createAll metadataTables

def installTables : Body Unit := do
  createStorageTables
  send (.insertFormat postgresSchemaFormat)

/-- `_install_on_connection`: the requirements, then what `CREATE SCHEMA` starts. -/
def installOnConnection : Script Unit :=
  onConnection checkRequirements >>= fun _ => .exec .lock fun locked =>
    if locked then onConnection installTables else .fail .raised

/-- `install_postgres`, `install_postgres_sync`, on a connection of the engine. -/
def installPostgres : Script Unit :=
  installOnConnection.settle fun
    | .ok _ => .exec .commit fun committed =>
      .closing .close (if committed then .ok () else .error .raised)
    | .error e => .exec .rollback fun _ => .closing .close (.error e)

def validateSchema : Body Unit := do
  let formats ← send .selectFormats
  Prog.ofExcept (validateSchemaFormat formats)

/-- `PostgresBackend.open`, `PostgresBackend.open_sync`. -/
def openBackend (batchChunkSize : Int) : Script PostgresBackend :=
  if h : batchChunkSize ≤ 0 then .fail (.valueError "batch_chunk_size must be positive")
  else (onConnection validateSchema).settle fun
    | .ok _ => .closing .close (.ok ⟨batchChunkSize.toNat, by omega⟩)
    | .error e => .closing .close (.error e)

inductive Call where
  | install
  | openBackend (batchChunkSize : Int)

def Call.program : Call → Script (Option PostgresBackend)
  | .install => installPostgres >>= fun _ => .pure none
  | .openBackend batchChunkSize =>
    Installation.openBackend batchChunkSize >>= fun backend => .pure (some backend)

/-- A check passes or names what is wrong. -/
theorem validateDatabase_cases (versionNum : Int) (serverEncoding : String) :
    validateDatabase versionNum serverEncoding = .ok () ∨
      ∃ m, validateDatabase versionNum serverEncoding = .error (.runtimeError m) := by
  simp only [validateDatabase]
  split
  · exact .inr ⟨_, rfl⟩
  · split
    · exact .inr ⟨_, rfl⟩
    · exact .inl rfl

/-! ## What an installation makes -/

def Supported (c : Catalog) : Prop := validateDatabase c.versionNum c.serverEncoding = .ok ()

def formats (c : Catalog) : Option (List SqlValue) := c.schema.bind fun tables => tables schemaFormat

/-- What `open` accepts. -/
def Marked (c : Catalog) : Prop := formats c = some [.text postgresSchemaFormat]

def install (c : Catalog) : Catalog :=
  c.set fun name =>
    if name = schemaFormat then some [.text postgresSchemaFormat]
    else if name ∈ metadataTables then some [] else none

theorem install_marked (c : Catalog) : Marked (install c) := by
  simp [Marked, formats, install, Catalog.set]

/-- A table that is there stays, the others are new and empty. -/
theorem createAll_ensures (names : List String) (c : Catalog)
    (tables : String → Option (List SqlValue)) :
    (createAll names).ensures (mayRaise Does) (fun out c' => out = .error .raised ∨
      (out = .ok () ∧ c' = c.set fun name =>
        (tables name).or (if name ∈ names then some [] else none))) (c.set tables) := by
  induction names generalizing tables with
  | nil =>
    refine .inr ⟨rfl, ?_⟩
    simp
  | cons name names ih =>
    refine ensures_ask (.inl rfl) ?_
    rintro _ _ ⟨_, heq, rfl⟩
    cases heq
    refine Prog.ensures_mono (ih _) ?_
    rintro out c' (hraised | ⟨hok, rfl⟩)
    · exact .inl hraised
    · refine .inr ⟨hok, congrArg c.set (funext fun other => ?_)⟩
      by_cases hother : other = name
      · subst hother
        cases htable : tables other <;> simp [htable]
      · cases htable : tables name <;> simp [hother, Function.update_of_ne]

theorem createStorageTables_ensures (c : Catalog) :
    createStorageTables.ensures (mayRaise Does) (fun out c' => out = .error .raised ∨
      (out = .ok () ∧ c.schema = none ∧
        c' = c.set fun name => if name ∈ metadataTables then some [] else none)) c := by
  refine ensures_ask (.inl rfl) ?_
  rintro _ _ ⟨habsent, rfl⟩
  refine Prog.ensures_mono (createAll_ensures metadataTables c fun _ => none) ?_
  rintro out c' (hraised | ⟨hok, rfl⟩)
  · exact .inl hraised
  · exact .inr ⟨hok, habsent, rfl⟩

theorem installTables_ensures (c : Catalog) :
    installTables.ensures (mayRaise Does) (fun out c' => out = .error .raised ∨
      (out = .ok () ∧ c.schema = none ∧ c' = install c)) c := by
  refine Prog.ensures_bind _ (createStorageTables_ensures c) ?_ ?_
  · rintro _ _ (heq | ⟨_, habsent, rfl⟩)
    · cases heq
    · rintro _ _ (⟨_, rfl, _, heq, _, rfl⟩ | ⟨rfl, rfl⟩)
      · cases heq
        refine .inr ⟨rfl, habsent, congrArg c.set (funext fun name => ?_)⟩
        by_cases hname : name = schemaFormat
        · simp [hname]
        · simp [hname, Function.update_of_ne]
      · exact .inl rfl
  · rintro _ _ (heq | ⟨heq, _⟩)
    · cases heq
      exact .inl rfl
    · cases heq

/-! ## Any number of installers and openers -/

section Clients

variable {T : Type} (c₀ : Catalog)

/-- What may be committed: what was there at the start, or that with the schema, by one client. -/
def Stays (c : Catalog) (log : List (T × Catalog)) : Prop :=
  (c = c₀ ∧ log = []) ∨
    (c₀.schema = none ∧ Supported c₀ ∧ c = install c₀ ∧ ∃ t, log = [(t, install c₀)])

/-- The only change. -/
def Installs (c c' : Catalog) : Prop := c.schema = none ∧ c' = install c

abbrev guarantee : Rules T (Shared T Catalog) := rules (Stays c₀) Installs

variable {c₀}

/-- Nobody changes the server. -/
theorem stays_supported {c : Catalog} {log : List (T × Catalog)} (h : Stays c₀ c log) :
    Supported c ↔ Supported c₀ := by
  rcases h with ⟨rfl, _⟩ | ⟨_, _, rfl, _⟩
  · rfl
  · rfl

theorem marked_kept (c c' : Catalog) (h : Installs c c') (_ : Marked c) : Marked c' := by
  rw [h.2]
  exact install_marked c

/-- A marker that `open` refuses was there from the start. -/
theorem stays_formats {c : Catalog} {log : List (T × Catalog)} {rows : List SqlValue} (h : Stays c₀ c log)
    (hrows : formats c = some rows) (hne : rows ≠ [.text postgresSchemaFormat]) :
    formats c₀ = some rows := by
  rcases h with ⟨rfl, _⟩ | ⟨_, _, rfl, _⟩
  · exact hrows
  · rw [install_marked] at hrows
    cases hrows
    exact absurd rfl hne

variable [DecidableEq T] {t : T}

/-- How an installer ends: on the log, or with a requirement that the server does not meet. -/
def InstallEnds (c₀ : Catalog) (t : T) (out : Except InstallError Unit)
    (log : List (T × Catalog)) : Prop :=
  (out = .ok () → [(t, install c₀)] <:+ log) ∧
    ∀ m, out = .error (.runtimeError m) → ¬ Supported c₀

theorem wp_checkRequirements {s : Shared T Catalog} (hs : Free t s) :
    wp (system Does) (guarantee c₀) t (onConnection checkRequirements) (fun out s' => Free t s' ∧
      (out = .error .raised ∨ (out = .ok () ∧ Supported c₀) ∨
        ((∃ m, out = .error (.runtimeError m)) ∧ ¬ Supported c₀))) s := by
  refine wp_read (P := fun _ => True) true_stable hs trivial ?_
  rintro r s hinv hs _ (⟨requirements, rfl, _, rfl⟩ | ⟨rfl, _⟩)
  · have hcheck : ∀ out, validateDatabase s.committed.versionNum s.committed.serverEncoding = out →
        (out = .ok () → Supported c₀) ∧ (out ≠ .ok () → ¬ Supported c₀) := by
      intro out hout
      rw [← stays_supported hinv, Supported, hout]
      exact ⟨id, id⟩
    show wp _ _ t (onConnection (Prog.ofExcept (validateDatabase s.committed.versionNum
      s.committed.serverEncoding))) _ s
    rcases validateDatabase_cases s.committed.versionNum s.committed.serverEncoding with
      hout | ⟨m, hout⟩
    · rw [hout]
      exact wp_pure free_stable hs fun s' _ hs => ⟨hs, .inr (.inl ⟨rfl, (hcheck _ hout).1 rfl⟩)⟩
    · rw [hout]
      have hnot := (hcheck _ hout).2 (by simp)
      exact wp_fail free_stable hs fun s' _ hs => ⟨hs, .inr (.inr ⟨⟨m, rfl⟩, hnot⟩)⟩
  · exact wp_fail free_stable hs fun s' _ hs => ⟨hs, .inl rfl⟩

/-- Rolling back, to raise what is no requirement, or one that is not met. -/
theorem wp_installFails {s : Shared T Catalog} {e : InstallError}
    (he : ∀ m, e = .runtimeError m → ¬ Supported c₀) :
    wp (system Does) (guarantee c₀) t (.exec .rollback fun _ => .closing .close (.error e))
      (fun out s => InstallEnds c₀ t out s.log) s := by
  refine wp_mono ?_ wp_abandoning
  rintro _ s _ rfl
  refine ⟨(fun h => by cases h), ?_⟩
  intro m hm
  cases hm
  exact he m rfl

theorem wp_installPostgres {s : Shared T Catalog} (hs : Free t s) (hinv : Stays c₀ s.committed s.log) :
    wp (system Does) (guarantee c₀) t installPostgres
      (fun out s => InstallEnds c₀ t out s.log) s := by
  have hraised : ∀ s, wp (system Does) (guarantee c₀) t
      (.exec .rollback fun _ => .closing .close (.error .raised))
      (fun out s => InstallEnds c₀ t out s.log) s := fun s =>
    wp_installFails (e := .raised) fun m h => by cases h
  refine wp_settle hinv (wp_bind hinv ?_)
  refine wp_mono ?_ (wp_checkRequirements hs)
  rintro out s _ ⟨hs, heq | ⟨heq, hsupported⟩ | ⟨⟨m, heq⟩, hnot⟩⟩
  · cases heq
    exact fun s' _ _ => hraised s'
  · cases heq
    refine wp_lock (P := fun _ => True) true_stable hs trivial ?_ fun s _ _ s' _ _ => hraised s'
    intro c s hc _ hs
    refine wp_mono ?_ (wp_body (installTables_ensures c) hs)
    rintro out s _ ⟨c', heq | ⟨heq, habsent, rfl⟩, hs⟩
    · cases heq
      exact hraised s
    · cases heq
      -- a schema that is absent has not been installed
      have hinstalls : ∀ log : List (T × Catalog), Stays c₀ c log → c = c₀ ∧ log = [] := by
        rintro log (h | ⟨_, _, rfl, _⟩)
        · exact h
        · cases habsent
      refine wp_commit hs ?_ (.inr ⟨habsent, rfl⟩) ?_ ?_
      · intro hlog
        obtain ⟨rfl, hnil⟩ := hinstalls _ hlog
        exact .inr ⟨habsent, hsupported, rfl, t, by rw [hnil]⟩
      · intro r s' hlog _ _ hlogged
        obtain ⟨rfl, hnil⟩ := hinstalls _ hlog
        rw [hnil] at hlogged
        refine wp_mono ?_ (wp_closing (P := fun _ log => [(t, install c)] <:+ log) suffix_stable
          (hlogged ▸ List.suffix_refl _))
        rintro _ s'' _ ⟨rfl, hlogged⟩
        cases r with
        | true => exact ⟨fun _ => hlogged, fun m h => by cases h⟩
        | false => exact ⟨(fun h => by cases h), fun m h => by cases h⟩
      · intro s' _
        refine wp_mono ?_ (wp_closing (P := fun _ _ => True) true_stable trivial)
        rintro _ s'' _ ⟨rfl, _⟩
        exact ⟨(fun h => by cases h), fun m h => by cases h⟩
  · cases heq
    exact fun s' _ _ => wp_installFails fun m' _ => hnot

/-- How an opener ends: over a marked database, or with a marker that was wrong from the start. -/
def OpenEnds (c₀ : Catalog) (batchChunkSize : Int) (out : Except InstallError PostgresBackend)
    (c : Catalog) : Prop :=
  (∀ backend, out = .ok backend → backend.batchChunkSize = batchChunkSize ∧ Marked c) ∧
    ∀ m, out = .error (.runtimeError m) →
      ∃ rows, formats c₀ = some rows ∧ rows ≠ [.text postgresSchemaFormat]

theorem wp_validateSchema {s : Shared T Catalog} (hs : Free t s) :
    wp (system Does) (guarantee c₀) t (onConnection validateSchema) (fun out s' =>
      out = .error .raised ∨ (out = .ok () ∧ Marked s'.committed) ∨
        ((∃ m, out = .error (.runtimeError m)) ∧
          ∃ rows, formats c₀ = some rows ∧ rows ≠ [.text postgresSchemaFormat])) s := by
  refine wp_read (P := fun _ => True) true_stable hs trivial ?_
  rintro r s hinv hs _ (⟨rows, rfl, _, tables, htables, hrows⟩ | ⟨rfl, _⟩)
  · have hformats : formats s.committed = some rows := by
      rw [formats, htables]
      exact hrows
    show wp _ _ t (onConnection (Prog.ofExcept (validateSchemaFormat rows))) _ s
    by_cases hmarked : rows = [.text postgresSchemaFormat]
    · rw [validateSchemaFormat, if_neg (not_not.mpr hmarked)]
      refine wp_pure (committed_stable marked_kept) ?_ fun s' _ hp => .inr (.inl ⟨rfl, hp⟩)
      rw [Marked, hformats, hmarked]
    · rw [validateSchemaFormat, if_pos hmarked]
      have hstart := stays_formats hinv hformats hmarked
      exact wp_fail free_stable hs fun s' _ _ => .inr (.inr ⟨⟨_, rfl⟩, rows, hstart, hmarked⟩)
  · exact wp_fail free_stable hs fun s' _ _ => .inl rfl

theorem wp_openBackend {s : Shared T Catalog} {batchChunkSize : Int} (hs : Free t s)
    (hinv : Stays c₀ s.committed s.log) :
    wp (system Does) (guarantee c₀) t (openBackend batchChunkSize)
      (fun out s => OpenEnds c₀ batchChunkSize out s.committed) s := by
  unfold openBackend
  split
  · refine wp_fail free_stable hs fun s' _ _ => ⟨(fun b h => by cases h), fun m h => by cases h⟩
  · rename_i hpositive
    refine wp_settle hinv (wp_mono ?_ (wp_validateSchema hs))
    rintro out s _ (heq | ⟨heq, hmarked⟩ | ⟨⟨m, heq⟩, hstart⟩)
    · cases heq
      refine wp_mono ?_ (wp_closing (P := fun _ _ => True) true_stable trivial)
      rintro _ s' _ ⟨rfl, _⟩
      exact ⟨(fun b h => by cases h), fun m h => by cases h⟩
    · cases heq
      refine wp_mono ?_ (wp_closing (P := fun c _ => Marked c) (committed_stable marked_kept) hmarked)
      rintro _ s' _ ⟨rfl, hmarked⟩
      refine ⟨?_, fun m h => by cases h⟩
      intro backend h
      cases h
      exact ⟨Int.toNat_of_nonneg (by omega), hmarked⟩
    · cases heq
      refine wp_mono ?_ (wp_closing (P := fun _ _ => True) true_stable trivial)
      rintro _ s' _ ⟨rfl, _⟩
      exact ⟨(fun b h => by cases h), fun m _ => hstart⟩

/-- How a client ends. -/
def Ends (c₀ : Catalog) (call : Call) (t : T) (out : Except InstallError (Option PostgresBackend))
    (c : Catalog) (log : List (T × Catalog)) : Prop :=
  (call = .install → (out = .ok none → [(t, install c₀)] <:+ log) ∧
    ∀ m, out = .error (.runtimeError m) → ¬ Supported c₀) ∧
  ∀ n, call = .openBackend n → (∀ backend, out = .ok (some backend) →
      backend.batchChunkSize = n ∧ Marked c) ∧
    ∀ m, out = .error (.runtimeError m) →
      ∃ rows, formats c₀ = some rows ∧ rows ≠ [.text postgresSchemaFormat]

theorem wp_program (call : Call) {s : Shared T Catalog} (hs : Free t s)
    (hinv : Stays c₀ s.committed s.log) :
    wp (system Does) (guarantee c₀) t call.program
      (fun out s => Ends c₀ call t out s.committed s.log) s := by
  cases call with
  | install =>
    refine wp_bind hinv (wp_mono ?_ (wp_installPostgres hs hinv))
    rintro out s _ ⟨hok, herror⟩
    cases out with
    | ok a =>
      refine wp_pure suffix_stable (hok rfl) fun s' _ hlogged => ⟨fun _ => ⟨?_, ?_⟩, ?_⟩
      · exact fun _ => hlogged
      · exact fun m h => by cases h
      · exact fun n h => by cases h
    | error e =>
      refine fun s' _ _ => ⟨fun _ => ⟨?_, ?_⟩, ?_⟩
      · exact fun h => by cases h
      · exact fun m h => herror m (by cases h; rfl)
      · exact fun n h => by cases h
  | openBackend n =>
    refine wp_bind hinv (wp_mono ?_ (wp_openBackend hs hinv))
    rintro out s _ ⟨hok, herror⟩
    cases out with
    | ok a =>
      obtain ⟨hn, hmarked⟩ := hok a rfl
      refine wp_pure (committed_stable marked_kept) hmarked fun s' _ hmarked => ⟨?_, ?_⟩
      · exact fun h => by cases h
      · rintro _ ⟨⟩
        refine ⟨?_, fun m h => by cases h⟩
        intro backend h
        cases h
        exact ⟨hn, hmarked⟩
    | error e =>
      refine fun s' _ _ => ⟨?_, ?_⟩
      · exact fun h => by cases h
      · rintro _ ⟨⟩
        exact ⟨(fun backend h => by cases h), fun m h => herror m (by cases h; rfl)⟩

/-- **At most one installation.** However many install and open one database at once, in whatever
order their statements run, whichever raise and whoever dies: the database holds what it held, or
that with the whole schema if it had none and meets the requirements; at most one installer
returns, and only then; a backend is opened, with the chunk size that was asked for, only on a
database with exactly the pinned marker, and that marker stays; and an error about the requirements
or about the marker is never due to another client. -/
theorem installed_at_most_once {calls : T → Call}
    {c : Config T (Shared T Catalog) (Op Query) (OpReply QueryReply) InstallError
      (Option PostgresBackend)}
    (hc : Reachable (system Does) ⟨c₀, none, []⟩ (fun t => (calls t).program) c) :
    (c.state.committed = c₀ ∨
      (c₀.schema = none ∧ Supported c₀ ∧ c.state.committed = install c₀)) ∧
    (∀ t, calls t = .install → c.prog t = some (.pure none) →
      c₀.schema = none ∧ c.state.committed = install c₀ ∧
        ∀ u, calls u = .install → c.prog u = some (.pure none) → u = t) ∧
    (∀ t n backend, calls t = .openBackend n → c.prog t = some (.pure (some backend)) →
      backend.batchChunkSize = n ∧ Marked c.state.committed) ∧
    ∀ t m, c.prog t = some (.fail (.runtimeError m)) →
      (calls t = .install → ¬ Supported c₀) ∧
      (∀ n, calls t = .openBackend n →
        ∃ rows, formats c₀ = some rows ∧ rows ≠ [.text postgresSchemaFormat]) := by
  obtain ⟨hinv, hends⟩ := reachable_committed (Q := fun t => Ends c₀ (calls t) t) (.inl ⟨rfl, rfl⟩)
    (fun t => wp_program (calls t) (fun _ h => by cases h) (.inl ⟨rfl, rfl⟩)) hc
  have hlogged : ∀ t, calls t = .install → c.prog t = some (.pure none) →
      (t, install c₀) ∈ c.state.log :=
    fun t hcall hp =>
      List.IsSuffix.mem (List.mem_singleton_self _) (((hends t (.ok none) hp).1 hcall).1 rfl)
  refine ⟨?_, ?_, ?_, ?_⟩
  · rcases hinv with ⟨heq, _⟩ | ⟨habsent, hsupported, heq, _⟩
    · exact .inl heq
    · exact .inr ⟨habsent, hsupported, heq⟩
  · intro t hcall hp
    have ht := hlogged t hcall hp
    rcases hinv with ⟨_, hlog⟩ | ⟨habsent, _, heq, v, hlog⟩
    · rw [hlog] at ht
      cases ht
    · refine ⟨habsent, heq, ?_⟩
      intro u hcall' hp'
      have hu := hlogged u hcall' hp'
      rw [hlog, List.mem_singleton, Prod.mk.injEq] at ht hu
      rw [hu.1, ht.1]
  · exact fun t n backend hcall hp => ((hends t (.ok (some backend)) hp).2 n hcall).1 backend rfl
  · intro t m hp
    have h := hends t (.error (.runtimeError m)) hp
    exact ⟨fun hcall => (h.1 hcall).2 m rfl, fun n hcall => (h.2 n hcall).2 m rfl⟩

end Clients

/-! ### One installer and one opener -/

def emptyServer : Catalog := ⟨160004, "UTF8", none⟩

def sampleCalls : Bool → Call
  | true => .install
  | false => .openBackend 512

/-- The opener comes before the commit, and finds no marker table; the installer returns. -/
theorem sample_installed :
    ∃ c : Config Bool (Shared Bool Catalog) (Op Query) (OpReply QueryReply) InstallError
        (Option PostgresBackend),
      c.prog true = some (.pure none) ∧ c.prog false = some (.fail .raised) ∧
        c.state.committed = install emptyServer := by
  have h0 : Reachable (system Does) ⟨emptyServer, none, []⟩ (fun t => (sampleCalls t).program)
      (start _ _) := .refl
  have h1 := h0.exec (t := true) (r := some (160004, "UTF8")) rfl
    (.inr ⟨(fun _ h => by cases h), .inl ⟨_, rfl, rfl, rfl⟩, rfl⟩)
  have h2 := h1.exec (t := true) (r := true) rfl (.inl ⟨rfl, rfl, rfl⟩)
  have h3 := h2.exec (t := true) (r := some ()) rfl
    (.inl ⟨_, _, rfl, .inl ⟨(), rfl, rfl, rfl⟩, rfl⟩)
  have h4 := h3.exec (t := true) (r := some ()) rfl
    (.inl ⟨_, _, rfl, .inl ⟨(), rfl, _, rfl, rfl⟩, rfl⟩)
  have h5 := h4.exec (t := true) (r := some ()) rfl
    (.inl ⟨_, _, rfl, .inl ⟨(), rfl, _, rfl, rfl⟩, rfl⟩)
  have h6 := h5.exec (t := true) (r := some ()) rfl
    (.inl ⟨_, _, rfl, .inl ⟨(), rfl, _, rfl, rfl⟩, rfl⟩)
  have h7 := h6.exec (t := false) (r := none) rfl
    (.inr ⟨(fun _ h => by cases h), .inr ⟨rfl, rfl⟩, rfl⟩)
  have h8 := h7.exec (t := false) (r := ()) rfl rfl
  have h9 := h8.exec (t := true) (r := some ()) rfl
    (.inl ⟨_, _, rfl, .inl ⟨(), rfl, _, rfl, rfl, rfl⟩, rfl⟩)
  have h10 := h9.exec (t := true) (r := true) rfl (.inl ⟨_, rfl, .inl rfl⟩)
  have h11 := h10.exec (t := true) (r := ()) rfl rfl
  exact ⟨_, rfl, rfl, ((installed_at_most_once h11).2.1 true rfl rfl).2.1⟩

end DrStore.Store.Installation
