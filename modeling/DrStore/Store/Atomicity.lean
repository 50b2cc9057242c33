import DrStore.Store.Immutability
import DrStore.Store.Postgres
import DrStore.Store.Sqlite

/-! # Batch writes are all-or-nothing

The write transactions once more, with every statement free to raise: `_immediate` of the
SQLite backend and the transaction that `_run_connection_operation` begins. A statement that
raises may have done part of its work and may have ended the transaction; what is committed
changes by a COMMIT that returns, and by nothing else. -/
namespace DrStore.Store.Atomicity
open DrStore.Base.Collections DrStore.Base.Fallible DrStore.Base.Programs
open DrStore.Store.ContentAddressing DrStore.Store.Contract DrStore.Store.Immutability
open DrStore.Store.Memory DrStore.Store.ObjectStore DrStore.Store.Postgres DrStore.Store.Sqlite
open DrStore.Store.Statements

/-! ## A connection whose statements may raise -/

inductive Action where
  | begin
  | commit
  | rollback
  | inTransaction
  | query (q : Query)

abbrev ActionReply : Action → Type
  | .query q => Except StoreError (QueryReply q)
  | .inTransaction => Bool
  | _ => Except StoreError Unit

/-- The committed tables, and those of the open transaction. -/
structure Connection where
  committed : Tables
  working : Option Tables

def Connection.Does (c : Connection) : (a : Action) → ActionReply a → Connection → Prop
  | .begin, .ok _, c' => c.working = none ∧ c' = ⟨c.committed, some c.committed⟩
  | .begin, .error _, c' => c' = c
  | .commit, .ok _, c' => c' = ⟨c.working.getD c.committed, none⟩
  | .commit, .error _, c' => c'.committed = c.committed
  | .rollback, .ok _, c' => c' = ⟨c.committed, none⟩
  | .rollback, .error _, c' => c'.committed = c.committed
  | .inTransaction, open', c' => open' = c.working.isSome ∧ c' = c
  | .query q, .ok r, c' => match c.working with
    | some t => ∃ t', q.Does t r t' ∧ c' = ⟨c.committed, some t'⟩
    | none => ∃ t', q.Does c.committed r t' ∧ c' = ⟨t', none⟩
  -- part of its work, or the transaction rolled back by the database
  | .query _, .error _, c' => c'.committed = c.committed

abbrev Attempt (α : Type) := Prog Action ActionReply StoreError α

variable {α : Type}

def send (q : Query) : Attempt (QueryReply q) := .exec (.query q) Prog.ofExcept

def commit (a : α) : Attempt α := .exec .commit fun
  | .ok _ => .pure a
  | .error e => .fail e

/-- Roll back, then raise: the error that led here, or that of the rollback. -/
def rollbackAfter (e : StoreError) : Attempt α := .exec .rollback fun
  | .ok _ => .fail e
  | .error e' => .fail e'

/-- `with self._immediate()`. -/
def immediate (body : Program α) : Attempt α :=
  .exec .begin fun
    | .error e => .fail e
    | .ok _ => (body.translate send >>= commit).settle fun
      | .ok a => .pure a
      | .error e => .exec .inTransaction fun
        | true => rollbackAfter e
        | false => .fail e

/-- `async with acquired.begin()`. -/
def begun (body : Program α) : Attempt α :=
  .exec .begin fun
    | .error e => .fail e
    | .ok _ => (body.translate send >>= commit).settle fun
      | .ok a => .pure a
      | .error e => rollbackAfter e

/-! ## The calls -/

inductive Write where
  | putObject (schema contentHash canonical : String)
  | bind (key schema contentHash : String)
  | putBoundObjects (entries : List BoundObjectWrite)
  | deleteBindings (keys : List String)

def Write.call : Write → Call
  | .putObject schema contentHash canonical => .putObject schema contentHash canonical
  | .bind key schema contentHash => .bind key schema contentHash
  | .putBoundObjects entries => .putBoundObjects entries
  | .deleteBindings keys => .deleteBindings keys

section Runners

variable {Op : Type} {Rep : Op → Type}
  (transact : Program Reply → Prog Op Rep StoreError Reply)

/-- The writes of the SQLite backend, with the way their bodies are run. -/
def sqliteWrite : Write → Prog Op Rep StoreError Reply
  | .putObject schema contentHash canonical =>
    transact (do return .put (← SqliteBackend.putObject schema contentHash canonical))
  | .bind key schema contentHash =>
    transact (do return .bind (← SqliteBackend.bind key schema contentHash))
  | .putBoundObjects entries =>
    if entries = [] then .pure (.outcomes Dict.empty)
    else transact (do return .outcomes (← SqliteBackend.putBoundObjects entries))
  | .deleteBindings keys =>
    if keys = [] then .pure (.deleted [])
    else transact (do return .deleted (← SqliteBackend.deleteBindings keys))

/-- The awaited writes of the PostgreSQL backend. -/
def postgresWrite (b : PostgresBackend) : Write → Prog Op Rep StoreError Reply
  | .putObject schema contentHash canonical => transact (do
      return .put (← PostgresBackend.putObjectOnConnection schema contentHash canonical))
  | .bind key schema contentHash => transact (do
      return .bind (← PostgresBackend.bindOnConnection key schema contentHash))
  | .putBoundObjects entries =>
    if entries = [] then .pure (.outcomes Dict.empty)
    else transact (do
      return .outcomes (← PostgresBackend.putBoundObjectsOnConnection b.batchChunkSize entries))
  | .deleteBindings keys =>
    let distinctKeys := keys.eraseDups
    if distinctKeys = [] then .pure (.deleted [])
    else transact (do
      return .deleted (← PostgresBackend.deleteBindingsOnConnection b.batchChunkSize distinctKeys))

end Runners

/-- Run in transactions whose statements do not raise, they are the backends' programs. -/
theorem write_programs (w : Write) : sqliteWrite transaction w = SqliteBackend.program w.call ∧
    ∀ b : PostgresBackend, postgresWrite transaction b w = b.program w.call := by
  cases w <;> exact ⟨rfl, fun _ => rfl⟩

/-- Check the arguments, then attempt the write. -/
def attempt (w : Write) (p : Attempt Reply) : Attempt Reply :=
  match w.call.validate with
  | .error e => .fail e
  | .ok _ => p

/-! ## What a transaction leaves -/

/-- The whole of a write is in the tables: every object with its text, every key. -/
def Complete (t : Tables) : Write → Prop
  | .putObject schema contentHash _ => (t.objects (schema, contentHash)).isSome = true
  | .bind key _ _ => (t.bindings key).isSome = true
  | .putBoundObjects entries => ∀ e ∈ entries,
      t.objects e.reference = some e.canonical ∧ (t.bindings e.key).isSome = true
  | .deleteBindings keys => ∀ key ∈ keys, t.bindings key = none

variable {D : DrSerialize}

/-- An entry that `put_many` accepts. -/
def Acceptable (D : DrSerialize) (entry : String × String × D.Jsonable) : Prop :=
  isStorageText entry.1 = true ∧ isReferenceSchema entry.2.1 = true ∧
    ∃ validated canonical, Encodes D entry.2.2 validated canonical

end DrStore.Store.Atomicity
